import SuperVoice.Http.SseDelivery

/-! The buffer of an `SseStream` over whole runs: what its byte counter counts, and which of the
frames put into it reach the response stream. -/
namespace SuperVoice.Http
open Transition
variable {options : SseOptions} {takes : Nat → Bool}

/-- The frames before the first that is not taken, when they are numbered from `n` on. -/
def upToRefusal (takes : Nat → Bool) (n : Nat) : List Bytes → List Bytes
  | [] => []
  | front :: rest => if takes n then front :: upToRefusal takes (n + 1) rest else []

theorem upToRefusal_append (n : Nat) (xs ys : List Bytes) :
    upToRefusal takes n (xs ++ ys) =
      if upToRefusal takes n xs = xs then xs ++ upToRefusal takes (n + xs.length) ys
      else upToRefusal takes n xs := by
  induction xs generalizing n with
  | nil => simp [upToRefusal]
  | cons x xs ih =>
    cases htakes : takes n with
    | false => simp [upToRefusal, htakes]
    | true =>
      have hn : n + 1 + xs.length = n + (xs.length + 1) := by omega
      simp only [List.cons_append, upToRefusal, htakes, if_true, ih, hn, List.cons.injEq, true_and,
        List.length_cons]
      split <;> rfl

namespace SseStream
variable {s s' : SseStream} {frame : Bytes}

/-- The stream with one more frame in its buffer. -/
def bufferedWith (s : SseStream) (frame : Bytes) : SseStream :=
  { s with pending := s.pending ++ [frame], bufferedBytes := s.bufferedBytes + frame.length }

/-- No subtraction of `flushUnlocked` is from a smaller number. -/
def NeverWraps (takes : Nat → Bool) (s : SseStream) : List Bytes → Prop
  | [] => True
  | front :: rest => takes s.sent.length = true → front.length ≤ s.bufferedBytes ∧
      NeverWraps takes { s with sent := s.sent ++ [front]
                                bufferedBytes := s.bufferedBytes - front.length
                                pending := rest } rest

theorem neverWraps {frames : List Bytes} (h : s.bufferedBytes = totalBytes frames) :
    s.NeverWraps takes frames := by
  induction frames generalizing s with
  | nil => trivial
  | cons front rest ih =>
    intro _
    rw [totalBytes_cons] at h
    refine ⟨by omega, ih ?_⟩
    show s.bufferedBytes - front.length = totalBytes rest
    omega

theorem enqueueUnlocked_cases (hs : s.enqueueUnlocked options takes frame = some s') :
    (s.closed || frame.isEmpty) = true ∧ s' = s ∨
      ¬ (s.closed || frame.isEmpty) = true ∧ s.closed = false ∧
        s' = (s.bufferedWith frame).flushUnlocked takes := by
  unfold enqueueUnlocked at hs
  split at hs
  case isTrue hskip =>
    cases hs
    exact .inl ⟨hskip, rfl⟩
  case isFalse hskip =>
    have hopen : s.closed = false := by
      cases hclosed : s.closed with
      | false => rfl
      | true => exact absurd (by simp [hclosed]) hskip
    dsimp only at hs
    split at hs
    · cases hs
    · cases hs
      exact .inr ⟨hskip, hopen, rfl⟩

/-- The frames that a lock section puts into the buffer. -/
def appended (s : SseStream) : LockSection → List Bytes
  | .ready => if s.closed then [] else [defaultRetry]
  | .enqueue frame => if s.closed || frame.isEmpty then [] else [frame]
  | .close => []
  | .heartbeat =>
    if s.heartbeatTimer && s.streamReady && !s.closed then [heartbeatComment] else []

/-- Flushing hands over what is taken and leaves an empty buffer; a refusal closes the stream. -/
theorem flushFrames_spec (takes : Nat → Bool) (s : SseStream) (frames : List Bytes) :
    (s.flushFrames takes frames).sent =
        s.sent ++ upToRefusal takes s.sent.length frames ∧
      (s.flushFrames takes frames).pending = [] ∧
      (s.flushFrames takes frames).streamReady = s.streamReady ∧
      if upToRefusal takes s.sent.length frames = frames then
        (s.flushFrames takes frames).closed = s.closed ∧
          (s.flushFrames takes frames).stream = s.stream ∧
          (s.flushFrames takes frames).bufferedBytes = s.bufferedBytes - totalBytes frames
      else
        (s.flushFrames takes frames).closed = true ∧
          (s.flushFrames takes frames).bufferedBytes = 0 := by
  induction frames generalizing s with
  | nil => simp [flushFrames, upToRefusal]
  | cons front rest ih =>
    cases htakes : takes s.sent.length with
    | false => simp [flushFrames, upToRefusal, htakes, cancelHeartbeatUnlocked]
    | true =>
      have hrest := ih { s with sent := s.sent ++ [front]
                                bufferedBytes := s.bufferedBytes - front.length
                                pending := rest }
      simp only [List.length_append, List.length_singleton] at hrest
      simpa only [flushFrames, upToRefusal, htakes, if_true, totalBytes_cons, List.append_assoc,
        List.singleton_append, List.cons.injEq, true_and, Nat.sub_sub] using hrest

end SseStream

/-- A stream with the frames that have been put into its buffer so far. -/
structure Recorded where
  stream : SseStream := {}
  enqueued : List Bytes := []

namespace Recorded
variable {s s' : Recorded}

variable (options takes) in
def step (s : Recorded) (turn : LockSection) : Option Recorded :=
  (s.stream.step options takes turn).map fun stream =>
    ⟨stream, s.enqueued ++ s.stream.appended turn⟩

/-- What holds between two lock sections. -/
structure Consistent (takes : Nat → Bool) (s : Recorded) : Prop where
  counted : s.stream.bufferedBytes = totalBytes s.stream.pending
  closed : s.stream.closed = true → s.stream.pending = []
  ready : s.stream.streamReady = true → s.stream.closed = false →
    s.stream.stream = true ∧ s.stream.pending = []
  opened : s.stream.closed = false → s.stream.sent ++ s.stream.pending = s.enqueued
  handed : s.stream.sent =
    if s.stream.streamReady then upToRefusal takes 0 s.enqueued else []

/-- An open stream that may still have to flush. -/
structure Filled (takes : Nat → Bool) (s : Recorded) : Prop where
  counted : s.stream.bufferedBytes = totalBytes s.stream.pending
  opened : s.stream.closed = false
  all : s.stream.sent ++ s.stream.pending = s.enqueued
  taken : upToRefusal takes 0 s.stream.sent = s.stream.sent
  attached : s.stream.streamReady = true → s.stream.stream = true
  waiting : s.stream.streamReady = false → s.stream.sent = []

theorem consistent_start : Consistent takes {} where
  counted := rfl
  closed _ := rfl
  ready h := by cases h
  opened _ := rfl
  handed := rfl

theorem Consistent.filled (h : s.Consistent takes) (hopen : s.stream.closed = false) :
    s.Filled takes where
  counted := h.counted
  opened := hopen
  all := h.opened hopen
  taken := by
    cases hready : s.stream.streamReady with
    | false =>
      rw [h.handed, hready]
      rfl
    | true =>
      have hall := h.opened hopen
      rw [(h.ready hready hopen).2, List.append_nil] at hall
      have hsent := h.handed
      rw [hready, if_pos rfl, ← hall] at hsent
      exact hsent.symm
  attached hready := (h.ready hready hopen).1
  waiting hready := by
    rw [h.handed, hready]
    rfl

theorem Filled.add (h : s.Filled takes) (frame : Bytes) :
    Filled takes ⟨s.stream.bufferedWith frame, s.enqueued ++ [frame]⟩ where
  counted := by simp [SseStream.bufferedWith, h.counted]
  opened := h.opened
  all := by simp [SseStream.bufferedWith, ← h.all]
  taken := h.taken
  attached := h.attached
  waiting := h.waiting

theorem Filled.attach (h : s.Filled takes) :
    Filled takes ⟨{ s.stream with stream := true, streamReady := true }, s.enqueued⟩ where
  counted := h.counted
  opened := h.opened
  all := h.all
  taken := h.taken
  attached _ := rfl
  waiting hready := by cases hready

theorem Filled.flush (h : s.Filled takes) :
    Consistent takes ⟨s.stream.flushUnlocked takes, s.enqueued⟩ := by
  cases hready : s.stream.streamReady with
  | false =>
    have hsame : s.stream.flushUnlocked takes = s.stream := by
      simp [SseStream.flushUnlocked, hready]
    rw [hsame]
    refine ⟨h.counted, fun hclosed => ?_, fun hr => ?_, fun _ => h.all, ?_⟩
    · cases hclosed.symm.trans h.opened
    · cases hr.symm.trans hready
    · rw [hready]
      exact h.waiting hready
  | true =>
    have hflush : s.stream.flushUnlocked takes =
        s.stream.flushFrames takes s.stream.pending := by
      simp [SseStream.flushUnlocked, hready, h.attached hready]
    obtain ⟨hsent, hpending, hr, hend⟩ :=
      SseStream.flushFrames_spec takes s.stream s.stream.pending
    have hall : upToRefusal takes 0 s.enqueued =
        s.stream.sent ++ upToRefusal takes s.stream.sent.length s.stream.pending := by
      rw [← h.all, upToRefusal_append, if_pos h.taken, Nat.zero_add]
    rw [hflush]
    refine ⟨?_, fun _ => hpending, fun _ hopen => ⟨?_, hpending⟩, fun hopen => ?_, ?_⟩
    · rw [hpending]
      split at hend
      · rw [hend.2.2, h.counted, Nat.sub_self]
        rfl
      · exact hend.2
    · split at hend
      · rw [hend.2.1]
        exact h.attached hready
      · cases hopen.symm.trans hend.1
    · split at hend
      case isTrue htaken =>
        rw [hsent, hpending, htaken, List.append_nil, h.all]
      case isFalse =>
        cases hopen.symm.trans hend.1
    · rw [hsent, hr, hready, if_pos rfl, hall]

theorem Consistent.enqueue {frame : Bytes} {stream' : SseStream} (h : s.Consistent takes)
    (hs : s.stream.enqueueUnlocked options takes frame = some stream') :
    Consistent takes ⟨stream', s.enqueued ++ s.stream.appended (.enqueue frame)⟩ := by
  unfold SseStream.appended
  dsimp only
  obtain ⟨hskip, rfl⟩ | ⟨hskip, hopen, rfl⟩ := SseStream.enqueueUnlocked_cases hs
  · rw [if_pos hskip, List.append_nil]
    exact h
  · rw [if_neg hskip]
    exact ((h.filled hopen).add frame).flush

theorem Consistent.schedule (h : s.Consistent takes) :
    Consistent takes ⟨s.stream.scheduleHeartbeatUnlocked options, s.enqueued⟩ := by
  unfold SseStream.scheduleHeartbeatUnlocked
  split
  · exact h
  · exact ⟨h.counted, h.closed, h.ready, h.opened, h.handed⟩

/-- The second flush of `onStreamReady` finds nothing to do. -/
theorem Consistent.flushUnlocked (h : s.Consistent takes) :
    s.stream.flushUnlocked takes = s.stream := by
  unfold SseStream.flushUnlocked
  split
  case isTrue hready =>
    have hpending : s.stream.pending = [] := by
      rw [Bool.and_eq_true] at hready
      cases hclosed : s.stream.closed with
      | true => exact h.closed hclosed
      | false => exact (h.ready hready.1 hclosed).2
    rw [hpending, SseStream.flushFrames, ← hpending]
  case isFalse => rfl

theorem Consistent.onStreamReady {stream' : SseStream} (h : s.Consistent takes)
    (hs : s.stream.onStreamReady options takes = some stream') :
    Consistent takes ⟨stream', s.enqueued ++ s.stream.appended .ready⟩ := by
  unfold SseStream.onStreamReady at hs
  unfold SseStream.appended
  dsimp only
  split at hs
  case isTrue hclosed =>
    cases hs
    rw [if_pos hclosed, List.append_nil]
    exact ⟨h.counted, h.closed, h.ready, h.opened, h.handed⟩
  case isFalse hclosed =>
    have hopen : s.stream.closed = false := Bool.eq_false_iff.mpr hclosed
    obtain ⟨stream₁, hs₁, rfl⟩ := Option.map_eq_some_iff.mp hs
    obtain ⟨hskip, -⟩ | ⟨-, -, rfl⟩ := SseStream.enqueueUnlocked_cases hs₁
    · have hempty : defaultRetry.isEmpty = false := by decide
      simp [hopen, hempty] at hskip
    · have hflushed := ((h.filled hopen).attach.add defaultRetry).flush
      rw [if_neg hclosed, hflushed.flushUnlocked]
      exact hflushed.schedule

theorem Consistent.heartbeat (h : s.Consistent takes) :
    Consistent takes ⟨if s.stream.heartbeatTimer then s.stream.sendHeartbeatUnlocked takes
      else s.stream, s.enqueued ++ s.stream.appended .heartbeat⟩ := by
  by_cases hsends : (s.stream.heartbeatTimer && s.stream.streamReady && !s.stream.closed) = true
  · have happended : s.stream.appended .heartbeat = [heartbeatComment] := if_pos hsends
    simp only [Bool.and_eq_true, Bool.not_eq_true'] at hsends
    obtain ⟨⟨htimer, hready⟩, hopen⟩ := hsends
    have hskip : ¬ (!s.stream.streamReady || s.stream.closed) = true := by simp [hready, hopen]
    rw [happended, if_pos htimer, SseStream.sendHeartbeatUnlocked, if_neg hskip]
    exact ((h.filled hopen).add heartbeatComment).flush
  · have happended : s.stream.appended .heartbeat = [] := if_neg hsends
    have hsame : (if s.stream.heartbeatTimer then s.stream.sendHeartbeatUnlocked takes
        else s.stream) = s.stream := by
      unfold SseStream.sendHeartbeatUnlocked
      split
      case isTrue htimer =>
        apply if_pos
        simpa [htimer, imp_iff_not_or] using hsends
      case isFalse => rfl
    rw [happended, hsame, List.append_nil]
    exact h

theorem Consistent.close (h : s.Consistent takes) :
    Consistent takes ⟨s.stream.closeStream, s.enqueued ++ s.stream.appended .close⟩ := by
  rw [SseStream.appended, List.append_nil, SseStream.closeStream]
  split
  · exact h
  · refine ⟨rfl, fun _ => rfl, fun _ hopen => ?_, fun hopen => ?_, h.handed⟩
    · cases hopen
    · cases hopen

theorem Consistent.step {turn : LockSection} (h : s.Consistent takes)
    (hs : s.step options takes turn = some s') : s'.Consistent takes := by
  obtain ⟨stream', hstep, rfl⟩ := Option.map_eq_some_iff.mp hs
  cases turn with
  | ready => exact h.onStreamReady hstep
  | enqueue frame => exact h.enqueue hstep
  | close =>
    cases hstep
    exact h.close
  | heartbeat =>
    rw [SseStream.step, ← apply_ite some] at hstep
    cases hstep
    exact h.heartbeat

theorem consistent_run {turns : List LockSection} (h : s.Consistent takes)
    (hs : run (Recorded.step options takes) s turns = some s') : s'.Consistent takes :=
  (Reach.of_run hs).invariant h fun _ _ _ hi _ hstep => hi.step hstep

/-- A closed stream puts nothing into its buffer and hands nothing over. -/
theorem step_closed {turn : LockSection} (hclosed : s.stream.closed = true)
    (hs : s.step options takes turn = some s') :
    s'.stream.closed = true ∧ s'.stream.sent = s.stream.sent ∧ s'.enqueued = s.enqueued := by
  obtain ⟨stream', hstep, rfl⟩ := Option.map_eq_some_iff.mp hs
  cases turn with
  | ready =>
    rw [SseStream.step, SseStream.onStreamReady, if_pos hclosed] at hstep
    cases hstep
    simp [SseStream.appended, hclosed]
  | enqueue frame =>
    rw [SseStream.step, SseStream.enqueueUnlocked, hclosed, Bool.true_or, if_pos rfl] at hstep
    cases hstep
    simp [SseStream.appended, hclosed]
  | close =>
    cases hstep
    simp [SseStream.appended, SseStream.closeStream, hclosed]
  | heartbeat =>
    rw [SseStream.step, SseStream.sendHeartbeatUnlocked, hclosed, Bool.or_true, if_pos rfl,
      ite_self] at hstep
    cases hstep
    simp [SseStream.appended, hclosed]

theorem run_closed {turns : List LockSection} (hclosed : s.stream.closed = true)
    (hs : run (Recorded.step options takes) s turns = some s') :
    s'.stream.sent = s.stream.sent := by
  induction turns generalizing s with
  | nil =>
    cases hs
    rfl
  | cons turn turns ih =>
    obtain ⟨m, hm, hrest⟩ := Option.bind_eq_some_iff.mp hs
    obtain ⟨hclosed', hsent, -⟩ := step_closed hclosed hm
    rw [ih hclosed' hrest, hsent]

end Recorded

/-- Between any two lock sections the counter is the size of the buffer and no subtraction from it
wraps, a closed stream is empty and stays silent, and what has been handed over are the frames put
into the buffer, in order, up to the first that is refused or to the close. -/
theorem buffer_consistent (options : SseOptions) (takes : Nat → Bool)
    {turns : List LockSection} {s : Recorded}
    (h : run (Recorded.step options takes) {} turns = some s) :
    s.stream.bufferedBytes = totalBytes s.stream.pending ∧
      (∀ frame, (s.stream.bufferedWith frame).NeverWraps takes
        (s.stream.bufferedWith frame).pending) ∧
      (s.stream.closed = true → s.stream.pending = [] ∧ s.stream.bufferedBytes = 0 ∧
        ∀ later s', run (Recorded.step options takes) s later = some s' →
          s'.stream.sent = s.stream.sent) ∧
      s.stream.sent = (if s.stream.streamReady then upToRefusal takes 0 s.enqueued else []) ∧
      (s.stream.closed = false → s.stream.sent ++ s.stream.pending = s.enqueued) := by
  have hs := Recorded.consistent_run Recorded.consistent_start h
  refine ⟨hs.counted, fun frame => ?_, fun hclosed => ⟨hs.closed hclosed, ?_, ?_⟩, hs.handed,
    hs.opened⟩
  · apply SseStream.neverWraps
    simp [SseStream.bufferedWith, hs.counted]
  · rw [hs.counted, hs.closed hclosed]
    rfl
  · intro later s' hrun
    exact Recorded.run_closed hclosed hrun

def refusingRun : List LockSection :=
  [.enqueue (Bytes.ascii "a"), .ready, .heartbeat, .enqueue (Bytes.ascii "b"), .heartbeat]

/-- The response stream takes three frames and refuses the fourth. -/
theorem buffer_consistent_refusing :
    (run (Recorded.step {} fun n => n < 3) {} refusingRun).map (fun s => s.stream.sent) =
        some [Bytes.ascii "a", defaultRetry, heartbeatComment] ∧
      ∀ s, run (Recorded.step {} fun n => n < 3) {} refusingRun = some s →
        s.stream.bufferedBytes = totalBytes s.stream.pending := by
  refine ⟨by decide, fun s hs => ?_⟩
  exact (buffer_consistent {} (fun n => n < 3) hs).1

end SuperVoice.Http
