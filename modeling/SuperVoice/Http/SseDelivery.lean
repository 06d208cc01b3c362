import SuperVoice.Http.Sse

/-! What an `SseStream` hands to a response stream that takes every frame, when readiness comes at
any point among the sends and the `sendDone` that ends them. -/
namespace SuperVoice.Http
open Providers Transition

/-- The bytes of a list of frames. -/
def totalBytes (frames : List Bytes) : Nat := (frames.map List.length).sum

@[simp] theorem totalBytes_nil : totalBytes [] = 0 := rfl

@[simp] theorem totalBytes_cons (f : Bytes) (fs : List Bytes) :
    totalBytes (f :: fs) = f.length + totalBytes fs := by
  simp [totalBytes]

@[simp] theorem totalBytes_append (fs gs : List Bytes) :
    totalBytes (fs ++ gs) = totalBytes fs + totalBytes gs := by
  simp [totalBytes]

namespace SseStream
variable (options : SseOptions)

/-- The stream before readiness, holding these frames. -/
def buffered (frames : List Bytes) : SseStream where
  pending := frames
  bufferedBytes := totalBytes frames

/-- The stream after readiness, when these frames have been handed over. -/
def streaming (frames : List Bytes) : SseStream where
  stream := true
  heartbeatTimer := 0 < options.heartbeatInterval
  streamReady := true
  sent := frames

/-- The stream after a close that came after readiness. -/
def finished (frames : List Bytes) : SseStream where
  streamReady := true
  closed := true
  sent := frames
  streamClosed := true

def everyFrame : Nat → Bool := fun _ => true

variable {options}

/-- A response stream that takes every frame is given the whole buffer. -/
theorem flushFrames_everyFrame (s : SseStream) (frames : List Bytes) :
    s.flushFrames everyFrame frames =
      { s with sent := s.sent ++ frames, pending := []
               bufferedBytes := s.bufferedBytes - totalBytes frames } := by
  induction frames generalizing s with
  | nil => simp [flushFrames]
  | cons front rest ih =>
    rw [flushFrames, show everyFrame s.sent.length = true from rfl, if_pos rfl, ih]
    simp [Nat.sub_sub]

theorem enqueue_buffered {frames : List Bytes} {frame : Bytes} (hne : frame ≠ [])
    (hfit : totalBytes (frames ++ [frame]) ≤ options.maxBufferedBytes) :
    step options everyFrame (buffered frames) (.enqueue frame) =
      some (buffered (frames ++ [frame])) := by
  simp only [totalBytes_append, totalBytes_cons, totalBytes_nil, Nat.add_zero] at hfit
  simp [step, enqueueUnlocked, buffered, flushUnlocked, hne, hfit]

theorem run_enqueue_buffered (sent : List Bytes) {frames : List Bytes}
    (hne : ∀ f ∈ frames, f ≠ []) (hfit : totalBytes (sent ++ frames) ≤ options.maxBufferedBytes) :
    run (step options everyFrame) (buffered sent) (frames.map .enqueue) =
      some (buffered (sent ++ frames)) := by
  induction frames generalizing sent with
  | nil => simp [run]
  | cons f fs ih =>
    have hfirst : totalBytes (sent ++ [f]) ≤ options.maxBufferedBytes := by
      simp only [totalBytes_append, totalBytes_cons, totalBytes_nil] at hfit ⊢
      omega
    rw [List.map_cons, run, enqueue_buffered (hne f List.mem_cons_self) hfirst]
    simp only [Option.bind_some]
    rw [ih _ (fun g hg => hne g (List.mem_cons_of_mem f hg)) (by simpa using hfit)]
    simp

/-- Readiness hands over what is buffered and then the retry line, unless that line no longer fits
in the buffer: then it blocks for ever. -/
theorem ready_buffered (frames : List Bytes) :
    step options everyFrame (buffered frames) .ready =
      if totalBytes frames + defaultRetry.length ≤ options.maxBufferedBytes then
        some (streaming options (frames ++ [defaultRetry]))
      else none := by
  have hne : defaultRetry.isEmpty = false := by decide
  by_cases hfit : totalBytes frames + defaultRetry.length ≤ options.maxBufferedBytes
  · have hover : ¬ options.maxBufferedBytes < totalBytes frames + defaultRetry.length := by omega
    rw [if_pos hfit]
    simp only [step, onStreamReady, enqueueUnlocked, buffered, hne, hover, Bool.or_self,
      Bool.false_eq_true, if_false, Option.map_some, flushUnlocked, Bool.and_self, if_true,
      flushFrames_everyFrame, scheduleHeartbeatUnlocked, streaming, List.append_nil,
      totalBytes_append, totalBytes_cons, totalBytes_nil, Nat.add_zero, Nat.sub_self,
      List.nil_append]
    by_cases hi : options.heartbeatInterval ≤ 0
    · have : ¬ 0 < options.heartbeatInterval := by omega
      simp [hi, this]
    · have : 0 < options.heartbeatInterval := by omega
      simp [hi, this]
  · have hover : options.maxBufferedBytes < totalBytes frames + defaultRetry.length := by omega
    rw [if_neg hfit]
    simp [step, onStreamReady, enqueueUnlocked, buffered, hne, hover]

theorem enqueue_streaming {sent : List Bytes} {frame : Bytes} (hne : frame ≠ [])
    (hfit : frame.length ≤ options.maxBufferedBytes) :
    step options everyFrame (streaming options sent) (.enqueue frame) =
      some (streaming options (sent ++ [frame])) := by
  simp [step, enqueueUnlocked, streaming, flushUnlocked, flushFrames_everyFrame, hne, hfit]

theorem run_enqueue_streaming {sent frames : List Bytes} (hne : ∀ f ∈ frames, f ≠ [])
    (hfit : totalBytes frames ≤ options.maxBufferedBytes) :
    run (step options everyFrame) (streaming options sent) (frames.map .enqueue) =
      some (streaming options (sent ++ frames)) := by
  induction frames generalizing sent with
  | nil => simp [run]
  | cons f fs ih =>
    simp only [totalBytes_cons] at hfit
    rw [List.map_cons, run, enqueue_streaming (hne f List.mem_cons_self) (by omega)]
    simp only [Option.bind_some]
    rw [ih (fun g hg => hne g (List.mem_cons_of_mem f hg)) (by omega)]
    simp

/-- Readiness before the close. -/
theorem run_ready_early (before after : List Bytes) (hne : ∀ f ∈ before ++ after, f ≠ [])
    (hfit : totalBytes (before ++ after) ≤ options.maxBufferedBytes) :
    run (step options everyFrame) {}
        (before.map .enqueue ++ .ready :: (after.map .enqueue ++ [.close])) =
      if totalBytes before + defaultRetry.length ≤ options.maxBufferedBytes then
        some (finished (before ++ defaultRetry :: after))
      else none := by
  simp only [totalBytes_append] at hfit
  have hbefore : run (step options everyFrame) {} (before.map .enqueue) =
      some (buffered before) :=
    run_enqueue_buffered [] (fun f hf => hne f (List.mem_append_left _ hf))
      (by simpa using Nat.le_of_add_right_le hfit)
  rw [run_append, hbefore, Option.bind_some, run, ready_buffered]
  by_cases hroom : totalBytes before + defaultRetry.length ≤ options.maxBufferedBytes
  · rw [if_pos hroom, if_pos hroom, Option.bind_some, run_append,
      run_enqueue_streaming (fun f hf => hne f (List.mem_append_right _ hf)) (by omega)]
    simp [run, step, closeStream, cancelHeartbeatUnlocked, streaming, finished]
  · rw [if_neg hroom, if_neg hroom, Option.bind_none]

/-- Readiness after the close. -/
theorem run_ready_late {frames : List Bytes} (hne : ∀ f ∈ frames, f ≠ [])
    (hfit : totalBytes frames ≤ options.maxBufferedBytes) :
    run (step options everyFrame) {} (frames.map .enqueue ++ [.close, .ready]) =
      some { closed := true, streamClosed := true } := by
  have hframes : run (step options everyFrame) {} (frames.map .enqueue) = some (buffered frames) :=
    run_enqueue_buffered [] hne (by simpa using hfit)
  rw [run_append, hframes]
  simp [run, step, closeStream, cancelHeartbeatUnlocked, buffered, onStreamReady]

end SseStream

section
variable (options : SseOptions) (writeString : Json → Bytes) (events : List StreamEvent)
  (finalPayload : Json)

/-- The frames of all events, the done event last. -/
def eventFrames : List Bytes :=
  events.map (fun e => e.frame writeString) ++ [doneFrame writeString finalPayload]

/-- The lock sections of sending the events and then `sendDone`. -/
def sendAll : List LockSection :=
  events.map (fun e => .enqueue (e.frame writeString)) ++ sendDone writeString finalPayload

/-- The bytes that wait in the buffer after these lock sections. -/
def waitingBytes (before : List LockSection) : Nat :=
  totalBytes (before.filterMap LockSection.frame?)

/-- The run ends with the retry line and exactly the frames of all events handed over, these in
order. -/
def HandsOverAll (schedule : List LockSection) : Prop :=
  ∃ s before after, run (SseStream.step options SseStream.everyFrame) {} schedule = some s ∧
    before ++ after = eventFrames writeString events finalPayload ∧
    s.sent = before ++ defaultRetry :: after

/-- Moreover the last of them is the done event. -/
def Delivers (schedule : List LockSection) : Prop :=
  ∃ s before after, run (SseStream.step options SseStream.everyFrame) {} schedule = some s ∧
    before ++ after = eventFrames writeString events finalPayload ∧
    s.sent = before ++ defaultRetry :: after ∧
    s.sent.getLast? = some (doneFrame writeString finalPayload)

end

variable {options : SseOptions} {writeString : Json → Bytes} {events : List StreamEvent}
  {finalPayload : Json} {before after : List LockSection}

theorem sendAll_eq : sendAll writeString events finalPayload =
    (eventFrames writeString events finalPayload).map .enqueue ++ [.close] := by
  simp [sendAll, eventFrames, sendDone]

theorem eventFrames_ne_nil :
    ∀ f ∈ eventFrames writeString events finalPayload, f ≠ [] := by
  intro f hf
  simp only [eventFrames, List.mem_append, List.mem_map, List.mem_singleton] at hf
  obtain ⟨e, -, rfl⟩ | rfl := hf
  · exact e.frame_ne_nil writeString
  · exact formatEvent_ne_nil _ _

theorem doneFrame_ne_retry : doneFrame writeString finalPayload ≠ defaultRetry := by
  intro h
  have hhead := congrArg List.head? h
  have hleft : (doneFrame writeString finalPayload).head? = some 101 := rfl
  rw [hleft] at hhead
  exact absurd hhead (by decide)

/-- Readiness comes after the close, or before it with some frames already sent and the others
still to come. -/
theorem sendAll_cases (hs : before ++ after = sendAll writeString events finalPayload) :
    before = (eventFrames writeString events finalPayload).map .enqueue ++ [.close] ∧ after = [] ∨
      ∃ l r, l ++ r = eventFrames writeString events finalPayload ∧
        before = l.map .enqueue ∧ after = r.map .enqueue ++ [.close] := by
  rw [sendAll_eq] at hs
  obtain ⟨mid, hframes, hafter⟩ | ⟨mid, hbefore, hclose⟩ := List.append_eq_append_iff.mp hs
  · obtain ⟨l, r, hlr, hl, hr⟩ := List.map_eq_append_iff.mp hframes
    exact .inr ⟨l, r, hlr.symm, hl.symm, by rw [hafter, hr]⟩
  · cases mid with
    | nil => exact .inr ⟨_, [], List.append_nil _, by simpa using hbefore, by simpa using hclose.symm⟩
    | cons a mid =>
      simp only [List.cons_append, List.cons.injEq] at hclose
      obtain ⟨rfl, hnil⟩ := hclose
      obtain ⟨rfl, rfl⟩ := List.append_eq_nil_iff.mp hnil.symm
      exact .inl ⟨hbefore, rfl⟩

@[simp] theorem waitingBytes_map (frames : List Bytes) :
    waitingBytes (frames.map .enqueue) = totalBytes frames := by
  rw [waitingBytes, List.filterMap_map, show LockSection.frame? ∘ LockSection.enqueue = some from rfl,
    List.filterMap_some]

theorem Delivers.handsOverAll {schedule : List LockSection}
    (h : Delivers options writeString events finalPayload schedule) :
    HandsOverAll options writeString events finalPayload schedule := by
  obtain ⟨s, l, r, hrun, hlr, hsent, -⟩ := h
  exact ⟨s, l, r, hrun, hlr, hsent⟩

theorem not_handsOverAll_of_late
    (hfit : totalBytes (eventFrames writeString events finalPayload) ≤ options.maxBufferedBytes) :
    ¬ HandsOverAll options writeString events finalPayload
      (sendAll writeString events finalPayload ++ [.ready]) := by
  intro h
  obtain ⟨s, l, r, hrun, -, hsent⟩ := h
  rw [sendAll_eq, List.append_assoc] at hrun
  rw [List.singleton_append, SseStream.run_ready_late eventFrames_ne_nil hfit] at hrun
  cases hrun
  simp at hsent

/-- Readiness between two frames, or between the last and the close: all are handed over if the
retry line still fits in the buffer. -/
theorem handsOverAll_of_early {l r : List Bytes}
    (hlr : l ++ r = eventFrames writeString events finalPayload)
    (hfit : totalBytes (eventFrames writeString events finalPayload) ≤ options.maxBufferedBytes) :
    let schedule := l.map LockSection.enqueue ++ .ready :: (r.map .enqueue ++ [.close])
    (HandsOverAll options writeString events finalPayload schedule ↔
      totalBytes l + defaultRetry.length ≤ options.maxBufferedBytes) ∧
    (Delivers options writeString events finalPayload schedule ↔
      r ≠ [] ∧ totalBytes l + defaultRetry.length ≤ options.maxBufferedBytes) := by
  have hrun := SseStream.run_ready_early l r (hlr ▸ eventFrames_ne_nil) (hlr ▸ hfit)
  by_cases hroom : totalBytes l + defaultRetry.length ≤ options.maxBufferedBytes
  · rw [if_pos hroom] at hrun
    refine ⟨iff_of_true ⟨_, l, r, hrun, hlr, rfl⟩ hroom, fun h => ⟨?_, hroom⟩, fun h => ?_⟩
    · obtain ⟨s, -, -, hs, -, -, hlast⟩ := h
      cases hrun.symm.trans hs
      intro hr
      subst hr
      rw [SseStream.finished, List.getLast?_append_cons] at hlast
      exact doneFrame_ne_retry (Option.some.inj hlast).symm
    · refine ⟨_, l, r, hrun, hlr, rfl, ?_⟩
      have hdone : (l ++ r).getLast? = some (doneFrame writeString finalPayload) := by
        rw [hlr, eventFrames, List.getLast?_concat]
      rw [SseStream.finished, List.getLast?_append_cons]
      obtain ⟨a, r, rfl⟩ := List.exists_cons_of_ne_nil h.1
      rw [List.getLast?_append_cons] at hdone
      simpa [List.getLast?_cons_cons] using hdone
  · rw [if_neg hroom] at hrun
    refine ⟨iff_of_false (fun h => ?_) hroom, iff_of_false (fun h => ?_) fun h => hroom h.2⟩
    · obtain ⟨s, -, -, hs, -⟩ := h
      cases hrun.symm.trans hs
    · obtain ⟨s, -, -, hs, -⟩ := h
      cases hrun.symm.trans hs

theorem sendDone_suffix_iff {l r : List Bytes}
    (hlr : l ++ r = eventFrames writeString events finalPayload) :
    sendDone writeString finalPayload <:+ r.map .enqueue ++ [.close] ↔ r ≠ [] := by
  constructor
  · intro h hr
    have hlength := h.length_le
    simp [hr, sendDone] at hlength
  · intro hr
    obtain ⟨r', d, rfl⟩ := (List.eq_nil_or_concat' r).resolve_left hr
    have hd : d = doneFrame writeString finalPayload := by
      rw [eventFrames, ← List.append_assoc] at hlr
      exact (List.append_inj' hlr rfl).2 |> List.singleton_inj.mp
    exact ⟨r'.map .enqueue, by simp [sendDone, hd]⟩

/-- All events are delivered exactly when readiness comes before `sendDone` begins and the retry
line still fits in the buffer then. When it comes between the two lock sections of `sendDone`, the
frames are all handed over, but the retry line is the last. -/
theorem delivers_iff (options : SseOptions) (writeString : Json → Bytes)
    (events : List StreamEvent) (finalPayload : Json) (before after : List LockSection)
    (hfit : totalBytes (eventFrames writeString events finalPayload) ≤ options.maxBufferedBytes)
    (hs : before ++ after = sendAll writeString events finalPayload) :
    (Delivers options writeString events finalPayload (before ++ .ready :: after) ↔
      sendDone writeString finalPayload <:+ after ∧
        waitingBytes before + defaultRetry.length ≤ options.maxBufferedBytes) ∧
    (HandsOverAll options writeString events finalPayload (before ++ .ready :: after) ↔
      [.close] <:+ after ∧
        waitingBytes before + defaultRetry.length ≤ options.maxBufferedBytes) := by
  obtain ⟨rfl, rfl⟩ | ⟨l, r, hlr, rfl, rfl⟩ := sendAll_cases hs
  · have hlate := not_handsOverAll_of_late hfit
    rw [sendAll_eq] at hlate
    refine ⟨iff_of_false (fun h => hlate h.handsOverAll) fun h => ?_,
      iff_of_false hlate fun h => ?_⟩
    · have hlength := h.1.length_le
      simp [sendDone] at hlength
    · have hlength := h.1.length_le
      simp at hlength
  · obtain ⟨hall, hdelivers⟩ := handsOverAll_of_early hlr hfit
    rw [waitingBytes_map, sendDone_suffix_iff hlr]
    refine ⟨hdelivers, hall.trans ?_⟩
    exact (and_iff_right (List.suffix_append _ _)).symm

/-- A writer that is right about the empty object, the only value the sample run writes. -/
def writeEmpty : Json → Bytes := fun _ => [123, 125]

/-- The response stream becomes ready after `sendDone`: it is closed at once and the buffered
events are gone. -/
theorem undelivered : ∃ (options : SseOptions) (writeString : Json → Bytes)
    (events : List StreamEvent) (finalPayload : Json) (before after : List LockSection),
    totalBytes (eventFrames writeString events finalPayload) ≤ options.maxBufferedBytes ∧
      before ++ after = sendAll writeString events finalPayload ∧
      ¬ Delivers options writeString events finalPayload (before ++ .ready :: after) := by
  have hfit : totalBytes (eventFrames writeEmpty
      [.text (Bytes.ascii "delta") (Bytes.ascii "hello")] .null) ≤ 65536 := by decide
  exact ⟨{}, writeEmpty, _, .null, _, [], hfit, List.append_nil _,
    fun h => not_handsOverAll_of_late hfit h.handsOverAll⟩

/-- Readiness between the event and `sendDone`. -/
theorem delivers_iff_sample :
    Delivers {} writeEmpty [.text (Bytes.ascii "delta") (Bytes.ascii "hello")] .null
      ([.enqueue (formatEvent (Bytes.ascii "delta") (Bytes.ascii "hello"))] ++
        .ready :: sendDone writeEmpty .null) :=
  (delivers_iff {} writeEmpty [.text (Bytes.ascii "delta") (Bytes.ascii "hello")] .null
    [.enqueue (formatEvent (Bytes.ascii "delta") (Bytes.ascii "hello"))] (sendDone writeEmpty .null)
    (by decide) rfl).1.mpr ⟨List.suffix_refl _, by decide⟩

end SuperVoice.Http
