import SuperVoice.Lib.Mutex
import SuperVoice.Http.Sse

/-! The calls of an `SseStream` with its mutex: an event that overflows the buffer is followed by
`sendError`, which takes the lock once more. -/
namespace SuperVoice.Http.Locking
open Mutex Providers Transition

/-- What is called from outside. -/
inductive Call where
  | ready
  | send (event : StreamEvent)
  | done (finalPayload : Json)

section
variable (options : SseOptions) (takes : Nat → Bool) (writeString : Json → Bytes)

def close : Action SseStream := withLock (update SseStream.closeStream)

section
variable (enqueueUnlocked : Bytes → Action SseStream)

def sendJsonEvent (event : Bytes) (payload : Json) : Action SseStream :=
  withLock (enqueueUnlocked (formatEvent event (writeString payload)))

def sendTextEvent (event text : Bytes) : Action SseStream :=
  withLock (enqueueUnlocked (formatEvent event text))

def sendError (code message : Bytes) (status : Int32) : Action SseStream :=
  sendJsonEvent writeString enqueueUnlocked (Bytes.ascii "error") (errorPayload code message status)

end

/-- The frame behind the ones that wait. -/
def buffer (frame : Bytes) (s : SseStream) : SseStream :=
  { s with bufferedBytes := s.bufferedBytes + frame.length, pending := s.pending ++ [frame] }

/-- `depth` bounds how deep the calls go from here. -/
def enqueueUnlocked : Nat → Bytes → Action SseStream
  | 0, _, _ => .error .depth
  | depth + 1, frame, s =>
    if s.value.closed || frame.isEmpty then .ok s
    else do
      let s ← update (buffer frame) s
      if options.maxBufferedBytes < s.value.bufferedBytes then
        let s ← sendError writeString (enqueueUnlocked depth) (Bytes.ascii "buffer_overflow")
          (Bytes.ascii "Event buffer exceeded capacity.") 0 s
        close s
      else update (SseStream.flushUnlocked takes) s

def onStreamReady (depth : Nat) : Action SseStream :=
  withLock fun s =>
    if s.value.closed then update (fun v => { v with streamClosed := true }) s
    else do
      let s ← update (fun v => { v with stream := true, streamReady := true }) s
      let s ← enqueueUnlocked options takes writeString depth defaultRetry s
      let s ← update (SseStream.flushUnlocked takes) s
      update (SseStream.scheduleHeartbeatUnlocked options) s

def sendDone (depth : Nat) (finalPayload : Json) : Action SseStream := fun s => do
  let s ← sendJsonEvent writeString (enqueueUnlocked options takes writeString depth)
    (Bytes.ascii "done") (donePayload finalPayload) s
  close s

def perform (depth : Nat) : Call → Action SseStream
  | .ready => onStreamReady options takes writeString depth
  | .send (.json event payload) =>
    sendJsonEvent writeString (enqueueUnlocked options takes writeString depth) event payload
  | .send (.text event text) =>
    sendTextEvent (enqueueUnlocked options takes writeString depth) event text
  | .send (.error code message status) =>
    sendError writeString (enqueueUnlocked options takes writeString depth) code message status
  | .done finalPayload => sendDone options takes writeString depth finalPayload

/-- The calls one after another; after one that does not return there is no next. -/
def step (depth : Nat) : Except Halt (Guarded SseStream) → Call →
    Option (Except Halt (Guarded SseStream))
  | .ok s, call => some (perform options takes writeString depth call s)
  | .error _, _ => none

/-- The frame that a call enqueues. -/
def Call.frame : Call → Bytes
  | .ready => defaultRetry
  | .send event => event.frame writeString
  | .done finalPayload => doneFrame writeString finalPayload

/-- The lock sections of a call. -/
def Call.sections : Call → List LockSection
  | .ready => [.ready]
  | .send event => [.enqueue (event.frame writeString)]
  | .done finalPayload => Http.sendDone writeString finalPayload

/-- The call does not overflow the buffer. -/
def Fits (s : SseStream) (call : Call) : Prop :=
  s.closed = true ∨
    s.bufferedBytes + (call.frame writeString).length ≤ options.maxBufferedBytes

end

/-- The last call has returned, and the mutex is free. -/
def Returned (state : Except Halt (Guarded SseStream)) : Prop :=
  ∃ s, state = .ok ⟨false, s⟩

section
variable {options : SseOptions} {takes : Nat → Bool} {writeString : Json → Bytes} {v : SseStream}
  {frame : Bytes} {call : Call}

/-- A thread that holds the mutex: it comes back as the stream does, or it waits for itself. -/
def resumed (held : Bool) : Option SseStream → Except Halt (Guarded SseStream)
  | some v => .ok ⟨held, v⟩
  | none => .error .deadlock

theorem enqueueUnlocked_eq (depth : Nat) (frame : Bytes) (v : SseStream) :
    enqueueUnlocked options takes writeString (depth + 1) frame ⟨true, v⟩ =
      resumed true (v.enqueueUnlocked options takes frame) := by
  rw [enqueueUnlocked, SseStream.enqueueUnlocked]
  split
  · rfl
  · simp only [update_mk, bind, Except.bind, buffer]
    split
    · rfl
    · rfl

theorem withLock_resumed {body : Action SseStream} {result : Option SseStream}
    (h : body ⟨true, v⟩ = resumed true result) :
    withLock body ⟨false, v⟩ = resumed false result := by
  cases result with
  | none => exact withLock_error h
  | some v' => exact withLock_ok h

theorem perform_send (depth : Nat) (event : StreamEvent) (v : SseStream) :
    perform options takes writeString (depth + 1) (.send event) ⟨false, v⟩ =
      resumed false (v.enqueueUnlocked options takes (event.frame writeString)) := by
  cases event with
  | _ => exact withLock_resumed (enqueueUnlocked_eq depth _ v)

theorem perform_ready (depth : Nat) (v : SseStream) :
    perform options takes writeString (depth + 1) .ready ⟨false, v⟩ =
      resumed false (v.onStreamReady options takes) := by
  rw [perform, onStreamReady]
  apply withLock_resumed
  rw [SseStream.onStreamReady]
  dsimp only
  split
  · rfl
  · simp only [update_mk, bind, Except.bind, enqueueUnlocked_eq]
    cases SseStream.enqueueUnlocked options takes { v with stream := true, streamReady := true }
      defaultRetry <;> rfl

theorem perform_done (depth : Nat) (finalPayload : Json) (v : SseStream) :
    perform options takes writeString (depth + 1) (.done finalPayload) ⟨false, v⟩ =
      resumed false ((v.enqueueUnlocked options takes (doneFrame writeString finalPayload)).map
        SseStream.closeStream) := by
  have hsend := @perform_send options takes writeString depth
    (.json (Bytes.ascii "done") (donePayload finalPayload)) v
  rw [perform, StreamEvent.frame] at hsend
  simp only [perform, sendDone, bind, Except.bind, doneFrame, hsend]
  cases SseStream.enqueueUnlocked options takes v _ with
  | none => rfl
  | some v' => rfl

theorem run_one (lockSection : LockSection) (v : SseStream) :
    run (SseStream.step options takes) v [lockSection] =
      SseStream.step options takes v lockSection :=
  Option.bind_fun_some _

theorem run_sendDone (finalPayload : Json) (v : SseStream) :
    run (SseStream.step options takes) v (Http.sendDone writeString finalPayload) =
      (v.enqueueUnlocked options takes (doneFrame writeString finalPayload)).map
        SseStream.closeStream := by
  rw [Http.sendDone, run, SseStream.step]
  cases v.enqueueUnlocked options takes (doneFrame writeString finalPayload) <;> rfl

/-- A call does what its lock sections do; where one of them never ends, the thread waits for
itself. -/
theorem perform_eq (depth : Nat) (call : Call) (v : SseStream) :
    perform options takes writeString (depth + 1) call ⟨false, v⟩ =
      resumed false (run (SseStream.step options takes) v (call.sections writeString)) := by
  cases call with
  | ready => rw [perform_ready, Call.sections, run_one, SseStream.step]
  | send event => rw [perform_send, Call.sections, run_one, SseStream.step]
  | done finalPayload => rw [perform_done, Call.sections, run_sendDone]

theorem enqueue_eq_none_iff (hne : frame ≠ []) :
    v.enqueueUnlocked options takes frame = none ↔
      ¬ (v.closed = true ∨ v.bufferedBytes + frame.length ≤ options.maxBufferedBytes) := by
  cases hclosed : v.closed <;> simp [SseStream.enqueueUnlocked, hclosed, hne]

theorem ready_eq_none_iff :
    v.onStreamReady options takes = none ↔ ¬ Fits options writeString v .ready := by
  rw [SseStream.onStreamReady]
  split
  case isTrue hclosed => exact iff_of_false (fun h => by cases h) (not_not_intro (.inl hclosed))
  case isFalse hopen =>
    rw [Option.map_eq_none_iff]
    exact enqueue_eq_none_iff (by decide)

/-- A call comes back exactly if it does not overflow the buffer. -/
theorem sections_eq_none_iff :
    run (SseStream.step options takes) v (call.sections writeString) = none ↔
      ¬ Fits options writeString v call := by
  cases call with
  | ready =>
    rw [Call.sections, run_one]
    exact ready_eq_none_iff
  | send event =>
    rw [Call.sections, run_one]
    exact enqueue_eq_none_iff (event.frame_ne_nil writeString)
  | done finalPayload =>
    rw [Call.sections, run_sendDone, Option.map_eq_none_iff]
    exact enqueue_eq_none_iff (formatEvent_ne_nil _ _)

theorem perform_of_fits (depth : Nat) (h : Fits options writeString v call) :
    ∃ v', perform options takes writeString (depth + 1) call ⟨false, v⟩ = .ok ⟨false, v'⟩ := by
  cases hrun : run (SseStream.step options takes) v (call.sections writeString) with
  | none => exact absurd h (sections_eq_none_iff.mp hrun)
  | some v' => exact ⟨v', by rw [perform_eq, hrun, resumed]⟩

/-- The error that an overflow is to report is never sent. -/
theorem perform_of_overflow (depth : Nat) (h : ¬ Fits options writeString v call) :
    perform options takes writeString (depth + 1) call ⟨false, v⟩ = .error .deadlock := by
  rw [perform_eq, sections_eq_none_iff.mpr h, resumed]

/-- No call goes deeper than one level, so none recurses without end. -/
theorem perform_ne_depth (depth : Nat) (call : Call) (v : SseStream) :
    perform options takes writeString (depth + 1) call ⟨false, v⟩ ≠ .error .depth := by
  by_cases h : Fits options writeString v call
  · obtain ⟨v', hv⟩ := perform_of_fits depth h
    rw [hv]
    exact fun h => by cases h
  · rw [perform_of_overflow depth h]
    exact fun h => by cases h

end

section
variable (options : SseOptions) (takes : Nat → Bool) (writeString : Json → Bytes)

/-- A call that has overflowed the buffer and returned leaves a closed stream and no buffer. -/
def Cleared (state : Except Halt (Guarded SseStream)) (call : Call)
    (state' : Except Halt (Guarded SseStream)) : Prop :=
  ∀ s s', state = .ok s → state' = .ok s' → ¬ Fits options writeString s.value call →
    s'.value.closed = true ∧ s'.value.pending = [] ∧ s'.value.bufferedBytes = 0

/-- The next call does not overflow the buffer. -/
def NoOverflow (state : Except Halt (Guarded SseStream)) (call : Call) : Prop :=
  ∀ s, state = .ok s → Fits options writeString s.value call

/-- No call returns with the mutex held. -/
def Free (state : Except Halt (Guarded SseStream)) : Prop :=
  ∀ s, state = .ok s → s.held = false

variable {options takes writeString} in
theorem step_cases {depth : Nat} {state state' : Except Halt (Guarded SseStream)} {call : Call}
    (hfree : Free state)
    (h : step options takes writeString (depth + 1) state call = some state') :
    ∃ v, state = .ok ⟨false, v⟩ ∧
      (Fits options writeString v call ∧ (∃ v', state' = .ok ⟨false, v'⟩) ∨
        ¬ Fits options writeString v call ∧ state' = .error .deadlock) := by
  cases state with
  | error halt => cases h
  | ok s =>
    obtain ⟨held, v⟩ := s
    cases hfree _ rfl
    refine ⟨v, rfl, ?_⟩
    have hperformed : perform options takes writeString (depth + 1) call ⟨false, v⟩ = state' :=
      Option.some.inj h
    by_cases hfits : Fits options writeString v call
    · have hreturns : ∃ v', perform options takes writeString (depth + 1) call ⟨false, v⟩ =
          .ok ⟨false, v'⟩ := perform_of_fits depth hfits
      obtain ⟨v', hv⟩ := hreturns
      exact .inl ⟨hfits, v', hperformed.symm.trans hv⟩
    · exact .inr ⟨hfits, hperformed.symm.trans (perform_of_overflow depth hfits)⟩

/-- Every call returns, in every sequence of calls, exactly where none overflows the buffer. -/
theorem calls_return_iff (depth : Nat) (calls : List Call) :
    Along (step options takes writeString (depth + 1)) Returned (Cleared options writeString)
        (.ok ⟨false, {}⟩) calls ↔
      Meets (step options takes writeString (depth + 1)) (NoOverflow options writeString)
        (.ok ⟨false, {}⟩) calls := by
  apply along_iff_meets (Q := Free)
  · intro state call state' hfree hstep s hs
    obtain ⟨v, -, ⟨-, v', rfl⟩ | ⟨-, rfl⟩⟩ := step_cases hfree hstep
    · cases hs
      rfl
    · cases hs
  · intro state call state' hfree hstep s s' hs hs' hover
    obtain ⟨v, rfl, ⟨hfits, -⟩ | ⟨-, rfl⟩⟩ := step_cases hfree hstep
    · cases hs
      exact absurd hfits hover
    · cases hs'
  · intro state call state' hfree _ hstep
    obtain ⟨v, rfl, ⟨hfits, hreturned⟩ | ⟨hover, rfl⟩⟩ := step_cases hfree hstep
    · refine iff_of_true hreturned ?_
      intro s hs
      cases hs
      exact hfits
    · apply iff_of_false
      · intro hreturned
        obtain ⟨v', hv⟩ := hreturned
        cases hv
      · exact fun hno => hover (hno _ rfl)
  · intro s hs
    cases hs
    rfl
  · exact ⟨{}, rfl⟩

end

/-- The first event is already too large. -/
theorem calls_return_fails : ¬ ∀ (options : SseOptions) (takes : Nat → Bool)
    (writeString : Json → Bytes) (calls : List Call), ∃ depth,
      Along (step options takes writeString depth) Returned (Cleared options writeString)
        (.ok ⟨false, {}⟩) calls := by
  intro h
  let large : Call := .send (.text (Bytes.ascii "delta") (Bytes.ascii "hello"))
  obtain ⟨depth, halong⟩ := h { maxBufferedBytes := 16 } (fun _ => true) (fun _ => []) [large]
  have hnone : ∃ halt, perform { maxBufferedBytes := 16 } (fun _ => true) (fun _ => []) depth large
      ⟨false, {}⟩ = .error halt := by
    cases depth with
    | zero => exact ⟨.depth, rfl⟩
    | succ depth => exact ⟨.deadlock, rfl⟩
  obtain ⟨halt, hhalt⟩ := hnone
  obtain ⟨s, hs⟩ := (halong.2 _ rfl).2
  cases hhalt.symm.trans hs

end SuperVoice.Http.Locking
