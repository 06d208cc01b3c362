import SuperVoice.Core.Metrics

/-! `RequestObservation`: counters that are added to while calls of `complete` and the destructor
compete for the one record of the request. Every atomic operation is a step. -/
namespace SuperVoice.Core
open Bytes

inductive Counter where
  | tokensIn
  | tokensOut
  | streamEvents
  deriving DecidableEq

/-- The arguments of `complete`. -/
structure Completion where
  statusCode : UInt32
  bytesOut : UInt64
  tokensOut : UInt64
  streamEvents : UInt64
  errorType : Bytes := []

def Completion.resolvedErrorType (call : Completion) : Bytes :=
  if call.errorType = [] ∧ 400 ≤ call.statusCode then
    if 500 ≤ call.statusCode then ascii "http_5xx" else ascii "http_4xx"
  else call.errorType

/-- What the destructor completes the request with. -/
def abandoned (tokensOut streamEvents : UInt64) : Completion :=
  ⟨0, 0, tokensOut, streamEvents, ascii "abandoned"⟩

/-- Values that have been loaded as arguments of a call, in any order. -/
abbrev Loaded := Counter → Option UInt64

/-- Where a call of `complete`, or the destructor, stands. -/
inductive Thread (D : Type) where
  | idle
  /-- The destructor is about to load `completed_`. -/
  | checking
  /-- The destructor loads the arguments of `complete`. -/
  | reading (loaded : Loaded)
  | entered (call : Completion)
  | storing (call : Completion) (latencyMs : D)
  | storingEvents (call : Completion) (latencyMs : D)
  /-- The arguments of `recordRequest` are loaded. -/
  | loading (call : Completion) (latencyMs : D) (loaded : Loaded)
  | returned

/-- The next operation of a thread. The clock and the order of loads are not determined. -/
inductive Operation (D : Type) where
  | check
  | read (counter : Counter)
  | call
  | exchange (latencyMs : D)
  | store
  | load (counter : Counter)
  | record

inductive ObservationStep (D : Type) where
  /-- `addTokensIn`, `addTokensOut` or `addStreamEvents` -/
  | add (counter : Counter) (count : UInt64)
  | complete (thread : Nat) (call : Completion)
  | destroy (thread : Nat)
  | next (thread : Nat) (operation : Operation D)
  /-- Something else that is recorded in the registry. -/
  | other (call : RegistryCall D)

/-- The arguments of the constructor. -/
structure ObservedRequest where
  key : SeriesKey
  bytesIn : UInt64
  tokensIn : UInt64

structure RequestObservation (D : Type) where
  counters : Counter → UInt64
  completed : Bool
  destroyed : Bool
  threads : Nat → Thread D
  registry : Registry D
  /-- A call of `complete` has started. -/
  started : Bool
  /-- The sums of what was added before that. -/
  added : Counter → Nat
  /-- What has been recorded for the request, and what else. -/
  own : List (RegistryCall D)
  others : List (RegistryCall D)

namespace RequestObservation
variable {D : Type}

section
variable (doubles : Doubles D) (request : ObservedRequest)

def start : RequestObservation D where
  counters
    | .tokensIn => request.tokensIn
    | .tokensOut | .streamEvents => 0
  completed := false
  destroyed := false
  threads := fun _ => .idle
  registry := {}
  started := false
  added := fun _ => 0
  own := []
  others := []

def move (s : RequestObservation D) (i : Nat) (thread : Thread D) : RequestObservation D :=
  { s with threads := Function.update s.threads i thread }

def put (s : RequestObservation D) (counter : Counter) (value : UInt64) : RequestObservation D :=
  { s with counters := Function.update s.counters counter value }

/-- `fetch_add` -/
def add (s : RequestObservation D) (counter : Counter) (count : UInt64) : RequestObservation D :=
  { s.put counter (s.counters counter + count) with
    added :=
      if s.started then s.added
      else Function.update s.added counter (s.added counter + count.toNat) }

def enter (s : RequestObservation D) (i : Nat) (call : Completion) : RequestObservation D :=
  { s.move i (.entered call) with started := true }

/-- The exchange of `completed_`. -/
def exchange (s : RequestObservation D) (i : Nat) (call : Completion) (latencyMs : D) :
    RequestObservation D :=
  if s.completed then s.move i .returned
  else { s.move i (.storing call latencyMs) with completed := true }

/-- The arguments of `recordRequest`, once all are loaded. -/
def recorded? (call : Completion) (latencyMs : D) (loaded : Loaded) : Option (RegistryCall D) := do
  let tokensIn ← loaded .tokensIn
  let tokensOut ← loaded .tokensOut
  let streamEvents ← loaded .streamEvents
  return .recordRequest request.key latencyMs request.bytesIn call.bytesOut tokensIn tokensOut
    streamEvents call.resolvedErrorType

def record (s : RequestObservation D) (i : Nat) (call : RegistryCall D) : RequestObservation D :=
  { s.move i .returned with
    registry := s.registry.call doubles call
    own := s.own ++ [call] }

/-- One more value is loaded. -/
def loadInto (s : RequestObservation D) (loaded : Loaded) (counter : Counter) : Option Loaded :=
  if (loaded counter).isSome then none
  else some (Function.update loaded counter (some (s.counters counter)))

/-- The next operation of a thread. -/
def next (s : RequestObservation D) (i : Nat) : Thread D → Operation D →
    Option (RequestObservation D)
  | .checking, .check =>
    some (s.move i (if s.completed then .returned else .reading fun _ => none))
  | .reading loaded, .read counter =>
    if counter = .tokensIn then none
    else (s.loadInto loaded counter).map fun loaded => s.move i (.reading loaded)
  | .reading loaded, .call => do
    let tokensOut ← loaded .tokensOut
    let streamEvents ← loaded .streamEvents
    return s.enter i (abandoned tokensOut streamEvents)
  | .entered call, .exchange latencyMs => some (s.exchange i call latencyMs)
  | .storing call latencyMs, .store =>
    some ((s.put .tokensOut call.tokensOut).move i (.storingEvents call latencyMs))
  | .storingEvents call latencyMs, .store =>
    some ((s.put .streamEvents call.streamEvents).move i (.loading call latencyMs fun _ => none))
  | .loading call latencyMs loaded, .load counter =>
    (s.loadInto loaded counter).map fun loaded => s.move i (.loading call latencyMs loaded)
  | .loading call latencyMs loaded, .record =>
    (recorded? request call latencyMs loaded).map (s.record doubles i)
  | _, _ => none

def step (s : RequestObservation D) : ObservationStep D → Option (RequestObservation D)
  | .add counter count => some (s.add counter count)
  | .complete i call =>
    match s.threads i with
    | .idle => some (s.enter i call)
    | _ => none
  | .destroy i =>
    match s.threads i with
    | .idle =>
      if s.destroyed then none else some { s.move i .checking with destroyed := true }
    | _ => none
  | .next i operation => s.next doubles request i (s.threads i) operation
  | .other call =>
    some { s with registry := s.registry.call doubles call, others := s.others ++ [call] }

end

section Steps
variable {doubles : Doubles D} {request : ObservedRequest} {s s' : RequestObservation D} {i : Nat}

/-- What an operation of a thread can do. -/
inductive Progress (doubles : Doubles D) (request : ObservedRequest) (s : RequestObservation D)
    (i : Nat) : Thread D → Operation D → RequestObservation D → Prop where
  | leaves (hcompleted : s.completed = true) :
      Progress doubles request s i .checking .check (s.move i .returned)
  | stays (hcompleted : s.completed = false) :
      Progress doubles request s i .checking .check (s.move i (.reading fun _ => none))
  | reads {loaded loaded' : Loaded} {counter : Counter} :
      Progress doubles request s i (.reading loaded) (.read counter) (s.move i (.reading loaded'))
  | calls {loaded : Loaded} {call : Completion} :
      Progress doubles request s i (.reading loaded) .call (s.enter i call)
  | loses {call : Completion} {latencyMs : D} (hcompleted : s.completed = true) :
      Progress doubles request s i (.entered call) (.exchange latencyMs) (s.move i .returned)
  | takes {call : Completion} {latencyMs : D} (hcompleted : s.completed = false) :
      Progress doubles request s i (.entered call) (.exchange latencyMs)
        { s.move i (.storing call latencyMs) with completed := true }
  | stores {call : Completion} {latencyMs : D} :
      Progress doubles request s i (.storing call latencyMs) .store
        ((s.put .tokensOut call.tokensOut).move i (.storingEvents call latencyMs))
  | storesEvents {call : Completion} {latencyMs : D} :
      Progress doubles request s i (.storingEvents call latencyMs) .store
        ((s.put .streamEvents call.streamEvents).move i (.loading call latencyMs fun _ => none))
  | loads {call : Completion} {latencyMs : D} {loaded loaded' : Loaded} {counter : Counter}
      (hsame : ∀ c, (loaded' c).getD (s.counters c) = (loaded c).getD (s.counters c)) :
      Progress doubles request s i (.loading call latencyMs loaded) (.load counter)
        (s.move i (.loading call latencyMs loaded'))
  | records {call : Completion} {latencyMs : D} {loaded : Loaded} {call' : RegistryCall D}
      (hrecorded : recorded? request call latencyMs loaded = some call') :
      Progress doubles request s i (.loading call latencyMs loaded) .record
        (s.record doubles i call')

theorem loadInto_same {loaded loaded' : Loaded} {counter : Counter}
    (h : s.loadInto loaded counter = some loaded') (c : Counter) :
    (loaded' c).getD (s.counters c) = (loaded c).getD (s.counters c) := by
  rw [loadInto] at h
  split at h
  case isTrue => cases h
  case isFalse hnone =>
    cases h
    rw [Function.update_apply]
    split
    case isTrue hc =>
      rw [hc, Option.not_isSome_iff_eq_none.mp hnone]
      rfl
    case isFalse => rfl

theorem next_progress {thread : Thread D} {operation : Operation D}
    (h : s.next doubles request i thread operation = some s') :
    Progress doubles request s i thread operation s' := by
  unfold next at h
  split at h
  · cases hcompleted : s.completed with
    | true =>
      rw [hcompleted] at h
      cases h
      exact .leaves hcompleted
    | false =>
      rw [hcompleted] at h
      cases h
      exact .stays hcompleted
  · split at h
    · cases h
    · obtain ⟨loaded', -, rfl⟩ := Option.map_eq_some_iff.mp h
      exact .reads
  · obtain ⟨tokensOut, -, h⟩ := Option.bind_eq_some_iff.mp h
    obtain ⟨streamEvents, -, h⟩ := Option.bind_eq_some_iff.mp h
    cases h
    exact .calls
  · cases h
    rw [exchange]
    split
    case isTrue hcompleted => exact .loses hcompleted
    case isFalse hcompleted => exact .takes (Bool.eq_false_iff.mpr hcompleted)
  · cases h
    exact .stores
  · cases h
    exact .storesEvents
  · obtain ⟨loaded', hload, rfl⟩ := Option.map_eq_some_iff.mp h
    exact .loads (loadInto_same hload)
  · obtain ⟨call', hrecorded, rfl⟩ := Option.map_eq_some_iff.mp h
    exact .records hrecorded
  · cases h

theorem complete_inv {call : Completion}
    (h : step doubles request s (.complete i call) = some s') :
    s.threads i = .idle ∧ s' = s.enter i call := by
  rw [step] at h
  split at h
  case h_1 hidle => exact ⟨hidle, (Option.some.inj h).symm⟩
  case h_2 => cases h

theorem destroy_inv (h : step doubles request s (.destroy i) = some s') :
    s.threads i = .idle ∧ s' = { s.move i .checking with destroyed := true } := by
  rw [step] at h
  split at h
  case h_1 hidle =>
    split at h
    case isTrue => cases h
    case isFalse => exact ⟨hidle, (Option.some.inj h).symm⟩
  case h_2 => cases h

end Steps

end RequestObservation

end SuperVoice.Core
