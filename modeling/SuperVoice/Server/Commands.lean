import SuperVoice.Server.Control

/-! `apply_command` as a whole, and the arguments that it takes for what they spell. -/
namespace SuperVoice.Server
open Bytes FileStore Numeral Transition
variable (r : Root) (fault : Bytes → Option Fault) (granted : Nat) (s : ControlState) (line : Bytes)

/-- The first word of the line. -/
def verb : Bytes := (line.dropWhile isSpace).takeWhile fun b => !isSpace b

/-- The line behind its first word. -/
def argument : Bytes := (line.dropWhile isSpace).drop (verb line).length

theorem parse_eq : Command.parse line =
    if verb line = ascii "SCALE_DATA" then .scaleData (extractUnsigned (argument line))
    else if verb line = ascii "SET_TTL" then .setTtl (extractSigned (argument line))
    else if verb line = ascii "PING" then .ping
    else if verb line = ascii "STATUS" then .status
    else .unknown := rfl

namespace ControlState

/-- `SCALE_DATA` with a value that has passed the check. -/
def scaleData (value : Nat) : Outcome Bytes × ControlState :=
  let s := { s with dataListenerCount := value }
  match s.listeners.updateDataListenerCount granted value with
  | (.returned (), listeners) =>
    (.returned (ascii "OK data listeners=" ++ decimal value), { s with listeners })
  | (.thrown, listeners) => (.thrown, { s with listeners })

/-- `SET_TTL` with a value that has passed the check. -/
def setTtl (seconds : Int) : Outcome Bytes × ControlState :=
  (.returned (ascii "OK ttl=" ++ signedDecimal seconds),
    { s with ttl := seconds, world := updateTtl r fault s.world seconds })

/-- `apply_command`, with no other command at the same time. -/
def applyCommand : Outcome Bytes × ControlState :=
  match Command.parse line with
  | .scaleData value =>
    if value = 0 then (.returned (ascii "ERR data listener count must be > 0"), s)
    else s.scaleData granted value
  | .setTtl seconds =>
    if seconds ≤ 0 then (.returned (ascii "ERR ttl must be positive"), s)
    else s.setTtl r fault seconds
  | .ping => (.returned (ascii "PONG"), s)
  | .status => (.returned s.status, s)
  | .unknown => (.returned (ascii "ERR unknown command"), s)

/-- What the commands set. -/
def settings : World × ListenerManager × Nat × Int :=
  (s.world, s.listeners, s.dataListenerCount, s.ttl)

end ControlState

section Alone
variable {s line} {c : Nat}

/-- A line that is answered at once sets nothing. -/
theorem run_answered (hfirst : controlStep r s (.line c line) = some (s.begin c line))
    (hidle : s.running = []) (hbegin : ∃ response, s.begin c line = s.answer c line response)
    (hset : (s.applyCommand r fault granted line).2 = s) :
    ∃ events s', run (controlStep r) s (.line c line :: events) = some s' ∧
      s'.running = [] ∧ s'.settings = (s.applyCommand r fault granted line).2.settings := by
  obtain ⟨response, hbegin⟩ := hbegin
  refine ⟨[], s.answer c line response, ?_, hidle, ?_⟩
  · rw [run, hfirst, hbegin]
    rfl
  · rw [hset]
    rfl

/-- The listeners follow the count in a step of their own. -/
theorem run_scaleData {value : Nat} (hbegin : controlStep r s (.line c line) = some { s with
      dataListenerCount := value
      running := [(c, .scaling value)]
      accepted := s.accepted ++ [.scaleData value] }) :
    ∃ events s', run (controlStep r) s (.line c line :: events) = some s' ∧
      s'.running = [] ∧ s'.settings = (s.scaleData granted value).2.settings := by
  rw [ControlState.scaleData]
  dsimp only
  rcases hupdate : s.listeners.updateDataListenerCount granted value with ⟨result, listeners⟩
  cases result with
  | returned =>
    let s' : ControlState := { s with
      listeners
      dataListenerCount := value
      running := []
      accepted := s.accepted ++ [.scaleData value] }
    refine ⟨[.proceed 0 (fun _ => none) granted],
      s'.answer c [] (ascii "OK data listeners=" ++ decimal value), ?_, rfl, rfl⟩
    rw [run, hbegin]
    simp [run, controlStep, ControlState.proceed, hupdate, s']
  | thrown =>
    refine ⟨[.proceed 0 (fun _ => none) granted], { s with
      listeners
      dataListenerCount := value
      running := []
      closed := c :: s.closed
      accepted := s.accepted ++ [.scaleData value] }, ?_, rfl, rfl⟩
    rw [run, hbegin]
    simp [run, controlStep, ControlState.proceed, hupdate]

/-- The default of the storage and the records follow in two steps. -/
theorem run_setTtl {seconds : Int} (hbegin : controlStep r s (.line c line) = some { s with
      ttl := seconds
      running := [(c, .defaulting seconds)]
      accepted := s.accepted ++ [.setTtl seconds] }) :
    ∃ events s', run (controlStep r) s (.line c line :: events) = some s' ∧
      s'.running = [] ∧ s'.settings = (s.setTtl r fault seconds).2.settings := by
  rw [ControlState.setTtl]
  let s' : ControlState := { s with
    ttl := seconds
    world := updateTtl r fault s.world seconds
    running := []
    accepted := s.accepted ++ [.setTtl seconds] }
  refine ⟨[.proceed 0 fault 0, .proceed 0 fault 0],
    s'.answer c [] (ascii "OK ttl=" ++ signedDecimal seconds), ?_, rfl, rfl⟩
  rw [run, hbegin]
  simp [run, controlStep, ControlState.proceed, updateTtl_eq, s']

/-- A command that runs alone, cut at its stores, sets what `apply_command` sets. -/
theorem run_applyCommand (hidle : s.running = []) (hopen : c ∉ s.closed) (hline : line ≠ []) :
    ∃ events s', run (controlStep r) s (.line c line :: events) = some s' ∧
      s'.running = [] ∧ s'.settings = (s.applyCommand r fault granted line).2.settings := by
  have hfirst : controlStep r s (.line c line) = some (s.begin c line) := by
    simp [controlStep, hopen, hidle, hline]
  cases hcommand : Command.parse line with
  | scaleData value =>
    by_cases hzero : value = 0
    · apply run_answered r fault granted hfirst hidle
      · exact ⟨_, by rw [ControlState.begin, hcommand]; exact if_pos hzero⟩
      · simp [ControlState.applyCommand, hcommand, hzero]
    · have hbegin : s.begin c line = { s with
          dataListenerCount := value
          running := [(c, .scaling value)]
          accepted := s.accepted ++ [.scaleData value] } := by
        simp [ControlState.begin, hcommand, hzero, hidle]
      have happly : s.applyCommand r fault granted line = s.scaleData granted value := by
        simp [ControlState.applyCommand, hcommand, hzero]
      rw [happly]
      exact run_scaleData r granted (hfirst.trans (congrArg some hbegin))
  | setTtl seconds =>
    by_cases hle : seconds ≤ 0
    · apply run_answered r fault granted hfirst hidle
      · exact ⟨_, by rw [ControlState.begin, hcommand]; exact if_pos hle⟩
      · simp [ControlState.applyCommand, hcommand, hle]
    · have hbegin : s.begin c line = { s with
          ttl := seconds
          running := [(c, .defaulting seconds)]
          accepted := s.accepted ++ [.setTtl seconds] } := by
        simp [ControlState.begin, hcommand, hle, hidle]
      have happly : s.applyCommand r fault granted line = s.setTtl r fault seconds := by
        simp [ControlState.applyCommand, hcommand, hle]
      rw [happly]
      exact run_setTtl r fault (hfirst.trans (congrArg some hbegin))
  | ping | status | unknown =>
    apply run_answered r fault granted hfirst hidle
    · exact ⟨_, by rw [ControlState.begin, hcommand]⟩
    · rw [ControlState.applyCommand, hcommand]

end Alone

/-- Refused: the answer says so and nothing has changed. -/
def Refused (result : Outcome Bytes × ControlState) : Prop :=
  ∃ text, result = (.returned (ascii "ERR " ++ text), s)

/-- A positive number below the limit is performed as it is spelled, all else is refused. -/
def Obeys (limit : Nat) (arg : Bytes) (perform : Nat → Outcome Bytes × ControlState)
    (result : Outcome Bytes × ControlState) : Prop :=
  (∀ v : Nat, Spells arg v → 0 < v → v < limit → result = perform v) ∧
    ((∀ v : Nat, Spells arg v → ¬(0 < v ∧ v < limit)) → Refused s result)

/-- The command line has the effect of what its argument spells. -/
structure AsSpelled : Prop where
  scaleData : verb line = ascii "SCALE_DATA" →
    Obeys s (2 ^ 64) (argument line) (s.scaleData granted) (s.applyCommand r fault granted line)
  setTtl : verb line = ascii "SET_TTL" →
    Obeys s (2 ^ 63) (argument line) (fun v => s.setTtl r fault v)
      (s.applyCommand r fault granted line)
  others : verb line ≠ ascii "SCALE_DATA" → verb line ≠ ascii "SET_TTL" →
    (s.applyCommand r fault granted line).2 = s

/-- The argument starts with no number or with zero, or it spells a count that fits. -/
def CountSpelled (arg : Bytes) : Prop :=
  (∀ neg v, scan arg = some (neg, v) → v = 0) ∨ ∃ v : Nat, Spells arg v ∧ 0 < v ∧ v < 2 ^ 64

/-- The argument starts with no positive number, or it spells a TTL that fits. -/
def TtlSpelled (arg : Bytes) : Prop :=
  (∀ neg v, scan arg = some (neg, v) → signedValue neg v ≤ 0) ∨
    ∃ v : Nat, Spells arg v ∧ 0 < v ∧ v < 2 ^ 63

def ArgumentSpelled : Prop :=
  (verb line = ascii "SCALE_DATA" → CountSpelled (argument line)) ∧
    (verb line = ascii "SET_TTL" → TtlSpelled (argument line))

section Numbers
variable {arg : Bytes} {v : Nat}

/-- A string that spells a positive number starts with it. -/
theorem scan_of_spells (h : Spells arg v) (hpos : 0 < v) : scan arg = some (false, v) := by
  obtain ⟨neg, m, hscan, hv, -⟩ := spells_iff.mp h
  cases neg with
  | false =>
    have hm : m = v := Int.ofNat.inj hv
    rw [hscan, hm]
  | true =>
    simp only [signedValue, if_true] at hv
    omega

theorem extractUnsigned_of_spells (h : Spells arg v) (hpos : 0 < v) (hlt : v < 2 ^ 64) :
    extractUnsigned arg = v := by
  simp only [extractUnsigned, scan_of_spells h hpos, Bool.false_eq_true, if_false]
  exact if_pos hlt

theorem extractSigned_of_spells (h : Spells arg v) (hpos : 0 < v) (hlt : v < 2 ^ 63) :
    extractSigned arg = v := by
  simp only [extractSigned, scan_of_spells h hpos, signedValue, Bool.false_eq_true, if_false]
  omega

theorem extractUnsigned_eq_zero_iff :
    extractUnsigned arg = 0 ↔ ∀ neg v, scan arg = some (neg, v) → v = 0 := by
  unfold extractUnsigned
  cases scan arg with
  | none => simp
  | some p =>
    obtain ⟨neg, v⟩ := p
    simp only [Option.some.injEq, Prod.mk.injEq]
    constructor
    · intro h neg' v' hp
      obtain ⟨-, rfl⟩ := hp
      split at h
      · split at h <;> omega
      · omega
    · intro h
      rw [h neg v ⟨rfl, rfl⟩]
      simp

theorem extractSigned_nonpos_iff :
    extractSigned arg ≤ 0 ↔ ∀ neg v, scan arg = some (neg, v) → signedValue neg v ≤ 0 := by
  unfold extractSigned
  cases scan arg with
  | none => simp
  | some p =>
    obtain ⟨neg, v⟩ := p
    simp only [Option.some.injEq, Prod.mk.injEq]
    constructor
    · intro h neg' v' hp
      obtain ⟨rfl, rfl⟩ := hp
      omega
    · intro h
      have hle := h neg v ⟨rfl, rfl⟩
      omega

end Numbers

section Obeys
variable {r fault granted s} {limit : Nat} {arg : Bytes}
  {perform : Nat → Outcome Bytes × ControlState} {result : Outcome Bytes × ControlState}

/-- What is refused must not have been spelled. -/
theorem obeys_of_refused (hresult : Refused s result)
    (hnone : ∀ v : Nat, Spells arg v → ¬(0 < v ∧ v < limit)) :
    Obeys s limit arg perform result :=
  ⟨fun v hv hpos hlt => absurd ⟨hpos, hlt⟩ (hnone v hv), fun _ => hresult⟩

/-- What is performed must have been spelled. -/
theorem obeys_iff_of_performed (hperform : ¬Refused s result)
    (hspelled : ∀ v : Nat, Spells arg v → 0 < v → v < limit → result = perform v) :
    Obeys s limit arg perform result ↔ ∃ v : Nat, Spells arg v ∧ 0 < v ∧ v < limit := by
  constructor
  · intro h
    by_contra hnone
    exact hperform (h.2 fun v hv hrange => hnone ⟨v, hv, hrange⟩)
  · rintro ⟨v, hv, hrange⟩
    exact ⟨hspelled, fun hnone => absurd hrange (hnone v hv)⟩

theorem not_refused_scaleData (value : Nat) : ¬Refused s (s.scaleData granted value) := by
  rintro ⟨text, h⟩
  unfold ControlState.scaleData at h
  dsimp only at h
  split at h
  · have hanswer := congrArg List.head? (Outcome.returned.inj (congrArg Prod.fst h))
    have hfirst : some (79 : UInt8) = some 69 := hanswer
    cases hfirst
  · cases congrArg Prod.fst h

theorem not_refused_setTtl (seconds : Int) : ¬Refused s (s.setTtl r fault seconds) := by
  rintro ⟨text, h⟩
  have hanswer := congrArg List.head? (Outcome.returned.inj (congrArg Prod.fst h))
  have hfirst : some (79 : UInt8) = some 69 := hanswer
  cases hfirst

end Obeys

variable {s line} in
theorem obeys_scaleData_iff (hverb : verb line = ascii "SCALE_DATA") :
    Obeys s (2 ^ 64) (argument line) (s.scaleData granted)
      (s.applyCommand r fault granted line) ↔ CountSpelled (argument line) := by
  have hresult : s.applyCommand r fault granted line =
      if extractUnsigned (argument line) = 0 then
        (.returned (ascii "ERR data listener count must be > 0"), s)
      else s.scaleData granted (extractUnsigned (argument line)) := by
    rw [ControlState.applyCommand, parse_eq, if_pos hverb]
  rw [hresult, CountSpelled, ← extractUnsigned_eq_zero_iff]
  by_cases hzero : extractUnsigned (argument line) = 0
  · rw [if_pos hzero]
    apply iff_of_true _ (.inl hzero)
    apply obeys_of_refused ⟨_, rfl⟩
    rintro v hv ⟨hpos, hlt⟩
    rw [extractUnsigned_of_spells hv hpos hlt] at hzero
    exact Nat.ne_of_gt hpos hzero
  · rw [if_neg hzero, obeys_iff_of_performed (not_refused_scaleData _)]
    · simp only [hzero, false_or]
    · intro v hv hpos hlt
      rw [extractUnsigned_of_spells hv hpos hlt]

variable {s line} in
theorem obeys_setTtl_iff (hverb : verb line = ascii "SET_TTL") :
    Obeys s (2 ^ 63) (argument line) (fun v => s.setTtl r fault v)
      (s.applyCommand r fault granted line) ↔ TtlSpelled (argument line) := by
  have hother : verb line ≠ ascii "SCALE_DATA" := by
    rw [hverb]
    decide
  have hresult : s.applyCommand r fault granted line =
      if extractSigned (argument line) ≤ 0 then (.returned (ascii "ERR ttl must be positive"), s)
      else s.setTtl r fault (extractSigned (argument line)) := by
    rw [ControlState.applyCommand, parse_eq, if_neg hother, if_pos hverb]
  rw [hresult, TtlSpelled, ← extractSigned_nonpos_iff]
  by_cases hle : extractSigned (argument line) ≤ 0
  · rw [if_pos hle]
    apply iff_of_true _ (.inl hle)
    apply obeys_of_refused ⟨_, rfl⟩
    rintro v hv ⟨hpos, hlt⟩
    rw [extractSigned_of_spells hv hpos hlt] at hle
    omega
  · rw [if_neg hle, obeys_iff_of_performed (not_refused_setTtl _)]
    · simp only [hle, false_or]
    · intro v hv hpos hlt
      rw [extractSigned_of_spells hv hpos hlt]

/-- Any other verb sets nothing. -/
theorem unchanged_of_verb (hscale : verb line ≠ ascii "SCALE_DATA")
    (hset : verb line ≠ ascii "SET_TTL") : (s.applyCommand r fault granted line).2 = s := by
  rw [ControlState.applyCommand, parse_eq, if_neg hscale, if_neg hset]
  split
  · next h => split at h <;> [cases h; split at h <;> cases h]
  · next h => split at h <;> [cases h; split at h <;> cases h]
  · rfl
  · rfl
  · rfl

/-- Over all command lines: they have the effect of what their arguments spell exactly when an
argument that starts with an acceptable number is nothing but that number. -/
theorem applyCommand_as_spelled_iff : AsSpelled r fault granted s line ↔ ArgumentSpelled line := by
  constructor
  · intro h
    exact ⟨fun hverb => (obeys_scaleData_iff r fault granted hverb).mp (h.scaleData hverb),
      fun hverb => (obeys_setTtl_iff r fault granted hverb).mp (h.setTtl hverb)⟩
  · rintro ⟨hscale, hset⟩
    constructor
    · intro hverb
      exact (obeys_scaleData_iff r fault granted hverb).mpr (hscale hverb)
    · intro hverb
      exact (obeys_setTtl_iff r fault granted hverb).mpr (hset hverb)
    · exact unchanged_of_verb r fault granted s line

/-- A negative count is taken modulo 2 ^ 64. -/
theorem applyCommand_as_spelled_fails : ¬ ∀ (r : Root) (fault : Bytes → Option Fault)
    (granted : Nat) (s : ControlState) (line : Bytes), AsSpelled r fault granted s line := by
  intro hclaim
  have hobeys := (hclaim .sample (fun _ => none) 0 sampleStart
    (ascii "SCALE_DATA -1")).scaleData (by decide +kernel)
  have hrefused : Refused sampleStart (sampleStart.applyCommand .sample (fun _ => none) 0
      (ascii "SCALE_DATA -1")) := by
    apply hobeys.2
    rintro v hv ⟨hpos, -⟩
    have hscan := scan_of_spells hv hpos
    have hnegative : (scan (argument (ascii "SCALE_DATA -1"))).map Prod.fst = some true := by
      decide +kernel
    rw [hscan] at hnegative
    cases hnegative
  obtain ⟨text, h⟩ := hrefused
  have hcount : (sampleStart.applyCommand .sample (fun _ => none) 0
      (ascii "SCALE_DATA -1")).2.dataListenerCount = 18446744073709551615 := by
    decide +kernel
  rw [h] at hcount
  have hunchanged : sampleStart.dataListenerCount = 18446744073709551615 := hcount
  exact absurd hunchanged (by decide)

end SuperVoice.Server
