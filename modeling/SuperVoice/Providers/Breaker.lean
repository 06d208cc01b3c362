import SuperVoice.Lib.Transition
import SuperVoice.Providers.HttpProviderBase

/-! The circuit breaker against the history of the requests on one provider, one at a time. -/
namespace SuperVoice.Providers
open Transition

/-- How a request ended, seen from outside: turned away without an upstream attempt, with an
error, with data or not at all. -/
inductive Outcome where
  | rejected
  | failed
  | succeeded
  | aborted
  deriving DecidableEq

structure HistoryEntry where
  begun : Int64
  finished : Int64
  outcome : Outcome
  deriving DecidableEq

namespace Performed
variable {D : Type}

def outcome (performed : Performed D) : Outcome :=
  if performed.attempts = 0 then .rejected
  else match performed.result with
    | .error _ => .aborted
    | .ok result => if result.data.isSome then .succeeded else .failed

end Performed

section
variable (config : ProviderConfig)

def cooldownNanoseconds : Int := config.circuitBreakerCooldown.toInt * 1000000

/-- The last failed request, in a history with the newest request first. -/
def lastFailed (history : List HistoryEntry) : Option HistoryEntry :=
  history.find? fun e => e.outcome == .failed

/-- Less than the cooldown has passed since the last failed request completed. -/
def Cooling (history : List HistoryEntry) (now : Int64) : Prop :=
  ∃ e, lastFailed history = some e ∧ now.toInt < e.finished.toInt + cooldownNanoseconds config

instance (history : List HistoryEntry) (now : Int64) : Decidable (Cooling config history now) :=
  match h : lastFailed history with
  | none => isFalse fun ⟨_, he, _⟩ => by cases h.symm.trans he
  | some e =>
    if ht : now.toInt < e.finished.toInt + cooldownNanoseconds config then isTrue ⟨e, h, ht⟩
    else isFalse fun ⟨_, he, hlt⟩ => by cases h.symm.trans he; exact ht hlt

/-- The failures that count for a request begun now: it sees the cooldown expire when there are
enough of them and the cooldown is over. -/
def seen (failures : Nat) (earlier : List HistoryEntry) (now : Int64) : Nat :=
  if config.circuitBreakerThreshold.toNat ≤ failures ∧ ¬ Cooling config earlier now then 0
  else failures

/-- The failed requests since the last success or the last cooldown expiry that a request saw. -/
def failuresSince : List HistoryEntry → Nat
  | [] => 0
  | e :: earlier =>
    match e.outcome with
    | .rejected | .aborted => seen config (failuresSince earlier) earlier e.begun
    | .failed => seen config (failuresSince earlier) earlier e.begun + 1
    | .succeeded => 0

/-- When a request is to be turned away. -/
def Tripped (history : List HistoryEntry) (now : Int64) : Prop :=
  config.circuitBreakerThreshold.toNat ≤ failuresSince config history ∧ Cooling config history now

instance (history : List HistoryEntry) (now : Int64) : Decidable (Tripped config history now) :=
  inferInstanceAs (Decidable (_ ∧ _))

end

/-- A provider that serves one request at a time. -/
structure SerialProvider where
  breaker : CircuitBreakerState := {}
  history : List HistoryEntry := []
  /-- The clock when the last request ended. -/
  clock : Option Int64 := none
  deriving DecidableEq

namespace SerialProvider
variable {D : Type} (platform : Platform D) (config : ProviderConfig)

def perform (s : SerialProvider) (request : Request) : Performed D :=
  performHttpRequest platform config s.breaker request

def step (s : SerialProvider) (request : Request) : Option SerialProvider :=
  let performed := s.perform platform config request
  some { breaker := performed.breaker
         history := ⟨request.begun, request.finished, performed.outcome⟩ :: s.history
         clock := some request.finished }

/-- The request passes the configuration and key checks, and the clock does not go back. -/
structure Admissible (s : SerialProvider) (request : Request) : Prop where
  passes : preflight platform config request.apiKey request.context = none
  later : ∀ t, s.clock = some t → t ≤ request.begun
  ordered : request.begun ≤ request.finished

/-- The failure of this request opens the breaker. -/
def Opens (s : SerialProvider) (request : Request) : Prop :=
  ∃ admitted error attempts, s.breaker.check request.begun = some admitted ∧
    attemptsFrom platform config request config.maxRetries.toNat 0 =
      (attempts, .failed error) ∧
    config.circuitBreakerThreshold ≤ admitted.failures + 1

/-- The end of the cooldown is a reading of the clock: positive, and without wrap-around. -/
def Representable (finished : Int64) : Prop :=
  0 < finished.toInt + cooldownNanoseconds config ∧
    finished.toInt + cooldownNanoseconds config < 2 ^ 63

def Guarded (s : SerialProvider) (request : Request) : Prop :=
  Admissible platform config s request ∧
    (Opens platform config s request → Representable config request.finished)

/-- What the breaker is for: it counts the failures of the history, and a request is turned away
exactly when the history asks for it, and then changes nothing. -/
def Lawful (s : SerialProvider) : Prop :=
  s.breaker.failures.toNat = failuresSince config s.history ∧
    ∀ request, Admissible platform config s request →
      ((s.perform platform config request).attempts = 0 ↔
        Tripped config s.history request.begun) ∧
      ((s.perform platform config request).attempts = 0 →
        (s.perform platform config request).breaker = s.breaker)

/-- The breaker as the history determines it. -/
structure Tracks (s : SerialProvider) : Prop where
  failures : s.breaker.failures.toNat = failuresSince config s.history
  bounded : failuresSince config s.history ≤ config.circuitBreakerThreshold.toNat
  closed : failuresSince config s.history < config.circuitBreakerThreshold.toNat →
    s.breaker.openUntil = 0
  opened : config.circuitBreakerThreshold.toNat ≤ failuresSince config s.history →
    ∃ e, lastFailed s.history = some e ∧
      s.breaker.openUntil.toInt = e.finished.toInt + cooldownNanoseconds config ∧
      0 < s.breaker.openUntil.toInt

variable {platform config} {s s' : SerialProvider} {request : Request} {now : Int64}

theorem seen_of_lt {failures : Nat} {earlier : List HistoryEntry}
    (h : failures < config.circuitBreakerThreshold.toNat) :
    seen config failures earlier now = failures := by
  rw [seen, if_neg (fun hs => absurd hs.1 (Nat.not_le.mpr h))]

/-- The ways a request goes that passes the configuration and key checks. -/
theorem perform_cases (ha : Admissible platform config s request) :
    s.breaker.check request.begun = none ∧ s.perform platform config request =
        ⟨s.breaker, 0, .ok (makeCircuitOpenError platform config request.context)⟩ ∨
      ∃ admitted attempts, s.breaker.check request.begun = some admitted ∧ 0 < attempts ∧
        ((∃ error, attemptsFrom platform config request config.maxRetries.toNat 0 =
              (attempts, .failed error) ∧
            s.perform platform config request = ⟨admitted.recordFailure config request.finished,
              attempts, .ok { error := some error }⟩) ∨
          (∃ data, s.perform platform config request =
            ⟨{}, attempts, .ok { data := some data }⟩) ∨
          ∃ abort, s.perform platform config request = ⟨admitted, attempts, .error abort⟩) := by
  unfold perform performHttpRequest
  rw [ha.passes]
  dsimp only
  cases hcheck : s.breaker.check request.begun with
  | none => exact .inl ⟨rfl, rfl⟩
  | some admitted =>
    right
    have hpos := attemptsFrom_pos platform config request config.maxRetries.toNat 0
    cases hloop : attemptsFrom platform config request config.maxRetries.toNat 0 with
    | mk attempts ending =>
      rw [hloop] at hpos
      refine ⟨admitted, attempts, rfl, hpos, ?_⟩
      cases ending with
      | failed error => exact .inl ⟨error, rfl, rfl⟩
      | succeeded data => exact .inr (.inl ⟨data, rfl⟩)
      | aborted abort => exact .inr (.inr ⟨abort, rfl⟩)

theorem Tracks.start (hthreshold : 0 < config.circuitBreakerThreshold) :
    ({} : SerialProvider).Tracks config where
  failures := rfl
  bounded := Nat.zero_le _
  closed := fun _ => rfl
  opened := fun h => absurd h (Nat.not_le.mpr (UInt64.lt_iff_toNat_lt.mp hthreshold))

theorem Tracks.isOpen_iff (h : s.Tracks config) :
    s.breaker.isOpen now = true ↔ Tripped config s.history now := by
  simp only [CircuitBreakerState.isOpen, Bool.and_eq_true, bne_iff_ne, decide_eq_true_eq,
    Int64.lt_iff_toInt_lt]
  constructor
  · intro hopen
    obtain ⟨hset, hahead⟩ := hopen
    have hmany : config.circuitBreakerThreshold.toNat ≤ failuresSince config s.history :=
      Nat.not_lt.mp fun hlt => hset (h.closed hlt)
    obtain ⟨e, he, hend, -⟩ := h.opened hmany
    exact ⟨hmany, e, he, hend ▸ hahead⟩
  · intro htripped
    obtain ⟨hmany, e, he, hahead⟩ := htripped
    obtain ⟨e', he', hend, hpos⟩ := h.opened hmany
    cases he.symm.trans he'
    refine ⟨fun hzero => ?_, hend ▸ hahead⟩
    rw [hzero] at hpos
    exact absurd hpos (by decide)

/-- The request that the check lets through finds the failures it should count, and fewer than
the threshold. -/
theorem Tracks.admitted (h : s.Tracks config) (hthreshold : 0 < config.circuitBreakerThreshold)
    {admitted : CircuitBreakerState} (hc : s.breaker.check now = some admitted) :
    admitted.failures.toNat = seen config (failuresSince config s.history) s.history now ∧
      admitted.failures.toNat < config.circuitBreakerThreshold.toNat := by
  have hnone : ¬ s.breaker.isOpen now = true := fun ho => by
    rw [CircuitBreakerState.check_eq_none.mpr ho] at hc
    cases hc
  have htripped : ¬ Tripped config s.history now := fun ht => hnone (h.isOpen_iff.mpr ht)
  have hpos : 0 < config.circuitBreakerThreshold.toNat := UInt64.lt_iff_toNat_lt.mp hthreshold
  rw [CircuitBreakerState.check, if_neg hnone] at hc
  by_cases hlt : failuresSince config s.history < config.circuitBreakerThreshold.toNat
  · rw [h.closed hlt] at hc
    cases hc
    rw [seen_of_lt hlt, h.failures]
    exact ⟨rfl, hlt⟩
  · have hmany := Nat.not_lt.mp hlt
    obtain ⟨e, he, hend, hahead⟩ := h.opened hmany
    have hset : s.breaker.openUntil ≠ 0 := by
      intro hzero
      rw [hzero] at hahead
      exact absurd hahead (by decide)
    have hpast : s.breaker.openUntil ≤ now := by
      simp only [CircuitBreakerState.isOpen, Bool.and_eq_true, bne_iff_ne, decide_eq_true_eq,
        not_and] at hnone
      exact Int64.not_lt.mp (hnone hset)
    rw [if_pos (by simp [hset, hpast])] at hc
    cases hc
    rw [seen, if_pos ⟨hmany, fun hcool => htripped ⟨hmany, hcool⟩⟩]
    exact ⟨rfl, hpos⟩

theorem toInt_openUntil {finished : Int64} (h : Representable config finished) :
    (finished + config.circuitBreakerCooldown * 1000000).toInt =
      finished.toInt + cooldownNanoseconds config := by
  obtain ⟨hpos, hlt⟩ := h
  have hfactor : Int64.toInt 1000000 = 1000000 := by decide
  rw [cooldownNanoseconds] at hpos hlt ⊢
  rw [Int64.toInt_add, Int64.toInt_mul, Int.add_bmod_bmod, hfactor]
  exact Int.bmod_eq_of_le (by omega) (by omega)

/-- A request that is turned away changes nothing that counts. -/
theorem Tracks.rejected (h : s.Tracks config) (finished : Int64)
    (ht : Tripped config s.history now) :
    Tracks config ⟨s.breaker, ⟨now, finished, .rejected⟩ :: s.history, some finished⟩ := by
  have hsince : failuresSince config (⟨now, finished, .rejected⟩ :: s.history) =
      failuresSince config s.history := by
    simp only [failuresSince, seen]
    rw [if_neg (fun hs => hs.2 ht.2)]
  have hlast : lastFailed (⟨now, finished, .rejected⟩ :: s.history) = lastFailed s.history := rfl
  constructor <;> simp only [hsince, hlast]
  · exact h.failures
  · exact h.bounded
  · exact h.closed
  · exact h.opened

theorem Tracks.succeeded (hthreshold : 0 < config.circuitBreakerThreshold)
    (history : List HistoryEntry) (finished : Int64) :
    Tracks config ⟨{}, ⟨now, finished, .succeeded⟩ :: history, some finished⟩ where
  failures := rfl
  bounded := Nat.zero_le _
  closed := fun _ => rfl
  opened := fun h => absurd h (Nat.not_le.mpr (UInt64.lt_iff_toNat_lt.mp hthreshold))

/-- A request that breaks off leaves what the check has made of the breaker. -/
theorem Tracks.aborted (h : s.Tracks config) (hthreshold : 0 < config.circuitBreakerThreshold)
    {admitted : CircuitBreakerState} (hc : s.breaker.check now = some admitted)
    (finished : Int64) :
    Tracks config ⟨admitted, ⟨now, finished, .aborted⟩ :: s.history, some finished⟩ := by
  obtain ⟨hseen, hfew⟩ := h.admitted hthreshold hc
  have hsince : failuresSince config (⟨now, finished, .aborted⟩ :: s.history) =
      admitted.failures.toNat := hseen.symm
  constructor <;> simp only [hsince]
  · exact Nat.le_of_lt hfew
  · exact fun _ => CircuitBreakerState.openUntil_of_check hc
  · exact fun hmany => absurd hfew (Nat.not_lt.mpr hmany)

theorem Tracks.failed (h : s.Tracks config) (hthreshold : 0 < config.circuitBreakerThreshold)
    {admitted : CircuitBreakerState} (hc : s.breaker.check now = some admitted) (finished : Int64)
    (hend : config.circuitBreakerThreshold ≤ admitted.failures + 1 →
      Representable config finished) :
    Tracks config ⟨admitted.recordFailure config finished,
      ⟨now, finished, .failed⟩ :: s.history, some finished⟩ := by
  obtain ⟨hseen, hfew⟩ := h.admitted hthreshold hc
  have hcount : (admitted.failures + 1).toNat = admitted.failures.toNat + 1 := by
    have := config.circuitBreakerThreshold.toNat_lt
    rw [UInt64.toNat_add, UInt64.toNat_one]
    omega
  have hsince : failuresSince config (⟨now, finished, .failed⟩ :: s.history) =
      (admitted.failures + 1).toNat := by
    rw [hcount, hseen]
    rfl
  have hfailures : (admitted.recordFailure config finished).failures = admitted.failures + 1 :=
    CircuitBreakerState.failures_recordFailure
  by_cases hmany : config.circuitBreakerThreshold ≤ admitted.failures + 1
  · have hrep := hend hmany
    have hopen : (admitted.recordFailure config finished).openUntil.toInt =
        finished.toInt + cooldownNanoseconds config := by
      simp only [CircuitBreakerState.recordFailure, if_pos hmany]
      exact toInt_openUntil hrep
    constructor
    · exact (congrArg UInt64.toNat hfailures).trans hsince.symm
    · exact hsince ▸ hcount ▸ hfew
    · intro hlt
      exact absurd (UInt64.le_iff_toNat_le.mp hmany) (Nat.not_le.mpr (hsince ▸ hlt))
    · intro _
      exact ⟨_, rfl, hopen, hopen ▸ hrep.1⟩
  · have hunset : (admitted.recordFailure config finished).openUntil = 0 := by
      simp only [CircuitBreakerState.recordFailure, if_neg hmany]
      exact CircuitBreakerState.openUntil_of_check hc
    constructor
    · exact (congrArg UInt64.toNat hfailures).trans hsince.symm
    · exact hsince ▸ hcount ▸ hfew
    · exact fun _ => hunset
    · intro hge
      exact absurd (UInt64.le_iff_toNat_le.mpr (hsince ▸ hge)) hmany

theorem Tracks.step (h : s.Tracks config) (hthreshold : 0 < config.circuitBreakerThreshold)
    (hg : Guarded platform config s request) (hs : step platform config s request = some s') :
    s'.Tracks config := by
  cases hs
  obtain ⟨hcheck, hperform⟩ | ⟨admitted, attempts, hcheck, hpos, hended⟩ := perform_cases hg.1
  · rw [hperform]
    exact h.rejected request.finished
      (h.isOpen_iff.mp (CircuitBreakerState.check_eq_none.mp hcheck))
  · have hsome : attempts ≠ 0 := Nat.pos_iff_ne_zero.mp hpos
    obtain ⟨error, hloop, hperform⟩ | ⟨data, hperform⟩ | ⟨abort, hperform⟩ := hended
    · simp only [hperform, Performed.outcome, if_neg hsome]
      exact h.failed hthreshold hcheck request.finished fun hmany =>
        hg.2 ⟨admitted, error, attempts, hcheck, hloop, hmany⟩
    · simp only [hperform, Performed.outcome, if_neg hsome]
      exact Tracks.succeeded hthreshold s.history request.finished
    · simp only [hperform, Performed.outcome, if_neg hsome]
      exact h.aborted hthreshold hcheck request.finished

theorem Tracks.lawful (h : s.Tracks config) : s.Lawful platform config := by
  refine ⟨h.failures, fun request ha => ?_⟩
  obtain ⟨hcheck, hperform⟩ | ⟨admitted, attempts, hcheck, hpos, hended⟩ := perform_cases ha
  · have htripped := h.isOpen_iff.mp (CircuitBreakerState.check_eq_none.mp hcheck)
    simp only [hperform]
    exact ⟨⟨fun _ => htripped, fun _ => trivial⟩, fun _ => trivial⟩
  · have hattempts : (s.perform platform config request).attempts = attempts := by
      obtain ⟨error, -, hperform⟩ | ⟨data, hperform⟩ | ⟨abort, hperform⟩ := hended <;>
        rw [hperform]
    have hnot : ¬ Tripped config s.history request.begun := fun ht => by
      rw [CircuitBreakerState.check_eq_none.mpr (h.isOpen_iff.mpr ht)] at hcheck
      cases hcheck
    rw [hattempts]
    have hsome : attempts ≠ 0 := Nat.pos_iff_ne_zero.mp hpos
    exact ⟨⟨fun h0 => absurd h0 hsome, fun ht => absurd ht hnot⟩, fun h0 => absurd h0 hsome⟩

/-- While the end of no cooldown that a failure starts leaves the range of the clock, the breaker
follows the history of the requests. -/
theorem breaker_lawful (platform : Platform D) (config : ProviderConfig)
    (hthreshold : 0 < config.circuitBreakerThreshold)
    (hr : Reach (step platform config) (Guarded platform config) {} s) :
    s.Lawful platform config := by
  have htracks : s.Tracks config :=
    hr.invariant (.start hthreshold) fun _ _ _ h hg hs => h.step hthreshold hg hs
  exact htracks.lawful

/-- A request whose first attempt is answered with 401. -/
def refused (begun finished : Int64) : Request where
  apiKey := some (Bytes.ascii "secret")
  context := ⟨[]⟩
  begun := begun
  finished := finished
  responses := fun _ => unauthorized
  draws := fun _ => id

theorem refused_admissible {threshold : UInt64} {cooldown begun finished : Int64}
    (hlater : ∀ t, s.clock = some t → t ≤ begun) (hordered : begun ≤ finished) :
    Admissible samplePlatform (sampleConfig threshold cooldown) s (refused begun finished) where
  passes := rfl
  later := hlater
  ordered := hordered

/-- The breaker after one failure at 1 ns, with the longest cooldown: its end has wrapped around
to the past. -/
def wrapped : SerialProvider where
  breaker := ⟨1, -999999⟩
  history := [⟨0, 1, .failed⟩]
  clock := some 1

/-- With the longest cooldown the breaker never turns a request away. -/
theorem breaker_unlawful : ∃ config : ProviderConfig, 0 < config.circuitBreakerThreshold ∧
    0 < config.circuitBreakerCooldown ∧ ∃ s : SerialProvider,
      Reach (step samplePlatform config) (Admissible samplePlatform config) {} s ∧
        ¬ s.Lawful samplePlatform config := by
  refine ⟨sampleConfig 1 9223372036854775807, by decide, by decide, wrapped, ?_, fun h => ?_⟩
  · have hstep : step samplePlatform (sampleConfig 1 9223372036854775807) {} (refused 0 1) =
        some wrapped := by decide +kernel
    exact .next (refused 0 1) .start (refused_admissible (fun _ ht => by cases ht) (by decide)) hstep
  · have hadmissible : Admissible samplePlatform (sampleConfig 1 9223372036854775807) wrapped
        (refused 2 3) := refused_admissible (fun t ht => by cases ht; decide) (by decide)
    have htripped : Tripped (sampleConfig 1 9223372036854775807) wrapped.history 2 := by
      decide +kernel
    have hattempts : (wrapped.perform samplePlatform (sampleConfig 1 9223372036854775807)
        (refused 2 3)).attempts ≠ 0 := by decide +kernel
    exact hattempts ((h.2 _ hadmissible).1.mpr htripped)

/-- One failure opens the breaker for ten seconds. -/
theorem breaker_lawful_sample : ∃ s : SerialProvider, s.history = [⟨0, 1, .failed⟩] ∧
    s.Lawful samplePlatform (sampleConfig 1 10000) := by
  have hstep : step samplePlatform (sampleConfig 1 10000) {} (refused 0 1) =
      some ⟨⟨1, 10000000001⟩, [⟨0, 1, .failed⟩], some 1⟩ := by decide +kernel
  have hguard : Guarded samplePlatform (sampleConfig 1 10000) {} (refused 0 1) :=
    ⟨refused_admissible (fun _ ht => by cases ht) (by decide),
      fun _ => show Representable _ 1 from ⟨by decide, by decide⟩⟩
  exact ⟨_, rfl, breaker_lawful samplePlatform (sampleConfig 1 10000) (by decide)
    (.next (refused 0 1) .start hguard hstep)⟩

end SerialProvider
end SuperVoice.Providers
