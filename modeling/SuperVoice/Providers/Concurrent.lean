import SuperVoice.Lib.Transition
import SuperVoice.Providers.HttpProviderBase

/-! Concurrent requests on one provider. The check and the update of the breaker are each one step,
under the mutex; a request in its retry loop holds no lock and does not look at the breaker. Its
delays are not computed here: between two attempts any time passes. -/
namespace SuperVoice.Providers
open Transition

/-- Where a request stands. -/
inductive Stage (D : Type) where
  | idle
  /-- The clock has been read; the check of the breaker comes next. -/
  | checking (context : RequestContext) (now : Int64)
  /-- An upstream attempt comes next, at once or after a backoff sleep. -/
  | attempting (context : RequestContext) (attempt : Nat)
  | waiting (context : RequestContext) (attempt : Nat)
  /-- The update of the breaker comes next. -/
  | ending (ending : Ending D)
  | returned (result : Except Abort (ProviderResult D))

/-- What the requests did, in order. -/
inductive ProviderEvent where
  | admitted (i : Nat)
  | started (i : Nat) (time : Int64)
  /-- A failure of request `i` set `openUntil`. -/
  | opened (i : Nat)
  deriving DecidableEq

structure Provider (D : Type) where
  breaker : CircuitBreakerState
  stage : Nat → Stage D
  log : List ProviderEvent

inductive ProviderAction where
  | begin (i : Nat) (apiKey : Option Bytes) (context : RequestContext) (now : Int64)
  | check (i : Nat)
  | start (i : Nat) (time : Int64)
  | respond (i : Nat) (response : Response)
  | update (i : Nat) (now : Int64)

namespace Stage

/-- The request has passed the check and is in its retry loop. -/
def inLoop {D : Type} : Stage D → Bool
  | .attempting .. | .waiting .. => true
  | _ => false

end Stage

namespace Provider
variable {D : Type} (platform : Platform D) (config : ProviderConfig)

def start : Provider D where
  breaker := {}
  stage := fun _ => .idle
  log := []

def move (s : Provider D) (i : Nat) (stage : Stage D) : Provider D :=
  { s with stage := Function.update s.stage i stage }

def note (s : Provider D) (event : ProviderEvent) : Provider D :=
  { s with log := s.log ++ [event] }

/-- The lock section on a failure. -/
def recordFailure (s : Provider D) (i : Nat) (now : Int64) : Provider D :=
  let s' := { s with breaker := s.breaker.recordFailure config now }
  if config.circuitBreakerThreshold ≤ s.breaker.failures + 1 then s'.note (.opened i) else s'

def step (s : Provider D) : ProviderAction → Option (Provider D)
  | .begin i apiKey context now =>
    match s.stage i with
    | .idle =>
      match preflight platform config apiKey context with
      | some error => some (s.move i (.returned (.ok { error := some error })))
      | none => some (s.move i (.checking context now))
    | _ => none
  | .check i =>
    match s.stage i with
    | .checking context now =>
      match s.breaker.check now with
      | none => some (s.move i (.returned (.ok (makeCircuitOpenError platform config context))))
      | some breaker =>
        some (({ s with breaker }.move i (.attempting context 0)).note (.admitted i))
    | _ => none
  | .start i time =>
    match s.stage i with
    | .attempting context attempt =>
      some ((s.move i (.waiting context attempt)).note (.started i time))
    | _ => none
  | .respond i response =>
    match s.stage i with
    | .waiting context attempt =>
      if attempt < config.maxRetries.toNat ∧ shouldRetry response then
        some (s.move i (.attempting context (attempt + 1)))
      else some (s.move i (.ending (endingOf platform config context response)))
    | _ => none
  | .update i now =>
    match s.stage i with
    | .ending (.failed error) =>
      some ((s.recordFailure config i now).move i (.returned (.ok { error := some error })))
    | .ending (.succeeded data) =>
      some ({ s with breaker := {} }.move i (.returned (.ok { data := some data })))
    | .ending (.aborted abort) => some (s.move i (.returned (.error abort)))
    | _ => none

/-- Since request `i` was let through, the breaker has been unset or another request opened it. -/
def Vouched (s : Provider D) (i : Nat) : Prop :=
  ∃ before after, s.log = before ++ .admitted i :: after ∧
    (s.breaker.openUntil = 0 ∨ ∃ j, j ≠ i ∧ ProviderEvent.opened j ∈ after)

def Sound (s : Provider D) : Prop := ∀ i, (s.stage i).inLoop = true → s.Vouched i

variable {platform config} {s s' : Provider D} {i : Nat}

theorem stage_move (s : Provider D) (i j : Nat) (stage : Stage D) :
    (s.move i stage).stage j = if j = i then stage else s.stage j := by
  simp only [move, Function.update_apply]

/-- The breaker is left alone, or unset, or opened by a request that then is past its loop; what
is logged comes last. -/
def Extends (s s' : Provider D) (i : Nat) : Prop :=
  ∃ events, s'.log = s.log ++ events ∧
    (s'.breaker.openUntil = 0 ∨ s'.breaker.openUntil = s.breaker.openUntil ∨
      ProviderEvent.opened i ∈ events)

theorem Vouched.extends {j : Nat} (h : s.Vouched j) (he : Extends s s' i) (hij : i ≠ j) :
    s'.Vouched j := by
  obtain ⟨before, after, hlog, hopen⟩ := h
  obtain ⟨events, hlog', hopen'⟩ := he
  refine ⟨before, after ++ events, by simp [hlog', hlog], ?_⟩
  obtain hunset | hsame | hnew := hopen'
  · exact .inl hunset
  · obtain hclosed | ⟨k, hk, hmem⟩ := hopen
    · exact .inl (hsame.trans hclosed)
    · exact .inr ⟨k, hk, List.mem_append_left _ hmem⟩
  · exact .inr ⟨i, hij, List.mem_append_right _ hnew⟩

theorem Vouched.extends_same (h : s.Vouched i) {events : List ProviderEvent}
    (hlog : s'.log = s.log ++ events) (hbreaker : s'.breaker = s.breaker) : s'.Vouched i := by
  obtain ⟨before, after, hs, hopen⟩ := h
  refine ⟨before, after ++ events, by simp [hlog, hs], ?_⟩
  rw [hbreaker]
  obtain hclosed | ⟨k, hk, hmem⟩ := hopen
  · exact .inl hclosed
  · exact .inr ⟨k, hk, List.mem_append_left _ hmem⟩

theorem recordFailure_extends (s : Provider D) (now : Int64) (stage : Stage D) :
    Extends s ((s.recordFailure config i now).move i stage) i := by
  unfold recordFailure
  by_cases h : config.circuitBreakerThreshold ≤ s.breaker.failures + 1
  · rw [if_pos h]
    exact ⟨[.opened i], rfl, .inr (.inr (List.mem_singleton_self _))⟩
  · rw [if_neg h]
    refine ⟨[], (List.append_nil _).symm, .inr (.inl ?_)⟩
    simp [move, CircuitBreakerState.recordFailure, h]

/-- The request that takes a step. -/
def actor : ProviderAction → Nat
  | .begin i .. | .check i | .start i _ | .respond i _ | .update i _ => i

/-- A step moves one request, and moves it within its loop or into it from the check. -/
theorem step_cases {a : ProviderAction} (h : step platform config s a = some s') :
    Extends s s' (actor a) ∧ (∀ j, j ≠ actor a → s'.stage j = s.stage j) ∧
      ((s'.stage (actor a)).inLoop = true →
        (s.stage (actor a)).inLoop = true ∧ s'.breaker = s.breaker ∨
          s'.breaker.openUntil = 0 ∧ s'.log = s.log ++ [.admitted (actor a)]) := by
  have hquiet : ∀ i stage, Extends s (s.move i stage) i := fun i stage =>
    ⟨[], (List.append_nil _).symm, .inr (.inl rfl)⟩
  have hother : ∀ (t : Provider D) i stage j, j ≠ i → (t.move i stage).stage j = t.stage j := by
    intro t i stage j hj
    rw [stage_move, if_neg hj]
  cases a with
  | begin i apiKey context now =>
    simp only [step] at h
    split at h
    · split at h <;> cases h <;>
        exact ⟨hquiet .., hother _ _ _, by simp [actor, stage_move, Stage.inLoop]⟩
    · cases h
  | check i =>
    simp only [step] at h
    split at h
    · rename_i context now hstage
      split at h
      · cases h
        exact ⟨hquiet .., hother _ _ _, by simp [actor, stage_move, Stage.inLoop]⟩
      · rename_i breaker hcheck
        have hunset := CircuitBreakerState.openUntil_of_check hcheck
        cases h
        exact ⟨⟨[.admitted i], rfl, .inl hunset⟩, hother _ _ _, fun _ => .inr ⟨hunset, rfl⟩⟩
    · cases h
  | start i time =>
    simp only [step] at h
    split at h
    · rename_i context attempt hstage
      cases h
      exact ⟨⟨[.started i time], rfl, .inr (.inl rfl)⟩, hother _ _ _,
        fun _ => .inl ⟨by simp [actor, hstage, Stage.inLoop], rfl⟩⟩
    · cases h
  | respond i response =>
    simp only [step] at h
    split at h
    · rename_i context attempt hstage
      have hin : (s.stage i).inLoop = true := by simp [hstage, Stage.inLoop]
      split at h <;> cases h <;> exact ⟨hquiet .., hother _ _ _, fun _ => .inl ⟨hin, rfl⟩⟩
    · cases h
  | update i now =>
    simp only [step] at h
    split at h
    · cases h
      refine ⟨recordFailure_extends s now _, ?_, by simp [actor, stage_move, Stage.inLoop]⟩
      intro j hj
      have hstage : (s.recordFailure config i now).stage = s.stage := by
        unfold recordFailure
        split <;> rfl
      rw [hother _ i _ j hj, hstage]
    · cases h
      exact ⟨⟨[], (List.append_nil _).symm, .inl rfl⟩, hother _ _ _,
        by simp [actor, stage_move, Stage.inLoop]⟩
    · cases h
      exact ⟨hquiet .., hother _ _ _, by simp [actor, stage_move, Stage.inLoop]⟩
    · cases h

theorem Sound.step {a : ProviderAction} (h : s.Sound) (hs : step platform config s a = some s') :
    s'.Sound := by
  obtain ⟨hext, hother, hactor⟩ := step_cases hs
  intro i hi
  by_cases hia : i = actor a
  · subst hia
    obtain ⟨hin, hbreaker⟩ | ⟨hunset, hlog⟩ := hactor hi
    · obtain ⟨events, hlog, -⟩ := hext
      exact (h _ hin).extends_same hlog hbreaker
    · exact ⟨s.log, [], hlog, .inl hunset⟩
  · rw [hother i hia] at hi
    exact (h i hi).extends hext (Ne.symm hia)

theorem Sound.start : (start : Provider D).Sound := by
  intro i hi
  simp [Provider.start, Stage.inLoop] at hi

theorem sound_of_reachable (h : Reachable (step platform config) start s) : s.Sound :=
  h.invariant .start fun _ _ _ hs _ hstep => hs.step hstep

/-- The check lets no request through an open breaker, and an upstream attempt starts while the
breaker is open only if the failure of another request has opened it since the check of its own
request. -/
theorem open_attempts (platform : Platform D) (config : ProviderConfig)
    (h : Reachable (step platform config) start s) :
    (∀ i context now, s.stage i = .checking context now → s.breaker.isOpen now = true →
      step platform config s (.check i) =
        some (s.move i (.returned (.ok (makeCircuitOpenError platform config context))))) ∧
    ∀ i time s', step platform config s (.start i time) = some s' →
      s.breaker.isOpen time = true →
      ∃ j before after, j ≠ i ∧ s.log = before ++ .admitted i :: after ∧
        ProviderEvent.opened j ∈ after := by
  refine ⟨fun i context now hstage hopen => ?_, fun i time s' hstep hopen => ?_⟩
  · simp only [step, hstage, CircuitBreakerState.check_eq_none.mpr hopen]
  · have hin : (s.stage i).inLoop = true := by
      simp only [step] at hstep
      split at hstep
      · rename_i hstage
        simp [hstage, Stage.inLoop]
      · cases hstep
    obtain ⟨before, after, hlog, hunset | ⟨j, hj, hmem⟩⟩ := sound_of_reachable h i hin
    · rw [CircuitBreakerState.not_isOpen_of_openUntil hunset] at hopen
      cases hopen
    · exact ⟨j, before, after, hj, hlog, hmem⟩

/-- Two requests pass the check; the failure of the second opens the breaker before the first
has made its attempt. -/
def overtaken : List ProviderAction :=
  let key := some (Bytes.ascii "secret")
  [.begin 0 key ⟨[]⟩ 1000, .check 0, .begin 1 key ⟨[]⟩ 2000, .check 1, .start 1 3000,
    .respond 1 unauthorized, .update 1 4000]

def overtakenBy (s : Provider ℚ) (time : Int64) : Bool :=
  (step samplePlatform (sampleConfig 1 10000) s (.start 0 time)).isSome && s.breaker.isOpen time

/-- An upstream attempt starts while the breaker is open. -/
theorem attempt_while_open : ∃ s s' : Provider ℚ,
    Reachable (step samplePlatform (sampleConfig 1 10000)) start s ∧
      ∃ i time, step samplePlatform (sampleConfig 1 10000) s (.start i time) = some s' ∧
        s.breaker.isOpen time = true := by
  have hrun : (run (step samplePlatform (sampleConfig 1 10000)) start overtaken).any
      (fun s => overtakenBy s 5000) = true := by decide +kernel
  obtain ⟨s, hreach, hs⟩ := exists_reachable hrun
  obtain ⟨hsome, hopen⟩ := (Bool.and_eq_true ..).mp hs
  obtain ⟨s', hs'⟩ := Option.isSome_iff_exists.mp hsome
  exact ⟨s, s', hreach, 0, 5000, hs', hopen⟩

theorem open_attempts_sample : ∃ s : Provider ℚ,
    Reachable (step samplePlatform (sampleConfig 1 10000)) start s ∧
      (∀ i context now, s.stage i = .checking context now → s.breaker.isOpen now = true →
        step samplePlatform (sampleConfig 1 10000) s (.check i) =
          some (s.move i (.returned (.ok
            (makeCircuitOpenError samplePlatform (sampleConfig 1 10000) context))))) ∧
      ∀ i time s', step samplePlatform (sampleConfig 1 10000) s (.start i time) = some s' →
        s.breaker.isOpen time = true →
        ∃ j before after, j ≠ i ∧ s.log = before ++ .admitted i :: after ∧
          ProviderEvent.opened j ∈ after := by
  have hrun : (run (step samplePlatform (sampleConfig 1 10000)) start overtaken).any
      (fun s => overtakenBy s 5000) = true := by decide +kernel
  obtain ⟨s, hreach, -⟩ := exists_reachable hrun
  exact ⟨s, hreach, open_attempts samplePlatform (sampleConfig 1 10000) hreach⟩

end Provider

end SuperVoice.Providers
