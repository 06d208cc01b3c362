import Mathlib.Data.List.Basic
import Mathlib.Tactic.Common

/-! Runs of a partial step function whose labels carry all nondeterminism.
A guard restricts the steps a run may take; the free guard gives plain reachability. -/
namespace Transition
variable {σ α : Type*} {step : σ → α → Option σ} {guard : σ → α → Prop} {s₀ s s' : σ}

/-- Execute the labels in order; `none` as soon as one is not enabled. -/
def run (step : σ → α → Option σ) : σ → List α → Option σ
  | s, [] => some s
  | s, a :: as => (step s a).bind fun s' => run step s' as

/-- Execute the labels in order, checking the guard before every step. -/
def runIf (step : σ → α → Option σ) (ok : σ → α → Bool) : σ → List α → Option σ
  | s, [] => some s
  | s, a :: as => if ok s a then (step s a).bind fun s' => runIf step ok s' as else none

/-- The states some run from `s₀` reaches when each of its steps meets `guard`. -/
inductive Reach (step : σ → α → Option σ) (guard : σ → α → Prop) (s₀ : σ) : σ → Prop where
  | start : Reach step guard s₀ s₀
  | next {s s' : σ} (a : α) (hr : Reach step guard s₀ s) (hg : guard s a)
      (hs : step s a = some s') : Reach step guard s₀ s'

/-- Reachability with no restriction on the steps. -/
abbrev Reachable (step : σ → α → Option σ) (s₀ : σ) : σ → Prop :=
  Reach step (fun _ _ => True) s₀

/-- No label among those `internal` admits is enabled. -/
def Stuck (step : σ → α → Option σ) (internal : α → Prop) (s : σ) : Prop :=
  ∀ a, internal a → step s a = none

/-- An invariant that holds at the start and that every guarded step keeps. -/
theorem Reach.invariant {P : σ → Prop} (h0 : P s₀)
    (hstep : ∀ s a s', P s → guard s a → step s a = some s' → P s')
    (h : Reach step guard s₀ s) : P s := by
  induction h with
  | start => exact h0
  | next a _ hg hs ih => exact hstep _ a _ ih hg hs

theorem Reach.trans {s₁ : σ} (h₁ : Reach step guard s₀ s₁) (h₂ : Reach step guard s₁ s) :
    Reach step guard s₀ s := by
  induction h₂ with
  | start => exact h₁
  | next a _ hg hs ih => exact .next a ih hg hs

theorem Reach.of_run {as : List α} (h : run step s as = some s') : Reachable step s s' := by
  induction as generalizing s with
  | nil => cases h; exact .start
  | cons a as ih =>
    obtain ⟨m, hm, hrest⟩ := Option.bind_eq_some_iff.mp h
    exact (Reach.next a .start trivial hm).trans (ih hrest)

theorem Reach.of_runIf {ok : σ → α → Bool} (hok : ∀ s a, ok s a = true → guard s a)
    {as : List α} (h : runIf step ok s as = some s') : Reach step guard s s' := by
  induction as generalizing s with
  | nil => cases h; exact .start
  | cons a as ih =>
    by_cases ha : ok s a = true
    · rw [runIf, if_pos ha] at h
      obtain ⟨m, hm, hrest⟩ := Option.bind_eq_some_iff.mp h
      exact (Reach.next a .start (hok s a ha) hm).trans (ih hrest)
    · rw [runIf, if_neg ha] at h
      cases h

/-- A run meets the guard if an invariant it keeps and its labels imply the guard. -/
theorem Reach.of_run_of {P : σ → Prop} {ok : α → Prop} {as : List α} (h0 : P s)
    (hstep : ∀ s a s', P s → ok a → step s a = some s' → P s')
    (hguard : ∀ s a, P s → ok a → guard s a) (has : ∀ a ∈ as, ok a)
    (h : run step s as = some s') : Reach step guard s s' := by
  induction as generalizing s with
  | nil => cases h; exact .start
  | cons a as ih =>
    obtain ⟨m, hm, hrest⟩ := Option.bind_eq_some_iff.mp h
    have ha := has a List.mem_cons_self
    have hreach : Reach step guard s m := .next a .start (hguard s a h0 ha) hm
    refine hreach.trans (ih (hstep s a m h0 ha hm) (fun b hb => ?_) hrest)
    exact has b (List.mem_cons_of_mem a hb)

/-- The same when each label alone implies the guard. -/
theorem Reach.of_run_all {as : List α} (hguard : ∀ a ∈ as, ∀ s, guard s a)
    (h : run step s as = some s') : Reach step guard s s' :=
  .of_run_of (P := fun _ => True) trivial (fun _ _ _ _ _ _ => trivial) (fun s _ _ ha => ha s)
    hguard h

theorem run_append (as bs : List α) :
    run step s (as ++ bs) = (run step s as).bind fun m => run step m bs := by
  induction as generalizing s with
  | nil => rfl
  | cons a as ih =>
    simp only [List.cons_append, run, Option.bind_assoc]
    congr 1
    funext m
    exact ih

theorem run_of_runIf {ok : σ → α → Bool} {as : List α} (h : runIf step ok s as = some s') :
    run step s as = some s' := by
  induction as generalizing s with
  | nil => exact h
  | cons a as ih =>
    by_cases ha : ok s a = true
    · rw [runIf, if_pos ha] at h
      obtain ⟨m, hm, hrest⟩ := Option.bind_eq_some_iff.mp h
      rw [run, hm]
      exact ih hrest
    · rw [runIf, if_neg ha] at h
      cases h

/-- A run whose last state satisfies a decidable property reaches such a state. -/
theorem exists_reachable {as : List α} {p : σ → Bool}
    (h : (run step s as).any p = true) : ∃ s', Reachable step s s' ∧ p s' = true := by
  cases hr : run step s as with
  | none => simp [hr] at h
  | some s' => exact ⟨s', .of_run hr, by simpa [hr] using h⟩

/-- `P` holds in every state that the run goes through, and `T` of every step it takes. -/
def Along (step : σ → α → Option σ) (P : σ → Prop) (T : σ → α → σ → Prop) : σ → List α → Prop
  | s, [] => P s
  | s, a :: as => P s ∧ ∀ s', step s a = some s' → T s a s' ∧ Along step P T s' as

/-- Every step that the run takes meets the guard. -/
def Meets (step : σ → α → Option σ) (guard : σ → α → Prop) : σ → List α → Prop
  | _, [] => True
  | s, a :: as => ∀ s', step s a = some s' → guard s a ∧ Meets step guard s' as

/-- When `P` survives exactly the steps that meet the guard, it holds along exactly the runs whose
steps all meet the guard. -/
theorem along_iff_meets {P Q : σ → Prop} {T : σ → α → σ → Prop} {as : List α}
    (hQ : ∀ s a s', Q s → step s a = some s' → Q s')
    (hT : ∀ s a s', Q s → step s a = some s' → T s a s')
    (hP : ∀ s a s', Q s → P s → step s a = some s' → (P s' ↔ guard s a)) (hq : Q s) (hp : P s) :
    Along step P T s as ↔ Meets step guard s as := by
  induction as generalizing s with
  | nil => exact iff_of_true hp trivial
  | cons a as ih =>
    constructor
    · rintro ⟨-, h⟩ s' hs
      have hp' : P s' := by
        have hrest := (h s' hs).2
        cases as with
        | nil => exact hrest
        | cons b as => exact hrest.1
      exact ⟨(hP s a s' hq hp hs).mp hp', (ih (hQ s a s' hq hs) hp').mp (h s' hs).2⟩
    · intro h
      refine ⟨hp, fun s' hs => ?_⟩
      obtain ⟨hg, hrest⟩ := h s' hs
      exact ⟨hT s a s' hq hs, (ih (hQ s a s' hq hs) ((hP s a s' hq hp hs).mpr hg)).mpr hrest⟩

end Transition
