import Mathlib.Logic.Function.Basic
import Mathlib.Tactic.Common

/-! Threads that exchange a flag, of which the first one takes it. -/
namespace Exchange
variable {ι : Type*}

inductive Role where
  | idle
  /-- The exchange is still to come. -/
  | contends
  | holds
  | ended
  deriving DecidableEq

structure State (ι : Type*) where
  taken : Bool
  role : ι → Role
  /-- How many have ended with the flag. -/
  wins : Nat

/-- What a thread does to the flag and to its own role, and whether it ends with the flag. -/
inductive Change : Bool → Role → Bool → Role → Nat → Prop where
  | keeps {taken : Bool} {role : Role} : Change taken role taken role 0
  | enters {taken : Bool} : Change taken .idle taken .contends 0
  | loses : Change true .contends true .ended 0
  | takes : Change false .contends true .holds 0
  | wins {taken : Bool} : Change taken .holds taken .ended 1

/-- Nobody has the flag yet, one thread has it, or one thread has ended with it. -/
inductive Phase (s : State ι) : Prop where
  | free (htaken : s.taken = false) (hwins : s.wins = 0) (hnone : ∀ i, s.role i ≠ .holds)
  | held (i : ι) (htaken : s.taken = true) (hwins : s.wins = 0)
      (hone : ∀ j, s.role j = .holds ↔ j = i)
  | finished (htaken : s.taken = true) (hwins : s.wins = 1) (hnone : ∀ i, s.role i ≠ .holds)

structure Sound (s : State ι) : Prop where
  phase : Phase s
  contended : ∀ i, s.role i ≠ .idle → s.taken = true ∨ ∃ j, s.role j = .contends

variable {s : State ι}

theorem Phase.taken_of_holds (h : Phase s) {i : ι} (hi : s.role i = .holds) : s.taken = true := by
  cases h with
  | free htaken hwins hnone => exact absurd hi (hnone i)
  | held _ htaken => exact htaken
  | finished htaken => exact htaken

theorem Phase.wins_of_holds (h : Phase s) {i : ι} (hi : s.role i = .holds) : s.wins = 0 := by
  cases h with
  | free htaken hwins hnone => exact hwins
  | held _ htaken hwins => exact hwins
  | finished htaken hwins hnone => exact absurd hi (hnone i)

theorem Phase.unique (h : Phase s) {i j : ι} (hi : s.role i = .holds) (hj : s.role j = .holds) :
    i = j := by
  cases h with
  | free htaken hwins hnone => exact absurd hi (hnone i)
  | held k htaken hwins hone => exact ((hone i).mp hi).trans ((hone j).mp hj).symm
  | finished htaken hwins hnone => exact absurd hi (hnone i)

theorem Phase.free_of_not_taken (h : Phase s) (htaken : s.taken = false) :
    s.wins = 0 ∧ ∀ i, s.role i ≠ .holds := by
  cases h with
  | free _ hwins hnone => exact ⟨hwins, hnone⟩
  | held _ htaken' => rw [htaken'] at htaken; cases htaken
  | finished htaken' => rw [htaken'] at htaken; cases htaken

/-- The phase depends on who holds the flag, not on the other roles. -/
theorem Phase.congr {s' : State ι} (h : Phase s) (htaken : s'.taken = s.taken)
    (hwins : s'.wins = s.wins) (hholds : ∀ j, s'.role j = .holds ↔ s.role j = .holds) :
    Phase s' := by
  cases h with
  | free htaken' hwins' hnone =>
    apply Phase.free (htaken.trans htaken') (hwins.trans hwins')
    intro j hj
    exact hnone j ((hholds j).mp hj)
  | held i htaken' hwins' hone =>
    apply Phase.held i (htaken.trans htaken') (hwins.trans hwins')
    intro j
    rw [hholds, hone]
  | finished htaken' hwins' hnone =>
    apply Phase.finished (htaken.trans htaken') (hwins.trans hwins')
    intro j hj
    exact hnone j ((hholds j).mp hj)

theorem sound_start : Sound (⟨false, fun _ => .idle, 0⟩ : State ι) where
  phase := .free rfl rfl fun _ hi => by cases hi
  contended := fun _ hi => absurd rfl hi

theorem Phase.wins_le_one (h : Phase s) : s.wins ≤ 1 := by
  cases h with
  | free _ hwins => omega
  | held _ _ hwins => omega
  | finished _ hwins => omega

/-- When all threads that came have ended, one has ended with the flag. -/
theorem Sound.wins_eq_one (h : Sound s) (hcame : ∃ i, s.role i ≠ .idle)
    (hended : ∀ i, s.role i = .idle ∨ s.role i = .ended) : s.wins = 1 := by
  obtain ⟨i, hi⟩ := hcame
  have hnone : ∀ j role, role ≠ .idle → role ≠ .ended → s.role j ≠ role := by
    intro j role hidle hend hj
    rcases hended j with hj' | hj'
    · exact hidle (hj.symm.trans hj')
    · exact hend (hj.symm.trans hj')
  cases h.phase with
  | free htaken =>
    rcases h.contended i hi with htaken' | hcontends
    · rw [htaken'] at htaken
      cases htaken
    · obtain ⟨j, hj⟩ := hcontends
      exact absurd hj (hnone j .contends (by decide) (by decide))
  | held j _ _ hone => exact absurd ((hone j).mpr rfl) (hnone j .holds (by decide) (by decide))
  | finished _ hwins => exact hwins

variable [DecidableEq ι]

/-- The thread `i` has made a change. -/
def State.after (s : State ι) (i : ι) (taken : Bool) (role : Role) (n : Nat) : State ι where
  taken := taken
  role := Function.update s.role i role
  wins := s.wins + n

variable {i : ι} {taken : Bool} {role : Role} {n : Nat}

theorem role_after (s : State ι) (i j : ι) (taken : Bool) (role : Role) (n : Nat) :
    (s.after i taken role n).role j = if j = i then role else s.role j :=
  Function.update_apply _ _ _ _

theorem Phase.change (h : Phase s) (hc : Change s.taken (s.role i) taken role n) :
    Phase (s.after i taken role n) := by
  generalize htaken : s.taken = before at hc
  generalize hrole : s.role i = current at hc
  have hother : ∀ j, j ≠ i → (s.after i taken role n).role j = s.role j := by
    intro j hj
    rw [role_after, if_neg hj]
  have hself : (s.after i taken role n).role i = role := by
    rw [role_after, if_pos rfl]
  -- No thread has come to the flag or left it.
  have hsame (htaken' : taken = s.taken) (hn : n = 0) (hholds : role = .holds ↔ s.role i = .holds) :
      Phase (s.after i taken role n) := by
    apply h.congr htaken' (by rw [State.after, hn]; rfl)
    intro j
    by_cases hj : j = i
    · rw [hj, hself]
      exact hholds
    · rw [hother j hj]
  cases hc with
  | keeps => exact hsame htaken.symm rfl (by rw [hrole])
  | enters => exact hsame htaken.symm rfl (by simp [hrole])
  | loses => exact hsame htaken.symm rfl (by simp [hrole])
  | takes =>
    obtain ⟨hwins, hnone⟩ := h.free_of_not_taken htaken
    refine .held i rfl hwins fun j => ?_
    by_cases hj : j = i
    · rw [hj, hself]
      simp
    · rw [hother j hj]
      simp [hj, hnone j]
  | wins =>
    refine .finished (htaken.symm.trans (h.taken_of_holds hrole)) ?_ fun j hj => ?_
    · rw [State.after, h.wins_of_holds hrole]
    · by_cases hji : j = i
      · rw [hji, hself] at hj
        cases hj
      · rw [hother j hji] at hj
        exact hji (h.unique hj hrole)

theorem Sound.change (h : Sound s) (hc : Change s.taken (s.role i) taken role n) :
    Sound (s.after i taken role n) := by
  refine ⟨h.phase.change hc, fun j hj => ?_⟩
  have hself : (s.after i taken role n).role i = role := by
    rw [role_after, if_pos rfl]
  show taken = true ∨ _
  generalize htaken : s.taken = before at hc
  generalize hrole : s.role i = current at hc
  cases hc with
  | keeps =>
    have hsame : (s.after i taken role 0).role = s.role := by
      rw [State.after, ← hrole, Function.update_eq_self]
    rw [hsame] at hj ⊢
    rw [← htaken]
    exact h.contended j hj
  | enters => exact .inr ⟨i, hself⟩
  | loses => exact .inl rfl
  | takes => exact .inl rfl
  | wins => exact .inl (htaken.symm.trans (h.phase.taken_of_holds hrole))

end Exchange
