import Mathlib.Algebra.BigOperators.Group.List.Basic
import Mathlib.Algebra.GroupWithZero.Nat
import Mathlib.Data.List.Perm.Basic

/-! A collection without order, kept as a list: a member is taken out by its position, and what
it becomes is put back in front. -/
namespace Pool
variable {α : Type*} {l rest : List α} {a : α} {i : Nat}

/-- The member at position `i` and the others. -/
def take (l : List α) (i : Nat) : Option (α × List α) := l[i]?.map fun a => (a, l.eraseIdx i)

theorem perm_of_take (h : take l i = some (a, rest)) : l.Perm (a :: rest) := by
  obtain ⟨b, hb, he⟩ := Option.map_eq_some_iff.mp h
  obtain ⟨hi, rfl⟩ := List.getElem?_eq_some_iff.mp hb
  obtain ⟨rfl, rfl⟩ := Prod.mk.inj he
  exact (List.getElem_cons_eraseIdx_perm hi).symm

theorem exists_take (h : a ∈ l) : ∃ i rest, take l i = some (a, rest) := by
  obtain ⟨i, hi, rfl⟩ := List.mem_iff_getElem.mp h
  exact ⟨i, l.eraseIdx i, by rw [take, List.getElem?_eq_getElem hi, Option.map_some]⟩

theorem mem_of_take (h : take l i = some (a, rest)) : a ∈ l :=
  (perm_of_take h).mem_iff.mpr List.mem_cons_self

theorem mem_of_mem_rest (h : take l i = some (a, rest)) {b : α} (hb : b ∈ rest) : b ∈ l :=
  (perm_of_take h).mem_iff.mpr (List.mem_cons_of_mem a hb)

/-- Where at most one member has a property, it fails for the members beside one that has it. -/
theorem eq_false_of_countP_le_one {p : α → Bool} (h : l.countP p ≤ 1) (hperm : l.Perm (a :: rest))
    (ha : p a = true) : ∀ b ∈ rest, p b = false := by
  rw [hperm.countP_eq, List.countP_cons_of_pos ha] at h
  have hzero : rest.countP p = 0 := by omega
  intro b hb
  exact Bool.eq_false_iff.mpr (List.countP_eq_zero.mp hzero b hb)

theorem countP_cons_le_one {p : α → Bool} (h : ∀ b ∈ rest, p b = false) :
    (a :: rest).countP p ≤ 1 := by
  have hzero : rest.countP p = 0 := by
    refine List.countP_eq_zero.mpr fun b hb => ?_
    rw [h b hb]
    decide
  rw [List.countP_cons, hzero]
  split <;> decide

theorem sum_of_take (h : take l i = some (a, rest)) (f : α → Nat) :
    (l.map f).sum = f a + (rest.map f).sum := by
  rw [((perm_of_take h).map f).sum_eq, List.map_cons, List.sum_cons]

theorem le_sum_of_mem (h : a ∈ l) (f : α → Nat) : f a ≤ (l.map f).sum := by
  obtain ⟨i, rest, ht⟩ := exists_take h
  rw [sum_of_take ht]
  exact Nat.le_add_right _ _

/-- Two collections of one size have the same positions. -/
theorem exists_take_of_length {β : Type*} {m : List β} (h : take l i = some (a, rest))
    (hlength : m.length = l.length) :
    ∃ b rest', take m i = some (b, rest') ∧ rest'.length = rest.length := by
  obtain ⟨b, hb, he⟩ := Option.map_eq_some_iff.mp h
  obtain ⟨hi, rfl⟩ := List.getElem?_eq_some_iff.mp hb
  obtain ⟨rfl, rfl⟩ := Prod.mk.inj he
  have hi' : i < m.length := hlength ▸ hi
  refine ⟨m[i], m.eraseIdx i, ?_, ?_⟩
  · rw [take, List.getElem?_eq_getElem hi', Option.map_some]
  · rw [List.length_eraseIdx_of_lt hi', List.length_eraseIdx_of_lt hi, hlength]

/-- Taking the members at one position out of two collections side by side. -/
theorem zipWith_of_take {β γ : Type*} {m rest' : List β} {b : β} {f : α → β → γ}
    (ha : take l i = some (a, rest)) (hb : take m i = some (b, rest')) :
    (List.zipWith f l m).Perm (f a b :: List.zipWith f rest rest') := by
  obtain ⟨a', ha', he⟩ := Option.map_eq_some_iff.mp ha
  obtain ⟨b', hb', he'⟩ := Option.map_eq_some_iff.mp hb
  obtain ⟨rfl, rfl⟩ := Prod.mk.inj he
  obtain ⟨rfl, rfl⟩ := Prod.mk.inj he'
  clear ha hb he he'
  induction i generalizing l m with
  | zero =>
    cases l with
    | nil => cases ha'
    | cons x l =>
      cases m with
      | nil => cases hb'
      | cons y m =>
        cases ha'
        cases hb'
        exact .refl _
  | succ i ih =>
    cases l with
    | nil => cases ha'
    | cons x l =>
      cases m with
      | nil => cases hb'
      | cons y m => exact ((ih ha' hb').cons _).trans (.swap _ _ _)

end Pool
