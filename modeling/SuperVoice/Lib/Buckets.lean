import Mathlib.Algebra.BigOperators.Group.List.Basic
import Mathlib.Data.Nat.Cast.Defs
import Mathlib.Order.Lattice

/-! Counting values in disjoint buckets. A value goes to the first bound that it does not exceed,
or to a last cell; the sum of the counts up to a bound counts the values up to the bound. -/
namespace Buckets
variable {α M : Type*}

/-- Among the first `k` cells, an increment shows if its cell is one of them. -/
theorem sum_take_modify [AddCommMonoid M] (counts : List M) {i : Nat} (k : Nat) (c : M)
    (h : i < counts.length) : ((counts.modify i (· + c)).take k).sum =
      (counts.take k).sum + if i < k then c else 0 := by
  induction counts generalizing i k with
  | nil => cases h
  | cons count counts ih =>
    cases k with
    | zero => simp
    | succ k =>
      cases i with
      | zero =>
        rw [List.modify_zero_cons, List.take_succ_cons, List.take_succ_cons, List.sum_cons,
          List.sum_cons, if_pos k.succ_pos, add_right_comm]
      | succ i =>
        have hk : i + 1 < k + 1 ↔ i < k := Nat.succ_lt_succ_iff
        rw [List.modify_succ_cons, List.take_succ_cons, List.take_succ_cons, List.sum_cons,
          List.sum_cons, ih k (Nat.lt_of_succ_lt_succ h), add_assoc]
        simp only [hk]

section
variable [LE α] [DecidableLE α]

/-- The number of the first bound that the value does not exceed. -/
def cell (bounds : List α) (x : α) : Nat := bounds.findIdx fun bound => decide (x ≤ bound)

theorem cell_le_length (bounds : List α) (x : α) : cell bounds x ≤ bounds.length :=
  List.findIdx_le_length

/-- One more value in its cell. -/
def tally [AddMonoidWithOne M] (bounds : List α) (counts : List M) (x : α) : List M :=
  counts.modify (cell bounds x) (· + 1)

variable [AddCommMonoidWithOne M] {bounds : List α}

@[simp] theorem length_tally (bounds : List α) (counts : List M) (x : α) :
    (tally bounds counts x).length = counts.length :=
  List.length_modify _ _ _

theorem length_foldl_tally (bounds : List α) (xs : List α) (counts : List M) :
    (xs.foldl (tally bounds) counts).length = counts.length := by
  induction xs generalizing counts with
  | nil => rfl
  | cons x xs ih => rw [List.foldl_cons, ih, length_tally]

/-- The sum of the first counts counts the values in the first cells. -/
theorem sum_take_foldl_tally (xs : List α) (k : Nat) (counts : List M)
    (h : bounds.length < counts.length) :
    ((xs.foldl (tally bounds) counts).take k).sum =
      (counts.take k).sum + (xs.countP fun x => decide (cell bounds x < k) : Nat) := by
  induction xs generalizing counts with
  | nil => simp
  | cons x xs ih =>
    have hcell : cell bounds x < counts.length := Nat.lt_of_le_of_lt (cell_le_length bounds x) h
    rw [List.foldl_cons, ih _ (by rwa [length_tally]), tally, sum_take_modify counts k 1 hcell,
      List.countP_cons, add_assoc]
    by_cases hk : cell bounds x < k
    · simp [hk, add_comm]
    · simp [hk]

end

/-- In rising bounds, the cells up to a bound hold the values up to it. -/
theorem cell_le_iff [LinearOrder α] {bounds : List α} (hrising : bounds.Pairwise (· ≤ ·))
    {i : Nat} {bound : α} (hbound : bounds[i]? = some bound) (x : α) :
    cell bounds x ≤ i ↔ x ≤ bound := by
  obtain ⟨hi, rfl⟩ := List.getElem?_eq_some_iff.mp hbound
  have hlater : ∀ j, (hj : j ≤ i) → bounds[j] ≤ bounds[i] := by
    intro j hj
    rcases Nat.eq_or_lt_of_le hj with rfl | hlt
    · exact le_refl _
    · exact List.pairwise_iff_getElem.mp hrising j i _ hi hlt
  apply not_iff_not.mp
  rw [Nat.not_le, not_le, cell, List.lt_findIdx_iff]
  constructor
  · intro h
    obtain ⟨_, hnone⟩ := h
    have hx := hnone i (Nat.le_refl i)
    rw [decide_eq_false_iff_not, not_le] at hx
    exact hx
  · intro hx
    refine ⟨hi, fun j hj => ?_⟩
    rw [decide_eq_false_iff_not, not_le]
    exact (hlater j hj).trans_lt hx

end Buckets
