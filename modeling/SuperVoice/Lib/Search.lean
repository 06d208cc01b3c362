import Mathlib.Data.List.Infix
import Mathlib.Tactic.Common

/-! Where a pattern first occurs in a list, and the list cut there. -/
namespace Search
variable {α : Type*} {pattern text before after : List α} {a b : α} {i : Nat}

/-- No occurrence of the pattern begins in `before` when `before` is followed by the pattern. -/
def Clear (pattern before : List α) : Prop := ¬ pattern <:+: before ++ pattern.dropLast

theorem clear_singleton : Clear [a] before ↔ a ∉ before := by
  simp [Clear, List.singleton_infix_iff]

theorem clear_pair (hne : a ≠ b) : Clear [a, b] before ↔ ¬ [a, b] <:+: before := by
  rw [Clear, not_iff_not]
  constructor
  · rintro ⟨s, t, h⟩
    have hlast : s ++ a :: b :: t = before ++ [a] := by simpa using h
    obtain rfl | ⟨t, c, rfl⟩ := t.eq_nil_or_concat
    · have hb := congrArg List.getLast? hlast
      simp [Ne.symm hne] at hb
    · have hsplit : (s ++ [a, b] ++ t) ++ [c] = before ++ [a] := by simpa using hlast
      exact ⟨s, t, (List.append_inj' hsplit rfl).1⟩
  · intro h
    exact List.infix_append_of_infix_left h

theorem clear_nil (hne : pattern ≠ []) : Clear pattern [] := by
  intro h
  have hlength := h.length_le
  have hpos := List.length_pos_of_ne_nil hne
  simp only [List.nil_append, List.length_dropLast] at hlength
  omega

theorem clear_cons_iff : Clear pattern (a :: before) ↔
    ¬ pattern <+: a :: (before ++ pattern.dropLast) ∧ Clear pattern before := by
  rw [Clear, List.cons_append, List.infix_cons_iff, not_or, Clear]

/-- A pattern that follows does not begin earlier. -/
theorem not_prefix_of_clear (hne : pattern ≠ []) (h : Clear pattern (a :: before)) :
    ¬ pattern <+: a :: (before ++ pattern ++ after) := by
  intro hstarts
  apply (clear_cons_iff.mp h).1
  have hpattern : pattern = pattern.dropLast ++ [pattern.getLast hne] :=
    (List.dropLast_append_getLast hne).symm
  have hwhole : a :: (before ++ pattern ++ after) =
      a :: (before ++ pattern.dropLast) ++ (pattern.getLast hne :: after) := by
    conv_lhs => rw [hpattern]
    simp
  rw [hwhole] at hstarts
  apply List.prefix_of_prefix_length_le hstarts (List.prefix_append _ _)
  simp only [List.length_cons, List.length_append, List.length_dropLast]
  omega

variable [DecidableEq α]

/-- Where the pattern first occurs. -/
def index (pattern : List α) : List α → Option Nat
  | [] => if pattern = [] then some 0 else none
  | a :: text => if pattern <+: a :: text then some 0 else (index pattern text).map (· + 1)

/-- Where the pattern first occurs from the place `start` on: `std::string::find`. -/
def find (pattern text : List α) (start : Nat) : Option Nat :=
  (index pattern (text.drop start)).map (start + ·)

/-- What stands before the first occurrence, and what after it. -/
def cut (pattern text : List α) : Option (List α × List α) :=
  (index pattern text).map fun i => (text.take i, text.drop (i + pattern.length))

theorem index_append (hne : pattern ≠ []) (h : Clear pattern before) :
    index pattern (before ++ pattern ++ after) = some before.length := by
  induction before with
  | nil =>
    cases pattern with
    | nil => exact absurd rfl hne
    | cons a pattern => exact if_pos (List.prefix_append _ _)
  | cons a before ih =>
    have hnot : ¬ pattern <+: a :: (before ++ pattern ++ after) := not_prefix_of_clear hne h
    show (if pattern <+: a :: (before ++ pattern ++ after) then some 0
      else (index pattern (before ++ pattern ++ after)).map (· + 1)) = some (before.length + 1)
    rw [if_neg hnot, ih (clear_cons_iff.mp h).2]
    rfl

theorem exists_of_index (hne : pattern ≠ []) (h : index pattern text = some i) :
    ∃ before after, text = before ++ pattern ++ after ∧ before.length = i ∧
      Clear pattern before := by
  induction text generalizing i with
  | nil =>
    rw [index, if_neg hne] at h
    cases h
  | cons a text ih =>
    rw [index] at h
    split at h
    case isTrue hstarts =>
      cases h
      obtain ⟨after, hafter⟩ := hstarts
      exact ⟨[], after, hafter.symm, rfl, clear_nil hne⟩
    case isFalse hstarts =>
      obtain ⟨j, hj, rfl⟩ := Option.map_eq_some_iff.mp h
      obtain ⟨before, after, rfl, rfl, hclear⟩ := ih hj
      refine ⟨a :: before, after, rfl, rfl, clear_cons_iff.mpr ⟨fun hp => hstarts ?_, hclear⟩⟩
      have hext : before ++ pattern.dropLast <+: before ++ pattern ++ after := by
        rw [List.append_assoc, List.prefix_append_right_inj]
        exact (List.dropLast_prefix pattern).trans (List.prefix_append _ _)
      exact hp.trans (List.cons_prefix_cons.mpr ⟨rfl, hext⟩)

theorem index_eq_none_iff (hne : pattern ≠ []) : index pattern text = none ↔ ¬ pattern <:+: text := by
  induction text with
  | nil => simp [index, hne]
  | cons a text ih =>
    rw [index, List.infix_cons_iff, not_or, ← ih]
    split
    case isTrue hstarts => simp [hstarts]
    case isFalse hstarts => simp [hstarts]

theorem cut_eq_some_iff (hne : pattern ≠ []) : cut pattern text = some (before, after) ↔
    text = before ++ pattern ++ after ∧ Clear pattern before := by
  constructor
  · intro h
    obtain ⟨i, hi, hpair⟩ := Option.map_eq_some_iff.mp h
    obtain ⟨front, back, rfl, rfl, hclear⟩ := exists_of_index hne hi
    cases hpair
    simp [hclear]
  · rintro ⟨rfl, hclear⟩
    rw [cut, index_append hne hclear]
    simp

theorem cut_eq_none_iff (hne : pattern ≠ []) : cut pattern text = none ↔ ¬ pattern <:+: text := by
  rw [cut, Option.map_eq_none_iff, index_eq_none_iff hne]

theorem cut_singleton_iff : cut [a] text = some (before, after) ↔
    text = before ++ [a] ++ after ∧ a ∉ before := by
  rw [cut_eq_some_iff (List.cons_ne_nil a []), clear_singleton]

theorem cut_singleton_none_iff : cut [a] text = none ↔ a ∉ text := by
  rw [cut_eq_none_iff (List.cons_ne_nil a []), List.singleton_infix_iff]

/-- Searching from a place on is cutting what is left from there. -/
theorem find_eq_cut (hne : pattern ≠ []) (text : List α) (start : Nat) :
    find pattern text start = (cut pattern (text.drop start)).map fun p => start + p.1.length := by
  cases hi : index pattern (text.drop start) with
  | none => simp [find, cut, hi]
  | some i =>
    obtain ⟨before, after, htext, rfl, -⟩ := exists_of_index hne hi
    rw [find, cut, hi, htext]
    simp

end Search
