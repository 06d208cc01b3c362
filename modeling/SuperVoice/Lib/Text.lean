import SuperVoice.Lib.Numeral
import Mathlib.Data.List.DropRight

/-! The lines of a text, and white space around a word. -/
namespace Text
open Bytes Numeral

/-- What a loop of `std::getline` reads: behind the last newline there is a line only if it is not
empty. -/
def lines (text : Bytes) : List Bytes :=
  let parts := text.splitOn newline
  if parts.getLast? = some [] then parts.dropLast else parts

/-- The lines that a newline ends. -/
def terminated (text : Bytes) : List Bytes := (text.splitOn newline).dropLast

/-- The elements up to the first one that satisfies `p`, which is the last. -/
def through {α : Type*} (p : α → Bool) : List α → List α
  | [] => []
  | a :: l => if p a then [a] else a :: through p l

def trim (s : Bytes) : Bytes := (s.dropWhile isSpace).rdropWhile isSpace

/-- No white space stands at either end. -/
def Trimmed (s : Bytes) : Prop :=
  (∀ b, s.head? = some b → isSpace b = false) ∧ ∀ b, s.getLast? = some b → isSpace b = false

theorem rdropWhile_append {core after : Bytes}
    (hcore : ∀ b, core.getLast? = some b → isSpace b = false)
    (hafter : ∀ b ∈ after, isSpace b = true) : (core ++ after).rdropWhile isSpace = core := by
  induction after using List.reverseRecOn with
  | nil =>
    rw [List.append_nil, List.rdropWhile_eq_self_iff]
    intro hl
    rw [hcore _ (List.getLast?_eq_some_getLast hl)]
    decide
  | append_singleton after b ih =>
    rw [← List.append_assoc, List.rdropWhile_concat_pos isSpace _ _ (hafter b (by simp))]
    exact ih fun c hc => hafter c (List.mem_append_left _ hc)

theorem trim_append {before core after : Bytes} (hne : core ≠ []) (hcore : Trimmed core)
    (hbefore : ∀ b ∈ before, isSpace b = true) (hafter : ∀ b ∈ after, isSpace b = true) :
    trim (before ++ (core ++ after)) = core := by
  have hdrop : (core ++ after).dropWhile isSpace = core ++ after := by
    cases core with
    | nil => exact absurd rfl hne
    | cons b core =>
      have hb : ¬ isSpace b = true := Bool.eq_false_iff.mp (hcore.1 b rfl)
      rw [List.cons_append, List.dropWhile_cons_of_neg hb]
  rw [trim, List.dropWhile_append_of_pos hbefore, hdrop, rdropWhile_append hcore.2 hafter]

/-- White space is all that trimming takes away. -/
theorem exists_trim (s : Bytes) : ∃ before after, s = before ++ (trim s ++ after) ∧
    (∀ b ∈ before, isSpace b = true) ∧ ∀ b ∈ after, isSpace b = true := by
  refine ⟨s.takeWhile isSpace, (s.dropWhile isSpace).rtakeWhile isSpace, ?_, fun b hb => ?_,
    fun b hb => ?_⟩
  · have hrest : trim s ++ (s.dropWhile isSpace).rtakeWhile isSpace = s.dropWhile isSpace := by
      rw [trim, List.rdropWhile, List.rtakeWhile, ← List.reverse_append,
        List.takeWhile_append_dropWhile, List.reverse_reverse]
    rw [hrest, List.takeWhile_append_dropWhile]
  · exact List.mem_takeWhile_imp hb
  · exact List.mem_rtakeWhile_imp hb

theorem trimmed_trim (s : Bytes) : Trimmed (trim s) := by
  constructor
  · intro b hb
    have hmem : (s.dropWhile isSpace).head? = some b := by
      obtain ⟨rest, hrest⟩ := List.rdropWhile_prefix isSpace (s.dropWhile isSpace)
      rw [← hrest, List.head?_append, ← trim, hb, Option.some_or]
    have hnot := List.head?_dropWhile_not isSpace s
    rw [hmem] at hnot
    simpa using hnot
  · intro b hb
    have hne : trim s ≠ [] := by
      intro hnil
      rw [hnil] at hb
      cases hb
    have hnot := List.rdropWhile_last_not isSpace (s.dropWhile isSpace) hne
    have hlast : (trim s).getLast hne = b := by
      rw [List.getLast?_eq_some_getLast hne] at hb
      exact Option.some.inj hb
    rw [← hlast]
    exact Bool.eq_false_iff.mpr hnot

theorem trim_eq_self {s : Bytes} (h : Trimmed s) : trim s = s := by
  cases s with
  | nil => rfl
  | cons b s =>
    have hself : trim ([] ++ (b :: s ++ [])) = b :: s :=
      trim_append (List.cons_ne_nil b s) h nofun nofun
    simpa using hself

/-- No part of a split text holds the separator. -/
theorem not_mem_of_mem_splitOn {separator : UInt8} {part text : Bytes}
    (h : part ∈ text.splitOn separator) : separator ∉ part := by
  induction hlength : text.length using Nat.strong_induction_on generalizing text with
  | _ n ih =>
    by_cases hmem : separator ∈ text
    · obtain ⟨before, after, rfl, hbefore⟩ := List.eq_append_cons_of_mem hmem
      rw [List.splitOn_append_cons_self_of_not_mem hbefore] at h
      obtain rfl | h := List.mem_cons.mp h
      · exact hbefore
      · have hshort : after.length < n := by
          rw [← hlength, List.length_append, List.length_cons]
          omega
        exact ih _ hshort h rfl
    · rw [List.splitOn_eq_singleton hmem, List.mem_singleton] at h
      exact h ▸ hmem

theorem terminated_cons {line rest : Bytes} (h : newline ∉ line) :
    terminated (line ++ newline :: rest) = line :: terminated rest := by
  rw [terminated, List.splitOn_append_cons_self_of_not_mem h, List.dropLast_cons_of_ne_nil]
  · rfl
  · exact List.splitOn_ne_nil newline rest

section Lines
variable {texts : List Bytes}

/-- Lines that all end with a newline. -/
theorem lines_unlines (h : ∀ text ∈ texts, newline ∉ text) :
    lines (texts.flatMap (· ++ [newline])) = texts := by
  have hparts := splitOn_lines_append h []
  rw [List.append_nil] at hparts
  have hempty : ([] : Bytes).splitOn newline = [[]] := rfl
  rw [hempty] at hparts
  simp [lines, hparts]

/-- The last line has no newline. -/
theorem lines_unterminated {last : Bytes} (h : ∀ text ∈ texts, newline ∉ text)
    (hlast : newline ∉ last) : lines (texts.flatMap (· ++ [newline]) ++ last) =
      if last = [] then texts else texts ++ [last] := by
  have hparts := splitOn_lines_append h last
  rw [List.splitOn_eq_singleton hlast] at hparts
  rw [lines, hparts, List.getLast?_concat]
  simp

end Lines

end Text
