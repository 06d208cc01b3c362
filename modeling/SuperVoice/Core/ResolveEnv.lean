import SuperVoice.Lib.Placeholder

/-! `resolveEnv`, which rewrites the string that it scans. -/
namespace SuperVoice.Core
open Bytes Environment Search Placeholder

/-- One turn of the loop on `value` and `pos`; `none` where the loop ends. -/
def resolveOne (env : Variables) (value : Bytes) (pos : Nat) : Option (Bytes × Nat) :=
  (find opening value pos).bind fun pos =>
    (find [closing] value (pos + 2)).map fun stop =>
      let expr := (value.drop (pos + 2)).take (stop - pos - 2)
      let (key, fallback) := parse expr
      let replacement := valueOf env key fallback
      (value.take pos ++ replacement ++ value.drop (pos + (stop - pos + 1)), pos + replacement.length)

/-- The loop, for so many turns at most. -/
def resolveLoop (env : Variables) : Nat → Bytes → Nat → Option Bytes
  | 0, _, _ => none
  | turns + 1, value, pos =>
    match resolveOne env value pos with
    | none => some value
    | some (value, pos) => resolveLoop env turns value pos

def resolveEnv (env : Variables) (value : Bytes) : Option Bytes :=
  resolveLoop env (value.length + 1) value 0

variable {env : Variables}

theorem drop_opening (left inside : Bytes) :
    (left ++ (opening ++ inside)).drop (left.length + 2) = inside := by
  have hlength : (left ++ opening).length = left.length + 2 := by
    rw [List.length_append]
    rfl
  rw [← List.append_assoc, List.drop_left' hlength]

/-- What `find` and `substr` take of a string whose first expression stands after `left`. -/
theorem resolveOne_parts (left expr rest : Bytes) {stop : Nat}
    (hstop : stop = left.length + 2 + expr.length) :
    (expr ++ [closing] ++ rest).take (stop - left.length - 2) = expr ∧
      (left ++ (opening ++ (expr ++ [closing] ++ rest))).take left.length = left ∧
      (left ++ (opening ++ (expr ++ [closing] ++ rest))).drop
        (left.length + (stop - left.length + 1)) = rest := by
  subst hstop
  have hexpr : left.length + 2 + expr.length - left.length - 2 = expr.length := by omega
  have hall : (left ++ (opening ++ (expr ++ [closing]))).length =
      left.length + (left.length + 2 + expr.length - left.length + 1) := by
    simp only [List.length_append, List.length_singleton, show opening.length = 2 from rfl]
    omega
  refine ⟨?_, List.take_left, ?_⟩
  · rw [hexpr, List.append_assoc, List.take_left]
  · rw [← List.append_assoc opening, ← List.append_assoc left, List.drop_left' hall]

/-- A turn puts the value in the place of the expression, and the place to go on after the value. -/
theorem resolveOne_append (env : Variables) (done text : Bytes) :
    resolveOne env (done ++ text) done.length =
      (cut opening text).bind fun (before, inside) =>
        (cut [closing] inside).map fun (expr, rest) =>
          let front := done ++ before ++ valueOf env (parse expr).1 (parse expr).2
          (front ++ rest, front.length) := by
  unfold resolveOne
  rw [find_eq_cut (by decide), List.drop_left]
  cases hopening : cut opening text with
  | none => rfl
  | some parts =>
    obtain ⟨before, inside⟩ := parts
    obtain ⟨rfl, -⟩ := cut_opening_iff.mp hopening
    have hfront : done ++ (before ++ opening ++ inside) = done ++ before ++ (opening ++ inside) := by
      simp only [List.append_assoc]
    simp only [Option.map_some, Option.bind_some]
    rw [hfront, find_eq_cut (by decide), ← List.length_append, drop_opening]
    cases hclosing : cut [closing] inside with
    | none => rfl
    | some parts =>
      obtain ⟨expr, rest⟩ := parts
      obtain ⟨rfl, -⟩ := cut_singleton_iff.mp hclosing
      obtain ⟨hexpr, hleft, hrest⟩ := resolveOne_parts (done ++ before) expr rest rfl
      simp only [Option.map_some, hexpr, hleft, hrest]
      simp only [List.length_append]

/-- From behind what is done, the loop substitutes the rest in a single pass. -/
theorem resolveLoop_append {text : Bytes} {pieces : List Piece} (h : Splits text pieces)
    {turns : Nat} (done : Bytes) (hturns : text.length < turns) :
    resolveLoop env turns (done ++ text) done.length = some (done ++ substitute env pieces) := by
  induction h generalizing turns done with
  | literal hopening =>
    obtain ⟨turns, rfl⟩ := Nat.exists_eq_succ_of_ne_zero (Nat.ne_of_gt (Nat.zero_lt_of_lt hturns))
    rw [resolveLoop, resolveOne_append, (cut_eq_none_iff (by decide)).mpr hopening]
    simp [substitute, Piece.value]
  | unterminated hbefore htail =>
    obtain ⟨turns, rfl⟩ := Nat.exists_eq_succ_of_ne_zero (Nat.ne_of_gt (Nat.zero_lt_of_lt hturns))
    rw [resolveLoop, resolveOne_append, cut_opening_iff.mpr ⟨rfl, hbefore⟩]
    simp [cut_singleton_none_iff.mpr htail, substitute, Piece.value]
  | @expression before expr name fallback rest pieces hbefore hexpr hreads hrest ih =>
    obtain ⟨turns, rfl⟩ := Nat.exists_eq_succ_of_ne_zero (Nat.ne_of_gt (Nat.zero_lt_of_lt hturns))
    have hlt : rest.length < turns := by
      simp only [List.length_append, List.length_singleton] at hturns
      omega
    rw [resolveLoop, resolveOne_append, cut_opening_iff.mpr ⟨rfl, hbefore⟩, Option.bind_some]
    dsimp only
    rw [cut_singleton_iff.mpr ⟨rfl, hexpr⟩, Option.map_some]
    dsimp only
    rw [reads_iff.mp hreads, ih _ hlt]
    simp [substitute, Piece.value]

theorem resolveEnv_of_splits {text : Bytes} {pieces : List Piece} (h : Splits text pieces) :
    resolveEnv env text = some (substitute env pieces) :=
  resolveLoop_append h [] (Nat.lt_succ_self _)

/-- The loop ends, and its result is the single-pass substitution. -/
theorem resolveEnv_substitutes (env : Variables) (value : Bytes) :
    ∃ pieces, Splits value pieces ∧ (∀ others, Splits value others → others = pieces) ∧
      resolveEnv env value = some (substitute env pieces) := by
  obtain ⟨pieces, hpieces, hunique⟩ := existsUnique_splits value
  exact ⟨pieces, hpieces, hunique, resolveEnv_of_splits hpieces⟩

/-- A value that is an expression itself, and a tail without a closing brace, are kept. -/
example : resolveEnv (only (ascii "A") (ascii "$\x7bA\x7d")) (ascii "a$\x7bA\x7db$\x7bA") =
    some (ascii "a$\x7bA\x7db$\x7bA") := by
  decide

end SuperVoice.Core
