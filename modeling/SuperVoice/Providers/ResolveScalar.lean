import SuperVoice.Core.ResolveEnv

/-! `resolveScalar` of the provider configuration beside `resolveEnv` of the tracer. -/
namespace SuperVoice.Providers
open Bytes Environment Search Placeholder
open PosixPath (cString)

/-- A node is given by its text if it is a scalar. -/
def resolveScalar (env : Variables) : Option Bytes → Bytes
  | none => []
  | some text =>
    if 3 ≤ text.length ∧ text.head? = some 36 ∧ text[1]? = some 123 ∧
        text.getLast? = some closing then
      let inner := (text.drop 2).take (text.length - 3)
      let (envKey, defaultValue) := parse inner
      valueOf env envKey defaultValue
    else text

section Only
variable {name key value fallback : Bytes}

theorem valueOf_only (hne : value ≠ []) : valueOf (only key value) name fallback =
    if cString name = key then value else fallback := by
  unfold valueOf getenv only
  by_cases hname : cString name = key
  · have hkeep : value.isEmpty = false := by simp [hne]
    simp [hname, Option.filter, hkeep]
  · simp [hname]

/-- A variable that a text names shows in what is substituted. -/
theorem length_le_substitute {pieces : List Piece} (hne : value ≠ [])
    (h : .expression name fallback ∈ pieces) :
    value.length ≤ (substitute (only (cString name) value) pieces).length := by
  obtain ⟨front, back, rfl⟩ := List.append_of_mem h
  simp only [substitute, List.flatMap_append, List.flatMap_cons, Piece.value, valueOf_only hne,
    if_true, List.length_append]
  omega

end Only

/-- A text in which no other variable is named does not vanish when that variable is set. -/
theorem substitute_ne_nil {text key value : Bytes} {pieces : List Piece} (h : Splits text pieces)
    (htext : text ≠ []) (hvalue : value ≠ [])
    (hkeys : ∀ name fallback, .expression name fallback ∈ pieces → cString name = key) :
    substitute (only key value) pieces ≠ [] := by
  cases h with
  | literal h => simpa [substitute, Piece.value] using htext
  | unterminated hbefore htail => simpa [substitute, Piece.value] using htext
  | @expression before expr name fallback rest pieces hbefore hexpr hreads hrest =>
    have hkey := hkeys name fallback (by simp)
    simp [substitute, Piece.value, valueOf_only hvalue, hkey, hvalue]

theorem length_parse_le (expr : Bytes) : (parse expr).2.length ≤ expr.length := by
  unfold parse
  cases hcut : cut marker expr with
  | none => exact Nat.zero_le _
  | some parts =>
    obtain ⟨hexpr, -⟩ := cut_marker_iff.mp hcut
    rw [hexpr, Option.getD_some, List.length_append]
    exact Nat.le_add_left _ _

theorem resolveScalar_braced (env : Variables) (inner : Bytes) :
    resolveScalar env (some (opening ++ inner ++ [closing])) =
      valueOf env (parse inner).1 (parse inner).2 := by
  have hopening : opening = [36, 123] := by decide
  have hinner : ((opening ++ inner ++ [closing]).drop 2).take
      ((opening ++ inner ++ [closing]).length - 3) = inner := by
    simp [hopening]
  have hlast : (opening ++ inner ++ [closing]).getLast? = some closing := List.getLast?_concat
  unfold resolveScalar
  dsimp only
  rw [if_pos ⟨by simp [hopening], by simp [hopening], by simp [hopening], hlast⟩, hinner]

/-- The first expression of a braced text ends at its first closing brace. -/
theorem splits_braced {expr rest : Bytes} {pieces : List Piece} (hexpr : closing ∉ expr)
    (hrest : Splits rest pieces) : Splits (opening ++ (expr ++ [closing] ++ rest))
      (.literal [] :: .expression (parse expr).1 (parse expr).2 :: pieces) := by
  have hreads : Reads expr (parse expr).1 (parse expr).2 := reads_iff.mpr rfl
  have hbefore : ¬ opening <:+: ([] : Bytes) := by decide
  exact .expression hbefore hexpr hreads hrest

/-- When a brace closes early, the environments that set one variable tell the two apart: a variable
that only `resolveEnv` looks up, or the one that both look up. -/
theorem exists_disagreement {expr : Bytes} (hexpr : closing ∉ expr) (rest : Bytes) :
    ∃ env, Core.resolveEnv env (opening ++ (expr ++ closing :: rest) ++ [closing]) ≠
      some (resolveScalar env (some (opening ++ (expr ++ closing :: rest) ++ [closing]))) := by
  obtain ⟨inner, hinner⟩ : ∃ inner, inner = expr ++ closing :: rest := ⟨_, rfl⟩
  obtain ⟨pieces, hpieces, -⟩ := existsUnique_splits (rest ++ [closing])
  have hsplits := splits_braced hexpr hpieces
  have htext : opening ++ (expr ++ [closing] ++ (rest ++ [closing])) =
      opening ++ inner ++ [closing] := by
    simp [hinner]
  rw [htext] at hsplits
  rw [← hinner]
  have hlong : List.replicate (inner.length + 1) (65 : UInt8) ≠ [] := by simp
  by_cases hother : ∃ name fallback, Piece.expression name fallback ∈
      Piece.literal [] :: .expression (parse expr).1 (parse expr).2 :: pieces ∧
        cString name ≠ cString (parse inner).1
  · obtain ⟨name, fallback, hmem, hne⟩ := hother
    refine ⟨only (cString name) (List.replicate (inner.length + 1) 65), fun heq => ?_⟩
    rw [Core.resolveEnv_of_splits hsplits, resolveScalar_braced, valueOf_only hlong,
      if_neg (Ne.symm hne), Option.some.injEq] at heq
    have hlength := length_le_substitute hlong hmem
    rw [heq, List.length_replicate] at hlength
    exact absurd (hlength.trans (length_parse_le inner)) (Nat.not_succ_le_self _)
  · push Not at hother
    refine ⟨only (cString (parse inner).1) (List.replicate (inner.length + 1) 65), fun heq => ?_⟩
    rw [Core.resolveEnv_of_splits hsplits, resolveScalar_braced, valueOf_only hlong, if_pos rfl,
      Option.some.injEq] at heq
    have hfirst : cString (parse expr).1 = cString (parse inner).1 :=
      hother (parse expr).1 (parse expr).2 (by simp)
    have hrest := substitute_ne_nil hpieces (by simp) hlong fun name fallback hmem =>
      hother name fallback (by simp [hmem])
    apply hrest
    simpa [substitute, Piece.value, valueOf_only hlong, hfirst] using heq

end SuperVoice.Providers
