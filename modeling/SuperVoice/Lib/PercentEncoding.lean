import SuperVoice.Lib.JsonString

/-! Percent-encoded bytes, and the segments of a URL's path. -/
namespace PercentEncoding
open Bytes (ascii)
variable {s rest : Bytes} {a b c d : UInt8}

/-- The byte that three bytes stand for: a percent sign and two hexadecimal digits. -/
def escape (a b c : UInt8) : Option UInt8 :=
  if a = 37 then do
    let high ← JsonString.hexDigit b
    let low ← JsonString.hexDigit c
    return (16 * high + low).toUInt8
  else none

/-- What is no escape stands for itself. -/
def decode : Bytes → Bytes
  | a :: b :: c :: rest =>
    match escape a b c with
    | some d => d :: decode rest
    | none => a :: decode (b :: c :: rest)
  | s => s

def Escapes (s : Bytes) : Prop := ∃ a b c, (escape a b c).isSome = true ∧ [a, b, c] <:+: s

theorem escapes_cons :
    Escapes (a :: b :: c :: rest) ↔ (escape a b c).isSome = true ∨ Escapes (b :: c :: rest) := by
  constructor
  · intro h
    obtain ⟨x, y, z, hescape, hinfix⟩ := h
    rcases List.infix_cons_iff.mp hinfix with hprefix | hrest
    · simp only [List.cons_prefix_cons] at hprefix
      obtain ⟨rfl, rfl, rfl, -⟩ := hprefix
      exact .inl hescape
    · exact .inr ⟨x, y, z, hescape, hrest⟩
  · intro h
    rcases h with hescape | ⟨x, y, z, hescape, hinfix⟩
    · exact ⟨a, b, c, hescape, List.prefix_append [a, b, c] rest |>.isInfix⟩
    · exact ⟨x, y, z, hescape, hinfix.trans (List.suffix_cons a _).isInfix⟩

theorem not_escapes_of_length (h : s.length < 3) : ¬ Escapes s := by
  intro hescapes
  obtain ⟨a, b, c, -, hinfix⟩ := hescapes
  exact absurd hinfix.length_le (Nat.not_le.mpr h)

theorem length_decode_le (s : Bytes) : (decode s).length ≤ s.length := by
  fun_induction decode s with
  | case1 a b c rest d hd ih =>
    simp only [List.length_cons]
    omega
  | case2 a b c rest hnone ih => exact Nat.succ_le_succ ih
  | case3 s hs => exact Nat.le_refl _

/-- Bytes stand for themselves exactly if there is no escape in them. -/
theorem decode_eq_self_iff (s : Bytes) : decode s = s ↔ ¬ Escapes s := by
  fun_induction decode s with
  | case1 a b c rest d hd ih =>
    apply iff_of_false
    · intro heq
      have hlength := congrArg List.length heq
      have hle := length_decode_le rest
      simp only [List.length_cons] at hlength
      omega
    · exact not_not_intro (escapes_cons.mpr (.inl (by rw [hd]; rfl)))
  | case2 a b c rest hnone ih =>
    rw [escapes_cons, hnone, List.cons.injEq, ih]
    simp
  | case3 s hs =>
    apply iff_of_true rfl
    apply not_escapes_of_length
    match s, hs with
    | [], _ | [_], _ | [_, _], _ => simp
    | a :: b :: c :: rest, hs => exact absurd rfl (hs a b c rest)

/-- One segment of a path: nothing in it ends the segment or the path, and it is no dot segment. -/
structure Segment (segment : Bytes) : Prop where
  ends : ∀ b ∈ segment, b ≠ 47 ∧ b ≠ 63 ∧ b ≠ 35
  dots : decode segment ≠ ascii "." ∧ decode segment ≠ ascii ".."

end PercentEncoding
