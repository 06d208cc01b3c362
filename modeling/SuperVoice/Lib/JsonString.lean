import SuperVoice.Lib.Bytes

/-! The bodies of JSON strings: what may stand between two quotation marks, and the bytes that it
denotes. -/
namespace JsonString

def quote : UInt8 := 34

def backslash : UInt8 := 92

/-- What a backslash and one more character denote; a `u` starts a longer escape. -/
def escaped : UInt8 → Option UInt8
  | 34 => some 34
  | 92 => some 92
  | 47 => some 47
  | 98 => some 8
  | 102 => some 12
  | 110 => some 10
  | 114 => some 13
  | 116 => some 9
  | _ => none

def hexDigit (b : UInt8) : Option Nat :=
  if 48 ≤ b ∧ b ≤ 57 then some (b.toNat - 48)
  else if 65 ≤ b ∧ b ≤ 70 then some (b.toNat - 55)
  else if 97 ≤ b ∧ b ≤ 102 then some (b.toNat - 87)
  else none

/-- The value of four hexadecimal digits. -/
def hex4 : Bytes → Option Nat
  | [a, b, c, d] => do
    let a ← hexDigit a
    let b ← hexDigit b
    let c ← hexDigit c
    let d ← hexDigit d
    pure (((a * 16 + b) * 16 + c) * 16 + d)
  | _ => none

/-- The UTF-8 encoding of a code point. -/
def utf8 (n : Nat) : Bytes :=
  if n < 0x80 then [n.toUInt8]
  else if n < 0x800 then [(0xC0 + n / 64).toUInt8, (0x80 + n % 64).toUInt8]
  else if n < 0x10000 then
    [(0xE0 + n / 4096).toUInt8, (0x80 + n / 64 % 64).toUInt8, (0x80 + n % 64).toUInt8]
  else
    [(0xF0 + n / 262144).toUInt8, (0x80 + n / 4096 % 64).toUInt8, (0x80 + n / 64 % 64).toUInt8,
      (0x80 + n % 64).toUInt8]

def IsHigh (n : Nat) : Prop := 0xD800 ≤ n ∧ n < 0xDC00

def IsLow (n : Nat) : Prop := 0xDC00 ≤ n ∧ n < 0xE000

/-- One character of a body, escaped or not, and the bytes that it denotes. -/
inductive Piece : Bytes → Bytes → Prop where
  | plain {b : UInt8} (hb : 32 ≤ b) (hq : b ≠ quote) (hs : b ≠ backslash) : Piece [b] [b]
  | escape {c b : UInt8} (hc : escaped c = some b) : Piece [backslash, c] [b]
  | unit {a b c d : UInt8} {n : Nat} (hx : hex4 [a, b, c, d] = some n)
      (hn : ¬IsHigh n ∧ ¬IsLow n) : Piece [backslash, 117, a, b, c, d] (utf8 n)
  | pair {a b c d a' b' c' d' : UInt8} {n m : Nat} (hx : hex4 [a, b, c, d] = some n)
      (hx' : hex4 [a', b', c', d'] = some m) (hn : IsHigh n) (hm : IsLow m) :
      Piece [backslash, 117, a, b, c, d, backslash, 117, a', b', c', d']
        (utf8 (0x10000 + (n - 0xD800) * 1024 + (m - 0xDC00)))

/-- A body and the bytes that it denotes. -/
inductive Body : Bytes → Bytes → Prop where
  | nil : Body [] []
  | cons {p v t w : Bytes} (hp : Piece p v) (h : Body t w) : Body (p ++ t) (v ++ w)

variable {p p' t t' v v' w w' r r' : Bytes} {b c : UInt8}

theorem le_of_hexDigit {n : Nat} (h : hexDigit b = some n) : 32 ≤ b := by
  unfold hexDigit at h
  split at h
  · next hb => exact UInt8.le_trans (by decide) hb.1
  · split at h
    · next hb => exact UInt8.le_trans (by decide) hb.1
    · split at h
      · next hb => exact UInt8.le_trans (by decide) hb.1
      · cases h

theorem le_of_hex4 {a b c d : UInt8} {n : Nat} (h : hex4 [a, b, c, d] = some n) :
    32 ≤ a ∧ 32 ≤ b ∧ 32 ≤ c ∧ 32 ≤ d := by
  simp only [hex4, Option.bind_eq_bind, Option.bind_eq_some_iff] at h
  obtain ⟨_, ha, _, hb, _, hc, _, hd, -⟩ := h
  exact ⟨le_of_hexDigit ha, le_of_hexDigit hb, le_of_hexDigit hc, le_of_hexDigit hd⟩

theorem le_of_escaped (h : escaped c = some b) : 34 ≤ c := by
  unfold escaped at h
  split at h <;> cases h <;> decide

theorem escaped_u (h : escaped 117 = some b) : False := by cases h

/-- No control character stands in a piece. -/
theorem Piece.le (h : Piece p v) : ∀ b ∈ p, 32 ≤ b := by
  cases h with
  | plain hb => simpa using hb
  | escape hc =>
    have hle := le_of_escaped hc
    simp only [List.mem_cons, List.not_mem_nil, or_false, forall_eq_or_imp, forall_eq]
    exact ⟨by decide, UInt8.le_trans (by decide) hle⟩
  | unit hx =>
    simp only [List.mem_cons, List.not_mem_nil, or_false, forall_eq_or_imp, forall_eq]
    exact ⟨by decide, by decide, le_of_hex4 hx⟩
  | pair hx hx' =>
    obtain ⟨ha, hb, hc, hd⟩ := le_of_hex4 hx
    simp only [List.mem_cons, List.not_mem_nil, or_false, forall_eq_or_imp, forall_eq]
    exact ⟨by decide, by decide, ha, hb, hc, hd, by decide, by decide, le_of_hex4 hx'⟩

/-- No control character stands in a body. -/
theorem Body.le (h : Body t v) : ∀ b ∈ t, 32 ≤ b := by
  induction h with
  | nil => nofun
  | cons hp _ ih =>
    intro b hb
    cases List.mem_append.mp hb with
    | inl hb => exact hp.le b hb
    | inr hb => exact ih b hb

/-- A piece does not start with a quotation mark. -/
theorem Piece.ne_quote (h : Piece p v) (heq : p ++ r = quote :: r') : False := by
  cases h with
  | plain _ hq => exact hq (List.cons.inj heq).1
  | escape | unit | pair => exact absurd (List.cons.inj heq).1 (by decide)

/-- No piece is a part of another one. -/
theorem Piece.unique (h : Piece p v) (h' : Piece p' v') (heq : p ++ r = p' ++ r') :
    p = p' ∧ v = v' ∧ r = r' := by
  cases h with
  | plain _ _ hs =>
    cases h' with
    | plain =>
      obtain ⟨rfl, rfl⟩ := List.cons.inj heq
      exact ⟨rfl, rfl, rfl⟩
    | escape | unit | pair => exact absurd (List.cons.inj heq).1 hs
  | escape hc =>
    cases h' with
    | plain _ _ hs => exact absurd (List.cons.inj heq).1.symm hs
    | escape hc' =>
      simp only [List.cons_append, List.nil_append, List.cons.injEq, true_and] at heq
      obtain ⟨rfl, rfl⟩ := heq
      rw [hc] at hc'
      cases hc'
      exact ⟨rfl, rfl, rfl⟩
    | unit | pair =>
      simp only [List.cons_append, List.nil_append, List.cons.injEq, true_and] at heq
      exact (escaped_u (heq.1 ▸ hc)).elim
  | unit hx hn =>
    cases h' with
    | plain _ _ hs => exact absurd (List.cons.inj heq).1.symm hs
    | escape hc' =>
      simp only [List.cons_append, List.nil_append, List.cons.injEq, true_and] at heq
      exact (escaped_u (heq.1 ▸ hc')).elim
    | unit hx' hn' =>
      simp only [List.cons_append, List.nil_append, List.cons.injEq, true_and] at heq
      obtain ⟨rfl, rfl, rfl, rfl, rfl⟩ := heq
      rw [hx] at hx'
      cases hx'
      exact ⟨rfl, rfl, rfl⟩
    | pair hx' _ hn' =>
      simp only [List.cons_append, List.nil_append, List.cons.injEq, true_and] at heq
      obtain ⟨rfl, rfl, rfl, rfl, rfl⟩ := heq
      rw [hx] at hx'
      cases hx'
      exact absurd hn' hn.1
  | pair hx hx₂ hn =>
    cases h' with
    | plain _ _ hs => exact absurd (List.cons.inj heq).1.symm hs
    | escape hc' =>
      simp only [List.cons_append, List.nil_append, List.cons.injEq, true_and] at heq
      exact (escaped_u (heq.1 ▸ hc')).elim
    | unit hx' hn' =>
      simp only [List.cons_append, List.nil_append, List.cons.injEq, true_and] at heq
      obtain ⟨rfl, rfl, rfl, rfl, -⟩ := heq
      rw [hx] at hx'
      cases hx'
      exact absurd hn hn'.1
    | pair hx' hx₂' =>
      simp only [List.cons_append, List.nil_append, List.cons.injEq, true_and] at heq
      obtain ⟨rfl, rfl, rfl, rfl, rfl, rfl, rfl, rfl, rfl⟩ := heq
      rw [hx] at hx'
      rw [hx₂] at hx₂'
      cases hx'
      cases hx₂'
      exact ⟨rfl, rfl, rfl⟩

/-- The first quotation mark that is not escaped ends a body: a text starts with one body only. -/
theorem Body.unique (h : Body t v) (h' : Body t' v')
    (heq : t ++ quote :: r = t' ++ quote :: r') : t = t' ∧ v = v' ∧ r = r' := by
  induction h generalizing t' v' with
  | nil =>
    cases h' with
    | nil => exact ⟨rfl, rfl, (List.cons.inj heq).2⟩
    | cons hp' =>
      rw [List.append_assoc] at heq
      exact (hp'.ne_quote heq.symm).elim
  | cons hp h ih =>
    cases h' with
    | nil =>
      rw [List.append_assoc] at heq
      exact (hp.ne_quote heq).elim
    | cons hp' h' =>
      rw [List.append_assoc, List.append_assoc] at heq
      obtain ⟨rfl, rfl, hrest⟩ := hp.unique hp' heq
      obtain ⟨rfl, rfl, rfl⟩ := ih h' hrest
      exact ⟨rfl, rfl, rfl⟩

/-- Behind `head` the text holds the string `v`, and `rest` behind its quotation mark. -/
def Reads (text head v rest : Bytes) : Prop :=
  ∃ t, Body t v ∧ text = head ++ (t ++ quote :: rest)

/-- A body with a quotation mark behind it reads as what it denotes and as nothing else. -/
theorem Body.reads_iff {head rest rest' : Bytes} (h : Body t v) :
    Reads (head ++ (t ++ quote :: rest)) head v' rest' ↔ v' = v ∧ rest' = rest := by
  constructor
  · rintro ⟨t', h', heq⟩
    obtain ⟨-, hv, hrest⟩ := h.unique h' (List.append_cancel_left heq)
    exact ⟨hv.symm, hrest.symm⟩
  · rintro ⟨rfl, rfl⟩
    exact ⟨t, h, rfl⟩

end JsonString
