import Mathlib.Data.List.Basic
import Mathlib.Data.UInt
import Mathlib.Tactic.Common
import Mathlib.Tactic.IntervalCases

/-! Byte strings and their decimal numerals. -/

/-- A byte string; also the model of a `std::string` and of a byte vector. -/
abbrev Bytes := List UInt8

namespace Bytes

def ofChars (cs : List Char) : Bytes := cs.map fun c => c.val.toUInt8

/-- The bytes of an ASCII literal. -/
def ascii (s : String) : Bytes := ofChars s.toList

def newline : UInt8 := 10

/-- `std::to_string` on an unsigned value. -/
def decimal (n : Nat) : Bytes := ofChars (Nat.toDigits 10 n)

/-- `std::to_string` on a signed value. -/
def signedDecimal : Int → Bytes
  | .ofNat n => decimal n
  | .negSucc n => ascii "-" ++ decimal (n + 1)

/-- The value a run of decimal digits denotes. -/
def digitsValue (ds : Bytes) : Nat := ds.foldl (fun acc d => 10 * acc + (d.toNat - 48)) 0

def IsDigit (b : UInt8) : Prop := 48 ≤ b ∧ b ≤ 57

instance (b : UInt8) : Decidable (IsDigit b) := inferInstanceAs (Decidable (_ ∧ _))

theorem toNat_of_isDigit {c : Char} (h : c.isDigit = true) :
    c.val.toUInt8.toNat = c.toNat := by
  have hc : c.val.toNat ≤ 57 := by
    simp only [Char.isDigit, Bool.and_eq_true, decide_eq_true_eq] at h
    exact UInt32.le_iff_toNat_le.mp h.2
  show c.val.toNat % 256 = c.val.toNat
  omega

theorem decimal_isDigit (n : Nat) : ∀ d ∈ decimal n, IsDigit d := by
  intro d hd
  obtain ⟨c, hc, rfl⟩ := List.mem_map.mp hd
  have hdig : c.isDigit = true := Nat.isDigit_of_mem_toDigits (by decide) (by decide) hc
  have hval := toNat_of_isDigit hdig
  simp only [Char.isDigit, Bool.and_eq_true, decide_eq_true_eq] at hdig
  have h1 := UInt32.le_iff_toNat_le.mp hdig.1
  have h2 := UInt32.le_iff_toNat_le.mp hdig.2
  constructor
  · rw [UInt8.le_iff_toNat_le, hval]; exact h1
  · rw [UInt8.le_iff_toNat_le, hval]; exact h2

theorem newline_notMem_decimal (n : Nat) : newline ∉ decimal n :=
  fun h => absurd (decimal_isDigit n _ h) (by decide)

theorem newline_notMem_signedDecimal (i : Int) : newline ∉ signedDecimal i := by
  have hminus : newline ∉ ascii "-" := by decide
  cases i with
  | ofNat n => exact newline_notMem_decimal n
  | negSucc n =>
    rw [signedDecimal, List.mem_append, not_or]
    exact ⟨hminus, newline_notMem_decimal (n + 1)⟩

theorem decimal_ne_nil (n : Nat) : decimal n ≠ [] := by
  simp [decimal, ofChars, Nat.toDigits_ne_nil]

theorem foldl_digits (cs : List Char) (hcs : ∀ c ∈ cs, c.isDigit = true) (acc : Nat) :
    (ofChars cs).foldl (fun acc d => 10 * acc + (d.toNat - 48)) acc =
      Nat.ofDigitChars 10 cs acc := by
  induction cs generalizing acc with
  | nil => simp [ofChars]
  | cons c cs ih =>
    have hc := toNat_of_isDigit (hcs c (by simp))
    rw [Nat.ofDigitChars_cons, ← ih fun d hd => hcs d (by simp [hd])]
    simp only [ofChars, List.map_cons, List.foldl_cons, hc]
    rfl

@[simp] theorem digitsValue_decimal (n : Nat) : digitsValue (decimal n) = n := by
  rw [digitsValue, decimal, foldl_digits _ fun c hc =>
    Nat.isDigit_of_mem_toDigits (by decide) (by decide) hc]
  exact Nat.ofDigitChars_ten_toDigits

theorem decimal_injective : Function.Injective decimal := by
  intro m n h
  simpa using congrArg digitsValue h

@[simp] theorem decimal_inj {m n : Nat} : decimal m = decimal n ↔ m = n :=
  decimal_injective.eq_iff

/-- Lines split back, whatever follows them. -/
theorem splitOn_lines_append {lines : List Bytes} (h : ∀ line ∈ lines, newline ∉ line)
    (rest : Bytes) : (lines.flatMap (· ++ [newline]) ++ rest).splitOn newline =
      lines ++ rest.splitOn newline := by
  induction lines with
  | nil => rfl
  | cons line lines ih =>
    have hline := h line List.mem_cons_self
    rw [List.flatMap_cons, List.append_assoc, List.append_assoc, List.singleton_append,
      List.splitOn_append_cons_self_of_not_mem hline, ih fun l hl => h l (List.mem_cons_of_mem _ hl)]
    rfl

section Canonical
variable {ds : Bytes} {b : UInt8} {n : Nat}

/-- The only spelling of a number without leading zeros. -/
def Canonical (ds : Bytes) : Prop :=
  ds = [48] ∨ ds ≠ [] ∧ (∀ d ∈ ds, IsDigit d) ∧ ds.head? ≠ some 48

instance (ds : Bytes) : Decidable (Canonical ds) := inferInstanceAs (Decidable (_ ∨ _))

/-- The same for signed numbers: zero has no sign. -/
def CanonicalSigned (s : Bytes) : Prop :=
  Canonical s ∨ s.head? = some 45 ∧ Canonical s.tail ∧ s.tail ≠ [48]

instance (s : Bytes) : Decidable (CanonicalSigned s) := inferInstanceAs (Decidable (_ ∨ _))

theorem decimal_digit (hb : IsDigit b) : decimal (b.toNat - 48) = [b] := by
  have h48 : 48 ≤ b.toNat := UInt8.le_iff_toNat_le.mp hb.1
  have h57 : b.toNat ≤ 57 := UInt8.le_iff_toNat_le.mp hb.2
  obtain ⟨n, hn⟩ : ∃ n, n = b.toNat := ⟨_, rfl⟩
  have hbn : b = n.toUInt8 := by rw [hn, Nat.toUInt8_eq, UInt8.ofNat_toNat]
  rw [← hn] at h48 h57 ⊢
  rw [hbn]
  interval_cases n <;> rfl

theorem decimal_snoc (hn : 0 < n) (hb : IsDigit b) :
    decimal (10 * n + (b.toNat - 48)) = decimal n ++ [b] := by
  have h57 : b.toNat ≤ 57 := UInt8.le_iff_toNat_le.mp hb.2
  have happend := Nat.toDigits_append_toDigits (d := b.toNat - 48) (show 1 < 10 by decide) hn
    (by omega)
  rw [← decimal_digit hb]
  simp only [decimal, ofChars, ← List.map_append, happend]

@[simp] theorem digitsValue_snoc : digitsValue (ds ++ [b]) = 10 * digitsValue ds + (b.toNat - 48) := by
  simp [digitsValue, List.foldl_append]

theorem decimal_head (hn : 0 < n) : (decimal n).head? ≠ some 48 := by
  induction n using Nat.strongRecOn with
  | ind n ih =>
    by_cases hlt : n < 10
    · interval_cases n <;> decide
    · have hdiv := ih (n / 10) (by omega) (by omega)
      have hsplit : decimal n = decimal (n / 10) ++ ofChars [Nat.digitChar (n % 10)] := by
        rw [decimal, Nat.toDigits_of_base_le (by decide) (by omega), ofChars, List.map_append]
        rfl
      rw [hsplit, List.head?_append_of_ne_nil _ (decimal_ne_nil _)]
      exact hdiv

/-- Digits without a leading zero are those of their value. -/
theorem decimal_digitsValue (hds : ∀ d ∈ ds, IsDigit d) (hne : ds ≠ []) (h0 : ds.head? ≠ some 48) :
    0 < digitsValue ds ∧ decimal (digitsValue ds) = ds := by
  induction ds using List.reverseRecOn with
  | nil => exact absurd rfl hne
  | append_singleton ds b ih =>
    have hb : IsDigit b := hds b (by simp)
    cases ds with
    | nil =>
      have h48 : 48 ≤ b.toNat := UInt8.le_iff_toNat_le.mp hb.1
      have hne48 : b.toNat ≠ 48 := fun he => h0 (by simp [← UInt8.toNat_inj, he])
      have hval : digitsValue ([] ++ [b]) = b.toNat - 48 := by simp [digitsValue]
      rw [hval]
      exact ⟨by omega, decimal_digit hb⟩
    | cons d ds =>
      obtain ⟨hpos, hdec⟩ := ih (fun x hx => hds x (List.mem_append_left _ hx)) (by simp)
        (by simpa using h0)
      rw [digitsValue_snoc]
      refine ⟨by omega, ?_⟩
      rw [decimal_snoc hpos hb, hdec]

theorem canonical_iff : Canonical ds ↔ ∃ n, ds = decimal n := by
  constructor
  · rintro (rfl | ⟨hne, hds, h0⟩)
    · exact ⟨0, by decide⟩
    · exact ⟨digitsValue ds, (decimal_digitsValue hds hne h0).2.symm⟩
  · rintro ⟨n, rfl⟩
    cases n with
    | zero => exact .inl (by decide)
    | succ n => exact .inr ⟨decimal_ne_nil _, decimal_isDigit _, decimal_head (Nat.succ_pos n)⟩

theorem canonicalSigned_iff {s : Bytes} : CanonicalSigned s ↔ ∃ i, s = signedDecimal i := by
  have hminus : ascii "-" = [45] := by decide
  constructor
  · rintro (h | ⟨hhead, htail, h0⟩)
    · obtain ⟨n, rfl⟩ := canonical_iff.mp h
      exact ⟨.ofNat n, rfl⟩
    · obtain ⟨n, hn⟩ := canonical_iff.mp htail
      cases n with
      | zero => exact absurd (hn.trans (by decide)) h0
      | succ n =>
        refine ⟨.negSucc n, ?_⟩
        rw [signedDecimal, ← hn, hminus]
        exact (List.cons_head?_tail hhead).symm
  · rintro ⟨i, rfl⟩
    cases i with
    | ofNat n => exact .inl (canonical_iff.mpr ⟨n, rfl⟩)
    | negSucc n =>
      rw [signedDecimal, hminus]
      refine .inr ⟨rfl, canonical_iff.mpr ⟨n + 1, rfl⟩, fun h => ?_⟩
      have hval : decimal (n + 1) = decimal 0 := h
      simp at hval

end Canonical

end Bytes
