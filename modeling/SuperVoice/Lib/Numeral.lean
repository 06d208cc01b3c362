import SuperVoice.Lib.Bytes
import Mathlib.Data.List.TakeWhile

/-! `std::stoul`, `std::stoull` and `std::stoll` in base 10 on a machine with 64-bit `long`:
leading white space and a sign are skipped, what follows the digits is ignored. The extractions
of a stream read the same numbers and differ in their errors. -/
namespace Numeral
open Bytes

def isSpace (b : UInt8) : Bool := b == 32 || (9 ≤ b && b ≤ 13)

/-- The sign and the digits that follow it. -/
def signed : Bytes → Bool × Bytes
  | 45 :: s => (true, s)
  | 43 :: s => (false, s)
  | s => (false, s)

/-- Sign and magnitude of the number a string starts with. -/
def scan (s : Bytes) : Option (Bool × Nat) :=
  let (neg, s) := signed (s.dropWhile isSpace)
  let ds := s.takeWhile fun b => decide (IsDigit b)
  if ds = [] then none else some (neg, digitsValue ds)

/-- A minus sign negates modulo 2 ^ 64. -/
def stoul (s : Bytes) : Option Nat :=
  (scan s).bind fun (neg, v) =>
    if v < 2 ^ 64 then some (if neg then (2 ^ 64 - v) % 2 ^ 64 else v) else none

/-- `unsigned long` and `unsigned long long` have the same width. -/
def stoull (s : Bytes) : Option Nat := stoul s

def signedValue (neg : Bool) (v : Nat) : Int := if neg then -v else v

def stoll (s : Bytes) : Option Int :=
  (scan s).bind fun (neg, v) =>
    if -2 ^ 63 ≤ signedValue neg v ∧ signedValue neg v < 2 ^ 63 then some (signedValue neg v)
    else none

/-- `operator>>` into a 64-bit unsigned number: zero if there is none, the greatest if it does not
fit. -/
def extractUnsigned (s : Bytes) : Nat :=
  match scan s with
  | none => 0
  | some (neg, v) => if v < 2 ^ 64 then (if neg then (2 ^ 64 - v) % 2 ^ 64 else v) else 2 ^ 64 - 1

/-- `operator>>` into a 64-bit signed number. -/
def extractSigned (s : Bytes) : Int :=
  match scan s with
  | none => 0
  | some (neg, v) => max (-2 ^ 63) (min (2 ^ 63 - 1) (signedValue neg v))

theorem stoul_lt {s : Bytes} {v : Nat} (h : stoul s = some v) : v < 2 ^ 64 := by
  obtain ⟨⟨neg, m⟩, -, hv⟩ := Option.bind_eq_some_iff.mp h
  by_cases hm : m < 2 ^ 64
  · simp only [hm, if_true, Option.some.injEq] at hv
    cases neg with
    | false => rw [← hv]; exact hm
    | true => rw [← hv]; exact Nat.mod_lt _ (by decide)
  · simp only [hm, if_false] at hv
    cases hv

theorem stoll_range {s : Bytes} {v : Int} (h : stoll s = some v) :
    -2 ^ 63 ≤ v ∧ v < 2 ^ 63 := by
  obtain ⟨⟨neg, m⟩, -, hv⟩ := Option.bind_eq_some_iff.mp h
  dsimp only at hv
  by_cases hr : -2 ^ 63 ≤ signedValue neg m ∧ signedValue neg m < 2 ^ 63
  · rw [if_pos hr, Option.some.injEq] at hv
    exact hv ▸ hr
  · rw [if_neg hr] at hv
    cases hv

theorem isSpace_of_isDigit {d : UInt8} (h : IsDigit d) : isSpace d = false := by
  have h48 : 48 ≤ d.toNat := UInt8.le_iff_toNat_le.mp h.1
  simp only [isSpace, Bool.or_eq_false_iff, Bool.and_eq_false_iff, beq_eq_false_iff_ne,
    decide_eq_false_iff_not, UInt8.le_iff_toNat_le, ne_eq, ← UInt8.toNat_inj]
  simp
  omega

theorem signed_of_isDigit {d : UInt8} (h : IsDigit d) (s : Bytes) :
    signed (d :: s) = (false, d :: s) := by
  unfold signed
  split
  · next he =>
    rw [(List.cons.inj he).1] at h
    exact absurd h (by decide)
  · next he =>
    rw [(List.cons.inj he).1] at h
    exact absurd h (by decide)
  · rfl

theorem takeWhile_digits {ds : Bytes} (hds : ∀ d ∈ ds, IsDigit d) :
    ds.takeWhile (fun b => decide (IsDigit b)) = ds :=
  List.takeWhile_eq_self_iff.mpr fun b hb => decide_eq_true (hds b hb)

theorem scan_digits {ds : Bytes} (hne : ds ≠ []) (hds : ∀ d ∈ ds, IsDigit d) :
    scan ds = some (false, digitsValue ds) := by
  cases ds with
  | nil => exact absurd rfl hne
  | cons d ds =>
    have hd : IsDigit d := hds d List.mem_cons_self
    simp [scan, isSpace_of_isDigit hd, signed_of_isDigit hd, takeWhile_digits hds]

theorem stoul_decimal {n : Nat} (h : n < 2 ^ 64) : stoul (decimal n) = some n := by
  simp only [stoul, scan_digits (decimal_ne_nil n) (decimal_isDigit n), digitsValue_decimal,
    Option.bind_some, h, if_true, Bool.false_eq_true, if_false]

theorem scan_minus {ds : Bytes} (hne : ds ≠ []) (hds : ∀ d ∈ ds, IsDigit d) :
    scan (ascii "-" ++ ds) = some (true, digitsValue ds) := by
  have hminus : ascii "-" = [45] := by decide
  simp [scan, hminus, isSpace, signed, takeWhile_digits hds, hne]

theorem stoll_of_scan {s : Bytes} {neg : Bool} {v : Nat} (hs : scan s = some (neg, v))
    (h : -2 ^ 63 ≤ signedValue neg v ∧ signedValue neg v < 2 ^ 63) :
    stoll s = some (signedValue neg v) := by
  simp only [stoll, hs, Option.bind_some]
  exact if_pos h

theorem scan_signedDecimal (i : Int) :
    ∃ neg v, scan (signedDecimal i) = some (neg, v) ∧ signedValue neg v = i := by
  cases i with
  | ofNat n =>
    refine ⟨false, n, ?_, rfl⟩
    rw [signedDecimal, scan_digits (decimal_ne_nil n) (decimal_isDigit n), digitsValue_decimal]
  | negSucc n =>
    refine ⟨true, n + 1, ?_, ?_⟩
    · rw [signedDecimal, scan_minus (decimal_ne_nil _) (decimal_isDigit _), digitsValue_decimal]
    · simp only [signedValue, if_true, Int.negSucc_eq]
      omega

/-- What `std::to_string` writes of an accepted number is what was read exactly when that was
canonical. -/
theorem eq_decimal_iff {s : Bytes} {v : Nat} (h : stoul s = some v) :
    s = decimal v ↔ Canonical s := by
  rw [canonical_iff]
  constructor
  · intro hs
    exact ⟨v, hs⟩
  · rintro ⟨n, rfl⟩
    rw [stoul, scan_digits (decimal_ne_nil n) (decimal_isDigit n), digitsValue_decimal,
      Option.bind_some] at h
    dsimp only at h
    split at h
    · cases h
      rfl
    · cases h

theorem eq_signedDecimal_iff {s : Bytes} {v : Int} (h : stoll s = some v) :
    s = signedDecimal v ↔ CanonicalSigned s := by
  rw [canonicalSigned_iff]
  constructor
  · intro hs
    exact ⟨v, hs⟩
  · rintro ⟨i, rfl⟩
    obtain ⟨neg, m, hscan, hi⟩ := scan_signedDecimal i
    rw [stoll, hscan, Option.bind_some] at h
    dsimp only at h
    split at h
    · cases h
      rw [hi]
    · cases h

theorem stoll_signedDecimal {i : Int} (h : -2 ^ 63 ≤ i ∧ i < 2 ^ 63) :
    stoll (signedDecimal i) = some i := by
  obtain ⟨neg, v, hscan, hv⟩ := scan_signedDecimal i
  rw [stoll_of_scan hscan (hv ▸ h), hv]

/-- What follows the number that a string starts with. -/
def afterNumber (s : Bytes) : Bytes :=
  (signed (s.dropWhile isSpace)).2.dropWhile fun b => decide (IsDigit b)

/-- The signs that a number may have in front. -/
inductive Sign : Bytes → Bool → Prop where
  | none : Sign [] false
  | plus : Sign [43] false
  | minus : Sign [45] true

/-- A string is one decimal number with nothing but white space around it. -/
inductive Spells : Bytes → Int → Prop where
  | intro {before sign ds after : Bytes} {neg : Bool} (hbefore : ∀ b ∈ before, isSpace b = true)
      (hsign : Sign sign neg) (hne : ds ≠ []) (hds : ∀ d ∈ ds, IsDigit d)
      (hafter : ∀ b ∈ after, isSpace b = true) :
      Spells (before ++ (sign ++ (ds ++ after))) (signedValue neg (digitsValue ds))

theorem signed_spec (s : Bytes) :
    ∃ sign, Sign sign (signed s).1 ∧ s = sign ++ (signed s).2 := by
  unfold signed
  split
  · exact ⟨[45], .minus, rfl⟩
  · exact ⟨[43], .plus, rfl⟩
  · exact ⟨[], .none, rfl⟩

theorem signed_append {sign ds s : Bytes} {neg : Bool} (hsign : Sign sign neg) (hne : ds ≠ [])
    (hds : ∀ d ∈ ds, IsDigit d) : signed (sign ++ (ds ++ s)) = (neg, ds ++ s) ∧
      (sign ++ (ds ++ s)).dropWhile isSpace = sign ++ (ds ++ s) := by
  cases hsign with
  | none =>
    cases ds with
    | nil => exact absurd rfl hne
    | cons d ds =>
      have hd : IsDigit d := hds d List.mem_cons_self
      exact ⟨signed_of_isDigit hd _, List.dropWhile_cons_of_neg (by simp [isSpace_of_isDigit hd])⟩
  | plus => exact ⟨rfl, rfl⟩
  | minus => exact ⟨rfl, rfl⟩

/-- Digits end where white space begins. -/
theorem takeWhile_digits_append {ds after : Bytes} (hds : ∀ d ∈ ds, IsDigit d)
    (hafter : ∀ b ∈ after, isSpace b = true) :
    (ds ++ after).takeWhile (fun b => decide (IsDigit b)) = ds ∧
      (ds ++ after).dropWhile (fun b => decide (IsDigit b)) = after := by
  have hpos : ∀ d ∈ ds, decide (IsDigit d) = true := fun d hd => decide_eq_true (hds d hd)
  rw [List.takeWhile_append_of_pos hpos, List.dropWhile_append_of_pos hpos]
  cases after with
  | nil => exact ⟨List.append_nil ds, rfl⟩
  | cons b after =>
    have hb : ¬IsDigit b := by
      intro hdigit
      have hspace := hafter b List.mem_cons_self
      rw [isSpace_of_isDigit hdigit] at hspace
      cases hspace
    simp [hb]

/-- Scanning finds the number that a string spells, and spells it if only white space follows. -/
theorem spells_iff {s : Bytes} {i : Int} : Spells s i ↔ ∃ neg v, scan s = some (neg, v) ∧
    signedValue neg v = i ∧ ∀ b ∈ afterNumber s, isSpace b = true := by
  constructor
  · rintro ⟨hbefore, hsign, hne, hds, hafter⟩
    next before sign ds after neg =>
    obtain ⟨hsigned, hdrop⟩ := signed_append (s := after) hsign hne hds
    obtain ⟨htake, hrest⟩ := takeWhile_digits_append hds hafter
    refine ⟨neg, digitsValue ds, ?_, rfl, ?_⟩
    · rw [scan, List.dropWhile_append_of_pos hbefore, hdrop, hsigned]
      dsimp only
      rw [htake, if_neg hne]
    · rw [afterNumber, List.dropWhile_append_of_pos hbefore, hdrop, hsigned, hrest]
      exact hafter
  · rintro ⟨neg, v, hscan, rfl, hafter⟩
    obtain ⟨sign, hsign, hsplit⟩ := signed_spec (s.dropWhile isSpace)
    have hs : s = s.takeWhile isSpace ++ (sign ++ (signed (s.dropWhile isSpace)).2) := by
      rw [← hsplit, List.takeWhile_append_dropWhile]
    unfold afterNumber at hafter
    unfold scan at hscan
    rcases hsigned : signed (s.dropWhile isSpace) with ⟨neg', w⟩
    rw [hsigned] at hsign hs hscan hafter
    dsimp only at hsign hs hscan hafter
    split at hscan
    · cases hscan
    · next hne =>
      cases hscan
      have hbefore : ∀ b ∈ s.takeWhile isSpace, isSpace b = true := fun b hb =>
        List.mem_takeWhile_imp hb
      have hds : ∀ d ∈ w.takeWhile (fun b => decide (IsDigit b)), IsDigit d := by
        intro d hd
        have hdigit := List.mem_takeWhile_imp (p := fun b => decide (IsDigit b)) hd
        exact of_decide_eq_true hdigit
      have hspells := Spells.intro hbefore hsign hne hds hafter
      rw [List.takeWhile_append_dropWhile] at hspells
      rw [hs]
      exact hspells

end Numeral
