import SuperVoice.Lib.Signed

/-! The delay before a retry, in milliseconds. -/
namespace SuperVoice.Providers
open Signed

/-- `std::uniform_int_distribution` from zero to `bound`. -/
def jitter (draw : Int32 → Int32) (bound : Int32) : Except Undefined Int32 :=
  if bound < 0 then .error .range else .ok (draw bound)

def computeBackoff (base max : Int64) (attempt : UInt64) (draw : Int32 → Int32) :
    Except Undefined Int64 := do
  let scaled ← mul base (← shiftLeft 1 attempt)
  let capped := if scaled < max then scaled else max
  let jitterMs ← jitter draw base.toInt32
  let total ← add capped jitterMs.toInt64
  return if max < total then max else total

/-- What a distribution draws lies in its range. -/
def Draws (draw : Int32 → Int32) : Prop :=
  ∀ bound, 0 ≤ bound → 0 ≤ draw bound ∧ draw bound ≤ bound

/-- The delay before retry `attempt` in exact arithmetic. -/
structure Exact (base max : Int64) (attempt : UInt64) (draw : Int32 → Int32) : Prop where
  bound : base.toInt32.toInt = base.toInt
  returned : ∃ d, computeBackoff base max attempt draw = .ok d ∧
    min max.toInt (base.toInt * 2 ^ attempt.toNat) ≤ d.toInt ∧ d.toInt ≤ max.toInt

/-- The numbers on the way to the delay fit into their types. -/
structure Fits (base max : Int64) (attempt : UInt64) : Prop where
  shift : attempt < 64
  product : base.toInt * 2 ^ attempt.toNat < 2 ^ 63
  bound : base.toInt < 2 ^ 31
  sum : min max.toInt (base.toInt * 2 ^ attempt.toNat) + base.toInt < 2 ^ 63

section
variable {base max : Int64} {attempt : UInt64} {draw : Int32 → Int32}

theorem jitter_spec (hdraw : Draws draw) (hbase : 0 ≤ base.toInt)
    (hbound : base.toInt32.toInt = base.toInt) : ∃ jitterMs : Int32,
      jitter draw base.toInt32 = .ok jitterMs ∧ jitterMs = draw base.toInt32 ∧
        0 ≤ jitterMs.toInt ∧ jitterMs.toInt ≤ base.toInt := by
  have hpos : (0 : Int32) ≤ base.toInt32 := by
    rw [Int32.le_iff_toInt_le, hbound]
    exact hbase
  have hdrawn := hdraw _ hpos
  rw [Int32.le_iff_toInt_le, Int32.le_iff_toInt_le, hbound] at hdrawn
  exact ⟨_, if_neg (Int32.not_lt.mpr hpos), rfl, hdrawn⟩

/-- Either the power is what it says or it is the sign bit. -/
theorem attempt_cases (h : attempt < 64) : attempt < 63 ∨ attempt = 63 := by
  rw [UInt64.lt_iff_toNat_lt] at h ⊢
  rw [← UInt64.toNat_inj]
  exact Nat.lt_or_eq_of_le (Nat.le_of_lt_succ h)

/-- A product that fits is computed, also where the power alone is the sign bit. -/
theorem scaled_of_fits (hbase : 0 ≤ base.toInt) (hshift : attempt < 64)
    (hproduct : base.toInt * 2 ^ attempt.toNat < 2 ^ 63) : ∃ factor scaled,
      shiftLeft 1 attempt = .ok factor ∧ mul base factor = .ok scaled ∧
        scaled.toInt = base.toInt * 2 ^ attempt.toNat := by
  rcases attempt_cases hshift with hlt | rfl
  · obtain ⟨factor, hfactor, hpower⟩ := shiftLeft_one hlt
    have hpos : 0 ≤ base.toInt * 2 ^ attempt.toNat :=
      Int.mul_nonneg hbase (Int.le_of_lt (Int.pow_pos (by decide)))
    have hscaled := Int64.toInt_ofInt_of_le (by omega) hproduct
    exact ⟨factor, _, hfactor, mul_eq_ok_iff.mpr (by rw [hscaled, hpower]), hscaled⟩
  · have h63 : (63 : UInt64).toNat = 63 := rfl
    rw [h63] at hproduct ⊢
    have hzero : base.toInt = 0 := by omega
    refine ⟨_, 0, shiftLeft_one_sign, mul_eq_ok_iff.mpr ?_, ?_⟩
    · rw [hzero, Int.zero_mul]
      rfl
    · rw [hzero, Int.zero_mul]
      rfl

/-- What a delay that is returned was computed from. -/
theorem computeBackoff_eq_ok {d : Int64} (h : computeBackoff base max attempt draw = .ok d) :
    ∃ factor scaled jitterMs total, shiftLeft 1 attempt = .ok factor ∧
      mul base factor = .ok scaled ∧ jitter draw base.toInt32 = .ok jitterMs ∧
      add (if scaled < max then scaled else max) jitterMs.toInt64 = .ok total ∧
      d = if max < total then max else total := by
  obtain ⟨factor, hfactor, h⟩ := bind_eq_ok.mp h
  obtain ⟨scaled, hscaled, h⟩ := bind_eq_ok.mp h
  obtain ⟨jitterMs, hjitter, h⟩ := bind_eq_ok.mp h
  obtain ⟨total, htotal, h⟩ := bind_eq_ok.mp h
  cases h
  exact ⟨factor, scaled, jitterMs, total, hfactor, hscaled, hjitter, htotal, rfl⟩

theorem toInt_ite_lt (a b : Int64) : (if a < b then a else b).toInt = min b.toInt a.toInt := by
  split
  case isTrue h =>
    have := Int64.lt_iff_toInt_lt.mp h
    omega
  case isFalse h =>
    have := Int64.le_iff_toInt_le.mp (Int64.not_lt.mp h)
    omega

theorem exact_of_fits (hdraw : Draws draw) (hbase : 0 ≤ base.toInt) (hmax : 0 ≤ max.toInt)
    (h : Fits base max attempt) : Exact base max attempt draw := by
  have hbound : base.toInt32.toInt = base.toInt := toInt32_exact_iff.mpr ⟨by omega, h.bound⟩
  obtain ⟨factor, scaled, hfactor, hscaled, hproduct⟩ := scaled_of_fits hbase h.shift h.product
  obtain ⟨jitterMs, hjitter, -, hpos, hle⟩ := jitter_spec hdraw hbase hbound
  have hsum := h.sum
  rw [← hproduct] at hsum
  have hnonneg : 0 ≤ scaled.toInt := by
    rw [hproduct]
    exact Int.mul_nonneg hbase (Int.le_of_lt (Int.pow_pos (by decide)))
  have hcapped := toInt_ite_lt scaled max
  obtain ⟨total, htotal⟩ : ∃ total : Int64,
      total.toInt = (if scaled < max then scaled else max).toInt + jitterMs.toInt64.toInt := by
    rw [hcapped, Int32.toInt_toInt64]
    exact ⟨_, Int64.toInt_ofInt_of_le (by omega) (by omega)⟩
  constructor
  case bound => exact hbound
  case returned =>
    refine ⟨if max < total then max else total, ?_, ?_⟩
    · simp only [computeBackoff, bind, Except.bind, hfactor, hscaled, hjitter,
        add_eq_ok_iff.mpr htotal]
      rfl
    · rw [hcapped, Int32.toInt_toInt64] at htotal
      rw [← hproduct, toInt_ite_lt]
      omega

/-- A distribution that can draw its greatest number. -/
theorem draws_id : Draws id := fun _ h => ⟨h, Int32.le_refl _⟩

theorem fits_of_exact (hbase : 0 ≤ base.toInt) (hmax : 0 ≤ max.toInt)
    (h : Exact base max attempt id) : Fits base max attempt := by
  obtain ⟨d, hd, hleast, hmost⟩ := h.returned
  obtain ⟨factor, scaled, jitterMs, total, hfactor, hscaled, hjitter, htotal, rfl⟩ :=
    computeBackoff_eq_ok hd
  have hbound := h.bound
  obtain ⟨_, hdrawn, rfl, -, -⟩ := jitter_spec draws_id hbase hbound
  cases hjitter.symm.trans hdrawn
  have hshift : attempt < 64 := by
    apply Decidable.byContradiction
    intro hge
    rw [shiftLeft_eq_error (UInt64.not_lt.mp hge)] at hfactor
    cases hfactor
  have hscaled := mul_eq_ok_iff.mp hscaled
  have htotal := add_eq_ok_iff.mp htotal
  rw [toInt_ite_lt, Int32.toInt_toInt64, id_eq, hbound] at htotal
  have hlt := scaled.toInt_lt
  have hproduct : scaled.toInt = base.toInt * 2 ^ attempt.toNat := by
    rcases attempt_cases hshift with hlt | rfl
    · obtain ⟨_, hpower, hfactor'⟩ := shiftLeft_one hlt
      cases hfactor.symm.trans hpower
      rw [hscaled, hfactor']
    · cases shiftLeft_one_sign.symm.trans hfactor
      have hmin : Int64.minValue.toInt = -2 ^ 63 := rfl
      have h63 : (63 : UInt64).toNat = 63 := rfl
      rw [hmin] at hscaled
      rw [h63] at hleast ⊢
      rw [toInt_ite_lt] at hleast
      omega
  constructor
  case shift => exact hshift
  case product => omega
  case bound => exact (toInt32_exact_iff.mp hbound).2
  case sum =>
    rw [← hproduct]
    have := total.toInt_lt
    omega

/-- The delay is exact, whatever is drawn, exactly where the numbers on the way to it fit. -/
theorem computeBackoff_exact_iff (attempt : UInt64) (hbase : 0 ≤ base) (hmax : 0 ≤ max) :
    (∀ draw, Draws draw → Exact base max attempt draw) ↔ Fits base max attempt := by
  rw [Int64.le_iff_toInt_le] at hbase hmax
  constructor
  · exact fun h => fits_of_exact hbase hmax (h id draws_id)
  · exact fun h draw hdraw => exact_of_fits hdraw hbase hmax h

theorem Fits.mono {attempt' : UInt64} (hbase : 0 ≤ base.toInt) (h : Fits base max attempt)
    (hle : attempt' ≤ attempt) : Fits base max attempt' := by
  have hpow : (2 : Int) ^ attempt'.toNat ≤ 2 ^ attempt.toNat := by
    exact_mod_cast Nat.pow_le_pow_right Nat.zero_lt_two (UInt64.le_iff_toNat_le.mp hle)
  have hmul := Int.mul_le_mul_of_nonneg_left hpow hbase
  have hproduct := h.product
  have hsum := h.sum
  constructor
  case shift => exact UInt64.lt_of_le_of_lt hle h.shift
  case product => omega
  case bound => exact h.bound
  case sum => omega

/-- All delays of a request with these retries are exact exactly if the last one is. -/
theorem backoffs_exact_iff (retries : UInt64) (hbase : 0 ≤ base) (hmax : 0 ≤ max) :
    (∀ attempt < retries, ∀ draw, Draws draw → Exact base max attempt draw) ↔
      retries = 0 ∨ Fits base max (retries - 1) := by
  rw [Int64.le_iff_toInt_le] at hbase hmax
  by_cases hzero : retries = 0
  · exact iff_of_true (fun attempt hlt => absurd (hzero ▸ hlt) (UInt64.not_lt.mpr UInt64.zero_le))
      (.inl hzero)
  · have hone : 1 ≤ retries := by
      rw [UInt64.le_iff_toNat_le]
      exact UInt64.lt_iff_toNat_lt.mp (UInt64.pos_iff_ne_zero.mpr hzero)
    have hlast : ∀ attempt, attempt < retries ↔ attempt ≤ retries - 1 := by
      intro attempt
      rw [UInt64.lt_iff_toNat_lt, UInt64.le_iff_toNat_le, UInt64.toNat_sub_of_le _ _ hone]
      rw [UInt64.le_iff_toNat_le] at hone
      exact Nat.lt_iff_le_pred hone
    simp only [hzero, false_or, hlast]
    constructor
    · exact fun h => fits_of_exact hbase hmax (h _ (UInt64.le_refl _) id draws_id)
    · exact fun h attempt hle draw hdraw =>
        exact_of_fits hdraw hbase hmax (h.mono hbase hle)

end

/-- The shipped backoff of 200 ms up to 2 s overflows at the 57th retry. -/
theorem computeBackoff_inexact : ¬ ∀ (base max : Int64) (retries attempt : UInt64),
    0 ≤ base → 0 ≤ max → attempt < retries →
      ∀ draw, Draws draw → Exact base max attempt draw := by
  intro h
  obtain ⟨d, hd, -⟩ := (h 200 2000 57 56 (by decide) (by decide) (by decide) id draws_id).returned
  have hoverflow : computeBackoff 200 2000 56 id = .error .overflow := rfl
  cases hoverflow.symm.trans hd

theorem computeBackoff_shipped : Exact 200 2000 2 id :=
  (computeBackoff_exact_iff 2 (by decide) (by decide)).mpr
    ⟨by decide, by decide, by decide, by decide⟩ id draws_id

/-- A retry later than the word size shifts too far, and one before it turns the delay negative. -/
example : computeBackoff 200 2000 64 id = .error .shift ∧
    computeBackoff 1 2000 63 id = .ok (-9223372036854775807) := ⟨rfl, rfl⟩

end SuperVoice.Providers
