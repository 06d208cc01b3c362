import Mathlib.Algebra.Order.Ring.Int
import Mathlib.Tactic.Common

/-! Arithmetic on 64-bit signed words as C++20 has it: a sum or a product outside the range is
undefined, a shift by the width or more is undefined, a conversion to a narrower type wraps. -/
namespace Signed

inductive Undefined where
  | shift
  | overflow
  /-- A distribution over an empty range. -/
  | range
  deriving DecidableEq

def exact (n : Int) : Except Undefined Int64 :=
  if -2 ^ 63 ≤ n ∧ n < 2 ^ 63 then .ok (Int64.ofInt n) else .error .overflow

def add (a b : Int64) : Except Undefined Int64 := exact (a.toInt + b.toInt)

def mul (a b : Int64) : Except Undefined Int64 := exact (a.toInt * b.toInt)

/-- The bits that are shifted out are lost, and the sign bit is one of those that stay. -/
def shiftLeft (a : Int64) (n : UInt64) : Except Undefined Int64 :=
  if n < 64 then .ok (Int64.ofInt (a.toInt * 2 ^ n.toNat)) else .error .shift

theorem bind_eq_ok {α β : Type} {x : Except Undefined α} {f : α → Except Undefined β} {v : β} :
    x >>= f = .ok v ↔ ∃ u, x = .ok u ∧ f u = .ok v := by
  cases x <;> simp [bind, Except.bind]

section
variable {a b v : Int64} {n : Int}

theorem exact_eq_ok_iff : exact n = .ok v ↔ v.toInt = n := by
  rw [exact]
  split
  case isTrue h =>
    have hto : (Int64.ofInt n).toInt = n := Int64.toInt_ofInt_of_le h.1 h.2
    constructor
    · intro hv
      cases hv
      exact hto
    · intro hv
      rw [← hv, Int64.ofInt_toInt]
  case isFalse h =>
    constructor
    · intro hv
      cases hv
    · intro hv
      exact absurd ⟨hv ▸ v.le_toInt, hv ▸ v.toInt_lt⟩ h

theorem add_eq_ok_iff : add a b = .ok v ↔ v.toInt = a.toInt + b.toInt := exact_eq_ok_iff

theorem mul_eq_ok_iff : mul a b = .ok v ↔ v.toInt = a.toInt * b.toInt := exact_eq_ok_iff

/-- Below the sign bit, a power of two is what it says. -/
theorem shiftLeft_one {k : UInt64} (h : k < 63) :
    ∃ v, shiftLeft 1 k = .ok v ∧ v.toInt = 2 ^ k.toNat := by
  have hk : k.toNat < 63 := UInt64.lt_iff_toNat_lt.mp h
  have hlt : (2 : Int) ^ k.toNat < 2 ^ 63 := Int.pow_lt_pow_of_lt (by decide) hk
  have hpos : (0 : Int) < 2 ^ k.toNat := Int.pow_pos (by decide)
  refine ⟨Int64.ofInt (2 ^ k.toNat), ?_, Int64.toInt_ofInt_of_le (by omega) hlt⟩
  have h64 : k < 64 := UInt64.lt_iff_toNat_lt.mpr (Nat.lt_trans hk (by decide))
  rw [shiftLeft, if_pos h64, show (1 : Int64).toInt = 1 from rfl, Int.one_mul]

/-- At the sign bit it is the least number. -/
theorem shiftLeft_one_sign : shiftLeft 1 63 = .ok Int64.minValue := rfl

theorem shiftLeft_eq_error {k : UInt64} (h : 64 ≤ k) : shiftLeft a k = .error .shift :=
  if_neg (UInt64.not_lt.mpr h)

/-- A conversion to 32 bits keeps the number exactly if it fits. -/
theorem toInt32_exact_iff : a.toInt32.toInt = a.toInt ↔ -2 ^ 31 ≤ a.toInt ∧ a.toInt < 2 ^ 31 := by
  rw [Int64.toInt_toInt32, Int.bmod_def]
  omega

end

end Signed
