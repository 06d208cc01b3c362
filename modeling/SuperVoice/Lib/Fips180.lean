import Mathlib.Data.Nat.NthRoot.Defs
import Mathlib.Data.Nat.Prime.Defs
import SuperVoice.Lib.BlockHash

/-! SHA-256 as FIPS 180-4 defines it, on messages of whole bytes. -/
namespace Fips180

/-- Section 3.2: rotation of a word to the right. -/
def rotr (n x : UInt32) : UInt32 := (x >>> n) ||| (x <<< (32 - n))

/-! Section 4.1.2. -/
def ch (x y z : UInt32) : UInt32 := (x &&& y) ^^^ (~~~x &&& z)
def maj (x y z : UInt32) : UInt32 := (x &&& y) ^^^ (x &&& z) ^^^ (y &&& z)
def bigSigma0 (x : UInt32) : UInt32 := rotr 2 x ^^^ rotr 13 x ^^^ rotr 22 x
def bigSigma1 (x : UInt32) : UInt32 := rotr 6 x ^^^ rotr 11 x ^^^ rotr 25 x
def smallSigma0 (x : UInt32) : UInt32 := rotr 7 x ^^^ rotr 18 x ^^^ (x >>> 3)
def smallSigma1 (x : UInt32) : UInt32 := rotr 17 x ^^^ rotr 19 x ^^^ (x >>> 10)

/-- The first sixty-four primes. -/
def primes : List Nat := (List.range 312).filter fun n => n.Prime

/-- Trial division, enough for numbers below 18². -/
def hasNoDivisor (n : Nat) : Bool :=
  2 ≤ n && (List.range 18).all fun m => m < 2 || n ≤ m || !decide (m ∣ n)

theorem prime_iff {n : Nat} (hn : n < 18 * 18) : n.Prime ↔ hasNoDivisor n = true := by
  simp only [hasNoDivisor, Bool.and_eq_true, decide_eq_true_eq, List.all_eq_true, List.mem_range,
    Bool.or_eq_true, Bool.not_eq_true', decide_eq_false_iff_not]
  constructor
  · intro hprime
    obtain ⟨htwo, hnone⟩ := Nat.prime_def_lt'.mp hprime
    refine ⟨htwo, fun m _ => ?_⟩
    by_cases hm : 2 ≤ m ∧ m < n
    · exact .inr (hnone m hm.1 hm.2)
    · exact .inl (by omega)
  · rintro ⟨htwo, hnone⟩
    refine Nat.prime_def_le_sqrt.mpr ⟨htwo, fun m hm hsqrt => ?_⟩
    have hsquare : m * m ≤ n := Nat.le_sqrt.mp hsqrt
    have hless : m < n := by
      have := Nat.mul_le_mul_right m hm
      omega
    have hsmall : m < 18 := by
      by_contra hge
      have := Nat.mul_le_mul (Nat.le_of_not_lt hge) (Nat.le_of_not_lt hge)
      omega
    exact (hnone m hsmall).resolve_left (by omega)

theorem primes_eq : primes = (List.range 312).filter hasNoDivisor := by
  apply List.filter_congr
  intro n hn
  have hlt : n < 18 * 18 := (List.mem_range.mp hn).trans (by decide)
  exact Bool.eq_iff_iff.mpr (decide_eq_true_iff.trans (prime_iff hlt))

/-- The first thirty-two bits of the fractional part of the `n`-th root. -/
def fraction (n p : Nat) : UInt32 := .ofNat (Nat.nthRoot n (p * 2 ^ (32 * n)))

/-- Section 4.2.2: from the cube roots of the primes. -/
def constants : List UInt32 := primes.map (fraction 3)

/-- Eight words: a hash value and the working variables. -/
structure Words where
  a : UInt32
  b : UInt32
  c : UInt32
  d : UInt32
  e : UInt32
  f : UInt32
  g : UInt32
  h : UInt32
  deriving DecidableEq

def Words.toList (v : Words) : List UInt32 := [v.a, v.b, v.c, v.d, v.e, v.f, v.g, v.h]

/-- Section 5.3.3: the square roots of the first eight primes. -/
def initial : Words :=
  ⟨fraction 2 2, fraction 2 3, fraction 2 5, fraction 2 7, fraction 2 11, fraction 2 13,
    fraction 2 17, fraction 2 19⟩

/-- Section 5.2.1: word `t` of a block, its first byte highest. -/
def word (block : Bytes) (t : Nat) : UInt32 :=
  .ofBitVec ((block.getD (4 * t) 0).toBitVec ++ (block.getD (4 * t + 1) 0).toBitVec ++
    (block.getD (4 * t + 2) 0).toBitVec ++ (block.getD (4 * t + 3) 0).toBitVec)

/-- Section 6.2.2, step 1: the message schedule. -/
def schedule (block : Bytes) (t : Nat) : UInt32 :=
  if t < 16 then word block t
  else smallSigma1 (schedule block (t - 2)) + schedule block (t - 7) +
    smallSigma0 (schedule block (t - 15)) + schedule block (t - 16)

/-- Step 3, for one `t`. -/
def round (block : Bytes) (v : Words) (t : Nat) : Words :=
  let t1 := v.h + bigSigma1 v.e + ch v.e v.f v.g + constants.getD t 0 + schedule block t
  let t2 := bigSigma0 v.a + maj v.a v.b v.c
  ⟨t1 + t2, v.a, v.b, v.c, v.d + t1, v.e, v.f, v.g⟩

/-- Step 4. -/
def Words.add (v w : Words) : Words :=
  ⟨v.a + w.a, v.b + w.b, v.c + w.c, v.d + w.d, v.e + w.e, v.f + w.f, v.g + w.g, v.h + w.h⟩

def compress (s : Words) (block : Bytes) : Words :=
  ((List.range 64).foldl (round block) s).add s

/-- The bytes of a number of `n` bytes, the highest first. -/
def bigEndian (n : Nat) (v : BitVec (8 * n)) : Bytes :=
  (List.range n).map fun i => .ofBitVec ((v >>> (8 * (n - 1 - i))).setWidth 8)

/-- Section 5.1.1: after the bit one, as many zeros as bring the length to 448 modulo 512; with
seven of them the bit one fills a byte. -/
def zeroBytes (length : Nat) : Nat := (119 - length % 64) % 64

theorem zeroBytes_spec (length : Nat) :
    (8 * length + 1 + (7 + 8 * zeroBytes length)) % 512 = 448 ∧ zeroBytes length < 64 := by
  unfold zeroBytes
  omega

def padding (length : Nat) : Bytes :=
  0x80 :: List.replicate (zeroBytes length) 0 ++ bigEndian 8 (BitVec.ofNat 64 (8 * length))

def padded (message : Bytes) : Bytes := message ++ padding message.length

/-- Section 6.2. -/
def sha256 (message : Bytes) : Bytes :=
  let data := padded message
  (BlockHash.chain compress 64 initial data (data.length / 64)).toList.flatMap fun w =>
    bigEndian 4 w.toBitVec

theorem setWidth_append {n w : Nat} (x : BitVec n) (y : BitVec 8) :
    (x ++ y).setWidth w = (x.setWidth w <<< 8) ||| y.setWidth w := by
  apply BitVec.eq_of_getLsbD_eq
  intro i hi
  rw [BitVec.getLsbD_setWidth, BitVec.getLsbD_append, BitVec.getLsbD_or, BitVec.getLsbD_shiftLeft,
    BitVec.getLsbD_setWidth, BitVec.getLsbD_setWidth]
  by_cases hlow : i < 8
  · simp [hi, hlow]
  · have hhigh : y.getLsbD i = false := BitVec.getLsbD_of_ge _ _ (by omega)
    simp [hi, hlow, hhigh, show i - 8 < w by omega]

theorem length_bigEndian (n : Nat) (v : BitVec (8 * n)) : (bigEndian n v).length = n := by
  simp [bigEndian]

theorem length_padded (message : Bytes) : (padded message).length % 64 = 0 := by
  obtain ⟨hzeros, -⟩ := zeroBytes_spec message.length
  simp only [padded, padding, List.length_append, List.length_cons, List.length_replicate,
    length_bigEndian]
  omega

/-- The hash value of a message fed byte by byte. -/
theorem sha256_eq_feed (message : Bytes) : sha256 message =
    (BlockHash.feed compress 64 ⟨initial, []⟩ (padded message)).state.toList.flatMap fun w =>
      bigEndian 4 w.toBitVec := by
  have hwhole : (padded message).length = 64 * ((padded message).length / 64) := by
    have hmod := length_padded message
    omega
  rw [BlockHash.feed_whole (by decide) hwhole]
  rfl

end Fips180
