import Mathlib.Logic.Function.Iterate
import SuperVoice.Lib.Bytes

/-! Reflected cyclic redundancy codes of any width: linearity, the table of a byte, and bursts. -/
namespace Crc
variable {w : Nat} {poly : BitVec w}

/-- One bit leaves the register at its low end. -/
def shift (poly crc : BitVec w) : BitVec w :=
  if crc.getLsbD 0 then (crc >>> 1) ^^^ poly else crc >>> 1

def widen (byte : UInt8) : BitVec w := byte.toBitVec.setWidth w

def next (poly crc : BitVec w) (byte : UInt8) : BitVec w := (shift poly)^[8] (crc ^^^ widen byte)

def run (poly crc : BitVec w) (bytes : Bytes) : BitVec w := bytes.foldl (next poly) crc

theorem xor_cancel (a b p : BitVec w) : (a ^^^ p) ^^^ (b ^^^ p) = a ^^^ b := by
  rw [BitVec.xor_comm b p, ← BitVec.xor_assoc, BitVec.xor_assoc a p p, BitVec.xor_self,
    BitVec.xor_zero]

theorem shift_xor (a b : BitVec w) : shift poly (a ^^^ b) = shift poly a ^^^ shift poly b := by
  unfold shift
  rw [BitVec.getLsbD_xor, BitVec.ushiftRight_xor_distrib]
  cases a.getLsbD 0 <;> cases b.getLsbD 0
  · rfl
  · exact BitVec.xor_assoc _ _ _
  · show a >>> 1 ^^^ b >>> 1 ^^^ poly = a >>> 1 ^^^ poly ^^^ b >>> 1
    rw [BitVec.xor_assoc, BitVec.xor_assoc, BitVec.xor_comm (b >>> 1) poly]
  · exact (xor_cancel _ _ _).symm

theorem iterate_shift_xor (n : Nat) (a b : BitVec w) :
    (shift poly)^[n] (a ^^^ b) = (shift poly)^[n] a ^^^ (shift poly)^[n] b := by
  induction n generalizing a b with
  | zero => rfl
  | succ n ih => rw [Function.iterate_succ_apply, shift_xor, ih]; rfl

/-- Bits that are clear leave without a trace. -/
theorem iterate_shift_of_clear {n : Nat} {x : BitVec w} (h : ∀ i < n, x.getLsbD i = false) :
    (shift poly)^[n] x = x >>> n := by
  induction n with
  | zero => simp
  | succ n ih =>
    have hlow : (x >>> n).getLsbD 0 = false := by
      simpa using h n (Nat.lt_succ_self n)
    rw [Function.iterate_succ_apply', ih fun i hi => h i (Nat.lt_succ_of_lt hi), shift, hlow,
      if_neg (by simp), BitVec.shiftRight_add]

section Table
variable (crc : BitVec w) (byte : UInt8)

theorem getLsbD_low (i : Nat) : (255#w).getLsbD i = (decide (i < w) && decide (i < 8)) := by
  rw [BitVec.getLsbD_ofNat, show 255 = 2 ^ 8 - 1 from rfl, Nat.testBit_two_pow_sub_one]

theorem widen_shift : (widen byte : BitVec w) >>> 8 = 0 := by
  apply BitVec.eq_of_getLsbD_eq
  intro i hi
  simp [widen]

/-- The low byte of a register apart from the rest. -/
theorem low_xor_high (x : BitVec w) : (x &&& 255#w) ^^^ (x &&& ~~~255#w) = x := by
  apply BitVec.eq_of_getLsbD_eq
  intro i hi
  rw [BitVec.getLsbD_xor, BitVec.getLsbD_and, BitVec.getLsbD_and, BitVec.getLsbD_not]
  cases x.getLsbD i <;> cases (255#w).getLsbD i <;> simp [hi]

/-- Eight shifts at once, by a table of 256 entries. -/
theorem next_eq_table : next poly crc byte =
    (crc >>> 8) ^^^ (shift poly)^[8] ((crc ^^^ widen byte) &&& 255#w) := by
  have hclear : ∀ i < 8, ((crc ^^^ widen byte) &&& ~~~255#w).getLsbD i = false := by
    intro i hi
    rw [BitVec.getLsbD_and, BitVec.getLsbD_not, getLsbD_low]
    by_cases hw : i < w <;> simp [hi, hw]
  have hhigh : ((crc ^^^ widen byte) &&& ~~~255#w) >>> 8 = crc >>> 8 := by
    apply BitVec.eq_of_getLsbD_eq
    intro i hi
    have hwiden := congrArg (fun x : BitVec w => x.getLsbD i) (widen_shift (w := w) byte)
    simp only [BitVec.getLsbD_ushiftRight, BitVec.ofNat_eq_ofNat, BitVec.getLsbD_zero] at hwiden
    rw [BitVec.getLsbD_ushiftRight, BitVec.getLsbD_and, BitVec.getLsbD_xor, hwiden,
      BitVec.getLsbD_not, getLsbD_low, BitVec.getLsbD_ushiftRight]
    by_cases hlt : 8 + i < w
    · simp [hlt]
    · simp [BitVec.getLsbD_of_ge crc (8 + i) (by omega)]
  rw [next]
  conv => lhs; rw [← low_xor_high (crc ^^^ widen byte)]
  rw [iterate_shift_xor, iterate_shift_of_clear hclear, hhigh, BitVec.xor_comm]

end Table

section Injective

/-- A polynomial with its highest bit set marks every step at which it was added. -/
theorem shift_injective (hpoly : poly.msb = true) : Function.Injective (shift poly) := by
  intro a b h
  apply BitVec.xor_eq_zero_iff.mp
  have hzero : shift poly (a ^^^ b) = 0#w := by rw [shift_xor, h, BitVec.xor_self]
  generalize a ^^^ b = x at hzero
  unfold shift at hzero
  split at hzero
  · have hmsb := congrArg BitVec.msb (BitVec.xor_eq_zero_iff.mp hzero)
    rw [hpoly, BitVec.msb_ushiftRight] at hmsb
    cases hmsb
  · rename_i hlow
    apply BitVec.eq_of_getLsbD_eq
    intro i hi
    cases i with
    | zero => simpa using hlow
    | succ i =>
      have hbit := congrArg (fun x : BitVec w => x.getLsbD i) hzero
      simpa [BitVec.getLsbD_ushiftRight, Nat.add_comm] using hbit

theorem next_injective (hpoly : poly.msb = true) (byte : UInt8) :
    Function.Injective fun crc => next poly crc byte := by
  intro a b h
  have hxor : a ^^^ widen byte = b ^^^ widen byte := (shift_injective hpoly).iterate 8 h
  rwa [BitVec.xor_left_inj] at hxor

/-- Two registers that differ still differ after the same bytes. -/
theorem run_injective (hpoly : poly.msb = true) (bytes : Bytes) :
    Function.Injective fun crc => run poly crc bytes := by
  induction bytes with
  | nil => exact fun _ _ h => h
  | cons byte rest ih => exact fun a b h => next_injective hpoly byte (ih h)

end Injective

section Bursts

/-- The bytes of a burst as one word, the first of them lowest. -/
def word : Bytes → BitVec w
  | [] => 0#w
  | byte :: rest => widen byte ^^^ word rest <<< 8

theorem getLsbD_word_of_ge (bytes : Bytes) {i : Nat} (h : 8 * bytes.length ≤ i) :
    (word bytes : BitVec w).getLsbD i = false := by
  induction bytes generalizing i with
  | nil => simp [word]
  | cons byte rest ih =>
    rw [List.length_cons] at h
    have hbyte : byte.toBitVec.getLsbD i = false := BitVec.getLsbD_of_ge _ _ (by omega)
    have hrest := ih (i := i - 8) (by omega)
    simp [word, widen, hbyte, hrest]

theorem word_shift (bytes : Bytes) (h : 8 * bytes.length + 8 ≤ w) :
    (word bytes : BitVec w) <<< 8 >>> 8 = word bytes := by
  apply BitVec.eq_of_getLsbD_eq
  intro i hi
  rw [BitVec.getLsbD_ushiftRight, BitVec.getLsbD_shiftLeft, Nat.add_sub_cancel_left]
  by_cases hlt : 8 + i < w
  · simp [hlt]
  · simp [hlt, getLsbD_word_of_ge (w := w) bytes (i := i) (by omega)]

/-- A burst no longer than the register is added to it at once. -/
theorem run_eq_word (crc : BitVec w) {bytes : Bytes} (h : 8 * bytes.length ≤ w) :
    run poly crc bytes = (shift poly)^[8 * bytes.length] (crc ^^^ word bytes) := by
  induction bytes generalizing crc with
  | nil => simp [run, word]
  | cons byte rest ih =>
    rw [List.length_cons] at h
    have hclear : ∀ i < 8, ((word rest : BitVec w) <<< 8).getLsbD i = false := by
      intro i hi
      simp [hi]
    have hrest : (shift poly)^[8] (word rest <<< 8) = word rest := by
      rw [iterate_shift_of_clear hclear, word_shift _ (by omega)]
    have hnext : next poly crc byte ^^^ word rest = (shift poly)^[8] (crc ^^^ word (byte :: rest)) := by
      rw [word, ← BitVec.xor_assoc, iterate_shift_xor, hrest]
      rfl
    show run poly (next poly crc byte) rest = _
    rw [ih _ (by omega), hnext, List.length_cons, Nat.mul_succ, Function.iterate_add_apply]

theorem word_injective {x y : Bytes} (hlen : x.length = y.length) (h : 8 * x.length ≤ w)
    (heq : (word x : BitVec w) = word y) : x = y := by
  induction x generalizing y with
  | nil => exact (List.eq_nil_of_length_eq_zero hlen.symm).symm
  | cons a x ih =>
    cases y with
    | nil => cases hlen
    | cons b y =>
      rw [List.length_cons] at h
      have htail : x.length = y.length := Nat.succ_inj.mp hlen
      have hlow : a = b := by
        refine UInt8.toBitVec_inj.mp (BitVec.eq_of_getLsbD_eq fun i hi => ?_)
        have hbit := congrArg (fun v : BitVec w => v.getLsbD i) heq
        simpa [word, widen, hi, show i < w by omega] using hbit
      subst hlow
      have hshifted : (word x : BitVec w) <<< 8 = word y <<< 8 := (BitVec.xor_right_inj _).mp heq
      have hrest := congrArg (fun v : BitVec w => v >>> 8) hshifted
      simp only [word_shift (w := w) x (by omega),
        word_shift (w := w) y (by omega)] at hrest
      rw [ih htail (by omega) hrest]

/-- Two different byte strings of one length that agree outside a window of `n` bytes. -/
structure Burst (start n : Nat) (x y : Bytes) : Prop where
  length : x.length = y.length
  ne : x ≠ y
  agree : ∀ i, i < start ∨ start + n ≤ i → x[i]? = y[i]?

variable {start n : Nat} {x y : Bytes}

theorem burst_set {i : Nat} {byte byte' : UInt8} (hbyte : x[i]? = some byte) (hne : byte ≠ byte')
    (hwindow : start ≤ i ∧ i < start + n) : Burst start n x (x.set i byte') := by
  obtain ⟨hi, -⟩ := List.getElem?_eq_some_iff.mp hbyte
  refine ⟨List.length_set.symm, fun heq => ?_, fun j hj => ?_⟩
  · rw [heq, List.getElem?_set_self hi] at hbyte
    exact hne (Option.some.inj hbyte).symm
  · exact (List.getElem?_set_ne (by omega)).symm

/-- What is common to both stands before and behind the window. -/
theorem Burst.parts (h : Burst start n x y) : ∃ before u v behind,
    x = before ++ (u ++ behind) ∧ y = before ++ (v ++ behind) ∧ u.length = v.length ∧
      u.length ≤ n ∧ u ≠ v := by
  have hbefore : x.take start = y.take start := by
    apply List.ext_getElem?
    intro i
    by_cases hi : i < start
    · simp only [List.getElem?_take, hi, if_true, h.agree i (.inl hi)]
    · simp [hi]
  have hbehind : (x.drop start).drop n = (y.drop start).drop n := by
    apply List.ext_getElem?
    intro i
    simp only [List.getElem?_drop, ← Nat.add_assoc, h.agree (start + n + i) (.inr (by omega))]
  have hlen : ((x.drop start).take n).length = ((y.drop start).take n).length := by
    simp [h.length]
  have hx : x = x.take start ++ ((x.drop start).take n ++ (x.drop start).drop n) := by simp
  have hy : y = x.take start ++ ((y.drop start).take n ++ (x.drop start).drop n) := by
    rw [hbefore, hbehind]
    simp
  refine ⟨_, _, _, _, hx, hy, hlen, List.length_take_le _ _, fun hmid => h.ne ?_⟩
  rw [hmid] at hx
  exact hx.trans hy.symm

/-- No burst that fits the register goes undetected. -/
theorem run_ne_of_burst (hpoly : poly.msb = true) (hn : 8 * n ≤ w) (h : Burst start n x y)
    (crc : BitVec w) : run poly crc x ≠ run poly crc y := by
  obtain ⟨before, u, v, behind, rfl, rfl, hlen, hle, hne⟩ := h.parts
  have hu : 8 * u.length ≤ w := by omega
  have hv : 8 * v.length ≤ w := by omega
  intro heq
  simp only [run, List.foldl_append] at heq
  have hmid : run poly (run poly crc before) u = run poly (run poly crc before) v :=
    run_injective hpoly behind heq
  rw [run_eq_word _ hu, run_eq_word _ hv, hlen] at hmid
  have hword := (shift_injective hpoly).iterate _ hmid
  exact hne (word_injective hlen hu ((BitVec.xor_right_inj _).mp hword))

end Bursts

end Crc
