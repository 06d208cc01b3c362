import SuperVoice.Lib.Bytes

/-! Unsigned values as byte strings, the least significant byte first. -/
namespace LittleEndian
variable {w : Nat}

/-- Byte `i` of a value of `w` bytes. -/
def byteOf (v : BitVec (8 * w)) (i : Nat) : UInt8 := .ofBitVec ((v >>> (8 * i)).setWidth 8)

def toBytes (v : BitVec (8 * w)) : Bytes := (List.range w).map (byteOf v)

/-- The value put together from the first `n` of the bytes `byte 0`, `byte 1`, … -/
def combine (w : Nat) (byte : Nat → UInt8) (n : Nat) : BitVec (8 * w) :=
  (List.range n).foldl (fun v i => v ||| (byte i).toBitVec.setWidth (8 * w) <<< (8 * i)) 0

theorem combine_succ (byte : Nat → UInt8) (n : Nat) : combine w byte (n + 1) =
    combine w byte n ||| (byte n).toBitVec.setWidth (8 * w) <<< (8 * n) := by
  rw [combine, List.range_succ, List.foldl_append]
  rfl

theorem combine_congr {f g : Nat → UInt8} {n : Nat} (h : ∀ i < n, f i = g i) :
    combine w f n = combine w g n := by
  induction n with
  | zero => rfl
  | succ n ih =>
    rw [combine_succ, combine_succ, ih fun i hi => h i (by omega), h n (by omega)]

theorem getLsbD_combine (byte : Nat → UInt8) (n j : Nat) : (combine w byte n).getLsbD j =
    (decide (j < 8 * n) && (decide (j < 8 * w) && (byte (j / 8)).toBitVec.getLsbD (j % 8))) := by
  induction n with
  | zero => simp [combine]
  | succ n ih =>
    rw [combine_succ, BitVec.getLsbD_or, ih, BitVec.getLsbD_shiftLeft, BitVec.getLsbD_setWidth]
    by_cases hlow : j < 8 * n
    · simp [hlow, show j < 8 * (n + 1) by omega]
    · by_cases hbyte : j < 8 * (n + 1)
      · have hdiv : j / 8 = n := by omega
        have hmod : j % 8 = j - 8 * n := by omega
        by_cases hw : j < 8 * w
        · simp [hlow, hbyte, hw, hdiv, hmod, show j - 8 * n < 8 * w by omega]
        · simp [hlow, hw]
      · have hhigh : (byte n).toBitVec.getLsbD (j - 8 * n) = false :=
          BitVec.getLsbD_of_ge _ _ (by omega)
        simp [hlow, hbyte, hhigh]

theorem getLsbD_byteOf (v : BitVec (8 * w)) (i k : Nat) :
    (byteOf v i).toBitVec.getLsbD k = (decide (k < 8) && v.getLsbD (8 * i + k)) := by
  simp [byteOf]

theorem combine_byteOf (v : BitVec (8 * w)) : combine w (byteOf v) w = v := by
  apply BitVec.eq_of_getLsbD_eq
  intro j hj
  rw [getLsbD_combine, getLsbD_byteOf, Nat.div_add_mod]
  simp [hj, Nat.mod_lt]

theorem byteOf_combine (byte : Nat → UInt8) {i : Nat} (hi : i < w) :
    byteOf (combine w byte w) i = byte i := by
  refine UInt8.toBitVec_inj.mp (BitVec.eq_of_getLsbD_eq fun k hk => ?_)
  have hdiv : (8 * i + k) / 8 = i := by omega
  have hmod : (8 * i + k) % 8 = k := by omega
  have hlt : 8 * i + k < 8 * w := by omega
  rw [getLsbD_byteOf, getLsbD_combine, hdiv, hmod]
  simp [hk, hlt]

theorem length_toBytes (v : BitVec (8 * w)) : (toBytes v).length = w := by
  rw [toBytes, List.length_map, List.length_range]

/-- A value is put together from its bytes, whatever follows them. -/
theorem combine_toBytes (v : BitVec (8 * w)) (t : Bytes) :
    combine w (fun i => (toBytes v ++ t).getD i 0) w = v := by
  refine Eq.trans (combine_congr fun i hi => ?_) (combine_byteOf v)
  have hlt : i < (toBytes v).length := by rwa [length_toBytes]
  rw [List.getD_eq_getElem?_getD, List.getElem?_append_left hlt]
  simp [toBytes, hi]

theorem toBytes_injective : Function.Injective (toBytes (w := w)) := by
  intro v v' h
  rw [← combine_toBytes v [], h, combine_toBytes]

theorem toBytes_combine {l : Bytes} (h : w ≤ l.length) :
    toBytes (combine w (fun i => l.getD i 0) w) = l.take w := by
  have hlen : (l.take w).length = w := List.length_take_of_le h
  apply List.ext_getElem ((length_toBytes _).trans hlen.symm)
  intro i hi hi'
  have hiw : i < w := hlen ▸ hi'
  simp [toBytes, byteOf_combine _ hiw, Nat.lt_of_lt_of_le hiw h]

end LittleEndian
