import SuperVoice.Lib.Crc

/-! The table-driven `Crc32` of the shared code. -/
namespace SuperVoice.Common

def crc32Polynomial : UInt32 := 0xEDB88320

/-- The body of the loop in `crc32_table_entry`. -/
def crc32TableStep (crc : UInt32) : UInt32 :=
  if crc &&& 1 ≠ 0 then (crc >>> 1) ^^^ crc32Polynomial else crc >>> 1

def crc32TableEntry (index : UInt32) : UInt32 := crc32TableStep^[8] index

def crc32Table : Vector UInt32 256 := .ofFn fun i => crc32TableEntry (.ofNat i)

/-- The low byte of a register, an index into the table. -/
def crc32Index (crc : UInt32) : Fin 256 :=
  ⟨(crc &&& 0xFF).toNat, by
    rw [UInt32.toNat_and]
    exact Nat.lt_of_le_of_lt Nat.and_le_right (by decide)⟩

structure Crc32 where
  crc : UInt32 := 0xFFFFFFFF
  deriving DecidableEq

namespace Crc32

def update (hasher : Crc32) (data : Bytes) : Crc32 :=
  ⟨data.foldl (fun crc byte =>
    (crc >>> 8) ^^^ crc32Table.get (crc32Index (crc ^^^ byte.toUInt32))) hasher.crc⟩

def value (hasher : Crc32) : UInt32 := hasher.crc ^^^ 0xFFFFFFFF

end Crc32

def crc32 (data : Bytes) : UInt32 := (Crc32.update {} data).value

theorem and_one_eq_zero_iff (crc : UInt32) : crc &&& 1 = 0 ↔ crc.toBitVec.getLsbD 0 = false := by
  rw [← UInt32.toBitVec_inj, UInt32.toBitVec_and]
  show crc.toBitVec &&& 1#32 = 0#32 ↔ _
  rw [BitVec.and_one_eq_setWidth_ofBool_getLsbD]
  cases crc.toBitVec.getLsbD 0 <;> decide

theorem toBitVec_crc32TableStep (crc : UInt32) :
    (crc32TableStep crc).toBitVec = Crc.shift crc32Polynomial.toBitVec crc.toBitVec := by
  unfold crc32TableStep Crc.shift
  cases hlow : crc.toBitVec.getLsbD 0 with
  | false => rw [if_neg (not_not_intro ((and_one_eq_zero_iff crc).mpr hlow)), if_neg nofun]; rfl
  | true =>
    have hne : crc &&& 1 ≠ 0 := fun h => by
      rw [(and_one_eq_zero_iff crc).mp h] at hlow
      cases hlow
    rw [if_pos hne, if_pos rfl]
    rfl

theorem toBitVec_crc32TableEntry (index : UInt32) : (crc32TableEntry index).toBitVec =
    (Crc.shift crc32Polynomial.toBitVec)^[8] index.toBitVec :=
  (show Function.Semiconj UInt32.toBitVec _ _ from toBitVec_crc32TableStep).iterate_right 8 index

namespace Crc32

/-- One table lookup is the eight shifts of a byte. -/
theorem toBitVec_lookup (crc : UInt32) (byte : UInt8) :
    ((crc >>> 8) ^^^ crc32Table.get (crc32Index (crc ^^^ byte.toUInt32))).toBitVec =
      Crc.next crc32Polynomial.toBitVec crc.toBitVec byte := by
  have hentry : crc32Table.get (crc32Index (crc ^^^ byte.toUInt32)) =
      crc32TableEntry ((crc ^^^ byte.toUInt32) &&& 0xFF) :=
    (Vector.getElem_ofFn _).trans (congrArg crc32TableEntry UInt32.ofNat_toNat)
  rw [Crc.next_eq_table, hentry, UInt32.toBitVec_xor, toBitVec_crc32TableEntry]
  rfl

theorem toBitVec_update (hasher : Crc32) (data : Bytes) : (hasher.update data).crc.toBitVec =
    Crc.run crc32Polynomial.toBitVec hasher.crc.toBitVec data := by
  obtain ⟨crc⟩ := hasher
  induction data generalizing crc with
  | nil => rfl
  | cons byte rest ih =>
    have hstep := ih ((crc >>> 8) ^^^ crc32Table.get (crc32Index (crc ^^^ byte.toUInt32)))
    rw [toBitVec_lookup] at hstep
    exact hstep

theorem update_append (hasher : Crc32) (x y : Bytes) :
    hasher.update (x ++ y) = (hasher.update x).update y := by
  simp [update, List.foldl_append]

/-- Only the bytes count, not how they are cut into calls. -/
theorem foldl_update (hasher : Crc32) (pieces : List Bytes) :
    pieces.foldl update hasher = hasher.update pieces.flatten := by
  induction pieces generalizing hasher with
  | nil => rfl
  | cons piece rest ih => rw [List.foldl_cons, ih, List.flatten_cons, update_append]

end Crc32

theorem msb_crc32Polynomial : crc32Polynomial.toBitVec.msb = true := by decide

theorem crc32_ne_of_burst {start : Nat} {x y : Bytes} (h : Crc.Burst start 4 x y) : crc32 x ≠ crc32 y := by
  intro heq
  have hcrc : (Crc32.update {} x).crc = (Crc32.update {} y).crc := UInt32.xor_left_inj _ |>.mp heq
  have hrun := congrArg UInt32.toBitVec hcrc
  rw [Crc32.toBitVec_update, Crc32.toBitVec_update] at hrun
  exact Crc.run_ne_of_burst msb_crc32Polynomial (by decide) h _ hrun

end SuperVoice.Common
