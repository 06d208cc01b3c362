import SuperVoice.Lib.Codec
import SuperVoice.Lib.LittleEndian

/-! `ByteReader` and `ByteWriter` of the shared code. A template over unsigned types is one
definition over the number of their bytes. -/
namespace SuperVoice.Common
open Codec LittleEndian

inductive Fault where
  /-- `std::out_of_range`. -/
  | outOfRange
  /-- `std::runtime_error`. -/
  | runtimeError
  /-- A byte outside the buffer is accessed. -/
  | undefined
  deriving DecidableEq

/-- `std::array<std::uint8_t, n>`. -/
structure FixedBytes (n : Nat) where
  bytes : Bytes
  length_eq : bytes.length = n
  deriving DecidableEq

/-- Value initialisation of an array. -/
def FixedBytes.zero (n : Nat) : FixedBytes n := ⟨List.replicate n 0, List.length_replicate⟩

/-- `std::copy` to the beginning of an array, undefined past its end. -/
def FixedBytes.copy {n : Nat} (array : FixedBytes n) (bytes : Bytes) :
    Except Fault (FixedBytes n) :=
  if h : bytes.length ≤ n then
    .ok ⟨bytes ++ array.bytes.drop bytes.length, by
      rw [List.length_append, List.length_drop, array.length_eq]
      omega⟩
  else .error .undefined

theorem FixedBytes.copy_eq {n : Nat} (array : FixedBytes n) {bytes : Bytes}
    (h : bytes.length = n) : array.copy bytes = .ok ⟨bytes, h⟩ := by
  unfold copy
  rw [dif_pos (Nat.le_of_eq h)]
  have hdrop : array.bytes.drop bytes.length = [] :=
    List.drop_eq_nil_of_le (Nat.le_of_eq (array.length_eq.trans h.symm))
  simp [hdrop]

/-- Bytes written over those from an offset on. -/
def FixedBytes.write {n : Nat} (array : FixedBytes n) (offset : Nat) (bytes : Bytes)
    (h : offset + bytes.length ≤ n) : FixedBytes n :=
  ⟨array.bytes.take offset ++ bytes ++ array.bytes.drop (offset + bytes.length), by
    simp only [List.length_append, List.length_take, List.length_drop, array.length_eq]
    omega⟩

theorem FixedBytes.write_append {n : Nat} {array : FixedBytes n} {front rest : Bytes} (offset : Nat)
    (bytes : Bytes) (harray : array.bytes = front ++ rest) (hfront : front.length = offset)
    (h : offset + bytes.length ≤ n) :
    (array.write offset bytes h).bytes = front ++ bytes ++ rest.drop bytes.length := by
  show array.bytes.take offset ++ bytes ++ array.bytes.drop (offset + bytes.length) = _
  rw [harray, List.take_left' hfront, ← List.drop_drop, List.drop_left' hfront]

def lowByte {n : Nat} (value : BitVec n) : UInt8 := .ofBitVec ((value &&& 255#n).setWidth 8)

def writeU32Le {n : Nat} (value : BitVec 32) (out : FixedBytes n) (offset : Nat)
    (h : offset + 4 ≤ n) : FixedBytes n :=
  out.write offset
    [lowByte value, lowByte (value >>> 8), lowByte (value >>> 16), lowByte (value >>> 24)] h

def writeU64Le {n : Nat} (value : BitVec 64) (out : FixedBytes n) (offset : Nat)
    (h : offset + 8 ≤ n) : FixedBytes n :=
  out.write offset ((List.range 8).map fun i => lowByte (value >>> (8 * i))) h

theorem lowByte_eq {n : Nat} (value : BitVec n) : lowByte value = .ofBitVec (value.setWidth 8) := by
  refine UInt8.toBitVec_inj.mp (BitVec.eq_of_getLsbD_eq fun i hi => ?_)
  have hlow : (255#n).getLsbD i = decide (i < n) := by
    rw [BitVec.getLsbD_ofNat, show 255 = 2 ^ 8 - 1 from rfl, Nat.testBit_two_pow_sub_one]
    simp [hi]
  by_cases hlt : i < n
  · simp [lowByte, hlow, hlt, hi]
  · simp [lowByte, hlow, hlt, BitVec.getLsbD_of_ge value i (Nat.le_of_not_lt hlt)]

section WriteLe
variable {n : Nat} {out : FixedBytes n} {front rest : Bytes}

/-- Both families of helpers write a value in the same order. -/
theorem writeU32Le_append (value : BitVec 32) (offset : Nat) (hout : out.bytes = front ++ rest)
    (hfront : front.length = offset) (h : offset + 4 ≤ n) :
    (writeU32Le value out offset h).bytes = front ++ toBytes (w := 4) value ++ rest.drop 4 := by
  have hbytes : [lowByte value, lowByte (value >>> 8), lowByte (value >>> 16),
      lowByte (value >>> 24)] = toBytes (w := 4) value := by
    simp [toBytes, byteOf, lowByte_eq, List.range_succ]
  rw [← hbytes]
  exact FixedBytes.write_append offset [_, _, _, _] hout hfront h

theorem writeU64Le_append (value : BitVec 64) (offset : Nat) (hout : out.bytes = front ++ rest)
    (hfront : front.length = offset) (h : offset + 8 ≤ n) :
    (writeU64Le value out offset h).bytes = front ++ toBytes (w := 8) value ++ rest.drop 8 := by
  have hbytes : ((List.range 8).map fun i => lowByte (value >>> (8 * i))) =
      toBytes (w := 8) value := by
    simp only [toBytes, lowByte_eq]
    rfl
  rw [← hbytes]
  exact FixedBytes.write_append offset (.map _ (List.range 8)) hout hfront h

end WriteLe

def access (buffer : Bytes) (i : Nat) : Except Fault UInt8 :=
  match buffer[i]? with
  | some byte => .ok byte
  | none => .error .undefined

theorem access_cons (byte : UInt8) (buffer : Bytes) : access (byte :: buffer) 0 = .ok byte := rfl

def toLeArray (w : Nat) (value : BitVec (8 * w)) : Bytes := toBytes value

def readLe (w : Nat) (buffer : Bytes) (offset : Nat) : Except Fault (BitVec (8 * w)) :=
  if buffer.length < offset + w then .error .outOfRange
  else
    (List.range w).foldlM (fun value i => do
      let byte ← access buffer (offset + i)
      return value ||| byte.toBitVec.setWidth (8 * w) <<< (8 * i)) 0

structure ByteReader where
  data : Bytes
  offset : Nat

namespace ByteReader

abbrev Reads (α : Type) := StateT ByteReader (Except Fault) α

def remaining (r : ByteReader) : Nat := r.data.length - r.offset

def read (w : Nat) : Reads (BitVec (8 * w)) := fun r => do
  let value ← readLe w r.data r.offset
  return (value, { r with offset := r.offset + w })

/-- `subspan` is undefined for a range outside the span. -/
def subspan (data : Bytes) (offset length : Nat) : Except Fault Bytes :=
  if offset + length ≤ data.length then .ok ((data.drop offset).take length)
  else .error .undefined

def readBytes (length : Nat) : Reads Bytes := fun r =>
  if r.remaining < length then .error .outOfRange
  else do
    let result ← subspan r.data r.offset length
    return (result, { r with offset := r.offset + length })

/-- The reader's position lies in its span, and nothing outside of it may be accessed. -/
def input : Input ByteReader UInt8 Fault where
  rest r := r.data.drop r.offset
  valid r := r.offset ≤ r.data.length
  forbidden fault := fault = .undefined

end ByteReader

/-- The loop of `read_le` inside the buffer. -/
theorem readLe_of_le {w : Nat} {buffer : Bytes} {offset : Nat} (h : offset + w ≤ buffer.length) :
    readLe w buffer offset = .ok (combine w (fun i => (buffer.drop offset).getD i 0) w) := by
  rw [readLe, if_neg (Nat.not_lt_of_le h)]
  have hloop : ∀ n ≤ w, (List.range n).foldlM (fun value i => do
      let byte ← access buffer (offset + i)
      return value ||| byte.toBitVec.setWidth (8 * w) <<< (8 * i)) 0 =
        (.ok (combine w (fun i => (buffer.drop offset).getD i 0) n) : Except Fault _) := by
    intro n
    induction n with
    | zero => exact fun _ => rfl
    | succ n ih =>
      intro hn
      have hlt : offset + n < buffer.length := by omega
      have hbyte : access buffer (offset + n) = .ok ((buffer.drop offset).getD n 0) := by
        simp [access, hlt]
      rw [List.range_succ, List.foldlM_append, ih (by omega), combine_succ]
      show (access buffer (offset + n) >>= _) >>= _ = _
      rw [hbyte]
      rfl
  exact hloop w (Nat.le_refl w)

namespace ByteReader

theorem read_eq {w : Nat} {r : ByteReader} (h : r.offset + w ≤ r.data.length) : read w r =
    .ok (combine w (fun i => (r.data.drop r.offset).getD i 0) w, ⟨r.data, r.offset + w⟩) := by
  rw [read, readLe_of_le h]
  rfl

theorem read_of_lt {w : Nat} {r : ByteReader} (h : r.data.length < r.offset + w) :
    read w r = .error .outOfRange := by
  rw [read, readLe, if_pos h]
  rfl

/-- A read of the reader is a read at its offset, which then moves on. -/
theorem bind_read {α β : Type} (w : Nat) (r : ByteReader) (k : BitVec (8 * w) → Reads α)
    (f : α × ByteReader → Except Fault β) : ((read w >>= k) r >>= f) =
      readLe w r.data r.offset >>= fun value => k value ⟨r.data, r.offset + w⟩ >>= f := by
  show ((readLe w r.data r.offset >>= fun value => .ok (value, _)) >>= fun p => k p.1 p.2) >>= f = _
  cases readLe w r.data r.offset <;> rfl

theorem inverts_read (w : Nat) : Inverts input (read w) (toLeArray w) fun _ => True where
  complete r value t hr _ hrest := by
    have hr : r.offset ≤ r.data.length := hr
    have hrest : r.data.drop r.offset = toBytes value ++ t := hrest
    have hlen := congrArg List.length hrest
    rw [List.length_drop, List.length_append, length_toBytes] at hlen
    refine ⟨⟨r.data, r.offset + w⟩, ?_, ?_, ?_⟩
    · rw [read_eq (by omega), hrest, combine_toBytes]
    · show r.offset + w ≤ r.data.length
      omega
    · show r.data.drop (r.offset + w) = t
      rw [← List.drop_drop, hrest]
      exact List.drop_left' (length_toBytes value)
  sound r value r' hr h := by
    by_cases hlt : r.data.length < r.offset + w
    · rw [read_of_lt hlt] at h
      cases h
    · have hle := Nat.le_of_not_lt hlt
      rw [read_eq hle] at h
      cases h
      refine ⟨trivial, hle, ?_⟩
      show r.data.drop r.offset = toBytes _ ++ r.data.drop (r.offset + w)
      rw [toBytes_combine (by rw [List.length_drop]; omega), ← List.drop_drop,
        List.take_append_drop]
  safe r fault hr h := by
    by_cases hlt : r.data.length < r.offset + w
    · rw [read_of_lt hlt] at h
      cases h
      exact nofun
    · rw [read_eq (Nat.le_of_not_lt hlt)] at h
      cases h

theorem readBytes_eq {n : Nat} {r : ByteReader} (h : r.offset + n ≤ r.data.length) :
    readBytes n r = .ok ((r.data.drop r.offset).take n, ⟨r.data, r.offset + n⟩) := by
  rw [readBytes, if_neg (by simp only [remaining]; omega), subspan, if_pos h]
  rfl

theorem readBytes_of_lt {n : Nat} {r : ByteReader} (hr : r.offset ≤ r.data.length)
    (h : r.data.length < r.offset + n) : readBytes n r = .error .outOfRange :=
  if_pos (by simp only [remaining]; omega)

theorem inverts_readBytes (n : Nat) :
    Inverts input (readBytes n) (fun bytes => bytes) fun bytes => bytes.length = n where
  complete r bytes t hr hn hrest := by
    have hr : r.offset ≤ r.data.length := hr
    have hrest : r.data.drop r.offset = bytes ++ t := hrest
    have hlen := congrArg List.length hrest
    rw [List.length_drop, List.length_append, hn] at hlen
    refine ⟨⟨r.data, r.offset + n⟩, ?_, ?_, ?_⟩
    · rw [readBytes_eq (by omega), hrest, List.take_left' hn]
    · show r.offset + n ≤ r.data.length
      omega
    · show r.data.drop (r.offset + n) = t
      rw [← List.drop_drop, hrest]
      exact List.drop_left' hn
  sound r bytes r' hr h := by
    by_cases hlt : r.data.length < r.offset + n
    · rw [readBytes_of_lt hr hlt] at h
      cases h
    · have hle := Nat.le_of_not_lt hlt
      rw [readBytes_eq hle] at h
      cases h
      refine ⟨List.length_take_of_le (by rw [List.length_drop]; omega), hle, ?_⟩
      show r.data.drop r.offset = _ ++ r.data.drop (r.offset + n)
      rw [← List.drop_drop, List.take_append_drop]
  safe r fault hr h := by
    by_cases hlt : r.data.length < r.offset + n
    · rw [readBytes_of_lt hr hlt] at h
      cases h
      exact nofun
    · rw [readBytes_eq (Nat.le_of_not_lt hlt)] at h
      cases h

end ByteReader

/-- What `ByteWriter` has written. -/
structure ByteWriter where
  buffer : Bytes := []

namespace ByteWriter

def write (w : Nat) (writer : ByteWriter) (value : BitVec (8 * w)) : ByteWriter :=
  ⟨writer.buffer ++ toLeArray w value⟩

def writeBytes (writer : ByteWriter) (bytes : Bytes) : ByteWriter := ⟨writer.buffer ++ bytes⟩

end ByteWriter
end SuperVoice.Common
