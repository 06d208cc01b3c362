import SuperVoice.Common.Bytes
import SuperVoice.Common.Crc32

/-! `PatchHeader`: a record of 40 bytes with a checksum over itself, its own field zeroed. -/
namespace SuperVoice.Common
open Codec LittleEndian ByteReader

structure PatchHeader where
  version : BitVec 32 := 1
  headerSize : BitVec 32 := 40
  fileId : BitVec 64 := 0
  totalPatches : BitVec 32 := 0
  patchIndex : BitVec 32 := 0
  payloadSize : BitVec 32 := 0
  headerCrc32 : BitVec 32 := 0
  payloadCrc32 : BitVec 32 := 0
  deriving DecidableEq

namespace PatchHeader

def encodedSize : Nat := 40

def magic : Bytes := Bytes.ascii "SVP1"

@[simp] theorem length_magic : magic.length = 4 := rfl

def serialize (header : PatchHeader) (includeHeaderCrc : Bool) : FixedBytes encodedSize :=
  let out := (FixedBytes.zero encodedSize).write 0 magic (by decide)
  let out := writeU32Le header.version out 4 (by decide)
  let out := writeU32Le header.headerSize out 8 (by decide)
  let out := writeU64Le header.fileId out 12 (by decide)
  let out := writeU32Le header.totalPatches out 20 (by decide)
  let out := writeU32Le header.patchIndex out 24 (by decide)
  let out := writeU32Le header.payloadSize out 28 (by decide)
  let headerCrc := if includeHeaderCrc then header.headerCrc32 else 0
  let out := writeU32Le headerCrc out 32 (by decide)
  writeU32Le header.payloadCrc32 out 36 (by decide)

def computeHeaderCrc32 (header : PatchHeader) : BitVec 32 :=
  (crc32 (header.serialize false).bytes).toBitVec

def validate (header : PatchHeader) : Except Fault Unit :=
  if header.version ≠ 1 then .error .runtimeError
  else if header.headerSize ≠ 40 then .error .runtimeError
  else return ()

/-- The checks on a header that has been read. -/
def check (header : PatchHeader) : Except Fault PatchHeader := do
  header.validate
  if header.computeHeaderCrc32 ≠ header.headerCrc32 then .error .runtimeError else return header

def deserialize (data : Bytes) : Except Fault PatchHeader :=
  if data.length < encodedSize then .error .runtimeError
  else if data.take 4 ≠ magic then .error .runtimeError
  else do
    let version ← readLe 4 data 4
    let headerSize ← readLe 4 data 8
    let fileId ← readLe 8 data 12
    let totalPatches ← readLe 4 data 20
    let patchIndex ← readLe 4 data 24
    let payloadSize ← readLe 4 data 28
    let headerCrc32 ← readLe 4 data 32
    let payloadCrc32 ← readLe 4 data 36
    check ⟨version, headerSize, fileId, totalPatches, patchIndex, payloadSize, headerCrc32,
      payloadCrc32⟩

end PatchHeader

def encodePatchHeader (header : PatchHeader) : FixedBytes PatchHeader.encodedSize :=
  let out := header.serialize true
  let expectedCrc := header.computeHeaderCrc32
  if expectedCrc ≠ header.headerCrc32 then
    { header with headerCrc32 := expectedCrc }.serialize true
  else out

namespace PatchHeader
variable {header : PatchHeader} {data : Bytes}

/-- The record field by field. -/
def fields (header : PatchHeader) : Bytes :=
  magic ++ toBytes (w := 4) header.version ++ toBytes (w := 4) header.headerSize ++
    toBytes (w := 8) header.fileId ++ toBytes (w := 4) header.totalPatches ++
    toBytes (w := 4) header.patchIndex ++ toBytes (w := 4) header.payloadSize ++
    toBytes (w := 4) header.headerCrc32 ++ toBytes (w := 4) header.payloadCrc32

theorem length_fields (header : PatchHeader) : header.fields.length = encodedSize := by
  simp [fields, length_toBytes, encodedSize]

/-- Outside its own field the checksum leaves no trace. -/
theorem fields_of_outside (header : PatchHeader) (crc : BitVec 32) {i : Nat}
    (h : i < 32 ∨ 36 ≤ i) : { header with headerCrc32 := crc }.fields[i]? = header.fields[i]? := by
  simp only [fields, List.getElem?_append, List.length_append, length_toBytes, length_magic]
  split
  · split
    · rfl
    · omega
  · rfl

theorem fields_of_inside (header : PatchHeader) {i : Nat} (h : 32 ≤ i ∧ i < 36) :
    header.fields[i]? = (toBytes (w := 4) header.headerCrc32)[i - 32]? := by
  simp only [fields, List.getElem?_append, List.length_append, length_toBytes, length_magic]
  rw [if_pos (by omega), if_neg (by omega)]

theorem serialize_bytes (header : PatchHeader) : (header.serialize true).bytes = header.fields := by
  have h0 : (FixedBytes.zero encodedSize).bytes = [] ++ List.replicate 40 0 := rfl
  have h1 := FixedBytes.write_append 0 magic h0 rfl (by decide)
  have h2 := writeU32Le_append header.version 4 h1 (by simp) (by decide)
  have h3 := writeU32Le_append header.headerSize 8 h2 (by simp [length_toBytes]) (by decide)
  have h4 := writeU64Le_append header.fileId 12 h3 (by simp [length_toBytes]) (by decide)
  have h5 := writeU32Le_append header.totalPatches 20 h4 (by simp [length_toBytes]) (by decide)
  have h6 := writeU32Le_append header.patchIndex 24 h5 (by simp [length_toBytes]) (by decide)
  have h7 := writeU32Le_append header.payloadSize 28 h6 (by simp [length_toBytes]) (by decide)
  have h8 := writeU32Le_append header.headerCrc32 32 h7 (by simp [length_toBytes]) (by decide)
  have h9 := writeU32Le_append header.payloadCrc32 36 h8 (by simp [length_toBytes]) (by decide)
  apply h9.trans
  simp [fields]

/-- What follows the magic. -/
def tail (header : PatchHeader) : Bytes :=
  toBytes (w := 4) header.version ++ (toBytes (w := 4) header.headerSize ++
    (toBytes (w := 8) header.fileId ++ (toBytes (w := 4) header.totalPatches ++
    (toBytes (w := 4) header.patchIndex ++ (toBytes (w := 4) header.payloadSize ++
    (toBytes (w := 4) header.headerCrc32 ++ (toBytes (w := 4) header.payloadCrc32 ++ [])))))))

theorem fields_eq (header : PatchHeader) : header.fields = magic ++ header.tail := by
  simp [fields, tail]

/-- The reads of `deserialize`, one behind the other. -/
def readFields : Reads PatchHeader := do
  let version ← read 4
  let headerSize ← read 4
  let fileId ← read 8
  let totalPatches ← read 4
  let patchIndex ← read 4
  let payloadSize ← read 4
  let headerCrc32 ← read 4
  let payloadCrc32 ← read 4
  return ⟨version, headerSize, fileId, totalPatches, patchIndex, payloadSize, headerCrc32,
    payloadCrc32⟩

theorem deserialize_eq {data : Bytes} (hsize : encodedSize ≤ data.length)
    (hmagic : data.take 4 = magic) :
    deserialize data = readFields ⟨data, 4⟩ >>= fun p => p.1.check := by
  rw [deserialize, if_neg (Nat.not_lt_of_le hsize), if_neg (not_not_intro hmagic)]
  simp only [readFields, ByteReader.bind_read]
  rfl

theorem inverts_readFields : Inverts input readFields tail fun _ => True := by
  refine (inverts_read 4).bind version (fun version _ => ?_) fun _ _ => trivial
  refine (inverts_read 4).bind headerSize (fun headerSize _ => ?_) fun _ _ => trivial
  refine (inverts_read 8).bind fileId (fun fileId _ => ?_) fun _ _ => trivial
  refine (inverts_read 4).bind totalPatches (fun totalPatches _ => ?_) fun _ _ => trivial
  refine (inverts_read 4).bind patchIndex (fun patchIndex _ => ?_) fun _ _ => trivial
  refine (inverts_read 4).bind payloadSize (fun payloadSize _ => ?_) fun _ _ => trivial
  refine (inverts_read 4).bind PatchHeader.headerCrc32 (fun headerCrc32 _ => ?_) fun _ _ => trivial
  refine (inverts_read 4).bind payloadCrc32 (fun payloadCrc32 _ => ?_) fun _ _ => trivial
  apply inverts_pure _
  intro header
  constructor
  · intro h
    obtain ⟨⟨⟨⟨⟨⟨⟨⟨-, rfl⟩, rfl⟩, rfl⟩, rfl⟩, rfl⟩, rfl⟩, rfl⟩, rfl⟩ := h
    rfl
  · intro h
    subst h
    exact ⟨⟨⟨⟨⟨⟨⟨⟨trivial, rfl⟩, rfl⟩, rfl⟩, rfl⟩, rfl⟩, rfl⟩, rfl⟩, rfl⟩

theorem check_eq_ok {header' : PatchHeader} : header.check = .ok header' ↔ header = header' ∧
    header.version = 1 ∧ header.headerSize = 40 ∧
      header.headerCrc32 = header.computeHeaderCrc32 := by
  unfold check validate
  by_cases hversion : header.version = 1
  swap
  · rw [if_pos hversion]
    exact ⟨nofun, fun h => absurd h.2.1 hversion⟩
  by_cases hsize : header.headerSize = 40
  swap
  · rw [if_neg (not_not_intro hversion), if_pos hsize]
    exact ⟨nofun, fun h => absurd h.2.2.1 hsize⟩
  rw [if_neg (not_not_intro hversion), if_neg (not_not_intro hsize), pure_bind]
  by_cases hcrc : header.computeHeaderCrc32 = header.headerCrc32
  · rw [if_neg (not_not_intro hcrc)]
    exact ⟨fun h => ⟨Except.ok.inj h, hversion, hsize, hcrc.symm⟩, fun h => congrArg _ h.1⟩
  · rw [if_pos hcrc]
    exact ⟨nofun, fun h => absurd h.2.2.2.symm hcrc⟩

/-- What `deserialize` returns stands at the front of the data, and passes its checks. -/
theorem deserialize_eq_ok : deserialize data = .ok header ↔ encodedSize ≤ data.length ∧
    data.take encodedSize = header.fields ∧ header.version = 1 ∧ header.headerSize = 40 ∧
      header.headerCrc32 = header.computeHeaderCrc32 := by
  by_cases hsize : encodedSize ≤ data.length
  swap
  · rw [deserialize, if_pos (Nat.lt_of_not_le hsize)]
    simp [hsize]
  have hvalid : input.valid ⟨data, 4⟩ := Nat.le_trans (show 4 ≤ encodedSize by decide) hsize
  by_cases hmagic : data.take 4 = magic
  swap
  · rw [deserialize, if_neg (Nat.not_lt_of_le hsize), if_pos hmagic]
    refine ⟨nofun, fun h => absurd ?_ hmagic⟩
    have hfour := congrArg (List.take 4) h.2.1
    rwa [List.take_take, fields_eq, List.take_left' length_magic] at hfour
  rw [deserialize_eq hsize hmagic]
  constructor
  · intro h
    cases hread : readFields ⟨data, 4⟩ with
    | error fault =>
      rw [hread] at h
      cases h
    | ok p =>
      rw [hread] at h
      obtain ⟨rfl, hchecks⟩ := check_eq_ok.mp h
      obtain ⟨-, -, hrest⟩ := inverts_readFields.sound _ p.1 p.2 hvalid hread
      have hdata : data = p.1.fields ++ p.2.data.drop p.2.offset := by
        have hdrop : data.drop 4 = p.1.tail ++ p.2.data.drop p.2.offset := hrest
        rw [fields_eq, List.append_assoc, ← hdrop, ← hmagic, List.take_append_drop]
      refine ⟨hsize, ?_, hchecks⟩
      conv => lhs; rw [hdata]
      exact List.take_left' (length_fields _)
  · intro h
    obtain ⟨-, htake, hchecks⟩ := h
    have hdata : data = header.fields ++ data.drop encodedSize := by
      rw [← htake, List.take_append_drop]
    have hrest : data.drop 4 = header.tail ++ data.drop encodedSize := by
      conv => lhs; rw [hdata, fields_eq, List.append_assoc]
      exact List.drop_left' length_magic
    obtain ⟨r, hread, -⟩ := inverts_readFields.complete ⟨data, 4⟩ header _ hvalid trivial hrest
    rw [hread]
    exact check_eq_ok.mpr ⟨rfl, hchecks⟩

theorem check_safe : header.check ≠ .error .undefined := by
  unfold check validate
  by_cases hversion : header.version = 1
  · by_cases hsize : header.headerSize = 40
    · rw [if_neg (not_not_intro hversion), if_neg (not_not_intro hsize), pure_bind]
      split <;> exact nofun
    · rw [if_neg (not_not_intro hversion), if_pos hsize]
      exact nofun
  · rw [if_pos hversion]
    exact nofun

/-- Data that is rejected is rejected by an exception. -/
theorem deserialize_safe (data : Bytes) : deserialize data ≠ .error .undefined := by
  by_cases hsize : encodedSize ≤ data.length
  swap
  · rw [deserialize, if_pos (Nat.lt_of_not_le hsize)]
    exact nofun
  by_cases hmagic : data.take 4 = magic
  swap
  · rw [deserialize, if_neg (Nat.not_lt_of_le hsize), if_pos hmagic]
    exact nofun
  rw [deserialize_eq hsize hmagic]
  have hvalid : input.valid ⟨data, 4⟩ := Nat.le_trans (show 4 ≤ encodedSize by decide) hsize
  cases hread : readFields ⟨data, 4⟩ with
  | error fault =>
    intro h
    cases h
    exact inverts_readFields.safe _ _ hvalid hread rfl
  | ok p => exact check_safe

theorem serialize_false (header : PatchHeader) :
    header.serialize false = { header with headerCrc32 := 0 }.serialize true := rfl

theorem computeHeaderCrc32_of_stale (header : PatchHeader) (stale : BitVec 32) :
    { header with headerCrc32 := stale }.computeHeaderCrc32 = header.computeHeaderCrc32 :=
  congrArg (fun out : FixedBytes encodedSize => (crc32 out.bytes).toBitVec)
    (show { header with headerCrc32 := stale }.serialize false = header.serialize false from rfl)

theorem encodePatchHeader_bytes (header : PatchHeader) : (encodePatchHeader header).bytes =
    { header with headerCrc32 := header.computeHeaderCrc32 }.fields := by
  unfold encodePatchHeader
  by_cases hcrc : header.computeHeaderCrc32 = header.headerCrc32
  · simp only [hcrc, ne_eq, not_true_eq_false, if_false, serialize_bytes]
  · simp only [hcrc, ne_eq, not_false_eq_true, if_true, serialize_bytes]

theorem deserialize_encode (hversion : header.version = 1) (hsize : header.headerSize = 40) :
    deserialize (encodePatchHeader header).bytes =
      .ok { header with headerCrc32 := header.computeHeaderCrc32 } := by
  rw [encodePatchHeader_bytes, deserialize_eq_ok]
  exact ⟨(length_fields _).ge, List.take_of_length_le (length_fields _).le, hversion, hsize,
    (computeHeaderCrc32_of_stale header _).symm⟩

/-- Exactly the images of the encoder are accepted, and encoding repairs a stale checksum. -/
theorem deserialize_inverts_encode :
    (∀ (data : Bytes) (header : PatchHeader), deserialize data = .ok header ↔
      encodedSize ≤ data.length ∧ data.take encodedSize = (encodePatchHeader header).bytes ∧
        header.version = 1 ∧ header.headerSize = 40 ∧
          header.headerCrc32 = header.computeHeaderCrc32) ∧
    ∀ header : PatchHeader, header.version = 1 → header.headerSize = 40 →
      deserialize (encodePatchHeader header).bytes =
        .ok { header with headerCrc32 := header.computeHeaderCrc32 } := by
  refine ⟨fun data header => ?_, fun header hversion hsize => deserialize_encode hversion hsize⟩
  have hbytes : header.headerCrc32 = header.computeHeaderCrc32 →
      (encodePatchHeader header).bytes = header.fields := by
    intro hcrc
    rw [encodePatchHeader_bytes, ← hcrc]
  rw [deserialize_eq_ok]
  constructor
  · intro h
    obtain ⟨hlen, hdata, hversion, hsize, hcrc⟩ := h
    exact ⟨hlen, hdata.trans (hbytes hcrc).symm, hversion, hsize, hcrc⟩
  · intro h
    obtain ⟨hlen, hdata, hversion, hsize, hcrc⟩ := h
    exact ⟨hlen, hdata.trans (hbytes hcrc), hversion, hsize, hcrc⟩

def sample : PatchHeader where
  fileId := 7
  totalPatches := 2
  patchIndex := 1
  payloadSize := 300
  headerCrc32 := 5
  payloadCrc32 := 99

theorem deserialize_inverts_encode_sample : deserialize (encodePatchHeader sample).bytes =
    .ok { sample with headerCrc32 := sample.computeHeaderCrc32 } :=
  deserialize_inverts_encode.2 sample rfl rfl

end PatchHeader
end SuperVoice.Common
