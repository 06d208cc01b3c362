import SuperVoice.Lib.Bytes

/-! `sv::client::Chunker`: compressed data is cut into numbered chunks. -/
namespace SuperVoice.Client

structure FileDescriptor where
  path : Bytes
  size : Nat
  /-- Nanoseconds. -/
  lastWriteTime : Int
  deriving DecidableEq

structure CompressedFile where
  descriptor : FileDescriptor
  sha256Hex : Bytes
  compressedData : Bytes
  deriving DecidableEq

structure FileChunk where
  descriptor : FileDescriptor
  sha256Hex : Bytes
  index : Nat
  totalChunks : Nat
  payload : Bytes
  deriving DecidableEq

/-- `total_chunks`, computed in 64 bits. -/
def totalChunks (size payloadSize : Nat) : Nat := (size + payloadSize - 1) % 2 ^ 64 / payloadSize

def chunkAt (payloadSize : Nat) (file : CompressedFile) (index : Nat) : FileChunk :=
  let offset := index * payloadSize
  let size := min payloadSize (file.compressedData.length - offset)
  { descriptor := file.descriptor
    sha256Hex := file.sha256Hex
    index
    totalChunks := totalChunks file.compressedData.length payloadSize
    payload := (file.compressedData.drop offset).take size }

/-- `Chunker::operator()`; a payload size of 0 divides by zero unless there is nothing to cut. -/
def chunker (payloadSize : Nat) (file : CompressedFile) : Option (List FileChunk) :=
  if file.compressedData = [] then some []
  else if payloadSize = 0 then none
  else some ((List.range (totalChunks file.compressedData.length payloadSize)).map
    (chunkAt payloadSize file))

section Cut
variable {payloadSize : Nat} {file : CompressedFile}

/-- The first chunks hold the data up to where the next one begins. -/
theorem flatten_chunkAt (n : Nat) :
    ((List.range n).map fun i => (chunkAt payloadSize file i).payload).flatten =
      file.compressedData.take (n * payloadSize) := by
  induction n with
  | zero => simp
  | succ n ih =>
    have hrest : (file.compressedData.drop (n * payloadSize)).take
        (min payloadSize (file.compressedData.length - n * payloadSize)) =
        (file.compressedData.drop (n * payloadSize)).take payloadSize := by
      rw [← List.length_drop, List.take_eq_take_iff]
      omega
    rw [List.range_succ, List.map_append, List.flatten_append, ih, Nat.succ_mul, List.take_add]
    simp only [List.map_cons, List.map_nil, List.flatten_cons, List.flatten_nil, List.append_nil,
      chunkAt, hrest]

variable (hsize : 0 < payloadSize)
  (hfit : file.compressedData.length + payloadSize - 1 < 2 ^ 64)
include hsize hfit

theorem length_le_totalChunks_mul : file.compressedData.length ≤
    totalChunks file.compressedData.length payloadSize * payloadSize := by
  rw [totalChunks, Nat.mod_eq_of_lt hfit]
  have hmod := Nat.mod_lt (file.compressedData.length + payloadSize - 1) hsize
  have hdiv := Nat.div_add_mod (file.compressedData.length + payloadSize - 1) payloadSize
  rw [Nat.mul_comm] at hdiv
  omega

theorem mul_lt_length {i : Nat} (hi : i < totalChunks file.compressedData.length payloadSize) :
    i * payloadSize < file.compressedData.length := by
  rw [totalChunks, Nat.mod_eq_of_lt hfit] at hi
  have hle := (Nat.le_div_iff_mul_le hsize).mp (Nat.succ_le_of_lt hi)
  rw [Nat.succ_mul] at hle
  omega

/-- The chunks are numbered from 0, none is empty, and together they are the data. -/
theorem chunker_cuts (hdata : file.compressedData ≠ []) : ∃ chunks,
    chunker payloadSize file = some chunks ∧
    (chunks.map FileChunk.payload).flatten = file.compressedData ∧
    (∀ chunk ∈ chunks, chunk.payload ≠ []) ∧
    ∀ (i : Nat) (chunk : FileChunk), chunks[i]? = some chunk →
      chunk.index = i ∧ chunk.totalChunks = chunks.length := by
  refine ⟨_, by rw [chunker, if_neg hdata, if_neg hsize.ne'], ?_, fun chunk hc => ?_,
    fun i chunk hi => ?_⟩
  · rw [List.map_map]
    exact (flatten_chunkAt _).trans (List.take_of_length_le (length_le_totalChunks_mul hsize hfit))
  · obtain ⟨i, hi, rfl⟩ := List.mem_map.mp hc
    have hlt := mul_lt_length hsize hfit (List.mem_range.mp hi)
    apply List.ne_nil_of_length_pos
    simp only [chunkAt, List.length_take, List.length_drop]
    omega
  · rw [List.getElem?_map] at hi
    obtain ⟨j, hj, rfl⟩ := Option.map_eq_some_iff.mp hi
    obtain ⟨hlt, rfl⟩ := List.getElem?_eq_some_iff.mp hj
    simp [chunkAt]

end Cut

/-- The chunks are a numbered partition of the data, and cutting them stays in range: no offset
wraps and no slice ends behind the data. -/
structure Partition (payloadSize : Nat) (file : CompressedFile) (chunks : List FileChunk) :
    Prop where
  whole : (chunks.map FileChunk.payload).flatten = file.compressedData
  payload : ∀ chunk ∈ chunks, chunk.payload ≠ [] ∧ chunk.payload.length ≤ payloadSize
  numbered : ∀ (i : Nat) (chunk : FileChunk), chunks[i]? = some chunk →
    chunk.index = i ∧ chunk.totalChunks = chunks.length
  range : ∀ chunk ∈ chunks, chunk.index * payloadSize < 2 ^ 64 ∧
    chunk.index * payloadSize + chunk.payload.length ≤ file.compressedData.length

variable {payloadSize : Nat} {file : CompressedFile}

theorem partition_nil (hdata : file.compressedData = []) : Partition payloadSize file [] :=
  ⟨hdata.symm, by simp, by simp, by simp⟩

/-- Whatever the sizes are, the offsets of the chunks that are cut stay below the wrapped sum. -/
theorem offset_lt {i : Nat} (hi : i < totalChunks file.compressedData.length payloadSize) :
    i * payloadSize < 2 ^ 64 := by
  have hmul := (Nat.mul_le_mul_right payloadSize hi.le).trans (Nat.div_mul_le_self _ _)
  exact hmul.trans_lt (Nat.mod_lt _ (by decide))

theorem chunker_partition (hsize : 0 < payloadSize)
    (hfit : file.compressedData.length + payloadSize - 1 < 2 ^ 64)
    (hdata : file.compressedData ≠ []) :
    ∃ chunks, chunker payloadSize file = some chunks ∧ Partition payloadSize file chunks := by
  obtain ⟨chunks, hrun, hwhole, hne, hnumbered⟩ := chunker_cuts hsize hfit hdata
  rw [chunker, if_neg hdata, if_neg hsize.ne'] at hrun
  cases hrun
  refine ⟨_, by rw [chunker, if_neg hdata, if_neg hsize.ne'], hwhole, fun chunk hc => ?_,
    hnumbered, fun chunk hc => ?_⟩
  · refine ⟨hne chunk hc, ?_⟩
    obtain ⟨i, -, rfl⟩ := List.mem_map.mp hc
    simp only [chunkAt, List.length_take]
    omega
  · obtain ⟨i, hi, rfl⟩ := List.mem_map.mp hc
    have hlt := List.mem_range.mp hi
    have hbelow := mul_lt_length hsize hfit hlt
    refine ⟨offset_lt hlt, ?_⟩
    simp only [chunkAt, List.length_take, List.length_drop]
    omega

/-- A sum that wraps comes out too small: the chunks end before the data does. -/
theorem totalChunks_mul_lt (hsize : 0 < payloadSize) (hlt : payloadSize < 2 ^ 64)
    (hwraps : 2 ^ 64 ≤ file.compressedData.length + payloadSize - 1) :
    totalChunks file.compressedData.length payloadSize * payloadSize <
      file.compressedData.length := by
  have hmul := Nat.div_mul_le_self ((file.compressedData.length + payloadSize - 1) % 2 ^ 64)
    payloadSize
  have hmod := Nat.div_add_mod (file.compressedData.length + payloadSize - 1) (2 ^ 64)
  have hquot : 1 ≤ (file.compressedData.length + payloadSize - 1) / 2 ^ 64 :=
    (Nat.le_div_iff_mul_le (by decide)).mpr (by omega)
  rw [totalChunks]
  omega

/-- For every payload size and every file, cutting gives a partition exactly when there is nothing
to cut, or the size is positive and adding it to the length does not wrap. -/
theorem chunker_partition_iff (payloadSize : UInt64) (file : CompressedFile) :
    (∃ chunks, chunker payloadSize.toNat file = some chunks ∧
      Partition payloadSize.toNat file chunks) ↔
    file.compressedData = [] ∨
      0 < payloadSize ∧ file.compressedData.length + payloadSize.toNat ≤ 2 ^ 64 := by
  have hpos : 0 < payloadSize ↔ 0 < payloadSize.toNat := UInt64.lt_iff_toNat_lt
  rw [hpos]
  by_cases hdata : file.compressedData = []
  · refine iff_of_true ⟨[], ?_, partition_nil hdata⟩ (.inl hdata)
    rw [chunker, if_pos hdata]
  constructor
  · rintro ⟨chunks, hrun, hcut⟩
    rw [chunker, if_neg hdata] at hrun
    split at hrun
    · cases hrun
    · next hsize =>
      cases hrun
      have hsize : 0 < payloadSize.toNat := Nat.pos_of_ne_zero hsize
      refine .inr ⟨hsize, ?_⟩
      by_contra hwraps
      have hshort : totalChunks file.compressedData.length payloadSize.toNat *
          payloadSize.toNat < file.compressedData.length :=
        totalChunks_mul_lt hsize payloadSize.toNat_lt (by omega)
      have hwhole := hcut.whole
      rw [List.map_map] at hwhole
      have hlength := congrArg List.length ((flatten_chunkAt _).symm.trans hwhole)
      rw [List.length_take] at hlength
      omega
  · rintro (hnil | ⟨hsize, hfit⟩)
    · exact absurd hnil hdata
    · exact chunker_partition hsize (by omega) hdata

/-- With the greatest payload size the sum wraps to 0 and a file of two bytes has no chunks. -/
theorem chunker_partition_fails : ¬ ∀ (payloadSize : UInt64) (file : CompressedFile),
    ∃ chunks, chunker payloadSize.toNat file = some chunks ∧
      Partition payloadSize.toNat file chunks := by
  intro hclaim
  obtain ⟨chunks, hrun, hcut⟩ := hclaim (2 ^ 64 - 1) ⟨⟨[], 0, 0⟩, [], [0, 0]⟩
  have hnone : chunker (2 ^ 64 - 1 : UInt64).toNat ⟨⟨[], 0, 0⟩, [], [0, 0]⟩ = some [] := by
    decide +kernel
  rw [hnone] at hrun
  cases hrun
  exact absurd hcut.whole (by simp)

end SuperVoice.Client
