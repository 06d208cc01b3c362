import SuperVoice.Server.Effects

/-! Payloads whose chunks always arrive with the same name, number and contents, and what the
tracked entry of such a payload looks like. -/
namespace SuperVoice.Server
open Bytes PosixPath FileStore StreamCodec
variable {r : Root} {id : Bytes} {chunk : ChunkData}

structure Payload where
  name : Bytes
  chunks : List Bytes

/-- The payloads the clients send, by id. -/
abbrev Catalog := Bytes → Option Payload

/-- A delivered chunk is one of the payload that the catalog lists under its id. -/
structure Catalog.Agrees (p : Payload) (chunk : ChunkData) : Prop where
  name : chunk.originalName = p.name
  total : chunk.totalChunks = p.chunks.length
  payload : p.chunks[chunk.index]? = some chunk.payload

theorem Catalog.Agrees.index_lt {p : Payload} (h : Catalog.Agrees p chunk) :
    chunk.index < p.chunks.length := (List.getElem?_eq_some_iff.mp h.payload).1

/-- The chunk files of an entry that has received the indices `received` of `n`. -/
def listedFiles (r : Root) (id : Bytes) (n : Nat) (received : Finset Nat) : List Path :=
  (List.range n).map fun i => if i ∈ received then patchPath r id i else []

/-- The entry of payload `p` under its id. -/
structure Listed (r : Root) (id : Bytes) (p : Payload) (e : PayloadEntry) : Prop where
  fileId : e.record.fileId = id
  name : e.record.originalName = p.name
  total : e.record.totalChunks = p.chunks.length
  patchesDir : e.record.patchesDir = manifestDir r id
  files : e.record.chunkFiles = [] ∧ e.received = ∅ ∨
    e.record.chunkFiles = listedFiles r id p.chunks.length e.received
  received_lt : ∀ i ∈ e.received, i < p.chunks.length

/-- The record of payload `p` with all its chunk files. -/
structure CompleteRecord (r : Root) (p : Payload) (record : PayloadRecord) : Prop where
  name : record.originalName = p.name
  total : record.totalChunks = p.chunks.length
  patchesDir : record.patchesDir = manifestDir r record.fileId
  files : record.chunkFiles = (List.range p.chunks.length).map (patchPath r record.fileId)

theorem length_listedFiles (n : Nat) (received : Finset Nat) :
    (listedFiles r id n received).length = n := by simp [listedFiles]

theorem grow_of_length_le {files : List Path} {n : Nat} (h : n ≤ files.length) :
    grow files n = files := by simp [grow, Nat.sub_eq_zero_of_le h]

theorem listedFiles_empty (n : Nat) : listedFiles r id n ∅ = List.replicate n [] := by
  simp [listedFiles]

theorem set_listedFiles {n i : Nat} {received : Finset Nat} :
    (listedFiles r id n received).set i (patchPath r id i) =
      listedFiles r id n (insert i received) := by
  apply List.ext_getElem (by simp [listedFiles])
  intro j hj hj'
  by_cases hji : i = j
  · subst hji
    simp [listedFiles]
  · have hji' : j ≠ i := fun he => hji he.symm
    simp [listedFiles, hji, hji']

/-- A first or a further chunk of `p` is entered under its index. -/
theorem listed_updateEntry {p : Payload} {oe : Option PayloadEntry} (now ttl : Int)
    (hc : Catalog.Agrees p chunk) (h : ∀ e, oe = some e → Listed r chunk.fileId p e) :
    Listed r chunk.fileId p (updateEntry r now ttl chunk (oe.getD .fresh)) ∧
      (updateEntry r now ttl chunk (oe.getD .fresh)).received =
        insert chunk.index (oe.getD .fresh).received := by
  refine ⟨?_, rfl⟩
  have hlt : ∀ i ∈ (oe.getD .fresh).received, i < p.chunks.length := by
    cases oe with
    | none => simp [PayloadEntry.fresh]
    | some e => exact (h e rfl).received_lt
  by_cases hempty : (oe.getD .fresh).record.chunkFiles = []
  · have hnone : (oe.getD .fresh).received = ∅ := by
      cases oe with
      | none => rfl
      | some e =>
        rcases (h e rfl).files with ⟨-, hrcv⟩ | hfiles
        · exact hrcv
        · have hlen := congrArg List.length hfiles
          rw [length_listedFiles] at hlen
          have hz : p.chunks.length = 0 := by
            rw [← hlen]
            exact congrArg List.length hempty
          have := hc.index_lt
          omega
    refine ⟨by simp [updateEntry, addChunk, openRecord, hempty],
      by simp [updateEntry, addChunk, openRecord, hempty, hc.name],
      by simp [updateEntry, addChunk, openRecord, hempty, hc.total],
      by simp [updateEntry, addChunk, openRecord, hempty], .inr ?_, ?_⟩
    · have hgrow : grow [] p.chunks.length = listedFiles r chunk.fileId p.chunks.length ∅ := by
        rw [listedFiles_empty]
        simp [grow]
      simp only [updateEntry, addChunk, openRecord, hempty, if_true, List.length_nil,
        Nat.zero_max, hc.total, hgrow, set_listedFiles, hnone]
    · simpa [updateEntry, hnone] using hc.index_lt
  · cases oe with
    | none => exact absurd rfl hempty
    | some e =>
      have hl := h e rfl
      have hopen : openRecord r chunk e.record = e.record := if_neg hempty
      have hfiles := hl.files.resolve_left fun he => hempty he.1
      refine ⟨?_, ?_, ?_, ?_, .inr ?_, ?_⟩
      · simpa [updateEntry, addChunk, hopen] using hl.fileId
      · simpa [updateEntry, addChunk, hopen] using hl.name
      · simpa [updateEntry, addChunk, hopen] using hl.total
      · simpa [updateEntry, addChunk, hopen] using hl.patchesDir
      · simp only [Option.getD_some, updateEntry, addChunk, hopen, hfiles, length_listedFiles,
          hc.total, Nat.max_self]
        rw [grow_of_length_le (length_listedFiles _ _).ge, set_listedFiles]
      · intro i hi
        rcases Finset.mem_insert.mp hi with rfl | hi
        · exact hc.index_lt
        · exact hlt i hi

theorem listed_openRecord {p : Payload} {oe : Option PayloadEntry} (hc : Catalog.Agrees p chunk)
    (h : ∀ e, oe = some e → Listed r chunk.fileId p e) :
    Listed r chunk.fileId p { oe.getD .fresh with
      record := openRecord r chunk (oe.getD .fresh).record } := by
  cases oe with
  | none =>
    exact ⟨rfl, hc.name, hc.total, rfl, .inl ⟨rfl, rfl⟩, by simp [PayloadEntry.fresh]⟩
  | some e =>
    have hl := h e rfl
    by_cases hempty : e.record.chunkFiles = []
    · refine ⟨?_, ?_, ?_, ?_, ?_, hl.received_lt⟩
      · simp [openRecord, hempty]
      · simp [openRecord, hempty, hc.name]
      · simp [openRecord, hempty, hc.total]
      · simp [openRecord, hempty]
      · simpa [openRecord, hempty] using hl.files
    · simpa [openRecord, hempty] using hl

/-- An entry counts as complete exactly when every index of the payload has been received. -/
theorem Listed.complete_iff {p : Payload} {e : PayloadEntry} (h : Listed r id p e) :
    e.complete = true ↔ e.received = Finset.range p.chunks.length := by
  have hsub : e.received ⊆ Finset.range p.chunks.length :=
    fun i hi => Finset.mem_range.mpr (h.received_lt i hi)
  simp only [PayloadEntry.complete, h.total, beq_iff_eq]
  constructor
  · intro hcard
    exact Finset.eq_of_subset_of_card_le hsub (by rw [Finset.card_range, hcard])
  · intro heq
    rw [heq, Finset.card_range]

theorem Listed.completeRecord {p : Payload} {e : PayloadEntry} (h : Listed r id p e)
    (hne : e.received ≠ ∅) (hc : e.complete = true) : CompleteRecord r p e.record := by
  have hall := h.complete_iff.mp hc
  refine ⟨h.name, h.total, by rw [h.fileId]; exact h.patchesDir, ?_⟩
  rw [h.files.resolve_left fun he => hne he.2, hall, h.fileId]
  exact List.map_congr_left fun i hi => if_pos (Finset.mem_range.mpr (List.mem_range.mp hi))

end SuperVoice.Server
