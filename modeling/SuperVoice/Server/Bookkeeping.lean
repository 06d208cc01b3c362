import SuperVoice.Server.Completion
import SuperVoice.Server.Tracking

/-! The entries of `payloads_` over whole sequences of calls: the set, the path table, the total and
the state of an entry agree. -/
namespace SuperVoice.Server
open Bytes PosixPath FileStore Transition
variable {r : Root} {chunk : ChunkData} {e : PayloadEntry} {w w' : World}

inductive StorageCall where
  | storeChunk (call : StoreCall)
  | markPublished (id : Bytes)
  | updateTtl (fault : Bytes → Option Fault) (newTtl : Int)
  | cleanupExpired (removes : Bytes → Bool) (now : Int)

namespace StorageCall

/-- The chunk passes the check that the handler makes of its index and its total. -/
def Checked : StorageCall → Prop
  | .storeChunk call => call.chunk.totalChunks ≠ 0 ∧ call.chunk.index < call.chunk.totalChunks
  | _ => True

variable (r) in
/-- The world that a call leaves if it returns. -/
def step (w : World) : StorageCall → Option World
  | .storeChunk call =>
    match Server.storeChunk r call.io call.now w call.chunk with
    | (.returned _, w) => some w
    | (.thrown, _) => none
  | .markPublished id => some (Server.markPublished w id)
  | .updateTtl fault newTtl => some (Server.updateTtl r fault w newTtl)
  | .cleanupExpired removes now => some (Server.cleanupExpired r removes now w)

end StorageCall

/-- The path table into which `store_chunk` writes, once it has been resized. -/
def resized (r : Root) (w : World) (chunk : ChunkData) : List Path :=
  let record := openRecord r chunk ((w.entry chunk.fileId).getD .fresh).record
  grow record.chunkFiles (max record.chunkFiles.length chunk.totalChunks)

namespace PayloadEntry

/-- The four views of the chunks that an entry has received. -/
structure Agrees (r : Root) (id : Bytes) (e : PayloadEntry) : Prop where
  positive : 1 ≤ e.record.totalChunks
  total_le : e.record.totalChunks ≤ e.record.chunkFiles.length
  received : ∀ i, i ∈ e.received ↔ ∃ path, e.record.chunkFiles[i]? = some path ∧ path ≠ []
  named : ∀ i ∈ e.received, e.record.chunkFiles[i]? = some (patchPath r id i)
  state : e.state = .isComplete ↔ e.received.card = e.record.totalChunks

end PayloadEntry

theorem openRecord_files (record : PayloadRecord) :
    (openRecord r chunk record).chunkFiles = record.chunkFiles := by
  unfold openRecord
  split <;> rfl

theorem index_lt_resized (w : World) (h : chunk.index < chunk.totalChunks) :
    chunk.index < (resized r w chunk).length := by
  rw [resized, length_grow]
  omega

/-- A path that is not empty was there before the resize. -/
theorem getElem?_grow_iff {files : List Path} {n i : Nat} {path : Path} (hne : path ≠ []) :
    (grow files n)[i]? = some path ↔ files[i]? = some path := by
  by_cases hi : i < files.length
  · rw [getElem?_grow hi]
  · have hout : files[i]? = none := List.getElem?_eq_none (Nat.le_of_not_lt hi)
    constructor
    · intro h
      rw [grow, List.getElem?_append_right (Nat.le_of_not_lt hi)] at h
      exact absurd (List.eq_of_mem_replicate (List.mem_of_getElem? h)) hne
    · intro h
      cases hout.symm.trans h

/-- What a chunk finds once its record is open. -/
structure Opened (r : Root) (chunk : ChunkData) (e : PayloadEntry) : Prop where
  positive : 1 ≤ (openRecord r chunk e.record).totalChunks
  total_le : (openRecord r chunk e.record).totalChunks ≤
    max e.record.chunkFiles.length chunk.totalChunks
  received : ∀ i, i ∈ e.received ↔ ∃ path, e.record.chunkFiles[i]? = some path ∧ path ≠ []
  named : ∀ i ∈ e.received, e.record.chunkFiles[i]? = some (patchPath r chunk.fileId i)

theorem opened_fresh (hlt : chunk.index < chunk.totalChunks) : Opened r chunk .fresh where
  positive := Nat.lt_of_le_of_lt (Nat.zero_le _) hlt
  total_le := Nat.le_max_right 0 chunk.totalChunks
  received i := by simp [PayloadEntry.fresh]
  named i hi := by simp [PayloadEntry.fresh] at hi

/-- The record of an entry stays as the first chunk has filled it in. -/
theorem PayloadEntry.Agrees.opened (h : e.Agrees r chunk.fileId) : Opened r chunk e := by
  have hsame : openRecord r chunk e.record = e.record := by
    apply if_neg
    intro hnil
    have htotal := h.total_le
    rw [hnil] at htotal
    exact absurd (h.positive.trans htotal) (by decide)
  refine ⟨?_, ?_, h.received, h.named⟩
  · rw [hsame]
    exact h.positive
  · rw [hsame]
    exact h.total_le.trans (Nat.le_max_left _ _)

theorem Opened.updateEntry (h : Opened r chunk e) (now ttl : Int)
    (hlt : chunk.index < chunk.totalChunks) :
    (updateEntry r now ttl chunk e).Agrees r chunk.fileId := by
  have hfiles : (Server.updateEntry r now ttl chunk e).record.chunkFiles =
      (grow e.record.chunkFiles (max e.record.chunkFiles.length chunk.totalChunks)).set
        chunk.index (patchPath r chunk.fileId chunk.index) := by
    simp only [Server.updateEntry, addChunk, openRecord_files]
  have hwritten : (Server.updateEntry r now ttl chunk e).record.chunkFiles[chunk.index]? =
      some (patchPath r chunk.fileId chunk.index) := by
    rw [hfiles]
    apply List.getElem?_set_self
    rw [length_grow]
    omega
  have hother : ∀ i path, i ≠ chunk.index → path ≠ [] →
      ((Server.updateEntry r now ttl chunk e).record.chunkFiles[i]? = some path ↔
        e.record.chunkFiles[i]? = some path) := by
    intro i path hi hne
    rw [hfiles, List.getElem?_set_ne (Ne.symm hi), getElem?_grow_iff hne]
  refine ⟨h.positive, ?_, fun i => ?_, fun i hi => ?_, ?_⟩
  · rw [hfiles, List.length_set, length_grow]
    exact h.total_le.trans (Nat.le_max_right _ _)
  · by_cases hi : i = chunk.index
    · rw [hi]
      exact iff_of_true (Finset.mem_insert_self _ _) ⟨_, hwritten, patchPath_ne_nil r _ _⟩
    · have hmem : i ∈ (Server.updateEntry r now ttl chunk e).received ↔ i ∈ e.received := by
        simp [Server.updateEntry, hi]
      rw [hmem, h.received i]
      constructor
      · rintro ⟨path, hpath, hne⟩
        exact ⟨path, (hother i path hi hne).mpr hpath, hne⟩
      · rintro ⟨path, hpath, hne⟩
        exact ⟨path, (hother i path hi hne).mp hpath, hne⟩
  · obtain rfl | hi := Finset.mem_insert.mp hi
    · exact hwritten
    · by_cases heq : i = chunk.index
      · rw [heq]
        exact hwritten
      · exact (hother i _ heq (patchPath_ne_nil r _ _)).mpr (h.named i hi)
  · simp only [Server.updateEntry]
    split
    case isTrue hcard => exact iff_of_true rfl hcard
    case isFalse hcard =>
      refine iff_of_false (fun hstate => ?_) hcard
      cases hstate

/-- Every entry of the map agrees. -/
def AllAgree (r : Root) (w : World) : Prop := ∀ id e, w.entry id = some e → e.Agrees r id

theorem AllAgree.storeChunk {call : StoreCall} {o : Option PayloadRecord} (h : AllAgree r w)
    (hlt : call.chunk.index < call.chunk.totalChunks)
    (hs : storeChunk r call.io call.now w call.chunk = (.returned o, w')) : AllAgree r w' := by
  unfold Server.storeChunk at hs
  split at hs
  case h_1 fs hw =>
    cases hs
    exact h
  case h_2 fs hw =>
    obtain ⟨e₀, e, rfl, hentry, hcase⟩ := registerChunk_cases hs
    obtain ⟨ho, -, -⟩ | ⟨-, -, rfl⟩ := hcase
    · cases ho
    · intro id e' he'
      rw [hentry] at he'
      split at he'
      case isTrue hid =>
        cases he'
        rw [hid]
        refine Opened.updateEntry ?_ _ _ hlt
        cases he : World.entry { w with fs } call.chunk.fileId with
        | none => exact opened_fresh hlt
        | some e => exact (h _ e he).opened
      case isFalse => exact h id e' he'

theorem AllAgree.updateTtl (h : AllAgree r w) (fault : Bytes → Option Fault) (newTtl : Int) :
    AllAgree r (updateTtl r fault w newTtl) := by
  unfold Server.updateTtl
  apply forEntries_induct
  · exact h
  · intro w₁ id e hw he id' e' he'
    rw [resetTtl, entry_insert] at he'
    split at he'
    case isTrue hid =>
      cases he'
      rw [hid]
      have hagrees := hw id e he
      exact ⟨hagrees.positive, hagrees.total_le, hagrees.received, hagrees.named, hagrees.state⟩
    case isFalse => exact hw id' e' he'

theorem AllAgree.step {call : StorageCall} (h : AllAgree r w) (hcall : call.Checked)
    (hs : call.step r w = some w') : AllAgree r w' := by
  cases call with
  | storeChunk call =>
    unfold StorageCall.step at hs
    dsimp only at hs
    split at hs
    case h_1 o w₁ hstore =>
      cases hs
      exact h.storeChunk hcall.2 hstore
    case h_2 => cases hs
  | markPublished id =>
    cases hs
    intro id' e he
    rw [entry_markPublished] at he
    split at he
    · cases he
    · exact h id' e he
  | updateTtl fault newTtl =>
    cases hs
    exact h.updateTtl fault newTtl
  | cleanupExpired removes now =>
    cases hs
    intro id e he
    exact h id e ((cleaned_cleanupExpired removes now w).entry id e he)

/-- After every sequence of calls that return, the set, the path table, the total and the state of
each entry agree, and the next chunk is written inside the table. -/
theorem entries_agree (fs : FileSystem) (ttl : Int) {calls : List StorageCall} {w : World}
    (hcalls : ∀ call ∈ calls, call.Checked)
    (h : run (StorageCall.step r) ⟨fs, ⟨∅, ttl⟩⟩ calls = some w) :
    (∀ id e, w.entry id = some e → e.Agrees r id) ∧
      ∀ (chunk : ChunkData) (now : Int), chunk.index < chunk.totalChunks →
        chunk.index < (resized r w chunk).length ∧
          (updateEntry r now w.storage.defaultTtl chunk
              ((w.entry chunk.fileId).getD .fresh)).record.chunkFiles =
            (resized r w chunk).set chunk.index (patchPath r chunk.fileId chunk.index) := by
  have hreach : Reach (StorageCall.step r) (fun _ call => call.Checked) ⟨fs, ⟨∅, ttl⟩⟩ w :=
    .of_run_all (fun call hcall _ => hcalls call hcall) h
  refine ⟨?_, fun chunk now hlt => ⟨index_lt_resized w hlt, rfl⟩⟩
  refine hreach.invariant (P := AllAgree r) ?_ fun _ _ _ hi hcall hs => hi.step hcall hs
  intro id e he
  simp [World.entry] at he

/-- The second chunk announces a larger total than the first. -/
theorem entries_agree_sample : ∃ w e,
    run (StorageCall.step .sample) ⟨sampleFiles, ⟨∅, 1⟩⟩
        [.storeChunk (StoreRun.sampleCall 0 2), .storeChunk (StoreRun.sampleCall 2 3),
          .updateTtl (fun _ => none) 5] = some w ∧
      w.entry (ascii "x") = some e ∧ e.Agrees .sample (ascii "x") := by
  have hrun : (run (StorageCall.step .sample) ⟨sampleFiles, ⟨∅, 1⟩⟩
      [.storeChunk (StoreRun.sampleCall 0 2), .storeChunk (StoreRun.sampleCall 2 3),
        .updateTtl (fun _ => none) 5]).any (fun w => (w.entry (ascii "x")).isSome) = true := by
    decide +kernel
  obtain ⟨w, hw, hentry⟩ := (Option.any_eq_true ..).mp hrun
  obtain ⟨e, he⟩ := Option.isSome_iff_exists.mp hentry
  refine ⟨w, e, hw, he, ?_⟩
  refine (entries_agree sampleFiles 1 ?_ hw).1 _ _ he
  simp [StorageCall.Checked, StoreRun.sampleCall, ChunkData.sealed]

end SuperVoice.Server
