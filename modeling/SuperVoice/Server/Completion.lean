import SuperVoice.Server.Catalog

/-! When `store_chunk` hands out a record, over sequences of calls that store every chunk they are
given. Different chunks of one id may announce different totals. -/
namespace SuperVoice.Server
open Bytes PosixPath FileStore Transition

/-- One call: what the system grants it, the clock and the chunk. -/
structure StoreCall where
  io : StoreIo
  now : Int
  chunk : ChunkData

/-- The storage and the chunks it has been given. -/
structure StoreRun where
  world : World
  calls : List ChunkData

/-- The indices given under an id. -/
def collected (calls : List ChunkData) (id : Bytes) : Finset Nat :=
  ((calls.filter fun c => c.fileId = id).map ChunkData.index).toFinset

namespace StoreRun

def start (fs : FileSystem) (ttl : Int) : StoreRun := ⟨⟨fs, ⟨∅, ttl⟩⟩, []⟩

variable (r : Root)

/-- The handler's check holds, both CRCs are right and nothing fails. -/
def Succeeds (s : StoreRun) (call : StoreCall) : Prop :=
  call.chunk.index < call.chunk.totalChunks ∧ (writePatch r call.io s.world.fs call.chunk).1 = true ∧
    call.io.allocates = true

instance (s : StoreRun) (call : StoreCall) : Decidable (s.Succeeds r call) :=
  inferInstanceAs (Decidable (_ ∧ _ ∧ _))

def step (s : StoreRun) (call : StoreCall) : Option StoreRun :=
  if s.Succeeds r call then
    some ⟨(storeChunk r call.io call.now s.world call.chunk).2, s.calls ++ [call.chunk]⟩
  else none

/-- The call returns a record exactly when all indices of the payload have been given, and only
one that `assemble` accepts. -/
def Settles (s : StoreRun) (call : StoreCall) (s' : StoreRun) : Prop :=
  ∃ entry result, s'.world.entry call.chunk.fileId = some entry ∧
    (storeChunk r call.io call.now s.world call.chunk).1 = .returned result ∧
    (result.isSome = true ↔
      ∀ i < entry.record.totalChunks, i ∈ collected s'.calls call.chunk.fileId) ∧
    ∀ record, result = some record → record = entry.record ∧
      record.chunkFiles.length = record.totalChunks ∧ ∀ path ∈ record.chunkFiles, path ≠ []

/-- The chunk announces no larger total than the first chunk of its payload did. -/
def NoLarger (s : StoreRun) (call : StoreCall) : Prop :=
  ∀ entry, s.world.entry call.chunk.fileId = some entry →
    call.chunk.totalChunks ≤ entry.record.totalChunks

variable {r}

/-- An entry whose path table has the size that the first chunk announced. -/
structure Filling (r : Root) (id : Bytes) (given : Finset Nat) (e : PayloadEntry) : Prop where
  positive : 0 < e.record.totalChunks
  received : e.received = given
  files : e.record.chunkFiles = listedFiles r id e.record.totalChunks given
  given_lt : ∀ i ∈ given, i < e.record.totalChunks

theorem collected_concat (calls : List ChunkData) (chunk : ChunkData) (id : Bytes) :
    collected (calls ++ [chunk]) id =
      if chunk.fileId = id then insert chunk.index (collected calls id) else collected calls id := by
  by_cases h : chunk.fileId = id
  · ext i
    simp [collected, List.filter_append, h]
  · simp [collected, List.filter_append, h]

/-- The first chunk of a payload fixes its total. -/
theorem filling_fresh {chunk : ChunkData} (now ttl : Int)
    (hlt : chunk.index < chunk.totalChunks) :
    Filling r chunk.fileId {chunk.index} (updateEntry r now ttl chunk .fresh) := by
  have hgrow : grow [] chunk.totalChunks = listedFiles r chunk.fileId chunk.totalChunks ∅ := by
    rw [listedFiles_empty]
    simp [grow]
  refine ⟨Nat.lt_of_le_of_lt (Nat.zero_le _) hlt, rfl, ?_, ?_⟩
  · simp only [updateEntry, addChunk, openRecord, PayloadEntry.fresh, if_true, List.length_nil,
      Nat.zero_max, hgrow, set_listedFiles]
    rfl
  · intro i hi
    rw [Finset.mem_singleton.mp hi]
    exact hlt

theorem Filling.updateEntry {chunk : ChunkData} {given : Finset Nat} {e : PayloadEntry}
    (h : Filling r chunk.fileId given e) (now ttl : Int) (hlt : chunk.index < chunk.totalChunks)
    (htotal : chunk.totalChunks ≤ e.record.totalChunks) :
    Filling r chunk.fileId (insert chunk.index given) (updateEntry r now ttl chunk e) := by
  have hlength : e.record.chunkFiles.length = e.record.totalChunks := by
    rw [h.files, length_listedFiles]
  have hopen : openRecord r chunk e.record = e.record := by
    apply if_neg
    intro hnil
    have hpos := h.positive
    rw [← hlength, hnil] at hpos
    cases hpos
  have hgrow : grow e.record.chunkFiles (max e.record.chunkFiles.length chunk.totalChunks) =
      e.record.chunkFiles := grow_of_length_le (by omega)
  refine ⟨?_, ?_, ?_, ?_⟩
  · simpa [Server.updateEntry, addChunk, hopen] using h.positive
  · simp [Server.updateEntry, h.received]
  · simp only [Server.updateEntry, addChunk, hopen, hgrow]
    rw [h.files, set_listedFiles]
  · intro i hi
    simp only [Server.updateEntry, addChunk, hopen]
    obtain rfl | hi := Finset.mem_insert.mp hi
    · omega
    · exact h.given_lt i hi

/-- All entries are those of the chunks given so far. -/
structure Consistent (r : Root) (s : StoreRun) : Prop where
  tracked : ∀ id e, s.world.entry id = some e → Filling r id (collected s.calls id) e
  untracked : ∀ id, s.world.entry id = none → collected s.calls id = ∅

theorem Consistent.start (fs : FileSystem) (ttl : Int) : Consistent r (start fs ttl) where
  tracked id e h := by simp [StoreRun.start, World.entry] at h
  untracked _ _ := rfl

/-- A call that succeeds enters the chunk and answers by the entry it leaves. -/
theorem storeChunk_of_succeeds {s : StoreRun} {call : StoreCall} (h : s.Succeeds r call) :
    let e := updateEntry r call.now s.world.storage.defaultTtl call.chunk
      ((s.world.entry call.chunk.fileId).getD .fresh)
    (storeChunk r call.io call.now s.world call.chunk).1 =
        .returned (if e.complete then some e.record else none) ∧
      ∀ id, (storeChunk r call.io call.now s.world call.chunk).2.entry id =
        if id = call.chunk.fileId then some e else s.world.entry id := by
  obtain ⟨-, hwritten, hallocates⟩ := h
  unfold storeChunk
  cases hw : writePatch r call.io s.world.fs call.chunk with
  | mk written fs =>
    rw [hw] at hwritten
    cases hwritten
    cases hr : registerChunk r call.io call.now { s.world with fs } call.chunk with
    | mk o w' =>
      obtain ⟨e₀, e, rfl, hentry, hcase⟩ := registerChunk_cases hr
      obtain ⟨ho, -, -⟩ | ⟨ho, -, he⟩ := hcase
      · rw [registerChunk, if_pos hallocates] at hr
        cases (Prod.mk.inj hr).1.trans ho
      · subst he
        dsimp only
        rw [hr]
        exact ⟨ho, hentry⟩

/-- The entry after a call with no larger total. -/
theorem Consistent.filling {s : StoreRun} {call : StoreCall} (h : Consistent r s)
    (hlt : call.chunk.index < call.chunk.totalChunks) (hg : s.NoLarger call) :
    Filling r call.chunk.fileId (collected (s.calls ++ [call.chunk]) call.chunk.fileId)
      (Server.updateEntry r call.now s.world.storage.defaultTtl call.chunk
        ((s.world.entry call.chunk.fileId).getD .fresh)) := by
  rw [collected_concat, if_pos rfl]
  cases he : s.world.entry call.chunk.fileId with
  | none =>
    rw [h.untracked _ he]
    exact filling_fresh call.now s.world.storage.defaultTtl hlt
  | some e =>
    exact (h.tracked _ e he).updateEntry call.now s.world.storage.defaultTtl hlt (hg e he)

theorem Consistent.step {s s' : StoreRun} {call : StoreCall} (h : Consistent r s)
    (hg : s.NoLarger call) (hs : StoreRun.step r s call = some s') : Consistent r s' := by
  unfold StoreRun.step at hs
  split at hs
  · rename_i hsucceeds
    obtain ⟨-, hentry⟩ := storeChunk_of_succeeds hsucceeds
    have hfilling := h.filling hsucceeds.1 hg
    cases hs
    constructor
    · intro id e he
      rw [hentry] at he
      by_cases hid : id = call.chunk.fileId
      · rw [if_pos hid] at he
        cases he
        rw [hid]
        exact hfilling
      · rw [if_neg hid] at he
        rw [collected_concat, if_neg (Ne.symm hid)]
        exact h.tracked id e he
    · intro id he
      rw [hentry] at he
      by_cases hid : id = call.chunk.fileId
      · rw [if_pos hid] at he
        cases he
      · rw [if_neg hid] at he
        rw [collected_concat, if_neg (Ne.symm hid)]
        exact h.untracked id he
  · cases hs

/-- The size of the set decides completeness. -/
theorem Filling.complete_iff {id : Bytes} {given : Finset Nat} {e : PayloadEntry}
    (h : Filling r id given e) :
    e.complete = true ↔ ∀ i < e.record.totalChunks, i ∈ given := by
  have hsub : given ⊆ Finset.range e.record.totalChunks :=
    fun i hi => Finset.mem_range.mpr (h.given_lt i hi)
  rw [PayloadEntry.complete, beq_iff_eq, h.received]
  constructor
  · intro hcard i hi
    have hall := Finset.eq_of_subset_of_card_le hsub (by rw [Finset.card_range, hcard])
    rw [hall]
    exact Finset.mem_range.mpr hi
  · intro hall
    have hall' : given = Finset.range e.record.totalChunks :=
      hsub.antisymm fun i hi => hall i (Finset.mem_range.mp hi)
    rw [hall', Finset.card_range]

theorem Filling.assembles {id : Bytes} {given : Finset Nat} {e : PayloadEntry}
    (h : Filling r id given e) (hc : e.complete = true) :
    e.record.chunkFiles.length = e.record.totalChunks ∧
      ∀ path ∈ e.record.chunkFiles, path ≠ [] := by
  rw [h.files, length_listedFiles]
  refine ⟨rfl, fun path hp => ?_⟩
  obtain ⟨i, hi, rfl⟩ := List.mem_map.mp hp
  rw [if_pos (h.complete_iff.mp hc i (List.mem_range.mp hi))]
  exact patchPath_ne_nil r id i

/-- In every sequence of calls in which no chunk announces a larger total than the first of its
payload, records are handed out exactly when they are complete. -/
theorem records_complete {fs : FileSystem} {ttl : Int} {s s' : StoreRun} {call : StoreCall}
    (hr : Reach (step r) NoLarger (start fs ttl) s) (hg : s.NoLarger call)
    (hs : step r s call = some s') : s.Settles r call s' := by
  have hconsistent : Consistent r s :=
    hr.invariant (.start fs ttl) fun _ _ _ h hg hs => h.step hg hs
  unfold step at hs
  split at hs
  · rename_i hsucceeds
    obtain ⟨hreturned, hentry⟩ := storeChunk_of_succeeds hsucceeds
    have hfilling := hconsistent.filling hsucceeds.1 hg
    cases hs
    refine ⟨_, _, (hentry _).trans (if_pos rfl), hreturned, ?_, fun record hrecord => ?_⟩
    · rw [← hfilling.complete_iff]
      split <;> simp [*]
    · split at hrecord
      · rename_i hcomplete
        cases hrecord
        exact ⟨rfl, hfilling.assembles hcomplete⟩
      · cases hrecord
  · cases hs

/-- A chunk of payload `x`, sealed with its checksums. -/
def sampleCall (index totalChunks : Nat) : StoreCall where
  io := {}
  now := 0
  chunk := .sealed (ascii "x") (ascii "n") index totalChunks 1 (ascii "a")

/-- The second of two chunks completes the record. -/
theorem records_complete_sample : ∃ s s' : StoreRun, s.Settles .sample (sampleCall 1 2) s' := by
  have hrun : ((step .sample (start sampleFiles 1) (sampleCall 0 2)).bind fun s =>
      (step .sample s (sampleCall 1 2)).map fun s' => (s, s')).any fun p =>
        (p.1.world.entry (ascii "x")).all fun e => 2 ≤ e.record.totalChunks := by
    decide +kernel
  obtain ⟨⟨s, s'⟩, hs, htotal⟩ := (Option.any_eq_true ..).mp hrun
  obtain ⟨s₁, hfirst, hrest⟩ := Option.bind_eq_some_iff.mp hs
  obtain ⟨s₂, hsecond, hpair⟩ := Option.map_eq_some_iff.mp hrest
  cases hpair
  have hnew : (start sampleFiles 1).NoLarger (sampleCall 0 2) := fun entry he => by
    simp [StoreRun.start, World.entry] at he
  refine ⟨s, s', records_complete (.next _ .start hnew hfirst) (fun entry he => ?_) hsecond⟩
  have hentry : s.world.entry (ascii "x") = some entry := he
  rw [hentry] at htotal
  exact of_decide_eq_true htotal

/-- The second chunk announces three chunks, the first only two: the record is handed out with a
hole. -/
theorem records_incomplete : ¬ ∀ (r : Root) (fs : FileSystem) (ttl : Int) (s s' : StoreRun)
    (call : StoreCall), Reachable (step r) (start fs ttl) s → step r s call = some s' →
      s.Settles r call s' := by
  intro hclaim
  have hrun : ((step .sample (start sampleFiles 1) (sampleCall 0 2)).bind fun s =>
      (step .sample s (sampleCall 2 3)).map fun s' => (s, s')).any fun p =>
        (storeChunk .sample {} 0 p.1.world (sampleCall 2 3).chunk).1 ≠ .returned none &&
          ((p.2.world.entry (ascii "x")).all fun e => 1 < e.record.totalChunks) &&
            1 ∉ collected p.2.calls (ascii "x") := by
    decide +kernel
  obtain ⟨⟨s, s'⟩, hs, hend⟩ := (Option.any_eq_true ..).mp hrun
  obtain ⟨s₁, hfirst, hrest⟩ := Option.bind_eq_some_iff.mp hs
  obtain ⟨s₂, hsecond, hpair⟩ := Option.map_eq_some_iff.mp hrest
  cases hpair
  simp only [Bool.and_eq_true, decide_eq_true_eq] at hend
  obtain ⟨⟨hsome, htotal⟩, hhole⟩ := hend
  obtain ⟨entry, result, hentry, hreturned, hiff, -⟩ :=
    hclaim .sample sampleFiles 1 s s' (sampleCall 2 3) (.next _ .start trivial hfirst) hsecond
  have hentry' : s'.world.entry (ascii "x") = some entry := hentry
  rw [hentry'] at htotal
  have hresult : result.isSome = true := by
    cases result with
    | none => exact absurd hreturned hsome
    | some record => rfl
  exact hhole (hiff.mp hresult 1 (of_decide_eq_true htotal))

end StoreRun
end SuperVoice.Server
