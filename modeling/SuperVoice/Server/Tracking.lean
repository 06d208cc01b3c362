import SuperVoice.Server.Effects

/-! The entries of `payloads_` and the records handed out from them, over whole runs of the
server: which chunk files they name, and that these files stay on disk. -/
namespace SuperVoice.Server
open Bytes PosixPath FileStore FileStore.FileSystem StreamCodec Transition
variable {r : Root} {D : Decoder} {chunk : ChunkData}

/-- A chunk among `cs` that passes the checks of the handler and of `store_chunk`. -/
structure Verified (cs : List ChunkData) (c : ChunkData) : Prop where
  mem : c ∈ cs
  crc : verifyCrc c = true
  index_lt : c.index < c.totalChunks

theorem Verified.mono {cs cs' : List ChunkData} {c : ChunkData} (h : Verified cs c)
    (hcs : cs ⊆ cs') : Verified cs' c := ⟨hcs h.mem, h.crc, h.index_lt⟩

/-- The record was opened by a verified chunk among `cs`. -/
structure RecordOf (r : Root) (cs : List ChunkData) (record : PayloadRecord) : Prop where
  header : ∃ c, Verified cs c ∧ c.fileId = record.fileId ∧ c.originalName = record.originalName
  patchesDir : record.patchesDir = manifestDir r record.fileId

/-- An entry names the patch file of every index it counts as received. -/
structure Tracked (r : Root) (cs : List ChunkData) (id : Bytes) (e : PayloadEntry) : Prop where
  fileId : e.record.fileId = id
  record : RecordOf r cs e.record
  chunkFile : ∀ i ∈ e.received, e.record.chunkFiles[i]? = some (patchPath r id i)

theorem RecordOf.mono {cs cs' : List ChunkData} {record : PayloadRecord} (h : RecordOf r cs record)
    (hcs : cs ⊆ cs') : RecordOf r cs' record :=
  ⟨let ⟨c, hc, h'⟩ := h.header; ⟨c, hc.mono hcs, h'⟩, h.patchesDir⟩

theorem Tracked.mono {cs cs' : List ChunkData} {id : Bytes} {e : PayloadEntry}
    (h : Tracked r cs id e) (hcs : cs ⊆ cs') : Tracked r cs' id e :=
  ⟨h.fileId, h.record.mono hcs, h.chunkFile⟩

theorem Tracked.patchesDir {cs : List ChunkData} {id : Bytes} {e : PayloadEntry}
    (h : Tracked r cs id e) : e.record.patchesDir = manifestDir r id :=
  h.fileId ▸ h.record.patchesDir

@[simp] theorem length_grow (files : List Path) (n : Nat) :
    (grow files n).length = max files.length n := by
  simp only [grow, List.length_append, List.length_replicate]
  omega

theorem getElem?_grow {files : List Path} {i n : Nat} (h : i < files.length) :
    (grow files n)[i]? = files[i]? := by
  simp [grow, List.getElem?_append_left h]

/-- Opening the record for a chunk leaves a tracked entry, also for a new id. -/
theorem tracked_openRecord {cs : List ChunkData} {oe : Option PayloadEntry}
    (hc : Verified cs chunk) (h : ∀ e, oe = some e → Tracked r cs chunk.fileId e) :
    Tracked r cs chunk.fileId { oe.getD .fresh with
      record := openRecord r chunk (oe.getD .fresh).record } := by
  by_cases hempty : (oe.getD .fresh).record.chunkFiles = []
  · refine ⟨by simp [openRecord, hempty], ⟨⟨chunk, hc, ?_⟩, ?_⟩, ?_⟩
    · simp [openRecord, hempty]
    · simp [openRecord, hempty]
    · intro i hi
      cases oe with
      | none => simp [PayloadEntry.fresh] at hi
      | some e =>
        have := (h e rfl).chunkFile i hi
        rw [Option.getD_some] at hempty
        simp [hempty] at this
  · cases oe with
    | none => exact absurd rfl hempty
    | some e =>
      have hne : e.record.chunkFiles ≠ [] := hempty
      simpa [openRecord, hne] using h e rfl

theorem tracked_updateEntry {cs : List ChunkData} {oe : Option PayloadEntry} {now ttl : Int}
    (hc : Verified cs chunk)
    (h : ∀ e, oe = some e → Tracked r cs chunk.fileId e) :
    Tracked r cs chunk.fileId (updateEntry r now ttl chunk (oe.getD .fresh)) := by
  have hopen := tracked_openRecord hc h
  have hidx := hc.index_lt
  refine ⟨hopen.fileId, ⟨hopen.record.header, hopen.record.patchesDir⟩, ?_⟩
  intro i hi
  have hlen : chunk.index < (grow (openRecord r chunk (oe.getD .fresh).record).chunkFiles
      (max (openRecord r chunk (oe.getD .fresh).record).chunkFiles.length
        chunk.totalChunks)).length := by
    rw [length_grow]
    omega
  rcases Finset.mem_insert.mp hi with rfl | hi
  · exact List.getElem?_set_self hlen
  · by_cases he : chunk.index = i
    · subst he
      exact List.getElem?_set_self hlen
    · have hold := hopen.chunkFile i hi
      have hlt : i < (openRecord r chunk (oe.getD .fresh).record).chunkFiles.length :=
        (List.getElem?_eq_some_iff.mp hold).1
      simp only [updateEntry, addChunk, List.getElem?_set_ne he, getElem?_grow hlt]
      exact hold

/-- Every entry of the map is tracked under its own key. -/
def AllTracked (r : Root) (cs : List ChunkData) (w : World) : Prop :=
  ∀ id e, w.entry id = some e → Tracked r cs id e

theorem AllTracked.mono {cs cs' : List ChunkData} {w : World} (h : AllTracked r cs w)
    (hcs : cs ⊆ cs') : AllTracked r cs' w := fun id e he => (h id e he).mono hcs

/-- Registering a chunk keeps the entries tracked, hands out a record of theirs and writes only
the manifest of the id. -/
theorem AllTracked.registerChunk {cs : List ChunkData} {io : StoreIo} {now : Int} {w w' : World}
    {o : Outcome (Option PayloadRecord)} (h : AllTracked r cs w) (hc : Verified cs chunk)
    (hr : Server.registerChunk r io now w chunk = (o, w')) :
    AllTracked r cs w' ∧ (∀ record, o = .returned (some record) → RecordOf r cs record) ∧
      Within (fun l => l = r.manifestTmpAt chunk.fileId ∨ l = r.manifestAt chunk.fileId)
        w.fs w'.fs := by
  obtain ⟨e₀, e, rfl, hentry, hcase⟩ := registerChunk_cases hr
  have hold := h chunk.fileId
  have he : Tracked r cs chunk.fileId e := by
    rcases hcase with ⟨-, -, rfl⟩ | ⟨-, -, rfl⟩
    · exact tracked_openRecord hc hold
    · exact tracked_updateEntry hc hold
  refine ⟨fun id e' he' => ?_, ?_, ?_⟩
  · rw [hentry] at he'
    split at he'
    · next hid => cases he'; exact hid ▸ he
    · exact h id e' he'
  · rintro record rfl
    rcases hcase with ⟨ho, -, -⟩ | ⟨ho, -, -⟩
    · cases ho
    · split at ho
      · cases ho
        exact he.record
      · cases ho
  · rcases hcase with ⟨-, hfs, -⟩ | ⟨-, hfs, -⟩
    · rw [hfs]
      exact .refl _ _
    · rw [hfs]
      exact within_persistManifest he.patchesDir

/-- Entries, chunks and records all stem from chunks that were delivered. -/
structure Sound (r : Root) (s : System D) : Prop where
  entries : AllTracked r s.deliveries s.world
  storing : ∀ t c, s.handlers t = .storing c → Verified s.deliveries c
  records : ∀ t record, (s.handlers t).record = some record → RecordOf r s.deliveries record

theorem sound_start (fs : FileSystem) (ttl : Int) : Sound r (System.start D fs ttl) where
  entries _ _ h := by simp [System.start, World.entry] at h
  storing _ _ h := by simp [System.start] at h
  records _ _ h := by simp [System.start, Handler.record] at h

/-- What one handler's move means for the records and chunks in play. -/
theorem sound_moves {h h' : Handler D} {w w' : World} {a : HandlerAction} {cs : List ChunkData}
    (hm : Moves r h w a h' w') (hentries : AllTracked r cs w)
    (hstoring : ∀ c, h = .storing c → Verified cs c)
    (hrecord : ∀ record, h.record = some record → RecordOf r cs record) :
    AllTracked r (cs ++ a.delivered) w' ∧
    (∀ c, h' = .storing c → Verified (cs ++ a.delivered) c) ∧
    ∀ record, h'.record = some record → RecordOf r (cs ++ a.delivered) record := by
  cases hm with
  | stored hadm hw =>
    refine ⟨hentries.mono (by simp), ?_, by simp [Handler.record]⟩
    rintro c hc
    cases hc
    exact ⟨by simp [HandlerAction.delivered], (writePatch_true hw).1, hadm.index_lt⟩
  | rejected hadm hw =>
    exact ⟨hentries.mono (by simp), by simp, by simp [Handler.record]⟩
  | completed hr =>
    obtain ⟨hall, hrec, -⟩ := hentries.registerChunk (hstoring _ rfl) hr
    refine ⟨by simpa [HandlerAction.delivered] using hall, by simp, ?_⟩
    simpa [HandlerAction.delivered, Handler.record] using hrec _ rfl
  | registered ho hr =>
    refine ⟨?_, by simp, by simp [Handler.record]⟩
    simpa [HandlerAction.delivered] using (hentries.registerChunk (hstoring _ rfl) hr).1
  | opened ho =>
    refine ⟨hentries.mono (by simp), by simp, ?_⟩
    rw [(openPart_some ho).2.1]
    simpa [HandlerAction.delivered, Handler.record] using hrecord
  | refused ho => exact ⟨hentries.mono (by simp), by simp, by simp [Handler.record]⟩
  | decompressed hidx hd =>
    refine ⟨hentries.mono (by simp), by simp, ?_⟩
    simpa [HandlerAction.delivered, Handler.record, (decompressChunk_record hd).1] using hrecord
  | failed hidx hd =>
    refine ⟨hentries.mono (by simp), by simp, ?_⟩
    simpa [HandlerAction.delivered, Handler.record] using hrecord
  | threw hidx hd => exact ⟨hentries.mono (by simp), by simp, by simp [Handler.record]⟩
  | published hidx hf =>
    refine ⟨hentries.mono (by simp), by simp, ?_⟩
    simpa [HandlerAction.delivered, Handler.record] using hrecord
  | aborted hidx hf =>
    refine ⟨hentries.mono (by simp), by simp, ?_⟩
    simpa [HandlerAction.delivered, Handler.record] using hrecord
  | lost hidx hf => exact ⟨hentries.mono (by simp), by simp, by simp [Handler.record]⟩
  | unlinked => exact ⟨hentries.mono (by simp), by simp, by simp [Handler.record]⟩
  | removed =>
    refine ⟨hentries.mono (by simp), by simp, ?_⟩
    simpa [HandlerAction.delivered, Handler.record] using hrecord
  | marked =>
    refine ⟨fun id e he => ?_, by simp, by simp [Handler.record]⟩
    rw [entry_markPublished] at he
    split at he
    · cases he
    · exact (hentries id e he).mono (by simp)

theorem sound_step {s s' : System D} {a : Action} (h : Sound r s) (hs : step r s a = some s') :
    Sound r s' := by
  cases a with
  | thread t a =>
    obtain ⟨h', w', hm, rfl⟩ := step_thread hs
    obtain ⟨hall, hstoring, hrecord⟩ := sound_moves hm h.entries (h.storing t) (h.records t)
    refine ⟨hall, fun t' c hc => ?_, fun t' record hrec => ?_⟩
    · by_cases ht : t' = t
      · subst ht
        exact hstoring c (by simpa using hc)
      · exact (h.storing t' c (by simpa [ht] using hc)).mono (by simp)
    · by_cases ht : t' = t
      · subst ht
        exact hrecord record (by simpa using hrec)
      · exact (h.records t' record (by simpa [ht] using hrec)).mono (by simp)
  | updateTtl fault newTtl =>
    cases hs
    refine ⟨fun id e' he' => ?_, h.storing, h.records⟩
    obtain ⟨e, he, hrec, hrcv⟩ := (refreshed_updateTtl fault s.world newTtl).entry id e' he'
    have ht := h.entries id e he
    exact ⟨hrec ▸ ht.fileId, hrec ▸ ht.record, hrec ▸ hrcv ▸ ht.chunkFile⟩
  | cleanup removes now =>
    cases hs
    exact ⟨fun id e he =>
      h.entries id e ((cleaned_cleanupExpired removes now s.world).entry id e he),
      h.storing, h.records⟩

theorem sound_of_reach {guard : System D → Action → Prop} {fs : FileSystem} {ttl : Int}
    {s : System D} (h : Reach (step r) guard (System.start D fs ttl) s) : Sound r s :=
  h.invariant (sound_start fs ttl) fun _ _ _ hi _ hs => sound_step hi hs

end SuperVoice.Server
