import SuperVoice.Server.Handlers
import SuperVoice.Server.Layout

/-! What every step of the server leaves in place, whatever the ids and names are: the file
system outside a few locations, the map outside one entry. -/
namespace SuperVoice.Server
open Bytes PosixPath FileStore FileStore.FileSystem StreamCodec

variable {r : Root} {D : Decoder} {fs fs' : FileSystem} {chunk : ChunkData}

variable (r fs) in
theorem within_createDirectories (io : StoreIo) (p : Location → Prop) (path : Path) :
    Within p fs (createDirectories r io fs path).2 := within_mkdirs p _

theorem mem_passed_of_reached {io : StoreIo} {path : Path} {l : Location}
    (h : l ∈ reached r io path) : l ∈ passed r.cwd path := by
  unfold reached at h
  split at h
  · exact h
  · exact List.dropLast_subset _ (List.take_subset _ _ h)

/-- A chunk that is not stored leaves everything but the temporary file alone. -/
theorem writePatch_false {io : StoreIo} (h : writePatch r io fs chunk = (false, fs')) :
    Within (· = r.patchTmpAt chunk.fileId chunk.index) fs fs' := by
  by_cases hcrc : verifyCrc chunk = true
  · have hdir := within_createDirectories r fs io
      (· = r.patchTmpAt chunk.fileId chunk.index) (manifestDir r chunk.fileId)
    rcases hd : createDirectories r io fs (manifestDir r chunk.fileId) with ⟨b, fs₁⟩
    rw [hd] at hdir
    cases b with
    | false =>
      simp only [writePatch, hcrc, hd, if_true] at h
      cases h
      exact hdir
    | true =>
      simp only [writePatch, hcrc, hd, if_true] at h
      exact hdir.trans (replaceFile_false h)
  · simp only [writePatch, hcrc, Bool.false_eq_true, if_false] at h
    cases h
    exact .refl _ fs

/-- Storing a chunk makes the directories it gets to and no other. -/
theorem dirs_writePatch {io : StoreIo} {b : Bool} (h : writePatch r io fs chunk = (b, fs')) :
    fs'.dirs = if verifyCrc chunk then
      (fs.mkdirs (reached r io (manifestDir r chunk.fileId))).2.dirs else fs.dirs := by
  unfold writePatch at h
  split at h
  · next hcrc =>
    rw [if_pos hcrc]
    split at h
    · next hmade =>
      cases h
      exact congrArg (·.2.dirs) hmade.symm
    · next fs₁ hmade =>
      have hwrite : fs'.dirs = fs₁.dirs := by
        have hfs : fs' = (writeBinaryFile r io.patch fs₁
            (patchPath r chunk.fileId chunk.index) chunk.payload).2 := (congrArg Prod.snd h).symm
        rw [hfs]
        exact dirs_replaceFile
      exact hwrite.trans (congrArg (·.2.dirs) hmade.symm)
  · next hcrc =>
    cases h
    rw [if_neg hcrc]

theorem writePatch_of_not_verified {io : StoreIo} (h : verifyCrc chunk ≠ true) :
    writePatch r io fs chunk = (false, fs) := by
  simp [writePatch, h]

/-- A stored chunk has passed both checks and its patch file holds the payload. -/
theorem writePatch_true {io : StoreIo} (h : writePatch r io fs chunk = (true, fs')) :
    verifyCrc chunk = true ∧
    Within (fun l => l = r.patchTmpAt chunk.fileId chunk.index ∨
      l = r.patchAt chunk.fileId chunk.index) fs fs' ∧
    fs'.content (r.patchAt chunk.fileId chunk.index) = some chunk.payload := by
  by_cases hcrc : verifyCrc chunk = true
  · have hdir := within_createDirectories r fs io
      (fun l => l = r.patchTmpAt chunk.fileId chunk.index ∨
        l = r.patchAt chunk.fileId chunk.index) (manifestDir r chunk.fileId)
    rcases hd : createDirectories r io fs (manifestDir r chunk.fileId) with ⟨b, fs₁⟩
    rw [hd] at hdir
    cases b with
    | false => simp [writePatch, hcrc, hd] at h
    | true =>
      simp only [writePatch, hcrc, hd, if_true] at h
      obtain ⟨hagree, hcontent⟩ := replaceFile_true h
      exact ⟨hcrc, hdir.trans hagree, hcontent⟩
  · simp [writePatch, hcrc] at h

theorem within_persistManifest {fault : Option Fault} {record : PayloadRecord}
    {entry : PayloadEntry} {id : Bytes} (hdir : record.patchesDir = manifestDir r id) :
    Within (fun l => l = r.manifestTmpAt id ∨ l = r.manifestAt id) fs
      (persistManifest r fault fs record entry) := by
  unfold persistManifest commitFile
  rw [hdir]
  exact within_replaceFile

section Map
variable {w w' : World} {id id' : Bytes}

theorem entry_insert (fs : FileSystem) (s : Storage) (id : Bytes) (e : PayloadEntry)
    (id' : Bytes) :
    World.entry ⟨fs, { s with payloads := s.payloads.insert id e }⟩ id' =
      if id' = id then some e else World.entry ⟨fs, s⟩ id' := by
  by_cases h : id' = id
  · subst h
    simp [World.entry]
  · simp [World.entry, h]

theorem entry_erase (fs : FileSystem) (s : Storage) (id id' : Bytes) :
    World.entry ⟨fs, { s with payloads := s.payloads.erase id }⟩ id' =
      if id' = id then none else World.entry ⟨fs, s⟩ id' := by
  by_cases h : id' = id
  · subst h
    simp [World.entry]
  · simp [World.entry, h]

theorem entry_markPublished : (markPublished w id).entry id' =
    if id' = id then none else w.entry id' := entry_erase _ _ _ _

/-- What registering a chunk does to the entries and to the file system. -/
theorem registerChunk_cases {io : StoreIo} {now : Int} {o : Outcome (Option PayloadRecord)}
    (h : registerChunk r io now w chunk = (o, w')) :
    ∃ e₀ e, e₀ = (w.entry chunk.fileId).getD .fresh ∧
      (∀ id, w'.entry id = if id = chunk.fileId then some e else w.entry id) ∧
      ((o = .thrown ∧ w'.fs = w.fs ∧
          e = { e₀ with record := openRecord r chunk e₀.record }) ∨
        (o = .returned (if e.complete then some e.record else none) ∧
          w'.fs = persistManifest r io.manifest w.fs e.record e ∧
          e = updateEntry r now w.storage.defaultTtl chunk e₀)) := by
  refine ⟨_, ?_, rfl, ?_⟩
  · exact if io.allocates then
        updateEntry r now w.storage.defaultTtl chunk ((w.entry chunk.fileId).getD .fresh)
      else { (w.entry chunk.fileId).getD .fresh with
        record := openRecord r chunk ((w.entry chunk.fileId).getD .fresh).record }
  · unfold registerChunk at h
    split at h
    · next ha =>
      cases h
      exact ⟨fun id => by rw [entry_insert]; simp [ha, World.entry], .inr (by simp [ha])⟩
    · next ha =>
      cases h
      exact ⟨fun id => by rw [entry_insert]; simp [ha, World.entry], .inl (by simp [ha])⟩

theorem foldl_entries_induct {f : World → Bytes → PayloadEntry → World} {P : World → Prop}
    (ids : List Bytes) (h0 : P w) (hstep : ∀ w id e, P w → w.entry id = some e → P (f w id e)) :
    P (ids.foldl (fun w id => match w.entry id with
      | none => w
      | some e => f w id e) w) := by
  induction ids generalizing w with
  | nil => exact h0
  | cons id ids ih =>
    rw [List.foldl_cons]
    apply ih
    cases he : w.entry id with
    | none => exact h0
    | some e => exact hstep w id e h0 he

/-- Rule for a pass over the entries: what holds before and is kept at each entry still there. -/
theorem forEntries_induct {f : World → Bytes → PayloadEntry → World} {P : World → Prop}
    (h0 : P w) (hstep : ∀ w id e, P w → w.entry id = some e → P (f w id e)) :
    P (w.forEntries f) :=
  foldl_entries_induct _ h0 hstep

/-- Rule for what a pass does at one entry: it comes to that entry as it was, and what holds once
the entry has been visited is kept. -/
theorem forEntries_visits {f : World → Bytes → PayloadEntry → World} {P : World → Prop}
    {e : PayloadEntry} (he : w.entry id = some e)
    (hother : ∀ w id' e', id' ≠ id → w.entry id = some e → (f w id' e').entry id = some e)
    (hvisit : ∀ w, w.entry id = some e → P (f w id e))
    (hkeep : ∀ w id' e', P w → P (f w id' e')) : P (w.forEntries f) := by
  have hkey : id ∈ w.storage.payloads.keys :=
    AList.lookup_isSome.mp (Option.isSome_iff_exists.mpr ⟨e, he⟩)
  unfold World.forEntries
  generalize w.storage.payloads.keys = ids at hkey
  induction ids generalizing w with
  | nil => cases hkey
  | cons id₁ ids ih =>
    rw [List.foldl_cons]
    by_cases hid : id₁ = id
    · subst hid
      simp only [he]
      exact foldl_entries_induct ids (hvisit w he) fun w id e hP _ => hkeep w id e hP
    · apply ih _ ((List.mem_cons.mp hkey).resolve_left (Ne.symm hid))
      split
      · exact he
      · exact hother _ _ _ hid he

/-- A pass that does `g` to the entry it is at and leaves the others does `g` to every entry, each
of which it comes to once. -/
theorem entry_forEntries {f : World → Bytes → PayloadEntry → World}
    {g : PayloadEntry → Option PayloadEntry}
    (hf : ∀ w id e id', w.entry id = some e →
      (f w id e).entry id' = if id' = id then g e else w.entry id') :
    (w.forEntries f).entry id = (w.entry id).bind g := by
  have hfold : ∀ ids : List Bytes, ids.Nodup → ∀ w : World,
      (ids.foldl (fun w id => match w.entry id with
        | none => w
        | some e => f w id e) w).entry id =
          if id ∈ ids then (w.entry id).bind g else w.entry id := by
    intro ids
    induction ids with
    | nil => exact fun _ w => rfl
    | cons id₁ ids ih =>
      intro hids w
      obtain ⟨hfirst, hrest⟩ := List.nodup_cons.mp hids
      rw [List.foldl_cons, ih hrest]
      by_cases hid : id = id₁
      · subst hid
        rw [if_neg hfirst, if_pos List.mem_cons_self]
        cases he : w.entry id with
        | none => exact he
        | some e => exact (hf w id e id he).trans (if_pos rfl)
      · have hother : (match w.entry id₁ with
            | none => w
            | some e => f w id₁ e).entry id = w.entry id := by
          cases he : w.entry id₁ with
          | none => rfl
          | some e => exact (hf w id₁ e id he).trans (if_neg hid)
        simp only [hother, List.mem_cons, hid, false_or]
  apply (hfold _ w.storage.payloads.keys_nodup w).trans
  split
  · rfl
  · next hnot =>
    have hnone : w.entry id = none := AList.lookup_eq_none.mpr hnot
    rw [hnone]
    rfl

/-- What a pass of `cleanup_expired` may have changed: it drops entries, and whatever else
changes lies below the patch directory of an expired entry that is gone afterwards. -/
structure Cleaned (r : Root) (removes : Bytes → Bool) (now : Int) (w w' : World) : Prop where
  entry : ∀ id e, w'.entry id = some e → w.entry id = some e
  content : ∀ l b, w'.fs.content l = some b → w.fs.content l = some b
  within : Within (fun l => ∃ id e, w.entry id = some e ∧ expired now e = true ∧
    removes id = true ∧ w'.entry id = none ∧ r.locate e.record.patchesDir <+: l) w.fs w'.fs

theorem entry_expireEntry {removes : Bytes → Bool} {e : PayloadEntry} :
    (expireEntry r removes w id e).entry id' = if id' = id then none else w.entry id' :=
  entry_erase _ _ _ _

theorem within_expireEntry {removes : Bytes → Bool} {e : PayloadEntry} :
    Within (fun l => removes id = true ∧ r.locate e.record.patchesDir <+: l) w.fs
      (expireEntry r removes w id e).fs := by
  cases hr : removes id with
  | true => simpa [expireEntry, hr] using within_removeAll
  | false => simpa [expireEntry, hr] using Within.refl _ w.fs

theorem content_expireEntry {removes : Bytes → Bool} {e : PayloadEntry} {l : Location} {b : Bytes}
    (h : (expireEntry r removes w id e).fs.content l = some b) : w.fs.content l = some b := by
  unfold expireEntry at h
  split at h
  · exact content_of_removeAll h
  · exact h

theorem cleaned_cleanupExpired (removes : Bytes → Bool) (now : Int) (w : World) :
    Cleaned r removes now w (cleanupExpired r removes now w) := by
  unfold cleanupExpired
  apply forEntries_induct
  · exact ⟨fun _ _ h => h, fun _ _ h => h, .refl _ _⟩
  · intro w₁ id e hw he
    split
    swap
    · exact hw
    next hexp =>
    have hgone : ∀ id', w₁.entry id' = none → (expireEntry r removes w₁ id e).entry id' = none := by
      intro id' h'
      rw [entry_expireEntry]
      split
      · rfl
      · exact h'
    refine ⟨fun id' e' he' => ?_, fun l b hb => hw.content l b (content_expireEntry hb),
      .trans (hw.within.mono ?_) (within_expireEntry.mono ?_)⟩
    · rw [entry_expireEntry] at he'
      split at he'
      · cases he'
      · exact hw.entry id' e' he'
    · rintro l ⟨id', e', h₁, h₂, h₃, h₄, h₅⟩
      exact ⟨id', e', h₁, h₂, h₃, hgone id' h₄, h₅⟩
    · rintro l ⟨hrem, hl⟩
      exact ⟨id, e, hw.entry id e he, hexp, hrem, by rw [entry_expireEntry, if_pos rfl], hl⟩

/-- What `update_ttl` may have changed: new TTLs, and the manifests of tracked entries. -/
structure Refreshed (r : Root) (w w' : World) : Prop where
  entry : ∀ id e', w'.entry id = some e' →
    ∃ e, w.entry id = some e ∧ e'.record = e.record ∧ e'.received = e.received
  within : Within (fun l => ∃ id e, w.entry id = some e ∧
    (l = r.locate (join e.record.patchesDir (ascii "ids.list") ++ ascii ".tmp") ∨
      l = r.locate (join e.record.patchesDir (ascii "ids.list")))) w.fs w'.fs

theorem refreshed_updateTtl (fault : Bytes → Option Fault) (w : World) (newTtl : Int) :
    Refreshed r w (updateTtl r fault w newTtl) := by
  unfold updateTtl
  apply forEntries_induct
  · exact ⟨fun _ e h => ⟨e, h, rfl, rfl⟩, .refl _ _⟩
  · intro w₁ id e₁ hw he
    obtain ⟨e, he₀, hrec, hrcv⟩ := hw.entry id e₁ he
    constructor
    · intro id' e' he'
      rw [resetTtl, entry_insert] at he'
      split at he'
      · next heq =>
        subst heq
        cases he'
        exact ⟨e, he₀, hrec, hrcv⟩
      · exact hw.entry id' e' he'
    · refine hw.within.trans (within_replaceFile.mono fun l hl => ⟨id, e, he₀, ?_⟩)
      rwa [hrec] at hl

end Map

section Assembly
variable {record : PayloadRecord} {a a' : Assembly D} {io : AssembleIo}

/-- An assembly starts with an empty staging file and a complete list of chunk files. -/
theorem openPart_some (h : openPart r D io fs record = (some a, fs')) :
    record.chunkFiles.length = record.totalChunks ∧ a = ⟨record, a.outFd, 0, D.init, 0, 0⟩ ∧
      Opened fs (r.partAt record.originalName) a.outFd fs' := by
  by_cases hlen : record.chunkFiles.length = record.totalChunks
  · rcases hop : fs.openTrunc (r.locate (partPath r record)) with ⟨_ | fd, fs₁⟩
    · by_cases ho : io.opens = true <;> simp [openPart, hlen, hop, ho] at h
    · by_cases ho : io.opens = true ∧ io.createsStream = true
      · simp only [openPart, hlen, ne_eq, not_true, if_false, ho.1, ho.2, if_true, hop] at h
        cases h
        exact ⟨hlen, rfl, openTrunc_some hop⟩
      · by_cases ho' : io.opens = true
        · have hc : ¬ io.createsStream = true := fun hc => ho ⟨ho', hc⟩
          simp [openPart, hlen, hop, ho', hc] at h
        · simp [openPart, hlen, ho'] at h
  · simp [openPart, hlen] at h

/-- Opening the staging file disturbs no other location. -/
theorem within_openPart (r : Root) (D : Decoder) (fs : FileSystem) (record : PayloadRecord)
    (io : AssembleIo) : Within (· = r.partAt record.originalName) fs (openPart r D io fs record).2 := by
  have hopen := within_openTrunc fs (r.partAt record.originalName)
  rcases hop : fs.openTrunc (r.partAt record.originalName) with ⟨fd, fs₁⟩
  rw [hop] at hopen
  rw [Root.partAt] at hop
  by_cases hlen : record.chunkFiles.length = record.totalChunks
  swap
  · simpa [openPart, hlen] using Within.refl _ fs
  by_cases ho : io.opens = true
  swap
  · simpa [openPart, hlen, ho] using within_log _ _
  cases fd with
  | none => simpa [openPart, partPath, hlen, ho, hop] using hopen
  | some fd =>
    by_cases hc : io.createsStream = true
    · simpa [openPart, partPath, hlen, ho, hop, hc] using hopen
    · simpa [openPart, partPath, hlen, ho, hop, hc, Root.partAt] using
        hopen.trans within_unlink

theorem readChunk_eq_ok {cio : ChunkIo} {path : Path} {input : Bytes} :
    readChunk r cio fs path = .ok input ↔ path ≠ [] ∧ cio.opens = true ∧ cio.reads = true ∧
      fs.content (r.locate path) = some input := by
  unfold readChunk
  split
  · next hstop =>
    refine iff_of_false (fun h => by cases h) fun h => ?_
    simp [h.1, h.2.1] at hstop
  · next hgo =>
    have hboth : path ≠ [] ∧ cio.opens = true := by simpa using hgo
    cases fs.content (r.locate path) with
    | none => simp
    | some content => by_cases hreads : cio.reads = true <;> simp [hboth.1, hboth.2, hreads]

/-- What one round of the chunk loop does: it reads the next chunk file, writes to the staging
file, and goes on only if the codec accepted the chunk and all output was written. -/
theorem decompressChunk_cases {fuel : Nat} {cio : ChunkIo} {oa : Except Stop (Assembly D)}
    (h : decompressChunk r fuel cio fs a = some (oa, fs')) :
    ((∃ stop, oa = .error stop) ∧ fs' = fs) ∨
    ∃ path input fed, a.record.chunkFiles[a.idx]? = some path ∧
      fs.content (r.locate path) = some input ∧
      drive D.call fuel a.stream a.pending input = some fed ∧
      fs' = fs.write a.outFd a.written (cio.flush fed.output) ∧
      ∀ a', oa = .ok a' → cio.flush fed.output = fed.output ∧ ∃ stream pending,
        fed.next = some (stream, pending) ∧
        a' = { a with
          stream, pending, idx := a.idx + 1, written := a.written + fed.output.length } := by
  unfold decompressChunk at h
  split at h
  · cases h
    exact .inl ⟨⟨_, rfl⟩, rfl⟩
  · next path hpath =>
    split at h
    · cases h
      exact .inl ⟨⟨_, rfl⟩, rfl⟩
    · next input hread =>
      obtain ⟨fed, hfed, heq⟩ := Option.map_eq_some_iff.mp h
      refine .inr ⟨path, input, fed, hpath, (readChunk_eq_ok.mp hread).2.2.2, hfed, ?_, ?_⟩
      · dsimp only at heq
        split at heq
        · exact (Prod.mk.inj heq).2.symm
        · split at heq <;> exact (Prod.mk.inj heq).2.symm
      · rintro a' rfl
        dsimp only at heq
        split at heq
        · simp at heq
        · next stream pending hnext =>
          split at heq
          · next hout =>
            rw [hout] at heq
            exact ⟨hout, stream, pending, hnext, (Except.ok.inj (Prod.mk.inj heq).1).symm⟩
          · simp at heq

theorem decompressChunk_record {fuel : Nat} {cio : ChunkIo}
    (h : decompressChunk r fuel cio fs a = some (.ok a', fs')) :
    a'.record = a.record ∧ a'.idx = a.idx + 1 ∧ a'.outFd = a.outFd := by
  rcases decompressChunk_cases h with ⟨⟨_, h⟩, -⟩ | ⟨_, _, _, -, -, -, -, hnext⟩
  · cases h
  · obtain ⟨-, _, _, -, rfl⟩ := hnext a' rfl
    exact ⟨rfl, rfl, rfl⟩

theorem within_decompressChunk {fuel : Nat} {cio : ChunkIo} {oa : Except Stop (Assembly D)}
    {l : Location} (hl : fs.link l = some a.outFd)
    (h : decompressChunk r fuel cio fs a = some (oa, fs')) : Within (· = l) fs fs' := by
  rcases decompressChunk_cases h with ⟨-, rfl⟩ | ⟨_, _, _, -, -, -, rfl, -⟩
  · exact .refl _ _
  · exact within_write hl rfl

theorem decompressChunk_link {fuel : Nat} {cio : ChunkIo} {oa : Except Stop (Assembly D)}
    (h : decompressChunk r fuel cio fs a = some (oa, fs')) :
    fs'.link = fs.link ∧ fs'.dirs = fs.dirs := by
  obtain ⟨-, rfl⟩ | ⟨_, _, _, -, -, -, rfl, -⟩ := decompressChunk_cases h
  · exact ⟨rfl, rfl⟩
  · exact ⟨rfl, rfl⟩

/-- The chunk loop writes to the staging file only. -/
theorem assembleChunks_within {n fuel : Nat} {oa : Except Stop (Assembly D)} {l : Location}
    (hl : fs.link l = some a.outFd) (h : assembleChunks r fuel io n fs a = some (oa, fs')) :
    Within (· = l) fs fs' ∧ fs'.dirs = fs.dirs ∧ fs'.link l = some a.outFd ∧
      ∀ a', oa = .ok a' → a'.record = a.record := by
  induction n generalizing fs a with
  | zero =>
    cases h
    exact ⟨.refl _ _, rfl, hl, fun a' ha => by cases ha; rfl⟩
  | succ n ih =>
    unfold assembleChunks at h
    split at h
    · cases h
    · rename_i hd
      cases h
      obtain ⟨hlink, hdirs⟩ := decompressChunk_link hd
      exact ⟨within_decompressChunk hl hd, hdirs, (congrFun hlink l).trans hl, by simp⟩
    · rename_i a₁ fs₁ hd
      obtain ⟨hlink, hdirs⟩ := decompressChunk_link hd
      obtain ⟨hrecord, -, hfd⟩ := decompressChunk_record hd
      have hl₁ : fs₁.link l = some a₁.outFd := by rw [hlink, hfd, hl]
      obtain ⟨hwithin, hdirs', hself, hkept⟩ := ih hl₁ h
      refine ⟨(within_decompressChunk hl hd).trans hwithin, hdirs'.trans hdirs, hfd ▸ hself,
        fun a' ha => ?_⟩
      rw [hkept a' ha, hrecord]

/-- Every way the end of an assembly can go. -/
theorem finishPart_cases {f : Finished} (h : finishPart r io fs a = (f, fs')) :
    (f = .aborted ∧ fs' = fs) ∨
    (f = .lost ∧
      fs' = fs.log (.rename (r.partAt a.record.originalName) (r.finalAt a.record.originalName))) ∨
    (f = .published ∧ a.pending = 0 ∧
      fs.rename (r.partAt a.record.originalName) (r.finalAt a.record.originalName) =
        (true, fs')) := by
  by_cases hok : (a.pending ≠ 0 || !io.syncs) = true
  · simp only [finishPart, hok, if_true] at h
    cases h
    exact .inl ⟨rfl, rfl⟩
  · have hpending : a.pending = 0 := by simp at hok; exact hok.1
    simp only [finishPart, hok] at h
    rcases hren : fs.rename (r.partAt a.record.originalName) (r.finalAt a.record.originalName)
      with ⟨b, fs₁⟩
    rw [Root.partAt, Root.finalAt] at hren
    by_cases hr : io.renames = true
    · cases b <;> simp only [partPath, finalPath, hr, if_true, hren] at h <;> cases h
      · exact .inr (.inl ⟨rfl, rename_false hren⟩)
      · exact .inr (.inr ⟨rfl, hpending, rfl⟩)
    · simp only [hr] at h
      cases h
      exact .inr (.inl ⟨rfl, rfl⟩)

theorem within_finishPart (r : Root) (fs : FileSystem) (a : Assembly D) (io : AssembleIo) :
    Within (fun l => l = r.partAt a.record.originalName ∨
    l = r.finalAt a.record.originalName) fs (finishPart r io fs a).2 := by
  rcases h : finishPart r io fs a with ⟨f, fs'⟩
  rcases finishPart_cases h with ⟨-, rfl⟩ | ⟨-, rfl⟩ | ⟨-, -, hren⟩
  · exact .refl _ _
  · exact within_log _ _
  · have := within_rename fs (r.partAt a.record.originalName) (r.finalAt a.record.originalName)
    rwa [hren] at this

theorem within_abortPart :
    Within (· = r.partAt record.originalName) fs (abortPart r fs record) := within_unlink

theorem within_removePatches (removes : Bool) {id : Bytes}
    (hdir : record.patchesDir = manifestDir r id) :
    Within (fun l => removes = true ∧ r.patchDirAt id <+: l) fs
      (removePatches r removes fs record) := by
  unfold removePatches
  rw [hdir]
  cases removes with
  | true => exact within_removeAll.mono fun l hl => ⟨rfl, hl⟩
  | false => exact .refl _ fs

theorem content_removePatches {removes : Bool} {l : Location} {b : Bytes}
    (h : (removePatches r removes fs record).content l = some b) : fs.content l = some b := by
  unfold removePatches at h
  split at h
  · exact content_of_removeAll h
  · exact h

theorem dirs_openPart : (openPart r D io fs record).2.dirs = fs.dirs := by
  have hopen := dirs_openTrunc fs (r.locate (partPath r record))
  unfold openPart
  split
  · rfl
  · dsimp only
    split
    · rcases hop : fs.openTrunc (r.locate (partPath r record)) with ⟨_ | fd, fs₁⟩ <;>
        rw [hop] at hopen
      · exact hopen
      · dsimp only
        split <;> exact hopen
    · rfl

/-- Every way an assembly can go: it fails and touches at most its staging place, or it moves
the staging file to its final place and then perhaps removes the patches. -/
theorem assemble_cases {fuel : Nat} {o : Outcome (Option Path)}
    (h : assemble r D fuel io fs record = some (o, fs')) :
    ((∀ path, o ≠ .returned (some path)) ∧ Within (· = r.partAt record.originalName) fs fs' ∧
      fs'.dirs = fs.dirs) ∨
    ∃ fs₁, o = .returned (some (finalPath r record)) ∧ Within (· = r.partAt record.originalName) fs fs₁ ∧
      fs₁.dirs = fs.dirs ∧ (fs₁.link (r.partAt record.originalName)).isSome ∧
      fs' = removePatches r io.removes
        (fs₁.move (r.partAt record.originalName) (r.finalAt record.originalName)) record := by
  have hpart := within_openPart r D fs record io
  have hdirs : (openPart r D io fs record).2.dirs = fs.dirs := dirs_openPart
  unfold assemble at h
  split at h
  · rename_i hopen
    rw [hopen] at hpart hdirs
    cases h
    exact .inl ⟨by simp, hpart, hdirs⟩
  · rename_i a fs₀ hopen
    rw [hopen] at hpart hdirs
    obtain ⟨-, ha, hopened⟩ := openPart_some hopen
    split at h
    · cases h
    · rename_i fs₁ hchunks
      cases h
      obtain ⟨hwithin, hd, -, -⟩ := assembleChunks_within hopened.link_self hchunks
      exact .inl ⟨by simp, hpart.trans hwithin, hd.trans hdirs⟩
    · rename_i fs₁ hchunks
      cases h
      obtain ⟨hwithin, hd, -, -⟩ := assembleChunks_within hopened.link_self hchunks
      exact .inl ⟨by simp, (hpart.trans hwithin).trans within_abortPart, hd.trans hdirs⟩
    · rename_i a₁ fs₁ hchunks
      obtain ⟨hwithin, hd, -, hrecord⟩ := assembleChunks_within hopened.link_self hchunks
      have hrec : a₁.record = record := by rw [hrecord a₁ rfl, ha]
      have hloop := hpart.trans hwithin
      have hkept := hd.trans hdirs
      split at h <;> rename_i fs₂ hfinish <;> cases h <;>
        obtain ⟨hf, hfs⟩ | ⟨hf, hfs⟩ | ⟨hf, -, hrename⟩ := finishPart_cases hfinish <;> cases hf
      · exact .inl ⟨by simp, hfs ▸ hloop.trans within_abortPart, hfs ▸ hkept⟩
      · exact .inl ⟨by simp, hfs ▸ hloop.trans (within_log _ _), hfs ▸ hkept⟩
      · rw [hrec] at hrename
        obtain ⟨hsome, hmoved⟩ := rename_true hrename
        exact .inr ⟨_, rfl, hloop.trans (within_log _ _), hkept, hsome, by rw [← hmoved]⟩

/-- However an assembly ends, it touches its staging and final place, and then perhaps removes
the patches. -/
theorem assemble_effect {fuel : Nat} {o : Outcome (Option Path)}
    (h : assemble r D fuel io fs record = some (o, fs')) : ∃ fs₁,
      Within (fun l => l = r.partAt record.originalName ∨ l = r.finalAt record.originalName)
        fs fs₁ ∧ fs₁.dirs = fs.dirs ∧
      (fs' = fs₁ ∨ fs' = removePatches r io.removes fs₁ record) := by
  obtain ⟨-, hwithin, hdirs⟩ | ⟨fs₁, -, hwithin, hdirs, -, rfl⟩ := assemble_cases h
  · exact ⟨fs', hwithin.mono fun _ => .inl, hdirs, .inl rfl⟩
  · exact ⟨_, (hwithin.mono fun _ => .inl).trans (within_move _ _ _), hdirs, .inr rfl⟩

end Assembly
end SuperVoice.Server
