import SuperVoice.Lib.RawFrame
import SuperVoice.Server.Catalog

/-! What readers find under the published names. An assembly owns its staging file as long as
no other one opens the same location, and then only whole payloads are published. -/
namespace SuperVoice.Server
open Bytes PosixPath FileStore FileStore.FileSystem StreamCodec Transition
variable {r : Root} {D : Decoder} {cat : Catalog} {fs fs' : FileSystem}

/-- The files that storing chunk `i` of `id` writes. -/
def storageFiles (r : Root) (id : Bytes) (i : Nat) : List Location :=
  [r.patchTmpAt id i, r.patchAt id i, r.manifestTmpAt id, r.manifestAt id]

/-- The paths of different payloads and of different uses lead to different places. -/
structure Separate (r : Root) (cat : Catalog) : Prop where
  part : ∀ id p i id' p', cat id = some p → i < p.chunks.length → cat id' = some p' →
    r.partAt p'.name ∉ storageFiles r id i ∧ ¬ r.patchDirAt id <+: r.partAt p'.name
  final : ∀ id p i id' p', cat id = some p → i < p.chunks.length → cat id' = some p' →
    r.finalAt p'.name ∉ storageFiles r id i
  part_ne_final : ∀ id p id' p', cat id = some p → cat id' = some p' →
    r.partAt p.name ≠ r.finalAt p'.name
  patch : ∀ id p i id' p' j, cat id = some p → i < p.chunks.length → cat id' = some p' →
    j < p'.chunks.length → (r.patchAt id i = r.patchAt id' j → id = id' ∧ i = j) ∧
      r.patchAt id i ∉ [r.patchTmpAt id' j, r.manifestTmpAt id', r.manifestAt id']

/-- Ordinary ids and names are separate once no name is another one's staging name. -/
theorem separate_of_ordinary (hord : ∀ id p, cat id = some p → IsComponent id ∧ IsComponent p.name)
    (hpart : ∀ id p id' p', cat id = some p → cat id' = some p' →
      p.name ++ ascii ".part" ≠ p'.name) : Separate r cat := by
  have hfiles : ∀ {id : Bytes} {i : Nat}, IsComponent id → ∀ l, r.files ++ l ∉ storageFiles r id i := by
    intro id i hid l h
    simp only [storageFiles, List.mem_cons, List.not_mem_nil, or_false, patchTmpAt_eq hid,
      patchAt_eq hid, manifestTmpAt_eq hid, manifestAt_eq hid] at h
    rcases h with h | h | h | h <;> exact r.patches_append_ne_files_append _ _ h.symm
  constructor
  · intro id p i id' p' hp _ hp'
    have hbelow := ((nameApart_of_component r (hord id' p' hp').2).not_below (hord id p hp).1).1
    rw [partAt_eq (hord id' p' hp').2] at hbelow ⊢
    exact ⟨hfiles (hord id p hp).1 _, hbelow⟩
  · intro id p i id' p' hp _ hp'
    rw [finalAt_eq (hord id' p' hp').2]
    exact hfiles (hord id p hp).1 _
  · intro id p id' p' hp hp'
    rw [partAt_eq (hord id p hp).2, finalAt_eq (hord id' p' hp').2]
    simpa using hpart id p id' p' hp hp'
  · intro id p i id' p' j hp _ hp' _
    have hid := (hord id p hp).1
    have hid' := (hord id' p' hp').1
    refine ⟨(patchAt_inj hid hid').mp, ?_⟩
    simp [patchAt_ne_patchTmpAt hid hid', (patchAt_ne_manifestAt hid hid').1,
      (patchAt_ne_manifestAt hid hid').2]

/-- Whatever the patch file of chunk `i` holds is that chunk. -/
def Clean (r : Root) (fs : FileSystem) (id : Bytes) (p : Payload) (i : Nat) : Prop :=
  ∀ b, fs.content (r.patchAt id i) = some b → p.chunks[i]? = some b

theorem Clean.of_content {id : Bytes} {p : Payload} {i : Nat} (h : Clean r fs id p i)
    (hc : ∀ b, fs'.content (r.patchAt id i) = some b → fs.content (r.patchAt id i) = some b) :
    Clean r fs' id p i := fun b hb => h b (hc b hb)

/-- The entry is that of its payload, and the patch files it counts on are clean. -/
def EntryClean (r : Root) (cat : Catalog) (fs : FileSystem) (id : Bytes) (e : PayloadEntry) :
    Prop :=
  ∃ p, cat id = some p ∧ 0 < p.chunks.length ∧ Listed r id p e ∧
    ∀ i ∈ e.received, Clean r fs id p i

/-- The record is complete, and the patch files it names are clean. -/
def RecordClean (r : Root) (cat : Catalog) (fs : FileSystem) (record : PayloadRecord) : Prop :=
  ∃ p, cat record.fileId = some p ∧ 0 < p.chunks.length ∧ CompleteRecord r p record ∧
    ∀ i < p.chunks.length, Clean r fs record.fileId p i

/-- The staging file holds what the chunks read so far decompress to. -/
structure Staged (r : Root) (cat : Catalog) (fs : FileSystem) (a : Assembly D) : Prop where
  link : fs.link (r.partAt a.record.originalName) = some a.outFd
  decoded : ∃ p out, cat a.record.fileId = some p ∧
    fs.content (r.partAt a.record.originalName) = some out ∧ a.written = out.length ∧
    a.idx ≤ p.chunks.length ∧ D.Decoding (p.chunks.take a.idx) out a.stream a.pending

/-- The record whose staging file the handler has open or has yet to unlink. -/
def Handler.staging : Handler D → Option PayloadRecord
  | .assembling a => some a.record
  | .failing record => some record
  | _ => none

/-- What a reader finds under a published name was there at the start or is the complete
decompression of all chunks of one payload of that name. -/
def PublishedWhole (r : Root) (D : Decoder) (cat : Catalog) (fs₀ fs : FileSystem) : Prop :=
  ∀ id p, cat id = some p → ∀ out, fs.content (r.finalAt p.name) = some out →
    fs₀.content (r.finalAt p.name) = some out ∨
      ∃ id' p', cat id' = some p' ∧ r.finalAt p'.name = r.finalAt p.name ∧
        D.DecompressesTo p'.chunks out

/-- The effect of storing, expiring and publishing chunks: patch files stay clean, staging
files are not touched, published files at most removed. -/
structure StorageEffect (r : Root) (cat : Catalog) (fs fs' : FileSystem) : Prop where
  clean : ∀ id p i, cat id = some p → i < p.chunks.length → Clean r fs id p i →
    Clean r fs' id p i
  part : ∀ id p, cat id = some p → fs'.link (r.partAt p.name) = fs.link (r.partAt p.name) ∧
    fs'.content (r.partAt p.name) = fs.content (r.partAt p.name)
  final : ∀ id p b, cat id = some p → fs'.content (r.finalAt p.name) = some b →
    fs.content (r.finalAt p.name) = some b

theorem StorageEffect.refl (r : Root) (cat : Catalog) (fs : FileSystem) :
    StorageEffect r cat fs fs :=
  ⟨fun _ _ _ _ _ h => h, fun _ _ _ => ⟨rfl, rfl⟩, fun _ _ _ _ h => h⟩

section Effects
variable (hsep : Separate r cat) {c : ChunkData} {p : Payload} {id : Bytes}
include hsep

/-- Writing manifests or temporary files of known ids. -/
theorem storageEffect_side {q : Location → Prop} (hw : Within q fs fs')
    (hq : ∀ l, q l → ∃ id p i, cat id = some p ∧ i < p.chunks.length ∧
      l ∈ [r.patchTmpAt id i, r.manifestTmpAt id, r.manifestAt id]) :
    StorageEffect r cat fs fs' := by
  have hfile : ∀ l, q l → ∃ id p i, cat id = some p ∧ i < p.chunks.length ∧
      l ∈ storageFiles r id i := by
    intro l hl
    obtain ⟨id, p, i, hp, hi, hmem⟩ := hq l hl
    refine ⟨id, p, i, hp, hi, ?_⟩
    simp only [List.mem_cons, List.not_mem_nil, or_false] at hmem
    rcases hmem with rfl | rfl | rfl <;> simp [storageFiles]
  constructor
  · intro id' p' j hp' hj hclean
    apply hclean.of_content
    intro b hb
    rwa [hw.content fun h => ?_] at hb
    obtain ⟨id, p, i, hp, hi, hmem⟩ := hq _ h
    exact (hsep.patch id' p' j id p i hp' hj hp hi).2 hmem
  · intro id' p' hp'
    have hnot : ¬ q (r.partAt p'.name) := by
      intro h
      obtain ⟨id, p, i, hp, hi, hmem⟩ := hfile _ h
      exact (hsep.part id p i id' p' hp hi hp').1 hmem
    exact ⟨hw.link _ hnot, hw.content hnot⟩
  · intro id' p' b hp' hb
    rwa [hw.content fun h => ?_] at hb
    obtain ⟨id, p, i, hp, hi, hmem⟩ := hfile _ h
    exact hsep.final id p i id' p' hp hi hp' hmem

/-- Committing the patch file of an agreed chunk. -/
theorem storageEffect_patch (hp : cat c.fileId = some p) (hc : Catalog.Agrees p c)
    (hw : Within (fun l => l = r.patchTmpAt c.fileId c.index ∨ l = r.patchAt c.fileId c.index)
      fs fs') (hcontent : fs'.content (r.patchAt c.fileId c.index) = some c.payload) :
    StorageEffect r cat fs fs' := by
  have hfile : ∀ l, (l = r.patchTmpAt c.fileId c.index ∨ l = r.patchAt c.fileId c.index) →
      l ∈ storageFiles r c.fileId c.index := by
    rintro l (rfl | rfl) <;> simp [storageFiles]
  constructor
  · intro id' p' j hp' hj hclean
    obtain ⟨hinj, hne⟩ := hsep.patch id' p' j c.fileId p c.index hp' hj hp hc.index_lt
    by_cases he : r.patchAt id' j = r.patchAt c.fileId c.index
    · obtain ⟨rfl, rfl⟩ := hinj he
      rw [hp] at hp'
      cases hp'
      intro b hb
      rw [hcontent] at hb
      exact hb ▸ hc.payload
    · apply hclean.of_content
      intro b hb
      rwa [hw.content (not_or.mpr ⟨fun h => hne (by simp [h]), he⟩)] at hb
  · intro id' p' hp'
    have hnot := fun h => (hsep.part _ p _ id' p' hp hc.index_lt hp').1 (hfile _ h)
    exact ⟨hw.link _ hnot, hw.content hnot⟩
  · intro id' p' b hp' hb
    rwa [hw.content fun h => hsep.final _ p _ id' p' hp hc.index_lt hp' (hfile _ h)] at hb

/-- Removing patch directories of known ids. -/
theorem storageEffect_remove {q : Location → Prop} (hw : Within q fs fs')
    (hq : ∀ l, q l → ∃ id p, cat id = some p ∧ 0 < p.chunks.length ∧ r.patchDirAt id <+: l)
    (hcontent : ∀ l b, fs'.content l = some b → fs.content l = some b) :
    StorageEffect r cat fs fs' := by
  refine ⟨fun id p i _ _ h => h.of_content (hcontent _), fun id' p' hp' => ?_,
    fun _ _ b _ hb => hcontent _ b hb⟩
  have hnot : ¬ q (r.partAt p'.name) := by
    intro h
    obtain ⟨id, p, hp, hpos, hpre⟩ := hq _ h
    exact (hsep.part id p 0 id' p' hp hpos hp').2 hpre
  exact ⟨hw.link _ hnot, hw.content hnot⟩

/-- What an assembly does to its own staging and published file leaves patch files alone. -/
theorem clean_of_within {q : Location → Prop} {id' : Bytes} {p' : Payload} {i : Nat}
    (hw : Within q fs fs') (hp' : cat id' = some p')
    (hq : ∀ l, q l → l = r.partAt p'.name ∨ l = r.finalAt p'.name) (hp : cat id = some p)
    (hi : i < p.chunks.length) (h : Clean r fs id p i) : Clean r fs' id p i := by
  apply h.of_content
  intro b hb
  rwa [hw.content fun hl => ?_] at hb
  have hmem : r.patchAt id i ∈ storageFiles r id i := by simp [storageFiles]
  rcases hq _ hl with h | h
  · exact (hsep.part id p i id' p' hp hi hp').1 (h ▸ hmem)
  · exact hsep.final id p i id' p' hp hi hp' (h ▸ hmem)

end Effects

/-- Patch files stay clean from `fs` to `fs'`. -/
def KeepsClean (r : Root) (cat : Catalog) (fs fs' : FileSystem) : Prop :=
  ∀ id p i, cat id = some p → i < p.chunks.length → Clean r fs id p i → Clean r fs' id p i

theorem EntryClean.keep {id : Bytes} {e : PayloadEntry} (h : EntryClean r cat fs id e)
    (hk : KeepsClean r cat fs fs') : EntryClean r cat fs' id e :=
  let ⟨p, hp, hpos, hl, hc⟩ := h
  ⟨p, hp, hpos, hl, fun i hi => hk id p i hp (hl.received_lt i hi) (hc i hi)⟩

theorem RecordClean.keep {record : PayloadRecord} (h : RecordClean r cat fs record)
    (hk : KeepsClean r cat fs fs') : RecordClean r cat fs' record :=
  let ⟨p, hp, hpos, hcomplete, hc⟩ := h
  ⟨p, hp, hpos, hcomplete, fun i hi => hk _ p i hp hi (hc i hi)⟩

theorem Staged.keep {a : Assembly D} (h : Staged r cat fs a)
    (hlink : fs'.link (r.partAt a.record.originalName) = fs.link (r.partAt a.record.originalName))
    (hcontent : fs'.content (r.partAt a.record.originalName) =
      fs.content (r.partAt a.record.originalName)) : Staged r cat fs' a where
  link := hlink.trans h.link
  decoded :=
    let ⟨p, out, hp, ho, hrest⟩ := h.decoded
    ⟨p, out, hp, hcontent.trans ho, hrest⟩

theorem PublishedWhole.keep {fs₀ : FileSystem} (h : PublishedWhole r D cat fs₀ fs)
    (hk : ∀ id p b, cat id = some p → fs'.content (r.finalAt p.name) = some b →
      fs.content (r.finalAt p.name) = some b) : PublishedWhole r D cat fs₀ fs' :=
  fun id p hp out ho => h id p hp out (hk id p out hp ho)

/-- What one step of a handler means for publication: `h'` is where it stands afterwards. -/
structure MoveEffect (r : Root) (cat : Catalog) (fs₀ : FileSystem) (h h' : Handler D)
    (w w' : World) : Prop where
  clean : KeepsClean r cat w.fs w'.fs
  entries : ∀ id e, w'.entry id = some e → EntryClean r cat w'.fs id e
  part : ∀ id p, cat id = some p →
    (∀ record, h.staging = some record ∨ h = .ready record →
      r.partAt record.originalName ≠ r.partAt p.name) →
    w'.fs.link (r.partAt p.name) = w.fs.link (r.partAt p.name) ∧
      w'.fs.content (r.partAt p.name) = w.fs.content (r.partAt p.name)
  whole : PublishedWhole r D cat fs₀ w.fs → PublishedWhole r D cat fs₀ w'.fs
  storing : ∀ c, h' = .storing c → ∃ p, cat c.fileId = some p ∧ Catalog.Agrees p c ∧
    Clean r w'.fs c.fileId p c.index
  record : ∀ record, h'.record = some record → RecordClean r cat w'.fs record
  staged : ∀ a, h' = .assembling a → Staged r cat w'.fs a

/-- A step that only stores, expires or removes chunks. -/
theorem moveEffect_storage {fs₀ : FileSystem} {h h' : Handler D} {w w' : World}
    (he : StorageEffect r cat w.fs w'.fs)
    (hentries : ∀ id e, w'.entry id = some e → EntryClean r cat w'.fs id e)
    (hstoring : ∀ c, h' = .storing c → ∃ p, cat c.fileId = some p ∧ Catalog.Agrees p c ∧
      Clean r w'.fs c.fileId p c.index)
    (hrecord : ∀ record, h'.record = some record → RecordClean r cat w'.fs record)
    (hnone : ∀ a, h' ≠ .assembling a) : MoveEffect r cat fs₀ h h' w w' where
  clean := he.clean
  entries := hentries
  part id p hp _ := he.part id p hp
  whole hw := hw.keep he.final
  storing := hstoring
  record := hrecord
  staged a ha := absurd ha (hnone a)

/-- A step of an assembly, which touches its staging file and at most its published file. -/
theorem moveEffect_assembly (hsep : Separate r cat) {fs₀ : FileSystem} {h h' : Handler D}
    {w : World} {q : Location → Prop} {record : PayloadRecord} {p : Payload}
    (hp : cat record.fileId = some p) (hname : record.originalName = p.name)
    (hh : h.staging = some record ∨ h = .ready record) (hw : Within q w.fs fs')
    (hq : ∀ l, q l → l = r.partAt record.originalName ∨ l = r.finalAt record.originalName)
    (hentries : ∀ id e, w.entry id = some e → EntryClean r cat w.fs id e)
    (hwhole : PublishedWhole r D cat fs₀ w.fs → PublishedWhole r D cat fs₀ fs')
    (hstoring : ∀ c, h' ≠ .storing c)
    (hrecord : ∀ record', h'.record = some record' → RecordClean r cat w.fs record')
    (hstaged : ∀ a, h' = .assembling a → Staged r cat fs' a) :
    MoveEffect r cat fs₀ h h' w { w with fs := fs' } := by
  have hclean : KeepsClean r cat w.fs fs' := fun id' p' i hp' hi =>
    clean_of_within hsep hw hp (fun l hl => hname ▸ hq l hl) hp' hi
  refine ⟨hclean, fun id e he => (hentries id e he).keep hclean, fun id' p' hp' hne => ?_, hwhole,
    fun c hc => absurd hc (hstoring c), fun record' hr => (hrecord record' hr).keep hclean,
    hstaged⟩
  have hnot : ¬ q (r.partAt p'.name) := by
    intro hl
    rcases hq _ hl with he | he
    · exact hne record hh he.symm
    · exact hsep.part_ne_final id' p' _ p hp' hp (hname ▸ he)
  exact ⟨hw.link _ hnot, hw.content hnot⟩

/-- One more chunk is decompressed: the staging file grows by its output. -/
theorem staged_decompress {a a' : Assembly D} {fuel : Nat} {io : ChunkIo}
    (hs : Staged r cat fs a) (hr : RecordClean r cat fs a.record)
    (hd : decompressChunk r fuel io fs a = some (.ok a', fs')) : Staged r cat fs' a' := by
  rcases decompressChunk_cases hd with
    ⟨⟨_, hstop⟩, -⟩ | ⟨path, input, fed, hpath, hinput, hfed, rfl, hnext⟩
  · cases hstop
  obtain ⟨hflush, stream, pending, hfednext, rfl⟩ := hnext a' rfl
  obtain ⟨p, out, hp, hout, hwritten, hidx, hdec⟩ := hs.decoded
  obtain ⟨p', hp', -, hcomplete, hclean⟩ := hr
  rw [hp] at hp'
  cases hp'
  rw [hcomplete.files, List.getElem?_map] at hpath
  obtain ⟨i, hi, rfl⟩ := Option.map_eq_some_iff.mp hpath
  obtain ⟨hlt, rfl⟩ := List.getElem?_eq_some_iff.mp hi
  rw [List.length_range] at hlt
  rw [List.getElem_range] at hinput
  have hchunk : p.chunks[a.idx]? = some input := hclean a.idx hlt input hinput
  have hdata : fs.data a.outFd = out := by simpa [content, hs.link] using hout
  have htake : p.chunks.take (a.idx + 1) = p.chunks.take a.idx ++ [input] := by
    rw [List.take_add_one, hchunk]
    rfl
  refine ⟨hs.link, p, out ++ fed.output, hp, ?_, by simp [hwritten], hlt, ?_⟩
  · rw [content_write hs.link, hflush, hdata, hwritten, overwrite_end]
  · rw [htake]
    apply hdec.snoc (n := fuel)
    rw [hfed, ← hfednext]

/-- Registering an agreed chunk whose patch file is clean. -/
theorem entryClean_registerChunk {w w' : World} {c : ChunkData} {p : Payload} {io : StoreIo}
    {now : Int} {o : Outcome (Option PayloadRecord)} (hp : cat c.fileId = some p)
    (hc : Catalog.Agrees p c) (hclean : Clean r w.fs c.fileId p c.index)
    (hentries : ∀ id e, w.entry id = some e → EntryClean r cat w.fs id e)
    (hr : registerChunk r io now w c = (o, w')) :
    Within (fun l => l = r.manifestTmpAt c.fileId ∨ l = r.manifestAt c.fileId) w.fs w'.fs ∧
    (∀ id e, w'.entry id = some e → EntryClean r cat w.fs id e) ∧
    ∀ record, o = .returned (some record) → RecordClean r cat w.fs record := by
  obtain ⟨e₀, e, rfl, hentry, hcase⟩ := registerChunk_cases hr
  have hpos : 0 < p.chunks.length := Nat.zero_lt_of_lt hc.index_lt
  have hold : ∀ e, w.entry c.fileId = some e → Listed r c.fileId p e ∧
      ∀ i ∈ e.received, Clean r w.fs c.fileId p i := by
    intro e he
    obtain ⟨p', hp', -, hl, hcl⟩ := hentries _ e he
    rw [hp] at hp'
    cases hp'
    exact ⟨hl, hcl⟩
  have holdClean : ∀ i ∈ ((w.entry c.fileId).getD .fresh).received,
      Clean r w.fs c.fileId p i := by
    intro i hi
    cases he : w.entry c.fileId with
    | none => simp [he, PayloadEntry.fresh] at hi
    | some e => exact (hold e he).2 i (by simpa [he] using hi)
  have hnew : Listed r c.fileId p e ∧ ∀ i ∈ e.received, Clean r w.fs c.fileId p i := by
    rcases hcase with ⟨-, -, rfl⟩ | ⟨-, -, rfl⟩
    · exact ⟨listed_openRecord hc fun e he => (hold e he).1, holdClean⟩
    · obtain ⟨hl, hrcv⟩ := listed_updateEntry now w.storage.defaultTtl hc
        fun e he => (hold e he).1
      refine ⟨hl, fun i hi => ?_⟩
      rw [hrcv] at hi
      rcases Finset.mem_insert.mp hi with rfl | hi
      · exact hclean
      · exact holdClean i hi
  refine ⟨?_, fun id e' he' => ?_, ?_⟩
  · rcases hcase with ⟨-, hfs, -⟩ | ⟨-, hfs, -⟩
    · rw [hfs]
      exact .refl _ _
    · rw [hfs]
      exact within_persistManifest hnew.1.patchesDir
  · rw [hentry] at he'
    split at he'
    · next hid =>
      cases he'
      subst hid
      exact ⟨p, hp, hpos, hnew⟩
    · exact hentries id e' he'
  · rintro record rfl
    rcases hcase with ⟨ho, -, -⟩ | ⟨ho, -, he⟩
    · cases ho
    · split at ho
      · next hcomplete =>
        cases ho
        have hne : e.received ≠ ∅ := by
          rw [he]
          exact Finset.insert_ne_empty _ _
        have hrcv := hnew.1.complete_iff.mp hcomplete
        refine ⟨p, by rw [hnew.1.fileId]; exact hp, hpos, hnew.1.completeRecord hne hcomplete, ?_⟩
        intro i hi
        rw [hnew.1.fileId]
        exact hnew.2 i (by rw [hrcv]; exact Finset.mem_range.mpr hi)
      · cases ho

/-- Work on a staging file changes nothing that a reader can see. -/
theorem PublishedWhole.stage (hsep : Separate r cat) {fs₀ : FileSystem} {record : PayloadRecord}
    {p : Payload} (h : PublishedWhole r D cat fs₀ fs) (hp : cat record.fileId = some p)
    (hname : record.originalName = p.name)
    (hw : Within (· = r.partAt record.originalName) fs fs') : PublishedWhole r D cat fs₀ fs' := by
  apply h.keep
  intro id' p' b hp' hb
  rwa [hw.content fun he => hsep.part_ne_final _ p id' p' hp hp' (hname ▸ he.symm)] at hb

/-- A staging file whose input is used up holds a whole payload. -/
theorem Staged.whole {as : Assembly D} {p : Payload} (h : Staged r cat fs as)
    (hp : cat as.record.fileId = some p) (hidx : p.chunks.length ≤ as.idx)
    (hpending : as.pending = 0) :
    ∃ out, fs.content (r.partAt as.record.originalName) = some out ∧
      D.DecompressesTo p.chunks out := by
  obtain ⟨p', out, hp', hout, -, -, hdec⟩ := h.decoded
  rw [hp] at hp'
  cases hp'
  rw [List.take_of_length_le hidx, hpending] at hdec
  exact ⟨out, hout, _, hdec⟩

/-- The renamed file is whole, the other published files are not touched. -/
theorem PublishedWhole.publish (hsep : Separate r cat) {fs₀ : FileSystem} {record : PayloadRecord}
    {p : Payload} {out : Bytes} (h : PublishedWhole r D cat fs₀ fs)
    (hp : cat record.fileId = some p) (hname : record.originalName = p.name)
    (hout : fs.content (r.partAt record.originalName) = some out)
    (hwhole : D.DecompressesTo p.chunks out)
    (hren : fs.rename (r.partAt record.originalName) (r.finalAt record.originalName) =
      (true, fs')) : PublishedWhole r D cat fs₀ fs' := by
  obtain ⟨-, rfl⟩ := rename_true hren
  intro id' p' hp' b hb
  have hne : r.finalAt p'.name ≠ r.partAt record.originalName := by
    rw [hname]
    exact (hsep.part_ne_final _ p id' p' hp hp').symm
  by_cases hsame : r.finalAt p'.name = r.finalAt record.originalName
  · rw [hsame, content_move_dst, content_log, hout] at hb
    cases hb
    exact .inr ⟨_, p, hp, by rw [hsame, hname], hwhole⟩
  · rw [content_move_of_ne hne hsame] at hb
    exact h id' p' hp' b hb

/-- Every step of a handler whose chunk is one of the catalog. -/
theorem moveEffect_moves (hsep : Separate r cat) {fs₀ : FileSystem} {h h' : Handler D}
    {w w' : World} {a : HandlerAction} (hm : Moves r h w a h' w')
    (hentries : ∀ id e, w.entry id = some e → EntryClean r cat w.fs id e)
    (hagree : ∀ io c, a = .deliver io c → verifyCrc c = true →
      ∃ p, cat c.fileId = some p ∧ Catalog.Agrees p c)
    (hstoring : ∀ c, h = .storing c → ∃ p, cat c.fileId = some p ∧ Catalog.Agrees p c ∧
      Clean r w.fs c.fileId p c.index)
    (hrecord : ∀ record, h.record = some record → RecordClean r cat w.fs record)
    (hstaged : ∀ as, h = .assembling as → Staged r cat w.fs as) :
    MoveEffect r cat fs₀ h h' w w' := by
  have hmanifest : ∀ {c : ChunkData} {p : Payload}, cat c.fileId = some p → Catalog.Agrees p c →
      Within (fun l => l = r.manifestTmpAt c.fileId ∨ l = r.manifestAt c.fileId) w.fs w'.fs →
      StorageEffect r cat w.fs w'.fs := by
    intro c p hp hc hw
    refine storageEffect_side hsep hw fun l hl => ⟨_, p, _, hp, hc.index_lt, ?_⟩
    rcases hl with rfl | rfl <;> simp
  cases hm with
  | @stored w io c fs hadm hw =>
    obtain ⟨hcrc, hwithin, hcontent⟩ := writePatch_true hw
    obtain ⟨p, hp, hc⟩ := hagree io c rfl hcrc
    have heff := storageEffect_patch hsep hp hc hwithin hcontent
    refine moveEffect_storage heff (fun id e he => (hentries id e he).keep heff.clean) ?_
      (by simp [Handler.record]) (by simp)
    rintro c' hc'
    cases hc'
    exact ⟨p, hp, hc, fun b hb => by rw [hcontent] at hb; exact hb ▸ hc.payload⟩
  | @rejected w io c fs hadm hw =>
    have heff : StorageEffect r cat w.fs fs := by
      by_cases hcrc : verifyCrc c = true
      · obtain ⟨p, hp, hc⟩ := hagree io c rfl hcrc
        apply storageEffect_side hsep (writePatch_false hw)
        rintro l rfl
        exact ⟨_, p, _, hp, hc.index_lt, by simp⟩
      · rw [writePatch_of_not_verified hcrc] at hw
        cases hw
        exact .refl _ _ _
    exact moveEffect_storage heff (fun id e he => (hentries id e he).keep heff.clean)
      (by simp) (by simp [Handler.record]) (by simp)
  | completed hr =>
    obtain ⟨p, hp, hc, hclean⟩ := hstoring _ rfl
    obtain ⟨hw, hent, hrec⟩ := entryClean_registerChunk hp hc hclean hentries hr
    have heff := hmanifest hp hc hw
    refine moveEffect_storage heff (fun id e he => (hent id e he).keep heff.clean) (by simp) ?_
      (by simp)
    rintro record' hrec'
    cases hrec'
    exact (hrec _ rfl).keep heff.clean
  | registered ho hr =>
    obtain ⟨p, hp, hc, hclean⟩ := hstoring _ rfl
    obtain ⟨hw, hent, -⟩ := entryClean_registerChunk hp hc hclean hentries hr
    have heff := hmanifest hp hc hw
    exact moveEffect_storage heff (fun id e he => (hent id e he).keep heff.clean) (by simp)
      (by simp [Handler.record]) (by simp)
  | @opened w io record as fs ho =>
    obtain ⟨p, hp, hpos, hcomplete, hclean⟩ := hrecord record rfl
    obtain ⟨-, has, hopened⟩ := openPart_some ho
    refine moveEffect_assembly hsep hp hcomplete.name (.inr rfl) hopened.within
      (fun l hl => .inl hl) hentries (fun h => h.stage hsep hp hcomplete.name hopened.within) (by simp) ?_ ?_
    · rw [has]
      rintro record' hrec'
      cases hrec'
      exact ⟨p, hp, hpos, hcomplete, hclean⟩
    · rintro as' has'
      cases has'
      rw [has]
      exact ⟨hopened.link_self, p, [], hp, hopened.content_self, rfl, Nat.zero_le _, .nil⟩
  | @refused w io record fs ho =>
    obtain ⟨p, hp, hpos, hcomplete, hclean⟩ := hrecord record rfl
    have hw := within_openPart r D w.fs record io
    rw [ho] at hw
    exact moveEffect_assembly hsep hp hcomplete.name (.inr rfl) hw (fun l hl => .inl hl) hentries
      (fun h => h.stage hsep hp hcomplete.name hw) (by simp) (by simp [Handler.record]) (by simp)
  | @decompressed w fuel io as as' fs hidx hd =>
    have hst := hstaged as rfl
    have hrc := hrecord as.record rfl
    obtain ⟨p, hp, -, hcomplete, -⟩ := hrecord as.record rfl
    have hw := within_decompressChunk hst.link hd
    refine moveEffect_assembly hsep hp hcomplete.name (.inl rfl) hw (fun l hl => .inl hl) hentries
      (fun h => h.stage hsep hp hcomplete.name hw) (by simp) ?_ ?_
    · intro record' hrec'
      rw [Handler.record, (decompressChunk_record hd).1] at hrec'
      cases hrec'
      exact hrc
    · intro b hb
      cases hb
      exact staged_decompress hst hrc hd
  | @failed w fuel io as fs hidx hd =>
    have hst := hstaged as rfl
    have hrc := hrecord as.record rfl
    obtain ⟨p, hp, -, hcomplete, -⟩ := hrecord as.record rfl
    have hw := within_decompressChunk hst.link hd
    refine moveEffect_assembly hsep hp hcomplete.name (.inl rfl) hw (fun l hl => .inl hl) hentries
      (fun h => h.stage hsep hp hcomplete.name hw) (by simp) ?_ (by simp)
    intro record' hrec'
    cases hrec'
    exact hrc
  | @threw w fuel io as fs hidx hd =>
    obtain ⟨p, hp, -, hcomplete, -⟩ := hrecord as.record rfl
    have hw := within_decompressChunk (hstaged as rfl).link hd
    exact moveEffect_assembly hsep hp hcomplete.name (.inl rfl) hw (fun l hl => .inl hl) hentries
      (fun h => h.stage hsep hp hcomplete.name hw) (by simp) (by simp [Handler.record]) (by simp)
  | @published w io as fs hidx hf =>
    have hst := hstaged as rfl
    have hrc := hrecord as.record rfl
    obtain ⟨p, hp, -, hcomplete, -⟩ := hrecord as.record rfl
    obtain ⟨hfin, -⟩ | ⟨hfin, -⟩ | ⟨-, hpending, hren⟩ := finishPart_cases hf
    · cases hfin
    · cases hfin
    obtain ⟨out, hout, hwhole⟩ := hst.whole hp (hcomplete.total ▸ hidx) hpending
    have hw := within_finishPart r w.fs as io
    rw [hf] at hw
    refine moveEffect_assembly hsep hp hcomplete.name (.inl rfl) hw (fun l hl => hl) hentries
      (fun h => h.publish hsep hp hcomplete.name hout hwhole hren) (by simp) ?_ (by simp)
    intro record' hrec'
    cases hrec'
    exact hrc
  | @aborted w io as fs hidx hf =>
    have hrc := hrecord as.record rfl
    obtain ⟨p, hp, -, hcomplete, -⟩ := hrecord as.record rfl
    obtain ⟨-, rfl⟩ | ⟨hfin, -⟩ | ⟨hfin, -⟩ := finishPart_cases hf
    · refine moveEffect_assembly hsep hp hcomplete.name (.inl rfl) (.refl (fun _ => False) _)
        (fun _ h => h.elim) hentries (fun h => h) (by simp) ?_ (by simp)
      intro record' hrec'
      cases hrec'
      exact hrc
    · cases hfin
    · cases hfin
  | @lost w io as fs hidx hf =>
    obtain ⟨p, hp, hpos, hcomplete, hclean⟩ := hrecord as.record rfl
    obtain ⟨hfin, -⟩ | ⟨-, rfl⟩ | ⟨hfin, -⟩ := finishPart_cases hf
    · cases hfin
    · exact moveEffect_assembly hsep hp hcomplete.name (.inl rfl) (within_log (fun _ => False) _)
        (fun _ h => h.elim) hentries (fun h => h) (by simp) (by simp [Handler.record]) (by simp)
    · cases hfin
  | @unlinked w record =>
    obtain ⟨p, hp, hpos, hcomplete, hclean⟩ := hrecord record rfl
    exact moveEffect_assembly hsep hp hcomplete.name (.inl rfl) within_abortPart
      (fun l hl => .inl hl) hentries
      (fun h => h.stage hsep hp hcomplete.name within_abortPart) (by simp)
      (by simp [Handler.record]) (by simp)
  | @removed w record removes =>
    have hrc := hrecord record rfl
    obtain ⟨p, hp, hpos, hcomplete, -⟩ := hrecord record rfl
    have heff : StorageEffect r cat w.fs (removePatches r removes w.fs record) :=
      storageEffect_remove hsep (within_removePatches removes hcomplete.patchesDir)
        (fun l hl => ⟨_, p, hp, hpos, hl.2⟩) fun l b hb => content_removePatches hb
    refine moveEffect_storage heff (fun id e he => (hentries id e he).keep heff.clean) (by simp)
      ?_ (by simp)
    intro record' hrec'
    cases hrec'
    exact hrc.keep heff.clean
  | @marked w record =>
    refine moveEffect_storage (.refl _ _ _) (fun id e he => ?_) (by simp)
      (by simp [Handler.record]) (by simp)
    rw [entry_markPublished] at he
    split at he
    · cases he
    · exact hentries id e he

/-- Chunks of one id are always those of one payload, however often they are delivered. -/
def Resends (cat : Catalog) (_ : System D) : Action → Prop
  | .thread _ (.deliver _ c) => verifyCrc c = true →
    ∃ p, cat c.fileId = some p ∧ Catalog.Agrees p c
  | _ => True

/-- Besides, no handler opens a staging file that another one has open or has yet to unlink. -/
def SoleAssembler (r : Root) (cat : Catalog) (s : System D) : Action → Prop
  | .thread t (.openPart _) => ∀ record, s.handlers t = .ready record → ∀ t' record',
      (s.handlers t').staging = some record' →
        r.partAt record'.originalName ≠ r.partAt record.originalName
  | a => Resends cat s a

/-- The invariant behind whole publication: every open staging file belongs to one handler. -/
structure Publishing (r : Root) (cat : Catalog) (fs₀ : FileSystem) (s : System D) : Prop where
  entries : ∀ id e, s.world.entry id = some e → EntryClean r cat s.world.fs id e
  storing : ∀ t c, s.handlers t = .storing c → ∃ p, cat c.fileId = some p ∧
    Catalog.Agrees p c ∧ Clean r s.world.fs c.fileId p c.index
  records : ∀ t record, (s.handlers t).record = some record →
    RecordClean r cat s.world.fs record
  staged : ∀ t a, s.handlers t = .assembling a → Staged r cat s.world.fs a
  exclusive : ∀ t t' record record', t ≠ t' → (s.handlers t).staging = some record →
    (s.handlers t').staging = some record' →
    r.partAt record.originalName ≠ r.partAt record'.originalName
  whole : PublishedWhole r D cat fs₀ s.world.fs

theorem publishing_start (fs : FileSystem) (ttl : Int) :
    Publishing r cat fs (System.start D fs ttl) where
  entries _ _ h := by simp [System.start, World.entry] at h
  storing _ _ h := by simp [System.start] at h
  records _ _ h := by simp [System.start, Handler.record] at h
  staged _ _ h := by simp [System.start] at h
  exclusive _ _ _ _ _ h := by simp [System.start, Handler.staging] at h
  whole _ _ _ _ h := .inl h

theorem record_of_staging {h : Handler D} {record : PayloadRecord}
    (hs : h.staging = some record) : h.record = some record := by
  cases h <;> simp_all [Handler.staging, Handler.record]

/-- A staging file is opened only from `ready`; otherwise it was the handler's before. -/
theorem staging_moves {h h' : Handler D} {w w' : World} {a : HandlerAction}
    {record : PayloadRecord} (hm : Moves r h w a h' w') (hs : h'.staging = some record) :
    (h = .ready record ∧ ∃ io, a = .openPart io) ∨ h.staging = some record := by
  cases hm with
  | @opened w io record' as fs ho =>
    rw [(openPart_some ho).2.1] at hs
    cases hs
    exact .inl ⟨rfl, io, rfl⟩
  | decompressed hidx hd =>
    simp only [Handler.staging, (decompressChunk_record hd).1] at hs
    exact .inr hs
  | failed | aborted => exact .inr hs
  | _ => simp [Handler.staging] at hs

theorem publishing_thread (hsep : Separate r cat) {fs₀ : FileSystem} {s s' : System D} {t : Nat}
    {a : HandlerAction} (h : Publishing r cat fs₀ s) (hg : SoleAssembler r cat s (.thread t a))
    (hs : step r s (.thread t a) = some s') : Publishing r cat fs₀ s' := by
  obtain ⟨h', w', hm, rfl⟩ := step_thread hs
  have hagree : ∀ io c, a = .deliver io c → verifyCrc c = true →
      ∃ p, cat c.fileId = some p ∧ Catalog.Agrees p c := by
    rintro io c rfl
    exact hg
  have heff : MoveEffect r cat fs₀ _ _ _ _ := moveEffect_moves hsep hm h.entries hagree (h.storing t) (h.records t)
    (h.staged t)
  -- the guard and exclusiveness keep every other staging location apart from that of `t`
  have hapart : ∀ t' record', t' ≠ t → (s.handlers t').staging = some record' →
      ∀ record, (s.handlers t).staging = some record ∨
        (s.handlers t = .ready record ∧ ∃ io, a = .openPart io) →
      r.partAt record.originalName ≠ r.partAt record'.originalName := by
    rintro t' record' ht hst record (hrec | ⟨hready, io, rfl⟩)
    · exact h.exclusive t t' record record' ht.symm hrec hst
    · exact (hg record hready t' record' hst).symm
  refine ⟨heff.entries, fun t' c hc => ?_, fun t' record hrec => ?_, fun t' as has => ?_,
    fun t₁ t₂ rec₁ rec₂ hne h₁ h₂ => ?_, heff.whole h.whole⟩
  · by_cases ht : t' = t
    · subst ht
      exact heff.storing c (by simpa using hc)
    · simp only [Function.update_of_ne ht] at hc
      obtain ⟨p, hp, hc', hclean⟩ := h.storing t' c hc
      exact ⟨p, hp, hc', heff.clean _ p _ hp hc'.index_lt hclean⟩
  · by_cases ht : t' = t
    · subst ht
      exact heff.record record (by simpa using hrec)
    · simp only [Function.update_of_ne ht] at hrec
      exact (h.records t' record hrec).keep heff.clean
  · by_cases ht : t' = t
    · subst ht
      exact heff.staged as (by simpa using has)
    · simp only [Function.update_of_ne ht] at has
      have hst := h.staged t' as has
      obtain ⟨p, -, hp, -⟩ := hst.decoded
      have hstg : (s.handlers t').staging = some as.record := by rw [has]; rfl
      obtain ⟨p', hp', -, hcomplete, -⟩ := h.records t' _ (record_of_staging hstg)
      by_cases hopen : ∃ record, s.handlers t = .ready record ∧ ¬ ∃ io, a = .openPart io
      · -- a ready handler has no other step
        obtain ⟨record, hready, hno⟩ := hopen
        rw [hready] at hm
        cases hm <;> exact absurd ⟨_, rfl⟩ hno
      · obtain ⟨hlink, hcontent⟩ := heff.part _ p' hp' fun record hrec => by
          rw [← hcomplete.name]
          refine hapart t' as.record ht hstg record (hrec.imp_right fun hready => ⟨hready, ?_⟩)
          exact not_not.mp fun hno => hopen ⟨record, hready, hno⟩
        rw [← hcomplete.name] at hlink hcontent
        exact hst.keep hlink hcontent
  · by_cases ht₁ : t₁ = t
    · subst ht₁
      simp only [Function.update_self, Function.update_of_ne hne.symm] at h₁ h₂
      exact hapart t₂ rec₂ hne.symm h₂ rec₁ (staging_moves hm h₁).symm
    · by_cases ht₂ : t₂ = t
      · subst ht₂
        simp only [Function.update_self, Function.update_of_ne hne] at h₁ h₂
        exact (hapart t₁ rec₁ hne h₁ rec₂ (staging_moves hm h₂).symm).symm
      · simp only [Function.update_of_ne ht₁, Function.update_of_ne ht₂] at h₁ h₂
        exact h.exclusive t₁ t₂ rec₁ rec₂ hne h₁ h₂

theorem publishing_step (hsep : Separate r cat) {fs₀ : FileSystem} {s s' : System D} {a : Action}
    (h : Publishing r cat fs₀ s) (hg : SoleAssembler r cat s a) (hs : step r s a = some s') :
    Publishing r cat fs₀ s' := by
  have hstorage : ∀ {w' : World}, StorageEffect r cat s.world.fs w'.fs →
      (∀ id e, w'.entry id = some e → EntryClean r cat w'.fs id e) →
      Publishing r cat fs₀ { s with world := w' } := by
    intro w' heff hentries
    refine ⟨hentries, fun t c hc => ?_, fun t record hrec => (h.records t record hrec).keep heff.clean,
      fun t as has => ?_, h.exclusive, h.whole.keep heff.final⟩
    · obtain ⟨p, hp, hc', hclean⟩ := h.storing t c hc
      exact ⟨p, hp, hc', heff.clean _ p _ hp hc'.index_lt hclean⟩
    · obtain ⟨p, hp, -, hcomplete, -⟩ := h.records t as.record (by rw [has]; rfl)
      have hst := h.staged t as has
      have hpart := heff.part _ p hp
      rw [← hcomplete.name] at hpart
      exact hst.keep hpart.1 hpart.2
  cases a with
  | thread t a => exact publishing_thread hsep h hg hs
  | updateTtl fault newTtl =>
    cases hs
    have hr := refreshed_updateTtl (r := r) fault s.world newTtl
    have heff : StorageEffect r cat s.world.fs (updateTtl r fault s.world newTtl).fs := by
      apply storageEffect_side hsep hr.within
      rintro l ⟨id, e, he, hl⟩
      obtain ⟨p, hp, hpos, hlisted, -⟩ := h.entries id e he
      rw [hlisted.patchesDir] at hl
      refine ⟨id, p, 0, hp, hpos, ?_⟩
      rcases hl with rfl | rfl <;> simp [Root.manifestTmpAt, Root.manifestAt]
    apply hstorage heff
    intro id e' he'
    obtain ⟨e, he, hrec, hrcv⟩ := hr.entry id e' he'
    obtain ⟨p, hp, hpos, hl, hclean⟩ := (h.entries id e he).keep heff.clean
    refine ⟨p, hp, hpos, ⟨?_, ?_, ?_, ?_, ?_, ?_⟩, ?_⟩ <;> simp only [hrec, hrcv]
    exacts [hl.fileId, hl.name, hl.total, hl.patchesDir, hl.files, hl.received_lt, hclean]
  | cleanup removes now =>
    cases hs
    have hc := cleaned_cleanupExpired (r := r) removes now s.world
    have heff : StorageEffect r cat s.world.fs (cleanupExpired r removes now s.world).fs := by
      refine storageEffect_remove hsep hc.within ?_ hc.content
      rintro l ⟨id, e, he, -, -, -, hpre⟩
      obtain ⟨p, hp, hpos, hl, -⟩ := h.entries id e he
      exact ⟨id, p, hp, hpos, by rwa [hl.patchesDir] at hpre⟩
    exact hstorage heff fun id e he => (h.entries id e (hc.entry id e he)).keep heff.clean

/-- Over every run in which chunks are only resent and no staging file is opened while another
handler uses it, a reader never finds a truncated or mixed file under a published name. -/
theorem published_whole (hsep : Separate r cat) {fs : FileSystem} {ttl : Int} {s : System D}
    (h : Reach (step r) (SoleAssembler r cat) (System.start D fs ttl) s) :
    PublishedWhole r D cat fs s.world.fs := by
  have hpub : Publishing r cat fs s :=
    h.invariant (publishing_start fs ttl) fun _ _ _ hi hg hs => publishing_step hsep hi hg hs
  exact hpub.whole

/-- With a single data handler no two assemblies can meet. -/
theorem reach_single {fs : FileSystem} {ttl : Int} {s : System D} {as : List Action}
    (has : ∀ a ∈ as, (∀ t, a.handler = some t → t = 0) ∧ ∀ s : System D, Resends cat s a)
    (h : run (step r) (System.start D fs ttl) as = some s) :
    Reach (step r) (SoleAssembler r cat) (System.start D fs ttl) s := by
  refine Reach.of_run_of (P := fun s : System D => ∀ t, t ≠ 0 → s.handlers t = .idle)
    (fun _ _ => rfl) (fun s a s' hs ha hstep t ht => ?_) (fun s a hs ha => ?_) has h
  · rw [handlers_step_of_ne hstep fun he => ht (ha.1 t he), hs t ht]
  · cases a with
    | updateTtl fault newTtl => trivial
    | cleanup removes now => trivial
    | thread t a =>
      cases a with
      | openPart io =>
        intro record hready t' record' hst
        obtain rfl := ha.1 t rfl
        by_cases ht : t' = 0
        · subst ht
          rw [hready] at hst
          cases hst
        · rw [hs t' ht] at hst
          cases hst
      | _ => exact ha.2 s

/-- The catalog with one payload `x` of one chunk, named `n`. -/
def sampleCatalog (id : Bytes) : Option Payload :=
  if id = ascii "x" then some ⟨ascii "n", [RawFrame.frame (ascii "a")]⟩ else none

theorem separate_sample : Separate .sample sampleCatalog := by
  have hname : ∀ id p, sampleCatalog id = some p → id = ascii "x" ∧ p.name = ascii "n" := by
    intro id p h
    unfold sampleCatalog at h
    split at h
    · next hid => cases h; exact ⟨hid, rfl⟩
    · cases h
  apply separate_of_ordinary
  · intro id p h
    obtain ⟨rfl, hn⟩ := hname id p h
    exact ⟨by decide, hn ▸ by decide⟩
  · intro id p id' p' h h'
    rw [(hname id p h).2, (hname id' p' h').2]
    decide

/-- The only chunk of the sample payload. -/
def sampleChunk : ChunkData :=
  .sealed (ascii "x") (ascii "n") 0 1 1 (RawFrame.frame (ascii "a"))

theorem resends_sampleChunk (s : System D) (t : Nat) (io : StoreIo) :
    Resends sampleCatalog s (.thread t (.deliver io sampleChunk)) :=
  fun _ => ⟨_, if_pos rfl, rfl, rfl, rfl⟩

/-- The sample payload is stored, assembled and published by one handler. -/
theorem published_whole_sample : ∃ s : System RawFrame.decoder,
    s.world.fs.content (Root.sample.finalAt (ascii "n")) = some (ascii "a") ∧
      PublishedWhole .sample RawFrame.decoder sampleCatalog sampleFiles s.world.fs := by
  let labels : List Action :=
    [.thread 0 (.deliver {} sampleChunk), .thread 0 (.register {} 0), .thread 0 (.openPart {}),
      .thread 0 (.decompress 1 {}), .thread 0 (.finish {})]
  have hrun : (run (step .sample) (System.start RawFrame.decoder sampleFiles 1) labels).any
      (fun s => s.world.fs.content (Root.sample.finalAt (ascii "n")) = some (ascii "a")) = true := by
    decide +kernel
  obtain ⟨s, hs, hend⟩ := (Option.any_eq_true ..).mp hrun
  refine ⟨s, of_decide_eq_true hend, published_whole separate_sample (reach_single ?_ hs)⟩
  intro a ha
  simp only [labels, List.mem_cons, List.not_mem_nil, or_false] at ha
  rcases ha with rfl | rfl | rfl | rfl | rfl
  · exact ⟨fun t ht => (Option.some.inj ht).symm, fun s => resends_sampleChunk s 0 {}⟩
  all_goals exact ⟨fun t ht => (Option.some.inj ht).symm, fun _ => trivial⟩

/-- The last chunk is resent, so two handlers assemble the same record; the second one truncates
the staging file just before the first one renames it, and an empty file is published. -/
theorem published_whole_fails : ¬ ∀ (D : Decoder) (r : Root) (cat : Catalog) (fs : FileSystem)
    (ttl : Int) (s : System D), Separate r cat →
      Reach (step r) (Resends cat) (System.start D fs ttl) s →
        PublishedWhole r D cat fs s.world.fs := by
  intro hclaim
  let labels : List Action :=
    [.thread 0 (.deliver {} sampleChunk), .thread 0 (.register {} 0),
      .thread 1 (.deliver {} sampleChunk), .thread 1 (.register {} 0),
      .thread 0 (.openPart {}), .thread 0 (.decompress 1 {}), .thread 1 (.openPart {}),
      .thread 0 (.finish {})]
  have hrun : (run (step .sample) (System.start RawFrame.decoder sampleFiles 1) labels).any
      (fun s => s.world.fs.content (Root.sample.finalAt (ascii "n")) = some []) = true := by
    decide +kernel
  obtain ⟨s, hs, hend⟩ := (Option.any_eq_true ..).mp hrun
  have hok : ∀ a ∈ labels, ∀ s : System RawFrame.decoder, Resends sampleCatalog s a := by
    intro a ha
    simp only [labels, List.mem_cons, List.not_mem_nil, or_false] at ha
    rcases ha with rfl | rfl | rfl | rfl | rfl | rfl | rfl | rfl
    · exact fun s => resends_sampleChunk s 0 {}
    · exact fun _ => trivial
    · exact fun s => resends_sampleChunk s 1 {}
    all_goals exact fun _ => trivial
  have hreach : Reach (step .sample) (Resends sampleCatalog)
      (System.start RawFrame.decoder sampleFiles 1) s :=
    .of_run_of (P := fun _ => True) trivial (fun _ _ _ _ _ _ => trivial)
      (fun s _ _ ha => ha s) hok hs
  rcases hclaim _ _ _ _ _ s separate_sample hreach (ascii "x") _ (if_pos rfl) []
    (of_decide_eq_true hend) with hold | ⟨id, p, hp, -, hdec⟩
  · simp [content, sampleFiles, FileSystem.bare] at hold
  · have hwhole : RawFrame.decoder.DecompressesTo p.chunks (ascii "a") := by
      unfold sampleCatalog at hp
      split at hp
      · cases hp
        exact (RawFrame.decodes (by decide)).decompressesTo RawFrame.terminates (by decide)
          (by simp) (by simp)
      · cases hp
    have := hdec.unique hwhole
    exact absurd this (by decide)

end SuperVoice.Server
