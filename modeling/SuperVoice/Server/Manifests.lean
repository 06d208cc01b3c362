import SuperVoice.Server.PatchFiles

/-! `ids.list`: the manifest of a tracked payload says what is tracked of it, whatever the threads
do in between, as long as no manifest is refused and no patch directory is removed under a handler
that has yet to register its chunk. -/
namespace SuperVoice.Server
open Bytes PosixPath FileStore FileStore.FileSystem StreamCodec Transition
variable {r : Root} {D : Decoder} {fs fs' : FileSystem} {id id' : Bytes}

theorem manifestAt_inj (hid : IsComponent id) (hid' : IsComponent id') :
    (r.manifestAt id = r.manifestAt id' ↔ id = id') ∧ r.manifestAt id ≠ r.manifestTmpAt id' := by
  have hne : ascii "ids.list" ≠ ascii "ids.list.tmp" := by decide
  simp [manifestAt_eq hid, manifestAt_eq hid', manifestTmpAt_eq hid', hne]

theorem patchDirAt_inj (hid : IsComponent id) (hid' : IsComponent id') :
    r.patchDirAt id <+: r.patchDirAt id' ↔ id = id' := by
  rw [patchDirAt_eq hid, patchDirAt_eq hid', List.prefix_append_right_inj]
  simp [List.prefix_cons_iff, eq_comm]

theorem patchDirAt_covers_manifest (hid : IsComponent id) (hid' : IsComponent id')
    (h : r.patchDirAt id <+: r.manifestAt id') : id = id' := by
  rw [patchDirAt_eq hid, manifestAt_eq hid', List.prefix_append_right_inj] at h
  exact (List.cons_prefix_cons.mp h).1

/-- Only patch directories come to the directories there have been. -/
def OnlyPatchDirs (r : Root) (fs₀ fs : FileSystem) : Prop :=
  ∀ l, fs.dirs l = true → fs₀.dirs l = true ∨ ∃ id, IsComponent id ∧ l = r.patchDirAt id

/-- The file system the server starts on: the directories it makes at the start, and none in the
place of a manifest. -/
structure Furnished (r : Root) (fs : FileSystem) : Prop where
  passed : ∀ l ∈ passed r.cwd r.patchesDir, fs.dirs l = true
  manifest : ∀ id, IsComponent id → fs.dirs (r.manifestAt id) = false ∧
    fs.dirs (r.manifestTmpAt id) = false

theorem OnlyPatchDirs.manifest {fs₀ : FileSystem} (h : OnlyPatchDirs r fs₀ fs)
    (hp : Furnished r fs₀) (hid : IsComponent id) :
    fs.dirs (r.manifestAt id) = false ∧ fs.dirs (r.manifestTmpAt id) = false := by
  constructor
  · by_contra hd
    obtain hd | ⟨id', hid', he⟩ := h _ (Bool.not_eq_false _ ▸ hd)
    · rw [(hp.manifest id hid).1] at hd
      cases hd
    · have hlen := congrArg List.length he
      simp [manifestAt_eq hid, patchDirAt_eq hid'] at hlen
  · by_contra hd
    obtain hd | ⟨id', hid', he⟩ := h _ (Bool.not_eq_false _ ▸ hd)
    · rw [(hp.manifest id hid).2] at hd
      cases hd
    · have hlen := congrArg List.length he
      simp [manifestTmpAt_eq hid, patchDirAt_eq hid'] at hlen

/-- The manifest of the entry is there, in its directory. -/
structure ManifestOf (r : Root) (fs : FileSystem) (id : Bytes) (e : PayloadEntry) : Prop where
  dir : fs.dirs (r.patchDirAt id) = true
  content : fs.content (r.manifestAt id) = some (manifestLine e.record e)

theorem dropLast_manifest (hid : IsComponent id) : (r.manifestAt id).dropLast = r.patchDirAt id ∧
    (r.manifestTmpAt id).dropLast = r.patchDirAt id := by
  simp [manifestAt_eq hid, manifestTmpAt_eq hid, patchDirAt_eq hid]

/-- A manifest is written where its directory is, unless it is refused. -/
theorem manifestOf_persistManifest {e : PayloadEntry} (hid : IsComponent id)
    (hdir : fs.dirs (r.patchDirAt id) = true)
    (hfree : fs.dirs (r.manifestAt id) = false ∧ fs.dirs (r.manifestTmpAt id) = false)
    (hpath : e.record.patchesDir = manifestDir r id) :
    ManifestOf r (persistManifest r none fs e.record e) id e := by
  obtain ⟨hlast, hlast'⟩ := dropLast_manifest (r := r) hid
  have hok : (replaceFile none fs (r.manifestTmpAt id) (r.manifestAt id)
      (manifestLine e.record e)).1 = true := by
    refine replaceFile_fst.mpr ⟨rfl, ?_, ?_⟩
    · rw [canHold, hlast', hdir, hfree.2]
      rfl
    · rw [canHold, hlast, hdir, hfree.1]
      rfl
  rw [persistManifest, commitFile, hpath]
  refine ⟨?_, ?_⟩
  · exact (congrFun dirs_replaceFile _).trans hdir
  · exact (replaceFile_true (Prod.ext hok rfl)).2

theorem content_persistManifest {fault : Option Fault} {e : PayloadEntry} (hid : IsComponent id)
    (hid' : IsComponent id') (hne : id' ≠ id) (hpath : e.record.patchesDir = manifestDir r id) :
    (persistManifest r fault fs e.record e).content (r.manifestAt id') =
      fs.content (r.manifestAt id') := by
  apply (within_persistManifest hpath).content
  rintro (he | he)
  · exact (manifestAt_inj hid' hid).2 he
  · exact hne ((manifestAt_inj hid' hid).1.mp he)

theorem dirs_persistManifest {fault : Option Fault} {record : PayloadRecord} {e : PayloadEntry} :
    (persistManifest r fault fs record e).dirs = fs.dirs := dirs_replaceFile

theorem ManifestOf.of_eq {e : PayloadEntry} (h : ManifestOf r fs id e)
    (hdirs : fs'.dirs (r.patchDirAt id) = fs.dirs (r.patchDirAt id))
    (hcontent : fs'.content (r.manifestAt id) = fs.content (r.manifestAt id)) :
    ManifestOf r fs' id e := ⟨hdirs.trans h.dir, hcontent.trans h.content⟩

/-- What a step of a handler leaves of the directories and manifests. -/
structure ManifestEffect (r : Root) (a : HandlerAction) (h : Handler D) (fs₀ fs fs' : FileSystem) :
    Prop where
  dirs : OnlyPatchDirs r fs₀ fs → OnlyPatchDirs r fs₀ fs'
  dir : ∀ id, IsComponent id → fs.dirs (r.patchDirAt id) = true →
    (∀ record, h = .renamed record → a = .removePatches true → id ≠ record.fileId) →
    fs'.dirs (r.patchDirAt id) = true
  content : ∀ id, IsComponent id → (∀ c, h = .storing c → id ≠ c.fileId) →
    (∀ record, h = .renamed record → a = .removePatches true → id ≠ record.fileId) →
    fs'.content (r.manifestAt id) = fs.content (r.manifestAt id)

theorem manifestEffect_files {a : HandlerAction} {h : Handler D} {fs₀ : FileSystem}
    {p : Location → Prop} (hdirs : fs'.dirs = fs.dirs) (hw : Within p fs fs')
    (hp : ∀ id, IsComponent id → (∀ c, h = .storing c → id ≠ c.fileId) → ¬ p (r.manifestAt id)) :
    ManifestEffect r a h fs₀ fs fs' where
  dirs hd l hl := hd l (hdirs ▸ hl)
  dir _ _ hd _ := hdirs ▸ hd
  content id hid hst _ := hw.content (hp id hid hst)

theorem dirs_finishPart {io : AssembleIo} {a : Assembly D} {f : Finished}
    (h : finishPart r io fs a = (f, fs')) : fs'.dirs = fs.dirs := by
  obtain ⟨-, rfl⟩ | ⟨-, rfl⟩ | ⟨-, -, hren⟩ := finishPart_cases h
  · rfl
  · rfl
  · have hdirs : (fs.rename (r.partAt a.record.originalName)
        (r.finalAt a.record.originalName)).2.dirs = fs.dirs := dirs_rename
    rwa [hren] at hdirs

/-- A patch file is written: its directory is there, and no manifest is touched. -/
theorem manifestEffect_writePatch {io : StoreIo} {chunk : ChunkData} {b : Bool} {fs₀ : FileSystem}
    (hp : Furnished r fs₀) (hid : verifyCrc chunk = true → IsComponent chunk.fileId)
    (hw : writePatch r io fs chunk = (b, fs')) :
    ManifestEffect r (.deliver io chunk) (.idle : Handler D) fs₀ fs fs' := by
  by_cases hcrc : verifyCrc chunk = true
  swap
  · rw [writePatch_of_not_verified hcrc] at hw
    cases hw
    exact manifestEffect_files rfl (.refl (fun _ => False) _) fun _ _ _ h => h
  have hc := hid hcrc
  have hdirs := dirs_writePatch hw
  rw [if_pos hcrc] at hdirs
  have hextended := extended_mkdirs (reached r io (manifestDir r chunk.fileId)) fs
  have hwithin : Within (fun l => l = r.patchTmpAt chunk.fileId chunk.index ∨
      l = r.patchAt chunk.fileId chunk.index) fs fs' := by
    cases b with
    | false => exact (writePatch_false hw).mono fun _ => .inl
    | true => exact (writePatch_true hw).2.1
  refine ⟨fun hd l hl => ?_, fun id hid hd _ => ?_, fun id hid _ _ => hwithin.content ?_⟩
  · rw [hdirs] at hl
    obtain hl | hl := hextended.mem_of_dirs l hl
    · exact hd l hl
    · obtain hl | rfl := passed_join_component r.cwd r.no_nul_patchesDir hc (mem_passed_of_reached hl)
      · exact .inl (hp.passed l hl)
      · exact .inr ⟨chunk.fileId, hc, (patchDirAt_eq hc).symm⟩
  · rw [hdirs]
    exact hextended.dirs_of_dirs _ hd
  · rintro (he | he)
    · have hname : ascii "ids.list" ≠ patchFileName chunk.index ++ ascii ".tmp" := by
        have hfirst : ascii "patch_" = 112 :: ascii "atch_" := by decide
        have hother : (ascii "ids.list").head? ≠ some 112 := by decide
        intro h
        rw [h] at hother
        simp [patchFileName, hfirst] at hother
      rw [manifestAt_eq hid, patchTmpAt_eq hc] at he
      simp [hname] at he
    · exact (patchAt_ne_manifestAt hc hid).1 he.symm

theorem manifest_ne_part (hid : IsComponent id) {name : Bytes} (hname : NameApart r name) :
    r.manifestAt id ≠ r.partAt name ∧ r.manifestAt id ≠ r.finalAt name :=
  ⟨fun he => hname.part (he ▸ (patches_prefix_manifest hid).1),
    fun he => hname.final (he ▸ (patches_prefix_manifest hid).1)⟩

theorem manifestEffect_registerChunk {io : StoreIo} {now : Int} {w w' : World} {chunk : ChunkData}
    {a : HandlerAction} {o : Outcome (Option PayloadRecord)} {cs : List ChunkData}
    {fs₀ : FileSystem} (hentries : AllTracked r cs w) (hver : Verified cs chunk)
    (hid : IsComponent chunk.fileId) (hr : registerChunk r io now w chunk = (o, w')) :
    ManifestEffect r a (.storing chunk : Handler D) fs₀ w.fs w'.fs := by
  have hdirs : w'.fs.dirs = w.fs.dirs := by
    obtain ⟨_, e, -, -, ⟨-, hfs, -⟩ | ⟨-, hfs, -⟩⟩ := registerChunk_cases hr
    · rw [hfs]
    · rw [hfs]
      exact dirs_persistManifest
  refine manifestEffect_files hdirs (hentries.registerChunk hver hr).2.2 ?_
  rintro id' hid' hst (he | he)
  · exact (manifestAt_inj hid' hid).2 he
  · exact hst chunk rfl ((manifestAt_inj hid' hid).1.mp he)

/-- A handler's step touches the manifest of no id but that of the chunk it registers, unless it
removes the patch directory. -/
theorem manifestEffect_moves {h h' : Handler D} {w w' : World} {a : HandlerAction}
    {cs : List ChunkData} {fs₀ : FileSystem} (hm : Moves r h w a h' w') (hp : Furnished r fs₀)
    (hentries : AllTracked r cs w)
    (hdeliver : ∀ io c, a = .deliver io c → verifyCrc c = true → IsComponent c.fileId)
    (hstoring : ∀ c, h = .storing c → Verified cs c ∧ IsComponent c.fileId)
    (hrecord : ∀ record, h.record = some record → RecordOf r cs record ∧
      IsComponent record.fileId ∧ NameApart r record.originalName)
    (hstray : ∀ as, h = .assembling as → Stray r w.fs as.outFd) :
    ManifestEffect r a h fs₀ w.fs w'.fs := by
  have hdecompress : ∀ {fuel : Nat} {io : ChunkIo} {as : Assembly D} {o : Except Stop (Assembly D)}
      {fs fs' : FileSystem}, Stray r fs as.outFd → decompressChunk r fuel io fs as = some (o, fs') →
      ManifestEffect r a h fs₀ fs fs' := by
    intro fuel io as o fs fs' hst hd
    obtain ⟨hlink, hdirs⟩ := decompressChunk_link hd
    refine ⟨fun hd l hl => hd l (hdirs ▸ hl), fun _ _ hd _ => hdirs ▸ hd, fun id hid _ _ => ?_⟩
    obtain ⟨-, rfl⟩ | ⟨_, _, _, -, -, -, rfl, -⟩ := decompressChunk_cases hd
    · rfl
    · unfold FileSystem.content write
      cases hl : fs.link (r.manifestAt id) with
      | none => simp
      | some j =>
        have hj : j ≠ as.outFd := fun he => hst.2 _ (patches_prefix_manifest hid).1 (he ▸ hl)
        simp [hj]
  cases hm with
  | stored hadm hw => exact manifestEffect_writePatch hp (hdeliver _ _ rfl) hw
  | rejected hadm hw => exact manifestEffect_writePatch hp (hdeliver _ _ rfl) hw
  | completed hr =>
    obtain ⟨hver, hc⟩ := hstoring _ rfl
    exact manifestEffect_registerChunk hentries hver hc hr
  | registered ho hr =>
    obtain ⟨hver, hc⟩ := hstoring _ rfl
    exact manifestEffect_registerChunk hentries hver hc hr
  | @opened w io record as fs ho =>
    have hwithin := within_openPart r D w.fs record io
    have hdirs : (openPart r D io w.fs record).2.dirs = w.fs.dirs := dirs_openPart
    rw [ho] at hwithin hdirs
    refine manifestEffect_files hdirs hwithin fun id hid _ => ?_
    exact (manifest_ne_part hid (hrecord record rfl).2.2).1
  | @refused w io record fs ho =>
    have hwithin := within_openPart r D w.fs record io
    have hdirs : (openPart r D io w.fs record).2.dirs = w.fs.dirs := dirs_openPart
    rw [ho] at hwithin hdirs
    refine manifestEffect_files hdirs hwithin fun id hid _ => ?_
    exact (manifest_ne_part hid (hrecord record rfl).2.2).1
  | decompressed hidx hd => exact hdecompress (hstray _ rfl) hd
  | failed hidx hd => exact hdecompress (hstray _ rfl) hd
  | threw hidx hd => exact hdecompress (hstray _ rfl) hd
  | published hidx hf | aborted hidx hf | lost hidx hf =>
    rename_i io as fs
    have hwithin := within_finishPart r w.fs as io
    rw [hf] at hwithin
    refine manifestEffect_files (dirs_finishPart hf) hwithin fun id hid _ => ?_
    obtain ⟨hpart, hfinal⟩ := manifest_ne_part hid (hrecord as.record rfl).2.2
    exact not_or.mpr ⟨hpart, hfinal⟩
  | @unlinked w record =>
    refine manifestEffect_files rfl within_abortPart fun id hid _ => ?_
    exact (manifest_ne_part hid (hrecord record rfl).2.2).1
  | @removed w record removes =>
    obtain ⟨hof, hrid, -⟩ := hrecord record rfl
    cases removes with
    | false => exact manifestEffect_files rfl (.refl (fun _ => False) _) fun _ _ _ h => h
    | true =>
      have hwithin : Within (fun l => true = true ∧ r.patchDirAt record.fileId <+: l) w.fs
          (removePatches r true w.fs record) := within_removePatches true hof.patchesDir
      have hdirs : ∀ l, (removePatches r true w.fs record).dirs l = true →
          w.fs.dirs l = true := by
        intro l hl
        rw [removePatches, if_pos rfl, dirs_removeAll] at hl
        split at hl
        · cases hl
        · exact hl
      refine ⟨fun hd l hl => hd l (hdirs l hl), fun id hid hd hne => ?_, fun id hid _ hne => ?_⟩
      · have hcov : ¬ r.locate record.patchesDir <+: r.patchDirAt id := by
          rw [hof.patchesDir]
          exact fun hcov => hne record rfl rfl ((patchDirAt_inj hrid hid).mp hcov).symm
        rw [removePatches, if_pos rfl, dirs_removeAll, if_neg hcov]
        exact hd
      · apply hwithin.content
        rintro ⟨-, hcov⟩
        exact hne record rfl rfl (patchDirAt_covers_manifest hrid hid hcov).symm
  | marked => exact manifestEffect_files rfl (.refl (fun _ => False) _) fun _ _ _ h => h

variable (r) in
/-- The steps under which manifests stay true: no patch directory is removed while a handler has a
chunk in it to register, and no manifest is refused. -/
def KeepsManifests (s : System D) (a : Action) : Prop :=
  KeepsPatches r s a ∧ match a with
    | .thread _ (.register io _) => io.manifest = none
    | .updateTtl fault _ => ∀ id, fault id = none
    | _ => True

/-- A handler has removed the patch directory of the id and is about to drop its entry. -/
def Leaving (s : System D) (id : Bytes) : Prop :=
  ∃ t record, s.handlers t = .removed record ∧ record.fileId = id

/-- The manifests of the entries that have received a chunk are there. -/
structure Mirrored (r : Root) (fs₀ : FileSystem) (s : System D) : Prop where
  kept : Kept r s
  dirs : OnlyPatchDirs r fs₀ s.world.fs
  storing : ∀ t c, s.handlers t = .storing c → s.world.fs.dirs (r.patchDirAt c.fileId) = true
  entries : ∀ id e, s.world.entry id = some e → e.received ≠ ∅ →
    ManifestOf r s.world.fs id e ∨ Leaving s id

theorem mirrored_start (fs : FileSystem) (ttl : Int) :
    Mirrored r fs (System.start D fs ttl) where
  kept := kept_start fs ttl
  dirs _ h := .inl h
  storing _ _ h := by simp [System.start] at h
  entries _ _ h := by simp [System.start, World.entry] at h

/-- A chunk registered where its directory is leaves a manifest of what is tracked then. -/
theorem manifestOf_registerChunk {fs₀ : FileSystem} {io : StoreIo} {now : Int} {w w' : World}
    {chunk : ChunkData} {cs : List ChunkData} {o : Outcome (Option PayloadRecord)} {e : PayloadEntry}
    (hp : Furnished r fs₀) (hdirs : OnlyPatchDirs r fs₀ w.fs) (hentries : AllTracked r cs w)
    (hver : Verified cs chunk) (hid : IsComponent chunk.fileId) (hio : io.manifest = none)
    (hdir : w.fs.dirs (r.patchDirAt chunk.fileId) = true)
    (hr : registerChunk r io now w chunk = (o, w')) (he : w'.entry chunk.fileId = some e)
    (hne : e.received ≠ ∅) :
    ManifestOf r w'.fs chunk.fileId e ∨ w.entry chunk.fileId = some e ∧ w'.fs = w.fs := by
  obtain ⟨hall, -, -⟩ := hentries.registerChunk hver hr
  obtain ⟨e₀, e₁, he₀, hentry, ⟨-, hfs, he₁⟩ | ⟨-, hfs, -⟩⟩ := registerChunk_cases hr
  all_goals
    rw [hentry, if_pos rfl] at he
    cases he
  · -- the list of chunk files could not grow; the record was open already
    right
    cases hold : w.entry chunk.fileId with
    | none =>
      rw [he₁, he₀, hold] at hne
      exact absurd rfl hne
    | some e =>
      rw [hold, Option.getD_some] at he₀
      subst he₀
      obtain ⟨i, hi⟩ := Finset.nonempty_iff_ne_empty.mpr hne
      rw [he₁] at hi
      have hfile := (hentries _ _ hold).chunkFile i hi
      have hopen : e₀.record.chunkFiles ≠ [] := by
        intro hnil
        rw [hnil] at hfile
        cases hfile
      refine ⟨?_, hfs⟩
      rw [he₁, openRecord, if_neg hopen]
  · left
    rw [hfs, hio]
    exact manifestOf_persistManifest hid hdir (hdirs.manifest hp hid)
      (hall _ _ (by rw [hentry, if_pos rfl])).patchesDir

/-- An entry after a step was there before, or a chunk has just been registered for it. -/
theorem entry_moves {h h' : Handler D} {w w' : World} {a : HandlerAction} {e : PayloadEntry}
    (hm : Moves r h w a h' w') (he : w'.entry id = some e) :
    (w.entry id = some e ∧ (∀ record, h = .removed record → record.fileId ≠ id) ∧
        ∀ c, h = .storing c → id ≠ c.fileId) ∨
      ∃ chunk io now o, h = .storing chunk ∧ a = .register io now ∧ id = chunk.fileId ∧
        registerChunk r io now w chunk = (o, w') := by
  cases hm with
  | completed hr | registered ho hr =>
    rename_i io now chunk _
    obtain ⟨_, _, -, hentry, -⟩ := registerChunk_cases hr
    by_cases hid : id = chunk.fileId
    · exact .inr ⟨chunk, io, now, _, rfl, rfl, hid, hr⟩
    · rw [hentry, if_neg hid] at he
      refine .inl ⟨he, by simp, ?_⟩
      rintro c ⟨⟩
      exact hid
  | @marked w record =>
    rw [entry_markPublished] at he
    split at he
    · cases he
    · next hid =>
      refine .inl ⟨he, ?_, by simp⟩
      rintro record ⟨⟩ rfl
      exact hid rfl
  | _ => exact .inl ⟨he, by simp, by simp⟩

theorem dirs_of_stored {io : StoreIo} {chunk : ChunkData} (hid : IsComponent chunk.fileId)
    (hw : writePatch r io fs chunk = (true, fs')) :
    fs'.dirs (r.patchDirAt chunk.fileId) = true := by
  have hlast : (r.patchAt chunk.fileId chunk.index).dropLast = r.patchDirAt chunk.fileId := by
    simp [patchAt_eq hid, patchDirAt_eq hid]
  unfold writePatch at hw
  split at hw
  · split at hw
    · cases hw
    · next fs₁ _ =>
      obtain ⟨-, -, hdst⟩ := replaceFile_fst.mp (congrArg Prod.fst hw)
      have hdir : fs₁.dirs (r.patchAt chunk.fileId chunk.index).dropLast = true :=
        (Bool.and_eq_true_iff.mp hdst).1
      have hsame : fs'.dirs = fs₁.dirs :=
        (congrArg (·.2.dirs) hw).symm.trans dirs_replaceFile
      rw [hsame, ← hlast]
      exact hdir
  · cases hw

theorem mirrored_thread {fs₀ : FileSystem} {s s' : System D} {t : Nat} {a : HandlerAction}
    (hp : Furnished r fs₀) (h : Mirrored r fs₀ s) (hg : KeepsManifests r s (.thread t a))
    (hs : step r s (.thread t a) = some s') : Mirrored r fs₀ s' := by
  have hkept := kept_step h.kept hg.1 hs
  obtain ⟨h', w', hm, rfl⟩ := step_thread hs
  have hstoring : ∀ c, s.handlers t = .storing c → Verified s.deliveries c ∧
      IsComponent c.fileId := by
    intro c hc
    have hver := h.kept.sound.storing t c hc
    exact ⟨hver, (h.kept.ordinary c hver).1⟩
  have heffect : ManifestEffect r a (s.handlers t) fs₀ s.world.fs w'.fs := by
    refine manifestEffect_moves hm hp h.kept.sound.entries ?_ hstoring
      (fun record hrec => h.kept.record hrec) (h.kept.stray t)
    rintro io c rfl hcrc
    exact (hg.1 hcrc).1
  refine ⟨hkept, heffect.dirs h.dirs, fun t' c hc => ?_, fun id e he hne => ?_⟩
  · by_cases ht : t' = t
    · subst ht
      simp only [Function.update_self] at hc
      subst hc
      generalize s.handlers t' = hd at hm
      cases hm with
      | stored hadm hw => exact dirs_of_stored (hg.1 (writePatch_true hw).1).1 hw
    · simp only [Function.update_of_ne ht] at hc
      have hver := h.kept.sound.storing t' c hc
      apply heffect.dir _ (h.kept.ordinary c hver).1 (h.storing t' c hc)
      rintro record hren rfl
      exact hg.1 rfl record hren t' c hc
  · obtain ⟨he₀, hstays, hother⟩ | ⟨chunk, io, now, o, hst, rfl, rfl, hr⟩ := entry_moves hm he
    · obtain hlisted | ⟨t', record, hrem, hid⟩ := h.entries id e he₀ hne
      · have hc := h.kept.component he₀
        by_cases hgone : ∃ record, s.handlers t = .renamed record ∧ a = .removePatches true ∧
            id = record.fileId
        · obtain ⟨record, hren, rfl, rfl⟩ := hgone
          rw [hren] at hm
          cases hm
          exact .inr ⟨t, record, by simp, rfl⟩
        · have hne' : ∀ record, s.handlers t = .renamed record → a = .removePatches true →
              id ≠ record.fileId := fun record hren ha hid => hgone ⟨record, hren, ha, hid⟩
          refine .inl ⟨heffect.dir id hc hlisted.dir hne', ?_⟩
          rw [heffect.content id hc hother hne']
          exact hlisted.content
      · by_cases ht : t' = t
        · subst ht
          exact absurd hid (hstays record hrem)
        · exact .inr ⟨t', record, by simpa [ht] using hrem, hid⟩
    · obtain ⟨hver, hc⟩ := hstoring chunk hst
      obtain hlisted | ⟨he₀, hfs⟩ := manifestOf_registerChunk hp h.dirs h.kept.sound.entries hver hc hg.2
        (h.storing t chunk hst) hr he hne
      · exact .inl hlisted
      · obtain hlisted | ⟨t', record, hrem, hid⟩ := h.entries _ e he₀ hne
        · exact .inl (hfs ▸ hlisted)
        · have ht : t' ≠ t := by
            rintro rfl
            rw [hst] at hrem
            cases hrem
          exact .inr ⟨t', record, by simpa [ht] using hrem, hid⟩

/-- A pass of `update_ttl` writes every manifest anew where it was. -/
theorem mirrored_updateTtl {fs₀ : FileSystem} {s s' : System D} {fault : Bytes → Option Fault}
    {newTtl : Int} (hp : Furnished r fs₀) (h : Mirrored r fs₀ s)
    (hg : KeepsManifests r s (.updateTtl fault newTtl))
    (hs : step r s (.updateTtl fault newTtl) = some s') : Mirrored r fs₀ s' := by
  have hkept := kept_step h.kept hg.1 hs
  cases hs
  have hpass : (updateTtl r fault s.world newTtl).fs.dirs = s.world.fs.dirs ∧
      ∀ id e, (updateTtl r fault s.world newTtl).entry id = some e →
        (IsComponent id ∧ e.record.patchesDir = manifestDir r id) ∧
        (e.received ≠ ∅ → ManifestOf r (updateTtl r fault s.world newTtl).fs id e ∨ Leaving s id) := by
    unfold updateTtl
    apply forEntries_induct (P := fun w => w.fs.dirs = s.world.fs.dirs ∧ ∀ id e, w.entry id = some e →
      (IsComponent id ∧ e.record.patchesDir = manifestDir r id) ∧
        (e.received ≠ ∅ → ManifestOf r w.fs id e ∨ Leaving s id))
    · refine ⟨rfl, fun id e he => ⟨⟨h.kept.component he, ?_⟩, h.entries id e he⟩⟩
      exact (h.kept.sound.entries id e he).patchesDir
    · rintro w id e ⟨hdirs, hw⟩ he
      obtain ⟨⟨hid, hpath⟩, hlisted⟩ := hw id e he
      refine ⟨dirs_persistManifest.trans hdirs, fun id' e' he' => ?_⟩
      rw [resetTtl, entry_insert] at he'
      split at he'
      · next heq =>
        subst heq
        cases he'
        refine ⟨⟨hid, hpath⟩, fun hne => ?_⟩
        apply (hlisted hne).imp_left
        intro hl
        have hfree : OnlyPatchDirs r fs₀ w.fs := fun l hl => h.dirs l (hdirs ▸ hl)
        rw [resetTtl, hg.2 id']
        exact manifestOf_persistManifest (e := { e with ttl := newTtl }) hid hl.dir
          (hfree.manifest hp hid) hpath
      · next hne =>
        obtain ⟨⟨hid', hpath'⟩, hlisted'⟩ := hw id' e' he'
        refine ⟨⟨hid', hpath'⟩, fun hr => (hlisted' hr).imp_left fun hl => hl.of_eq ?_ ?_⟩
        · exact congrFun dirs_persistManifest _
        · exact content_persistManifest (e := { e with ttl := newTtl }) hid hid' hne hpath
  refine ⟨hkept, fun l hl => h.dirs l (hpass.1 ▸ hl), fun t c hc => ?_, fun id e he hne => ?_⟩
  · rw [show (updateTtl r fault s.world newTtl).fs.dirs = s.world.fs.dirs from hpass.1]
    exact h.storing t c hc
  · exact (hpass.2 id e he).2 hne

/-- What a pass of `cleanup_expired` takes of the directories: only what lies below the patch
directory of an expired entry that is gone afterwards. -/
structure DirsSwept (removes : Bytes → Bool) (now : Int) (r : Root) (w w' : World) : Prop where
  entry : ∀ id e, w'.entry id = some e → w.entry id = some e
  sub : ∀ l, w'.fs.dirs l = true → w.fs.dirs l = true
  dir : ∀ l, w.fs.dirs l = true → w'.fs.dirs l = true ∨ ∃ id e, w.entry id = some e ∧
    expired now e = true ∧ removes id = true ∧ w'.entry id = none ∧
      r.locate e.record.patchesDir <+: l

theorem dirsSwept_cleanupExpired (removes : Bytes → Bool) (now : Int) (w : World) :
    DirsSwept removes now r w (cleanupExpired r removes now w) := by
  unfold cleanupExpired
  apply forEntries_induct (P := DirsSwept removes now r w)
  · exact ⟨fun _ _ h => h, fun _ h => h, fun _ h => .inl h⟩
  · intro w₁ id e h he
    split
    swap
    · exact h
    next hexp =>
    have hdirs : ∀ l, (expireEntry r removes w₁ id e).fs.dirs l =
        if removes id = true ∧ r.locate e.record.patchesDir <+: l then false
        else w₁.fs.dirs l := by
      intro l
      unfold expireEntry
      cases removes id with
      | true => simp [dirs_removeAll]
      | false => simp
    refine ⟨fun id' e' he' => ?_, fun l hl => ?_, fun l hl => ?_⟩
    · rw [entry_expireEntry] at he'
      split at he'
      · cases he'
      · exact h.entry id' e' he'
    · rw [hdirs] at hl
      split at hl
      · cases hl
      · exact h.sub l hl
    · by_cases hcov : removes id = true ∧ r.locate e.record.patchesDir <+: l
      · exact .inr ⟨id, e, h.entry id e he, hexp, hcov.1, by rw [entry_expireEntry, if_pos rfl],
          hcov.2⟩
      · rw [hdirs, if_neg hcov]
        obtain hl | ⟨id', e', h₁, h₂, h₃, h₄, h₅⟩ := h.dir l hl
        · exact .inl hl
        · refine .inr ⟨id', e', h₁, h₂, h₃, ?_, h₅⟩
          rw [entry_expireEntry]
          split
          · rfl
          · exact h₄

theorem mirrored_cleanup {fs₀ : FileSystem} {s s' : System D} {removes : Bytes → Bool} {now : Int}
    (h : Mirrored r fs₀ s) (hg : KeepsManifests r s (.cleanup removes now))
    (hs : step r s (.cleanup removes now) = some s') : Mirrored r fs₀ s' := by
  have hkept := kept_step h.kept hg.1 hs
  cases hs
  have hc := cleaned_cleanupExpired (r := r) removes now s.world
  have hswept := dirsSwept_cleanupExpired (r := r) removes now s.world
  have hdir : ∀ {id}, IsComponent id → s.world.fs.dirs (r.patchDirAt id) = true →
      (∀ e, s.world.entry id = some e → expired now e = true → removes id = true →
        (cleanupExpired r removes now s.world).entry id = none → False) →
      (cleanupExpired r removes now s.world).fs.dirs (r.patchDirAt id) = true := by
    intro id hid hd hstays
    obtain hd | ⟨id', e, he, hexp, hrem, hnone, hcov⟩ := hswept.dir _ hd
    · exact hd
    · rw [(h.kept.sound.entries id' e he).patchesDir] at hcov
      obtain rfl := (patchDirAt_inj (h.kept.component he) hid).mp hcov
      exact (hstays e he hexp hrem hnone).elim
  refine ⟨hkept, fun l hl => h.dirs l (hswept.sub l hl), fun t c hst => ?_, fun id e he hne => ?_⟩
  · apply hdir (h.kept.ordinary c (h.kept.sound.storing t c hst)).1 (h.storing t c hst)
    intro e he hexp hrem _
    rw [hg.1 t c e hst he hexp] at hrem
    cases hrem
  · have he₀ := hc.entry id e he
    apply (h.entries id e he₀ hne).imp_left
    intro hlisted
    have hgone : (cleanupExpired r removes now s.world).entry id ≠ none := by
      rw [he]
      exact Option.some_ne_none e
    refine ⟨hdir (h.kept.component he₀) hlisted.dir fun _ _ _ _ hnone => hgone hnone, ?_⟩
    rw [← hlisted.content]
    apply hc.within.content
    rintro ⟨id', e', he', -, -, hnone, hcov⟩
    rw [(h.kept.sound.entries id' e' he').patchesDir] at hcov
    obtain rfl := patchDirAt_covers_manifest (h.kept.component he') (h.kept.component he₀) hcov
    exact hgone hnone

/-- Over every run that keeps the patch directories of chunks about to be registered, every payload
that has received a chunk has its manifest on disk, with what is tracked of it now. -/
theorem manifests_mirror {s : System D} {fs : FileSystem} {ttl : Int} (hp : Furnished r fs)
    (h : Reach (step r) (KeepsManifests r) (System.start D fs ttl) s) {e : PayloadEntry}
    (he : s.world.entry id = some e) (hne : e.received ≠ ∅) :
    s.world.fs.content (r.manifestAt id) = some (manifestLine e.record e) ∨ Leaving s id := by
  have hmirrored : Mirrored r fs s := by
    apply h.invariant (mirrored_start fs ttl)
    intro s a s' h hg hs
    cases a with
    | thread t a => exact mirrored_thread hp h hg hs
    | updateTtl fault newTtl => exact mirrored_updateTtl hp h hg hs
    | cleanup removes now => exact mirrored_cleanup h hg hs
  exact (hmirrored.entries id e he hne).imp_left ManifestOf.content

theorem furnished_sample : Furnished .sample sampleFiles := by
  refine ⟨by decide +kernel, fun id hid => ?_⟩
  have hlong : ∀ l : Location, 4 < l.length → sampleFiles.dirs l = false := by
    intro l hl
    have hpatches : Root.sample.patches.length ≤ 4 := by decide +kernel
    have hfiles : Root.sample.files.length ≤ 4 := by decide +kernel
    have hno : ∀ p : Location, p.length ≤ 4 → ¬ l <+: p := by
      intro p hp h
      exact absurd (h.length_le.trans hp) (Nat.not_le_of_lt hl)
    simp [sampleFiles, bare, hno _ hpatches, hno _ hfiles]
  have hpatches : 3 ≤ Root.sample.patches.length := by decide +kernel
  constructor
  · apply hlong
    rw [manifestAt_eq hid, List.length_append, List.length_cons, List.length_singleton]
    omega
  · apply hlong
    rw [manifestTmpAt_eq hid, List.length_append, List.length_cons, List.length_singleton]
    omega

/-- One chunk of two is stored, and then a new TTL is set. -/
theorem manifests_mirror_sample : ∃ (s : System RawFrame.decoder) (e : PayloadEntry),
    s.world.entry (ascii "x") = some e ∧ manifestLine e.record e = ascii "x,n,2,60,partial\n" ∧
      (s.world.fs.content (Root.sample.manifestAt (ascii "x")) = some (manifestLine e.record e) ∨
        Leaving s (ascii "x")) := by
  let start : System RawFrame.decoder := .start RawFrame.decoder sampleFiles 3600
  let labels : List Action :=
    [.thread 0 (.deliver {} (.sealed (ascii "x") (ascii "n") 0 2 1 (ascii "a"))),
      .thread 0 (.register {} 2500000000), .updateTtl (fun _ => none) 60]
  have hlabels : ∀ a ∈ labels, ∀ s : System RawFrame.decoder, KeepsManifests .sample s a := by
    intro a ha s
    simp only [labels, List.mem_cons, List.not_mem_nil, or_false] at ha
    obtain rfl | rfl | rfl := ha
    · exact ⟨fun _ => ⟨by decide, nameApart_of_component _ (by decide)⟩, trivial⟩
    · exact ⟨trivial, rfl⟩
    · exact ⟨trivial, fun _ => rfl⟩
  have hrun : (run (step .sample) start labels).any (fun s =>
      (s.world.entry (ascii "x")).any fun e => e.received ≠ ∅ ∧
        manifestLine e.record e = ascii "x,n,2,60,partial\n") = true := by decide +kernel
  obtain ⟨s, hs, hend⟩ := (Option.any_eq_true ..).mp hrun
  obtain ⟨e, he, hend⟩ := (Option.any_eq_true ..).mp hend
  obtain ⟨hne, hline⟩ := of_decide_eq_true hend
  have hreach : Reach (step .sample) (KeepsManifests .sample) start s :=
    .of_run_all hlabels hs
  exact ⟨s, e, he, hline, manifests_mirror furnished_sample hreach he hne⟩

end SuperVoice.Server
