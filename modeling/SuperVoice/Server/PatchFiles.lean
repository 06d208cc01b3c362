import SuperVoice.Lib.RawFrame
import SuperVoice.Server.Tracking

/-! The patch files of tracked chunks stay on disk as long as no patch directory is removed
under a handler that has written its patch file and not yet registered the chunk. -/
namespace SuperVoice.Server
open Bytes PosixPath FileStore FileStore.FileSystem StreamCodec Transition
variable {r : Root} {D : Decoder} {fs fs' : FileSystem}

/-- The patch file of chunk `i` of `id` holds a payload delivered for it. -/
def Held (r : Root) (cs : List ChunkData) (fs : FileSystem) (id : Bytes) (i : Nat) : Prop :=
  ∃ c ∈ cs, c.fileId = id ∧ c.index = i ∧ fs.content (r.patchAt id i) = some c.payload

/-- An inode in use that has no name below the patches directory. -/
def Stray (r : Root) (fs : FileSystem) (fd : Nat) : Prop :=
  fd < fs.fresh ∧ ∀ l, r.patches <+: l → fs.link l ≠ some fd

theorem Held.of_content {cs cs' : List ChunkData} {id : Bytes} {i : Nat}
    (h : Held r cs fs id i) (hcs : cs ⊆ cs')
    (hc : fs'.content (r.patchAt id i) = fs.content (r.patchAt id i)) : Held r cs' fs' id i :=
  let ⟨c, hmem, hid, hi, hcontent⟩ := h
  ⟨c, hcs hmem, hid, hi, hc.trans hcontent⟩

theorem Stray.inside {fd : Nat} (h : Stray r fs fd) (hw : Within (r.patches <+: ·) fs fs') :
    Stray r fs' fd :=
  let ⟨hlt, hlink, _⟩ := hw.unnamed h.1 h.2
  ⟨hlt, hlink⟩

theorem Stray.outside {fd : Nat} (h : Stray r fs fd)
    (hw : Within (fun l => ¬ r.patches <+: l) fs fs') : Stray r fs' fd :=
  ⟨h.1.trans_le hw.fresh_le, fun l hl => by rw [hw.link l (not_not.mpr hl)]; exact h.2 l hl⟩

/-- The effect of a handler's step on files below and beside the patches directory. -/
structure PatchEffect (r : Root) (a : HandlerAction) (h : Handler D) (fs fs' : FileSystem) :
    Prop where
  held : ∀ cs id i, IsComponent id → Held r cs fs id i →
    (∀ record, h = .renamed record → a = .removePatches true → id ≠ record.fileId) →
    Held r (cs ++ a.delivered) fs' id i
  stray : ∀ fd, Stray r fs fd → Stray r fs' fd

theorem patchEffect_inside {a : HandlerAction} {h : Handler D} {p : Location → Prop}
    (hw : Within p fs fs') (hp : ∀ l, p l → r.patches <+: l)
    (hne : ∀ id i, IsComponent id → ¬ p (r.patchAt id i)) : PatchEffect r a h fs fs' where
  held _ id i hid hheld _ := hheld.of_content (by simp) (hw.content (hne id i hid))
  stray _ hfd := hfd.inside (hw.mono hp)

theorem patchEffect_outside {a : HandlerAction} {h : Handler D} {p : Location → Prop}
    (hw : Within p fs fs') (hp : ∀ l, p l → ¬ r.patches <+: l) : PatchEffect r a h fs fs' where
  held _ id i hid hheld _ := hheld.of_content (by simp)
    (hw.content fun hpl => hp _ hpl (patches_prefix_patchAt hid i))
  stray _ hfd := hfd.outside (hw.mono hp)

theorem patchEffect_manifest {a : HandlerAction} {h : Handler D} {id : Bytes}
    (hid : IsComponent id)
    (hw : Within (fun l => l = r.manifestTmpAt id ∨ l = r.manifestAt id) fs fs') :
    PatchEffect r a h fs fs' := by
  refine patchEffect_inside hw ?_ ?_
  · rintro l (rfl | rfl)
    · exact (patches_prefix_manifest hid).2
    · exact (patches_prefix_manifest hid).1
  · rintro id' i hid' (he | he)
    · exact (patchAt_ne_manifestAt hid' hid).2 he
    · exact (patchAt_ne_manifestAt hid' hid).1 he

theorem patchEffect_decompress {a : HandlerAction} {h : Handler D} {fuel : Nat} {io : ChunkIo}
    {as : Assembly D} {o : Except Stop (Assembly D)} (hstray : Stray r fs as.outFd)
    (hd : decompressChunk r fuel io fs as = some (o, fs')) : PatchEffect r a h fs fs' := by
  rcases decompressChunk_cases hd with ⟨-, rfl⟩ | ⟨_, _, _, -, -, -, rfl, -⟩
  · exact patchEffect_outside (.refl (fun _ => False) _) (fun _ h => h.elim)
  · refine ⟨fun cs id i hid hheld _ => hheld.of_content (by simp) ?_, fun fd hfd => hfd⟩
    unfold content write
    cases hl : fs.link (r.patchAt id i) with
    | none => simp
    | some j =>
      have hj : j ≠ as.outFd := fun he => hstray.2 _ (patches_prefix_patchAt hid i) (he ▸ hl)
      simp [hj]

/-- What handlers do when ids are ordinary and names lead out of the patches directory. -/
theorem patchEffect_moves {h h' : Handler D} {w w' : World} {a : HandlerAction}
    {cs : List ChunkData} (hm : Moves r h w a h' w') (hentries : AllTracked r cs w)
    (hdeliver : ∀ io c, a = .deliver io c → verifyCrc c = true → IsComponent c.fileId)
    (hstoring : ∀ c, h = .storing c → Verified cs c ∧ IsComponent c.fileId)
    (hrecord : ∀ record, h.record = some record → RecordOf r cs record ∧
      IsComponent record.fileId ∧ NameApart r record.originalName)
    (hstray : ∀ as, h = .assembling as → Stray r w.fs as.outFd) :
    PatchEffect r a h w.fs w'.fs := by
  have hpart : ∀ {record : PayloadRecord}, h.record = some record → ∀ l, l = r.partAt record.originalName →
      ¬ r.patches <+: l := by
    rintro record hrec l rfl
    exact (hrecord record hrec).2.2.part
  have hfinal : ∀ {record : PayloadRecord}, h.record = some record → ∀ l,
      l = r.partAt record.originalName ∨ l = r.finalAt record.originalName →
      ¬ r.patches <+: l := by
    rintro record hrec l (rfl | rfl)
    · exact (hrecord record hrec).2.2.part
    · exact (hrecord record hrec).2.2.final
  cases hm with
  | @stored w io c fs hadm hw =>
    obtain ⟨hcrc, hwithin, hcontent⟩ := writePatch_true hw
    have hc : IsComponent c.fileId := hdeliver _ c rfl hcrc
    constructor
    · intro cs id i hid hheld _
      by_cases he : id = c.fileId ∧ i = c.index
      · obtain ⟨rfl, rfl⟩ := he
        exact ⟨c, by simp [HandlerAction.delivered], rfl, rfl, hcontent⟩
      · refine hheld.of_content (by simp) (hwithin.content ?_)
        rintro (h | h)
        · exact patchAt_ne_patchTmpAt hid hc h
        · exact he ((patchAt_inj hid hc).mp h)
    · refine fun fd hfd => hfd.inside (hwithin.mono ?_)
      rintro l (rfl | rfl)
      · exact patches_prefix_patchTmpAt hc _
      · exact patches_prefix_patchAt hc _
  | @rejected w io c fs hadm hw =>
    by_cases hcrc : verifyCrc c = true
    · have hc : IsComponent c.fileId := hdeliver _ c rfl hcrc
      refine patchEffect_inside (writePatch_false hw) ?_ ?_
      · rintro l rfl
        exact patches_prefix_patchTmpAt hc _
      · intro id i hid
        exact patchAt_ne_patchTmpAt hid hc
    · rw [writePatch_of_not_verified hcrc] at hw
      cases hw
      exact patchEffect_outside (.refl (fun _ => False) _) (fun _ h => h.elim)
  | completed hr =>
    obtain ⟨hver, hc⟩ := hstoring _ rfl
    exact patchEffect_manifest hc (hentries.registerChunk hver hr).2.2
  | registered ho hr =>
    obtain ⟨hver, hc⟩ := hstoring _ rfl
    exact patchEffect_manifest hc (hentries.registerChunk hver hr).2.2
  | @opened w io record as fs ho =>
    have hw := within_openPart r D w.fs record io
    rw [ho] at hw
    exact patchEffect_outside hw (hpart rfl)
  | @refused w io record fs ho =>
    have hw := within_openPart r D w.fs record io
    rw [ho] at hw
    exact patchEffect_outside hw (hpart rfl)
  | decompressed hidx hd => exact patchEffect_decompress (hstray _ rfl) hd
  | failed hidx hd => exact patchEffect_decompress (hstray _ rfl) hd
  | threw hidx hd => exact patchEffect_decompress (hstray _ rfl) hd
  | @published w io as fs hidx hf =>
    have hw := within_finishPart r w.fs as io
    rw [hf] at hw
    exact patchEffect_outside hw (hfinal rfl)
  | @aborted w io as fs hidx hf =>
    have hw := within_finishPart r w.fs as io
    rw [hf] at hw
    exact patchEffect_outside hw (hfinal rfl)
  | @lost w io as fs hidx hf =>
    have hw := within_finishPart r w.fs as io
    rw [hf] at hw
    exact patchEffect_outside hw (hfinal rfl)
  | unlinked => exact patchEffect_outside within_abortPart (hpart rfl)
  | @removed w record removes =>
    obtain ⟨hof, hc, -⟩ := hrecord record rfl
    have hw : Within _ w.fs _ := within_removePatches removes hof.patchesDir
    constructor
    · intro cs id i hid hheld hne
      refine hheld.of_content (by simp) (hw.content ?_)
      rintro ⟨rfl, hpre⟩
      exact hne record rfl rfl (patchDirAt_covers hc hid hpre).symm
    · refine fun fd hfd => hfd.inside (hw.mono ?_)
      rintro l ⟨-, hpre⟩
      exact (patches_prefix_patchDirAt hc).trans hpre
  | marked => exact patchEffect_outside (.refl (fun _ => False) _) (fun _ h => h.elim)

/-- An index enters a received set only when its chunk is registered. -/
theorem received_moves {h h' : Handler D} {w w' : World} {a : HandlerAction} {id : Bytes}
    {e' : PayloadEntry} {i : Nat} (hm : Moves r h w a h' w') (he : w'.entry id = some e')
    (hi : i ∈ e'.received) :
    (∃ e, w.entry id = some e ∧ i ∈ e.received) ∨
      ∃ c, h = .storing c ∧ c.fileId = id ∧ c.index = i := by
  have hregister : ∀ {io now c o}, registerChunk r io now w c = (o, w') → h = .storing c →
      (∃ e, w.entry id = some e ∧ i ∈ e.received) ∨
        ∃ c, h = .storing c ∧ c.fileId = id ∧ c.index = i := by
    intro io now c o hr hh
    obtain ⟨e₀, e₁, rfl, hentry, hcase⟩ := registerChunk_cases hr
    rw [hentry] at he
    split at he
    swap
    · exact .inl ⟨e', he, hi⟩
    next hid =>
    subst hid
    cases he
    have hold : i ∈ ((w.entry c.fileId).getD .fresh).received →
        ∃ e, w.entry c.fileId = some e ∧ i ∈ e.received := by
      intro hmem
      cases hw : w.entry c.fileId with
      | none => simp [hw, PayloadEntry.fresh] at hmem
      | some e => exact ⟨e, rfl, by simpa [hw] using hmem⟩
    rcases hcase with ⟨-, -, rfl⟩ | ⟨-, -, rfl⟩
    · exact .inl (hold hi)
    · rcases Finset.mem_insert.mp hi with rfl | hi
      · exact .inr ⟨c, hh, rfl, rfl⟩
      · exact .inl (hold hi)
  cases hm with
  | completed hr => exact hregister hr rfl
  | registered ho hr => exact hregister hr rfl
  | marked =>
    rw [entry_markPublished] at he
    split at he
    · cases he
    · exact .inl ⟨e', he, hi⟩
  | _ => exact .inl ⟨e', he, hi⟩

variable (r) in
/-- The steps after which the patch files of tracked chunks are still there: ids are ordinary,
names lead out of the patches directory, and a patch directory is not removed while a handler
stands between writing a patch file into it and registering the chunk. -/
def KeepsPatches (s : System D) : Action → Prop
  | .thread _ (.deliver _ c) => verifyCrc c = true →
    IsComponent c.fileId ∧ NameApart r c.originalName
  | .thread t (.removePatches removes) => removes = true → ∀ record,
      s.handlers t = .renamed record → ∀ t' c, s.handlers t' = .storing c →
        c.fileId ≠ record.fileId
  | .cleanup removes now => ∀ t c e, s.handlers t = .storing c →
      s.world.entry c.fileId = some e → expired now e = true → removes c.fileId = false
  | _ => True

/-- The invariant behind the presence of patch files. A directory that publication has removed
is excused until its entry goes, which is the next step of the same handler. -/
structure Kept (r : Root) (s : System D) : Prop where
  sound : Sound r s
  ordinary : ∀ c, Verified s.deliveries c → IsComponent c.fileId ∧ NameApart r c.originalName
  stray : ∀ t a, s.handlers t = .assembling a → Stray r s.world.fs a.outFd
  storing : ∀ t c, s.handlers t = .storing c →
    Held r s.deliveries s.world.fs c.fileId c.index
  entries : ∀ id e i, s.world.entry id = some e → i ∈ e.received →
    Held r s.deliveries s.world.fs id i ∨
      ∃ t record, s.handlers t = .removed record ∧ record.fileId = id

theorem kept_start (fs : FileSystem) (ttl : Int) : Kept r (System.start D fs ttl) where
  sound := sound_start fs ttl
  ordinary _ h := by simpa [System.start] using h.mem
  stray _ _ h := by simp [System.start] at h
  storing _ _ h := by simp [System.start] at h
  entries _ _ _ h := by simp [System.start, World.entry] at h

theorem Kept.component {s : System D} (h : Kept r s) {id : Bytes} {e : PayloadEntry}
    (he : s.world.entry id = some e) : IsComponent id := by
  have ht := h.sound.entries id e he
  obtain ⟨c, hc, hid, -⟩ := ht.record.header
  exact ht.fileId ▸ hid ▸ (h.ordinary c hc).1

theorem Kept.record {s : System D} (h : Kept r s) {t : Nat} {record : PayloadRecord}
    (hrec : (s.handlers t).record = some record) : RecordOf r s.deliveries record ∧
      IsComponent record.fileId ∧ NameApart r record.originalName := by
  have hof := h.sound.records t record hrec
  obtain ⟨c, hc, hid, hname⟩ := hof.header
  exact ⟨hof, hid ▸ (h.ordinary c hc).1, hname ▸ (h.ordinary c hc).2⟩

theorem kept_thread {s s' : System D} {t : Nat} {a : HandlerAction} (h : Kept r s)
    (hg : KeepsPatches r s (.thread t a)) (hs : step r s (.thread t a) = some s') :
    Kept r s' := by
  have hsound := sound_step h.sound hs
  obtain ⟨h', w', hm, rfl⟩ := step_thread hs
  have hdeliver : ∀ io c, a = .deliver io c → verifyCrc c = true →
      IsComponent c.fileId ∧ NameApart r c.originalName := by
    rintro io c rfl
    exact hg
  have heffect : PatchEffect r a (s.handlers t) s.world.fs w'.fs := by
    refine patchEffect_moves hm h.sound.entries (fun io c ha hcrc => (hdeliver io c ha hcrc).1) ?_
      (fun record hrec => h.record hrec) (h.stray t)
    intro c hc
    have hver := h.sound.storing t c hc
    exact ⟨hver, (h.ordinary c hver).1⟩
  refine ⟨hsound, fun c hc => ?_, fun t' as has => ?_, fun t' c hc => ?_, fun id e i he hi => ?_⟩
  · obtain hmem | hmem := List.mem_append.mp hc.mem
    · exact h.ordinary c ⟨hmem, hc.crc, hc.index_lt⟩
    · cases a <;> simp only [HandlerAction.delivered, List.mem_singleton, List.not_mem_nil] at hmem
      subst hmem
      exact hdeliver _ _ rfl hc.crc
  · by_cases ht : t' = t
    · subst ht
      simp only [Function.update_self] at has
      subst has
      generalize hh : s.handlers t' = hd at hm
      cases hm with
      | @opened w io record as fs ho =>
        have hrec : (s.handlers t').record = some record := by rw [hh]; rfl
        have hname := (h.record hrec).2.2
        obtain ⟨-, has, hopened⟩ := openPart_some ho
        refine ⟨fs.link_lt hopened.link_self, fun l hl hlink => hname.part ?_⟩
        rwa [← fs.link_inj hlink hopened.link_self]
      | decompressed hidx hd =>
        rw [(decompressChunk_record hd).2.2]
        exact heffect.stray _ (h.stray t' _ hh)
    · simp only [Function.update_of_ne ht] at has
      exact heffect.stray _ (h.stray t' as has)
  · by_cases ht : t' = t
    · subst ht
      simp only [Function.update_self] at hc
      subst hc
      generalize s.handlers t' = hd at hm
      cases hm with
      | stored hadm hw =>
        exact ⟨c, by simp [HandlerAction.delivered], rfl, rfl, (writePatch_true hw).2.2⟩
    · simp only [Function.update_of_ne ht] at hc
      have hver := h.sound.storing t' c hc
      apply heffect.held _ _ _ (h.ordinary c hver).1 (h.storing t' c hc)
      rintro record hren rfl
      exact hg rfl record hren t' c hc
  · rcases received_moves hm he hi with ⟨e₀, he₀, hi₀⟩ | ⟨c, hc, rfl, rfl⟩
    · rcases h.entries id e₀ i he₀ hi₀ with hheld | ⟨t', record, hrem, hid⟩
      · by_cases hgone : ∃ record, s.handlers t = .renamed record ∧ a = .removePatches true ∧
            id = record.fileId
        · obtain ⟨record, hren, rfl, rfl⟩ := hgone
          rw [hren] at hm
          cases hm
          exact .inr ⟨t, record, by simp, rfl⟩
        · refine .inl (heffect.held _ _ _ (h.component he₀) hheld ?_)
          exact fun record hren ha hid => hgone ⟨record, hren, ha, hid⟩
      · by_cases ht : t' = t
        · subst ht
          rw [hrem] at hm
          cases hm
          rw [entry_markPublished, if_pos hid.symm] at he
          cases he
        · exact .inr ⟨t', record, by simpa [ht] using hrem, hid⟩
    · refine .inl (heffect.held _ _ _ ?_ (h.storing t c hc) ?_)
      · exact (h.ordinary c (h.sound.storing t c hc)).1
      · intro record hren
        rw [hc] at hren
        cases hren

theorem kept_step {s s' : System D} {a : Action} (h : Kept r s) (hg : KeepsPatches r s a)
    (hs : step r s a = some s') : Kept r s' := by
  cases a with
  | thread t a => exact kept_thread h hg hs
  | updateTtl fault newTtl =>
    have hsound := sound_step h.sound hs
    cases hs
    have hr := refreshed_updateTtl (r := r) fault s.world newTtl
    have hmanifest : ∀ l, (∃ id e, s.world.entry id = some e ∧
        (l = r.locate (join e.record.patchesDir (ascii "ids.list") ++ ascii ".tmp") ∨
          l = r.locate (join e.record.patchesDir (ascii "ids.list")))) →
        ∃ id, IsComponent id ∧ (l = r.manifestTmpAt id ∨ l = r.manifestAt id) := by
      rintro l ⟨id, e, he, hl⟩
      rw [(h.sound.entries id e he).patchesDir] at hl
      exact ⟨id, h.component he, hl⟩
    have hwithin := hr.within.mono hmanifest
    have hheld : ∀ {id i}, IsComponent id → Held r s.deliveries s.world.fs id i →
        Held r s.deliveries (updateTtl r fault s.world newTtl).fs id i := by
      intro id i hid hheld
      refine hheld.of_content (fun _ hc => hc) (hwithin.content ?_)
      rintro ⟨id', hid', he | he⟩
      · exact (patchAt_ne_manifestAt hid hid').2 he
      · exact (patchAt_ne_manifestAt hid hid').1 he
    refine ⟨hsound, h.ordinary, fun t a ha => (h.stray t a ha).inside (hwithin.mono ?_),
      fun t c hc => ?_, fun id e' i he' hi => ?_⟩
    · rintro l ⟨id, hid, rfl | rfl⟩
      · exact (patches_prefix_manifest hid).2
      · exact (patches_prefix_manifest hid).1
    · exact hheld (h.ordinary c (h.sound.storing t c hc)).1 (h.storing t c hc)
    · obtain ⟨e, he, -, hrcv⟩ := hr.entry id e' he'
      exact (h.entries id e i he (hrcv ▸ hi)).imp_left (hheld (h.component he))
  | cleanup removes now =>
    have hsound := sound_step h.sound hs
    cases hs
    have hc := cleaned_cleanupExpired (r := r) removes now s.world
    have hheld : ∀ {id i}, IsComponent id → Held r s.deliveries s.world.fs id i →
        (∀ e, s.world.entry id = some e → expired now e = true → removes id = true →
          (cleanupExpired r removes now s.world).entry id = none → False) →
        Held r s.deliveries (cleanupExpired r removes now s.world).fs id i := by
      intro id i hid hheld hstays
      refine hheld.of_content (fun _ hc => hc) (hc.within.content ?_)
      rintro ⟨id', e, he, hexp, hrem, hnone, hpre⟩
      rw [(h.sound.entries id' e he).patchesDir] at hpre
      obtain rfl := patchDirAt_covers (h.component he) hid hpre
      exact hstays e he hexp hrem hnone
    refine ⟨hsound, h.ordinary, fun t a ha => (h.stray t a ha).inside (hc.within.mono ?_),
      fun t c hst => ?_, fun id e i he hi => ?_⟩
    · rintro l ⟨id, e, he, -, -, -, hpre⟩
      rw [(h.sound.entries id e he).patchesDir] at hpre
      exact (patches_prefix_patchDirAt (h.component he)).trans hpre
    · apply hheld (h.ordinary c (h.sound.storing t c hst)).1 (h.storing t c hst)
      intro e he hexp hrem _
      rw [hg t c e hst he hexp] at hrem
      cases hrem
    · have he₀ := hc.entry id e he
      refine (h.entries id e i he₀ hi).imp_left fun hh => hheld (h.component he₀) hh ?_
      intro e' _ _ _ hnone
      rw [he] at hnone
      cases hnone

/-- The handler is between the start of `assemble` and the end of `mark_published`. -/
def Handler.inAssembly : Handler D → Bool
  | .idle | .storing _ | .ready _ => false
  | .assembling _ | .failing _ | .renamed _ | .removed _ => true

def System.Quiet (s : System D) : Prop := ∀ t, (s.handlers t).inAssembly = false

/-- The chunk files of every tracked entry exist and hold payloads delivered for their index. -/
def ChunksOnDisk (r : Root) (s : System D) : Prop :=
  ∀ id e, s.world.entry id = some e → ∀ i ∈ e.received, ∃ path,
    e.record.chunkFiles[i]? = some path ∧ ∃ c ∈ s.deliveries, c.fileId = id ∧ c.index = i ∧
      s.world.fs.content (r.locate path) = some c.payload

/-- The only restriction is that ids are single ordinary path components. -/
def OrdinaryIds (_ : System D) : Action → Prop
  | .thread _ (.deliver _ c) => IsComponent c.fileId
  | _ => True

/-- Over every run that keeps the patch directories of chunks about to be registered, the
chunk files of tracked entries are on disk whenever no assembly is under way. -/
theorem chunks_on_disk {s : System D} {fs : FileSystem} {ttl : Int}
    (h : Reach (step r) (KeepsPatches r) (System.start D fs ttl) s) (hq : s.Quiet) :
    ChunksOnDisk r s := by
  have hkept : Kept r s := h.invariant (kept_start fs ttl) fun _ _ _ hi hg hs => kept_step hi hg hs
  intro id e he i hi
  refine ⟨_, (hkept.sound.entries id e he).chunkFile i hi, ?_⟩
  rcases hkept.entries id e i he hi with hheld | ⟨t, record, hrem, -⟩
  · exact hheld
  · have := hq t
    rw [hrem] at this
    cases this

/-- Whether a run of the first `n` handlers ends quietly is seen on these. -/
theorem quiet_of_run {as : List Action} {s s' : System D} (n : Nat)
    (h : run (step r) s as = some s') (hs : s.Quiet)
    (ha : ∀ a ∈ as, ∀ t, a.handler = some t → t < n)
    (hn : ∀ t < n, (s'.handlers t).inAssembly = false) : s'.Quiet := by
  intro t
  by_cases ht : t < n
  · exact hn t ht
  · rw [handlers_run_of_ne h fun a hmem he => ht (ha a hmem t he)]
    exact hs t

/-- The deliveries of a run are those of ordinary ids and names; nothing is removed. -/
def addsOnly : System D → Action → Bool
  | _, .thread _ (.deliver _ c) => decide (IsComponent c.fileId ∧ IsComponent c.originalName)
  | _, .thread _ (.removePatches _) | _, .cleanup .. => false
  | _, _ => true

theorem keepsPatches_of_addsOnly (s : System D) (a : Action) (h : addsOnly s a = true) :
    KeepsPatches r s a := by
  cases a with
  | thread t a =>
    cases a with
    | deliver io c =>
      obtain ⟨hid, hname⟩ := of_decide_eq_true h
      exact fun _ => ⟨hid, nameApart_of_component r hname⟩
    | removePatches removes => cases h
    | _ => trivial
  | updateTtl fault newTtl => trivial
  | cleanup removes now => cases h

/-- One chunk of two of payload `x` is stored. -/
theorem chunks_on_disk_sample : ∃ s : System RawFrame.decoder,
    (s.world.entry (ascii "x")).any (fun e => e.received = {0}) = true ∧
      ChunksOnDisk .sample s := by
  let start : System RawFrame.decoder := .start RawFrame.decoder sampleFiles 3600
  let labels : List Action :=
    [.thread 0 (.deliver {} (.sealed (ascii "x") (ascii "n") 0 2 1 (ascii "a"))),
      .thread 0 (.register {} 0)]
  have hrun : (runIf (step .sample) addsOnly start labels).any (fun s =>
      (s.world.entry (ascii "x")).any (fun e => e.received = {0}) &&
        !(s.handlers 0).inAssembly) = true := by decide +kernel
  obtain ⟨s, hs, hend⟩ := (Option.any_eq_true ..).mp hrun
  simp only [Bool.and_eq_true, Bool.not_eq_true'] at hend
  refine ⟨s, hend.1, chunks_on_disk (.of_runIf keepsPatches_of_addsOnly hs) ?_⟩
  refine quiet_of_run 1 (run_of_runIf hs) (fun _ => rfl) (by decide) fun t ht => ?_
  rw [Nat.lt_one_iff.mp ht]
  exact hend.2

/-- A chunk that is written before its payload expires and registered afterwards counts as
received although its patch file is gone. -/
theorem chunks_on_disk_fails : ¬ ∀ (D : Decoder) (r : Root) (fs : FileSystem) (ttl : Int)
    (s : System D), Reach (step r) OrdinaryIds (System.start D fs ttl) s → s.Quiet →
      ChunksOnDisk r s := by
  intro hclaim
  let start : System RawFrame.decoder := .start RawFrame.decoder sampleFiles 3600
  let labels : List Action :=
    [.thread 0 (.deliver {} (.sealed (ascii "x") (ascii "n") 0 2 1 (ascii "a"))),
      .thread 0 (.register {} 0),
      .thread 1 (.deliver {} (.sealed (ascii "x") (ascii "n") 1 2 1 (ascii "b"))),
      .cleanup (fun _ => true) 2000000000,
      .thread 1 (.register {} 2000000000)]
  have hordinary : ∀ a ∈ labels, ∀ s : System RawFrame.decoder, OrdinaryIds s a := by
    intro a ha s
    simp only [labels, List.mem_cons, List.not_mem_nil, or_false] at ha
    obtain rfl | rfl | rfl | rfl | rfl := ha
    · show IsComponent (ascii "x")
      decide
    · trivial
    · show IsComponent (ascii "x")
      decide
    · trivial
    · trivial
  have hrun : (run (step .sample) start labels).any (fun s =>
      (s.world.entry (ascii "x")).any (fun e => 1 ∈ e.received ∧
        e.record.chunkFiles[1]?.any fun p => s.world.fs.content (Root.sample.locate p) = none) &&
      (!(s.handlers 0).inAssembly && !(s.handlers 1).inAssembly)) = true := by decide +kernel
  obtain ⟨s, hs, hend⟩ := (Option.any_eq_true ..).mp hrun
  simp only [Bool.and_eq_true, Bool.not_eq_true'] at hend
  obtain ⟨hentry, h0, h1⟩ := hend
  have hq : s.Quiet := by
    refine quiet_of_run 2 hs (fun _ => rfl) (by decide) fun t ht => ?_
    have ht2 : t = 0 ∨ t = 1 := by omega
    obtain rfl | rfl := ht2
    · exact h0
    · exact h1
  have hreach : Reach (step .sample) OrdinaryIds start s :=
    .of_run_of (P := fun _ => True) trivial (fun _ _ _ _ _ _ => trivial)
      (fun s _ _ ha => ha s) hordinary hs
  obtain ⟨e, he, hmissing⟩ := (Option.any_eq_true ..).mp hentry
  obtain ⟨hmem, hgone⟩ := of_decide_eq_true hmissing
  obtain ⟨p, hp, hnone⟩ := (Option.any_eq_true ..).mp hgone
  obtain ⟨p', hp', c, -, -, -, hcontent⟩ :=
    hclaim _ .sample _ 3600 s hreach hq _ e he 1 hmem
  rw [hp] at hp'
  cases hp'
  rw [of_decide_eq_true hnone] at hcontent
  cases hcontent

end SuperVoice.Server
