import SuperVoice.Server.Expiry
import SuperVoice.Server.Granted

/-! What a call of `store_chunk` leaves that does not commit its chunk: nothing is taken back, so
the answer depends on where it stops and on what is tracked already. -/
namespace SuperVoice.Server
open Bytes PosixPath FileStore FileStore.FileSystem StreamCodec Transition
variable {r : Root} {D : Decoder} {fs fs' : FileSystem} {chunk : ChunkData} {io : StoreIo}
  {w w' : World} {id : Bytes} {l : Location}

/-- The call returns with the chunk on disk and registered. -/
def commits (r : Root) (io : StoreIo) (w : World) (chunk : ChunkData) : Bool :=
  (writePatch r io w.fs chunk).1 && io.allocates

/-- A patch file that a tracked payload counts on stands at `l`. -/
def Committed (r : Root) (w : World) (l : Location) : Prop :=
  ∃ id e i path, w.entry id = some e ∧ i ∈ e.received ∧ e.record.chunkFiles[i]? = some path ∧
    l = r.locate path

/-- Some pass of `cleanup_expired` takes away what stands at `l`. -/
def Removable (r : Root) (w : World) (l : Location) : Prop :=
  ∃ removes now, ¬(cleanupExpired r removes now w).fs.Occupied l

/-- The map and the committed patch files are as before, and what has come to stand below the
patches directory is within reach of `cleanup_expired`. -/
structure Untouched (r : Root) (w w' : World) : Prop where
  payloads : ∀ id, w'.entry id = w.entry id
  patches : ∀ l, Committed r w l → w'.fs.content l = w.fs.content l
  nothing_left : ∀ l, StrictlyInside r.patches l → w'.fs.Occupied l →
    w.fs.Occupied l ∨ Removable r w' l

/-- The directory of a tracked payload holds `l`. -/
def Covered (r : Root) (w : World) (l : Location) : Prop :=
  ∃ id e, w.entry id = some e ∧ r.patchDirAt id <+: l

/-- Something may come to stand at `l` without being lost sight of. -/
def Accounted (r : Root) (w : World) (l : Location) : Prop :=
  StrictlyInside r.patches l → w.fs.Occupied l ∨ Covered r w l

/-- The places where the call finds or makes a directory. -/
def directoriesMade (r : Root) (io : StoreIo) (fs : FileSystem) (id : Bytes) : List Location :=
  (reached r io (manifestDir r id)).takeWhile fs.passable

/-- Once the directories of the payload are there, a file can stand at `l`. -/
def Standable (r : Root) (fs : FileSystem) (id : Bytes) (l : Location) : Prop :=
  (fs.dirs l.dropLast = true ∨ l.dropLast ∈ passed r.cwd (manifestDir r id)) ∧
    ¬(fs.dirs l = true ∨ l ∈ passed r.cwd (manifestDir r id))

/-- The temporary file gets written and cannot be renamed to the patch file. -/
structure Stranded (r : Root) (io : StoreIo) (fs : FileSystem) (chunk : ChunkData) : Prop where
  directories : io.directories = true
  clear : ∀ l ∈ passed r.cwd (manifestDir r chunk.fileId), fs.dirs l = true ∨ fs.link l = none
  written : io.patch ≠ some .openFails ∧ io.patch ≠ some .writeFails
  tmp : Standable r fs chunk.fileId (r.patchTmpAt chunk.fileId chunk.index)
  refused : io.patch = some .renameFails ∨
    ¬Standable r fs chunk.fileId (r.patchAt chunk.fileId chunk.index)

/-- Registering the chunk would leave the record of its payload as it is, and the patch file does
not replace a different one. -/
structure Unaltered (r : Root) (w : World) (chunk : ChunkData) : Prop where
  record : ∃ e, w.entry chunk.fileId = some e ∧ openRecord r chunk e.record = e.record
  patch : Committed r w (r.patchAt chunk.fileId chunk.index) →
    w.fs.content (r.patchAt chunk.fileId chunk.index) = some chunk.payload

/-- Wherever the call may stop, what it has done by then is accounted for. -/
structure StopsSafely (r : Root) (io : StoreIo) (w : World) (chunk : ChunkData) : Prop where
  directories : ∀ l ∈ directoriesMade r io w.fs chunk.fileId, Accounted r w l
  temporary : Stranded r io w.fs chunk → Accounted r w (r.patchTmpAt chunk.fileId chunk.index)
  register : Storable r io w.fs chunk → Unaltered r w chunk

section Places
variable {i j : Nat}

theorem patchAt_below (hid : 0 ∉ id) : r.patchAt id i = r.patchDirAt id ++ [patchFileName i] :=
  resolve_join_component r.cwd (no_nul_join r.no_nul_patchesDir hid) (patchFileName_component i)

theorem patchTmpAt_below (hid : 0 ∉ id) :
    r.patchTmpAt id i = r.patchDirAt id ++ [patchFileName i ++ ascii ".tmp"] := by
  rw [Root.patchTmpAt, patchPath, join_append _ (patchFileName_component i).ne_nil]
  exact resolve_join_component r.cwd (no_nul_join r.no_nul_patchesDir hid)
    (isComponent_suffix (patchFileName_component i))

theorem patchAt_ne_tmp {id' : Bytes} (hid : 0 ∉ id) (hid' : 0 ∉ id') :
    r.patchAt id i ≠ r.patchTmpAt id' j := by
  rw [patchAt_below hid, patchTmpAt_below hid']
  intro h
  have hlast := congrArg List.getLast? h
  simp only [List.getLast?_concat, Option.some.injEq] at hlast
  exact patchFileName_ne_tmp hlast

theorem nul_manifestDir (hid : 0 ∈ id) : 0 ∈ manifestDir r id := by
  unfold manifestDir join
  split
  · exact hid
  · split <;> simp [hid]

/-- Behind a NUL the files of an id would have to stand where its directory is. -/
theorem patchTmpAt_of_nul (hid : 0 ∈ id) : r.patchTmpAt id i = r.patchDirAt id := by
  rw [Root.patchTmpAt, patchPath, join_append _ (patchFileName_component i).ne_nil]
  exact resolve_join_of_nul r.cwd (nul_manifestDir hid)
    (component_not_absolute (isComponent_suffix (patchFileName_component i)))

/-- A temporary file is written for an id without NUL only. -/
theorem no_nul_of_standable (h : Standable r fs id (r.patchTmpAt id i)) : 0 ∉ id := by
  intro hid
  rw [patchTmpAt_of_nul hid] at h
  exact h.2 (.inr (passed_self r.cwd (manifestDir r id)))

end Places

section Reach

/-- No id a chunk was written for holds a NUL. -/
structure PlainIds (s : System D) : Prop where
  storing : ∀ t c, s.handlers t = .storing c → 0 ∉ c.fileId
  entries : ∀ id e, s.world.entry id = some e → 0 ∉ id

theorem no_nul_of_writePatch (h : writePatch r io fs chunk = (true, fs')) : 0 ∉ chunk.fileId :=
  no_nul_of_standable ((writePatch_fst.mp (congrArg Prod.fst h)).target _ (.inl rfl))

theorem plainIds_moves {h h' : Handler D} {a : HandlerAction} (hm : Moves r h w a h' w')
    (hstoring : ∀ c, h = .storing c → 0 ∉ c.fileId)
    (hentries : ∀ id e, w.entry id = some e → 0 ∉ id) :
    (∀ c, h' = .storing c → 0 ∉ c.fileId) ∧ ∀ id e, w'.entry id = some e → 0 ∉ id := by
  have hregister : ∀ {chunk io now o}, 0 ∉ chunk.fileId →
      registerChunk r io now w chunk = (o, w') → ∀ id e, w'.entry id = some e → 0 ∉ id := by
    intro chunk io now o hplain hr id e he
    obtain ⟨_, _, -, hentry, -⟩ := registerChunk_cases hr
    rw [hentry] at he
    split at he
    · next hid => exact hid ▸ hplain
    · exact hentries id e he
  cases hm with
  | stored hadm hw =>
    refine ⟨fun c hc => ?_, hentries⟩
    cases hc
    exact no_nul_of_writePatch hw
  | completed hr => exact ⟨by simp, hregister (hstoring _ rfl) hr⟩
  | registered ho hr => exact ⟨by simp, hregister (hstoring _ rfl) hr⟩
  | marked =>
    refine ⟨by simp, fun id e he => ?_⟩
    rw [entry_markPublished] at he
    split at he
    · cases he
    · exact hentries id e he
  | _ => exact ⟨by simp, hentries⟩

theorem plainIds_step {s s' : System D} {a : Action} (h : PlainIds s)
    (hs : step r s a = some s') : PlainIds s' := by
  cases a with
  | thread t a =>
    obtain ⟨h', w', hm, rfl⟩ := step_thread hs
    obtain ⟨hstoring, hentries⟩ := plainIds_moves hm (h.storing t) h.entries
    refine ⟨fun t' c hc => ?_, hentries⟩
    by_cases ht : t' = t
    · subst ht
      exact hstoring c (by simpa using hc)
    · exact h.storing t' c (by simpa [ht] using hc)
  | updateTtl fault newTtl =>
    cases hs
    refine ⟨h.storing, fun id e he => ?_⟩
    obtain ⟨e₀, he₀, -⟩ := (refreshed_updateTtl (r := r) fault s.world newTtl).entry id e he
    exact h.entries id e₀ he₀
  | cleanup removes now =>
    cases hs
    exact ⟨h.storing, fun id e he =>
      h.entries id e ((cleaned_cleanupExpired removes now s.world).entry id e he)⟩

theorem plainIds_of_reach {ttl : Int} {s : System D}
    (h : Reachable (step r) (System.start D fs ttl) s) : PlainIds s := by
  apply h.invariant
  · exact ⟨by simp [System.start], by simp [System.start, World.entry]⟩
  · intro s a s' hi _ hs
    exact plainIds_step hi hs

end Reach

section Cleanup
variable {e : PayloadEntry} {removes : Bytes → Bool} {now : Int}

/-- Some time lies beyond every TTL, as both sides wrap: the largest age is odd in nanoseconds. -/
theorem exists_expired (e : PayloadEntry) : ∃ now, expired now e = true := by
  refine ⟨e.lastUpdate + (2 ^ 63 - 1), expired_iff.mpr ?_⟩
  have hage : e.age (e.lastUpdate + (2 ^ 63 - 1)) = 2 ^ 63 - 1 := by
    unfold PayloadEntry.age
    omega
  rw [hage, bmod_of_range (x := 2 ^ 63 - 1) (by decide), PayloadEntry.lifetime, Int.bmod_def]
  split <;> omega

/-- A pass leaves the directories outside those of tracked entries alone. -/
theorem dirs_cleanupExpired (h : ∀ id e, w.entry id = some e → ¬r.locate e.record.patchesDir <+: l) :
    (cleanupExpired r removes now w).fs.dirs l = w.fs.dirs l := by
  have hpass : (∀ id e, (cleanupExpired r removes now w).entry id = some e →
      w.entry id = some e) ∧ (cleanupExpired r removes now w).fs.dirs l = w.fs.dirs l := by
    unfold cleanupExpired
    apply forEntries_induct (P := fun w₁ : World =>
      (∀ id e, w₁.entry id = some e → w.entry id = some e) ∧ w₁.fs.dirs l = w.fs.dirs l)
    · exact ⟨fun _ _ he => he, rfl⟩
    · rintro w₁ id e ⟨hentries, hdirs⟩ he
      split
      · refine ⟨fun id' e' he' => ?_, ?_⟩
        · rw [entry_expireEntry] at he'
          split at he'
          · cases he'
          · exact hentries id' e' he'
        · rw [← hdirs]
          unfold expireEntry
          split
          · exact dirs_removeAll.trans (if_neg (h id e (hentries id e he)))
          · rfl
      · exact ⟨hentries, hdirs⟩
  exact hpass.2

/-- A pass leaves nothing below the directory of an expired entry it gets to remove. -/
theorem not_occupied_cleanupExpired (he : w.entry id = some e) (hexp : expired now e = true)
    (hrem : removes id = true) (hl : r.locate e.record.patchesDir <+: l) :
    ¬(cleanupExpired r removes now w).fs.Occupied l := by
  have hdirs : (cleanupExpired r removes now w).fs.dirs l = false := by
    unfold cleanupExpired
    apply forEntries_visits (P := fun w => w.fs.dirs l = false) he
    · intro w id' e' hid hw
      split
      · rw [entry_expireEntry, if_neg hid.symm, hw]
      · exact hw
    · intro w _
      rw [if_pos hexp]
      simp only [expireEntry, hrem, if_true, dirs_removeAll, if_pos hl]
    · intro w id' e' hw
      split
      · cases hr : removes id' with
        | false => simpa [expireEntry, hr] using hw
        | true => simp [expireEntry, hr, dirs_removeAll, hw]
      · exact hw
  rintro (h | h)
  · exact h (link_cleanupExpired he hexp hrem hl)
  · simp [hdirs] at h

/-- What stands somewhere can be removed exactly when the directory of a tracked payload holds it. -/
theorem removable_iff (hdir : ∀ id e, w.entry id = some e → e.record.patchesDir = manifestDir r id)
    (hl : w.fs.Occupied l) : Removable r w l ↔ Covered r w l := by
  constructor
  · rintro ⟨removes, now, hgone⟩
    by_contra hcovered
    have hout : ∀ id e, w.entry id = some e → ¬r.locate e.record.patchesDir <+: l := by
      intro id e he hbelow
      rw [hdir id e he] at hbelow
      exact hcovered ⟨id, e, he, hbelow⟩
    apply hgone
    obtain hlink | hd := hl
    · obtain ⟨i, hi⟩ := Option.ne_none_iff_exists'.mp hlink
      have hkeeps : Keeps w.fs (cleanupExpired r removes now w).fs l :=
        keeps_cleanupExpired fun id e he _ _ => hout id e he
      exact .inl (by simp [(hkeeps i hi).1])
    · exact .inr ((dirs_cleanupExpired hout).trans hd)
  · rintro ⟨id, e, he, hbelow⟩
    obtain ⟨now, hexp⟩ := exists_expired e
    refine ⟨fun _ => true, now, not_occupied_cleanupExpired he hexp rfl ?_⟩
    rw [hdir id e he]
    exact hbelow

end Cleanup

section Stopping

/-- A verified chunk that is not stored stops at its directory or at its files. -/
theorem writePatch_false_cases (hcrc : verifyCrc chunk = true)
    (h : writePatch r io fs chunk = (false, fs')) :
    (¬(io.directories = true ∧ ∀ l ∈ passed r.cwd (manifestDir r chunk.fileId),
        fs.dirs l = true ∨ fs.link l = none) ∧
      fs' = (fs.mkdirs (reached r io (manifestDir r chunk.fileId))).2) ∨
    (io.directories = true ∧ (fs.mkdirs (passed r.cwd (manifestDir r chunk.fileId))).1 = true ∧
      FileSystem.replaceFile io.patch (fs.mkdirs (passed r.cwd (manifestDir r chunk.fileId))).2
        (r.patchTmpAt chunk.fileId chunk.index) (r.patchAt chunk.fileId chunk.index)
        chunk.payload = (false, fs')) := by
  rw [writePatch, if_pos hcrc] at h
  split at h
  · next hmade =>
    cases h
    refine .inl ⟨fun hgo => ?_, (congrArg Prod.snd hmade).symm⟩
    rw [createDirectories_granted hgo.1 ((mkdirs_fst _ _).mpr hgo.2)] at hmade
    cases hmade
  · next hmade =>
    obtain ⟨hdirs, hfst, rfl⟩ := createDirectories_true hmade
    exact .inr ⟨hdirs, hfst, h⟩

theorem strands_iff_stranded (hdirs : io.directories = true)
    (hfst : (fs.mkdirs (passed r.cwd (manifestDir r chunk.fileId))).1 = true) :
    Strands io.patch (fs.mkdirs (passed r.cwd (manifestDir r chunk.fileId))).2
        (r.patchTmpAt chunk.fileId chunk.index) (r.patchAt chunk.fileId chunk.index) ↔
      Stranded r io fs chunk := by
  have hstand : ∀ l, (fs.mkdirs (passed r.cwd (manifestDir r chunk.fileId))).2.canHold l = true ↔
      Standable r fs chunk.fileId l := fun _ => canHold_mkdirs hfst
  constructor
  · intro h
    refine ⟨hdirs, (mkdirs_fst _ _).mp hfst, ⟨h.opens, h.writes⟩, (hstand _).mp h.tmp, ?_⟩
    refine h.refused.imp_right fun hno => ?_
    rw [← hstand, hno]
    exact Bool.false_ne_true
  · intro h
    refine ⟨h.written.1, h.written.2, (hstand _).mpr h.tmp, h.refused.imp_right fun hno => ?_⟩
    rw [← hstand] at hno
    simpa using hno

/-- A chunk that is not stored leaves the temporary file behind exactly when it is stranded. -/
theorem link_writePatch_false (h : writePatch r io fs chunk = (false, fs')) :
    (verifyCrc chunk = true → Stranded r io fs chunk →
      fs'.link (r.patchTmpAt chunk.fileId chunk.index) ≠ none) ∧
    ((verifyCrc chunk = true → ¬Stranded r io fs chunk) →
      fs'.link (r.patchTmpAt chunk.fileId chunk.index) =
          fs.link (r.patchTmpAt chunk.fileId chunk.index) ∨
        fs'.link (r.patchTmpAt chunk.fileId chunk.index) = none) := by
  by_cases hcrc : verifyCrc chunk = true
  swap
  · rw [writePatch_of_not_verified hcrc] at h
    cases h
    exact ⟨fun hyes => absurd hyes hcrc, fun _ => .inl rfl⟩
  obtain ⟨hstop, rfl⟩ | ⟨hdirs, hfst, hreplace⟩ := writePatch_false_cases hcrc h
  · exact ⟨fun _ hs => absurd ⟨hs.directories, hs.clear⟩ hstop,
      fun _ => .inl (congrFun (extended_mkdirs _ fs).link _)⟩
  · obtain ⟨hleft, hgone⟩ := link_replaceFile_false hreplace
    rw [strands_iff_stranded hdirs hfst] at hleft hgone
    refine ⟨fun _ => hleft, fun hno => (hgone (hno hcrc)).imp_left fun hkept => ?_⟩
    rw [hkept, (extended_mkdirs _ fs).link]

/-- A chunk that is stored leaves no temporary file. -/
theorem link_writePatch_true (h : writePatch r io fs chunk = (true, fs')) :
    fs'.link (r.patchTmpAt chunk.fileId chunk.index) = none := by
  have hid := no_nul_of_writePatch h
  rw [writePatch, if_pos (writePatch_true h).1] at h
  split at h
  · cases h
  · exact link_replaceFile_true (patchAt_ne_tmp hid hid).symm h

/-- A chunk that is not stored leaves alone what stands where a tracked patch file can. -/
theorem content_writePatch_false {id' : Bytes} {j : Nat} (hid' : 0 ∉ id')
    (h : writePatch r io fs chunk = (false, fs')) :
    fs'.content (r.patchAt id' j) = fs.content (r.patchAt id' j) := by
  by_cases hid : 0 ∈ chunk.fileId
  swap
  · exact (writePatch_false h).content fun he => patchAt_ne_tmp hid' hid he
  by_cases hcrc : verifyCrc chunk = true
  swap
  · rw [writePatch_of_not_verified hcrc] at h
    cases h
    rfl
  have hmade (ls : List Location) : (fs.mkdirs ls).2.content (r.patchAt id' j) =
      fs.content (r.patchAt id' j) :=
    (within_mkdirs (fun _ => False) ls).content not_false
  obtain ⟨-, rfl⟩ | ⟨-, hfst, hreplace⟩ := writePatch_false_cases hcrc h
  · exact hmade _
  · have hno : ¬(fs.mkdirs (passed r.cwd (manifestDir r chunk.fileId))).2.canHold
        (r.patchTmpAt chunk.fileId chunk.index) = true := by
      intro hold
      exact no_nul_of_standable ((canHold_mkdirs hfst).mp hold) hid
    rw [replaceFile_refused (by simpa using hno)] at hreplace
    cases hreplace
    exact hmade _

/-- Directories a call comes by are there afterwards, and it makes no others. -/
theorem dirs_of_writePatch {b : Bool} (h : writePatch r io fs chunk = (b, fs')) :
    fs'.dirs l = true ↔
      fs.dirs l = true ∨ verifyCrc chunk = true ∧ l ∈ directoriesMade r io fs chunk.fileId := by
  rw [dirs_writePatch h]
  by_cases hcrc : verifyCrc chunk = true
  · rw [if_pos hcrc, dirs_mkdirs_takeWhile, and_iff_right hcrc]
    rfl
  · simp [hcrc]

end Stopping

section Verdict
variable {cs : List ChunkData} {now : Int}

theorem committed_at (htracked : AllTracked r cs w) (hplain : ∀ id e, w.entry id = some e → 0 ∉ id)
    (h : Committed r w l) : ∃ id i, 0 ∉ id ∧ l = r.patchAt id i := by
  obtain ⟨id, e, i, path, he, hi, hpath, rfl⟩ := h
  rw [(htracked id e he).chunkFile i hi] at hpath
  cases hpath
  exact ⟨id, i, hplain id e he, rfl⟩

/-- As long as the map is as before, what is left can be removed or was accounted for. -/
theorem nothing_left_iff (htracked : AllTracked r cs w)
    (hentries : ∀ id, w'.entry id = w.entry id) :
    (∀ l, StrictlyInside r.patches l → w'.fs.Occupied l → w.fs.Occupied l ∨ Removable r w' l) ↔
      ∀ l, w'.fs.Occupied l → Accounted r w l := by
  have hremovable : ∀ l, w'.fs.Occupied l → (Removable r w' l ↔ Covered r w l) := by
    intro l hl
    rw [removable_iff (fun id e he => (htracked id e (hentries id ▸ he)).patchesDir) hl]
    simp only [Covered, hentries]
  constructor
  · intro h l hl hin
    exact (h l hin hl).imp_right (hremovable l hl).mp
  · intro h l hin hl
    exact (h l hl hin).imp_right (hremovable l hl).mpr

theorem untouched_of_rejected_iff (htracked : AllTracked r cs w)
    (hplain : ∀ id e, w.entry id = some e → 0 ∉ id)
    (h : writePatch r io w.fs chunk = (false, fs')) :
    Untouched r w { w with fs := fs' } ↔ (verifyCrc chunk = true →
      (∀ l ∈ directoriesMade r io w.fs chunk.fileId, Accounted r w l) ∧
        (Stranded r io w.fs chunk → Accounted r w (r.patchTmpAt chunk.fileId chunk.index))) := by
  have hentries : ∀ id, World.entry { w with fs := fs' } id = w.entry id := fun _ => rfl
  have hleft := nothing_left_iff htracked hentries
  obtain ⟨hstays, hgoes⟩ := link_writePatch_false h
  constructor
  · intro hun hcrc
    have haccounted := hleft.mp hun.nothing_left
    refine ⟨fun l hl => haccounted l (.inr ?_), fun hs => haccounted _ (.inl (hstays hcrc hs))⟩
    exact (dirs_of_writePatch h).mpr (.inr ⟨hcrc, hl⟩)
  · intro hsafe
    refine ⟨fun _ => rfl, fun l hl => ?_, hleft.mpr fun l hl hin => ?_⟩
    · obtain ⟨id, i, hid, rfl⟩ := committed_at htracked hplain hl
      exact content_writePatch_false hid h
    · by_cases hold : w.fs.Occupied l
      · exact .inl hold
      obtain hlink | hdirs := hl
      · by_cases htmp : l = r.patchTmpAt chunk.fileId chunk.index
        · subst htmp
          by_cases hs : verifyCrc chunk = true ∧ Stranded r io w.fs chunk
          · exact (hsafe hs.1).2 hs.2 hin
          · obtain hkept | hgone := hgoes fun hcrc hstranded => hs ⟨hcrc, hstranded⟩
            · exact .inl (.inl (hkept ▸ hlink))
            · exact absurd hgone hlink
        · exact .inl (.inl ((writePatch_false h).link l htmp ▸ hlink))
      · obtain hdirs | ⟨hcrc, hmade⟩ := (dirs_of_writePatch h).mp hdirs
        · exact .inl (.inr hdirs)
        · exact (hsafe hcrc).1 l hmade hin

/-- The map is as before exactly when the record is tracked and stays as it is. -/
theorem entries_of_thrown (ha : io.allocates = false) :
    (∀ id, (registerChunk r io now w chunk).2.entry id = w.entry id) ↔
      ∃ e, w.entry chunk.fileId = some e ∧ openRecord r chunk e.record = e.record := by
  have hentry : ∀ id, (registerChunk r io now w chunk).2.entry id =
      if id = chunk.fileId then some { (w.entry chunk.fileId).getD .fresh with
        record := openRecord r chunk ((w.entry chunk.fileId).getD .fresh).record }
      else w.entry id := by
    intro id
    rw [registerChunk, ha]
    exact entry_insert _ _ _ _ _
  constructor
  · intro h
    have hself := (hentry chunk.fileId).symm.trans (h chunk.fileId)
    rw [if_pos rfl] at hself
    cases he : w.entry chunk.fileId with
    | none =>
      rw [he] at hself
      cases hself
    | some e =>
      rw [he] at hself
      exact ⟨e, rfl, congrArg PayloadEntry.record (Option.some.inj hself)⟩
  · rintro ⟨e, he, hsame⟩ id
    rw [hentry]
    split
    · next hid => rw [hid, he, Option.getD_some, hsame]
    · rfl

theorem fs_of_thrown (ha : io.allocates = false) :
    (registerChunk r io now w chunk).2.fs = w.fs := by
  rw [registerChunk, ha]
  rfl

theorem untouched_of_thrown_iff (htracked : AllTracked r cs w)
    (hplain : ∀ id e, w.entry id = some e → 0 ∉ id) (ha : io.allocates = false)
    (h : writePatch r io w.fs chunk = (true, fs')) :
    Untouched r w (registerChunk r io now { w with fs := fs' } chunk).2 ↔
      (∀ l ∈ directoriesMade r io w.fs chunk.fileId, Accounted r w l) ∧ Unaltered r w chunk := by
  have hid := no_nul_of_writePatch h
  obtain ⟨hcrc, hwithin, hcontent⟩ := writePatch_true h
  have hfs : (registerChunk r io now { w with fs := fs' } chunk).2.fs = fs' := fs_of_thrown ha
  have hmap : (∀ id, (registerChunk r io now { w with fs := fs' } chunk).2.entry id =
      w.entry id) ↔ ∃ e, w.entry chunk.fileId = some e ∧ openRecord r chunk e.record = e.record :=
    entries_of_thrown (w := { w with fs := fs' }) ha
  constructor
  · intro hun
    have hleft := (nothing_left_iff htracked hun.payloads).mp hun.nothing_left
    refine ⟨fun l hl => hleft l (.inr ?_), hmap.mp hun.payloads, fun hpatch => ?_⟩
    · rw [hfs]
      exact (dirs_of_writePatch h).mpr (.inr ⟨hcrc, hl⟩)
    · rw [← hun.patches _ hpatch, hfs]
      exact hcontent
  · rintro ⟨hmade, hsame⟩
    have hentries := hmap.mpr hsame.record
    refine ⟨hentries, fun l hl => ?_, (nothing_left_iff htracked hentries).mpr fun l hl hin => ?_⟩
    · rw [hfs]
      obtain ⟨id, i, hid', rfl⟩ := committed_at htracked hplain hl
      by_cases hsamePlace : r.patchAt id i = r.patchAt chunk.fileId chunk.index
      · rw [hsamePlace] at hl ⊢
        rw [hcontent, hsame.patch hl]
      · exact hwithin.content fun hor => hor.elim (patchAt_ne_tmp hid' hid) hsamePlace
    · rw [hfs] at hl
      obtain hlink | hdirs := hl
      · by_cases hpatch : l = r.patchAt chunk.fileId chunk.index
        · obtain ⟨e, he, -⟩ := hsame.record
          refine .inr ⟨chunk.fileId, e, he, ?_⟩
          rw [hpatch, patchAt_below hid]
          exact List.prefix_append _ _
        · by_cases htmp : l = r.patchTmpAt chunk.fileId chunk.index
          · subst htmp
            exact absurd (link_writePatch_true h) hlink
          · exact .inl (.inl (hwithin.link l (not_or.mpr ⟨htmp, hpatch⟩) ▸ hlink))
      · obtain hdirs | ⟨-, hm⟩ := (dirs_of_writePatch h).mp hdirs
        · exact .inl (.inr hdirs)
        · exact hmade l hm hin

/-- In every reachable state a call that commits nothing leaves the map, the patch files and the
disk as they should be exactly when its chunk has failed a check or it stops safely. -/
theorem untouched_unless_committed_iff {ttl : Int} {s : System D}
    (hr : Reachable (step r) (System.start D fs ttl) s) (io : StoreIo) (now : Int)
    (chunk : ChunkData) :
    (commits r io s.world chunk = false →
      Untouched r s.world (storeChunk r io now s.world chunk).2) ↔
    (verifyCrc chunk = true → ¬(Storable r io s.world.fs chunk ∧ io.allocates = true) →
      StopsSafely r io s.world chunk) := by
  have htracked := (sound_of_reach hr).entries
  have hplain := (plainIds_of_reach hr).entries
  rcases hw : writePatch r io s.world.fs chunk with ⟨b, fs'⟩
  have hstorable : Storable r io s.world.fs chunk ↔ b = true := by
    rw [← writePatch_fst, hw]
  cases b with
  | false =>
    have hno : ¬Storable r io s.world.fs chunk := by simp [hstorable]
    have hstore : (storeChunk r io now s.world chunk).2 = { s.world with fs := fs' } := by
      rw [storeChunk, hw]
    rw [hstore, untouched_of_rejected_iff htracked hplain hw]
    constructor
    · intro h hcrc _
      obtain ⟨hmade, htmp⟩ := h (by simp [commits, hw]) hcrc
      exact ⟨hmade, htmp, fun hs => absurd hs hno⟩
    · intro h _ hcrc
      have hsafe := h hcrc fun hand => hno hand.1
      exact ⟨hsafe.directories, hsafe.temporary⟩
  | true =>
    have hs := hstorable.mpr rfl
    have hstore : (storeChunk r io now s.world chunk).2 =
        (registerChunk r io now { s.world with fs := fs' } chunk).2 := by
      rw [storeChunk, hw]
    cases ha : io.allocates with
    | true => simp [commits, hw, ha, hs]
    | false =>
      rw [hstore, untouched_of_thrown_iff htracked hplain ha hw]
      have hrename : ¬Stranded r io s.world.fs chunk := by
        intro hstranded
        exact hstranded.refused.elim (by simp [hs.granted.2]) fun hno =>
          hno (hs.target _ (.inr rfl))
      constructor
      · intro h _ _
        obtain ⟨hmade, hsame⟩ := h (by simp [commits, ha])
        exact ⟨hmade, fun hstranded => absurd hstranded hrename, fun _ => hsame⟩
      · intro h _
        have hsafe := h hs.verified (by simp)
        exact ⟨hsafe.directories, hsafe.register hs⟩

end Verdict

/-- A chunk that announces more chunks than a path table can have. -/
def oversizedChunk : ChunkData := .sealed (ascii "x") (ascii "n") 0 (2 ^ 62) 60 (ascii "a")

/-- A call that is refused its first directory leaves nothing behind. -/
theorem untouched_unless_committed_iff_sample :
    Untouched .sample (System.start RawFrame.decoder sampleFiles 3600).world
      (storeChunk .sample { directories := false } 0
        (System.start RawFrame.decoder sampleFiles 3600).world oversizedChunk).2 := by
  apply (untouched_unless_committed_iff .start { directories := false } 0 oversizedChunk).mpr
  · intro _ _
    refine ⟨fun l hl => ?_, fun hs => ?_, fun hs => ?_⟩
    · simp [directoriesMade, reached] at hl
    · exact absurd hs.directories (by decide)
    · exact absurd hs.granted.1 (by decide)
  · rw [commits, Bool.and_eq_false_iff]
    refine .inl (Bool.eq_false_iff.mpr fun hstored => ?_)
    exact absurd (writePatch_fst.mp hstored).granted.1 (by decide)

/-- When the path table cannot grow, the payload is tracked and its patch file stays. -/
theorem untouched_unless_committed_fails : ¬ ∀ (D : Decoder) (r : Root) (fs : FileSystem)
    (ttl : Int) (s : System D), Reachable (step r) (System.start D fs ttl) s →
      ∀ (io : StoreIo) (now : Int) (chunk : ChunkData), chunk.Admitted →
        commits r io s.world chunk = false →
          Untouched r s.world (storeChunk r io now s.world chunk).2 := by
  intro hclaim
  have hadm : oversizedChunk.Admitted := by decide +kernel
  have hun := hclaim RawFrame.decoder .sample sampleFiles 3600 _ .start { allocates := false } 0
    oversizedChunk hadm (by simp [commits])
  have htracked : ((storeChunk .sample { allocates := false } 0
      (System.start RawFrame.decoder sampleFiles 3600).world oversizedChunk).2.entry
        (ascii "x")).isSome = true := by decide +kernel
  rw [hun.payloads] at htracked
  simp [System.start, World.entry] at htracked

end SuperVoice.Server
