import SuperVoice.Lib.RawFrame
import SuperVoice.Server.Tracking

/-! Where the server creates, renames and removes. Ids and names come from the network; as long
as the paths composed from them lead into the patches or the files directory, nothing outside
these two is touched. -/
namespace SuperVoice.Server
open Bytes PosixPath FileStore FileStore.FileSystem StreamCodec Transition
variable {r : Root} {D : Decoder} {fs : FileSystem}

/-- Strictly inside the patches directory or strictly inside the files directory. -/
def Root.Inside (r : Root) (l : Location) : Prop :=
  StrictlyInside r.patches l ∨ StrictlyInside r.files l

instance (r : Root) (l : Location) : Decidable (r.Inside l) :=
  inferInstanceAs (Decidable (_ ∨ _))

/-- A header whose paths lead inside, the directories `dirs` being there at the start. -/
structure SafeHeader (r : Root) (dirs : Location → Bool) (id name : Bytes) : Prop where
  passed : ∀ l ∈ passed r.cwd (manifestDir r id), r.Inside l ∨ dirs l = true
  directory : r.Inside (r.patchDirAt id)
  part : r.Inside (r.partAt name)
  final : r.Inside (r.finalAt name)

theorem Root.Inside.of_prefix {l l' : Location} (h : r.Inside l) (hp : l <+: l') :
    r.Inside l' := by
  obtain ⟨t, rfl⟩ := hp
  cases h with
  | inl h => exact .inl (h.append t)
  | inr h => exact .inr (h.append t)

/-- Ordinary ids and names are safe once the server has its directories. -/
theorem safeHeader_of_ordinary {dirs : Location → Bool} {id name : Bytes}
    (hdirs : ∀ l ∈ passed r.cwd r.patchesDir, dirs l = true) (hid : IsComponent id)
    (hname : IsComponent name) : SafeHeader r dirs id name where
  passed := by
    intro l hl
    cases passed_join_component r.cwd r.no_nul_patchesDir hid hl with
    | inl hl => exact .inr (hdirs l hl)
    | inr hl => exact .inl (.inl (hl ▸ strictlyInside_append (by simp)))
  directory := .inl (patchDirAt_eq hid ▸ strictlyInside_append (by simp))
  part := .inr (partAt_eq hname ▸ strictlyInside_append (by simp))
  final := .inr (finalAt_eq hname ▸ strictlyInside_append (by simp))

section Below
variable {id : Bytes} (hid : r.Inside (r.patchDirAt id))
include hid

/-- Whatever the id, its files lie in its directory or, behind a NUL, are that directory. -/
theorem inside_manifestDir {c : Bytes} (hc : IsComponent c) :
    r.Inside (r.locate (join (manifestDir r id) c)) := by
  by_cases h0 : 0 ∈ manifestDir r id
  · have h := resolve_join_of_nul r.cwd h0 (component_not_absolute hc)
    rw [Root.locate, h]
    exact hid
  · have h := resolve_join_component r.cwd h0 hc
    rw [Root.locate, h]
    exact hid.of_prefix (List.prefix_append _ _)

theorem inside_patchAt (i : Nat) : r.Inside (r.patchAt id i) :=
  inside_manifestDir hid (patchFileName_component i)

theorem inside_patchTmpAt (i : Nat) : r.Inside (r.patchTmpAt id i) := by
  rw [Root.patchTmpAt, patchPath, join_append _ (patchFileName_component i).ne_nil]
  exact inside_manifestDir hid (isComponent_suffix (patchFileName_component i))

theorem inside_manifestAt : r.Inside (r.manifestAt id) := inside_manifestDir hid (by decide)

theorem inside_manifestTmpAt : r.Inside (r.manifestTmpAt id) := by
  rw [Root.manifestTmpAt, join_append _ (by decide)]
  exact inside_manifestDir hid (by decide)

theorem confined_persistManifest {fault : Option Fault} {record : PayloadRecord}
    {entry : PayloadEntry} (hdir : record.patchesDir = manifestDir r id) :
    Confined r.Inside fs (persistManifest r fault fs record entry) := by
  unfold persistManifest commitFile
  rw [hdir]
  exact confined_replaceFile (inside_manifestTmpAt hid) (inside_manifestAt hid)

theorem confined_removePatches {removes : Bool} {record : PayloadRecord}
    (hdir : record.patchesDir = manifestDir r id) :
    Confined r.Inside fs (removePatches r removes fs record) := by
  unfold removePatches
  rw [hdir]
  split
  · exact confined_removeAll fun l hl => hid.of_prefix hl
  · exact .refl _ _

end Below

theorem confined_writePatch {dirs : Location → Bool} (io : StoreIo) {c : ChunkData}
    (hdirs : ∀ l, ¬ r.Inside l → fs.dirs l = dirs l)
    (hsafe : SafeHeader r dirs c.fileId c.originalName) :
    Confined r.Inside fs (writePatch r io fs c).2 := by
  have hmk : Confined r.Inside fs
      (createDirectories r io fs (manifestDir r c.fileId)).2 := by
    apply confined_mkdirs
    intro l hl
    by_cases hin : r.Inside l
    · exact .inl hin
    · exact .inr (hdirs l hin ▸
        (hsafe.passed l (mem_passed_of_reached hl)).resolve_left hin)
  unfold writePatch
  split
  · split
    · next h => rw [h] at hmk; exact hmk
    · next h =>
      rw [h] at hmk
      exact hmk.trans (confined_replaceFile (inside_patchTmpAt hsafe.directory _)
        (inside_patchAt hsafe.directory _))
  · exact .refl _ _

section Assembly
variable {record : PayloadRecord} {a : Assembly D}

theorem confined_openPart (D : Decoder) (fs : FileSystem) (io : AssembleIo)
    (h : r.Inside (r.partAt record.originalName)) :
    Confined r.Inside fs (openPart r D io fs record).2 := by
  have hopen : Confined r.Inside fs (fs.openTrunc (r.locate (partPath r record))).2 :=
    confined_openTrunc h
  unfold openPart
  split
  · exact .refl _ _
  · dsimp only
    split
    · split
      · next ho => rw [ho] at hopen; exact hopen
      · next ho =>
        rw [ho] at hopen
        split
        · exact hopen
        · exact hopen.trans (confined_unlink h)
    · exact confined_log fun l hl => List.mem_singleton.mp hl ▸ h

theorem confined_decompressChunk {fuel : Nat} {io : ChunkIo} {o : Except Stop (Assembly D)}
    {fs' : FileSystem} (h : decompressChunk r fuel io fs a = some (o, fs')) :
    Confined r.Inside fs fs' := by
  obtain ⟨-, rfl⟩ | ⟨_, _, _, -, -, -, rfl, -⟩ := decompressChunk_cases h
  · exact .refl _ _
  · exact confined_write _

theorem confined_finishPart (fs : FileSystem) (io : AssembleIo)
    (hp : r.Inside (r.partAt a.record.originalName))
    (hf : r.Inside (r.finalAt a.record.originalName)) :
    Confined r.Inside fs (finishPart r io fs a).2 := by
  cases h : finishPart r io fs a with
  | mk f fs' =>
    obtain ⟨-, rfl⟩ | ⟨-, rfl⟩ | ⟨-, -, hren⟩ := finishPart_cases h
    · exact .refl _ _
    · exact confined_log (by simp [Call.targets, hp, hf])
    · have hc : Confined r.Inside fs (fs.rename _ _).2 := confined_rename hp hf
      rwa [hren] at hc

end Assembly

/-- A handler whose chunk and record have safe headers stays inside. -/
theorem confined_moves {dirs : Location → Bool} {cs : List ChunkData} {h h' : Handler D}
    {w w' : World} {a : HandlerAction} (hm : Moves r h w a h' w')
    (hdirs : ∀ l, ¬ r.Inside l → w.fs.dirs l = dirs l)
    (hsafe : ∀ c, Verified cs c → SafeHeader r dirs c.fileId c.originalName)
    (hdeliver : ∀ io c, a = .deliver io c → verifyCrc c = true →
      SafeHeader r dirs c.fileId c.originalName)
    (hentries : AllTracked r cs w) (hstoring : ∀ c, h = .storing c → Verified cs c)
    (hrecord : ∀ record, h.record = some record → RecordOf r cs record) :
    Confined r.Inside w.fs w'.fs := by
  have hheader : ∀ record, RecordOf r cs record →
      SafeHeader r dirs record.fileId record.originalName := by
    intro record hof
    obtain ⟨c, hc, hid, hname⟩ := hof.header
    exact hid ▸ hname ▸ hsafe c hc
  have hwrite : ∀ {io c b fs}, a = .deliver io c → writePatch r io w.fs c = (b, fs) →
      Confined r.Inside w.fs fs := by
    intro io c b fs ha hw
    by_cases hcrc : verifyCrc c = true
    · have hc := confined_writePatch io hdirs (hdeliver io c ha hcrc)
      rwa [hw] at hc
    · rw [writePatch_of_not_verified hcrc] at hw
      cases hw
      exact .refl _ _
  have hregister : ∀ {io now c o}, h = .storing c → registerChunk r io now w c = (o, w') →
      Confined r.Inside w.fs w'.fs := by
    intro io now c o hh hr
    have hc := hstoring c hh
    obtain ⟨e₀, e, rfl, hentry, hcase⟩ := registerChunk_cases hr
    have he : e.record.patchesDir = manifestDir r c.fileId :=
      ((hentries.registerChunk hc hr).1 c.fileId e (by rw [hentry, if_pos rfl])).patchesDir
    obtain ⟨-, hfs, -⟩ | ⟨-, hfs, -⟩ := hcase
    · rw [hfs]
      exact .refl _ _
    · rw [hfs]
      exact confined_persistManifest (hsafe c hc).directory he
  cases hm with
  | stored hadm hw => exact hwrite rfl hw
  | rejected hadm hw => exact hwrite rfl hw
  | completed hr => exact hregister rfl hr
  | registered ho hr => exact hregister rfl hr
  | @opened w io record as fs ho =>
    have hc := confined_openPart D w.fs io (hheader record (hrecord _ rfl)).part
    rwa [ho] at hc
  | @refused w io record fs ho =>
    have hc := confined_openPart D w.fs io (hheader record (hrecord _ rfl)).part
    rwa [ho] at hc
  | decompressed hidx hd => exact confined_decompressChunk hd
  | failed hidx hd => exact confined_decompressChunk hd
  | threw hidx hd => exact confined_decompressChunk hd
  | @published w io as fs hidx hf =>
    have hh := hheader as.record (hrecord _ rfl)
    have hc := confined_finishPart w.fs io hh.part hh.final
    rwa [hf] at hc
  | @aborted w io as fs hidx hf =>
    have hh := hheader as.record (hrecord _ rfl)
    have hc := confined_finishPart w.fs io hh.part hh.final
    rwa [hf] at hc
  | @lost w io as fs hidx hf =>
    have hh := hheader as.record (hrecord _ rfl)
    have hc := confined_finishPart w.fs io hh.part hh.final
    rwa [hf] at hc
  | @unlinked w record => exact confined_unlink (hheader record (hrecord _ rfl)).part
  | @removed w record removes =>
    have hof := hrecord record rfl
    exact confined_removePatches (hheader record hof).directory hof.patchesDir
  | marked => exact .refl _ _

/-- The patch directories of all entries lie inside. -/
def SafeEntries (r : Root) (w : World) : Prop :=
  ∀ id e, w.entry id = some e →
    e.record.patchesDir = manifestDir r id ∧ r.Inside (r.patchDirAt id)

theorem confined_updateTtl {w : World} (fault : Bytes → Option Fault) (newTtl : Int)
    (h : SafeEntries r w) : Confined r.Inside w.fs (updateTtl r fault w newTtl).fs := by
  have hpass : SafeEntries r (updateTtl r fault w newTtl) ∧
      Confined r.Inside w.fs (updateTtl r fault w newTtl).fs := by
    unfold updateTtl
    apply forEntries_induct (P := fun w' => SafeEntries r w' ∧ Confined r.Inside w.fs w'.fs)
    · exact ⟨h, .refl _ _⟩
    · intro w' id e hw he
      obtain ⟨hdir, hin⟩ := hw.1 id e he
      refine ⟨fun id' e' he' => ?_, hw.2.trans (confined_persistManifest hin hdir)⟩
      rw [resetTtl, entry_insert] at he'
      split at he'
      · next hid =>
        cases he'
        exact hid ▸ ⟨hdir, hin⟩
      · exact hw.1 id' e' he'
  exact hpass.2

theorem confined_cleanupExpired {w : World} (removes : Bytes → Bool) (now : Int)
    (h : SafeEntries r w) : Confined r.Inside w.fs (cleanupExpired r removes now w).fs := by
  refine (forEntries_induct (P := fun w' => SafeEntries r w' ∧ Confined r.Inside w.fs w'.fs)
    ⟨h, .refl _ _⟩ fun w' id e hw he => ?_).2
  split
  swap
  · exact hw
  obtain ⟨hdir, hin⟩ := hw.1 id e he
  refine ⟨fun id' e' he' => ?_, hw.2.trans ?_⟩
  · rw [entry_expireEntry] at he'
    split at he'
    · cases he'
    · exact hw.1 id' e' he'
  · exact confined_removePatches hin hdir

/-- Every call that changes names named places strictly inside one of the two directories. -/
def StaysInside (r : Root) (fs : FileSystem) : Prop :=
  ∀ c ∈ fs.calls, ∀ l ∈ c.targets, r.Inside l

/-- Chunks whose checksums are right have safe headers; `dirs` are the directories at the start. -/
def SafeDeliveries (r : Root) (dirs : Location → Bool) (_ : System D) : Action → Prop
  | .thread _ (.deliver _ c) => verifyCrc c = true → SafeHeader r dirs c.fileId c.originalName
  | _ => True

/-- The invariant behind containment. Directories elsewhere never change, so a path that was
safe at the start stays safe. -/
structure Contained (r : Root) (fs₀ : FileSystem) (s : System D) : Prop where
  sound : Sound r s
  safe : ∀ c, Verified s.deliveries c → SafeHeader r fs₀.dirs c.fileId c.originalName
  inside : StaysInside r s.world.fs
  dirs : ∀ l, ¬ r.Inside l → s.world.fs.dirs l = fs₀.dirs l

theorem StaysInside.confined {fs' : FileSystem} (h : StaysInside r fs)
    (hc : Confined r.Inside fs fs') : StaysInside r fs' := by
  obtain ⟨cs, hcs, hin⟩ := hc.calls
  intro c hmem
  rw [hcs] at hmem
  cases List.mem_append.mp hmem with
  | inl hmem => exact h c hmem
  | inr hmem => exact hin c hmem

theorem contained_start (fs : FileSystem) (ttl : Int) :
    Contained r fs (System.start D fs ttl) where
  sound := sound_start fs ttl
  safe _ h := by simpa [System.start] using h.mem
  inside _ h := by simp [System.start] at h
  dirs _ _ := rfl

theorem contained_step {fs₀ : FileSystem} {s s' : System D} {a : Action}
    (h : Contained r fs₀ s) (hg : SafeDeliveries r fs₀.dirs s a) (hs : step r s a = some s') :
    Contained r fs₀ s' := by
  have hsound := sound_step h.sound hs
  have hkeep : ∀ {w' : World}, Confined r.Inside s.world.fs w'.fs →
      StaysInside r w'.fs ∧ ∀ l, ¬ r.Inside l → w'.fs.dirs l = fs₀.dirs l := by
    intro w' hc
    exact ⟨h.inside.confined hc, fun l hl => (hc.dirs l hl).trans (h.dirs l hl)⟩
  have hentries : SafeEntries r s.world := by
    intro id e he
    have ht := h.sound.entries id e he
    obtain ⟨c, hc, hid, -⟩ := ht.record.header
    exact ⟨ht.patchesDir, ht.fileId ▸ hid ▸ (h.safe c hc).directory⟩
  cases a with
  | thread t a =>
    obtain ⟨h', w', hm, rfl⟩ := step_thread hs
    have hdeliver : ∀ io c, a = .deliver io c → verifyCrc c = true →
        SafeHeader r fs₀.dirs c.fileId c.originalName := by
      intro io c ha
      subst ha
      exact hg
    have hc : Confined r.Inside s.world.fs w'.fs := confined_moves hm h.dirs h.safe hdeliver
      h.sound.entries (h.sound.storing t) (h.sound.records t)
    refine ⟨hsound, fun c hver => ?_, (hkeep hc).1, (hkeep hc).2⟩
    cases List.mem_append.mp hver.mem with
    | inl hmem => exact h.safe c ⟨hmem, hver.crc, hver.index_lt⟩
    | inr hmem =>
      cases a <;> simp only [HandlerAction.delivered, List.mem_singleton, List.not_mem_nil] at hmem
      subst hmem
      exact hdeliver _ _ rfl hver.crc
  | updateTtl fault newTtl =>
    cases hs
    have hc := confined_updateTtl fault newTtl hentries
    exact ⟨hsound, h.safe, (hkeep hc).1, (hkeep hc).2⟩
  | cleanup removes now =>
    cases hs
    have hc := confined_cleanupExpired removes now hentries
    exact ⟨hsound, h.safe, (hkeep hc).1, (hkeep hc).2⟩

/-- Over every run whose verified chunks have safe headers, whatever the server creates, renames
or removes lies strictly inside the patches directory or the files directory. -/
theorem stays_inside {ttl : Int} {s : System D}
    (h : Reach (step r) (SafeDeliveries r fs.dirs) (System.start D fs ttl) s) :
    StaysInside r s.world.fs := by
  have hcontained : Contained r fs s :=
    h.invariant (contained_start fs ttl) fun _ _ _ hi hg hs => contained_step hi hg hs
  exact hcontained.inside

theorem passed_patchesDir_sample :
    ∀ l ∈ passed Root.sample.cwd Root.sample.patchesDir, sampleFiles.dirs l = true := by
  decide +kernel

/-- A chunk with an ordinary header is stored, then expires. -/
theorem stays_inside_sample : ∃ s : System RawFrame.decoder,
    Call.removeAll (Root.sample.patchDirAt (ascii "x")) ∈ s.world.fs.calls ∧
      StaysInside .sample s.world.fs := by
  let labels : List Action :=
    [.thread 0 (.deliver {} (.sealed (ascii "x") (ascii "n") 0 2 1 (ascii "a"))),
      .thread 0 (.register {} 0), .cleanup (fun _ => true) 2000000000]
  have hok : ∀ a ∈ labels, ∀ s : System RawFrame.decoder,
      SafeDeliveries .sample sampleFiles.dirs s a := by
    intro a ha s
    simp only [labels, List.mem_cons, List.not_mem_nil, or_false] at ha
    obtain rfl | rfl | rfl := ha
    · exact fun _ => safeHeader_of_ordinary passed_patchesDir_sample (by decide) (by decide)
    · trivial
    · trivial
  have hrun : (run (step .sample) (System.start RawFrame.decoder sampleFiles 1) labels).any
      (fun s => Call.removeAll (Root.sample.patchDirAt (ascii "x")) ∈ s.world.fs.calls) = true := by
    decide +kernel
  obtain ⟨s, hs, hend⟩ := (Option.any_eq_true ..).mp hrun
  have hreach : Reach (step .sample) (SafeDeliveries .sample sampleFiles.dirs)
      (System.start RawFrame.decoder sampleFiles 1) s :=
    .of_run_of (P := fun _ => True) trivial (fun _ _ _ _ _ _ => trivial)
      (fun s _ _ ha => ha s) hok hs
  exact ⟨s, of_decide_eq_true hend, stays_inside hreach⟩

/-- A chunk with the id `/home` expires, and the server removes everything below `/home`. -/
theorem stays_inside_fails : ¬ ∀ (D : Decoder) (r : Root) (fs : FileSystem) (ttl : Int)
    (s : System D), (∀ l ∈ passed r.cwd r.patchesDir, fs.dirs l = true) →
      (∀ l ∈ passed r.cwd r.filesDir, fs.dirs l = true) →
        Reachable (step r) (System.start D fs ttl) s → StaysInside r s.world.fs := by
  intro hclaim
  let labels : List Action :=
    [.thread 0 (.deliver {} (.sealed (ascii "/home") (ascii "n") 0 2 1 (ascii "a"))),
      .thread 0 (.register {} 0), .cleanup (fun _ => true) 2000000000]
  have hrun : (run (step .sample) (System.start RawFrame.decoder sampleFiles 1) labels).any
      (fun s => Call.removeAll [ascii "home"] ∈ s.world.fs.calls) = true := by
    decide +kernel
  obtain ⟨s, hs, hend⟩ := (Option.any_eq_true ..).mp hrun
  have hin := hclaim _ .sample sampleFiles 1 s passed_patchesDir_sample (by decide +kernel)
    (.of_run hs) _ (of_decide_eq_true hend) [ascii "home"] (by simp [Call.targets])
  revert hin
  decide +kernel

end SuperVoice.Server
