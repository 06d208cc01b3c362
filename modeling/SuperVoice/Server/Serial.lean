import SuperVoice.Server.Assembling
import SuperVoice.Server.Tracking

/-! Deliveries handled one after the other: each is stored, and assembled and marked when a record
comes back. Only chunks with ordinary ids and names are delivered. -/
namespace SuperVoice.Server
open Bytes PosixPath FileStore FileStore.FileSystem StreamCodec Transition
variable {r : Root} {D : Decoder} {fs fs' : FileSystem}

/-- A chunk with what the system grants on its way, and how many calls the codec may take. -/
structure Delivery where
  chunk : ChunkData
  store : StoreIo := {}
  now : Int
  assembly : AssembleIo := {}
  fuel : Nat

/-- The end of a data handler: the published path, if a payload is published. -/
def World.receive (r : Root) (D : Decoder) (w : World) (d : Delivery) :
    Option (Option Path × World) :=
  match storeChunk r d.store d.now w d.chunk with
  | (.returned (some record), w) =>
    match assemble r D d.fuel d.assembly w.fs record with
    | none => none
    | some (.returned (some path), fs) =>
      some (some path, markPublished { w with fs } record.fileId)
    | some (_, fs) => some (none, { w with fs })
  | (_, w) => some (none, w)

/-- The server and the deliveries so far, newest first; the flag tells those that published. -/
structure Serial where
  world : World
  log : List (ChunkData × Bool)

namespace Serial

def start (fs : FileSystem) (ttl : Int) : Serial := ⟨⟨fs, ⟨∅, ttl⟩⟩, []⟩

/-- A delivery that passes the index check of the handler. -/
def step (r : Root) (D : Decoder) (s : Serial) (d : Delivery) : Option Serial :=
  if d.chunk.index < d.chunk.totalChunks then
    (s.world.receive r D d).map fun (path, world) => ⟨world, (d.chunk, path.isSome) :: s.log⟩
  else none

def chunks (s : Serial) : List ChunkData := s.log.map Prod.fst

end Serial

/-- The indices delivered for `id` since it was last published. -/
def gathered (id : Bytes) : List (ChunkData × Bool) → Finset Nat
  | [] => ∅
  | (c, published) :: log =>
    if c.fileId = id then if published then ∅ else insert c.index (gathered id log)
    else gathered id log

section Places

/-- Where files of ordinary ids and names stand. -/
def FilePlace (r : Root) (l : Location) : Prop :=
  (∃ a b, l = r.patches ++ [a, b]) ∨ ∃ a, l = r.files ++ [a]

/-- Files appear in such places only, directories on the way to a patch directory only, and the
directory of published files stays. -/
structure Tame (r : Root) (fs fs' : FileSystem) : Prop where
  link : ∀ l, fs'.link l ≠ none → fs.link l ≠ none ∨ FilePlace r l
  dirs : ∀ l, fs'.dirs l = true →
    fs.dirs l = true ∨ l ∈ passed r.cwd r.patchesDir ∨ ∃ a, l = r.patches ++ [a]
  files : fs.dirs r.files = true → fs'.dirs r.files = true

theorem Tame.trans {fs₁ fs₂ fs₃ : FileSystem} (h : Tame r fs₁ fs₂) (h' : Tame r fs₂ fs₃) :
    Tame r fs₁ fs₃ where
  link l hl := (h'.link l hl).elim (h.link l) .inr
  dirs l hl := (h'.dirs l hl).elim (h.dirs l) .inr
  files hf := h'.files (h.files hf)

theorem tame_of_within {q : Location → Prop} (h : Within q fs fs') (hq : ∀ l, q l → FilePlace r l)
    (hdirs : fs'.dirs = fs.dirs) : Tame r fs fs' where
  link l hl := by
    by_cases hin : q l
    · exact .inr (hq l hin)
    · exact .inl (h.link l hin ▸ hl)
  dirs l hl := .inl (hdirs ▸ hl)
  files hf := hdirs ▸ hf

/-- Nothing stands in the way of payload `id`: the directory of published files is there, no file
stands where a directory has to be and no directory where a file has to be. -/
structure Prepared (r : Root) (id name : Bytes) (fs : FileSystem) : Prop where
  files : fs.dirs r.files = true
  clear : ∀ l ∈ passed r.cwd r.patchesDir, fs.link l = none ∧ ¬ FilePlace r l
  directory : fs.link (r.patchDirAt id) = none
  patch : ∀ i l, l = r.patchTmpAt id i ∨ l = r.patchAt id i → fs.dirs l = false
  publish : ∀ l, l = r.partAt name ∨ l = r.finalAt name → fs.dirs l = false

variable {id name : Bytes}

theorem filePlace_patch (hid : IsComponent id) {i : Nat} {l : Location}
    (hl : l = r.patchTmpAt id i ∨ l = r.patchAt id i) : FilePlace r l := by
  obtain rfl | rfl := hl
  · exact .inl ⟨_, _, patchTmpAt_eq hid i⟩
  · exact .inl ⟨_, _, patchAt_eq hid i⟩

theorem filePlace_manifest (hid : IsComponent id) {l : Location}
    (hl : l = r.manifestTmpAt id ∨ l = r.manifestAt id) : FilePlace r l := by
  obtain rfl | rfl := hl
  · exact .inl ⟨_, _, manifestTmpAt_eq hid⟩
  · exact .inl ⟨_, _, manifestAt_eq hid⟩

theorem filePlace_publish (hn : IsComponent name) {l : Location}
    (hl : l = r.partAt name ∨ l = r.finalAt name) : FilePlace r l := by
  obtain rfl | rfl := hl
  · exact .inr ⟨_, partAt_eq hn⟩
  · exact .inr ⟨_, finalAt_eq hn⟩

theorem not_filePlace_directory (a : Bytes) : ¬ FilePlace r (r.patches ++ [a]) := by
  intro h
  obtain ⟨b, c, h⟩ | ⟨b, h⟩ := h
  · simp at h
  · exact r.patches_append_ne_files_append _ _ h

theorem Prepared.tame (h : Prepared r id name fs) (hid : IsComponent id) (hn : IsComponent name)
    (ht : Tame r fs fs') : Prepared r id name fs' := by
  have hlink : ∀ l, fs.link l = none → ¬ FilePlace r l → fs'.link l = none := fun l hnone hnot =>
    not_not.mp fun hl => (ht.link l hl).elim (fun hne => hne hnone) hnot
  have hdirs : ∀ l, fs.dirs l = false → FilePlace r l → fs'.dirs l = false := by
    intro l hfalse hplace
    apply Bool.eq_false_iff.mpr
    intro hl
    obtain hd | hpassed | ⟨a, rfl⟩ := ht.dirs l hl
    · rw [hfalse] at hd
      cases hd
    · exact (h.clear l hpassed).2 hplace
    · exact not_filePlace_directory a hplace
  refine ⟨ht.files h.files, fun l hl => ⟨hlink l (h.clear l hl).1 (h.clear l hl).2,
    (h.clear l hl).2⟩, hlink _ h.directory ?_, fun i l hl => hdirs l (h.patch i l hl)
    (filePlace_patch hid hl), fun l hl => hdirs l (h.publish l hl) (filePlace_publish hn hl)⟩
  rw [patchDirAt_eq hid]
  exact not_filePlace_directory id

/-- The patch files of the payload can be written. -/
theorem Prepared.unobstructed (h : Prepared r id name fs) (hid : IsComponent id) (i : Nat) :
    Unobstructed r fs id i := by
  have hpassed : ∀ l ∈ passed r.cwd (manifestDir r id), l ∈ passed r.cwd r.patchesDir ∨
      l = r.patchDirAt id := by
    intro l hl
    rw [patchDirAt_eq hid]
    exact passed_join_component r.cwd r.no_nul_patchesDir hid hl
  refine ⟨fun l hl => ?_, fun l hl => ⟨?_, fun hin => ?_, h.patch i l hl⟩⟩
  · obtain hl | rfl := hpassed l hl
    · exact (h.clear l hl).1
    · exact h.directory
  · have hparent : l.dropLast = r.patchDirAt id := by
      rw [patchDirAt_eq hid]
      obtain rfl | rfl := hl
      · rw [patchTmpAt_eq hid]
        exact List.dropLast_append_cons.trans (by simp)
      · rw [patchAt_eq hid]
        exact List.dropLast_append_cons.trans (by simp)
    rw [hparent]
    exact passed_self r.cwd (manifestDir r id)
  · obtain hin | rfl := hpassed l hin
    · exact (h.clear l hin).2 (filePlace_patch hid hl)
    · have hplace := filePlace_patch hid hl
      rw [patchDirAt_eq hid] at hplace
      exact not_filePlace_directory id hplace

theorem Prepared.canHold (h : Prepared r id name fs) (hn : IsComponent name) {l : Location}
    (hl : l = r.partAt name ∨ l = r.finalAt name) : fs.canHold l = true := by
  have hparent : l.dropLast = r.files := by
    obtain rfl | rfl := hl
    · rw [partAt_eq hn, List.dropLast_concat]
    · rw [finalAt_eq hn, List.dropLast_concat]
  rw [FileSystem.canHold, hparent, h.files, h.publish l hl]
  rfl

end Places

section Effects
variable {chunk : ChunkData} {io : StoreIo} {now : Int} {w w' : World}

theorem tame_writePatch (hid : IsComponent chunk.fileId) {b : Bool}
    (h : writePatch r io fs chunk = (b, fs')) : Tame r fs fs' := by
  have hwithin : Within (fun l => l = r.patchTmpAt chunk.fileId chunk.index ∨
      l = r.patchAt chunk.fileId chunk.index) fs fs' := by
    cases b with
    | false => exact (writePatch_false h).mono fun _ => .inl
    | true => exact (writePatch_true h).2.1
  have hdirs := dirs_writePatch h
  split at hdirs
  swap
  · exact tame_of_within hwithin (fun l => filePlace_patch hid) hdirs
  · have hext := extended_mkdirs (reached r io (manifestDir r chunk.fileId)) fs
    refine ⟨fun l hl => ?_, fun l hl => ?_, fun hf => ?_⟩
    · by_cases hin : l = r.patchTmpAt chunk.fileId chunk.index ∨
          l = r.patchAt chunk.fileId chunk.index
      · exact .inr (filePlace_patch hid hin)
      · exact .inl (hwithin.link l hin ▸ hl)
    · rw [hdirs] at hl
      obtain hl | hl := hext.mem_of_dirs l hl
      · exact .inl hl
      · right
        obtain hl | rfl :=
          passed_join_component r.cwd r.no_nul_patchesDir hid (mem_passed_of_reached hl)
        · exact .inl hl
        · exact .inr ⟨_, rfl⟩
    · rw [hdirs]
      exact hext.dirs_of_dirs _ hf

theorem tame_persistManifest {fault : Option Fault} {record : PayloadRecord} {e : PayloadEntry}
    {id : Bytes} (hid : IsComponent id) (hdir : record.patchesDir = manifestDir r id) :
    Tame r fs (persistManifest r fault fs record e) :=
  tame_of_within (within_persistManifest hdir) (fun _ => filePlace_manifest hid) dirs_replaceFile

theorem tame_removePatches {record : PayloadRecord} {id : Bytes} {removes : Bool}
    (hid : IsComponent id) (hdir : record.patchesDir = manifestDir r id) :
    Tame r fs (removePatches r removes fs record) := by
  cases removes with
  | false => exact tame_of_within (.refl (fun _ => False) fs) (fun _ h => h.elim) rfl
  | true =>
    have hat : r.locate record.patchesDir = r.patches ++ [id] := by
      rw [hdir]
      exact patchDirAt_eq hid
    simp only [removePatches, if_true, hat]
    refine ⟨fun l hl => .inl fun hnone => hl ?_, fun l hl => .inl ?_, fun hf => ?_⟩
    · rw [link_removeAll, hnone, ite_self]
    · rw [dirs_removeAll] at hl
      split at hl
      · cases hl
      · exact hl
    · rw [dirs_removeAll, if_neg, hf]
      intro hin
      have hfiles := patches_not_prefix_files r []
      rw [List.append_nil] at hfiles
      exact hfiles ((List.prefix_append _ _).trans hin)

theorem tame_assemble {record : PayloadRecord} {id : Bytes} {aio : AssembleIo} {fuel : Nat}
    {o : Outcome (Option Path)} (hid : IsComponent id) (hn : IsComponent record.originalName)
    (hdir : record.patchesDir = manifestDir r id)
    (h : assemble r D fuel aio fs record = some (o, fs')) : Tame r fs fs' := by
  obtain ⟨fs₁, hwithin, hdirs, rfl | rfl⟩ := assemble_effect h
  · exact tame_of_within hwithin (fun _ => filePlace_publish hn) hdirs
  · exact (tame_of_within hwithin (fun _ => filePlace_publish hn) hdirs).trans
      (tame_removePatches hid hdir)

/-- Nothing of payload `id` is changed: neither its entry nor the contents of its patch files. -/
structure Undisturbed (r : Root) (id : Bytes) (w w' : World) : Prop where
  entry : w'.entry id = w.entry id
  patches : ∀ i, w'.fs.content (r.patchAt id i) = w.fs.content (r.patchAt id i)

theorem Undisturbed.trans {id : Bytes} {w₁ w₂ w₃ : World} (h : Undisturbed r id w₁ w₂)
    (h' : Undisturbed r id w₂ w₃) : Undisturbed r id w₁ w₃ :=
  ⟨h'.entry.trans h.entry, fun i => (h'.patches i).trans (h.patches i)⟩

/-- Files of ordinary ids and names lie beside the patch files of another ordinary id. -/
theorem content_patchAt_of_within {id id' : Bytes} (hid : IsComponent id) (hid' : IsComponent id')
    (hne : id ≠ id') {q : Location → Prop} (hw : Within q fs fs')
    (hq : ∀ l, q l → (∃ j, l = r.patchTmpAt id' j ∨ l = r.patchAt id' j) ∨
      l = r.manifestTmpAt id' ∨ l = r.manifestAt id') (i : Nat) :
    fs'.content (r.patchAt id i) = fs.content (r.patchAt id i) := by
  apply hw.content
  intro hl
  obtain ⟨j, h | h⟩ | h | h := hq _ hl
  · exact patchAt_ne_patchTmpAt hid hid' h
  · exact hne ((patchAt_inj hid hid').mp h).1
  · exact (patchAt_ne_manifestAt hid hid').2 h
  · exact (patchAt_ne_manifestAt hid hid').1 h

theorem storeChunk_cases {o : Outcome (Option PayloadRecord)}
    (h : storeChunk r io now w chunk = (o, w')) :
    (∃ fs, writePatch r io w.fs chunk = (false, fs) ∧ o = .returned none ∧ w' = { w with fs }) ∨
    ∃ fs, writePatch r io w.fs chunk = (true, fs) ∧
      registerChunk r io now { w with fs } chunk = (o, w') := by
  unfold storeChunk at h
  split at h
  · rename_i fs hw
    cases h
    exact .inl ⟨fs, hw, rfl, rfl⟩
  · rename_i fs hw
    exact .inr ⟨fs, hw, h⟩

/-- Storing an ordinary chunk. -/
theorem storeChunk_effect {cs : List ChunkData} {o : Outcome (Option PayloadRecord)}
    (hid : IsComponent chunk.fileId) (hmem : chunk ∈ cs) (hlt : chunk.index < chunk.totalChunks)
    (hall : AllTracked r cs w) (h : storeChunk r io now w chunk = (o, w')) :
    Tame r w.fs w'.fs ∧ AllTracked r cs w' ∧
    (∀ record, o = .returned (some record) →
      ∃ e, w'.entry chunk.fileId = some e ∧ e.record = record) ∧
    ∀ id, IsComponent id → id ≠ chunk.fileId → Undisturbed r id w w' := by
  obtain ⟨fs, hw, rfl, rfl⟩ | ⟨fs, hw, hr⟩ := storeChunk_cases h
  · refine ⟨tame_writePatch hid hw, hall, by simp, fun id hid' hne => ⟨rfl, ?_⟩⟩
    apply content_patchAt_of_within hid' hid hne (writePatch_false hw)
    intro _ hl
    exact .inl ⟨_, .inl hl⟩
  · obtain ⟨hcrc, hwritten, -⟩ := writePatch_true hw
    obtain ⟨hall', -, hmanifest⟩ :=
      AllTracked.registerChunk (w := { w with fs }) hall ⟨hmem, hcrc, hlt⟩ hr
    obtain ⟨e₀, e, rfl, hentry, hcase⟩ := registerChunk_cases hr
    have he : w'.entry chunk.fileId = some e := by rw [hentry, if_pos rfl]
    have htame : Tame r fs w'.fs := by
      obtain ⟨-, hfs, -⟩ | ⟨-, hfs, -⟩ := hcase
      · rw [hfs]
        exact tame_of_within (.refl (fun _ => False) fs) (fun _ h => h.elim) rfl
      · rw [hfs]
        exact tame_persistManifest hid (hall' _ e he).patchesDir
    refine ⟨(tame_writePatch hid hw).trans htame, hall', fun record ho => ⟨e, he, ?_⟩,
      fun id hid' hne => ⟨?_, fun i => ?_⟩⟩
    · obtain ⟨ho', -, -⟩ | ⟨ho', -, -⟩ := hcase
      · rw [ho] at ho'
        cases ho'
      · rw [ho] at ho'
        split at ho'
        · cases ho'
          rfl
        · cases ho'
    · rw [hentry, if_neg hne]
      rfl
    · refine (content_patchAt_of_within hid' hid hne hmanifest (fun _ hl => ?_) i).trans
        (content_patchAt_of_within hid' hid hne hwritten (fun _ hl => ?_) i)
      · exact .inr hl
      · exact .inl ⟨_, hl⟩

/-- Assembling a record leaves the patch files of other ids alone. -/
theorem content_assemble {id id' : Bytes} {record : PayloadRecord} {aio : AssembleIo} {fuel : Nat}
    {o : Outcome (Option Path)} (hid : IsComponent id) (hid' : IsComponent id') (hne : id ≠ id')
    (hn : IsComponent record.originalName) (hdir : record.patchesDir = manifestDir r id')
    (h : assemble r D fuel aio fs record = some (o, fs')) (i : Nat) :
    fs'.content (r.patchAt id i) = fs.content (r.patchAt id i) := by
  obtain ⟨hpart, hfinal⟩ := (nameApart_of_component r hn).patchAt_ne hid i
  obtain ⟨fs₁, hwithin, -, hfs⟩ := assemble_effect h
  have hkept : fs₁.content (r.patchAt id i) = fs.content (r.patchAt id i) :=
    hwithin.content fun hl => hl.elim hpart hfinal
  obtain rfl | rfl := hfs
  · exact hkept
  · have hremoved : Within _ fs₁ (removePatches r aio.removes fs₁ record) :=
      within_removePatches aio.removes hdir
    rw [hremoved.content, hkept]
    exact fun hl => hne (patchDirAt_covers hid' hid hl.2).symm

/-- Every delivery of an ordinary chunk keeps the other payloads as they are. -/
theorem receive_effect {cs : List ChunkData} {d : Delivery} {o : Option Path}
    (hord : ∀ c ∈ cs, IsComponent c.fileId ∧ IsComponent c.originalName) (hmem : d.chunk ∈ cs)
    (hlt : d.chunk.index < d.chunk.totalChunks) (hall : AllTracked r cs w)
    (h : w.receive r D d = some (o, w')) :
    Tame r w.fs w'.fs ∧ AllTracked r cs w' ∧
      ∀ id, IsComponent id → id ≠ d.chunk.fileId → Undisturbed r id w w' := by
  have hid := (hord _ hmem).1
  unfold World.receive at h
  rcases hstore : storeChunk r d.store d.now w d.chunk with ⟨stored, w₁⟩
  obtain ⟨htame, hall₁, hrecord, hother⟩ := storeChunk_effect hid hmem hlt hall hstore
  rw [hstore] at h
  split at h
  · rename_i record w₂ heq
    cases heq
    obtain ⟨e, he, rfl⟩ := hrecord record rfl
    obtain ⟨hfile, ⟨⟨c, hc, -, hname⟩, -⟩, -⟩ := hall₁ _ e he
    have hdir := (hall₁ _ e he).patchesDir
    have hn : IsComponent e.record.originalName := hname ▸ (hord c hc.mem).2
    have hcontent : ∀ {o fs'}, assemble r D d.fuel d.assembly w₁.fs e.record = some (o, fs') →
        ∀ id, IsComponent id → id ≠ d.chunk.fileId → ∀ i,
          fs'.content (r.patchAt id i) = w₁.fs.content (r.patchAt id i) :=
      fun ha id hid' hne i => content_assemble hid' hid hne hn hdir ha i
    split at h
    · cases h
    · rename_i ha
      cases h
      refine ⟨htame.trans (tame_assemble hid hn hdir ha), fun id e' he' => ?_,
        fun id hid' hne => (hother id hid' hne).trans ⟨?_, hcontent ha id hid' hne⟩⟩
      · rw [entry_markPublished] at he'
        split at he'
        · cases he'
        · exact hall₁ id e' he'
      · rw [entry_markPublished, hfile, if_neg hne]
        rfl
    · rename_i ha
      cases h
      exact ⟨htame.trans (tame_assemble hid hn hdir ha), hall₁,
        fun id hid' hne => (hother id hid' hne).trans ⟨rfl, hcontent ha id hid' hne⟩⟩
  · rename_i w₂ hnone heq
    cases heq
    cases h
    exact ⟨htame, hall₁, hother⟩

theorem receive_mono {d : Delivery} {m : Nat} {x : Option Path × World} (hm : d.fuel ≤ m)
    (h : w.receive r D d = some x) : w.receive r D { d with fuel := m } = some x := by
  unfold World.receive at h ⊢
  split at h
  · rename_i record w₁ hstore
    simp only [hstore]
    cases ha : assemble r D d.fuel d.assembly w₁.fs record with
    | none =>
      rw [ha] at h
      cases h
    | some ended =>
      rw [ha] at h
      rw [assemble_mono hm ha]
      exact h
  · rename_i w₁ hnone hstore
    simp only [hstore]
    exact h

/-- Every delivery is dealt with. -/
theorem receive_total (hD : D.Terminates) (w : World) (d : Delivery) :
    ∃ n x, w.receive r D { d with fuel := n } = some x := by
  rcases hstore : storeChunk r d.store d.now w d.chunk with ⟨stored, w₁⟩
  unfold World.receive
  simp only [hstore]
  split
  · rename_i record w₂ _
    obtain ⟨n, ⟨o, fs⟩, ha⟩ := assemble_total r w₂.fs d.assembly hD record
    refine ⟨n, ?_⟩
    rw [ha]
    rcases o with ⟨_ | path⟩ | _ <;> exact ⟨_, rfl⟩
  · exact ⟨0, _, rfl⟩

end Effects

section Own
variable {id : Bytes} {p : Payload} {content : Bytes} {w : World} {received : Finset Nat}

/-- The system refuses nothing that the delivery needs; a manifest may fail to be written. -/
structure Delivery.Granted (d : Delivery) : Prop where
  directories : d.store.directories = true
  patch : d.store.patch = none
  allocates : d.store.allocates = true
  assembly : d.assembly.Granted

/-- A delivered chunk of payload `p`. -/
structure Own (id : Bytes) (p : Payload) (d : Delivery) : Prop where
  fileId : d.chunk.fileId = id
  agrees : Catalog.Agrees p d.chunk
  crc : verifyCrc d.chunk = true
  granted : d.Granted

/-- A delivered chunk of another payload, whatever it holds and however it fares. -/
structure Foreign (id : Bytes) (d : Delivery) : Prop where
  fileId : d.chunk.fileId ≠ id
  id_component : IsComponent d.chunk.fileId
  name_component : IsComponent d.chunk.originalName

/-- The indices in `received` of payload `p` have been stored and wait for the others. -/
structure Waits (r : Root) (id : Bytes) (p : Payload) (received : Finset Nat) (w : World) :
    Prop where
  prepared : Prepared r id p.name w.fs
  entry : ∀ e, w.entry id = some e → Listed r id p e ∧ e.received = received
  absent : w.entry id = none → received = ∅
  patches : ∀ i ∈ received, w.fs.content (r.patchAt id i) = p.chunks[i]?

/-- Storing a chunk of the payload. -/
theorem storeChunk_own {d : Delivery} (hid : IsComponent id) (hn : IsComponent p.name)
    (hw : Waits r id p received w) (hd : Own id p d) : ∃ e w',
      storeChunk r d.store d.now w d.chunk =
        (.returned (if e.complete then some e.record else none), w') ∧
      w'.entry id = some e ∧ Waits r id p (insert d.chunk.index received) w' := by
  obtain rfl := hd.fileId
  have hwrites := writePatch_granted hd.granted.directories hd.granted.patch hd.crc
    (hw.prepared.unobstructed hid d.chunk.index)
  rcases hwp : writePatch r d.store w.fs d.chunk with ⟨b, fs⟩
  rw [hwp] at hwrites
  cases hwrites
  obtain ⟨-, hwritten, hcontent⟩ := writePatch_true hwp
  rcases hr : registerChunk r d.store d.now { w with fs } d.chunk with ⟨o, w'⟩
  obtain ⟨e₀, e, rfl, hentry, hcase⟩ := registerChunk_cases hr
  obtain ⟨ho, -, -⟩ | ⟨rfl, hfs, he⟩ := hcase
  · rw [registerChunk, if_pos hd.granted.allocates] at hr
    cases (Prod.mk.inj hr).1.trans ho
  obtain ⟨hlisted, hreceived⟩ := listed_updateEntry d.now w.storage.defaultTtl hd.agrees
    fun e he => (hw.entry e he).1
  have hbefore : ((w.entry d.chunk.fileId).getD .fresh).received = received := by
    cases hwe : w.entry d.chunk.fileId with
    | none => exact (hw.absent hwe).symm
    | some e => exact (hw.entry e hwe).2
  have hself : w'.entry d.chunk.fileId = some e := by rw [hentry, if_pos rfl]
  have he' : e = updateEntry r d.now w.storage.defaultTtl d.chunk
      ((w.entry d.chunk.fileId).getD .fresh) := he
  rw [← he'] at hlisted hreceived
  rw [hbefore] at hreceived
  have hmanifest : Within (fun l => l = r.manifestTmpAt d.chunk.fileId ∨
      l = r.manifestAt d.chunk.fileId) fs w'.fs := by
    rw [hfs]
    exact within_persistManifest hlisted.patchesDir
  refine ⟨e, w', ?_, hself, ?_, fun e' he' => ?_, fun hnone => ?_, fun i hi => ?_⟩
  · rw [storeChunk, hwp]
    exact hr
  · apply (hw.prepared.tame hid hn (tame_writePatch hid hwp)).tame hid hn
    rw [hfs]
    exact tame_persistManifest hid hlisted.patchesDir
  · rw [hself] at he'
    cases he'
    exact ⟨hlisted, hreceived⟩
  · rw [hself] at hnone
    cases hnone
  · rw [hmanifest.content fun hl => ?_]
    · by_cases hidx : i = d.chunk.index
      · rw [hidx, hcontent, hd.agrees.payload]
      · rw [hwritten.content fun hl => ?_]
        · exact hw.patches i ((Finset.mem_insert.mp hi).resolve_left hidx)
        · obtain hl | hl := hl
          · exact patchAt_ne_patchTmpAt hid hid hl
          · exact hidx ((patchAt_inj hid hid).mp hl).2
    · obtain hl | hl := hl
      · exact (patchAt_ne_manifestAt hid hid).2 hl
      · exact (patchAt_ne_manifestAt hid hid).1 hl

/-- What the delivery of a chunk of the payload comes to: the last missing index publishes the
content, any other one is kept. -/
structure Settled (r : Root) (id : Bytes) (p : Payload) (content : Bytes) (received : Finset Nat)
    (published : Bool) (w : World) : Prop where
  completes : published = true ↔ received = Finset.range p.chunks.length
  whole : published = true → w.fs.content (r.finalAt p.name) = some content ∧ w.entry id = none
  waits : Waits r id p (if published then ∅ else received) w

theorem receive_own {d : Delivery} (hid : IsComponent id) (hn : IsComponent p.name)
    (hdec : D.DecompressesTo p.chunks content) (hw : Waits r id p received w) (hd : Own id p d) :
    ∃ n o w', (∀ fuel, n ≤ fuel → w.receive r D { d with fuel } = some (o, w')) ∧
      Settled r id p content (insert d.chunk.index received) o.isSome w' := by
  obtain ⟨e, w₁, hstore, he, hwaits⟩ := storeChunk_own hid hn hw hd
  obtain ⟨hlisted, hreceived⟩ := hwaits.entry e he
  cases hc : e.complete with
  | false =>
    refine ⟨0, none, w₁, fun fuel _ => ?_, ?_, by simp, by simpa using hwaits⟩
    · simp [World.receive, hstore, hc]
    · have hmissing : insert d.chunk.index received ≠ Finset.range p.chunks.length := by
        intro hall
        rw [← hreceived, ← hlisted.complete_iff, hc] at hall
        cases hall
      simp [hmissing]
  | true =>
    have hall : insert d.chunk.index received = Finset.range p.chunks.length :=
      hreceived ▸ hlisted.complete_iff.mp hc
    have hne : e.received ≠ ∅ := by
      rw [hreceived]
      exact Finset.insert_ne_empty _ _
    have hcomplete := hlisted.completeRecord hne hc
    have hfile := hlisted.fileId
    have hstock : Stocked r w₁.fs e.record.fileId p := by
      intro i hi
      rw [hfile]
      exact hwaits.patches i (hall ▸ Finset.mem_range.mpr hi)
    obtain ⟨n, fs, ha, hcontent⟩ := assemble_granted hd.granted.assembly (hfile ▸ hid) hn hcomplete
      (Nat.zero_lt_of_lt hd.agrees.index_lt) hdec hstock fun l hl => hwaits.prepared.canHold hn hl
    have hgone : (markPublished { w₁ with fs } e.record.fileId).entry id = none := by
      rw [entry_markPublished, hfile, if_pos rfl]
    refine ⟨n, some (finalPath r e.record), markPublished { w₁ with fs } e.record.fileId,
      fun fuel hfuel => ?_, by simp [hall], fun _ => ⟨hcontent, hgone⟩, ?_⟩
    · simp [World.receive, hstore, hc, ha fuel hfuel]
    · have htame : Tame r w₁.fs fs := by
        refine tame_assemble hid ?_ hlisted.patchesDir (ha n (Nat.le_refl n))
        rw [hlisted.name]
        exact hn
      refine ⟨hwaits.prepared.tame hid hn htame, fun e' he' => ?_, fun _ => by simp, by simp⟩
      rw [hgone] at he'
      cases he'

end Own

namespace Serial
variable {id : Bytes} {p : Payload} {content : Bytes} {s s' : Serial}

/-- The last delivery has published its payload. -/
def published (s : Serial) : Bool := s.log.head?.any fun entry => entry.2

/-- Where the payload stands after a run, and what else the server tracks. -/
structure Progress (r : Root) (id : Bytes) (p : Payload) (s : Serial) : Prop where
  waits : Waits r id p (gathered id s.log) s.world
  tracked : AllTracked r s.chunks s.world
  ordinary : ∀ c ∈ s.chunks, IsComponent c.fileId ∧ IsComponent c.originalName

theorem Progress.start {fs : FileSystem} (ttl : Int) (h : Prepared r id p.name fs) :
    Progress r id p (start fs ttl) where
  waits := ⟨h, fun _ he => by simp [Serial.start, World.entry] at he, fun _ => rfl,
    fun _ hi => by simp [Serial.start, gathered] at hi⟩
  tracked _ _ he := by simp [Serial.start, World.entry] at he
  ordinary _ hc := by simp [Serial.start, chunks] at hc

theorem step_cases {d : Delivery} (h : s.step r D d = some s') : d.chunk.index < d.chunk.totalChunks ∧
    ∃ o, s.world.receive r D d = some (o, s'.world) ∧ s'.log = (d.chunk, o.isSome) :: s.log := by
  unfold step at h
  split at h
  · rename_i hlt
    obtain ⟨⟨o, w⟩, hr, rfl⟩ := Option.map_eq_some_iff.mp h
    exact ⟨hlt, o, hr, rfl⟩
  · cases h

/-- The chunk of a delivery is entered in the log, and the flag is that of the delivery. -/
theorem log_step {d : Delivery} (h : s.step r D d = some s') :
    s'.log = (d.chunk, s'.published) :: s.log := by
  obtain ⟨-, o, -, hlog⟩ := step_cases h
  rw [published, hlog]
  rfl

/-- The delivery of a chunk of the payload, with enough fuel. -/
theorem Progress.own {d : Delivery} (h : Progress r id p s) (hid : IsComponent id)
    (hn : IsComponent p.name) (hdec : D.DecompressesTo p.chunks content) (hd : Own id p d) :
    ∃ n s', (∀ fuel, n ≤ fuel → s.step r D { d with fuel } = some s') ∧
      Settled r id p content (insert d.chunk.index (gathered id s.log)) s'.published s'.world := by
  obtain ⟨n, o, w, hreceive, hsettled⟩ := receive_own hid hn hdec h.waits hd
  have hlt : d.chunk.index < d.chunk.totalChunks := hd.agrees.total ▸ hd.agrees.index_lt
  refine ⟨n, ⟨w, (d.chunk, o.isSome) :: s.log⟩, fun fuel hfuel => ?_, hsettled⟩
  simp only [step, hlt, if_true, hreceive fuel hfuel, Option.map_some]

theorem step_mono {d : Delivery} {m : Nat} (hm : d.fuel ≤ m) (h : s.step r D d = some s') :
    s.step r D { d with fuel := m } = some s' := by
  unfold step at h ⊢
  split at h
  · rename_i hlt
    obtain ⟨x, hr, hx⟩ := Option.map_eq_some_iff.mp h
    rw [if_pos hlt, receive_mono hm hr]
    exact congrArg some hx
  · cases h

theorem Progress.step {d : Delivery} (h : Progress r id p s) (hid : IsComponent id)
    (hn : IsComponent p.name) (hdec : D.DecompressesTo p.chunks content)
    (hd : Own id p d ∨ Foreign id d) (hs : s.step r D d = some s') : Progress r id p s' := by
  obtain ⟨hlt, o, hr, hlog⟩ := step_cases hs
  have hchunks : s'.chunks = d.chunk :: s.chunks := by simp [chunks, hlog]
  have hordinary : ∀ c ∈ s'.chunks, IsComponent c.fileId ∧ IsComponent c.originalName := by
    intro c hc
    rw [hchunks] at hc
    obtain rfl | hc := List.mem_cons.mp hc
    · obtain hd | hd := hd
      · exact ⟨hd.fileId ▸ hid, hd.agrees.name ▸ hn⟩
      · exact ⟨hd.id_component, hd.name_component⟩
    · exact h.ordinary c hc
  obtain ⟨htame, htracked, hother⟩ := receive_effect hordinary (by simp [hchunks]) hlt
    (h.tracked.mono (by simp [hchunks])) hr
  refine ⟨?_, htracked, hordinary⟩
  obtain hd | hd := hd
  · obtain ⟨n, s₁, hall, hsettled⟩ := h.own hid hn hdec hd
    have hsame : s₁ = s' := by
      have h₁ := hall _ (Nat.le_max_left n d.fuel)
      rw [step_mono (Nat.le_max_right n d.fuel) hs] at h₁
      exact (Option.some.inj h₁).symm
    rw [hsame] at hsettled
    rw [log_step hs, gathered, if_pos hd.fileId]
    exact hsettled.waits
  · have hkept := hother id hid hd.fileId.symm
    rw [hlog, gathered, if_neg hd.fileId]
    exact ⟨h.waits.prepared.tame hid hn htame, fun e he => h.waits.entry e (hkept.entry ▸ he),
      fun hnone => h.waits.absent (hkept.entry ▸ hnone),
      fun i hi => (hkept.patches i).trans (h.waits.patches i hi)⟩

theorem progress_of_reach {fs : FileSystem} {ttl : Int} {guard : Serial → Delivery → Prop}
    (hguard : ∀ s d, guard s d → Own id p d ∨ Foreign id d) (hid : IsComponent id)
    (hn : IsComponent p.name) (hdec : D.DecompressesTo p.chunks content)
    (hfs : Prepared r id p.name fs) (h : Reach (step r D) guard (Serial.start fs ttl) s) :
    Progress r id p s :=
  h.invariant (.start ttl hfs) fun s d _ hi hg hs => hi.step hid hn hdec (hguard s d hg) hs

end Serial
end SuperVoice.Server
