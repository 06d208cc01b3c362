import SuperVoice.Server.Effects

/-! What the calls achieve when the system refuses nothing and nothing stands in the way. -/
namespace SuperVoice.Server
open Bytes PosixPath FileStore FileStore.FileSystem
variable {r : Root} {fs : FileSystem} {chunk : ChunkData} {id : Bytes} {i : Nat}

/-- What it takes to store a chunk: both checks, no refused call, and a file system in which no file
stands where a directory is missing and both files can stand where they have to be. -/
structure Storable (r : Root) (io : StoreIo) (fs : FileSystem) (chunk : ChunkData) : Prop where
  verified : verifyCrc chunk = true
  granted : io.directories = true ∧ io.patch = none
  clear : ∀ l ∈ passed r.cwd (manifestDir r chunk.fileId), fs.dirs l = true ∨ fs.link l = none
  target : ∀ l, l = r.patchTmpAt chunk.fileId chunk.index ∨
      l = r.patchAt chunk.fileId chunk.index →
    (fs.dirs l.dropLast = true ∨ l.dropLast ∈ passed r.cwd (manifestDir r chunk.fileId)) ∧
      ¬(fs.dirs l = true ∨ l ∈ passed r.cwd (manifestDir r chunk.fileId))

theorem canHold_mkdirs {ls : List Location} {l : Location} (h : (fs.mkdirs ls).1 = true) :
    (fs.mkdirs ls).2.canHold l = true ↔
      (fs.dirs l.dropLast = true ∨ l.dropLast ∈ ls) ∧ ¬(fs.dirs l = true ∨ l ∈ ls) := by
  rw [canHold, Bool.and_eq_true, Bool.not_eq_true', ← Bool.not_eq_true, dirs_mkdirs h,
    dirs_mkdirs h]

theorem createDirectories_true {io : StoreIo} {fs₁ : FileSystem} {p : Path}
    (h : createDirectories r io fs p = (true, fs₁)) : io.directories = true ∧
      (fs.mkdirs (passed r.cwd p)).1 = true ∧ (fs.mkdirs (passed r.cwd p)).2 = fs₁ := by
  obtain ⟨hmade, hfs⟩ := Prod.mk.inj h
  obtain ⟨hdirs, hfst⟩ := (Bool.and_eq_true ..).mp hmade
  rw [reached, if_pos hdirs] at hfst hfs
  exact ⟨hdirs, hfst, hfs⟩

theorem createDirectories_granted {io : StoreIo} {p : Path} (hdirs : io.directories = true)
    (hfst : (fs.mkdirs (passed r.cwd p)).1 = true) :
    createDirectories r io fs p = (true, (fs.mkdirs (passed r.cwd p)).2) := by
  rw [createDirectories, reached, if_pos hdirs, hdirs]
  exact Prod.ext hfst rfl

theorem writePatch_fst {io : StoreIo} :
    (writePatch r io fs chunk).1 = true ↔ Storable r io fs chunk := by
  have hwrite : ∀ fs₁, (writeBinaryFile r io.patch fs₁ (patchPath r chunk.fileId chunk.index)
      chunk.payload).1 = true ↔ io.patch = none ∧
        fs₁.canHold (r.patchTmpAt chunk.fileId chunk.index) = true ∧
        fs₁.canHold (r.patchAt chunk.fileId chunk.index) = true :=
    fun _ => replaceFile_fst
  constructor
  · intro h
    rw [writePatch] at h
    split at h
    · next hcrc =>
      split at h
      · cases h
      · next fs₁ hmade =>
        obtain ⟨hdirs, hfst, rfl⟩ := createDirectories_true hmade
        obtain ⟨hpatch, htmp, hdst⟩ := (hwrite _).mp h
        refine ⟨hcrc, ⟨hdirs, hpatch⟩, (mkdirs_fst _ _).mp hfst, fun l hl => ?_⟩
        rcases hl with rfl | rfl
        · exact (canHold_mkdirs hfst).mp htmp
        · exact (canHold_mkdirs hfst).mp hdst
    · cases h
  · intro h
    have hfst := (mkdirs_fst _ _).mpr h.clear
    rw [writePatch, if_pos h.verified, createDirectories_granted h.granted.1 hfst]
    exact (hwrite _).mpr ⟨h.granted.2, (canHold_mkdirs hfst).mpr (h.target _ (.inl rfl)),
      (canHold_mkdirs hfst).mpr (h.target _ (.inr rfl))⟩

/-- No file stands where the patch directory has to be, and no directory where the patch file or
its temporary file has to be. -/
structure Unobstructed (r : Root) (fs : FileSystem) (id : Bytes) (i : Nat) : Prop where
  clear : ∀ l ∈ passed r.cwd (manifestDir r id), fs.link l = none
  target : ∀ l, l = r.patchTmpAt id i ∨ l = r.patchAt id i →
    l.dropLast ∈ passed r.cwd (manifestDir r id) ∧ l ∉ passed r.cwd (manifestDir r id) ∧
      fs.dirs l = false

instance : Decidable (Unobstructed r fs id i) :=
  decidable_of_iff ((∀ l ∈ passed r.cwd (manifestDir r id), fs.link l = none) ∧
    ∀ l ∈ [r.patchTmpAt id i, r.patchAt id i], l.dropLast ∈ passed r.cwd (manifestDir r id) ∧
      l ∉ passed r.cwd (manifestDir r id) ∧ fs.dirs l = false)
    ⟨fun h => ⟨h.1, fun l hl => h.2 l (by simpa using hl)⟩,
      fun h => ⟨h.clear, fun l hl => h.target l (by simpa using hl)⟩⟩

theorem writePatch_granted {io : StoreIo} (hdirs : io.directories = true) (hpatch : io.patch = none)
    (hcrc : verifyCrc chunk = true) (h : Unobstructed r fs chunk.fileId chunk.index) :
    (writePatch r io fs chunk).1 = true := by
  refine writePatch_fst.mpr ⟨hcrc, ⟨hdirs, hpatch⟩, fun l hl => .inr (h.clear l hl), fun l hl => ?_⟩
  obtain ⟨hparent, hnot, hfree⟩ := h.target l hl
  exact ⟨.inr hparent, fun hor => hor.elim (by simp [hfree]) hnot⟩

end SuperVoice.Server
