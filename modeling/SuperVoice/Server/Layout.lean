import SuperVoice.Server.Assembler

/-! Where the paths that the server composes lead, and what an ordinary id or name makes of
them: every file of an id lies in its own directory, every name beside the others. -/
namespace SuperVoice.Server
open Bytes PosixPath

namespace Root
variable (r : Root)

def patchAt (id : Bytes) (i : Nat) : Location := r.locate (patchPath r id i)
def patchTmpAt (id : Bytes) (i : Nat) : Location := r.locate (patchPath r id i ++ ascii ".tmp")
def patchDirAt (id : Bytes) : Location := r.locate (manifestDir r id)
def manifestAt (id : Bytes) : Location := r.locate (join (manifestDir r id) (ascii "ids.list"))
def manifestTmpAt (id : Bytes) : Location :=
  r.locate (join (manifestDir r id) (ascii "ids.list") ++ ascii ".tmp")
def partAt (name : Bytes) : Location := r.locate (join r.filesDir (name ++ ascii ".part"))
def finalAt (name : Bytes) : Location := r.locate (join r.filesDir name)

end Root

variable (r : Root)

/-- A suffix of two plain bytes or more keeps an ordinary name ordinary. -/
theorem isComponent_append {p t : Bytes} (hp : IsComponent p) (hs : slash ∉ t) (h0 : 0 ∉ t)
    (ht : 2 ≤ t.length) : IsComponent (p ++ t) := by
  have hpos : 0 < p.length := List.length_pos_iff.mpr hp.ne_nil
  refine ⟨by simp [hp.ne_nil], by simp [hp.no_slash, hs], by simp [hp.no_nul, h0], fun h => ?_,
    fun h => ?_⟩
  · have hl := congrArg List.length h
    have h1 : dot.length = 1 := by decide
    rw [List.length_append] at hl
    omega
  · have hl := congrArg List.length h
    have h2 : dotdot.length = 2 := by decide
    rw [List.length_append] at hl
    omega

theorem decimal_plain (n : Nat) : slash ∉ decimal n ∧ 0 ∉ decimal n := by
  constructor <;> intro h <;> have := decimal_isDigit n _ h <;> revert this <;> decide

theorem patchFileName_component (i : Nat) : IsComponent (patchFileName i) := by
  obtain ⟨hs, h0⟩ := decimal_plain i
  rw [patchFileName, List.append_assoc]
  apply isComponent_append (by decide)
  · rw [List.mem_append, not_or]; exact ⟨hs, by decide⟩
  · rw [List.mem_append, not_or]; exact ⟨h0, by decide⟩
  · have h4 : (ascii ".bin").length = 4 := by decide
    rw [List.length_append]
    omega

theorem isComponent_suffix {p : Bytes} (hp : IsComponent p) {t : String}
    (ht : slash ∉ ascii t ∧ 0 ∉ ascii t ∧ 2 ≤ (ascii t).length := by decide) :
    IsComponent (p ++ ascii t) := isComponent_append hp ht.1 ht.2.1 ht.2.2

theorem patchFileName_inj {i j : Nat} : patchFileName i = patchFileName j ↔ i = j := by
  simp [patchFileName]

namespace Root

theorem no_nul_patchesDir : 0 ∉ r.patchesDir := no_nul_join r.no_nul (by decide)
theorem no_nul_filesDir : 0 ∉ r.filesDir := no_nul_join r.no_nul (by decide)

theorem patches_eq : r.patches = r.locate r.path ++ [ascii "patches"] :=
  resolve_join_component r.cwd r.no_nul (by decide)

theorem files_eq : r.files = r.locate r.path ++ [ascii "files"] :=
  resolve_join_component r.cwd r.no_nul (by decide)

theorem patches_append_ne_files_append (a b : Location) : r.patches ++ a ≠ r.files ++ b := by
  intro h
  rw [patches_eq, files_eq, List.append_assoc, List.append_assoc, List.append_cancel_left_eq] at h
  simp only [List.cons_append, List.nil_append, List.cons.injEq] at h
  exact absurd h.1 (by decide)

end Root

section Ordinary
variable {r} {id id' name : Bytes} {i j : Nat}

theorem no_nul_manifestDir (hid : IsComponent id) : 0 ∉ manifestDir r id :=
  no_nul_join r.no_nul_patchesDir hid.no_nul

theorem patchDirAt_eq (hid : IsComponent id) : r.patchDirAt id = r.patches ++ [id] :=
  resolve_join_component r.cwd r.no_nul_patchesDir hid

theorem locate_in_manifestDir (hid : IsComponent id) {c : Bytes} (hc : IsComponent c) :
    r.locate (join (manifestDir r id) c) = r.patches ++ [id, c] := by
  have h := resolve_join_component r.cwd (no_nul_manifestDir (r := r) hid) hc
  have hm : resolve r.cwd (manifestDir r id) = r.patches ++ [id] := patchDirAt_eq hid
  rw [hm] at h
  simpa [Root.locate] using h

theorem patchAt_eq (hid : IsComponent id) (i : Nat) :
    r.patchAt id i = r.patches ++ [id, patchFileName i] :=
  locate_in_manifestDir hid (patchFileName_component i)

theorem patchTmpAt_eq (hid : IsComponent id) (i : Nat) :
    r.patchTmpAt id i = r.patches ++ [id, patchFileName i ++ ascii ".tmp"] := by
  rw [Root.patchTmpAt, patchPath, join_append _ (patchFileName_component i).ne_nil]
  exact locate_in_manifestDir hid (isComponent_suffix (patchFileName_component i))

theorem manifestAt_eq (hid : IsComponent id) :
    r.manifestAt id = r.patches ++ [id, ascii "ids.list"] :=
  locate_in_manifestDir hid (by decide)

theorem manifestTmpAt_eq (hid : IsComponent id) :
    r.manifestTmpAt id = r.patches ++ [id, ascii "ids.list.tmp"] := by
  rw [Root.manifestTmpAt, join_append _ (by decide)]
  exact locate_in_manifestDir hid (by decide)

theorem partAt_eq (hn : IsComponent name) :
    r.partAt name = r.files ++ [name ++ ascii ".part"] :=
  resolve_join_component r.cwd r.no_nul_filesDir (isComponent_suffix hn)

theorem finalAt_eq (hn : IsComponent name) : r.finalAt name = r.files ++ [name] :=
  resolve_join_component r.cwd r.no_nul_filesDir hn

theorem patchFileName_ne_tmp : patchFileName i ≠ patchFileName j ++ ascii ".tmp" := by
  intro h
  have hlast := congrArg List.getLast? h
  have hb : (ascii ".bin").getLast? = some 110 := by decide
  have ht : (ascii ".tmp").getLast? = some 112 := by decide
  simp [patchFileName, List.getLast?_append, hb, ht] at hlast

theorem patchFileName_ne_of_head {c : Bytes} (hc : c.head? ≠ some 112) : patchFileName i ≠ c := by
  rintro rfl
  have hp : ascii "patch_" = 112 :: ascii "atch_" := by decide
  simp [patchFileName, hp] at hc

theorem patchAt_inj (hid : IsComponent id) (hid' : IsComponent id') :
    r.patchAt id i = r.patchAt id' j ↔ id = id' ∧ i = j := by
  simp [patchAt_eq hid, patchAt_eq hid', patchFileName_inj]

theorem patchAt_ne_patchTmpAt (hid : IsComponent id) (hid' : IsComponent id') :
    r.patchAt id i ≠ r.patchTmpAt id' j := by
  simp [patchAt_eq hid, patchTmpAt_eq hid', patchFileName_ne_tmp]

theorem patchAt_ne_manifestAt (hid : IsComponent id) (hid' : IsComponent id') :
    r.patchAt id i ≠ r.manifestAt id' ∧ r.patchAt id i ≠ r.manifestTmpAt id' := by
  have h1 : patchFileName i ≠ ascii "ids.list" := patchFileName_ne_of_head (by decide)
  have h2 : patchFileName i ≠ ascii "ids.list.tmp" := patchFileName_ne_of_head (by decide)
  simp [patchAt_eq hid, manifestAt_eq hid', manifestTmpAt_eq hid', h1, h2]

theorem patchDirAt_covers (hid : IsComponent id) (hid' : IsComponent id')
    (h : r.patchDirAt id <+: r.patchAt id' i) : id = id' := by
  rw [patchDirAt_eq hid, patchAt_eq hid', List.prefix_append_right_inj] at h
  exact (List.cons_prefix_cons.mp h).1

theorem patches_prefix_patchAt (hid : IsComponent id) (i : Nat) : r.patches <+: r.patchAt id i := by
  rw [patchAt_eq hid]
  exact List.prefix_append _ _

theorem patches_prefix_patchTmpAt (hid : IsComponent id) (i : Nat) :
    r.patches <+: r.patchTmpAt id i := by
  rw [patchTmpAt_eq hid]
  exact List.prefix_append _ _

theorem patches_prefix_manifest (hid : IsComponent id) :
    r.patches <+: r.manifestAt id ∧ r.patches <+: r.manifestTmpAt id := by
  rw [manifestAt_eq hid, manifestTmpAt_eq hid]
  exact ⟨List.prefix_append _ _, List.prefix_append _ _⟩

theorem patches_prefix_patchDirAt (hid : IsComponent id) : r.patches <+: r.patchDirAt id := by
  rw [patchDirAt_eq hid]
  exact List.prefix_append _ _

end Ordinary

theorem patchPath_ne_nil (id : Bytes) (i : Nat) : patchPath r id i ≠ [] := by
  have hname : patchFileName i ≠ [] := by simp [patchFileName, ascii, ofChars]
  unfold patchPath join
  split
  · exact hname
  · split <;> simp [hname]

/-- Neither the staging nor the published path of the name leads into the patches directory. -/
structure NameApart (r : Root) (name : Bytes) : Prop where
  part : ¬ r.patches <+: r.partAt name
  final : ¬ r.patches <+: r.finalAt name

theorem patches_not_prefix_files (l : Location) : ¬ r.patches <+: r.files ++ l := by
  rintro ⟨t, h⟩
  exact r.patches_append_ne_files_append t l h

theorem nameApart_of_component {name : Bytes} (hn : IsComponent name) : NameApart r name where
  part := by rw [partAt_eq hn]; exact patches_not_prefix_files r _
  final := by rw [finalAt_eq hn]; exact patches_not_prefix_files r _

variable {r} {id name : Bytes}

theorem NameApart.patchAt_ne (h : NameApart r name) (hid : IsComponent id) (i : Nat) :
    r.patchAt id i ≠ r.partAt name ∧ r.patchAt id i ≠ r.finalAt name :=
  ⟨fun he => h.part (he ▸ patches_prefix_patchAt hid i),
    fun he => h.final (he ▸ patches_prefix_patchAt hid i)⟩

theorem NameApart.not_below (h : NameApart r name) (hid : IsComponent id) :
    ¬ r.patchDirAt id <+: r.partAt name ∧ ¬ r.patchDirAt id <+: r.finalAt name :=
  ⟨fun hp => h.part ((patches_prefix_patchDirAt hid).trans hp),
    fun hp => h.final ((patches_prefix_patchDirAt hid).trans hp)⟩

end SuperVoice.Server
