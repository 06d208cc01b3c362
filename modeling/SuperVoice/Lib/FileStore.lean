import SuperVoice.Lib.PosixPath
import Mathlib.Logic.Function.Basic

/-! A file system with inodes. A name leads to an inode, an open descriptor keeps its inode
after the name has moved on, and truncating one truncates it for everybody who holds it. -/
namespace FileStore
open PosixPath

/-- A call that changes names, recorded when it is issued, whether or not it succeeds. -/
inductive Call where
  | mkdir (l : Location)
  | create (l : Location)
  | rename (src dst : Location)
  | unlink (l : Location)
  | removeAll (l : Location)
  deriving DecidableEq

def Call.targets : Call → List Location
  | .mkdir l | .create l | .unlink l | .removeAll l => [l]
  | .rename src dst => [src, dst]

/-- No two names share an inode, and every linked inode has been allocated. -/
structure FileSystem where
  link : Location → Option Nat
  data : Nat → Bytes
  dirs : Location → Bool
  fresh : Nat
  calls : List Call
  link_lt : ∀ {l i}, link l = some i → i < fresh
  link_inj : ∀ {l l' i}, link l = some i → link l' = some i → l = l'

/-- No file, and the directories given. -/
def FileSystem.bare (dirs : Location → Bool) : FileSystem where
  link _ := none
  data _ := []
  dirs := dirs
  fresh := 0
  calls := []
  link_lt h := nomatch h
  link_inj h := nomatch h

/-- Where replacing a file by way of a temporary one goes wrong. -/
inductive Fault where
  | openFails
  | writeFails
  | renameFails
  deriving DecidableEq

namespace FileSystem

/-- What a reader who opens `l` finds. -/
def content (fs : FileSystem) (l : Location) : Option Bytes := (fs.link l).map fs.data

/-- A file or a directory stands at `l`. -/
def Occupied (fs : FileSystem) (l : Location) : Prop := fs.link l ≠ none ∨ fs.dirs l = true

/-- A regular file can be created or replaced at `l`. -/
def canHold (fs : FileSystem) (l : Location) : Bool := fs.dirs l.dropLast && !fs.dirs l

def log (fs : FileSystem) (c : Call) : FileSystem := { fs with calls := fs.calls ++ [c] }

/-- Overwrite `old` from `off` on; a gap left before `off` reads as zeros. -/
def overwrite (old : Bytes) (off : Nat) (new : Bytes) : Bytes :=
  if new = [] then old
  else old.take off ++ List.replicate (off - old.length) 0 ++ new ++ old.drop (off + new.length)

/-- `write` through a descriptor on inode `i` whose offset is `off`. -/
def write (fs : FileSystem) (i off : Nat) (new : Bytes) : FileSystem :=
  { fs with data := Function.update fs.data i (overwrite (fs.data i) off new) }

/-- A new empty inode under the name `l`. -/
def linkNew (fs : FileSystem) (l : Location) : FileSystem :=
  { fs with
    link := Function.update fs.link l (some fs.fresh)
    data := Function.update fs.data fs.fresh []
    fresh := fs.fresh + 1
    link_lt := by
      intro l' i hl
      by_cases he : l' = l
      · subst he
        rw [Function.update_self] at hl
        cases hl
        exact Nat.lt_succ_self _
      · rw [Function.update_of_ne he] at hl
        exact Nat.lt_succ_of_lt (fs.link_lt hl)
    link_inj := by
      intro a b i ha hb
      by_cases hla : a = l <;> by_cases hlb : b = l
      · rw [hla, hlb]
      · rw [hla, Function.update_self] at ha
        rw [Function.update_of_ne hlb] at hb
        cases ha
        exact absurd (fs.link_lt hb) (Nat.lt_irrefl _)
      · rw [hlb, Function.update_self] at hb
        rw [Function.update_of_ne hla] at ha
        cases hb
        exact absurd (fs.link_lt ha) (Nat.lt_irrefl _)
      · rw [Function.update_of_ne hla] at ha
        rw [Function.update_of_ne hlb] at hb
        exact fs.link_inj ha hb }

def truncate (fs : FileSystem) (i : Nat) : FileSystem :=
  { fs with data := Function.update fs.data i [] }

/-- `open` with `O_WRONLY | O_CREAT | O_TRUNC`; the inode it opens, if it succeeds. -/
def openTrunc (fs : FileSystem) (l : Location) : Option Nat × FileSystem :=
  let fs := fs.log (.create l)
  if fs.canHold l then
    match fs.link l with
    | some i => (some i, fs.truncate i)
    | none => (some fs.fresh, fs.linkNew l)
  else (none, fs)

/-- Drop the names that `p` selects. -/
def forget (fs : FileSystem) (p : Location → Bool) : FileSystem :=
  { fs with
    link := fun l => if p l then none else fs.link l
    link_lt := by
      intro l i h
      split at h
      · cases h
      · exact fs.link_lt h
    link_inj := by
      intro a b i ha hb
      split at ha
      · cases ha
      · split at hb
        · cases hb
        · exact fs.link_inj ha hb }

def unlink (fs : FileSystem) (l : Location) : FileSystem :=
  (fs.log (.unlink l)).forget fun l' => l' = l

/-- The inode of `src` passes to `dst`; what `dst` named before is dropped. -/
def move (fs : FileSystem) (src dst : Location) : FileSystem :=
  { fs with
    link := fun l => if l = dst then fs.link src else if l = src then none else fs.link l
    link_lt := by
      intro l j hl
      split at hl
      · exact fs.link_lt hl
      · split at hl
        · cases hl
        · exact fs.link_lt hl
    link_inj := by
      intro a b j ha hb
      split at ha <;> split at hb
      · next ha' hb' => rw [ha', hb']
      · split at hb
        · cases hb
        · next hbs => exact absurd (fs.link_inj hb ha) hbs
      · split at ha
        · cases ha
        · next has => exact absurd (fs.link_inj ha hb) has
      · split at ha
        · cases ha
        · split at hb
          · cases hb
          · exact fs.link_inj ha hb }

def rename (fs : FileSystem) (src dst : Location) : Bool × FileSystem :=
  let fs := fs.log (.rename src dst)
  if (fs.link src).isSome && fs.canHold dst then (true, fs.move src dst) else (false, fs)

/-- `remove_all`: everything at and below `l`. -/
def removeAll (fs : FileSystem) (l : Location) : FileSystem :=
  { (fs.log (.removeAll l)).forget fun l' => l.isPrefixOf l' with
    dirs := fun l' => if l.isPrefixOf l' then false else fs.dirs l' }

/-- `create_directories` along the locations given: each one missing is made. -/
def mkdirs (fs : FileSystem) : List Location → Bool × FileSystem
  | [] => (true, fs)
  | l :: ls =>
    if fs.dirs l then fs.mkdirs ls
    else if (fs.link l).isSome then (false, fs)
    else mkdirs { fs.log (.mkdir l) with dirs := Function.update fs.dirs l true } ls

/-- Write `new` to `tmp`, then rename it onto `dst`; a failed write removes `tmp` again. -/
def replaceFile (fault : Option Fault) (fs : FileSystem) (tmp dst : Location) (new : Bytes) :
    Bool × FileSystem :=
  if fault = some .openFails then (false, fs.log (.create tmp))
  else match fs.openTrunc tmp with
    | (none, fs) => (false, fs)
    | (some i, fs) =>
      if fault = some .writeFails then (false, fs.unlink tmp)
      else if fault = some .renameFails then (false, (fs.write i 0 new).log (.rename tmp dst))
      else (fs.write i 0 new).rename tmp dst

variable {fs fs' : FileSystem} {l l' src dst tmp : Location} {i off : Nat} {new : Bytes}
  {fault : Option Fault}

@[simp] theorem link_log (c : Call) : (fs.log c).link = fs.link := rfl
@[simp] theorem data_log (c : Call) : (fs.log c).data = fs.data := rfl
@[simp] theorem dirs_log (c : Call) : (fs.log c).dirs = fs.dirs := rfl
@[simp] theorem calls_log (c : Call) : (fs.log c).calls = fs.calls ++ [c] := rfl
@[simp] theorem content_log (c : Call) : (fs.log c).content l = fs.content l := rfl
@[simp] theorem canHold_log (c : Call) : (fs.log c).canHold l = fs.canHold l := rfl

@[simp] theorem link_write : (fs.write i off new).link = fs.link := rfl
@[simp] theorem dirs_write : (fs.write i off new).dirs = fs.dirs := rfl
@[simp] theorem calls_write : (fs.write i off new).calls = fs.calls := rfl

@[simp] theorem overwrite_nil (new : Bytes) : overwrite [] 0 new = new := by
  unfold overwrite
  split
  · simp_all
  · simp

@[simp] theorem overwrite_end (old new : Bytes) : overwrite old old.length new = old ++ new := by
  unfold overwrite
  split
  · simp_all
  · simp

theorem data_write_self : (fs.write i off new).data i = overwrite (fs.data i) off new :=
  Function.update_self ..

theorem content_write (h : fs.link l = some i) :
    (fs.write i off new).content l = some (overwrite (fs.data i) off new) := by
  simp [content, write, h]

/-- A change confined to the region `p`: names outside keep their inodes, inodes without a name
inside keep their data, and a name inside leads to a new inode or to one named inside before. -/
structure Within (p : Location → Prop) (fs fs' : FileSystem) : Prop where
  fresh_le : fs.fresh ≤ fs'.fresh
  link : ∀ l, ¬ p l → fs'.link l = fs.link l
  source : ∀ l i, p l → fs'.link l = some i → i < fs.fresh → ∃ l', p l' ∧ fs.link l' = some i
  data : ∀ i, i < fs.fresh → (∀ l, p l → fs.link l ≠ some i) → fs'.data i = fs.data i

namespace Within
variable {p q : Location → Prop} {fs₁ fs₂ fs₃ : FileSystem}

theorem refl (p : Location → Prop) (fs : FileSystem) : Within p fs fs :=
  ⟨Nat.le_refl _, fun _ _ => rfl, fun l _ hl h _ => ⟨l, hl, h⟩, fun _ _ _ => rfl⟩

theorem trans (h : Within p fs₁ fs₂) (h' : Within p fs₂ fs₃) : Within p fs₁ fs₃ where
  fresh_le := h.fresh_le.trans h'.fresh_le
  link l hl := (h'.link l hl).trans (h.link l hl)
  source l i hl hi hlt := by
    obtain ⟨l', hl', hi'⟩ := h'.source l i hl hi (hlt.trans_le h.fresh_le)
    exact h.source l' i hl' hi' hlt
  data i hlt hi := by
    rw [h'.data i (hlt.trans_le h.fresh_le), h.data i hlt hi]
    intro l hl hli
    obtain ⟨l', hl', hi'⟩ := h.source l i hl hli hlt
    exact hi l' hl' hi'

theorem mono (hpq : ∀ l, p l → q l) (h : Within p fs₁ fs₂) : Within q fs₁ fs₂ where
  fresh_le := h.fresh_le
  link l hl := h.link l fun hp => hl (hpq l hp)
  source l i hl hi hlt := by
    by_cases hp : p l
    · obtain ⟨l', hl', hi'⟩ := h.source l i hp hi hlt
      exact ⟨l', hpq l' hl', hi'⟩
    · exact ⟨l, hl, (h.link l hp).symm.trans hi⟩
  data i hlt hi := h.data i hlt fun l hl => hi l (hpq l hl)

/-- Outside the region nothing changes. -/
theorem content (h : Within p fs₁ fs₂) {l : Location} (hl : ¬ p l) :
    fs₂.content l = fs₁.content l := by
  unfold FileSystem.content
  rw [h.link l hl]
  cases hi : fs₁.link l with
  | none => rfl
  | some i =>
    have hd : fs₂.data i = fs₁.data i := by
      refine h.data i (fs₁.link_lt hi) fun l' hl' hi' => hl ?_
      rwa [fs₁.link_inj hi hi']
    simp [hd]

/-- An inode without a name in the region gets none there and keeps its data. -/
theorem unnamed (h : Within p fs₁ fs₂) (hlt : i < fs₁.fresh)
    (hi : ∀ l, p l → fs₁.link l ≠ some i) :
    i < fs₂.fresh ∧ (∀ l, p l → fs₂.link l ≠ some i) ∧ fs₂.data i = fs₁.data i := by
  refine ⟨hlt.trans_le h.fresh_le, fun l hl hli => ?_, h.data i hlt hi⟩
  obtain ⟨l', hl', hi'⟩ := h.source l i hl hli hlt
  exact hi l' hl' hi'

end Within

/-- The file that `l` names, if any, is still there and unaltered. -/
def Keeps (fs fs' : FileSystem) (l : Location) : Prop :=
  ∀ i, fs.link l = some i → fs'.link l = some i ∧ fs'.data i = fs.data i

theorem Within.keeps {p : Location → Prop} (h : Within p fs fs') (hl : ¬ p l) :
    Keeps fs fs' l := by
  intro i hi
  refine ⟨(h.link l hl).trans hi, h.data i (fs.link_lt hi) fun l' hl' hi' => hl ?_⟩
  rwa [fs.link_inj hi hi']

theorem within_log (p : Location → Prop) (c : Call) : Within p fs (fs.log c) :=
  ⟨Nat.le_refl _, fun _ _ => rfl, fun l _ hl h _ => ⟨l, hl, h⟩, fun _ _ _ => rfl⟩

/-- What a successful truncating open leaves behind. -/
structure Opened (fs : FileSystem) (l : Location) (i : Nat) (fs' : FileSystem) : Prop where
  link_self : fs'.link l = some i
  data_self : fs'.data i = []
  dirs : fs'.dirs = fs.dirs
  calls : fs'.calls = fs.calls ++ [.create l]
  within : Within (· = l) fs fs'

theorem Opened.content_self (h : Opened fs l i fs') : fs'.content l = some [] := by
  simp [content, h.link_self, h.data_self]

theorem opened_linkNew : Opened fs l fs.fresh ((fs.log (.create l)).linkNew l) where
  link_self := by simp [linkNew, log]
  data_self := by simp [linkNew, log]
  dirs := rfl
  calls := rfl
  within := by
    refine ⟨Nat.le_succ _, fun l' hl' => ?_, fun l' i hl' h hlt => ?_, fun i hlt _ => ?_⟩
    · simp [linkNew, hl']
    · subst hl'
      simp only [linkNew, log, Function.update_self, Option.some.injEq] at h
      omega
    · have hne : i ≠ fs.fresh := Nat.ne_of_lt hlt
      simp [linkNew, log, hne]

theorem opened_truncate (hl : fs.link l = some i) :
    Opened fs l i ((fs.log (.create l)).truncate i) where
  link_self := hl
  data_self := by simp [truncate]
  dirs := rfl
  calls := rfl
  within := by
    refine ⟨Nat.le_refl _, fun _ _ => rfl, fun l' _ hl' h _ => ⟨l', hl', h⟩, fun j _ hj => ?_⟩
    have hji : j ≠ i := fun he => hj l rfl (he ▸ hl)
    simp [truncate, hji]

theorem openTrunc_some (h : fs.openTrunc l = (some i, fs')) : Opened fs l i fs' := by
  by_cases hc : fs.canHold l = true
  · cases hl : fs.link l with
    | some j =>
      simp only [openTrunc, canHold_log, hc, if_true, link_log, hl] at h
      cases h
      exact opened_truncate hl
    | none =>
      simp only [openTrunc, canHold_log, hc, if_true, link_log, hl] at h
      cases h
      exact opened_linkNew
  · simp [openTrunc, hc] at h

theorem openTrunc_none (h : fs.openTrunc l = (none, fs')) : fs' = fs.log (.create l) := by
  by_cases hc : fs.canHold l = true
  · cases hl : fs.link l <;> simp [openTrunc, hc, hl] at h
  · simpa [openTrunc, hc] using h.symm

theorem within_openTrunc (fs : FileSystem) (l : Location) :
    Within (· = l) fs (fs.openTrunc l).2 := by
  rcases h : fs.openTrunc l with ⟨i, fs'⟩
  cases i with
  | none => rw [openTrunc_none h]; exact within_log _ _
  | some i => exact (openTrunc_some h).within

/-- An open for writing succeeds wherever a regular file may stand. -/
theorem openTrunc_of_canHold (h : fs.canHold l = true) :
    ∃ i fs', fs.openTrunc l = (some i, fs') := by
  unfold openTrunc
  simp only [canHold_log, h, if_true]
  split <;> exact ⟨_, _, rfl⟩

theorem rename_true (h : fs.rename src dst = (true, fs')) :
    (fs.link src).isSome ∧ fs' = (fs.log (.rename src dst)).move src dst := by
  by_cases hc : (fs.link src).isSome && fs.canHold dst
  · simp only [rename, link_log, canHold_log, hc, if_true] at h
    cases h
    exact ⟨(Bool.and_eq_true_iff.mp hc).1, rfl⟩
  · simp [rename, hc] at h

theorem rename_false (h : fs.rename src dst = (false, fs')) :
    fs' = fs.log (.rename src dst) := by
  by_cases hc : (fs.link src).isSome && fs.canHold dst
  · simp [rename, hc] at h
  · simpa [rename, hc] using h.symm

theorem rename_of_canHold (hl : (fs.link src).isSome) (h : fs.canHold dst = true) :
    fs.rename src dst = (true, (fs.log (.rename src dst)).move src dst) := by
  simp [rename, hl, h]

@[simp] theorem dirs_move : (fs.move src dst).dirs = fs.dirs := rfl
@[simp] theorem calls_move : (fs.move src dst).calls = fs.calls := rfl

theorem link_move_dst : (fs.move src dst).link dst = fs.link src := by simp [move]

theorem link_move_src (h : src ≠ dst) : (fs.move src dst).link src = none := by simp [move, h]

theorem link_move_of_ne (hs : l ≠ src) (hd : l ≠ dst) : (fs.move src dst).link l = fs.link l := by
  simp [move, hs, hd]

theorem content_move_dst : (fs.move src dst).content dst = fs.content src := by
  simp [content, move]

theorem content_move_of_ne (hs : l ≠ src) (hd : l ≠ dst) :
    (fs.move src dst).content l = fs.content l := by
  simp [content, move, hs, hd]

@[simp] theorem dirs_unlink : (fs.unlink l).dirs = fs.dirs := rfl
@[simp] theorem calls_unlink : (fs.unlink l).calls = fs.calls ++ [.unlink l] := rfl

theorem link_unlink_of_ne (h : l' ≠ l) : (fs.unlink l).link l' = fs.link l' := by
  simp [unlink, forget, h]

theorem link_removeAll :
    (fs.removeAll l).link l' = if l <+: l' then none else fs.link l' := by
  simp [removeAll, forget]

theorem content_removeAll :
    (fs.removeAll l).content l' = if l <+: l' then none else fs.content l' := by
  simp only [content, link_removeAll]
  split <;> rfl

theorem content_of_removeAll {b : Bytes} (h : (fs.removeAll l).content l' = some b) :
    fs.content l' = some b := by
  rw [content_removeAll] at h
  split at h
  · cases h
  · exact h

theorem dirs_removeAll :
    (fs.removeAll l).dirs l' = if l <+: l' then false else fs.dirs l' := by
  simp [removeAll]

@[simp] theorem calls_removeAll : (fs.removeAll l).calls = fs.calls ++ [.removeAll l] := rfl

theorem within_write {p : Location → Prop} (hl : fs.link l = some i) (hp : p l) :
    Within p fs (fs.write i off new) := by
  refine ⟨Nat.le_refl _, fun _ _ => rfl, fun l' _ hl' h _ => ⟨l', hl', h⟩, fun j _ hj => ?_⟩
  have hji : j ≠ i := fun he => hj l hp (he ▸ hl)
  simp [write, hji]

theorem within_removeAll : Within (l <+: ·) fs (fs.removeAll l) := by
  refine ⟨Nat.le_refl _, fun l' hl' => ?_, fun l' i hl' h _ => ?_, fun _ _ _ => rfl⟩
  · rw [link_removeAll, if_neg hl']
  · rw [link_removeAll, if_pos hl'] at h
    cases h

theorem within_unlink : Within (· = l) fs (fs.unlink l) := by
  refine ⟨Nat.le_refl _, fun l' hl' => link_unlink_of_ne hl', fun l' i hl' h _ => ?_,
    fun _ _ _ => rfl⟩
  simp [unlink, forget, hl'] at h

theorem within_move (fs : FileSystem) (src dst : Location) :
    Within (fun l => l = src ∨ l = dst) fs (fs.move src dst) := by
  refine ⟨Nat.le_refl _, fun l' hl' => ?_, fun l' i hl' h _ => ⟨src, .inl rfl, ?_⟩,
    fun _ _ _ => rfl⟩
  · exact link_move_of_ne (fun he => hl' (.inl he)) fun he => hl' (.inr he)
  · by_cases hd : l' = dst
    · rwa [hd, link_move_dst] at h
    · have hs : l' = src := hl'.resolve_right hd
      simp [move, hs, hs ▸ hd] at h

theorem within_rename (fs : FileSystem) (src dst : Location) :
    Within (fun l => l = src ∨ l = dst) fs (fs.rename src dst).2 := by
  by_cases hc : (fs.link src).isSome && fs.canHold dst
  · simp only [rename, link_log, canHold_log, hc, if_true]
    exact (within_log _ _).trans (within_move _ src dst)
  · simpa [rename, hc] using within_log _ _

theorem dirs_openTrunc (fs : FileSystem) (l : Location) :
    (fs.openTrunc l).2.dirs = fs.dirs := by
  rcases h : fs.openTrunc l with ⟨i, fs'⟩
  cases i with
  | none => rw [openTrunc_none h]; rfl
  | some i => exact (openTrunc_some h).dirs

theorem dirs_rename : (fs.rename src dst).2.dirs = fs.dirs := by
  by_cases hc : (fs.link src).isSome && fs.canHold dst <;> simp [rename, hc]

theorem dirs_replaceFile : (replaceFile fault fs tmp dst new).2.dirs = fs.dirs := by
  have hop := dirs_openTrunc fs tmp
  unfold replaceFile
  split
  · rfl
  · split
    · next h => rw [h] at hop; exact hop
    · next h =>
      rw [h] at hop
      split
      · exact hop
      · split
        · exact hop
        · rw [dirs_rename]
          exact hop

/-- From `fs` to `fs'` only places in `p` were named by calls that change names, and no
directory came or went elsewhere. -/
structure Confined (p : Location → Prop) (fs fs' : FileSystem) : Prop where
  calls : ∃ cs, fs'.calls = fs.calls ++ cs ∧ ∀ c ∈ cs, ∀ l ∈ c.targets, p l
  dirs : ∀ l, ¬ p l → fs'.dirs l = fs.dirs l

namespace Confined
variable {p : Location → Prop} {fs₁ fs₂ fs₃ : FileSystem}

theorem refl (p : Location → Prop) (fs : FileSystem) : Confined p fs fs :=
  ⟨⟨[], by simp⟩, fun _ _ => rfl⟩

theorem trans (h : Confined p fs₁ fs₂) (h' : Confined p fs₂ fs₃) : Confined p fs₁ fs₃ := by
  obtain ⟨cs, hcs, hp⟩ := h.calls
  obtain ⟨cs', hcs', hp'⟩ := h'.calls
  refine ⟨⟨cs ++ cs', by rw [hcs', hcs, List.append_assoc], fun c hc => ?_⟩,
    fun l hl => (h'.dirs l hl).trans (h.dirs l hl)⟩
  obtain hc | hc := List.mem_append.mp hc
  · exact hp c hc
  · exact hp' c hc

end Confined

theorem confined_log {p : Location → Prop} {c : Call} (hp : ∀ l ∈ c.targets, p l) :
    Confined p fs (fs.log c) :=
  ⟨⟨[c], rfl, fun _ hc => List.mem_singleton.mp hc ▸ hp⟩, fun _ _ => rfl⟩

theorem confined_write (p : Location → Prop) : Confined p fs (fs.write i off new) :=
  ⟨⟨[], by simp⟩, fun _ _ => rfl⟩

theorem confined_openTrunc {p : Location → Prop} (hp : p l) :
    Confined p fs (fs.openTrunc l).2 := by
  have hlog : Confined p fs (fs.log (.create l)) := confined_log (by simpa [Call.targets] using hp)
  cases h : fs.openTrunc l with
  | mk o fs' =>
    cases o with
    | none => rw [openTrunc_none h]; exact hlog
    | some i =>
      have hopened := openTrunc_some h
      exact ⟨hopened.calls ▸ hlog.calls, fun l _ => congrFun hopened.dirs l⟩

theorem confined_unlink {p : Location → Prop} (hp : p l) : Confined p fs (fs.unlink l) :=
  ⟨⟨[.unlink l], rfl, by simpa [Call.targets] using hp⟩, fun _ _ => rfl⟩

theorem confined_rename {p : Location → Prop} (hs : p src) (hd : p dst) :
    Confined p fs (fs.rename src dst).2 := by
  have hlog : Confined p fs (fs.log (.rename src dst)) :=
    confined_log (by simp [Call.targets, hs, hd])
  by_cases hc : (fs.link src).isSome && fs.canHold dst
  · simp only [rename, link_log, canHold_log, hc, if_true]
    exact ⟨hlog.calls, fun _ _ => rfl⟩
  · simpa [rename, hc] using hlog

theorem confined_removeAll {p : Location → Prop} (hp : ∀ l', l <+: l' → p l') :
    Confined p fs (fs.removeAll l) := by
  refine ⟨⟨[.removeAll l], rfl, ?_⟩, fun l' hl' => ?_⟩
  · simpa [Call.targets] using hp l (List.prefix_refl l)
  · rw [dirs_removeAll, if_neg fun h => hl' (hp l' h)]

theorem confined_replaceFile {p : Location → Prop} (ht : p tmp) (hd : p dst) :
    Confined p fs (replaceFile fault fs tmp dst new).2 := by
  have hopen : Confined p fs (fs.openTrunc tmp).2 := confined_openTrunc ht
  unfold replaceFile
  split
  · exact confined_log (by simpa [Call.targets] using ht)
  · split
    · next h => rw [h] at hopen; exact hopen
    · next fs₁ h =>
      rw [h] at hopen
      split
      · exact hopen.trans (confined_unlink ht)
      · split
        · exact hopen.trans ((confined_write p).trans
            (confined_log (by simp [Call.targets, ht, hd])))
        · exact hopen.trans ((confined_write p).trans (confined_rename ht hd))

/-- A replacement that fails has touched nothing but `tmp`. -/
theorem replaceFile_false (h : replaceFile fault fs tmp dst new = (false, fs')) :
    Within (· = tmp) fs fs' := by
  have hopen : Within (· = tmp) fs (fs.openTrunc tmp).2 := within_openTrunc fs tmp
  by_cases ho : fault = some .openFails
  · simp only [replaceFile, ho, if_true] at h
    cases h
    exact within_log _ _
  rcases hop : fs.openTrunc tmp with ⟨i, fs₁⟩
  rw [hop] at hopen
  cases i with
  | none =>
    simp only [replaceFile, ho, hop, if_false] at h
    cases h
    exact hopen
  | some i =>
    have hwrite : Within (· = tmp) fs (fs₁.write i 0 new) :=
      hopen.trans (within_write (openTrunc_some hop).link_self rfl)
    by_cases hw : fault = some .writeFails
    · subst hw
      simp only [replaceFile, hop, reduceCtorEq, Option.some.injEq, if_false, if_true] at h
      cases h
      exact hopen.trans within_unlink
    by_cases hr : fault = some .renameFails
    · subst hr
      simp only [replaceFile, hop, reduceCtorEq, Option.some.injEq, if_false, if_true] at h
      cases h
      exact hwrite.trans (within_log _ _)
    · simp only [replaceFile, ho, hop, hw, hr, if_false] at h
      rw [rename_false h]
      exact hwrite.trans (within_log _ _)

theorem replaceFile_true (h : replaceFile fault fs tmp dst new = (true, fs')) :
    Within (fun l => l = tmp ∨ l = dst) fs fs' ∧ fs'.content dst = some new := by
  by_cases ho : fault = some .openFails
  · simp [replaceFile, ho] at h
  have hopen : Within (· = tmp) fs (fs.openTrunc tmp).2 := within_openTrunc fs tmp
  rcases hop : fs.openTrunc tmp with ⟨i, fs₁⟩
  rw [hop] at hopen
  cases i with
  | none => simp [replaceFile, ho, hop] at h
  | some i =>
    by_cases hw : fault = some .writeFails
    · simp [replaceFile, hop, hw] at h
    by_cases hr : fault = some .renameFails
    · simp [replaceFile, hop, hr] at h
    simp only [replaceFile, ho, hop, hw, hr, if_false] at h
    have hopened := openTrunc_some hop
    have hwrite : Within (· = tmp) fs (fs₁.write i 0 new) :=
      hopen.trans (within_write hopened.link_self rfl)
    constructor
    · have hren : Within (fun l => l = tmp ∨ l = dst) (fs₁.write i 0 new) fs' := by
        simpa only [h] using within_rename (fs₁.write i 0 new) tmp dst
      exact (hwrite.mono fun _ => .inl).trans hren
    · obtain ⟨-, rfl⟩ := rename_true h
      rw [content_move_dst, content_log, content_write hopened.link_self, hopened.data_self,
        overwrite_nil]

theorem within_replaceFile :
    Within (fun l => l = tmp ∨ l = dst) fs (replaceFile fault fs tmp dst new).2 := by
  rcases h : replaceFile fault fs tmp dst new with ⟨b, fs'⟩
  cases b with
  | true => exact (replaceFile_true h).1
  | false => exact (replaceFile_false h).mono fun _ => .inl

/-- A file is replaced wherever one may stand, unless there is a fault. -/
theorem replaceFile_fst : (replaceFile fault fs tmp dst new).1 = true ↔
    fault = none ∧ fs.canHold tmp = true ∧ fs.canHold dst = true := by
  by_cases ht : fs.canHold tmp = true
  · obtain ⟨i, fs₁, hop⟩ := openTrunc_of_canHold ht
    have hopened := openTrunc_some hop
    have hd : (fs₁.write i 0 new).canHold dst = fs.canHold dst := by
      simp [canHold, hopened.dirs]
    have hl : ((fs₁.write i 0 new).link tmp).isSome = true := by simp [hopened.link_self]
    cases fault with
    | none =>
      simp only [replaceFile, hop, reduceCtorEq, if_false, rename, link_log, canHold_log, hl, hd,
        ht, Bool.true_and, true_and]
      cases fs.canHold dst <;> simp
    | some f => cases f <;> simp [replaceFile, hop]
  · have hop : fs.openTrunc tmp = (none, fs.log (.create tmp)) := by
      simp [openTrunc, ht]
    rw [replaceFile, hop]
    split <;> simp [ht]

/-- Without a place for the temporary file nothing is replaced. -/
theorem replaceFile_refused (h : fs.canHold tmp = false) :
    replaceFile fault fs tmp dst new = (false, fs.log (.create tmp)) := by
  have hop : fs.openTrunc tmp = (none, fs.log (.create tmp)) := by
    simp [openTrunc, h]
  rw [replaceFile, hop]
  split <;> rfl

/-- The temporary file has been written and cannot take the name it is for. -/
structure Strands (fault : Option Fault) (fs : FileSystem) (tmp dst : Location) : Prop where
  opens : fault ≠ some .openFails
  writes : fault ≠ some .writeFails
  tmp : fs.canHold tmp = true
  refused : fault = some .renameFails ∨ fs.canHold dst = false

/-- What a failed replacement leaves of the temporary file: what stood there before, nothing, or
the stranded file itself. -/
theorem link_replaceFile_false (h : replaceFile fault fs tmp dst new = (false, fs')) :
    (Strands fault fs tmp dst → fs'.link tmp ≠ none) ∧
      (¬Strands fault fs tmp dst → fs'.link tmp = fs.link tmp ∨ fs'.link tmp = none) := by
  by_cases ht : fs.canHold tmp = true
  swap
  · rw [replaceFile_refused (by simpa using ht)] at h
    cases h
    exact ⟨fun hs => absurd hs.tmp ht, fun _ => .inl rfl⟩
  obtain ⟨i, fs₁, hop⟩ := openTrunc_of_canHold ht
  have hself := (openTrunc_some hop).link_self
  cases fault with
  | none =>
    simp only [replaceFile, hop, reduceCtorEq, if_false] at h
    obtain rfl := rename_false h
    have hrefused : fs.canHold dst = false := by
      have hno : (replaceFile none fs tmp dst new).1 = true ↔
          none = none ∧ fs.canHold tmp = true ∧ fs.canHold dst = true := replaceFile_fst
      simpa [replaceFile, hop, h, ht] using hno
    have hstrands : Strands none fs tmp dst := ⟨by simp, by simp, ht, .inr hrefused⟩
    exact ⟨fun _ => by simp [hself], fun hno => absurd hstrands hno⟩
  | some f =>
    cases f with
    | openFails =>
      simp only [replaceFile, if_true] at h
      cases h
      exact ⟨fun hs => absurd rfl hs.opens, fun _ => .inl rfl⟩
    | writeFails =>
      simp only [replaceFile, hop, reduceCtorEq, Option.some.injEq, if_false, if_true] at h
      cases h
      exact ⟨fun hs => absurd rfl hs.writes, fun _ => .inr (by simp [unlink, forget])⟩
    | renameFails =>
      simp only [replaceFile, hop, reduceCtorEq, Option.some.injEq, if_false, if_true] at h
      cases h
      have hstrands : Strands (some .renameFails) fs tmp dst := ⟨by simp, by simp, ht, .inl rfl⟩
      exact ⟨fun _ => by simp [hself], fun hno => absurd hstrands hno⟩

/-- After a replacement the temporary file is gone. -/
theorem link_replaceFile_true (hne : tmp ≠ dst)
    (h : replaceFile fault fs tmp dst new = (true, fs')) : fs'.link tmp = none := by
  obtain ⟨rfl, ht, -⟩ := replaceFile_fst.mp (congrArg Prod.fst h)
  obtain ⟨i, fs₁, hop⟩ := openTrunc_of_canHold ht
  simp only [replaceFile, hop, reduceCtorEq, if_false] at h
  obtain ⟨-, rfl⟩ := rename_true h
  exact link_move_src hne

/-- A directory stands at `l` or can be made there. -/
def passable (fs : FileSystem) (l : Location) : Bool := fs.dirs l || (fs.link l).isNone

/-- What creating the directories along `ls` leaves behind, complete or not. -/
structure Extended (fs : FileSystem) (ls : List Location) (fs' : FileSystem) : Prop where
  link : fs'.link = fs.link
  data : fs'.data = fs.data
  fresh : fs'.fresh = fs.fresh
  dirs_of_dirs : ∀ l, fs.dirs l = true → fs'.dirs l = true
  mem_of_dirs : ∀ l, fs'.dirs l = true → fs.dirs l = true ∨ l ∈ ls
  calls : ∃ made : List Location, fs'.calls = fs.calls ++ made.map .mkdir ∧
    ∀ l ∈ made, l ∈ ls ∧ fs.dirs l = false

theorem extended_mkdirs (ls : List Location) (fs : FileSystem) :
    Extended fs ls (fs.mkdirs ls).2 := by
  induction ls generalizing fs with
  | nil => exact ⟨rfl, rfl, rfl, fun _ h => h, fun _ h => .inl h, [], by simp [mkdirs], by simp⟩
  | cons l ls ih =>
    unfold mkdirs
    split
    · obtain ⟨h1, h2, hf, h3, h4, made, h5, h6⟩ := ih fs
      refine ⟨h1, h2, hf, h3, fun l' h' => ?_, made, h5, fun l' h' => ?_⟩
      · exact (h4 l' h').imp_right (List.mem_cons_of_mem l)
      · exact ⟨List.mem_cons_of_mem l (h6 l' h').1, (h6 l' h').2⟩
    · next hd =>
      split
      · exact ⟨rfl, rfl, rfl, fun _ h => h, fun _ h => .inl h, [], by simp, by simp⟩
      · obtain ⟨h1, h2, hf, h3, h4, made, h5, h6⟩ :=
          ih { fs.log (.mkdir l) with dirs := Function.update fs.dirs l true }
        refine ⟨h1, h2, hf, fun l' h' => h3 l' ?_, fun l' h' => ?_, l :: made, ?_, fun l' h' => ?_⟩
        · by_cases he : l' = l
          · simp [he]
          · simpa [he] using h'
        · by_cases he : l' = l
          · exact .inr (by simp [he])
          · have := h4 l' h'
            simp only [Function.update_of_ne he] at this
            exact this.imp_right (List.mem_cons_of_mem l)
        · simpa using h5
        · rcases List.mem_cons.mp h' with rfl | h'
          · exact ⟨by simp, by simpa using hd⟩
          · have hm := h6 l' h'
            refine ⟨List.mem_cons_of_mem l hm.1, ?_⟩
            by_cases he : l' = l
            · simpa [he] using hd
            · simpa [he] using hm.2

theorem within_mkdirs (p : Location → Prop) (ls : List Location) :
    Within p fs (fs.mkdirs ls).2 := by
  have h := extended_mkdirs ls fs
  exact ⟨h.fresh.ge, fun l _ => congrFun h.link l, fun l i hl hi _ => ⟨l, hl, h.link ▸ hi⟩,
    fun i _ _ => congrFun h.data i⟩

/-- Making directories stays within `p` if what is passed outside is there already. -/
theorem confined_mkdirs {p : Location → Prop} {ls : List Location}
    (h : ∀ l ∈ ls, p l ∨ fs.dirs l = true) : Confined p fs (fs.mkdirs ls).2 := by
  have hext := extended_mkdirs ls fs
  obtain ⟨made, hcalls, hmade⟩ := hext.calls
  constructor
  · refine ⟨made.map .mkdir, hcalls, fun c hc l hl => ?_⟩
    obtain ⟨l', hl', rfl⟩ := List.mem_map.mp hc
    obtain rfl := List.mem_singleton.mp hl
    obtain ⟨hmem, hnot⟩ := hmade l hl'
    exact (h l hmem).resolve_right (by simp [hnot])
  · intro l hl
    cases hd : fs.dirs l with
    | true => exact hext.dirs_of_dirs l hd
    | false =>
      by_contra hne
      obtain hd' | hmem := hext.mem_of_dirs l (by simpa using hne)
      · simp [hd] at hd'
      · exact (h l hmem).elim hl (by simp [hd])

/-- The directories can be made unless a file stands where one is missing. -/
theorem mkdirs_fst (ls : List Location) (fs : FileSystem) : (fs.mkdirs ls).1 = true ↔
    ∀ l ∈ ls, fs.dirs l = true ∨ fs.link l = none := by
  induction ls generalizing fs with
  | nil => simp [mkdirs]
  | cons l ls ih =>
    rw [mkdirs, List.forall_mem_cons]
    by_cases hd : fs.dirs l = true
    · rw [if_pos hd, ih, and_iff_right (.inl hd)]
    · cases hl : fs.link l with
      | some i => simp [hd]
      | none =>
        rw [if_neg hd, if_neg (by simp), ih, and_iff_right (.inr rfl)]
        apply forall₂_congr
        intro l' _
        by_cases he : l' = l
        · simp [he, hl]
        · simp [he]

/-- The directories up to the first place a file stands in the way of are made. -/
theorem dirs_mkdirs_takeWhile (ls : List Location) (fs : FileSystem) :
    (fs.mkdirs ls).2.dirs l = true ↔ fs.dirs l = true ∨ l ∈ ls.takeWhile fs.passable := by
  induction ls generalizing fs with
  | nil => simp [mkdirs]
  | cons l' ls ih =>
    unfold mkdirs
    by_cases hd : fs.dirs l' = true
    · have hpass : fs.passable l' = true := by simp [passable, hd]
      rw [if_pos hd, ih, List.takeWhile_cons_of_pos hpass, List.mem_cons]
      constructor
      · exact Or.imp_right .inr
      · rintro (h | rfl | h)
        · exact .inl h
        · exact .inl hd
        · exact .inr h
    · rw [if_neg hd]
      cases hl : fs.link l' with
      | some i =>
        have hpass : ¬fs.passable l' = true := by simp [passable, hd, hl]
        simp [List.takeWhile_cons_of_neg hpass]
      | none =>
        have hpass : fs.passable l' = true := by simp [passable, hl]
        have hsame : FileSystem.passable
            { fs.log (.mkdir l') with dirs := Function.update fs.dirs l' true } = fs.passable := by
          funext l''
          by_cases he : l'' = l'
          · subst he
            simp [passable, hl]
          · simp [passable, he]
        rw [if_neg (by simp), ih, hsame, List.takeWhile_cons_of_pos hpass, List.mem_cons]
        by_cases he : l = l'
        · simp [he]
        · simp [he]

/-- Then they are all there afterwards. -/
theorem dirs_mkdirs {ls : List Location} (h : (fs.mkdirs ls).1 = true) :
    (fs.mkdirs ls).2.dirs l = true ↔ fs.dirs l = true ∨ l ∈ ls := by
  refine ⟨(extended_mkdirs ls fs).mem_of_dirs l,
    fun hor => hor.elim ((extended_mkdirs ls fs).dirs_of_dirs l) fun hl => ?_⟩
  induction ls generalizing fs with
  | nil => cases hl
  | cons l' ls ih =>
    rw [mkdirs] at h ⊢
    split at h
    · next hd =>
      rw [if_pos hd]
      rcases List.mem_cons.mp hl with rfl | hl
      · exact (extended_mkdirs ls fs).dirs_of_dirs l hd
      · exact ih h (.inr hl) hl
    · next hd =>
      split at h
      · cases h
      · next hlink =>
        rw [if_neg hd, if_neg hlink]
        rcases List.mem_cons.mp hl with rfl | hl
        · exact (extended_mkdirs ls _).dirs_of_dirs l (by simp)
        · exact ih h (.inr hl) hl

end FileSystem
end FileStore
