import SuperVoice.Lib.Bytes
import Mathlib.Data.List.Infix

/-! Path strings and what the operating system makes of them. A path is the byte string a
program composes; a location is the list of names that remains once the string is cut at its
first NUL, split at slashes and freed of `.`, `..` and empty components. -/
namespace PosixPath
open Bytes

abbrev Path := Bytes

/-- A resolved absolute location, outermost directory first. -/
abbrev Location := List Bytes

def slash : UInt8 := 47
def dot : Bytes := ascii "."
def dotdot : Bytes := ascii ".."

def isAbsolute (p : Path) : Bool := p.head? == some slash

/-- `std::filesystem::path::operator/`: an absolute right side replaces the left side. -/
def join (p q : Path) : Path :=
  if isAbsolute q || p.isEmpty then q
  else if p.getLast? == some slash then p ++ q
  else p ++ slash :: q

/-- The part of a string that a system call sees through `c_str()`. -/
def cString (p : Bytes) : Bytes := p.takeWhile (· != 0)

def walk (l : Location) (c : Bytes) : Location :=
  if c = [] ∨ c = dot then l else if c = dotdot then l.dropLast else l ++ [c]

def components (p : Path) : List Bytes := (cString p).splitOn slash

def origin (cwd : Location) (p : Path) : Location := if isAbsolute (cString p) then [] else cwd

/-- The location a system call given `p` acts on. -/
def resolve (cwd : Location) (p : Path) : Location := (components p).foldl walk (origin cwd p)

/-- The locations passed on the way to `resolve cwd p`, which is the last of them. -/
def passed (cwd : Location) (p : Path) : List Location :=
  (components p).scanl walk (origin cwd p)

/-- A name that denotes exactly one directory entry. -/
structure IsComponent (c : Bytes) : Prop where
  ne_nil : c ≠ []
  no_slash : slash ∉ c
  no_nul : 0 ∉ c
  ne_dot : c ≠ dot
  ne_dotdot : c ≠ dotdot

instance (c : Bytes) : Decidable (IsComponent c) :=
  decidable_of_iff (c ≠ [] ∧ slash ∉ c ∧ 0 ∉ c ∧ c ≠ dot ∧ c ≠ dotdot)
    ⟨fun ⟨h1, h2, h3, h4, h5⟩ => ⟨h1, h2, h3, h4, h5⟩,
      fun ⟨h1, h2, h3, h4, h5⟩ => ⟨h1, h2, h3, h4, h5⟩⟩

/-- `l` is a proper descendant of `base`. -/
def StrictlyInside (base l : Location) : Prop := base <+: l ∧ l ≠ base

instance (base l : Location) : Decidable (StrictlyInside base l) :=
  inferInstanceAs (Decidable (_ ∧ _))

theorem strictlyInside_append {base : Location} {l : Location} (h : l ≠ []) :
    StrictlyInside base (base ++ l) :=
  ⟨List.prefix_append _ _, by simpa using h⟩

theorem StrictlyInside.append {base l : Location} (h : StrictlyInside base l) (t : Location) :
    StrictlyInside base (l ++ t) := by
  refine ⟨h.1.trans (List.prefix_append _ _), fun he => h.2 ?_⟩
  have hl := h.1.length_le
  have := congrArg List.length he
  simp only [List.length_append] at this
  exact (h.1.eq_of_length (by omega)).symm

@[simp] theorem walk_nil (l : Location) : walk l [] = l := by simp [walk]

theorem walk_component {c : Bytes} (hc : IsComponent c) (l : Location) :
    walk l c = l ++ [c] := by
  simp [walk, hc.ne_nil, hc.ne_dot, hc.ne_dotdot]

theorem cString_of_no_nul {p : Bytes} (h : 0 ∉ p) : cString p = p := by
  induction p with
  | nil => rfl
  | cons x xs ih =>
    have hx : x ≠ 0 := by intro he; exact h (by simp [he])
    have ih' := ih fun hm => h (List.mem_cons_of_mem x hm)
    simp only [cString] at ih'
    simp [cString, hx, ih']

theorem cString_append {p : Bytes} (h : 0 ∉ p) (q : Bytes) :
    cString (p ++ q) = p ++ cString q := by
  induction p with
  | nil => rfl
  | cons x xs ih =>
    have hx : x ≠ 0 := by intro he; exact h (by simp [he])
    have hxs : 0 ∉ xs := fun hm => h (List.mem_cons_of_mem x hm)
    have ih' := ih hxs
    simp only [cString] at ih'
    simp [cString, hx, ih']

/-- Whatever follows a NUL is invisible to a system call. -/
theorem cString_append_of_nul {p : Bytes} (h : 0 ∈ p) (q : Bytes) :
    cString (p ++ q) = cString p := by
  induction p with
  | nil => cases h
  | cons x xs ih =>
    by_cases hx : x = 0
    · simp [cString, hx]
    · have hxs : 0 ∈ xs := by
        rcases List.mem_cons.mp h with h | h
        · exact absurd h.symm hx
        · exact h
      have ih' := ih hxs
      simp only [cString] at ih'
      simp [cString, hx, ih']

theorem isAbsolute_append {p : Path} (hp : p ≠ []) (q : Bytes) :
    isAbsolute (p ++ q) = isAbsolute p := by
  cases p with
  | nil => exact absurd rfl hp
  | cons x xs => rfl

/-- The components of `p / q` for a relative `q`: those of `p`, but for a last empty one, and
then those of `q`. -/
theorem components_join {p q : Path} (cwd : Location) (hp : 0 ∉ p) (hq : isAbsolute q = false) :
    ∃ ws, ws <+: components p ∧ components (join p q) = ws ++ components q ∧
      origin cwd (join p q) = origin cwd p ∧ ws.foldl walk (origin cwd p) = resolve cwd p := by
  cases hpe : p with
  | nil =>
    have hqc : isAbsolute (cString q) = false := by
      cases q with
      | nil => rfl
      | cons x xs =>
        by_cases hx : x = 0
        · simp [cString, hx, isAbsolute]
        · simpa [cString, hx, isAbsolute] using hq
    have hj : join [] q = q := by simp [join]
    have ho : origin cwd q = cwd := by simp [origin, hqc]
    exact ⟨[], List.nil_prefix, by rw [hj, List.nil_append], by rw [hj, ho]; rfl, rfl⟩
  | cons x xs =>
    have hne : p ≠ [] := by simp [hpe]
    rw [← hpe]
    have hpc := cString_of_no_nul hp
    by_cases hlast : p.getLast? == some slash
    · obtain ⟨p', rfl⟩ : ∃ p', p = p' ++ [slash] :=
        List.getLast?_eq_some_iff.mp (by simpa using hlast)
      have hj : join (p' ++ [slash]) q = p' ++ slash :: q := by simp [join, hq]
      have hc : cString (p' ++ slash :: q) = p' ++ slash :: cString q := by
        simpa using cString_append hp q
      have ho : isAbsolute (p' ++ slash :: cString q) = isAbsolute (p' ++ [slash]) := by
        simpa using isAbsolute_append hne (cString q)
      have hcomp : components (p' ++ [slash]) = p'.splitOn slash ++ [[]] := by
        rw [components, hpc, List.splitOn_append_cons_self]
        simp
      refine ⟨p'.splitOn slash, hcomp ▸ List.prefix_append _ _, ?_, ?_, ?_⟩
      · rw [hj, components, hc, List.splitOn_append_cons_self]
        rfl
      · simp only [hj, origin, hc, ho, hpc]
      · rw [resolve, hcomp, List.foldl_append]
        simp
    · have hj : join p q = p ++ slash :: q := by
        simp only [join, hq, Bool.false_or, hlast]
        simp [hne]
      have hc : cString (p ++ slash :: q) = p ++ slash :: cString q := by
        rw [cString_append hp]
        rfl
      refine ⟨components p, List.prefix_refl _, ?_, ?_, rfl⟩
      · rw [hj, components, hc, List.splitOn_append_cons_self, components, hpc]
        rfl
      · rw [hj, origin, hc, isAbsolute_append hne, origin, hpc]

/-- Resolving `p / q` for a relative `q` walks the components of `q` from where `p` ends. -/
theorem resolve_join {p q : Path} (cwd : Location) (hp : 0 ∉ p) (hq : isAbsolute q = false) :
    resolve cwd (join p q) = (components q).foldl walk (resolve cwd p) := by
  obtain ⟨ws, -, hcomp, horigin, hfold⟩ := components_join cwd hp hq
  rw [resolve, hcomp, horigin, List.foldl_append, hfold]

/-- On the way to `p / q` one passes what lies on the way to `p`, and then on from there. -/
theorem passed_join {p q : Path} (cwd : Location) (hp : 0 ∉ p) (hq : isAbsolute q = false)
    {l : Location} (hl : l ∈ passed cwd (join p q)) :
    l ∈ passed cwd p ∨ l ∈ (components q).scanl walk (resolve cwd p) := by
  obtain ⟨ws, ⟨ts, hts⟩, hcomp, horigin, hfold⟩ := components_join cwd hp hq
  rw [passed, hcomp, horigin, List.scanl_append, hfold, List.mem_append] at hl
  obtain hl | hl := hl
  · rw [passed, ← hts, List.scanl_append]
    exact .inl (List.mem_append_left _ hl)
  · exact .inr (List.mem_of_mem_tail hl)

theorem passed_self (cwd : Location) (p : Path) : resolve cwd p ∈ passed cwd p := by
  have h : ∀ (cs : List Bytes) (l : Location), cs.foldl walk l ∈ cs.scanl walk l := by
    intro cs
    induction cs with
    | nil => simp
    | cons c cs ih => simp [ih]
  exact h _ _

theorem component_not_absolute {c : Bytes} (hc : IsComponent c) : isAbsolute c = false := by
  cases c with
  | nil => rfl
  | cons x xs =>
    have hx : x ≠ slash := fun he => hc.no_slash (by simp [he])
    simp [isAbsolute, hx]

theorem components_component {c : Bytes} (hc : IsComponent c) : components c = [c] := by
  rw [components, cString_of_no_nul hc.no_nul, List.splitOn_eq_singleton hc.no_slash]

/-- Below a directory, an ordinary name denotes the entry of that name. -/
theorem resolve_join_component {p c : Path} (cwd : Location) (hp : 0 ∉ p) (hc : IsComponent c) :
    resolve cwd (join p c) = resolve cwd p ++ [c] := by
  rw [resolve_join cwd hp (component_not_absolute hc), components_component hc]
  simp [walk_component hc]

theorem passed_join_component {p c : Path} (cwd : Location) (hp : 0 ∉ p) (hc : IsComponent c)
    {l : Location} (hl : l ∈ passed cwd (join p c)) :
    l ∈ passed cwd p ∨ l = resolve cwd p ++ [c] := by
  obtain hl | hl := passed_join cwd hp (component_not_absolute hc) hl
  · exact .inl hl
  · rw [components_component hc, List.scanl_singleton, walk_component hc] at hl
    obtain rfl | hl := List.mem_cons.mp hl
    · exact .inl (passed_self cwd p)
    · exact .inr (List.mem_singleton.mp hl)

/-- Behind a NUL a longer path leads to the same place. -/
theorem resolve_join_of_nul {p q : Path} (cwd : Location) (hp : 0 ∈ p)
    (hq : isAbsolute q = false) : resolve cwd (join p q) = resolve cwd p := by
  have hne : p ≠ [] := List.ne_nil_of_mem hp
  have hj : ∃ t, join p q = p ++ t := by
    unfold join
    simp only [hq, Bool.false_or, List.isEmpty_iff, hne, if_false]
    split
    · exact ⟨q, rfl⟩
    · exact ⟨slash :: q, rfl⟩
  obtain ⟨t, ht⟩ := hj
  rw [resolve, resolve, components, components, origin, origin, ht, cString_append_of_nul hp]

theorem no_nul_join {p q : Path} (hp : 0 ∉ p) (hq : 0 ∉ q) : 0 ∉ join p q := by
  have hs : (0 : UInt8) ≠ slash := by decide
  unfold join
  split
  · exact hq
  · split <;> simp [hp, hq, hs]

/-- A suffix on the last component of a join is a suffix on that component. -/
theorem join_append {p c : Path} (t : Bytes) (hc : c ≠ []) : join p c ++ t = join p (c ++ t) := by
  have ha : isAbsolute (c ++ t) = isAbsolute c := isAbsolute_append hc t
  simp only [join, ha]
  split
  · rfl
  · split <;> simp

end PosixPath
