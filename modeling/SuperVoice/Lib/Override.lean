import Mathlib.Data.List.Basic
import Mathlib.Logic.Function.Basic
import Mathlib.Tactic.Common

/-! Assignments that are made, and settings that are read from sources, one after the other: a later
one overrides an earlier one. -/
namespace Override

section Assignments
variable {α κ ν : Type*} [DecidableEq κ] {key : α → κ} {value : α → ν} {assignments : List α}

theorem foldl_update_of_ne {name : κ} (start : κ → ν) (h : ∀ a ∈ assignments, key a ≠ name) :
    assignments.foldl (fun result a => Function.update result (key a) (value a)) start name =
      start name := by
  induction assignments generalizing start with
  | nil => rfl
  | cons a assignments ih =>
    have hne : name ≠ key a := (h a List.mem_cons_self).symm
    rw [List.foldl_cons, ih _ fun b hb => h b (List.mem_cons_of_mem a hb),
      Function.update_of_ne hne]

/-- Assignments to different names are all kept. -/
theorem foldl_update_of_mem (start : κ → ν) (hnodup : (assignments.map key).Nodup) {a : α}
    (ha : a ∈ assignments) :
    assignments.foldl (fun result a => Function.update result (key a) (value a)) start (key a) =
      value a := by
  induction assignments generalizing start with
  | nil => cases ha
  | cons first assignments ih =>
    rw [List.map_cons, List.nodup_cons] at hnodup
    rw [List.foldl_cons]
    obtain rfl | hrest := List.mem_cons.mp ha
    · rw [foldl_update_of_ne, Function.update_self]
      exact fun b hb heq => hnodup.1 (List.mem_map.mpr ⟨b, hb, heq⟩)
    · exact ih _ hnodup.2 hrest

end Assignments

variable {ι σ : Type*}

/-- What a source says about each setting: nothing, something unreadable, or an update. -/
abbrev Source (ι σ : Type*) := ι → Option (Option (σ → σ))

/-- Apply what a source says, unless something is unreadable. -/
def apply (source : Source ι σ) (settings : List ι) (options : σ) : Option σ :=
  settings.foldlM (fun options setting =>
    match source setting with
    | none => some options
    | some update => update.map fun update => update options) options

def Readable (source : Source ι σ) (settings : List ι) : Prop :=
  ∀ setting ∈ settings, source setting ≠ some none

/-- The change that a source makes by a setting. -/
def update (source : Source ι σ) (setting : ι) (options : σ) : σ :=
  match source setting with
  | some (some update) => update options
  | _ => options

section Apply
variable {source : Source ι σ} {setting : ι} {settings : List ι} {options : σ}

theorem apply_cons (h : source setting ≠ some none) : apply source (setting :: settings) options =
    apply source settings (update source setting options) := by
  rw [apply, List.foldlM_cons, apply]
  unfold update
  cases hsource : source setting with
  | none => rfl
  | some change =>
    cases change with
    | none => exact absurd hsource h
    | some change => rfl

theorem apply_cons_unreadable (h : source setting = some none) :
    apply source (setting :: settings) options = none := by
  rw [apply, List.foldlM_cons, h]
  rfl

theorem readable_cons : Readable source (setting :: settings) ↔
    source setting ≠ some none ∧ Readable source settings := by
  simp [Readable]

theorem apply_of_readable (h : Readable source settings) : apply source settings options =
    some (settings.foldl (fun options setting => update source setting options) options) := by
  induction settings generalizing options with
  | nil => rfl
  | cons setting settings ih =>
    obtain ⟨hfirst, hrest⟩ := readable_cons.mp h
    rw [apply_cons hfirst, ih hrest, List.foldl_cons]

theorem apply_of_not_readable (h : ¬ Readable source settings) :
    apply source settings options = none := by
  induction settings generalizing options with
  | nil => exact absurd (fun s hs => (nomatch hs)) h
  | cons setting settings ih =>
    by_cases hfirst : source setting = some none
    · exact apply_cons_unreadable hfirst
    · rw [apply_cons hfirst]
      exact ih fun hrest => h (readable_cons.mpr ⟨hfirst, hrest⟩)

end Apply

variable {low low' high : Source ι σ} {settings : List ι} {options : σ}

/-- Settings do not interfere, and one that is given overrides. -/
structure Layered (low high : Source ι σ) (settings : List ι) : Prop where
  commutes : settings.Pairwise fun s t => ∀ options,
    update high s (update low t options) = update low t (update high s options)
  overrides : ∀ s ∈ settings, high s ≠ none → ∀ options,
    update high s (update low s options) = update high s options

/-- Both sources, one after the other. -/
def merge (low high : Source ι σ) (settings : List ι) (options : σ) : Option σ :=
  (apply low settings options).bind (apply high settings)

/-- Both sources, setting by setting. -/
def combined (low high : Source ι σ) (settings : List ι) (options : σ) : σ :=
  settings.foldl (fun options setting => update high setting (update low setting options)) options

theorem foldl_commutes {f : σ → σ} (h : ∀ s ∈ settings, ∀ options,
    f (update low s options) = update low s (f options)) :
    f (settings.foldl (fun options s => update low s options) options) =
      settings.foldl (fun options s => update low s options) (f options) := by
  induction settings generalizing options with
  | nil => rfl
  | cons s settings ih =>
    rw [List.foldl_cons, ih fun t ht => h t (List.mem_cons_of_mem s ht), h s List.mem_cons_self,
      List.foldl_cons]

theorem foldl_foldl_eq_combined (h : settings.Pairwise fun s t => ∀ options,
    update high s (update low t options) = update low t (update high s options)) :
    settings.foldl (fun options s => update high s options)
        (settings.foldl (fun options s => update low s options) options) =
      combined low high settings options := by
  induction settings generalizing options with
  | nil => rfl
  | cons s settings ih =>
    obtain ⟨hfirst, hrest⟩ := List.pairwise_cons.mp h
    rw [List.foldl_cons, List.foldl_cons, foldl_commutes hfirst, ih hrest]
    rfl

theorem merge_of_readable (h : Layered low high settings) (hlow : Readable low settings)
    (hhigh : Readable high settings) :
    merge low high settings options = some (combined low high settings options) := by
  rw [merge, apply_of_readable hlow, Option.bind_some, apply_of_readable hhigh,
    foldl_foldl_eq_combined h.commutes]

/-- What the later source overrides leaves no trace. -/
theorem combined_congr (h : Layered low high settings) (h' : Layered low' high settings)
    (hsame : ∀ s ∈ settings, high s = none → low s = low' s) :
    combined low high settings options = combined low' high settings options := by
  apply List.foldl_ext
  intro options s hs
  by_cases hgiven : high s = none
  · rw [update, update, update, hsame s hs hgiven]
    rfl
  · rw [h.overrides s hs hgiven, h'.overrides s hs hgiven]

/-- A part of the options that only one setting changes. -/
theorem combined_part {α : Type*} (part : σ → α) {before after : List ι} {setting : ι}
    (hother : ∀ s ∈ before ++ after, ∀ options,
      part (update high s (update low s options)) = part options) :
    part (combined low high (before ++ setting :: after) options) =
      part (update high setting (update low setting (combined low high before options))) ∧
      part (combined low high before options) = part options := by
  have hkept : ∀ (others : List ι) (options : σ), (∀ s ∈ others, s ∈ before ++ after) →
      part (combined low high others options) = part options := by
    intro others
    induction others with
    | nil => exact fun _ _ => rfl
    | cons s others ih =>
      intro options hmem
      rw [combined, List.foldl_cons]
      rw [← combined, ih _ fun t ht => hmem t (List.mem_cons_of_mem s ht)]
      exact hother s (hmem s List.mem_cons_self) options
  constructor
  · rw [combined, List.foldl_append, List.foldl_cons]
    rw [← combined, ← combined, hkept after _ fun s hs => List.mem_append_right _ hs]
  · exact hkept before options fun s hs => List.mem_append_left _ hs

end Override
