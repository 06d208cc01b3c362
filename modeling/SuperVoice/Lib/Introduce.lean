import Mathlib.Data.List.Basic
import Mathlib.Data.List.Nodup
import Mathlib.Data.Sum.Basic
import Mathlib.Tactic.Common

/-! Items under keys, with a header in front of the first item of every key: a header is `Sum.inl`
of that item, every item itself `Sum.inr`. -/
namespace Introduce
variable {α κ : Type*} [DecidableEq κ] (key : α → κ)

/-- The items with their headers when the keys `seen` have theirs already. -/
def introduce : List κ → List α → List (α ⊕ α)
  | _, [] => []
  | seen, a :: as =>
    if key a ∈ seen then .inr a :: introduce seen as
    else .inl a :: .inr a :: introduce (key a :: seen) as

/-- The first item of every key that is not among `seen`. -/
def firsts : List κ → List α → List α
  | _, [] => []
  | seen, a :: as => if key a ∈ seen then firsts seen as else a :: firsts (key a :: seen) as

variable {key} {seen : List κ} {as : List α} {a : α}

theorem introduce_concat : introduce key seen (as ++ [a]) = introduce key seen as ++
    if key a ∈ seen ∨ key a ∈ as.map key then [.inr a] else [.inl a, .inr a] := by
  induction as generalizing seen with
  | nil => simp [introduce]
  | cons b as ih =>
    rw [List.cons_append, introduce, introduce]
    by_cases hb : key b ∈ seen
    · have hkey : (key a ∈ seen ∨ key a ∈ (b :: as).map key) ↔ key a ∈ seen ∨ key a ∈ as.map key := by
        constructor
        · rintro (h | h)
          · exact .inl h
          · obtain h | h := List.mem_cons.mp h
            · exact .inl (h ▸ hb)
            · exact .inr h
        · exact Or.imp_right (List.mem_cons_of_mem _)
      rw [if_pos hb, if_pos hb, ih, List.cons_append, if_congr hkey rfl rfl]
    · have hkey : (key a ∈ seen ∨ key a ∈ (b :: as).map key) ↔
          key a ∈ key b :: seen ∨ key a ∈ as.map key := by
        simp only [List.map_cons, List.mem_cons]
        tauto
      rw [if_neg hb, if_neg hb, ih, List.cons_append, List.cons_append, if_congr hkey rfl rfl]

/-- Without the headers it is the items. -/
theorem filterMap_getRight (seen : List κ) (as : List α) :
    (introduce key seen as).filterMap Sum.getRight? = as := by
  induction as generalizing seen with
  | nil => rfl
  | cons a as ih =>
    by_cases ha : key a ∈ seen <;> simp [introduce, ha, ih, List.filterMap_cons]

theorem filterMap_getLeft (seen : List κ) (as : List α) :
    (introduce key seen as).filterMap Sum.getLeft? = firsts key seen as := by
  induction as generalizing seen with
  | nil => rfl
  | cons a as ih =>
    by_cases ha : key a ∈ seen <;> simp [introduce, firsts, ha, ih, List.filterMap_cons]

theorem firsts_concat : firsts key seen (as ++ [a]) = firsts key seen as ++
    if key a ∈ seen ∨ key a ∈ as.map key then [] else [a] := by
  rw [← filterMap_getLeft, introduce_concat, List.filterMap_append, filterMap_getLeft]
  split <;> simp

/-- No key has two headers, and none that had one gets another. -/
theorem nodup_firsts (seen : List κ) (as : List α) :
    ((firsts key seen as).map key).Nodup ∧ ∀ b ∈ firsts key seen as, key b ∉ seen := by
  induction as generalizing seen with
  | nil => exact ⟨List.nodup_nil, nofun⟩
  | cons a as ih =>
    rw [firsts]
    split
    · exact ih seen
    · next ha =>
      obtain ⟨hnodup, hfresh⟩ := ih (key a :: seen)
      constructor
      · rw [List.map_cons, List.nodup_cons]
        refine ⟨fun hmem => ?_, hnodup⟩
        obtain ⟨b, hb, hkey⟩ := List.mem_map.mp hmem
        exact hfresh b hb (hkey ▸ List.mem_cons_self)
      · intro b hb
        obtain rfl | hb := List.mem_cons.mp hb
        · exact ha
        · exact fun h => hfresh b hb (List.mem_cons_of_mem _ h)

/-- In front of every item stands the header of its key, unless it had one before. -/
theorem introduced_before {front back : List (α ⊕ α)}
    (h : introduce key seen as = front ++ .inr a :: back) :
    key a ∈ seen ∨ ∃ b, .inl b ∈ front ∧ key b = key a := by
  induction as generalizing seen front with
  | nil => cases front <;> cases h
  | cons c as ih =>
    rw [introduce] at h
    split at h
    · next hc =>
      cases front with
      | nil =>
        cases h
        exact .inl hc
      | cons first front =>
        obtain hseen | ⟨b, hb, hkey⟩ := ih (List.cons.inj h).2
        · exact .inl hseen
        · exact .inr ⟨b, List.mem_cons_of_mem _ hb, hkey⟩
    · cases front with
      | nil => cases h
      | cons first front =>
        rw [List.cons_append, List.cons.injEq] at h
        obtain ⟨rfl, h⟩ := h
        cases front with
        | nil =>
          cases h
          exact .inr ⟨_, List.mem_cons_self, rfl⟩
        | cons second front =>
          rw [List.cons_append, List.cons.injEq] at h
          obtain ⟨-, h⟩ := h
          obtain hseen | ⟨b, hb, hkey⟩ := ih h
          · obtain heq | hseen := List.mem_cons.mp hseen
            · exact .inr ⟨_, List.mem_cons_self, heq.symm⟩
            · exact .inl hseen
          · exact .inr ⟨b, List.mem_cons_of_mem _ (List.mem_cons_of_mem _ hb), hkey⟩

end Introduce
