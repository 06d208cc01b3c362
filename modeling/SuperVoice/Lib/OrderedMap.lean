import Mathlib.Data.List.Basic
import Mathlib.Data.List.Induction
import Mathlib.Data.List.Pairwise
import Mathlib.Tactic.Common

/-! Maps kept in the order of a comparison of their keys, which may take different keys for the
same. An entry that is assigned again keeps the key that it was inserted under. -/
namespace OrderedMap
variable {κ ν : Type*} (cmp : κ → κ → Ordering)

/-- The entries after `map[key] = value`. -/
def assign (key : κ) (value : ν) : List (κ × ν) → List (κ × ν)
  | [] => [(key, value)]
  | entry :: entries =>
    match cmp key entry.1 with
    | .lt => (key, value) :: entry :: entries
    | .eq => (entry.1, value) :: entries
    | .gt => entry :: assign key value entries

/-- Each key comes before the next ones. -/
def Sorted (entries : List (κ × ν)) : Prop := entries.Pairwise fun a b => cmp a.1 b.1 = .lt

variable {cmp} {key key' : κ} {value : ν} {entries entries' : List (κ × ν)}

/-- An entry after an assignment was there before, or it is the one assigned to. -/
theorem mem_assign {entry : κ × ν} (h : entry ∈ assign cmp key value entries) :
    entry ∈ entries ∨ entry = (key, value) ∨ cmp key entry.1 = .eq ∧ entry.2 = value := by
  induction entries with
  | nil => exact .inr (.inl (List.mem_singleton.mp h))
  | cons first entries ih =>
    rw [assign] at h
    split at h
    · obtain rfl | h := List.mem_cons.mp h
      · exact .inr (.inl rfl)
      · exact .inl h
    · next heq =>
      obtain rfl | h := List.mem_cons.mp h
      · exact .inr (.inr ⟨heq, rfl⟩)
      · exact .inl (List.mem_cons_of_mem _ h)
    · obtain rfl | h := List.mem_cons.mp h
      · exact .inl List.mem_cons_self
      · exact (ih h).imp_left (List.mem_cons_of_mem _)

variable [Std.TransCmp cmp]

theorem sorted_assign (h : Sorted cmp entries) : Sorted cmp (assign cmp key value entries) := by
  induction entries with
  | nil => exact List.pairwise_singleton _ _
  | cons first entries ih =>
    obtain ⟨hfirst, hrest⟩ := List.pairwise_cons.mp h
    rw [assign]
    split
    · next hlt =>
      refine List.pairwise_cons.mpr ⟨fun entry hentry => ?_, h⟩
      obtain rfl | hentry := List.mem_cons.mp hentry
      · exact hlt
      · exact Std.TransCmp.lt_trans hlt (hfirst entry hentry)
    · exact List.pairwise_cons.mpr ⟨hfirst, hrest⟩
    · next hgt =>
      refine List.pairwise_cons.mpr ⟨fun entry hentry => ?_, ih hrest⟩
      have hlt := Std.OrientedCmp.lt_of_gt hgt
      obtain hentry | rfl | ⟨heq, -⟩ := mem_assign hentry
      · exact hfirst entry hentry
      · exact hlt
      · exact Std.TransCmp.lt_of_lt_of_eq hlt heq

/-- The entry of a key. -/
def find (cmp : κ → κ → Ordering) (key : κ) (entries : List (κ × ν)) : Option (κ × ν) :=
  entries.find? fun entry => cmp key entry.1 = .eq

theorem find_assign_of_eq (heq : cmp key' key = .eq) (h : Sorted cmp entries) :
    find cmp key' (assign cmp key value entries) =
      some (((find cmp key entries).map Prod.fst).getD key, value) := by
  induction entries with
  | nil => simp [assign, find, heq]
  | cons first entries ih =>
    obtain ⟨hfirst, hrest⟩ := List.pairwise_cons.mp h
    rw [assign]
    split
    · next hlt =>
      have hnone : find cmp key (first :: entries) = none := by
        refine List.find?_eq_none.mpr fun entry hentry => ?_
        have hlt' : cmp key entry.1 = .lt := by
          obtain rfl | hentry := List.mem_cons.mp hentry
          · exact hlt
          · exact Std.TransCmp.lt_trans hlt (hfirst entry hentry)
        simp [hlt']
      rw [hnone]
      simp [find, heq]
    · next heq' =>
      have htrans := Std.TransCmp.eq_trans heq heq'
      simp [find, heq', htrans]
    · next hgt =>
      have hne : cmp key' first.1 ≠ .eq := by
        rw [Std.TransCmp.congr_left heq, hgt]
        decide
      have hskip : find cmp key (first :: entries) = find cmp key entries :=
        List.find?_cons_of_neg (by simp [hgt])
      rw [hskip, ← ih hrest]
      exact List.find?_cons_of_neg (by simp [hne])

theorem find_assign_of_ne (hne : cmp key' key ≠ .eq) :
    find cmp key' (assign cmp key value entries) = find cmp key' entries := by
  induction entries with
  | nil => simp [assign, find, hne]
  | cons first entries ih =>
    rw [assign]
    split
    · exact List.find?_cons_of_neg (by simp [hne])
    · next heq =>
      have hne' : cmp key' first.1 ≠ .eq := by rwa [← Std.TransCmp.congr_right heq]
      rw [find, find, List.find?_cons_of_neg (by simp [hne']),
        List.find?_cons_of_neg (by simp [hne'])]
    · by_cases hfirst : cmp key' first.1 = .eq
      · rw [find, find, List.find?_cons_of_pos (by simp [hfirst]),
          List.find?_cons_of_pos (by simp [hfirst])]
      · have hrest := ih
        rw [find, find] at hrest ⊢
        rw [List.find?_cons_of_neg (by simp [hfirst]), List.find?_cons_of_neg (by simp [hfirst]),
          hrest]

end OrderedMap

/-- A `std::map` with this comparison. -/
structure OrderedMap {κ : Type*} (cmp : κ → κ → Ordering) (ν : Type*) where
  entries : List (κ × ν)
  sorted : OrderedMap.Sorted cmp entries

namespace OrderedMap
variable {κ ν : Type*} {cmp : κ → κ → Ordering} [Std.TransCmp cmp] {key key' : κ} {value : ν}
  {map map' : OrderedMap cmp ν} {assignments : List (κ × ν)}

def empty : OrderedMap cmp ν := ⟨[], List.Pairwise.nil⟩

def set (map : OrderedMap cmp ν) (key : κ) (value : ν) : OrderedMap cmp ν :=
  ⟨assign cmp key value map.entries, sorted_assign map.sorted⟩

/-- The value of a key. -/
def get (map : OrderedMap cmp ν) (key : κ) : Option ν := (find cmp key map.entries).map Prod.snd

/-- Assignments one after the other. -/
def setAll (map : OrderedMap cmp ν) (assignments : List (κ × ν)) : OrderedMap cmp ν :=
  assignments.foldl (fun map a => map.set a.1 a.2) map

omit [Std.TransCmp cmp] in
@[simp] theorem get_empty : (empty : OrderedMap cmp ν).get key = none := rfl

theorem get_set : (map.set key value).get key' =
    if cmp key' key = .eq then some value else map.get key' := by
  rw [get, set]
  split
  · next heq => rw [find_assign_of_eq heq map.sorted, Option.map_some]
  · next hne => rw [find_assign_of_ne hne, get]

/-- The last assignment to a key counts. -/
theorem get_setAll : (map.setAll assignments).get key =
    ((assignments.reverse.find? fun a => cmp key a.1 = .eq).map Prod.snd).or (map.get key) := by
  induction assignments using List.reverseRecOn with
  | nil => rfl
  | append_singleton assignments a ih =>
    rw [setAll, List.foldl_append, List.foldl_cons, List.foldl_nil, get_set, ← setAll, ih,
      List.reverse_append, List.reverse_singleton, List.singleton_append, List.find?_cons]
    split
    · next heq => simp [heq]
    · next hne => simp [hne]

/-- Where only the same keys are taken for the same, all entries were assigned as they are. -/
theorem mem_setAll [Std.LawfulEqCmp cmp] {entry : κ × ν}
    (h : entry ∈ (map.setAll assignments).entries) : entry ∈ map.entries ∨ entry ∈ assignments := by
  induction assignments using List.reverseRecOn with
  | nil => exact .inl h
  | append_singleton assignments a ih =>
    rw [setAll, List.foldl_append, List.foldl_cons, List.foldl_nil] at h
    obtain h | rfl | ⟨heq, hvalue⟩ := mem_assign h
    · exact (ih h).imp_right (List.mem_append_left _)
    · exact .inr (List.mem_append_right _ (List.mem_singleton_self _))
    · have hentry : entry = a := Prod.ext (Std.LawfulEqCmp.eq_of_compare heq).symm hvalue
      exact .inr (List.mem_append_right _ (List.mem_singleton.mpr hentry))

omit [Std.TransCmp cmp] in
theorem assign_last {entries : List (κ × ν)} (h : ∀ entry ∈ entries, cmp key entry.1 = .gt) :
    assign cmp key value entries = entries ++ [(key, value)] := by
  induction entries with
  | nil => rfl
  | cons entry entries ih =>
    obtain ⟨hentry, hrest⟩ := List.forall_mem_cons.mp h
    rw [assign, hentry]
    exact congrArg (entry :: ·) (ih hrest)

/-- A map is what the assignments of its entries make. -/
theorem setAll_entries (map : OrderedMap cmp ν) :
    (empty : OrderedMap cmp ν).setAll map.entries = map := by
  obtain ⟨entries, hsorted⟩ := map
  have hall : ((empty : OrderedMap cmp ν).setAll entries).entries = entries := by
    induction entries using List.reverseRecOn with
    | nil => rfl
    | append_singleton entries entry ih =>
      obtain ⟨hfirst, -, hlast⟩ := List.pairwise_append.mp hsorted
      rw [setAll, List.foldl_append, List.foldl_cons, List.foldl_nil, ← setAll]
      show assign cmp entry.1 entry.2 (setAll _ entries).entries = _
      rw [ih hfirst]
      refine assign_last fun first hmem => Std.OrientedCmp.gt_of_lt ?_
      exact hlast first hmem entry (List.mem_singleton_self _)
  cases hmap : (empty : OrderedMap cmp ν).setAll entries
  rw [hmap] at hall
  cases hall
  rfl

omit [Std.TransCmp cmp] in
/-- No two entries have keys that are taken for the same. -/
theorem entries_distinct (map : OrderedMap cmp ν) :
    map.entries.Pairwise fun a b => cmp a.1 b.1 ≠ .eq :=
  map.sorted.imp fun hlt heq => by rw [hlt] at heq; cases heq

end OrderedMap
