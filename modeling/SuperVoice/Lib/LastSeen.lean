import Mathlib.Data.List.Induction
import Mathlib.Data.List.Nodup

/-! Changes in a history of sightings: each value is seen under a key and is a change when the last
value seen under that key was another one. -/
namespace LastSeen
variable {α κ : Type*} [DecidableEq κ] (key : α → κ)

/-- The last value seen under a key. -/
def latest (history : List α) (k : κ) : Option α := history.reverse.find? (key · = k)

variable {key} {history seen : List α} {a : α} {k : κ}

theorem latest_append :
    latest key (history ++ seen) k = (latest key seen k).or (latest key history k) := by
  rw [latest, List.reverse_append, List.find?_append]
  rfl

theorem latest_concat : latest key (history ++ [a]) k =
    if key a = k then some a else latest key history k := by
  rw [latest_append]
  by_cases hk : key a = k <;> simp [latest, hk]

/-- What was not seen again is still the last. -/
theorem latest_append_of_unseen (h : ∀ b ∈ seen, key b ≠ k) :
    latest key (history ++ seen) k = latest key history k := by
  have hnone : latest key seen k = none :=
    List.find?_eq_none.mpr fun b hb hk => h b (List.mem_reverse.mp hb) (of_decide_eq_true hk)
  rw [latest_append, hnone, Option.none_or]

/-- What was seen again unchanged is still the last. -/
theorem latest_append_of_same (h : latest key history (key a) = some a)
    (hsame : ∀ b ∈ seen, key b = key a → b = a) :
    latest key (history ++ seen) (key a) = some a := by
  induction seen using List.reverseRecOn with
  | nil => rwa [List.append_nil]
  | append_singleton seen b ih =>
    have hb := hsame b (List.mem_append_right _ List.mem_cons_self)
    rw [← List.append_assoc, latest_concat]
    by_cases hk : key b = key a
    · rw [if_pos hk, hb hk]
    · rw [if_neg hk]
      exact ih fun c hc => hsame c (List.mem_append_left _ hc)

/-- Where keys are distinct, what was seen is the last under its key. -/
theorem latest_of_mem (hdistinct : (seen.map key).Nodup) (ha : a ∈ seen) :
    latest key (history ++ seen) (key a) = some a := by
  obtain ⟨before, after, rfl⟩ := List.append_of_mem ha
  rw [List.map_append, List.map_cons, List.nodup_append, List.nodup_cons] at hdistinct
  have hunseen : ∀ b ∈ after, key b ≠ key a := by
    intro b hb hk
    exact hdistinct.2.1.1 (hk ▸ List.mem_map_of_mem hb)
  have hsplit : history ++ (before ++ a :: after) = (history ++ before ++ [a]) ++ after := by
    simp
  rw [hsplit, latest_append_of_unseen hunseen, latest_concat, if_pos rfl]

/-- A value seen in one batch is the last under its key as long as no other is seen. -/
theorem latest_flatten_take {batches : List (List α)} {i j : Nat}
    (hdistinct : (seen.map key).Nodup) (hi : batches[i]? = some seen) (ha : a ∈ seen) (hij : i < j)
    (hsame : ∀ m batch, i < m → m < j → batches[m]? = some batch →
      ∀ b ∈ batch, key b = key a → b = a) :
    latest key (batches.take j).flatten (key a) = some a := by
  have hsplit : batches.take j = batches.take i ++ [seen] ++ (batches.take j).drop (i + 1) := by
    have hfirst : (batches.take j).take (i + 1) = batches.take i ++ [seen] := by
      rw [List.take_take, Nat.min_eq_left hij, List.take_add_one, hi, Option.toList_some]
    rw [← hfirst, List.take_append_drop]
  rw [hsplit, List.flatten_append, List.flatten_append, List.flatten_singleton]
  apply latest_append_of_same (latest_of_mem hdistinct ha)
  intro b hb hk
  obtain ⟨batch, hbatch, hb⟩ := List.mem_flatten.mp hb
  obtain ⟨m, hm⟩ := List.mem_iff_getElem?.mp hbatch
  rw [List.getElem?_drop, List.getElem?_take] at hm
  split at hm
  · exact hsame (i + 1 + m) batch (by omega) ‹_› hm b hb hk
  · cases hm

variable [DecidableEq α] (key)

/-- The changes in `seen`, in order, behind a history. -/
def changes (history : List α) : List α → List α
  | [] => []
  | a :: seen =>
    if latest key history (key a) = some a then changes (history ++ [a]) seen
    else a :: changes (history ++ [a]) seen

variable {key}

theorem mem_of_mem_changes (h : a ∈ changes key history seen) : a ∈ seen := by
  induction seen generalizing history with
  | nil => exact h
  | cons b seen ih =>
    rw [changes] at h
    split at h
    · exact List.mem_cons_of_mem b (ih h)
    · obtain rfl | h := List.mem_cons.mp h
      · exact List.mem_cons_self
      · exact List.mem_cons_of_mem b (ih h)

/-- Where keys are distinct, the changes are what the history does not end with. -/
theorem mem_changes (hdistinct : (seen.map key).Nodup) :
    a ∈ changes key history seen ↔ a ∈ seen ∧ latest key history (key a) ≠ some a := by
  induction seen generalizing history with
  | nil => simp [changes]
  | cons b seen ih =>
    obtain ⟨hfirst, hrest⟩ := List.nodup_cons.mp hdistinct
    by_cases hab : a = b
    · subst hab
      have hnot : a ∉ changes key (history ++ [a]) seen := fun ha =>
        hfirst (List.mem_map_of_mem (mem_of_mem_changes ha))
      rw [changes]
      split <;> simp_all
    · have hlast : a ∈ seen →
          latest key (history ++ [b]) (key a) = latest key history (key a) := by
        intro ha
        have hk : key b ≠ key a := fun hk => hfirst (hk ▸ List.mem_map_of_mem ha)
        rw [latest_concat, if_neg hk]
      have hiff : a ∈ changes key history (b :: seen) ↔ a ∈ changes key (history ++ [b]) seen := by
        rw [changes]
        split
        · rfl
        · exact List.mem_cons.trans (or_iff_right hab)
      rw [hiff, ih hrest, List.mem_cons, or_iff_right hab]
      exact and_congr_right fun ha => by rw [hlast ha]

end LastSeen
