import Mathlib.Data.List.DropRight
import Mathlib.Data.List.Nodup
import Mathlib.Data.List.Range
import Mathlib.Tactic.Common

/-! A stack of weak references. What they refer to may be gone; such entries are taken away when
they are met. -/
namespace WeakStack
variable {α : Type*}

section
variable (alive : α → Bool)

/-- The stack without the dead entries on top. -/
def prune (stack : List α) : List α := stack.rdropWhile fun x => !alive x

/-- The entry on top, once the dead ones are gone. -/
def current (stack : List α) : Option α := (prune alive stack).getLast?

/-- Take `x` away, and the dead entries that are met from the bottom on. -/
def release [DecidableEq α] (x : α) : List α → List α
  | [] => []
  | y :: rest =>
    if alive y then if y = x then rest else y :: release x rest
    else release x rest

end

variable {alive : α → Bool} {stack : List α}

theorem prune_concat (stack : List α) (x : α) :
    prune alive (stack ++ [x]) = if alive x then stack ++ [x] else prune alive stack := by
  cases hx : alive x with
  | true => exact List.rdropWhile_concat_neg _ _ _ (by simp [hx])
  | false => exact List.rdropWhile_concat_pos _ _ _ (by simp [hx])

theorem filter_concat (stack : List α) (x : α) : (stack ++ [x]).filter alive =
    if alive x then stack.filter alive ++ [x] else stack.filter alive := by
  rw [List.filter_append, List.filter_singleton]
  cases alive x with
  | true => rfl
  | false => exact List.append_nil _

theorem filter_prune (stack : List α) : (prune alive stack).filter alive = stack.filter alive := by
  induction stack using List.reverseRecOn with
  | nil => rfl
  | append_singleton stack x ih =>
    rw [prune_concat]
    split
    case isTrue => rfl
    case isFalse hx => rw [filter_concat, if_neg hx, ih]

/-- The entry on top is the last one that is alive. -/
theorem current_eq (stack : List α) : current alive stack = (stack.filter alive).getLast? := by
  induction stack using List.reverseRecOn with
  | nil => rfl
  | append_singleton stack x ih =>
    rw [current, prune_concat, filter_concat]
    split
    case isTrue => rw [List.getLast?_concat, List.getLast?_concat]
    case isFalse => exact ih

theorem mem_of_mem_prune {x : α} (h : x ∈ prune alive stack) : x ∈ stack :=
  (List.rdropWhile_prefix _ _).subset h

section
variable [DecidableEq α]

theorem filter_release (x : α) (stack : List α) :
    (release alive x stack).filter alive = (stack.filter alive).erase x := by
  induction stack with
  | nil => rfl
  | cons y rest ih =>
    rw [release]
    split
    case isTrue hy =>
      rw [List.filter_cons_of_pos hy]
      split
      case isTrue hyx => rw [hyx, List.erase_cons_head]
      case isFalse hyx =>
        rw [List.filter_cons_of_pos hy, ih, List.erase_cons_tail (by simpa using hyx)]
    case isFalse hy => rw [List.filter_cons_of_neg hy, ih]

theorem mem_of_mem_release {x y : α} (h : y ∈ release alive x stack) : y ∈ stack := by
  induction stack with
  | nil => exact h
  | cons z rest ih =>
    rw [release] at h
    split at h
    · split at h
      · exact List.mem_cons_of_mem z h
      · rcases List.mem_cons.mp h with heq | hrest
        · exact heq ▸ List.mem_cons_self
        · exact List.mem_cons_of_mem z (ih hrest)
    · exact List.mem_cons_of_mem z (ih h)

/-- Without one member, two filtered lists that are the same stay the same. -/
theorem filter_without {p q : α → Bool} {l m : List α} (h : l.filter p = m.filter q) (x : α) :
    l.filter (fun y => if y = x then false else p y) =
      m.filter fun y => if y = x then false else q y := by
  have hsplit : ∀ (p : α → Bool) (l : List α),
      l.filter (fun y => if y = x then false else p y) = (l.filter p).filter (· != x) := by
    intro p l
    rw [List.filter_filter]
    apply List.filter_congr
    intro y _
    by_cases hy : y = x
    · simp [hy]
    · simp [hy]
  rw [hsplit, hsplit, h]

theorem erase_filter {p : α → Bool} {l : List α} (h : (l.filter p).Nodup) (x : α) :
    (l.filter p).erase x = l.filter fun y => if y = x then false else p y := by
  rw [h.erase_eq_filter, List.filter_filter]
  apply List.filter_congr
  intro y _
  by_cases hy : y = x
  · simp [hy]
  · simp [hy]

end

/-- The greatest number with a property, or none if there is none. -/
def Latest (p : Nat → Bool) : Option Nat → Prop
  | some i => p i = true ∧ ∀ j, p j = true → j ≤ i
  | none => ∀ j, p j = false

theorem latest_getLast? {p : Nat → Bool} {n : Nat} (hp : ∀ i, p i = true → i < n) :
    Latest p ((List.range n).filter p).getLast? := by
  have hmem : ∀ i, p i = true → i ∈ (List.range n).filter p := fun i hi =>
    List.mem_filter.mpr ⟨List.mem_range.mpr (hp i hi), hi⟩
  cases hlast : ((List.range n).filter p).getLast? with
  | none =>
    rw [List.getLast?_eq_none_iff] at hlast
    intro j
    rw [Bool.eq_false_iff]
    intro hj
    have hnil := hmem j hj
    rw [hlast] at hnil
    cases hnil
  | some i =>
    obtain ⟨earlier, hsplit⟩ := List.getLast?_eq_some_iff.mp hlast
    have hsorted : ((List.range n).filter p).Pairwise (· < ·) :=
      List.pairwise_lt_range.sublist List.filter_sublist
    refine ⟨(List.mem_filter.mp (List.mem_of_getLast? hlast)).2, fun j hj => ?_⟩
    have hmem' := hmem j hj
    rw [hsplit] at hsorted hmem'
    rcases List.mem_append.mp hmem' with hearlier | heq
    · exact Nat.le_of_lt ((List.pairwise_append.mp hsorted).2.2 j hearlier i
        (List.mem_singleton_self i))
    · exact (List.mem_singleton.mp heq).le

end WeakStack
