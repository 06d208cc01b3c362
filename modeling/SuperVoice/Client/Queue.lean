import SuperVoice.Lib.Linear
import SuperVoice.Lib.Pool
import SuperVoice.Lib.Transition

/-! `BoundedBlockingQueue`: any number of threads inside its operations, one mutex and two condition
variables. A thread that waits for a condition variable goes on when it is notified or wakes up
spuriously, and then has to lock the mutex again. -/
namespace SuperVoice.Client
open Transition

inductive Condition where
  | notEmpty
  | notFull
  deriving DecidableEq

inductive Operation (T : Type) where
  | push (value : T)
  | pop
  | close
  | closed
  | size
  deriving DecidableEq

inductive Outcome (T : Type) where
  | pushed (accepted : Bool)
  | popped (value : Option T)
  | done
  | flag (closed : Bool)
  | count (size : Nat)
  deriving DecidableEq

/-- Where a thread stands in its operation. -/
inductive Stage (T : Type) where
  /-- About to lock `mutex_`, also on the way back from a wait. -/
  | locking
  /-- The mutex is held and the predicate of the wait comes next. -/
  | testing
  /-- The predicate was false; the mutex is held, the wait not yet entered. -/
  | deciding
  | waiting
  /-- The mutex is held and the body comes next. -/
  | resumed
  /-- The body is done and `notify_one` comes next; the mutex is held. -/
  | notifying (cond : Condition) (outcome : Outcome T)
  | unlocking (outcome : Outcome T)
  /-- `close` has released the mutex and notifies all that wait for the condition. -/
  | notifyingAll (cond : Condition) (outcome : Outcome T)
  | returning (outcome : Outcome T)
  deriving DecidableEq

structure QueueThread (T : Type) where
  id : Nat
  op : Operation T
  stage : Stage T
  deriving DecidableEq

structure BoundedBlockingQueue (T : Type) where
  queue : List T
  closed : Bool
  /-- `mutex_` is held. -/
  locked : Bool
  threads : List (QueueThread T)
  /-- The number of operations begun so far. -/
  calls : Nat
  trace : Linear.Trace Nat (Operation T) (Outcome T)

inductive QueueAction (T : Type) where
  | call (op : Operation T)
  /-- The next step of thread `i`; a `notify_one` reaches the waiting thread at place `j` among
  the others. -/
  | advance (i : Nat) (j : Nat)
  /-- Thread `i` wakes up without having been notified. -/
  | wake (i : Nat)

/-- Some thread already inside an operation goes on. -/
def QueueAction.Advances {T : Type} : QueueAction T → Prop
  | .advance _ _ => True
  | _ => False

variable {T : Type}

/-- The condition variable an operation may wait for. -/
def Operation.waitsFor : Operation T → Option Condition
  | .push _ => some .notFull
  | .pop => some .notEmpty
  | _ => none

/-- The condition variable on which `notify_one` is called. -/
def Outcome.notifies : Outcome T → Option Condition
  | .pushed true => some .notEmpty
  | .popped (some _) => some .notFull
  | _ => none

namespace QueueThread

/-- The thread holds `mutex_`. -/
def holds (t : QueueThread T) : Bool :=
  match t.stage with
  | .testing | .deciding | .resumed | .notifying .. | .unlocking _ => true
  | _ => false

/-- The thread is in the set of those that wait for a condition variable. -/
def waitsOn (cond : Condition) (t : QueueThread T) : Bool :=
  match t.stage with
  | .waiting => t.op.waitsFor == some cond
  | _ => false

def awake (t : QueueThread T) : QueueThread T := { t with stage := .locking }

end QueueThread

namespace BoundedBlockingQueue

def start : BoundedBlockingQueue T where
  queue := []
  closed := false
  locked := false
  threads := []
  calls := 0
  trace := []

/-- Notify one of the threads in `others` that wait for the condition: the one at place `j`. -/
def notifyOne (cond : Condition) (j : Nat) (others : List (QueueThread T)) :
    Option (List (QueueThread T)) :=
  if others.any (QueueThread.waitsOn cond) then
    (Pool.take others j).bind fun (w, rest) =>
      if w.waitsOn cond then some (w.awake :: rest) else none
  else some others

def notifyAll (cond : Condition) (others : List (QueueThread T)) : List (QueueThread T) :=
  others.map fun w => if w.waitsOn cond then w.awake else w

variable (capacity : Nat)

/-- The predicates of the two waits. -/
def ready (q : BoundedBlockingQueue T) : Operation T → Bool
  | .push _ => q.closed || q.queue.length < capacity
  | .pop => q.closed || !q.queue.isEmpty
  | _ => true

/-- What an operation does while it holds the mutex and need not wait. -/
def perform (q : BoundedBlockingQueue T) : Operation T → Outcome T × BoundedBlockingQueue T
  | .push value =>
    if q.closed then (.pushed false, q)
    else (.pushed true, { q with queue := q.queue ++ [value] })
  | .pop =>
    match q.queue with
    | [] => (.popped none, q)
    | value :: queue => (.popped (some value), { q with queue })
  | .close => (.done, { q with closed := true })
  | .closed => (.flag q.closed, q)
  | .size => (.count q.queue.length, q)

/-- The next step of thread `t`, which has been taken out of the others. -/
def advance (q : BoundedBlockingQueue T) (j : Nat) (t : QueueThread T)
    (others : List (QueueThread T)) : Option (BoundedBlockingQueue T) :=
  let goes (stage : Stage T) := { t with stage } :: others
  match t.stage with
  | .locking =>
    if q.locked then none
    else some { q with
      locked := true
      threads := goes (if t.op.waitsFor = none then .resumed else .testing) }
  | .testing => some { q with threads := goes (if q.ready capacity t.op then .resumed else .deciding) }
  | .deciding => some { q with locked := false, threads := goes .waiting }
  | .waiting => none
  | .resumed =>
    let (outcome, q') := q.perform t.op
    some { q' with
      threads := goes (match outcome.notifies with
        | some cond => .notifying cond outcome
        | none => .unlocking outcome)
      trace := q.trace ++ [.inr ⟨t.id, t.op, outcome⟩] }
  | .notifying cond outcome =>
    (notifyOne cond j others).map fun others =>
      { q with threads := { t with stage := .unlocking outcome } :: others }
  | .unlocking outcome =>
    some { q with
      locked := false
      threads := goes (match t.op with
        | .close => .notifyingAll .notEmpty outcome
        | _ => .returning outcome) }
  | .notifyingAll cond outcome =>
    let stage := match cond with
      | .notEmpty => .notifyingAll .notFull outcome
      | .notFull => .returning outcome
    some { q with threads := { t with stage } :: notifyAll cond others }
  | .returning outcome =>
    some { q with threads := others, trace := q.trace ++ [.inl (.ret t.id outcome)] }

def step (q : BoundedBlockingQueue T) : QueueAction T → Option (BoundedBlockingQueue T)
  | .call op =>
    some { q with
      threads := ⟨q.calls, op, .locking⟩ :: q.threads
      calls := q.calls + 1
      trace := q.trace ++ [.inl (.call q.calls op)] }
  | .advance i j => (Pool.take q.threads i).bind fun (t, others) => q.advance capacity j t others
  | .wake i =>
    (Pool.take q.threads i).bind fun (t, others) =>
      match t.stage with
      | .waiting => some { q with threads := t.awake :: others }
      | _ => none

/-- Everything a thread can do once it has been taken out of the others. -/
inductive Advances : BoundedBlockingQueue T → QueueThread T → List (QueueThread T) →
    BoundedBlockingQueue T → Prop where
  | locks {q : BoundedBlockingQueue T} {id : Nat} {op : Operation T}
      {others : List (QueueThread T)} {stage : Stage T} (hfree : q.locked = false)
      (hstage : stage = .testing ∧ op.waitsFor ≠ none ∨ stage = .resumed ∧ op.waitsFor = none) :
      Advances q ⟨id, op, .locking⟩ others { q with
        locked := true
        threads := ⟨id, op, stage⟩ :: others }
  | passes {q : BoundedBlockingQueue T} {id : Nat} {op : Operation T}
      {others : List (QueueThread T)} (h : q.ready capacity op = true) :
      Advances q ⟨id, op, .testing⟩ others { q with threads := ⟨id, op, .resumed⟩ :: others }
  | decides {q : BoundedBlockingQueue T} {id : Nat} {op : Operation T}
      {others : List (QueueThread T)} (h : q.ready capacity op = false) :
      Advances q ⟨id, op, .testing⟩ others { q with threads := ⟨id, op, .deciding⟩ :: others }
  | waits {q : BoundedBlockingQueue T} {id : Nat} {op : Operation T}
      {others : List (QueueThread T)} :
      Advances q ⟨id, op, .deciding⟩ others { q with
        locked := false
        threads := ⟨id, op, .waiting⟩ :: others }
  | performs {q q' : BoundedBlockingQueue T} {id : Nat} {op : Operation T}
      {others : List (QueueThread T)} {outcome : Outcome T} {stage : Stage T}
      (h : q.perform op = (outcome, q'))
      (hstage : outcome.notifies = none ∧ stage = .unlocking outcome ∨
        ∃ cond, outcome.notifies = some cond ∧ stage = .notifying cond outcome) :
      Advances q ⟨id, op, .resumed⟩ others { q' with
        threads := ⟨id, op, stage⟩ :: others
        trace := q.trace ++ [.inr ⟨id, op, outcome⟩] }
  | notifies {q : BoundedBlockingQueue T} {id : Nat} {op : Operation T} {cond : Condition}
      {outcome : Outcome T} {others others' : List (QueueThread T)} {j : Nat}
      (h : notifyOne cond j others = some others') :
      Advances q ⟨id, op, .notifying cond outcome⟩ others
        { q with threads := ⟨id, op, .unlocking outcome⟩ :: others' }
  | unlocks {q : BoundedBlockingQueue T} {id : Nat} {op : Operation T} {outcome : Outcome T}
      {others : List (QueueThread T)} {stage : Stage T}
      (hstage : op = .close ∧ stage = .notifyingAll .notEmpty outcome ∨
        op ≠ .close ∧ stage = .returning outcome) :
      Advances q ⟨id, op, .unlocking outcome⟩ others { q with
        locked := false
        threads := ⟨id, op, stage⟩ :: others }
  | notifiesEmpty {q : BoundedBlockingQueue T} {id : Nat} {op : Operation T}
      {outcome : Outcome T} {others : List (QueueThread T)} :
      Advances q ⟨id, op, .notifyingAll .notEmpty outcome⟩ others { q with
        threads := ⟨id, op, .notifyingAll .notFull outcome⟩ :: notifyAll .notEmpty others }
  | notifiesFull {q : BoundedBlockingQueue T} {id : Nat} {op : Operation T}
      {outcome : Outcome T} {others : List (QueueThread T)} :
      Advances q ⟨id, op, .notifyingAll .notFull outcome⟩ others { q with
        threads := ⟨id, op, .returning outcome⟩ :: notifyAll .notFull others }
  | returns {q : BoundedBlockingQueue T} {id : Nat} {op : Operation T} {outcome : Outcome T}
      {others : List (QueueThread T)} :
      Advances q ⟨id, op, .returning outcome⟩ others
        { q with threads := others, trace := q.trace ++ [.inl (.ret id outcome)] }

/-- Everything a step can do. -/
inductive Moves : BoundedBlockingQueue T → QueueAction T → BoundedBlockingQueue T → Prop where
  | calls {q : BoundedBlockingQueue T} {op : Operation T} :
      Moves q (.call op) { q with
        threads := ⟨q.calls, op, .locking⟩ :: q.threads
        calls := q.calls + 1
        trace := q.trace ++ [.inl (.call q.calls op)] }
  | advances {q q' : BoundedBlockingQueue T} {i j : Nat} {t : QueueThread T}
      {others : List (QueueThread T)} (ht : Pool.take q.threads i = some (t, others))
      (h : Advances capacity q t others q') : Moves q (.advance i j) q'
  | wakes {q : BoundedBlockingQueue T} {i id : Nat} {op : Operation T}
      {others : List (QueueThread T)}
      (ht : Pool.take q.threads i = some (⟨id, op, .waiting⟩, others)) :
      Moves q (.wake i) { q with threads := ⟨id, op, .locking⟩ :: others }

variable {capacity}

theorem advances_of_advance {q q' : BoundedBlockingQueue T} {j : Nat} {t : QueueThread T}
    {others : List (QueueThread T)} (h : q.advance capacity j t others = some q') :
    Advances capacity q t others q' := by
  obtain ⟨id, op, stage⟩ := t
  cases stage with
  | locking =>
    simp only [advance] at h
    split at h
    · cases h
    · next hfree =>
      cases h
      refine .locks (Bool.eq_false_iff.mpr hfree) ?_
      by_cases hop : op.waitsFor = none
      · rw [if_pos hop]
        exact .inr ⟨rfl, hop⟩
      · rw [if_neg hop]
        exact .inl ⟨rfl, hop⟩
  | testing =>
    cases h
    by_cases hready : q.ready capacity op = true
    · rw [if_pos hready]
      exact .passes hready
    · rw [if_neg hready]
      exact .decides (Bool.eq_false_iff.mpr hready)
  | deciding =>
    cases h
    exact .waits
  | waiting => cases h
  | resumed =>
    simp only [advance] at h
    generalize hp : q.perform op = p at h
    obtain ⟨outcome, q₁⟩ := p
    cases h
    refine .performs hp ?_
    cases hn : outcome.notifies with
    | none => exact .inl ⟨rfl, rfl⟩
    | some cond => exact .inr ⟨cond, rfl, rfl⟩
  | notifying cond outcome =>
    obtain ⟨others', hothers, rfl⟩ := Option.map_eq_some_iff.mp h
    exact .notifies hothers
  | unlocking outcome =>
    cases h
    refine .unlocks ?_
    cases op with
    | close => exact .inl ⟨rfl, rfl⟩
    | _ => exact .inr ⟨by simp, rfl⟩
  | notifyingAll cond outcome =>
    cases h
    cases cond with
    | notEmpty => exact .notifiesEmpty
    | notFull => exact .notifiesFull
  | returning outcome =>
    cases h
    exact .returns

theorem moves_of_step {q q' : BoundedBlockingQueue T} {a : QueueAction T}
    (h : q.step capacity a = some q') : Moves capacity q a q' := by
  cases a with
  | call op =>
    cases h
    exact .calls
  | advance i j =>
    obtain ⟨⟨t, others⟩, ht, hadvance⟩ := Option.bind_eq_some_iff.mp h
    exact .advances ht (advances_of_advance hadvance)
  | wake i =>
    obtain ⟨⟨⟨id, op, stage⟩, others⟩, ht, hwake⟩ := Option.bind_eq_some_iff.mp h
    cases stage with
    | waiting =>
      cases hwake
      exact .wakes ht
    | _ => cases hwake

/-- Some threads of `others` that were waiting have been woken up. -/
structure Woken (others others' : List (QueueThread T)) : Prop where
  mem : ∀ w ∈ others', w ∈ others ∨ ∃ v ∈ others, v.stage = .waiting ∧ w = v.awake
  keep : ∀ w ∈ others, w.stage ≠ .waiting → w ∈ others'
  ids : (others'.map QueueThread.id).Perm (others.map QueueThread.id)
  sum_eq : ∀ f : QueueThread T → Nat, (∀ v, v.stage = .waiting → f v.awake = f v) →
    (others'.map f).sum = (others.map f).sum
  sum_le : ∀ f : QueueThread T → Nat, (∀ v, v.stage = .waiting → f v ≤ f v.awake) →
    (others.map f).sum ≤ (others'.map f).sum

theorem woken_refl (others : List (QueueThread T)) : Woken others others :=
  ⟨fun _ hw => .inl hw, fun _ hw _ => hw, .refl _, fun _ _ => rfl, fun _ _ => Nat.le_refl _⟩

theorem waiting_of_waitsOn {cond : Condition} {t : QueueThread T} (h : t.waitsOn cond = true) :
    t.stage = .waiting := by
  obtain ⟨id, op, stage⟩ := t
  cases stage <;> first | rfl | cases h

theorem notifyOne_cases {cond : Condition} {j : Nat} {others others' : List (QueueThread T)}
    (h : notifyOne cond j others = some others') :
    others' = others ∧ (∀ w ∈ others, w.waitsOn cond = false) ∨
      ∃ w rest, others.Perm (w :: rest) ∧ w.waitsOn cond = true ∧ others' = w.awake :: rest := by
  unfold notifyOne at h
  split at h
  · obtain ⟨⟨w, rest⟩, ht, hw⟩ := Option.bind_eq_some_iff.mp h
    dsimp only at hw
    split at hw
    · next hwaits =>
      cases hw
      exact .inr ⟨w, rest, Pool.perm_of_take ht, hwaits, rfl⟩
    · cases hw
  · next hnone =>
    cases h
    refine .inl ⟨rfl, fun w hw => ?_⟩
    exact Bool.eq_false_iff.mpr fun hwaits => hnone (List.any_eq_true.mpr ⟨w, hw, hwaits⟩)

theorem woken_notifyOne {cond : Condition} {j : Nat} {others others' : List (QueueThread T)}
    (h : notifyOne cond j others = some others') : Woken others others' := by
  obtain ⟨rfl, -⟩ | ⟨w, rest, hperm, hw, rfl⟩ := notifyOne_cases h
  · exact woken_refl _
  · have hsum : ∀ f : QueueThread T → Nat, (others.map f).sum = f w + (rest.map f).sum := by
      intro f
      rw [(hperm.map f).sum_eq, List.map_cons, List.sum_cons]
    refine ⟨fun v hv => ?_, fun v hv hs => ?_, (hperm.map QueueThread.id).symm, fun f hf => ?_,
      fun f hf => ?_⟩
    · cases hv with
      | head => exact .inr ⟨w, hperm.mem_iff.mpr List.mem_cons_self, waiting_of_waitsOn hw, rfl⟩
      | tail _ hv => exact .inl (hperm.mem_iff.mpr (List.mem_cons_of_mem _ hv))
    · obtain rfl | hv := List.mem_cons.mp (hperm.mem_iff.mp hv)
      · exact absurd (waiting_of_waitsOn hw) hs
      · exact List.mem_cons_of_mem _ hv
    · rw [hsum, List.map_cons, List.sum_cons, hf w (waiting_of_waitsOn hw)]
    · have := hf w (waiting_of_waitsOn hw)
      rw [hsum, List.map_cons, List.sum_cons]
      omega

theorem woken_notifyAll (cond : Condition) (others : List (QueueThread T)) :
    Woken others (notifyAll cond others) := by
  unfold notifyAll
  induction others with
  | nil => exact woken_refl _
  | cons v others ih =>
    refine ⟨fun w hw => ?_, fun w hw hs => ?_, ?_, fun f hf => ?_, fun f hf => ?_⟩
    · obtain hw | hw := List.mem_cons.mp hw
      · dsimp only at hw
        split at hw
        · next hv => exact .inr ⟨v, List.mem_cons_self, waiting_of_waitsOn hv, hw⟩
        · exact .inl (hw ▸ List.mem_cons_self)
      · obtain hw | ⟨u, hu, hwait, rfl⟩ := ih.mem w hw
        · exact .inl (List.mem_cons_of_mem _ hw)
        · exact .inr ⟨u, List.mem_cons_of_mem _ hu, hwait, rfl⟩
    · obtain rfl | hw := List.mem_cons.mp hw
      · rw [List.map_cons, if_neg fun hwaits => hs (waiting_of_waitsOn hwaits)]
        exact List.mem_cons_self
      · exact List.mem_cons_of_mem _ (ih.keep w hw hs)
    · simp only [List.map_cons]
      split
      · exact ih.ids.cons _
      · exact ih.ids.cons _
    · have hrest := ih.sum_eq f hf
      simp only [List.map_cons, List.sum_cons]
      split
      · next hv => rw [hf v (waiting_of_waitsOn hv), hrest]
      · rw [hrest]
    · have hrest := ih.sum_le f hf
      simp only [List.map_cons, List.sum_cons]
      split
      · next hv =>
        have := hf v (waiting_of_waitsOn hv)
        omega
      · omega

theorem ready_of_waitsFor {q : BoundedBlockingQueue T} {op : Operation T}
    (h : op.waitsFor = none) : q.ready capacity op = true := by
  cases op <;> first | rfl | cases h

variable (capacity) in
/-- Whoever holds the mutex holds it alone, and what it has found out about its predicate still
stands. -/
structure Guarded (q : BoundedBlockingQueue T) : Prop where
  owner : (q.threads.map fun t => t.holds.toNat).sum = q.locked.toNat
  decided : ∀ t ∈ q.threads, t.stage = .deciding → q.ready capacity t.op = false
  granted : ∀ t ∈ q.threads, t.stage = .resumed → q.ready capacity t.op = true

theorem guarded_start : (start : BoundedBlockingQueue T).Guarded capacity where
  owner := rfl
  decided := nofun
  granted := nofun

/-- The holder of the mutex is alone. -/
theorem Guarded.alone {q : BoundedBlockingQueue T} {t : QueueThread T}
    {others : List (QueueThread T)} (hi : q.Guarded capacity) (ht : q.threads.Perm (t :: others))
    (h : t.holds = true) : q.locked = true ∧ ∀ w ∈ others, w.holds = false := by
  have howner := hi.owner
  rw [(ht.map _).sum_eq, List.map_cons, List.sum_cons, h] at howner
  have hlocked : q.locked = true := by
    cases hl : q.locked with
    | true => rfl
    | false =>
      rw [hl] at howner
      simp at howner
  rw [hlocked] at howner
  refine ⟨hlocked, fun w hw => ?_⟩
  have hle := Pool.le_sum_of_mem hw fun t : QueueThread T => t.holds.toNat
  cases hh : w.holds with
  | false => rfl
  | true =>
    rw [hh] at hle
    simp at howner hle
    omega

theorem Guarded.exists_holder {q : BoundedBlockingQueue T} (hi : q.Guarded capacity)
    (h : q.locked = true) : ∃ t ∈ q.threads, t.holds = true := by
  by_contra hnone
  have howner := hi.owner
  rw [h, List.sum_eq_zero] at howner
  · cases howner
  · intro n hn
    obtain ⟨t, ht, rfl⟩ := List.mem_map.mp hn
    rw [Bool.eq_false_iff.mpr fun hh => hnone ⟨t, ht, hh⟩]
    rfl

/-- What is left to show when a thread has moved on and some of the others have been woken up. -/
theorem Guarded.replace {q q' : BoundedBlockingQueue T} {t t' : QueueThread T}
    {others others' : List (QueueThread T)} (hi : q.Guarded capacity)
    (ht : q.threads.Perm (t :: others)) (hthreads : q'.threads = t' :: others')
    (hwoken : Woken others others') (hready : ∀ op, q'.ready capacity op = q.ready capacity op)
    (howner : t'.holds.toNat + q.locked.toNat = t.holds.toNat + q'.locked.toNat)
    (hdecided : t'.stage = .deciding → q.ready capacity t'.op = false)
    (hgranted : t'.stage = .resumed → q.ready capacity t'.op = true) : q'.Guarded capacity := by
  have hmem : ∀ w ∈ others, w ∈ q.threads := fun w hw => ht.mem_iff.mpr (List.mem_cons_of_mem _ hw)
  refine ⟨?_, fun w hw hs => ?_, fun w hw hs => ?_⟩
  · have h := hi.owner
    rw [(ht.map _).sum_eq, List.map_cons, List.sum_cons] at h
    have hsum := hwoken.sum_eq (fun t => t.holds.toNat) fun v hv => by
      simp [QueueThread.awake, QueueThread.holds, hv]
    rw [hthreads, List.map_cons, List.sum_cons, hsum]
    omega
  · rw [hready]
    rw [hthreads] at hw
    obtain rfl | hw := List.mem_cons.mp hw
    · exact hdecided hs
    · obtain hw | ⟨v, -, -, rfl⟩ := hwoken.mem w hw
      · exact hi.decided w (hmem w hw) hs
      · cases hs
  · rw [hready]
    rw [hthreads] at hw
    obtain rfl | hw := List.mem_cons.mp hw
    · exact hgranted hs
    · obtain hw | ⟨v, -, -, rfl⟩ := hwoken.mem w hw
      · exact hi.granted w (hmem w hw) hs
      · cases hs

/-- Everything the body of an operation can do. -/
inductive Performs : BoundedBlockingQueue T → Operation T → Outcome T → BoundedBlockingQueue T →
    Prop where
  | refuses {q : BoundedBlockingQueue T} {value : T} (h : q.closed = true) :
      Performs q (.push value) (.pushed false) q
  | accepts {q : BoundedBlockingQueue T} {value : T} (h : q.closed = false) :
      Performs q (.push value) (.pushed true) { q with queue := q.queue ++ [value] }
  | ends {q : BoundedBlockingQueue T} (h : q.queue = []) : Performs q .pop (.popped none) q
  | pops {q : BoundedBlockingQueue T} {value : T} {queue : List T} (h : q.queue = value :: queue) :
      Performs q .pop (.popped (some value)) { q with queue }
  | closes {q : BoundedBlockingQueue T} : Performs q .close .done { q with closed := true }
  | tells {q : BoundedBlockingQueue T} : Performs q .closed (.flag q.closed) q
  | counts {q : BoundedBlockingQueue T} : Performs q .size (.count q.queue.length) q

theorem performs_of_perform {q q' : BoundedBlockingQueue T} {op : Operation T}
    {outcome : Outcome T} (h : q.perform op = (outcome, q')) : Performs q op outcome q' := by
  cases op with
  | push value =>
    simp only [perform] at h
    split at h
    · next hclosed =>
      cases h
      exact .refuses hclosed
    · next hclosed =>
      cases h
      exact .accepts (Bool.eq_false_iff.mpr hclosed)
  | pop =>
    simp only [perform] at h
    split at h
    · next hq =>
      cases h
      exact .ends hq
    · next hq =>
      cases h
      exact .pops hq
  | close =>
    cases h
    exact .closes
  | closed =>
    cases h
    exact .tells
  | size =>
    cases h
    exact .counts

theorem Performs.frame {q q' : BoundedBlockingQueue T} {op : Operation T} {outcome : Outcome T}
    (h : Performs q op outcome q') : q'.locked = q.locked ∧ q'.calls = q.calls := by
  cases h <;> exact ⟨rfl, rfl⟩

theorem Advances.guarded {q q' : BoundedBlockingQueue T} {t : QueueThread T}
    {others : List (QueueThread T)} (h : Advances capacity q t others q')
    (hi : q.Guarded capacity) (ht : q.threads.Perm (t :: others)) : q'.Guarded capacity := by
  cases h with
  | locks hfree hstage =>
    obtain ⟨rfl, hop⟩ | ⟨rfl, hop⟩ := hstage
    · refine hi.replace ht rfl (woken_refl _) (fun _ => rfl) ?_ nofun nofun
      rw [hfree]
      rfl
    · refine hi.replace ht rfl (woken_refl _) (fun _ => rfl) ?_ nofun fun _ =>
        ready_of_waitsFor hop
      rw [hfree]
      rfl
  | passes hready =>
    exact hi.replace ht rfl (woken_refl _) (fun _ => rfl) rfl nofun fun _ => hready
  | decides hready =>
    exact hi.replace ht rfl (woken_refl _) (fun _ => rfl) rfl (fun _ => hready) nofun
  | waits =>
    refine hi.replace ht rfl (woken_refl _) (fun _ => rfl) ?_ nofun nofun
    rw [(hi.alone ht rfl).1]
    rfl
  | unlocks hstage =>
    have hlocked := (hi.alone ht rfl).1
    obtain ⟨-, rfl⟩ | ⟨-, rfl⟩ := hstage
    · refine hi.replace ht rfl (woken_refl _) (fun _ => rfl) ?_ nofun nofun
      rw [hlocked]
      rfl
    · refine hi.replace ht rfl (woken_refl _) (fun _ => rfl) ?_ nofun nofun
      rw [hlocked]
      rfl
  | @performs _ id op _ outcome stage hp hstage =>
    obtain ⟨hlocked, hfree⟩ := hi.alone ht rfl
    have hholds : QueueThread.holds ⟨id, op, stage⟩ = true := by
      obtain ⟨-, rfl⟩ | ⟨cond, -, rfl⟩ := hstage <;> rfl
    have hnot : ∀ w ∈ (⟨id, op, stage⟩ : QueueThread T) :: others,
        w.stage ≠ .deciding ∧ w.stage ≠ .resumed := by
      intro w hw
      obtain rfl | hw := List.mem_cons.mp hw
      · obtain ⟨-, rfl⟩ | ⟨cond, -, rfl⟩ := hstage <;> simp
      · have := hfree w hw
        constructor <;> intro hs <;> simp [QueueThread.holds, hs] at this
    refine ⟨?_, fun w hw hs => absurd hs (hnot w hw).1, fun w hw hs => absurd hs (hnot w hw).2⟩
    have howner := hi.owner
    rw [(ht.map _).sum_eq, List.map_cons, List.sum_cons] at howner
    rw [List.map_cons, List.sum_cons, hholds, (performs_of_perform hp).frame.1]
    exact howner
  | notifies hothers =>
    exact hi.replace ht rfl (woken_notifyOne hothers) (fun _ => rfl) rfl nofun nofun
  | notifiesEmpty | notifiesFull =>
    exact hi.replace ht rfl (woken_notifyAll _ _) (fun _ => rfl) rfl nofun nofun
  | returns =>
    have hmem : ∀ w ∈ others, w ∈ q.threads := fun w hw =>
      ht.mem_iff.mpr (List.mem_cons_of_mem _ hw)
    refine ⟨?_, fun w hw => hi.decided w (hmem w hw), fun w hw => hi.granted w (hmem w hw)⟩
    have howner := hi.owner
    rw [(ht.map _).sum_eq, List.map_cons, List.sum_cons] at howner
    exact (Nat.zero_add _).symm.trans howner

theorem Moves.guarded {q q' : BoundedBlockingQueue T} {a : QueueAction T}
    (h : Moves capacity q a q') (hi : q.Guarded capacity) : q'.Guarded capacity := by
  cases h with
  | calls =>
    refine ⟨(Nat.zero_add _).trans hi.owner, fun w hw hs => ?_, fun w hw hs => ?_⟩
    · obtain rfl | hw := List.mem_cons.mp hw
      · cases hs
      · exact hi.decided w hw hs
    · obtain rfl | hw := List.mem_cons.mp hw
      · cases hs
      · exact hi.granted w hw hs
  | advances ht h => exact h.guarded hi (Pool.perm_of_take ht)
  | wakes ht =>
    exact hi.replace (Pool.perm_of_take ht) rfl (woken_refl _) (fun _ => rfl) rfl nofun nofun

end BoundedBlockingQueue
end SuperVoice.Client
