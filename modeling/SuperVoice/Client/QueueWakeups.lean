import SuperVoice.Client.QueueHistory

/-! No wake-up of `BoundedBlockingQueue` is lost. As long as the queue is open, a thread that waits
for a condition is outnumbered: for each unit there is to have (an element, or a free place) some
other thread is on its way to it or about to pass the notification on. -/
namespace SuperVoice.Client
open Transition
variable {T : Type} {capacity : Nat}

namespace QueueThread

/-- The thread is going to take a unit of the condition, or to notify one that waits for it. -/
def due (cond : Condition) (t : QueueThread T) : Nat :=
  match t.stage with
  | .locking | .testing | .resumed => if t.op.waitsFor = some cond then 1 else 0
  | .notifying c _ => if c = cond then 1 else 0
  | _ => 0

/-- The thread has closed the queue and is going to notify all that wait for the condition. -/
def closing (cond : Condition) (t : QueueThread T) : Bool :=
  match t.stage with
  | .unlocking _ => (t.op matches .close)
  | .notifyingAll c _ => c = .notEmpty || c = cond
  | _ => false

theorem due_of_waiting {cond : Condition} {t : QueueThread T} (h : t.stage = .waiting) :
    t.due cond = 0 := by
  simp only [due, h]

theorem due_awake {cond : Condition} {t : QueueThread T} (h : t.waitsOn cond = true) :
    t.awake.due cond = 1 := by
  obtain ⟨id, op, stage⟩ := t
  cases stage with
  | waiting => exact if_pos (beq_iff_eq.mp h)
  | _ => cases h

theorem not_closing_of_waiting {cond : Condition} {t : QueueThread T} (h : t.stage = .waiting) :
    t.closing cond = false := by
  simp only [closing, h]

end QueueThread

namespace BoundedBlockingQueue

variable (capacity) in
/-- What there is to have of what a condition is about: elements, or free places. -/
def units (queue : List T) : Condition → Nat
  | .notEmpty => queue.length
  | .notFull => capacity - queue.length

variable (capacity) in
/-- Those that wait for the condition are not forgotten. -/
structure Heeded (cond : Condition) (q : BoundedBlockingQueue T) : Prop where
  counted : q.closed = false → (∃ t ∈ q.threads, t.waitsOn cond = true) →
    units capacity q.queue cond ≤ (q.threads.map (QueueThread.due cond)).sum
  closing : q.closed = true → (∃ t ∈ q.threads, t.waitsOn cond = true) →
    ∃ t ∈ q.threads, t.closing cond = true

theorem heeded_start (cond : Condition) : (start : BoundedBlockingQueue T).Heeded capacity cond where
  counted _ h := by
    obtain ⟨t, ht, -⟩ := h
    cases ht
  closing h := by cases h

/-- Where nobody waits there is nothing to show. -/
theorem heeded_of_none {cond : Condition} {q : BoundedBlockingQueue T}
    (h : ∀ t ∈ q.threads, t.waitsOn cond = false) : q.Heeded capacity cond := by
  have hnone : ¬∃ t ∈ q.threads, t.waitsOn cond = true := by
    intro ⟨t, ht, hw⟩
    rw [h t ht] at hw
    cases hw
  exact ⟨fun _ hw => absurd hw hnone, fun _ hw => absurd hw hnone⟩

/-- Where there is nothing to have there is nothing to show. -/
theorem heeded_of_zero {cond : Condition} {q : BoundedBlockingQueue T} (hopen : q.closed = false)
    (h : units capacity q.queue cond = 0) : q.Heeded capacity cond := by
  refine ⟨fun _ _ => ?_, fun hc => ?_⟩
  · rw [h]
    exact Nat.zero_le _
  · rw [hopen] at hc
    cases hc

theorem Woken.waitsOn {others others' : List (QueueThread T)} {cond : Condition}
    (h : Woken others others') (hw : ∃ w ∈ others', w.waitsOn cond = true) :
    ∃ w ∈ others, w.waitsOn cond = true := by
  obtain ⟨w, hw, hwaits⟩ := hw
  obtain hw | ⟨v, -, -, rfl⟩ := h.mem w hw
  · exact ⟨w, hw, hwaits⟩
  · cases hwaits

/-- Waking threads up makes none of them less due. -/
theorem Woken.due_le {others others' : List (QueueThread T)} (h : Woken others others')
    (cond : Condition) :
    (others.map (QueueThread.due cond)).sum ≤ (others'.map (QueueThread.due cond)).sum := by
  apply h.sum_le (QueueThread.due cond)
  intro v hv
  rw [QueueThread.due_of_waiting hv]
  exact Nat.zero_le _

/-- What is left to show when a thread has moved on, the queue is as it was and some of the others
have been woken up. -/
theorem Heeded.replace {cond : Condition} {q q' : BoundedBlockingQueue T} {t t' : QueueThread T}
    {others others' : List (QueueThread T)} (hi : q.Heeded capacity cond)
    (ht : q.threads.Perm (t :: others)) (hthreads : q'.threads = t' :: others')
    (hwoken : Woken others others') (hqueue : q'.queue = q.queue) (hclosed : q'.closed = q.closed)
    (hwaits : t'.waitsOn cond = false)
    (hdue : (∃ w ∈ others', w.waitsOn cond = true) →
      t.due cond + (others.map (QueueThread.due cond)).sum ≤
        t'.due cond + (others'.map (QueueThread.due cond)).sum)
    (hclosing : t.closing cond = true → t'.closing cond = true) : q'.Heeded capacity cond := by
  have hothers : (∃ w ∈ q'.threads, w.waitsOn cond = true) →
      ∃ w ∈ others', w.waitsOn cond = true := by
    intro ⟨w, hw, hwaits'⟩
    rw [hthreads] at hw
    obtain rfl | hw := List.mem_cons.mp hw
    · rw [hwaits] at hwaits'
      cases hwaits'
    · exact ⟨w, hw, hwaits'⟩
  have hbefore : (∃ w ∈ q'.threads, w.waitsOn cond = true) →
      ∃ w ∈ q.threads, w.waitsOn cond = true := by
    intro hw
    obtain ⟨v, hv, hvwaits⟩ := hwoken.waitsOn (hothers hw)
    exact ⟨v, ht.mem_iff.mpr (List.mem_cons_of_mem _ hv), hvwaits⟩
  refine ⟨fun hopen hw => ?_, fun hc hw => ?_⟩
  · have hle := hi.counted (hclosed ▸ hopen) (hbefore hw)
    rw [(ht.map _).sum_eq, List.map_cons, List.sum_cons] at hle
    have hsum := hdue (hothers hw)
    rw [hthreads, List.map_cons, List.sum_cons, hqueue]
    omega
  · obtain ⟨w, hw', hcl⟩ := hi.closing (hclosed ▸ hc) (hbefore hw)
    rw [hthreads]
    obtain rfl | hw' := List.mem_cons.mp (ht.mem_iff.mp hw')
    · exact ⟨t', List.mem_cons_self, hclosing hcl⟩
    · refine ⟨w, List.mem_cons_of_mem _ (hwoken.keep w hw' fun hs => ?_), hcl⟩
      rw [QueueThread.not_closing_of_waiting hs] at hcl
      cases hcl

/-- Where the predicate of a wait is false there is nothing to have. -/
theorem units_of_not_ready {cond : Condition} {q : BoundedBlockingQueue T} {op : Operation T}
    (h : q.ready capacity op = false) (hop : op.waitsFor = some cond) :
    q.closed = false ∧ units capacity q.queue cond = 0 := by
  cases op with
  | push value =>
    cases hop
    simp only [ready, Bool.or_eq_false_iff, decide_eq_false_iff_not] at h
    exact ⟨h.1, Nat.sub_eq_zero_of_le (Nat.le_of_not_lt h.2)⟩
  | pop =>
    cases hop
    simp only [ready, Bool.or_eq_false_iff, Bool.not_eq_false', List.isEmpty_iff] at h
    exact ⟨h.1, by simp [units, h.2]⟩
  | _ => cases hop

theorem notifyAll_waitsOn (cond : Condition) (others : List (QueueThread T)) :
    ∀ w ∈ notifyAll cond others, w.waitsOn cond = false := by
  intro w hw
  obtain ⟨v, -, rfl⟩ := List.mem_map.mp hw
  by_cases hv : v.waitsOn cond = true
  · rw [if_pos hv]
    rfl
  · rw [if_neg hv]
    exact Bool.eq_false_iff.mpr hv

/-- A notification that leaves somebody waiting has woken somebody up. -/
theorem due_le_of_notifyOne {cond : Condition} {j : Nat} {others others' : List (QueueThread T)}
    (h : notifyOne cond j others = some others') (hw : ∃ w ∈ others', w.waitsOn cond = true) :
    (others.map (QueueThread.due cond)).sum + 1 ≤ (others'.map (QueueThread.due cond)).sum := by
  obtain ⟨rfl, hnone⟩ | ⟨w, rest, hperm, hwaits, rfl⟩ := notifyOne_cases h
  · obtain ⟨w, hw, hwaits⟩ := hw
    rw [hnone w hw] at hwaits
    cases hwaits
  · rw [(hperm.map _).sum_eq, List.map_cons, List.sum_cons, List.map_cons, List.sum_cons,
      QueueThread.due_awake hwaits, QueueThread.due_of_waiting (waiting_of_waitsOn hwaits)]
    omega

/-- A closing thread is still there when another has moved on. -/
theorem Heeded.closing_others {cond : Condition} {q : BoundedBlockingQueue T} {t : QueueThread T}
    {others : List (QueueThread T)} (hi : q.Heeded capacity cond)
    (ht : q.threads.Perm (t :: others)) (hc : q.closed = true) (hnot : t.closing cond = false)
    (hw : ∃ w ∈ q.threads, w.waitsOn cond = true) : ∃ w ∈ others, w.closing cond = true := by
  obtain ⟨w, hw, hcl⟩ := hi.closing hc hw
  obtain rfl | hw := List.mem_cons.mp (ht.mem_iff.mp hw)
  · rw [hnot] at hcl
    cases hcl
  · exact ⟨w, hw, hcl⟩

/-- Whoever changes what there is to have is due for it before, or due to notify afterwards. -/
theorem Performs.units_le (id : Nat) {q q' : BoundedBlockingQueue T} {op : Operation T}
    {outcome : Outcome T} {stage : Stage T} (h : Performs q op outcome q')
    (hready : q.ready capacity op = true)
    (hstage : outcome.notifies = none ∧ stage = .unlocking outcome ∨
      ∃ c, outcome.notifies = some c ∧ stage = .notifying c outcome)
    (hopen : q'.closed = false) (cond : Condition) : q.closed = false ∧
      units capacity q'.queue cond + QueueThread.due cond ⟨id, op, .resumed⟩ ≤
        units capacity q.queue cond + QueueThread.due cond ⟨id, op, stage⟩ := by
  cases h with
  | refuses hc =>
    rw [hc] at hopen
    cases hopen
  | accepts hc =>
    obtain ⟨hn, -⟩ | ⟨c, hn, rfl⟩ := hstage
    · cases hn
    · cases hn
      have hlt : q.queue.length < capacity := by simpa [ready, hc] using hready
      refine ⟨hc, ?_⟩
      cases cond with
      | notEmpty => simp [units, QueueThread.due, Operation.waitsFor]
      | notFull =>
        simp [units, QueueThread.due, Operation.waitsFor]
        omega
  | ends hq =>
    have hc : q.closed = true := by simpa [ready, hq] using hready
    rw [hc] at hopen
    cases hopen
  | pops hq =>
    obtain ⟨hn, -⟩ | ⟨c, hn, rfl⟩ := hstage
    · cases hn
    · cases hn
      refine ⟨hopen, ?_⟩
      cases cond with
      | notEmpty => simp [units, QueueThread.due, Operation.waitsFor, hq]
      | notFull =>
        simp [units, QueueThread.due, Operation.waitsFor, hq]
        omega
  | closes => cases hopen
  | tells | counts =>
    refine ⟨hopen, ?_⟩
    simp [QueueThread.due, Operation.waitsFor]

theorem Performs.heeded {cond : Condition} {q q' : BoundedBlockingQueue T} {id : Nat}
    {op : Operation T} {outcome : Outcome T} {stage : Stage T} {others : List (QueueThread T)}
    {tr : Linear.Trace Nat (Operation T) (Outcome T)} (h : Performs q op outcome q')
    (hready : q.ready capacity op = true)
    (hstage : outcome.notifies = none ∧ stage = .unlocking outcome ∨
      ∃ c, outcome.notifies = some c ∧ stage = .notifying c outcome)
    (hi : q.Heeded capacity cond) (ht : q.threads.Perm (⟨id, op, .resumed⟩ :: others)) :
    { q' with threads := ⟨id, op, stage⟩ :: others, trace := tr }.Heeded capacity cond := by
  have hbefore : (∃ w ∈ (⟨id, op, stage⟩ : QueueThread T) :: others, w.waitsOn cond = true) →
      ∃ w ∈ q.threads, w.waitsOn cond = true := by
    intro ⟨w, hw, hwaits⟩
    obtain rfl | hw := List.mem_cons.mp hw
    · obtain ⟨-, rfl⟩ | ⟨c, -, rfl⟩ := hstage <;> cases hwaits
    · exact ⟨w, ht.mem_iff.mpr (List.mem_cons_of_mem _ hw), hwaits⟩
  refine ⟨fun hopen hw => ?_, fun hc hw => ?_⟩
  · obtain ⟨hopen', hle⟩ := h.units_le id hready hstage hopen cond
    have hcounted := hi.counted hopen' (hbefore hw)
    rw [(ht.map _).sum_eq, List.map_cons, List.sum_cons] at hcounted
    simp only [List.map_cons, List.sum_cons]
    omega
  · have hnot : QueueThread.closing cond ⟨id, op, .resumed⟩ = false := rfl
    have hothers : q.closed = true → ∃ w ∈ (⟨id, op, stage⟩ : QueueThread T) :: others,
        w.closing cond = true := by
      intro hc
      obtain ⟨w, hw, hcl⟩ := hi.closing_others ht hc hnot (hbefore hw)
      exact ⟨w, List.mem_cons_of_mem _ hw, hcl⟩
    cases h with
    | closes =>
      obtain ⟨-, rfl⟩ | ⟨c, hn, -⟩ := hstage
      · exact ⟨_, List.mem_cons_self, rfl⟩
      · cases hn
    | _ => exact hothers hc

theorem Advances.heeded {cond : Condition} {q q' : BoundedBlockingQueue T} {t : QueueThread T}
    {others : List (QueueThread T)} (h : Advances capacity q t others q')
    (hg : q.Guarded capacity) (hi : q.Heeded capacity cond) (ht : q.threads.Perm (t :: others)) :
    q'.Heeded capacity cond := by
  have ht' : t ∈ q.threads := ht.mem_iff.mpr List.mem_cons_self
  cases h with
  | locks hfree hstage =>
    obtain ⟨rfl, -⟩ | ⟨rfl, -⟩ := hstage
    · exact hi.replace ht rfl (woken_refl _) rfl rfl rfl (fun _ => Nat.le_refl _) nofun
    · exact hi.replace ht rfl (woken_refl _) rfl rfl rfl (fun _ => Nat.le_refl _) nofun
  | passes => exact hi.replace ht rfl (woken_refl _) rfl rfl rfl (fun _ => Nat.le_refl _) nofun
  | @decides id op _ hready =>
    by_cases hop : op.waitsFor = some cond
    · obtain ⟨hopen, hzero⟩ := units_of_not_ready hready hop
      exact heeded_of_zero hopen hzero
    · refine hi.replace ht rfl (woken_refl _) rfl rfl rfl (fun _ => ?_) nofun
      simp only [QueueThread.due, if_neg hop, Nat.le_refl]
  | @waits id op _ =>
    by_cases hop : op.waitsFor = some cond
    · obtain ⟨hopen, hzero⟩ := units_of_not_ready (hg.decided _ ht' rfl) hop
      exact heeded_of_zero hopen hzero
    · exact hi.replace ht rfl (woken_refl _) rfl rfl (beq_false_of_ne hop)
        (fun _ => Nat.le_refl _) nofun
  | performs hp hstage =>
    exact (performs_of_perform hp).heeded (hg.granted _ ht' rfl) hstage hi ht
  | @notifies id op c outcome _ others' j hothers =>
    refine hi.replace ht rfl (woken_notifyOne hothers) rfl rfl rfl (fun hw => ?_) nofun
    by_cases hc : c = cond
    · subst hc
      have := due_le_of_notifyOne hothers hw
      simp only [QueueThread.due, if_true]
      omega
    · have := (woken_notifyOne hothers).due_le cond
      simp only [QueueThread.due, if_neg hc]
      omega
  | unlocks hstage =>
    obtain ⟨-, rfl⟩ | ⟨hop, rfl⟩ := hstage
    · exact hi.replace ht rfl (woken_refl _) rfl rfl rfl (fun _ => Nat.le_refl _) fun _ => rfl
    · refine hi.replace ht rfl (woken_refl _) rfl rfl rfl (fun _ => Nat.le_refl _) fun hcl => ?_
      simp only [QueueThread.closing] at hcl
      cases hcl
  | notifiesEmpty =>
    cases cond with
    | notEmpty =>
      apply heeded_of_none
      intro w hw
      obtain rfl | hw := List.mem_cons.mp hw
      · rfl
      · exact notifyAll_waitsOn _ _ w hw
    | notFull =>
      exact hi.replace ht rfl (woken_notifyAll _ _) rfl rfl rfl
        (fun _ => Nat.add_le_add_left ((woken_notifyAll _ _).due_le _) _) fun _ => rfl
  | notifiesFull =>
    cases cond with
    | notEmpty =>
      exact hi.replace ht rfl (woken_notifyAll _ _) rfl rfl rfl
        (fun _ => Nat.add_le_add_left ((woken_notifyAll _ _).due_le _) _) nofun
    | notFull =>
      apply heeded_of_none
      intro w hw
      obtain rfl | hw := List.mem_cons.mp hw
      · rfl
      · exact notifyAll_waitsOn _ _ w hw
  | returns =>
    have hmem : (∃ w ∈ others, w.waitsOn cond = true) → ∃ w ∈ q.threads, w.waitsOn cond = true := by
      intro ⟨w, hw, hwaits⟩
      exact ⟨w, ht.mem_iff.mpr (List.mem_cons_of_mem _ hw), hwaits⟩
    refine ⟨fun hopen hw => ?_, fun hc hw => hi.closing_others ht hc rfl (hmem hw)⟩
    have hcounted := hi.counted hopen (hmem hw)
    rw [(ht.map _).sum_eq, List.map_cons, List.sum_cons] at hcounted
    exact Nat.le_trans hcounted (Nat.le_of_eq (Nat.zero_add _))

theorem Moves.heeded {cond : Condition} {q q' : BoundedBlockingQueue T} {a : QueueAction T}
    (h : Moves capacity q a q') (hg : q.Guarded capacity) (hi : q.Heeded capacity cond) :
    q'.Heeded capacity cond := by
  cases h with
  | @calls op =>
    have hmem : (∃ w ∈ (⟨q.calls, op, .locking⟩ : QueueThread T) :: q.threads,
        w.waitsOn cond = true) → ∃ w ∈ q.threads, w.waitsOn cond = true := by
      intro ⟨w, hw, hwaits⟩
      obtain rfl | hw := List.mem_cons.mp hw
      · cases hwaits
      · exact ⟨w, hw, hwaits⟩
    refine ⟨fun hopen hw => ?_, fun hc hw => ?_⟩
    · have hcounted := hi.counted hopen (hmem hw)
      rw [List.map_cons, List.sum_cons]
      exact Nat.le_trans hcounted (Nat.le_add_left _ _)
    · obtain ⟨w, hw', hcl⟩ := hi.closing hc (hmem hw)
      exact ⟨w, List.mem_cons_of_mem _ hw', hcl⟩
  | advances ht h => exact h.heeded hg hi (Pool.perm_of_take ht)
  | wakes ht =>
    exact hi.replace (Pool.perm_of_take ht) rfl (woken_refl _) rfl rfl rfl
      (fun _ => Nat.add_le_add_right (Nat.zero_le _) _) nofun

theorem heeded_of_reach {q : BoundedBlockingQueue T} (h : Reachable (step capacity) start q)
    (cond : Condition) : q.Heeded capacity cond := by
  refine (h.invariant (P := fun q => q.Guarded capacity ∧ q.Heeded capacity cond)
    ⟨guarded_start, heeded_start cond⟩ ?_).2
  intro q a q' hi _ hs
  have hm := moves_of_step hs
  exact ⟨hm.guarded hi.1, hm.heeded hi.1 hi.2⟩

/-- A thread that neither waits for a condition nor for the mutex can go on. -/
theorem exists_advance (capacity : Nat) {q : BoundedBlockingQueue T} {t : QueueThread T} (ht : t ∈ q.threads)
    (hwaits : t.stage ≠ .waiting) (hlocks : t.stage = .locking → q.locked = false) :
    ∃ i j q', q.step capacity (.advance i j) = some q' := by
  obtain ⟨id, op, stage⟩ := t
  obtain ⟨i, others, hi⟩ := Pool.exists_take ht
  have hnext : ∀ j, (q.advance capacity j ⟨id, op, stage⟩ others).isSome = true →
      ∃ i j q', q.step capacity (.advance i j) = some q' := by
    intro j h
    obtain ⟨q', hq'⟩ := Option.isSome_iff_exists.mp h
    exact ⟨i, j, q', step_of_advance hi hq'⟩
  cases stage with
  | locking =>
    apply hnext 0
    simp [advance, hlocks rfl]
  | waiting => exact absurd rfl hwaits
  | notifying cond outcome =>
    obtain ⟨j, others', hnotify⟩ := exists_notifyOne cond others
    apply hnext j
    simp [advance, hnotify]
  | testing | deciding | resumed | unlocking | notifyingAll | returning => exact hnext 0 rfl

/-- When nobody inside an operation can go on, everybody waits for a condition. -/
theorem Guarded.waiting_of_stuck {q : BoundedBlockingQueue T} (hg : q.Guarded capacity)
    (hstuck : Stuck (step capacity) QueueAction.Advances q) :
    ∀ t ∈ q.threads, t.stage = .waiting := by
  have hgoes : ∀ t ∈ q.threads, t.stage ≠ .waiting →
      (t.stage = .locking → q.locked = false) → False := by
    intro t ht hwaits hlocks
    obtain ⟨i, j, q', h⟩ := exists_advance (capacity) ht hwaits hlocks
    rw [hstuck (.advance i j) trivial] at h
    cases h
  have hfree : q.locked = false := by
    cases hl : q.locked with
    | false => rfl
    | true =>
      obtain ⟨t, ht, hholds⟩ := hg.exists_holder hl
      refine (hgoes t ht (fun hs => ?_) fun hs => ?_).elim
      · simp [QueueThread.holds, hs] at hholds
      · simp [QueueThread.holds, hs] at hholds
  intro t ht
  by_contra hwaits
  exact hgoes t ht hwaits fun _ => hfree

/-- No wake-up is lost: when nobody inside an operation can go on, a thread in `pop` finds the queue
empty and a thread in `push` finds it full, and the queue is open. -/
theorem no_lost_wakeup {q : BoundedBlockingQueue T} (h : Reachable (step capacity) start q)
    (hstuck : Stuck (step capacity) QueueAction.Advances q) : ∀ t ∈ q.threads,
    (t.op = .pop → q.queue = [] ∧ q.closed = false) ∧
    (∀ value, t.op = .push value → q.queue.length = capacity ∧ q.closed = false) := by
  obtain ⟨hg, hr⟩ := invariants guarded_start recorded_start h
  have hwaiting := hg.waiting_of_stuck hstuck
  have hnothing : ∀ cond, ∀ t ∈ q.threads, t.op.waitsFor = some cond →
      units capacity q.queue cond = 0 ∧ q.closed = false := by
    intro cond t ht hop
    have hheeded : q.Heeded capacity cond := heeded_of_reach h cond
    have hwaits : t.waitsOn cond = true := by
      simp only [QueueThread.waitsOn, hwaiting t ht, hop, beq_self_eq_true]
    have hopen : q.closed = false := by
      cases hc : q.closed with
      | false => rfl
      | true =>
        obtain ⟨w, hw, hcl⟩ := hheeded.closing hc ⟨t, ht, hwaits⟩
        rw [QueueThread.not_closing_of_waiting (hwaiting w hw)] at hcl
        cases hcl
    have hcounted := hheeded.counted hopen ⟨t, ht, hwaits⟩
    rw [List.sum_eq_zero] at hcounted
    · exact ⟨Nat.le_zero.mp hcounted, hopen⟩
    · intro n hn
      obtain ⟨w, hw, rfl⟩ := List.mem_map.mp hn
      exact QueueThread.due_of_waiting (hwaiting w hw)
  intro t ht
  refine ⟨fun hop => ?_, fun value hop => ?_⟩
  · obtain ⟨hzero, hopen⟩ := hnothing .notEmpty t ht (by rw [hop]; rfl)
    exact ⟨List.eq_nil_of_length_eq_zero hzero, hopen⟩
  · obtain ⟨hzero, hopen⟩ := hnothing .notFull t ht (by rw [hop]; rfl)
    have hle := hr.serial.length_le
    simp only [units] at hzero
    exact ⟨by omega, hopen⟩

theorem stuck_of_waiting {q : BoundedBlockingQueue T} (h : ∀ t ∈ q.threads, t.stage = .waiting) :
    Stuck (step capacity) QueueAction.Advances q := by
  intro a ha
  cases a with
  | advance i j =>
    apply Option.eq_none_iff_forall_ne_some.mpr
    intro q' hs
    obtain ⟨⟨t, others⟩, ht, hadvance⟩ := Option.bind_eq_some_iff.mp hs
    simp only [advance, h t (Pool.mem_of_take ht)] at hadvance
    cases hadvance
  | call | wake => cases ha

/-- A second push waits while the first element is in a queue for one. -/
theorem no_lost_wakeup_sample : ∃ q : BoundedBlockingQueue Nat,
    (∃ t ∈ q.threads, t.op = .push 8) ∧ q.queue.length = 1 ∧ q.closed = false := by
  let labels : List (QueueAction Nat) :=
    [.call (.push 7), .advance 0 0, .advance 0 0, .advance 0 0, .advance 0 0, .advance 0 0,
      .advance 0 0, .call (.push 8), .advance 0 0, .advance 0 0, .advance 0 0]
  have hrun : (run (step 1) start labels).any
      (fun q => q.threads = [⟨1, .push 8, .waiting⟩]) = true := by
    decide +kernel
  obtain ⟨q, hq, hend⟩ := (Option.any_eq_true ..).mp hrun
  have hthreads : q.threads = [⟨1, .push 8, .waiting⟩] := of_decide_eq_true hend
  have hstuck : Stuck (step 1) QueueAction.Advances q := by
    apply stuck_of_waiting
    intro t ht
    rw [hthreads] at ht
    rw [List.mem_singleton.mp ht]
  have hmem : (⟨1, .push 8, .waiting⟩ : QueueThread Nat) ∈ q.threads := by
    rw [hthreads]
    exact List.mem_singleton_self _
  exact ⟨q, ⟨_, hmem, rfl⟩, (no_lost_wakeup (.of_run hq) hstuck _ hmem).2 8 rfl⟩

end BoundedBlockingQueue
end SuperVoice.Client
