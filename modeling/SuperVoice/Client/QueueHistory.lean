import SuperVoice.Client.Queue

/-! `BoundedBlockingQueue` is linearizable: its operations take effect one at a time, each between
its call and its return, as those of a bounded first-in first-out queue that can be closed. -/
namespace SuperVoice.Client
open Transition Linear
variable {T : Type} {capacity : Nat}

/-- What an operation does to a bounded queue nobody else uses. One that would block does
nothing. -/
inductive Meets (capacity : Nat) : List T → Bool → Operation T → Outcome T → List T → Bool →
    Prop where
  | accepts {queue : List T} {value : T} (h : queue.length < capacity) :
      Meets capacity queue false (.push value) (.pushed true) (queue ++ [value]) false
  | refuses {queue : List T} {value : T} :
      Meets capacity queue true (.push value) (.pushed false) queue true
  | pops {queue : List T} {value : T} {closed : Bool} :
      Meets capacity (value :: queue) closed .pop (.popped (some value)) queue closed
  | ends : Meets capacity [] true .pop (.popped none) [] true
  | closes {queue : List T} {closed : Bool} : Meets capacity queue closed .close .done queue true
  | tells {queue : List T} {closed : Bool} :
      Meets capacity queue closed .closed (.flag closed) queue closed
  | counts {queue : List T} {closed : Bool} :
      Meets capacity queue closed .size (.count queue.length) queue closed

/-- The operations of `l`, one after the other, bring a new queue to the given contents. -/
inductive Serial (capacity : Nat) : List (Operation T × Outcome T) → List T → Bool → Prop where
  | nil : Serial capacity [] [] false
  | snoc {l : List (Operation T × Outcome T)} {queue queue' : List T} {closed closed' : Bool}
      {op : Operation T} {outcome : Outcome T} (h : Serial capacity l queue closed)
      (hop : Meets capacity queue closed op outcome queue' closed') :
      Serial capacity (l ++ [(op, outcome)]) queue' closed'

/-- The element a push has added. -/
def taken : Operation T × Outcome T → Option T
  | (.push value, .pushed true) => some value
  | _ => none

/-- The element a pop has returned. -/
def given : Operation T × Outcome T → Option T
  | (_, .popped value) => value
  | _ => none

/-- The elements of the accepted pushes, in order. -/
def accepted (l : List (Operation T × Outcome T)) : List T := l.filterMap taken

/-- The elements the pops have returned, in order. -/
def popped (l : List (Operation T × Outcome T)) : List T := l.filterMap given

namespace Serial
variable {l : List (Operation T × Outcome T)} {queue : List T} {closed : Bool}

theorem fifo (h : Serial capacity l queue closed) : accepted l = popped l ++ queue := by
  induction h with
  | nil => rfl
  | snoc _ hop ih =>
    unfold accepted popped at ih ⊢
    rw [List.filterMap_append, List.filterMap_append, ih]
    cases hop with
    | _ => simp [taken, given, List.filterMap_cons]

theorem length_le (h : Serial capacity l queue closed) : queue.length ≤ capacity := by
  induction h with
  | nil => exact Nat.zero_le _
  | snoc _ hop ih =>
    cases hop with
    | accepts hlt =>
      rw [List.length_append]
      exact hlt
    | pops => exact Nat.le_of_succ_le ih
    | _ => exact ih

/-- The queue is closed once a close has taken effect, and not before. -/
theorem closed_iff (h : Serial capacity l queue closed) :
    closed = true ↔ ∃ outcome, (.close, outcome) ∈ l := by
  induction h with
  | nil => simp
  | snoc _ hop ih =>
    cases hop with
    | closes => exact ⟨fun _ => ⟨.done, by simp⟩, fun _ => rfl⟩
    | _ => simpa using ih

/-- The operations before a given one. -/
theorem split {x y : List (Operation T × Outcome T)} {op : Operation T} {outcome : Outcome T}
    (h : Serial capacity (x ++ (op, outcome) :: y) queue closed) :
    ∃ queue' closed' queue'' closed'', Serial capacity x queue' closed' ∧
      Meets capacity queue' closed' op outcome queue'' closed'' := by
  generalize hl : x ++ (op, outcome) :: y = l at h
  induction h generalizing y with
  | nil => simp at hl
  | @snoc l q q' c c' op' outcome' hs hop ih =>
    cases y using List.reverseRecOn with
    | nil =>
      obtain ⟨rfl, hlast⟩ := List.append_inj' hl rfl
      cases hlast
      exact ⟨q, c, q', c', hs, hop⟩
    | append_singleton y e =>
      rw [← List.cons_append, ← List.append_assoc] at hl
      obtain ⟨hl, -⟩ := List.append_inj' hl rfl
      exact ih hl

/-- No push is accepted after a close. -/
theorem not_accepted {x y : List (Operation T × Outcome T)} {outcome : Outcome T} {value : T}
    (h : Serial capacity (x ++ (.close, outcome) :: y) queue closed) :
    (.push value, .pushed true) ∉ y := by
  intro hmem
  obtain ⟨u, v, rfl⟩ := List.mem_iff_append.mp hmem
  rw [← List.cons_append, ← List.append_assoc] at h
  obtain ⟨queue', closed', _, _, hs, hop⟩ := h.split
  have hclosed := hs.closed_iff.mpr ⟨outcome, by simp⟩
  cases hop
  cases hclosed

/-- A pop has nothing to return only from a queue that is closed and empty. -/
theorem drained {x y : List (Operation T × Outcome T)}
    (h : Serial capacity (x ++ (.pop, .popped none) :: y) queue closed) :
    Serial capacity x [] true := by
  obtain ⟨queue', closed', _, _, hs, hop⟩ := h.split
  cases hop
  exact hs

end Serial

/-- The moments of a thread's operation so far. -/
def QueueThread.past (t : QueueThread T) : Trace Nat (Operation T) (Outcome T) :=
  match t.stage with
  | .notifying _ outcome | .unlocking outcome | .notifyingAll _ outcome | .returning outcome =>
    [.inl (.call t.id t.op), .inr ⟨t.id, t.op, outcome⟩]
  | _ => [.inl (.call t.id t.op)]

namespace BoundedBlockingQueue

theorem Performs.meets {q q' : BoundedBlockingQueue T} {op : Operation T} {outcome : Outcome T}
    (h : Performs q op outcome q') (hready : q.ready capacity op = true) :
    Meets capacity q.queue q.closed op outcome q'.queue q'.closed := by
  cases h with
  | refuses hc =>
    rw [hc]
    exact .refuses
  | accepts hc =>
    rw [hc]
    refine .accepts ?_
    simpa [ready, hc] using hready
  | ends hq =>
    rw [hq]
    have hc : q.closed = true := by simpa [ready, hq] using hready
    rw [hc]
    exact .ends
  | pops hq =>
    rw [hq]
    exact .pops
  | closes => exact .closes
  | tells => exact .tells
  | counts => exact .counts

/-- The operations that have taken effect, in order. -/
def serial (q : BoundedBlockingQueue T) : List (Operation T × Outcome T) :=
  (commits q.trace).map fun c => (c.op, c.res)

variable (capacity) in
/-- The trace has the moments of every operation in order, and those that have taken effect
account for the state of the queue. -/
structure Recorded (q : BoundedBlockingQueue T) : Prop where
  ids : (q.threads.map QueueThread.id).Nodup
  begun : ∀ t ∈ q.threads, t.id < q.calls
  past : ∀ t ∈ q.threads, project t.id q.trace = t.past
  fresh : ∀ i, q.calls ≤ i → project i q.trace = []
  orderly : Orderly q.trace
  serial : Serial capacity q.serial q.queue q.closed

theorem recorded_start : (start : BoundedBlockingQueue T).Recorded capacity where
  ids := List.nodup_nil
  begun := nofun
  past := nofun
  fresh _ _ := rfl
  orderly _ := ⟨.pop, .done, List.nil_prefix⟩
  serial := .nil

theorem Recorded.ids_cons {q : BoundedBlockingQueue T} {t : QueueThread T}
    {others : List (QueueThread T)} (hi : q.Recorded capacity) (ht : q.threads.Perm (t :: others)) :
    (∀ w ∈ others, w.id ≠ t.id) ∧ (others.map QueueThread.id).Nodup := by
  have hn := ((ht.map QueueThread.id).nodup_iff).mp hi.ids
  rw [List.map_cons, List.nodup_cons] at hn
  exact ⟨fun w hw heq => hn.1 (heq ▸ List.mem_map_of_mem hw), hn.2⟩

/-- What is left to show when a thread has moved on, nothing has been called, taken effect or
returned, and some of the others have been woken up. -/
theorem Recorded.replace {q q' : BoundedBlockingQueue T} {t t' : QueueThread T}
    {others others' : List (QueueThread T)} (hi : q.Recorded capacity)
    (ht : q.threads.Perm (t :: others)) (hthreads : q'.threads = t' :: others')
    (hwoken : Woken others others') (hid : t'.id = t.id) (hpast : t'.past = t.past)
    (hcalls : q'.calls = q.calls) (htrace : q'.trace = q.trace) (hqueue : q'.queue = q.queue)
    (hclosed : q'.closed = q.closed) : q'.Recorded capacity := by
  have hmem : ∀ w ∈ others, w ∈ q.threads := fun w hw => ht.mem_iff.mpr (List.mem_cons_of_mem _ hw)
  have ht' : t ∈ q.threads := ht.mem_iff.mpr List.mem_cons_self
  obtain ⟨hne, hnodup⟩ := hi.ids_cons ht
  refine ⟨?_, fun w hw => ?_, fun w hw => ?_, ?_, htrace ▸ hi.orderly, ?_⟩
  · rw [hthreads, List.map_cons, List.nodup_cons, hid]
    refine ⟨fun hmem => ?_, hwoken.ids.nodup_iff.mpr hnodup⟩
    obtain ⟨w, hw, heq⟩ := List.mem_map.mp (hwoken.ids.mem_iff.mp hmem)
    exact hne w hw heq
  · rw [hcalls]
    rw [hthreads] at hw
    obtain rfl | hw := List.mem_cons.mp hw
    · exact hid ▸ hi.begun t ht'
    · obtain hw | ⟨v, hv, -, rfl⟩ := hwoken.mem w hw
      · exact hi.begun w (hmem w hw)
      · exact hi.begun v (hmem v hv)
  · rw [htrace]
    rw [hthreads] at hw
    obtain rfl | hw := List.mem_cons.mp hw
    · rw [hid, hi.past t ht', hpast]
    · obtain hw | ⟨v, hv, hwait, rfl⟩ := hwoken.mem w hw
      · exact hi.past w (hmem w hw)
      · apply (hi.past v (hmem v hv)).trans
        simp only [QueueThread.past, QueueThread.awake, hwait]
  · rw [hcalls, htrace]
    exact hi.fresh
  · rw [BoundedBlockingQueue.serial, htrace, hqueue, hclosed]
    exact hi.serial

theorem Advances.recorded {q q' : BoundedBlockingQueue T} {t : QueueThread T}
    {others : List (QueueThread T)} (h : Advances capacity q t others q')
    (hg : q.Guarded capacity) (hi : q.Recorded capacity) (ht : q.threads.Perm (t :: others)) :
    q'.Recorded capacity := by
  have hmem : ∀ w ∈ others, w ∈ q.threads := fun w hw => ht.mem_iff.mpr (List.mem_cons_of_mem _ hw)
  have ht' : t ∈ q.threads := ht.mem_iff.mpr List.mem_cons_self
  obtain ⟨hne, hnodup⟩ := hi.ids_cons ht
  cases h with
  | locks _ hstage =>
    refine hi.replace ht rfl (woken_refl _) rfl ?_ rfl rfl rfl rfl
    obtain ⟨rfl, -⟩ | ⟨rfl, -⟩ := hstage <;> rfl
  | passes | decides | waits => exact hi.replace ht rfl (woken_refl _) rfl rfl rfl rfl rfl rfl
  | unlocks hstage =>
    refine hi.replace ht rfl (woken_refl _) rfl ?_ rfl rfl rfl rfl
    obtain ⟨-, rfl⟩ | ⟨-, rfl⟩ := hstage <;> rfl
  | notifies hothers => exact hi.replace ht rfl (woken_notifyOne hothers) rfl rfl rfl rfl rfl rfl
  | notifiesEmpty | notifiesFull =>
    exact hi.replace ht rfl (woken_notifyAll _ _) rfl rfl rfl rfl rfl rfl
  | @performs _ id op _ outcome stage hp hstage =>
    have hmeets := (performs_of_perform hp).meets (hg.granted _ ht' rfl)
    have hcalls := (performs_of_perform hp).frame.2
    have hlt : id < q.calls := hi.begun _ ht'
    have hpast : project id q.trace = [.inl (.call id op)] := hi.past _ ht'
    have hsame : project id (q.trace ++ [.inr ⟨id, op, outcome⟩]) =
        [.inl (.call id op), .inr ⟨id, op, outcome⟩] := by
      rw [project_snoc_self, hpast]
      · rfl
      · rfl
    have hkeep : ∀ i, id ≠ i → project i (q.trace ++ [.inr ⟨id, op, outcome⟩]) =
        project i q.trace := fun i hne => project_snoc_of_ne hne
    refine ⟨?_, fun w hw => ?_, fun w hw => ?_, fun i hle => ?_, ?_, ?_⟩
    · refine List.nodup_cons.mpr ⟨fun hm => ?_, hnodup⟩
      obtain ⟨w, hw, heq⟩ := List.mem_map.mp hm
      exact hne w hw heq
    · rw [hcalls]
      obtain rfl | hw := List.mem_cons.mp hw
      · exact hlt
      · exact hi.begun w (hmem w hw)
    · obtain rfl | hw := List.mem_cons.mp hw
      · apply hsame.trans
        obtain ⟨-, rfl⟩ | ⟨cond, -, rfl⟩ := hstage <;> rfl
      · exact (hkeep w.id (hne w hw).symm).trans (hi.past w (hmem w hw))
    · rw [hcalls] at hle
      exact (hkeep i (Nat.ne_of_lt (Nat.lt_of_lt_of_le hlt hle))).trans (hi.fresh i hle)
    · apply hi.orderly.append op outcome
      simp only [owner, hpast]
      exact ⟨[.inl (.ret id outcome)], rfl⟩
    · rw [BoundedBlockingQueue.serial, commits_append_commit, List.map_append]
      exact .snoc hi.serial hmeets
  | @returns id op outcome =>
    have hlt : id < q.calls := hi.begun _ ht'
    have hpast : project id q.trace = [.inl (.call id op), .inr ⟨id, op, outcome⟩] := hi.past _ ht'
    have hkeep : ∀ i, id ≠ i → project i (q.trace ++ [.inl (.ret id outcome)]) =
        project i q.trace := fun i hne => project_snoc_of_ne hne
    refine ⟨hnodup, fun w hw => hi.begun w (hmem w hw), fun w hw => ?_, fun i hle => ?_, ?_, ?_⟩
    · exact (hkeep w.id (hne w hw).symm).trans (hi.past w (hmem w hw))
    · exact (hkeep i (Nat.ne_of_lt (Nat.lt_of_lt_of_le hlt hle))).trans (hi.fresh i hle)
    · apply hi.orderly.append op outcome
      simp only [owner, hpast]
      exact List.prefix_rfl
    · rw [BoundedBlockingQueue.serial, commits_append_event]
      exact hi.serial

theorem Moves.recorded {q q' : BoundedBlockingQueue T} {a : QueueAction T}
    (h : Moves capacity q a q') (hg : q.Guarded capacity) (hi : q.Recorded capacity) :
    q'.Recorded capacity := by
  cases h with
  | @calls op =>
    have hne : ∀ w ∈ q.threads, q.calls ≠ w.id := fun w hw => Nat.ne_of_gt (hi.begun w hw)
    have hpast : project q.calls q.trace = [] := hi.fresh _ (Nat.le_refl _)
    have hkeep : ∀ i, q.calls ≠ i → project i (q.trace ++ [.inl (.call q.calls op)]) =
        project i q.trace := fun i hne => project_snoc_of_ne hne
    refine ⟨?_, fun w hw => ?_, fun w hw => ?_, fun i hle => ?_, ?_, ?_⟩
    · refine List.nodup_cons.mpr ⟨fun hm => ?_, hi.ids⟩
      obtain ⟨w, hw, heq⟩ := List.mem_map.mp hm
      exact hne w hw heq.symm
    · obtain rfl | hw := List.mem_cons.mp hw
      · exact Nat.lt_succ_self _
      · exact Nat.lt_succ_of_lt (hi.begun w hw)
    · obtain rfl | hw := List.mem_cons.mp hw
      · have hsame : project q.calls (q.trace ++ [.inl (.call q.calls op)]) =
            [.inl (.call q.calls op)] := by
          rw [project_snoc_self, hpast]
          · rfl
          · rfl
        exact hsame
      · exact (hkeep w.id (hne w hw)).trans (hi.past w hw)
    · have hle : q.calls + 1 ≤ i := hle
      exact (hkeep i (Nat.ne_of_lt hle)).trans (hi.fresh i (Nat.le_of_succ_le hle))
    · apply hi.orderly.append op .done
      simp only [owner, hpast]
      exact ⟨[.inr ⟨q.calls, op, .done⟩, .inl (.ret q.calls .done)], rfl⟩
    · rw [BoundedBlockingQueue.serial, commits_append_event]
      exact hi.serial
  | advances ht h => exact h.recorded hg hi (Pool.perm_of_take ht)
  | wakes ht =>
    exact hi.replace (Pool.perm_of_take ht) rfl (woken_refl _) rfl rfl rfl rfl rfl rfl

/-- Nothing but pops is begun, and threads inside operations go on. -/
def Consumes (_ : BoundedBlockingQueue T) : QueueAction T → Prop
  | .call op => op = .pop
  | .advance _ _ => True
  | .wake _ => False

theorem exists_notifyOne (cond : Condition) (others : List (QueueThread T)) :
    ∃ j others', notifyOne cond j others = some others' := by
  by_cases h : others.any (QueueThread.waitsOn cond) = true
  · obtain ⟨w, hw, hwaits⟩ := List.any_eq_true.mp h
    obtain ⟨j, rest, ht⟩ := Pool.exists_take hw
    refine ⟨j, w.awake :: rest, ?_⟩
    rw [notifyOne, if_pos h, ht]
    exact if_pos hwaits
  · exact ⟨0, others, if_neg h⟩

theorem step_of_advance {q q' : BoundedBlockingQueue T} {i j : Nat} {t : QueueThread T}
    {others : List (QueueThread T)} (ht : Pool.take q.threads i = some (t, others))
    (h : q.advance capacity j t others = some q') :
    q.step capacity (.advance i j) = some q' := by
  rw [step, ht]
  exact h

variable (capacity) in
/-- The mutex of a closed queue can be released. -/
def Releases (q : BoundedBlockingQueue T) : Prop :=
  ∃ q', Reach (step capacity) Consumes q q' ∧ q'.locked = false ∧ q'.closed = true ∧
    q'.queue.length ≤ q.queue.length

section
variable {q q' : BoundedBlockingQueue T} {t : QueueThread T} {others : List (QueueThread T)}
  {i j : Nat}

theorem Releases.of_advance (h : Releases capacity q')
    (ht : Pool.take q.threads i = some (t, others)) (ha : q.advance capacity j t others = some q')
    (hle : q'.queue.length ≤ q.queue.length) : Releases capacity q := by
  obtain ⟨q'', hreach, hfree, hclosed, hle'⟩ := h
  have hfirst : Reach (step capacity) Consumes q q' :=
    .next (.advance i j) .start trivial (step_of_advance ht ha)
  exact ⟨q'', hfirst.trans hreach, hfree, hclosed, Nat.le_trans hle' hle⟩

theorem releases_unlocking {id : Nat} {op : Operation T} {outcome : Outcome T}
    (hclosed : q.closed = true)
    (ht : Pool.take q.threads i = some (⟨id, op, .unlocking outcome⟩, others)) :
    Releases capacity q :=
  ⟨_, .next (.advance i 0) .start trivial (step_of_advance ht rfl), rfl, hclosed, Nat.le_refl _⟩

theorem releases_notifying {id : Nat} {op : Operation T} {cond : Condition} {outcome : Outcome T}
    (hclosed : q.closed = true)
    (ht : Pool.take q.threads i = some (⟨id, op, .notifying cond outcome⟩, others)) :
    Releases capacity q := by
  obtain ⟨j, others', hnotify⟩ := exists_notifyOne cond others
  have hunlocking : Releases capacity
      { q with threads := ⟨id, op, .unlocking outcome⟩ :: others' } :=
    releases_unlocking (i := 0) hclosed rfl
  refine hunlocking.of_advance (j := j) ht ?_ (Nat.le_refl _)
  simp only [advance, hnotify, Option.map_some]

theorem releases_resumed {id : Nat} {op : Operation T} (hclosed : q.closed = true)
    (ht : Pool.take q.threads i = some (⟨id, op, .resumed⟩, others)) : Releases capacity q := by
  generalize hp : q.perform op = p
  obtain ⟨outcome, q₁⟩ := p
  have hperform := performs_of_perform hp
  have hclosed₁ : q₁.closed = true := by
    cases hperform <;> first | exact hclosed | rfl
  have hle : q₁.queue.length ≤ q.queue.length := by
    cases hperform with
    | accepts hopen =>
      rw [hclosed] at hopen
      cases hopen
    | pops hq =>
      rw [hq]
      exact Nat.le_succ _
    | _ => exact Nat.le_refl _
  cases hn : outcome.notifies with
  | none =>
    have hnext : Releases capacity { q₁ with
        threads := ⟨id, op, .unlocking outcome⟩ :: others
        trace := q.trace ++ [.inr ⟨id, op, outcome⟩] } :=
      releases_unlocking (i := 0) hclosed₁ rfl
    refine hnext.of_advance (j := 0) ht ?_ hle
    simp only [advance, hp, hn]
  | some cond =>
    have hnext : Releases capacity { q₁ with
        threads := ⟨id, op, .notifying cond outcome⟩ :: others
        trace := q.trace ++ [.inr ⟨id, op, outcome⟩] } :=
      releases_notifying (i := 0) hclosed₁ rfl
    refine hnext.of_advance (j := 0) ht ?_ hle
    simp only [advance, hp, hn]

end

/-- The holder of the mutex of a closed queue goes on until it has released it. -/
theorem Guarded.releases {q : BoundedBlockingQueue T} (hi : q.Guarded capacity)
    (hclosed : q.closed = true) : Releases capacity q := by
  cases hlocked : q.locked with
  | false => exact ⟨q, .start, hlocked, hclosed, Nat.le_refl _⟩
  | true =>
    obtain ⟨⟨id, op, stage⟩, hmem, hholds⟩ := hi.exists_holder hlocked
    obtain ⟨i, others, ht⟩ := Pool.exists_take hmem
    cases stage with
    | testing =>
      have hready : q.ready capacity op = true := by
        cases op <;> simp [ready, hclosed]
      have hnext : Releases capacity { q with threads := ⟨id, op, .resumed⟩ :: others } :=
        releases_resumed (i := 0) hclosed rfl
      refine hnext.of_advance (j := 0) ht ?_ (Nat.le_refl _)
      simp only [advance, hready, if_true]
    | deciding =>
      exact ⟨_, .next (.advance i 0) .start trivial (step_of_advance ht rfl), rfl, hclosed,
        Nat.le_refl _⟩
    | resumed => exact releases_resumed hclosed ht
    | notifying cond outcome => exact releases_notifying hclosed ht
    | unlocking outcome => exact releases_unlocking hclosed ht
    | locking | waiting | notifyingAll | returning => cases hholds

/-- A pop on a queue that nobody holds and that is not empty. -/
theorem exists_popped {q : BoundedBlockingQueue T} {value : T} {queue : List T}
    (hfree : q.locked = false) (hqueue : q.queue = value :: queue) :
    ∃ q', Reach (step capacity) Consumes q q' ∧ q'.locked = false ∧ q'.queue = queue ∧
      q'.closed = q.closed := by
  obtain ⟨j, others', hnotify⟩ := exists_notifyOne .notFull q.threads
  -- the call, then: lock, test, take the value, notify, unlock
  have hrun : ∃ q', run (step capacity) q [.call .pop, .advance 0 0, .advance 0 0, .advance 0 0,
      .advance 0 j, .advance 0 0] = some q' ∧ q'.locked = false ∧ q'.queue = queue ∧
      q'.closed = q.closed := by
    simp [run, step, Pool.take, advance, hfree, Operation.waitsFor, ready, hqueue, perform,
      Outcome.notifies, hnotify]
  obtain ⟨q', hrun, h⟩ := hrun
  refine ⟨q', .of_run_all ?_ hrun, h⟩
  simp [Consumes]

/-- The elements of a closed queue can be popped to the last. -/
theorem Guarded.exists_drained {q : BoundedBlockingQueue T} (hi : q.Guarded capacity)
    (hclosed : q.closed = true) :
    ∃ q', Reach (step capacity) Consumes q q' ∧ q'.queue = [] := by
  obtain ⟨q₀, hreach₀, hfree, hclosed₀, -⟩ := hi.releases hclosed
  generalize hn : q₀.queue = queue
  induction queue generalizing q₀ with
  | nil => exact ⟨q₀, hreach₀, hn⟩
  | cons value queue ih =>
    obtain ⟨q₁, hreach₁, hfree₁, hq₁, hc₁⟩ := exists_popped hfree hn
    exact ih q₁ (hreach₀.trans hreach₁) hfree₁ (hc₁.trans hclosed₀) hq₁

theorem Moves.trace_grows {q q' : BoundedBlockingQueue T} {a : QueueAction T}
    (h : Moves capacity q a q') : q.trace <+: q'.trace := by
  cases h with
  | calls => exact List.prefix_append _ _
  | advances _ h =>
    cases h with
    | performs hp | returns => exact List.prefix_append _ _
    | _ => exact List.prefix_rfl
  | wakes => exact List.prefix_rfl

/-- What has taken effect stands for ever. -/
theorem serial_grows {guard : BoundedBlockingQueue T → QueueAction T → Prop}
    {q q' : BoundedBlockingQueue T} (h : Reach (step capacity) guard q q') :
    q.serial <+: q'.serial := by
  have htrace : q.trace <+: q'.trace := h.invariant (P := fun q' => q.trace <+: q'.trace)
    List.prefix_rfl fun _ _ _ hp _ hs => hp.trans (moves_of_step hs).trace_grows
  exact (htrace.filterMap _).map _

theorem invariants {guard : BoundedBlockingQueue T → QueueAction T → Prop}
    {q q' : BoundedBlockingQueue T} (hg : q.Guarded capacity) (hr : q.Recorded capacity)
    (h : Reach (step capacity) guard q q') : q'.Guarded capacity ∧ q'.Recorded capacity := by
  apply h.invariant (P := fun q => q.Guarded capacity ∧ q.Recorded capacity) ⟨hg, hr⟩
  intro q a q' hi _ hs
  have hm := moves_of_step hs
  exact ⟨hm.guarded hi.1, hm.recorded hi.1 hi.2⟩

/-- The queue is a linearizable bounded first-in first-out queue: the order in which operations
take effect is that of such a queue and keeps the order of operations that do not overlap; what
pops return is what accepted pushes have brought, in order; nothing is accepted after a close;
a pop returns nothing only when the queue is closed and empty; and what a closed queue still holds
can be popped. -/
theorem linearizable {q : BoundedBlockingQueue T} (h : Reachable (step capacity) start q) :
    q.queue.length ≤ capacity ∧
    Linearizes (fun l => Serial capacity l q.queue q.closed) (history q.trace) (commits q.trace) ∧
    popped q.serial <+: accepted q.serial ∧
    accepted q.serial = popped q.serial ++ q.queue ∧
    (∀ x y outcome value, q.serial = x ++ (.close, outcome) :: y →
      (.push value, .pushed true) ∉ y) ∧
    (∀ x y, q.serial = x ++ (.pop, .popped none) :: y →
      (∃ outcome, (.close, outcome) ∈ x) ∧ accepted x = popped x) ∧
    (q.closed = true → ∃ q', Reach (step capacity) Consumes q q' ∧
      accepted q.serial <+: popped q'.serial) := by
  obtain ⟨hg, hr⟩ := invariants guarded_start recorded_start h
  have hfifo := hr.serial.fifo
  refine ⟨hr.serial.length_le, hr.orderly.linearizes hr.serial, ?_, hfifo, ?_, ?_, ?_⟩
  · rw [hfifo]
    exact List.prefix_append _ _
  · intro x y outcome value hx
    have hs := hr.serial
    rw [hx] at hs
    exact hs.not_accepted
  · intro x y hx
    have hs := hr.serial
    rw [hx] at hs
    have hempty := hs.drained
    refine ⟨hempty.closed_iff.mp rfl, ?_⟩
    rw [hempty.fifo, List.append_nil]
  · intro hclosed
    obtain ⟨q', hreach, hnil⟩ := hg.exists_drained hclosed
    have hfifo' := (invariants hg hr hreach).2.serial.fifo
    rw [hnil, List.append_nil] at hfifo'
    refine ⟨q', hreach, ?_⟩
    rw [← hfifo']
    exact (serial_grows hreach).filterMap _

/-- A pop waits, a push is accepted, the queue is closed, and then the pop goes on. -/
theorem linearizable_sample : ∃ q : BoundedBlockingQueue Nat,
    q.serial = [(.push 7, .pushed true), (.close, .done), (.pop, .popped (some 7))] ∧
      popped q.serial <+: accepted q.serial := by
  let labels : List (QueueAction Nat) :=
    [.call .pop, .advance 0 0, .advance 0 0, .advance 0 0, .call (.push 7), .advance 0 0,
      .advance 0 0, .advance 0 0, .advance 0 0, .advance 0 0, .call .close, .advance 0 0,
      .advance 0 0, .advance 0 0, .advance 2 0, .advance 0 0, .advance 0 0]
  have hrun : (run (step 1) start labels).any (fun q => q.serial =
      [(.push 7, .pushed true), (.close, .done), (.pop, .popped (some 7))]) = true := by
    decide +kernel
  obtain ⟨q, hq, hend⟩ := (Option.any_eq_true ..).mp hrun
  exact ⟨q, of_decide_eq_true hend, (linearizable (.of_run hq)).2.2.1⟩

end BoundedBlockingQueue
end SuperVoice.Client
