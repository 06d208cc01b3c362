import SuperVoice.Client.Sender

/-! Where the accepted chunks and the slots are. A chunk counts with its weight wherever it
stands; the indicator of one chunk as weight counts its copies. -/
namespace SuperVoice.Client
variable {o : SenderOptions} {w : FileChunk → Nat}

/-- The chunk that a callback has yet to report or to retry. -/
def Callback.pending : Callback → Option PendingChunk
  | .success p | .failure p => some p
  | .retried | .releasing | .notifying _ | .notifyingRetry => none

def Callback.slots : Callback → Nat
  | .success _ | .failure _ | .retried | .releasing => 1
  | .notifying _ | .notifyingRetry => 0

def Phase.pending : Phase → Option PendingChunk
  | .posted p | .writing p _ _ | .completed p _ => some p
  | .handling k => k.pending

def Phase.slots : Phase → Nat
  | .posted _ | .writing .. | .completed .. => 1
  | .handling k => k.slots

def Worker.pending : Worker → Option PendingChunk
  | .acquiring p | .acquireWaiting p | .choosing p | .connecting p _ | .attempting p _ _
  | .dispatching p _ | .crashed p => some p
  | .reporting k => k.pending
  | .top | .fetching | .popping | .locking | .deciding | .waiting | .resumed | .unlocked
  | .exited => none

def Worker.slots : Worker → Nat
  | .choosing _ | .connecting .. | .attempting .. | .dispatching .. | .crashed _ => 1
  | .reporting k => k.slots
  | .acquiring _ | .acquireWaiting _ | .top | .fetching | .popping | .locking | .deciding
  | .waiting | .resumed | .unlocked | .exited => 0

def pendingWeight (w : FileChunk → Nat) : Option PendingChunk → Nat
  | some p => w p.chunk
  | none => 0

@[simp] theorem pendingWeight_some (p : PendingChunk) : pendingWeight w (some p) = w p.chunk := rfl
@[simp] theorem pendingWeight_none : pendingWeight w none = 0 := rfl

def Callback.weight (w : FileChunk → Nat) (k : Callback) : Nat := pendingWeight w k.pending

def Phase.weight (w : FileChunk → Nat) (phase : Phase) : Nat := pendingWeight w phase.pending

def Task.weight (w : FileChunk → Nat) (t : Task) : Nat := t.phase.weight w

def Task.slots (t : Task) : Nat := t.phase.slots

def Worker.weight (w : FileChunk → Nat) (k : Worker) : Nat := pendingWeight w k.pending

namespace Sender

def retryWeight (w : FileChunk → Nat) (retry : List PendingChunk) : Nat :=
  (retry.map fun p => w p.chunk).sum

def reportWeight (w : FileChunk → Nat) (reports : List Report) : Nat :=
  (reports.map fun r => w r.chunk).sum

def taskWeight (w : FileChunk → Nat) (tasks : List Task) : Nat := (tasks.map (Task.weight w)).sum

def taskSlots (tasks : List Task) : Nat := (tasks.map Task.slots).sum

/-- Every slot has one holder. -/
def Slotted (s : Sender) : Prop := s.inflight = s.worker.slots + taskSlots s.net.tasks

/-- Every accepted chunk is in exactly one place. -/
def Conserved (s : Sender) : Prop :=
  ∀ w : FileChunk → Nat, (s.accepted.map w).sum = (s.queue.map w).sum + retryWeight w s.retry +
    s.worker.weight w + taskWeight w s.net.tasks + reportWeight w s.reports

theorem slotted_start : Sender.start.Slotted := rfl

theorem conserved_start : Sender.start.Conserved := fun _ => rfl

theorem Called.weight {s s' : Sender} {k : Callback} {k' : Option Callback}
    (h : Called o s k k' s') (w : FileChunk → Nat) :
    retryWeight w s'.retry + reportWeight w s'.reports + (k'.map (Callback.weight w)).getD 0 =
      retryWeight w s.retry + reportWeight w s.reports + k.weight w := by
  cases h with
  | wakesWorker | wakesStopper | passesSlot => split <;> rfl
  | _ =>
    simp [retryWeight, reportWeight, Callback.weight, Callback.pending, Report.chunk] <;> omega

theorem Called.slots {s s' : Sender} {k : Callback} {k' : Option Callback} {n : Nat}
    (h : Called o s k k' s') (hn : s.inflight = k.slots + n) :
    s'.inflight = (k'.map Callback.slots).getD 0 + n := by
  cases h with
  | wakesWorker | wakesStopper | passesSlot =>
    rw [hn]
    split <;> rfl
  | releases =>
    simp only [Callback.slots] at hn
    simp only [Option.map_some, Callback.slots, Option.getD_some]
    omega
  | _ => exact hn

/-- A callback leaves all but the reports, the retry queue, the slots and sleeping threads. -/
theorem Called.frame {s s' : Sender} {k : Callback} {k' : Option Callback}
    (h : Called o s k k' s') : s'.queue = s.queue ∧ s'.closed = s.closed ∧
      s'.finishing = s.finishing ∧ s'.stopRequested = s.stopRequested ∧ s'.net = s.net ∧
      s'.accepted = s.accepted := by
  cases h <;> exact ⟨rfl, rfl, rfl, rfl, rfl, rfl⟩

/-- A callback leaves the worker where it stands or ends its waiting. -/
theorem Called.worker {s s' : Sender} {k : Callback} {k' : Option Callback}
    (h : Called o s k k' s') : s'.worker = s.worker ∨
      (s.worker = .waiting ∧ s'.worker = .locking) ∨
      ∃ p, s.worker = .acquireWaiting p ∧ s'.worker = .acquiring p := by
  cases h with
  | wakesRetry hw | wakesFinishing hw => exact .inr (.inl ⟨hw, rfl⟩)
  | wakesWorker hw => exact .inr (.inr ⟨_, hw, rfl⟩)
  | _ => exact .inl rfl

/-- What does not tell a wait from its end does not change. -/
theorem Called.of_worker {α : Type*} {s s' : Sender} {k : Callback} {k' : Option Callback}
    (h : Called o s k k' s') (f : Worker → α) (hwaits : f .locking = f .waiting)
    (hacquires : ∀ p, f (.acquiring p) = f (.acquireWaiting p)) : f s'.worker = f s.worker := by
  obtain hw | ⟨hw, hw'⟩ | ⟨p, hw, hw'⟩ := h.worker
  · rw [hw]
  · rw [hw, hw', hwaits]
  · rw [hw, hw', hacquires]

theorem Called.worker_weight {s s' : Sender} {k : Callback} {k' : Option Callback}
    (h : Called o s k k' s') (w : FileChunk → Nat) : s'.worker.weight w = s.worker.weight w :=
  h.of_worker (Worker.weight w) rfl fun _ => rfl

theorem Called.worker_slots {s s' : Sender} {k : Callback} {k' : Option Callback}
    (h : Called o s k k' s') : s'.worker.slots = s.worker.slots :=
  h.of_worker Worker.slots rfl fun _ => rfl

theorem Task.weight_abort (c : Nat) (t : Task) :
    (t.abort c).weight w = t.weight w ∧ (t.abort c).slots = t.slots := by
  obtain ⟨c', phase⟩ := t
  unfold Task.abort
  split
  · cases phase <;> exact ⟨rfl, rfl⟩
  · exact ⟨rfl, rfl⟩

theorem taskWeight_cons (t : Task) (tasks : List Task) :
    taskWeight w (t :: tasks) = t.phase.weight w + taskWeight w tasks := rfl

theorem taskSlots_cons (t : Task) (tasks : List Task) :
    taskSlots (t :: tasks) = t.phase.slots + taskSlots tasks := rfl

theorem taskWeight_abort (c : Nat) (tasks : List Task) :
    taskWeight w (tasks.map (Task.abort c)) = taskWeight w tasks := by
  rw [taskWeight, List.map_map]
  exact congrArg List.sum (List.map_congr_left fun t _ => (Task.weight_abort c t).1)

theorem taskSlots_abort (c : Nat) (tasks : List Task) :
    taskSlots (tasks.map (Task.abort c)) = taskSlots tasks := by
  rw [taskSlots, List.map_map]
  exact congrArg List.sum
    (List.map_congr_left fun t _ => (Task.weight_abort (w := fun _ => 0) c t).2)

theorem Control.slotted {s s' : Sender} (h : Control o s s') (hi : s.Slotted) : s'.Slotted := by
  unfold Slotted at hi ⊢
  cases h with
  | acquires hw =>
    simp only [hw, Worker.slots] at hi ⊢
    omega
  | stopped hw | goesOn hw | noRetry hw | drained hw | resumed hw | decided hw | waits hw
  | leaves hw | returns hw | unlocks hw | finishes hw | repeats hw | awaits hw | chooses hw
  | wakes hw | wakesSlot hw | discards hw | retries hw | popped hw =>
    simpa only [hw, Worker.slots] using hi

theorem Control.conserved {s s' : Sender} (h : Control o s s') (hi : s.Conserved)
    (hd : s.stopRequested = true → ∀ p, s.worker ≠ .acquiring p) : s'.Conserved := by
  intro w
  have hc := hi w
  cases h with
  | discards hw hstop => exact absurd hw (hd hstop _)
  | retries hw hr =>
    simp only [hw, hr, retryWeight, List.map_cons, List.sum_cons, Worker.weight, Worker.pending,
      pendingWeight_some, pendingWeight_none] at hc ⊢
    omega
  | popped hw hq =>
    simp only [hw, hq, List.map_cons, List.sum_cons, Worker.weight, Worker.pending,
      pendingWeight_some, pendingWeight_none] at hc ⊢
    omega
  | stopped hw | goesOn hw | noRetry hw | drained hw | resumed hw | decided hw | waits hw
  | leaves hw | returns hw | unlocks hw | finishes hw | repeats hw | awaits hw | chooses hw
  | wakes hw | wakesSlot hw | acquires hw =>
    simpa only [hw, Worker.weight, Worker.pending] using hc

theorem Dial.slotted {s s' : Sender} (h : Dial s s') (hi : s.Slotted) : s'.Slotted := by
  unfold Slotted at hi ⊢
  cases h with
  | dispatches hw =>
    simp only [hw, Worker.slots, Net.put_tasks, taskSlots_cons, Phase.slots] at hi ⊢
    omega
  | isOpen hw | emplaces hw | unresolved hw | connects hw | crashes hw | reattempts hw
  | givesUp hw =>
    simpa only [hw, Worker.slots, Callback.slots, Net.emplace_tasks, Net.close_tasks,
      Net.setConn_tasks, taskSlots_abort] using hi

theorem Dial.conserved {s s' : Sender} (h : Dial s s') (hi : s.Conserved) : s'.Conserved := by
  intro w
  have hc := hi w
  cases h with
  | dispatches hw =>
    simp only [hw, Worker.weight, Worker.pending, Net.put_tasks, taskWeight_cons, Phase.weight,
      Phase.pending, pendingWeight_some, pendingWeight_none] at hc ⊢
    omega
  | isOpen hw | emplaces hw | unresolved hw | connects hw | crashes hw | reattempts hw
  | givesUp hw =>
    simpa only [hw, Worker.weight, Worker.pending, Callback.pending, Net.emplace_tasks,
      Net.close_tasks, Net.setConn_tasks, taskWeight_abort] using hc

theorem Stops.slotted {s s' : Sender} (h : Stops o s s') (hi : s.Slotted) : s'.Slotted := by
  cases h with
  | stops =>
    unfold Slotted at hi ⊢
    rwa [Net.close_tasks, taskSlots_abort]
  | _ => exact hi

theorem Stops.conserved {s s' : Sender} (h : Stops o s s') (hi : s.Conserved) : s'.Conserved := by
  cases h with
  | stops =>
    intro w
    rw [Net.close_tasks, taskWeight_abort]
    exact hi w
  | _ => exact hi

/-- A task keeps its slot, or its callback gives it back. -/
theorem Handled.slotted {s s' : Sender} {t : Task} {others : List Task} {i : Nat}
    (ht : Pool.take s.net.tasks i = some (t, others))
    (h : Handled o s t.conn { s.net with tasks := others } t.phase s') (hi : s.Slotted) :
    s'.Slotted := by
  have hs : s.inflight = s.worker.slots + (t.phase.slots + taskSlots others) := by
    rw [hi, taskSlots, Pool.sum_of_take ht]
    rfl
  have hcalled : ∀ {k k' s₁}, t.phase.slots = k.slots →
      Called o { s with net := { s.net with tasks := others } } k k' s₁ →
      s₁.inflight = s₁.worker.slots +
        ((k'.map Callback.slots).getD 0 + taskSlots s₁.net.tasks) := by
    intro k k' s₁ hk h
    obtain ⟨-, -, -, -, hnet, -⟩ := h.frame
    have hks := h.slots (n := s.worker.slots + taskSlots others) (by
      show s.inflight = _
      omega)
    rw [h.worker_slots, hks, hnet]
    show _ = s.worker.slots + (_ + taskSlots others)
    omega
  generalize t.phase = phase at h hs hcalled
  unfold Slotted
  cases h with
  | calls hk => exact hcalled rfl hk
  | ends hk => simpa using hcalled rfl hk
  | closes =>
    rw [Net.put_tasks, Net.close_tasks, taskSlots_cons, taskSlots_abort]
    exact hs
  | refuses | begins | succeeds | writes | completes | fails => exact hs

/-- A task keeps its chunk, or its callback reports it or queues it again. -/
theorem Handled.conserved {s s' : Sender} {t : Task} {others : List Task} {i : Nat}
    (ht : Pool.take s.net.tasks i = some (t, others))
    (h : Handled o s t.conn { s.net with tasks := others } t.phase s') (hi : s.Conserved) :
    s'.Conserved := by
  intro w
  have hc : (s.accepted.map w).sum = (s.queue.map w).sum + retryWeight w s.retry +
      s.worker.weight w + (t.phase.weight w + taskWeight w others) + reportWeight w s.reports := by
    rw [hi w, taskWeight, Pool.sum_of_take ht]
    rfl
  have hcalled : ∀ {k k' s₁}, t.phase.weight w = k.weight w →
      Called o { s with net := { s.net with tasks := others } } k k' s₁ →
      (s₁.accepted.map w).sum = (s₁.queue.map w).sum + retryWeight w s₁.retry +
        s₁.worker.weight w + ((k'.map (Callback.weight w)).getD 0 + taskWeight w s₁.net.tasks) +
        reportWeight w s₁.reports := by
    intro k k' s₁ hk h
    obtain ⟨hq, -, -, -, hnet, hacc⟩ := h.frame
    have hkw := h.weight w
    rw [h.worker_weight, hq, hacc, hnet]
    show (s.accepted.map w).sum = (s.queue.map w).sum + _ + s.worker.weight w +
      (_ + taskWeight w others) + _
    simp only at hkw
    omega
  generalize t.phase = phase at h hc hcalled
  cases h with
  | calls hk => exact hcalled rfl hk
  | ends hk => simpa using hcalled rfl hk
  | closes =>
    rw [Net.put_tasks, Net.close_tasks, taskWeight_cons, taskWeight_abort]
    exact hc
  | refuses | begins | succeeds | writes | completes | fails => exact hc

theorem Moves.slotted {s s' : Sender} {a : SenderAction} (h : Moves o s a s') (hi : s.Slotted) :
    s'.Slotted := by
  cases h with
  | control h => exact h.slotted hi
  | dial h => exact h.slotted hi
  | reports hw h | reported hw h =>
    obtain ⟨-, -, -, -, hnet, -⟩ := h.frame
    unfold Slotted at hi ⊢
    rw [hw, ← hnet] at hi
    exact h.slots hi
  | handled _ ht h => exact h.slotted ht hi
  | stopper h => exact h.slotted hi
  | rejects | accepts | closes | exits | requests => exact hi

/-- No step loses or doubles a chunk unless the worker holds one it has no slot for when it
learns of the stop request. -/
theorem Moves.conserved {s s' : Sender} {a : SenderAction} (h : Moves o s a s') (hi : s.Conserved)
    (hd : s.stopRequested = true → ∀ p, s.worker ≠ .acquiring p) : s'.Conserved := by
  cases h with
  | accepts =>
    intro w
    have hc := hi w
    simp only [List.map_append, List.sum_append, List.map_cons, List.sum_cons, List.map_nil,
      List.sum_nil] at hc ⊢
    omega
  | control h => exact h.conserved hi hd
  | dial h => exact h.conserved hi
  | reports hw h | reported hw h =>
    intro w
    obtain ⟨hq, -, -, -, hnet, hacc⟩ := h.frame
    have hc := hi w
    have hkw := h.weight w
    simp only [Option.map_some, Option.getD_some, Option.map_none, Option.getD_none,
      Callback.weight] at hkw
    simp only [hw, hq, hacc, hnet, Worker.weight, Worker.pending, pendingWeight_none] at hc ⊢
    omega
  | handled _ ht h => exact h.conserved ht hi
  | stopper h => exact h.conserved hi
  | rejects | closes | exits | requests => exact hi

theorem Called.inflight_le {s s' : Sender} {k : Callback} {k' : Option Callback}
    (h : Called o s k k' s') : s'.inflight ≤ s.inflight := by
  cases h with
  | releases => exact Nat.sub_le _ _
  | _ => exact Nat.le_refl _

/-- `acquire_slot` takes no slot that is not free. -/
theorem Moves.inflight_le {s s' : Sender} {a : SenderAction} (h : Moves o s a s')
    (hi : s.inflight ≤ o.slots) : s'.inflight ≤ o.slots := by
  cases h with
  | control h =>
    cases h with
    | acquires _ _ hlt => exact hlt
    | _ => exact hi
  | dial h =>
    cases h <;> exact hi
  | reports _ h | reported _ h => exact Nat.le_trans h.inflight_le hi
  | handled _ _ h =>
    generalize Task.phase _ = phase at h
    cases h with
    | calls h | ends h => exact Nat.le_trans h.inflight_le hi
    | _ => exact hi
  | stopper h =>
    cases h <;> exact hi
  | rejects | accepts | closes | exits | requests => exact hi

/-- A chunk with this attempt number is on its way. -/
def Pending (s : Sender) (p : PendingChunk) : Prop :=
  p ∈ s.retry ∨ s.worker.pending = some p ∨ ∃ t ∈ s.net.tasks, t.phase.pending = some p

/-- Where a pending chunk can come from: it was pending, queued, or its last attempt failed. -/
def Origin (o : SenderOptions) (s : Sender) (p : PendingChunk) : Prop :=
  s.Pending p ∨ (p.attempt = 1 ∧ p.chunk ∈ s.queue) ∨
    ∃ q, s.Pending q ∧ q.attempt < o.maxAttempts ∧ p = ⟨q.chunk, q.attempt + 1⟩

theorem mem_abort {c : Nat} {tasks : List Task} {t : Task} (h : t ∈ tasks.map (Task.abort c)) :
    ∃ t' ∈ tasks, t = t'.abort c := by
  obtain ⟨t', ht', rfl⟩ := List.mem_map.mp h
  exact ⟨t', ht', rfl⟩

theorem pending_abort (c : Nat) (t : Task) : (t.abort c).phase.pending = t.phase.pending := by
  obtain ⟨c', phase⟩ := t
  unfold Task.abort
  split
  · cases phase <;> rfl
  · rfl

theorem Called.pending {s s' : Sender} {n : Net} {k : Callback} {k' : Option Callback}
    {p : PendingChunk} (h : Called o { s with net := n } k k' s') (hk : ∀ q, k.pending = some q → s.Pending q)
    (hp : p ∈ s'.retry ∨ s'.worker.pending = some p ∨ k'.bind Callback.pending = some p) :
    Origin o s p := by
  have hold : p ∈ s.retry ∨ s.worker.pending = some p → Origin o s p := by
    intro hp
    cases hp with
    | inl hp => exact .inl (.inl hp)
    | inr hp => exact .inl (.inr (.inl hp))
  cases h with
  | retries hlt =>
    obtain hp | hp | hp := hp
    · cases List.mem_append.mp hp with
      | inl hp => exact hold (.inl hp)
      | inr hp => exact .inr (.inr ⟨_, hk _ rfl, hlt, List.mem_singleton.mp hp⟩)
    · exact hold (.inr hp)
    · cases hp
  | wakesRetry | wakesFinishing =>
    obtain hp | hp | hp := hp
    · exact hold (.inl hp)
    · cases hp
    · cases hp
  | wakesWorker hw =>
    obtain hp | hp | hp := hp
    · exact hold (.inl hp)
    · exact hold (.inr (hw ▸ hp))
    · split at hp <;> cases hp
  | wakesStopper | passesSlot =>
    obtain hp | hp | hp := hp
    · exact hold (.inl hp)
    · exact hold (.inr hp)
    · split at hp <;> cases hp
  | sent | dropped | passesRetry | releases | passesFinishing =>
    obtain hp | hp | hp := hp
    · exact hold (.inl hp)
    · exact hold (.inr hp)
    · cases hp

theorem Control.pending {s s' : Sender} {p : PendingChunk} (h : Control o s s')
    (hp : p ∈ s'.retry ∨ s'.worker.pending = some p) : Origin o s p := by
  cases h with
  | retries hw hr =>
    obtain hp | hp := hp
    · exact .inl (.inl (hr ▸ List.mem_cons_of_mem _ hp))
    · cases hp
      exact .inl (.inl (hr ▸ List.mem_cons_self))
  | popped hw hq =>
    obtain hp | hp := hp
    · exact .inl (.inl hp)
    · cases hp
      exact .inr (.inl ⟨rfl, by rw [hq]; exact List.mem_cons_self⟩)
  | acquires hw | awaits hw | chooses hw | wakesSlot hw =>
    obtain hp | hp := hp
    · exact .inl (.inl hp)
    · exact .inl (.inr (.inl (by rw [hw]; exact hp)))
  | _ =>
    obtain hp | hp := hp
    · exact .inl (.inl hp)
    · cases hp

theorem Dial.pending {s s' : Sender} {p : PendingChunk} (h : Dial s s') (hp : s'.Pending p) :
    Origin o s p := by
  cases h with
  | dispatches hw =>
    obtain hp | hp | ⟨t, ht, hp⟩ := hp
    · exact .inl (.inl hp)
    · cases hp
    · cases List.mem_cons.mp ht with
      | inl ht =>
        subst ht
        exact .inl (.inr (.inl (by rw [hw]; exact hp)))
      | inr ht => exact .inl (.inr (.inr ⟨t, ht, hp⟩))
  | reattempts hw | givesUp hw =>
    obtain hp | hp | ⟨t, ht, hp⟩ := hp
    · exact .inl (.inl hp)
    · exact .inl (.inr (.inl (by rw [hw]; exact hp)))
    · obtain ⟨t', ht', rfl⟩ := mem_abort ht
      exact .inl (.inr (.inr ⟨t', ht', pending_abort _ t' ▸ hp⟩))
  | isOpen hw | emplaces hw | unresolved hw | connects hw | crashes hw =>
    obtain hp | hp | hp := hp
    · exact .inl (.inl hp)
    · exact .inl (.inr (.inl (by rw [hw]; exact hp)))
    · exact .inl (.inr (.inr hp))

theorem Handled.pending {s s' : Sender} {t : Task} {others : List Task} {i : Nat}
    {p : PendingChunk} (ht : Pool.take s.net.tasks i = some (t, others))
    (h : Handled o s t.conn { s.net with tasks := others } t.phase s') (hp : s'.Pending p) :
    Origin o s p := by
  have hrest : ∀ t' ∈ others, t'.phase.pending = some p → s.Pending p := fun t' ht' hp =>
    .inr (.inr ⟨t', Pool.mem_of_mem_rest ht ht', hp⟩)
  have htask : ∀ q, t.phase.pending = some q → s.Pending q := fun q hq =>
    .inr (.inr ⟨t, Pool.mem_of_take ht, hq⟩)
  generalize t.phase = phase at h htask
  cases h with
  | calls hk =>
    obtain ⟨-, -, -, -, hnet, -⟩ := hk.frame
    obtain hp | hp | ⟨t', ht', hp⟩ := hp
    · exact hk.pending htask (.inl hp)
    · exact hk.pending htask (.inr (.inl hp))
    · cases List.mem_cons.mp ht' with
      | inl ht' =>
        subst ht'
        exact hk.pending htask (.inr (.inr hp))
      | inr ht' => exact .inl (hrest t' (by rwa [hnet] at ht') hp)
  | ends hk =>
    obtain ⟨-, -, -, -, hnet, -⟩ := hk.frame
    obtain hp | hp | ⟨t', ht', hp⟩ := hp
    · exact hk.pending htask (.inl hp)
    · exact hk.pending htask (.inr (.inl hp))
    · exact .inl (hrest t' (by rwa [hnet] at ht') hp)
  | closes =>
    obtain hp | hp | ⟨t', ht', hp⟩ := hp
    · exact .inl (.inl hp)
    · exact .inl (.inr (.inl hp))
    · cases List.mem_cons.mp ht' with
      | inl ht' =>
        subst ht'
        exact .inl (htask p hp)
      | inr ht' =>
        obtain ⟨t'', ht'', rfl⟩ := mem_abort ht'
        exact .inl (hrest t'' ht'' (pending_abort _ t'' ▸ hp))
  | refuses | begins | succeeds | writes | completes | fails =>
    obtain hp | hp | ⟨t', ht', hp⟩ := hp
    · exact .inl (.inl hp)
    · exact .inl (.inr (.inl hp))
    · cases List.mem_cons.mp ht' with
      | inl ht' =>
        subst ht'
        exact .inl (htask p hp)
      | inr ht' => exact .inl (hrest t' ht' hp)

/-- A pending chunk was pending or queued before, or has failed once more. -/
theorem Moves.pending {s s' : Sender} {a : SenderAction} {p : PendingChunk} (h : Moves o s a s')
    (hp : s'.Pending p) : Origin o s p := by
  cases h with
  | control h =>
    have hnet : s'.net = s.net := by cases h <;> rfl
    obtain hp | hp | ⟨t, ht, hp⟩ := hp
    · exact h.pending (.inl hp)
    · exact h.pending (.inr hp)
    · exact .inl (.inr (.inr ⟨t, hnet ▸ ht, hp⟩))
  | dial h => exact h.pending hp
  | reports hw h | reported hw h =>
    have hk : ∀ q, Callback.pending _ = some q → s.Pending q := fun q hq =>
      .inr (.inl (by rw [hw]; exact hq))
    obtain ⟨-, -, -, -, hnet, -⟩ := h.frame
    obtain hp | hp | ⟨t, ht, hp⟩ := hp
    · exact Called.pending (n := s.net) h hk (.inl hp)
    · exact Called.pending (n := s.net) h hk (.inr (.inr hp))
    · exact .inl (.inr (.inr ⟨t, hnet ▸ ht, hp⟩))
  | handled _ ht h => exact h.pending ht hp
  | stopper h =>
    cases h with
    | stops =>
      obtain hp | hp | ⟨t, ht, hp⟩ := hp
      · exact .inl (.inl hp)
      · exact .inl (.inr (.inl hp))
      · obtain ⟨t', ht', rfl⟩ := mem_abort ht
        exact .inl (.inr (.inr ⟨t', ht', pending_abort _ t' ▸ hp⟩))
    | _ => exact .inl hp
  | rejects | accepts | closes | exits | requests => exact .inl hp

/-- What a callback reports is the chunk it was called with. -/
theorem Called.report {s s' : Sender} {k : Callback} {k' : Option Callback} {r : Report}
    (h : Called o s k k' s') (hr : r ∈ s'.reports) : r ∈ s.reports ∨
      ∃ p, k.pending = some p ∧ (r = .sent p ∨ (r = .dropped p ∧ o.maxAttempts ≤ p.attempt)) := by
  cases h with
  | sent =>
    cases List.mem_append.mp hr with
    | inl hr => exact .inl hr
    | inr hr => exact .inr ⟨_, rfl, .inl (List.mem_singleton.mp hr)⟩
  | dropped hle =>
    cases List.mem_append.mp hr with
    | inl hr => exact .inl hr
    | inr hr => exact .inr ⟨_, rfl, .inr ⟨List.mem_singleton.mp hr, hle⟩⟩
  | _ => exact .inl hr

theorem Moves.report {s s' : Sender} {a : SenderAction} {r : Report} (h : Moves o s a s')
    (hr : r ∈ s'.reports) : r ∈ s.reports ∨
      ∃ p, s.Pending p ∧ (r = .sent p ∨ (r = .dropped p ∧ o.maxAttempts ≤ p.attempt)) := by
  have hcalled : ∀ {n : Net} {k : Callback} {k' : Option Callback} {s₁ : Sender},
      (∀ q, k.pending = some q → s.Pending q) → Called o { s with net := n } k k' s₁ →
      r ∈ s₁.reports → r ∈ s.reports ∨
        ∃ p, s.Pending p ∧ (r = .sent p ∨ (r = .dropped p ∧ o.maxAttempts ≤ p.attempt)) := by
    intro n k k' s₁ hk hc hr
    cases hc.report hr with
    | inl hr => exact .inl hr
    | inr hr =>
      obtain ⟨p, hp, hr⟩ := hr
      exact .inr ⟨p, hk p hp, hr⟩
  cases h with
  | control h | dial h | stopper h =>
    left
    cases h <;> exact hr
  | reports hw h | reported hw h =>
    refine hcalled (n := s.net) (fun q hq => .inr (.inl ?_)) h hr
    rw [hw]
    exact hq
  | handled _ ht h =>
    have htask : ∀ q, Phase.pending _ = some q → s.Pending q := fun q hq =>
      .inr (.inr ⟨_, Pool.mem_of_take ht, hq⟩)
    generalize Task.phase _ = phase at h htask
    cases h with
    | calls hk | ends hk => exact hcalled htask hk hr
    | _ => exact .inl hr
  | rejects | accepts | closes | exits | requests => exact .inl hr

/-- No chunk is tried more often than allowed, and only then is it dropped. -/
structure Limited (o : SenderOptions) (s : Sender) : Prop where
  pending : ∀ p, s.Pending p → p.attempt ≤ o.maxAttempts
  dropped : ∀ p, .dropped p ∈ s.reports → p.attempt = o.maxAttempts

theorem limited_start : Limited o .start := by
  constructor
  · intro p hp
    obtain hp | hp | ⟨t, ht, -⟩ := hp
    · cases hp
    · cases hp
    · cases ht
  · intro p hp
    cases hp

theorem Moves.limited {s s' : Sender} {a : SenderAction} (h : Moves o s a s')
    (hi : Limited o s) : Limited o s' := by
  constructor
  · intro p hp
    obtain hp | ⟨hp, -⟩ | ⟨q, -, hlt, rfl⟩ := h.pending hp
    · exact hi.pending p hp
    · rw [hp]
      exact Nat.le_max_left 1 o.maxSendRetries
    · exact hlt
  · intro p hp
    obtain hp | ⟨q, hq, hr | ⟨hr, hle⟩⟩ := h.report hp
    · exact hi.dropped p hp
    · cases hr
    · cases hr
      exact Nat.le_antisymm (hi.pending p hq) hle

/-- All chunks on their way are among `chunks`. -/
structure Draws (chunks : List FileChunk) (s : Sender) : Prop where
  queue : ∀ chunk ∈ s.queue, chunk ∈ chunks
  pending : ∀ p, s.Pending p → p.chunk ∈ chunks

theorem draws_start (chunks : List FileChunk) : Draws chunks .start := by
  refine ⟨nofun, fun p hp => ?_⟩
  obtain hp | hp | ⟨t, ht, -⟩ := hp
  · cases hp
  · cases hp
  · cases ht

theorem Moves.draws {s s' : Sender} {a : SenderAction} {chunks : List FileChunk}
    (h : Moves o s a s') (hi : Draws chunks s) (ha : ∀ chunk, a = .push chunk → chunk ∈ chunks) :
    Draws chunks s' := by
  refine ⟨fun chunk hq => ?_, fun p hp => ?_⟩
  · have hqueue : chunk ∈ s.queue ∨ a = .push chunk := by
      cases h with
      | accepts =>
        cases List.mem_append.mp hq with
        | inl hq => exact .inl hq
        | inr hq => exact .inr (by rw [List.mem_singleton.mp hq])
      | control h =>
        cases h with
        | popped _ hq' => exact .inl (by rw [hq']; exact List.mem_cons_of_mem _ hq)
        | _ => exact .inl hq
      | dial h | stopper h => cases h <;> exact .inl hq
      | reports _ h | reported _ h =>
        obtain ⟨hq', -⟩ := h.frame
        exact .inl (hq' ▸ hq)
      | handled _ _ h =>
        generalize Task.phase _ = phase at h
        cases h with
        | calls hk | ends hk =>
          obtain ⟨hq', -⟩ := hk.frame
          exact .inl (hq' ▸ hq)
        | _ => exact .inl hq
      | rejects | closes | exits | requests => exact .inl hq
    cases hqueue with
    | inl hq => exact hi.queue chunk hq
    | inr hpush => exact ha chunk hpush
  · obtain hp | ⟨-, hq⟩ | ⟨q, hq, -, rfl⟩ := h.pending hp
    · exact hi.pending p hp
    · exact hi.queue _ hq
    · exact hi.pending q hq

end Sender

end SuperVoice.Client
