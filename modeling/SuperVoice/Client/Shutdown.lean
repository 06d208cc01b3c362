import SuperVoice.Client.Accounting

/-! What `stop` leaves behind. The worker looks at the stop request before the queues, so only a
stop that strikes when nothing is queued, and after which nothing fails, drops no chunk. -/
namespace SuperVoice.Client
open Bytes Transition
variable {o : SenderOptions}

/-- The worker holds a chunk and has no slot for it. -/
def Worker.unslotted : Worker → Bool
  | .acquiring _ | .acquireWaiting _ => true
  | _ => false

/-- The worker has found the queue closed and empty. -/
def Worker.inFinish : Worker → Bool
  | .locking | .deciding | .waiting | .resumed | .unlocked => true
  | _ => false

/-- `stop` has joined the worker. -/
def Stopper.hasJoined : Stopper → Bool
  | .idle | .closed | .requested => false
  | _ => true

/-- `wait_for_inflight_zero` has returned. -/
def Stopper.hasDrained : Stopper → Bool
  | .stopping _ | .joining _ | .returned => true
  | _ => false

namespace Sender

/-- Nothing is queued, and the worker holds no chunk without a slot. -/
structure Quiescent (s : Sender) : Prop where
  queue : s.queue = []
  retry : s.retry = []
  worker : s.worker.unslotted = false

/-- A stop is requested when nothing is queued, and from then on no attempt but the last fails. -/
structure OrderlyStop (o : SenderOptions) (s : Sender) (a : SenderAction) : Prop where
  request : a = .stop → s.stopper = .closed → s.Quiescent
  task : s.stopRequested = true → ∀ i t others p, a.task = some i →
    Pool.take s.net.tasks i = some (t, others) → t.phase = .handling (.failure p) →
      o.maxAttempts ≤ p.attempt
  work : s.stopRequested = true → ∀ ok p, a = .work ok → s.worker = .reporting (.failure p) →
    o.maxAttempts ≤ p.attempt

/-- The invariant behind an orderly shutdown. -/
structure Orderly (s : Sender) : Prop where
  slotted : s.Slotted
  conserved : s.Conserved
  closed : s.stopper ≠ .idle → s.closed = true
  requested : s.stopRequested = true → s.stopper ≠ .idle
  joined : s.stopper.hasJoined = true → s.worker = .exited
  drained : s.stopper.hasDrained = true → s.inflight = 0
  inFinish : s.worker.inFinish = true → s.queue = [] ∧ s.closed = true
  resumed : s.worker = .resumed → s.stopRequested = true ∨ s.retry ≠ [] ∨ s.inflight = 0
  unlocked : s.worker = .unlocked → s.retry = [] ∧ s.inflight = 0
  exited : s.worker = .exited → s.closed = true ∧ (s.stopRequested = true ∨ s.inflight = 0)
  quiet : s.stopRequested = true ∨ s.worker = .exited → s.Quiescent

theorem orderly_start : Sender.start.Orderly where
  slotted := slotted_start
  conserved := conserved_start
  closed h := absurd rfl h
  requested h := nomatch h
  joined h := nomatch h
  drained h := nomatch h
  inFinish h := nomatch h
  resumed h := nomatch h
  unlocked h := nomatch h
  exited h := nomatch h
  quiet h := by
    cases h with
    | inl h => cases h
    | inr h => cases h

/-- A move of the worker keeps the clauses about `stop`, which is not past its join yet. -/
theorem Orderly.step_worker {s s' : Sender} (hi : s.Orderly) (hs : s'.Slotted) (hc : s'.Conserved)
    (hw : s.worker ≠ .exited) (hclosed : s'.closed = s.closed)
    (hrequest : s'.stopRequested = s.stopRequested) (hst : s'.stopper = s.stopper)
    (hfin : s'.worker.inFinish = true → s'.queue = [] ∧ s'.closed = true)
    (hres : s'.worker = .resumed → s'.stopRequested = true ∨ s'.retry ≠ [] ∨ s'.inflight = 0)
    (hunl : s'.worker = .unlocked → s'.retry = [] ∧ s'.inflight = 0)
    (hex : s'.worker = .exited → s'.closed = true ∧ (s'.stopRequested = true ∨ s'.inflight = 0))
    (hquiet : s'.stopRequested = true ∨ s'.worker = .exited → s'.Quiescent) : s'.Orderly where
  slotted := hs
  conserved := hc
  closed h := by
    rw [hst] at h
    rw [hclosed]
    exact hi.closed h
  requested h := by
    rw [hrequest] at h
    rw [hst]
    exact hi.requested h
  joined h := by
    rw [hst] at h
    exact absurd (hi.joined h) hw
  drained h := by
    rw [hst] at h
    have hj : s.stopper.hasJoined = true := by
      cases hst' : s.stopper <;> rw [hst'] at h <;> first | rfl | cases h
    exact absurd (hi.joined hj) hw
  inFinish := hfin
  resumed := hres
  unlocked := hunl
  exited := hex
  quiet := hquiet

/-- The same where the worker is neither in the finishing wait nor at its end. -/
theorem Orderly.step_plain {s s' : Sender} (hi : s.Orderly) (hs : s'.Slotted) (hc : s'.Conserved)
    (hw : s.worker ≠ .exited) (hclosed : s'.closed = s.closed)
    (hrequest : s'.stopRequested = s.stopRequested) (hst : s'.stopper = s.stopper)
    (hfin : s'.worker.inFinish = false) (hex : s'.worker ≠ .exited)
    (hquiet : s.stopRequested = true → s'.Quiescent) : s'.Orderly := by
  refine hi.step_worker hs hc hw hclosed hrequest hst ?_ ?_ ?_ ?_ ?_
  · intro h
    rw [hfin] at h
    cases h
  · intro h
    rw [h] at hfin
    cases hfin
  · intro h
    rw [h] at hfin
    cases hfin
  · intro h
    exact absurd h hex
  · intro h
    cases h with
    | inl h => exact hquiet (hrequest ▸ h)
    | inr h => exact absurd h hex

theorem Control.orderly {s s' : Sender} (h : Control o s s') (hi : s.Orderly) : s'.Orderly := by
  have hquiet : s.stopRequested = true → s.Quiescent := fun h => hi.quiet (.inl h)
  have hd : s.stopRequested = true → ∀ p, s.worker ≠ .acquiring p := by
    intro hstop p hw
    have := (hquiet hstop).worker
    rw [hw] at this
    cases this
  have hs := h.slotted hi.slotted
  have hc := h.conserved hi.conserved hd
  have hclosed := fun h => hi.closed (hi.requested h)
  have hres := hi.resumed
  have hunl := hi.unlocked
  have hfin := hi.inFinish
  cases h with
  | goesOn hw | noRetry hw | returns hw | repeats hw | acquires hw | chooses hw =>
    refine hi.step_plain hs hc (by rw [hw]; nofun) rfl rfl rfl rfl nofun fun hstop => ?_
    exact ⟨(hquiet hstop).queue, (hquiet hstop).retry, rfl⟩
  | retries hw hr =>
    refine hi.step_plain hs hc (by rw [hw]; nofun) rfl rfl rfl rfl nofun fun hstop => ?_
    have := (hquiet hstop).retry
    rw [hr] at this
    cases this
  | popped hw hq =>
    refine hi.step_plain hs hc (by rw [hw]; nofun) rfl rfl rfl rfl nofun fun hstop => ?_
    have := (hquiet hstop).queue
    rw [hq] at this
    cases this
  | awaits hw hstop =>
    refine hi.step_plain hs hc (by rw [hw]; nofun) rfl rfl rfl rfl nofun fun hstop' => ?_
    rw [hstop] at hstop'
    cases hstop'
  | wakesSlot hw =>
    refine hi.step_plain hs hc (by rw [hw]; nofun) rfl rfl rfl rfl nofun fun hstop => ?_
    have := (hquiet hstop).worker
    rw [hw] at this
    cases this
  | drained hw hq hclosed =>
    refine hi.step_worker hs hc (by rw [hw]; nofun) rfl rfl rfl (fun _ => ⟨hq, hclosed⟩) nofun nofun
      nofun fun hstop => ?_
    obtain hstop | hstop := hstop
    · exact ⟨hq, (hquiet hstop).retry, rfl⟩
    · cases hstop
  | resumed hw h =>
    refine hi.step_worker hs hc (by rw [hw]; nofun) rfl rfl rfl (fun _ => hfin (by rw [hw]; rfl))
      (fun _ => h) nofun nofun fun hstop => ?_
    obtain hstop | hstop := hstop
    · exact ⟨(hquiet hstop).queue, (hquiet hstop).retry, rfl⟩
    · cases hstop
  | decided hw | waits hw | wakes hw =>
    refine hi.step_worker hs hc (by rw [hw]; nofun) rfl rfl rfl (fun _ => hfin (by rw [hw]; rfl))
      nofun nofun nofun fun hstop => ?_
    obtain hstop | hstop := hstop
    · exact ⟨(hquiet hstop).queue, (hquiet hstop).retry, rfl⟩
    · cases hstop
  | unlocks hw hstop hr =>
    have hinflight : s.inflight = 0 := by
      obtain h | h | h := hres hw
      · rw [hstop] at h
        cases h
      · exact absurd hr h
      · exact h
    refine hi.step_worker hs hc (by rw [hw]; nofun) rfl rfl rfl (fun _ => hfin (by rw [hw]; rfl))
      nofun (fun _ => ⟨hr, hinflight⟩) nofun fun hstop => ?_
    obtain hstop | hstop := hstop
    · exact ⟨(hquiet hstop).queue, hr, rfl⟩
    · cases hstop
  | stopped hw hstop | leaves hw hstop =>
    refine hi.step_worker hs hc (by rw [hw]; nofun) rfl rfl rfl nofun nofun nofun
      (fun _ => ⟨hclosed hstop, .inl hstop⟩) fun _ => ?_
    exact ⟨(hquiet hstop).queue, (hquiet hstop).retry, rfl⟩
  | finishes hw hinflight =>
    have hq := hfin (by rw [hw]; rfl)
    refine hi.step_worker hs hc (by rw [hw]; nofun) rfl rfl rfl nofun nofun nofun
      (fun _ => ⟨hq.2, .inr hinflight⟩) fun _ => ?_
    exact ⟨hq.1, (hunl hw).1, rfl⟩
  | discards hw hstop => exact absurd hw (hd hstop _)

theorem Dial.orderly {s s' : Sender} (h : Dial s s') (hi : s.Orderly) : s'.Orderly := by
  have hquiet : s.stopRequested = true → s.Quiescent := fun h => hi.quiet (.inl h)
  have hs := h.slotted hi.slotted
  have hc := h.conserved hi.conserved
  cases h with
  | isOpen hw | emplaces hw | unresolved hw | connects hw | crashes hw | reattempts hw
  | givesUp hw | dispatches hw =>
    refine hi.step_plain hs hc (by rw [hw]; nofun) rfl rfl rfl rfl nofun fun hstop => ?_
    exact ⟨(hquiet hstop).queue, (hquiet hstop).retry, rfl⟩

/-- A callback of a task keeps the invariant if it pushes nothing after a stop request. -/
theorem Called.orderly {s s' : Sender} {n net : Net} {k : Callback} {k' : Option Callback}
    (h : Called o { s with net := n } k k' s') (hi : s.Orderly) (hslots : k.slots ≤ s.inflight)
    (hpush : s.stopRequested = true → ∀ p, k = .failure p → o.maxAttempts ≤ p.attempt)
    (hs : { s' with net }.Slotted) (hc : { s' with net }.Conserved) : { s' with net }.Orderly := by
  cases h with
  | sent | dropped | passesRetry | passesSlot | passesFinishing =>
    exact ⟨hs, hc, hi.closed, hi.requested, hi.joined, hi.drained, hi.inFinish, hi.resumed,
      hi.unlocked, hi.exited, fun h => ⟨(hi.quiet h).queue, (hi.quiet h).retry, (hi.quiet h).worker⟩⟩
  | retries hlt hfree =>
    have hinflight : s.inflight ≠ 0 := by
      simp only [Callback.slots] at hslots
      omega
    have hnostop : s.stopRequested ≠ true := fun hstop =>
      absurd (hpush hstop _ rfl) (Nat.not_le_of_lt hlt)
    refine ⟨hs, hc, hi.closed, hi.requested, hi.joined, hi.drained, hi.inFinish, ?_, ?_, hi.exited, ?_⟩
    · intro hw
      exact absurd (.inr hw) hfree
    · intro hw
      exact absurd (hi.unlocked hw).2 hinflight
    · intro hq
      cases hq with
      | inl hstop => exact absurd hstop hnostop
      | inr hw =>
        cases (hi.exited hw).2 with
        | inl hstop => exact absurd hstop hnostop
        | inr hz => exact absurd hz hinflight
  | wakesRetry hw | wakesFinishing hw =>
    have hw' : s.worker = .waiting := hw
    have hlocking : ∀ {w P}, w ≠ Worker.locking → Worker.locking = w → P := fun hne h =>
      absurd h.symm hne
    refine hi.step_worker hs hc (by simp [hw']) rfl rfl rfl
      (fun _ => hi.inFinish (by rw [hw']; rfl)) (hlocking (by simp)) (hlocking (by simp))
      (hlocking (by simp)) fun hstop => ?_
    obtain hstop | hstop := hstop
    · exact ⟨(hi.quiet (.inl hstop)).queue, (hi.quiet (.inl hstop)).retry, rfl⟩
    · cases hstop
  | releases =>
    have hzero : s.inflight = 0 → s.inflight - 1 = 0 := fun h => by rw [h]
    refine ⟨hs, hc, hi.closed, hi.requested, hi.joined, fun h => hzero (hi.drained h), hi.inFinish,
      fun h => (hi.resumed h).imp_right (Or.imp_right hzero),
      fun h => (hi.unlocked h).imp_right hzero,
      fun h => (hi.exited h).imp_right (Or.imp_right hzero), ?_⟩
    exact fun h => ⟨(hi.quiet h).queue, (hi.quiet h).retry, (hi.quiet h).worker⟩
  | wakesWorker hw =>
    have hw' : s.worker = .acquireWaiting _ := hw
    apply hi.step_plain hs hc (by simp [hw']) rfl rfl rfl rfl (by simp)
    intro hstop
    have := (hi.quiet (.inl hstop)).worker
    rw [hw'] at this
    cases this
  | wakesStopper hw hst =>
    have hst' : s.stopper = .drainWaiting := hst
    refine ⟨hs, hc, fun _ => hi.closed (by simp [hst']), fun _ => by simp,
      fun _ => hi.joined (by rw [hst']; rfl), fun h => ?_, hi.inFinish, hi.resumed, hi.unlocked,
      hi.exited, fun h => ⟨(hi.quiet h).queue, (hi.quiet h).retry, (hi.quiet h).worker⟩⟩
    cases h

/-- A move of `stop` keeps the clauses about the worker. -/
theorem Orderly.step_stop {s s' : Sender} (hi : s.Orderly) (hs : s'.Slotted) (hc : s'.Conserved)
    (hw : s'.worker = s.worker) (hq : s'.queue = s.queue) (hr : s'.retry = s.retry)
    (hinflight : s'.inflight = s.inflight) (hrequest : s'.stopRequested = s.stopRequested)
    (hclosed : s'.closed = true) (hst : s'.stopper ≠ .idle)
    (hjoined : s'.stopper.hasJoined = true → s.worker = .exited)
    (hdrained : s'.stopper.hasDrained = true → s.inflight = 0) : s'.Orderly where
  slotted := hs
  conserved := hc
  closed _ := hclosed
  requested _ := hst
  joined h := hw ▸ hjoined h
  drained h := hinflight ▸ hdrained h
  inFinish h := ⟨hq ▸ (hi.inFinish (hw ▸ h)).1, hclosed⟩
  resumed h := by
    rw [hrequest, hr, hinflight]
    exact hi.resumed (hw ▸ h)
  unlocked h := by
    rw [hr, hinflight]
    exact hi.unlocked (hw ▸ h)
  exited h := by
    rw [hrequest, hinflight]
    exact ⟨hclosed, (hi.exited (hw ▸ h)).2⟩
  quiet h := by
    rw [hrequest, hw] at h
    have := hi.quiet h
    exact ⟨hq ▸ this.queue, hr ▸ this.retry, hw ▸ this.worker⟩

theorem Stops.orderly {s s' : Sender} (h : Stops o s s') (hi : s.Orderly) : s'.Orderly := by
  have hs := h.slotted hi.slotted
  have hc := h.conserved hi.conserved
  have hclosed := hi.closed
  have hjoined := hi.joined
  have hdrained := hi.drained
  cases h with
  | calls => exact hi.step_stop hs hc rfl rfl rfl rfl rfl rfl nofun nofun nofun
  | joins hst hw =>
    exact hi.step_stop hs hc rfl rfl rfl rfl rfl (hclosed (by rw [hst]; nofun)) nofun
      (fun _ => hw) nofun
  | waits hst | wakes hst =>
    exact hi.step_stop hs hc rfl rfl rfl rfl rfl (hclosed (by rw [hst]; nofun)) nofun
      (fun _ => hjoined (by rw [hst]; rfl)) nofun
  | drains hst hz =>
    exact hi.step_stop hs hc rfl rfl rfl rfl rfl (hclosed (by rw [hst]; nofun)) nofun
      (fun _ => hjoined (by rw [hst]; rfl)) (fun _ => hz)
  | stops hst | returns hst | joined hst =>
    exact hi.step_stop hs hc rfl rfl rfl rfl rfl (hclosed (by rw [hst]; nofun)) nofun
      (fun _ => hjoined (by rw [hst]; rfl)) (fun _ => hdrained (by rw [hst]; rfl))

/-- A callback of the worker itself finds nobody asleep. -/
theorem Called.orderly_worker {s s' : Sender} {k : Callback} {k' : Option Callback} {w : Worker}
    (h : Called o s k k' s') (hi : s.Orderly) (hw : s.worker = .reporting k)
    (hpush : s.stopRequested = true → ∀ p, k = .failure p → o.maxAttempts ≤ p.attempt)
    (hfin : w.inFinish = false) (hex : w ≠ .exited) (hunslotted : w.unslotted = false)
    (hs : { s' with worker := w }.Slotted)
    (hc : { s' with worker := w }.Conserved) : { s' with worker := w }.Orderly := by
  have hquiet := hi.quiet
  have hjoined := hi.joined
  cases h with
  | retries hlt =>
    apply hi.step_plain hs hc (by rw [hw]; nofun) rfl rfl rfl hfin hex
    intro hstop
    exact absurd (hpush hstop _ rfl) (Nat.not_le_of_lt hlt)
  | wakesRetry hw' | wakesFinishing hw' | wakesWorker hw' =>
    rw [hw] at hw'
    cases hw'
  | wakesStopper _ hst =>
    have := hjoined (by rw [hst]; rfl)
    rw [hw] at this
    cases this
  | sent | dropped | passesRetry | passesSlot | passesFinishing | releases =>
    apply hi.step_plain hs hc (by rw [hw]; nofun) rfl rfl rfl hfin hex
    intro hstop
    exact ⟨(hquiet (.inl hstop)).queue, (hquiet (.inl hstop)).retry, hunslotted⟩

theorem Moves.orderly {s s' : Sender} {a : SenderAction} (h : Moves o s a s') (hi : s.Orderly)
    (hg : OrderlyStop o s a) : s'.Orderly := by
  have hd : s.stopRequested = true → ∀ p, s.worker ≠ .acquiring p := by
    intro hstop p hw
    have := (hi.quiet (.inl hstop)).worker
    rw [hw] at this
    cases this
  have hs := h.slotted hi.slotted
  have hc := h.conserved hi.conserved hd
  have hquiet := hi.quiet
  cases h with
  | rejects => exact hi
  | accepts hopen =>
    have hidle : ∀ {P : Prop}, (P → s.closed = true) → P → False := by
      intro P hP h
      rw [hP h] at hopen
      cases hopen
    refine ⟨hs, hc, fun h => ?_, hi.requested, hi.joined, hi.drained, fun h => ?_, hi.resumed,
      hi.unlocked, fun h => ?_, fun h => ?_⟩
    · exact (hidle hi.closed h).elim
    · exact (hidle (fun h => (hi.inFinish h).2) h).elim
    · exact (hidle (fun h => (hi.exited h).1) h).elim
    · cases h with
      | inl h => exact (hidle (fun h => hi.closed (hi.requested h)) h).elim
      | inr h => exact (hidle (fun h => (hi.exited h).1) h).elim
  | closes =>
    exact ⟨hs, hc, fun _ => rfl, hi.requested, hi.joined, hi.drained,
      fun h => ⟨(hi.inFinish h).1, rfl⟩, hi.resumed, hi.unlocked, fun h => ⟨rfl, (hi.exited h).2⟩,
      fun h => ⟨(hquiet h).queue, (hquiet h).retry, (hquiet h).worker⟩⟩
  | control h => exact h.orderly hi
  | dial h => exact h.orderly hi
  | reports hw h | reported hw h =>
    refine h.orderly_worker hi hw (fun hstop p hp => ?_) rfl (by simp) rfl hs hc
    exact hg.work hstop _ p rfl (hp ▸ hw)
  | @handled _ _ i t others ha ht h =>
    have hle : t.phase.slots ≤ s.inflight := by
      have := hi.slotted
      rw [Slotted, taskSlots, Pool.sum_of_take ht] at this
      simp only [Task.slots] at this
      omega
    have hpush : s.stopRequested = true → ∀ p, t.phase = .handling (.failure p) →
        o.maxAttempts ≤ p.attempt := fun hstop p hp => hg.task hstop i t others p ha ht hp
    generalize t.phase = phase at h hle hpush
    cases h with
    | calls hk =>
      exact hk.orderly hi hle (fun hstop p hp => hpush hstop p (by rw [hp])) hs hc
    | ends hk => exact hk.orderly hi hle (fun hstop p hp => hpush hstop p (by rw [hp])) hs hc
    | _ =>
      exact ⟨hs, hc, hi.closed, hi.requested, hi.joined, hi.drained, hi.inFinish, hi.resumed,
        hi.unlocked, hi.exited, fun h => ⟨(hquiet h).queue, (hquiet h).retry, (hquiet h).worker⟩⟩
  | exits =>
    exact ⟨hs, hc, hi.closed, hi.requested, hi.joined, hi.drained, hi.inFinish, hi.resumed,
      hi.unlocked, hi.exited, fun h => ⟨(hquiet h).queue, (hquiet h).retry, (hquiet h).worker⟩⟩
  | requests hst =>
    have hclosed := hi.closed (by simp [hst])
    have hq := hg.request rfl hst
    refine ⟨hs, hc, fun _ => hclosed, fun _ => by simp, fun h => ?_, fun h => ?_, hi.inFinish,
      fun _ => .inl rfl, hi.unlocked, fun _ => ⟨hclosed, .inl rfl⟩,
      fun _ => ⟨hq.queue, hq.retry, hq.worker⟩⟩
    · cases h
    · cases h
  | stopper h => exact h.orderly hi

/-- A chunk whose task has given its slot back is reported or queued again. -/
theorem weight_of_slots {w : FileChunk → Nat} {phase : Phase} (h : phase.slots = 0) :
    phase.weight w = 0 := by
  cases phase with
  | handling k => cases k <;> first | rfl | cases h
  | _ => cases h

theorem taskWeight_of_slots {w : FileChunk → Nat} {tasks : List Task} (h : taskSlots tasks = 0) :
    taskWeight w tasks = 0 := by
  induction tasks with
  | nil => rfl
  | cons t tasks ih =>
    rw [taskSlots_cons] at h
    rw [taskWeight_cons, weight_of_slots (by omega), ih (by omega)]

theorem sum_indicator (c : FileChunk) (l : List FileChunk) :
    (l.map fun d => if d = c then 1 else 0).sum = l.count c := by
  induction l with
  | nil => rfl
  | cons d l ih =>
    rw [List.map_cons, List.sum_cons, ih, List.count_cons, Nat.add_comm]
    simp only [beq_iff_eq]

/-- Once `stop` has returned, the reports are the accepted chunks. -/
theorem Orderly.reported {s : Sender} (hi : s.Orderly) (h : s.stopper = .returned) :
    s.accepted.Perm (s.reports.map Report.chunk) := by
  have hw := hi.joined (by rw [h]; rfl)
  have hz := hi.drained (by rw [h]; rfl)
  have hq := hi.quiet (.inr hw)
  have hslots : taskSlots s.net.tasks = 0 := by
    have := hi.slotted
    unfold Slotted at this
    omega
  apply List.perm_iff_count.mpr
  intro c
  have hsum := hi.conserved fun d => if d = c then 1 else 0
  rw [taskWeight_of_slots hslots, hq.queue, hq.retry, hw, sum_indicator] at hsum
  rw [hsum, ← sum_indicator, List.map_map]
  simp only [List.map_nil, List.sum_nil, retryWeight, reportWeight, Worker.weight, Worker.pending,
    pendingWeight_none, Nat.zero_add, Function.comp_def]

/-- Over every run with an orderly stop, each accepted chunk has been reported exactly once when
`stop` returns, as sent or as dropped after its last attempt, and nothing is left queued. -/
theorem reported_once {s : Sender} (h : Reach (step o) (OrderlyStop o) .start s)
    (hr : s.stopper = .returned) : s.accepted.Perm (s.reports.map Report.chunk) ∧
      (∀ p, .dropped p ∈ s.reports → p.attempt = o.maxAttempts) ∧ s.queue = [] ∧ s.retry = [] := by
  have horderly : s.Orderly :=
    h.invariant orderly_start fun _ _ _ hi hg hs => (moves_of_step hs).orderly hi hg
  have hlimited : Limited o s :=
    h.invariant limited_start fun _ _ _ hi _ hs => (moves_of_step hs).limited hi
  have hq := horderly.quiet (.inr (horderly.joined (by rw [hr]; rfl)))
  exact ⟨horderly.reported hr, hlimited.dropped, hq.queue, hq.retry⟩

/-- The request finds nothing queued, and behind it no callback runs. -/
def calm (s : Sender) : SenderAction → Bool
  | .stop => s.stopper != .closed ||
      (s.queue.isEmpty && s.retry.isEmpty && !s.worker.unslotted)
  | .work _ => !s.stopRequested || s.worker.inFinish || s.worker == .popping
  | .handle _ | .write .. | .fail _ => !s.stopRequested
  | _ => true

theorem orderlyStop_of_calm (s : Sender) (a : SenderAction) (h : s.calm a = true) :
    OrderlyStop o s a := by
  constructor
  · intro ha hst
    subst ha
    simp only [calm, hst, bne_self_eq_false, Bool.false_or, Bool.and_eq_true, List.isEmpty_iff,
      Bool.not_eq_true'] at h
    exact ⟨h.1.1, h.1.2, h.2⟩
  · intro hstop i t others p ha
    cases a with
    | handle | write | fail =>
      simp only [calm, hstop] at h
      cases h
    | _ => cases ha
  · intro hstop ok p ha hw
    subst ha
    simp only [calm, hstop, hw] at h
    cases h

/-- A chunk, one connection and no retries. -/
def sampleChunk : FileChunk := ⟨⟨ascii "f", 2, 0⟩, ascii "0", 0, 1, ascii "hi"⟩

def sampleOptions : SenderOptions where
  connections := 1
  maxSendRetries := 1
  capacity := 4

/-- The chunk is sent, then the sender is stopped. -/
theorem reported_once_sample : ∃ s : Sender, s.accepted = [sampleChunk] ∧
    s.accepted.Perm (s.reports.map Report.chunk) := by
  let labels : List SenderAction :=
    [.push sampleChunk, .work true, .work true, .work true, .work true, .work true, .work true,
      .work true, .work true, .handle 0, .write 0 (serialize sampleChunk).length, .handle 0,
      .handle 0, .handle 0, .handle 0, .work true, .work true, .callStop, .stop, .work true,
      .work true, .work true, .stop, .stop, .stop, .exitRunner 0, .stop, .stop]
  have hrun : (runIf (step sampleOptions) calm .start labels).any
      (fun s => s.stopper = .returned && s.accepted = [sampleChunk]) = true := by
    decide +kernel
  obtain ⟨s, hs, hend⟩ := (Option.any_eq_true ..).mp hrun
  simp only [Bool.and_eq_true, decide_eq_true_eq] at hend
  exact ⟨s, hend.2, (reported_once (.of_runIf orderlyStop_of_calm hs) hend.1).1⟩

/-- The stop strikes before the worker has taken the chunk from the queue. -/
theorem reported_once_fails : ¬ ∀ (o : SenderOptions) (s : Sender),
    Reachable (step o) .start s → s.stopper = .returned →
      s.accepted.Perm (s.reports.map Report.chunk) := by
  intro hclaim
  let labels : List SenderAction :=
    [.push sampleChunk, .callStop, .stop, .work true, .stop, .stop, .stop, .stop, .stop]
  have hrun : (run (step sampleOptions) .start labels).any (fun s => s.stopper = .returned &&
      (s.accepted = [sampleChunk] && s.reports = [])) = true := by
    decide +kernel
  obtain ⟨s, hs, hend⟩ := (Option.any_eq_true ..).mp hrun
  simp only [Bool.and_eq_true, decide_eq_true_eq] at hend
  have hperm := hclaim _ s (.of_run hs) hend.1
  rw [hend.2.1, hend.2.2] at hperm
  exact absurd hperm.length_eq (by decide)

end Sender

end SuperVoice.Client
