import SuperVoice.Client.Shutdown

/-! The finishing wait of the worker. Its predicate reads `inflight_`, which the handlers change
without `retry_mutex_`: a notification sent between the predicate and the wait is lost. -/
namespace SuperVoice.Client
open Bytes Transition
variable {o : SenderOptions}

/-- The finishing wait is about to be notified. -/
def Callback.NotifiesRetry (k : Callback) : Prop := k = .notifying true ∨ k = .notifyingRetry

namespace Sender

/-- The worker waits for a notification that nobody will send. -/
structure Deadlocked (s : Sender) : Prop where
  waiting : s.worker = .waiting
  inflight : s.inflight = 0
  finished : ∀ t ∈ s.net.tasks, ∀ k, t.phase ≠ .handling k

/-- No handler notifies the finishing wait between the worker's predicate and its wait. -/
def NotifiesWaiting (s : Sender) (a : SenderAction) : Prop :=
  ∀ i t others, a.task = some i → Pool.take s.net.tasks i = some (t, others) →
    t.phase = .handling .notifyingRetry → s.worker ≠ .deciding

/-- Some handler stands where `P` says. -/
def Calling (P : Callback → Prop) (tasks : List Task) : Prop :=
  ∃ t ∈ tasks, ∃ k, t.phase = .handling k ∧ P k

theorem Calling.abort {P : Callback → Prop} {tasks : List Task} (h : Calling P tasks) (c : Nat) :
    Calling P (tasks.map (Task.abort c)) := by
  obtain ⟨t, ht, k, hp, hk⟩ := h
  refine ⟨t.abort c, List.mem_map_of_mem ht, k, ?_, hk⟩
  unfold Task.abort
  split
  · show t.phase.abort = _
    rw [hp]
    rfl
  · exact hp

/-- The handler is still among the others unless it is the one that was taken out. -/
theorem Calling.of_take {P : Callback → Prop} {tasks others : List Task} {t : Task} {i : Nat}
    (h : Calling P tasks) (ht : Pool.take tasks i = some (t, others)) :
    Calling P others ∨ ∃ k, t.phase = .handling k ∧ P k := by
  obtain ⟨t', ht', hp⟩ := h
  cases List.mem_cons.mp ((Pool.perm_of_take ht).mem_iff.mp ht') with
  | inl he => exact .inr (he ▸ hp)
  | inr hmem => exact .inl ⟨t', hmem, hp⟩

theorem Calling.cons {P : Callback → Prop} {tasks : List Task} (h : Calling P tasks) (t : Task) :
    Calling P (t :: tasks) := by
  obtain ⟨t', ht', hp⟩ := h
  exact ⟨t', List.mem_cons_of_mem t ht', hp⟩

/-- The invariant behind the finishing wait: once no slot is taken, its notification is on the
way as long as the worker has not left the wait. -/
structure Heard (s : Sender) : Prop where
  finishing : s.worker.inFinish = true → s.finishing = true
  notified : s.worker = .deciding ∨ s.worker = .waiting → s.inflight = 0 →
    Calling Callback.NotifiesRetry s.net.tasks

theorem heard_start : Sender.start.Heard where
  finishing h := nomatch h
  notified h := by
    obtain h | h := h <;> cases h

/-- Outside the finishing wait the invariant asks for nothing. -/
theorem heard_of_notInFinish {s : Sender} (h : s.worker.inFinish = false) : s.Heard := by
  constructor
  · intro hf
    rw [h] at hf
    cases hf
  · intro hw
    obtain hw | hw := hw <;> rw [hw] at h <;> cases h

theorem Control.heard {s s' : Sender} (h : Control o s s') (hi : s.Heard) : s'.Heard := by
  have hfin := hi.finishing
  have hnot := hi.notified
  cases h with
  | drained => exact ⟨fun _ => rfl, fun h => by obtain h | h := h <;> cases h⟩
  | resumed hw | unlocks hw | wakes hw =>
    exact ⟨fun _ => hfin (by rw [hw]; rfl), fun h => by obtain h | h := h <;> cases h⟩
  | decided hw _ _ hinflight =>
    exact ⟨fun _ => hfin (by rw [hw]; rfl), fun _ hz => absurd hz hinflight⟩
  | waits hw => exact ⟨fun _ => hfin (by rw [hw]; rfl), fun _ hz => hnot (.inl hw) hz⟩
  | _ => exact heard_of_notInFinish rfl

/-- A callback passes the pending notification on, and the last release brings it about. -/
theorem Called.heard {s s' : Sender} {n net : Net} {k : Callback} {k' : Option Callback}
    (others : List Task) (h : Called o { s with net := n } k k' s') (hi : s.Heard)
    (htake : Calling Callback.NotifiesRetry s.net.tasks →
      Calling Callback.NotifiesRetry others ∨ k.NotifiesRetry)
    (hg : k = .notifyingRetry → s.worker ≠ .deciding)
    (hold : Calling Callback.NotifiesRetry others → Calling Callback.NotifiesRetry net.tasks)
    (hnew : ∀ k₁, k' = some k₁ → k₁.NotifiesRetry → Calling Callback.NotifiesRetry net.tasks) :
    { s' with net }.Heard := by
  have hfin := hi.finishing
  have hnot := hi.notified
  cases h with
  | sent | dropped | retries | passesRetry =>
    refine ⟨hfin, fun hw hz => ?_⟩
    obtain h | h | h := htake (hnot hw hz)
    · exact hold h
    · cases h
    · cases h
  | wakesRetry hw | wakesFinishing hw =>
    have hw' : s.worker = .waiting := hw
    exact ⟨fun _ => hfin (by rw [hw']; rfl), fun h => by obtain h | h := h <;> cases h⟩
  | releases =>
    refine ⟨hfin, fun hw hz => hnew _ rfl (.inl ?_)⟩
    have hfinishing : s.finishing = true := hfin (by
      obtain hw | hw := hw
      · rw [show s.worker = .deciding from hw]; rfl
      · rw [show s.worker = .waiting from hw]; rfl)
    have hz' : s.inflight - 1 = 0 := hz
    simp only [hz', hfinishing, beq_self_eq_true, Bool.and_self]
  | wakesWorker => exact heard_of_notInFinish rfl
  | wakesStopper | passesSlot =>
    refine ⟨hfin, fun hw hz => ?_⟩
    obtain h | h | h := htake (hnot hw hz)
    · exact hold h
    · cases h
      exact hnew _ rfl (.inr rfl)
    · cases h
  | passesFinishing hne =>
    refine ⟨hfin, fun hw hz => ?_⟩
    obtain hw | hw := hw
    · exact absurd hw (hg rfl)
    · exact absurd hw hne

theorem Handled.heard {s s' : Sender} {t : Task} {others : List Task} {i : Nat}
    (ht : Pool.take s.net.tasks i = some (t, others))
    (h : Handled o s t.conn { s.net with tasks := others } t.phase s') (hi : s.Heard)
    (hg : t.phase = .handling .notifyingRetry → s.worker ≠ .deciding) : s'.Heard := by
  have hfin := hi.finishing
  have hnot := hi.notified
  have htake : Calling Callback.NotifiesRetry s.net.tasks →
      Calling Callback.NotifiesRetry others ∨ ∃ k, t.phase = .handling k ∧ k.NotifiesRetry :=
    fun h => h.of_take ht
  generalize t.phase = phase at h hg htake
  cases h with
  | calls hk =>
    obtain ⟨-, -, -, -, hnet, -⟩ := hk.frame
    refine hk.heard others hi (fun h => ?_) (fun h => hg (by rw [h])) (fun h => ?_)
      fun k₁ hk₁ hn => ?_
    · obtain h | ⟨_, hk, hn⟩ := htake h
      · exact .inl h
      · cases hk
        exact .inr hn
    · rw [hnet]
      exact h.cons _
    · cases hk₁
      exact ⟨_, List.mem_cons_self, _, rfl, hn⟩
  | ends hk =>
    obtain ⟨-, -, -, -, hnet, -⟩ := hk.frame
    refine hk.heard others hi (fun h => ?_) (fun h => hg (by rw [h])) (fun h => ?_) nofun
    · obtain h | ⟨_, hk, hn⟩ := htake h
      · exact .inl h
      · cases hk
        exact .inr hn
    · rw [hnet]
      exact h
  | closes =>
    refine ⟨hfin, fun hw hz => ?_⟩
    obtain h | ⟨_, hk, -⟩ := htake (hnot hw hz)
    · exact (h.abort t.conn).cons _
    · cases hk
  | refuses | begins | succeeds | writes | completes | fails =>
    refine ⟨hfin, fun hw hz => ?_⟩
    obtain h | ⟨_, hk, -⟩ := htake (hnot hw hz)
    · exact h.cons _
    · cases hk

theorem Moves.heard {s s' : Sender} {a : SenderAction} (h : Moves o s a s') (hi : s.Heard)
    (hg : NotifiesWaiting s a) : s'.Heard := by
  cases h with
  | rejects => exact hi
  | control h => exact h.heard hi
  | dial h =>
    cases h <;> exact heard_of_notInFinish rfl
  | reports | reported => exact heard_of_notInFinish rfl
  | handled ha ht h => exact h.heard ht hi (hg _ _ _ ha ht)
  | stopper h =>
    cases h with
    | stops => exact ⟨hi.finishing, fun hw hz => (hi.notified hw hz).abort _⟩
    | _ => exact ⟨hi.finishing, hi.notified⟩
  | accepts | closes | exits | requests => exact ⟨hi.finishing, hi.notified⟩

/-- Over every run in which no notification falls between predicate and wait, the worker is
never left waiting. -/
theorem never_deadlocked {s : Sender} (h : Reach (step o) NotifiesWaiting .start s) :
    ¬s.Deadlocked := by
  intro hdead
  have hheard : s.Heard :=
    h.invariant heard_start fun _ _ _ hi hg hs => (moves_of_step hs).heard hi hg
  obtain ⟨t, ht, k, hp, -⟩ := hheard.notified (.inr hdead.waiting) hdead.inflight
  exact hdead.finished t ht k hp

/-- No task moves while the worker is between predicate and wait. -/
def undisturbed (s : Sender) : SenderAction → Bool
  | .handle _ | .write .. | .fail _ => s.worker != .deciding
  | _ => true

theorem notifiesWaiting_of_undisturbed (s : Sender) (a : SenderAction)
    (h : s.undisturbed a = true) : NotifiesWaiting s a := by
  intro i t others ha _ _
  cases a with
  | handle | write | fail => exact bne_iff_ne.mp h
  | _ => cases ha

/-- The worker waits for the one chunk in flight. -/
theorem never_deadlocked_sample : ∃ s : Sender, s.worker = .waiting ∧ ¬s.Deadlocked := by
  let labels : List SenderAction :=
    [.push sampleChunk, .work true, .work true, .work true, .work true, .work true, .work true,
      .work true, .work true, .close, .work true, .work true, .work true, .work true, .work true]
  have hrun : (runIf (step sampleOptions) undisturbed .start labels).any
      (fun s => s.worker = .waiting) = true := by
    decide +kernel
  obtain ⟨s, hs, hend⟩ := (Option.any_eq_true ..).mp hrun
  exact ⟨s, of_decide_eq_true hend,
    never_deadlocked (.of_runIf notifiesWaiting_of_undisturbed hs)⟩

/-- The last handler gives its slot back and notifies while the worker is between predicate and
wait. -/
theorem never_deadlocked_fails : ¬ ∀ (o : SenderOptions) (s : Sender),
    Reachable (step o) .start s → ¬s.Deadlocked := by
  intro hclaim
  let labels : List SenderAction :=
    [.push sampleChunk, .work true, .work true, .work true, .work true, .work true, .work true,
      .work true, .work true, .handle 0, .write 0 (serialize sampleChunk).length, .close,
      .work true, .work true, .work true, .work true, .handle 0, .handle 0, .handle 0, .handle 0,
      .handle 0, .work true]
  have hrun : (run (step sampleOptions) .start labels).any (fun s => s.worker = .waiting &&
      (s.inflight = 0 && s.net.tasks = [])) = true := by
    decide +kernel
  obtain ⟨s, hs, hend⟩ := (Option.any_eq_true ..).mp hrun
  simp only [Bool.and_eq_true, decide_eq_true_eq] at hend
  refine hclaim _ s (.of_run hs) ⟨hend.1, hend.2.1, fun t ht => ?_⟩
  rw [hend.2.2] at ht
  cases ht

end Sender

end SuperVoice.Client
