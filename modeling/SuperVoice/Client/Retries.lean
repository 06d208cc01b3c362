import SuperVoice.Client.Finishing

/-! Failed chunks wait in a queue of their own, which the worker looks at before it blocks on the
queue of new chunks: a failure that comes after that look is not seen. -/
namespace SuperVoice.Client
open Bytes Transition
variable {o : SenderOptions}

namespace Sender

/-- The worker is blocked inside `queue_.pop()`. -/
structure BlockedInPop (s : Sender) : Prop where
  popping : s.worker = .popping
  empty : s.queue = []
  opened : s.closed = false

/-- A failed chunk waits for a new one: nothing that is still under way will wake the worker. -/
structure Forgotten (s : Sender) : Prop where
  blocked : s.BlockedInPop
  failed : s.retry ≠ []
  quiet : s.net.tasks = []

/-- No completion puts its chunk on the retry queue while the worker is blocked. -/
def FailsInTime (s : Sender) (a : SenderAction) : Prop :=
  ∀ i t others p, a.task = some i → Pool.take s.net.tasks i = some (t, others) →
    t.phase = .handling (.failure p) → p.attempt < o.maxAttempts → ¬s.BlockedInPop

/-- A worker that has found no failed chunk blocks only as long as there is none. -/
def Looked (s : Sender) : Prop :=
  s.worker = .popping → s.retry = [] ∨ s.queue ≠ [] ∨ s.closed = true

theorem Control.looked {s s' : Sender} (h : Control o s s') : s'.Looked := by
  cases h with
  | noRetry _ hr => exact fun _ => .inl hr
  | _ => exact fun hw => by cases hw

theorem Dial.looked {s s' : Sender} (h : Dial s s') : s'.Looked := by
  cases h <;> exact fun hw => by cases hw

theorem Called.looked {s s' : Sender} {k : Callback} {k' : Option Callback}
    (h : Called o s k k' s') (hi : s.Looked)
    (hg : ∀ p, k = .failure p → p.attempt < o.maxAttempts → ¬s.BlockedInPop) : s'.Looked := by
  cases h with
  | retries hlimit =>
    intro hw
    by_cases hq : s.queue = []
    · by_cases hc : s.closed = true
      · exact .inr (.inr hc)
      · exact absurd ⟨hw, hq, Bool.eq_false_iff.mpr hc⟩ (hg _ rfl hlimit)
    · exact .inr (.inl hq)
  | wakesRetry | wakesWorker | wakesFinishing => exact fun hw => by cases hw
  | sent | dropped | passesRetry | releases | wakesStopper | passesSlot | passesFinishing =>
    exact hi

theorem Handled.looked {s s' : Sender} {t : Task} {others : List Task}
    (h : Handled o s t.conn { s.net with tasks := others } t.phase s') (hi : s.Looked)
    (hg : ∀ p, t.phase = .handling (.failure p) → p.attempt < o.maxAttempts → ¬s.BlockedInPop) :
    s'.Looked := by
  generalize t.phase = phase at h hg
  cases h with
  | calls hk | ends hk =>
    refine (hk.looked (s := { s with net := _ }) hi fun p hp hlimit hb => ?_ : Looked _)
    exact hg p (by rw [hp]) hlimit ⟨hb.popping, hb.empty, hb.opened⟩
  | refuses | begins | succeeds | closes | writes | completes | fails => exact hi

theorem Moves.looked {s s' : Sender} {a : SenderAction} (h : Moves o s a s') (hi : s.Looked)
    (hg : FailsInTime (o := o) s a) : s'.Looked := by
  cases h with
  | rejects => exact hi
  | accepts => exact fun _ => .inr (.inl (by simp))
  | closes => exact fun _ => .inr (.inr rfl)
  | control h => exact h.looked
  | dial h => exact h.looked
  | reports | reported => exact fun hw => by cases hw
  | handled ha ht h => exact h.looked hi fun p hp hlimit => hg _ _ _ p ha ht hp hlimit
  | exits | requests => exact hi
  | stopper h =>
    cases h with
    | calls => exact fun _ => .inr (.inr rfl)
    | _ => exact hi

theorem looked_of_reach {s : Sender} (h : Reach (step o) (FailsInTime (o := o)) .start s) :
    s.Looked :=
  h.invariant (fun hw => by cases hw) fun _ _ _ hi hg hs => (moves_of_step hs).looked hi hg

/-- Over every run in which no completion fails while the worker is blocked, no failed chunk has
to wait for a new one. -/
theorem never_forgotten {s : Sender} (h : Reach (step o) (FailsInTime (o := o)) .start s) :
    ¬s.Forgotten := by
  intro hs
  obtain hr | hq | hc := looked_of_reach h hs.blocked.popping
  · exact hs.failed hr
  · exact hq hs.blocked.empty
  · rw [hs.blocked.opened] at hc
    cases hc

def twoAttempts : SenderOptions where
  connections := 1
  maxSendRetries := 2
  capacity := 4

/-- The worker posts the one chunk to its connection. -/
def posting : List SenderAction :=
  .push sampleChunk :: List.replicate 8 (.work true)

/-- Tasks move only while the worker is not in `queue_.pop()`. -/
def keepsAwake (s : Sender) : SenderAction → Bool
  | .handle _ | .write .. | .fail _ => s.worker != .popping
  | _ => true

theorem failsInTime_of_keepsAwake (s : Sender) (a : SenderAction) (h : s.keepsAwake a = true) :
    FailsInTime (o := twoAttempts) s a := by
  intro i t others p ha _ _ _ hblocked
  cases a with
  | handle | write | fail => exact absurd hblocked.popping (bne_iff_ne.mp h)
  | _ => cases ha

/-- The write fails before the worker looks at the retry queue. -/
theorem never_forgotten_sample : ∃ s : Sender, s.retry ≠ [] ∧ ¬s.Forgotten := by
  have hrun : (runIf (step twoAttempts) keepsAwake .start
      (posting ++ [.handle 0, .fail 0, .handle 0, .handle 0])).any (fun s => s.retry ≠ []) =
      true := by
    decide +kernel
  obtain ⟨s, hs, hend⟩ := (Option.any_eq_true ..).mp hrun
  exact ⟨s, of_decide_eq_true hend, never_forgotten (.of_runIf failsInTime_of_keepsAwake hs)⟩

/-- The write fails once the worker is inside `queue_.pop()`: the chunk waits there for ever, unless
the producer pushes another or closes the queue. -/
theorem forgotten : ¬ ∀ (o : SenderOptions) (s : Sender),
    Reachable (step o) .start s → ¬s.Forgotten := by
  intro hclaim
  have hrun : (run (step twoAttempts) .start (posting ++ [.work true, .work true, .handle 0,
      .fail 0, .handle 0, .handle 0, .handle 0, .handle 0, .handle 0])).any
      (fun s => s.worker = .popping && (s.queue = [] && (s.closed = false &&
        (s.retry ≠ [] && s.net.tasks = [])))) = true := by
    decide +kernel
  obtain ⟨s, hs, hend⟩ := (Option.any_eq_true ..).mp hrun
  simp only [Bool.and_eq_true, decide_eq_true_eq] at hend
  obtain ⟨hpopping, hempty, hopened, hfailed, hquiet⟩ := hend
  exact hclaim _ s (.of_run hs) ⟨⟨hpopping, hempty, hopened⟩, hfailed, hquiet⟩

end Sender

end SuperVoice.Client
