import Mathlib.Data.Finset.Card
import Mathlib.Data.Finset.Range
import SuperVoice.Client.Serving

/-! `wait_for_inflight_zero`. As long as every connection is attended to, something can move
while `stop` waits, and whatever moves uses up the work that is left. -/
namespace SuperVoice.Client
open Bytes Transition
variable {o : SenderOptions}

/-- A step of the program itself, of the sockets or of the event loops: no call from outside and
no thread that wakes up unnotified. -/
def SenderAction.Internal : SenderAction → Prop
  | .push _ | .close | .callStop | .wakeWorker | .wakeStopper => False
  | .work _ | .handle _ | .write .. | .fail _ | .exitRunner _ | .stop => True

/-- `stop` is inside `wait_for_inflight_zero`. -/
def Stopper.Drains (st : Stopper) : Prop := st = .draining ∨ st = .drainWaiting

/-- The steps a callback has yet to take, at most. -/
def Callback.left : Callback → Nat
  | .success _ | .failure _ => 5
  | .retried => 4
  | .releasing => 3
  | .notifying _ => 2
  | .notifyingRetry => 1

def Phase.left : Phase → Nat
  | .posted p => 8 + (serialize p.chunk).length
  | .writing _ _ rest => 7 + rest.length
  | .completed .. => 6
  | .handling k => k.left

theorem Phase.left_abort (phase : Phase) : phase.abort.left ≤ phase.left := by
  cases phase with
  | writing p x rest =>
    show 6 ≤ 7 + rest.length
    omega
  | _ => exact Nat.le_refl _

namespace Sender

def tasksLeft (tasks : List Task) : Nat := (tasks.map fun t => t.phase.left).sum

theorem tasksLeft_abort (c : Nat) (tasks : List Task) :
    tasksLeft (tasks.map (Task.abort c)) ≤ tasksLeft tasks := by
  induction tasks with
  | nil => exact Nat.le_refl _
  | cons t tasks ih =>
    have ht : (t.abort c).phase.left ≤ t.phase.left := by
      unfold Task.abort
      split
      · exact t.phase.left_abort
      · exact Nat.le_refl _
    simp only [tasksLeft, List.map_cons, List.sum_cons] at ih ⊢
    omega

/-- The connections whose runner has not left its loop. -/
def running (o : SenderOptions) (n : Net) : Finset Nat :=
  (Finset.range o.slots).filter fun c => (n.conns c).runner = .running

theorem running_congr {n n' : Net} (h : ∀ c, (n'.conns c).runner = (n.conns c).runner) :
    running o n' = running o n := by
  unfold running
  simp only [h]

/-- The steps that are left at most while `stop` drains. -/
def left (o : SenderOptions) (s : Sender) : Nat :=
  2 * tasksLeft s.net.tasks + (running o s.net).card + if s.stopper = .draining then 1 else 0

theorem Called.left {s s' : Sender} {k : Callback} {k' : Option Callback}
    (h : Called o s k k' s') : (k'.map Callback.left).getD 0 < k.left := by
  cases h with
  | wakesWorker | wakesStopper | passesSlot =>
    split
    · exact Nat.lt_succ_self 1
    · exact Nat.zero_lt_succ 1
  | _ =>
    simp only [Option.map_some, Option.map_none, Option.getD_some, Option.getD_none, Callback.left]
    omega

theorem close_runner (n : Net) (c c' : Nat) :
    ((n.close c).conns c').runner = (n.conns c').runner := by
  rw [Net.close_conns]
  by_cases hc : c' = c
  · subst hc
    rw [Function.update_self]
    unfold Connection.close Connection.stopRunner
    split <;> rfl
  · rw [Function.update_of_ne hc]

theorem sever_runner (n : Net) (c c' : Nat) :
    ((n.sever c).conns c').runner = (n.conns c').runner := by
  rw [Net.sever_conns]
  by_cases hc : c' = c
  · subst hc
    rw [Function.update_self]
  · rw [Function.update_of_ne hc]

/-- A step of a task uses up work. -/
theorem Handled.tasksLeft_lt {s s' : Sender} {t : Task} {others : List Task} {i : Nat}
    (ht : Pool.take s.net.tasks i = some (t, others))
    (h : Handled o s t.conn { s.net with tasks := others } t.phase s') :
    tasksLeft s'.net.tasks < tasksLeft s.net.tasks := by
  have htasks : tasksLeft s.net.tasks = t.phase.left + tasksLeft others :=
    Pool.sum_of_take ht _
  rw [htasks]
  have hput : ∀ (n : Net) (t' : Task), tasksLeft (n.put t').tasks =
      t'.phase.left + tasksLeft n.tasks := fun _ _ => rfl
  generalize t.phase = phase at h
  cases h with
  | calls hk =>
    obtain ⟨-, -, -, -, hnet, -⟩ := hk.frame
    rw [hput, hnet]
    exact Nat.add_lt_add_right hk.left _
  | ends hk =>
    obtain ⟨-, -, -, -, hnet, -⟩ := hk.frame
    rw [hnet]
    exact Nat.lt_add_of_pos_left hk.left
  | closes =>
    have habort := tasksLeft_abort t.conn others
    rw [hput, Net.close_tasks]
    simp only [Phase.left, Callback.left]
    omega
  | writes _ _ hlt hpos =>
    rw [hput]
    simp only [Phase.left, Net.transmit_tasks, List.length_drop]
    omega
  | refuses | begins | succeeds | completes | fails =>
    rw [hput]
    simp only [Phase.left, Callback.left, Net.transmit_tasks, Net.sever_tasks]
    omega

/-- No handler runs past the end of its own loop. -/
theorem Handled.runner {s s' : Sender} {t : Task} {others : List Task}
    (h : Handled o s t.conn { s.net with tasks := others } t.phase s') (c : Nat) :
    (s'.net.conns c).runner = (s.net.conns c).runner := by
  generalize t.phase = phase at h
  cases h with
  | calls hk | ends hk =>
    obtain ⟨-, -, -, -, hnet, -⟩ := hk.frame
    simp only [hnet, Net.put_conns]
  | closes => exact close_runner _ _ _
  | fails => exact sever_runner _ _ _
  | refuses | begins | succeeds | writes | completes => rfl

theorem Handled.left_lt {s s' : Sender} {t : Task} {others : List Task} {i : Nat}
    (ht : Pool.take s.net.tasks i = some (t, others))
    (h : Handled o s t.conn { s.net with tasks := others } t.phase s') :
    s'.left o < s.left o := by
  have htasks := h.tasksLeft_lt ht
  have hrunning : running o s'.net = running o s.net := running_congr h.runner
  unfold left
  rw [hrunning]
  split <;> split <;> omega

theorem exits_left_lt {s : Sender} {n : Net} {c : Nat} (hc : c < o.slots)
    (h : s.net.exitRunner c = some n) : left o { s with net := n } < left o s := by
  unfold Net.exitRunner at h
  split at h
  · next hrun =>
    cases h
    have hlt : (running o (s.net.setConn c { s.net.conns c with runner := .exited })).card <
        (running o s.net).card := by
      refine Finset.card_lt_card ⟨fun c' hc' => ?_, fun hsub => ?_⟩
      · obtain ⟨hrange, hrunner⟩ := Finset.mem_filter.mp hc'
        refine Finset.mem_filter.mpr ⟨hrange, ?_⟩
        by_cases he : c' = c
        · exact he ▸ hrun.1
        · rwa [Net.setConn_conns, Function.update_of_ne he] at hrunner
      · have hmem := hsub (Finset.mem_filter.mpr ⟨Finset.mem_range.mpr hc, hrun.1⟩)
        have hrunner := (Finset.mem_filter.mp hmem).2
        rw [Net.setConn_conns, Function.update_self] at hrunner
        cases hrunner
    exact Nat.add_lt_add_right (Nat.add_lt_add_left hlt _) _
  · cases h

theorem Called.drains {s s' : Sender} {k : Callback} {k' : Option Callback}
    (h : Called o s k k' s') (hst : s.stopper.Drains) : s'.stopper.Drains := by
  cases h with
  | wakesStopper => exact .inl rfl
  | _ => exact hst

/-- A handler does not move the worker, and `stop` only from its wait back to the predicate. -/
theorem Handled.stops {s s' : Sender} {c : Nat} {n : Net} {phase : Phase}
    (h : Handled o s c n phase s') (hw : s.worker = .exited) : s'.worker = .exited ∧
      (s.stopper.Drains → s'.stopper.Drains) ∧
      (s.stopper ≠ .drainWaiting → s'.stopper = s.stopper) := by
  cases h with
  | calls hk | ends hk =>
    refine ⟨?_, hk.drains, hk.stopper⟩
    obtain h | ⟨h, -⟩ | ⟨p, h, -⟩ := hk.worker
    · exact h.trans hw
    · cases hw.symm.trans h
    · cases hw.symm.trans h
  | _ => exact ⟨hw, fun h => h, fun _ => rfl⟩

/-- While `stop` drains, every step uses up work or ends the draining. -/
theorem left_lt_of_step {s s' : Sender} {a : SenderAction} (ha : a.Internal)
    (hw : s.worker = .exited) (hst : s.stopper.Drains) (h : step o s a = some s') :
    s'.left o < s.left o ∧ s'.stopper.Drains ∨ s'.stopper.hasDrained = true := by
  cases a with
  | push | close | callStop | wakeWorker | wakeStopper => exact ha.elim
  | work ok =>
    simp only [step, work, hw] at h
    cases h
  | handle i =>
    obtain ⟨t, others, ht, hf⟩ := task_eq_some h
    have hmove := handled_of_handle hf
    exact .inl ⟨hmove.left_lt ht, (hmove.stops hw).2.1 hst⟩
  | write i n =>
    obtain ⟨t, others, ht, hf⟩ := task_eq_some h
    have hmove := handled_of_write (o := o) hf
    exact .inl ⟨hmove.left_lt ht, (hmove.stops hw).2.1 hst⟩
  | fail i =>
    obtain ⟨t, others, ht, hf⟩ := task_eq_some h
    have hmove := handled_of_fail (o := o) hf
    exact .inl ⟨hmove.left_lt ht, (hmove.stops hw).2.1 hst⟩
  | exitRunner c =>
    simp only [step] at h
    split at h
    · next hc =>
      obtain ⟨net, hnet, rfl⟩ := Option.map_eq_some_iff.mp h
      exact .inl ⟨exits_left_lt hc hnet, hst⟩
    · cases h
  | stop =>
    obtain hst | hst := hst
    · simp only [step, advanceStop, hst] at h
      cases h
      by_cases hz : s.inflight = 0
      · right
        rw [if_pos hz]
        rfl
      · left
        rw [if_neg hz]
        refine ⟨?_, .inr rfl⟩
        simp only [left, hst, if_true, reduceCtorEq, if_false]
        omega
    · simp only [step, advanceStop, hst] at h
      cases h

/-- The worker has returned for good, and `stop` drains only once. -/
theorem Moves.stops {s s' : Sender} {a : SenderAction} (h : Moves o s a s')
    (hw : s.worker = .exited) : s'.worker = .exited ∧
      (s.stopper.hasDrained = true → s'.stopper.hasDrained = true) := by
  cases h with
  | rejects | accepts | closes | exits => exact ⟨hw, fun h => h⟩
  | requests hst =>
    refine ⟨hw, fun h => ?_⟩
    rw [hst] at h
    cases h
  | control h =>
    cases h with
    | stopped hw' | goesOn hw' | noRetry hw' | drained hw' | resumed hw' | decided hw' | waits hw'
    | leaves hw' | returns hw' | unlocks hw' | finishes hw' | repeats hw' | awaits hw'
    | chooses hw' | wakes hw' | wakesSlot hw' | acquires hw' | discards hw' | retries hw'
    | popped hw' => cases hw.symm.trans hw'
  | dial h =>
    cases h with
    | isOpen hw' | emplaces hw' | unresolved hw' | connects hw' | crashes hw' | reattempts hw'
    | givesUp hw' | dispatches hw' => cases hw.symm.trans hw'
  | reports hw' | reported hw' => cases hw.symm.trans hw'
  | handled _ _ h =>
    obtain ⟨hw', -, hst⟩ := h.stops hw
    refine ⟨hw', fun hd => ?_⟩
    rw [hst (fun h => by rw [h] at hd; cases hd)]
    exact hd
  | stopper h =>
    cases h with
    | calls hst | joins hst | drains hst | waits hst | wakes hst =>
      refine ⟨hw, fun h => ?_⟩
      rw [hst] at h
      cases h
    | stops | returns | joined => exact ⟨hw, fun _ => rfl⟩

theorem run_hasDrained {s s' : Sender} {as : List SenderAction} (hw : s.worker = .exited)
    (hd : s.stopper.hasDrained = true) (h : run (step o) s as = some s') :
    s'.stopper.hasDrained = true := by
  induction as generalizing s with
  | nil =>
    cases h
    exact hd
  | cons a as ih =>
    obtain ⟨m, hm, hrest⟩ := Option.bind_eq_some_iff.mp h
    obtain ⟨hw', hd'⟩ := (moves_of_step hm).stops hw
    exact ih hw' (hd' hd) hrest

/-- No run of the program keeps `stop` draining for longer than there is work left. -/
theorem run_length_le {s s' : Sender} {as : List SenderAction} (has : ∀ a ∈ as, a.Internal)
    (hw : s.worker = .exited) (h : run (step o) s as = some s') (hst : s.stopper.Drains)
    (hst' : s'.stopper.Drains) : as.length ≤ s.left o := by
  have hnot : s'.stopper.hasDrained ≠ true := by
    obtain h | h := hst' <;> rw [h] <;> nofun
  induction as generalizing s with
  | nil => exact Nat.zero_le _
  | cons a as ih =>
    obtain ⟨m, hm, hrest⟩ := Option.bind_eq_some_iff.mp h
    obtain ⟨hw', -⟩ := (moves_of_step hm).stops hw
    have ha := has a List.mem_cons_self
    cases left_lt_of_step ha hw hst hm with
    | inr hd => exact absurd (run_hasDrained hw' hd hrest) hnot
    | inl hlt =>
      have hle := ih (fun b hb => has b (List.mem_cons_of_mem a hb)) hw' hrest hlt.2
      exact Nat.succ_le_of_lt (Nat.lt_of_le_of_lt hle hlt.1)

theorem isSome_callback {s : Sender} (h : ¬s.RetryLocked) (k : Callback) :
    (callback o s k).isSome = true := by
  cases k with
  | failure p =>
    simp only [callback, if_neg h]
    split <;> rfl
  | _ => rfl

/-- Whatever a task waits for, the program can go on. -/
theorem Served.enabled {s : Sender} (hi : s.Served) {t : Task} (ht : t ∈ s.net.tasks) :
    ∃ a, SenderAction.Internal a ∧ (step o s a).isSome = true := by
  have hhandling : ∀ t ∈ s.net.tasks, ∀ k, t.phase = .handling k →
      ∃ a, SenderAction.Internal a ∧ (step o s a).isSome = true := by
    intro t ht k hp
    by_cases hlocked : s.RetryLocked
    · refine ⟨.work true, trivial, ?_⟩
      obtain hw | hw := hlocked
      · simp only [step, work, hw, Option.isSome_some]
      · simp only [step, work, hw]
        split
        · rfl
        · split <;> rfl
    · obtain ⟨i, others, htake⟩ := Pool.exists_take ht
      refine ⟨.handle i, trivial, ?_⟩
      simp only [step, task, htake, Option.bind_some, hp, handle, Option.isSome_map]
      exact isSome_callback (s := { s with net := { s.net with tasks := others } }) hlocked k
  cases hl : t.phase.live with
  | false =>
    cases hp : t.phase with
    | handling k => exact hhandling t ht k hp
    | _ =>
      rw [hp] at hl
      cases hl
  | true =>
    obtain ⟨i, others, htake⟩ := Pool.exists_take ht
    obtain ⟨-, hs⟩ := hi.attended.live t ht hl
    have hloop : s.Loops t.conn := ⟨hs.stopped, .inl hs.runner⟩
    by_cases hfree : { s.net with tasks := others }.StrandFree t.conn
    · cases hp : t.phase with
      | posted p =>
        refine ⟨.handle i, trivial, ?_⟩
        simp only [step, task, htake, Option.bind_some, hp, handle, if_pos (And.intro hloop hfree)]
        split <;> rfl
      | writing p x rest =>
        refine ⟨.fail i, trivial, ?_⟩
        simp only [step, task, htake, Option.bind_some, hp, fail, if_pos hloop]
        rfl
      | completed p ok =>
        refine ⟨.handle i, trivial, ?_⟩
        simp only [step, task, htake, Option.bind_some, hp, handle, if_pos (And.intro hloop hfree)]
        split <;> rfl
      | handling k =>
        rw [hp] at hl
        cases hl
    · unfold Net.StrandFree at hfree
      push Not at hfree
      obtain ⟨t', ht', -, hl'⟩ := hfree
      have hmem := Pool.mem_of_mem_rest htake ht'
      cases hp : t'.phase with
      | handling k => exact hhandling t' hmem k hp
      | _ =>
        rw [hp] at hl'
        exact absurd rfl hl'

/-- A completion waits for an event loop that nobody runs, nothing is queued, and nothing in the
program can move. -/
structure Stranded (o : SenderOptions) (s : Sender) : Prop where
  queue : s.queue = []
  retry : s.retry = []
  completion : ∃ t ∈ s.net.tasks, ∃ p ok, t.phase = .completed p ok ∧ ¬s.Loops t.conn
  stuck : Stuck (step o) SenderAction.Internal s

/-- `wait_for_inflight_zero` blocks `stop` for good, or for as long as anybody likes. -/
structure Blocked (o : SenderOptions) (s : Sender) : Prop where
  drains : s.stopper.Drains
  blocked : Stuck (step o) SenderAction.Internal s ∨ ∀ n, ∃ as s', n ≤ as.length ∧
    (∀ a ∈ as, a.Internal) ∧ run (step o) s as = some s' ∧ s'.stopper.Drains

theorem Served.drain_enabled {s : Sender} (hi : s.Served) (hst : s.stopper.Drains) :
    ∃ a, SenderAction.Internal a ∧ (step o s a).isSome = true := by
  obtain hst | hst := hst
  · refine ⟨.stop, trivial, ?_⟩
    simp only [step, advanceStop, hst, Option.isSome_some]
  · by_cases hz : s.inflight = 0
    · obtain ⟨t, ht, -⟩ := hi.asleep hst hz
      exact hi.enabled ht
    · have hslots := hi.slotted
      rw [Slotted, hi.joined (by rw [hst]; rfl)] at hslots
      cases htasks : s.net.tasks with
      | nil =>
        rw [htasks] at hslots
        exact absurd hslots hz
      | cons t tasks => exact hi.enabled (t := t) (by rw [htasks]; exact List.mem_cons_self)

theorem not_stuck {s : Sender}
    (h : ∃ a, SenderAction.Internal a ∧ (step o s a).isSome = true) :
    ¬Stuck (step o) SenderAction.Internal s := by
  intro hstuck
  obtain ⟨a, ha, hs⟩ := h
  rw [hstuck a ha] at hs
  cases hs

/-- Over every run in which a failed write closes its connection only when no other chunk is on
its way over it, no completion is stranded and `stop` does not block. -/
theorem never_stranded {s : Sender} (h : Reach (step o) ClosesAlone .start s) :
    ¬Stranded o s ∧ ¬Blocked o s := by
  have hi : s.Served :=
    h.invariant served_start fun _ _ _ hi hg hs => (moves_of_step hs).served hi hg
  constructor
  · intro hs
    obtain ⟨t, ht, -⟩ := hs.completion
    exact not_stuck (hi.enabled ht) hs.stuck
  · intro hb
    have hw : s.worker = .exited := hi.joined (by
      obtain h | h := hb.drains <;> rw [h] <;> rfl)
    cases hb.blocked with
    | inl hstuck => exact not_stuck (hi.drain_enabled hb.drains) hstuck
    | inr hlong =>
      obtain ⟨as, s', hn, has, hrun, hst⟩ := hlong (s.left o + 1)
      have := run_length_le has hw hrun hb.drains hst
      omega

/-- A task moves only when it is the only one, and not while the worker hands on the next. -/
def alone (s : Sender) : SenderAction → Bool
  | .handle _ | .write .. | .fail _ => s.net.tasks.length ≤ 1 && s.worker.slots = 0
  | _ => true

theorem closesAlone_of_alone (s : Sender) (a : SenderAction) (h : s.alone a = true) :
    ClosesAlone s a := by
  intro i t others p ha ht _
  have hcheck : s.net.tasks.length ≤ 1 ∧ s.worker.slots = 0 := by
    cases a with
    | handle | write | fail => simpa [alone] using h
    | _ => cases ha
  have hlen := (Pool.perm_of_take ht).length_eq
  rw [List.length_cons] at hlen
  have hnil : others = [] := List.eq_nil_of_length_eq_zero (by omega)
  refine ⟨fun t' ht' => ?_, ?_⟩
  · rw [hnil] at ht'
    cases ht'
  · cases hw : s.worker with
    | dispatching p c =>
      rw [hw] at hcheck
      cases hcheck.2
    | _ => rfl

/-- The only write fails, and `stop` waits for its slot. -/
theorem never_stranded_sample : ∃ s : Sender, s.stopper = .drainWaiting ∧
    ¬Stranded sampleOptions s ∧ ¬Blocked sampleOptions s := by
  let labels : List SenderAction :=
    [.push sampleChunk, .work true, .work true, .work true, .work true, .work true, .work true,
      .work true, .work true, .handle 0, .fail 0, .callStop, .stop, .work true, .stop, .stop]
  have hrun : (runIf (step sampleOptions) alone .start labels).any
      (fun s => s.stopper = .drainWaiting) = true := by
    decide +kernel
  obtain ⟨s, hs, hend⟩ := (Option.any_eq_true ..).mp hrun
  exact ⟨s, of_decide_eq_true hend, never_stranded (.of_runIf closesAlone_of_alone hs)⟩

/-- Nobody but the event loop could move the last task. -/
theorem stuck_of_completed {s : Sender} {c : Nat} {p : PendingChunk} {ok : Bool}
    (hw : s.worker = .exited) (hst : s.stopper = .drainWaiting)
    (htasks : s.net.tasks = [⟨c, .completed p ok⟩]) (hloop : ¬s.Loops c)
    (hrunner : ∀ c < o.slots, (s.net.conns c).runner = .running →
      (s.net.conns c).runnerStop = false) : Stuck (step o) SenderAction.Internal s := by
  have htask : ∀ i t others, Pool.take s.net.tasks i = some (t, others) →
      t = ⟨c, .completed p ok⟩ := fun i t others ht =>
    List.mem_singleton.mp (htasks ▸ Pool.mem_of_take ht)
  intro a ha
  apply Option.eq_none_iff_forall_ne_some.mpr
  intro s' h
  cases a with
  | push | close | callStop | wakeWorker | wakeStopper => exact ha
  | work ok =>
    simp only [step, work, hw] at h
    cases h
  | handle i =>
    obtain ⟨t, others, ht, hf⟩ := task_eq_some h
    rw [htask i t others ht] at hf
    simp only [handle] at hf
    rw [if_neg fun hrun => hloop hrun.1] at hf
    cases hf
  | write i n =>
    obtain ⟨t, others, ht, hf⟩ := task_eq_some h
    rw [htask i t others ht] at hf
    cases hf
  | fail i =>
    obtain ⟨t, others, ht, hf⟩ := task_eq_some h
    rw [htask i t others ht] at hf
    cases hf
  | exitRunner c =>
    simp only [step] at h
    split at h
    · next hc =>
      obtain ⟨net, hnet, -⟩ := Option.map_eq_some_iff.mp h
      unfold Net.exitRunner at hnet
      split at hnet
      · next hex =>
        have hstop := hrunner c hc hex.1
        rw [hex.2.1] at hstop
        cases hstop
      · cases hnet
    · cases h
  | stop =>
    simp only [step, advanceStop, hst] at h
    cases h

/-- The first of two chunks on one connection fails and ends the event loop; the completion of
the second has been queued by then. -/
theorem never_stranded_fails : ¬ ∀ (o : SenderOptions) (s : Sender),
    Reachable (step o) .start s → ¬Stranded o s ∧ ¬Blocked o s := by
  intro hclaim
  let labels : List SenderAction :=
    [.push sampleChunk, .push sampleChunk, .push sampleChunk, .work true, .work true, .work true,
      .work true, .work true, .work true, .work true, .work true, .handle 0, .work true,
      .work true, .work true, .work true, .work true, .work true, .work true, .work true,
      .handle 0, .write 0 (serialize sampleChunk).length, .handle 0, .handle 0, .handle 0,
      .handle 0, .work true, .work true, .work true, .work true, .work true, .work true,
      .work true, .handle 0, .fail 1, .handle 0, .handle 0, .handle 0, .handle 0, .exitRunner 0,
      .callStop, .stop, .work true, .stop, .stop]
  have hrun : (run (step pairOptions) .start labels).any (fun s =>
      s.queue = [] && s.retry = [] && s.worker = .exited && s.stopper = .drainWaiting &&
        s.net.tasks = [⟨0, .completed ⟨sampleChunk, 1⟩ false⟩] && ¬s.Loops 0 &&
        (∀ c < pairOptions.slots, (s.net.conns c).runner = .running →
          (s.net.conns c).runnerStop = false : Bool)) = true := by
    decide +kernel
  obtain ⟨s, hs, hend⟩ := (Option.any_eq_true ..).mp hrun
  simp only [Bool.and_eq_true, decide_eq_true_eq] at hend
  obtain ⟨⟨⟨⟨⟨⟨hq, hr⟩, hw⟩, hst⟩, htasks⟩, hloop⟩, hrunner⟩ := hend
  refine (hclaim _ s (.of_run hs)).1 ⟨hq, hr, ?_, stuck_of_completed hw hst htasks hloop hrunner⟩
  exact ⟨_, by rw [htasks]; exact List.mem_singleton_self _, _, _, rfl, hloop⟩

end Sender

end SuperVoice.Client
