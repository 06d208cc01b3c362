import SuperVoice.Client.Finishing
import SuperVoice.Client.Streams

/-! Who runs the handlers. A failed write closes its connection and ends its event loop, and with
it the handlers of every other chunk on that connection, until a later chunk happens to be sent
over it. -/
namespace SuperVoice.Client
open Bytes Transition
variable {o : SenderOptions}

/-- The runner is at work on an open socket. -/
structure Connection.Serving (c : Connection) : Prop where
  socket : c.socket.isSome = true
  runner : c.runner = .running
  stopped : c.stopped = false
  runnerStop : c.runnerStop = false

/-- There is no runner, or the one there is has been asked to stop. -/
def Connection.Down (c : Connection) : Prop :=
  (c.runner = .none ∧ c.cleanupPending = false) ∨ (c.runner ≠ .none ∧ c.cleanupPending = true)

namespace Connection
variable {c conn : Connection}

theorem down_close (c : Connection) : c.close.Down ∧ c.close.socket = none := by
  unfold close stopRunner
  split
  · next h => exact ⟨.inl ⟨h, rfl⟩, rfl⟩
  · next h => exact ⟨.inr ⟨h, rfl⟩, rfl⟩

theorem serving_ensureRunner (h : c.Down) (hx : c.socket.isSome = true)
    (he : c.ensureRunner = some conn) : conn.Serving := by
  unfold ensureRunner at he
  split at he
  · cases he
  · next hwait =>
    cases he
    have hnone : c.reap.runner = .none ∧ c.reap.socket = c.socket := by
      unfold reap
      obtain ⟨hr, hp⟩ | ⟨hr, hp⟩ := h
      · rw [if_neg (by rw [hp]; exact fun h => nomatch h.1)]
        exact ⟨hr, rfl⟩
      · have hex : c.runner = .exited := by
          cases hrun : c.runner with
          | none => exact absurd hrun hr
          | running => exact absurd ⟨hp, hrun⟩ hwait
          | exited => rfl
        rw [if_pos ⟨hp, hex⟩]
        exact ⟨rfl, rfl⟩
    rw [spawn, if_pos hnone.1]
    exact ⟨by rw [← hx, ← hnone.2], rfl, rfl, rfl⟩

end Connection

/-- A waiting `stop` is about to be notified. -/
def Callback.NotifiesSlot (k : Callback) : Prop := ∃ r, k = .notifying r

theorem Stopper.hasJoined_of_hasDrained {st : Stopper} (h : st.hasDrained = true) :
    st.hasJoined = true := by
  cases st with
  | stopping | joining | returned => rfl
  | _ => cases h

/-- The worker is about to hand a chunk to connection `c`. -/
def Worker.dispatches : Worker → Nat → Bool
  | .dispatching _ c', c => c' == c
  | _, _ => false

namespace Sender

/-- A failed write closes its connection only when no other chunk is on its way over it. -/
def ClosesAlone (s : Sender) (a : SenderAction) : Prop :=
  ∀ i t others p, a.task = some i → Pool.take s.net.tasks i = some (t, others) →
    t.phase = .completed p false →
      (∀ t' ∈ others, t'.conn = t.conn → t'.phase.live = false) ∧
        s.worker.dispatches t.conn = false

/-- A connection that still has something to do is served, and one that is not is closed. -/
structure Attended (n : Net) (w : Worker) : Prop where
  up : ∀ c, w.attempts c = false →
    (n.conns c).Serving ∨ ((n.conns c).Down ∧ (n.conns c).socket = none)
  down : ∀ c, w.attempts c = true → (n.conns c).Down
  live : ∀ t ∈ n.tasks, t.phase.live = true → w.attempts t.conn = false ∧ (n.conns t.conn).Serving
  dispatching : ∀ c, w.dispatches c = true → (n.conns c).Serving

namespace Attended
variable {n : Net} {w w' : Worker} {t : Task} {c k : Nat} {p : PendingChunk}

theorem congr (hi : Attended n w) (ha : ∀ c, w'.attempts c = w.attempts c)
    (hd : ∀ c, w'.dispatches c = w.dispatches c) : Attended n w' where
  up c h := hi.up c (ha c ▸ h)
  down c h := hi.down c (ha c ▸ h)
  live t ht h := by
    rw [ha]
    exact hi.live t ht h
  dispatching c h := hi.dispatching c (hd c ▸ h)

theorem remove (hi : Attended n w) {others : List Task} (h : ∀ t ∈ others, t ∈ n.tasks) :
    Attended { n with tasks := others } w :=
  ⟨hi.up, hi.down, fun t ht => hi.live t (h t ht), hi.dispatching⟩

theorem put (hi : Attended n w) (ht : t.phase.live = true →
    w.attempts t.conn = false ∧ (n.conns t.conn).Serving) : Attended (n.put t) w := by
  refine ⟨hi.up, hi.down, fun t' ht' hl => ?_, hi.dispatching⟩
  cases List.mem_cons.mp ht' with
  | inl h =>
    subst h
    exact ht hl
  | inr h => exact hi.live t' h hl

/-- A connection changes without a change of what it is fit for. -/
theorem setConn (hi : Attended n w) {conn : Connection}
    (hs : (n.conns c).Serving → conn.Serving) (hd : (n.conns c).Down → conn.Down)
    (hx : (n.conns c).socket = none → conn.socket = none) : Attended (n.setConn c conn) w := by
  have hconn : ∀ {P : Connection → Prop} (c'), (P (n.conns c) → P conn) → P (n.conns c') →
      P ((n.setConn c conn).conns c') := by
    intro P c' hP h
    rw [Net.setConn_conns]
    by_cases hc : c' = c
    · subst hc
      rw [Function.update_self]
      exact hP h
    · rw [Function.update_of_ne hc]
      exact h
  refine ⟨fun c' h => ?_, fun c' h => ?_, fun t ht hl => ?_, fun c' h => ?_⟩
  · obtain h | ⟨h, h'⟩ := hi.up c' h
    · exact .inl (hconn c' hs h)
    · exact .inr ⟨hconn c' hd h, hconn (P := fun c => c.socket = none) c' hx h'⟩
  · exact hconn c' hd (hi.down c' h)
  · exact ⟨(hi.live t ht hl).1, hconn t.conn hs (hi.live t ht hl).2⟩
  · exact hconn c' hs (hi.dispatching c' h)

theorem transmit (hi : Attended n w) (x : Nat) (b : Bytes) : Attended (n.transmit x b) w :=
  ⟨hi.up, hi.down, hi.live, hi.dispatching⟩

theorem sever (hi : Attended n w) (c : Nat) : Attended (n.sever c) w :=
  hi.setConn (fun h => ⟨h.socket, h.runner, h.stopped, h.runnerStop⟩) (fun h => h) fun h => h

theorem live_abort (c : Nat) (t : Task) (h : (t.abort c).phase.live = true) :
    t.phase.live = true := by
  obtain ⟨c', phase⟩ := t
  unfold Task.abort at h
  split at h
  · cases phase with
    | handling k => cases h
    | _ => rfl
  · exact h

theorem conn_abort (c : Nat) (t : Task) : (t.abort c).conn = t.conn := by
  unfold Task.abort
  split <;> rfl

/-- A connection is closed over which no chunk is on its way. -/
theorem close (hi : Attended n w)
    (hlive : ∀ t ∈ n.tasks, t.conn = c → t.phase.live = false) (hd : w.dispatches c = false) :
    Attended (n.close c) w := by
  have hself : (n.close c).conns c = (n.conns c).close := by
    rw [Net.close_conns, Function.update_self]
  have hother : ∀ c', c' ≠ c → (n.close c).conns c' = n.conns c' := fun c' hc =>
    Function.update_of_ne hc _ _
  refine ⟨fun c' h => ?_, fun c' h => ?_, fun t ht hl => ?_, fun c' h => ?_⟩
  · by_cases hc : c' = c
    · rw [hc, hself]
      exact .inr (Connection.down_close _)
    · rw [hother c' hc]
      exact hi.up c' h
  · by_cases hc : c' = c
    · rw [hc, hself]
      exact (Connection.down_close _).1
    · rw [hother c' hc]
      exact hi.down c' h
  · obtain ⟨t', ht', rfl⟩ := mem_abort ht
    have hl' := live_abort c t' hl
    have hc : t'.conn ≠ c := by
      intro hc
      rw [hlive t' ht' hc] at hl'
      cases hl'
    rw [conn_abort, hother t'.conn hc]
    exact hi.live t' ht' hl'
  · have hc : c' ≠ c := by
      intro hc
      rw [hc, hd] at h
      cases h
    rw [hother c' hc]
    exact hi.dispatching c' h

/-- The worker begins an attempt to connect where nothing is on its way. -/
theorem emplace (hi : Attended n w) {p : PendingChunk} {k : Nat} (hdown : (n.conns c).Down)
    (hlive : ∀ t ∈ n.tasks, t.conn = c → t.phase.live = false)
    (hw : ∀ c', c' ≠ c → w.attempts c' = false) :
    Attended (n.emplace c) (.attempting p c k) := by
  have hother : ∀ c', c' ≠ c → (n.emplace c).conns c' = n.conns c' := fun c' hc =>
    Function.update_of_ne hc _ _
  have hattempts : ∀ c', (Worker.attempting p c k).attempts c' = true ↔ c' = c := by
    intro c'
    show (c == c') = true ↔ _
    rw [beq_iff_eq]
    exact eq_comm
  refine ⟨fun c' h => ?_, fun c' h => ?_, fun t ht hl => ?_, nofun⟩
  · have hc : c' ≠ c := fun hc => by
      rw [(hattempts c').mpr hc] at h
      cases h
    rw [hother c' hc]
    exact hi.up c' (hw c' hc)
  · rw [(hattempts c').mp h, Net.emplace_conns, Function.update_self]
    exact hdown
  · have hc : t.conn ≠ c := by
      intro hc
      rw [hlive t ht hc] at hl
      cases hl
    rw [hother t.conn hc]
    exact ⟨Bool.eq_false_iff.mpr fun h => hc ((hattempts _).mp h), (hi.live t ht hl).2⟩

/-- The worker is through with an attempt that has succeeded. -/
theorem connect (hi : Attended n (.attempting p c k)) {conn : Connection} (hs : conn.Serving) :
    Attended (n.setConn c conn) (.dispatching p c) := by
  have hself : (n.setConn c conn).conns c = conn := by
    rw [Net.setConn_conns, Function.update_self]
  have hother : ∀ c', c' ≠ c → (n.setConn c conn).conns c' = n.conns c' := fun c' hc =>
    Function.update_of_ne hc _ _
  have hfalse : ∀ c', c' ≠ c → (Worker.attempting p c k).attempts c' = false := fun c' hc =>
    beq_eq_false_iff_ne.mpr hc.symm
  refine ⟨fun c' _ => ?_, nofun, fun t ht hl => ⟨rfl, ?_⟩, fun c' h => ?_⟩
  · by_cases hc : c' = c
    · rw [hc, hself]
      exact .inl hs
    · rw [hother c' hc]
      exact hi.up c' (hfalse c' hc)
  · by_cases hc : t.conn = c
    · rw [hc, hself]
      exact hs
    · rw [hother _ hc]
      exact (hi.live t ht hl).2
  · have hc : c = c' := beq_iff_eq.mp h
    rw [← hc, hself]
    exact hs

/-- The worker is through with an attempt and leaves the connection without a socket. -/
theorem leave (hi : Attended n (.attempting p c k)) (hx : (n.conns c).socket = none)
    (ha : ∀ c', w'.attempts c' = false) (hd : ∀ c', w'.dispatches c' = false) : Attended n w' := by
  refine ⟨fun c' _ => ?_, fun c' h => ?_, fun t ht hl => ⟨ha _, (hi.live t ht hl).2⟩,
    fun c' h => ?_⟩
  · by_cases hc : c' = c
    · rw [hc]
      exact .inr ⟨hi.down c (beq_self_eq_true c), hx⟩
    · exact hi.up c' (beq_eq_false_iff_ne.mpr fun h => hc h.symm)
  · rw [ha] at h
    cases h
  · rw [hd] at h
    cases h

/-- Over the connection of an attempt no chunk is on its way. -/
theorem live_attempting (hi : Attended n (.attempting p c k)) :
    ∀ t ∈ n.tasks, t.conn = c → t.phase.live = false := by
  intro t ht hc
  apply Bool.eq_false_iff.mpr
  intro hl
  have : (c == t.conn) = false := (hi.live t ht hl).1
  rw [hc, beq_self_eq_true] at this
  cases this

end Attended

/-- The invariant behind the event loops. -/
structure Served (s : Sender) : Prop where
  slotted : s.Slotted
  joined : s.stopper.hasJoined = true → s.worker = .exited
  drained : s.stopper.hasDrained = true → s.inflight = 0
  attended : Attended s.net s.worker
  asleep : s.stopper = .drainWaiting → s.inflight = 0 →
    Calling Callback.NotifiesSlot s.net.tasks

theorem served_start : Sender.start.Served where
  slotted := slotted_start
  joined h := nomatch h
  drained h := nomatch h
  attended := ⟨fun _ _ => .inr ⟨.inl ⟨rfl, rfl⟩, rfl⟩, nofun, nofun, nofun⟩
  asleep h := nomatch h

theorem Control.attended {s s' : Sender} (h : Control o s s') (hi : Attended s.net s.worker) :
    Attended s'.net s'.worker := by
  cases h with
  | stopped hw | goesOn hw | noRetry hw | drained hw | resumed hw | decided hw | waits hw
  | leaves hw | returns hw | unlocks hw | finishes hw | repeats hw | awaits hw | chooses hw
  | wakes hw | wakesSlot hw | acquires hw | discards hw | retries hw | popped hw =>
    exact hi.congr (fun _ => by rw [hw]; rfl) fun _ => by rw [hw]; rfl

theorem Dial.attended {s s' : Sender} (h : Dial s s') (hi : Attended s.net s.worker) :
    Attended s'.net s'.worker := by
  cases h with
  | @isOpen p c hw hx =>
    rw [hw] at hi
    have hs : (s.net.conns c).Serving := by
      obtain h | ⟨-, h⟩ := hi.up c rfl
      · exact h
      · rw [h] at hx
        cases hx
    refine ⟨fun c _ => hi.up c rfl, nofun, fun t ht hl => ⟨rfl, (hi.live t ht hl).2⟩, fun c' h => ?_⟩
    have hc : c = c' := beq_iff_eq.mp h
    exact hc ▸ hs
  | @emplaces p c hw hx =>
    rw [hw] at hi
    refine hi.emplace ?_ (fun t ht hc => ?_) fun _ _ => rfl
    · obtain h | ⟨h, -⟩ := hi.up c rfl
      · have := h.socket
        rw [hx] at this
        cases this
      · exact h
    · apply Bool.eq_false_iff.mpr
      intro hl
      have := (hi.live t ht hl).2.socket
      rw [hc, hx] at this
      cases this
  | unresolved hw => exact hi.congr (fun _ => by rw [hw]; rfl) fun _ => by rw [hw]; rfl
  | @connects p c k conn hw hloop hx he =>
    rw [hw] at hi
    refine hi.connect (Connection.serving_ensureRunner (hi.down c ?_) hx he)
    exact beq_self_eq_true c
  | crashes hw hx =>
    rw [hw] at hi
    exact hi.leave hx (fun _ => rfl) fun _ => rfl
  | @reattempts p c k hw =>
    rw [hw] at hi
    have hclose := hi.close hi.live_attempting rfl
    apply hclose.emplace (hclose.down c (beq_self_eq_true c)) hclose.live_attempting
    intro c' hc
    exact beq_eq_false_iff_ne.mpr fun h => hc h.symm
  | @givesUp p c k hw =>
    rw [hw] at hi
    have hclose := hi.close hi.live_attempting rfl
    refine hclose.leave ?_ (fun _ => rfl) fun _ => rfl
    rw [Net.close_conns, Function.update_self]
    exact (Connection.down_close _).2
  | @dispatches p c hw =>
    rw [hw] at hi
    have hs := hi.dispatching c (beq_self_eq_true c)
    have hplain : Attended s.net .top :=
      ⟨fun c _ => hi.up c rfl, nofun, fun t ht hl => ⟨rfl, (hi.live t ht hl).2⟩, nofun⟩
    exact hplain.put fun _ => ⟨rfl, hs⟩

theorem Called.attended {s s' : Sender} {k : Callback} {k' : Option Callback}
    (h : Called o s k k' s') (hi : Attended s.net s.worker) : Attended s'.net s'.worker := by
  obtain ⟨-, -, -, -, hnet, -⟩ := h.frame
  rw [hnet]
  obtain hw | ⟨hw, hw'⟩ | ⟨p, hw, hw'⟩ := h.worker
  · rw [hw]
    exact hi
  · exact hi.congr (fun _ => by rw [hw, hw']; rfl) fun _ => by rw [hw, hw']; rfl
  · exact hi.congr (fun _ => by rw [hw, hw']; rfl) fun _ => by rw [hw, hw']; rfl

theorem Handled.attended {s s' : Sender} {t : Task} {others : List Task} {i : Nat}
    (ht : Pool.take s.net.tasks i = some (t, others))
    (h : Handled o s t.conn { s.net with tasks := others } t.phase s')
    (hi : Attended s.net s.worker)
    (hg : ∀ p, t.phase = .completed p false →
      (∀ t' ∈ others, t'.conn = t.conn → t'.phase.live = false) ∧
        s.worker.dispatches t.conn = false) : Attended s'.net s'.worker := by
  have hself := hi.live t (Pool.mem_of_take ht)
  have hrest := hi.remove fun t' ht' => Pool.mem_of_mem_rest ht ht'
  obtain ⟨c, phase⟩ := t
  dsimp only at h hg hself
  cases h with
  | refuses | succeeds => exact hrest.put nofun
  | begins => exact hrest.put (t := ⟨c, _⟩) fun _ => hself rfl
  | writes | completes => exact (hrest.transmit _ _).put (t := ⟨c, _⟩) fun _ => hself rfl
  | closes =>
    obtain ⟨halone, hd⟩ := hg _ rfl
    exact (hrest.close halone hd).put nofun
  | calls hk => exact (hk.attended hrest).put nofun
  | ends hk => exact hk.attended hrest
  | fails =>
    have hs := (hself rfl).2
    refine (hrest.sever c).put (t := ⟨c, _⟩) fun _ => ⟨(hself rfl).1, ?_⟩
    rw [Net.sever_conns, Function.update_self]
    exact ⟨hs.socket, hs.runner, hs.stopped, hs.runnerStop⟩

theorem Stops.attended {s s' : Sender} (h : Stops o s s') (hi : s.Served) :
    Attended s'.net s'.worker := by
  have hworker := hi.joined
  have hdrained := hi.drained
  cases h with
  | @stops c hst =>
    have hw := hworker (by rw [hst]; rfl)
    refine hi.attended.close (fun t ht _ => ?_) (by rw [hw]; rfl)
    apply Bool.eq_false_iff.mpr
    intro hl
    obtain ⟨i, others, htake⟩ := Pool.exists_take ht
    have hslots := hi.slotted
    rw [Slotted, hdrained (by rw [hst]; rfl), taskSlots, Pool.sum_of_take htake] at hslots
    have hslot : t.slots = 1 := by
      unfold Task.slots
      cases hp : t.phase with
      | handling k =>
        rw [hp] at hl
        cases hl
      | _ => rfl
    omega
  | @joined c hst hrun =>
    have hw := hworker (by rw [hst]; rfl)
    refine hi.attended.setConn (fun h => absurd h.runner hrun) (fun _ => .inl ⟨rfl, rfl⟩)
      fun h => h
  | _ => exact hi.attended

/-- The worker moves, so `stop` has not joined it yet. -/
theorem Served.step_worker {s s' : Sender} (hi : s.Served) (hw : s.worker ≠ .exited)
    (hst : s'.stopper = s.stopper) (hs : s'.Slotted) (ha : Attended s'.net s'.worker) :
    s'.Served := by
  have hjoined : s'.stopper.hasJoined = true → False := fun h => hw (hi.joined (hst ▸ h))
  exact ⟨hs, fun h => (hjoined h).elim, fun h => (hjoined (Stopper.hasJoined_of_hasDrained h)).elim,
    ha, fun h => (hjoined (by rw [h]; rfl)).elim⟩

theorem Called.stopper {s s' : Sender} {k : Callback} {k' : Option Callback}
    (h : Called o s k k' s') (hst : s.stopper ≠ .drainWaiting) : s'.stopper = s.stopper := by
  cases h with
  | wakesStopper _ h => exact absurd h hst
  | _ => rfl

/-- A callback on an event loop passes the notification of `stop` on, and the last release brings
it about. -/
theorem Called.served {s s' : Sender} {n net : Net} {k : Callback} {k' : Option Callback}
    (others : List Task) (h : Called o { s with net := n } k k' s') (hi : s.Served)
    (htake : Calling Callback.NotifiesSlot s.net.tasks →
      Calling Callback.NotifiesSlot others ∨ k.NotifiesSlot)
    (hold : Calling Callback.NotifiesSlot others → Calling Callback.NotifiesSlot net.tasks)
    (hnew : ∀ k₁, k' = some k₁ → k₁.NotifiesSlot → Calling Callback.NotifiesSlot net.tasks)
    (hs : { s' with net }.Slotted) (ha : Attended net s'.worker) : { s' with net }.Served := by
  have hjoined := hi.joined
  have hdrained := hi.drained
  have hasleep := hi.asleep
  cases h with
  | wakesRetry hw | wakesFinishing hw =>
    have hw' : s.worker = .waiting := hw
    exact hi.step_worker (by rw [hw']; nofun) rfl hs ha
  | wakesWorker hw =>
    have hw' : s.worker = .acquireWaiting _ := hw
    exact hi.step_worker (by rw [hw']; nofun) rfl hs ha
  | wakesStopper hw h =>
    have hst : s.stopper = .drainWaiting := h
    exact ⟨hs, fun _ => hjoined (by rw [hst]; rfl), nofun, ha, nofun⟩
  | passesSlot hw h => exact ⟨hs, hjoined, hdrained, ha, fun hst => absurd hst h⟩
  | releases =>
    exact ⟨hs, hjoined, fun h => by rw [hdrained h], ha, fun _ _ => hnew _ rfl ⟨_, rfl⟩⟩
  | sent | dropped | retries | passesRetry | passesFinishing =>
    refine ⟨hs, hjoined, hdrained, ha, fun hst hz => ?_⟩
    obtain h | ⟨_, h⟩ := htake (hasleep hst hz)
    · exact hold h
    · cases h

theorem Handled.served {s s' : Sender} {t : Task} {others : List Task} {i : Nat}
    (ht : Pool.take s.net.tasks i = some (t, others))
    (h : Handled o s t.conn { s.net with tasks := others } t.phase s') (hi : s.Served)
    (hg : ∀ p, t.phase = .completed p false →
      (∀ t' ∈ others, t'.conn = t.conn → t'.phase.live = false) ∧
        s.worker.dispatches t.conn = false) : s'.Served := by
  have hs := h.slotted ht hi.slotted
  have ha := h.attended ht hi.attended hg
  have hasleep := hi.asleep
  have htake : Calling Callback.NotifiesSlot s.net.tasks →
      Calling Callback.NotifiesSlot others ∨ ∃ k, t.phase = .handling k ∧ k.NotifiesSlot :=
    fun h => h.of_take ht
  generalize t.phase = phase at h htake
  cases h with
  | calls hk =>
    obtain ⟨-, -, -, -, hnet, -⟩ := hk.frame
    refine hk.served others hi (fun h => ?_) (fun h => ?_) (fun k₁ hk₁ hn => ?_) hs ha
    · obtain h | ⟨_, hk, hn⟩ := htake h
      · exact .inl h
      · cases hk
        exact .inr hn
    · rw [hnet]
      exact h.cons _
    · cases hk₁
      exact ⟨_, List.mem_cons_self, _, rfl, hn⟩
  | ends hk =>
    obtain ⟨-, -, -, -, hnet, -⟩ := hk.frame
    refine hk.served others hi (fun h => ?_) (fun h => ?_) nofun hs ha
    · obtain h | ⟨_, hk, hn⟩ := htake h
      · exact .inl h
      · cases hk
        exact .inr hn
    · rw [hnet]
      exact h
  | closes =>
    refine ⟨hs, hi.joined, hi.drained, ha, fun hst hz => ?_⟩
    obtain h | ⟨_, hk, -⟩ := htake (hasleep hst hz)
    · exact (h.abort t.conn).cons _
    · cases hk
  | refuses | begins | succeeds | writes | completes | fails =>
    refine ⟨hs, hi.joined, hi.drained, ha, fun hst hz => ?_⟩
    obtain h | ⟨_, hk, -⟩ := htake (hasleep hst hz)
    · exact h.cons _
    · cases hk

theorem Stops.served {s s' : Sender} (h : Stops o s s') (hi : s.Served) : s'.Served := by
  have hs := h.slotted hi.slotted
  have ha := h.attended hi
  have hjoined := hi.joined
  have hdrained := hi.drained
  cases h with
  | calls => exact ⟨hs, nofun, nofun, ha, nofun⟩
  | joins hst hw => exact ⟨hs, fun _ => hw, nofun, ha, nofun⟩
  | drains hst hz => exact ⟨hs, fun _ => hjoined (by rw [hst]; rfl), fun _ => hz, ha, nofun⟩
  | waits hst hz =>
    exact ⟨hs, fun _ => hjoined (by rw [hst]; rfl), nofun, ha, fun _ h => absurd h hz⟩
  | wakes hst => exact ⟨hs, fun _ => hjoined (by rw [hst]; rfl), nofun, ha, nofun⟩
  | stops hst | returns hst | joined hst =>
    exact ⟨hs, fun _ => hjoined (by rw [hst]; rfl), fun _ => hdrained (by rw [hst]; rfl), ha, nofun⟩

theorem Moves.served {s s' : Sender} {a : SenderAction} (h : Moves o s a s') (hi : s.Served)
    (hg : ClosesAlone s a) : s'.Served := by
  have hs := h.slotted hi.slotted
  cases h with
  | rejects => exact hi
  | accepts | closes =>
    exact ⟨hs, hi.joined, hi.drained, hi.attended, hi.asleep⟩
  | requests => exact ⟨hs, nofun, nofun, hi.attended, nofun⟩
  | control h =>
    have ha := h.attended hi.attended
    cases h with
    | stopped hw | goesOn hw | noRetry hw | drained hw | resumed hw | decided hw | waits hw
    | leaves hw | returns hw | unlocks hw | finishes hw | repeats hw | awaits hw | chooses hw
    | wakes hw | wakesSlot hw | acquires hw | discards hw | retries hw | popped hw =>
      exact hi.step_worker (by rw [hw]; nofun) rfl hs ha
  | dial h =>
    have ha := h.attended hi.attended
    cases h with
    | isOpen hw | emplaces hw | unresolved hw | connects hw | crashes hw | reattempts hw
    | givesUp hw | dispatches hw => exact hi.step_worker (by rw [hw]; nofun) rfl hs ha
  | handled ha ht h => exact h.served ht hi fun p hp => hg _ _ _ p ha ht hp
  | stopper h => exact h.served hi
  | exits hrun hstop =>
    refine ⟨hs, hi.joined, hi.drained, hi.attended.setConn (fun h => ?_) (fun h => ?_) fun h => h,
      hi.asleep⟩
    · have := h.runnerStop
      rw [hstop] at this
      cases this
    · obtain ⟨h, -⟩ | ⟨-, h⟩ := h
      · rw [hrun] at h
        cases h
      · exact .inr ⟨nofun, h⟩
  | reports hw h | reported hw h =>
    have hw' : s.worker ≠ .exited := by rw [hw]; nofun
    have hst := h.stopper fun hst => hw' (hi.joined (by rw [hst]; rfl))
    obtain ⟨-, -, -, -, hnet, -⟩ := h.frame
    refine hi.step_worker hw' hst hs ?_
    show Attended _ _
    rw [hnet]
    exact hi.attended.congr (fun _ => by rw [hw]; rfl) fun _ => by rw [hw]; rfl

end Sender

end SuperVoice.Client
