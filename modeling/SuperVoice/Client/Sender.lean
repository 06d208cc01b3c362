import SuperVoice.Client.Connection
import SuperVoice.Lib.Transition

/-! `sv::client::Sender` with the queue it empties: the producer, the worker, the handlers on the
event loops and a call of `stop`. A thread that waits for a condition variable is moved on by a
notification only; one that nobody waits for is lost. -/
namespace SuperVoice.Client
open Bytes

structure SenderOptions where
  connections : Nat := 2
  maxSendRetries : Nat := 3
  maxConnectAttempts : Nat := 3
  /-- The capacity of the chunk queue. -/
  capacity : Nat

/-- The constructor makes at least one connection. -/
def SenderOptions.slots (o : SenderOptions) : Nat := if o.connections = 0 then 1 else o.connections

def SenderOptions.maxAttempts (o : SenderOptions) : Nat := max 1 o.maxSendRetries

inductive Report where
  | sent (p : PendingChunk)
  | dropped (p : PendingChunk)
  deriving DecidableEq

def Report.chunk : Report → FileChunk
  | .sent p | .dropped p => p.chunk

/-- Where `run` stands. -/
inductive Worker where
  | top
  | fetching
  | popping
  /-- About to lock `retry_mutex_` and evaluate the predicate of the finishing wait. -/
  | locking
  /-- The predicate was false; `retry_mutex_` is held, the wait not yet entered. -/
  | deciding
  | waiting
  /-- The predicate was true; `retry_mutex_` is held. -/
  | resumed
  /-- `retry_mutex_` is released, `inflight_` not yet looked at. -/
  | unlocked
  | acquiring (p : PendingChunk)
  | acquireWaiting (p : PendingChunk)
  /-- The slot is acquired. -/
  | choosing (p : PendingChunk)
  | connecting (p : PendingChunk) (c : Nat)
  /-- `io_context.run()` inside `ensure_connected`, in attempt number `k`. -/
  | attempting (p : PendingChunk) (c : Nat) (k : Nat)
  | dispatching (p : PendingChunk) (c : Nat)
  | reporting (k : Callback)
  | exited
  /-- `ensure_connected` went on with a socket that a handler had reset. -/
  | crashed (p : PendingChunk)
  deriving DecidableEq

/-- The worker runs the event loop of connection `c` itself. -/
def Worker.attempts : Worker → Nat → Bool
  | .attempting _ c' _, c => c' == c
  | _, _ => false

/-- Where `stop` stands. -/
inductive Stopper where
  | idle
  | closed
  /-- `request_stop` is done; `join` waits for the worker. -/
  | requested
  | draining
  | drainWaiting
  /-- Connection `c` is stopped next. -/
  | stopping (c : Nat)
  /-- `stop_runner(true)` waits for the runner of connection `c`. -/
  | joining (c : Nat)
  | returned
  deriving DecidableEq

structure Sender where
  queue : List FileChunk
  closed : Bool
  retry : List PendingChunk
  inflight : Nat
  finishing : Bool
  stopRequested : Bool
  worker : Worker
  stopper : Stopper
  /-- `next_connection_index_`. -/
  next : Nat
  net : Net
  /-- The chunks `push` has accepted. -/
  accepted : List FileChunk
  reports : List Report

inductive SenderAction where
  | push (chunk : FileChunk)
  | close
  /-- The worker goes on; `ok` is what resolving or connecting comes to. -/
  | work (ok : Bool)
  /-- The next step of task `i`. -/
  | handle (i : Nat)
  /-- The write of task `i` gets `n` bytes off, or fails. -/
  | write (i : Nat) (n : Nat)
  | fail (i : Nat)
  | exitRunner (c : Nat)
  | callStop
  | stop
  /-- A waiting thread wakes up without having been notified. -/
  | wakeWorker
  | wakeStopper

/-- The task whose step the label is. -/
def SenderAction.task : SenderAction → Option Nat
  | .handle i | .write i _ | .fail i => some i
  | _ => none

namespace Sender

def start : Sender where
  queue := []
  closed := false
  retry := []
  inflight := 0
  finishing := false
  stopRequested := false
  worker := .top
  stopper := .idle
  next := 0
  net := ⟨fun _ => .fresh, 0, [], fun _ => []⟩
  accepted := []
  reports := []

/-- The worker holds `retry_mutex_`. -/
def RetryLocked (s : Sender) : Prop := s.worker = .deciding ∨ s.worker = .resumed

instance (s : Sender) : Decidable s.RetryLocked := inferInstanceAs (Decidable (_ ∨ _))

/-- Only the worker waits for `retry_cv_`. -/
def notifyRetry (s : Sender) : Sender :=
  if s.worker = .waiting then { s with worker := .locking } else s

/-- `notify_one` on `inflight_cv_`, for which the worker or `stop` may wait. -/
def notifySlot (s : Sender) : Sender :=
  match s.worker with
  | .acquireWaiting p => { s with worker := .acquiring p }
  | _ => if s.stopper = .drainWaiting then { s with stopper := .draining } else s

variable (o : SenderOptions)

/-- One step of a callback: what is left of it and the state behind it. -/
def callback (s : Sender) : Callback → Option (Option Callback × Sender)
  | .success p => some (some .releasing, { s with reports := s.reports ++ [.sent p] })
  | .failure p =>
    if o.maxAttempts ≤ p.attempt then
      some (some .releasing, { s with reports := s.reports ++ [.dropped p] })
    else if s.RetryLocked then none
    else some (some .retried, { s with retry := s.retry ++ [⟨p.chunk, p.attempt + 1⟩] })
  | .retried => some (some .releasing, s.notifyRetry)
  | .releasing =>
    let inflight := s.inflight - 1
    some (some (.notifying (inflight == 0 && s.finishing)), { s with inflight })
  | .notifying notifyRetry =>
    some (if notifyRetry then some .notifyingRetry else none, s.notifySlot)
  | .notifyingRetry => some (none, s.notifyRetry)

/-- The next step of `run`. -/
def work (s : Sender) (ok : Bool) : Option Sender :=
  match s.worker with
  | .top => some { s with worker := if s.stopRequested then .exited else .fetching }
  | .fetching =>
    match s.retry with
    | p :: retry => some { s with retry, worker := .acquiring p }
    | [] => some { s with worker := .popping }
  | .popping =>
    match s.queue with
    | chunk :: queue => some { s with queue, worker := .acquiring ⟨chunk, 1⟩ }
    | [] => if s.closed then some { s with finishing := true, worker := .locking } else none
  | .locking =>
    some { s with
      worker := if s.stopRequested ∨ s.retry ≠ [] ∨ s.inflight = 0 then .resumed else .deciding }
  | .deciding => some { s with worker := .waiting }
  | .resumed =>
    if s.stopRequested then some { s with worker := .exited }
    else if s.retry ≠ [] then some { s with finishing := false, worker := .top }
    else some { s with worker := .unlocked }
  | .unlocked =>
    if s.inflight = 0 then some { s with worker := .exited }
    else some { s with finishing := false, worker := .top }
  | .acquiring p =>
    if s.stopRequested then some { s with worker := .exited }
    else if s.inflight < o.slots then
      some { s with inflight := s.inflight + 1, worker := .choosing p }
    else some { s with worker := .acquireWaiting p }
  | .choosing p =>
    some { s with next := (s.next + 1) % o.slots, worker := .connecting p s.next }
  | .connecting p c =>
    if (s.net.conns c).socket.isSome then some { s with worker := .dispatching p c }
    else if ok then some { s with net := s.net.emplace c, worker := .attempting p c 0 }
    else some { s with worker := .reporting (.failure p) }
  | .attempting p c k =>
    if (s.net.conns c).stopped ∨ s.net.Idle c then
      if ok then
        if (s.net.conns c).socket.isSome then
          (s.net.conns c).ensureRunner.map fun conn =>
            { s with net := s.net.setConn c conn, worker := .dispatching p c }
        else some { s with worker := .crashed p }
      else if k + 1 < max 1 o.maxConnectAttempts then
        some { s with net := (s.net.close c).emplace c, worker := .attempting p c (k + 1) }
      else some { s with net := s.net.close c, worker := .reporting (.failure p) }
    else none
  | .dispatching p c => some { s with net := s.net.put ⟨c, .posted p⟩, worker := .top }
  | .reporting k =>
    (callback o s k).map fun (k', s') =>
      { s' with worker := match k' with | some k' => .reporting k' | none => .top }
  | .waiting | .acquireWaiting _ | .exited | .crashed _ => none

/-- Some thread runs the event loop of connection `c`. -/
def Loops (s : Sender) (c : Nat) : Prop :=
  (s.net.conns c).stopped = false ∧
    ((s.net.conns c).runner = .running ∨ s.worker.attempts c = true)

instance (s : Sender) (c : Nat) : Decidable (s.Loops c) := inferInstanceAs (Decidable (_ ∧ _))

/-- The next step of a task on connection `c` that has been taken out of the others. -/
def handle (s : Sender) (c : Nat) (others : Net) : Phase → Option Sender
  | .posted p =>
    if s.Loops c ∧ others.StrandFree c then
      match (others.conns c).socket with
      | none => some { s with net := others.put ⟨c, .handling (.failure p)⟩ }
      | some x => some { s with net := others.put ⟨c, .writing p x (serialize p.chunk)⟩ }
    else none
  | .completed p ok =>
    if s.Loops c ∧ others.StrandFree c then
      if ok then some { s with net := others.put ⟨c, .handling (.success p)⟩ }
      else some { s with net := (others.close c).put ⟨c, .handling (.failure p)⟩ }
    else none
  | .handling k =>
    (callback o { s with net := others } k).map fun (k', s) =>
      match k' with
      | some k' => { s with net := s.net.put ⟨c, .handling k'⟩ }
      | none => s
  | .writing .. => none

/-- The write of a task gets `n` bytes off. -/
def write (s : Sender) (n : Nat) (c : Nat) (others : Net) : Phase → Option Sender
  | .writing p x rest =>
    if s.Loops c ∧ (others.conns c).broken = false ∧ 0 < n ∧ n ≤ rest.length then
      let phase := if n = rest.length then .completed p true else .writing p x (rest.drop n)
      some { s with net := (others.transmit x (rest.take n)).put ⟨c, phase⟩ }
    else none
  | _ => none

/-- The write of a task fails. -/
def fail (s : Sender) (c : Nat) (others : Net) : Phase → Option Sender
  | .writing p _ _ =>
    if s.Loops c then some { s with net := (others.sever c).put ⟨c, .completed p false⟩ } else none
  | _ => none

/-- The next step of `stop`. -/
def advanceStop (s : Sender) : Option Sender :=
  match s.stopper with
  | .closed => some { s with stopRequested := true, stopper := .requested }
  | .requested => if s.worker = .exited then some { s with stopper := .draining } else none
  | .draining => some { s with stopper := if s.inflight = 0 then .stopping 0 else .drainWaiting }
  | .stopping c =>
    if c < o.slots then some { s with net := s.net.close c, stopper := .joining c }
    else some { s with stopper := .returned }
  | .joining c =>
    if (s.net.conns c).runner = .running then none
    else some { s with
      net := s.net.setConn c (s.net.conns c).joined
      stopper := .stopping (c + 1) }
  | .idle | .drainWaiting | .returned => none

/-- The task at position `i` is taken out and handed to `f` with the others. -/
def task (s : Sender) (i : Nat) (f : Nat → Net → Phase → Option Sender) : Option Sender :=
  (Pool.take s.net.tasks i).bind fun (t, tasks) => f t.conn { s.net with tasks } t.phase

def step (s : Sender) : SenderAction → Option Sender
  | .push chunk =>
    if s.closed then some s
    else if s.queue.length < o.capacity then
      some { s with queue := s.queue ++ [chunk], accepted := s.accepted ++ [chunk] }
    else none
  | .close => some { s with closed := true }
  | .work ok => s.work o ok
  | .handle i => s.task i (s.handle o)
  | .write i n => s.task i (s.write n)
  | .fail i => s.task i s.fail
  | .exitRunner c =>
    if c < o.slots then (s.net.exitRunner c).map fun net => { s with net } else none
  | .callStop =>
    if s.stopper = .idle then some { s with closed := true, stopper := .closed } else none
  | .stop => s.advanceStop o
  | .wakeWorker =>
    match s.worker with
    | .waiting => some { s with worker := .locking }
    | .acquireWaiting p => some { s with worker := .acquiring p }
    | _ => none
  | .wakeStopper =>
    if s.stopper = .drainWaiting then some { s with stopper := .draining } else none

/-- Everything the worker can do without touching a connection. -/
inductive Control : Sender → Sender → Prop where
  | stopped {s : Sender} (hw : s.worker = .top) (h : s.stopRequested = true) :
      Control s { s with worker := .exited }
  | goesOn {s : Sender} (hw : s.worker = .top) (h : s.stopRequested = false) :
      Control s { s with worker := .fetching }
  | retries {s : Sender} {p : PendingChunk} {retry : List PendingChunk}
      (hw : s.worker = .fetching) (h : s.retry = p :: retry) :
      Control s { s with retry, worker := .acquiring p }
  | noRetry {s : Sender} (hw : s.worker = .fetching) (h : s.retry = []) :
      Control s { s with worker := .popping }
  | popped {s : Sender} {chunk : FileChunk} {queue : List FileChunk}
      (hw : s.worker = .popping) (h : s.queue = chunk :: queue) :
      Control s { s with queue, worker := .acquiring ⟨chunk, 1⟩ }
  | drained {s : Sender} (hw : s.worker = .popping) (h : s.queue = [])
      (hclosed : s.closed = true) : Control s { s with finishing := true, worker := .locking }
  | resumed {s : Sender} (hw : s.worker = .locking)
      (h : s.stopRequested = true ∨ s.retry ≠ [] ∨ s.inflight = 0) :
      Control s { s with worker := .resumed }
  | decided {s : Sender} (hw : s.worker = .locking) (hstop : s.stopRequested = false)
      (hretry : s.retry = []) (hinflight : s.inflight ≠ 0) :
      Control s { s with worker := .deciding }
  | waits {s : Sender} (hw : s.worker = .deciding) : Control s { s with worker := .waiting }
  | leaves {s : Sender} (hw : s.worker = .resumed) (h : s.stopRequested = true) :
      Control s { s with worker := .exited }
  | returns {s : Sender} (hw : s.worker = .resumed) (hstop : s.stopRequested = false)
      (h : s.retry ≠ []) : Control s { s with finishing := false, worker := .top }
  | unlocks {s : Sender} (hw : s.worker = .resumed) (hstop : s.stopRequested = false)
      (h : s.retry = []) : Control s { s with worker := .unlocked }
  | finishes {s : Sender} (hw : s.worker = .unlocked) (h : s.inflight = 0) :
      Control s { s with worker := .exited }
  | repeats {s : Sender} (hw : s.worker = .unlocked) (h : s.inflight ≠ 0) :
      Control s { s with finishing := false, worker := .top }
  | discards {s : Sender} {p : PendingChunk} (hw : s.worker = .acquiring p)
      (h : s.stopRequested = true) : Control s { s with worker := .exited }
  | acquires {s : Sender} {p : PendingChunk} (hw : s.worker = .acquiring p)
      (hstop : s.stopRequested = false) (h : s.inflight < o.slots) :
      Control s { s with inflight := s.inflight + 1, worker := .choosing p }
  | awaits {s : Sender} {p : PendingChunk} (hw : s.worker = .acquiring p)
      (hstop : s.stopRequested = false) (h : o.slots ≤ s.inflight) :
      Control s { s with worker := .acquireWaiting p }
  | chooses {s : Sender} {p : PendingChunk} (hw : s.worker = .choosing p) :
      Control s { s with next := (s.next + 1) % o.slots, worker := .connecting p s.next }
  | wakes {s : Sender} (hw : s.worker = .waiting) : Control s { s with worker := .locking }
  | wakesSlot {s : Sender} {p : PendingChunk} (hw : s.worker = .acquireWaiting p) :
      Control s { s with worker := .acquiring p }

/-- Everything `ensure_connected` and `async_send_chunk` do on the worker. -/
inductive Dial : Sender → Sender → Prop where
  | isOpen {s : Sender} {p : PendingChunk} {c : Nat} (hw : s.worker = .connecting p c)
      (h : (s.net.conns c).socket.isSome = true) : Dial s { s with worker := .dispatching p c }
  | emplaces {s : Sender} {p : PendingChunk} {c : Nat} (hw : s.worker = .connecting p c)
      (h : (s.net.conns c).socket = none) :
      Dial s { s with net := s.net.emplace c, worker := .attempting p c 0 }
  | unresolved {s : Sender} {p : PendingChunk} {c : Nat} (hw : s.worker = .connecting p c)
      (h : (s.net.conns c).socket = none) : Dial s { s with worker := .reporting (.failure p) }
  | connects {s : Sender} {p : PendingChunk} {c k : Nat} {conn : Connection}
      (hw : s.worker = .attempting p c k) (hloop : (s.net.conns c).stopped = true ∨ s.net.Idle c)
      (h : (s.net.conns c).socket.isSome = true) (he : (s.net.conns c).ensureRunner = some conn) :
      Dial s { s with net := s.net.setConn c conn, worker := .dispatching p c }
  | crashes {s : Sender} {p : PendingChunk} {c k : Nat} (hw : s.worker = .attempting p c k)
      (h : (s.net.conns c).socket = none) : Dial s { s with worker := .crashed p }
  | reattempts {s : Sender} {p : PendingChunk} {c k : Nat} (hw : s.worker = .attempting p c k)
      (hloop : (s.net.conns c).stopped = true ∨ s.net.Idle c) :
      Dial s { s with net := (s.net.close c).emplace c, worker := .attempting p c (k + 1) }
  | givesUp {s : Sender} {p : PendingChunk} {c k : Nat} (hw : s.worker = .attempting p c k)
      (hloop : (s.net.conns c).stopped = true ∨ s.net.Idle c) :
      Dial s { s with net := s.net.close c, worker := .reporting (.failure p) }
  | dispatches {s : Sender} {p : PendingChunk} {c : Nat} (hw : s.worker = .dispatching p c) :
      Dial s { s with net := s.net.put ⟨c, .posted p⟩, worker := .top }

/-- Everything a callback can do. -/
inductive Called : Sender → Callback → Option Callback → Sender → Prop where
  | sent {s : Sender} {p : PendingChunk} :
      Called s (.success p) (some .releasing) { s with reports := s.reports ++ [.sent p] }
  | dropped {s : Sender} {p : PendingChunk} (h : o.maxAttempts ≤ p.attempt) :
      Called s (.failure p) (some .releasing) { s with reports := s.reports ++ [.dropped p] }
  | retries {s : Sender} {p : PendingChunk} (h : p.attempt < o.maxAttempts)
      (hfree : ¬s.RetryLocked) :
      Called s (.failure p) (some .retried) { s with retry := s.retry ++ [⟨p.chunk, p.attempt + 1⟩] }
  | wakesRetry {s : Sender} (hw : s.worker = .waiting) :
      Called s .retried (some .releasing) { s with worker := .locking }
  | passesRetry {s : Sender} (hw : s.worker ≠ .waiting) : Called s .retried (some .releasing) s
  | releases {s : Sender} :
      Called s .releasing (some (.notifying (s.inflight - 1 == 0 && s.finishing)))
        { s with inflight := s.inflight - 1 }
  | wakesWorker {s : Sender} {r : Bool} {p : PendingChunk} (hw : s.worker = .acquireWaiting p) :
      Called s (.notifying r) (if r then some .notifyingRetry else none)
        { s with worker := .acquiring p }
  | wakesStopper {s : Sender} {r : Bool} (hw : ∀ p, s.worker ≠ .acquireWaiting p)
      (h : s.stopper = .drainWaiting) :
      Called s (.notifying r) (if r then some .notifyingRetry else none)
        { s with stopper := .draining }
  | passesSlot {s : Sender} {r : Bool} (hw : ∀ p, s.worker ≠ .acquireWaiting p)
      (h : s.stopper ≠ .drainWaiting) :
      Called s (.notifying r) (if r then some .notifyingRetry else none) s
  | wakesFinishing {s : Sender} (hw : s.worker = .waiting) :
      Called s .notifyingRetry none { s with worker := .locking }
  | passesFinishing {s : Sender} (hw : s.worker ≠ .waiting) : Called s .notifyingRetry none s

/-- Everything that can happen to a task once it has been taken out of the others. -/
inductive Handled : Sender → Nat → Net → Phase → Sender → Prop where
  | refuses {s : Sender} {c : Nat} {n : Net} {p : PendingChunk} (hloop : s.Loops c)
      (hfree : n.StrandFree c) (h : (n.conns c).socket = none) :
      Handled s c n (.posted p) { s with net := n.put ⟨c, .handling (.failure p)⟩ }
  | begins {s : Sender} {c : Nat} {n : Net} {p : PendingChunk} {x : Nat} (hloop : s.Loops c)
      (hfree : n.StrandFree c) (h : (n.conns c).socket = some x) :
      Handled s c n (.posted p) { s with net := n.put ⟨c, .writing p x (serialize p.chunk)⟩ }
  | succeeds {s : Sender} {c : Nat} {n : Net} {p : PendingChunk} (hloop : s.Loops c)
      (hfree : n.StrandFree c) :
      Handled s c n (.completed p true) { s with net := n.put ⟨c, .handling (.success p)⟩ }
  | closes {s : Sender} {c : Nat} {n : Net} {p : PendingChunk} (hloop : s.Loops c)
      (hfree : n.StrandFree c) :
      Handled s c n (.completed p false)
        { s with net := (n.close c).put ⟨c, .handling (.failure p)⟩ }
  | calls {s s' : Sender} {c : Nat} {n : Net} {k k' : Callback}
      (hk : Called o { s with net := n } k (some k') s') :
      Handled s c n (.handling k) { s' with net := s'.net.put ⟨c, .handling k'⟩ }
  | ends {s s' : Sender} {c : Nat} {n : Net} {k : Callback}
      (hk : Called o { s with net := n } k none s') : Handled s c n (.handling k) s'
  | writes {s : Sender} {c : Nat} {n : Net} {p : PendingChunk} {x k : Nat} {rest : Bytes}
      (hloop : s.Loops c) (hsound : (n.conns c).broken = false) (h : k < rest.length)
      (hpos : 0 < k) : Handled s c n (.writing p x rest)
        { s with net := (n.transmit x (rest.take k)).put ⟨c, .writing p x (rest.drop k)⟩ }
  | completes {s : Sender} {c : Nat} {n : Net} {p : PendingChunk} {x : Nat} {rest : Bytes}
      (hloop : s.Loops c) (hsound : (n.conns c).broken = false) :
      Handled s c n (.writing p x rest)
        { s with net := (n.transmit x rest).put ⟨c, .completed p true⟩ }
  | fails {s : Sender} {c : Nat} {n : Net} {p : PendingChunk} {x : Nat} {rest : Bytes}
      (hloop : s.Loops c) :
      Handled s c n (.writing p x rest)
        { s with net := (n.sever c).put ⟨c, .completed p false⟩ }

/-- Everything `stop` can do. -/
inductive Stops : Sender → Sender → Prop where
  | calls {s : Sender} (hst : s.stopper = .idle) :
      Stops s { s with closed := true, stopper := .closed }
  | joins {s : Sender} (hst : s.stopper = .requested) (hw : s.worker = .exited) :
      Stops s { s with stopper := .draining }
  | drains {s : Sender} (hst : s.stopper = .draining) (h : s.inflight = 0) :
      Stops s { s with stopper := .stopping 0 }
  | waits {s : Sender} (hst : s.stopper = .draining) (h : s.inflight ≠ 0) :
      Stops s { s with stopper := .drainWaiting }
  | wakes {s : Sender} (hst : s.stopper = .drainWaiting) : Stops s { s with stopper := .draining }
  | stops {s : Sender} {c : Nat} (hst : s.stopper = .stopping c) (h : c < o.slots) :
      Stops s { s with net := s.net.close c, stopper := .joining c }
  | returns {s : Sender} {c : Nat} (hst : s.stopper = .stopping c) (h : o.slots ≤ c) :
      Stops s { s with stopper := .returned }
  | joined {s : Sender} {c : Nat} (hst : s.stopper = .joining c)
      (h : (s.net.conns c).runner ≠ .running) :
      Stops s { s with
        net := s.net.setConn c (s.net.conns c).joined
        stopper := .stopping (c + 1) }

/-- Everything a step of the worker can do. -/
inductive Worked : Sender → Sender → Prop where
  | control {s s' : Sender} (h : Control o s s') : Worked s s'
  | dial {s s' : Sender} (h : Dial s s') : Worked s s'
  | reports {s s' : Sender} {k k' : Callback} (hw : s.worker = .reporting k)
      (h : Called o s k (some k') s') : Worked s { s' with worker := .reporting k' }
  | reported {s s' : Sender} {k : Callback} (hw : s.worker = .reporting k)
      (h : Called o s k none s') : Worked s { s' with worker := .top }

/-- Everything a step can do. -/
inductive Moves : Sender → SenderAction → Sender → Prop where
  | rejects {s : Sender} {chunk : FileChunk} (h : s.closed = true) : Moves s (.push chunk) s
  | accepts {s : Sender} {chunk : FileChunk} (h : s.closed = false)
      (hcap : s.queue.length < o.capacity) :
      Moves s (.push chunk)
        { s with queue := s.queue ++ [chunk], accepted := s.accepted ++ [chunk] }
  | closes {s : Sender} : Moves s .close { s with closed := true }
  | control {s s' : Sender} {a : SenderAction} (h : Control o s s') : Moves s a s'
  | dial {s s' : Sender} {ok : Bool} (h : Dial s s') : Moves s (.work ok) s'
  | reports {s s' : Sender} {ok : Bool} {k k' : Callback} (hw : s.worker = .reporting k)
      (h : Called o s k (some k') s') : Moves s (.work ok) { s' with worker := .reporting k' }
  | reported {s s' : Sender} {ok : Bool} {k : Callback} (hw : s.worker = .reporting k)
      (h : Called o s k none s') : Moves s (.work ok) { s' with worker := .top }
  | handled {s s' : Sender} {a : SenderAction} {i : Nat} {t : Task} {others : List Task}
      (ha : a.task = some i) (ht : Pool.take s.net.tasks i = some (t, others))
      (h : Handled o s t.conn { s.net with tasks := others } t.phase s') : Moves s a s'
  | exits {s : Sender} {c : Nat} (hrun : (s.net.conns c).runner = .running)
      (hstop : (s.net.conns c).runnerStop = true) (hfree : s.net.StrandFree c)
      (hloop : (s.net.conns c).stopped = true ∨ s.net.Idle c) :
      Moves s (.exitRunner c)
        { s with net := s.net.setConn c { s.net.conns c with runner := .exited } }
  | requests {s : Sender} (hst : s.stopper = .closed) :
      Moves s .stop { s with stopRequested := true, stopper := .requested }
  | stopper {s s' : Sender} {a : SenderAction} (h : Stops o s s') : Moves s a s'

variable {o}

theorem called_of_callback {s s' : Sender} {k : Callback} {k' : Option Callback}
    (h : callback o s k = some (k', s')) : Called o s k k' s' := by
  cases k with
  | success p =>
    cases h
    exact .sent
  | failure p =>
    simp only [callback] at h
    split at h
    · next hlimit =>
      cases h
      exact .dropped hlimit
    · next hlimit =>
      split at h
      · cases h
      · next hfree =>
        cases h
        exact .retries (Nat.lt_of_not_le hlimit) hfree
  | retried =>
    cases h
    unfold notifyRetry
    split
    · next hw => exact .wakesRetry hw
    · next hw => exact .passesRetry hw
  | releasing =>
    cases h
    exact .releases
  | notifying r =>
    cases h
    generalize hs : s.notifySlot = s'
    unfold notifySlot at hs
    split at hs
    · next p hw =>
      subst hs
      exact .wakesWorker hw
    · next hw =>
      split at hs
      · next hst =>
        subst hs
        exact .wakesStopper hw hst
      · next hst =>
        subst hs
        exact .passesSlot hw hst
  | notifyingRetry =>
    cases h
    unfold notifyRetry
    split
    · next hw => exact .wakesFinishing hw
    · next hw => exact .passesFinishing hw

theorem handled_of_handle {s s' : Sender} {c : Nat} {n : Net} {phase : Phase}
    (h : s.handle o c n phase = some s') : Handled o s c n phase s' := by
  cases phase with
  | posted p =>
    simp only [handle] at h
    split at h
    · next hrun =>
      split at h
      · next hx =>
        cases h
        exact .refuses hrun.1 hrun.2 hx
      · next x hx =>
        cases h
        exact .begins hrun.1 hrun.2 hx
    · cases h
  | writing p x rest => cases h
  | completed p ok =>
    simp only [handle] at h
    split at h
    · next hrun =>
      cases ok with
      | true =>
        cases h
        exact .succeeds hrun.1 hrun.2
      | false =>
        cases h
        exact .closes hrun.1 hrun.2
    · cases h
  | handling k =>
    obtain ⟨⟨k', s₁⟩, hk, rfl⟩ := Option.map_eq_some_iff.mp h
    cases k' with
    | none => exact .ends (called_of_callback hk)
    | some k' => exact .calls (called_of_callback hk)

theorem handled_of_write {s s' : Sender} {k c : Nat} {n : Net} {phase : Phase}
    (h : s.write k c n phase = some s') : Handled o s c n phase s' := by
  cases phase with
  | writing p x rest =>
    simp only [write] at h
    split at h
    · next hrun =>
      obtain ⟨hloop, hsound, hpos, hle⟩ := hrun
      by_cases hk : k = rest.length
      · rw [if_pos hk, hk, List.take_length] at h
        cases h
        exact .completes hloop hsound
      · rw [if_neg hk] at h
        cases h
        exact .writes hloop hsound (Nat.lt_of_le_of_ne hle hk) hpos
    · cases h
  | _ => cases h

theorem handled_of_fail {s s' : Sender} {c : Nat} {n : Net} {phase : Phase}
    (h : s.fail c n phase = some s') : Handled o s c n phase s' := by
  cases phase with
  | writing p x rest =>
    simp only [fail] at h
    split at h
    · next hloop =>
      cases h
      exact .fails hloop
    · cases h
  | _ => cases h

theorem task_eq_some {s s' : Sender} {i : Nat} {f : Nat → Net → Phase → Option Sender}
    (h : s.task i f = some s') : ∃ t others, Pool.take s.net.tasks i = some (t, others) ∧
      f t.conn { s.net with tasks := others } t.phase = some s' := by
  obtain ⟨⟨t, others⟩, ht, hf⟩ := Option.bind_eq_some_iff.mp h
  exact ⟨t, others, ht, hf⟩

theorem worked_of_work {s s' : Sender} {ok : Bool} (h : s.work o ok = some s') :
    Worked o s s' := by
  unfold work at h
  split at h
  · next hw =>
    cases h
    by_cases hstop : s.stopRequested = true
    · rw [if_pos hstop]
      exact .control (.stopped hw hstop)
    · rw [if_neg hstop]
      exact .control (.goesOn hw (Bool.eq_false_iff.mpr hstop))
  · next hw =>
    split at h
    · next hr =>
      cases h
      exact .control (.retries hw hr)
    · next hr =>
      cases h
      exact .control (.noRetry hw hr)
  · next hw =>
    split at h
    · next hq =>
      cases h
      exact .control (.popped hw hq)
    · next hq =>
      split at h
      · next hclosed =>
        cases h
        exact .control (.drained hw hq hclosed)
      · cases h
  · next hw =>
    cases h
    split
    · next hp => exact .control (.resumed hw hp)
    · next hp =>
      simp only [not_or, ne_eq, not_not, Bool.not_eq_true] at hp
      exact .control (.decided hw hp.1 hp.2.1 hp.2.2)
  · next hw =>
    cases h
    exact .control (.waits hw)
  · next hw =>
    split at h
    · next hstop =>
      cases h
      exact .control (.leaves hw hstop)
    · next hstop =>
      split at h
      · next hr =>
        cases h
        exact .control (.returns hw (Bool.eq_false_iff.mpr hstop) hr)
      · next hr =>
        cases h
        exact .control (.unlocks hw (Bool.eq_false_iff.mpr hstop) (not_not.mp hr))
  · next hw =>
    split at h
    · next hz =>
      cases h
      exact .control (.finishes hw hz)
    · next hz =>
      cases h
      exact .control (.repeats hw hz)
  · next hw =>
    split at h
    · next hstop =>
      cases h
      exact .control (.discards hw hstop)
    · next hstop =>
      split at h
      · next hlt =>
        cases h
        exact .control (.acquires hw (Bool.eq_false_iff.mpr hstop) hlt)
      · next hlt =>
        cases h
        exact .control (.awaits hw (Bool.eq_false_iff.mpr hstop) (Nat.le_of_not_lt hlt))
  · next hw =>
    cases h
    exact .control (.chooses hw)
  · next hw =>
    split at h
    · next hopen =>
      cases h
      exact .dial (.isOpen hw hopen)
    · next hopen =>
      rw [Bool.not_eq_true, Option.isSome_eq_false_iff, Option.isNone_iff_eq_none] at hopen
      split at h
      · cases h
        exact .dial (.emplaces hw hopen)
      · cases h
        exact .dial (.unresolved hw hopen)
  · next hw =>
    split at h
    · next hloop =>
      split at h
      · split at h
        · next hopen =>
          obtain ⟨conn, hconn, rfl⟩ := Option.map_eq_some_iff.mp h
          exact .dial (.connects hw hloop hopen hconn)
        · next hopen =>
          rw [Bool.not_eq_true, Option.isSome_eq_false_iff, Option.isNone_iff_eq_none] at hopen
          cases h
          exact .dial (.crashes hw hopen)
      · split at h
        · cases h
          exact .dial (.reattempts hw hloop)
        · cases h
          exact .dial (.givesUp hw hloop)
    · cases h
  · next hw =>
    cases h
    exact .dial (.dispatches hw)
  · next hw =>
    obtain ⟨⟨k', s₁⟩, hk, rfl⟩ := Option.map_eq_some_iff.mp h
    cases k' with
    | none => exact .reported hw (called_of_callback hk)
    | some k' => exact .reports hw (called_of_callback hk)
  all_goals cases h

theorem Worked.moves {s s' : Sender} (h : Worked o s s') (ok : Bool) : Moves o s (.work ok) s' := by
  cases h with
  | control h => exact .control h
  | dial h => exact .dial h
  | reports hw h => exact .reports hw h
  | reported hw h => exact .reported hw h

theorem moves_of_advanceStop {s s' : Sender} (h : s.advanceStop o = some s') :
    Moves o s .stop s' := by
  unfold advanceStop at h
  split at h
  · next hst =>
    cases h
    exact .requests hst
  · next hst =>
    split at h
    · next hw =>
      cases h
      exact .stopper (.joins hst hw)
    · cases h
  · next hst =>
    cases h
    split
    · next hz => exact .stopper (.drains hst hz)
    · next hz => exact .stopper (.waits hst hz)
  · next hst =>
    split at h
    · next hlt =>
      cases h
      exact .stopper (.stops hst hlt)
    · next hlt =>
      cases h
      exact .stopper (.returns hst (Nat.le_of_not_lt hlt))
  · next hst =>
    split at h
    · cases h
    · next hrun =>
      cases h
      exact .stopper (.joined hst hrun)
  all_goals cases h

theorem handled_of_step {s s' : Sender} {a : SenderAction} {i : Nat} (ha : a.task = some i)
    (h : step o s a = some s') : ∃ t others, Pool.take s.net.tasks i = some (t, others) ∧
      Handled o s t.conn { s.net with tasks := others } t.phase s' := by
  cases a with
  | handle =>
    cases ha
    obtain ⟨t, others, ht, hf⟩ := task_eq_some h
    exact ⟨t, others, ht, handled_of_handle hf⟩
  | write =>
    cases ha
    obtain ⟨t, others, ht, hf⟩ := task_eq_some h
    exact ⟨t, others, ht, handled_of_write hf⟩
  | fail =>
    cases ha
    obtain ⟨t, others, ht, hf⟩ := task_eq_some h
    exact ⟨t, others, ht, handled_of_fail hf⟩
  | _ => cases ha

theorem moves_of_step {s s' : Sender} {a : SenderAction} (h : step o s a = some s') :
    Moves o s a s' := by
  cases a with
  | push chunk =>
    simp only [step] at h
    split at h
    · next hclosed =>
      cases h
      exact .rejects hclosed
    · next hclosed =>
      split at h
      · next hcap =>
        cases h
        exact .accepts (Bool.eq_false_iff.mpr hclosed) hcap
      · cases h
  | close =>
    cases h
    exact .closes
  | work ok => exact (worked_of_work h).moves ok
  | handle i | write i | fail i =>
    obtain ⟨t, others, ht, hf⟩ := handled_of_step rfl h
    exact .handled rfl ht hf
  | exitRunner c =>
    simp only [step] at h
    split at h
    · obtain ⟨net, hnet, rfl⟩ := Option.map_eq_some_iff.mp h
      unfold Net.exitRunner at hnet
      split at hnet
      · next hex =>
        cases hnet
        exact .exits hex.1 hex.2.1 hex.2.2.1 hex.2.2.2
      · cases hnet
    · cases h
  | callStop =>
    simp only [step] at h
    split at h
    · next hst =>
      cases h
      exact .stopper (.calls hst)
    · cases h
  | stop => exact moves_of_advanceStop h
  | wakeWorker =>
    simp only [step] at h
    split at h
    · next hw =>
      cases h
      exact .control (.wakes hw)
    · next hw =>
      cases h
      exact .control (.wakesSlot hw)
    · cases h
  | wakeStopper =>
    simp only [step] at h
    split at h
    · next hst =>
      cases h
      exact .stopper (.wakes hst)
    · cases h

end Sender

end SuperVoice.Client
