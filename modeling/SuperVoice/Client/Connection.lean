import SuperVoice.Client.Chunker
import SuperVoice.Lib.Pool

/-! `Sender::Connection`: a socket, the event loop behind it and the thread that runs the loop.
The handlers and writes in flight on all connections are the tasks. A handler is cut where
another thread can come between. -/
namespace SuperVoice.Client
open Bytes

def serialize (chunk : FileChunk) : Bytes :=
  ascii "FILE " ++ chunk.descriptor.path ++ [newline] ++
    ascii "SHA256 " ++ chunk.sha256Hex ++ [newline] ++
    ascii "ORIGINAL_SIZE " ++ decimal chunk.descriptor.size ++ [newline] ++
    ascii "CHUNK " ++ decimal chunk.index ++ ascii "/" ++ decimal chunk.totalChunks ++ [newline] ++
    ascii "PAYLOAD_SIZE " ++ decimal chunk.payload.length ++ [newline, newline] ++ chunk.payload

/-- The state of `runner_`; a thread that has exited is still joinable. -/
inductive Runner where
  | none
  | running
  | exited
  deriving DecidableEq

structure Connection where
  /-- The open socket, if any; a socket that is emplaced anew is a new number. -/
  socket : Option Nat
  /-- A write on the socket has failed: it takes no more bytes. -/
  broken : Bool
  /-- `work_guard_` holds a guard. -/
  guarded : Bool
  /-- `io_context.stopped()`. -/
  stopped : Bool
  runner : Runner
  /-- The stop token of the runner. -/
  runnerStop : Bool
  cleanupPending : Bool
  deriving DecidableEq

def Connection.fresh : Connection := ⟨none, false, false, false, .none, false, false⟩

namespace Connection

/-- `stop_runner(false)`. -/
def stopRunner (c : Connection) : Connection :=
  if c.runner = .none then { c with guarded := false, stopped := false, cleanupPending := false }
  else { c with guarded := false, stopped := true, runnerStop := true, cleanupPending := true }

def close (c : Connection) : Connection := { c with socket := none, broken := false }.stopRunner

/-- What `stop` does behind the join in `stop_runner(true)`; up to the join it is `close`. -/
def joined (c : Connection) : Connection :=
  { c with runner := .none, cleanupPending := false, stopped := false }

/-- A new socket is emplaced and `io_context` restarted for an attempt to connect. -/
def emplace (c : Connection) (socket : Nat) : Connection :=
  { c with socket := some socket, broken := false, stopped := false }

/-- A runner that has exited is joined before the next one. -/
def reap (c : Connection) : Connection :=
  if c.cleanupPending ∧ c.runner = .exited then c.joined else c

/-- The work guard is set and a runner started unless there is one. -/
def spawn (c : Connection) : Connection :=
  if c.runner = .none then
    { c with guarded := true, stopped := false, runner := .running, runnerStop := false }
  else { c with guarded := true }

/-- `ensure_runner`; `none` while its join waits for the old runner. -/
def ensureRunner (c : Connection) : Option Connection :=
  if c.cleanupPending ∧ c.runner = .running then none else some c.reap.spawn

end Connection

/-- An element of `retry_queue_`; also a chunk on its way, with the number of its attempt. -/
structure PendingChunk where
  chunk : FileChunk
  attempt : Nat
  deriving DecidableEq

/-- Where `on_chunk_success` or `on_chunk_failure` stands. -/
inductive Callback where
  | success (p : PendingChunk)
  | failure (p : PendingChunk)
  /-- Pushed on `retry_queue_`, `retry_cv_` not yet notified. -/
  | retried
  | releasing
  /-- The slot is given back, `inflight_cv_` not yet notified. -/
  | notifying (notifyRetry : Bool)
  | notifyingRetry
  deriving DecidableEq

/-- What becomes of a chunk that `async_send_chunk` has taken. -/
inductive Phase where
  /-- `send_op` is queued on the strand. -/
  | posted (p : PendingChunk)
  /-- `async_write` is under way: the bytes that are still to be sent. -/
  | writing (p : PendingChunk) (socket : Nat) (rest : Bytes)
  /-- The completion handler is queued on the strand. -/
  | completed (p : PendingChunk) (ok : Bool)
  | handling (k : Callback)
  deriving DecidableEq

structure Task where
  conn : Nat
  phase : Phase
  deriving DecidableEq

/-- The connections, the tasks in no order, and what each socket has sent. -/
structure Net where
  conns : Nat → Connection
  /-- The number of the next socket. -/
  sockets : Nat
  tasks : List Task
  sent : Nat → Bytes

/-- The event loop has a handler or an operation of this task to look after. -/
def Phase.live : Phase → Bool
  | .posted _ | .writing .. | .completed .. => true
  | .handling _ => false

/-- Closing a socket ends the write on it with an error. -/
def Phase.abort : Phase → Phase
  | .writing p _ _ => .completed p false
  | phase => phase

def Task.abort (c : Nat) (t : Task) : Task :=
  if t.conn = c then { t with phase := t.phase.abort } else t

namespace Net

def setConn (n : Net) (c : Nat) (conn : Connection) : Net :=
  { n with conns := Function.update n.conns c conn }

/-- `close` on connection `c`. -/
def close (n : Net) (c : Nat) : Net :=
  { n.setConn c (n.conns c).close with tasks := n.tasks.map (Task.abort c) }

def emplace (n : Net) (c : Nat) : Net :=
  { n.setConn c ((n.conns c).emplace n.sockets) with sockets := n.sockets + 1 }

/-- The socket of connection `c` takes no more bytes. -/
def sever (n : Net) (c : Nat) : Net := n.setConn c { n.conns c with broken := true }

/-- A task is put back to the others. -/
def put (n : Net) (t : Task) : Net := { n with tasks := t :: n.tasks }

/-- Bytes leave through socket `x`. -/
def transmit (n : Net) (x : Nat) (b : Bytes) : Net :=
  { n with sent := Function.update n.sent x (n.sent x ++ b) }

section Fields
variable (n : Net) (c x : Nat) (conn : Connection) (t : Task) (b : Bytes)

@[simp] theorem setConn_tasks : (n.setConn c conn).tasks = n.tasks := rfl
@[simp] theorem setConn_conns : (n.setConn c conn).conns = Function.update n.conns c conn := rfl

@[simp] theorem close_tasks : (n.close c).tasks = n.tasks.map (Task.abort c) := rfl
@[simp] theorem close_conns :
    (n.close c).conns = Function.update n.conns c (n.conns c).close := rfl

@[simp] theorem emplace_tasks : (n.emplace c).tasks = n.tasks := rfl
@[simp] theorem emplace_conns :
    (n.emplace c).conns = Function.update n.conns c ((n.conns c).emplace n.sockets) := rfl

@[simp] theorem sever_tasks : (n.sever c).tasks = n.tasks := rfl
@[simp] theorem sever_conns :
    (n.sever c).conns = Function.update n.conns c { n.conns c with broken := true } := rfl

@[simp] theorem put_tasks : (n.put t).tasks = t :: n.tasks := rfl
@[simp] theorem put_sent : (n.put t).sent = n.sent := rfl
@[simp] theorem put_sockets : (n.put t).sockets = n.sockets := rfl
@[simp] theorem put_conns : (n.put t).conns = n.conns := rfl

@[simp] theorem transmit_tasks : (n.transmit x b).tasks = n.tasks := rfl
@[simp] theorem transmit_sent :
    (n.transmit x b).sent = Function.update n.sent x (n.sent x ++ b) := rfl

end Fields

/-- Nothing is left on connection `c` for its event loop. -/
def Idle (n : Net) (c : Nat) : Prop := ∀ t ∈ n.tasks, t.conn ≠ c

instance (n : Net) (c : Nat) : Decidable (n.Idle c) := inferInstanceAs (Decidable (∀ _ ∈ _, _))

/-- No handler is under way on the strand of connection `c`. -/
def StrandFree (n : Net) (c : Nat) : Prop := ∀ t ∈ n.tasks, t.conn = c → t.phase.live = true

instance (n : Net) (c : Nat) : Decidable (n.StrandFree c) :=
  inferInstanceAs (Decidable (∀ _ ∈ _, _))

/-- The runner of connection `c` leaves its loop. -/
def exitRunner (n : Net) (c : Nat) : Option Net :=
  if (n.conns c).runner = .running ∧ (n.conns c).runnerStop ∧ n.StrandFree c ∧
      ((n.conns c).stopped ∨ n.Idle c) then
    some (n.setConn c { n.conns c with runner := .exited })
  else none

end Net

end SuperVoice.Client
