import SuperVoice.Client.Accounting
import SuperVoice.Lib.Custody

/-! The chunk objects behind the sender. The retry queue, the worker and the handlers share them by
pointer; the handler that is done with an object clears its payload. -/
namespace SuperVoice.Client
open Bytes Transition
variable {o : SenderOptions}

/-- `payload.clear()`. -/
def FileChunk.clear (chunk : FileChunk) : FileChunk := { chunk with payload := [] }

/-- What the handlers of `async_send_chunk` have captured: `chunk` and `payload`. -/
structure Capture where
  object : Nat
  payload : Bytes

/-- The handler returns behind its next step. -/
def Callback.last : Callback → Bool
  | .notifying notifyRetry => !notifyRetry
  | .notifyingRetry => true
  | .success _ | .failure _ | .retried | .releasing => false

structure Shared where
  sender : Sender
  /-- The objects of `make_shared`; their places in the list are the pointers. -/
  heap : List FileChunk
  /-- The pointers in `retry_queue_`. -/
  retry : List Nat
  /-- The pointer `chunk` of `run`. -/
  held : Nat
  /-- For each task what its handlers have captured. -/
  captures : List Capture
  log : List (Custody.Event Bytes)

namespace Shared

def start : Shared := ⟨.start, [], [], 0, [], []⟩

/-- `serialize(*chunk)`. -/
def load (x : Shared) (object : Nat) : Bytes := (x.heap[object]?.map serialize).getD []

section Steps
variable (o : SenderOptions) (x : Shared)

/-- What a step of `on_chunk_success`, `on_chunk_failure` or `release_slot` does with the object. -/
def callback (object : Nat) : Callback → Shared
  | .success _ =>
    { x with heap := x.heap.modify object FileChunk.clear, log := x.log ++ [.succeeds object] }
  | .failure p =>
    if o.maxAttempts ≤ p.attempt then
      { x with heap := x.heap.modify object FileChunk.clear, log := x.log ++ [.drops object] }
    else { x with retry := x.retry ++ [object], log := x.log ++ [.again object] }
  | .releasing => { x with log := x.log ++ [.releases] }
  | .retried | .notifying _ | .notifyingRetry => x

/-- What the next step of `run` does with the objects. -/
def work : Shared :=
  match x.sender.worker with
  | .fetching =>
    match x.retry with
    | object :: retry => { x with retry, held := object }
    | [] => x
  | .popping =>
    match x.sender.queue with
    | chunk :: _ => { x with heap := x.heap ++ [chunk], held := x.heap.length }
    | [] => x
  | .acquiring _ =>
    if x.sender.stopRequested = false ∧ x.sender.inflight < o.slots then
      { x with log := x.log ++ [.begins x.held] }
    else x
  | .dispatching .. =>
    { x with
      captures := ⟨x.held, x.load x.held⟩ :: x.captures
      log := x.log ++ [.loads x.held (x.load x.held)] }
  | .reporting k => x.callback o x.held k
  | _ => x

/-- What the next step of a task does with the object that its handlers have captured. -/
def handle (capture : Capture) (others : List Capture) (t : Task) : Shared :=
  match t.phase with
  | .posted _ =>
    let x := { x with captures := capture :: others }
    if (x.sender.net.conns t.conn).socket.isSome then
      { x with log := x.log ++ [.writes capture.object capture.payload] }
    else x
  | .handling k =>
    { x.callback o capture.object k with
      captures := if k.last then others else capture :: others }
  | .writing .. | .completed .. => { x with captures := capture :: others }

def task (i : Nat) : Shared :=
  match Pool.take x.sender.net.tasks i, Pool.take x.captures i with
  | some (t, _), some (capture, others) => x.handle o capture others t
  | _, _ => x

/-- What a step does with the objects. -/
def moved (a : SenderAction) : Shared :=
  match a with
  | .work _ => x.work o
  | .handle i | .write i _ | .fail i => x.task o i
  | .push _ | .close | .exitRunner _ | .callStop | .stop | .wakeWorker | .wakeStopper => x

def step (a : SenderAction) : Option Shared :=
  (x.sender.step o a).map fun sender => { x.moved o a with sender }

end Steps

/-- The objects hold back nothing that the sender can do. -/
theorem exists_shared {s : Sender} (h : Reachable (Sender.step o) .start s) :
    ∃ x : Shared, Reachable (step o) start x ∧ x.sender = s := by
  induction h with
  | start => exact ⟨start, .start, rfl⟩
  | @next _ s' a _ _ hs ih =>
    obtain ⟨x, hx, rfl⟩ := ih
    refine ⟨{ x.moved o a with sender := s' }, .next a hx trivial ?_, rfl⟩
    rw [step, hs]
    rfl

/-- The sender behind the objects makes a run of its own. -/
theorem reachable_sender {x : Shared} (h : Reachable (step o) start x) :
    Reachable (Sender.step o) .start x.sender := by
  induction h with
  | start => exact .start
  | next a _ _ hs ih =>
    obtain ⟨s', hs', rfl⟩ := Option.map_eq_some_iff.mp hs
    exact .next a ih trivial hs'

/-! Who has custody of an object. -/

def entry (object : Nat) (stage : Custody.Stage Bytes) (p : PendingChunk) :
    Custody.Entry FileChunk Bytes :=
  ⟨object, p.chunk, p.attempt, stage⟩

def owned (object : Nat) (stage : Custody.Stage Bytes) (p : Option PendingChunk) :
    List (Custody.Entry FileChunk Bytes) :=
  (p.map (entry object stage)).toList

@[simp] theorem owned_none (object : Nat) (stage : Custody.Stage Bytes) :
    owned object stage none = [] := rfl
@[simp] theorem owned_some (object : Nat) (stage : Custody.Stage Bytes) (p : PendingChunk) :
    owned object stage (some p) = [entry object stage p] := rfl

def workerStage : Worker → Custody.Stage Bytes
  | .acquiring _ | .acquireWaiting _ => .waiting
  | _ => .begun

def workerEntries (object : Nat) (worker : Worker) : List (Custody.Entry FileChunk Bytes) :=
  owned object (workerStage worker) worker.pending

def retryEntries (objects : List Nat) (retry : List PendingChunk) :
    List (Custody.Entry FileChunk Bytes) :=
  List.zipWith (fun object p => entry object .waiting p) objects retry

def captureEntries (capture : Capture) (phase : Phase) :
    List (Custody.Entry FileChunk Bytes) :=
  owned capture.object (.loaded capture.payload) phase.pending

def taskEntries (captures : List Capture) (tasks : List Task) :
    List (Custody.Entry FileChunk Bytes) :=
  (List.zipWith (fun capture (t : Task) => captureEntries capture t.phase) captures tasks).flatten

/-- The objects as the library sees them. -/
def custody (x : Shared) : Custody.State FileChunk Bytes where
  made := x.sender.accepted.take x.heap.length
  heap := x.heap
  entries := retryEntries x.retry x.sender.retry ++ workerEntries x.held x.sender.worker ++
    taskEntries x.captures x.sender.net.tasks
  log := x.log

/-- The pointers stand beside what the sender knows of the chunks. -/
structure Parallel (x : Shared) : Prop where
  retry : x.retry.length = x.sender.retry.length
  captures : x.captures.length = x.sender.net.tasks.length
  popped : x.sender.accepted.drop x.heap.length = x.sender.queue
  made : x.heap.length ≤ x.sender.accepted.length

theorem parallel_start : start.Parallel := ⟨rfl, rfl, rfl, Nat.le_refl 0⟩

/-- A step of the owners that leaves the objects as they were made. -/
abbrev Passes (o : SenderOptions) (s s' : Custody.State FileChunk Bytes) : Prop :=
  Custody.Step o.maxAttempts serialize FileChunk.clear s s'

theorem retryEntries_append {objects : List Nat} {retry : List PendingChunk}
    (h : objects.length = retry.length) (object : Nat) (p : PendingChunk) :
    retryEntries (objects ++ [object]) (retry ++ [p]) =
      retryEntries objects retry ++ [entry object .waiting p] := by
  rw [retryEntries, List.zipWith_append h]
  rfl

theorem taskEntries_cons (capture : Capture) (captures : List Capture) (c : Nat) (phase : Phase)
    (tasks : List Task) : taskEntries (capture :: captures) (⟨c, phase⟩ :: tasks) =
      captureEntries capture phase ++ taskEntries captures tasks := rfl

/-- Closing a connection moves no object. -/
theorem taskEntries_abort (c : Nat) (captures : List Capture) (tasks : List Task) :
    taskEntries captures (tasks.map (Task.abort c)) = taskEntries captures tasks := by
  rw [taskEntries, List.zipWith_map_right]
  congr 2
  funext capture t
  rw [captureEntries, Sender.pending_abort]
  rfl

theorem taskEntries_of_take {captures captures' : List Capture} {tasks tasks' : List Task}
    {capture : Capture} {t : Task} {i : Nat} (hc : Pool.take captures i = some (capture, captures'))
    (ht : Pool.take tasks i = some (t, tasks')) : (taskEntries captures tasks).Perm
      (captureEntries capture t.phase ++ taskEntries captures' tasks') :=
  (Pool.zipWith_of_take hc ht).flatten

/-- A callback ends with its object, queues it for another attempt or leaves the objects alone. -/
theorem callback_passes {x : Shared} {s s' : Sender} {k : Callback} {k' : Option Callback}
    (h : Sender.Called o s k k' s') (hretry : x.retry.length = s.retry.length) (object : Nat)
    (stage : Custody.Stage Bytes) (hstage : stage ≠ .waiting) (made : List FileChunk)
    (others : List (Custody.Entry FileChunk Bytes)) :
    (x.callback o object k).retry.length = s'.retry.length ∧
      Passes o ⟨made, x.heap, retryEntries x.retry s.retry ++
          (owned object stage k.pending ++ others), x.log⟩
        ⟨made, (x.callback o object k).heap,
          retryEntries (x.callback o object k).retry s'.retry ++
            (owned object stage (k'.bind Callback.pending) ++ others),
          (x.callback o object k).log⟩ := by
  cases h with
  | sent => exact ⟨hretry, .ends List.perm_middle (.inl rfl) (.refl _) rfl rfl rfl⟩
  | dropped hlimit =>
    rw [callback, if_pos hlimit]
    exact ⟨hretry, .ends List.perm_middle (.inr rfl) (.refl _) rfl rfl rfl⟩
  | @retries p hlt =>
    have hperm : (retryEntries (x.retry ++ [object])
        (s.retry ++ [PendingChunk.mk p.chunk (p.attempt + 1)]) ++ ([] ++ others)).Perm
          (entry object .waiting ⟨p.chunk, p.attempt + 1⟩ ::
            (retryEntries x.retry s.retry ++ others)) := by
      rw [retryEntries_append hretry, List.append_assoc]
      exact List.perm_middle
    have hchange : Custody.Change o.maxAttempts serialize x.heap (entry object stage p)
        (.again object) (entry object .waiting ⟨p.chunk, p.attempt + 1⟩) := .again hstage hlt
    rw [callback, if_neg (Nat.not_le.mpr hlt)]
    constructor
    · simp [hretry]
    · exact .changes List.perm_middle hchange hperm rfl rfl rfl
  | releases => exact ⟨hretry, .releases (.refl _) rfl rfl rfl⟩
  | wakesRetry | passesRetry | wakesFinishing | passesFinishing =>
    exact ⟨hretry, .keeps (.refl _) rfl rfl rfl⟩
  | wakesWorker | wakesStopper | passesSlot =>
    refine ⟨hretry, .keeps ?_ rfl rfl rfl⟩
    split <;> exact .refl _

/-- A callback leaves what the worker holds. -/
theorem callback_held (x : Shared) (object : Nat) (k : Callback) :
    (x.callback o object k).held = x.held ∧ (x.callback o object k).captures = x.captures ∧
      (x.callback o object k).heap.length = x.heap.length := by
  cases k with
  | success p => exact ⟨rfl, rfl, List.length_modify ..⟩
  | failure p =>
    unfold callback
    dsimp only
    split
    · exact ⟨rfl, rfl, List.length_modify ..⟩
    · exact ⟨rfl, rfl, rfl⟩
  | _ => exact ⟨rfl, rfl, rfl⟩

/-- A callback ends a wait of the worker and leaves it the chunk it waits with. -/
theorem workerEntries_called {s s' : Sender} {k : Callback} {k' : Option Callback}
    (h : Sender.Called o s k k' s') (object : Nat) :
    workerEntries object s'.worker = workerEntries object s.worker :=
  h.of_worker (workerEntries object) rfl fun _ => rfl

/-- What one step does with the objects and the lists beside them. -/
structure Refines (o : SenderOptions) (x x' : Shared) : Prop where
  parallel : x'.Parallel
  passes : Passes o x.custody x'.custody

/-- A step that moves no object. -/
theorem refines_of_eq {x x' : Shared} (hp : x'.Parallel)
    (hmade : x'.custody.made = x.custody.made) (hheap : x'.heap = x.heap)
    (he : x'.custody.entries = x.custody.entries) (hlog : x'.log = x.log) : Refines o x x' :=
  ⟨hp, .keeps (he ▸ (List.Perm.refl _).subperm) hmade hheap hlog⟩

/-- The entry of a worker that has a chunk, in front of all others. -/
theorem entries_of_worker {x : Shared} {e : Custody.Entry FileChunk Bytes}
    (h : workerEntries x.held x.sender.worker = [e]) : x.custody.entries.Perm (e ::
      (retryEntries x.retry x.sender.retry ++ taskEntries x.captures x.sender.net.tasks)) := by
  simp only [custody, h, List.append_assoc]
  exact List.perm_middle

/-- A chunk taken from the queue gets an object of its own. -/
theorem popped_refines {x : Shared} {chunk : FileChunk} {queue : List FileChunk}
    (hw : x.sender.worker = .popping) (hq : x.sender.queue = chunk :: queue) (hp : x.Parallel) :
    Refines o x { x.work o with
      sender := { x.sender with queue, worker := .acquiring ⟨chunk, 1⟩ } } := by
  obtain ⟨hretry, hcaptures, hpopped, hmade⟩ := hp
  rw [hq] at hpopped
  have hlt : x.heap.length < x.sender.accepted.length := by
    apply Nat.lt_of_not_le
    intro hle
    rw [List.drop_eq_nil_of_le hle] at hpopped
    cases hpopped
  rw [List.drop_eq_getElem_cons hlt] at hpopped
  obtain ⟨hchunk, hqueue⟩ := List.cons.inj hpopped
  simp only [work, hw, hq]
  constructor
  · refine ⟨hretry, hcaptures, ?_, ?_⟩
    · rw [List.length_append]
      exact hqueue
    · rw [List.length_append]
      exact hlt
  · refine .makes (a := chunk) ?_ ?_ rfl rfl
    · simp only [custody, hw, List.append_assoc]
      exact List.perm_middle
    · simp only [custody, List.length_append, List.length_singleton]
      rw [List.take_succ_eq_append_getElem hlt, hchunk]

theorem control_refines {x : Shared} {s' : Sender} (h : Sender.Control o x.sender s')
    (hp : x.Parallel) : Refines o x { x.work o with sender := s' } := by
  obtain ⟨hretry, hcaptures, hpopped, hmade⟩ := hp
  cases h with
  | @retries p retry hw hr =>
    cases hobjects : x.retry with
    | nil =>
      rw [hobjects, hr] at hretry
      cases hretry
    | cons object objects =>
      rw [hobjects, hr] at hretry
      simp only [work, hw, hobjects]
      refine ⟨⟨Nat.succ.inj hretry, hcaptures, hpopped, hmade⟩, .keeps ?_ rfl rfl rfl⟩
      simp only [custody, hobjects, hr, hw, List.append_assoc]
      exact List.perm_middle.subperm
  | popped hw hq => exact popped_refines hw hq ⟨hretry, hcaptures, hpopped, hmade⟩
  | discards hw hstop =>
    have hx : x.work o = x := by simp [work, hw, hstop]
    rw [hx]
    refine ⟨⟨hretry, hcaptures, hpopped, hmade⟩, .keeps ?_ rfl rfl rfl⟩
    simp only [custody, hw, List.append_assoc]
    apply (List.subperm_append_left _).mpr
    exact List.Subperm.cons_self
  | @acquires p hw hstop hlt =>
    have hbefore := entries_of_worker (x := x) (e := entry x.held .waiting p) (by rw [hw]; rfl)
    have hchange : Custody.Change o.maxAttempts serialize x.heap (entry x.held .waiting p)
        (.begins x.held) (entry x.held .begun p) := .begins
    have hx : x.work o = { x with log := x.log ++ [.begins x.held] } := by
      simp [work, hw, hstop, hlt]
    rw [hx]
    refine ⟨⟨hretry, hcaptures, hpopped, hmade⟩, .changes hbefore hchange ?_ rfl rfl rfl⟩
    simp only [custody, List.append_assoc]
    exact List.perm_middle
  | awaits hw hstop hle =>
    have hx : x.work o = x := by simp [work, hw, Nat.not_lt.mpr hle]
    rw [hx]
    refine refines_of_eq ⟨hretry, hcaptures, hpopped, hmade⟩ rfl rfl ?_ rfl
    simp only [custody, hw]
    rfl
  | noRetry hw hr =>
    have hobjects : x.retry = [] := by
      rw [hr] at hretry
      exact List.eq_nil_of_length_eq_zero hretry
    have hx : x.work o = x := by simp [work, hw, hobjects]
    rw [hx]
    refine refines_of_eq ⟨hretry, hcaptures, hpopped, hmade⟩ rfl rfl ?_ rfl
    simp only [custody, hw]
    rfl
  | drained hw hq hclosed =>
    have hx : x.work o = x := by simp [work, hw, hq]
    rw [hx]
    refine refines_of_eq ⟨hretry, hcaptures, hpopped, hmade⟩ rfl rfl ?_ rfl
    simp only [custody, hw]
    rfl
  | chooses hw | wakesSlot hw | stopped hw | goesOn hw | resumed hw | decided hw | waits hw
  | leaves hw | returns hw | unlocks hw | finishes hw | repeats hw | wakes hw =>
    simp only [work, hw]
    refine refines_of_eq ⟨hretry, hcaptures, hpopped, hmade⟩ rfl rfl ?_ rfl
    simp only [custody, hw]
    rfl

theorem dial_refines {x : Shared} {s' : Sender} (h : Sender.Dial x.sender s')
    (hp : x.Parallel) : Refines o x { x.work o with sender := s' } := by
  obtain ⟨hretry, hcaptures, hpopped, hmade⟩ := hp
  cases h with
  | @dispatches p c hw =>
    simp only [work, hw]
    constructor
    · exact ⟨hretry, by simp [hcaptures], hpopped, hmade⟩
    · have hchange : Custody.Change o.maxAttempts serialize x.heap (entry x.held .begun p)
          (.loads x.held (x.load x.held)) (entry x.held (.loaded (x.load x.held)) p) := by
        apply Custody.Change.loads
        intro chunk hchunk
        rw [load, hchunk]
        rfl
      have hbefore := entries_of_worker (x := x) (e := entry x.held .begun p) (by rw [hw]; rfl)
      refine .changes hbefore hchange ?_ rfl rfl rfl
      simp only [custody, Net.put_tasks, taskEntries_cons, List.append_assoc]
      exact List.perm_middle
  | isOpen hw | emplaces hw | unresolved hw | connects hw | crashes hw =>
    simp only [work, hw]
    refine refines_of_eq ⟨hretry, hcaptures, hpopped, hmade⟩ rfl rfl ?_ rfl
    simp only [custody, hw]
    rfl
  | reattempts hw | givesUp hw =>
    simp only [work, hw]
    refine refines_of_eq ⟨hretry, ?_, hpopped, hmade⟩ rfl rfl ?_ rfl
    · simpa using hcaptures
    · simp only [custody, hw, Net.emplace_tasks, Net.close_tasks, taskEntries_abort]
      rfl

/-- The worker reports a failure to connect. -/
theorem report_refines {x : Shared} {s' : Sender} {k : Callback} {k' : Option Callback}
    {worker : Worker} (hw : x.sender.worker = .reporting k)
    (h : Sender.Called o x.sender k k' s')
    (hw' : ∀ object, workerEntries object worker = owned object .begun (k'.bind Callback.pending))
    (hp : x.Parallel) : Refines o x { x.work o with sender := { s' with worker } } := by
  obtain ⟨hretry, hcaptures, hpopped, hmade⟩ := hp
  obtain ⟨hq, -, -, -, hnet, hacc⟩ := h.frame
  obtain ⟨hheld, hcap, hheap⟩ := callback_held (o := o) x x.held k
  obtain ⟨hretry', hpasses⟩ := callback_passes h hretry x.held .begun nofun
    (x.sender.accepted.take x.heap.length) (taskEntries x.captures x.sender.net.tasks)
  have hx : x.work o = x.callback o x.held k := by simp only [work, hw]
  rw [hx]
  constructor
  · refine ⟨hretry', ?_, ?_, ?_⟩
    · rw [hcap, hnet]
      exact hcaptures
    · rw [hheap, hacc, hq]
      exact hpopped
    · rw [hheap, hacc]
      exact hmade
  · simp only [custody, hw, hheld, hcap, hheap, hnet, hacc, hw', List.append_assoc]
    exact hpasses

theorem work_refines {x : Shared} {s' : Sender} (h : Sender.Worked o x.sender s')
    (hp : x.Parallel) : Refines o x { x.work o with sender := s' } := by
  cases h with
  | control h => exact control_refines h hp
  | dial h => exact dial_refines h hp
  | reports hw h => exact report_refines hw h (fun _ => rfl) hp
  | reported hw h => exact report_refines hw h (fun _ => rfl) hp

/-- The entries with those of one task in front of the others. -/
theorem entries_of_take {x : Shared} {t : Task} {tasks : List Task} {capture : Capture}
    {captures : List Capture} {i : Nat} (ht : Pool.take x.sender.net.tasks i = some (t, tasks))
    (hc : Pool.take x.captures i = some (capture, captures)) :
    x.custody.entries.Perm (retryEntries x.retry x.sender.retry ++
      (captureEntries capture t.phase ++
        (workerEntries x.held x.sender.worker ++ taskEntries captures tasks))) := by
  refine ((taskEntries_of_take hc ht).append_left _).trans ?_
  rw [List.append_assoc]
  refine List.Perm.append_left _ ?_
  rw [← List.append_assoc, ← List.append_assoc]
  exact List.perm_append_comm.append_right _

/-- A task goes on with its object where no callback is called. -/
theorem goesOn_refines {x : Shared} {t : Task} {tasks tasks' : List Task} {capture : Capture}
    {captures : List Capture} {i c : Nat} {phase : Phase} {n : Net}
    (ht : Pool.take x.sender.net.tasks i = some (t, tasks))
    (hc : Pool.take x.captures i = some (capture, captures)) (hp : x.Parallel)
    (hlength : captures.length = tasks.length) (hn : n.tasks = ⟨c, phase⟩ :: tasks')
    (htasks : tasks' = tasks ∨ tasks' = tasks.map (Task.abort c))
    (hphase : phase.pending = t.phase.pending) :
    Refines o x { x with captures := capture :: captures, sender := { x.sender with net := n } } := by
  obtain ⟨hretry, -, hpopped, hmade⟩ := hp
  have hsame : taskEntries captures tasks' = taskEntries captures tasks ∧
      tasks'.length = tasks.length := by
    obtain rfl | rfl := htasks
    · exact ⟨rfl, rfl⟩
    · exact ⟨taskEntries_abort c captures tasks, List.length_map _⟩
  constructor
  · refine ⟨hretry, ?_, hpopped, hmade⟩
    simp [hn, hlength, hsame.2]
  · refine .keeps (List.Perm.subperm ?_) rfl rfl rfl
    refine .trans ?_ (entries_of_take ht hc).symm
    simp only [custody, hn, taskEntries_cons, hsame.1, captureEntries, hphase, List.append_assoc]
    refine List.Perm.append_left _ ?_
    rw [← List.append_assoc, ← List.append_assoc]
    exact List.perm_append_comm.append_right _

theorem last_of_called {s s' : Sender} {k : Callback} {k' : Option Callback}
    (h : Sender.Called o s k k' s') : k.last = k'.isNone := by
  cases h with
  | @wakesWorker r | @wakesStopper r | @passesSlot r => cases r <;> rfl
  | _ => rfl

/-- A task goes on in a callback, or its last callback returns. -/
theorem calls_refines {x : Shared} {s' : Sender} {k : Callback} {k' : Option Callback} {c i : Nat}
    {tasks tasks' : List Task} {capture : Capture} {captures captures' : List Capture}
    (ht : Pool.take x.sender.net.tasks i = some (⟨c, .handling k⟩, tasks))
    (hc : Pool.take x.captures i = some (capture, captures)) (hp : x.Parallel)
    (hlength : captures.length = tasks.length)
    (h : Sender.Called o { x.sender with net := { x.sender.net with tasks } } k k' s')
    (htasks : tasks' = (k'.map fun k' => ⟨c, .handling k'⟩).toList ++ tasks)
    (hcaptures : captures' = if k.last then captures else capture :: captures) :
    Refines o x { x.callback o capture.object k with
      captures := captures'
      sender := { s' with net := { s'.net with tasks := tasks' } } } := by
  obtain ⟨hretry, -, hpopped, hmade⟩ := hp
  obtain ⟨hq, -, -, -, -, hacc⟩ := h.frame
  obtain ⟨hheld, -, hheap⟩ := callback_held (o := o) x capture.object k
  obtain ⟨hretry', hpasses⟩ := callback_passes h hretry capture.object
    (.loaded capture.payload) nofun (x.sender.accepted.take x.heap.length)
    (workerEntries x.held x.sender.worker ++ taskEntries captures tasks)
  rw [last_of_called h] at hcaptures
  have hentries : taskEntries captures' tasks' =
      owned capture.object (.loaded capture.payload) (k'.bind Callback.pending) ++
        taskEntries captures tasks := by
    cases k' with
    | none =>
      rw [htasks, hcaptures]
      rfl
    | some k' =>
      rw [htasks, hcaptures]
      rfl
  constructor
  · refine ⟨hretry', ?_, ?_, ?_⟩
    · rw [htasks, hcaptures]
      cases k' <;> simp [hlength]
    · rw [hheap, hacc, hq]
      exact hpopped
    · rw [hheap, hacc]
      exact hmade
  · simp only [custody, hheld, hheap, hacc]
    apply hpasses.perm (entries_of_take ht hc)
    rw [workerEntries_called h, hentries, List.append_assoc]
    apply List.Perm.append_left
    rw [← List.append_assoc, ← List.append_assoc]
    exact List.perm_append_comm.append_right _

theorem task_refines {x : Shared} {s' : Sender} {i : Nat} {t : Task} {others : List Task}
    (ht : Pool.take x.sender.net.tasks i = some (t, others))
    (h : Sender.Handled o x.sender t.conn { x.sender.net with tasks := others } t.phase s')
    (hp : x.Parallel) : Refines o x { x.task o i with sender := s' } := by
  obtain ⟨capture, captures, hc, hlength⟩ := Pool.exists_take_of_length ht hp.captures
  have hx : x.task o i = x.handle o capture captures t := by simp only [task, ht, hc]
  rw [hx]
  obtain ⟨c, phase⟩ := t
  dsimp only at h
  cases h with
  | refuses hloop hfree hclosed =>
    have hsocket : (x.sender.net.conns c).socket = none := hclosed
    simp only [handle, hsocket]
    exact goesOn_refines ht hc hp hlength rfl (.inl rfl) rfl
  | @begins _ _ p socket hloop hfree hopen =>
    have hsocket : (x.sender.net.conns c).socket = some socket := hopen
    have hbefore : x.custody.entries.Perm
        (entry capture.object (.loaded capture.payload) p :: (retryEntries x.retry x.sender.retry ++
          (workerEntries x.held x.sender.worker ++ taskEntries captures others))) :=
      (entries_of_take ht hc).trans List.perm_middle
    simp only [handle, hsocket]
    constructor
    · exact ⟨hp.retry, by simp [hlength], hp.popped, hp.made⟩
    · refine .changes hbefore .writes ?_ rfl rfl rfl
      simp only [custody, Net.put_tasks, ← List.append_assoc]
      exact List.perm_middle
  | succeeds =>
    simp only [handle]
    exact goesOn_refines ht hc hp hlength rfl (.inl rfl) rfl
  | closes =>
    simp only [handle]
    exact goesOn_refines ht hc hp hlength rfl (.inr rfl) rfl
  | calls hk =>
    obtain ⟨-, -, -, -, hnet, -⟩ := hk.frame
    refine calls_refines ht hc hp hlength hk ?_ rfl
    rw [hnet]
    rfl
  | ends hk =>
    obtain ⟨-, -, -, -, hnet, -⟩ := hk.frame
    exact calls_refines ht hc hp hlength hk (congrArg Net.tasks hnet) rfl
  | writes | completes | fails =>
    simp only [handle]
    exact goesOn_refines ht hc hp hlength rfl (.inl rfl) rfl

/-- A step that is neither the worker's nor a task's. -/
structure Quiet (s s' : Sender) : Prop where
  retry : s'.retry = s.retry
  inflight : s'.inflight = s.inflight
  worker : ∀ object, workerEntries object s'.worker = workerEntries object s.worker
  tasks : s'.net.tasks = s.net.tasks ∨ ∃ c, s'.net.tasks = s.net.tasks.map (Task.abort c)
  queue : ∃ chunks, s'.accepted = s.accepted ++ chunks ∧ s'.queue = s.queue ++ chunks

theorem Quiet.of_frame {s s' : Sender} (hretry : s'.retry = s.retry)
    (hinflight : s'.inflight = s.inflight) (hworker : s'.worker = s.worker)
    (htasks : s'.net.tasks = s.net.tasks ∨ ∃ c, s'.net.tasks = s.net.tasks.map (Task.abort c))
    (hqueue : s'.queue = s.queue) (haccepted : s'.accepted = s.accepted) : Quiet s s' :=
  ⟨hretry, hinflight, fun _ => by rw [hworker], htasks, [], by simp [haccepted], by simp [hqueue]⟩

theorem quiet_of_advanceStop {s s' : Sender} (h : s.advanceStop o = some s') : Quiet s s' := by
  unfold Sender.advanceStop at h
  split at h
  · cases h
    exact .of_frame rfl rfl rfl (.inl rfl) rfl rfl
  · split at h
    · cases h
      exact .of_frame rfl rfl rfl (.inl rfl) rfl rfl
    · cases h
  · cases h
    exact .of_frame rfl rfl rfl (.inl rfl) rfl rfl
  · split at h
    · cases h
      exact .of_frame rfl rfl rfl (.inr ⟨_, rfl⟩) rfl rfl
    · cases h
      exact .of_frame rfl rfl rfl (.inl rfl) rfl rfl
  · split at h
    · cases h
    · cases h
      exact .of_frame rfl rfl rfl (.inl rfl) rfl rfl
  all_goals cases h

/-- The producer, `stop` and the runners move no object. -/
theorem quiet_of_step {s s' : Sender} {a : SenderAction} (ha : a.task = none)
    (hwork : ∀ ok, a ≠ .work ok) (h : s.step o a = some s') : Quiet s s' := by
  cases a with
  | work ok => exact absurd rfl (hwork ok)
  | handle | write | fail => cases ha
  | push chunk =>
    simp only [Sender.step] at h
    split at h
    · cases h
      exact .of_frame rfl rfl rfl (.inl rfl) rfl rfl
    · split at h
      · cases h
        exact ⟨rfl, rfl, fun _ => rfl, .inl rfl, [chunk], rfl, rfl⟩
      · cases h
  | close =>
    cases h
    exact .of_frame rfl rfl rfl (.inl rfl) rfl rfl
  | exitRunner c =>
    simp only [Sender.step] at h
    split at h
    · obtain ⟨net, hnet, rfl⟩ := Option.map_eq_some_iff.mp h
      unfold Net.exitRunner at hnet
      split at hnet
      · cases hnet
        exact .of_frame rfl rfl rfl (.inl rfl) rfl rfl
      · cases hnet
    · cases h
  | callStop =>
    simp only [Sender.step] at h
    split at h
    · cases h
      exact .of_frame rfl rfl rfl (.inl rfl) rfl rfl
    · cases h
  | stop => exact quiet_of_advanceStop h
  | wakeWorker =>
    simp only [Sender.step] at h
    split at h
    · next hw =>
      cases h
      exact ⟨rfl, rfl, fun _ => by rw [hw]; rfl, .inl rfl, [], by simp, by simp⟩
    · next hw =>
      cases h
      exact ⟨rfl, rfl, fun _ => by rw [hw]; rfl, .inl rfl, [], by simp, by simp⟩
    · cases h
  | wakeStopper =>
    simp only [Sender.step] at h
    split at h
    · cases h
      exact .of_frame rfl rfl rfl (.inl rfl) rfl rfl
    · cases h

theorem Quiet.refines {x : Shared} {s' : Sender} (h : Quiet x.sender s') (hp : x.Parallel) :
    Refines o x { x with sender := s' } := by
  obtain ⟨hretry, hcaptures, hpopped, hmade⟩ := hp
  obtain ⟨chunks, haccepted, hqueue⟩ := h.queue
  have htasks : s'.net.tasks.length = x.sender.net.tasks.length ∧
      taskEntries x.captures s'.net.tasks = taskEntries x.captures x.sender.net.tasks := by
    obtain htasks | ⟨c, htasks⟩ := h.tasks
    · rw [htasks]
      exact ⟨rfl, rfl⟩
    · rw [htasks]
      exact ⟨List.length_map _, taskEntries_abort c _ _⟩
  apply refines_of_eq
  · refine ⟨by rw [h.retry, hretry], by rw [htasks.1, hcaptures], ?_, ?_⟩
    · rw [haccepted, List.drop_append_of_le_length hmade, hpopped, hqueue]
    · rw [haccepted, List.length_append]
      exact Nat.le_add_right_of_le hmade
  · simp only [custody]
    rw [haccepted, List.take_append_of_le_length hmade]
  · rfl
  · simp only [custody, h.retry, h.worker, htasks.2]
  · rfl

/-- Every step of the sender is a step of the owners of its objects. -/
theorem step_refines {x x' : Shared} {a : SenderAction} (h : step o x a = some x')
    (hp : x.Parallel) : Refines o x x' := by
  obtain ⟨s', hs, rfl⟩ := Option.map_eq_some_iff.mp h
  cases a with
  | work ok => exact work_refines (Sender.worked_of_work hs) hp
  | handle i | write i n | fail i =>
    obtain ⟨t, others, ht, hhandled⟩ := Sender.handled_of_step rfl hs
    exact task_refines ht hhandled hp
  | push | close | exitRunner | callStop | stop | wakeWorker | wakeStopper =>
    have hquiet := quiet_of_step rfl (fun _ h => by cases h) hs
    exact hquiet.refines hp

end Shared

end SuperVoice.Client
