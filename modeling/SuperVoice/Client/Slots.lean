import SuperVoice.Client.Objects
import SuperVoice.Client.Retries

/-! What every run of the sender keeps of its slots and of the objects of its chunks. -/
namespace SuperVoice.Client
open Bytes Transition
variable {o : SenderOptions}

namespace Shared

/-- The slots acquired are those in use and those released. -/
def Balanced (inflight : Nat) (log : List (Custody.Event Bytes)) : Prop :=
  inflight + log.countP Custody.Event.isRelease = log.countP Custody.Event.isBegin

theorem Balanced.append {inflight : Nat} {log : List (Custody.Event Bytes)}
    {ev : Custody.Event Bytes} (h : Balanced inflight log) (hbegin : ev.isBegin = false)
    (hrelease : ev.isRelease = false) : Balanced inflight (log ++ [ev]) := by
  unfold Balanced at h ⊢
  simpa [List.countP_append, hbegin, hrelease] using h

theorem callback_balanced {x : Shared} {s s' : Sender} {k : Callback} {k' : Option Callback}
    (h : Sender.Called o s k k' s') (object : Nat) (hslot : k = .releasing → 0 < s.inflight)
    (hi : Balanced s.inflight x.log) : Balanced s'.inflight (x.callback o object k).log := by
  cases h with
  | sent => exact hi.append rfl rfl
  | dropped hlimit =>
    rw [callback, if_pos hlimit]
    exact hi.append rfl rfl
  | retries hlt =>
    rw [callback, if_neg (Nat.not_le.mpr hlt)]
    exact hi.append rfl rfl
  | releases =>
    have hpos := hslot rfl
    unfold Balanced at hi ⊢
    simp [callback, List.countP_append, Custody.Event.isRelease, Custody.Event.isBegin,
      Custody.Event.begun] at hi ⊢
    omega
  | wakesRetry | passesRetry | wakesFinishing | passesFinishing | wakesWorker | wakesStopper
  | passesSlot => exact hi

theorem work_balanced {x : Shared} {s' : Sender} (h : Sender.Worked o x.sender s')
    (hslotted : x.sender.Slotted) (hi : Balanced x.sender.inflight x.log) :
    Balanced s'.inflight (x.work o).log := by
  have hreports : ∀ {k k' s₁}, x.sender.worker = .reporting k → Sender.Called o x.sender k k' s₁ →
      Balanced s₁.inflight (x.work o).log := by
    intro k k' s₁ hw h
    have hx : x.work o = x.callback o x.held k := by simp only [work, hw]
    rw [hx]
    apply callback_balanced h x.held _ hi
    rintro rfl
    rw [hslotted, hw]
    exact Nat.add_pos_left Nat.one_pos _
  cases h with
  | reports hw h | reported hw h =>
    have hbalanced := hreports hw h
    exact hbalanced
  | dial h =>
    cases h with
    | dispatches hw =>
      simp only [work, hw]
      exact hi.append rfl rfl
    | isOpen hw | emplaces hw | unresolved hw | connects hw | crashes hw | reattempts hw
    | givesUp hw =>
      simp only [work, hw]
      exact hi
  | control h =>
    cases h with
    | acquires hw hstop hlt =>
      have hx : x.work o = { x with log := x.log ++ [.begins x.held] } := by
        simp [work, hw, hstop, hlt]
      rw [hx]
      unfold Balanced at hi ⊢
      simp [List.countP_append, Custody.Event.isRelease, Custody.Event.isBegin,
        Custody.Event.begun] at hi ⊢
      omega
    | discards hw hstop =>
      have hx : x.work o = x := by simp [work, hw, hstop]
      rw [hx]
      exact hi
    | awaits hw hstop hle =>
      have hx : x.work o = x := by simp [work, hw, Nat.not_lt.mpr hle]
      rw [hx]
      exact hi
    | retries hw | noRetry hw =>
      cases hobjects : x.retry <;> simpa only [work, hw, hobjects] using hi
    | popped hw hq | drained hw hq =>
      simpa only [work, hw, hq] using hi
    | chooses hw | wakesSlot hw | stopped hw | goesOn hw | resumed hw | decided hw | waits hw
    | leaves hw | returns hw | unlocks hw | finishes hw | repeats hw | wakes hw =>
      simpa only [work, hw] using hi

theorem task_balanced {x : Shared} {s' : Sender} {i : Nat} {t : Task} {others : List Task}
    (ht : Pool.take x.sender.net.tasks i = some (t, others))
    (h : Sender.Handled o x.sender t.conn { x.sender.net with tasks := others } t.phase s')
    (hp : x.Parallel) (hslotted : x.sender.Slotted) (hi : Balanced x.sender.inflight x.log) :
    Balanced s'.inflight (x.task o i).log := by
  obtain ⟨capture, captures, hc, -⟩ := Pool.exists_take_of_length ht hp.captures
  have hx : x.task o i = x.handle o capture captures t := by simp only [task, ht, hc]
  rw [hx]
  have hslot : t.phase.slots ≤ x.sender.inflight := by
    rw [hslotted]
    exact Nat.le_add_left_of_le (Pool.le_sum_of_mem (Pool.mem_of_take ht) Task.slots)
  obtain ⟨c, phase⟩ := t
  dsimp only at h hslot
  have hcalled : ∀ {k k' s₁}, phase = .handling k →
      Sender.Called o { x.sender with net := { x.sender.net with tasks := others } } k k' s₁ →
      Balanced s₁.inflight (x.handle o capture captures ⟨c, phase⟩).log := by
    rintro k k' s₁ rfl hk
    apply callback_balanced hk capture.object _ hi
    rintro rfl
    exact hslot
  cases h with
  | calls hk | ends hk =>
    have hbalanced := hcalled rfl hk
    exact hbalanced
  | begins hloop hfree hopen =>
    have hsocket : (x.sender.net.conns c).socket = some _ := hopen
    simp only [handle, hsocket]
    exact hi.append rfl rfl
  | refuses hloop hfree hclosed =>
    have hsocket : (x.sender.net.conns c).socket = none := hclosed
    simp only [handle, hsocket]
    exact hi
  | succeeds | closes | writes | completes | fails => exact hi

theorem step_balanced {x x' : Shared} {a : SenderAction} (h : step o x a = some x')
    (hp : x.Parallel) (hslotted : x.sender.Slotted) (hi : Balanced x.sender.inflight x.log) :
    Balanced x'.sender.inflight x'.log := by
  obtain ⟨s', hs, rfl⟩ := Option.map_eq_some_iff.mp h
  cases a with
  | work ok => exact work_balanced (Sender.worked_of_work hs) hslotted hi
  | handle i | write i n | fail i =>
    obtain ⟨t, others, ht, hhandled⟩ := Sender.handled_of_step rfl hs
    exact task_balanced ht hhandled hp hslotted hi
  | push | close | exitRunner | callStop | stop | wakeWorker | wakeStopper =>
    have hquiet := quiet_of_step rfl (fun _ h => by cases h) hs
    exact hquiet.inflight ▸ hi

/-- A thread is about to give its slot back. -/
def Releases (s : Sender) : Prop :=
  s.worker = .reporting .releasing ∨ ∃ t ∈ s.net.tasks, t.phase = .handling .releasing

theorem pos_of_releases {s : Sender} (hslotted : s.Slotted) (h : Releases s) : 0 < s.inflight := by
  rw [hslotted]
  obtain hw | ⟨t, ht, hphase⟩ := h
  · rw [hw]
    exact Nat.add_pos_left Nat.one_pos _
  · have hslot : t.slots = 1 := by
      rw [Task.slots, hphase]
      rfl
    have hle := Pool.le_sum_of_mem ht Task.slots
    rw [hslot] at hle
    exact Nat.add_pos_right _ hle

/-- What every state of a run keeps. -/
structure Kept (o : SenderOptions) (x : Shared) : Prop where
  parallel : x.Parallel
  sound : Custody.Sound o.maxAttempts serialize x.custody
  slotted : x.sender.Slotted
  bounded : x.sender.inflight ≤ o.slots
  balanced : Balanced x.sender.inflight x.log

theorem kept_of_reach {x : Shared} (h : Reachable (step o) start x) : Kept o x := by
  induction h with
  | start =>
    exact ⟨parallel_start, Custody.sound_start, Sender.slotted_start, Nat.zero_le _, rfl⟩
  | next a _ _ hs ih =>
    have hrefines := step_refines hs ih.parallel
    have hbalanced := step_balanced hs ih.parallel ih.slotted ih.balanced
    obtain ⟨s', hs', rfl⟩ := Option.map_eq_some_iff.mp hs
    have hmoves := Sender.moves_of_step hs'
    constructor
    · exact hrefines.parallel
    · exact hrefines.passes.sound (Nat.le_max_left 1 o.maxSendRetries) ih.sound
    · exact hmoves.slotted ih.slotted
    · exact hmoves.inflight_le ih.bounded
    · exact hbalanced

/-- The slots are counted rightly, and every chunk is tried, written and ended as it should be. A
number in the log is the place of the chunk among those accepted. -/
structure Orderly (o : SenderOptions) (x : Shared) : Prop where
  bounded : x.sender.inflight ≤ o.slots
  /-- What `release_slot` has been called for and what is in use make up what was acquired. -/
  balanced : x.sender.inflight + x.log.countP Custody.Event.isRelease =
    x.log.countP Custody.Event.isBegin
  /-- The guard of `release_slot` is true whenever it is evaluated. -/
  guarded : Releases x.sender → 0 < x.sender.inflight
  limited : ∀ object, Custody.tries object x.log ≤ o.maxAttempts
  written : ∀ object b, .writes object b ∈ x.log →
    ∃ chunk, x.sender.accepted[object]? = some chunk ∧ b = serialize chunk
  /-- The buffer that a task has captured holds what the task writes. -/
  captured : ∀ (i : Nat) (capture : Capture) (t : Task) (p : PendingChunk),
    x.captures[i]? = some capture → x.sender.net.tasks[i]? = some t →
      t.phase.pending = some p → capture.payload = serialize p.chunk
  /-- Behind its success or its drop a chunk is neither tried, nor written, nor ended again. -/
  closed : Custody.Closed x.log

theorem orderly_of_reach {x : Shared} (h : Reachable (step o) start x) : Orderly o x := by
  have hkept := kept_of_reach h
  constructor
  · exact hkept.bounded
  · exact hkept.balanced
  · exact pos_of_releases hkept.slotted
  · exact hkept.sound.limited
  · intro object b hmem
    obtain ⟨chunk, hchunk, hb⟩ := hkept.sound.written object b (.inr hmem)
    refine ⟨chunk, ?_, hb⟩
    have hlt : object < x.heap.length := by
      have hmade := (List.getElem?_eq_some_iff.mp hchunk).1
      rw [← hkept.sound.length] at hmade
      exact hmade
    simp only [custody, List.getElem?_take_of_lt hlt] at hchunk
    exact hchunk
  · intro i capture t p hc ht hp
    have hentries := entries_of_take (x := x) (congrArg (Option.map _) ht)
      (congrArg (Option.map _) hc)
    have hmem : entry capture.object (.loaded capture.payload) p ∈ x.custody.entries := by
      rw [hentries.mem_iff, captureEntries, hp]
      simp
    exact (hkept.sound.held _ hmem).buffer _ rfl
  · exact hkept.sound.closed

/-- The write of the one chunk fails and the chunk is queued for its second attempt. -/
theorem orderly_of_reach_sample : ∃ x : Shared, x.log.length = 4 ∧ x.retry = [0] ∧
    Orderly Sender.twoAttempts x := by
  have hrun : (run (step Sender.twoAttempts) start (Sender.posting ++ [.handle 0, .fail 0, .handle 0,
      .handle 0])).any (fun x => x.log.length = 4 && x.retry = [0]) = true := by
    decide +kernel
  obtain ⟨x, hx, hend⟩ := exists_reachable hrun
  simp only [Bool.and_eq_true, decide_eq_true_eq] at hend
  exact ⟨x, hend.1, hend.2, orderly_of_reach hx⟩

end Shared

end SuperVoice.Client
