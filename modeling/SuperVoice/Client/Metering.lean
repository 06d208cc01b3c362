import SuperVoice.Client.Draining
import SuperVoice.Client.Shutdown

/-! The metrics of the sender. Callbacks count in a window, which is printed and opened anew when a
callback finds that it has been open long enough, and whenever `stop` has drained the slots: the
destructor calls it again. -/
namespace SuperVoice.Client
open Transition
variable {o : SenderOptions}

/-- Times are in nanoseconds. -/
structure MetricsWindow where
  start : Int
  chunks : Nat := 0
  bytes : Nat := 0
  retries : Nat := 0
  deriving DecidableEq

/-- What a callback counts before it gives its slot back. -/
def MetricsWindow.count (w : MetricsWindow) : Report → MetricsWindow
  | .sent p =>
    { w with
      chunks := w.chunks + 1
      bytes := w.bytes + p.chunk.payload.length
      retries := w.retries + (p.attempt - 1) }
  | .dropped p => { w with retries := w.retries + (p.attempt - 1) }

/-- A line that is printed, with what its rates are computed from. -/
structure MetricsReport where
  window : MetricsWindow
  now : Int
  queueSize : Nat
  /-- The report of `stop`. -/
  final : Bool
  deriving DecidableEq

def metricsInterval : Int := 5000000000

/-- A step of the sender, or `stop` once more after it has returned. `later` is the second reading
of the clock in `stop`. -/
inductive MeterAction where
  | act (a : SenderAction) (now later : Int)
  | stopAgain (now later : Int)

structure MeteredSender where
  sender : Sender
  window : MetricsWindow
  printed : List MetricsReport

namespace MeteredSender

def start (now : Int) : MeteredSender := ⟨.start, { start := now }, []⟩

/-- `maybe_report_metrics_locked` -/
def maybeReport (m : MeteredSender) (now : Int) (force : Bool) : MeteredSender :=
  if force = false ∧ now - m.window.start < metricsInterval then m
  else { m with
    window := { start := now }
    printed := m.printed ++ [⟨m.window, now, m.sender.queue.length, force⟩] }

/-- `reset_metrics_window_locked` -/
def resetWindow (m : MeteredSender) (now : Int) : MeteredSender :=
  { m with window := { start := now } }

/-- The lock section of `stop`. -/
def reportFinal (m : MeteredSender) (now later : Int) : MeteredSender :=
  (m.maybeReport now true).resetWindow later

/-- Between the end of `wait_for_inflight_zero` and the report of `stop` no callback is left that
could count. A further `stop` finds nothing to wait for. -/
def step (o : SenderOptions) (m : MeteredSender) : MeterAction → Option MeteredSender
  | .act a now later =>
    (m.sender.step o a).map fun sender =>
      match sender.reports.drop m.sender.reports.length with
      | r :: _ => { m with sender, window := m.window.count r }.maybeReport now false
      | [] =>
        if m.sender.stopper.hasDrained = false ∧ sender.stopper.hasDrained = true then
          { m with sender }.reportFinal now later
        else { m with sender }
  | .stopAgain now later =>
    if m.sender.stopper = .returned then some (m.reportFinal now later) else none

end MeteredSender

/-- What the counters have of a report. -/
def Report.chunks : Report → Nat
  | .sent _ => 1
  | .dropped _ => 0

def Report.bytes : Report → Nat
  | .sent p => p.chunk.payload.length
  | .dropped _ => 0

/-- What they do not have, because the chunk was dropped. -/
def Report.drops : Report → Nat
  | .sent _ => 0
  | .dropped _ => 1

def Report.lost : Report → Nat
  | .sent _ => 0
  | .dropped p => p.chunk.payload.length

def Report.retries : Report → Nat
  | .sent p | .dropped p => p.attempt - 1

namespace Sender
variable {s s' : Sender}

/-- A callback that reports still holds its slot. -/
theorem Called.reports {k : Callback} {k' : Option Callback} (h : Called o s k k' s') :
    s'.reports = s.reports ∨
      ∃ r, s'.reports = s.reports ++ [r] ∧ s'.stopper = s.stopper ∧ k.slots = 1 := by
  cases h with
  | sent => exact .inr ⟨_, rfl, rfl, rfl⟩
  | dropped => exact .inr ⟨_, rfl, rfl, rfl⟩
  | _ => exact .inl rfl

/-- A step makes at most one report, and none when no slot is taken. -/
theorem Moves.reports_cases {a : SenderAction} (h : Moves o s a s') (hslotted : s.Slotted) :
    s'.reports = s.reports ∨
      ∃ r, s'.reports = s.reports ++ [r] ∧ s'.stopper = s.stopper ∧ s.inflight ≠ 0 := by
  cases h with
  | control h => cases h <;> exact .inl rfl
  | dial h => cases h <;> exact .inl rfl
  | stopper h => cases h <;> exact .inl rfl
  | reports hw h | reported hw h =>
    obtain hsame | ⟨r, hnew, hst, hslots⟩ := Called.reports h
    · exact .inl hsame
    · refine .inr ⟨r, hnew, hst, ?_⟩
      unfold Slotted at hslotted
      rw [hw, Worker.slots] at hslotted
      omega
  | @handled _ _ _ t _ _ ht h =>
    have htask : s.inflight = 0 → t.phase.slots = 0 := by
      intro hz
      have hsum := Pool.sum_of_take ht Task.slots
      unfold Slotted at hslotted
      rw [taskSlots, hsum, Task.slots] at hslotted
      omega
    generalize t.phase = phase at h htask
    cases h with
    | calls hk | ends hk =>
      obtain hsame | ⟨r, hnew, hst, hslots⟩ := Called.reports hk
      · exact .inl hsame
      · refine .inr ⟨r, hnew, hst, fun hz => ?_⟩
        have hzero := htask hz
        rw [Phase.slots] at hzero
        omega
    | _ => exact .inl rfl
  | rejects | accepts | closes | exits | requests => exact .inl rfl

/-- Behind the drain nothing takes a slot any more. -/
structure Drained (s : Sender) : Prop where
  slotted : s.Slotted
  joined : s.stopper.hasJoined = true → s.worker = .exited
  drained : s.stopper.hasDrained = true → s.inflight = 0

theorem Called.joined {k : Callback} {k' : Option Callback} (h : Called o s k k' s') :
    (s'.stopper.hasJoined = true → s.stopper.hasJoined = true) ∧
      (s'.stopper.hasDrained = true → s.stopper.hasDrained = true) := by
  cases h with
  | wakesStopper _ hst =>
    rw [hst]
    exact ⟨fun _ => rfl, fun h => by cases h⟩
  | _ => exact ⟨id, id⟩

theorem Handled.joined {c : Nat} {n : Net} {phase : Phase} (h : Handled o s c n phase s') :
    (s'.stopper.hasJoined = true → s.stopper.hasJoined = true) ∧
      (s'.stopper.hasDrained = true → s.stopper.hasDrained = true) ∧ s'.inflight ≤ s.inflight := by
  cases h with
  | calls hk | ends hk => exact ⟨hk.joined.1, hk.joined.2, hk.inflight_le⟩
  | _ => exact ⟨id, id, Nat.le_refl _⟩

theorem Moves.joined {a : SenderAction} (h : Moves o s a s') :
    s'.stopper.hasJoined = true → s.stopper.hasJoined = true ∨ s'.worker = .exited := by
  intro hj
  cases h with
  | control h => cases h <;> exact .inl hj
  | dial h => cases h <;> exact .inl hj
  | reports _ h | reported _ h => exact .inl (h.joined.1 hj)
  | handled _ _ h => exact .inl (h.joined.1 hj)
  | stopper h =>
    cases h with
    | joins _ hw => exact .inr hw
    | calls => cases hj
    | drains hst | waits hst | wakes hst | stops hst | returns hst | joined hst =>
      rw [hst]
      exact .inl rfl
  | requests => cases hj
  | rejects | accepts | closes | exits => exact .inl hj

theorem Moves.drained {a : SenderAction} (h : Moves o s a s') (hi : s.Drained)
    (hd : s'.stopper.hasDrained = true) : s'.inflight = 0 := by
  have hkept : s.stopper.hasDrained = true → s.inflight = 0 ∧ s.worker = .exited := fun hd =>
    ⟨hi.drained hd, hi.joined (Stopper.hasJoined_of_hasDrained hd)⟩
  cases h with
  | control h =>
    cases h with
    | acquires hw =>
      obtain ⟨-, hexited⟩ := hkept hd
      cases hw.symm.trans hexited
    | _ => exact hi.drained hd
  | dial h => cases h <;> exact hi.drained hd
  | reports _ h | reported _ h =>
    exact Nat.le_zero.mp (h.inflight_le.trans (hi.drained (h.joined.2 hd)).le)
  | handled _ _ h =>
    obtain ⟨-, hdrained, hle⟩ := h.joined
    exact Nat.le_zero.mp (hle.trans (hi.drained (hdrained hd)).le)
  | stopper h =>
    cases h with
    | drains _ hz => exact hz
    | calls | joins | waits | wakes => cases hd
    | stops hst | returns hst | joined hst => exact hi.drained (by rw [hst]; rfl)
  | requests => cases hd
  | rejects | accepts | closes | exits => exact hi.drained hd

theorem Moves.keeps_drained {a : SenderAction} (h : Moves o s a s') (hi : s.Drained) :
    s'.Drained where
  slotted := h.slotted hi.slotted
  joined hj := by
    obtain hold | hw := h.joined hj
    · exact (h.stops (hi.joined hold)).1
    · exact hw
  drained := h.drained hi

end Sender

namespace MeteredSender
variable {m m' : MeteredSender} {t₀ now : Int}

theorem maybeReport_cases (m : MeteredSender) (now : Int) (force : Bool) :
    (m.maybeReport now force = m ∧ force = false) ∨
      (force = false → metricsInterval ≤ now - m.window.start) ∧ m.maybeReport now force =
        { m with
          window := { start := now }
          printed := m.printed ++ [⟨m.window, now, m.sender.queue.length, force⟩] } := by
  rw [maybeReport]
  split
  case isTrue h => exact .inl ⟨rfl, h.1⟩
  case isFalse h => exact .inr ⟨fun hforce => Int.not_lt.mp fun hlt => h ⟨hforce, hlt⟩, rfl⟩

/-- A counter of the windows: what was printed and what the open window has. -/
def total (f : MetricsWindow → Nat) (m : MeteredSender) : Nat :=
  (m.printed.map fun r => f r.window).sum + f m.window

/-- What a window counts, and what a report brings to it. -/
structure Counts (f : MetricsWindow → Nat) (g : Report → Nat) : Prop where
  opened : ∀ start, f { start } = 0
  count : ∀ w r, f (MetricsWindow.count w r) = f w + g r

theorem counts_chunks : Counts MetricsWindow.chunks Report.chunks :=
  ⟨fun _ => rfl, fun w r => by cases r <;> rfl⟩

theorem counts_bytes : Counts MetricsWindow.bytes Report.bytes :=
  ⟨fun _ => rfl, fun w r => by cases r <;> rfl⟩

theorem counts_retries : Counts MetricsWindow.retries Report.retries :=
  ⟨fun _ => rfl, fun w r => by cases r <;> rfl⟩

theorem reportFinal_eq (m : MeteredSender) (now later : Int) : m.reportFinal now later =
    { m with
      window := { start := later }
      printed := m.printed ++ [⟨m.window, now, m.sender.queue.length, true⟩] } := rfl

/-- Printing a window takes nothing from what has been counted. -/
theorem total_print {f : MetricsWindow → Nat} (hf : ∀ start, f { start } = 0) (m : MeteredSender)
    (now next : Int) (queueSize : Nat) (final : Bool) :
    total f { m with
      window := { start := next }
      printed := m.printed ++ [⟨m.window, now, queueSize, final⟩] } = m.total f := by
  rw [total, total, List.map_append, List.sum_append, hf, List.map_singleton, List.sum_singleton,
    Nat.add_zero]

/-- Windows that follow one another from `t₀` to the last, which starts at `start`. -/
def Follow (t₀ : Int) (printed : List MetricsReport) (start : Int) : Prop :=
  printed.map (fun r => r.window.start) ++ [start] = t₀ :: printed.map MetricsReport.now

/-- The windows follow one another up to the report of `stop`. Every further line is the report of a
further `stop` on an empty window. -/
structure Printed (t₀ : Int) (m : MeteredSender) : Prop where
  spaced : ∀ r ∈ m.printed, r.final = false → metricsInterval ≤ r.now - r.window.start
  before : m.sender.stopper.hasDrained = false → Follow t₀ m.printed m.window.start ∧
    ∀ r ∈ m.printed, r.final = false
  after : m.sender.stopper.hasDrained = true → m.window = { start := m.window.start } ∧
    ∃ earlier last again, m.printed = earlier ++ last :: again ∧
      Follow t₀ earlier last.window.start ∧ (∀ r ∈ earlier, r.final = false) ∧
      last.final = true ∧ ∀ r ∈ again, r.final = true ∧ r.window = { start := r.window.start }

theorem step_cases {a : SenderAction} {later : Int} (h : step o m (.act a now later) = some m')
    (hi : m.sender.Drained) : ∃ sender, Sender.step o m.sender a = some sender ∧
      ((sender.reports = m.sender.reports ∧
          sender.stopper.hasDrained = m.sender.stopper.hasDrained ∧ m' = { m with sender }) ∨
        (sender.reports = m.sender.reports ∧ m.sender.stopper.hasDrained = false ∧
          sender.stopper.hasDrained = true ∧
          m' = { m with sender }.reportFinal now later) ∨
        ∃ r, sender.reports = m.sender.reports ++ [r] ∧
          m.sender.stopper.hasDrained = false ∧ sender.stopper.hasDrained = false ∧
          m' = { m with sender, window := m.window.count r }.maybeReport now false) := by
  obtain ⟨sender, hs, rfl⟩ := Option.map_eq_some_iff.mp h
  refine ⟨sender, hs, ?_⟩
  have hmoves := Sender.moves_of_step hs
  obtain hsame | ⟨r, hnew, hstopper, hinflight⟩ := hmoves.reports_cases hi.slotted
  · rw [hsame, List.drop_length]
    by_cases hdrains : m.sender.stopper.hasDrained = false ∧ sender.stopper.hasDrained = true
    · rw [if_pos hdrains]
      exact .inr (.inl ⟨rfl, hdrains.1, hdrains.2, rfl⟩)
    · rw [if_neg hdrains]
      refine .inl ⟨rfl, ?_, rfl⟩
      cases hd : m.sender.stopper.hasDrained with
      | true =>
        have hw := hi.joined (Stopper.hasJoined_of_hasDrained hd)
        exact (hmoves.stops hw).2 hd
      | false => exact Bool.eq_false_iff.mpr fun hd' => hdrains ⟨hd, hd'⟩
  · have hnot : m.sender.stopper.hasDrained = false :=
      Bool.eq_false_iff.mpr fun hd => hinflight (hi.drained hd)
    rw [hnew, List.drop_left]
    exact .inr (.inr ⟨r, rfl, hnot, hstopper ▸ hnot, rfl⟩)

/-- The windows and the reports of the sender. -/
structure Metered (t₀ : Int) (m : MeteredSender) : Prop where
  drained : m.sender.Drained
  printed : m.Printed t₀
  total : ∀ f g, Counts f g → m.total f = (m.sender.reports.map g).sum

theorem metered_start (t₀ : Int) : (start t₀).Metered t₀ where
  drained := ⟨Sender.slotted_start, nofun, nofun⟩
  printed := ⟨nofun, fun _ => ⟨rfl, nofun⟩, nofun⟩
  total _ _ h := (Nat.zero_add _).trans (h.opened t₀)

/-- A callback prints a window that has been open long enough. -/
theorem Printed.callback (h : m.Printed t₀) {window : MetricsWindow} {sender : Sender}
    (hstart : window.start = m.window.start) (hbefore : m.sender.stopper.hasDrained = false)
    (hafter : sender.stopper.hasDrained = false)
    (hspaced : metricsInterval ≤ now - window.start) :
    Printed t₀ ⟨sender, { start := now },
      m.printed ++ [⟨window, now, sender.queue.length, false⟩]⟩ where
  spaced := List.forall_mem_append.mpr ⟨h.spaced, List.forall_mem_singleton.mpr fun _ => hspaced⟩
  before _ := by
    obtain ⟨hfollow, hnone⟩ := h.before hbefore
    constructor
    · rw [Follow] at hfollow ⊢
      rw [List.map_append, List.map_append, List.map_singleton, List.map_singleton, hstart,
        hfollow, List.cons_append]
    · exact List.forall_mem_append.mpr ⟨hnone, List.forall_mem_singleton.mpr rfl⟩
  after hd := by cases hafter.symm.trans hd

/-- The report of `stop` need not wait for its time. -/
theorem Printed.spaced_final (h : m.Printed t₀) (sender : Sender) (now later : Int) :
    ∀ r ∈ ({ m with sender }.reportFinal now later).printed, r.final = false →
      metricsInterval ≤ r.now - r.window.start :=
  List.forall_mem_append.mpr ⟨h.spaced, List.forall_mem_singleton.mpr fun hfinal => by cases hfinal⟩

/-- `stop` prints the open window when it has drained the slots. -/
theorem Printed.stop (h : m.Printed t₀) {sender : Sender} {later : Int}
    (hbefore : m.sender.stopper.hasDrained = false)
    (hafter : sender.stopper.hasDrained = true) :
    Printed t₀ ({ m with sender }.reportFinal now later) where
  spaced := h.spaced_final sender now later
  before hd := by cases hafter.symm.trans hd
  after _ := by
    obtain ⟨hfollow, hnone⟩ := h.before hbefore
    exact ⟨rfl, m.printed, _, [], rfl, hfollow, hnone, rfl, nofun⟩

/-- A further `stop` prints an empty window. -/
theorem Printed.stopAgain (h : m.Printed t₀) (hd : m.sender.stopper.hasDrained = true)
    (later : Int) : Printed t₀ (m.reportFinal now later) where
  spaced := h.spaced_final m.sender now later
  before hnot := by cases hnot.symm.trans hd
  after _ := by
    obtain ⟨hwindow, earlier, last, again, hprinted, hfollow, hnone, hlast, hagain⟩ := h.after hd
    refine ⟨rfl, earlier, last, again ++ [⟨m.window, now, m.sender.queue.length, true⟩], ?_, hfollow,
      hnone, hlast, ?_⟩
    · rw [reportFinal_eq, hprinted, List.append_assoc, List.cons_append]
    · exact List.forall_mem_append.mpr ⟨hagain, List.forall_mem_singleton.mpr ⟨rfl, hwindow⟩⟩

theorem Metered.act {a : SenderAction} {later : Int} (h : m.Metered t₀)
    (hs : step o m (.act a now later) = some m') : m'.Metered t₀ := by
  obtain ⟨sender, hsender, hcases⟩ := step_cases hs h.drained
  have hdrained := (Sender.moves_of_step hsender).keeps_drained h.drained
  obtain ⟨hreports, hst, rfl⟩ | ⟨hreports, hbefore, hafter, rfl⟩ |
    ⟨r, hreports, hbefore, hafter, rfl⟩ := hcases
  · refine ⟨hdrained, ⟨h.printed.spaced, ?_, ?_⟩, fun f g hfg => ?_⟩
    · exact fun hd => h.printed.before (hst ▸ hd)
    · exact fun hd => h.printed.after (hst ▸ hd)
    · rw [hreports]
      exact h.total f g hfg
  · refine ⟨hdrained, h.printed.stop hbefore hafter, fun f g hfg => ?_⟩
    rw [reportFinal_eq, total_print hfg.opened, hreports]
    exact h.total f g hfg
  · have hstart : (m.window.count r).start = m.window.start := by cases r <;> rfl
    have htotal : ∀ f g, Counts f g →
        MeteredSender.total f { m with sender, window := m.window.count r } =
          (sender.reports.map g).sum := by
      intro f g hfg
      rw [hreports, List.map_append, List.sum_append, List.map_singleton, List.sum_singleton,
        ← h.total f g hfg, MeteredSender.total, hfg.count, MeteredSender.total, Nat.add_assoc]
    obtain ⟨hsame, -⟩ | ⟨hspaced, hprinted⟩ :=
      maybeReport_cases { m with sender, window := m.window.count r } now false
    · rw [hsame]
      refine ⟨hdrained, ⟨h.printed.spaced, fun _ => ?_, fun hd => ?_⟩, htotal⟩
      · rw [hstart]
        exact h.printed.before hbefore
      · cases hafter.symm.trans hd
    · rw [hprinted]
      refine ⟨hdrained, h.printed.callback hstart hbefore hafter (hspaced rfl), fun f g hfg => ?_⟩
      rw [total_print hfg.opened { m with sender, window := m.window.count r }, htotal f g hfg]

theorem Metered.step {label : MeterAction} (h : m.Metered t₀)
    (hs : step o m label = some m') : m'.Metered t₀ := by
  cases label with
  | act a now later => exact h.act hs
  | stopAgain now later =>
    rw [MeteredSender.step] at hs
    split at hs
    · next hreturned =>
      cases hs
      have hd : m.sender.stopper.hasDrained = true := by
        rw [hreturned]
        rfl
      refine ⟨h.drained, h.printed.stopAgain hd later, fun f g hfg => ?_⟩
      rw [reportFinal_eq, total_print hfg.opened]
      exact h.total f g hfg
    · cases hs

/-- A chunk is counted when it is sent, or it is dropped. -/
theorem sum_split {g lost : Report → Nat} {w : FileChunk → Nat}
    (h : ∀ r, g r + lost r = w r.chunk) (reports : List Report) :
    (reports.map g).sum + (reports.map lost).sum = (reports.map fun r => w r.chunk).sum := by
  induction reports with
  | nil => rfl
  | cons r reports ih =>
    have hr := h r
    rw [List.map_cons, List.sum_cons, List.map_cons, List.sum_cons, List.map_cons, List.sum_cons,
      ← ih]
    omega

/-- Behind an empty window everything has been printed. -/
theorem total_printed {f : MetricsWindow → Nat} {g : Report → Nat} (hfg : Counts f g)
    (h : m.Metered t₀) (hd : m.sender.stopper.hasDrained = true) :
    (m.printed.map fun r => f r.window).sum = (m.sender.reports.map g).sum := by
  obtain ⟨hwindow, -⟩ := h.printed.after hd
  rw [← h.total f g hfg, total, hwindow, hfg.opened, Nat.add_zero]

theorem sender_maybeReport (m : MeteredSender) (now : Int) (force : Bool) :
    (m.maybeReport now force).sender = m.sender := by
  obtain ⟨hsame, -⟩ | ⟨-, hprinted⟩ := maybeReport_cases m now force
  · rw [hsame]
  · rw [hprinted]

theorem sender_step {a : SenderAction} {later : Int} (h : step o m (.act a now later) = some m') :
    Sender.step o m.sender a = some m'.sender := by
  obtain ⟨sender, hsender, rfl⟩ := Option.map_eq_some_iff.mp h
  rw [hsender]
  congr 1
  split
  · rw [sender_maybeReport]
  · split
    · rfl
    · rfl

/-- The guard of the sender's steps. -/
def Guards (guard : Sender → SenderAction → Prop) (m : MeteredSender) : MeterAction → Prop
  | .act a _ _ => guard m.sender a
  | .stopAgain .. => True

theorem reach_sender {guard : Sender → SenderAction → Prop}
    (h : Reach (step o) (Guards guard) (start t₀) m) :
    Reach (Sender.step o) guard .start m.sender := by
  induction h with
  | start => exact .start
  | next label _ hg hs ih =>
    cases label with
    | act a now later => exact .next a ih hg (sender_step hs)
    | stopAgain now later =>
      rw [step] at hs
      split at hs
      · cases hs
        exact ih
      · cases hs

/-- In every run the windows follow one another without a gap up to the report of `stop`, each
before it open for the whole interval at least, and further calls of `stop` report empty windows.
What the windows count, with the one that is open, is what the callbacks have reported. When `stop`
has returned from an orderly stop, the windows that were printed and the chunks that were dropped
make up all that was put on the queue. -/
theorem metered (o : SenderOptions) (t₀ : Int) :
    (∀ m, Reachable (step o) (start t₀) m → m.Metered t₀) ∧
    ∀ m, Reach (step o) (Guards (Sender.OrderlyStop o)) (start t₀) m →
      m.sender.stopper = .returned →
      (m.printed.map fun r => r.window.chunks).sum + (m.sender.reports.map Report.drops).sum =
        m.sender.accepted.length ∧
      (m.printed.map fun r => r.window.bytes).sum + (m.sender.reports.map Report.lost).sum =
        (m.sender.accepted.map fun chunk => chunk.payload.length).sum := by
  have hmetered : ∀ {guard m}, Reach (step o) guard (start t₀) m → m.Metered t₀ := fun h =>
    h.invariant (metered_start t₀) fun _ _ _ h _ hs => h.step hs
  refine ⟨fun m h => hmetered h, fun m h hreturned => ?_⟩
  have horderly : m.sender.Orderly := (reach_sender h).invariant Sender.orderly_start
    fun _ _ _ hi hg hs => (Sender.moves_of_step hs).orderly hi hg
  have hperm := horderly.reported hreturned
  have hd : m.sender.stopper.hasDrained = true := by
    rw [hreturned]
    rfl
  rw [total_printed counts_chunks (hmetered h) hd, total_printed counts_bytes (hmetered h) hd]
  have hchunk : ∀ r : Report, r.chunks + r.drops = 1 := fun r => by cases r <;> rfl
  have hbyte : ∀ r : Report, r.bytes + r.lost = r.chunk.payload.length := by
    intro r
    cases r with
    | sent p => exact Nat.add_zero _
    | dropped p => exact Nat.zero_add _
  have hchunks := sum_split (w := fun _ => 1) hchunk m.sender.reports
  have hbytes := sum_split (w := fun chunk => chunk.payload.length) hbyte m.sender.reports
  refine ⟨?_, ?_⟩
  · rw [hchunks, hperm.length_eq]
    simp
  · rw [hbytes, (hperm.map _).sum_eq, List.map_map]
    rfl

def calm (m : MeteredSender) : MeterAction → Bool
  | .act a _ _ => m.sender.calm a
  | .stopAgain .. => true

theorem guards_of_calm (m : MeteredSender) (label : MeterAction) (h : m.calm label = true) :
    Guards (Sender.OrderlyStop o) m label := by
  cases label with
  | act a now later => exact Sender.orderlyStop_of_calm m.sender a h
  | stopAgain now later => trivial

/-- The chunk is sent in the sixth second, then the sender is stopped and destroyed. -/
theorem metered_sample : ∃ m : MeteredSender,
    m.printed.map (fun r => (r.window.start, r.now, r.window.chunks, r.final)) =
      [(0, 6000000000, 1, false), (6000000000, 7000000000, 0, true),
        (7000000001, 8000000000, 0, true)] ∧
    (m.printed.map fun r => r.window.chunks).sum + (m.sender.reports.map Report.drops).sum =
      m.sender.accepted.length ∧
    (m.printed.map fun r => r.window.bytes).sum + (m.sender.reports.map Report.lost).sum =
      (m.sender.accepted.map fun chunk => chunk.payload.length).sum := by
  let early : List SenderAction :=
    [.push Sender.sampleChunk, .work true, .work true, .work true, .work true, .work true,
      .work true, .work true, .work true, .handle 0,
      .write 0 (serialize Sender.sampleChunk).length, .handle 0, .handle 0, .handle 0, .handle 0]
  let late : List SenderAction :=
    [.work true, .work true, .callStop, .stop, .work true, .work true, .work true, .stop, .stop,
      .stop, .exitRunner 0, .stop, .stop]
  let labels : List MeterAction := early.map (.act · 6000000000 6000000001) ++
    late.map (.act · 7000000000 7000000001) ++ [.stopAgain 8000000000 8000000001]
  have hrun : (runIf (step Sender.sampleOptions) calm (start 0) labels).any (fun m =>
        m.sender.stopper = .returned &&
          m.printed.map (fun r => (r.window.start, r.now, r.window.chunks, r.final)) =
            [(0, 6000000000, 1, false), (6000000000, 7000000000, 0, true),
              (7000000001, 8000000000, 0, true)]) = true := by
    decide +kernel
  obtain ⟨m, hm, hend⟩ := (Option.any_eq_true ..).mp hrun
  simp only [Bool.and_eq_true, decide_eq_true_eq] at hend
  have hreach : Reach (step Sender.sampleOptions)
      (Guards (Sender.OrderlyStop Sender.sampleOptions)) (start 0) m :=
    .of_runIf guards_of_calm hm
  exact ⟨m, hend.2, (metered Sender.sampleOptions 0).2 m hreach hend.1⟩

end MeteredSender

end SuperVoice.Client
