import SuperVoice.Server.Control

/-! `server::ListenerManager` with its acceptors and the ports they are made for. -/
namespace SuperVoice.Server
open Transition

inductive Channel where
  | health
  | telemetry
  | control
  | ack
  | data
  deriving DecidableEq

/-- `static_cast<Channel>`. -/
def Channel.ofIndex : Nat → Channel
  | 0 => .health
  | 1 => .telemetry
  | 2 => .control
  | 3 => .ack
  | _ => .data

structure AcceptorContext where
  /-- The number of the object among all that have been made. -/
  object : Nat
  channel : Channel
  port : UInt16
  running : Bool
  deriving DecidableEq

/-- What `start_acceptor` comes to for each object: it listens, it gives up, or it throws. -/
abbrev AcceptorIo := Nat → Option Bool

structure Listeners where
  sysBase : UInt16
  dataBase : UInt16
  systemAcceptors : List (Option AcceptorContext)
  dataAcceptors : List AcceptorContext
  started : Bool
  desiredDataCount : Nat
  /-- The number of the next object. -/
  made : Nat

/-- `static_cast<std::uint16_t>(base + i)`. -/
def portAt (base : UInt16) (i : Nat) : UInt16 := UInt16.ofNat (base.toNat + i)

namespace Listeners

def make (sysBase dataBase : UInt16) (initialDataCount : Nat) : Listeners where
  sysBase := sysBase
  dataBase := dataBase
  systemAcceptors := List.replicate 4 none
  dataAcceptors := []
  started := false
  desiredDataCount := initialDataCount
  made := 0

variable (io : AcceptorIo)

/-- The loop of `start` over the system channels. -/
def startSystem (m : Listeners) : List Nat → Outcome Unit × Listeners
  | [] => (.returned (), m)
  | i :: is =>
    match io m.made with
    | none => (.thrown, { m with made := m.made + 1 })
    | some running =>
      let ctx : AcceptorContext := ⟨m.made, .ofIndex i, portAt m.sysBase i, running⟩
      startSystem { m with
        systemAcceptors := m.systemAcceptors.set i (some ctx)
        made := m.made + 1 } is

/-- The loop that takes acceptors from the back, `k` times, with every thread joined, which may take
until one more connection comes. -/
def shrink (m : Listeners) : Nat → Listeners
  | 0 => m
  | k + 1 => shrink { m with dataAcceptors := m.dataAcceptors.dropLast } k

/-- The loop that starts acceptors and puts them behind the others, `k` times. -/
def grow (m : Listeners) : Nat → Outcome Unit × Listeners
  | 0 => (.returned (), m)
  | k + 1 =>
    match io m.made with
    | none => (.thrown, { m with made := m.made + 1 })
    | some running =>
      let ctx : AcceptorContext :=
        ⟨m.made, .data, portAt m.dataBase m.dataAcceptors.length, running⟩
      grow { m with dataAcceptors := m.dataAcceptors ++ [ctx], made := m.made + 1 } k

def ensureDataAcceptors (m : Listeners) (target : Nat) : Outcome Unit × Listeners :=
  if target = m.dataAcceptors.length then (.returned (), m)
  else if target < m.dataAcceptors.length then
    (.returned (), m.shrink (m.dataAcceptors.length - target))
  else m.grow io (target - m.dataAcceptors.length)

def start (m : Listeners) : Outcome Unit × Listeners :=
  if m.started then (.returned (), m)
  else
    match startSystem io { m with started := true } (List.range 4) with
    | (.returned (), m) => m.ensureDataAcceptors io m.desiredDataCount
    | (.thrown, m) => (.thrown, m)

/-- With every thread joined, as in `shrink`. -/
def stop (m : Listeners) : Listeners :=
  if m.started then
    { m with
      systemAcceptors := m.systemAcceptors.map fun ctx => ctx.map ({ · with running := false })
      dataAcceptors := []
      started := false }
  else m

def updateDataListenerCount (m : Listeners) (newCount : Nat) : Outcome Unit × Listeners :=
  let m := { m with desiredDataCount := newCount }
  if m.started then m.ensureDataAcceptors io newCount else (.returned (), m)

end Listeners

inductive ListenerAction where
  | start (io : AcceptorIo)
  | stop
  | update (newCount : Nat) (io : AcceptorIo)

/-- An update takes a count that `SCALE_DATA` lets through. -/
def listenerStep (m : Listeners) : ListenerAction → Option Listeners
  | .start io => some (m.start io).2
  | .stop => some m.stop
  | .update newCount io =>
    if 0 < newCount ∧ newCount < 2 ^ 64 then some (m.updateDataListenerCount io newCount).2
    else none

namespace Listeners

/-- Each data acceptor has the valid port that belongs to its place. -/
structure Exact (m : Listeners) : Prop where
  count : m.dataAcceptors.length = m.desiredDataCount
  port : ∀ i ctx, m.dataAcceptors[i]? = some ctx →
    ctx.port.toNat = m.dataBase.toNat + i ∧ 0 < ctx.port.toNat
  distinct : (m.dataAcceptors.map AcceptorContext.port).Nodup

def Untouched (m m' : Listeners) : Prop :=
  ∀ i, i < m.dataAcceptors.length → i < m'.dataAcceptors.length →
    m'.dataAcceptors[i]? = m.dataAcceptors[i]?

/-- The ports from the base on are valid. -/
def PortsFit (base : UInt16) (count : Nat) : Prop := 0 < base.toNat ∧ base.toNat + count ≤ 2 ^ 16

/-- The next `count` acceptors start, listening or not. -/
def Starts (io : AcceptorIo) (m : Listeners) (count : Nat) : Prop :=
  ∀ k < count, io (m.made + k) ≠ none

/-- The step starts all the acceptors it has to, and their ports are valid. -/
def Fits (m : Listeners) : ListenerAction → Prop
  | .start io => m.started = true ∨ m.desiredDataCount = 0 ∨
      (m.Starts io (4 + m.desiredDataCount) ∧ PortsFit m.dataBase m.desiredDataCount)
  | .stop => True
  | .update newCount io => m.started = false ∨
      (m.Starts io (newCount - m.dataAcceptors.length) ∧ PortsFit m.dataBase newCount)

/-- Every data acceptor has been made for the place it stands at. -/
structure Labelled (m : Listeners) : Prop where
  port : ∀ i ctx, m.dataAcceptors[i]? = some ctx → ctx.port = portAt m.dataBase i
  idle : m.started = false → m.dataAcceptors = []

section Ports
variable {base : UInt16} {i j n : Nat}

theorem toNat_portAt (base : UInt16) (i : Nat) :
    (portAt base i).toNat = (base.toNat + i) % 2 ^ 16 := rfl

theorem portAt_exact_iff :
    ((portAt base i).toNat = base.toNat + i ∧ 0 < (portAt base i).toNat) ↔
      0 < base.toNat + i ∧ base.toNat + i < 2 ^ 16 := by
  rw [toNat_portAt]
  omega

theorem portAt_inj (hi : base.toNat + i < 2 ^ 16) (hj : base.toNat + j < 2 ^ 16)
    (h : portAt base i = portAt base j) : i = j := by
  have hport := congrArg UInt16.toNat h
  rw [toNat_portAt, toNat_portAt, Nat.mod_eq_of_lt hi, Nat.mod_eq_of_lt hj] at hport
  exact Nat.add_left_cancel hport

end Ports

section Labels
variable {m m' : Listeners}

/-- Acceptors made for their places have valid ports exactly when the greatest port is one. -/
theorem exact_iff (h : m.Labelled) : m.Exact ↔ m.dataAcceptors.length = m.desiredDataCount ∧
    (m.desiredDataCount = 0 ∨ PortsFit m.dataBase m.desiredDataCount) := by
  constructor
  · intro he
    refine ⟨he.count, ?_⟩
    have hport : ∀ i < m.desiredDataCount,
        0 < m.dataBase.toNat + i ∧ m.dataBase.toNat + i < 2 ^ 16 := by
      intro i hi
      have hctx := List.getElem?_eq_getElem (he.count ▸ hi : i < m.dataAcceptors.length)
      have hexact := he.port i _ hctx
      rw [h.port i _ hctx] at hexact
      exact portAt_exact_iff.mp hexact
    unfold PortsFit
    by_cases hzero : m.desiredDataCount = 0
    · exact .inl hzero
    · right
      have hfirst := hport 0 (Nat.pos_of_ne_zero hzero)
      have hlast := hport (m.desiredDataCount - 1) (Nat.sub_lt (Nat.pos_of_ne_zero hzero) one_pos)
      omega
  · rintro ⟨hcount, hfit⟩
    have hlt : ∀ i < m.dataAcceptors.length,
        0 < m.dataBase.toNat + i ∧ m.dataBase.toNat + i < 2 ^ 16 := by
      intro i hi
      unfold PortsFit at hfit
      omega
    constructor
    · exact hcount
    · intro i ctx hctx
      obtain ⟨hi, -⟩ := List.getElem?_eq_some_iff.mp hctx
      rw [h.port i ctx hctx]
      exact portAt_exact_iff.mpr (hlt i hi)
    · apply List.nodup_iff_injective_get.mpr
      rintro ⟨i, hi⟩ ⟨j, hj⟩ hij
      rw [List.length_map] at hi hj
      simp only [List.get_eq_getElem, List.getElem_map] at hij
      rw [h.port i _ (List.getElem?_eq_getElem hi), h.port j _ (List.getElem?_eq_getElem hj)] at hij
      exact Fin.ext (portAt_inj (hlt i hi).2 (hlt j hj).2 hij)

end Labels

/-! What the loops do. -/

theorem starts_succ_iff {io : AcceptorIo} {m m' : Listeners} (k : Nat)
    (hmade : m'.made = m.made + 1) (hio : io m.made ≠ none) :
    m.Starts io (k + 1) ↔ m'.Starts io k := by
  unfold Starts
  rw [hmade]
  constructor
  · intro h j hj
    have hnext := h (j + 1) (Nat.succ_lt_succ hj)
    rwa [← Nat.add_assoc, Nat.add_right_comm] at hnext
  · intro h j hj
    cases j with
    | zero => exact hio
    | succ j =>
      have hnext := h j (Nat.lt_of_succ_lt_succ hj)
      rwa [Nat.add_assoc, Nat.add_comm 1] at hnext

theorem shrink_eq (m : Listeners) (k : Nat) : m.shrink k =
    { m with dataAcceptors := m.dataAcceptors.take (m.dataAcceptors.length - k) } := by
  induction k generalizing m with
  | zero => simp [shrink]
  | succ k ih =>
    rw [shrink, ih]
    simp only [List.dropLast_eq_take, List.take_take, List.length_take]
    congr 2
    omega

section Grow
variable (io : AcceptorIo) (m : Listeners) (k : Nat)

/-- Growing leaves all but the data acceptors and the number of the next object. -/
theorem grow_frame : (m.grow io k).2.started = m.started ∧
    (m.grow io k).2.desiredDataCount = m.desiredDataCount ∧
    (m.grow io k).2.dataBase = m.dataBase := by
  induction k generalizing m with
  | zero => exact ⟨rfl, rfl, rfl⟩
  | succ k ih =>
    unfold grow
    cases io m.made with
    | none => exact ⟨rfl, rfl, rfl⟩
    | some running => exact ih _

/-- Growing puts acceptors behind the others, as many as start. -/
theorem grow_dataAcceptors : ∃ made, (m.grow io k).2.dataAcceptors = m.dataAcceptors ++ made ∧
    made.length ≤ k ∧ (made.length = k ↔ m.Starts io k) ∧
    ((m.grow io k).1 = .returned () ↔ made.length = k) := by
  induction k generalizing m with
  | zero => exact ⟨[], by simp [grow], Nat.le_refl 0, by simp [Starts], by simp [grow]⟩
  | succ k ih =>
    unfold grow
    cases hio : io m.made with
    | none =>
      refine ⟨[], by simp, Nat.zero_le _, iff_of_false nofun fun h => ?_, iff_of_false nofun nofun⟩
      exact h 0 (Nat.succ_pos k) hio
    | some running =>
      obtain ⟨made, hdata, hle, hstarts, hreturned⟩ := ih { m with
        dataAcceptors := m.dataAcceptors ++
          [⟨m.made, .data, portAt m.dataBase m.dataAcceptors.length, running⟩]
        made := m.made + 1 }
      refine ⟨⟨m.made, .data, portAt m.dataBase m.dataAcceptors.length, running⟩ :: made, ?_,
        Nat.succ_le_succ hle, ?_, ?_⟩
      · rw [hdata, List.append_assoc]
        rfl
      · rw [List.length_cons, Nat.succ_inj, hstarts]
        exact (starts_succ_iff k rfl (by simp [hio])).symm
      · rw [List.length_cons, Nat.succ_inj]
        exact hreturned

theorem grow_port (h : ∀ i ctx, m.dataAcceptors[i]? = some ctx → ctx.port = portAt m.dataBase i) :
    ∀ i ctx, (m.grow io k).2.dataAcceptors[i]? = some ctx → ctx.port = portAt m.dataBase i := by
  induction k generalizing m with
  | zero => exact h
  | succ k ih =>
    unfold grow
    cases io m.made with
    | none => exact h
    | some running =>
      apply ih
      intro i ctx hctx
      dsimp only at hctx
      rw [List.getElem?_append] at hctx
      split at hctx
      · exact h i ctx hctx
      · next hi =>
        have hlast : i = m.dataAcceptors.length := by
          have hlt := (List.getElem?_eq_some_iff.mp hctx).1
          simp only [List.length_singleton] at hlt
          omega
        subst hlast
        rw [Nat.sub_self] at hctx
        cases hctx
        rfl

end Grow

section Ensure
variable (io : AcceptorIo) (m : Listeners) (target : Nat)

theorem ensure_frame : (m.ensureDataAcceptors io target).2.started = m.started ∧
    (m.ensureDataAcceptors io target).2.desiredDataCount = m.desiredDataCount ∧
    (m.ensureDataAcceptors io target).2.dataBase = m.dataBase := by
  unfold ensureDataAcceptors
  split
  · exact ⟨rfl, rfl, rfl⟩
  · split
    · rw [shrink_eq]
      exact ⟨rfl, rfl, rfl⟩
    · exact grow_frame io m _

theorem ensure_port
    (h : ∀ i ctx, m.dataAcceptors[i]? = some ctx → ctx.port = portAt m.dataBase i) :
    ∀ i ctx, (m.ensureDataAcceptors io target).2.dataAcceptors[i]? = some ctx →
      ctx.port = portAt m.dataBase i := by
  unfold ensureDataAcceptors
  split
  · exact h
  · split
    · intro i ctx hctx
      rw [shrink_eq] at hctx
      dsimp only at hctx
      rw [List.getElem?_take] at hctx
      split at hctx
      · exact h i ctx hctx
      · cases hctx
    · exact grow_port io m _ h

/-- The target is reached exactly when all the acceptors start that are missing. -/
theorem ensure_length_iff : (m.ensureDataAcceptors io target).2.dataAcceptors.length = target ↔
    m.Starts io (target - m.dataAcceptors.length) := by
  unfold ensureDataAcceptors
  split
  · next heq =>
    rw [heq, Nat.sub_self]
    exact iff_of_true rfl nofun
  · split
    · next hlt =>
      rw [shrink_eq, Nat.sub_eq_zero_of_le (Nat.le_of_lt hlt)]
      apply iff_of_true _ nofun
      rw [List.length_take]
      omega
    · obtain ⟨made, hdata, hle, hstarts, -⟩ :=
        grow_dataAcceptors io m (target - m.dataAcceptors.length)
      rw [hdata, List.length_append, ← hstarts]
      omega

/-- Acceptors that stay are the ones that were there. -/
theorem ensure_untouched : m.Untouched (m.ensureDataAcceptors io target).2 := by
  unfold ensureDataAcceptors
  split
  · exact fun i _ _ => rfl
  · split
    · intro i hi hi'
      rw [shrink_eq] at hi' ⊢
      dsimp only at hi' ⊢
      rw [List.length_take] at hi'
      rw [List.getElem?_take_of_lt (Nat.lt_of_lt_of_le hi' (Nat.min_le_left _ _))]
    · intro i hi hi'
      obtain ⟨made, hdata, -⟩ := grow_dataAcceptors io m (target - m.dataAcceptors.length)
      rw [hdata, List.getElem?_append_left hi]

end Ensure

section Start
variable (io : AcceptorIo) (m : Listeners) (is : List Nat)

theorem startSystem_frame : (m.startSystem io is).2.started = m.started ∧
    (m.startSystem io is).2.desiredDataCount = m.desiredDataCount ∧
    (m.startSystem io is).2.dataBase = m.dataBase ∧
    (m.startSystem io is).2.dataAcceptors = m.dataAcceptors := by
  induction is generalizing m with
  | nil => exact ⟨rfl, rfl, rfl, rfl⟩
  | cons i is ih =>
    unfold startSystem
    cases io m.made with
    | none => exact ⟨rfl, rfl, rfl, rfl⟩
    | some running => exact ih _

theorem startSystem_returned_iff :
    (m.startSystem io is).1 = .returned () ↔ m.Starts io is.length := by
  induction is generalizing m with
  | nil => exact iff_of_true rfl nofun
  | cons i is ih =>
    unfold startSystem
    cases hio : io m.made with
    | none => exact iff_of_false nofun fun h => h 0 (Nat.succ_pos _) hio
    | some running =>
      dsimp only
      rw [ih]
      exact (starts_succ_iff is.length rfl (by simp [hio])).symm

theorem startSystem_made (h : (m.startSystem io is).1 = .returned ()) :
    (m.startSystem io is).2.made = m.made + is.length := by
  induction is generalizing m with
  | nil => rfl
  | cons i is ih =>
    unfold startSystem at h ⊢
    cases hio : io m.made with
    | none =>
      rw [hio] at h
      cases h
    | some running =>
      rw [hio] at h
      rw [ih _ h, List.length_cons, Nat.add_assoc, Nat.add_comm 1]

end Start

section Steps
variable {m m' : Listeners} {a : ListenerAction}

/-- Started, with the data acceptors as before. -/
structure OnlyStarted (m m' : Listeners) : Prop where
  started : m'.started = true
  desired : m'.desiredDataCount = m.desiredDataCount
  base : m'.dataBase = m.dataBase
  data : m'.dataAcceptors = m.dataAcceptors

/-- `start` comes to the data acceptors when the four system acceptors start. -/
theorem start_cases (io : AcceptorIo) (h : m.started = false) :
    (m.Starts io 4 ∧ ∃ m₁, OnlyStarted m m₁ ∧ m₁.made = m.made + 4 ∧
      (m.start io).2 = (m₁.ensureDataAcceptors io m.desiredDataCount).2) ∨
    (¬m.Starts io 4 ∧ OnlyStarted m (m.start io).2) := by
  have hstart : m.start io = match startSystem io { m with started := true } (List.range 4) with
      | (.returned (), m) => m.ensureDataAcceptors io m.desiredDataCount
      | (.thrown, m) => (.thrown, m) := by
    rw [start, h]
    rfl
  obtain ⟨hs, hd, hb, hdata⟩ := startSystem_frame io { m with started := true } (List.range 4)
  have hreturned := startSystem_returned_iff io { m with started := true } (List.range 4)
  have hmade := startSystem_made io { m with started := true } (List.range 4)
  rw [hstart]
  rcases hsystem : startSystem io { m with started := true } (List.range 4) with ⟨result, m₁⟩
  rw [hsystem] at hs hd hb hdata hreturned hmade
  cases result with
  | returned =>
    left
    refine ⟨hreturned.mp rfl, m₁, ⟨hs, hd, hb, hdata⟩, hmade rfl, ?_⟩
    dsimp only
    rw [show m₁.desiredDataCount = m.desiredDataCount from hd]
  | thrown =>
    right
    refine ⟨fun hstarts => ?_, hs, hd, hb, hdata⟩
    cases hreturned.mpr hstarts

/-- Ports belong to places, whatever fails. -/
theorem labelled_of_step (h : m.Labelled) (hs : listenerStep m a = some m') : m'.Labelled := by
  cases a with
  | start io =>
    cases hs
    by_cases hstarted : m.started = true
    · rw [start, if_pos hstarted]
      exact h
    · rw [Bool.not_eq_true] at hstarted
      obtain ⟨-, m₁, honly, -, heq⟩ | ⟨-, honly⟩ := start_cases io hstarted
      · obtain ⟨hs, -, hbase⟩ := ensure_frame io m₁ m.desiredDataCount
        rw [heq]
        constructor
        · rw [hbase]
          apply ensure_port
          rw [honly.data, honly.base]
          exact h.port
        · rw [hs, honly.started]
          intro hstopped
          cases hstopped
      · constructor
        · rw [honly.data, honly.base]
          exact h.port
        · rw [honly.started]
          intro hstopped
          cases hstopped
  | stop =>
    cases hs
    unfold stop
    split
    · exact ⟨by simp, fun _ => rfl⟩
    · exact h
  | update newCount io =>
    simp only [listenerStep] at hs
    split at hs
    · cases hs
      unfold updateDataListenerCount
      dsimp only
      split
      · next hstarted =>
        obtain ⟨hs', -, hbase⟩ := ensure_frame io { m with desiredDataCount := newCount } newCount
        constructor
        · rw [hbase]
          exact ensure_port io _ _ h.port
        · rw [hs']
          intro hidle
          rw [hstarted] at hidle
          cases hidle
      · exact ⟨h.port, h.idle⟩
    · cases hs

/-- Whenever the manager is started, its data acceptors are as they should be. -/
def PortsExact (m : Listeners) : Prop := m.started = true → m.Exact

/-- An update leaves the acceptors that stay. -/
def Stays (m : Listeners) (a : ListenerAction) (m' : Listeners) : Prop :=
  match a with
  | .update .. => m.Untouched m'
  | .start _ | .stop => True

theorem stays_of_step (hs : listenerStep m a = some m') : m.Stays a m' := by
  cases a with
  | start | stop => trivial
  | update newCount io =>
    simp only [listenerStep] at hs
    split at hs
    · cases hs
      unfold Stays updateDataListenerCount
      dsimp only
      split
      · exact ensure_untouched io { m with desiredDataCount := newCount } newCount
      · exact fun i _ _ => rfl
    · cases hs

theorem starts_add_iff {io : AcceptorIo} {m₁ : Listeners} {j k : Nat}
    (hmade : m₁.made = m.made + j) : m.Starts io (j + k) ↔ m.Starts io j ∧ m₁.Starts io k := by
  unfold Starts
  rw [hmade]
  constructor
  · intro h
    refine ⟨fun i hi => h i (Nat.lt_add_right k hi), fun i hi => ?_⟩
    rw [Nat.add_assoc]
    exact h (j + i) (Nat.add_lt_add_left hi j)
  · rintro ⟨hj, hk⟩ i hi
    by_cases hlt : i < j
    · exact hj i hlt
    · have hnext := hk (i - j) (by omega)
      rwa [Nat.add_assoc, Nat.add_sub_cancel' (Nat.le_of_not_lt hlt)] at hnext

theorem portsExact_start_iff (io : AcceptorIo) (h : m.Labelled) (hp : m.PortsExact) :
    (m.start io).2.PortsExact ↔ m.Fits (.start io) := by
  have hlabelled : (m.start io).2.Labelled := labelled_of_step (a := .start io) h rfl
  by_cases hstarted : m.started = true
  · rw [start, if_pos hstarted]
    exact iff_of_true hp (.inl hstarted)
  · unfold Fits
    simp only [hstarted, Bool.false_eq_true, false_or]
    rw [Bool.not_eq_true] at hstarted
    obtain ⟨hstarts, m₁, honly, hmade, heq⟩ | ⟨hstarts, honly⟩ := start_cases io hstarted
    · obtain ⟨hs, hd, hb⟩ := ensure_frame io m₁ m.desiredDataCount
      have hlength := ensure_length_iff io m₁ m.desiredDataCount
      rw [← heq] at hs hd hb hlength
      rw [honly.data, h.idle hstarted, List.length_nil, Nat.sub_zero] at hlength
      rw [PortsExact, hs, honly.started, exact_iff hlabelled, hd, hb, honly.desired, honly.base,
        hlength, starts_add_iff hmade]
      by_cases hzero : m.desiredDataCount = 0
      · simp [hzero, Starts]
      · simp [hzero, hstarts]
    · rw [PortsExact, honly.started, exact_iff hlabelled, honly.data, honly.desired,
        h.idle hstarted]
      have hmore : ¬m.Starts io (4 + m.desiredDataCount) := fun hall =>
        hstarts fun k hk => hall k (Nat.lt_add_right _ hk)
      by_cases hzero : m.desiredDataCount = 0
      · simp [hzero]
      · simp [hzero, hmore, Ne.symm hzero]

theorem portsExact_update_iff (io : AcceptorIo) (newCount : Nat) (hpos : 0 < newCount)
    (h : m.Labelled) (hs : listenerStep m (.update newCount io) = some m') :
    m'.PortsExact ↔ m.Fits (.update newCount io) := by
  have hlabelled := labelled_of_step h hs
  simp only [listenerStep] at hs
  split at hs
  · cases hs
    unfold updateDataListenerCount at hlabelled ⊢
    dsimp only at hlabelled ⊢
    by_cases hstarted : m.started = true
    · rw [if_pos hstarted] at hlabelled ⊢
      obtain ⟨hs, hd, hb⟩ := ensure_frame io { m with desiredDataCount := newCount } newCount
      have hlength := ensure_length_iff io { m with desiredDataCount := newCount } newCount
      rw [PortsExact, hs, exact_iff hlabelled, hd, hb, hlength]
      simp [Fits, hstarted, Nat.ne_of_gt hpos, Starts]
    · rw [if_neg hstarted]
      exact iff_of_true (fun hon => absurd hon hstarted) (.inl (Bool.not_eq_true _ ▸ hstarted))
  · cases hs

/-- A step leads to data acceptors as they should be exactly when it fits. -/
theorem portsExact_iff_of_step (h : m.Labelled) (hp : m.PortsExact)
    (hs : listenerStep m a = some m') : m'.PortsExact ↔ m.Fits a := by
  cases a with
  | start io =>
    cases hs
    exact portsExact_start_iff io h hp
  | stop =>
    cases hs
    apply iff_of_true _ trivial
    unfold stop
    split
    · exact nofun
    · exact hp
  | update newCount io =>
    have hpos : 0 < newCount := by
      by_contra hzero
      rw [listenerStep, if_neg fun h => hzero h.1] at hs
      cases hs
    exact portsExact_update_iff io newCount hpos h hs

theorem labelled_make (sysBase dataBase : UInt16) (initialDataCount : Nat) :
    (make sysBase dataBase initialDataCount).Labelled := ⟨nofun, fun _ => rfl⟩

/-- Over every sequence of calls: while the manager is started, its data acceptors are as they
should be, and updates leave those that stay, exactly when every call fits. -/
theorem ports_exact_iff (sysBase dataBase : UInt16) (initialDataCount : Nat)
    (actions : List ListenerAction) :
    Along listenerStep PortsExact Stays (make sysBase dataBase initialDataCount) actions ↔
      Meets listenerStep Fits (make sysBase dataBase initialDataCount) actions :=
  along_iff_meets (Q := Labelled) (fun _ _ _ h hs => labelled_of_step h hs)
    (fun _ _ _ _ hs => stays_of_step hs) (fun _ _ _ h hp hs => portsExact_iff_of_step h hp hs)
    (labelled_make sysBase dataBase initialDataCount) nofun

/-- The second of two acceptors from port 65535 on gets port 0. -/
theorem ports_exact_fails : ¬ ∀ (sysBase dataBase : UInt16) (initialDataCount : Nat)
    (actions : List ListenerAction), Along listenerStep PortsExact Stays
      (make sysBase dataBase initialDataCount) actions := by
  intro hclaim
  have hexact := ((((hclaim 7000 65535 1 [.start fun _ => some true,
    .update 2 fun _ => some true]).2 _ rfl).2).2 _ rfl).2 (by decide +kernel)
  exact absurd (hexact.port 1 ⟨5, .data, 0, true⟩ (by decide +kernel)).2 (by decide)

end Steps

/-! The same manager without its ports. -/

def counts (m : Listeners) : ListenerManager :=
  ⟨m.desiredDataCount, m.started, m.dataAcceptors.length⟩

/-- The target is reached, or a throw ends the growing before. -/
theorem ensure_outcome (io : AcceptorIo) (m : Listeners) (target : Nat) :
    ((m.ensureDataAcceptors io target).1 = .returned () ∧
      (m.ensureDataAcceptors io target).2.dataAcceptors.length = target) ∨
    ((m.ensureDataAcceptors io target).1 = .thrown ∧
      m.dataAcceptors.length ≤ (m.ensureDataAcceptors io target).2.dataAcceptors.length ∧
      (m.ensureDataAcceptors io target).2.dataAcceptors.length < target) := by
  unfold ensureDataAcceptors
  split
  · next heq => exact .inl ⟨rfl, heq.symm⟩
  · split
    · next hlt =>
      left
      rw [shrink_eq]
      refine ⟨rfl, ?_⟩
      dsimp only
      rw [List.length_take]
      omega
    · next hne hge =>
      obtain ⟨made, hdata, hle, -, hreturned⟩ :=
        grow_dataAcceptors io m (target - m.dataAcceptors.length)
      rw [hdata, List.length_append]
      cases hresult : (m.grow io (target - m.dataAcceptors.length)).1 with
      | returned =>
        left
        have hall := hreturned.mp hresult
        exact ⟨rfl, by omega⟩
      | thrown =>
        right
        have hsome : made.length ≠ target - m.dataAcceptors.length := by
          intro hall
          have hboth := hreturned.mpr hall
          rw [hresult] at hboth
          cases hboth
        exact ⟨rfl, by omega, by omega⟩

theorem counts_ensureDataAcceptors (io : AcceptorIo) (m : Listeners) (target : Nat) :
    ∃ granted, ((m.ensureDataAcceptors io target).1,
      (m.ensureDataAcceptors io target).2.counts) =
        m.counts.ensureDataAcceptors granted target := by
  obtain ⟨hs, hd, -⟩ := ensure_frame io m target
  have houtcome := ensure_outcome io m target
  generalize m.ensureDataAcceptors io target = p at hs hd houtcome
  obtain ⟨result, m'⟩ := p
  dsimp only at hs hd houtcome ⊢
  refine ⟨m'.dataAcceptors.length - m.dataAcceptors.length, ?_⟩
  unfold ListenerManager.ensureDataAcceptors counts
  dsimp only
  rw [hs, hd]
  obtain ⟨rfl, hlength⟩ | ⟨rfl, hle, hlt⟩ := houtcome
  · have hreach : target ≤ m.dataAcceptors.length +
        (m'.dataAcceptors.length - m.dataAcceptors.length) := by omega
    rw [if_pos hreach, hlength]
  · have hshort : ¬target ≤ m.dataAcceptors.length +
        (m'.dataAcceptors.length - m.dataAcceptors.length) := by omega
    rw [if_neg hshort, Nat.add_sub_cancel' hle]

/-- Counting the acceptors, an update is the one that the commands go by. -/
theorem counts_updateDataListenerCount (io : AcceptorIo) (m : Listeners) (newCount : Nat) :
    ∃ granted, ((m.updateDataListenerCount io newCount).1,
      (m.updateDataListenerCount io newCount).2.counts) =
        m.counts.updateDataListenerCount granted newCount := by
  unfold updateDataListenerCount ListenerManager.updateDataListenerCount
  dsimp only
  by_cases hstarted : m.started = true
  · obtain ⟨granted, h⟩ := counts_ensureDataAcceptors io
      { m with desiredDataCount := newCount } newCount
    refine ⟨granted, ?_⟩
    rw [if_pos hstarted, if_pos (show m.counts.started = true from hstarted)]
    exact h
  · refine ⟨0, ?_⟩
    rw [if_neg hstarted, if_neg (show ¬m.counts.started = true from hstarted)]
    rfl

end Listeners

end SuperVoice.Server
