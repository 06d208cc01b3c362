import SuperVoice.Lib.Numeral
import SuperVoice.Server.Effects

/-! `server::ControlPlane`: commands arrive on any number of connections, each with a thread of
its own. A command is cut at its atomic stores and lock sections. -/
namespace SuperVoice.Server
open Bytes FileStore Numeral Transition

/-- `ListenerManager`; of `data_acceptors_` the size. -/
structure ListenerManager where
  desiredDataCount : Nat
  started : Bool
  dataAcceptors : Nat

namespace ListenerManager

/-- `ensure_data_acceptors_locked`; it throws when one acceptor more than granted is started. -/
def ensureDataAcceptors (granted : Nat) (m : ListenerManager) (target : Nat) :
    Outcome Unit × ListenerManager :=
  if target ≤ m.dataAcceptors + granted then (.returned (), { m with dataAcceptors := target })
  else (.thrown, { m with dataAcceptors := m.dataAcceptors + granted })

def updateDataListenerCount (granted : Nat) (m : ListenerManager) (newCount : Nat) :
    Outcome Unit × ListenerManager :=
  let m := { m with desiredDataCount := newCount }
  if m.started then m.ensureDataAcceptors granted newCount else (.returned (), m)

end ListenerManager

/-- `update_ttl` before the lock. -/
def storeDefaultTtl (w : World) (newTtl : Int) : World :=
  { w with storage := { w.storage with defaultTtl := newTtl } }

variable (r : Root)

/-- `update_ttl` under the lock. -/
def resetTtls (fault : Bytes → Option Fault) (w : World) (newTtl : Int) : World :=
  w.forEntries fun w id entry => resetTtl r (fault id) newTtl w id entry

/-- `update_ttl` is the store and then the lock section. -/
theorem updateTtl_eq (fault : Bytes → Option Fault) (w : World) (newTtl : Int) :
    updateTtl r fault w newTtl = resetTtls r fault (storeDefaultTtl w newTtl) newTtl := rfl

inductive Command where
  | scaleData (value : Nat)
  | setTtl (seconds : Int)
  | ping
  | status
  | unknown
  deriving DecidableEq

/-- What `apply_command` extracts from the line. -/
def Command.parse (line : Bytes) : Command :=
  let rest := line.dropWhile isSpace
  let verb := rest.takeWhile fun b => !isSpace b
  let rest := rest.drop verb.length
  if verb = ascii "SCALE_DATA" then .scaleData (extractUnsigned rest)
  else if verb = ascii "SET_TTL" then .setTtl (extractSigned rest)
  else if verb = ascii "PING" then .ping
  else if verb = ascii "STATUS" then .status
  else .unknown

/-- A command whose first store is made, and what it has yet to do. -/
inductive Running where
  /-- `update_data_listener_count` -/
  | scaling (value : Nat)
  /-- `update_ttl`, the store of `default_ttl_rep_` -/
  | defaulting (seconds : Int)
  /-- `update_ttl`, the lock section -/
  | resetting (seconds : Int)
  deriving DecidableEq

structure ControlState where
  world : World
  listeners : ListenerManager
  /-- `data_listener_count` and `ttl_seconds` of `main`. -/
  dataListenerCount : Nat
  ttl : Int
  /-- The commands in progress with their connections, the one that began first in front. -/
  running : List (Nat × Running)
  closed : List Nat
  answers : List (Nat × Bytes)
  /-- The commands that were not refused. -/
  accepted : List Command

namespace ControlState

def start (world : World) (listeners : ListenerManager) (dataListenerCount : Nat) (ttl : Int) :
    ControlState :=
  ⟨world, listeners, dataListenerCount, ttl, [], [], [], []⟩

def status (s : ControlState) : Bytes :=
  ascii "OK listeners=" ++ decimal s.dataListenerCount ++ ascii " ttl=" ++ signedDecimal s.ttl

/-- `ttl_value` of the cleanup thread, with which it sweeps the published files. -/
def sweepTtl (s : ControlState) : Int := s.ttl

/-- Write the response; the connection ends after `QUIT` or `EXIT`. -/
def answer (s : ControlState) (c : Nat) (line response : Bytes) : ControlState :=
  { s with
    answers := s.answers ++ [(c, response ++ [newline])]
    closed := if line = ascii "QUIT" ∨ line = ascii "EXIT" then c :: s.closed else s.closed }

/-- A line up to the first store of its command. -/
def begin (s : ControlState) (c : Nat) (line : Bytes) : ControlState :=
  match Command.parse line with
  | .scaleData value =>
    if value = 0 then s.answer c line (ascii "ERR data listener count must be > 0")
    else { s with
      dataListenerCount := value
      running := s.running ++ [(c, .scaling value)]
      accepted := s.accepted ++ [.scaleData value] }
  | .setTtl seconds =>
    if seconds ≤ 0 then s.answer c line (ascii "ERR ttl must be positive")
    else { s with
      ttl := seconds
      running := s.running ++ [(c, .defaulting seconds)]
      accepted := s.accepted ++ [.setTtl seconds] }
  | .ping => s.answer c line (ascii "PONG")
  | .status => s.answer c line s.status
  | .unknown => s.answer c line (ascii "ERR unknown command")

/-- The next store or lock section of the command at place `i`. -/
def proceed (s : ControlState) (i : Nat) (fault : Bytes → Option Fault) (granted : Nat) :
    Option ControlState :=
  match s.running[i]? with
  | none => none
  | some (c, .scaling value) =>
    let s := { s with running := s.running.eraseIdx i }
    match s.listeners.updateDataListenerCount granted value with
    | (.returned (), listeners) =>
      some ({ s with listeners }.answer c [] (ascii "OK data listeners=" ++ decimal value))
    | (.thrown, listeners) => some { s with listeners, closed := c :: s.closed }
  | some (c, .defaulting seconds) =>
    some { s with
      world := storeDefaultTtl s.world seconds
      running := s.running.set i (c, .resetting seconds) }
  | some (c, .resetting seconds) =>
    let s := { s with
      world := resetTtls r fault s.world seconds
      running := s.running.eraseIdx i }
    some (s.answer c [] (ascii "OK ttl=" ++ signedDecimal seconds))

end ControlState

inductive ControlEvent where
  /-- A line on a connection that waits for one. -/
  | line (c : Nat) (line : Bytes)
  | proceed (i : Nat) (fault : Bytes → Option Fault) (granted : Nat)
  /-- The cleanup thread. -/
  | sweep (removes : Bytes → Bool) (now : Int)
  /-- A data handler that had stored its chunk before. -/
  | published (id : Bytes)

def controlStep (s : ControlState) : ControlEvent → Option ControlState
  | .line c line =>
    if c ∈ s.closed ∨ c ∈ s.running.map Prod.fst then none
    else if line = [] then some s
    else some (s.begin c line)
  | .proceed i fault granted => s.proceed r i fault granted
  | .sweep removes now => some { s with world := cleanupExpired r removes now s.world }
  | .published id => some { s with world := markPublished s.world id }

/-- What a copy of a setting holds once the stores still due are made, the oldest first. -/
def settled {V : Type} (copy : V) (due : List V) : V := due.getLastD copy

section Settled
variable {V α : Type} {copy v : V}

theorem settled_append_singleton (due : List V) : settled copy (due ++ [v]) = v := by
  simp [settled]

/-- A store may be made early if those it overtakes store the same value. -/
theorem settled_store {before : List V} (after : List V) (hbefore : ∀ u ∈ before, u = v) :
    settled v (before ++ after) = settled copy (before ++ v :: after) := by
  cases after using List.reverseRecOn with
  | nil =>
    cases before using List.reverseRecOn with
    | nil => rfl
    | append_singleton before u =>
      rw [List.append_nil, settled_append_singleton, settled_append_singleton]
      exact hbefore u (by simp)
  | append_singleton after u =>
    rw [← List.cons_append, ← List.append_assoc, ← List.append_assoc, settled_append_singleton,
      settled_append_singleton]

variable {l : List α} {i : Nat} {a : α} (f : α → Option V)

theorem filterMap_getElem (h : l[i]? = some a) : l.filterMap f =
    (l.take i).filterMap f ++ ((f a).toList ++ (l.drop (i + 1)).filterMap f) := by
  obtain ⟨hi, rfl⟩ := List.getElem?_eq_some_iff.mp h
  nth_rewrite 1 [← List.take_append_drop i l]
  rw [List.drop_eq_getElem_cons hi, List.filterMap_append, List.filterMap_cons]
  cases f l[i] <;> rfl

theorem filterMap_concat (l : List α) (a : α) :
    (l ++ [a]).filterMap f = l.filterMap f ++ (f a).toList := by
  rw [List.filterMap_append, List.filterMap_cons]
  cases f a <;> rfl

theorem filterMap_eraseIdx : (l.eraseIdx i).filterMap f =
    (l.take i).filterMap f ++ (l.drop (i + 1)).filterMap f := by
  rw [List.eraseIdx_eq_take_drop_succ, List.filterMap_append]

theorem filterMap_set (h : l[i]? = some a) (b : α) : (l.set i b).filterMap f =
    (l.take i).filterMap f ++ ((f b).toList ++ (l.drop (i + 1)).filterMap f) := by
  obtain ⟨hi, -⟩ := List.getElem?_eq_some_iff.mp h
  rw [List.set_eq_take_append_cons_drop, if_pos hi, List.filterMap_append, List.filterMap_cons]
  cases f b <;> rfl

theorem filterMap_eraseIdx_of_none (h : l[i]? = some a) (hnone : f a = none) :
    (l.eraseIdx i).filterMap f = l.filterMap f := by
  rw [filterMap_eraseIdx, filterMap_getElem f h, hnone, Option.toList_none, List.nil_append]

theorem filterMap_set_of_eq (h : l[i]? = some a) {b : α} (hb : f b = f a) :
    (l.set i b).filterMap f = l.filterMap f := by
  rw [filterMap_set f h, filterMap_getElem f h, hb]

variable {f}

/-- The store of the element at place `i`, which thereby drops out. -/
theorem settled_eraseIdx (h : l[i]? = some a) (hv : f a = some v)
    (hbefore : ∀ b ∈ l.take i, ∀ u ∈ f b, u = v) :
    settled v ((l.eraseIdx i).filterMap f) = settled copy (l.filterMap f) := by
  rw [filterMap_eraseIdx, filterMap_getElem f h, hv]
  apply settled_store _
  intro u hu
  obtain ⟨b, hb, hbu⟩ := List.mem_filterMap.mp hu
  exact hbefore b hb u hbu

theorem settled_set (h : l[i]? = some a) (hv : f a = some v)
    (hbefore : ∀ b ∈ l.take i, ∀ u ∈ f b, u = v) {b : α} (hb : f b = none) :
    settled v ((l.set i b).filterMap f) = settled copy (l.filterMap f) := by
  rw [← settled_eraseIdx h hv hbefore, filterMap_set f h, hb, filterMap_eraseIdx]
  rfl

end Settled

/-! The values that commands in progress have yet to store in each copy. -/

def dueCount : Running → Option Nat
  | .scaling value => some value
  | .defaulting _ | .resetting _ => none

def dueDefault : Running → Option Int
  | .defaulting seconds => some seconds
  | .scaling _ | .resetting _ => none

def dueReset : Running → Option Int
  | .defaulting seconds | .resetting seconds => some seconds
  | .scaling _ => none

def ControlState.due {V : Type} (s : ControlState) (store : Running → Option V) : List V :=
  s.running.filterMap fun p => store p.2

/-- The next store of `p` does not overtake one of the earlier `q` that stores something else. -/
def Running.After : Running → Running → Prop
  | .scaling v, .scaling u => u = v
  | .defaulting v, .defaulting u => u = v
  | .resetting v, .defaulting u | .resetting v, .resetting u => u = v
  | _, _ => True

instance (p q : Running) : Decidable (p.After q) := by
  cases p <;> cases q <;> unfold Running.After <;> infer_instance

section After
variable {p q : Running} {v u : Int}

theorem Running.After.count {v u : Nat} (h : p.After q) (hp : dueCount p = some v)
    (hq : dueCount q = some u) : u = v := by
  cases p <;> cases hp
  cases q <;> cases hq
  exact h

theorem Running.After.default (h : p.After q) (hp : dueDefault p = some v)
    (hq : dueDefault q = some u) : u = v := by
  cases p <;> cases hp
  cases q <;> cases hq
  exact h

theorem Running.After.reset (h : Running.After (.resetting v) q) (hq : dueReset q = some u) :
    u = v := by
  cases q <;> cases hq <;> exact h

end After

/-- No store is made before that of a command of the kind which began earlier, unless both store
the same. -/
def InOrder (s : ControlState) : ControlEvent → Prop
  | .proceed i _ _ => ∀ p ∈ s.running[i]?, ∀ q ∈ s.running.take i, p.2.After q.2
  | _ => True

section World
variable {r : Root} {w : World}

theorem defaultTtl_resetTtls (fault : Bytes → Option Fault) (newTtl : Int) :
    (resetTtls r fault w newTtl).storage.defaultTtl = w.storage.defaultTtl :=
  forEntries_induct (P := fun w' => w'.storage.defaultTtl = w.storage.defaultTtl) rfl
    fun _ _ _ h _ => h

theorem defaultTtl_cleanupExpired (removes : Bytes → Bool) (now : Int) :
    (cleanupExpired r removes now w).storage.defaultTtl = w.storage.defaultTtl := by
  apply forEntries_induct (P := fun w' => w'.storage.defaultTtl = w.storage.defaultTtl) rfl
  intro w' id e h _
  split
  · exact h
  · exact h

theorem entry_resetTtl {fault : Option Fault} {newTtl : Int} {id id' : Bytes} {e : PayloadEntry} :
    (resetTtl r fault newTtl w id e).entry id' =
      if id' = id then some { e with ttl := newTtl } else w.entry id' := entry_insert _ _ _ _ _

/-- After the lock section every entry has the new TTL. -/
theorem entry_resetTtls {fault : Bytes → Option Fault} {newTtl : Int} {id : Bytes} :
    (resetTtls r fault w newTtl).entry id =
      (w.entry id).map fun e => { e with ttl := newTtl } := by
  rw [resetTtls, entry_forEntries (g := fun e => some { e with ttl := newTtl })
    fun _ _ _ _ _ => entry_resetTtl]
  cases w.entry id <;> rfl

end World

/-- A copy is settled once the stores still due are made, if a command has been accepted. -/
structure Settling (s : ControlState) : Prop where
  count : ∀ v, .scaleData v ∈ s.accepted →
    settled s.listeners.desiredDataCount (s.due dueCount) = s.dataListenerCount
  default : ∀ v, .setTtl v ∈ s.accepted →
    settled s.world.storage.defaultTtl (s.due dueDefault) = s.ttl
  entries : ∀ v, .setTtl v ∈ s.accepted → ∀ id e, s.world.entry id = some e →
    settled e.ttl (s.due dueReset) = s.ttl

section Step
variable {r : Root} {s s' : ControlState}

theorem Settling.answer (h : Settling s) (c : Nat) (line response : Bytes) :
    Settling (s.answer c line response) := ⟨h.count, h.default, h.entries⟩

theorem due_begin {V : Type} {store : Running → Option V} {c : Nat} {p : Running} :
    ControlState.due { s with running := s.running ++ [(c, p)] } store =
      s.due store ++ (store p).toList := filterMap_concat _ _ _

theorem Settling.begin (h : Settling s) (c : Nat) (line : Bytes) : Settling (s.begin c line) := by
  unfold ControlState.begin
  cases Command.parse line with
  | scaleData value =>
    dsimp only
    split
    · exact h.answer ..
    · refine ⟨fun _ _ => ?_, fun v hv => ?_, fun v hv id e he => ?_⟩
      · exact (congrArg _ due_begin).trans (settled_append_singleton _)
      · exact (congrArg _ (due_begin.trans (List.append_nil _))).trans
          (h.default v (by simpa using hv))
      · exact (congrArg _ (due_begin.trans (List.append_nil _))).trans
          (h.entries v (by simpa using hv) id e he)
  | setTtl seconds =>
    dsimp only
    split
    · exact h.answer ..
    · refine ⟨fun v hv => ?_, fun _ _ => ?_, fun _ _ _ _ _ => ?_⟩
      · exact (congrArg _ (due_begin.trans (List.append_nil _))).trans
          (h.count v (by simpa using hv))
      · exact (congrArg _ due_begin).trans (settled_append_singleton _)
      · exact (congrArg _ due_begin).trans (settled_append_singleton _)
  | ping => exact h.answer ..
  | status => exact h.answer ..
  | unknown => exact h.answer ..

theorem desired_updateDataListenerCount (granted : Nat) (m : ListenerManager) (newCount : Nat) :
    (m.updateDataListenerCount granted newCount).2.desiredDataCount = newCount := by
  unfold ListenerManager.updateDataListenerCount ListenerManager.ensureDataAcceptors
  dsimp only
  split
  · split <;> rfl
  · rfl

/-- What a command does next, and that what it leaves due is due no longer or due as before. -/
theorem Settling.proceed {i : Nat} {fault : Bytes → Option Fault} {granted : Nat}
    (h : Settling s) (horder : InOrder s (.proceed i fault granted))
    (hs : s.proceed r i fault granted = some s') : Settling s' := by
  unfold ControlState.proceed at hs
  cases hp : s.running[i]? with
  | none =>
    rw [hp] at hs
    cases hs
  | some p =>
    obtain ⟨c, p⟩ := p
    have hafter := horder _ (Option.mem_def.mpr hp)
    cases p with
    | scaling value =>
      have hstored : ∀ listeners : ListenerManager, listeners.desiredDataCount = value →
          ∀ closed answers, Settling { s with
            listeners, closed, answers, running := s.running.eraseIdx i } := by
        intro listeners hl closed answers
        refine ⟨fun v hv => ?_, fun v hv => ?_, fun v hv id e he => ?_⟩
        · rw [← h.count v hv, hl]
          exact settled_eraseIdx hp rfl fun q hq u hu => (hafter q hq).count rfl hu
        · rw [← h.default v hv]
          exact congrArg _ (filterMap_eraseIdx_of_none _ hp rfl)
        · rw [← h.entries v hv id e he]
          exact congrArg _ (filterMap_eraseIdx_of_none _ hp rfl)
      have hdesired := desired_updateDataListenerCount granted s.listeners value
      rw [hp] at hs
      dsimp only at hs
      rcases hu : s.listeners.updateDataListenerCount granted value with ⟨o, listeners⟩
      rw [hu] at hs hdesired
      cases o with
      | returned =>
        cases hs
        exact hstored listeners hdesired _ _
      | thrown =>
        cases hs
        exact hstored listeners hdesired _ _
    | defaulting seconds =>
      rw [hp] at hs
      cases hs
      refine ⟨fun v hv => ?_, fun v hv => ?_, fun v hv id e he => ?_⟩
      · rw [← h.count v hv]
        exact congrArg _ (filterMap_set_of_eq _ hp rfl)
      · rw [← h.default v hv]
        exact settled_set (f := fun p => dueDefault p.2) (b := (c, .resetting seconds)) hp rfl
          (fun q hq u hu => (hafter q hq).default rfl hu) rfl
      · rw [← h.entries v hv id e he]
        exact congrArg _ (filterMap_set_of_eq _ hp rfl)
    | resetting seconds =>
      rw [hp] at hs
      cases hs
      refine Settling.answer ⟨fun v hv => ?_, fun v hv => ?_, fun v hv id e he => ?_⟩ _ _ _
      · rw [← h.count v hv]
        exact congrArg _ (filterMap_eraseIdx_of_none _ hp rfl)
      · rw [← h.default v hv, defaultTtl_resetTtls]
        exact congrArg _ (filterMap_eraseIdx_of_none _ hp rfl)
      · rw [entry_resetTtls] at he
        obtain ⟨e₀, he₀, rfl⟩ := Option.map_eq_some_iff.mp he
        rw [← h.entries v hv id e₀ he₀]
        exact settled_eraseIdx hp rfl fun q hq u hu => (hafter q hq).reset hu

theorem Settling.step {event : ControlEvent} (h : Settling s) (horder : InOrder s event)
    (hs : controlStep r s event = some s') : Settling s' := by
  cases event with
  | line c line =>
    rw [controlStep] at hs
    split at hs
    · cases hs
    · split at hs
      · cases hs
        exact h
      · cases hs
        exact h.begin c line
  | proceed i fault granted => exact h.proceed horder hs
  | sweep removes now =>
    cases hs
    refine ⟨h.count, fun v hv => ?_, fun v hv id e he => ?_⟩
    · rw [← h.default v hv]
      exact congrArg (settled · _) (defaultTtl_cleanupExpired removes now)
    · exact h.entries v hv id e ((cleaned_cleanupExpired removes now s.world).entry id e he)
  | published id =>
    cases hs
    refine ⟨h.count, h.default, fun v hv id' e he => ?_⟩
    rw [entry_markPublished] at he
    split at he
    · cases he
    · exact h.entries v hv id' e he

end Step

/-- The copies agree: what `STATUS` reports is what the listeners and the storage go by. -/
structure Agreement (s : ControlState) : Prop where
  count : s.dataListenerCount = s.listeners.desiredDataCount
  default : s.sweepTtl = s.world.storage.defaultTtl
  entries : ∀ id e, s.world.entry id = some e → e.ttl = s.sweepTtl

/-- No command is in progress, and one of each kind has been carried out. -/
structure Rested (s : ControlState) : Prop where
  idle : s.running = []
  scaled : ∃ v, .scaleData v ∈ s.accepted
  ttlSet : ∃ v, .setTtl v ∈ s.accepted

/-- When no store overtakes another one, the copies agree whenever the commands have come to rest. -/
theorem copies_agree (r : Root) (world : World) (listeners : ListenerManager) (count : Nat)
    (ttl : Int) (s : ControlState)
    (hr : Reach (controlStep r) InOrder (.start world listeners count ttl) s) (hrest : Rested s) :
    Agreement s ∧ s.status = ascii "OK listeners=" ++ decimal s.listeners.desiredDataCount ++
      ascii " ttl=" ++ signedDecimal s.world.storage.defaultTtl := by
  have hstart : Settling (.start world listeners count ttl) := ⟨nofun, nofun, nofun⟩
  have hsettling := hr.invariant (P := Settling) hstart fun _ _ _ h hg hs => h.step hg hs
  obtain ⟨v, hv⟩ := hrest.scaled
  obtain ⟨t, ht⟩ := hrest.ttlSet
  have hdue : ∀ {V : Type} (store : Running → Option V), s.due store = [] := fun store => by
    rw [ControlState.due, hrest.idle]
    rfl
  have hcount := hsettling.count v hv
  have hdefault := hsettling.default t ht
  rw [hdue] at hcount hdefault
  refine ⟨⟨hcount.symm, hdefault.symm, fun id e he => ?_⟩, ?_⟩
  · have hentry := hsettling.entries t ht id e he
    rwa [hdue] at hentry
  · rw [ControlState.status, ← hcount, ← hdefault]
    rfl

/-- A tracked payload when the commands begin. -/
def sampleWorld : World := ⟨sampleFiles, ⟨AList.singleton (ascii "x") .fresh, 3600⟩⟩

def sampleStart : ControlState := .start sampleWorld ⟨2, true, 2⟩ 2 3600

instance (s : ControlState) (event : ControlEvent) : Decidable (InOrder s event) := by
  cases event <;> unfold InOrder <;> infer_instance

/-- Two overlapping commands of different kinds. -/
theorem copies_agree_sample : ∃ s : ControlState, Rested s ∧ s.ttl = 60 ∧ Agreement s := by
  let events : List ControlEvent :=
    [.line 0 (ascii "SCALE_DATA 3"), .line 1 (ascii "SET_TTL 60"), .proceed 1 (fun _ => none) 0,
      .proceed 1 (fun _ => none) 0, .proceed 0 (fun _ => none) 1]
  have hrun : (runIf (controlStep .sample) (fun s event => decide (InOrder s event)) sampleStart
      events).any (fun s => s.running = [] ∧ s.ttl = 60 ∧
        s.accepted = [.scaleData 3, .setTtl 60]) = true := by decide +kernel
  obtain ⟨s, hs, hend⟩ := (Option.any_eq_true ..).mp hrun
  obtain ⟨hidle, httl, haccepted⟩ := of_decide_eq_true hend
  have hrest : Rested s := ⟨hidle, ⟨3, by simp [haccepted]⟩, ⟨60, by simp [haccepted]⟩⟩
  have hreach : Reach (controlStep .sample) InOrder sampleStart s :=
    .of_runIf (fun _ _ => of_decide_eq_true) hs
  exact ⟨s, hrest, httl, (copies_agree .sample _ _ _ _ s hreach hrest).1⟩

/-- Between the two stores of one `SET_TTL` another one makes both of its own. -/
theorem copies_agree_fails : ¬ ∀ (r : Root) (world : World) (listeners : ListenerManager)
    (count : Nat) (ttl : Int) (s : ControlState),
    Reachable (controlStep r) (.start world listeners count ttl) s → Rested s → Agreement s := by
  intro hclaim
  let events : List ControlEvent :=
    [.line 0 (ascii "SCALE_DATA 3"), .proceed 0 (fun _ => none) 1,
      .line 0 (ascii "SET_TTL 60"), .line 1 (ascii "SET_TTL 7200"),
      .proceed 1 (fun _ => none) 0, .proceed 1 (fun _ => none) 0,
      .proceed 0 (fun _ => none) 0, .proceed 0 (fun _ => none) 0]
  have hrun : (run (controlStep .sample) sampleStart events).any (fun s => s.running = [] ∧
      s.ttl = 7200 ∧ s.world.storage.defaultTtl = 60 ∧
      s.accepted = [.scaleData 3, .setTtl 60, .setTtl 7200]) = true := by decide +kernel
  obtain ⟨s, hs, hend⟩ := (Option.any_eq_true ..).mp hrun
  obtain ⟨hidle, httl, hdefault, haccepted⟩ := of_decide_eq_true hend
  have hrest : Rested s := ⟨hidle, ⟨3, by simp [haccepted]⟩, ⟨60, by simp [haccepted]⟩⟩
  have hagree := (hclaim .sample _ _ _ _ s (.of_run hs) hrest).default
  rw [ControlState.sweepTtl, httl, hdefault] at hagree
  cases hagree

end SuperVoice.Server
