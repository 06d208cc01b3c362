import SuperVoice.Lib.Transition

/-! Connections on which many threads send events, and one thread ends with a last frame and a
close, each in a step of its own. -/
namespace LastFrame
open Transition
variable {σ ω δ φ : Type*}

/-- A connection that hands over one frame for what is sent, or closes if it cannot; `ω` is what
any thread sends, `δ` what the last frame is made of. -/
structure Connection (σ ω δ φ : Type*) where
  send : σ → ω ⊕ δ → Option σ
  close : σ → σ
  frame : ω ⊕ δ → φ
  /-- The frames that have been handed over. -/
  sent : σ → List φ
  closed : σ → Bool
  /-- The next frame is handed over. -/
  takes : σ → Bool
  Ready : σ → Prop
  ready_send : ∀ {s x s'}, Ready s → send s x = some s' → Ready s'
  ready_close : ∀ {s}, Ready s → Ready (close s)
  taken : ∀ {s x s'}, Ready s → takes s = true → send s x = some s' → sent s' = sent s ++ [frame x]
  untaken : ∀ {s x s'}, Ready s → takes s = false → send s x = some s' →
    sent s' = sent s ∧ closed s' = true
  takes_closed : ∀ {s}, closed s = true → takes s = false
  close_spec : ∀ s, sent (close s) = sent s ∧ closed (close s) = true

inductive Action (ω δ : Type*) where
  | send (event : ω)
  | done (final : δ)
  | close

/-- How far the thread that ends the connection has come, with the frames handed over before its
own and that frame. -/
inductive Phase (φ : Type*) where
  | before
  | between (front : List φ) (last : φ)
  | after (front : List φ) (last : φ)

structure State (σ φ : Type*) where
  connection : σ
  phase : Phase φ := .before

namespace Connection
variable (connection : Connection σ ω δ φ)

def step (s : State σ φ) : Action ω δ → Option (State σ φ)
  | .send event => (connection.send s.connection (.inl event)).map fun c => { s with connection := c }
  | .done final =>
    match s.phase with
    | .before => (connection.send s.connection (.inr final)).map fun c =>
        ⟨c, .between (connection.sent s.connection) (connection.frame (.inr final))⟩
    | .between .. | .after .. => none
  | .close =>
    match s.phase with
    | .between front last => some ⟨connection.close s.connection, .after front last⟩
    | .before | .after .. => none

/-- Nothing has been handed over behind the last frame. -/
def Ends (s : State σ φ) : Prop :=
  match s.phase with
  | .before => True
  | .between front last | .after front last =>
    connection.sent s.connection = front ++ [last] ∨ connection.sent s.connection = front

/-- No event comes between the last frame and the close while frames are still taken. -/
def Undisturbed (s : State σ φ) (action : Action ω δ) : Prop :=
  ∀ event front last, action = .send event → s.phase = .between front last →
    connection.takes s.connection = false

/-- What holds however the threads take turns. -/
structure Sound (s : State σ φ) : Prop where
  ready : connection.Ready s.connection
  between : ∀ front last, s.phase = .between front last →
    (∃ later, connection.sent s.connection = front ++ last :: later) ∨
      connection.closed s.connection = true
  after : ∀ front last, s.phase = .after front last → connection.closed s.connection = true

section
variable {connection} {s s' : State σ φ} {action : Action ω δ}

theorem step_cases (hs : connection.step s action = some s') :
    (∃ event c, action = .send event ∧ connection.send s.connection (.inl event) = some c ∧
      s' = { s with connection := c }) ∨
    (∃ final c, action = .done final ∧ connection.send s.connection (.inr final) = some c ∧
      s' = ⟨c, .between (connection.sent s.connection) (connection.frame (.inr final))⟩) ∨
    (∃ front last, action = .close ∧ s.phase = .between front last ∧
      s' = ⟨connection.close s.connection, .after front last⟩) := by
  cases action with
  | send event =>
    obtain ⟨c, hc, rfl⟩ := Option.map_eq_some_iff.mp hs
    exact .inl ⟨event, c, rfl, hc, rfl⟩
  | done final =>
    rw [step] at hs
    cases hphase : s.phase with
    | before =>
      rw [hphase] at hs
      obtain ⟨c, hc, rfl⟩ := Option.map_eq_some_iff.mp hs
      exact .inr (.inl ⟨final, c, rfl, hc, rfl⟩)
    | between front last => rw [hphase] at hs; cases hs
    | after front last => rw [hphase] at hs; cases hs
  | close =>
    rw [step] at hs
    cases hphase : s.phase with
    | before => rw [hphase] at hs; cases hs
    | between front last =>
      rw [hphase] at hs
      cases hs
      exact .inr (.inr ⟨front, last, rfl, rfl, rfl⟩)
    | after front last => rw [hphase] at hs; cases hs

/-- A connection that has been closed stays closed. -/
theorem closed_send {c c' : σ} {x : ω ⊕ δ} (hready : connection.Ready c)
    (hclosed : connection.closed c = true) (h : connection.send c x = some c') :
    connection.closed c' = true :=
  (connection.untaken hready (connection.takes_closed hclosed) h).2

theorem Sound.step (h : connection.Sound s) (hs : connection.step s action = some s') :
    connection.Sound s' := by
  rcases step_cases hs with ⟨event, c, -, hc, rfl⟩ | ⟨final, c, -, hc, rfl⟩ |
    ⟨front, last, -, hphase, rfl⟩
  · constructor
    case ready => exact connection.ready_send h.ready hc
    case between =>
      intro front last hphase
      rcases h.between front last hphase with ⟨later, hlater⟩ | hclosed
      · cases htakes : connection.takes s.connection with
        | true =>
          left
          refine ⟨later ++ [connection.frame (.inl event)], ?_⟩
          rw [connection.taken h.ready htakes hc, hlater, List.append_assoc, List.cons_append]
        | false => exact .inr (connection.untaken h.ready htakes hc).2
      · exact .inr (closed_send h.ready hclosed hc)
    case after => exact fun front last hphase => closed_send h.ready (h.after front last hphase) hc
  · constructor
    case ready => exact connection.ready_send h.ready hc
    case between =>
      intro front last hphase
      cases hphase
      cases htakes : connection.takes s.connection with
      | true => exact .inl ⟨[], connection.taken h.ready htakes hc⟩
      | false => exact .inr (connection.untaken h.ready htakes hc).2
    case after => exact fun _ _ hphase => by cases hphase
  · constructor
    case ready => exact connection.ready_close h.ready
    case between => exact fun _ _ hphase => by cases hphase
    case after => exact fun _ _ _ => (connection.close_spec s.connection).2

/-- An event behind the last frame is handed over exactly if frames are taken. -/
theorem ends_send_iff {c : σ} {event : ω} {front : List φ} {last : φ} (h : connection.Sound s)
    (hends : connection.Ends s) (hphase : s.phase = .between front last)
    (hc : connection.send s.connection (.inl event) = some c) :
    (connection.sent c = front ++ [last] ∨ connection.sent c = front) ↔
      connection.takes s.connection = false := by
  rw [Ends, hphase] at hends
  dsimp only at hends
  cases htakes : connection.takes s.connection with
  | false =>
    rw [(connection.untaken h.ready htakes hc).1]
    exact iff_of_true hends rfl
  | true =>
    apply iff_of_false _ Bool.noConfusion
    have hopen : connection.closed s.connection ≠ true := by
      intro hclosed
      rw [connection.takes_closed hclosed] at htakes
      cases htakes
    obtain ⟨later, hlater⟩ := (h.between front last hphase).resolve_right hopen
    rw [connection.taken h.ready htakes hc, hlater]
    intro heq
    rcases heq with heq | heq
    · have hlength := congrArg List.length heq
      simp at hlength
    · have hlength := congrArg List.length heq
      simp at hlength

theorem Ends.step_iff (h : connection.Sound s) (hends : connection.Ends s)
    (hs : connection.step s action = some s') :
    connection.Ends s' ↔ connection.Undisturbed s action := by
  rcases step_cases hs with ⟨event, c, rfl, hc, rfl⟩ | ⟨final, c, rfl, hc, rfl⟩ |
    ⟨front, last, rfl, hphase, rfl⟩
  · have hundisturbed : connection.Undisturbed s (.send event) ↔
        ∀ front last, s.phase = .between front last → connection.takes s.connection = false :=
      ⟨fun hu front last => hu event front last rfl, fun hu _ front last _ => hu front last⟩
    rw [hundisturbed]
    cases hphase : s.phase with
    | before => exact iff_of_true trivial fun _ _ h => by cases h
    | between front last =>
      rw [Ends]
      dsimp only
      rw [ends_send_iff h hends hphase hc]
      exact ⟨fun htakes _ _ _ => htakes, fun hu => hu front last rfl⟩
    | after front last =>
      have huntaken := connection.takes_closed (h.after front last hphase)
      rw [Ends, hphase] at hends
      rw [Ends]
      dsimp only at hends ⊢
      rw [(connection.untaken h.ready huntaken hc).1]
      exact iff_of_true hends fun _ _ h => by cases h
  · apply iff_of_true
    · rw [Ends]
      dsimp only
      cases htakes : connection.takes s.connection with
      | true => exact .inl (connection.taken h.ready htakes hc)
      | false => exact .inr (connection.untaken h.ready htakes hc).1
    · exact fun _ _ _ h => by cases h
  · apply iff_of_true
    · rw [Ends, hphase] at hends
      rw [Ends]
      dsimp only
      rw [(connection.close_spec s.connection).1]
      exact hends
    · exact fun _ _ _ h => by cases h

end

/-- The last frame is the last exactly in the runs in which no event comes between it and the
close. -/
theorem ends_iff {start : σ} (hready : connection.Ready start) (actions : List (Action ω δ)) :
    Along connection.step connection.Ends (fun _ _ _ => True) ⟨start, .before⟩ actions ↔
      Meets connection.step connection.Undisturbed ⟨start, .before⟩ actions := by
  apply along_iff_meets (Q := connection.Sound)
  · exact fun s action s' h hs => h.step hs
  · exact fun _ _ _ _ _ => trivial
  · exact fun s action s' h hends hs => Ends.step_iff h hends hs
  · constructor
    case ready => exact hready
    case between => exact fun _ _ h => by cases h
    case after => exact fun _ _ h => by cases h
  · trivial

end Connection

end LastFrame
