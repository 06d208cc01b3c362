import SuperVoice.Lib.ByteStream
import SuperVoice.Lib.Text
import SuperVoice.Server.Control

/-! `ControlPlane::handle_socket`: every control connection is read line by line through a buffer of
its own, while the commands of all connections interleave. -/
namespace SuperVoice.Server
open Bytes ByteStream Text Transition

/-- The line that ends a connection once it is answered. -/
def isLast (line : Bytes) : Bool := line = ascii "QUIT" ∨ line = ascii "EXIT"

/-- The commands of a stream: its complete lines without the empty ones, up to the last. -/
def sessionLines (text : Bytes) : List Bytes :=
  through isLast ((terminated text).filter (· ≠ []))

/-- The entries of a connection. -/
def own {V : Type} (l : List (Nat × V)) (c : Nat) : List V :=
  l.filterMap fun p => if p.1 = c then some p.2 else none

structure Sessions where
  control : ControlState
  /-- What each connection has buffered and what has yet to arrive on it. -/
  sockets : Nat → Source

inductive SessionEvent where
  /-- `read_until` and `getline`, and the line as far as its first store. -/
  | read (c : Nat)
  /-- A read that throws between two commands. -/
  | fail (c : Nat)
  | control (event : ControlEvent)
  /-- A step whose answer cannot be written. -/
  | unsent (event : SessionEvent)

namespace Sessions

def waits (s : Sessions) (c : Nat) : Bool :=
  c ∉ s.control.closed ∧ c ∉ s.control.running.map Prod.fst

def disconnect (s : Sessions) (c : Nat) : Sessions :=
  { s with control := { s.control with closed := c :: s.control.closed } }

def answersTo (s : Sessions) (c : Nat) : List Bytes := own s.control.answers c

def busy (s : Sessions) (c : Nat) : List Running := own s.control.running c

/-- The write of an answer throws: the connection ends without it, and what the command has done
stays. -/
def withhold (answers : List (Nat × Bytes)) (s : Sessions) : Option Sessions :=
  match s.control.answers.drop answers.length with
  | [] => none
  | (c, _) :: _ => some { s with
      control := { s.control with answers, closed := c :: s.control.closed } }

end Sessions

def sessionStep (r : Root) (ask : Nat → Nat) (s : Sessions) : SessionEvent → Option Sessions
  | .read c =>
    if s.waits c then
      match readLine ask (s.sockets c) with
      | none => some (s.disconnect c)
      | some (line, socket) => (controlStep r s.control (.line c line)).map fun control =>
          { control, sockets := Function.update s.sockets c socket }
    else none
  | .fail c => if s.waits c then some (s.disconnect c) else none
  | .control (.line ..) => none
  | .control event => (controlStep r s.control event).map fun control => { s with control }
  | .unsent event => (sessionStep r ask s event).bind (Sessions.withhold s.control.answers)

section Own
variable {V : Type} {l : List (Nat × V)} {c c' : Nat} {v : V}

theorem own_concat_self : own (l ++ [(c, v)]) c = own l c ++ [v] := by
  rw [own, filterMap_concat, if_pos rfl]
  rfl

theorem own_concat_of_ne (hc : c' ≠ c) : own (l ++ [(c, v)]) c' = own l c' := by
  rw [own, filterMap_concat, if_neg (Ne.symm hc), Option.toList_none, List.append_nil]
  rfl

/-- The only entry of a connection is replaced or taken out. -/
theorem own_of_singleton {i : Nat} {w : V} (h : l[i]? = some (c, v)) (hown : own l c = [v]) :
    own (l.set i (c, w)) c = [w] ∧ own (l.eraseIdx i) c = [] := by
  rw [own, filterMap_getElem _ h, if_pos rfl] at hown
  have hlen := congrArg List.length hown
  simp only [Option.toList_some, List.length_append, List.length_singleton] at hlen
  have hbefore := List.eq_nil_of_length_eq_zero (l := (l.take i).filterMap fun p : Nat × V =>
    if p.1 = c then some p.2 else none) (by omega)
  have hafter := List.eq_nil_of_length_eq_zero (l := (l.drop (i + 1)).filterMap fun p : Nat × V =>
    if p.1 = c then some p.2 else none) (by omega)
  constructor
  · rw [own, filterMap_set _ h, if_pos rfl, hbefore, hafter]
    rfl
  · rw [own, filterMap_eraseIdx, hbefore, hafter]
    rfl

theorem own_set_of_ne {i : Nat} {w : V} (h : l[i]? = some (c, v)) (hc : c' ≠ c) :
    own (l.set i (c, w)) c' = own l c' :=
  filterMap_set_of_eq _ h (by rw [if_neg (Ne.symm hc), if_neg (Ne.symm hc)])

theorem own_eraseIdx_of_ne {i : Nat} (h : l[i]? = some (c, v)) (hc : c' ≠ c) :
    own (l.eraseIdx i) c' = own l c' :=
  filterMap_eraseIdx_of_none _ h (if_neg (Ne.symm hc))

end Own

section Lines
variable {line rest : Bytes}

theorem sessionLines_of_nil : sessionLines (newline :: rest) = sessionLines rest := by
  have h : terminated (newline :: rest) = [] :: terminated rest :=
    terminated_cons List.not_mem_nil
  rw [sessionLines, h]
  rfl

theorem sessionLines_cons (hline : newline ∉ line) (hne : line ≠ []) :
    sessionLines (line ++ newline :: rest) =
      if isLast line then [line] else line :: sessionLines rest := by
  rw [sessionLines, terminated_cons hline, List.filter_cons_of_pos (by simpa using hne), through]
  rfl

end Lines

/-- The settings are those of the start or those of commands that were accepted. -/
structure Reported (count₀ : Nat) (ttl₀ : Int) (accepted : List Command) (count : Nat) (ttl : Int) :
    Prop where
  count : count = count₀ ∨ .scaleData count ∈ accepted
  ttl : ttl = ttl₀ ∨ .setTtl ttl ∈ accepted

/-- What a command may be answered, after those in `accepted`. -/
inductive Replies (count₀ : Nat) (ttl₀ : Int) (accepted : List Command) : Command → Bytes → Prop
  | noCount : Replies count₀ ttl₀ accepted (.scaleData 0)
      (ascii "ERR data listener count must be > 0")
  | scaled {value : Nat} (hpos : 0 < value) (h : .scaleData value ∈ accepted) :
      Replies count₀ ttl₀ accepted (.scaleData value) (ascii "OK data listeners=" ++ decimal value)
  | noTtl {seconds : Int} (h : seconds ≤ 0) :
      Replies count₀ ttl₀ accepted (.setTtl seconds) (ascii "ERR ttl must be positive")
  | ttlSet {seconds : Int} (hpos : 0 < seconds) (h : .setTtl seconds ∈ accepted) :
      Replies count₀ ttl₀ accepted (.setTtl seconds) (ascii "OK ttl=" ++ signedDecimal seconds)
  | pong : Replies count₀ ttl₀ accepted .ping (ascii "PONG")
  | status {count : Nat} {ttl : Int} (h : Reported count₀ ttl₀ accepted count ttl) :
      Replies count₀ ttl₀ accepted .status
        (ascii "OK listeners=" ++ decimal count ++ ascii " ttl=" ++ signedDecimal ttl)
  | unknown : Replies count₀ ttl₀ accepted .unknown (ascii "ERR unknown command")

/-- The command that has come this far. -/
def Running.command : Running → Command
  | .scaling value => .scaleData value
  | .defaulting seconds | .resetting seconds => .setTtl seconds

/-- What it will be answered if nothing throws. -/
def Running.reply : Running → Bytes
  | .scaling value => ascii "OK data listeners=" ++ decimal value
  | .defaulting seconds | .resetting seconds => ascii "OK ttl=" ++ signedDecimal seconds

/-- How far a connection has come with its lines: whether it is closed, the command it has in
progress, and the lines that have been answered. -/
inductive Stage (text rest : Bytes) (replies : Command → Bytes → Prop) :
    Bool → List Running → List Bytes → Prop
  | closed {done : List Bytes} (h : done <+: sessionLines text) :
      Stage text rest replies true [] done
  | waiting {done : List Bytes} (h : sessionLines text = done ++ sessionLines rest) :
      Stage text rest replies false [] done
  | running {done : List Bytes} {line : Bytes} {p : Running}
      (h : sessionLines text = done ++ line :: sessionLines rest)
      (hparse : Command.parse line = p.command) (hreply : replies p.command p.reply) :
      Stage text rest replies false [p] done

/-- Every line that has been dealt with has its answer, in order. -/
def Answered (text rest : Bytes) (replies : Command → Bytes → Prop) (closed : Bool)
    (busy : List Running) (answers : List Bytes) : Prop :=
  ∃ done, Stage text rest replies closed busy done ∧ List.Forall₂ (fun line answer =>
    ∃ reply, replies (Command.parse line) reply ∧ answer = reply ++ [newline]) done answers

section Control
variable {r : Root} {s s' : ControlState} {count₀ : Nat} {ttl₀ : Int}

theorem Reported.mono {accepted accepted' : List Command} {count : Nat} {ttl : Int}
    (h : Reported count₀ ttl₀ accepted count ttl) (hsub : accepted ⊆ accepted') :
    Reported count₀ ttl₀ accepted' count ttl :=
  ⟨h.count.imp_right fun hm => hsub hm, h.ttl.imp_right fun hm => hsub hm⟩

theorem Reported.trans {accepted new : List Command} {count count' : Nat} {ttl ttl' : Int}
    (h : Reported count₀ ttl₀ accepted count ttl) (h' : Reported count ttl new count' ttl') :
    Reported count₀ ttl₀ (accepted ++ new) count' ttl' := by
  refine ⟨?_, ?_⟩
  · obtain rfl | hm := h'.count
    · exact h.count.imp_right fun hm => List.mem_append_left _ hm
    · exact .inr (List.mem_append_right _ hm)
  · obtain rfl | hm := h'.ttl
    · exact h.ttl.imp_right fun hm => List.mem_append_left _ hm
    · exact .inr (List.mem_append_right _ hm)

theorem Replies.mono {accepted accepted' : List Command} {command : Command} {reply : Bytes}
    (h : Replies count₀ ttl₀ accepted command reply) (hsub : accepted ⊆ accepted') :
    Replies count₀ ttl₀ accepted' command reply := by
  cases h with
  | noCount => exact .noCount
  | scaled hpos h => exact .scaled hpos (hsub h)
  | noTtl h => exact .noTtl h
  | ttlSet hpos h => exact .ttlSet hpos (hsub h)
  | pong => exact .pong
  | status h => exact .status (h.mono hsub)
  | unknown => exact .unknown

/-- The settings of `s` can be accounted for. -/
abbrev ControlState.Accounted (count₀ : Nat) (ttl₀ : Int) (s : ControlState) : Prop :=
  Reported count₀ ttl₀ s.accepted s.dataListenerCount s.ttl

/-- `QUIT` and `EXIT` are no commands. -/
theorem not_isLast_of_parse {line : Bytes} (h : Command.parse line ≠ .unknown) :
    isLast line = false := by
  rw [isLast, decide_eq_false_iff_not]
  rintro (rfl | rfl)
  · exact h (by decide +kernel)
  · exact h (by decide +kernel)

/-- A line is answered at once or begins a command that is accepted. -/
inductive Begun (count₀ : Nat) (ttl₀ : Int) (s : ControlState) (c : Nat) (line : Bytes) :
    ControlState → Prop
  | answered {reply : Bytes} (h : Replies count₀ ttl₀ s.accepted (Command.parse line) reply) :
      Begun count₀ ttl₀ s c line (s.answer c line reply)
  | accepted {p : Running} {count : Nat} {ttl : Int} (hparse : Command.parse line = p.command)
      (hreply : Replies count₀ ttl₀ [p.command] p.command p.reply)
      (hset : Reported s.dataListenerCount s.ttl [p.command] count ttl) :
      Begun count₀ ttl₀ s c line { s with
        dataListenerCount := count
        ttl
        running := s.running ++ [(c, p)]
        accepted := s.accepted ++ [p.command] }

theorem begun_begin (h : s.Accounted count₀ ttl₀) (c : Nat) (line : Bytes) :
    Begun count₀ ttl₀ s c line (s.begin c line) := by
  unfold ControlState.begin
  cases hparse : Command.parse line with
  | scaleData value =>
    dsimp only
    split
    · next hzero =>
      subst hzero
      exact .answered (hparse ▸ .noCount)
    · next hzero =>
      exact .accepted (p := .scaling value) hparse
        (.scaled (Nat.pos_of_ne_zero hzero) (List.mem_singleton.mpr rfl))
        ⟨.inr (List.mem_singleton.mpr rfl), .inl rfl⟩
  | setTtl seconds =>
    dsimp only
    split
    · next hle => exact .answered (hparse ▸ .noTtl hle)
    · next hle =>
      exact .accepted (p := .defaulting seconds) hparse
        (.ttlSet (Int.not_le.mp hle) (List.mem_singleton.mpr rfl))
        ⟨.inl rfl, .inr (List.mem_singleton.mpr rfl)⟩
  | ping => exact .answered (hparse ▸ .pong)
  | status => exact .answered (hparse ▸ .status h)
  | unknown => exact .answered (hparse ▸ .unknown)

/-- A command makes its next store, or it is answered, or it throws. -/
inductive Proceeded (s : ControlState) (i : Nat) (s' : ControlState) : Prop
  | stored {c : Nat} {p q : Running} (hp : s.running[i]? = some (c, p))
      (hcommand : q.command = p.command) (hreply : q.reply = p.reply)
      (hrunning : s'.running = s.running.set i (c, q)) (hanswers : s'.answers = s.answers)
      (hclosed : s'.closed = s.closed)
  | answered {c : Nat} {p : Running} (hp : s.running[i]? = some (c, p))
      (hrunning : s'.running = s.running.eraseIdx i)
      (hanswers : s'.answers = s.answers ++ [(c, p.reply ++ [newline])])
      (hclosed : s'.closed = s.closed)
  | thrown {c : Nat} {p : Running} (hp : s.running[i]? = some (c, p))
      (hrunning : s'.running = s.running.eraseIdx i) (hanswers : s'.answers = s.answers)
      (hclosed : s'.closed = c :: s.closed)

theorem proceeded_proceed {i : Nat} {fault : Bytes → Option FileStore.Fault} {granted : Nat}
    (hs : s.proceed r i fault granted = some s') : Proceeded s i s' ∧
      s'.accepted = s.accepted ∧ s'.dataListenerCount = s.dataListenerCount ∧ s'.ttl = s.ttl := by
  unfold ControlState.proceed at hs
  cases hp : s.running[i]? with
  | none =>
    rw [hp] at hs
    cases hs
  | some p =>
    obtain ⟨c, p⟩ := p
    rw [hp] at hs
    cases p with
    | scaling value =>
      dsimp only at hs
      rcases hu : s.listeners.updateDataListenerCount granted value with ⟨o, listeners⟩
      rw [hu] at hs
      cases o with
      | returned =>
        cases hs
        exact ⟨.answered hp rfl rfl rfl, rfl, rfl, rfl⟩
      | thrown =>
        cases hs
        exact ⟨.thrown hp rfl rfl rfl, rfl, rfl, rfl⟩
    | defaulting seconds =>
      cases hs
      exact ⟨.stored (q := .resetting seconds) hp rfl rfl rfl rfl rfl, rfl, rfl, rfl⟩
    | resetting seconds =>
      cases hs
      exact ⟨.answered hp rfl rfl rfl, rfl, rfl, rfl⟩

end Control

section Answered
variable {text rest line reply : Bytes} {R R' : Command → Bytes → Prop} {closed : Bool}
  {busy : List Running} {answers : List Bytes} {p q : Running} {s : Source}

theorem Answered.mono (h : Answered text rest R closed busy answers)
    (hR : ∀ command reply, R command reply → R' command reply) :
    Answered text rest R' closed busy answers := by
  obtain ⟨done, hstage, hanswers⟩ := h
  refine ⟨done, ?_, hanswers.imp fun _ _ ⟨reply, hr, he⟩ => ⟨reply, hR _ _ hr, he⟩⟩
  cases hstage with
  | closed h => exact .closed h
  | waiting h => exact .waiting h
  | running h hparse hreply => exact .running h hparse (hR _ _ hreply)

theorem Answered.disconnect (h : Answered text rest R false [] answers) :
    Answered text rest R true [] answers := by
  obtain ⟨done, hstage, hanswers⟩ := h
  cases hstage with
  | waiting h => exact ⟨done, .closed (h ▸ List.prefix_append _ _), hanswers⟩

theorem Answered.skip (h : Answered text (newline :: rest) R false [] answers) :
    Answered text rest R false [] answers := by
  obtain ⟨done, hstage, hanswers⟩ := h
  cases hstage with
  | waiting h =>
    rw [sessionLines_of_nil] at h
    exact ⟨done, .waiting h, hanswers⟩

variable (hline : newline ∉ line) (hne : line ≠ [])

include hline hne in
theorem Answered.answer (h : Answered text (line ++ newline :: rest) R false [] answers)
    (hreply : R (Command.parse line) reply) :
    Answered text rest R (isLast line) [] (answers ++ [reply ++ [newline]]) := by
  obtain ⟨done, hstage, hanswers⟩ := h
  refine ⟨done ++ [line], ?_, List.rel_append hanswers (.cons ⟨reply, hreply, rfl⟩ .nil)⟩
  cases hstage with
  | waiting h =>
    rw [sessionLines_cons hline hne] at h
    cases hlast : isLast line with
    | true =>
      rw [if_pos hlast] at h
      exact .closed (h ▸ List.prefix_refl _)
    | false =>
      rw [hlast, if_neg Bool.false_ne_true] at h
      exact .waiting (by rw [h, List.append_assoc, List.singleton_append])

include hline hne in
theorem Answered.begin (h : Answered text (line ++ newline :: rest) R false [] answers)
    (hparse : Command.parse line = p.command) (hreply : R p.command p.reply) :
    Answered text rest R false [p] answers := by
  have hlast : isLast line = false :=
    not_isLast_of_parse (by cases p <;> simp [hparse, Running.command])
  obtain ⟨done, hstage, hanswers⟩ := h
  cases hstage with
  | waiting h =>
    rw [sessionLines_cons hline hne, hlast, if_neg Bool.false_ne_true] at h
    exact ⟨done, .running h hparse hreply, hanswers⟩

theorem Answered.store (h : Answered text rest R false [p] answers) (hcommand : q.command = p.command)
    (hreply : q.reply = p.reply) : Answered text rest R false [q] answers := by
  obtain ⟨done, hstage, hanswers⟩ := h
  cases hstage with
  | running h hparse hr =>
    exact ⟨done, .running h (hparse.trans hcommand.symm) (by rwa [hcommand, hreply]), hanswers⟩

theorem Answered.finish (h : Answered text rest R false [p] answers) :
    Answered text rest R false [] (answers ++ [p.reply ++ [newline]]) := by
  obtain ⟨done, hstage, hanswers⟩ := h
  cases hstage with
  | @running _ line _ h hparse hr =>
    refine ⟨done ++ [line], .waiting ?_, List.rel_append hanswers (.cons ⟨p.reply, ?_, rfl⟩ .nil)⟩
    · rw [h, List.append_assoc, List.singleton_append]
    · rwa [hparse]

theorem Answered.throw (h : Answered text rest R false [p] answers) :
    Answered text rest R true [] answers := by
  obtain ⟨done, hstage, hanswers⟩ := h
  cases hstage with
  | running h hparse hr => exact ⟨done, .closed (h ▸ List.prefix_append _ _), hanswers⟩

/-- Without its last answer a connection that has no command in progress can still be closed. -/
theorem Answered.withhold {answer : Bytes}
    (h : Answered text rest R closed [] (answers ++ [answer])) :
    Answered text rest R true [] answers := by
  obtain ⟨done, hstage, hanswers⟩ := h
  have hdone : done <+: sessionLines text := by
    cases hstage with
    | closed h => exact h
    | waiting h => exact h ▸ List.prefix_append _ _
  refine ⟨done.take answers.length, .closed ((List.take_prefix _ _).trans hdone), ?_⟩
  exact List.forall₂_take_append done answers [answer] hanswers

/-- A connection with a command in progress has only that one and is open. -/
theorem Answered.of_busy (h : Answered text rest R closed busy answers) (hp : p ∈ busy) :
    busy = [p] ∧ closed = false := by
  obtain ⟨done, hstage, -⟩ := h
  cases hstage with
  | closed | waiting => cases hp
  | running => exact ⟨by rw [List.mem_singleton.mp hp], rfl⟩

end Answered

/-- Of every connection: what it has been answered, and what it has still to be answered. -/
structure AllAnswered (count₀ : Nat) (ttl₀ : Int) (texts : Nat → Bytes) (s : Sessions) : Prop where
  accounted : s.control.Accounted count₀ ttl₀
  served : ∀ c, Answered (texts c) (s.sockets c).pending (Replies count₀ ttl₀ s.control.accepted)
    (c ∈ s.control.closed) (s.busy c) (s.answersTo c)

section Step
variable {r : Root} {ask : Nat → Nat} {s s' : Sessions} {count₀ : Nat} {ttl₀ : Int}
  {texts : Nat → Bytes} {c : Nat}

theorem busy_of_waits (h : s.waits c = true) : c ∉ s.control.closed ∧ s.busy c = [] := by
  obtain ⟨hopen, hidle⟩ := of_decide_eq_true h
  refine ⟨hopen, List.filterMap_eq_nil_iff.mpr fun p hp => ?_⟩
  rw [if_neg]
  intro hc
  exact hidle (List.mem_map.mpr ⟨p, hp, hc⟩)

/-- A connection that waits is neither closed nor busy. -/
theorem AllAnswered.of_waits (h : AllAnswered count₀ ttl₀ texts s) (hw : s.waits c = true) :
    Answered (texts c) (s.sockets c).pending (Replies count₀ ttl₀ s.control.accepted) false []
      (s.answersTo c) := by
  obtain ⟨hopen, hbusy⟩ := busy_of_waits hw
  have hc := h.served c
  rwa [hbusy, decide_eq_false hopen] at hc

/-- A connection with a command in progress is open, and busy with nothing else. -/
theorem AllAnswered.of_running (h : AllAnswered count₀ ttl₀ texts s) {i : Nat} {p : Running}
    (hp : s.control.running[i]? = some (c, p)) : s.busy c = [p] ∧ c ∉ s.control.closed ∧
      Answered (texts c) (s.sockets c).pending (Replies count₀ ttl₀ s.control.accepted) false [p]
        (s.answersTo c) := by
  have hmem : p ∈ s.busy c :=
    List.mem_filterMap.mpr ⟨(c, p), List.mem_of_getElem? hp, if_pos rfl⟩
  have hc := h.served c
  obtain ⟨hbusy, hopen⟩ := hc.of_busy hmem
  refine ⟨hbusy, of_decide_eq_false hopen, ?_⟩
  rwa [hbusy, hopen] at hc

/-- What is left of a connection's stream, and how far it has come, read off its parts. -/
theorem Answered.of_parts {text rest : Bytes} {R : Command → Bytes → Prop} {closed : Bool}
    {busy : List Running} {answers : List Bytes} (h : Answered text rest R closed busy answers)
    (hrest : (s.sockets c).pending = rest) (hclosed : decide (c ∈ s.control.closed) = closed)
    (hbusy : s.busy c = busy) (hanswers : s.answersTo c = answers) :
    Answered text (s.sockets c).pending R (c ∈ s.control.closed) (s.busy c) (s.answersTo c) := by
  subst hrest hclosed hbusy hanswers
  exact h

theorem AllAnswered.disconnect (h : AllAnswered count₀ ttl₀ texts s) (hw : s.waits c = true) :
    AllAnswered count₀ ttl₀ texts (s.disconnect c) := by
  refine ⟨h.accounted, fun c' => ?_⟩
  by_cases hc : c' = c
  · subst hc
    exact (h.of_waits hw).disconnect.of_parts rfl (decide_eq_true List.mem_cons_self)
      (busy_of_waits hw).2 rfl
  · exact (h.served c').of_parts rfl (by simp [Sessions.disconnect, hc]) rfl rfl

theorem mem_closed_answer (control : ControlState) {line reply : Bytes} (hopen : c ∉ control.closed) :
    decide (c ∈ (control.answer c line reply).closed) = isLast line := by
  rw [isLast, decide_eq_decide]
  simp only [ControlState.answer]
  split
  · next h => exact iff_of_true List.mem_cons_self h
  · next h => exact iff_of_false hopen h

theorem mem_closed_answer_of_ne (control : ControlState) {c' : Nat} {line reply : Bytes}
    (hc : c' ≠ c) : c' ∈ (control.answer c line reply).closed ↔ c' ∈ control.closed := by
  simp only [ControlState.answer]
  split
  · simp [hc]
  · rfl

/-- The line is the next of its stream and is answered at once or is in progress. -/
theorem AllAnswered.line (h : AllAnswered count₀ ttl₀ texts s) (hw : s.waits c = true) {line : Bytes}
    {socket : Source} {control : ControlState} (hline : newline ∉ line)
    (hpending : (s.sockets c).pending = line ++ newline :: socket.pending)
    (hs : controlStep r s.control (.line c line) = some control) : AllAnswered count₀ ttl₀ texts
      { control, sockets := Function.update s.sockets c socket } := by
  have hserved := h.of_waits hw
  obtain ⟨hopen, hbusy⟩ := busy_of_waits hw
  have hrest : ((Function.update s.sockets c socket) c).pending = socket.pending := by
    rw [Function.update_self]
  have hother : ∀ c', c' ≠ c →
      ((Function.update s.sockets c socket) c').pending = (s.sockets c').pending := by
    intro c' hc
    rw [Function.update_of_ne hc]
  rw [hpending] at hserved
  rw [controlStep, if_neg (by simpa [Sessions.waits] using hw)] at hs
  by_cases hne : line = []
  · rw [if_pos hne] at hs
    cases hs
    subst hne
    refine ⟨h.accounted, fun c' => ?_⟩
    by_cases hc : c' = c
    · subst hc
      rw [List.nil_append] at hserved
      exact hserved.skip.of_parts hrest (decide_eq_false hopen) hbusy rfl
    · exact (h.served c').of_parts (hother c' hc) rfl rfl rfl
  · rw [if_neg hne] at hs
    cases hs
    have hbegun := begun_begin h.accounted c line
    generalize s.control.begin c line = control at hbegun
    cases hbegun with
    | @answered reply hreply =>
      refine ⟨h.accounted, fun c' => ?_⟩
      by_cases hc : c' = c
      · subst hc
        exact (hserved.answer hline hne hreply).of_parts hrest (mem_closed_answer _ hopen) hbusy
          own_concat_self
      · exact (h.served c').of_parts (hother c' hc)
          (decide_eq_decide.mpr (mem_closed_answer_of_ne _ hc)) rfl (own_concat_of_ne hc)
    | @accepted p count ttl hparse hreply hset =>
      have hsub : s.control.accepted ⊆ s.control.accepted ++ [p.command] :=
        List.subset_append_left _ _
      refine ⟨h.accounted.trans hset, fun c' => ?_⟩
      by_cases hc : c' = c
      · subst hc
        have hrunning : own (s.control.running ++ [(c', p)]) c' = [p] := by
          rw [own_concat_self]
          exact congrArg (· ++ [p]) hbusy
        have hbegin := (hserved.mono fun _ _ hr => hr.mono hsub).begin hline hne hparse
          (hreply.mono (List.subset_append_right _ _))
        exact hbegin.of_parts hrest (decide_eq_false hopen) hrunning rfl
      · exact ((h.served c').mono fun _ _ hr => hr.mono hsub).of_parts (hother c' hc) rfl
          (own_concat_of_ne hc) rfl

/-- A command in progress gets on, and no connection but its own notices. -/
theorem AllAnswered.proceed (h : AllAnswered count₀ ttl₀ texts s) {i : Nat} {control : ControlState}
    (hp : Proceeded s.control i control) (haccepted : control.accepted = s.control.accepted)
    (hcount : control.dataListenerCount = s.control.dataListenerCount)
    (httl : control.ttl = s.control.ttl) : AllAnswered count₀ ttl₀ texts { s with control } := by
  refine ⟨?_, fun c' => ?_⟩
  · show Reported count₀ ttl₀ control.accepted control.dataListenerCount control.ttl
    rw [haccepted, hcount, httl]
    exact h.accounted
  rw [show Sessions.control { s with control } = control from rfl, haccepted]
  cases hp with
  | @stored c p q hp hcommand hreply hrunning hanswers hclosed =>
    have hans : Sessions.answersTo { s with control } c' = s.answersTo c' :=
      congrArg (own · c') hanswers
    by_cases hc : c' = c
    · subst hc
      obtain ⟨hbusy, hopen, hserved⟩ := h.of_running hp
      refine (hserved.store hcommand hreply).of_parts rfl ?_ ?_ hans
      · exact decide_eq_false (hclosed ▸ hopen)
      · exact (congrArg (own · c') hrunning).trans (own_of_singleton hp hbusy).1
    · refine (h.served c').of_parts rfl (by rw [hclosed]) ?_ hans
      exact (congrArg (own · c') hrunning).trans (own_set_of_ne hp hc)
  | @answered c p hp hrunning hanswers hclosed =>
    by_cases hc : c' = c
    · subst hc
      obtain ⟨hbusy, hopen, hserved⟩ := h.of_running hp
      refine hserved.finish.of_parts rfl ?_ ?_ ?_
      · exact decide_eq_false (hclosed ▸ hopen)
      · exact (congrArg (own · c') hrunning).trans (own_of_singleton (w := p) hp hbusy).2
      · exact (congrArg (own · c') hanswers).trans own_concat_self
    · refine (h.served c').of_parts rfl (by rw [hclosed]) ?_ ?_
      · exact (congrArg (own · c') hrunning).trans (own_eraseIdx_of_ne hp hc)
      · exact (congrArg (own · c') hanswers).trans (own_concat_of_ne hc)
  | @thrown c p hp hrunning hanswers hclosed =>
    have hans : Sessions.answersTo { s with control } c' = s.answersTo c' :=
      congrArg (own · c') hanswers
    by_cases hc : c' = c
    · subst hc
      obtain ⟨hbusy, hopen, hserved⟩ := h.of_running hp
      refine hserved.throw.of_parts rfl ?_ ?_ hans
      · exact decide_eq_true (hclosed ▸ List.mem_cons_self)
      · exact (congrArg (own · c') hrunning).trans (own_of_singleton (w := p) hp hbusy).2
    · refine (h.served c').of_parts rfl ?_ ?_ hans
      · rw [hclosed, decide_eq_decide, List.mem_cons]
        exact or_iff_right hc
      · exact (congrArg (own · c') hrunning).trans (own_eraseIdx_of_ne hp hc)

/-- A step answers at most one connection, which has no command in progress then. -/
def Answering (s s' : Sessions) : Prop :=
  s'.control.answers = s.control.answers ∨
    ∃ c answer, s'.control.answers = s.control.answers ++ [(c, answer)] ∧ s'.busy c = []

theorem AllAnswered.answering {event : SessionEvent} (h : AllAnswered count₀ ttl₀ texts s)
    (hs : sessionStep r ask s event = some s') : Answering s s' := by
  cases event with
  | read c =>
    rw [sessionStep] at hs
    split at hs
    · next hw =>
      obtain ⟨hopen, hbusy⟩ := busy_of_waits hw
      split at hs
      · cases hs
        exact .inl rfl
      · next line socket hread =>
        obtain ⟨control, hcontrol, rfl⟩ := Option.map_eq_some_iff.mp hs
        rw [controlStep, if_neg (by simpa [Sessions.waits] using hw)] at hcontrol
        split at hcontrol
        · cases hcontrol
          exact .inl rfl
        · cases hcontrol
          have hbegun := begun_begin h.accounted c line
          generalize s.control.begin c line = control at hbegun
          cases hbegun with
          | answered => exact .inr ⟨c, _, rfl, hbusy⟩
          | accepted => exact .inl rfl
    · cases hs
  | fail c =>
    rw [sessionStep] at hs
    split at hs
    · cases hs
      exact .inl rfl
    · cases hs
  | control event =>
    cases event with
    | line c line => cases hs
    | proceed i fault granted =>
      obtain ⟨control, hcontrol, rfl⟩ := Option.map_eq_some_iff.mp hs
      obtain ⟨hproceeded, -, -, -⟩ := proceeded_proceed hcontrol
      cases hproceeded with
      | stored _ _ _ _ hanswers | thrown _ _ hanswers => exact .inl hanswers
      | @answered c p hp hrunning hanswers =>
        obtain ⟨hbusy, -, -⟩ := h.of_running hp
        refine .inr ⟨c, _, hanswers, ?_⟩
        exact (congrArg (own · c) hrunning).trans (own_of_singleton (w := p) hp hbusy).2
    | sweep removes now | published id =>
      cases hs
      exact .inl rfl
  | unsent event =>
    obtain ⟨next, -, hwithhold⟩ := Option.bind_eq_some_iff.mp hs
    rw [Sessions.withhold] at hwithhold
    split at hwithhold
    · cases hwithhold
    · cases hwithhold
      exact .inl rfl

theorem AllAnswered.withhold (h : AllAnswered count₀ ttl₀ texts s') (hone : Answering s s')
    {last : Sessions} (hs : Sessions.withhold s.control.answers s' = some last) :
    AllAnswered count₀ ttl₀ texts last := by
  obtain hsame | ⟨c, answer, hanswers, hbusy⟩ := hone
  · rw [Sessions.withhold, hsame, List.drop_length] at hs
    cases hs
  · rw [Sessions.withhold, hanswers, List.drop_left] at hs
    cases hs
    refine ⟨h.accounted, fun c' => ?_⟩
    have hserved := h.served c'
    by_cases hc : c' = c
    · subst hc
      rw [hbusy, Sessions.answersTo, hanswers, own_concat_self] at hserved
      exact hserved.withhold.of_parts rfl (decide_eq_true List.mem_cons_self) hbusy rfl
    · rw [Sessions.answersTo, hanswers, own_concat_of_ne hc] at hserved
      exact hserved.of_parts rfl (by simp [hc]) rfl rfl

theorem AllAnswered.step {event : SessionEvent} (h : AllAnswered count₀ ttl₀ texts s)
    (hs : sessionStep r ask s event = some s') : AllAnswered count₀ ttl₀ texts s' := by
  induction event generalizing s' with
  | read c =>
    rw [sessionStep] at hs
    split at hs
    · next hw =>
      split at hs
      · cases hs
        exact h.disconnect hw
      · next line socket hread =>
        obtain ⟨control, hcontrol, rfl⟩ := Option.map_eq_some_iff.mp hs
        exact h.line hw (readLine_plain hread) (readLine_pending hread) hcontrol
    · cases hs
  | fail c =>
    rw [sessionStep] at hs
    split at hs
    · next hw =>
      cases hs
      exact h.disconnect hw
    · cases hs
  | control event =>
    cases event with
    | line c line => cases hs
    | proceed i fault granted =>
      obtain ⟨control, hcontrol, rfl⟩ := Option.map_eq_some_iff.mp hs
      obtain ⟨hp, haccepted, hcount, httl⟩ := proceeded_proceed hcontrol
      exact h.proceed hp haccepted hcount httl
    | sweep removes now =>
      cases hs
      exact ⟨h.accounted, h.served⟩
    | published id =>
      cases hs
      exact ⟨h.accounted, h.served⟩
  | unsent event ih =>
    obtain ⟨next, hnext, hwithhold⟩ := Option.bind_eq_some_iff.mp hs
    exact (ih hnext).withhold (h.answering hnext) hwithhold

end Step

/-- Whatever the other connections do and however its bytes arrive, a connection is answered line by
line, once each and in order, up to the first `QUIT` or `EXIT`. -/
theorem served_in_order (r : Root) (ask : Nat → Nat) (world : World) (listeners : ListenerManager)
    (count : Nat) (ttl : Int) (sockets : Nat → Source) (s : Sessions)
    (hr : Reachable (sessionStep r ask) ⟨.start world listeners count ttl, sockets⟩ s) (c : Nat) :
    Answered (sockets c).pending (s.sockets c).pending (Replies count ttl s.control.accepted)
      (c ∈ s.control.closed) (s.busy c) (s.answersTo c) := by
  have hstart : AllAnswered count ttl (fun c => (sockets c).pending)
      ⟨.start world listeners count ttl, sockets⟩ :=
    ⟨⟨.inl rfl, .inl rfl⟩, fun c => ⟨[], .waiting rfl, .nil⟩⟩
  exact (hr.invariant (P := AllAnswered count ttl _) hstart fun _ _ _ h _ hs => h.step hs).served c

/-- Two connections whose bytes arrive in several pieces, one with an unfinished line at its end. -/
def sampleSockets : Nat → Source
  | 0 => ⟨[], 0, [ascii "SCA", ascii "LE_DATA 3\n\nQU", ascii "IT\nPING\n"]⟩
  | _ => ⟨[], 0, [ascii "STATUS\nPI"]⟩

theorem served_in_order_sample : ∃ s : Sessions,
    s.answersTo 0 = [ascii "OK data listeners=3\n", ascii "ERR unknown command\n"] ∧
      s.answersTo 1 = [ascii "OK listeners=3 ttl=3600\n"] ∧
      Answered (sampleSockets 0).pending (s.sockets 0).pending (Replies 2 3600 s.control.accepted)
        (0 ∈ s.control.closed) (s.busy 0) (s.answersTo 0) := by
  let events : List SessionEvent := [.read 0, .read 1, .control (.proceed 0 (fun _ => none) 1),
    .read 0, .read 0, .read 1]
  have hrun : (run (sessionStep .sample fun _ => 512) ⟨sampleStart, sampleSockets⟩ events).any
      (fun s => s.answersTo 0 = [ascii "OK data listeners=3\n", ascii "ERR unknown command\n"] ∧
        s.answersTo 1 = [ascii "OK listeners=3 ttl=3600\n"]) = true := by decide +kernel
  obtain ⟨s, hs, hend⟩ := (Option.any_eq_true ..).mp hrun
  obtain ⟨h0, h1⟩ := of_decide_eq_true hend
  exact ⟨s, h0, h1, served_in_order .sample _ _ _ _ _ _ s (.of_run hs) 0⟩

end SuperVoice.Server
