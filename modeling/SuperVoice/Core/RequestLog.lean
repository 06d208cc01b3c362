import SuperVoice.Core.LogContext
import SuperVoice.Lib.Transition

/-! The contexts of all threads while requests are filtered, handled and completed. -/
namespace SuperVoice.Core
open Bytes Regex Transition Tracing

structure Answer where
  /-- The header `X-Request-ID` of the response. -/
  requestId : Option Bytes
  status : Nat
  latencyMs : UInt64
  deriving DecidableEq

/-- The attributes of a request, and what has become of it. -/
structure RequestState where
  requestId : Option Bytes := none
  company : Option Bytes := none
  endpoint : Option Bytes := none
  /-- `observability.metrics` is there. -/
  metrics : Bool := false
  filtered : Option LogContext := none
  answer : Option Answer := none

def RequestState.filter (request : RequestState) (context : LogContext) : RequestState :=
  { request with
    requestId := some context.requestId
    company := some context.company
    endpoint := some context.endpoint
    metrics := true
    filtered := some context }

/-- Who writes a line; its thread may still be about a request. -/
inductive LogOrigin where
  | complete (i : Nat) (current : Option Nat)
  | message (current : Option Nat)
  deriving DecidableEq

def LogOrigin.current : LogOrigin → Option Nat
  | .complete _ current | .message current => current

def LogOrigin.completed? : LogOrigin → Option Nat
  | .complete i _ => some i
  | .message _ => none

structure RequestLog where
  requests : Nat → RequestState := fun _ => {}
  contexts : Nat → LogContext := fun _ => {}
  /-- The request that was the last one to be filtered on a thread, if none has been completed
  there since. -/
  current : Nat → Option Nat := fun _ => none
  written : List (LogOrigin × LogPayload) := []
  /-- An exception has left the destructor of the logger. -/
  terminated : Bool := false

inductive LogAction where
  | doFilter (thread i : Nat) (random : Bytes)
  /-- The handler of an endpoint. -/
  | handle (i : Nat) (providerKey route : Bytes)
  | log (thread : Nat) (message : Bytes)
  /-- The advice behind the handler, with the status of the response. -/
  | advise (thread i : Nat) (response : Option Nat) (latencyMs : UInt64) (message : Bytes)

structure LogSetup where
  requests : Nat → IncomingRequest
  rules : List (Matcher UInt8)
  /-- What `get` returns for an attribute that is not there; it may throw. -/
  absent : Option Bytes

namespace RequestLog

def resolveRequestId (setup : LogSetup) (s : RequestLog) (i : Nat) : Bytes :=
  ((s.requests i).requestId <|> setup.absent).getD
    ((setup.requests i).header (ascii "X-Request-ID"))

def emit (rules : List (Matcher UInt8)) (s : RequestLog) (origin : LogOrigin)
    (context : LogContext) (message : Bytes) : RequestLog :=
  let payload := logPayload rules context message
  if payload.Dumps then { s with written := s.written ++ [(origin, payload)] }
  else { s with terminated := true }

/-- The response gets the identifier of the request, unless that is empty. -/
def answer (setup : LogSetup) (s : RequestLog) (i : Nat) (response : Option Nat)
    (latencyMs : UInt64) : Answer :=
  { requestId := response.bind fun _ => orNull (s.resolveRequestId setup i)
    status := response.getD 0
    latencyMs := if (s.requests i).metrics then latencyMs else 0 }

/-- The context that the advice takes for the update. -/
def adviceContext (setup : LogSetup) (s : RequestLog) (thread i : Nat) (answer : Answer) :
    LogContext :=
  let context := s.contexts thread
  { requestId := s.resolveRequestId setup i
    company := unlessEmpty ((s.requests i).company.getD []) context.company
    endpoint := unlessEmpty ((s.requests i).endpoint.getD []) context.endpoint
    status := answer.status
    latencyMs := answer.latencyMs
    hasRequest := true }

def setRequest (s : RequestLog) (i : Nat) (request : RequestState) : RequestLog :=
  { s with requests := Function.update s.requests i request }

def setContext (s : RequestLog) (thread : Nat) (context : LogContext) (current : Option Nat) :
    RequestLog :=
  { s with
    contexts := Function.update s.contexts thread context
    current := Function.update s.current thread current }

/-- What the advice does with its context. -/
def complete (setup : LogSetup) (s : RequestLog) (thread i : Nat) (answer : Answer)
    (message : Bytes) : RequestLog :=
  let context := updateLogContext (s.contexts thread) (s.adviceContext setup thread i answer)
  let origin := .complete i (s.current thread)
  ((s.setRequest i { s.requests i with answer := some answer }).emit setup.rules origin context
    message).setContext thread {} none

def step (setup : LogSetup) (s : RequestLog) : LogAction → Option RequestLog
  | .doFilter thread i random =>
    if s.terminated = false ∧ (s.requests i).company = none ∧ (s.requests i).answer = none then
      let context := filterContext (setup.requests i) random
      some ((s.setRequest i ((s.requests i).filter context)).setContext thread
        (setLogContext context) (some i))
    else none
  | .handle i providerKey route =>
    if s.terminated = false ∧ (s.requests i).answer = none then
      some (s.setRequest i
        { s.requests i with company := some providerKey, endpoint := some route })
    else none
  | .log thread message =>
    if s.terminated = false then
      some (s.emit setup.rules (.message (s.current thread)) (s.contexts thread) message)
    else none
  | .advise thread i response latencyMs message =>
    if s.terminated = false ∧ (s.requests i).answer = none then
      some (s.complete setup thread i (s.answer setup i response latencyMs) message)
    else none

/-- What a filter has made of a request; nothing of no request. -/
def contextOf (s : RequestLog) : Option Nat → LogContext
  | none => {}
  | some i => (s.requests i).filtered.getD {}

/-- What the line of a completed request says: where it has nothing of its own, it says what the
thread is about. -/
def completeContext (setup : LogSetup) (s : RequestLog) (i : Nat) (current : Option Nat)
    (answer : Answer) : LogContext :=
  let context := s.contextOf current
  { requestId := unlessEmpty (s.resolveRequestId setup i) context.requestId
    company := unlessEmpty ((s.requests i).company.getD []) context.company
    endpoint := unlessEmpty ((s.requests i).endpoint.getD []) context.endpoint
    status := answer.status
    latencyMs := answer.latencyMs
    hasRequest := true }

end RequestLog

/-- What the library and the routes give is not empty, and it can be dumped. -/
def LogAction.Plain (rules : List (Matcher UInt8)) : LogAction → Prop
  | .doFilter _ _ random => random ≠ [] ∧ Utf8 random
  | .handle _ providerKey route => (providerKey ≠ [] ∧ Utf8 providerKey) ∧ route ≠ [] ∧ Utf8 route
  | .log _ message | .advise _ _ _ _ message =>
    Utf8 (logLine rules message).level ∧ Utf8 (logLine rules message).msg

/-- What holds of one request. -/
structure RequestState.Sound (req : IncomingRequest) (request : RequestState) : Prop where
  requestId : request.requestId = request.filtered.map LogContext.requestId
  company : ∀ company, request.company = some company → company ≠ [] ∧ Utf8 company
  endpoint : ∀ endpoint, request.endpoint = some endpoint →
    endpoint ≠ [] ∧ (¬req.Unprintable → Utf8 endpoint)
  filtered : ∀ context, request.filtered = some context → request.metrics = true ∧
    (∃ company, request.company = some company) ∧ (∃ endpoint, request.endpoint = some endpoint) ∧
      ∃ random, random ≠ [] ∧ Utf8 random ∧ context = filterContext req random
  answered : ∀ context answer, request.filtered = some context → request.answer = some answer →
    answer.status ≠ 0 → answer.requestId = some context.requestId

namespace RequestState
variable {req : IncomingRequest} {request : RequestState}

theorem sound_start (req : IncomingRequest) : Sound req {} where
  requestId := rfl
  company _ h := by cases h
  endpoint _ h := by cases h
  filtered _ h := by cases h
  answered _ _ h := by cases h

theorem Sound.unfiltered (h : request.Sound req) (hcompany : request.company = none) :
    request.filtered = none := by
  cases hfiltered : request.filtered with
  | none => rfl
  | some context =>
    obtain ⟨-, ⟨company, hsome⟩, -⟩ := h.filtered context hfiltered
    rw [hcompany] at hsome
    cases hsome

theorem Sound.filter {random : Bytes} (hopen : request.answer = none) (hrandom : random ≠ [])
    (hutf8 : Utf8 random) : (request.filter (filterContext req random)).Sound req where
  requestId := rfl
  company company h := by
    cases h
    exact ⟨resolveCompany_ne_nil req, utf8_resolveCompany req⟩
  endpoint endpoint h := by
    cases h
    refine ⟨resolveEndpoint_ne_nil req, fun hreq => ?_⟩
    exact utf8_unlessEmpty (not_not.mp (not_or.mp hreq).2) utf8_unknown
  filtered context h := by
    cases h
    exact ⟨rfl, ⟨_, rfl⟩, ⟨_, rfl⟩, random, hrandom, hutf8, rfl⟩
  answered context answer _ h := by
    rw [RequestState.filter, hopen] at h
    cases h

theorem Sound.handle {providerKey route : Bytes} (h : request.Sound req)
    (hopen : request.answer = none) (hkey : providerKey ≠ [] ∧ Utf8 providerKey)
    (hroute : route ≠ [] ∧ Utf8 route) :
    Sound req { request with company := some providerKey, endpoint := some route } where
  requestId := h.requestId
  company company hcompany := by
    cases hcompany
    exact hkey
  endpoint endpoint hendpoint := by
    cases hendpoint
    exact ⟨hroute.1, fun _ => hroute.2⟩
  filtered context hfiltered := by
    obtain ⟨hmetrics, -, -, hcontext⟩ := h.filtered context hfiltered
    exact ⟨hmetrics, ⟨_, rfl⟩, ⟨_, rfl⟩, hcontext⟩
  answered context answer _ hanswer := by
    rw [hopen] at hanswer
    cases hanswer

end RequestState

namespace RequestLog
variable {setup : LogSetup} {s s' : RequestLog} {a : LogAction}

/-- What a filter has made of a request stays, and so does all of an answered request. -/
structure Grows (s s' : RequestLog) : Prop where
  filtered : ∀ i context, (s.requests i).filtered = some context →
    (s'.requests i).filtered = some context
  answered : ∀ i, (s.requests i).answer ≠ none → s'.requests i = s.requests i

theorem requests_setRequest (i j : Nat) (request : RequestState) :
    (s.setRequest i request).requests j = if j = i then request else s.requests j :=
  Function.update_apply ..

theorem contexts_setContext (thread other : Nat) (context : LogContext) (current : Option Nat) :
    (s.setContext thread context current).contexts other =
      if other = thread then context else s.contexts other :=
  Function.update_apply ..

theorem current_setContext (thread other : Nat) (context : LogContext) (current : Option Nat) :
    (s.setContext thread context current).current other =
      if other = thread then current else s.current other :=
  Function.update_apply ..

theorem grows_setRequest {i : Nat} {request : RequestState}
    (hfiltered : ∀ context, (s.requests i).filtered = some context →
      request.filtered = some context)
    (hopen : (s.requests i).answer = none) : Grows s (s.setRequest i request) where
  filtered j context h := by
    rw [requests_setRequest]
    split
    · next hj =>
      rw [hj] at h
      exact hfiltered context h
    · exact h
  answered j h := by
    rw [requests_setRequest]
    refine if_neg fun hj => h ?_
    rwa [hj]

theorem grows_answer {i : Nat} {answer : Answer} (hopen : (s.requests i).answer = none) :
    Grows s (s.setRequest i { s.requests i with answer := some answer }) :=
  grows_setRequest (fun _ hcontext => hcontext) hopen

theorem Grows.filtered_ne_none (h : Grows s s') {i : Nat}
    (hfiltered : (s.requests i).filtered ≠ none) : (s'.requests i).filtered ≠ none := by
  obtain ⟨context, hcontext⟩ := Option.ne_none_iff_exists'.mp hfiltered
  rw [h.filtered i context hcontext]
  exact Option.some_ne_none context

theorem Grows.contextOf (h : Grows s s') {current : Option Nat}
    (hcurrent : ∀ i, current = some i → (s.requests i).filtered ≠ none) :
    s'.contextOf current = s.contextOf current := by
  cases current with
  | none => rfl
  | some i =>
    obtain ⟨context, hcontext⟩ := Option.ne_none_iff_exists'.mp (hcurrent i rfl)
    rw [RequestLog.contextOf, RequestLog.contextOf, h.filtered i context hcontext, hcontext]

theorem Grows.completeContext (h : Grows s s') {i : Nat} {current : Option Nat} {answer : Answer}
    (hanswer : (s.requests i).answer ≠ none)
    (hcurrent : ∀ i, current = some i → (s.requests i).filtered ≠ none) :
    s'.completeContext setup i current answer = s.completeContext setup i current answer := by
  rw [RequestLog.completeContext, RequestLog.completeContext, resolveRequestId, resolveRequestId,
    h.answered i hanswer, h.contextOf hcurrent]

@[simp] theorem requests_emit {rules : List (Matcher UInt8)} {origin : LogOrigin}
    {context : LogContext} {message : Bytes} :
    (s.emit rules origin context message).requests = s.requests := by
  rw [emit]
  split <;> rfl

/-- What a step does. -/
inductive Moves (setup : LogSetup) (s : RequestLog) : LogAction → RequestLog → Prop where
  | filters {thread i : Nat} {random : Bytes} (hnew : (s.requests i).company = none)
      (hopen : (s.requests i).answer = none) :
      Moves setup s (.doFilter thread i random)
        ((s.setRequest i ((s.requests i).filter
          (filterContext (setup.requests i) random))).setContext thread
            (setLogContext (filterContext (setup.requests i) random)) (some i))
  | handles {i : Nat} {providerKey route : Bytes} (hopen : (s.requests i).answer = none) :
      Moves setup s (.handle i providerKey route) (s.setRequest i
        { s.requests i with company := some providerKey, endpoint := some route })
  | logs {thread : Nat} {message : Bytes} :
      Moves setup s (.log thread message)
        (s.emit setup.rules (.message (s.current thread)) (s.contexts thread) message)
  | advises {thread i : Nat} {response : Option Nat} {latencyMs : UInt64} {message : Bytes}
      (hopen : (s.requests i).answer = none) :
      Moves setup s (.advise thread i response latencyMs message)
        (s.complete setup thread i (s.answer setup i response latencyMs) message)

theorem moves_of_step (hstep : step setup s a = some s') :
    s.terminated = false ∧ Moves setup s a s' := by
  cases a with
  | doFilter thread i random =>
    obtain ⟨⟨hrunning, hnew, hopen⟩, hnext⟩ := Option.ite_none_right_eq_some.mp hstep
    cases hnext
    exact ⟨hrunning, .filters hnew hopen⟩
  | handle i providerKey route =>
    obtain ⟨⟨hrunning, hopen⟩, hnext⟩ := Option.ite_none_right_eq_some.mp hstep
    cases hnext
    exact ⟨hrunning, .handles hopen⟩
  | log thread message =>
    obtain ⟨hrunning, hnext⟩ := Option.ite_none_right_eq_some.mp hstep
    cases hnext
    exact ⟨hrunning, .logs⟩
  | advise thread i response latencyMs message =>
    obtain ⟨⟨hrunning, hopen⟩, hnext⟩ := Option.ite_none_right_eq_some.mp hstep
    cases hnext
    exact ⟨hrunning, .advises hopen⟩

/-- Between the calls of the functions a context is empty, or as a filter has set it. -/
structure Sound (setup : LogSetup) (s : RequestLog) : Prop where
  requests : ∀ i, (s.requests i).Sound (setup.requests i)
  contexts : ∀ thread, s.contexts thread = s.contextOf (s.current thread)
  current : ∀ thread i, s.current thread = some i → (s.requests i).filtered ≠ none

theorem sound_start : Sound setup {} where
  requests i := RequestState.sound_start _
  contexts _ := rfl
  current _ _ h := by cases h

/-- A request changes and no context does. -/
theorem Sound.setRequest {i : Nat} {request : RequestState} (h : s.Sound setup)
    (hgrows : Grows s (s.setRequest i request)) (hrequest : request.Sound (setup.requests i)) :
    (s.setRequest i request).Sound setup where
  requests j := by
    rw [requests_setRequest]
    split
    · next hj => exact hj ▸ hrequest
    · exact h.requests j
  contexts thread := (h.contexts thread).trans (hgrows.contextOf (h.current thread)).symm
  current thread j hj := hgrows.filtered_ne_none (h.current thread j hj)

theorem Sound.setContext {thread : Nat} {context : LogContext} {current : Option Nat}
    (h : s.Sound setup) (hcontext : context = s.contextOf current)
    (hcurrent : ∀ i, current = some i → (s.requests i).filtered ≠ none) :
    (s.setContext thread context current).Sound setup where
  requests := h.requests
  contexts other := by
    rw [contexts_setContext, current_setContext]
    split
    · exact hcontext
    · exact h.contexts other
  current other i hi := by
    rw [current_setContext] at hi
    split at hi
    · exact hcurrent i hi
    · exact h.current other i hi

theorem Sound.emit {rules : List (Matcher UInt8)} {origin : LogOrigin} {context : LogContext}
    {message : Bytes} (h : s.Sound setup) : (s.emit rules origin context message).Sound setup := by
  obtain ⟨hrequests, hcontexts, hcurrent⟩ := h
  rw [RequestLog.emit]
  split <;> exact ⟨hrequests, hcontexts, hcurrent⟩

/-- What the advice adds to a request. -/
theorem Sound.answer {i : Nat} {response : Option Nat} {latencyMs : UInt64} (h : s.Sound setup) :
    RequestState.Sound (setup.requests i)
      { s.requests i with answer := some (s.answer setup i response latencyMs) } where
  requestId := (h.requests i).requestId
  company := (h.requests i).company
  endpoint := (h.requests i).endpoint
  filtered := (h.requests i).filtered
  answered context answer hfiltered hanswer hstatus := by
    cases hanswer
    have hid := (h.requests i).requestId
    rw [show (s.requests i).filtered = some context from hfiltered] at hid
    obtain ⟨-, -, -, random, hrandom, -, hcontext⟩ := (h.requests i).filtered context hfiltered
    have hne : context.requestId ≠ [] := hcontext ▸ unlessEmpty_ne_nil hrandom
    cases response with
    | none => exact absurd rfl hstatus
    | some status =>
      rw [RequestLog.answer, Option.bind_some, resolveRequestId, hid]
      exact if_neg hne

theorem Sound.grows (h : s.Sound setup) (hmoves : Moves setup s a s') : Grows s s' := by
  cases hmoves with
  | @filters thread i random hnew hopen =>
    have hgrows : Grows s (s.setRequest i
        ((s.requests i).filter (filterContext (setup.requests i) random))) := by
      refine grows_setRequest (fun context hcontext => ?_) hopen
      rw [(h.requests i).unfiltered hnew] at hcontext
      cases hcontext
    exact ⟨hgrows.filtered, hgrows.answered⟩
  | handles hopen => exact grows_setRequest (fun _ hcontext => hcontext) hopen
  | logs =>
    refine ⟨fun i context hcontext => ?_, fun i _ => ?_⟩
    · rwa [requests_emit]
    · rw [requests_emit]
  | @advises thread i response latencyMs message hopen =>
    have hgrows : Grows s (s.setRequest i
        { s.requests i with answer := some (s.answer setup i response latencyMs) }) :=
      grows_answer hopen
    refine ⟨fun j context hcontext => ?_, fun j hanswer => ?_⟩
    · have hkept := hgrows.filtered j context hcontext
      rwa [← requests_emit] at hkept
    · have hkept := hgrows.answered j hanswer
      rwa [← requests_emit] at hkept

theorem Sound.step (h : s.Sound setup) (hplain : a.Plain setup.rules)
    (hmoves : Moves setup s a s') : s'.Sound setup := by
  have hgrows := h.grows hmoves
  cases hmoves with
  | @filters thread i random hnew hopen =>
    have hfiltered : ((s.setRequest i ((s.requests i).filter
        (filterContext (setup.requests i) random))).requests i).filtered =
          some (filterContext (setup.requests i) random) := by
      rw [requests_setRequest, if_pos rfl, RequestState.filter]
    have hrequest := h.setRequest ⟨hgrows.filtered, hgrows.answered⟩
      (.filter hopen hplain.1 hplain.2)
    refine hrequest.setContext ?_ ?_
    · rw [contextOf, hfiltered]
      rfl
    · rintro _ ⟨⟩
      rw [hfiltered]
      exact Option.some_ne_none _
  | @handles i providerKey route hopen =>
    exact h.setRequest hgrows ((h.requests i).handle hopen hplain.1 hplain.2)
  | logs => exact h.emit
  | @advises thread i response latencyMs message hopen =>
    refine (h.setRequest (grows_answer hopen) h.answer).emit.setContext rfl fun _ hnone => ?_
    cases hnone

/-- A context says nothing of a response. -/
theorem Sound.contextOf (h : s.Sound setup) (current : Option Nat) :
    (s.contextOf current).status = 0 ∧ (s.contextOf current).latencyMs = 0 := by
  cases current with
  | none => exact ⟨rfl, rfl⟩
  | some i =>
    rw [RequestLog.contextOf]
    cases hfiltered : (s.requests i).filtered with
    | none => exact ⟨rfl, rfl⟩
    | some context =>
      obtain ⟨-, -, -, random, -, -, rfl⟩ := (h.requests i).filtered context hfiltered
      exact ⟨rfl, rfl⟩

/-- The update leaves of the thread's context what the advice has nothing for. -/
theorem Sound.logPayload_update (h : s.Sound setup) (thread i : Nat) (answer : Answer)
    (message : Bytes) :
    logPayload setup.rules
        (updateLogContext (s.contexts thread) (s.adviceContext setup thread i answer)) message =
      logPayload setup.rules (s.completeContext setup i (s.current thread) answer) message := by
  obtain ⟨hstatus, hlatency⟩ := h.contextOf (s.current thread)
  have hstatusOf : (if answer.status = 0 then 0 else answer.status) = answer.status := by
    split
    · next hzero => exact hzero.symm
    · rfl
  have hlatencyOf : (if positive (if positive answer.latencyMs then answer.latencyMs else 0) then
        some (if positive answer.latencyMs then answer.latencyMs else 0) else none) =
      if positive answer.latencyMs then some answer.latencyMs else none := by
    by_cases hpositive : positive answer.latencyMs = true
    · rw [if_pos hpositive]
    · rw [if_neg hpositive, if_neg hpositive]
      rfl
  simp only [logPayload, updateLogContext, adviceContext, completeContext, h.contexts thread,
    unlessEmpty_self_left, hstatus, hlatency, hstatusOf, hlatencyOf]
  rfl

/-- What a line says. -/
inductive Written (setup : LogSetup) (s : RequestLog) : LogOrigin → LogPayload → Prop where
  | message {current : Option Nat} (message : Bytes) :
      Written setup s (.message current) (logPayload setup.rules (s.contextOf current) message)
  | complete {i : Nat} {current : Option Nat} {answer : Answer} (message : Bytes)
      (hanswer : (s.requests i).answer = some answer) :
      Written setup s (.complete i current)
        (logPayload setup.rules (s.completeContext setup i current answer) message)

theorem Written.grows {origin : LogOrigin} {payload : LogPayload}
    (h : Written setup s origin payload) (hgrows : Grows s s')
    (hcurrent : ∀ i, origin.current = some i → (s.requests i).filtered ≠ none) :
    Written setup s' origin payload := by
  cases h with
  | @message current message =>
    have hcontext : s'.contextOf current = s.contextOf current := hgrows.contextOf hcurrent
    rw [← hcontext]
    exact .message message
  | @complete i current answer message hanswer =>
    have hne : (s.requests i).answer ≠ none := by
      rw [hanswer]
      exact Option.some_ne_none answer
    have hcontext : s'.completeContext setup i current answer =
        s.completeContext setup i current answer := hgrows.completeContext hne hcurrent
    rw [← hcontext]
    refine .complete message ?_
    rwa [hgrows.answered i hne]

/-- The requests whose completion is written. -/
def completed (s : RequestLog) : List Nat := s.written.filterMap fun line => line.1.completed?

structure Lines (setup : LogSetup) (s : RequestLog) : Prop where
  written : ∀ line ∈ s.written, Written setup s line.1 line.2
  current : ∀ line ∈ s.written, ∀ i, line.1.current = some i → (s.requests i).filtered ≠ none
  dumps : ∀ line ∈ s.written, line.2.Dumps
  once : s.completed.Nodup
  answered : s.terminated = false → ∀ i, (s.requests i).answer ≠ none → i ∈ s.completed

theorem lines_start : Lines setup {} where
  written _ h := by cases h
  current _ h := by cases h
  dumps _ h := by cases h
  once := List.nodup_nil
  answered _ _ h := absurd rfl h

theorem Lines.answer_ne_none {i : Nat} (h : Lines setup s) (hi : i ∈ s.completed) :
    (s.requests i).answer ≠ none := by
  obtain ⟨⟨origin, payload⟩, hline, hcompleted⟩ := List.mem_filterMap.mp hi
  cases h.written _ hline with
  | message => cases hcompleted
  | complete message hanswer =>
    cases hcompleted
    rw [hanswer]
    exact Option.some_ne_none _

/-- A line is added, and it can be dumped. -/
theorem Lines.append {origin : LogOrigin} {payload : LogPayload} (h : Lines setup s)
    (hgrows : Grows s s') (hwritten : s'.written = s.written ++ [(origin, payload)])
    (hline : Written setup s' origin payload)
    (hcurrent : ∀ i, origin.current = some i → (s.requests i).filtered ≠ none)
    (hdumps : payload.Dumps)
    (hnew : ∀ i, origin.completed? = some i → (s.requests i).answer = none)
    (hanswered : ∀ i, (s'.requests i).answer ≠ none →
      (s.requests i).answer ≠ none ∨ origin.completed? = some i)
    (hrunning : s.terminated = false) : Lines setup s' := by
  have hcompleted : s'.completed = s.completed ++ origin.completed?.toList := by
    rw [completed, completed, hwritten, List.filterMap_append]
    cases origin <;> rfl
  constructor
  · rw [hwritten]
    refine List.forall_mem_append.mpr ⟨fun line hmem => ?_, List.forall_mem_singleton.mpr hline⟩
    exact (h.written line hmem).grows hgrows (h.current line hmem)
  · rw [hwritten]
    refine List.forall_mem_append.mpr ⟨fun line hmem i hi => ?_,
      List.forall_mem_singleton.mpr fun i hi => hgrows.filtered_ne_none (hcurrent i hi)⟩
    exact hgrows.filtered_ne_none (h.current line hmem i hi)
  · rw [hwritten]
    exact List.forall_mem_append.mpr ⟨h.dumps, List.forall_mem_singleton.mpr hdumps⟩
  · rw [hcompleted]
    refine h.once.append (Option.toList_nodup _) fun i hi hadded => ?_
    exact h.answer_ne_none hi (hnew i (Option.mem_toList.mp hadded))
  · intro _ i hi
    rw [hcompleted]
    refine (hanswered i hi).elim (fun hold => ?_) fun hadded => ?_
    · exact List.mem_append_left _ (h.answered hrunning i hold)
    · exact List.mem_append_right _ (Option.mem_toList.mpr hadded)

/-- No line is added. -/
theorem Lines.keep (h : Lines setup s) (hgrows : Grows s s') (hwritten : s'.written = s.written)
    (hanswered : s'.terminated = false →
      s.terminated = false ∧ ∀ i, (s'.requests i).answer ≠ none → (s.requests i).answer ≠ none) :
    Lines setup s' := by
  have hcompleted : s'.completed = s.completed := by
    rw [completed, hwritten, completed]
  constructor
  · rw [hwritten]
    exact fun line hmem => (h.written line hmem).grows hgrows (h.current line hmem)
  · rw [hwritten]
    exact fun line hmem i hi => hgrows.filtered_ne_none (h.current line hmem i hi)
  · rw [hwritten]
    exact h.dumps
  · rw [hcompleted]
    exact h.once
  · intro hrunning i hi
    rw [hcompleted]
    obtain ⟨hbefore, hopen⟩ := hanswered hrunning
    exact h.answered hbefore i (hopen i hi)

theorem completeContext_answer {i : Nat} {current : Option Nat} {answer : Answer}
    (hopen : (s.requests i).answer = none)
    (hcurrent : ∀ i, current = some i → (s.requests i).filtered ≠ none) :
    (s.setRequest i { s.requests i with answer := some answer }).completeContext setup i current
      answer = s.completeContext setup i current answer := by
  rw [completeContext, completeContext, (grows_answer hopen).contextOf hcurrent, resolveRequestId,
    resolveRequestId, requests_setRequest, if_pos rfl]

theorem completeContext_congr {i : Nat} {current : Option Nat} {answer : Answer}
    (h : s'.requests = s.requests) :
    s'.completeContext setup i current answer = s.completeContext setup i current answer := by
  cases current <;> simp only [completeContext, RequestLog.contextOf, resolveRequestId, h]

theorem answered_setRequest {i j : Nat} {answer : Answer}
    (h : ((s.setRequest i { s.requests i with answer := some answer }).requests j).answer ≠ none) :
    (s.requests j).answer ≠ none ∨ some i = some j := by
  rw [requests_setRequest] at h
  split at h
  · next hj => exact .inr (congrArg some hj.symm)
  · exact .inl h

theorem Lines.step (h : Lines setup s) (hsound : s.Sound setup) (hgrows : Grows s s')
    (hrunning : s.terminated = false) (hmoves : Moves setup s a s') : Lines setup s' := by
  cases hmoves with
  | @filters thread i random hnew hopen =>
    refine h.keep hgrows rfl fun _ => ⟨hrunning, fun j hj => ?_⟩
    change ((s.setRequest i _).requests j).answer ≠ none at hj
    rw [requests_setRequest] at hj
    split at hj
    · exact absurd hopen hj
    · exact hj
  | @handles i providerKey route hopen =>
    refine h.keep hgrows rfl fun _ => ⟨hrunning, fun j hj => ?_⟩
    rw [requests_setRequest] at hj
    split at hj
    · exact absurd hopen hj
    · exact hj
  | @logs thread message =>
    have hwritten : Written setup s (.message (s.current thread))
        (logPayload setup.rules (s.contexts thread) message) := by
      rw [hsound.contexts thread]
      exact .message message
    rw [emit] at hgrows ⊢
    split at hgrows
    · next hdumps =>
      rw [if_pos hdumps]
      exact h.append hgrows rfl (hwritten.grows hgrows (hsound.current thread))
        (hsound.current thread) hdumps (fun i hi => by cases hi) (fun i hi => .inl hi) hrunning
    · next hthrows =>
      rw [if_neg hthrows]
      exact h.keep hgrows rfl fun hstopped => by cases hstopped
  | @advises thread i response latencyMs message hopen =>
    have hcurrent := hsound.current thread
    have hpayload := hsound.logPayload_update thread i (s.answer setup i response latencyMs) message
    have hwritten : ∀ s₂ : RequestLog, s₂.requests = (s.setRequest i
          { s.requests i with answer := some (s.answer setup i response latencyMs) }).requests →
        Written setup s₂ (.complete i (s.current thread)) (logPayload setup.rules
          (s.completeContext setup i (s.current thread) (s.answer setup i response latencyMs))
            message) := by
      intro s₂ hrequests
      rw [← completeContext_answer hopen hcurrent, ← completeContext_congr hrequests]
      refine .complete message ?_
      rw [hrequests, requests_setRequest, if_pos rfl]
    rw [complete, emit] at hgrows ⊢
    split at hgrows
    · next hdumps =>
      rw [if_pos hdumps]
      rw [hpayload] at hdumps
      refine h.append hgrows (congrArg (fun payload => s.written ++ [(_, payload)]) hpayload)
        (hwritten _ rfl) hcurrent hdumps (fun j hj => ?_)
        (fun j hj => answered_setRequest hj) hrunning
      cases hj
      exact hopen
    · next hthrows =>
      rw [if_neg hthrows]
      exact h.keep hgrows rfl fun hstopped => by cases hstopped

/-- A request that a filter or the advice has seen. -/
def Seen (s : RequestLog) (i : Nat) : Prop :=
  (s.requests i).filtered ≠ none ∨ (s.requests i).answer ≠ none

theorem Seen.grows {i : Nat} (h : s.Seen i) (hgrows : Grows s s') : s'.Seen i := by
  obtain hfiltered | hanswer := h
  · exact .inl (hgrows.filtered_ne_none hfiltered)
  · refine .inr ?_
    rwa [hgrows.answered i hanswer]

theorem Sound.printable_filtered (h : s.Sound setup) {i : Nat} {context : LogContext}
    (hfiltered : (s.requests i).filtered = some context) (hclean : ¬(setup.requests i).Unprintable) :
    context.Printable := by
  obtain ⟨-, -, -, random, -, hutf8, rfl⟩ := (h.requests i).filtered context hfiltered
  exact printable_filterContext hutf8 hclean

theorem Sound.printable_contextOf (h : s.Sound setup) {current : Option Nat}
    (hcurrent : ∀ i, current = some i → (s.requests i).filtered ≠ none)
    (hclean : ∀ i, s.Seen i → ¬(setup.requests i).Unprintable) :
    (s.contextOf current).Printable := by
  cases current with
  | none => exact printable_empty
  | some i =>
    obtain ⟨context, hcontext⟩ := Option.ne_none_iff_exists'.mp (hcurrent i rfl)
    rw [RequestLog.contextOf, hcontext]
    exact h.printable_filtered hcontext (hclean i (.inl (hcurrent i rfl)))

theorem Sound.utf8_resolveRequestId (h : s.Sound setup)
    (habsent : ∀ id, setup.absent = some id → Utf8 id) {i : Nat}
    (hclean : ¬(setup.requests i).Unprintable) : Utf8 (s.resolveRequestId setup i) := by
  rw [resolveRequestId, (h.requests i).requestId]
  cases hfiltered : (s.requests i).filtered with
  | none =>
    cases habs : setup.absent with
    | none => exact not_not.mp (not_or.mp hclean).1
    | some id => exact habsent id habs
  | some context => exact (h.printable_filtered hfiltered hclean).requestId

theorem Sound.printable_completeContext (h : s.Sound setup)
    (habsent : ∀ id, setup.absent = some id → Utf8 id) {i : Nat} {current : Option Nat}
    {answer : Answer} (hcontext : (s.contextOf current).Printable)
    (hclean : ¬(setup.requests i).Unprintable) :
    (s.completeContext setup i current answer).Printable where
  requestId := utf8_unlessEmpty (h.utf8_resolveRequestId habsent hclean) hcontext.requestId
  company := by
    refine utf8_unlessEmpty ?_ hcontext.company
    cases hcompany : (s.requests i).company with
    | none => exact utf8_nil
    | some company => exact ((h.requests i).company company hcompany).2
  endpoint := by
    refine utf8_unlessEmpty ?_ hcontext.endpoint
    cases hendpoint : (s.requests i).endpoint with
    | none => exact utf8_nil
    | some endpoint => exact ((h.requests i).endpoint endpoint hendpoint).2 hclean

/-- A line ends the server only for a request whose texts are not UTF-8. -/
def Ended (setup : LogSetup) (s : RequestLog) : Prop :=
  s.terminated = true → ∃ i, s.Seen i ∧ (setup.requests i).Unprintable

theorem Ended.step (h : s.Sound setup) (habsent : ∀ id, setup.absent = some id → Utf8 id)
    (hplain : a.Plain setup.rules) (hgrows : Grows s s') (hrunning : s.terminated = false)
    (hmoves : Moves setup s a s') : Ended setup s' := by
  intro hended
  by_contra hclean
  have hnow : ∀ i, s'.Seen i → ¬(setup.requests i).Unprintable := fun i hi hreq =>
    hclean ⟨i, hi, hreq⟩
  have hbefore : ∀ i, s.Seen i → ¬(setup.requests i).Unprintable := fun i hi =>
    hnow i (hi.grows hgrows)
  cases hmoves with
  | filters | handles =>
    change s.terminated = true at hended
    rw [hrunning] at hended
    cases hended
  | @logs thread message =>
    have hprintable := h.printable_contextOf (h.current thread) hbefore
    rw [← h.contexts thread] at hprintable
    rw [emit, if_pos (dumps_logPayload hprintable hplain)] at hended
    change s.terminated = true at hended
    rw [hrunning] at hended
    cases hended
  | @advises thread i response latencyMs message hopen =>
    have hcontext := h.printable_contextOf (h.current thread) hbefore
    have hseen : Seen (s.complete setup thread i (s.answer setup i response latencyMs) message) i := by
      refine .inr ?_
      change ((emit _ _ _ _ _).requests i).answer ≠ none
      rw [requests_emit, requests_setRequest, if_pos rfl]
      exact Option.some_ne_none _
    have hprintable : (s.completeContext setup i (s.current thread)
        (s.answer setup i response latencyMs)).Printable :=
      h.printable_completeContext habsent hcontext (hnow i hseen)
    have hdumps := dumps_logPayload hprintable hplain
    rw [← h.logPayload_update] at hdumps
    rw [complete, emit, if_pos hdumps] at hended
    change s.terminated = true at hended
    rw [hrunning] at hended
    cases hended

/-- What the log says of the requests, and when a line of it ends the server. -/
structure Attributed (setup : LogSetup) (s : RequestLog) : Prop where
  /-- Between the calls of the functions a context is empty, or as a filter has set it. -/
  contexts : ∀ thread, s.contexts thread = s.contextOf (s.current thread)
  written : ∀ line ∈ s.written, Written setup s line.1 line.2
  /-- A filtered request has all of what its own line says, and its response the identifier. -/
  own : ∀ i context, (s.requests i).filtered = some context →
    (∃ random, context = filterContext (setup.requests i) random) ∧
      ∃ company endpoint, (s.requests i).company = some company ∧
        (s.requests i).endpoint = some endpoint ∧
          ∀ answer, (s.requests i).answer = some answer →
            (answer.status ≠ 0 → answer.requestId = some context.requestId) ∧
              ∀ current, s.completeContext setup i current answer =
                { context with
                  company
                  endpoint
                  status := answer.status
                  latencyMs := answer.latencyMs }
  once : s.completed.Nodup
  answered : s.terminated = false → ∀ i, i ∈ s.completed ↔ (s.requests i).answer ≠ none
  /-- A server that is up has completed no filtered request with an identifier that is not UTF-8. -/
  up : s.terminated = false → ∀ i, (s.requests i).filtered ≠ none →
    (s.requests i).answer ≠ none → Utf8 ((setup.requests i).header (ascii "X-Request-ID"))
  down : s.terminated = true → ∃ i, s.Seen i ∧ (setup.requests i).Unprintable

theorem Sound.own (h : s.Sound setup) {i : Nat} {context : LogContext}
    (hfiltered : (s.requests i).filtered = some context) :
    ∃ company endpoint, (s.requests i).company = some company ∧
      (s.requests i).endpoint = some endpoint ∧ context.requestId ≠ [] ∧
        s.resolveRequestId setup i = context.requestId ∧
          ∀ current answer, s.completeContext setup i current answer =
            { context with company, endpoint, status := answer.status,
                           latencyMs := answer.latencyMs } := by
  obtain ⟨-, ⟨company, hcompany⟩, ⟨endpoint, hendpoint⟩, random, hrandom, -, hcontext⟩ :=
    (h.requests i).filtered context hfiltered
  have hne : context.requestId ≠ [] := hcontext ▸ unlessEmpty_ne_nil hrandom
  have hid : s.resolveRequestId setup i = context.requestId := by
    rw [resolveRequestId, (h.requests i).requestId, hfiltered]
    rfl
  have hrequest : context.hasRequest = true := by rw [hcontext, filterContext]
  refine ⟨company, endpoint, hcompany, hendpoint, hne, hid, fun current answer => ?_⟩
  rw [completeContext, hid, hcompany, hendpoint, Option.getD_some, Option.getD_some,
    unlessEmpty_of_ne hne, unlessEmpty_of_ne ((h.requests i).company company hcompany).1,
    unlessEmpty_of_ne ((h.requests i).endpoint endpoint hendpoint).1, hrequest]

/-- The line of a filtered request has the header of its identifier, if there is one. -/
theorem Lines.utf8_header (h : Lines setup s) (hsound : s.Sound setup) {i : Nat}
    (hi : i ∈ s.completed) (hfiltered : (s.requests i).filtered ≠ none) :
    Utf8 ((setup.requests i).header (ascii "X-Request-ID")) := by
  obtain ⟨context, hcontext⟩ := Option.ne_none_iff_exists'.mp hfiltered
  obtain ⟨company, endpoint, -, -, hne, -, hcomplete⟩ := hsound.own hcontext
  obtain ⟨-, -, -, random, -, -, hfilter⟩ := (hsound.requests i).filtered context hcontext
  obtain ⟨⟨origin, payload⟩, hline, hcompleted⟩ := List.mem_filterMap.mp hi
  have hdumps := h.dumps _ hline
  cases h.written _ hline with
  | message => cases hcompleted
  | @complete i current answer message hanswer =>
    cases hcompleted
    rw [hcomplete current answer] at hdumps
    by_cases hheader : (setup.requests i).header (ascii "X-Request-ID") = []
    · rw [hheader]
      exact utf8_nil
    · have hid : context.requestId = (setup.requests i).header (ascii "X-Request-ID") := by
        rw [hfilter]
        exact unlessEmpty_of_ne hheader
      have hfield : orNull context.requestId =
          some ((setup.requests i).header (ascii "X-Request-ID")) := by
        rw [orNull, if_neg hne, hid]
      refine hdumps _ (List.mem_append_right _ (List.mem_append_left _ ?_))
      exact Option.mem_toList.mpr hfield

/-- The identifier of the second request is not UTF-8. -/
def sampleSetup : LogSetup where
  requests i :=
    { header := fun name =>
        if name = ascii "X-Request-ID" then if i = 0 then ascii "a" else [255] else []
      parameter := fun _ => []
      path := ascii "/x" }
  rules := []
  absent := none

end RequestLog

end SuperVoice.Core
