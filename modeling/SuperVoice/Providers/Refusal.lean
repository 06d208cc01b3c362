import SuperVoice.Providers.Routes
import SuperVoice.Providers.JsonOperation

/-! The status with which the handlers answer a request that the provider turns away, or that the
upstream has failed. -/
namespace SuperVoice.Providers
open Bytes (ascii)

/-- What a provider finds when it is called: the key in the environment, the readings of the clock,
the responses of the upstream and what is drawn for the delays. -/
structure Surroundings where
  apiKey : Option Bytes
  begun : Int64
  finished : Int64
  responses : Nat → Response
  draws : Nat → Int32 → Int32

def Surroundings.request (around : Surroundings) (context : RequestContext) : Request where
  apiKey := around.apiKey
  context
  begun := around.begun
  finished := around.finished
  responses := around.responses
  draws := around.draws

/-- `ok()` looks for data; without data and without an error, `*result.error` is undefined. A request
that breaks off gives the handler nothing to answer with. -/
def answerOf {D : Type} : Except Abort (ProviderResult D) → ProviderAnswer D
  | .error _ => .thrown
  | .ok { data := some data, .. } => .data data
  | .ok { data := none, error := some error } => .error error
  | .ok { data := none, error := none } => .thrown

def HttpResponse.status : HttpResponse → Nat
  | .json status _ _ | .eventStream status _ _ => status

section
variable {D : Type} (platform : Platform D) (config : ProviderConfig)
  (breaker : CircuitBreakerState)

/-- `HttpProviderBase`: every operation is one `performJsonOperation`. -/
def httpProvider (around : Surroundings) : IProvider D where
  call _ _ context :=
    answerOf (performJsonOperation platform config breaker (around.request context)).result

/-- What requests, one after another, leave in the breaker. -/
def breakerAfter (history : List Request) : CircuitBreakerState :=
  history.foldl (fun breaker request => (performHttpRequest platform config breaker request).breaker)
    {}

/-- The upstream is not contacted because of the breaker or of DRY_RUN. -/
def Refused (request : Request) : Prop :=
  config.dryRun = true ∨
    preflight platform config request.apiKey request.context = none ∧
      breaker.isOpen request.begun = true

/-- What the status of the response tells: a refusal is a 503, and what comes of an upstream
attempt is none. -/
structure Told (request : Request) (exchange : Exchange) : Prop where
  refusal : Refused platform config breaker request →
    ∃ response, exchange.response = some response ∧ response.status = 503
  upstream : (performHttpRequest platform config breaker request).attempts ≠ 0 →
    ∀ response, exchange.response = some response → response.status ≠ 503

end

inductive Handler where
  | endpoint (providerKey route : Bytes)
  | xai (suffix : Bytes)

namespace Handler
variable {D : Type} (doubles : Doubles D) (getProvider : Bytes → Option (IProvider D))

def handle (operation : ProviderOperation) (req : HttpRequest) : Handler → Exchange
  | .endpoint providerKey route =>
    endpointHandler doubles getProvider providerKey route operation req
  | .xai suffix => xaiHandler doubles getProvider suffix operation req

/-- The provider that a handler looks for. -/
def providerKey (req : HttpRequest) : Handler → Option Bytes
  | .endpoint providerKey _ => some providerKey
  | .xai _ =>
    if resolveVendor req = ascii "grok" then some (ascii "xai")
    else if resolveVendor req = ascii "zhipu" then some (ascii "zhipu")
    else none

end Handler

section
variable {D : Type} {doubles : Doubles D} {provider : IProvider D} {operation : ProviderOperation}
  {req : HttpRequest} {seen : Exchange} {providerKey : Bytes}

/-- A provider is asked, and the status of an error is the one for its type. -/
def Performs (provider : IProvider D) (operation : ProviderOperation) (context : RequestContext)
    (exchange : Exchange) : Prop :=
  ∃ (seen : Exchange) (request : ProviderRequest) (onError : ProviderError D → HttpResponse)
    (onPayload : JsonOperationResult → Usage → HttpResponse),
    exchange = seen.perform provider operation request context onError onPayload ∧
      seen.response = none ∧ (∀ error, (onError error).status = statusFromErrorType error) ∧
      ∀ result usage, (onPayload result usage).status = 200

theorem status_respondWithError (sse : Bool) (error : ProviderError D) :
    (respondWithError doubles req sse error).status = statusFromErrorType error := by
  cases sse <;> rfl

theorem status_respondWithPayload (sse : Bool) (result : JsonOperationResult) (usage : Usage) :
    (respondWithPayload req sse result usage).status = 200 := by
  cases sse <;> rfl

theorem performs_endpoint (hseen : seen.response = none) (sse : Bool) (request : ProviderRequest)
    (context : RequestContext) :
    Performs provider operation context
      (seen.perform provider operation request context (respondWithError doubles req sse)
        (respondWithPayload req sse)) :=
  ⟨seen, request, _, _, rfl, hseen, status_respondWithError sse, status_respondWithPayload sse⟩

theorem performs_xai (hseen : seen.response = none) (request : ProviderRequest)
    (context : RequestContext) :
    Performs provider operation context
      (seen.perform provider operation request context (respondError doubles)
        (fun result _ => respondJson result)) :=
  ⟨seen, request, _, _, rfl, hseen, fun _ => rfl, fun _ _ => rfl⟩

theorem serveXai_performs (hcall : seen.call = none) (hseen : seen.response = none) :
    (serveXai doubles providerKey operation req provider seen).call = none ∨
      Performs provider operation ⟨resolveRequestId req⟩
        (serveXai doubles providerKey operation req provider seen) := by
  by_cases hop : operation.HasBody
  · cases hjson : req.json with
    | none =>
      left
      obtain ⟨hlist, hjob⟩ := hop
      cases operation <;> simp_all [serveXai]
    | some body =>
      right
      rw [serveXai_body hop hjson]
      exact performs_xai hseen _ _
  · rcases not_hasBody.mp hop with rfl | rfl
    · exact .inr (performs_xai hseen _ _)
    · rw [serveXai]
      split
      · exact .inl hcall
      · exact .inr (performs_xai hseen _ _)

theorem serveEndpoint_performs (hcall : seen.call = none) (hseen : seen.response = none) :
    (serveEndpoint doubles providerKey operation req provider seen).call = none ∨
      Performs provider operation ⟨resolveRequestId req⟩
        (serveEndpoint doubles providerKey operation req provider seen) := by
  by_cases hbody : operation.HasBody ∧ req.json ≠ none
  · obtain ⟨hop, hsome⟩ := hbody
    obtain ⟨body, hjson⟩ := Option.ne_none_iff_exists'.mp hsome
    rw [serveEndpoint_body hop hjson]
    cases resolveTransport req body with
    | error e => exact .inl hcall
    | ok resolved =>
      dsimp only
      split
      · exact .inl hcall
      · exact .inr (performs_endpoint hseen _ _ _)
  · have hagree : ¬ operation.HasBody ∨ req.json = none := by
      rw [not_and_or, not_not] at hbody
      exact hbody
    rw [serve_agree hagree]
    exact serveXai_performs hcall hseen

/-- A handler that finds its provider serves the request with it, in one of the two ways. -/
theorem handle_serves (doubles : Doubles D) (handler : Handler) (operation : ProviderOperation)
    {getProvider : Bytes → Option (IProvider D)} (hkey : handler.providerKey req = some providerKey)
    (hprovider : getProvider providerKey = some provider) :
    ∃ seen : Exchange, seen.call = none ∧ seen.response = none ∧
      (handler.handle doubles getProvider operation req =
          serveEndpoint doubles providerKey operation req provider seen ∨
        handler.handle doubles getProvider operation req =
          serveXai doubles providerKey operation req provider seen) := by
  cases handler with
  | endpoint key route =>
    cases hkey
    rw [Handler.handle, endpointHandler, hprovider]
    exact ⟨_, rfl, rfl, .inl rfl⟩
  | xai suffix =>
    rw [Handler.providerKey] at hkey
    rw [Handler.handle, xaiHandler]
    by_cases hgrok : resolveVendor req = ascii "grok"
    · rw [if_pos hgrok] at hkey
      cases hkey
      simp only [if_pos hgrok, hprovider]
      exact ⟨_, rfl, rfl, .inr rfl⟩
    · by_cases hzhipu : resolveVendor req = ascii "zhipu"
      · rw [if_neg hgrok, if_pos hzhipu] at hkey
        cases hkey
        simp only [if_neg hgrok, if_pos hzhipu, hprovider]
        exact ⟨_, rfl, rfl, .inr rfl⟩
      · rw [if_neg hgrok, if_neg hzhipu] at hkey
        cases hkey

/-- A handler that asks a provider answers as the provider does. -/
theorem handle_performs (handler : Handler) {getProvider : Bytes → Option (IProvider D)}
    (hkey : handler.providerKey req = some providerKey)
    (hprovider : getProvider providerKey = some provider)
    (hasked : (handler.handle doubles getProvider operation req).call ≠ none) :
    Performs provider operation ⟨resolveRequestId req⟩
      (handler.handle doubles getProvider operation req) := by
  obtain ⟨seen, hcall, hseen, hserves⟩ := handle_serves doubles handler operation hkey hprovider
  rcases hserves with hendpoint | hxai
  · rw [hendpoint] at hasked ⊢
    exact (serveEndpoint_performs hcall hseen).resolve_left hasked
  · rw [hxai] at hasked ⊢
    exact (serveXai_performs hcall hseen).resolve_left hasked

theorem Performs.status_error {context : RequestContext} {exchange : Exchange}
    (h : Performs provider operation context exchange) {error : ProviderError D}
    (hcall : ∀ request, provider.call operation request context = .error error) :
    ∃ response, exchange.response = some response ∧
      response.status = statusFromErrorType error := by
  obtain ⟨seen, request, onError, onPayload, rfl, -, herror, -⟩ := h
  rw [Exchange.perform, hcall request]
  exact ⟨_, rfl, herror error⟩

theorem Performs.status_ne {context : RequestContext} {exchange : Exchange}
    (h : Performs provider operation context exchange) {status : Nat} (hok : status ≠ 200)
    (hcall : ∀ request error, provider.call operation request context = .error error →
      statusFromErrorType error ≠ status) :
    ∀ response, exchange.response = some response → response.status ≠ status := by
  obtain ⟨seen, request, onError, onPayload, rfl, hseen, herror, hpayload⟩ := h
  intro response hresponse
  unfold Exchange.perform at hresponse
  cases hanswer : provider.call operation request context with
  | thrown =>
    rw [hanswer] at hresponse
    cases hseen.symm.trans hresponse
  | error error =>
    rw [hanswer] at hresponse
    cases hresponse
    rw [herror]
    exact hcall request error hanswer
  | data result =>
    rw [hanswer] at hresponse
    cases hresponse
    rw [hpayload]
    exact hok.symm

end

section
variable {D : Type} {platform : Platform D} {config : ProviderConfig}
  {breaker : CircuitBreakerState} {around : Surroundings} {context : RequestContext}

/-- An error of the loop is one of authentication or one of the provider. -/
theorem status_endingOf {response : Response} {error : ProviderError D}
    (h : endingOf platform config context response = .failed error) :
    statusFromErrorType error = 401 ∨ statusFromErrorType error = 502 := by
  rw [endingOf] at h
  dsimp only at h
  split at h
  case h_1 message herror =>
    cases h
    exact .inr rfl
  case h_2 herror =>
    split at h
    case isTrue hauth =>
      cases h
      exact .inl rfl
    case isFalse hauth =>
      split at h
      case isTrue hstatus =>
        split at h
        case h_1 thrown hparse => cases h
        case h_2 errs hparse =>
          cases h
          exact .inr rfl
        case h_3 payload hparse =>
          cases husage : extractUsage payload <;> rw [husage] at h <;> cases h
      case isFalse hstatus =>
        cases h
        exact .inr rfl

/-- An error without data goes through `performJsonOperation` as it is. -/
theorem call_error {error : ProviderError D}
    (h : (performHttpRequest platform config breaker (around.request context)).result =
      .ok { error := some error }) (operation : ProviderOperation) (request : ProviderRequest) :
    (httpProvider platform config breaker around).call operation request context =
      .error error := by
  simp only [httpProvider, performJsonOperation, h, answerOf]

/-- An error that is returned is one of `performHttpRequest`. -/
theorem error_of_call {error : ProviderError D} {operation : ProviderOperation}
    {request : ProviderRequest}
    (h : (httpProvider platform config breaker around).call operation request context =
      .error error) :
    (performHttpRequest platform config breaker (around.request context)).result =
      .ok { error := some error } := by
  simp only [httpProvider, performJsonOperation] at h
  cases hresult : (performHttpRequest platform config breaker (around.request context)).result with
  | error thrown =>
    simp only [hresult] at h
    cases h
  | ok result =>
    obtain ⟨data, failure⟩ := result
    cases data with
    | none =>
      simp only [hresult] at h
      cases failure with
      | none => cases h
      | some failure =>
        cases h
        rfl
    | some data =>
      simp only [hresult, bind, Except.bind, pure, Except.pure] at h
      cases husage : extractUsage (transformResponse data.payload) with
      | error thrown =>
        rw [husage] at h
        cases h
      | ok usage =>
        cases hwritten : withUsage usage (transformResponse data.payload) with
        | error thrown =>
          simp only [husage, hwritten] at h
          cases h
        | ok payload =>
          simp only [husage, hwritten] at h
          cases h

/-- Every upstream attempt comes after the checks. -/
theorem endingOf_attempted {request : Request} {error : ProviderError D}
    (hattempts : (performHttpRequest platform config breaker request).attempts ≠ 0)
    (h : (performHttpRequest platform config breaker request).result =
      .ok { error := some error }) :
    ∃ response, endingOf platform config request.context response = .failed error := by
  cases hpreflight : preflight platform config request.apiKey request.context with
  | some early =>
    rw [performHttpRequest, hpreflight] at hattempts
    exact absurd rfl hattempts
  | none =>
    cases hcheck : breaker.check request.begun with
    | none =>
      simp only [performHttpRequest, hpreflight, hcheck] at hattempts
      exact absurd rfl hattempts
    | some admitted =>
      simp only [performHttpRequest, hpreflight, hcheck] at h
      obtain ⟨last, -, -, -, ⟨-, hloop⟩ | ⟨-, -, reason, -, hloop⟩⟩ :=
        attemptsFrom_spec platform config request config.maxRetries.toNat 0
      · refine ⟨request.responses last, ?_⟩
        rw [hloop] at h
        cases hending : endingOf platform config request.context (request.responses last) with
        | failed failure =>
          rw [hending] at h
          cases h
          rfl
        | succeeded data =>
          rw [hending] at h
          cases h
        | aborted abort =>
          rw [hending] at h
          cases h
      · rw [hloop] at h
        cases h

theorem result_of_dryRun (h : config.dryRun = true) (request : Request) :
    (performHttpRequest platform config breaker request).result =
      .ok { error := some (makeDryRunError platform config request.context) } := by
  rw [performHttpRequest, preflight, if_pos h]

theorem result_of_open {request : Request}
    (hpreflight : preflight platform config request.apiKey request.context = none)
    (hopen : breaker.isOpen request.begun = true) :
    (performHttpRequest platform config breaker request).result =
      .ok (makeCircuitOpenError platform config request.context) := by
  simp only [performHttpRequest, hpreflight, CircuitBreakerState.check_eq_none.mpr hopen]

/-- Whatever earlier requests have left in the breaker, a refusal is told as one exactly where it
is not the breaker that refuses. -/
theorem refusal_told_iff {doubles : Doubles D} {getProvider : Bytes → Option (IProvider D)}
    {providerKey : Bytes} (handler : Handler) (operation : ProviderOperation) (req : HttpRequest)
    (hkey : handler.providerKey req = some providerKey)
    (hprovider : getProvider providerKey = some (httpProvider platform config breaker around))
    (hasked : (handler.handle doubles getProvider operation req).call ≠ none) :
    Told platform config breaker (around.request ⟨resolveRequestId req⟩)
        (handler.handle doubles getProvider operation req) ↔
      ¬ (preflight platform config around.apiKey ⟨resolveRequestId req⟩ = none ∧
        breaker.isOpen around.begun = true) := by
  have hperforms := handle_performs handler hkey hprovider hasked
  constructor
  · intro htold hopen
    have hresult : (performHttpRequest platform config breaker
        (around.request ⟨resolveRequestId req⟩)).result =
          .ok (makeCircuitOpenError platform config ⟨resolveRequestId req⟩) :=
      result_of_open hopen.1 hopen.2
    obtain ⟨response, hresponse, h503⟩ := htold.refusal (.inr hopen)
    obtain ⟨response', hresponse', h502⟩ := hperforms.status_error (call_error hresult operation)
    cases hresponse.symm.trans hresponse'
    cases h503.symm.trans h502
  · intro hnot
    constructor
    case refusal =>
      intro hrefused
      rcases hrefused with hdry | hopen
      · exact hperforms.status_error
          (call_error (result_of_dryRun hdry (around.request _)) operation)
      · exact absurd hopen hnot
    case upstream =>
      intro hattempts
      apply hperforms.status_ne (by decide)
      intro request error hcall
      obtain ⟨response, hending⟩ := endingOf_attempted hattempts (error_of_call hcall)
      rcases status_endingOf hending with h401 | h502
      · omega
      · omega

end

/-- An upstream that rejects the key. -/
def rejecting (begun finished : Int64) : Surroundings where
  apiKey := some (ascii "key")
  begun
  finished
  responses := fun _ => unauthorized
  draws := fun _ => id

def rejected : Request := (rejecting 0 1).request ⟨ascii "a"⟩

def modelsHandler : Handler := .endpoint (ascii "openai") (ascii "/openai/models")

def modelsRequest : HttpRequest where
  parameter _ := []
  header _ := []
  requestId := some (ascii "b")
  json := none

/-- The request after the one whose failure has opened the breaker is answered with a 502. -/
theorem refusal_untold : ¬ ∀ (platform : Platform ℚ) (config : ProviderConfig)
    (history : List Request) (around : Surroundings) (doubles : Doubles ℚ)
    (getProvider : Bytes → Option (IProvider ℚ)) (providerKey : Bytes) (handler : Handler)
    (operation : ProviderOperation) (req : HttpRequest),
    handler.providerKey req = some providerKey →
    getProvider providerKey =
      some (httpProvider platform config (breakerAfter platform config history) around) →
    (handler.handle doubles getProvider operation req).call ≠ none →
      Told platform config (breakerAfter platform config history)
        (around.request ⟨resolveRequestId req⟩)
        (handler.handle doubles getProvider operation req) := by
  intro h
  have htold := h samplePlatform (sampleConfig 1 10000) [rejected] (rejecting 2 3) sampleDoubles
    (fun _ => some (httpProvider samplePlatform (sampleConfig 1 10000)
      (breakerAfter samplePlatform (sampleConfig 1 10000) [rejected]) (rejecting 2 3)))
    _ modelsHandler .listModels modelsRequest rfl rfl (fun hcall => by cases hcall)
  obtain ⟨response, hresponse, h503⟩ := htold.refusal (.inr ⟨rfl, by decide⟩)
  cases hresponse
  cases h503

theorem refusal_told_dryRun :
    Told samplePlatform { sampleConfig 1 10000 with dryRun := true }
      (breakerAfter samplePlatform (sampleConfig 1 10000) [rejected])
      ((rejecting 2 3).request ⟨ascii "b"⟩)
      (modelsHandler.handle sampleDoubles
        (fun _ => some (httpProvider samplePlatform { sampleConfig 1 10000 with dryRun := true }
          (breakerAfter samplePlatform (sampleConfig 1 10000) [rejected]) (rejecting 2 3)))
        .listModels modelsRequest) :=
  (refusal_told_iff modelsHandler .listModels modelsRequest rfl rfl
    (fun hcall => by cases hcall)).mpr (fun hopen => by cases hopen.1)

end SuperVoice.Providers
