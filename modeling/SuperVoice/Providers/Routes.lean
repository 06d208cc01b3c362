import SuperVoice.Http.Sse
import SuperVoice.Providers.HttpProviderBase

/-! The handlers that `registerRoutes` installs: the generic one of `registerEndpoint`, and the one
for `/xai`, which takes the provider from the vendor. -/
namespace SuperVoice.Providers
open Bytes Http

inductive ProviderOperation where
  | chat
  | embeddings
  | images
  | asr
  | tts
  | video
  | listModels
  | batches
  | jobStatus
  deriving DecidableEq

inductive HttpMethod where
  | get
  | post
  deriving DecidableEq

/-- What the handlers read of a request; an absent parameter or header is empty. -/
structure HttpRequest where
  parameter : Bytes → Bytes
  header : Bytes → Bytes
  /-- The attribute `request_id`. -/
  requestId : Option Bytes
  /-- `getJsonObject` -/
  json : Option Json

inductive ProviderRequest where
  | payload (value : Json)
  | jobId (id : Bytes)

/-- How a call of a provider ends; where it sets no data it sets the error. -/
inductive ProviderAnswer (D : Type) where
  | data (result : JsonOperationResult)
  | error (error : ProviderError D)
  | thrown

/-- Of the context no provider reads the vendor. -/
structure IProvider (D : Type) where
  call : ProviderOperation → ProviderRequest → RequestContext → ProviderAnswer D

/-- `double`, as far as the handlers use it. -/
structure Doubles (D : Type) where
  zero : D
  positive : D → Bool
  toString : D → Bytes
  json : D → Json

/-- An event stream is closed behind its events. -/
inductive HttpResponse where
  | json (status : Nat) (headers : List (Bytes × Bytes)) (body : Json)
  | eventStream (status : Nat) (headers : List (Bytes × Bytes)) (events : List StreamEvent)

/-- What a handler does with a request. -/
structure Exchange where
  /-- The attributes `observability.company` and `observability.endpoint`. -/
  observed : Option (Bytes × Bytes) := none
  /-- The attribute `observability.tokens_out`. -/
  tokensOut : Option UInt64 := none
  /-- What the provider was asked for. -/
  call : Option (ProviderOperation × ProviderRequest) := none
  /-- Missing when an exception leaves the handler. -/
  response : Option HttpResponse := none

def resolveRequestId (req : HttpRequest) : Bytes :=
  req.requestId.getD (req.header (ascii "X-Request-ID"))

inductive StreamTransport where
  | none
  | sse
  | webSocket
  deriving DecidableEq

def parseBoolString (value : Bytes) : Bool :=
  let lowered := toLower value
  lowered == ascii "1" || lowered == ascii "true" || lowered == ascii "yes"

/-- `text.find(pattern) != npos` -/
def contains (text pattern : Bytes) : Bool := text.tails.any fun rest => pattern.isPrefixOf rest

/-- The transport of a request that asks for a stream. -/
def negotiateTransport (req : HttpRequest) : StreamTransport :=
  let transportParam := toLower (req.parameter (ascii "transport"))
  if transportParam = ascii "websocket" ∨ transportParam = ascii "ws" then .webSocket
  else if transportParam = ascii "sse" ∨ transportParam = ascii "event-stream" then .sse
  else
    let accept := toLower (req.header (ascii "Accept"))
    if contains accept (ascii "text/event-stream") then .sse
    else if contains accept (ascii "websocket") then .webSocket
    else .sse

def Json.removeMember (key : Bytes) : Json → Json
  | .object members => .object (members.filter fun m => m.1 != key)
  | value => value

def streamFlag : Json → Bool
  | .bool value => value
  | .string value => parseBoolString value
  | _ => false

def queryStream (req : HttpRequest) : Bool := parseBoolString (req.parameter (ascii "stream"))

/-- The payload without the flag, whether a stream is requested, and the transport. -/
def resolveTransport (req : HttpRequest) (payload : Json) :
    Except JsonError (Json × Bool × StreamTransport) := do
  if ← payload.isMember (ascii "stream") then
    let bodyStream := streamFlag (← payload.member (ascii "stream"))
    let streamRequested := queryStream req || bodyStream
    return (payload.removeMember (ascii "stream"), streamRequested,
      if streamRequested then negotiateTransport req else .none)
  else
    return (payload, queryStream req, if queryStream req then negotiateTransport req else .none)

section Responses
variable {D : Type} (doubles : Doubles D)

/-- Members stand in the order of their keys. -/
def buildErrorPayload (error : ProviderError D) : Json :=
  .object [(ascii "error", .object [
    (ascii "code", .string error.code),
    (ascii "message", .string error.message),
    (ascii "provider", .string error.provider),
    (ascii "request_id", .string error.requestId),
    (ascii "retry_after", doubles.json error.retryAfter),
    (ascii "type", .string error.type)])]

def statusFromErrorType (error : ProviderError D) : Nat :=
  let lowered := toLower error.type
  if lowered = ascii "auth_error" then 401
  else if lowered = ascii "validation_error" then 400
  else if lowered = ascii "dry_run" then 503
  else if lowered = ascii "provider_unavailable" ∨ lowered = ascii "circuit_open" then 503
  else 502

def usageToJson (usage : Usage) : Json :=
  .object ([(ascii "audio_tokens", .uint usage.audioTokens),
    (ascii "cached_tokens", .uint usage.cachedTokens),
    (ascii "completion_tokens", .uint usage.completionTokens)] ++
    (if usage.note = [] then [] else [(ascii "note", .string usage.note)]) ++
    [(ascii "prompt_tokens", .uint usage.promptTokens),
      (ascii "total_tokens", .uint usage.totalTokens)])

def retryAfterHeader (error : ProviderError D) : List (Bytes × Bytes) :=
  if doubles.positive error.retryAfter then
    [(ascii "Retry-After", doubles.toString error.retryAfter)] else []

def providerRequestIdHeader (id : Bytes) : List (Bytes × Bytes) :=
  if id = [] then [] else [(ascii "X-Provider-Request-ID", id)]

/-- `respondError` of the `/xai` handler; `respondWithError` without a stream. -/
def respondError (error : ProviderError D) : HttpResponse :=
  .json (statusFromErrorType error) (retryAfterHeader doubles error)
    (buildErrorPayload doubles error)

/-- A result as JSON, in both handlers. -/
def respondJson (result : JsonOperationResult) : HttpResponse :=
  .json 200 (providerRequestIdHeader result.providerRequestId) result.payload

/-- The headers of `SseStream::create`. -/
def sseHeaders (req : HttpRequest) : List (Bytes × Bytes) :=
  [(ascii "Content-Type", ascii "text/event-stream; charset=utf-8"),
    (ascii "Cache-Control", ascii "no-cache"), (ascii "Connection", ascii "keep-alive"),
    (ascii "X-Accel-Buffering", ascii "no")] ++
    (if req.header (ascii "X-Request-ID") = [] then []
      else [(ascii "X-Request-ID", req.header (ascii "X-Request-ID"))])

/-- `sse` says that a stream is requested and its transport is `Sse`. -/
def respondWithError (req : HttpRequest) (sse : Bool) (error : ProviderError D) : HttpResponse :=
  if sse then
    .eventStream (statusFromErrorType error) (sseHeaders req ++ retryAfterHeader doubles error)
      [.error (if error.code = [] then error.type else error.code) error.message
        (.ofNat (statusFromErrorType error))]
  else respondError doubles error

def respondWithPayload (req : HttpRequest) (sse : Bool) (result : JsonOperationResult)
    (usage : Usage) : HttpResponse :=
  if sse then
    .eventStream 200 (sseHeaders req ++ providerRequestIdHeader result.providerRequestId)
      [.json (ascii "delta") (.object [(ascii "data", result.payload)]),
        .json (ascii "done") (donePayload (.object (
          (if result.providerRequestId = [] then []
            else [(ascii "provider_request_id", .string result.providerRequestId)]) ++
          [(ascii "usage", usageToJson usage)])))]
  else respondJson result

end Responses

/-- Some operations report no usage. -/
def usageOf : ProviderOperation → JsonOperationResult → Usage
  | .chat, result | .embeddings, result | .asr, result | .tts, result | .video, result =>
    result.usage
  | .images, _ | .batches, _ | .listModels, _ | .jobStatus, _ => {}

section Handlers
variable {D : Type} (doubles : Doubles D)

/-- Ask the provider, note the tokens and answer. -/
def Exchange.perform (seen : Exchange) (provider : IProvider D) (operation : ProviderOperation)
    (request : ProviderRequest) (context : RequestContext)
    (respondError : ProviderError D → HttpResponse)
    (respondPayload : JsonOperationResult → Usage → HttpResponse) : Exchange :=
  match provider.call operation request context with
  | .thrown => { seen with call := some (operation, request) }
  | .error error => { seen with
      call := some (operation, request)
      response := some (respondError error) }
  | .data result => { seen with
      call := some (operation, request)
      tokensOut := some (usageOf operation result).completionTokens
      response := some (respondPayload result (usageOf operation result)) }

def Exchange.respond (seen : Exchange) (response : HttpResponse) : Exchange :=
  { seen with response := some response }

def providerNotConfigured (provider requestId : Bytes) : ProviderError D where
  type := ascii "provider_error"
  message := ascii "Provider is not configured."
  provider
  code := ascii "provider_not_configured"
  requestId
  retryAfter := doubles.zero

def validationError (message provider code requestId : Bytes) : ProviderError D where
  type := ascii "validation_error"
  message
  provider
  code
  requestId
  retryAfter := doubles.zero

def missingJobId (provider requestId : Bytes) : ProviderError D :=
  validationError doubles (ascii "Missing required path parameter 'id'.") provider
    (ascii "missing_job_id") requestId

def invalidJson (provider requestId : Bytes) : ProviderError D :=
  validationError doubles (ascii "Request body must be valid JSON.") provider
    (ascii "invalid_json") requestId

def unsupportedTransport (provider requestId : Bytes) : ProviderError D :=
  validationError doubles
    (ascii "WebSocket streaming transport is not supported on this endpoint.") provider
    (ascii "unsupported_transport") requestId

def invalidVendor (requestId : Bytes) : ProviderError D :=
  validationError doubles
    (ascii "vendor query parameter or X-Vendor header must be 'grok' or 'zhipu'.") (ascii "xai")
    (ascii "invalid_vendor") requestId

/-- The handler of `registerEndpoint` once it has its provider. -/
def serveEndpoint (providerKey : Bytes) (operation : ProviderOperation) (req : HttpRequest)
    (provider : IProvider D) (seen : Exchange) : Exchange :=
  let context : RequestContext := ⟨resolveRequestId req⟩
  let perform := fun sse request => seen.perform provider operation request context
    (respondWithError doubles req sse) (respondWithPayload req sse)
  match operation with
  | .jobStatus =>
    let jobId := req.parameter (ascii "id")
    if jobId = [] then
      seen.respond (respondWithError doubles req false
        (missingJobId doubles providerKey context.requestId))
    else perform false (.jobId jobId)
  | .listModels => perform false (.payload (.object []))
  | _ =>
    match req.json with
    | none => seen.respond (respondWithError doubles req false
        (invalidJson doubles providerKey context.requestId))
    | some body =>
      match resolveTransport req body with
      | .error _ => seen
      | .ok (payload, streamRequested, transport) =>
        if streamRequested ∧ transport = .webSocket then
          seen.respond (.json 400 [] (buildErrorPayload doubles
            (unsupportedTransport doubles providerKey context.requestId)))
        else perform (streamRequested && transport == .sse) (.payload payload)

/-- The handler of `registerEndpoint`. -/
def endpointHandler (getProvider : Bytes → Option (IProvider D)) (providerKey route : Bytes)
    (operation : ProviderOperation) (req : HttpRequest) : Exchange :=
  let seen : Exchange := { observed := some (providerKey, route) }
  match getProvider providerKey with
  | none => seen.respond (.json 503 [] (buildErrorPayload doubles
      (providerNotConfigured doubles providerKey (resolveRequestId req))))
  | some provider => serveEndpoint doubles providerKey operation req provider seen

def resolveVendor (req : HttpRequest) : Bytes :=
  let vendor := req.parameter (ascii "vendor")
  toLower (if vendor = [] then req.header (ascii "X-Vendor") else vendor)

/-- The handler for `/xai` once it has its provider. -/
def serveXai (providerKey : Bytes) (operation : ProviderOperation) (req : HttpRequest)
    (provider : IProvider D) (seen : Exchange) : Exchange :=
  let context : RequestContext := ⟨resolveRequestId req⟩
  let perform := fun request => seen.perform provider operation request context
    (respondError doubles) (fun result _ => respondJson result)
  match operation with
  | .jobStatus =>
    let jobId := req.parameter (ascii "id")
    if jobId = [] then
      seen.respond (respondError doubles (missingJobId doubles providerKey context.requestId))
    else perform (.jobId jobId)
  | .listModels => perform (.payload (.object []))
  | _ =>
    match req.json with
    | none => seen.respond
        (respondError doubles (invalidJson doubles providerKey context.requestId))
    | some body => perform (.payload body)

/-- The handler that `registerRoutes` installs for `/xai`. -/
def xaiHandler (getProvider : Bytes → Option (IProvider D)) (suffix : Bytes)
    (operation : ProviderOperation) (req : HttpRequest) : Exchange :=
  let vendorLower := resolveVendor req
  let serve := fun providerKey =>
    let seen : Exchange := { observed := some (providerKey, ascii "/xai/" ++ suffix) }
    match getProvider providerKey with
    | none => seen.respond (.json 503 [] (buildErrorPayload doubles
        (providerNotConfigured doubles providerKey (resolveRequestId req))))
    | some provider => serveXai doubles providerKey operation req provider seen
  if vendorLower = ascii "grok" then serve (ascii "xai")
  else if vendorLower = ascii "zhipu" then serve (ascii "zhipu")
  else ({} : Exchange).respond
    (.json 400 [] (buildErrorPayload doubles (invalidVendor doubles (resolveRequestId req))))

structure Route where
  path : Bytes
  method : HttpMethod
  handler : HttpRequest → Exchange

def registerEndpoint (getProvider : Bytes → Option (IProvider D))
    (routePrefix providerKey suffix : Bytes) (operation : ProviderOperation) (method : HttpMethod) :
    Route :=
  let path := ascii "/" ++ routePrefix ++ ascii "/" ++ suffix
  ⟨path, method, endpointHandler doubles getProvider providerKey path operation⟩

def registerCompany (getProvider : Bytes → Option (IProvider D))
    (routePrefix providerKey : Bytes) : List Route :=
  let register := registerEndpoint doubles getProvider routePrefix providerKey
  [register (ascii "chat/completions") .chat .post,
    register (ascii "embeddings") .embeddings .post,
    register (ascii "images/generations") .images .post,
    register (ascii "audio/transcriptions") .asr .post,
    register (ascii "audio/speech") .tts .post,
    register (ascii "video/generations") .video .post,
    register (ascii "models") .listModels .get,
    register (ascii "batches") .batches .post,
    register (ascii "jobs/\x7bid\x7d") .jobStatus .get]

def xaiOperations : List (Bytes × ProviderOperation) := [
  (ascii "chat/completions", .chat),
  (ascii "embeddings", .embeddings),
  (ascii "images/generations", .images),
  (ascii "audio/transcriptions", .asr),
  (ascii "audio/speech", .tts),
  (ascii "video/generations", .video),
  (ascii "models", .listModels),
  (ascii "batches", .batches),
  (ascii "jobs/\x7bid\x7d", .jobStatus)]

/-- The loop over `xaiOperations`. -/
def registerXai (getProvider : Bytes → Option (IProvider D)) : List Route :=
  xaiOperations.map fun (suffix, operation) =>
    { path := ascii "/xai/" ++ suffix
      method := if operation = .listModels ∨ operation = .jobStatus then .get else .post
      handler := xaiHandler doubles getProvider suffix operation }

end Handlers

section Agreement
variable {D : Type} {doubles : Doubles D}

@[simp] theorem call_respond (seen : Exchange) (response : HttpResponse) :
    (seen.respond response).call = seen.call := rfl

theorem call_perform (seen : Exchange) (provider : IProvider D) (operation : ProviderOperation)
    (request : ProviderRequest) (context : RequestContext)
    (onError : ProviderError D → HttpResponse)
    (onPayload : JsonOperationResult → Usage → HttpResponse) :
    (seen.perform provider operation request context onError onPayload).call =
      some (operation, request) := by
  unfold Exchange.perform
  split <;> rfl

theorem negotiateTransport_cases (req : HttpRequest) :
    negotiateTransport req = .sse ∨ negotiateTransport req = .webSocket := by
  unfold negotiateTransport
  dsimp only
  split
  · exact .inr rfl
  · split
    · exact .inl rfl
    · split
      · exact .inl rfl
      · split
        · exact .inr rfl
        · exact .inl rfl

/-- A payload that has the member is another one without it. -/
theorem removeMember_ne {key : Bytes} {payload : Json} (h : payload.isMember key = .ok true) :
    payload.removeMember key ≠ payload := by
  cases payload with
  | object members =>
    have hfound : ∃ m ∈ members, (m.1 == key) = true := by
      have hsome : ((members.find? fun m => m.1 == key).map Prod.snd).isSome = true := by
        simpa [Json.isMember, Json.find, Except.map] using h
      rw [Option.isSome_map, List.find?_isSome] at hsome
      exact hsome
    obtain ⟨m, hm, hkey⟩ := hfound
    intro heq
    have hall := List.filter_eq_self.mp (Json.object.inj heq) m hm
    simp [bne, hkey] at hall
  | _ => simp [Json.isMember, Json.find, Except.map] at h

variable {provider : IProvider D} {operation : ProviderOperation} {req : HttpRequest}

/-- The body is passed on as it is and no stream is begun: the condition under which the `/xai`
handler does what the generic one does. -/
def Unstreamed (provider : IProvider D) (operation : ProviderOperation) (req : HttpRequest)
    (body : Json) : Prop :=
  body.isMember (ascii "stream") = .ok false ∧
    (queryStream req = false ∨ negotiateTransport req ≠ .webSocket ∧
      provider.call operation (.payload body) ⟨resolveRequestId req⟩ = .thrown)

/-- The provider is asked for the same, and the client is answered the same. -/
structure Exchange.Same (e e' : Exchange) : Prop where
  call : e.call = e'.call
  response : e.response = e'.response

theorem same_perform_iff (seen : Exchange) (request : ProviderRequest) (context : RequestContext) :
    (seen.perform provider operation request context (respondWithError doubles req true)
        (respondWithPayload req true)).Same
      (seen.perform provider operation request context (respondError doubles)
        (fun result _ => respondJson result)) ↔
    provider.call operation request context = .thrown := by
  refine ⟨fun h => ?_, fun h => ?_⟩
  · have hresponse := h.response
    unfold Exchange.perform at hresponse
    cases hcall : provider.call operation request context with
    | thrown => rfl
    | error error => simp [hcall, respondWithError, respondError] at hresponse
    | data result => simp [hcall, respondWithPayload, respondJson] at hresponse
  · unfold Exchange.perform
    rw [h]
    exact ⟨rfl, rfl⟩

variable (req) in
theorem resolveTransport_member {body : Json} (h : body.isMember (ascii "stream") = .ok true) :
    ∃ streamRequested transport, resolveTransport req body =
      .ok (body.removeMember (ascii "stream"), streamRequested, transport) := by
  cases hfind : body.find (ascii "stream") with
  | error e =>
    rw [Json.isMember, hfind] at h
    cases h
  | ok found =>
    let streamRequested := queryStream req || streamFlag (found.getD .null)
    refine ⟨streamRequested, if streamRequested then negotiateTransport req else .none, ?_⟩
    rw [resolveTransport, h, Json.member, hfind]
    rfl

theorem resolveTransport_no_member {body : Json}
    (h : body.isMember (ascii "stream") = .ok false) : resolveTransport req body =
      .ok (body, queryStream req, if queryStream req then negotiateTransport req else .none) := by
  rw [resolveTransport, h]
  rfl

/-- The operations that send a payload. -/
def ProviderOperation.HasBody (operation : ProviderOperation) : Prop :=
  operation ≠ .listModels ∧ operation ≠ .jobStatus

instance (operation : ProviderOperation) : Decidable operation.HasBody :=
  inferInstanceAs (Decidable (_ ∧ _))

theorem not_hasBody : ¬ operation.HasBody ↔ operation = .listModels ∨ operation = .jobStatus := by
  rw [ProviderOperation.HasBody, Classical.not_and_iff_not_or_not, not_not, not_not]

variable {providerKey : Bytes} {seen : Exchange} {body : Json}

theorem serveEndpoint_body (hop : operation.HasBody) (hjson : req.json = some body) :
    serveEndpoint doubles providerKey operation req provider seen =
      match resolveTransport req body with
      | .error _ => seen
      | .ok (payload, streamRequested, transport) =>
        if streamRequested ∧ transport = .webSocket then
          seen.respond (.json 400 [] (buildErrorPayload doubles
            (unsupportedTransport doubles providerKey (resolveRequestId req))))
        else
          let sse := streamRequested && transport == .sse
          seen.perform provider operation (.payload payload) ⟨resolveRequestId req⟩
            (respondWithError doubles req sse) (respondWithPayload req sse) := by
  obtain ⟨hlist, hjob⟩ := hop
  cases operation <;> simp_all [serveEndpoint]

theorem serveXai_body (hop : operation.HasBody) (hjson : req.json = some body) :
    serveXai doubles providerKey operation req provider seen =
      seen.perform provider operation (.payload body) ⟨resolveRequestId req⟩
        (respondError doubles) (fun result _ => respondJson result) := by
  obtain ⟨hlist, hjob⟩ := hop
  cases operation <;> simp_all [serveXai]

/-- Without a payload the handlers agree. -/
theorem serve_agree (h : ¬ operation.HasBody ∨ req.json = none) :
    serveEndpoint doubles providerKey operation req provider seen =
      serveXai doubles providerKey operation req provider seen := by
  by_cases hop : operation.HasBody
  · have hjson := h.resolve_left (not_not_intro hop)
    obtain ⟨hlist, hjob⟩ := hop
    cases operation <;> simp_all [serveEndpoint, serveXai, respondWithError]
  · rcases not_hasBody.mp hop with rfl | rfl
    · rfl
    · rfl

theorem serve_same_iff (hop : operation.HasBody) (hjson : req.json = some body)
    (hcall : seen.call = none) :
    (serveEndpoint doubles providerKey operation req provider seen).Same
      (serveXai doubles providerKey operation req provider seen) ↔
    Unstreamed provider operation req body := by
  rw [serveEndpoint_body hop hjson, serveXai_body hop hjson]
  have hother : ∀ e : Exchange, e.call ≠ some (operation, .payload body) →
      ¬ Unstreamed provider operation req body →
      (e.Same (seen.perform provider operation (.payload body) ⟨resolveRequestId req⟩
          (respondError doubles) (fun result _ => respondJson result)) ↔
        Unstreamed provider operation req body) := by
    intro e he hnot
    refine ⟨fun hsame => absurd ?_ he, fun h => absurd h hnot⟩
    rw [hsame.call, call_perform]
  cases hmember : body.isMember (ascii "stream") with
  | error e =>
    have hthrows : resolveTransport req body = .error e := by
      rw [resolveTransport, hmember]
      rfl
    have hnot : ¬ Unstreamed provider operation req body := fun h => by
      rw [h.1] at hmember
      cases hmember
    rw [hthrows]
    exact hother _ (by simp [hcall]) hnot
  | ok isMember =>
    cases isMember with
    | true =>
      obtain ⟨streamRequested, transport, hresolved⟩ := resolveTransport_member req hmember
      have hnot : ¬ Unstreamed provider operation req body := fun h => by
        rw [h.1] at hmember
        cases hmember
      have hpayload : some (operation, ProviderRequest.payload (body.removeMember (ascii "stream"))) ≠
          some (operation, .payload body) := by
        simpa using removeMember_ne hmember
      rw [hresolved]
      dsimp only
      split
      · exact hother _ (by simp [hcall]) hnot
      · exact hother _ (by rw [call_perform]; exact hpayload) hnot
    | false =>
      have hunstreamed : Unstreamed provider operation req body ↔ queryStream req = false ∨
          negotiateTransport req ≠ .webSocket ∧
            provider.call operation (.payload body) ⟨resolveRequestId req⟩ = .thrown :=
        ⟨fun h => h.2, fun h => ⟨hmember, h⟩⟩
      rw [resolveTransport_no_member hmember]
      cases hquery : queryStream req with
      | false => exact iff_of_true ⟨rfl, rfl⟩ (hunstreamed.mpr (.inl hquery))
      | true =>
        rcases negotiateTransport_cases req with htransport | htransport
        · rw [hunstreamed, hquery, htransport]
          apply (same_perform_iff seen _ _).trans
          simp
        · have hnot : ¬ Unstreamed provider operation req body := by
            rw [hunstreamed, hquery, htransport]
            simp
          rw [htransport]
          exact hother _ (by simp [hcall]) hnot

/-- A request with a payload streams nothing, or there is no provider to serve it. -/
def Aligned (getProvider : Bytes → Option (IProvider D)) (operation : ProviderOperation)
    (req : HttpRequest) : Prop :=
  ∀ provider body, operation.HasBody → getProvider (ascii "xai") = some provider →
    req.json = some body → Unstreamed provider operation req body

/-- The `/xai` handler with the vendor `grok` against the generic handler for `xai`. -/
theorem xai_same_iff (doubles : Doubles D) (getProvider : Bytes → Option (IProvider D))
    (suffix : Bytes) (operation : ProviderOperation) (method : HttpMethod) (req : HttpRequest)
    (hvendor : resolveVendor req = ascii "grok") :
    ((registerEndpoint doubles getProvider (ascii "xai") (ascii "xai") suffix operation
      method).handler req).Same (xaiHandler doubles getProvider suffix operation req) ↔
    Aligned getProvider operation req := by
  have hroute : ascii "/" ++ ascii "xai" ++ ascii "/" ++ suffix = ascii "/xai/" ++ suffix := rfl
  rw [registerEndpoint, xaiHandler, hvendor, if_pos rfl]
  dsimp only
  rw [hroute, endpointHandler]
  cases hprovider : getProvider (ascii "xai") with
  | none => exact iff_of_true ⟨rfl, rfl⟩ fun provider _ _ h _ => by rw [hprovider] at h; cases h
  | some provider =>
    by_cases hbody : operation.HasBody ∧ ∃ body, req.json = some body
    · obtain ⟨hop, body, hjson⟩ := hbody
      refine (serve_same_iff hop hjson rfl).trans ⟨fun h provider' body' _ hp hb => ?_, fun h => ?_⟩
      · rw [hprovider] at hp
        rw [hjson] at hb
        cases hp
        cases hb
        exact h
      · exact h provider body hop hprovider hjson
    · have hnone : ¬ operation.HasBody ∨ req.json = none := by
        by_contra hnot
        rw [not_or, not_not] at hnot
        exact hbody ⟨hnot.1, Option.ne_none_iff_exists'.mp hnot.2⟩
      refine iff_of_true ?_ fun _ body hop _ hjson => absurd ⟨hop, body, hjson⟩ hbody
      show Exchange.Same (serveEndpoint doubles _ _ _ _ _) (serveXai doubles _ _ _ _ _)
      rw [serve_agree hnone]
      exact ⟨rfl, rfl⟩

end Agreement

/-- The loop installs the routes of a company with the prefix `xai`. -/
theorem registerXai_routes {D : Type} (doubles : Doubles D)
    (getProvider : Bytes → Option (IProvider D)) :
    (registerXai doubles getProvider).map (fun route => (route.path, route.method)) =
      (registerCompany doubles getProvider (ascii "xai") (ascii "xai")).map
        fun route => (route.path, route.method) := rfl

section Sample

def sampleDoubles : Doubles ℚ where
  zero := 0
  positive value := decide (0 < value)
  toString _ := ascii "0.000000"
  json := .real

def sampleProvider : IProvider ℚ where
  call _ _ _ := .data ⟨.object [], {}, []⟩

/-- A chat request with the vendor `grok` and one member in its body. -/
def sampleRequest (member : Bytes × Json) : HttpRequest where
  parameter name := if name = ascii "vendor" then ascii "grok" else []
  header _ := []
  requestId := some (ascii "r")
  json := some (.object [member])

theorem resolveVendor_sample (member : Bytes × Json) :
    resolveVendor (sampleRequest member) = ascii "grok" := rfl

theorem xai_same_iff_sample :
    ((registerEndpoint sampleDoubles (fun _ => some sampleProvider) (ascii "xai") (ascii "xai")
      (ascii "chat/completions") .chat .post).handler
        (sampleRequest (ascii "model", .string (ascii "grok-2")))).Same
      (xaiHandler sampleDoubles (fun _ => some sampleProvider) (ascii "chat/completions") .chat
        (sampleRequest (ascii "model", .string (ascii "grok-2")))) := by
  apply (xai_same_iff _ _ _ _ _ _ (resolveVendor_sample _)).mpr
  intro provider body _ _ hbody
  cases hbody
  exact ⟨rfl, .inl (by decide)⟩

/-- A chat request that asks for a stream: the generic handler takes the flag out of the payload,
the `/xai` handler passes it on. -/
theorem xai_same_fails : ¬ ∀ (D : Type) (doubles : Doubles D)
    (getProvider : Bytes → Option (IProvider D)) (suffix : Bytes) (operation : ProviderOperation)
    (method : HttpMethod) (req : HttpRequest), resolveVendor req = ascii "grok" →
    ((registerEndpoint doubles getProvider (ascii "xai") (ascii "xai") suffix operation
      method).handler req).Same (xaiHandler doubles getProvider suffix operation req) := by
  intro hclaim
  have hsame := hclaim ℚ sampleDoubles (fun _ => some sampleProvider) (ascii "chat/completions")
    .chat .post (sampleRequest (ascii "stream", .bool true)) (resolveVendor_sample _)
  have hcall : some (ProviderOperation.chat, ProviderRequest.payload (.object [])) =
      some (.chat, .payload (.object [(ascii "stream", .bool true)])) := hsame.call
  simp at hcall

end Sample

end SuperVoice.Providers
