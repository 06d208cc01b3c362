import SuperVoice.Providers.Backoff
import SuperVoice.Providers.Json

/-! `HttpProviderBase`: the circuit breaker and the retry loop of one request. The upstream's
responses, the readings of the clock and the numbers drawn for the backoff are inputs; how long a
sleep takes shows only in the readings. -/
namespace SuperVoice.Providers

structure ProviderConfig where
  name : Bytes
  baseUrl : Bytes
  apiKeyEnv : Bytes
  maxRetries : UInt64
  /-- The backoff and the cooldown are in milliseconds. -/
  baseBackoff : Int64
  maxBackoff : Int64
  dryRun : Bool
  circuitBreakerThreshold : UInt64
  circuitBreakerCooldown : Int64

structure RequestContext where
  requestId : Bytes

/-- What is taken from outside the repository: floating-point numbers and the JSON parser. -/
structure Platform (D : Type) where
  zero : D
  /-- `std::stod`; `none` where it throws. -/
  stod : Bytes → Option D
  /-- A number of milliseconds in seconds. -/
  seconds : Int64 → D
  /-- The value of a JSON text or the reader's error messages, unless the reader throws. -/
  parse : Bytes → Except JsonError (Except Bytes Json)

structure ProviderError (D : Type) where
  type : Bytes
  message : Bytes
  provider : Bytes
  code : Bytes
  requestId : Bytes
  retryAfter : D

structure JsonOperationResult where
  payload : Json
  usage : Usage
  providerRequestId : Bytes

structure ProviderResult (D : Type) where
  data : Option JsonOperationResult := none
  error : Option (ProviderError D) := none

/-- `cpr::Response`: the transport error, if any, and what the upstream sent. -/
structure Response where
  error : Option Bytes
  statusCode : Int
  text : Bytes
  header : List (Bytes × Bytes)

/-- A `time_point` of the steady clock counts nanoseconds; zero is the default value. -/
structure CircuitBreakerState where
  failures : UInt64 := 0
  openUntil : Int64 := 0
  deriving DecidableEq

def toLower (value : Bytes) : Bytes :=
  value.map fun c => if 65 ≤ c ∧ c ≤ 90 then c + 32 else c

namespace Response

/-- Header names compare without regard to case. -/
def find (response : Response) (name : Bytes) : Option Bytes :=
  (response.header.find? fun entry => toLower entry.1 == toLower name).map Prod.snd

end Response

def requestIdCandidates : List Bytes :=
  [Bytes.ascii "x-request-id", Bytes.ascii "x-requestid", Bytes.ascii "request-id"]

def extractRequestId (response : Response) : Bytes :=
  match requestIdCandidates.findSome? response.find with
  | some id => id
  | none =>
    ((response.header.find? fun entry => toLower entry.1 == Bytes.ascii "x-request-id").map
      Prod.snd).getD []

section
variable {D : Type} (platform : Platform D) (config : ProviderConfig)

def parseRetryAfter (response : Response) : D :=
  match (response.find (Bytes.ascii "Retry-After")).bind platform.stod with
  | some seconds => seconds
  | none =>
    (response.header.findSome? fun entry =>
      if toLower entry.1 == Bytes.ascii "retry-after" then platform.stod entry.2 else none).getD
      platform.zero

def makeDryRunError (context : RequestContext) : ProviderError D where
  type := Bytes.ascii "dry_run"
  message := Bytes.ascii "DRY_RUN is enabled; upstream call skipped."
  provider := config.name
  code := Bytes.ascii "dry_run"
  requestId := context.requestId
  retryAfter := platform.zero

def makeAuthError (code message : Bytes) (context : RequestContext) : ProviderError D where
  type := Bytes.ascii "auth_error"
  message := message
  provider := config.name
  code := code
  requestId := context.requestId
  retryAfter := platform.zero

def makeProviderError (code message requestId : Bytes) (retryAfter : D) : ProviderError D where
  type := Bytes.ascii "provider_error"
  message := message
  provider := config.name
  code := code
  requestId := requestId
  retryAfter := retryAfter

def makeCircuitOpenError (context : RequestContext) : ProviderResult D where
  error := some (makeProviderError config (Bytes.ascii "circuit_open")
    (Bytes.ascii "Provider circuit breaker open after repeated failures.") context.requestId
    (platform.seconds config.circuitBreakerCooldown))

/-- The checks before the breaker; `apiKey` is the value of the configured variable. -/
def preflight (apiKey : Option Bytes) (context : RequestContext) : Option (ProviderError D) :=
  if config.dryRun then
    some (makeDryRunError platform config context)
  else if config.baseUrl.isEmpty then
    some (makeProviderError config (Bytes.ascii "missing_base_url")
      (Bytes.ascii "Provider base URL is not configured. Please update providers.yaml.")
      context.requestId platform.zero)
  else if config.apiKeyEnv.isEmpty then
    some (makeProviderError config (Bytes.ascii "missing_api_key_env")
      (Bytes.ascii "Provider API key environment variable is not configured.")
      context.requestId platform.zero)
  else if (apiKey.getD []).isEmpty then
    some (makeAuthError platform config (Bytes.ascii "missing_api_key")
      (Bytes.ascii "API key environment variable is empty or undefined.") context)
  else none

/-- What a request breaks off with. -/
inductive Abort where
  /-- The reader or the reading of the usage throws out of the request. -/
  | threw (error : JsonError)
  /-- Working out the delay before the next attempt is undefined. -/
  | undefined (reason : Signed.Undefined)
  deriving DecidableEq

/-- How a request ends after an upstream attempt that is its last. -/
inductive Ending (D : Type) where
  | failed (error : ProviderError D)
  | succeeded (data : JsonOperationResult)
  | aborted (abort : Abort)

/-- Another attempt follows if one is left. The responses on which the source returns at once,
401, 403 and a 2xx that parses, are not among these. -/
def shouldRetry (response : Response) : Bool :=
  response.error.isSome || response.statusCode == 429 ||
    (500 ≤ response.statusCode && response.statusCode < 600)

def endingOf (context : RequestContext) (response : Response) : Ending D :=
  let providerRequestId := extractRequestId response
  let retryAfter := parseRetryAfter platform response
  let requestId := if providerRequestId.isEmpty then context.requestId else providerRequestId
  match response.error with
  | some message =>
    .failed (makeProviderError config (Bytes.ascii "network_error") message requestId retryAfter)
  | none =>
    if response.statusCode = 401 ∨ response.statusCode = 403 then
      let message := if response.text.isEmpty then
        Bytes.ascii "Authentication with upstream provider failed." else response.text
      .failed { makeAuthError platform config (Bytes.signedDecimal response.statusCode) message
        context with requestId := requestId }
    else if 200 ≤ response.statusCode ∧ response.statusCode < 300 then
      match platform.parse response.text with
      | .error error => .aborted (.threw error)
      | .ok (.error errs) =>
        let message := if errs.isEmpty then
          Bytes.ascii "Provider returned invalid JSON payload." else errs
        .failed (makeProviderError config (Bytes.ascii "invalid_json") message requestId retryAfter)
      | .ok (.ok payload) =>
        match extractUsage payload with
        | .error error => .aborted (.threw error)
        | .ok usage => .succeeded { payload, usage, providerRequestId }
    else
      let message := if response.text.isEmpty then
        Bytes.ascii "Provider returned an error response." else response.text
      .failed (makeProviderError config (Bytes.signedDecimal response.statusCode) message requestId
        retryAfter)

namespace CircuitBreakerState

/-- `openUntil` is set and still ahead. -/
def isOpen (breaker : CircuitBreakerState) (now : Int64) : Bool :=
  breaker.openUntil != 0 && now < breaker.openUntil

/-- The check at the start of a request: `none` turns it away. -/
def check (breaker : CircuitBreakerState) (now : Int64) : Option CircuitBreakerState :=
  if breaker.isOpen now then none
  else if breaker.openUntil != 0 && breaker.openUntil ≤ now then some {}
  else some breaker

/-- The update when a request fails; the clock is read only to open the breaker. -/
def recordFailure (breaker : CircuitBreakerState) (now : Int64) : CircuitBreakerState :=
  let failures := breaker.failures + 1
  if config.circuitBreakerThreshold ≤ failures then
    { failures, openUntil := now + config.circuitBreakerCooldown * 1000000 }
  else { breaker with failures }

end CircuitBreakerState

/-- One request on its own: the clock's readings before the check and at the update, and for each
attempt the upstream's response and what is drawn for the delay after it. -/
structure Request where
  apiKey : Option Bytes
  context : RequestContext
  begun : Int64
  finished : Int64
  responses : Nat → Response
  draws : Nat → Int32 → Int32

/-- The delay between an attempt and the next. -/
def delayAfter (request : Request) (attempt : Nat) : Except Signed.Undefined Int64 :=
  computeBackoff config.baseBackoff config.maxBackoff (UInt64.ofNat attempt)
    (request.draws attempt)

/-- The retry loop from an attempt on, with `left` more to come after it: how many attempts were
made in all, and how the request ends. -/
def attemptsFrom (request : Request) : Nat → Nat → Nat × Ending D
  | 0, attempt =>
    (attempt + 1, endingOf platform config request.context (request.responses attempt))
  | left + 1, attempt =>
    if shouldRetry (request.responses attempt) then
      match delayAfter config request attempt with
      | .error reason => (attempt + 1, .aborted (.undefined reason))
      | .ok _ => attemptsFrom request left (attempt + 1)
    else (attempt + 1, endingOf platform config request.context (request.responses attempt))

/-- What a request leaves behind, the upstream attempts it made and what it returns, unless it
breaks off. -/
structure Performed (D : Type) where
  breaker : CircuitBreakerState
  attempts : Nat
  result : Except Abort (ProviderResult D)

def performHttpRequest (breaker : CircuitBreakerState) (request : Request) : Performed D :=
  match preflight platform config request.apiKey request.context with
  | some error => ⟨breaker, 0, .ok { error := some error }⟩
  | none =>
    match breaker.check request.begun with
    | none => ⟨breaker, 0, .ok (makeCircuitOpenError platform config request.context)⟩
    | some admitted =>
      match attemptsFrom platform config request config.maxRetries.toNat 0 with
      | (attempts, .failed error) =>
        ⟨admitted.recordFailure config request.finished, attempts, .ok { error := some error }⟩
      | (attempts, .succeeded data) => ⟨{}, attempts, .ok { data := some data }⟩
      | (attempts, .aborted abort) => ⟨admitted, attempts, .error abort⟩

end

namespace CircuitBreakerState
variable {config : ProviderConfig} {breaker admitted : CircuitBreakerState} {now : Int64}

theorem check_eq_none : breaker.check now = none ↔ breaker.isOpen now = true := by
  unfold check
  split
  · simp [*]
  · split <;> simp [*]

/-- A request that the check lets through finds the breaker closed. -/
theorem openUntil_of_check (h : breaker.check now = some admitted) : admitted.openUntil = 0 := by
  unfold check at h
  split at h
  · cases h
  · rename_i hopen
    split at h
    · cases h
      rfl
    · rename_i hpast
      cases h
      simp only [isOpen, bne_iff_ne, Bool.and_eq_true, decide_eq_true_eq, not_and] at hopen hpast
      by_contra hset
      exact hpast hset (Int64.not_lt.mp (hopen hset))

theorem not_isOpen_of_openUntil (h : breaker.openUntil = 0) : breaker.isOpen now = false := by
  simp [isOpen, h]

theorem failures_recordFailure :
    (breaker.recordFailure config now).failures = breaker.failures + 1 := by
  simp only [recordFailure]
  split <;> rfl

end CircuitBreakerState

/-- Every request that gets to its loop makes at least one attempt. -/
theorem attemptsFrom_pos {D : Type} (platform : Platform D) (config : ProviderConfig)
    (request : Request) (left attempt : Nat) :
    attempt < (attemptsFrom platform config request left attempt).1 := by
  induction left generalizing attempt with
  | zero => exact Nat.lt_succ_self attempt
  | succ left ih =>
    rw [attemptsFrom]
    split
    · split
      · exact Nat.lt_succ_self attempt
      · exact Nat.lt_of_succ_lt (ih (attempt + 1))
    · exact Nat.lt_succ_self attempt

/-- Numbers are exact and only the empty object is parsed. -/
def samplePlatform : Platform ℚ where
  zero := 0
  stod := fun _ => none
  seconds := fun milliseconds => milliseconds.toInt / 1000
  parse := fun text =>
    if text = Bytes.ascii "\x7b\x7d" then .ok (.ok (.object []))
    else .ok (.error (Bytes.ascii
      "* Line 1, Column 1\n  Syntax error: value, object or array expected.\n"))

def sampleConfig (threshold : UInt64) (cooldown : Int64) : ProviderConfig where
  name := Bytes.ascii "openai"
  baseUrl := Bytes.ascii "https://api.openai.com/v1"
  apiKeyEnv := Bytes.ascii "OPENAI_API_KEY"
  maxRetries := 3
  baseBackoff := 200
  maxBackoff := 2000
  dryRun := false
  circuitBreakerThreshold := threshold
  circuitBreakerCooldown := cooldown

def unauthorized : Response where
  error := none
  statusCode := 401
  text := []
  header := []

end SuperVoice.Providers
