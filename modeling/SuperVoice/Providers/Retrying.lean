import SuperVoice.Providers.Breaker

/-! One request against the upstream's responses: how many it takes, what it returns for the last
of them, and what it leaves in the breaker. -/
namespace SuperVoice.Providers

/-- A transport error, 429 or a 5xx status. -/
def Transient (response : Response) : Prop :=
  response.error.isSome ∨ response.statusCode = 429 ∨
    (500 ≤ response.statusCode ∧ response.statusCode < 600)

theorem shouldRetry_iff {response : Response} :
    shouldRetry response = true ↔ Transient response := by
  simp only [shouldRetry, Transient, Bool.or_eq_true, Bool.and_eq_true, beq_iff_eq,
    decide_eq_true_eq, or_assoc]

/-- `k` is the position of the first response that is not transient. -/
structure FirstSettled (responses : Nat → Response) (k : Nat) : Prop where
  settled : ¬ Transient (responses k)
  earlier : ∀ j < k, Transient (responses j)

/-- `last` is the position of the last response that a request with these retries asks for. -/
structure LastSeen (responses : Nat → Response) (retries last : Nat) : Prop where
  within : last ≤ retries
  earlier : ∀ j < last, Transient (responses j)
  ends : last = retries ∨ ¬ Transient (responses last)

section
variable {D : Type} (platform : Platform D) (config : ProviderConfig)

/-- A 2xx response with parseable JSON. -/
def Answers (response : Response) (payload : Json) : Prop :=
  response.error = none ∧ 200 ≤ response.statusCode ∧ response.statusCode < 300 ∧
    platform.parse response.text = .ok (.ok payload)

/-- The reader does not throw on the body of a 2xx response. -/
def Readable (response : Response) : Prop :=
  response.error = none → 200 ≤ response.statusCode ∧ response.statusCode < 300 →
    ∃ read, platform.parse response.text = .ok read

/-- Every delay that the request gets to is worked out. -/
def Delays (request : Request) : Prop :=
  ∀ j < config.maxRetries.toNat, (∀ i ≤ j, Transient (request.responses i)) →
    ∃ delay, delayAfter config request j = .ok delay

/-- What an error says of the response it was made for. -/
structure Describes (context : RequestContext) (response : Response) (error : ProviderError D) :
    Prop where
  provider : error.provider = config.name
  requestId : error.requestId = if (extractRequestId response).isEmpty then context.requestId
    else extractRequestId response
  network : ∀ message, response.error = some message →
    error.code = Bytes.ascii "network_error" ∧ error.message = message
  body : response.error = none → 200 ≤ response.statusCode ∧ response.statusCode < 300 →
    error.code = Bytes.ascii "invalid_json" ∧
      ∃ errs, platform.parse response.text = .ok (.error errs) ∧
        (errs ≠ [] → error.message = errs)
  status : response.error = none → ¬ (200 ≤ response.statusCode ∧ response.statusCode < 300) →
    error.code = Bytes.signedDecimal response.statusCode ∧
      (response.text ≠ [] → error.message = response.text)
  authentication : error.type = Bytes.ascii "auth_error" ↔
    response.error = none ∧ (response.statusCode = 401 ∨ response.statusCode = 403)
  /-- The advice of the upstream, which an authentication error does not pass on. -/
  retryAfter : error.type ≠ Bytes.ascii "auth_error" →
    error.retryAfter = parseRetryAfter platform response

/-- The account of a request that gets to its loop: the response it ends with, what it returns
for it and what the breaker counts. -/
structure Accounted (breaker : CircuitBreakerState) (request : Request) (performed : Performed D)
    (last : Nat) (result : ProviderResult D) : Prop where
  attempts : performed.attempts = last + 1
  settled : ∀ k, FirstSettled request.responses k → last = min config.maxRetries.toNat k
  unsettled : (∀ j, Transient (request.responses j)) → last = config.maxRetries.toNat
  returned : performed.result = .ok result
  answered : result.data.isSome ↔ ∃ payload, Answers platform (request.responses last) payload
  notBoth : ¬ (result.data.isSome ∧ result.error.isSome)
  notNeither : result.data.isSome ∨ result.error.isSome
  data : ∀ data, result.data = some data →
    Answers platform (request.responses last) data.payload
  error : ∀ error, result.error = some error →
    Describes platform config request.context (request.responses last) error
  failures : result.error.isSome → performed.breaker.failures = breaker.failures + 1
  reset : result.data.isSome → performed.breaker = {}

end

namespace LastSeen
variable {responses : Nat → Response} {retries last k : Nat}

theorem eq_min (h : LastSeen responses retries last) (hk : FirstSettled responses k) :
    last = min retries k := by
  have hle : last ≤ k := Nat.not_lt.mp fun hlt => hk.settled (h.earlier k hlt)
  rcases h.ends with hend | hend
  · rw [← hend]
    exact (Nat.min_eq_left hle).symm
  · have hge : k ≤ last := Nat.not_lt.mp fun hlt => hend (hk.earlier last hlt)
    rw [Nat.le_antisymm hle hge] at h ⊢
    exact (Nat.min_eq_right h.within).symm

theorem eq_retries (h : LastSeen responses retries last) (hall : ∀ j, Transient (responses j)) :
    last = retries :=
  h.ends.resolve_right fun hend => hend (hall last)

end LastSeen

section
variable {D : Type} {platform : Platform D} {config : ProviderConfig} {context : RequestContext}
  {responses : Nat → Response} {response : Response} {payload : Json}

theorem endingOf_succeeded {usage : Usage} (h : Answers platform response payload)
    (husage : extractUsage payload = .ok usage) : endingOf platform config context response =
      .succeeded { payload, usage, providerRequestId := extractRequestId response } := by
  obtain ⟨herror, hlow, hhigh, hparse⟩ := h
  have hauth : ¬ (response.statusCode = 401 ∨ response.statusCode = 403) := by omega
  simp only [endingOf, herror, if_neg hauth, if_pos (And.intro hlow hhigh), hparse, husage]

theorem endingOf_threw {error : JsonError} (h : Answers platform response payload)
    (husage : extractUsage payload = .error error) :
    endingOf platform config context response = .aborted (.threw error) := by
  obtain ⟨herror, hlow, hhigh, hparse⟩ := h
  have hauth : ¬ (response.statusCode = 401 ∨ response.statusCode = 403) := by omega
  simp only [endingOf, herror, if_neg hauth, if_pos (And.intro hlow hhigh), hparse, husage]

theorem endingOf_failed (config : ProviderConfig) (context : RequestContext)
    (h : ∀ payload, ¬ Answers platform response payload) (hread : Readable platform response) :
    ∃ error, endingOf platform config context response = .failed error ∧
      Describes platform config context response error := by
  have hkinds : Bytes.ascii "provider_error" ≠ Bytes.ascii "auth_error" := by decide
  cases herror : response.error with
  | some message =>
    simp only [endingOf, herror]
    refine ⟨_, rfl, ?_⟩
    constructor <;> simp [makeProviderError, herror, hkinds]
  | none =>
    by_cases hauth : response.statusCode = 401 ∨ response.statusCode = 403
    · have hstatus : ¬ (200 ≤ response.statusCode ∧ response.statusCode < 300) := by omega
      simp only [endingOf, herror, if_pos hauth]
      refine ⟨_, rfl, ?_⟩
      constructor <;> simp_all [makeAuthError]
    · by_cases hstatus : 200 ≤ response.statusCode ∧ response.statusCode < 300
      · simp only [endingOf, herror, if_neg hauth, if_pos hstatus]
        obtain ⟨read, hparse⟩ := hread herror hstatus
        cases read with
        | ok payload => exact absurd ⟨herror, hstatus.1, hstatus.2, hparse⟩ (h payload)
        | error errs =>
          simp only [hparse]
          refine ⟨_, rfl, ?_⟩
          constructor <;> simp_all [makeProviderError]
      · simp only [endingOf, herror, if_neg hauth, if_neg hstatus]
        refine ⟨_, rfl, ?_⟩
        constructor <;> simp_all [makeProviderError]

end

section
variable {D : Type} (platform : Platform D) (config : ProviderConfig) (request : Request)

/-- The loop stops at the first response that is not transient, or when no attempt is left, or at a
delay that cannot be worked out. -/
theorem attemptsFrom_spec (left attempt : Nat) : ∃ last, attempt ≤ last ∧ last ≤ attempt + left ∧
    (∀ j, attempt ≤ j → j < last → Transient (request.responses j)) ∧
    ((last = attempt + left ∨ ¬ Transient (request.responses last)) ∧
        attemptsFrom platform config request left attempt =
          (last + 1, endingOf platform config request.context (request.responses last)) ∨
      last < attempt + left ∧ Transient (request.responses last) ∧
        ∃ reason, delayAfter config request last = .error reason ∧
          attemptsFrom platform config request left attempt =
            (last + 1, .aborted (.undefined reason))) := by
  induction left generalizing attempt with
  | zero =>
    exact ⟨attempt, Nat.le_refl _, Nat.le_refl _, fun j hj hlt => by omega, .inl ⟨.inl rfl, rfl⟩⟩
  | succ left ih =>
    rw [attemptsFrom]
    by_cases hretry : shouldRetry (request.responses attempt) = true
    · rw [if_pos hretry]
      have htransient := shouldRetry_iff.mp hretry
      cases hdelay : delayAfter config request attempt with
      | error reason =>
        exact ⟨attempt, Nat.le_refl _, by omega, fun j hj hlt => by omega,
          .inr ⟨by omega, htransient, reason, hdelay, rfl⟩⟩
      | ok delay =>
        obtain ⟨last, hlow, hhigh, hearlier, hends⟩ := ih (attempt + 1)
        refine ⟨last, by omega, by omega, ?_, ?_⟩
        · intro j hj hlt
          rcases Nat.eq_or_lt_of_le hj with rfl | hnext
          · exact htransient
          · exact hearlier j hnext hlt
        · exact hends.imp (fun h => ⟨h.1.imp_left fun h => by omega, h.2⟩)
            (fun h => ⟨by omega, h.2⟩)
    · rw [if_neg hretry]
      have hsettled : ¬ Transient (request.responses attempt) :=
        fun h => hretry (shouldRetry_iff.mpr h)
      exact ⟨attempt, Nat.le_refl _, by omega, fun j hj hlt => by omega, .inl ⟨.inr hsettled, rfl⟩⟩

variable {config request} in
theorem attemptsFrom_lastSeen (hdelays : Delays config request) :
    ∃ last, LastSeen request.responses config.maxRetries.toNat last ∧
      attemptsFrom platform config request config.maxRetries.toNat 0 =
        (last + 1, endingOf platform config request.context (request.responses last)) := by
  obtain ⟨last, -, hwithin, hearlier, ⟨hends, heq⟩ | ⟨hlt, htransient, reason, hdelay, -⟩⟩ :=
    attemptsFrom_spec platform config request config.maxRetries.toNat 0
  · rw [Nat.zero_add] at hwithin hends
    exact ⟨last, ⟨hwithin, fun j => hearlier j (Nat.zero_le j), hends⟩, heq⟩
  · rw [Nat.zero_add] at hlt
    obtain ⟨delay, hok⟩ := hdelays last hlt fun i hi =>
      (Nat.eq_or_lt_of_le hi).elim (fun h => h ▸ htransient) (hearlier i (Nat.zero_le i))
    cases hok.symm.trans hdelay

end

/-- Delays that fit are worked out. -/
theorem Delays.of_fits {config : ProviderConfig} {request : Request}
    (hbase : 0 ≤ config.baseBackoff) (hmax : 0 ≤ config.maxBackoff)
    (hdraws : ∀ j, Draws (request.draws j))
    (hfits : ∀ j < config.maxRetries.toNat, (∀ i ≤ j, Transient (request.responses i)) →
      Fits config.baseBackoff config.maxBackoff (UInt64.ofNat j)) : Delays config request := by
  intro j hj htransient
  rw [Int64.le_iff_toInt_le] at hbase hmax
  obtain ⟨delay, hdelay, -⟩ :=
    (exact_of_fits (hdraws j) hbase hmax (hfits j hj htransient)).returned
  exact ⟨delay, hdelay⟩

/-- A request that passes its checks takes one of the three ways out that the last response it
asks for determines. -/
theorem performHttpRequest_of_check {D : Type} (platform : Platform D) {config : ProviderConfig}
    {breaker admitted : CircuitBreakerState} {request : Request}
    (hpasses : preflight platform config request.apiKey request.context = none)
    (hcheck : breaker.check request.begun = some admitted) (hdelays : Delays config request) :
    ∃ last, LastSeen request.responses config.maxRetries.toNat last ∧
      performHttpRequest platform config breaker request =
        match endingOf platform config request.context (request.responses last) with
        | .failed error => ⟨admitted.recordFailure config request.finished, last + 1,
            .ok { error := some error }⟩
        | .succeeded data => ⟨{}, last + 1, .ok { data := some data }⟩
        | .aborted abort => ⟨admitted, last + 1, .error abort⟩ := by
  obtain ⟨last, hlast, hloop⟩ := attemptsFrom_lastSeen platform hdelays
  refine ⟨last, hlast, ?_⟩
  simp only [performHttpRequest, hpasses, hcheck, hloop]
  cases endingOf platform config request.context (request.responses last) <;> rfl

/-- The configuration and the key of a request that asks the upstream. -/
structure Usable (config : ProviderConfig) (request : Request) : Prop where
  baseUrl : config.baseUrl ≠ []
  apiKeyEnv : config.apiKeyEnv ≠ []
  apiKey : ∃ key, request.apiKey = some key ∧ key ≠ []

theorem Usable.preflight {D : Type} {config : ProviderConfig} {request : Request}
    (h : Usable config request) (hlive : config.dryRun = false) (platform : Platform D) :
    preflight platform config request.apiKey request.context = none := by
  obtain ⟨key, hkey, hsome⟩ := h.apiKey
  simp only [Providers.preflight, hlive, Bool.false_eq_true, if_false, hkey, Option.getD_some,
    List.isEmpty_iff, h.baseUrl, h.apiKeyEnv, hsome]

theorem Accounted.of_data {D : Type} {platform : Platform D} {config : ProviderConfig}
    {breaker : CircuitBreakerState} {request : Request} {last : Nat} {data : JsonOperationResult}
    (hlast : LastSeen request.responses config.maxRetries.toNat last)
    (hanswers : Answers platform (request.responses last) data.payload) :
    Accounted platform config breaker request ⟨{}, last + 1, .ok { data := some data }⟩ last
      { data := some data } where
  attempts := rfl
  settled := fun k => hlast.eq_min
  unsettled := hlast.eq_retries
  returned := rfl
  answered := iff_of_true rfl ⟨data.payload, hanswers⟩
  notBoth := by simp
  notNeither := .inl rfl
  data := by
    intro data' hdata
    cases hdata
    exact hanswers
  error := by simp
  failures := by simp
  reset := fun _ => rfl

theorem Accounted.of_error {D : Type} {platform : Platform D} {config : ProviderConfig}
    {breaker : CircuitBreakerState} {request : Request} {last : Nat} {error : ProviderError D}
    (hlast : LastSeen request.responses config.maxRetries.toNat last)
    (hanswers : ¬ ∃ payload, Answers platform (request.responses last) payload)
    (hdescribes : Describes platform config request.context (request.responses last) error) :
    Accounted platform config breaker request ⟨breaker.recordFailure config request.finished,
      last + 1, .ok { error := some error }⟩ last { error := some error } where
  attempts := rfl
  settled := fun k => hlast.eq_min
  unsettled := hlast.eq_retries
  returned := rfl
  answered := iff_of_false nofun hanswers
  notBoth := by simp
  notNeither := .inr rfl
  data := by simp
  error := by
    intro error' herror
    cases herror
    exact hdescribes
  failures := fun _ => CircuitBreakerState.failures_recordFailure
  reset := by simp

/-- Outside dry-run mode, and where neither the reader throws nor a delay is undefined, the retry
loop answers for every sequence of responses: callers that find no data may read the error. -/
theorem performHttpRequest_accounted {D : Type} (platform : Platform D) (config : ProviderConfig)
    (breaker : CircuitBreakerState) (request : Request) (husable : Usable config request)
    (hlive : config.dryRun = false) (hclosed : breaker.openUntil = 0)
    (husage : ∀ j payload, Answers platform (request.responses j) payload →
      UsageWellFormed payload)
    (hread : ∀ j, Readable platform (request.responses j)) (hdelays : Delays config request) :
    ∃ last result, Accounted platform config breaker request
      (performHttpRequest platform config breaker request) last result := by
  have hcheck : breaker.check request.begun = some breaker := by
    simp [CircuitBreakerState.check, CircuitBreakerState.not_isOpen_of_openUntil hclosed, hclosed]
  obtain ⟨last, hlast, hperform⟩ :=
    performHttpRequest_of_check platform (husable.preflight hlive platform) hcheck hdelays
  rw [hperform]
  by_cases hanswers : ∃ payload, Answers platform (request.responses last) payload
  · obtain ⟨payload, hpayload⟩ := hanswers
    cases hextract : extractUsage payload with
    | error error =>
      have hok := husage last payload hpayload
      rw [UsageWellFormed, hextract] at hok
      cases hok
    | ok usage =>
      rw [endingOf_succeeded hpayload hextract]
      exact ⟨last, _, .of_data hlast hpayload⟩
  · obtain ⟨error, hfailed, hdescribes⟩ :=
      endingOf_failed config request.context (not_exists.mp hanswers) (hread last)
    rw [hfailed]
    exact ⟨last, _, .of_error hlast hanswers hdescribes⟩

/-- Arrays within arrays. -/
def nested : Nat → Json
  | 0 => .array []
  | n + 1 => .array [nested n]

def nestedText (n : Nat) : Bytes := List.replicate (n + 1) 91 ++ List.replicate (n + 1) 93

/-- Arrays within arrays are read too, as far as the stack reaches. -/
def nestingPlatform : Platform ℚ :=
  { samplePlatform with
    parse := fun text =>
      let n := text.length / 2 - 1
      if text = nestedText n then (nested n).reading else samplePlatform.parse text }

theorem depth_nested (n : Nat) : (nested n).depth = n + 1 := by
  induction n with
  | zero => rfl
  | succ n ih =>
    rw [nested, Json.depth, Json.depthElements, Json.depthElements, ih]
    rfl

theorem parse_nestedText (n : Nat) : nestingPlatform.parse (nestedText n) = (nested n).reading := by
  have hlength : (nestedText n).length / 2 - 1 = n := by
    rw [nestedText, List.length_append, List.length_replicate, List.length_replicate]
    omega
  simp only [nestingPlatform, hlength, if_true]

theorem samplePlatform_usage {text : Bytes} {payload : Json}
    (h : samplePlatform.parse text = .ok (.ok payload)) : UsageWellFormed payload := by
  simp only [samplePlatform] at h
  split at h
  · cases h
    rfl
  · cases h

/-- An array, and what else is not the empty object, has no usage. -/
theorem nestingPlatform_usage {response : Response} {payload : Json}
    (h : Answers nestingPlatform response payload) : UsageWellFormed payload := by
  have hparse := h.2.2.2
  simp only [nestingPlatform] at hparse
  split at hparse
  · rw [Json.reading] at hparse
    split at hparse
    · cases hparse
      cases response.text.length / 2 - 1 <;> rfl
    · cases hparse
  · exact samplePlatform_usage hparse

/-- A request that starts with a closed breaker, has usable settings and well-formed usage, and is
not accounted for. -/
def Unaccounted (platform : Platform ℚ) (config : ProviderConfig) (request : Request) : Prop :=
  Usable config request ∧ config.maxRetries < 18446744073709551615 ∧
    (∀ j payload, Answers platform (request.responses j) payload → UsageWellFormed payload) ∧
    ¬ ∃ last result, Accounted platform config {} request
      (performHttpRequest platform config {} request) last result

/-- A request with the same response to every attempt. -/
def repeated (response : Response) : Request :=
  { SerialProvider.refused 0 1 with responses := fun _ => response }

/-- In dry-run mode no upstream is asked, and the breaker counts nothing. -/
theorem unaccounted_dryRun : Unaccounted samplePlatform
    { sampleConfig 1 10000 with dryRun := true } (repeated unauthorized) := by
  refine ⟨⟨by decide, by decide, _, rfl, by decide⟩, by decide,
    fun _ _ hanswers => samplePlatform_usage hanswers.2.2.2, fun h => ?_⟩
  obtain ⟨last, result, haccounted⟩ := h
  cases haccounted.attempts

def nestedResponse (n : Nat) : Response :=
  { unauthorized with statusCode := 200, text := nestedText n }

theorem settled_nested (n : Nat) : ¬ Transient (nestedResponse n) := by
  simp [Transient, nestedResponse, unauthorized]

theorem delays_of_settled {config : ProviderConfig} {request : Request}
    (h : ¬ Transient (request.responses 0)) : Delays config request :=
  fun _ _ htransient => absurd (htransient 0 (Nat.zero_le _)) h

/-- The reader throws out of the request where the stack does not reach. -/
theorem result_nested {n : Nat} (h : Json.stackLimit ≤ n) :
    (performHttpRequest nestingPlatform (sampleConfig 1 10000) {}
      (repeated (nestedResponse n))).result = .error (.threw .runtimeError) := by
  have hthrown : nestingPlatform.parse (nestedText n) = .error .runtimeError := by
    rw [parse_nestedText, Json.reading, depth_nested, if_neg (Nat.not_le.mpr (Nat.lt_succ_of_le h))]
  have hending : endingOf nestingPlatform (sampleConfig 1 10000) ⟨[]⟩ (nestedResponse n) =
      .aborted (.threw .runtimeError) := by
    simp [endingOf, nestedResponse, unauthorized, hthrown]
  have hchecked : CircuitBreakerState.check {} (repeated (nestedResponse n)).begun = some {} := rfl
  have hdelays : Delays (sampleConfig 1 10000) (repeated (nestedResponse n)) :=
    delays_of_settled (settled_nested n)
  obtain ⟨last, -, hperform⟩ := performHttpRequest_of_check nestingPlatform rfl hchecked hdelays
  have hsame : endingOf nestingPlatform (sampleConfig 1 10000) (repeated (nestedResponse n)).context
      ((repeated (nestedResponse n)).responses last) = .aborted (.threw .runtimeError) := hending
  rw [hperform, hsame]

theorem unaccounted_nested :
    Unaccounted nestingPlatform (sampleConfig 1 10000) (repeated (nestedResponse 1000)) := by
  refine ⟨⟨by decide, by decide, _, rfl, by decide⟩, by decide, fun _ _ => nestingPlatform_usage,
    fun h => ?_⟩
  obtain ⟨last, result, haccounted⟩ := h
  cases haccounted.returned.symm.trans (result_nested (Nat.le_refl Json.stackLimit))

/-- The shipped backoff overflows before the 57th retry. -/
theorem unaccounted_delays : Unaccounted samplePlatform
    { sampleConfig 1 10000 with maxRetries := 57 }
    (repeated { unauthorized with statusCode := 503 }) := by
  refine ⟨⟨by decide, by decide, _, rfl, by decide⟩, by decide,
    fun _ _ hanswers => samplePlatform_usage hanswers.2.2.2, fun h => ?_⟩
  obtain ⟨last, result, haccounted⟩ := h
  have hresult : (performHttpRequest samplePlatform
      { sampleConfig 1 10000 with maxRetries := 57 } {}
      (repeated { unauthorized with statusCode := 503 })).result =
        .error (.undefined .overflow) := rfl
  cases haccounted.returned.symm.trans hresult

theorem performHttpRequest_accounted_fails :
    Unaccounted samplePlatform { sampleConfig 1 10000 with dryRun := true }
        (repeated unauthorized) ∧
      Unaccounted nestingPlatform (sampleConfig 1 10000) (repeated (nestedResponse 1000)) ∧
      Unaccounted samplePlatform { sampleConfig 1 10000 with maxRetries := 57 }
        (repeated { unauthorized with statusCode := 503 }) :=
  ⟨unaccounted_dryRun, unaccounted_nested, unaccounted_delays⟩

/-- Two refusals for now, then an empty object. -/
def relented : Request :=
  { SerialProvider.refused 0 1 with
    responses := fun attempt =>
      if attempt < 2 then { unauthorized with statusCode := 503 }
      else { unauthorized with statusCode := 200, text := Bytes.ascii "\x7b\x7d" } }

theorem delays_sample {request : Request} (hdraws : ∀ j, Draws (request.draws j)) :
    Delays (sampleConfig 1 10000) request := by
  apply Delays.of_fits (by decide) (by decide) hdraws
  intro j hj _
  have hlast : Fits 200 2000 2 := ⟨by decide, by decide, by decide, by decide⟩
  have hle : UInt64.ofNat j ≤ 2 :=
    (UInt64.ofNat_le_iff (hj.trans (by decide))).mpr (Nat.le_of_lt_succ hj)
  exact hlast.mono (by decide) hle

theorem performHttpRequest_accounted_relented : ∃ last result,
    Accounted samplePlatform (sampleConfig 1 10000) {} relented
      (performHttpRequest samplePlatform (sampleConfig 1 10000) {} relented) last result := by
  refine performHttpRequest_accounted samplePlatform (sampleConfig 1 10000) {} relented
    ⟨by decide, by decide, _, rfl, by decide⟩ rfl rfl
    (fun _ _ hanswers => samplePlatform_usage hanswers.2.2.2) (fun j _ _ => ?_)
    (delays_sample fun _ => draws_id)
  simp only [samplePlatform]
  split
  · exact ⟨_, rfl⟩
  · exact ⟨_, rfl⟩

end SuperVoice.Providers
