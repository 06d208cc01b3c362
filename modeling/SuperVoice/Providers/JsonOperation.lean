import SuperVoice.Providers.Retrying

/-! `performJsonOperation`: the usage of a 2xx body is read a second time and written back into
the payload. The payload of the request decides only what is sent. -/
namespace SuperVoice.Providers
open Bytes (ascii)

namespace Json

/-- `operator[]` on a mutable value, assigned to: `null` becomes an object. The order of the
members carries nothing. -/
def assign (key : Bytes) (payload value : Json) : Except JsonError Json :=
  match payload with
  | .object members => .ok (.object ((key, value) :: members.filter fun m => m.1 != key))
  | .null => .ok (.object [(key, value)])
  | _ => .error .logicError

/-- A member that is absent or no object is replaced. -/
def ensureObject (key : Bytes) (payload replacement : Json) : Except JsonError Json := do
  if ← payload.isMember key then
    if (← payload.member key).isObject then
      return payload
  payload.assign key replacement

end Json

/-- No provider overrides it. -/
def transformResponse (payload : Json) : Json := payload

def usageJson (usage : Usage) : Json :=
  .object [(ascii "prompt_tokens", .uint usage.promptTokens),
    (ascii "completion_tokens", .uint usage.completionTokens),
    (ascii "total_tokens", .uint usage.totalTokens),
    (ascii "audio_tokens", .uint usage.audioTokens),
    (ascii "cached_tokens", .uint usage.cachedTokens)]

/-- The payload with its usage, and the note where there is one. -/
def withUsage (usage : Usage) (payload : Json) : Except JsonError Json := do
  let payload ← payload.ensureObject (ascii "usage") (usageJson usage)
  if usage.note.isEmpty then
    return payload
  let payload ← payload.ensureObject (ascii "metadata") (.object [])
  let metadata ← payload.member (ascii "metadata")
  payload.assign (ascii "metadata") (← metadata.assign (ascii "usage_note") (.string usage.note))

section
variable {D : Type} (platform : Platform D) (config : ProviderConfig)

def performJsonOperation (breaker : CircuitBreakerState) (request : Request) : Performed D :=
  let performed := performHttpRequest platform config breaker request
  match performed.result with
  | .error _ => performed
  | .ok result =>
    match result.data with
    | none => performed
    | some data =>
      let read : Except JsonError (ProviderResult D) := do
        let payload := transformResponse data.payload
        let usage ← extractUsage payload
        let payload ← withUsage usage payload
        return { result with data := some { data with payload, usage } }
      { performed with result := read.mapError .threw }

/-- The response with which a request that asks the upstream ends, where it is not transient. -/
structure Ends (breaker : CircuitBreakerState) (request : Request) (response : Response) : Prop where
  passes : preflight platform config request.apiKey request.context = none
  closed : breaker.isOpen request.begun = false
  delays : Delays config request
  last : ∃ k ≤ config.maxRetries.toNat, FirstSettled request.responses k ∧
    request.responses k = response

/-- The payload of the 2xx response with which a request that asks the upstream ends. -/
def Received (breaker : CircuitBreakerState) (request : Request) (payload : Json) : Prop :=
  ∃ response, Ends platform config breaker request response ∧ Answers platform response payload

/-- The request ends with a 2xx response whose body is a text of this payload. -/
def Sent (breaker : CircuitBreakerState) (request : Request) (payload : Json) : Prop :=
  ∃ response, Ends platform config breaker request response ∧ response.error = none ∧
    (200 ≤ response.statusCode ∧ response.statusCode < 300) ∧
    platform.parse response.text = payload.reading

end

/-- A value that `asUInt64` converts. -/
def Json.Counts : Json → Prop
  | .null | .bool _ | .uint _ => True
  | .int value => 0 ≤ value
  | .real value => 0 ≤ value ∧ value < 2 ^ 64
  | .string _ | .array _ | .object _ => False

def tokenFields : List String :=
  ["prompt_tokens", "completion_tokens", "total_tokens", "audio_tokens", "cached_tokens"]

def lookup (members : List (Bytes × Json)) (key : String) : Option Json :=
  (members.find? fun m => m.1 == ascii key).map Prod.snd

/-- A usage member whose token fields can be read. -/
def Json.Tallies : Json → Prop
  | .null => True
  | .object members => ∀ field ∈ tokenFields, ∀ value, lookup members field = some value →
      value.Counts
  | _ => False

/-- A payload into which a usage can be written, with one that can be read where it has one. -/
def Json.Absorbs : Json → Prop
  | .null => True
  | .object members => ∀ rawUsage, lookup members "usage" = some rawUsage → rawUsage.Tallies
  | _ => False

theorem isOk_bind {ε α β : Type} {x : Except ε α} {f : α → Except ε β} :
    (x >>= f).isOk = true ↔ ∃ a, x = .ok a ∧ (f a).isOk = true := by
  cases x with
  | error e => exact ⟨fun h => (by cases h), fun ⟨_, h, _⟩ => (by cases h)⟩
  | ok a => exact ⟨fun h => ⟨a, rfl, h⟩, fun ⟨_, h, hf⟩ => by cases h; exact hf⟩

theorem isOk_mapError {ε ε' α : Type} {x : Except ε α} {f : ε → ε'} :
    (x.mapError f).isOk = x.isOk := by
  cases x <;> rfl

theorem isOk_pure {ε α : Type} (a : α) : (pure a : Except ε α).isOk = true := rfl

theorem isOk_iff {ε α : Type} {x : Except ε α} : x.isOk = true ↔ ∃ a, x = .ok a := by
  cases x <;> simp [Except.isOk, Except.toBool]

theorem asUInt64_ok {value : Json} : (∃ n, value.asUInt64 = .ok n) ↔ value.Counts := by
  cases value with
  | int value => by_cases h : 0 ≤ value <;> simp [Json.asUInt64, Json.Counts, h]
  | real value => by_cases h : 0 ≤ value ∧ value < 2 ^ 64 <;> simp [Json.asUInt64, Json.Counts, h]
  | _ => simp [Json.asUInt64, Json.Counts]

section
variable {members : List (Bytes × Json)} {rawUsage : Json}

theorem find_object (key : String) :
    (Json.object members).find (ascii key) = .ok (lookup members key) := rfl

theorem tokens_object {key : String} {fallback : UInt64} :
    (∃ n, tokens (.object members) key fallback = .ok n) ↔
      ∀ value, lookup members key = some value → value.Counts := by
  simp only [tokens, Json.isMember, Json.member, find_object]
  cases lookup members key with
  | none => simp [Except.map, pure, Except.pure, bind, Except.bind]
  | some value => simpa [Except.map, bind, Except.bind] using asUInt64_ok

theorem extractUsage_none (h : lookup members "usage" = none) :
    extractUsage (.object members) = .ok noUsage := by
  simp only [extractUsage, Json.isMember, find_object, h]
  rfl

theorem extractUsage_some (h : lookup members "usage" = some rawUsage) :
    extractUsage (.object members) = do
      let promptTokens ← tokens rawUsage "prompt_tokens" 0
      let completionTokens ← tokens rawUsage "completion_tokens" 0
      let totalTokens ← tokens rawUsage "total_tokens" (promptTokens + completionTokens)
      let audioTokens ← tokens rawUsage "audio_tokens" 0
      let cachedTokens ← tokens rawUsage "cached_tokens" 0
      return { promptTokens, completionTokens, totalTokens, audioTokens, cachedTokens } := by
  simp only [extractUsage, Json.isMember, Json.member, find_object, h]
  rfl

theorem usage_tallies (h : lookup members "usage" = some rawUsage) :
    (extractUsage (.object members)).isOk = true ↔ rawUsage.Tallies := by
  rw [extractUsage_some h]
  cases rawUsage with
  | null => exact ⟨fun _ => trivial, fun _ => rfl⟩
  | object fields =>
    simp only [isOk_bind, isOk_pure, and_true, tokens_object, exists_and_right]
    simp only [Json.Tallies, tokenFields, List.forall_mem_cons, List.not_mem_nil, false_implies,
      implies_true, and_true]
  | _ => exact ⟨fun hok => (by cases hok), False.elim⟩

theorem extractUsage_object :
    (extractUsage (.object members)).isOk = true ↔ (Json.object members).Absorbs := by
  cases h : lookup members "usage" with
  | none => simp [extractUsage_none h, Json.Absorbs, h, Except.isOk, Except.toBool]
  | some rawUsage => simp [usage_tallies h, Json.Absorbs, h]

/-- What `assign` leaves of an object. -/
def assigned (key : Bytes) (value : Json) (members : List (Bytes × Json)) : List (Bytes × Json) :=
  (key, value) :: members.filter fun m => m.1 != key

theorem assign_object (key : Bytes) (value : Json) :
    (Json.object members).assign key value = .ok (.object (assigned key value members)) := rfl

theorem find_assigned (key : Bytes) (value : Json) :
    (Json.object (assigned key value members)).find key = .ok (some value) := by
  simp [assigned, Json.find]

theorem find_assigned_ne {key k : Bytes} (hk : k ≠ key) (value : Json) :
    (Json.object (assigned key value members)).find k = (Json.object members).find k := by
  have hkey : (key == k) = false := by simpa using Ne.symm hk
  have hrest : (members.filter fun m => m.1 != key).find? (fun m => m.1 == k) =
      members.find? fun m => m.1 == k := by
    rw [List.find?_filter]
    congr 1
    funext m
    by_cases hm : m.1 = k
    · simp [hm, hk]
    · simp [hm]
  simp only [assigned, Json.find, List.find?_cons, hkey, hrest]

/-- A member that is an object, or else what replaces it. -/
def Json.objectOr (replacement : Json) : Option Json → Json
  | some (.object fields) => .object fields
  | _ => replacement

/-- The members of a member that is an object. -/
def Json.fieldsOf : Option Json → List (Bytes × Json)
  | some (.object fields) => fields
  | _ => []

theorem objectOr_empty (value : Option Json) :
    Json.objectOr (.object []) value = .object (Json.fieldsOf value) := by
  cases value with
  | none => rfl
  | some value => cases value <;> rfl

/-- An object stays one, its member is an object afterwards, and the other members are kept. -/
theorem ensureObject_object (members : List (Bytes × Json)) (key : String) (replacement : Json) :
    ∃ members',
    (Json.object members).ensureObject (ascii key) replacement = .ok (.object members') ∧
      lookup members' key = some (Json.objectOr replacement (lookup members key)) ∧
      ∀ k, k ≠ ascii key → (Json.object members').find k = (Json.object members).find k := by
  have hnew : lookup (assigned (ascii key) replacement members) key = some replacement :=
    Except.ok.inj (find_assigned (ascii key) replacement)
  have hframe : ∀ k, k ≠ ascii key →
      (Json.object (assigned (ascii key) replacement members)).find k =
        (Json.object members).find k := fun k hk => find_assigned_ne hk replacement
  simp only [Json.ensureObject, Json.isMember, Json.member, find_object, assign_object]
  cases h : lookup members key with
  | none => exact ⟨_, rfl, hnew, hframe⟩
  | some value =>
    cases value with
    | object fields => exact ⟨members, rfl, h, fun _ _ => rfl⟩
    | _ => exact ⟨_, rfl, hnew, hframe⟩

/-- Only the usage is written, and a note into the metadata where the usage has one. -/
theorem withUsage_object (members : List (Bytes × Json)) (usage : Usage) : ∃ members',
    withUsage usage (.object members) = .ok (.object members') ∧
      lookup members' "usage" =
        some (Json.objectOr (usageJson usage) (lookup members "usage")) ∧
      (∀ k, k ≠ ascii "usage" → k ≠ ascii "metadata" →
        (Json.object members').find k = (Json.object members).find k) ∧
      lookup members' "metadata" =
        if usage.note = [] then lookup members "metadata"
        else some (.object (assigned (ascii "usage_note") (.string usage.note)
          (Json.fieldsOf (lookup members "metadata")))) := by
  obtain ⟨counted, husage, hnew, hframe⟩ :=
    ensureObject_object members "usage" (usageJson usage)
  have hkeys : ascii "metadata" ≠ ascii "usage" := by decide
  have hmetadata : lookup counted "metadata" = lookup members "metadata" :=
    Except.ok.inj (hframe _ hkeys)
  by_cases hnote : usage.note = []
  · rw [if_pos hnote]
    refine ⟨counted, ?_, hnew, fun k hk _ => hframe k hk, hmetadata⟩
    simp [withUsage, husage, hnote, bind, Except.bind, pure, Except.pure]
  · rw [if_neg hnote]
    obtain ⟨described, hdescribed, hold, hframe'⟩ :=
      ensureObject_object counted "metadata" (.object [])
    rw [hmetadata, objectOr_empty] at hold
    have hmember : (Json.object described).member (ascii "metadata") =
        .ok (.object (Json.fieldsOf (lookup members "metadata"))) := by
      rw [Json.member, find_object, hold]
      rfl
    let noted : Json := .object (assigned (ascii "usage_note") (.string usage.note)
      (Json.fieldsOf (lookup members "metadata")))
    refine ⟨assigned (ascii "metadata") noted described, ?_, ?_, fun k hk hk' => ?_,
      Except.ok.inj (find_assigned _ _)⟩
    · simp only [withUsage, husage, hdescribed, hmember, bind, Except.bind, List.isEmpty_iff, hnote,
        if_false, assign_object]
      rfl
    · rw [← hnew]
      exact Except.ok.inj ((find_assigned_ne hkeys.symm noted).trans (hframe' _ hkeys.symm))
    · rw [find_assigned_ne hk', hframe' k hk', hframe k hk]

end

/-- Both passes over a payload go through. -/
theorem absorbs_iff {payload : Json} :
    (∃ usage, extractUsage payload = .ok usage ∧ (withUsage usage payload).isOk = true) ↔
      payload.Absorbs := by
  cases payload with
  | null => exact ⟨fun _ => trivial, fun _ => ⟨noUsage, rfl, rfl⟩⟩
  | object members =>
    constructor
    · intro h
      obtain ⟨usage, husage, -⟩ := h
      exact extractUsage_object.mp (isOk_iff.mpr ⟨usage, husage⟩)
    · intro h
      obtain ⟨usage, husage⟩ := isOk_iff.mp (extractUsage_object.mpr h)
      obtain ⟨members', hwritten, -⟩ := withUsage_object members usage
      exact ⟨usage, husage, isOk_iff.mpr ⟨_, hwritten⟩⟩
  | _ => exact ⟨fun ⟨_, _, hok⟩ => (by cases hok), False.elim⟩

section
variable {D : Type} {platform : Platform D} {config : ProviderConfig}
  {breaker : CircuitBreakerState} {request : Request} {payload : Json}

/-- A request that ends with a response which is not transient does what that response asks for. -/
theorem performHttpRequest_of_ends {response : Response}
    (h : Ends platform config breaker request response) : ∃ admitted attempts,
      performHttpRequest platform config breaker request =
        match endingOf platform config request.context response with
        | .failed error => ⟨admitted.recordFailure config request.finished, attempts,
            .ok { error := some error }⟩
        | .succeeded data => ⟨{}, attempts, .ok { data := some data }⟩
        | .aborted abort => ⟨admitted, attempts, .error abort⟩ := by
  obtain ⟨k, hwithin, hsettled, rfl⟩ := h.last
  obtain ⟨admitted, hcheck⟩ : ∃ admitted, breaker.check request.begun = some admitted := by
    rw [← Option.ne_none_iff_exists', Ne, CircuitBreakerState.check_eq_none, h.closed]
    exact Bool.false_ne_true
  obtain ⟨last, hlast, hperform⟩ := performHttpRequest_of_check platform h.passes hcheck h.delays
  have hlastk : last = k := by
    rw [hlast.eq_min hsettled]
    exact Nat.min_eq_right hwithin
  rw [hlastk] at hperform
  exact ⟨admitted, k + 1, hperform⟩

/-- A request that ends with a 2xx body goes through both passes over it. -/
theorem result_of_received (h : Received platform config breaker request payload) :
    ∃ providerRequestId, (performJsonOperation platform config breaker request).result =
      Except.mapError .threw (do
        let usage ← extractUsage payload
        let written ← withUsage usage payload
        return { data := some { payload := written, usage, providerRequestId } }) := by
  obtain ⟨response, hends, hanswers⟩ := h
  obtain ⟨admitted, attempts, hperform⟩ := performHttpRequest_of_ends hends
  apply Exists.intro (extractRequestId response)
  rw [performJsonOperation, hperform]
  cases husage : extractUsage payload with
  | error error =>
    rw [endingOf_threw hanswers husage]
    rfl
  | ok usage =>
    rw [endingOf_succeeded hanswers husage]
    simp only [transformResponse, husage]

theorem result_of_deep (h : Sent platform config breaker request payload)
    (hdeep : ¬ payload.depth ≤ Json.stackLimit) :
    (performJsonOperation platform config breaker request).result =
      .error (.threw .runtimeError) := by
  obtain ⟨response, hends, herror, hstatus, hparse⟩ := h
  obtain ⟨admitted, attempts, hperform⟩ := performHttpRequest_of_ends hends
  rw [Json.reading, if_neg hdeep] at hparse
  have hauth : ¬ (response.statusCode = 401 ∨ response.statusCode = 403) := by omega
  have hending : endingOf platform config request.context response =
      .aborted (.threw .runtimeError) := by
    simp only [endingOf, herror, if_neg hauth, if_pos hstatus, hparse]
  rw [performJsonOperation, hperform, hending]

theorem Sent.received (h : Sent platform config breaker request payload)
    (hdepth : payload.depth ≤ Json.stackLimit) : Received platform config breaker request payload := by
  obtain ⟨response, hends, herror, ⟨hlow, hhigh⟩, hparse⟩ := h
  rw [Json.reading, if_pos hdepth] at hparse
  exact ⟨response, hends, herror, hlow, hhigh, hparse⟩

/-- A request that ends with a 2xx body returns instead of throwing for exactly the payloads that
the reader's stack holds and that absorb a usage. -/
theorem performJsonOperation_returns_iff (h : Sent platform config breaker request payload) :
    (performJsonOperation platform config breaker request).result.isOk = true ↔
      payload.depth ≤ Json.stackLimit ∧ payload.Absorbs := by
  by_cases hdepth : payload.depth ≤ Json.stackLimit
  · obtain ⟨providerRequestId, hresult⟩ := result_of_received (h.received hdepth)
    rw [hresult, isOk_mapError, ← absorbs_iff]
    simp only [isOk_bind, isOk_pure, and_true]
    simp only [isOk_iff, hdepth, true_and]
  · rw [result_of_deep h hdepth]
    exact iff_of_false (fun hok => (by cases hok)) (fun hboth => hdepth hboth.1)

end

/-- A request that the upstream answers with an array at once. -/
def listed : Request := repeated (nestedResponse 0)

theorem sent_nested (n : Nat) :
    Sent nestingPlatform (sampleConfig 1 10000) {} (repeated (nestedResponse n)) (nested n) := by
  refine ⟨nestedResponse n, ⟨rfl, rfl, delays_of_settled (settled_nested n), 0, Nat.zero_le _,
    ⟨settled_nested n, fun j hj => absurd hj (Nat.not_lt_zero j)⟩, rfl⟩, rfl,
    ⟨show (200 : Int) ≤ 200 by decide, show (200 : Int) < 300 by decide⟩, parse_nestedText n⟩

/-- The second reading asks an array for its member, and no handler answers the request. -/
theorem performJsonOperation_returns_fails : ¬ ∀ (platform : Platform ℚ) (config : ProviderConfig)
    (breaker : CircuitBreakerState) (request : Request) (payload : Json),
      Sent platform config breaker request payload →
        (performJsonOperation platform config breaker request).result.isOk = true := by
  intro h
  have hthrew : (performJsonOperation nestingPlatform (sampleConfig 1 10000) {} listed).result.isOk =
      false := by decide +kernel
  have hok := h nestingPlatform (sampleConfig 1 10000) {} listed _ (sent_nested 0)
  rw [hthrew] at hok
  cases hok

theorem ends_relented : Ends nestingPlatform (sampleConfig 1 10000) {} relented
    (relented.responses 2) where
  passes := rfl
  closed := rfl
  delays := delays_sample fun _ => draws_id
  last := by
    refine ⟨2, by decide, ⟨?_, fun j hj => ?_⟩, rfl⟩
    · simp [Transient, relented, unauthorized]
    · have hresponse : relented.responses j = { unauthorized with statusCode := 503 } := if_pos hj
      rw [hresponse]
      exact .inr (.inr ⟨by decide, by decide⟩)

theorem performJsonOperation_returns_relented :
    (performJsonOperation nestingPlatform (sampleConfig 1 10000) {} relented).result.isOk = true := by
  have hsent : Sent nestingPlatform (sampleConfig 1 10000) {} relented (.object []) :=
    ⟨_, ends_relented, rfl, ⟨by decide, by decide⟩, rfl⟩
  refine (performJsonOperation_returns_iff hsent).mpr ⟨by decide, ?_⟩
  intro rawUsage hmember
  cases hmember

end SuperVoice.Providers
