import SuperVoice.Providers.JsonOperation

/-! The usage that a client finds in the payload against the usage that is returned beside it. -/
namespace SuperVoice.Providers
open Bytes (ascii)

/-- A number that is the 64-bit unsigned `n`. -/
def Json.Is (n : UInt64) : Json → Prop
  | .int value => value.toInt = n.toNat
  | .uint value => value = n
  | .real value => value = n.toNat
  | _ => False

/-- A usage member that is absent, null or an object whose token fields are 64-bit unsigned
numbers. -/
def Countable : Option Json → Prop
  | none | some .null => True
  | some (.object fields) => ∀ field ∈ tokenFields, ∀ value, lookup fields field = some value →
      ∃ n, value.Is n
  | _ => False

def Says (fields : List (Bytes × Json)) (field : String) (n : UInt64) : Prop :=
  ∃ value, lookup fields field = some value ∧ value.Is n

/-- The fields that the schema of a chat response requires of a usage. -/
def requiredFields : List String := ["prompt_tokens", "completion_tokens", "total_tokens"]

/-- Nothing but the usage note has changed; metadata that are absent have no members. -/
def MetadataKept (before after : Option Json) : Prop :=
  after = before ∨ ∃ old new, (before = none ∧ old = [] ∨ before = some (.object old)) ∧
    after = some (.object new) ∧
      ∀ k, k ≠ ascii "usage_note" → (Json.object new).find k = (Json.object old).find k

/-- The payload `members'` that is returned with a usage for the payload `members`. -/
structure Reports (members members' : List (Bytes × Json)) (usage : Usage) : Prop where
  told : ∃ fields, lookup members' "usage" = some (.object fields) ∧
    Says fields "prompt_tokens" usage.promptTokens ∧
    Says fields "completion_tokens" usage.completionTokens ∧
    Says fields "total_tokens" usage.totalTokens
  given : ∀ fields n, lookup members "usage" = some (.object fields) →
    Says fields "total_tokens" n → usage.totalTokens = n
  summed : (∀ fields, lookup members "usage" = some (.object fields) →
    lookup fields "total_tokens" = none) →
      usage.totalTokens.toNat = usage.promptTokens.toNat + usage.completionTokens.toNat
  metadata : MetadataKept (lookup members "metadata") (lookup members' "metadata")
  frame : ∀ k, k ≠ ascii "usage" → k ≠ ascii "metadata" →
    (Json.object members').find k = (Json.object members).find k

/-- Without a usage, the metadata can take the note; with one, it has the required fields. -/
def Complete (members : List (Bytes × Json)) : Prop :=
  match lookup members "usage" with
  | none => ∀ value, lookup members "metadata" = some value → value.isObject = true
  | some (.object fields) => ∀ field ∈ requiredFields, lookup fields field ≠ none
  | some _ => True

section
variable {n m : UInt64} {value : Json}

theorem Json.Is.unique (h : value.Is n) (h' : value.Is m) : n = m := by
  cases value with
  | int value => exact UInt64.toNat_inj.mp (Int.ofNat_inj.mp (h.symm.trans h'))
  | uint value => exact h.symm.trans h'
  | real value => exact UInt64.toNat_inj.mp (Nat.cast_injective (h.symm.trans h'))
  | _ => exact h.elim

theorem toUInt64_of_toInt {value : Int64} (h : value.toInt = n.toNat) : value.toUInt64 = n := by
  have hint : value.toInt = value.toBitVec.toInt := rfl
  have hlt := value.toBitVec.isLt
  rw [hint, BitVec.toInt_eq_toNat_cond] at h
  apply UInt64.toNat_inj.mp
  show value.toBitVec.toNat = n.toNat
  split at h <;> omega

theorem asUInt64_of_is (h : value.Is n) : value.asUInt64 = .ok n := by
  cases value with
  | int value =>
    have hint : value.toInt = n.toNat := h
    have hpos : (0 : Int64) ≤ value := by
      rw [Int64.le_iff_toInt_le, hint]
      exact Int.natCast_nonneg _
    simp [Json.asUInt64, hpos, toUInt64_of_toInt hint]
  | uint value => exact congrArg Except.ok h
  | real value =>
    have hq : value = n.toNat := h
    have hlt : (n.toNat : ℚ) < 2 ^ 64 := by exact_mod_cast n.toNat_lt
    simp [Json.asUInt64, hq, hlt]
  | _ => exact h.elim

/-- A token field that is a number is read as it is. -/
theorem tokens_countable {fields : List (Bytes × Json)} {field : String} (fallback : UInt64)
    (h : ∀ value, lookup fields field = some value → ∃ n, value.Is n) :
    ∃ n, tokens (.object fields) field fallback = .ok n ∧
      (lookup fields field ≠ none → Says fields field n) := by
  simp only [tokens, Json.isMember, Json.member, find_object]
  cases hvalue : lookup fields field with
  | none => exact ⟨fallback, rfl, fun hne => absurd rfl hne⟩
  | some value =>
    obtain ⟨n, hn⟩ := h value hvalue
    exact ⟨n, asUInt64_of_is hn, fun _ => ⟨value, hvalue, hn⟩⟩

theorem Says.ne_none {fields : List (Bytes × Json)} {field : String} (h : Says fields field n) :
    lookup fields field ≠ none := by
  obtain ⟨value, hvalue, -⟩ := h
  rw [hvalue]
  exact Option.some_ne_none value

theorem Says.unique {fields : List (Bytes × Json)} {field : String} (h : Says fields field n)
    (h' : Says fields field m) : n = m := by
  obtain ⟨value, hvalue, hn⟩ := h
  obtain ⟨value', hvalue', hm⟩ := h'
  cases hvalue.symm.trans hvalue'
  exact hn.unique hm

/-- A usage that is written says what it holds. -/
theorem says_usageJson (usage : Usage) : ∃ fields, usageJson usage = .object fields ∧
    Says fields "prompt_tokens" usage.promptTokens ∧
    Says fields "completion_tokens" usage.completionTokens ∧
    Says fields "total_tokens" usage.totalTokens :=
  ⟨_, rfl, ⟨_, rfl, rfl⟩, ⟨_, rfl, rfl⟩, ⟨_, rfl, rfl⟩⟩

end

section
variable {members members' : List (Bytes × Json)} {usage : Usage}

/-- The note takes the place of metadata that are no object. -/
theorem metadataKept_noted (before : Option Json) (note : Json) :
    MetadataKept before
        (some (.object (assigned (ascii "usage_note") note (Json.fieldsOf before)))) ↔
      ∀ value, before = some value → value.isObject = true := by
  constructor
  · intro h value hvalue
    rcases h with hsame | ⟨old, new, ⟨hnone, -⟩ | hold, -, -⟩
    · cases hsame.trans hvalue
      rfl
    · cases hnone.symm.trans hvalue
    · cases hold.symm.trans hvalue
      rfl
  · intro h
    refine .inr ⟨Json.fieldsOf before, _, ?_, rfl, fun k hk => find_assigned_ne hk note⟩
    cases before with
    | none => exact .inl ⟨rfl, rfl⟩
    | some value =>
      cases value with
      | object fields => exact .inr rfl
      | _ => cases h _ rfl

/-- A payload without a usage. -/
theorem reports_none (h : lookup members "usage" = none) : ∃ members',
    withUsage noUsage (.object members) = .ok (.object members') ∧
      (Reports members members' noUsage ↔ Complete members) := by
  obtain ⟨members', hwritten, husage, hframe, hmetadata⟩ := withUsage_object members noUsage
  obtain ⟨fields, hfields, hsays⟩ := says_usageJson noUsage
  rw [h] at husage
  change lookup members' "usage" = some (usageJson noUsage) at husage
  rw [hfields] at husage
  rw [if_neg (by decide)] at hmetadata
  refine ⟨members', hwritten, ?_⟩
  have hcomplete : Complete members ↔
      MetadataKept (lookup members "metadata") (lookup members' "metadata") := by
    rw [hmetadata, metadataKept_noted, Complete, h]
  rw [hcomplete]
  constructor
  · exact fun hreports => hreports.metadata
  · intro hkept
    constructor
    case told => exact ⟨fields, husage, hsays⟩
    case given =>
      intro fields' n hgiven
      cases h.symm.trans hgiven
    case summed => exact fun _ => rfl
    case metadata => exact hkept
    case frame => exact hframe

/-- A payload with a usage that is null. -/
theorem reports_null (h : lookup members "usage" = some .null) : ∃ members',
    withUsage {} (.object members) = .ok (.object members') ∧ Reports members members' {} := by
  obtain ⟨members', hwritten, husage, hframe, hmetadata⟩ := withUsage_object members {}
  obtain ⟨fields, hfields, hsays⟩ := says_usageJson {}
  rw [h] at husage
  change lookup members' "usage" = some (usageJson {}) at husage
  rw [hfields] at husage
  rw [if_pos rfl] at hmetadata
  refine ⟨members', hwritten, ?_⟩
  constructor
  case told => exact ⟨fields, husage, hsays⟩
  case given =>
    intro fields' n hgiven
    cases h.symm.trans hgiven
  case summed => exact fun _ => rfl
  case metadata => exact .inl hmetadata
  case frame => exact hframe

/-- What is read from a usage object says what the object says, where it says something. -/
theorem extractUsage_countable {fields : List (Bytes × Json)}
    (h : lookup members "usage" = some (.object fields))
    (hcountable : ∀ field ∈ tokenFields, ∀ value, lookup fields field = some value →
      ∃ n, value.Is n) :
    ∃ usage, extractUsage (.object members) = .ok usage ∧ usage.note = [] ∧
      (lookup fields "prompt_tokens" ≠ none → Says fields "prompt_tokens" usage.promptTokens) ∧
      (lookup fields "completion_tokens" ≠ none →
        Says fields "completion_tokens" usage.completionTokens) ∧
      (lookup fields "total_tokens" ≠ none → Says fields "total_tokens" usage.totalTokens) := by
  have hfield : ∀ field ∈ tokenFields, ∀ fallback, ∃ n,
      tokens (.object fields) field fallback = .ok n ∧
        (lookup fields field ≠ none → Says fields field n) :=
    fun field hmem fallback => tokens_countable fallback (hcountable field hmem)
  obtain ⟨prompt, hprompt, hprompt'⟩ := hfield "prompt_tokens" (by decide) 0
  obtain ⟨completion, hcompletion, hcompletion'⟩ := hfield "completion_tokens" (by decide) 0
  obtain ⟨total, htotal, htotal'⟩ := hfield "total_tokens" (by decide) (prompt + completion)
  obtain ⟨audio, haudio, -⟩ := hfield "audio_tokens" (by decide) 0
  obtain ⟨cached, hcached, -⟩ := hfield "cached_tokens" (by decide) 0
  refine ⟨⟨prompt, completion, total, audio, cached, []⟩, ?_, rfl, hprompt', hcompletion', htotal'⟩
  rw [extractUsage_some h]
  simp only [bind, Except.bind, pure, Except.pure, hprompt, hcompletion, htotal, haudio, hcached]

/-- A payload with a usage object, which is left as it is. -/
theorem reports_object (usage : Usage) {fields : List (Bytes × Json)}
    (h : lookup members "usage" = some (.object fields)) (hnote : usage.note = [])
    (hprompt : lookup fields "prompt_tokens" ≠ none →
      Says fields "prompt_tokens" usage.promptTokens)
    (hcompletion : lookup fields "completion_tokens" ≠ none →
      Says fields "completion_tokens" usage.completionTokens)
    (htotal : lookup fields "total_tokens" ≠ none → Says fields "total_tokens" usage.totalTokens) :
    ∃ members', withUsage usage (.object members) = .ok (.object members') ∧
      (Reports members members' usage ↔ Complete members) := by
  obtain ⟨members', hwritten, husage, hframe, hmetadata⟩ := withUsage_object members usage
  rw [h, Json.objectOr] at husage
  rw [if_pos hnote] at hmetadata
  refine ⟨members', hwritten, ?_⟩
  have hcomplete : Complete members ↔ lookup fields "prompt_tokens" ≠ none ∧
      lookup fields "completion_tokens" ≠ none ∧ lookup fields "total_tokens" ≠ none := by
    simp [Complete, h, requiredFields]
  rw [hcomplete]
  constructor
  · intro hreports
    obtain ⟨told, htold, hp, hc, ht⟩ := hreports.told
    cases husage.symm.trans htold
    exact ⟨hp.ne_none, hc.ne_none, ht.ne_none⟩
  · intro hall
    obtain ⟨hp, hc, ht⟩ := hall
    constructor
    case told => exact ⟨fields, husage, hprompt hp, hcompletion hc, htotal ht⟩
    case given =>
      intro fields' n hgiven hn
      cases h.symm.trans hgiven
      exact (htotal ht).unique hn
    case summed => exact fun hnone => absurd (hnone fields h) ht
    case metadata => exact .inl hmetadata
    case frame => exact hframe

end

section
variable {D : Type} {platform : Platform D} {config : ProviderConfig}
  {breaker : CircuitBreakerState} {request : Request} {members : List (Bytes × Json)}

/-- The usage in the payload is the usage beside it exactly for the payloads whose usage object,
where they have one, holds all that the schema requires. -/
theorem usage_reported_iff (h : Received platform config breaker request (.object members))
    (hcountable : Countable (lookup members "usage")) :
    (∃ members' usage providerRequestId,
      (performJsonOperation platform config breaker request).result =
        .ok { data := some { payload := .object members', usage, providerRequestId } } ∧
      Reports members members' usage) ↔ Complete members := by
  obtain ⟨providerRequestId, hresult⟩ := result_of_received h
  have hread : ∃ usage members', extractUsage (.object members) = .ok usage ∧
      withUsage usage (.object members) = .ok (.object members') ∧
        (Reports members members' usage ↔ Complete members) := by
    cases husage : lookup members "usage" with
    | none =>
      obtain ⟨members', hwritten, hiff⟩ := reports_none husage
      exact ⟨noUsage, members', extractUsage_none husage, hwritten, hiff⟩
    | some rawUsage =>
      rw [husage] at hcountable
      cases rawUsage with
      | null =>
        obtain ⟨members', hwritten, hreports⟩ := reports_null husage
        have hcomplete : Complete members := by
          rw [Complete, husage]
          trivial
        exact ⟨{}, members', extractUsage_some husage, hwritten, iff_of_true hreports hcomplete⟩
      | object fields =>
        obtain ⟨usage, hextract, hnote, hprompt, hcompletion, htotal⟩ :=
          extractUsage_countable husage hcountable
        obtain ⟨members', hwritten, hiff⟩ :=
          reports_object usage husage hnote hprompt hcompletion htotal
        exact ⟨usage, members', hextract, hwritten, hiff⟩
      | _ => exact hcountable.elim
  obtain ⟨usage, members', husage, hwritten, hiff⟩ := hread
  simp only [husage, hwritten, bind, Except.bind, pure, Except.pure, Except.mapError] at hresult
  rw [hresult, ← hiff]
  constructor
  · intro hreports
    obtain ⟨members'', usage', id, heq, hreports⟩ := hreports
    cases heq
    exact hreports
  · exact fun hreports => ⟨members', usage, providerRequestId, rfl, hreports⟩

end

/-- A body whose usage leaves the sum to be worked out, and one whose usage is null. -/
def partialText : Bytes :=
  ascii "\x7b\"usage\":\x7b\"prompt_tokens\":3,\"completion_tokens\":4\x7d\x7d"

def partialMembers : List (Bytes × Json) :=
  [(ascii "usage", .object [(ascii "prompt_tokens", .int 3), (ascii "completion_tokens", .int 4)])]

def nullText : Bytes := ascii "\x7b\"usage\":null\x7d"

def usagePlatform : Platform ℚ :=
  { samplePlatform with
    parse := fun text =>
      if text = partialText then .ok (.ok (.object partialMembers))
      else if text = nullText then .ok (.ok (.object [(ascii "usage", .null)]))
      else samplePlatform.parse text }

/-- A request that the upstream answers with this text at once. -/
def answered (text : Bytes) : Request :=
  repeated { unauthorized with statusCode := 200, text }

theorem received_answered {text : Bytes} {payload : Json} (platform : Platform ℚ)
    (h : platform.parse text = .ok (.ok payload)) :
    Received platform (sampleConfig 1 10000) {} (answered text) payload := by
  have hsettled : ¬ Transient ((answered text).responses 0) := by
    simp [Transient, answered, repeated, unauthorized]
  exact ⟨_, ⟨rfl, rfl, delays_of_settled hsettled, 0, Nat.zero_le _,
    ⟨hsettled, fun j hj => absurd hj (Nat.not_lt_zero j)⟩, rfl⟩, rfl,
    show (200 : Int) ≤ 200 by decide, show (200 : Int) < 300 by decide, h⟩

/-- The sum is returned beside the payload and is missing in it. -/
theorem usage_reported_fails : ¬ ∀ (platform : Platform ℚ) (config : ProviderConfig)
    (breaker : CircuitBreakerState) (request : Request) (members : List (Bytes × Json)),
      Received platform config breaker request (.object members) →
      Countable (lookup members "usage") →
      ∃ members' usage providerRequestId,
        (performJsonOperation platform config breaker request).result =
          .ok { data := some { payload := .object members', usage, providerRequestId } } ∧
        Reports members members' usage := by
  intro h
  have hcountable : Countable (lookup partialMembers "usage") := by
    intro field hfield value hvalue
    simp only [tokenFields, List.mem_cons, List.not_mem_nil, or_false] at hfield
    rcases hfield with rfl | rfl | rfl | rfl | rfl <;> cases hvalue
    · exact ⟨3, rfl⟩
    · exact ⟨4, rfl⟩
  obtain ⟨members', usage, id, hresult, hreports⟩ :=
    h usagePlatform (sampleConfig 1 10000) {} (answered partialText) partialMembers
      (received_answered usagePlatform rfl) hcountable
  have hperformed : (performJsonOperation usagePlatform (sampleConfig 1 10000) {}
      (answered partialText)).result = .ok { data := some {
        payload := .object partialMembers
        usage := ⟨3, 4, 7, 0, 0, []⟩
        providerRequestId := [] } } := rfl
  cases hperformed.symm.trans hresult
  obtain ⟨fields, htold, -, -, htotal⟩ := hreports.told
  cases htold
  exact htotal.ne_none rfl

theorem usage_reported_null : ∃ members' usage providerRequestId,
    (performJsonOperation usagePlatform (sampleConfig 1 10000) {} (answered nullText)).result =
      .ok { data := some { payload := .object members', usage, providerRequestId } } ∧
    Reports [(ascii "usage", .null)] members' usage := by
  have hreceived : Received usagePlatform (sampleConfig 1 10000) {} (answered nullText)
      (.object [(ascii "usage", .null)]) := received_answered usagePlatform rfl
  exact (usage_reported_iff hreceived trivial).mpr trivial

end SuperVoice.Providers
