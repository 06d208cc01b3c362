import SuperVoice.Lib.Environment
import SuperVoice.Lib.OrderedMap
import SuperVoice.Providers.HttpProviderBase

/-! `buildHeaders`: what every upstream attempt of a request carries. -/
namespace SuperVoice.Providers
open Bytes Environment

/-- The comparison of `cpr::Header`. -/
def compareNames : Bytes → Bytes → Ordering := compareOn toLower

instance : Std.TransCmp compareNames := inferInstanceAs (Std.TransCmp (compareOn toLower))

abbrev Header := OrderedMap compareNames Bytes

inductive AuthStrategy where
  | bearerAuthorization
  | xApiKey
  | xGoogApiKey
  | none
  deriving DecidableEq

/-- What `buildHeaders` reads of a provider. -/
structure HeaderConfig where
  authStrategy : AuthStrategy
  organizationEnv : Bytes
  /-- In the order in which the `unordered_map` yields them. -/
  defaultHeaders : List (Bytes × Bytes)
  distinct : (defaultHeaders.map Prod.fst).Nodup

def buildHeaders (config : HeaderConfig) (env : Variables) (apiKey : Bytes)
    (context : RequestContext) : Header :=
  let header : Header := OrderedMap.empty
  let header := header.set (ascii "Content-Type") (ascii "application/json")
  let header := header.set (ascii "Accept") (ascii "application/json")
  let header := header.set (ascii "User-Agent") (ascii "superapi_server/0.1.0")
  let header := if context.requestId.isEmpty then header
    else header.set (ascii "X-Request-ID") context.requestId
  let header := header.setAll config.defaultHeaders
  let header := match config.authStrategy with
    | .bearerAuthorization => header.set (ascii "Authorization") (ascii "Bearer " ++ apiKey)
    | .xApiKey => header.set (ascii "x-api-key") apiKey
    | .xGoogApiKey => header.set (ascii "x-goog-api-key") apiKey
    | .none => header
  if config.organizationEnv.isEmpty then header
  else match getenv env config.organizationEnv with
    | some organization =>
      if organization.isEmpty then header
      else header.set (ascii "OpenAI-Organization") organization
    | none => header

theorem compareNames_eq_iff {a b : Bytes} : compareNames a b = .eq ↔ toLower a = toLower b :=
  Std.LawfulEqOrd.compare_eq_iff_eq

namespace HeaderConfig
variable (config : HeaderConfig) (env : Variables) (apiKey : Bytes) (context : RequestContext)

/-! What each part of the request asks of the header with some name. -/

def fixed (name : Bytes) : Option Bytes :=
  if toLower name = ascii "content-type" ∨ toLower name = ascii "accept" then
    some (ascii "application/json")
  else if toLower name = ascii "user-agent" then some (ascii "superapi_server/0.1.0")
  else none

def identified (name : Bytes) : Option Bytes :=
  if toLower name = ascii "x-request-id" ∧ context.requestId ≠ [] then some context.requestId
  else none

/-- The last of the default headers. -/
def configured (name : Bytes) : Option Bytes :=
  (config.defaultHeaders.reverse.find? fun entry => toLower name = toLower entry.1).map Prod.snd

/-- The header of the strategy, in lower case. -/
def credentialName : Option Bytes :=
  match config.authStrategy with
  | .bearerAuthorization => some (ascii "authorization")
  | .xApiKey => some (ascii "x-api-key")
  | .xGoogApiKey => some (ascii "x-goog-api-key")
  | .none => none

def credentialValue : Bytes :=
  if config.authStrategy = .bearerAuthorization then ascii "Bearer " ++ apiKey else apiKey

def authorized (name : Bytes) : Option Bytes :=
  if config.credentialName = some (toLower name) then some (config.credentialValue apiKey) else none

/-- The organization, if the variable is configured and not empty. -/
def organization : Option Bytes :=
  if config.organizationEnv = [] then none
  else (getenv env config.organizationEnv).filter fun organization => !organization.isEmpty

def organized (name : Bytes) : Option Bytes :=
  if toLower name = ascii "openai-organization" then config.organization env else none

end HeaderConfig

section Lookup
variable {config : HeaderConfig} {env : Variables} {apiKey : Bytes} {context : RequestContext}
  {name key value : Bytes} {header : Header}

theorem get_set_lower (lower : Bytes) (hlower : toLower key = lower) :
    (header.set key value).get name =
      if toLower name = lower then some value else header.get name := by
  rw [OrderedMap.get_set]
  simp only [compareNames_eq_iff, hlower]

theorem get_fixed : ((((OrderedMap.empty : Header).set (ascii "Content-Type")
    (ascii "application/json")).set (ascii "Accept") (ascii "application/json")).set
      (ascii "User-Agent") (ascii "superapi_server/0.1.0")).get name = HeaderConfig.fixed name := by
  rw [get_set_lower (ascii "user-agent") (by decide),
    get_set_lower (ascii "accept") (by decide),
    get_set_lower (ascii "content-type") (by decide), HeaderConfig.fixed]
  by_cases hagent : toLower name = ascii "user-agent"
  · have htype : ascii "user-agent" ≠ ascii "content-type" := by decide
    have haccept : ascii "user-agent" ≠ ascii "accept" := by decide
    rw [hagent, if_pos rfl, if_neg (by simp [htype, haccept]), if_pos rfl]
  · rw [if_neg hagent, if_neg hagent]
    by_cases haccept : toLower name = ascii "accept" <;> simp [haccept]

theorem get_identified : (if context.requestId.isEmpty then header
    else header.set (ascii "X-Request-ID") context.requestId).get name =
      (HeaderConfig.identified context name).or (header.get name) := by
  rw [HeaderConfig.identified]
  by_cases hid : context.requestId = []
  · simp [hid]
  · rw [if_neg (by simpa using hid), get_set_lower (ascii "x-request-id") (by decide)]
    by_cases hname : toLower name = ascii "x-request-id" <;> simp [hname, hid]

theorem get_configured : (header.setAll config.defaultHeaders).get name =
    (config.configured name).or (header.get name) := by
  rw [OrderedMap.get_setAll, HeaderConfig.configured]
  simp only [compareNames_eq_iff]

theorem get_set_credential {lower : Bytes} (hlower : toLower key = lower) :
    (header.set key value).get name =
      (if some lower = some (toLower name) then some value else none).or (header.get name) := by
  rw [get_set_lower lower hlower]
  by_cases hname : toLower name = lower
  · rw [if_pos hname, if_pos (congrArg some hname.symm), Option.some_or]
  · rw [if_neg hname, if_neg fun h => hname (Option.some.inj h).symm, Option.none_or]

theorem get_authorized : (match config.authStrategy with
    | .bearerAuthorization => header.set (ascii "Authorization") (ascii "Bearer " ++ apiKey)
    | .xApiKey => header.set (ascii "x-api-key") apiKey
    | .xGoogApiKey => header.set (ascii "x-goog-api-key") apiKey
    | .none => header).get name = (config.authorized apiKey name).or (header.get name) := by
  rw [HeaderConfig.authorized, HeaderConfig.credentialName, HeaderConfig.credentialValue]
  cases config.authStrategy with
  | bearerAuthorization => exact get_set_credential (by decide)
  | xApiKey => exact get_set_credential (by decide)
  | xGoogApiKey => exact get_set_credential (by decide)
  | none => rfl

theorem get_organized : (if config.organizationEnv.isEmpty then header
    else match getenv env config.organizationEnv with
      | some organization =>
        if organization.isEmpty then header
        else header.set (ascii "OpenAI-Organization") organization
      | none => header).get name = (config.organized env name).or (header.get name) := by
  rw [HeaderConfig.organized, HeaderConfig.organization]
  by_cases henv : config.organizationEnv = []
  · simp [henv]
  · rw [if_neg (by simpa using henv), if_neg henv]
    cases getenv env config.organizationEnv with
    | none => simp
    | some organization =>
      by_cases hempty : organization = []
      · simp [hempty, Option.filter]
      · dsimp only
        rw [if_neg (by simpa using hempty),
          get_set_lower (ascii "openai-organization") (by decide)]
        by_cases hname : toLower name = ascii "openai-organization" <;>
          simp [hname, hempty, Option.filter]

/-- The organization comes before the credential, that before the default headers, these before the
request id, and the fixed headers come last. -/
theorem get_buildHeaders : (buildHeaders config env apiKey context).get name =
    (config.organized env name).or ((config.authorized apiKey name).or
      ((config.configured name).or ((HeaderConfig.identified context name).or
        (HeaderConfig.fixed name)))) := by
  rw [buildHeaders, get_organized, get_authorized, get_configured, get_identified, get_fixed]

end Lookup

namespace HeaderConfig

/-- The same configuration with the default headers in another order. -/
structure Reorders (config' config : HeaderConfig) : Prop where
  authStrategy : config'.authStrategy = config.authStrategy
  organizationEnv : config'.organizationEnv = config.organizationEnv
  defaultHeaders : config'.defaultHeaders.Perm config.defaultHeaders

/-- Two default headers have the same name and different values, and no other part of the request
sets that header. -/
def Ambiguous (config : HeaderConfig) (env : Variables) (apiKey : Bytes) : Prop :=
  ∃ a ∈ config.defaultHeaders, ∃ b ∈ config.defaultHeaders, toLower a.1 = toLower b.1 ∧
    a.2 ≠ b.2 ∧ config.organized env a.1 = none ∧ config.authorized apiKey a.1 = none

variable {config config' : HeaderConfig} {env : Variables} {apiKey : Bytes}
  {context : RequestContext} {name : Bytes}

theorem organized_congr {name' : Bytes} (h : toLower name = toLower name') :
    config.organized env name = config.organized env name' := by
  rw [organized, organized, h]

theorem authorized_congr {name' : Bytes} (h : toLower name = toLower name') :
    config.authorized apiKey name = config.authorized apiKey name' := by
  rw [authorized, authorized, h]

theorem Reorders.organized (h : config'.Reorders config) :
    config'.organized env name = config.organized env name := by
  rw [HeaderConfig.organized, HeaderConfig.organized, organization, organization, h.organizationEnv]

theorem Reorders.authorized (h : config'.Reorders config) :
    config'.authorized apiKey name = config.authorized apiKey name := by
  rw [HeaderConfig.authorized, HeaderConfig.authorized, credentialName, credentialName,
    credentialValue, credentialValue, h.authStrategy]

theorem mem_of_configured {value : Bytes} (h : config.configured name = some value) :
    ∃ entry ∈ config.defaultHeaders, toLower name = toLower entry.1 ∧ entry.2 = value := by
  obtain ⟨entry, hfind, hvalue⟩ := Option.map_eq_some_iff.mp h
  have hname := List.find?_some hfind
  exact ⟨entry, List.mem_reverse.mp (List.mem_of_find?_eq_some hfind), of_decide_eq_true hname,
    hvalue⟩

theorem configured_eq_none_iff : config.configured name = none ↔
    ∀ entry ∈ config.defaultHeaders, toLower name ≠ toLower entry.1 := by
  simp [configured]

/-- Which of several default headers comes last does not matter if they agree. -/
theorem Reorders.configured (h : config'.Reorders config) (hsure : ¬config.Ambiguous env apiKey)
    (horganized : config.organized env name = none)
    (hauthorized : config.authorized apiKey name = none) :
    config'.configured name = config.configured name := by
  cases hvalue : config.configured name with
  | none =>
    rw [configured_eq_none_iff] at hvalue ⊢
    exact fun entry hentry => hvalue entry (h.defaultHeaders.mem_iff.mp hentry)
  | some value =>
    obtain ⟨a, ha, hname, rfl⟩ := mem_of_configured hvalue
    cases hvalue' : config'.configured name with
    | none =>
      rw [configured_eq_none_iff] at hvalue'
      exact absurd hname (hvalue' a (h.defaultHeaders.mem_iff.mpr ha))
    | some value' =>
      obtain ⟨b, hb, hname', rfl⟩ := mem_of_configured hvalue'
      by_contra hne
      refine hsure ⟨a, ha, b, h.defaultHeaders.mem_iff.mp hb, hname.symm.trans hname', ?_, ?_, ?_⟩
      · exact fun heq => hne (congrArg some heq.symm)
      · rwa [← organized_congr hname]
      · rwa [← authorized_congr hname]

/-- An order in which a default header comes last. -/
def withLast (config : HeaderConfig) (entry : Bytes × Bytes) (h : entry ∈ config.defaultHeaders) :
    HeaderConfig :=
  { config with
    defaultHeaders := config.defaultHeaders.erase entry ++ [entry]
    distinct := by
      have hperm := (List.perm_append_singleton entry (config.defaultHeaders.erase entry)).trans
        (List.perm_cons_erase h).symm
      exact ((hperm.map Prod.fst).nodup_iff).mpr config.distinct }

theorem reorders_withLast {entry : Bytes × Bytes} (h : entry ∈ config.defaultHeaders) :
    (config.withLast entry h).Reorders config where
  authStrategy := rfl
  organizationEnv := rfl
  defaultHeaders := (List.perm_append_singleton entry _).trans (List.perm_cons_erase h).symm

theorem configured_withLast {entry : Bytes × Bytes} (h : entry ∈ config.defaultHeaders)
    (hname : toLower name = toLower entry.1) :
    (config.withLast entry h).configured name = some entry.2 := by
  simp [configured, withLast, hname]

/-- The organization is no credential. -/
theorem organized_of_credential (h : config.credentialName = some (toLower name)) :
    config.organized env name = none := by
  refine if_neg fun hname => ?_
  rw [hname, credentialName] at h
  split at h <;> exact absurd h (by decide)

end HeaderConfig

open HeaderConfig in
/-- For every configuration and every request: the precedence of the headers; no name comes twice;
nothing displaces the credential, and the key shows in no other header; the order of the default
headers matters exactly when they are ambiguous. -/
theorem headers_sent (config : HeaderConfig) (env : Variables) (apiKey : Bytes)
    (context : RequestContext) :
    (∀ name, (buildHeaders config env apiKey context).get name =
      (config.organized env name).or ((config.authorized apiKey name).or
        ((config.configured name).or ((identified context name).or (fixed name))))) ∧
    ((buildHeaders config env apiKey context).entries.Pairwise fun a b =>
      toLower a.1 ≠ toLower b.1) ∧
    (∀ name, config.credentialName = some (toLower name) →
      (buildHeaders config env apiKey context).get name = some (config.credentialValue apiKey)) ∧
    (∀ other name, config.credentialName ≠ some (toLower name) →
      (buildHeaders config env other context).get name =
        (buildHeaders config env apiKey context).get name) ∧
    ((∀ config' : HeaderConfig, config'.Reorders config → ∀ name,
      (buildHeaders config' env apiKey context).get name =
        (buildHeaders config env apiKey context).get name) ↔ ¬config.Ambiguous env apiKey) := by
  refine ⟨fun name => get_buildHeaders, ?_, fun name hname => ?_, fun other name hname => ?_,
    fun hstable => ?_, fun hsure config' hreorders name => ?_⟩
  · refine (OrderedMap.entries_distinct _).imp fun hne heq => hne ?_
    exact compareNames_eq_iff.mpr heq
  · rw [get_buildHeaders, organized_of_credential hname, authorized, if_pos hname, Option.none_or,
      Option.some_or]
  · rw [get_buildHeaders, get_buildHeaders, authorized, authorized, if_neg hname, if_neg hname]
  · rintro ⟨a, ha, b, hb, hname, hne, horganized, hauthorized⟩
    have hlast : ∀ entry (hentry : entry ∈ config.defaultHeaders), toLower a.1 = toLower entry.1 →
        (buildHeaders config env apiKey context).get a.1 = some entry.2 := by
      intro entry hentry hentryName
      have hreorders := reorders_withLast hentry
      rw [← hstable _ hreorders, get_buildHeaders, hreorders.organized, hreorders.authorized,
        horganized, hauthorized, configured_withLast hentry hentryName]
      rfl
    exact hne (Option.some.inj ((hlast a ha rfl).symm.trans (hlast b hb hname)))
  · rw [get_buildHeaders, get_buildHeaders, hreorders.organized, hreorders.authorized]
    cases horganized : config.organized env name with
    | some organization => rfl
    | none =>
      cases hauthorized : config.authorized apiKey name with
      | some credential => rfl
      | none => rw [hreorders.configured hsure horganized hauthorized]

def sampleHeaderConfig : HeaderConfig where
  authStrategy := .bearerAuthorization
  organizationEnv := ascii "TEST_HTTP_ORG"
  defaultHeaders := [(ascii "X-Custom", ascii "value"), (ascii "accept", ascii "text/plain")]
  distinct := by decide

example : (buildHeaders sampleHeaderConfig (only (ascii "TEST_HTTP_ORG") (ascii "org-123"))
    (ascii "secret") ⟨ascii "req-1"⟩).entries =
      [(ascii "Accept", ascii "text/plain"), (ascii "Authorization", ascii "Bearer secret"),
        (ascii "Content-Type", ascii "application/json"),
        (ascii "OpenAI-Organization", ascii "org-123"),
        (ascii "User-Agent", ascii "superapi_server/0.1.0"), (ascii "X-Custom", ascii "value"),
        (ascii "X-Request-ID", ascii "req-1")] := by
  decide +kernel

end SuperVoice.Providers
