import SuperVoice.Core.ResolveEnv
import SuperVoice.Core.Tracing
import SuperVoice.Lib.Text
import SuperVoice.Providers.Headers

/-! `Tracer::configure`: where the spans are exported to and under which headers. -/
namespace SuperVoice.Core
open Bytes Environment Search Text
open Numeral (isSpace)

def comma : UInt8 := 44

def equalsSign : UInt8 := 61

/-- What the loop of `std::getline` reads. -/
def headerItems (text : Bytes) : List Bytes :=
  let parts := text.splitOn comma
  if parts.getLast? = some [] then parts.dropLast else parts

/-- The header of an item, unless a part of it is missing. -/
def headerOf (item : Bytes) : Option (Bytes × Bytes) :=
  (find [equalsSign] item 0).bind fun eq =>
    let key := trim (item.take eq)
    let value := trim (item.drop (eq + 1))
    if key ≠ [] ∧ value ≠ [] then some (key, value) else none

def parseHeaders (text : Bytes) : List (Bytes × Bytes) := (headerItems text).filterMap headerOf

def tracesPath : Bytes := ascii "/v1/traces"

def withoutSlash (endpoint : Bytes) : Bytes :=
  if endpoint.getLast? = some 47 then endpoint.dropLast else endpoint

def withTracesPath (endpoint : Bytes) : Bytes :=
  if tracesPath <:+ endpoint then endpoint else endpoint ++ tracesPath

/-- The endpoint that a configured one stands for. -/
def exportEndpoint (endpoint : Bytes) : Bytes := withTracesPath (withoutSlash (trim endpoint))

/-- What the document says under `service`; a missing scalar has a default. -/
structure ServiceNode where
  name : Option Bytes
  namespaceName : Option Bytes
  version : Option Bytes

/-- What it says under `otel`. -/
structure OtelNode where
  service : Option ServiceNode
  /-- The environment under `resources`. -/
  resources : Option (Option Bytes)
  endpoint : Option Bytes
  headers : Option Bytes

abbrev ExportHeaders := OrderedMap (compare : Bytes → Bytes → Ordering) Bytes

/-- The members of the tracer that `configure` sets. -/
structure Exporter where
  enabled : Bool := false
  endpoint : Bytes := []
  headers : ExportHeaders := OrderedMap.empty
  serviceName : Bytes := []
  serviceNamespace : Bytes := []
  serviceVersion : Bytes := []
  environment : Bytes := []

namespace Exporter

def cleared (t : Exporter) : Exporter :=
  { t with enabled := false, endpoint := [], headers := OrderedMap.empty }

def withService (t : Exporter) : Option ServiceNode → Exporter
  | none => t
  | some service => { t with
      serviceName := service.name.getD (ascii "superapi")
      serviceNamespace := service.namespaceName.getD []
      serviceVersion := service.version.getD [] }

def withResources (t : Exporter) : Option (Option Bytes) → Exporter
  | none => t
  | some environment => { t with environment := environment.getD [] }

/-- `none` where resolving a variable does not come to an end. -/
def configure (env : Variables) (t : Exporter) : Option OtelNode → Option Exporter
  | none => some t.cleared
  | some otel => do
    let t := (t.cleared.withService otel.service).withResources otel.resources
    let endpoint ← resolveEnv env (otel.endpoint.getD [])
    let headers ← resolveEnv env (otel.headers.getD [])
    let t := { t with headers := t.headers.setAll (parseHeaders headers) }
    if endpoint = [] then pure t
    else pure { t with endpoint := exportEndpoint endpoint, enabled := true }

def shutdown (t : Exporter) : Exporter := t.cleared

/-- The headers under which a span is posted. -/
def exportHeaders (t : Exporter) : Providers.Header :=
  ((OrderedMap.empty : Providers.Header).set (ascii "Content-Type") (ascii "application/json")).setAll
    t.headers.entries

end Exporter

/-- A header as an item can give it. -/
structure ProperHeader (h : Bytes × Bytes) : Prop where
  key_ne_nil : h.1 ≠ []
  value_ne_nil : h.2 ≠ []
  key_trimmed : Trimmed h.1
  value_trimmed : Trimmed h.2
  key_plain : equalsSign ∉ h.1 ∧ comma ∉ h.1
  value_plain : comma ∉ h.2

/-- An item gives a header, with white space around both parts. -/
def Writes (item : Bytes) (h : Bytes × Bytes) : Prop :=
  ∃ a b c d : Bytes, item = a ++ (h.1 ++ b) ++ [equalsSign] ++ (c ++ (h.2 ++ d)) ∧
    ∀ blank ∈ a ++ b ++ c ++ d, isSpace blank = true

def renderHeaders (headers : List (Bytes × Bytes)) : Bytes :=
  [comma].intercalate (headers.map fun h => h.1 ++ [equalsSign] ++ h.2)

section Headers
variable {item text key value : Bytes} {h : Bytes × Bytes}

theorem headerOf_eq (item : Bytes) : headerOf item =
    (cut [equalsSign] item).bind fun parts =>
      if trim parts.1 ≠ [] ∧ trim parts.2 ≠ [] then some (trim parts.1, trim parts.2) else none := by
  rw [headerOf, find_eq_cut (by decide), List.drop_zero]
  cases hcut : cut [equalsSign] item with
  | none => rfl
  | some parts =>
    obtain ⟨before, after⟩ := parts
    obtain ⟨rfl, -⟩ := cut_singleton_iff.mp hcut
    have htake : (before ++ [equalsSign] ++ after).take before.length = before := by
      rw [List.append_assoc, List.take_left]
    have hdrop : (before ++ [equalsSign] ++ after).drop (before.length + 1) = after :=
      List.drop_left' (by simp)
    simp only [Option.map_some, Option.bind_some, Nat.zero_add, htake, hdrop]

theorem headerOf_of_writes (hwrites : Writes item h) (hproper : ProperHeader h) :
    headerOf item = some h := by
  obtain ⟨a, b, c, d, rfl, hblanks⟩ := hwrites
  simp only [List.mem_append] at hblanks
  have hfree : equalsSign ∉ a ++ (h.1 ++ b) := by
    have hblank : ∀ {blanks : Bytes}, (∀ blank ∈ blanks, isSpace blank = true) →
        equalsSign ∉ blanks := fun hspace hmem => absurd (hspace _ hmem) (by decide)
    simp only [List.mem_append, not_or]
    exact ⟨hblank fun x hx => hblanks x (.inl (.inl (.inl hx))), hproper.key_plain.1,
      hblank fun x hx => hblanks x (.inl (.inl (.inr hx)))⟩
  have hkey : trim (a ++ (h.1 ++ b)) = h.1 := trim_append hproper.key_ne_nil hproper.key_trimmed
    (fun x hx => hblanks x (.inl (.inl (.inl hx)))) fun x hx => hblanks x (.inl (.inl (.inr hx)))
  have hvalue : trim (c ++ (h.2 ++ d)) = h.2 :=
    trim_append hproper.value_ne_nil hproper.value_trimmed
      (fun x hx => hblanks x (.inl (.inr hx))) fun x hx => hblanks x (.inr hx)
  rw [headerOf_eq, cut_singleton_iff.mpr ⟨rfl, hfree⟩, Option.bind_some, hkey, hvalue,
    if_pos ⟨hproper.key_ne_nil, hproper.value_ne_nil⟩]

/-- What an item gives is trimmed and has no sign that would end it. -/
theorem proper_of_headerOf (hplain : comma ∉ item) (hheader : headerOf item = some h) :
    ProperHeader h ∧ Writes item h := by
  rw [headerOf_eq] at hheader
  obtain ⟨⟨before, after⟩, hcut, hparts⟩ := Option.bind_eq_some_iff.mp hheader
  obtain ⟨rfl, hfree⟩ := cut_singleton_iff.mp hcut
  dsimp only at hparts
  split at hparts
  · next hne =>
    cases hparts
    obtain ⟨a, b, hbefore, ha, hb⟩ := exists_trim before
    obtain ⟨c, d, hafter, hc, hd⟩ := exists_trim after
    have hkey : ∀ x, x ∉ before → x ∉ trim before := fun x hx hmem => hx (by
      rw [hbefore]
      exact List.mem_append_right _ (List.mem_append_left _ hmem))
    have hvalue : ∀ x, x ∉ after → x ∉ trim after := fun x hx hmem => hx (by
      rw [hafter]
      exact List.mem_append_right _ (List.mem_append_left _ hmem))
    simp only [List.mem_append, not_or] at hplain
    refine ⟨⟨hne.1, hne.2, trimmed_trim _, trimmed_trim _, ⟨hkey _ hfree, hkey _ hplain.1.1⟩,
      hvalue _ hplain.2⟩, a, b, c, d, ?_, ?_⟩
    · rw [← hbefore, ← hafter]
    · simp only [List.mem_append]
      rintro x (((hx | hx) | hx) | hx)
      · exact ha x hx
      · exact hb x hx
      · exact hc x hx
      · exact hd x hx
  · cases hparts

theorem parseHeaders_eq (text : Bytes) :
    parseHeaders text = (text.splitOn comma).filterMap headerOf := by
  have hnil : headerOf [] = none := by decide
  rw [parseHeaders, headerItems]
  split
  · next hlast =>
    obtain ⟨front, hfront⟩ := List.getLast?_eq_some_iff.mp hlast
    rw [hfront, List.dropLast_concat, List.filterMap_append]
    simp [hnil]
  · rfl

theorem proper_of_parseHeaders (hmem : h ∈ parseHeaders text) : ProperHeader h := by
  rw [parseHeaders_eq] at hmem
  obtain ⟨item, hitem, hheader⟩ := List.mem_filterMap.mp hmem
  exact (proper_of_headerOf (not_mem_of_mem_splitOn hitem) hheader).1

theorem comma_notMem_of_writes (hwrites : Writes item h) (hproper : ProperHeader h) :
    comma ∉ item := by
  obtain ⟨a, b, c, d, rfl, hblanks⟩ := hwrites
  have hfree : comma ∉ a ++ b ++ c ++ d := fun hmem => absurd (hblanks _ hmem) (by decide)
  simp only [List.mem_append, not_or] at hfree
  have hsign : ¬comma = equalsSign := by decide
  simp [hfree, hproper.key_plain.2, hproper.value_plain, hsign]

/-- Headers with any white space around their parts are read back. -/
theorem parseHeaders_intercalate {items : List Bytes} {headers : List (Bytes × Bytes)}
    (hwrites : List.Forall₂ Writes items headers) (hproper : ∀ h ∈ headers, ProperHeader h) :
    parseHeaders ([comma].intercalate items) = headers := by
  have hall : items.filterMap headerOf = headers ∧ ∀ item ∈ items, comma ∉ item := by
    induction hwrites with
    | nil => exact ⟨rfl, nofun⟩
    | cons hfirst _ ih =>
      obtain ⟨hp, hps⟩ := List.forall_mem_cons.mp hproper
      obtain ⟨hrest, hplain⟩ := ih hps
      constructor
      · rw [List.filterMap_cons_some (headerOf_of_writes hfirst hp), hrest]
      · exact List.forall_mem_cons.mpr ⟨comma_notMem_of_writes hfirst hp, hplain⟩
  rw [parseHeaders_eq]
  by_cases hitems : items = []
  · subst hitems
    have hnil : headers = [] := hall.1.symm
    rw [hnil]
    decide
  · rw [List.splitOn_intercalate comma hall.2 hitems, hall.1]

theorem parseHeaders_renderHeaders {headers : List (Bytes × Bytes)}
    (hproper : ∀ h ∈ headers, ProperHeader h) : parseHeaders (renderHeaders headers) = headers := by
  refine parseHeaders_intercalate ?_ hproper
  rw [List.forall₂_map_left_iff]
  exact List.forall₂_same.mpr fun h _ => ⟨[], [], [], [], by simp, nofun⟩

end Headers

section Endpoint
variable {base endpoint : Bytes}

theorem tracesPath_suffix (endpoint : Bytes) : tracesPath <:+ exportEndpoint endpoint := by
  rw [exportEndpoint, withTracesPath]
  split
  · assumption
  · exact List.suffix_append _ _

theorem withoutSlash_prefix (endpoint : Bytes) : withoutSlash endpoint <+: endpoint := by
  rw [withoutSlash]
  split
  · exact List.dropLast_prefix endpoint
  · exact List.prefix_refl endpoint

/-- A URL that ends with the path and starts with no white space is taken as it is. -/
theorem exportEndpoint_of_suffix (hsuffix : tracesPath <:+ endpoint)
    (hhead : ∀ b, endpoint.head? = some b → isSpace b = false) :
    exportEndpoint endpoint = endpoint := by
  have hlast : endpoint.getLast? = some 115 := by
    obtain ⟨front, rfl⟩ := hsuffix
    rw [List.getLast?_append]
    rfl
  have htrim : trim endpoint = endpoint := by
    refine trim_eq_self ⟨hhead, fun b hb => ?_⟩
    rw [hlast] at hb
    cases hb
    decide
  have hslash : withoutSlash endpoint = endpoint := by
    rw [withoutSlash, hlast]
    exact if_neg (by decide)
  rw [exportEndpoint, htrim, hslash, withTracesPath, if_pos hsuffix]

theorem head_exportEndpoint (endpoint : Bytes) :
    ∀ b, (exportEndpoint endpoint).head? = some b → isSpace b = false := by
  intro b hb
  obtain ⟨rest, hrest⟩ := withoutSlash_prefix (trim endpoint)
  cases hkept : withoutSlash (trim endpoint) with
  | nil =>
    rw [exportEndpoint, hkept, show withTracesPath [] = tracesPath by decide] at hb
    cases hb
    decide
  | cons c front =>
    have hc : c = b := by
      rw [exportEndpoint, hkept, withTracesPath] at hb
      split at hb <;> exact Option.some.inj hb
    exact (trimmed_trim endpoint).1 b (by rw [← hrest, hkept, ← hc]; rfl)

/-- An endpoint that was made from a configured one can be configured itself. -/
theorem exportEndpoint_idempotent (endpoint : Bytes) :
    exportEndpoint (exportEndpoint endpoint) = exportEndpoint endpoint :=
  exportEndpoint_of_suffix (tracesPath_suffix endpoint) (head_exportEndpoint endpoint)

/-- White space is an endpoint that no collector has. -/
example : exportEndpoint (ascii " http://localhost:4317/ ") =
    ascii "http://localhost:4317/v1/traces" ∧ exportEndpoint (ascii " ") = tracesPath := by
  decide

end Endpoint

/-! Calls of `configure` and `shutdown`, one after the other. -/

inductive TracerCall where
  | configure (env : Variables) (otel : Option OtelNode)
  | shutdown

namespace Exporter

def call (t : Exporter) : TracerCall → Option Exporter
  | .configure env otel => t.configure env otel
  | .shutdown => some t.shutdown

/-- What says where to. -/
def destination (t : Exporter) : Bool × Bytes × ExportHeaders := (t.enabled, t.endpoint, t.headers)

/-- What says from whom. -/
def resource (t : Exporter) : Bytes × Bytes × Bytes × Bytes :=
  (t.serviceName, t.serviceNamespace, t.serviceVersion, t.environment)

end Exporter

namespace TracerCall

def service? : TracerCall → Option ServiceNode
  | .configure _ (some otel) => otel.service
  | .configure _ none | .shutdown => none

def resources? : TracerCall → Option (Option Bytes)
  | .configure _ (some otel) => otel.resources
  | .configure _ none | .shutdown => none

end TracerCall

/-- The service and the environment that were given last. -/
def lastService (calls : List TracerCall) : Option ServiceNode :=
  calls.reverse.findSome? TracerCall.service?

def lastResources (calls : List TracerCall) : Option (Option Bytes) :=
  calls.reverse.findSome? TracerCall.resources?

namespace Exporter
variable {t : Exporter} {calls : List TracerCall} {last : TracerCall}

/-- Where to is said by the call alone; from whom, only if the call says so. -/
theorem call_cases (t : Exporter) (last : TracerCall) : ∃ after alone, t.call last = some after ∧
    call {} last = some alone ∧ after.destination = alone.destination ∧
      after.resource = ((t.withService last.service?).withResources last.resources?).resource := by
  cases last with
  | shutdown => exact ⟨_, _, rfl, rfl, rfl, rfl⟩
  | configure env otel =>
    cases otel with
    | none => exact ⟨_, _, rfl, rfl, rfl, rfl⟩
    | some otel =>
      obtain ⟨service, resources, endpoint, headers⟩ := otel
      obtain ⟨_, -, -, hendpoint⟩ := resolveEnv_substitutes env (endpoint.getD [])
      obtain ⟨_, -, -, hheaders⟩ := resolveEnv_substitutes env (headers.getD [])
      simp only [call, configure, hendpoint, hheaders, Option.bind_eq_bind, Option.bind_some]
      split <;> cases service <;> cases resources <;> exact ⟨_, _, rfl, rfl, rfl, rfl⟩

theorem resource_congr {t' : Exporter} (h : t.resource = t'.resource)
    (service : Option ServiceNode) (resources : Option (Option Bytes)) :
    ((t.withService service).withResources resources).resource =
      ((t'.withService service).withResources resources).resource := by
  simp only [resource, Prod.mk.injEq] at h
  obtain ⟨hname, hnamespace, hversion, henvironment⟩ := h
  cases service <;> cases resources <;>
    simp [resource, withService, withResources, hname, hnamespace, hversion, henvironment]

/-- What is given again replaces what was given before. -/
theorem resource_again (t : Exporter) (service service' : Option ServiceNode)
    (resources resources' : Option (Option Bytes)) :
    ((((t.withService service).withResources resources).withService service').withResources
        resources').resource =
      ((t.withService (service'.or service)).withResources (resources'.or resources)).resource := by
  cases service <;> cases service' <;> cases resources <;> cases resources' <;> rfl

theorem resource_calls (calls : List TracerCall) : ∃ t, calls.foldlM call {} = some t ∧
    t.resource = ((({} : Exporter).withService (lastService calls)).withResources
      (lastResources calls)).resource := by
  induction calls using List.reverseRecOn with
  | nil => exact ⟨{}, rfl, rfl⟩
  | append_singleton calls last ih =>
    obtain ⟨t, hcalls, hresource⟩ := ih
    obtain ⟨after, alone, hafter, -, -, hlast⟩ := call_cases t last
    refine ⟨after, ?_, ?_⟩
    · rw [List.foldlM_append, hcalls]
      simpa using hafter
    · have hservice : lastService (calls ++ [last]) = last.service?.or (lastService calls) := by
        simp [lastService, List.reverse_append, List.findSome?_cons]
        cases last.service? <;> rfl
      have hresources : lastResources (calls ++ [last]) =
          last.resources?.or (lastResources calls) := by
        simp [lastResources, List.reverse_append, List.findSome?_cons]
        cases last.resources? <;> rfl
      rw [hlast, resource_congr hresource, resource_again, hservice, hresources]

/-- A destination as a call leaves it. -/
structure Destined (t : Exporter) : Prop where
  endpoint : if t.enabled then tracesPath <:+ t.endpoint ∧ exportEndpoint t.endpoint = t.endpoint
    else t.endpoint = []
  proper : ∀ h ∈ t.headers.entries, ProperHeader h

theorem destined_alone {alone : Exporter} (h : call {} last = some alone) : alone.Destined := by
  cases last with
  | shutdown =>
    cases h
    exact ⟨rfl, nofun⟩
  | configure env otel =>
    cases otel with
    | none =>
      cases h
      exact ⟨rfl, nofun⟩
    | some otel =>
      obtain ⟨service, resources, endpoint, headers⟩ := otel
      obtain ⟨_, -, -, hendpoint⟩ := resolveEnv_substitutes env (endpoint.getD [])
      obtain ⟨_, -, -, hheaders⟩ := resolveEnv_substitutes env (headers.getD [])
      simp only [call, configure, hendpoint, hheaders, Option.bind_eq_bind, Option.bind_some] at h
      have hproper : ∀ text, ∀ h ∈ ((OrderedMap.empty : ExportHeaders).setAll
          (parseHeaders text)).entries, ProperHeader h := by
        intro text h hmem
        obtain hnil | hmem := OrderedMap.mem_setAll hmem
        · cases hnil
        · exact proper_of_parseHeaders hmem
      split at h
      · cases service <;> cases resources <;> cases h <;> exact ⟨rfl, hproper _⟩
      · cases service <;> cases resources <;> cases h <;>
          exact ⟨⟨tracesPath_suffix _, exportEndpoint_idempotent _⟩, hproper _⟩

/-- The document that says of a tracer where it exports to. -/
def written (t : Exporter) : OtelNode where
  service := none
  resources := none
  endpoint := some t.endpoint
  headers := some (renderHeaders t.headers.entries)

/-- A text is a literal for `configure` if no expression begins in it. -/
theorem resolveEnv_literal {text : Bytes} (env : Variables)
    (h : ¬Placeholder.opening <:+: text) : resolveEnv env text = some text := by
  rw [resolveEnv_of_splits (.literal h)]
  simp [Placeholder.substitute, Placeholder.Piece.value]

theorem Destined.readBack (h : t.Destined) :
    (OrderedMap.empty : ExportHeaders).setAll (parseHeaders (renderHeaders t.headers.entries)) =
      t.headers := by
  rw [parseHeaders_renderHeaders h.proper, OrderedMap.setAll_entries]

/-- A tracer stays as it is when it is configured with what it has. -/
theorem Destined.configure_written (h : t.Destined) (env : Variables)
    (hendpoint : ¬Placeholder.opening <:+: t.endpoint)
    (hheaders : ¬Placeholder.opening <:+: renderHeaders t.headers.entries) :
    t.configure env (some t.written) = some t := by
  obtain ⟨enabled, endpoint, headers, name, namespaceName, version, environment⟩ := t
  have hkept := h.readBack
  have hdestined := h.endpoint
  dsimp only at hendpoint hheaders hkept hdestined
  simp only [configure, written, Option.getD_some, resolveEnv_literal env hendpoint,
    resolveEnv_literal env hheaders, Option.bind_eq_bind, Option.bind_some, cleared, withService,
    withResources, hkept]
  cases enabled with
  | false =>
    have hnil : endpoint = [] := hdestined
    rw [if_pos hnil, hnil]
    rfl
  | true =>
    obtain ⟨hsuffix, hsame⟩ : tracesPath <:+ endpoint ∧ exportEndpoint endpoint = endpoint :=
      hdestined
    have hne : endpoint ≠ [] := by
      rintro rfl
      exact absurd (List.suffix_nil.mp hsuffix) (by decide)
    rw [if_neg hne, hsame]
    rfl

theorem get_exportHeaders (t : Exporter) (name : Bytes) : t.exportHeaders.get name =
    ((t.headers.entries.reverse.find? fun h =>
      Providers.toLower name = Providers.toLower h.1).map Prod.snd).or
        (if Providers.toLower name = ascii "content-type" then some (ascii "application/json")
          else none) := by
  rw [exportHeaders, OrderedMap.get_setAll,
    Providers.get_set_lower (ascii "content-type") (by decide)]
  simp only [Providers.compareNames_eq_iff, OrderedMap.get_empty]

/-- After any calls: where to is what the last call says by itself, from whom what was said last. An
endpoint ends with the path, the headers that are kept can be written in a configuration and are
read back from it, configuring a tracer with what it has changes nothing if no expression is left in
that, and a span is posted under the last of the headers of one name, in the order of their bytes. -/
theorem exporter_configured (calls : List TracerCall) (last : TracerCall) :
    ∃ t alone, (calls ++ [last]).foldlM call {} = some t ∧ call {} last = some alone ∧
      t.destination = alone.destination ∧
      t.resource = ((({} : Exporter).withService (lastService (calls ++ [last]))).withResources
        (lastResources (calls ++ [last]))).resource ∧
      t.Destined ∧
      (OrderedMap.empty : ExportHeaders).setAll (parseHeaders (renderHeaders t.headers.entries)) =
        t.headers ∧
      (¬Placeholder.opening <:+: t.endpoint →
        ¬Placeholder.opening <:+: renderHeaders t.headers.entries →
        ∀ env, t.configure env (some t.written) = some t) ∧
      ∀ name, t.exportHeaders.get name = ((t.headers.entries.reverse.find? fun h =>
        Providers.toLower name = Providers.toLower h.1).map Prod.snd).or
          (if Providers.toLower name = ascii "content-type" then some (ascii "application/json")
            else none) := by
  obtain ⟨t, hcalls, hresource⟩ := resource_calls (calls ++ [last])
  obtain ⟨before, hbefore, -⟩ := resource_calls calls
  obtain ⟨after, alone, hafter, halone, hdestination, -⟩ := call_cases before last
  have hlast : t = after := by
    rw [List.foldlM_append, hbefore] at hcalls
    have hcall : before.call last = some t := by simpa using hcalls
    rw [hafter] at hcall
    exact (Option.some.inj hcall).symm
  subst hlast
  have hdestined : t.Destined := by
    obtain ⟨hendpoint, hproper⟩ := destined_alone halone
    simp only [destination, Prod.mk.injEq] at hdestination
    obtain ⟨henabled, hsame, hheaders⟩ := hdestination
    constructor
    · rw [henabled, hsame]
      exact hendpoint
    · rw [hheaders]
      exact hproper
  exact ⟨t, alone, hcalls, halone, hdestination, hresource, hdestined, hdestined.readBack,
    fun hendpoint hheaders env => hdestined.configure_written env hendpoint hheaders,
    get_exportHeaders t⟩

/-- A variable may hold an expression, which is resolved when its value is configured. -/
example :
    let env := only (ascii "A") (ascii "h$\x7bB:-i\x7d")
    let first := call {} (.configure env (some ⟨none, none, some (ascii "$\x7bA\x7d"), none⟩))
    first.map (·.endpoint) = some (ascii "h$\x7bB:-i\x7d/v1/traces") ∧
      (first.bind fun t => (t.configure env (some t.written)).map (·.endpoint)) =
        some (ascii "hi/v1/traces") := by
  decide +kernel

end Exporter

end SuperVoice.Core
