import SuperVoice.Core.Redaction
import SuperVoice.Core.Tracing

/-! The context of the lines of the log, and what `RequestIdMiddleware` makes of a request. -/
namespace SuperVoice.Core
open Bytes Numeral Regex Tracing

structure LogContext where
  requestId : Bytes := []
  company : Bytes := []
  endpoint : Bytes := []
  status : Nat := 0
  /-- The bits of a `double`. -/
  latencyMs : UInt64 := 0
  hasRequest : Bool := false
  deriving DecidableEq

/-- `value > 0.0`: above the bits of infinity there are only negative values and no numbers. -/
def positive (bits : UInt64) : Bool := 0 < bits && bits ≤ 0x7FF0000000000000

def setLogContext (context : LogContext) : LogContext := { context with hasRequest := true }

/-- The first text, unless it is empty. -/
def unlessEmpty (text default : Bytes) : Bytes := if text = [] then default else text

def updateLogContext (threadLogContext context : LogContext) : LogContext :=
  let requestId := unlessEmpty context.requestId threadLogContext.requestId
  { requestId
    company := unlessEmpty context.company threadLogContext.company
    endpoint := unlessEmpty context.endpoint threadLogContext.endpoint
    status := if context.status = 0 then threadLogContext.status else context.status
    latencyMs := if positive context.latencyMs then context.latencyMs
      else threadLogContext.latencyMs
    hasRequest := threadLogContext.hasRequest || context.hasRequest || !requestId.isEmpty }

/-- What the output function of the logger dumps; a field that is missing is null. -/
structure LogPayload extends LogLine where
  requestId : Option Bytes
  company : Option Bytes
  endpoint : Option Bytes
  status : Option Nat
  latencyMs : Option UInt64

def orNull (text : Bytes) : Option Bytes := if text = [] then none else some text

def logPayload (rules : List (Matcher UInt8)) (context : LogContext) (message : Bytes) :
    LogPayload :=
  { logLine rules message with
    requestId := orNull context.requestId
    company := orNull context.company
    endpoint := orNull context.endpoint
    status := if context.status = 0 then none else some context.status
    latencyMs := if positive context.latencyMs then some context.latencyMs else none }

def LogPayload.texts (payload : LogPayload) : List Bytes :=
  [payload.level, payload.msg] ++ (payload.requestId.toList ++
    (payload.company.toList ++ payload.endpoint.toList))

/-- `dump` throws on a text that is not UTF-8. -/
def LogPayload.Dumps (payload : LogPayload) : Prop := ∀ text ∈ payload.texts, Utf8 text

instance (payload : LogPayload) : Decidable payload.Dumps :=
  inferInstanceAs (Decidable (∀ text ∈ payload.texts, Utf8 text))

/-- A request as it comes in; what is absent is empty. -/
structure IncomingRequest where
  header : Bytes → Bytes
  parameter : Bytes → Bytes
  path : Bytes

def sanitizeLabel (value : Bytes) : Bytes :=
  let sanitized := value.filterMap fun ch =>
    if isAlpha ch || isDigit ch || (ascii "_-.").contains ch then some (lower ch)
    else if isSpace ch then some 95
    else none
  if sanitized = [] then ascii "unknown" else sanitized

def resolveCompany (req : IncomingRequest) : Bytes :=
  let values := [ascii "X-Company", ascii "X-Company-Id", ascii "X-Tenant"].map req.header
  match values.find? fun value => !value.isEmpty with
  | some value => sanitizeLabel value
  | none =>
    let company := req.parameter (ascii "company")
    if company = [] then ascii "unknown" else sanitizeLabel company

def resolveEndpoint (req : IncomingRequest) : Bytes := unlessEmpty req.path (ascii "unknown")

/-- What the filter makes of a request. -/
def filterContext (req : IncomingRequest) (random : Bytes) : LogContext :=
  { requestId := unlessEmpty (req.header (ascii "X-Request-ID")) random
    company := resolveCompany req
    endpoint := resolveEndpoint req
    hasRequest := true }

section Labels
variable {text : Bytes} {b : UInt8}

theorem toUInt8_ofNat :
    ∀ n < 128, (Char.ofNat n).toUInt8.toNat = n ∧ (Char.ofNat n).utf8Size = 1 := by
  decide

theorem utf8_concat (htext : Utf8 text) (hb : b < 128) : Utf8 (text ++ [b]) := by
  obtain ⟨hbyte, hsize⟩ := toUInt8_ofNat b.toNat hb
  have hpush := ByteArray.IsValidUTF8.push htext hsize
  rw [UInt8.toNat_inj.mp hbyte] at hpush
  rwa [Utf8, ← List.push_toArray]

theorem utf8_of_ascii (h : ∀ b ∈ text, b < 128) : Utf8 text := by
  induction text using List.reverseRecOn with
  | nil => exact utf8_nil
  | append_singleton text b ih =>
    obtain ⟨htext, hb⟩ := List.forall_mem_append.mp h
    exact utf8_concat (ih htext) (hb b List.mem_cons_self)

theorem lt_of_isAlpha (h : isAlpha b = true) : b < 128 := by
  grind [isAlpha]

theorem lt_of_isDigit (h : isDigit b = true) : b < 128 := by
  grind [isDigit]

theorem lower_lt (hb : b < 128) : lower b < 128 := by
  grind [lower]

theorem lt_of_all (h : text.all (fun b => b < 128) = true) : ∀ b ∈ text, b < 128 :=
  fun b hb => of_decide_eq_true (List.all_eq_true.mp h b hb)

theorem lt_of_contains (h : (ascii "_-.").contains b = true) : b < 128 :=
  lt_of_all (by decide) b (List.contains_iff_mem.mp h)

theorem utf8_unknown : Utf8 (ascii "unknown") := utf8_of_ascii (lt_of_all (by decide))

theorem utf8_sanitizeLabel (value : Bytes) : Utf8 (sanitizeLabel value) := by
  rw [sanitizeLabel]
  split
  · exact utf8_unknown
  · refine utf8_of_ascii fun b hb => ?_
    obtain ⟨ch, -, hch⟩ := List.mem_filterMap.mp hb
    split at hch
    · next hkept =>
      cases hch
      simp only [Bool.or_eq_true] at hkept
      obtain (halpha | hdigit) | hmark := hkept
      · exact lower_lt (lt_of_isAlpha halpha)
      · exact lower_lt (lt_of_isDigit hdigit)
      · exact lower_lt (lt_of_contains hmark)
    · split at hch
      · cases hch
        decide
      · cases hch

theorem sanitizeLabel_ne_nil (value : Bytes) : sanitizeLabel value ≠ [] := by
  rw [sanitizeLabel]
  split
  · decide
  · assumption

variable {req : IncomingRequest}

theorem resolveCompany_label (req : IncomingRequest) :
    resolveCompany req = ascii "unknown" ∨ ∃ value, resolveCompany req = sanitizeLabel value := by
  rw [resolveCompany]
  split
  · exact .inr ⟨_, rfl⟩
  · by_cases hcompany : req.parameter (ascii "company") = []
    · exact .inl (if_pos hcompany)
    · exact .inr ⟨_, if_neg hcompany⟩

theorem utf8_resolveCompany (req : IncomingRequest) : Utf8 (resolveCompany req) := by
  obtain h | ⟨value, h⟩ := resolveCompany_label req
  · rw [h]
    exact utf8_unknown
  · rw [h]
    exact utf8_sanitizeLabel value

theorem resolveCompany_ne_nil (req : IncomingRequest) : resolveCompany req ≠ [] := by
  obtain h | ⟨value, h⟩ := resolveCompany_label req
  · rw [h]
    decide
  · rw [h]
    exact sanitizeLabel_ne_nil value

@[simp] theorem unlessEmpty_nil (default : Bytes) : unlessEmpty [] default = default := rfl

theorem unlessEmpty_of_ne {default : Bytes} (h : text ≠ []) : unlessEmpty text default = text :=
  if_neg h

theorem unlessEmpty_ne_nil {default : Bytes} (h : default ≠ []) : unlessEmpty text default ≠ [] := by
  rw [unlessEmpty]
  split
  · exact h
  · assumption

theorem unlessEmpty_self_left (text default : Bytes) :
    unlessEmpty (unlessEmpty text default) default = unlessEmpty text default := by
  by_cases h : text = []
  · rw [h, unlessEmpty_nil]
    exact ite_self _
  · rw [unlessEmpty_of_ne h, unlessEmpty_of_ne h]

theorem utf8_unlessEmpty {default : Bytes} (htext : Utf8 text) (hdefault : Utf8 default) :
    Utf8 (unlessEmpty text default) := by
  rw [unlessEmpty]
  split
  · exact hdefault
  · exact htext

theorem resolveEndpoint_ne_nil (req : IncomingRequest) : resolveEndpoint req ≠ [] :=
  unlessEmpty_ne_nil (by decide)

end Labels

/-- The lines of the log can be dumped whatever message is written in this context. -/
structure LogContext.Printable (context : LogContext) : Prop where
  requestId : Utf8 context.requestId
  company : Utf8 context.company
  endpoint : Utf8 context.endpoint

theorem printable_empty : LogContext.Printable {} := ⟨utf8_nil, utf8_nil, utf8_nil⟩

theorem dumps_logPayload {rules : List (Matcher UInt8)} {context : LogContext} {message : Bytes}
    (hcontext : context.Printable)
    (hline : Utf8 (logLine rules message).level ∧ Utf8 (logLine rules message).msg) :
    (logPayload rules context message).Dumps := by
  have hnull : ∀ text, Utf8 text → ∀ t ∈ (orNull text).toList, Utf8 t := by
    intro text htext t ht
    rw [Option.mem_toList, orNull] at ht
    split at ht
    · cases ht
    · cases ht
      exact htext
  refine List.forall_mem_append.mpr ⟨?_, List.forall_mem_append.mpr ⟨hnull _ hcontext.requestId,
    List.forall_mem_append.mpr ⟨hnull _ hcontext.company, hnull _ hcontext.endpoint⟩⟩⟩
  exact List.forall_mem_cons.mpr ⟨hline.1, List.forall_mem_singleton.mpr hline.2⟩

/-- The header of its identifier or its path is not UTF-8. -/
def IncomingRequest.Unprintable (req : IncomingRequest) : Prop :=
  ¬Utf8 (req.header (ascii "X-Request-ID")) ∨ ¬Utf8 req.path

theorem printable_filterContext {req : IncomingRequest} {random : Bytes} (hrandom : Utf8 random)
    (hreq : ¬req.Unprintable) : (filterContext req random).Printable := by
  obtain ⟨hid, hpath⟩ := not_or.mp hreq
  exact ⟨utf8_unlessEmpty (not_not.mp hid) hrandom, utf8_resolveCompany req,
    utf8_unlessEmpty (not_not.mp hpath) utf8_unknown⟩

end SuperVoice.Core
