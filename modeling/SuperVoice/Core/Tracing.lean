import SuperVoice.Lib.Bytes
import SuperVoice.Lib.WeakStack

/-! `Tracer` and `Span`: the spans of one thread and its stack of current ones. A span is exported
when it ends, and then taken from the stack. -/
namespace SuperVoice.Core.Tracing
open Bytes

def Utf8 (text : Bytes) : Prop := ByteArray.IsValidUTF8 ⟨text.toArray⟩

instance (text : Bytes) : Decidable (Utf8 text) :=
  inferInstanceAs (Decidable (ByteArray.IsValidUTF8 _))

/-- The bytes of a literal. -/
def literal (text : String) : Bytes := text.toUTF8.data.toList

/-- `nlohmann::json`; a `double` is given by its bits. -/
inductive Value where
  | string (text : Bytes)
  | integer (value : Int)
  | real (bits : UInt64)
  | boolean (value : Bool)
  | array (elements : List Value)
  | object (members : List (Bytes × Value))

mutual

/-- All strings in a value are UTF-8, its keys included. -/
def Value.valid : Value → Bool
  | .string text => Utf8 text
  | .integer _ | .real _ | .boolean _ => true
  | .array elements => validElements elements
  | .object members => validMembers members

def validElements : List Value → Bool
  | [] => true
  | element :: elements => element.valid && validElements elements

def validMembers : List (Bytes × Value) → Bool
  | [] => true
  | (key, value) :: members => Utf8 key && value.valid && validMembers members

end

/-- `dump` throws on a string that is not UTF-8. -/
structure Serializer where
  dump : Value → Option Bytes
  dump_isSome : ∀ value, (dump value).isSome = value.valid

inductive AttributeValue where
  | string (text : Bytes)
  | int64 (value : Int64)
  | double (bits : UInt64)
  | bool (value : Bool)

abbrev Attributes := List (Bytes × AttributeValue)

/-- `attributes[key] = value` -/
def setKey (key : Bytes) (value : AttributeValue) (attributes : Attributes) : Attributes :=
  attributes.filter (fun pair => pair.1 ≠ key) ++ [(key, value)]

structure SpanContext where
  traceId : Bytes := []
  spanId : Bytes := []
  traceFlags : Bytes := literal "01"

def SpanContext.valid (context : SpanContext) : Bool :=
  !context.traceId.isEmpty && !context.spanId.isEmpty

structure Event where
  name : Bytes
  time : UInt64
  attributes : Attributes

structure Span where
  name : Bytes
  context : SpanContext
  parent : SpanContext
  kind : Bytes
  attributes : Attributes
  events : List Event := []
  startTime : UInt64
  endTime : UInt64 := 0
  otelStatus : Int := 0
  statusMessage : Bytes := []
  ended : Bool := false
  /-- The last reference has been dropped. -/
  destroyed : Bool := false

/-- What `configure` sets. -/
structure TracerConfig where
  enabled : Bool
  serviceName : Bytes := literal "superapi"
  serviceNamespace : Bytes := []
  serviceVersion : Bytes := []
  environment : Bytes := []

/-- A thread with its spans, numbered in the order in which they start. -/
structure Tracer where
  spans : List Span := []
  spanStack : List Nat := []
  /-- The bodies that have been posted. -/
  posted : List Bytes := []
  /-- An exception has left a destructor. -/
  terminated : Bool := false

section Export

def field (key : String) (value : Value) : Bytes × Value := (literal key, value)

def attributeToJson : AttributeValue → Value
  | .string text => .object [field "stringValue" (.string text)]
  | .int64 value => .object [field "intValue" (.integer value.toInt)]
  | .double bits => .object [field "doubleValue" (.real bits)]
  | .bool value => .object [field "boolValue" (.boolean value)]

def attributesToJson (attributes : Attributes) : Value :=
  .array (attributes.map fun pair =>
    .object [field "key" (.string pair.1), field "value" (attributeToJson pair.2)])

def time (nanos : UInt64) : Value := .integer nanos.toNat

def eventToJson (event : Event) : Value :=
  .object ([field "name" (.string event.name), field "timeUnixNano" (time event.time)] ++
    if event.attributes.isEmpty then []
    else [field "attributes" (attributesToJson event.attributes)])

def statusToJson (span : Span) : Value :=
  .object ([field "code" (.integer span.otelStatus)] ++
    if span.statusMessage.isEmpty then [] else [field "message" (.string span.statusMessage)])

def spanJson (span : Span) : Value :=
  .object ([field "traceId" (.string span.context.traceId),
      field "spanId" (.string span.context.spanId)] ++
    (if span.parent.valid then [field "parentSpanId" (.string span.parent.spanId)] else []) ++
    [field "name" (.string span.name), field "kind" (.string span.kind),
      field "startTimeUnixNano" (time span.startTime),
      field "endTimeUnixNano" (time span.endTime)] ++
    (if span.statusMessage.isEmpty && span.otelStatus == 0 then []
      else [field "status" (statusToJson span)]) ++
    (if span.attributes.isEmpty then []
      else [field "attributes" (attributesToJson span.attributes)]) ++
    if span.events.isEmpty then []
    else [field "events" (.array (span.events.map eventToJson))])

def resourceAttributes (config : TracerConfig) : Attributes :=
  [(literal "service.name", config.serviceName),
    (literal "service.namespace", config.serviceNamespace),
    (literal "service.version", config.serviceVersion),
    (literal "deployment.environment", config.environment)].filterMap fun pair =>
      if pair.2.isEmpty then none else some (pair.1, .string pair.2)

def payload (config : TracerConfig) (span : Span) : Value :=
  .object [field "resourceSpans" (.array [
    .object [
      field "resource" (.object [
        field "attributes" (attributesToJson (resourceAttributes config))]),
      field "scopeSpans" (.array [
        .object [
          field "scope" (.object [field "name" (.string (literal "superapi.manual"))]),
          field "spans" (.array [spanJson span])]])]])]

end Export

def hexChar (digit : UInt8) : UInt8 := (literal "0123456789abcdef").getD digit.toNat 0

def generateId (bytes : Nat) (random : Nat → UInt8) : Bytes :=
  let buffer := (List.range bytes).map random
  let buffer := if buffer.all (· == 0) then buffer.set (bytes - 1) 1 else buffer
  buffer.flatMap fun byte => [hexChar (byte / 16), hexChar (byte % 16)]

/-- The arguments of `startSpan`, with the random bytes and the time that it reads. -/
structure Start where
  name : Bytes
  parent : SpanContext
  attributes : Attributes
  kind : Bytes := literal "INTERNAL"
  traceRandom : Nat → UInt8
  spanRandom : Nat → UInt8
  now : UInt64

def makeContext (start : Start) : SpanContext where
  traceId := generateId 16 start.traceRandom
  spanId := generateId 8 start.spanRandom
  traceFlags := literal "01"

/-- The fields that `end` sets. -/
def Span.close (span : Span) (statusCode : Int32) (message : Bytes) (now : UInt64) : Span :=
  { span with
    ended := true
    otelStatus := if 400 ≤ statusCode then 2 else if 0 < statusCode then 1 else 0
    statusMessage := message
    attributes :=
      if 0 < statusCode then
        setKey (literal "http.status_code") (.int64 statusCode.toInt64) span.attributes
      else span.attributes
    endTime := now }

namespace Tracer
variable (config : TracerConfig) (serializer : Serializer)

/-- A weak reference to the span can be locked. -/
def alive (s : Tracer) (i : Nat) : Bool := s.spans[i]?.any fun span => !span.destroyed

/-- The span is neither ended nor destroyed. -/
def live (s : Tracer) (i : Nat) : Bool :=
  s.spans[i]?.any fun span => !span.destroyed && !span.ended

/-- What `currentSpan` returns, -/
def currentSpan (s : Tracer) : Option Nat := WeakStack.current s.alive s.spanStack

/-- and what it does to the stack. -/
def pruned (s : Tracer) : Tracer := { s with spanStack := WeakStack.prune s.alive s.spanStack }

def releaseSpan (s : Tracer) (i : Nat) : Tracer :=
  { s with spanStack := WeakStack.release s.alive i s.spanStack }

def setSpan (s : Tracer) (i : Nat) (span : Span) : Tracer :=
  { s with spans := s.spans.set i span }

def resolvedParent (s : Tracer) (start : Start) : SpanContext :=
  if start.parent.valid then start.parent
  else ((s.currentSpan.bind fun i => s.spans[i]?).map Span.context).getD start.parent

def newSpan (s : Tracer) (start : Start) : Span where
  name := start.name
  context :=
    if (s.resolvedParent start).valid then
      { traceId := (s.resolvedParent start).traceId
        spanId := generateId 8 start.spanRandom
        traceFlags := (s.resolvedParent start).traceFlags }
    else makeContext start
  parent := s.resolvedParent start
  kind := start.kind
  attributes := start.attributes
  startTime := start.now

def startSpan (s : Tracer) (start : Start) : Tracer :=
  let pruned := if start.parent.valid then s else s.pruned
  { pruned with
    spans := s.spans ++ [s.newSpan start]
    spanStack := pruned.spanStack ++ [s.spans.length] }

/-- `none` where it throws. -/
def exportSpan (s : Tracer) (span : Span) : Option Tracer :=
  if config.enabled then
    (serializer.dump (payload config span)).map fun body => { s with posted := s.posted ++ [body] }
  else some s

/-- What `end` does with the fields that it has set: it returns, or it throws. -/
def exportAndRelease (s : Tracer) (i : Nat) (span : Span) : Except Tracer Tracer :=
  match (s.setSpan i span).exportSpan config serializer span with
  | some s => .ok (s.releaseSpan i)
  | none => .error (s.setSpan i span)

/-- A span that is still referred to. -/
def referenced (s : Tracer) (i : Nat) : Option Span := s.spans[i]?.filter fun span => !span.destroyed

def updateSpan (s : Tracer) (i : Nat) (span : Span) (f : Span → Span) : Tracer :=
  if span.ended then s else s.setSpan i (f span)

def endSpan (s : Tracer) (i : Nat) (span : Span) (statusCode : Int32) (message : Bytes)
    (now : UInt64) : Tracer :=
  if span.ended then s
  else
    match s.exportAndRelease config serializer i (span.close statusCode message now) with
    | .ok s | .error s => s

/-- `~Span` -/
def destroy (s : Tracer) (i : Nat) (span : Span) (now : UInt64) : Tracer :=
  let span := { span with destroyed := true }
  if span.ended then s.setSpan i span
  else
    match s.exportAndRelease config serializer i (span.close 0 [] now) with
    | .ok s => s
    | .error s => { s with terminated := true }

end Tracer

inductive TracerAction where
  | startSpan (start : Start)
  | currentSpan
  | setAttribute (span : Nat) (key : Bytes) (value : AttributeValue)
  | addEvent (span : Nat) (event : Event)
  | endSpan (span : Nat) (statusCode : Int32) (message : Bytes) (now : UInt64)
  /-- The last reference to the span is dropped. -/
  | drop (span : Nat) (now : UInt64)

namespace Tracer
variable (config : TracerConfig) (serializer : Serializer)

def step (s : Tracer) (a : TracerAction) : Option Tracer :=
  if s.terminated then none
  else
    match a with
    | .startSpan start => some (s.startSpan start)
    | .currentSpan => some s.pruned
    | .setAttribute i key value =>
      (s.referenced i).map fun span => s.updateSpan i span fun span =>
        { span with attributes := setKey key value span.attributes }
    | .addEvent i event =>
      (s.referenced i).map fun span => s.updateSpan i span fun span =>
        { span with events := span.events ++ [event] }
    | .endSpan i statusCode message now =>
      (s.referenced i).map fun span => s.endSpan config serializer i span statusCode message now
    | .drop i now => (s.referenced i).map fun span => s.destroy config serializer i span now

end Tracer

/-- What the strings of a payload are taken from. -/
def TracerConfig.texts (config : TracerConfig) : List Bytes :=
  [config.serviceName, config.serviceNamespace, config.serviceVersion, config.environment]

def attributeTexts (attributes : Attributes) : List Bytes :=
  attributes.flatMap fun pair =>
    match pair.2 with
    | .string text => [pair.1, text]
    | _ => [pair.1]

def Span.texts (span : Span) : List Bytes :=
  [span.context.traceId, span.context.spanId] ++
    (if span.parent.valid then [span.parent.spanId] else []) ++
    [span.name, span.kind, span.statusMessage] ++ attributeTexts span.attributes ++
    span.events.flatMap fun event => event.name :: attributeTexts event.attributes

/-- All strings of a span and of the configuration are UTF-8. -/
def Span.Printable (config : TracerConfig) (span : Span) : Prop :=
  ∀ text ∈ config.texts ++ span.texts, Utf8 text

section Payload
variable {config : TracerConfig} {span : Span}

theorem utf8_literal (text : String) : Utf8 (literal text) := by
  have htext : (⟨(literal text).toArray⟩ : ByteArray) = text.toUTF8 := by
    rw [literal, Array.toArray_toList]
  rw [Utf8, htext]
  exact text.isValidUTF8

theorem utf8_nil : Utf8 [] := utf8_literal ""

@[simp] theorem valid_string (text : Bytes) : (Value.string text).valid = true ↔ Utf8 text := by
  rw [Value.valid, decide_eq_true_iff]

@[simp] theorem valid_array (elements : List Value) :
    (Value.array elements).valid = true ↔ ∀ element ∈ elements, element.valid = true := by
  rw [Value.valid]
  induction elements with
  | nil => simp [validElements]
  | cons element elements ih => simp [validElements, ih]

@[simp] theorem valid_object (members : List (Bytes × Value)) :
    (Value.object members).valid = true ↔
      ∀ member ∈ members, Utf8 member.1 ∧ member.2.valid = true := by
  rw [Value.valid]
  induction members with
  | nil => simp [validMembers]
  | cons member members ih => simp [validMembers, ih, and_assoc]

@[simp] theorem valid_field (key : String) (value : Value) :
    (Utf8 (field key value).1 ∧ (field key value).2.valid = true) ↔ value.valid = true := by
  rw [field]
  exact and_iff_right (utf8_literal key)

@[simp] theorem valid_integer (value : Int) : (Value.integer value).valid = true := rfl

@[simp] theorem valid_real (bits : UInt64) : (Value.real bits).valid = true := rfl

@[simp] theorem valid_boolean (value : Bool) : (Value.boolean value).valid = true := rfl

@[simp] theorem valid_time (nanos : UInt64) : (time nanos).valid = true := rfl

theorem valid_attributeToJson (value : AttributeValue) (key : Bytes) :
    (Utf8 key ∧ (attributeToJson value).valid = true) ↔
      ∀ text ∈ attributeTexts [(key, value)], Utf8 text := by
  cases value with
  | string text => simp [attributeToJson, attributeTexts]
  | _ => simp [attributeToJson, attributeTexts]

@[simp] theorem valid_attributes (attributes : Attributes) :
    (attributesToJson attributes).valid = true ↔ ∀ text ∈ attributeTexts attributes, Utf8 text := by
  induction attributes with
  | nil => simp [attributesToJson, attributeTexts]
  | cons pair attributes ih =>
    obtain ⟨key, value⟩ := pair
    have hsplit : attributeTexts ((key, value) :: attributes) =
        attributeTexts [(key, value)] ++ attributeTexts attributes := by
      simp [attributeTexts]
    rw [hsplit, List.forall_mem_append, ← ih, ← valid_attributeToJson]
    simp [attributesToJson]

/-- A field that is left out if there is nothing to say. -/
theorem valid_unless {absent : Bool} {key : String} {value : Value}
    (h : absent = true → value.valid = true) :
    (∀ member ∈ if absent = true then [] else [field key value],
      Utf8 member.1 ∧ member.2.valid = true) ↔ value.valid = true := by
  cases habsent : absent with
  | true => simp [h habsent]
  | false => simp

theorem valid_attributes_of_isEmpty {attributes : Attributes} (h : attributes.isEmpty = true) :
    (attributesToJson attributes).valid = true := by
  rw [List.isEmpty_iff.mp h]
  rfl

@[simp] theorem valid_event (event : Event) : (eventToJson event).valid = true ↔
    ∀ text ∈ event.name :: attributeTexts event.attributes, Utf8 text := by
  rw [eventToJson, valid_object, List.forall_mem_append,
    valid_unless valid_attributes_of_isEmpty]
  simp

theorem utf8_of_isEmpty {text : Bytes} (h : text.isEmpty = true) : Utf8 text :=
  List.isEmpty_iff.mp h ▸ utf8_nil

@[simp] theorem valid_status (span : Span) :
    (statusToJson span).valid = true ↔ Utf8 span.statusMessage := by
  rw [statusToJson, valid_object, List.forall_mem_append,
    valid_unless fun h => (valid_string _).mpr (utf8_of_isEmpty h)]
  simp

theorem valid_spanJson (span : Span) :
    (spanJson span).valid = true ↔ ∀ text ∈ span.texts, Utf8 text := by
  have hstatus : (span.statusMessage.isEmpty && span.otelStatus == 0) = true →
      (statusToJson span).valid = true := by
    intro h
    rw [Bool.and_eq_true] at h
    exact (valid_status span).mpr (utf8_of_isEmpty h.1)
  have hevents : span.events.isEmpty = true →
      (Value.array (span.events.map eventToJson)).valid = true := by
    intro h
    rw [List.isEmpty_iff.mp h]
    rfl
  simp only [spanJson, valid_object, List.forall_mem_append, valid_unless hstatus,
    valid_unless hevents, valid_unless valid_attributes_of_isEmpty, Span.texts,
    List.forall_mem_flatMap, List.forall_mem_cons, valid_field, valid_string, valid_time,
    valid_array, List.forall_mem_map, valid_event, valid_status, valid_attributes]
  cases span.parent.valid with
  | true => simp [and_assoc]
  | false => simp [and_assoc]

theorem valid_resource (config : TracerConfig) :
    (attributesToJson (resourceAttributes config)).valid = true ↔
      ∀ text ∈ config.texts, Utf8 text := by
  have hresource : ∀ key text : Bytes, Utf8 key → ∀ pairs : List (Bytes × Bytes),
      (∀ text' ∈ attributeTexts (((key, text) :: pairs).filterMap fun pair =>
        if pair.2.isEmpty then none else some (pair.1, .string pair.2)), Utf8 text') ↔
      Utf8 text ∧ ∀ text' ∈ attributeTexts (pairs.filterMap fun pair =>
        if pair.2.isEmpty then none else some (pair.1, .string pair.2)), Utf8 text' := by
    intro key text hkey pairs
    cases text with
    | nil => simp [utf8_nil]
    | cons byte text => simp [hkey, attributeTexts]
  rw [valid_attributes, resourceAttributes, TracerConfig.texts, hresource _ _ (utf8_literal _),
    hresource _ _ (utf8_literal _), hresource _ _ (utf8_literal _), hresource _ _ (utf8_literal _)]
  simp [attributeTexts]

theorem valid_payload : (payload config span).valid = true ↔ span.Printable config := by
  rw [Span.Printable, List.forall_mem_append, ← valid_resource, ← valid_spanJson, payload]
  simp [utf8_literal]

end Payload

end SuperVoice.Core.Tracing
