import SuperVoice.Lib.Search
import SuperVoice.Core.CurrentSpan

/-! The `traceparent` header: what the tracer reads of it and what it writes. -/
namespace SuperVoice.Core.Tracing
open Bytes Search Transition

def dash : UInt8 := 45

/-- So many fields at most; what stands behind the dash after the last one is dropped. -/
def splitParts : Nat → Bytes → List Bytes
  | 0, _ => []
  | index + 1, rest =>
    match cut [dash] rest with
    | none => [rest]
    | some (part, rest) => part :: splitParts index rest

def extractTraceparent (traceparent : Bytes) : SpanContext :=
  if traceparent.isEmpty then {}
  else
    match splitParts 4 traceparent with
    | [version, traceId, spanId, traceFlags] =>
      if version ≠ literal "00" then {}
      else if traceId.length = 32 ∧ spanId.length = 16 then { traceId, spanId, traceFlags } else {}
    | _ => {}

def buildTraceparent (context : SpanContext) : Bytes :=
  if context.valid then
    literal "00-" ++ context.traceId ++ [dash] ++ context.spanId ++ [dash] ++ context.traceFlags
  else []

def LowerHex (b : UInt8) : Prop := IsDigit b ∨ 97 ≤ b ∧ b ≤ 102

def Hex (b : UInt8) : Prop := LowerHex b ∨ 65 ≤ b ∧ b ≤ 70

/-- So many lower-case hexadecimal digits, not all zero. -/
structure IsId (length : Nat) (id : Bytes) : Prop where
  length : id.length = length
  digits : ∀ b ∈ id, LowerHex b
  nonzero : ∃ b ∈ id, b ≠ 48

namespace SpanContext

/-- The four fields of a context. -/
def fields (context : SpanContext) : Bytes :=
  literal "00-" ++ context.traceId ++ [dash] ++ context.spanId ++ [dash] ++ context.traceFlags

structure Standard (context : SpanContext) : Prop where
  traceId : IsId 32 context.traceId
  spanId : IsId 16 context.spanId
  flags_length : context.traceFlags.length = 2
  flags : ∀ b ∈ context.traceFlags, Hex b

/-- Two ids of the right lengths, whatever they are made of and whatever the flags are. -/
structure Framed (context : SpanContext) : Prop where
  traceId : context.traceId.length = 32 ∧ dash ∉ context.traceId
  spanId : context.spanId.length = 16 ∧ dash ∉ context.spanId

end SpanContext

/-- A version 00 header of the standard. -/
def WellFormed (s : Bytes) : Prop := ∃ context : SpanContext, context.Standard ∧ s = context.fields

/-- A header whose first fields are the version, 32 and 16 bytes has them, and only the flags after
them, as the standard has them. -/
def Regular (s : Bytes) : Prop :=
  ∀ context : SpanContext, context.Framed → s = context.fields → context.Standard

namespace SpanContext
variable {context other : SpanContext}

theorem dash_notMem_of_lowerHex {s : Bytes} (h : ∀ b ∈ s, LowerHex b) : dash ∉ s := by
  intro hmem
  exact absurd (h dash hmem) (by unfold LowerHex; decide)

theorem Standard.framed (h : context.Standard) : context.Framed where
  traceId := ⟨h.traceId.length, dash_notMem_of_lowerHex h.traceId.digits⟩
  spanId := ⟨h.spanId.length, dash_notMem_of_lowerHex h.spanId.digits⟩

theorem Standard.dash_notMem (h : context.Standard) : dash ∉ context.traceFlags := by
  intro hmem
  exact absurd (h.flags dash hmem) (by unfold Hex LowerHex; decide)

theorem Framed.valid (h : context.Framed) : context.valid = true := by
  have htrace := h.traceId.1
  have hspan := h.spanId.1
  rw [SpanContext.valid, Bool.and_eq_true, Bool.not_eq_true', Bool.not_eq_true',
    List.isEmpty_eq_false_iff, List.isEmpty_eq_false_iff]
  constructor
  · intro hnil
    rw [hnil] at htrace
    cases htrace
  · intro hnil
    rw [hnil] at hspan
    cases hspan

theorem Framed.build (h : context.Framed) : buildTraceparent context = context.fields :=
  if_pos h.valid

theorem fields_eq (context : SpanContext) : context.fields = literal "00" ++ [dash] ++
    (context.traceId ++ [dash] ++ (context.spanId ++ [dash] ++ context.traceFlags)) := by
  have hversion : literal "00-" = literal "00" ++ [dash] := by decide +kernel
  simp only [fields, hversion, List.append_assoc]

theorem Framed.fields_inj (h : context.Framed) (ho : other.Framed)
    (heq : context.fields = other.fields) : context = other := by
  simp only [fields, List.append_assoc] at heq
  obtain ⟨htrace, hrest⟩ := List.append_inj (List.append_cancel_left heq)
    (h.traceId.1.trans ho.traceId.1.symm)
  obtain ⟨hspan, hrest⟩ := List.append_inj (List.append_cancel_left hrest)
    (h.spanId.1.trans ho.spanId.1.symm)
  have hflags := List.append_cancel_left hrest
  cases context
  cases other
  cases htrace
  cases hspan
  cases hflags
  rfl

end SpanContext

theorem ne_dash_of_notMem {s : Bytes} (h : dash ∉ s) : ∀ b ∈ s, decide (b ≠ dash) = true := by
  intro b hb
  apply decide_eq_true
  rintro rfl
  exact h hb

theorem takeWhile_of_notMem {s : Bytes} (h : dash ∉ s) : s.takeWhile (· ≠ dash) = s :=
  List.takeWhile_eq_self_iff.mpr (ne_dash_of_notMem h)

theorem splitParts_one (s : Bytes) : splitParts 1 s = [s.takeWhile (· ≠ dash)] := by
  rw [splitParts]
  cases hcut : cut [dash] s with
  | none =>
    have hall := cut_singleton_none_iff.mp hcut
    rw [takeWhile_of_notMem hall]
  | some parts =>
    obtain ⟨part, rest⟩ := parts
    obtain ⟨rfl, hpart⟩ := cut_singleton_iff.mp hcut
    rw [List.append_assoc, List.takeWhile_append_of_pos (ne_dash_of_notMem hpart)]
    simp [splitParts]

theorem splitParts_append {part rest : Bytes} (h : dash ∉ part) (index : Nat) :
    splitParts (index + 1) (part ++ [dash] ++ rest) = part :: splitParts index rest := by
  rw [splitParts, cut_singleton_iff.mpr ⟨rfl, h⟩]

/-- The flags are read up to the next dash. -/
theorem extract_fields {context : SpanContext} (h : context.Framed) :
    extractTraceparent context.fields =
      { context with traceFlags := context.traceFlags.takeWhile (· ≠ dash) } := by
  have hversion : dash ∉ literal "00" := by decide +kernel
  have hnonempty : ¬ context.fields.isEmpty = true := by simp [SpanContext.fields]
  rw [extractTraceparent, if_neg hnonempty, SpanContext.fields_eq, splitParts_append hversion,
    splitParts_append h.traceId.2, splitParts_append h.spanId.2, splitParts_one]
  dsimp only
  rw [if_neg (not_not_intro rfl), if_pos ⟨h.traceId.1, h.spanId.1⟩]

/-- Fields are told apart by their first dashes. -/
theorem append_of_splitParts {s part : Bytes} {parts : List Bytes} {index : Nat}
    (h : splitParts (index + 1) s = part :: parts) (hne : parts ≠ []) :
    ∃ rest, s = part ++ [dash] ++ rest ∧ dash ∉ part ∧ splitParts index rest = parts := by
  rw [splitParts] at h
  split at h
  case h_1 =>
    cases h
    exact absurd rfl hne
  case h_2 before rest hcut =>
    cases h
    obtain ⟨rfl, hpart⟩ := cut_singleton_iff.mp hcut
    exact ⟨rest, rfl, hpart, rfl⟩

theorem exists_of_extract {s : Bytes} (h : (extractTraceparent s).valid = true) :
    ∃ context : SpanContext, context.Framed ∧ s = context.fields := by
  unfold extractTraceparent at h
  split at h
  · cases h
  · split at h
    case h_1 version traceId spanId traceFlags hparts =>
      split at h
      · cases h
      · next hversion =>
        split at h
        case isTrue hlengths =>
          obtain ⟨rest, rfl, -, hparts⟩ := append_of_splitParts hparts (by simp)
          obtain ⟨rest, rfl, htrace, hparts⟩ := append_of_splitParts hparts (by simp)
          obtain ⟨rest, rfl, hspan, -⟩ := append_of_splitParts hparts (by simp)
          refine ⟨⟨traceId, spanId, rest⟩, ⟨⟨hlengths.1, htrace⟩, ⟨hlengths.2, hspan⟩⟩, ?_⟩
          rw [not_not.mp hversion, SpanContext.fields_eq]
        case isFalse => cases h
    case h_2 => cases h

theorem extract_valid_iff {s : Bytes} : (extractTraceparent s).valid = true ↔
    ∃ context : SpanContext, context.Framed ∧ s = context.fields := by
  constructor
  · exact exists_of_extract
  · rintro ⟨context, hframed, rfl⟩
    rw [extract_fields hframed]
    exact hframed.valid

theorem extract_of_dash_notMem {context : SpanContext} (h : context.Framed)
    (hflags : dash ∉ context.traceFlags) : extractTraceparent context.fields = context := by
  rw [extract_fields h, takeWhile_of_notMem hflags]

theorem build_extract {s : Bytes} (h : WellFormed s) :
    buildTraceparent (extractTraceparent s) = s := by
  obtain ⟨context, hstandard, rfl⟩ := h
  rw [extract_of_dash_notMem hstandard.framed hstandard.dash_notMem, hstandard.framed.build]

/-- Exactly the regular headers are accepted if and only if they are well formed. -/
theorem accepted_iff_wellFormed_iff (s : Bytes) :
    ((extractTraceparent s).valid = true ↔ WellFormed s) ↔ Regular s := by
  rw [extract_valid_iff]
  constructor
  · intro h context hframed hs
    obtain ⟨other, hstandard, hother⟩ := h.mp ⟨context, hframed, hs⟩
    rw [hframed.fields_inj hstandard.framed (hs.symm.trans hother)]
    exact hstandard
  · intro h
    constructor
    · rintro ⟨context, hframed, hs⟩
      exact ⟨context, h context hframed hs, hs⟩
    · rintro ⟨context, hstandard, hs⟩
      exact ⟨context, hstandard.framed, hs⟩

/-- What the tracer needs of a context to read it back. -/
structure SpanContext.Plain (context : SpanContext) : Prop where
  framed : context.Framed
  flags : dash ∉ context.traceFlags

theorem SpanContext.Plain.extract_build {context : SpanContext} (h : context.Plain) :
    extractTraceparent (buildTraceparent context) = context := by
  rw [h.framed.build, extract_of_dash_notMem h.framed h.flags]

theorem plain_extract {s : Bytes} (h : (extractTraceparent s).valid = true) :
    (extractTraceparent s).Plain := by
  obtain ⟨context, hframed, rfl⟩ := exists_of_extract h
  rw [extract_fields hframed]
  refine ⟨⟨hframed.traceId, hframed.spanId⟩, fun hmem => ?_⟩
  have hne := List.mem_takeWhile_imp hmem
  exact absurd rfl (of_decide_eq_true hne)

section Generated

theorem hexChar_ne_dash (digit : UInt8) : hexChar digit ≠ dash := by
  have hmem : hexChar digit ∈ literal "0123456789abcdef" ++ [0] := by
    rw [hexChar, List.getD_eq_getElem?_getD]
    cases h : (literal "0123456789abcdef")[digit.toNat]? with
    | none => simp
    | some b => exact List.mem_append_left _ (List.mem_of_getElem? h)
  have hall : dash ∉ literal "0123456789abcdef" ++ [0] := by decide +kernel
  intro heq
  exact hall (heq ▸ hmem)

theorem length_generateId (bytes : Nat) (random : Nat → UInt8) :
    (generateId bytes random).length = 2 * bytes := by
  have hpairs : ∀ buffer : List UInt8, (buffer.flatMap fun byte =>
      [hexChar (byte / 16), hexChar (byte % 16)]).length = 2 * buffer.length := by
    intro buffer
    induction buffer with
    | nil => rfl
    | cons byte buffer ih =>
      rw [List.flatMap_cons, List.length_append, ih, List.length_cons]
      simp only [List.length_cons, List.length_nil]
      omega
  rw [generateId, hpairs]
  split <;> simp

theorem dash_notMem_generateId (bytes : Nat) (random : Nat → UInt8) :
    dash ∉ generateId bytes random := by
  intro hmem
  obtain ⟨byte, -, hbyte⟩ := List.mem_flatMap.mp hmem
  simp only [List.mem_cons, List.not_mem_nil, or_false] at hbyte
  obtain h | h := hbyte
  · exact hexChar_ne_dash _ h.symm
  · exact hexChar_ne_dash _ h.symm

theorem framed_generateId (traceRandom spanRandom : Nat → UInt8) (traceFlags : Bytes) :
    SpanContext.Framed ⟨generateId 16 traceRandom, generateId 8 spanRandom, traceFlags⟩ where
  traceId := ⟨length_generateId _ _, dash_notMem_generateId _ _⟩
  spanId := ⟨length_generateId _ _, dash_notMem_generateId _ _⟩

theorem dash_notMem_defaultFlags : dash ∉ literal "01" := by decide +kernel

theorem plain_makeContext (start : Start) : (makeContext start).Plain where
  framed := framed_generateId _ _ _
  flags := dash_notMem_defaultFlags

/-- A span starts under a parent that has been read from a header, as the request filter does it. -/
def TracerAction.FromHeader : TracerAction → Prop
  | .startSpan start => ∃ header, start.parent = extractTraceparent header
  | _ => True

namespace Tracer
variable {config : TracerConfig} {serializer : Serializer} {s s' : Tracer}

def AllPlain (s : Tracer) : Prop := ∀ span ∈ s.spans, span.context.Plain

theorem AllPlain.resolvedParent (h : s.AllPlain) {start : Start}
    (hstart : ∃ header, start.parent = extractTraceparent header)
    (hvalid : (s.resolvedParent start).valid = true) : (s.resolvedParent start).Plain := by
  obtain ⟨header, hheader⟩ := hstart
  have hparent : start.parent.valid = true → start.parent.Plain := by
    rw [hheader]
    exact plain_extract
  unfold Tracer.resolvedParent at hvalid ⊢
  split at hvalid
  case isTrue hgiven =>
    rw [if_pos hgiven]
    exact hparent hgiven
  case isFalse hgiven =>
    rw [if_neg hgiven]
    cases hcurrent : s.currentSpan.bind fun i => s.spans[i]? with
    | none =>
      rw [hcurrent] at hvalid
      exact absurd hvalid hgiven
    | some span =>
      obtain ⟨i, -, hspan⟩ := Option.bind_eq_some_iff.mp hcurrent
      exact h span (List.mem_of_getElem? hspan)

theorem AllPlain.newSpan (h : s.AllPlain) {start : Start}
    (hstart : ∃ header, start.parent = extractTraceparent header) :
    (s.newSpan start).context.Plain := by
  rw [Tracer.newSpan]
  dsimp only
  split
  case isTrue hvalid =>
    have hparent := h.resolvedParent hstart hvalid
    have hspan := (framed_generateId start.traceRandom start.spanRandom []).spanId
    exact ⟨⟨hparent.framed.traceId, hspan⟩, hparent.flags⟩
  case isFalse => exact plain_makeContext start

theorem AllPlain.startSpan (h : s.AllPlain) {start : Start}
    (hstart : ∃ header, start.parent = extractTraceparent header) :
    (s.startSpan start).AllPlain := by
  intro span hspan
  obtain hearlier | hnew := List.mem_append.mp hspan
  · exact h span hearlier
  · rw [List.mem_singleton.mp hnew]
    exact h.newSpan hstart

/-- A span keeps its context. -/
theorem AllPlain.setSpan (h : s.AllPlain) {i : Nat} {old span : Span}
    (hold : s.referenced i = some old) (hcontext : span.context = old.context) :
    (s.setSpan i span).AllPlain := by
  intro other hother
  obtain hmem | rfl := List.mem_or_eq_of_mem_set hother
  · exact h other hmem
  · rw [hcontext]
    exact h old (List.mem_of_getElem? (referenced_inv hold).1)

/-- Whether the export succeeds or throws, no other span is touched. -/
theorem AllPlain.exportAndRelease {i : Nat} {span : Span} (h : (s.setSpan i span).AllPlain)
    (hresult : s.exportAndRelease config serializer i span = .ok s' ∨
      s.exportAndRelease config serializer i span = .error s') : s'.AllPlain := by
  unfold Tracer.exportAndRelease at hresult
  cases hexport : (s.setSpan i span).exportSpan config serializer span with
  | none =>
    rw [hexport] at hresult
    obtain hok | herror := hresult
    · cases hok
    · cases herror
      exact h
  | some exported =>
    rw [hexport] at hresult
    obtain hok | herror := hresult
    · cases hok
      unfold exportSpan at hexport
      split at hexport
      · obtain ⟨body, -, rfl⟩ := Option.map_eq_some_iff.mp hexport
        exact h
      · cases hexport
        exact h
    · cases herror

theorem AllPlain.step {a : TracerAction} (h : s.AllPlain) (ha : a.FromHeader)
    (hs : s.step config serializer a = some s') : s'.AllPlain := by
  unfold Tracer.step at hs
  split at hs
  · cases hs
  · cases a with
    | startSpan start =>
      cases hs
      exact h.startSpan ha
    | currentSpan =>
      cases hs
      exact h
    | setAttribute i key value =>
      obtain ⟨span, hspan, rfl⟩ := Option.map_eq_some_iff.mp hs
      unfold updateSpan
      split
      · exact h
      · exact h.setSpan hspan rfl
    | addEvent i event =>
      obtain ⟨span, hspan, rfl⟩ := Option.map_eq_some_iff.mp hs
      unfold updateSpan
      split
      · exact h
      · exact h.setSpan hspan rfl
    | endSpan i statusCode message now =>
      obtain ⟨span, hspan, rfl⟩ := Option.map_eq_some_iff.mp hs
      unfold endSpan
      split
      · exact h
      · have hset : (s.setSpan i (span.close statusCode message now)).AllPlain :=
          h.setSpan hspan rfl
        split
        · next hresult => exact hset.exportAndRelease (.inl hresult)
        · next hresult => exact hset.exportAndRelease (.inr hresult)
    | drop i now =>
      obtain ⟨span, hspan, rfl⟩ := Option.map_eq_some_iff.mp hs
      unfold destroy
      dsimp only
      split
      · exact h.setSpan hspan rfl
      · have hset : (s.setSpan i ({ span with destroyed := true }.close 0 [] now)).AllPlain :=
          h.setSpan hspan rfl
        split
        · next hresult => exact hset.exportAndRelease (.inl hresult)
        · next hresult =>
          have hkept := hset.exportAndRelease (.inr hresult)
          exact hkept

theorem allPlain_run {actions : List TracerAction} (hactions : ∀ a ∈ actions, a.FromHeader)
    (h : run (Tracer.step config serializer) {} actions = some s) : s.AllPlain := by
  have hreach : Reach (Tracer.step config serializer) (fun _ a => a.FromHeader) {} s :=
    .of_run_all (fun a ha _ => hactions a ha) h
  refine hreach.invariant (P := AllPlain) ?_ fun _ _ _ hi ha hs => hi.step ha hs
  intro span hspan
  cases hspan

end Tracer

end Generated

/-- A header is accepted if and only if it is well formed, and is then written back as it was,
exactly when it is regular; the contexts that the tracer generates are always read back. -/
theorem traceparent_exact_iff (s : Bytes) :
    (((extractTraceparent s).valid = true ↔ WellFormed s) ∧
        (WellFormed s → buildTraceparent (extractTraceparent s) = s) ↔ Regular s) ∧
      ∀ (config : TracerConfig) (serializer : Serializer) (actions : List TracerAction)
        (tracer : Tracer), (∀ a ∈ actions, a.FromHeader) →
          run (Tracer.step config serializer) {} actions = some tracer → ∀ span ∈ tracer.spans,
            extractTraceparent (buildTraceparent span.context) = span.context := by
  constructor
  · rw [and_iff_left fun hs => build_extract hs]
    exact accepted_iff_wellFormed_iff s
  · intro config serializer actions tracer hactions hrun span hspan
    exact (Tracer.allPlain_run hactions hrun span hspan).extract_build

/-- A fifth field, and an id that is not hexadecimal. -/
theorem traceparent_lenient : ¬ ∀ s, (extractTraceparent s).valid = true ↔ WellFormed s := by
  intro h
  obtain ⟨context, hframed, hs⟩ := exists_of_extract
    (s := literal "00-zzzzzzzzzzzzzzzzzzzzzzzzzzzzzzzz-0000000000000000-01-extra") (by decide +kernel)
  have hregular := (accepted_iff_wellFormed_iff _).mp (h _) context hframed hs
  have hflags := hregular.flags_length
  have hlength := congrArg List.length hs
  simp only [SpanContext.fields, List.length_append, hframed.traceId.1, hframed.spanId.1,
    hflags] at hlength
  exact absurd hlength (by decide +kernel)

end SuperVoice.Core.Tracing
