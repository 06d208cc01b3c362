import SuperVoice.Lib.Transition
import SuperVoice.Core.Tracing

/-! The current span of a thread, in every run. -/
namespace SuperVoice.Core.Tracing
open Bytes Transition

namespace Tracer

/-- `currentSpan` is the span that started last among those neither ended nor destroyed. -/
def Current (s : Tracer) : Prop :=
  s.terminated = false ∧ WeakStack.Latest s.live s.currentSpan

/-- A span that starts without a valid parent belongs to the current span, or it is a root. -/
def Grafted (s : Tracer) (start : Start) (span : Span) : Prop :=
  ∃ current, WeakStack.Latest s.live current ∧
    match current with
    | some i => ∃ parent, s.spans[i]? = some parent ∧ span.parent = parent.context ∧
        span.context.traceId = parent.context.traceId
    | none => span.parent.valid = false ∧ span.context = makeContext start

/-- What is exported can be printed. -/
def Printable (config : TracerConfig) (s : Tracer) : TracerAction → Prop
  | .endSpan i statusCode message now => ∀ span, s.referenced i = some span →
      span.ended = false → config.enabled = true → (span.close statusCode message now).Printable config
  | .drop i now => ∀ span, s.referenced i = some span →
      span.ended = false → config.enabled = true → (span.close 0 [] now).Printable config
  | _ => True

/-- The entries that can be locked are the spans that have not ended, in the order of their
start. -/
structure Stacked (s : Tracer) : Prop where
  running : s.terminated = false
  entries : ∀ i ∈ s.spanStack, i < s.spans.length
  live : s.spanStack.filter s.alive = (List.range s.spans.length).filter s.live
  contexts : ∀ span ∈ s.spans, span.context.valid = true

section Steps
variable {config : TracerConfig} {serializer : Serializer} {s s' : Tracer} {i : Nat} {span : Span}

theorem exists_of_live (h : s.live i = true) : ∃ span, s.spans[i]? = some span := by
  obtain ⟨span, hspan, -⟩ := (Option.any_eq_true ..).mp h
  exact ⟨span, hspan⟩

theorem lt_of_live (h : s.live i = true) : i < s.spans.length := by
  obtain ⟨span, hspan⟩ := exists_of_live h
  exact (List.getElem?_eq_some_iff.mp hspan).1

theorem Stacked.latest (h : Stacked s) : WeakStack.Latest s.live s.currentSpan := by
  rw [currentSpan, WeakStack.current_eq, h.live]
  exact WeakStack.latest_getLast? fun _ => lt_of_live

theorem Stacked.pruned (h : Stacked s) : Stacked s.pruned where
  running := h.running
  entries := fun i hi => h.entries i (WeakStack.mem_of_mem_prune hi)
  live := (WeakStack.filter_prune s.spanStack).trans h.live
  contexts := h.contexts

theorem generateId_ne_nil {bytes : Nat} (hbytes : 0 < bytes) (random : Nat → UInt8) :
    generateId bytes random ≠ [] := by
  intro hnil
  rw [generateId, List.flatMap_eq_nil_iff] at hnil
  have hlength : (if ((List.range bytes).map random).all (· == 0) then
      ((List.range bytes).map random).set (bytes - 1) 1
      else (List.range bytes).map random).length = bytes := by
    split <;> simp
  obtain ⟨byte, hbyte⟩ := List.exists_mem_of_length_pos (hlength ▸ hbytes)
  exact List.cons_ne_nil _ _ (hnil byte hbyte)

theorem isEmpty_generateId {bytes : Nat} (hbytes : 0 < bytes) (random : Nat → UInt8) :
    (generateId bytes random).isEmpty = false :=
  List.isEmpty_eq_false_iff.mpr (generateId_ne_nil hbytes random)

theorem valid_newSpan (s : Tracer) (start : Start) :
    (s.newSpan start).context.valid = true := by
  rw [newSpan]
  dsimp only
  split
  case isTrue hvalid =>
    rw [SpanContext.valid, Bool.and_eq_true] at hvalid ⊢
    exact ⟨hvalid.1, by rw [isEmpty_generateId (by decide)]; rfl⟩
  case isFalse =>
    rw [makeContext, SpanContext.valid, isEmpty_generateId (by decide),
      isEmpty_generateId (by decide)]
    rfl

/-- The spans that there are keep their numbers. -/
theorem filter_concat_spans (s : Tracer) (span : Span) (p : Span → Bool) {numbers : List Nat}
    (h : ∀ i ∈ numbers, i < s.spans.length) :
    numbers.filter (fun i => (s.spans ++ [span])[i]?.any p) =
      numbers.filter fun i => s.spans[i]?.any p := by
  apply List.filter_congr
  intro i hi
  rw [List.getElem?_append_left (h i hi)]

/-- A new span is on top. -/
theorem Stacked.push (h : Stacked s) (hvalid : span.context.valid = true)
    (hdestroyed : span.destroyed = false) (hended : span.ended = false) :
    Stacked { s with
      spans := s.spans ++ [span]
      spanStack := s.spanStack ++ [s.spans.length] } := by
  have hnew : (s.spans ++ [span])[s.spans.length]? = some span := List.getElem?_concat_length
  constructor
  case running => exact h.running
  case entries =>
    intro i hi
    show i < (s.spans ++ [span]).length
    rw [List.length_append, List.length_singleton]
    rcases List.mem_append.mp hi with hearlier | hlast
    · exact Nat.lt_succ_of_lt (h.entries i hearlier)
    · exact List.mem_singleton.mp hlast ▸ Nat.lt_succ_self _
  case live =>
    show (s.spanStack ++ [s.spans.length]).filter (fun i => (s.spans ++ [span])[i]?.any _) =
      (List.range (s.spans ++ [span]).length).filter fun i => (s.spans ++ [span])[i]?.any _
    rw [List.length_append, List.length_singleton, List.range_succ, WeakStack.filter_concat,
      WeakStack.filter_concat, filter_concat_spans s span _ h.entries,
      filter_concat_spans s span _ fun i hi => List.mem_range.mp hi, hnew, Option.any_some,
      Option.any_some, hdestroyed, hended]
    exact congrArg (· ++ [s.spans.length]) h.live
  case contexts =>
    intro span' hmem
    rcases List.mem_append.mp hmem with hearlier | hlast
    · exact h.contexts span' hearlier
    · exact List.mem_singleton.mp hlast ▸ hvalid

theorem Stacked.startSpan (h : Stacked s) (start : Start) : Stacked (s.startSpan start) := by
  rw [Tracer.startSpan]
  split
  case isTrue => exact h.push (valid_newSpan s start) rfl rfl
  case isFalse => exact h.pruned.push (valid_newSpan s start) rfl rfl

theorem any_setSpan {old : Span} (h : s.spans[i]? = some old) (span : Span) (p : Span → Bool)
    (j : Nat) : (s.setSpan i span).spans[j]?.any p =
      if j = i then p span else s.spans[j]?.any p := by
  obtain ⟨hi, -⟩ := List.getElem?_eq_some_iff.mp h
  rw [setSpan, List.getElem?_set]
  by_cases hj : j = i
  · rw [if_pos hj.symm, if_pos hi, if_pos hj]
    rfl
  · rw [if_neg (Ne.symm hj), if_neg hj]

theorem alive_setSpan {old : Span} (h : s.spans[i]? = some old) (span : Span) :
    (s.setSpan i span).alive = fun j => if j = i then !span.destroyed else s.alive j :=
  funext (any_setSpan h span _)

theorem live_setSpan {old : Span} (h : s.spans[i]? = some old) (span : Span) :
    (s.setSpan i span).live = fun j =>
      if j = i then !span.destroyed && !span.ended else s.live j :=
  funext (any_setSpan h span _)

theorem alive_setSpan_same {old : Span} (h : s.spans[i]? = some old)
    (hdestroyed : span.destroyed = old.destroyed) : (s.setSpan i span).alive = s.alive := by
  rw [alive_setSpan h]
  funext j
  split
  case isTrue hj => rw [hj, alive, h, hdestroyed, Option.any_some]
  case isFalse => rfl

/-- The stack after a change of a span. -/
theorem Stacked.set (h : Stacked s) {old : Span} (hold : s.spans[i]? = some old) (span : Span)
    (hcontext : span.context = old.context) {stack : List Nat}
    (hstack : ∀ j ∈ stack, j ∈ s.spanStack)
    (hlive : stack.filter (s.setSpan i span).alive =
      (List.range s.spans.length).filter (s.setSpan i span).live) :
    Stacked { s.setSpan i span with spanStack := stack } := by
  have hlength : (s.setSpan i span).spans.length = s.spans.length := List.length_set
  constructor
  case running => exact h.running
  case entries =>
    intro j hj
    exact (h.entries j (hstack j hj)).trans_eq hlength.symm
  case live =>
    show stack.filter (s.setSpan i span).alive =
      (List.range (s.setSpan i span).spans.length).filter (s.setSpan i span).live
    rw [hlength]
    exact hlive
  case contexts =>
    intro span' hmem
    rcases List.mem_or_eq_of_mem_set hmem with hother | heq
    · exact h.contexts span' hother
    · rw [heq, hcontext]
      exact h.contexts old (List.mem_of_getElem? hold)

theorem Stacked.congr (h : Stacked s) (hspans : s'.spans = s.spans)
    (hstack : s'.spanStack = s.spanStack) (hrunning : s'.terminated = s.terminated) :
    Stacked s' := by
  have halive : s'.alive = s.alive := funext fun i => by rw [alive, hspans, alive]
  have hlive : s'.live = s.live := funext fun i => by rw [Tracer.live, hspans, Tracer.live]
  constructor
  case running => exact hrunning.trans h.running
  case entries =>
    rw [hstack, hspans]
    exact h.entries
  case live =>
    rw [hstack, hspans, halive, hlive]
    exact h.live
  case contexts =>
    rw [hspans]
    exact h.contexts

/-- Neither `setAttribute` nor `addEvent` changes which spans are on the stack. -/
theorem Stacked.update (h : Stacked s) {old : Span} (hold : s.spans[i]? = some old)
    (hcontext : span.context = old.context) (hdestroyed : span.destroyed = old.destroyed)
    (hended : span.ended = old.ended) : Stacked (s.setSpan i span) := by
  have halive : (s.setSpan i span).alive = s.alive := alive_setSpan_same hold hdestroyed
  have hlive : (s.setSpan i span).live = s.live := by
    rw [live_setSpan hold]
    funext j
    split
    case isTrue hj => rw [hj, Tracer.live, hold, hdestroyed, hended, Option.any_some]
    case isFalse => rfl
  apply h.set hold span hcontext (fun _ hj => hj)
  rw [halive, hlive]
  exact h.live

/-- A span that ends is taken from the stack, if there are references to it or not. -/
theorem Stacked.release (h : Stacked s) {old : Span} (hold : s.spans[i]? = some old)
    (hreferenced : old.destroyed = false) (hcontext : span.context = old.context)
    (hended : span.ended = true) : Stacked ((s.setSpan i span).releaseSpan i) := by
  have halive : s.alive i = true := by
    rw [alive, hold, Option.any_some, hreferenced]
    rfl
  have hsub : ∀ j, (s.setSpan i span).alive j = true → s.alive j = true := by
    intro j hj
    rw [alive_setSpan hold] at hj
    dsimp only at hj
    split at hj
    case isTrue hji => exact hji ▸ halive
    case isFalse => exact hj
  have hnodup : (s.spanStack.filter (s.setSpan i span).alive).Nodup := by
    have hall : (s.spanStack.filter s.alive).Nodup := h.live ▸ List.nodup_range.filter _
    exact hall.sublist (List.monotone_filter_right _ hsub)
  refine h.set hold span hcontext (fun j hj => WeakStack.mem_of_mem_release hj) ?_
  have hwithout : (fun j => if j = i then false else (s.setSpan i span).alive j) =
      fun j => if j = i then false else s.alive j := by
    funext j
    rw [alive_setSpan hold]
    by_cases hj : j = i
    · rw [if_pos hj, if_pos hj]
    · simp [hj]
  have hlive : (s.setSpan i span).live = fun j => if j = i then false else s.live j := by
    rw [live_setSpan hold, hended, Bool.not_true, Bool.and_false]
  rw [WeakStack.filter_release, hlive]
  show (s.spanStack.filter (s.setSpan i span).alive).erase i = _
  rw [WeakStack.erase_filter hnodup, hwithout]
  exact WeakStack.filter_without h.live i

/-- The last reference to a span is dropped. Its entry, if there is one, cannot be locked. -/
theorem Stacked.destroyed (h : Stacked s) {old : Span} (hold : s.spans[i]? = some old) :
    Stacked (s.setSpan i { old with destroyed := true }) := by
  have hlive : (s.setSpan i { old with destroyed := true }).live =
      fun j => if j = i then false else s.live j := live_setSpan hold _
  refine h.set hold { old with destroyed := true } rfl (fun _ hj => hj) ?_
  rw [alive_setSpan hold, hlive]
  exact WeakStack.filter_without h.live i

theorem exportSpan_of_printable (serializer : Serializer) (s : Tracer)
    (h : config.enabled = true → span.Printable config) :
    ∃ posted, s.exportSpan config serializer span = some { s with posted } := by
  rw [exportSpan]
  split
  case isTrue henabled =>
    have hdump := serializer.dump_isSome (payload config span)
    rw [valid_payload.mpr (h henabled)] at hdump
    obtain ⟨body, hbody⟩ := Option.isSome_iff_exists.mp hdump
    exact ⟨s.posted ++ [body], by rw [hbody]; rfl⟩
  case isFalse => exact ⟨s.posted, rfl⟩

theorem exportSpan_of_not_printable (henabled : config.enabled = true)
    (h : ¬ span.Printable config) : s.exportSpan config serializer span = none := by
  have hdump := serializer.dump_isSome (payload config span)
  rw [Bool.eq_false_iff.mpr fun hvalid => h (valid_payload.mp hvalid)] at hdump
  rw [exportSpan, if_pos henabled, Option.isNone_iff_eq_none.mp (Option.isSome_eq_false_iff.mp hdump)]
  rfl

/-- `end` throws on a span that cannot be printed, and leaves it on the stack. -/
theorem exportAndRelease_error (henabled : config.enabled = true)
    (h : ¬ span.Printable config) :
    s.exportAndRelease config serializer i span = .error (s.setSpan i span) := by
  rw [exportAndRelease, exportSpan_of_not_printable henabled h]

/-- `end` releases a span that can be printed. -/
theorem Stacked.exported (serializer : Serializer) (h : Stacked s) {old : Span}
    (hold : s.spans[i]? = some old) (hreferenced : old.destroyed = false) (span : Span)
    (hcontext : span.context = old.context)
    (hended : span.ended = true) (hprintable : config.enabled = true → span.Printable config) :
    ∃ s', s.exportAndRelease config serializer i span = .ok s' ∧ Stacked s' := by
  obtain ⟨posted, hexport⟩ := exportSpan_of_printable serializer (s.setSpan i span) hprintable
  refine ⟨_, by rw [exportAndRelease, hexport], ?_⟩
  exact (h.release hold hreferenced hcontext hended).congr rfl rfl rfl

theorem referenced_inv (h : s.referenced i = some span) :
    s.spans[i]? = some span ∧ span.destroyed = false := by
  obtain ⟨hspan, hdestroyed⟩ := Option.filter_eq_some_iff.mp h
  exact ⟨hspan, by simpa using hdestroyed⟩

theorem Stacked.updateSpan (h : Stacked s) (hspan : s.referenced i = some span) {f : Span → Span}
    (hcontext : (f span).context = span.context) (hdestroyed : (f span).destroyed = span.destroyed)
    (hended : (f span).ended = span.ended) : Stacked (s.updateSpan i span f) := by
  rw [Tracer.updateSpan]
  split
  case isTrue => exact h
  case isFalse => exact h.update (referenced_inv hspan).1 hcontext hdestroyed hended

theorem Stacked.endSpan (h : Stacked s) (hspan : s.referenced i = some span) {statusCode : Int32}
    {message : Bytes} {now : UInt64}
    (hprintable : s.Printable config (.endSpan i statusCode message now)) :
    Stacked (s.endSpan config serializer i span statusCode message now) := by
  obtain ⟨hold, hreferenced⟩ := referenced_inv hspan
  rw [Tracer.endSpan]
  split
  case isTrue => exact h
  case isFalse hended =>
    have hended' : span.ended = false := Bool.eq_false_iff.mpr hended
    obtain ⟨s', hexported, hstacked⟩ := Stacked.exported serializer h hold hreferenced
      (span.close statusCode message now) rfl rfl (hprintable span hspan hended')
    rw [hexported]
    exact hstacked

theorem Stacked.destroy (h : Stacked s) (hspan : s.referenced i = some span) {now : UInt64}
    (hprintable : s.Printable config (.drop i now)) :
    Stacked (s.destroy config serializer i span now) := by
  obtain ⟨hold, hreferenced⟩ := referenced_inv hspan
  rw [Tracer.destroy]
  dsimp only
  split
  case isTrue => exact h.destroyed hold
  case isFalse hended =>
    have hended' : span.ended = false := Bool.eq_false_iff.mpr hended
    obtain ⟨s', hexported, hstacked⟩ := Stacked.exported serializer h hold hreferenced
      ({ span with destroyed := true }.close 0 [] now) rfl rfl (hprintable span hspan hended')
    rw [hexported]
    exact hstacked

theorem step_endSpan (h : s.terminated = false) (i : Nat) (statusCode : Int32) (message : Bytes)
    (now : UInt64) : step config serializer s (.endSpan i statusCode message now) =
      (s.referenced i).map fun span => s.endSpan config serializer i span statusCode message now :=
  if_neg (Bool.eq_false_iff.mp h)

theorem step_drop (h : s.terminated = false) (i : Nat) (now : UInt64) :
    step config serializer s (.drop i now) =
      (s.referenced i).map fun span => s.destroy config serializer i span now :=
  if_neg (Bool.eq_false_iff.mp h)

theorem stacked_step {a : TracerAction} (h : Stacked s) (hprintable : s.Printable config a)
    (hstep : step config serializer s a = some s') : Stacked s' := by
  have hrunning : ¬ s.terminated = true := Bool.eq_false_iff.mp h.running
  unfold step at hstep
  rw [if_neg hrunning] at hstep
  cases a with
  | startSpan start =>
    cases hstep
    exact h.startSpan start
  | currentSpan =>
    cases hstep
    exact h.pruned
  | setAttribute i key value =>
    obtain ⟨span, hspan, rfl⟩ := Option.map_eq_some_iff.mp hstep
    exact h.updateSpan hspan rfl rfl rfl
  | addEvent i event =>
    obtain ⟨span, hspan, rfl⟩ := Option.map_eq_some_iff.mp hstep
    exact h.updateSpan hspan rfl rfl rfl
  | endSpan i statusCode message now =>
    obtain ⟨span, hspan, rfl⟩ := Option.map_eq_some_iff.mp hstep
    exact h.endSpan hspan hprintable
  | drop i now =>
    obtain ⟨span, hspan, rfl⟩ := Option.map_eq_some_iff.mp hstep
    exact h.destroy hspan hprintable

theorem stacked_reach (h : Reach (step config serializer) (Printable config) {} s) : Stacked s := by
  induction h with
  | start =>
    constructor
    case running => rfl
    case entries =>
      intro i hi
      cases hi
    case live => rfl
    case contexts =>
      intro span hspan
      cases hspan
  | next a hr hg hs ih => exact stacked_step ih hg hs

theorem Stacked.grafted (h : Stacked s) {start : Start} (hparent : start.parent.valid = false) :
    s.Grafted start (s.newSpan start) := by
  refine ⟨s.currentSpan, h.latest, ?_⟩
  have hresolved : s.resolvedParent start =
      ((s.currentSpan.bind fun i => s.spans[i]?).map Span.context).getD start.parent := by
    rw [resolvedParent, hparent]
    rfl
  cases hcurrent : s.currentSpan with
  | none =>
    rw [hcurrent] at hresolved
    have hroot : (s.newSpan start).parent = start.parent := hresolved
    refine ⟨hroot ▸ hparent, ?_⟩
    rw [newSpan, hresolved]
    exact if_neg (Bool.eq_false_iff.mp hparent)
  | some i =>
    have hlatest := h.latest
    rw [hcurrent] at hlatest
    obtain ⟨parent, hget⟩ := exists_of_live hlatest.1
    have hparent' : s.resolvedParent start = parent.context := by
      rw [hresolved, hcurrent, Option.bind_some, hget]
      rfl
    have hvalid := h.contexts parent (List.mem_of_getElem? hget)
    refine ⟨parent, hget, hparent', ?_⟩
    rw [newSpan, hparent']
    dsimp only
    rw [if_pos hvalid]

/-- A span that has ended and is left on top is the current one. -/
theorem not_current_of_left (hcurrent : s.currentSpan = some i) {old : Span}
    (hold : s.spans[i]? = some old) (hdestroyed : span.destroyed = old.destroyed)
    (hended : span.ended = true) : ¬ (s.setSpan i span).Current := by
  intro h
  have halive : (s.setSpan i span).alive = s.alive := alive_setSpan_same hold hdestroyed
  have hleft : (s.setSpan i span).currentSpan = some i := by
    rw [Tracer.currentSpan, halive]
    exact hcurrent
  obtain ⟨-, hlatest⟩ := h
  rw [hleft, live_setSpan hold, hended] at hlatest
  have hlive := hlatest.1
  simp at hlive

/-- A step after which an entry that is left on the stack shows at once. -/
def Shows (s : Tracer) : TracerAction → Prop
  | .endSpan i .. => s.currentSpan = some i
  | .drop .. => True
  | _ => False

theorem current_iff_printable {a : TracerAction} (h : Stacked s) (hshows : s.Shows a)
    (hstep : step config serializer s a = some s') : s'.Current ↔ s.Printable config a := by
  constructor
  · intro hcurrent
    cases a with
    | endSpan i statusCode message now =>
      intro span hspan hended henabled
      by_contra hnot
      have hleft : s' = s.setSpan i (span.close statusCode message now) := by
        rw [step_endSpan h.running, hspan, Option.map_some, Option.some.injEq, endSpan,
          if_neg (Bool.eq_false_iff.mp hended), exportAndRelease_error henabled hnot] at hstep
        exact hstep.symm
      rw [hleft] at hcurrent
      exact absurd hcurrent (not_current_of_left hshows (referenced_inv hspan).1 rfl rfl)
    | drop i now =>
      intro span hspan hended henabled
      by_contra hnot
      have hnot' : ¬ ({ span with destroyed := true }.close 0 [] now).Printable config := hnot
      have hterminated : s'.terminated = true := by
        rw [step_drop h.running, hspan, Option.map_some, Option.some.injEq, destroy,
          if_neg (Bool.eq_false_iff.mp hended), exportAndRelease_error henabled hnot'] at hstep
        rw [← hstep]
      exact absurd (hcurrent.1.symm.trans hterminated) Bool.false_ne_true
    | _ => cases hshows
  · intro hprintable
    have hstacked := stacked_step h hprintable hstep
    exact ⟨hstacked.running, hstacked.latest⟩

end Steps

/-- In every run in which all that is exported can be printed, the current span is the one that
started last among those neither ended nor destroyed, and new spans belong to it. In such a run,
an `end` of the current span or a drop keeps this if and only if the span can be printed. -/
theorem current_in_run (config : TracerConfig) (serializer : Serializer) :
    (∀ s, Reach (step config serializer) (Printable config) {} s → s.Current) ∧
    (∀ s start s', Reach (step config serializer) (Printable config) {} s →
      start.parent.valid = false → step config serializer s (.startSpan start) = some s' →
        ∃ span, s'.spans = s.spans ++ [span] ∧ s.Grafted start span) ∧
    ∀ s a s', Reach (step config serializer) (Printable config) {} s → s.Shows a →
      step config serializer s a = some s' → (s'.Current ↔ s.Printable config a) := by
  refine ⟨?_, ?_, ?_⟩
  · intro s h
    have hstacked := stacked_reach h
    exact ⟨hstacked.running, hstacked.latest⟩
  · intro s start s' h hparent hstep
    have hstacked := stacked_reach h
    have hstart : step config serializer s (.startSpan start) = some (s.startSpan start) :=
      if_neg (Bool.eq_false_iff.mp hstacked.running)
    cases hstart.symm.trans hstep
    exact ⟨s.newSpan start, rfl, hstacked.grafted hparent⟩
  · intro s a s' h hshows hstep
    exact current_iff_printable (stacked_reach h) hshows hstep

end Tracer

/-- An entry of an object, before those with greater keys. -/
def insertMember (member : Bytes × Bytes) : List (Bytes × Bytes) → List (Bytes × Bytes)
  | [] => [member]
  | other :: members =>
    if member.1 ≤ other.1 then member :: other :: members
    else other :: insertMember member members

def quoted (text : Bytes) : Bytes := literal "\"" ++ text ++ literal "\""

mutual

/-- The text of a value whose strings need no escapes. -/
def plainText : Value → Bytes
  | .string text => quoted text
  | .integer value => signedDecimal value
  | .real _ => literal "0.0"
  | .boolean value => literal (if value then "true" else "false")
  | .array elements => literal "[" ++ (literal ",").intercalate (elementTexts elements) ++ literal "]"
  | .object members =>
    literal "\x7b" ++ (literal ",").intercalate ((memberTexts members).map fun member =>
      quoted member.1 ++ literal ":" ++ member.2) ++ literal "\x7d"

def elementTexts : List Value → List Bytes
  | [] => []
  | element :: elements => plainText element :: elementTexts elements

def memberTexts : List (Bytes × Value) → List (Bytes × Bytes)
  | [] => []
  | (key, value) :: members => insertMember (key, plainText value) (memberTexts members)

end

/-- Strings without escapes, and without other numbers than integers. -/
def plainSerializer : Serializer where
  dump value := if value.valid then some (plainText value) else none
  dump_isSome value := by cases value.valid <;> rfl

def sampleConfig : TracerConfig where
  enabled := true

/-- A request of a company with this name. -/
def sampleStart (company : Bytes) : Start where
  name := literal "request"
  parent := {}
  attributes := [(literal "company", .string company)]
  traceRandom := fun i => i.toUInt8
  spanRandom := fun i => i.toUInt8
  now := 1

namespace Tracer

/-- Every text of a span that is exported now is UTF-8. -/
def prints (config : TracerConfig) (s : Tracer) : TracerAction → Bool
  | .endSpan i statusCode message now => (s.referenced i).all fun span =>
      (config.texts ++ (span.close statusCode message now).texts).all fun text => Utf8 text
  | .drop i now => (s.referenced i).all fun span =>
      (config.texts ++ (span.close 0 [] now).texts).all fun text => Utf8 text
  | _ => true

theorem printable_of_prints (config : TracerConfig) (s : Tracer) (a : TracerAction)
    (h : s.prints config a = true) : s.Printable config a := by
  cases a with
  | endSpan i statusCode message now =>
    intro span hspan _ _ text htext
    rw [prints, hspan, Option.all_some, List.all_eq_true] at h
    exact of_decide_eq_true (h text htext)
  | drop i now =>
    intro span hspan _ _ text htext
    rw [prints, hspan, Option.all_some, List.all_eq_true] at h
    exact of_decide_eq_true (h text htext)
  | _ => trivial

theorem current_in_run_sample : ∃ s : Tracer,
    Reach (step sampleConfig plainSerializer) (Printable sampleConfig) {} s ∧
      s.spans.length = 3 ∧ s.currentSpan = some 2 ∧ s.Current := by
  have hrun : (runIf (step sampleConfig plainSerializer) (prints sampleConfig) {}
      [.startSpan (sampleStart (literal "acme")), .startSpan (sampleStart (literal "acme")),
        .endSpan 0 200 [] 2, .startSpan (sampleStart (literal "acme")), .drop 1 3]).any (fun s =>
          s.spans.length == 3 && s.currentSpan == some 2) = true := by decide +kernel
  obtain ⟨s, hs, hvalues⟩ := (Option.any_eq_true ..).mp hrun
  rw [Bool.and_eq_true, beq_iff_eq, beq_iff_eq] at hvalues
  have hreach := Reach.of_runIf (printable_of_prints sampleConfig) hs
  exact ⟨s, hreach, hvalues.1, hvalues.2,
    (current_in_run sampleConfig plainSerializer).1 s hreach⟩

/-- A span whose company is not UTF-8 ends, and stays current. -/
theorem ended_stays_current : ∃ s : Tracer,
    Reachable (step sampleConfig plainSerializer) {} s ∧ s.currentSpan = some 0 ∧
      s.live 0 = false ∧ ¬ s.Current := by
  have hrun : (run (step sampleConfig plainSerializer) {}
      [.startSpan (sampleStart [255]), .endSpan 0 200 [] 2]).any (fun s =>
        s.currentSpan == some 0 && !s.live 0) = true := by decide +kernel
  obtain ⟨s, hs, hvalues⟩ := exists_reachable hrun
  rw [Bool.and_eq_true, beq_iff_eq, Bool.not_eq_true'] at hvalues
  obtain ⟨hcurrent, hlive⟩ := hvalues
  refine ⟨s, hs, hcurrent, hlive, fun h => ?_⟩
  have hlatest := h.2
  rw [hcurrent] at hlatest
  exact absurd (hlive.symm.trans hlatest.1) Bool.false_ne_true

end Tracer

end SuperVoice.Core.Tracing
