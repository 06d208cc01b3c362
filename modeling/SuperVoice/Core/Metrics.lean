import Mathlib.Data.List.Nodup
import Mathlib.Data.Rat.Floor
import SuperVoice.Lib.Exposition

/-! `MetricsRegistry`: counters for every company and endpoint, and their rendering. -/
namespace SuperVoice.Core
open Bytes Exposition

structure SeriesKey where
  company : Bytes
  endpoint : Bytes
  deriving DecidableEq

/-- `std::tie` -/
def SeriesKey.tie (key : SeriesKey) : Bytes × Bytes := (key.company, key.endpoint)

instance : Ord (Bytes × Bytes) := lexOrd

instance : Ord SeriesKey := ⟨compareOn SeriesKey.tie⟩

instance : Std.TransOrd SeriesKey := inferInstanceAs (Std.TransCmp (compareOn SeriesKey.tie))

instance : Std.LawfulEqOrd SeriesKey where
  eq_of_compare {a b} h := by
    have htie : a.tie = b.tie :=
      Std.LawfulEqOrd.eq_of_compare h
    cases a
    cases b
    cases htie
    rfl

def kDefaultBuckets : List ℚ := [1 / 2, 1, 5 / 2, 5, 10, 25, 50, 100, 250, 500]

/-- A number that is not negative, with six decimals. -/
def fixedText (value : ℚ) : Bytes :=
  decimal ⌊value⌋.toNat ++ ascii "." ++
    (decimal (10 ^ 6 + ⌊(value - ⌊value⌋) * 10 ^ 6⌋.toNat)).drop 1

/-- `double`, as far as the registry uses it. -/
structure Doubles (D : Type) where
  zero : D
  add : D → D → D
  le : D → D → Bool
  ofRat : ℚ → D
  /-- `formatDouble` -/
  format : D → Bytes
  format_bucket : ∀ bucket ∈ kDefaultBuckets, format (ofRat bucket) = fixedText bucket
  format_line : ∀ value, newline ∉ format value

theorem newline_notMem_fixedText (value : ℚ) : newline ∉ fixedText value := by
  have hdot : newline ∉ ascii "." := by decide
  have hdecimals : newline ∉ (decimal (10 ^ 6 + ⌊(value - ⌊value⌋) * 10 ^ 6⌋.toNat)).drop 1 :=
    fun h => newline_notMem_decimal _ (List.mem_of_mem_drop h)
  simp only [fixedText, List.mem_append, not_or]
  exact ⟨⟨newline_notMem_decimal _, hdot⟩, hdecimals⟩

/-- Exact numbers. -/
instance : Inhabited (Doubles ℚ) where
  default := {
    zero := 0
    add := (· + ·)
    le a b := decide (a ≤ b)
    ofRat := id
    format := fixedText
    format_bucket := fun _ _ => rfl
    format_line := newline_notMem_fixedText }

structure Histogram (D : Type) where
  buckets : List D
  counts : List UInt64
  sum : D
  totalCount : UInt64

structure SeriesMetrics (D : Type) where
  requestsTotal : UInt64 := 0
  bytesIn : UInt64 := 0
  bytesOut : UInt64 := 0
  tokensIn : UInt64 := 0
  tokensOut : UInt64 := 0
  streamEvents : UInt64 := 0
  errorCounts : Std.TreeMap Bytes UInt64 := {}
  latency : Histogram D

/-- `metricsBySeries_` -/
abbrev Registry (D : Type) := Std.TreeMap SeriesKey (SeriesMetrics D)

section Recording
variable {D : Type} (doubles : Doubles D)

def Doubles.buckets : List D := kDefaultBuckets.map doubles.ofRat

def createHistogram : Histogram D where
  buckets := doubles.buckets
  counts := List.replicate (doubles.buckets.length + 1) 0
  sum := doubles.zero
  totalCount := 0

/-- `metricsBySeries_[key]`, with its histogram. -/
def Registry.series (registry : Registry D) (key : SeriesKey) : SeriesMetrics D :=
  let series := registry.getD key { latency := ⟨[], [], doubles.zero, 0⟩ }
  if series.latency.buckets.isEmpty then { series with latency := createHistogram doubles }
  else series

/-- `++series.errorCounts[errorType]` -/
def SeriesMetrics.countError (series : SeriesMetrics D) (errorType : Bytes) : SeriesMetrics D :=
  { series with
    errorCounts := series.errorCounts.insert errorType (series.errorCounts.getD errorType 0 + 1) }

def incrementError (registry : Registry D) (company endpoint errorType : Bytes) : Registry D :=
  if errorType = [] then registry
  else
    let key : SeriesKey := ⟨company, endpoint⟩
    registry.insert key ((registry.series doubles key).countError errorType)

/-- The bucket that counts a latency, the last count where it exceeds all bounds. -/
def Histogram.record (histogram : Histogram D) (latencyMs : D) : Histogram D :=
  let i := (histogram.buckets.findIdx? (doubles.le latencyMs)).getD (histogram.counts.length - 1)
  { histogram with
    counts := histogram.counts.modify i (· + 1)
    sum := doubles.add histogram.sum latencyMs
    totalCount := histogram.totalCount + 1 }

def recordRequest (registry : Registry D) (key : SeriesKey) (latencyMs : D)
    (bytesIn bytesOut tokensIn tokensOut streamEvents : UInt64) (errorType : Bytes) : Registry D :=
  let series := registry.series doubles key
  let series := { series with
    requestsTotal := series.requestsTotal + 1
    bytesIn := series.bytesIn + bytesIn
    bytesOut := series.bytesOut + bytesOut
    tokensIn := series.tokensIn + tokensIn
    tokensOut := series.tokensOut + tokensOut
    streamEvents := series.streamEvents + streamEvents
    latency := series.latency.record doubles latencyMs }
  registry.insert key (if errorType = [] then series else series.countError errorType)

/-- A call that changes the registry. -/
inductive RegistryCall (D : Type) where
  | incrementError (company endpoint errorType : Bytes)
  | recordRequest (key : SeriesKey) (latencyMs : D)
      (bytesIn bytesOut tokensIn tokensOut streamEvents : UInt64) (errorType : Bytes)

def Registry.call (registry : Registry D) : RegistryCall D → Registry D
  | .incrementError company endpoint errorType =>
    incrementError doubles registry company endpoint errorType
  | .recordRequest key latencyMs bytesIn bytesOut tokensIn tokensOut streamEvents errorType =>
    recordRequest doubles registry key latencyMs bytesIn bytesOut tokensIn tokensOut streamEvents
      errorType

end Recording

section Rendering
variable {D : Type} (doubles : Doubles D)

def escapeLabel (value : Bytes) : Bytes :=
  value.flatMap fun ch =>
    if ch = backslash ∨ ch = quote then [backslash, ch]
    else if ch = newline then ascii "\\n"
    else [ch]

def helpLines : List Bytes := [
  ascii "# HELP requests_total Total number of HTTP requests handled.",
  ascii "# TYPE requests_total counter",
  ascii "# HELP errors_total Total number of error responses by type.",
  ascii "# TYPE errors_total counter",
  ascii "# HELP latency_ms Request latency in milliseconds.",
  ascii "# TYPE latency_ms histogram",
  ascii "# HELP bytes_in Total bytes received.",
  ascii "# TYPE bytes_in counter",
  ascii "# HELP bytes_out Total bytes sent.",
  ascii "# TYPE bytes_out counter",
  ascii "# HELP tokens_in Total tokens received.",
  ascii "# TYPE tokens_in counter",
  ascii "# HELP tokens_out Total tokens returned.",
  ascii "# TYPE tokens_out counter",
  ascii "# HELP stream_events_total Total number of streamed events emitted.",
  ascii "# TYPE stream_events_total counter"]

def renderKey (key : SeriesKey) : Bytes :=
  ascii "company=\"" ++ escapeLabel key.company ++ ascii "\",endpoint=\"" ++
    escapeLabel key.endpoint ++ ascii "\""

def renderLine (name : String) (labels value : Bytes) : Bytes :=
  ascii name ++ ascii "\x7b" ++ labels ++ ascii "\x7d " ++ value ++ [newline]

def renderCount (value : UInt64) : Bytes := decimal value.toNat

/-- `cumulative` after the bucket number `i`. -/
def Histogram.cumulative (histogram : Histogram D) (i : Nat) : UInt64 :=
  (histogram.counts.take (i + 1)).foldl (· + ·) 0

def Histogram.renderLines (histogram : Histogram D) (labels : Bytes) : Bytes :=
  if histogram.buckets.isEmpty then []
  else
    histogram.buckets.zipIdx.flatMap (fun (bucket, i) =>
      renderLine "latency_ms_bucket" (labels ++ ascii ",le=\"" ++ doubles.format bucket ++
        ascii "\"") (renderCount (histogram.cumulative i))) ++
    renderLine "latency_ms_bucket" (labels ++ ascii ",le=\"+Inf\"")
      (renderCount (histogram.cumulative (histogram.buckets.length - 1) +
        histogram.counts.getLastD 0)) ++
    renderLine "latency_ms_sum" labels (doubles.format histogram.sum) ++
    renderLine "latency_ms_count" labels (renderCount histogram.totalCount)

def SeriesMetrics.renderLines (key : SeriesKey) (series : SeriesMetrics D) : Bytes :=
  let labels := renderKey key
  renderLine "requests_total" labels (renderCount series.requestsTotal) ++
  renderLine "bytes_in" labels (renderCount series.bytesIn) ++
  renderLine "bytes_out" labels (renderCount series.bytesOut) ++
  renderLine "tokens_in" labels (renderCount series.tokensIn) ++
  renderLine "tokens_out" labels (renderCount series.tokensOut) ++
  renderLine "stream_events_total" labels (renderCount series.streamEvents) ++
  series.errorCounts.toList.flatMap (fun (errorType, count) =>
    renderLine "errors_total" (labels ++ ascii ",type=\"" ++ escapeLabel errorType ++ ascii "\"")
      (renderCount count)) ++
  series.latency.renderLines doubles labels

def renderPrometheus (registry : Registry D) : Bytes :=
  helpLines.flatMap (· ++ [newline]) ++
    registry.toList.flatMap fun (key, series) => series.renderLines doubles key

end Rendering

/-- What is rendered of a series: its counters, with their own labels, and the sum. -/
inductive Metric where
  | requestsTotal
  | bytesIn
  | bytesOut
  | tokensIn
  | tokensOut
  | streamEventsTotal
  | errorsTotal (type : Bytes)
  | latencyBucket (le : Bytes)
  | latencySum
  | latencyCount
  deriving DecidableEq

namespace Metric

def name : Metric → Bytes
  | requestsTotal => ascii "requests_total"
  | bytesIn => ascii "bytes_in"
  | bytesOut => ascii "bytes_out"
  | tokensIn => ascii "tokens_in"
  | tokensOut => ascii "tokens_out"
  | streamEventsTotal => ascii "stream_events_total"
  | errorsTotal _ => ascii "errors_total"
  | latencyBucket _ => ascii "latency_ms_bucket"
  | latencySum => ascii "latency_ms_sum"
  | latencyCount => ascii "latency_ms_count"

def ownLabels : Metric → List (Bytes × Bytes)
  | errorsTotal type => [(ascii "type", type)]
  | latencyBucket le => [(ascii "le", le)]
  | _ => []

def labels (key : SeriesKey) (metric : Metric) : List (Bytes × Bytes) :=
  [(ascii "company", key.company), (ascii "endpoint", key.endpoint)] ++ metric.ownLabels

def sample (key : SeriesKey) (metric : Metric) (value : Bytes) : Sample :=
  ⟨metric.name, metric.labels key, value⟩

end Metric

section Counters
variable {D : Type} (doubles : Doubles D)

/-- The cumulative counts of a histogram under their bounds. -/
def Histogram.bucketCounts (histogram : Histogram D) : List (Bytes × UInt64) :=
  histogram.buckets.zipIdx.map (fun (bucket, i) => (doubles.format bucket, histogram.cumulative i)) ++
    [(ascii "+Inf", histogram.cumulative (histogram.buckets.length - 1) +
      histogram.counts.getLastD 0)]

/-- The value of an integer counter of a series. -/
def SeriesMetrics.counter (series : SeriesMetrics D) : Metric → Option UInt64
  | .requestsTotal => some series.requestsTotal
  | .bytesIn => some series.bytesIn
  | .bytesOut => some series.bytesOut
  | .tokensIn => some series.tokensIn
  | .tokensOut => some series.tokensOut
  | .streamEventsTotal => some series.streamEvents
  | .errorsTotal type => series.errorCounts[type]?
  | .latencyBucket le => (series.latency.bucketCounts doubles).lookup le
  | .latencySum => none
  | .latencyCount => some series.latency.totalCount

def Registry.counter (registry : Registry D) (key : SeriesKey) (metric : Metric) : Option UInt64 :=
  registry[key]?.bind fun series => series.counter doubles metric

end Counters

section Rows
variable {D : Type} (doubles : Doubles D)

/-- The metrics of a histogram with the texts of their values, in the order of the text. -/
def Histogram.rows (histogram : Histogram D) : List (Metric × Bytes) :=
  if histogram.buckets.isEmpty then []
  else
    (histogram.bucketCounts doubles).map (fun (le, count) =>
      (.latencyBucket le, renderCount count)) ++
    [(.latencySum, doubles.format histogram.sum),
      (.latencyCount, renderCount histogram.totalCount)]

def SeriesMetrics.rows (series : SeriesMetrics D) : List (Metric × Bytes) :=
  [(.requestsTotal, renderCount series.requestsTotal), (.bytesIn, renderCount series.bytesIn),
    (.bytesOut, renderCount series.bytesOut), (.tokensIn, renderCount series.tokensIn),
    (.tokensOut, renderCount series.tokensOut),
    (.streamEventsTotal, renderCount series.streamEvents)] ++
  series.errorCounts.toList.map (fun (errorType, count) =>
    (.errorsTotal errorType, renderCount count)) ++
  series.latency.rows doubles

def Registry.samples (registry : Registry D) : List Sample :=
  registry.toList.flatMap fun (key, series) =>
    (series.rows doubles).map fun (metric, value) => metric.sample key value

end Rows

section Text
variable {D : Type} {doubles : Doubles D}

theorem escapeLabel_eq (value : Bytes) : escapeLabel value = escape value := rfl

theorem renderLabels_labels (key : SeriesKey) (metric : Metric) :
    renderLabels (metric.labels key) =
      renderKey key ++ metric.ownLabels.flatMap fun label => comma :: renderLabel label := by
  cases metric <;>
    simp [Metric.labels, Metric.ownLabels, renderLabels, renderLabel, renderKey, escapeLabel_eq] <;>
    rfl

/-- A line of the text is a sample. -/
theorem render_sample (key : SeriesKey) (metric : Metric) (value : Bytes) :
    (metric.sample key value).render = metric.name ++ ascii "\x7b" ++ (renderKey key ++
      metric.ownLabels.flatMap fun label => comma :: renderLabel label) ++ ascii "\x7d " ++
        value := by
  rw [← renderLabels_labels]
  have hne : metric.labels key ≠ [] := by simp [Metric.labels]
  show renderSeries metric.name (metric.labels key) ++ space :: value = _
  rw [renderSeries, if_neg hne]
  simp
  rfl

/-- The line of a row. -/
def rowLine (key : SeriesKey) (row : Metric × Bytes) : Bytes :=
  (row.1.sample key row.2).render ++ [newline]

theorem renderLine_plain {name : String} (metric : Metric) (key : SeriesKey) (value : Bytes)
    (hname : metric.name = ascii name) (hown : metric.ownLabels = []) :
    renderLine name (renderKey key) value = rowLine key (metric, value) := by
  rw [rowLine, render_sample, hname, hown, List.flatMap_nil, List.append_nil]
  rfl

theorem renderLine_error (key : SeriesKey) (errorType value : Bytes) :
    renderLine "errors_total" (renderKey key ++ ascii ",type=\"" ++ escapeLabel errorType ++
      ascii "\"") value = rowLine key (.errorsTotal errorType, value) := by
  have htext : comma :: renderLabel (ascii "type", errorType) =
      ascii ",type=\"" ++ escapeLabel errorType ++ ascii "\"" := by
    rw [escapeLabel_eq]
    simp [renderLabel]
    rfl
  rw [rowLine, render_sample, Metric.ownLabels, List.flatMap_singleton, htext, renderLine]
  simp [Metric.name]

/-- A bound is printed as it is: there is nothing in it to escape. -/
theorem renderLine_bucket (key : SeriesKey) {le : Bytes} (hle : escape le = le) (value : Bytes) :
    renderLine "latency_ms_bucket" (renderKey key ++ ascii ",le=\"" ++ le ++ ascii "\"") value =
      rowLine key (.latencyBucket le, value) := by
  have htext : comma :: renderLabel (ascii "le", le) = ascii ",le=\"" ++ le ++ ascii "\"" := by
    simp [renderLabel, hle]
    rfl
  rw [rowLine, render_sample, Metric.ownLabels, List.flatMap_singleton, htext, renderLine]
  simp [Metric.name]

theorem escape_format {bucket : D} (h : bucket ∈ doubles.buckets) :
    escape (doubles.format bucket) = doubles.format bucket := by
  obtain ⟨bound, hbound, rfl⟩ := List.mem_map.mp h
  have hplain : ∀ bound ∈ kDefaultBuckets, ∀ c ∈ fixedText bound,
      c ≠ backslash ∧ c ≠ quote ∧ c ≠ newline := by decide +kernel
  rw [doubles.format_bucket bound hbound]
  exact escape_eq_self (hplain bound hbound)

theorem renderLines_histogram (key : SeriesKey) {histogram : Histogram D}
    (h : histogram.buckets = doubles.buckets) :
    histogram.renderLines doubles (renderKey key) =
      (histogram.rows doubles).flatMap (rowLine key) := by
  unfold Histogram.renderLines Histogram.rows Histogram.bucketCounts
  split
  · rfl
  · have hbuckets : histogram.buckets.zipIdx.flatMap (fun (bucket, i) =>
        renderLine "latency_ms_bucket" (renderKey key ++ ascii ",le=\"" ++ doubles.format bucket ++
          ascii "\"") (renderCount (histogram.cumulative i))) =
        (histogram.buckets.zipIdx.map fun (bucket, i) =>
          (Metric.latencyBucket (doubles.format bucket),
            renderCount (histogram.cumulative i))).flatMap (rowLine key) := by
      rw [List.flatMap_map]
      apply List.flatMap_congr
      intro p hp
      have hp : p.1 ∈ doubles.buckets := h ▸ List.fst_mem_of_mem_zipIdx hp
      exact renderLine_bucket key (escape_format hp) _
    have hinf : renderLine "latency_ms_bucket" (renderKey key ++ ascii ",le=\"+Inf\"")
        (renderCount (histogram.cumulative (histogram.buckets.length - 1) +
          histogram.counts.getLastD 0)) =
        rowLine key (.latencyBucket (ascii "+Inf"), renderCount (histogram.cumulative
          (histogram.buckets.length - 1) + histogram.counts.getLastD 0)) := by
      have htext : ascii ",le=\"+Inf\"" = ascii ",le=\"" ++ ascii "+Inf" ++ ascii "\"" := rfl
      rw [← renderLine_bucket key (by decide), htext]
      simp
    rw [hbuckets, hinf, renderLine_plain .latencySum key _ rfl rfl,
      renderLine_plain .latencyCount key _ rfl rfl]
    simp [Function.comp_def]

theorem renderLines_series (key : SeriesKey) {series : SeriesMetrics D}
    (h : series.latency.buckets = doubles.buckets) :
    series.renderLines doubles key = (series.rows doubles).flatMap (rowLine key) := by
  have herrors : series.errorCounts.toList.flatMap (fun (errorType, count) =>
      renderLine "errors_total" (renderKey key ++ ascii ",type=\"" ++ escapeLabel errorType ++
        ascii "\"") (renderCount count)) =
      (series.errorCounts.toList.map fun (errorType, count) =>
        (Metric.errorsTotal errorType, renderCount count)).flatMap (rowLine key) := by
    rw [List.flatMap_map]
    simp only [renderLine_error]
  rw [SeriesMetrics.renderLines, SeriesMetrics.rows, List.flatMap_append, List.flatMap_append,
    herrors, renderLines_histogram key h,
    renderLine_plain .requestsTotal key _ rfl rfl,
    renderLine_plain .bytesIn key _ rfl rfl,
    renderLine_plain .bytesOut key _ rfl rfl,
    renderLine_plain .tokensIn key _ rfl rfl,
    renderLine_plain .tokensOut key _ rfl rfl,
    renderLine_plain .streamEventsTotal key _ rfl rfl]
  simp

/-- Every series has the histogram of the constructor. -/
def Registry.Standard (doubles : Doubles D) (registry : Registry D) : Prop :=
  ∀ (key : SeriesKey) (series : SeriesMetrics D), registry[key]? = some series →
    series.latency.buckets = doubles.buckets

theorem renderPrometheus_eq {registry : Registry D} (h : registry.Standard doubles) :
    renderPrometheus doubles registry = helpLines.flatMap (· ++ [newline]) ++
      (registry.samples doubles).flatMap fun s => s.render ++ [newline] := by
  have hseries : registry.toList.flatMap (fun (key, series) => series.renderLines doubles key) =
      registry.toList.flatMap fun (key, series) => (series.rows doubles).flatMap (rowLine key) := by
    apply List.flatMap_congr
    intro p hp
    exact renderLines_series p.1 (h p.1 p.2 (Std.TreeMap.mem_toList_iff_getElem?_eq_some.mp hp))
  rw [renderPrometheus, hseries, Registry.samples, List.flatMap_assoc]
  simp only [List.flatMap_map]
  rfl

end Text

section Reached
variable {D : Type} {doubles : Doubles D} {registry : Registry D}

theorem buckets_series (h : registry.Standard doubles) (key : SeriesKey) :
    (registry.series doubles key).latency.buckets = doubles.buckets := by
  unfold Registry.series
  dsimp only
  rw [Std.TreeMap.getD_eq_getD_getElem?]
  split
  · rfl
  · next hne =>
    cases hseries : registry[key]? with
    | none =>
      rw [hseries] at hne
      exact absurd rfl hne
    | some series => exact h key series hseries

theorem standard_insert (h : registry.Standard doubles) {key : SeriesKey} {series : SeriesMetrics D}
    (hseries : series.latency.buckets = doubles.buckets) :
    Registry.Standard doubles (registry.insert key series) := by
  intro key' series' hget
  rw [Std.TreeMap.getElem?_insert] at hget
  split at hget
  · cases hget
    exact hseries
  · exact h key' series' hget

theorem standard_call (h : registry.Standard doubles) (call : RegistryCall D) :
    (registry.call doubles call).Standard doubles := by
  cases call with
  | incrementError company endpoint errorType =>
    show (incrementError doubles registry company endpoint errorType).Standard doubles
    unfold incrementError
    split
    · exact h
    · exact standard_insert h (buckets_series h _)
  | recordRequest key latencyMs bytesIn bytesOut tokensIn tokensOut streamEvents errorType =>
    apply standard_insert h
    split
    · exact buckets_series h key
    · exact buckets_series h key

theorem standard_calls (calls : List (RegistryCall D)) :
    (calls.foldl (Registry.call doubles) {}).Standard doubles := by
  suffices hall : ∀ registry : Registry D, registry.Standard doubles →
      (calls.foldl (Registry.call doubles) registry).Standard doubles from
    hall {} fun key series h => by simp at h
  induction calls with
  | nil => exact fun _ h => h
  | cons call calls ih => exact fun registry h => ih _ (standard_call h call)

def metricNames : List Bytes := [ascii "requests_total", ascii "bytes_in", ascii "bytes_out",
  ascii "tokens_in", ascii "tokens_out", ascii "stream_events_total", ascii "errors_total",
  ascii "latency_ms_bucket", ascii "latency_ms_sum", ascii "latency_ms_count"]

def labelNames : List Bytes := [ascii "company", ascii "endpoint", ascii "type", ascii "le"]

theorem name_mem_metricNames (metric : Metric) : metric.name ∈ metricNames := by
  cases metric <;> simp [Metric.name, metricNames]

theorem mem_labelNames {key : SeriesKey} {metric : Metric} {label : Bytes × Bytes}
    (h : label ∈ metric.labels key) : label.1 ∈ labelNames := by
  obtain h | h := List.mem_append.mp h
  · simp only [List.mem_cons, List.not_mem_nil, or_false] at h
    obtain rfl | rfl := h <;> simp [labelNames]
  · cases metric with
    | errorsTotal type =>
      cases List.mem_singleton.mp h
      simp [labelNames]
    | latencyBucket le =>
      cases List.mem_singleton.mp h
      simp [labelNames]
    | _ => cases h

theorem wellFormed_sample (key : SeriesKey) (metric : Metric) {value : Bytes}
    (h : newline ∉ value) : (metric.sample key value).WellFormed := by
  have hnames : ∀ name ∈ metricNames, openBrace ∉ name ∧ space ∉ name ∧ newline ∉ name ∧
      name.head? ≠ some Exposition.hash := by decide +kernel
  have hlabels : ∀ name ∈ labelNames, equals ∉ name ∧ newline ∉ name := by decide +kernel
  obtain ⟨hbrace, hspace, hnewline, hhash⟩ := hnames _ (name_mem_metricNames metric)
  refine ⟨hbrace, hspace, hnewline, hhash, fun label hlabel => ?_, h⟩
  obtain ⟨hequals, hline⟩ := hlabels _ (mem_labelNames hlabel)
  exact ⟨hequals, hline⟩

/-- The value of a row is a counter, or it is the sum. -/
theorem value_of_row {series : SeriesMetrics D} {row : Metric × Bytes}
    (h : row ∈ series.rows doubles) : (∃ count, row.2 = renderCount count) ∨
      row = (.latencySum, doubles.format series.latency.sum) := by
  obtain h | h := List.mem_append.mp h
  · obtain h | h := List.mem_append.mp h
    · simp only [List.mem_cons, List.not_mem_nil, or_false] at h
      obtain rfl | rfl | rfl | rfl | rfl | rfl := h <;> exact .inl ⟨_, rfl⟩
    · obtain ⟨p, -, rfl⟩ := List.mem_map.mp h
      exact .inl ⟨p.2, rfl⟩
  · unfold Histogram.rows at h
    split at h
    · cases h
    · obtain h | h := List.mem_append.mp h
      · obtain ⟨p, -, rfl⟩ := List.mem_map.mp h
        exact .inl ⟨p.2, rfl⟩
      · simp only [List.mem_cons, List.not_mem_nil, or_false] at h
        obtain rfl | rfl := h
        · exact .inr rfl
        · exact .inl ⟨_, rfl⟩

theorem newline_notMem_row {series : SeriesMetrics D} {row : Metric × Bytes}
    (h : row ∈ series.rows doubles) : newline ∉ row.2 := by
  obtain ⟨count, hcount⟩ | hsum := value_of_row h
  · rw [hcount]
    exact newline_notMem_decimal _
  · rw [hsum]
    exact doubles.format_line _

theorem wellFormed_samples : ∀ s ∈ registry.samples doubles, s.WellFormed := by
  intro s hs
  obtain ⟨p, -, hs⟩ := List.mem_flatMap.mp hs
  obtain ⟨row, hrow, rfl⟩ := List.mem_map.mp hs
  exact wellFormed_sample p.1 row.1 (newline_notMem_row hrow)

/-- The text is read back to the samples. -/
theorem parse_renderPrometheus (h : registry.Standard doubles) :
    parse (renderPrometheus doubles registry) = some (registry.samples doubles) := by
  have hcomments : ∀ line ∈ helpLines, newline ∉ line ∧ line.head? = some Exposition.hash := by
    decide +kernel
  rw [renderPrometheus_eq h]
  exact parse_lines hcomments wellFormed_samples

/-- The metric with a name and a label of its own. -/
def metricOf (name own : Bytes) : Option Metric :=
  (metricNames.zip [.requestsTotal, .bytesIn, .bytesOut, .tokensIn, .tokensOut, .streamEventsTotal,
    .errorsTotal own, .latencyBucket own, .latencySum, .latencyCount]).lookup name

theorem metricOf_name (metric : Metric) :
    metricOf metric.name ((metric.ownLabels.map Prod.snd).headD []) = some metric := by
  cases metric <;> rfl

/-- The name and the labels tell the metric and the series. -/
theorem sample_injective {key key' : SeriesKey} {metric metric' : Metric}
    (hname : metric.name = metric'.name) (hlabels : metric.labels key = metric'.labels key') :
    metric = metric' ∧ key = key' := by
  unfold Metric.labels at hlabels
  simp only [List.cons_append, List.nil_append, List.cons.injEq, Prod.mk.injEq, true_and] at hlabels
  obtain ⟨hcompany, hendpoint, hown⟩ := hlabels
  have hmetric := metricOf_name metric
  rw [hname, hown, metricOf_name, Option.some.injEq] at hmetric
  refine ⟨hmetric.symm, ?_⟩
  cases key
  cases key'
  cases hcompany
  cases hendpoint
  rfl

theorem renderCount_injective : Function.Injective renderCount := by
  intro a b h
  exact UInt64.toNat_inj.mp (decimal_injective h)

theorem nodup_errorTypes (series : SeriesMetrics D) :
    (series.errorCounts.toList.map Prod.fst).Nodup := by
  rw [List.Nodup, List.pairwise_map]
  refine Std.TreeMap.distinct_keys_toList.imp fun {p q} hne heq => hne ?_
  rw [heq]
  exact Std.ReflCmp.compare_self

theorem nodup_bucketCounts {histogram : Histogram D} (h : histogram.buckets = doubles.buckets) :
    ((histogram.bucketCounts doubles).map Prod.fst).Nodup := by
  have hbounds : (histogram.bucketCounts doubles).map Prod.fst =
      kDefaultBuckets.map fixedText ++ [ascii "+Inf"] := by
    have hformat : doubles.buckets.map doubles.format = kDefaultBuckets.map fixedText := by
      rw [Doubles.buckets, List.map_map]
      exact List.map_congr_left doubles.format_bucket
    have hzip : histogram.buckets.zipIdx.map (fun p => doubles.format p.1) =
        histogram.buckets.map doubles.format := by
      have hfst := congrArg (List.map doubles.format) (List.zipIdx_map_fst 0 histogram.buckets)
      rwa [List.map_map] at hfst
    rw [Histogram.bucketCounts, List.map_append, List.map_map, ← hformat, ← h, ← hzip]
    rfl
  rw [hbounds]
  decide +kernel

theorem latency_rows {histogram : Histogram D} (h : histogram.buckets = doubles.buckets) :
    histogram.rows doubles = (histogram.bucketCounts doubles).map (fun (le, count) =>
        (.latencyBucket le, renderCount count)) ++
      [(.latencySum, doubles.format histogram.sum),
        (.latencyCount, renderCount histogram.totalCount)] := by
  have hne : histogram.buckets.isEmpty = false := by
    rw [h]
    rfl
  rw [Histogram.rows, hne]
  rfl

/-- A series has no two rows for one metric. -/
theorem nodup_rows {series : SeriesMetrics D} (h : series.latency.buckets = doubles.buckets) :
    ((series.rows doubles).map Prod.fst).Nodup := by
  have hmetrics : (series.rows doubles).map Prod.fst =
      [.requestsTotal, .bytesIn, .bytesOut, .tokensIn, .tokensOut, .streamEventsTotal] ++
        (series.errorCounts.toList.map Prod.fst).map Metric.errorsTotal ++
        (((series.latency.bucketCounts doubles).map Prod.fst).map Metric.latencyBucket ++
          [.latencySum, .latencyCount]) := by
    rw [SeriesMetrics.rows, latency_rows h]
    simp only [List.map_append, List.map_cons, List.map_nil, List.map_map, Function.comp_def]
  have herrors := (nodup_errorTypes series).map fun _ _ h => Metric.errorsTotal.inj h
  have hbuckets := (nodup_bucketCounts h).map fun _ _ h => Metric.latencyBucket.inj h
  rw [hmetrics]
  refine List.nodup_append.mpr ⟨List.nodup_append.mpr ⟨by decide, herrors, ?_⟩,
    List.nodup_append.mpr ⟨hbuckets, by decide, ?_⟩, ?_⟩
  · intro a ha b hb heq
    obtain ⟨type, -, rfl⟩ := List.mem_map.mp hb
    simp [heq] at ha
  · intro a ha b hb heq
    obtain ⟨le, -, rfl⟩ := List.mem_map.mp ha
    simp [← heq] at hb
  · intro a ha b hb heq
    subst heq
    obtain hb | hb := List.mem_append.mp hb
    · obtain ⟨le, -, rfl⟩ := List.mem_map.mp hb
      simp at ha
    · simp only [List.mem_cons, List.not_mem_nil, or_false] at hb
      obtain rfl | rfl := hb <;> simp at ha

theorem lookup_iff_mem {entries : List (Bytes × UInt64)} (h : (entries.map Prod.fst).Nodup)
    (name : Bytes) (value : UInt64) :
    entries.lookup name = some value ↔ (name, value) ∈ entries := by
  induction entries with
  | nil => simp
  | cons entry entries ih =>
    obtain ⟨name', value'⟩ := entry
    rw [List.map_cons, List.nodup_cons] at h
    rw [List.lookup_cons, List.mem_cons]
    by_cases heq : name = name'
    · subst heq
      have hnot : (name, value) ∉ entries := fun hmem => h.1 (List.mem_map.mpr ⟨_, hmem, rfl⟩)
      simp [hnot, eq_comm]
    · have hne : (name == name') = false := by simpa using heq
      simp [hne, heq, ih h.2]

/-- The value of a counter stands in its row, and nothing else does. -/
theorem mem_rows_iff {series : SeriesMetrics D} (h : series.latency.buckets = doubles.buckets)
    {metric : Metric} (hmetric : metric ≠ .latencySum) (value : UInt64) :
    (metric, renderCount value) ∈ series.rows doubles ↔
      series.counter doubles metric = some value := by
  rw [SeriesMetrics.rows, latency_rows h]
  cases metric with
  | errorsTotal type =>
    simp [SeriesMetrics.counter, renderCount_injective.eq_iff]
  | latencyBucket le =>
    rw [SeriesMetrics.counter, lookup_iff_mem (nodup_bucketCounts h)]
    simp [renderCount_injective.eq_iff]
  | latencySum => exact absurd rfl hmetric
  | _ => simp [SeriesMetrics.counter, renderCount_injective.eq_iff, eq_comm]

theorem mem_samples_iff {key : SeriesKey} {metric : Metric} {value : Bytes} :
    metric.sample key value ∈ registry.samples doubles ↔
      ∃ series, registry[key]? = some series ∧ (metric, value) ∈ series.rows doubles := by
  refine ⟨fun h => ?_, fun ⟨series, hseries, hrow⟩ => ?_⟩
  · obtain ⟨⟨key', series⟩, hp, hs⟩ := List.mem_flatMap.mp h
    obtain ⟨⟨metric', value'⟩, hrow, heq⟩ := List.mem_map.mp hs
    obtain ⟨hname, hlabels, hvalue⟩ := Sample.mk.inj heq
    obtain ⟨rfl, rfl⟩ := sample_injective hname hlabels
    subst hvalue
    exact ⟨series, Std.TreeMap.mem_toList_iff_getElem?_eq_some.mp hp, hrow⟩
  · refine List.mem_flatMap.mpr ⟨(key, series), ?_, List.mem_map.mpr ⟨_, hrow, rfl⟩⟩
    exact Std.TreeMap.mem_toList_iff_getElem?_eq_some.mpr hseries

theorem nodup_samples (h : registry.Standard doubles) :
    ((registry.samples doubles).map fun s => (s.name, s.labels)).Nodup := by
  have hseries : ∀ p ∈ registry.toList, p.2.latency.buckets = doubles.buckets :=
    fun p hp => h p.1 p.2 (Std.TreeMap.mem_toList_iff_getElem?_eq_some.mp hp)
  have hsamples : (registry.samples doubles).map (fun s => (s.name, s.labels)) =
      registry.toList.flatMap fun p =>
        ((p.2.rows doubles).map Prod.fst).map fun metric => (metric.name, metric.labels p.1) := by
    rw [Registry.samples, List.map_flatMap]
    apply List.flatMap_congr
    intro p _
    rw [List.map_map, List.map_map]
    rfl
  rw [hsamples]
  refine List.nodup_flatMap.mpr ⟨fun p hp => ?_, ?_⟩
  · apply (nodup_rows (hseries p hp)).map
    intro metric metric' heq
    obtain ⟨hname, hlabels⟩ := Prod.mk.inj heq
    exact (sample_injective hname hlabels).1
  · refine Std.TreeMap.distinct_keys_toList.imp fun {p q} hne => ?_
    intro s hp hq
    obtain ⟨metric, -, rfl⟩ := List.mem_map.mp hp
    obtain ⟨metric', -, heq⟩ := List.mem_map.mp hq
    obtain ⟨hname, hlabels⟩ := Prod.mk.inj heq
    have hkey := (sample_injective hname hlabels).2
    rw [hkey] at hne
    exact hne Std.ReflCmp.compare_self

/-- The samples are the counters of the registry, each under its own series, and the sums. -/
structure Recovers (doubles : Doubles D) (registry : Registry D) (samples : List Sample) : Prop where
  once : (samples.map fun s => (s.name, s.labels)).Nodup
  counter : ∀ (key : SeriesKey) (metric : Metric) (value : UInt64), metric ≠ .latencySum →
    (metric.sample key (decimal value.toNat) ∈ samples ↔
      registry.counter doubles key metric = some value)
  only : ∀ s ∈ samples, ∃ (key : SeriesKey) (metric : Metric) (text : Bytes),
    s = metric.sample key text ∧ (metric = .latencySum ∨
      ∃ value, registry.counter doubles key metric = some value ∧ text = decimal value.toNat)

theorem counter_of_row (h : registry.Standard doubles) {key : SeriesKey} {metric : Metric}
    (hmetric : metric ≠ .latencySum) (value : UInt64) :
    metric.sample key (decimal value.toNat) ∈ registry.samples doubles ↔
      registry.counter doubles key metric = some value := by
  rw [mem_samples_iff, Registry.counter, Option.bind_eq_some_iff]
  refine exists_congr fun series => and_congr_right fun hseries => ?_
  exact mem_rows_iff (h key series hseries) hmetric value

theorem recovers_samples (h : registry.Standard doubles) :
    Recovers doubles registry (registry.samples doubles) where
  once := nodup_samples h
  counter key metric value hmetric := counter_of_row h hmetric value
  only s hs := by
    obtain ⟨⟨key, series⟩, -, hseries⟩ := List.mem_flatMap.mp hs
    obtain ⟨⟨metric, text⟩, hrow, rfl⟩ := List.mem_map.mp hseries
    refine ⟨key, metric, text, rfl, ?_⟩
    by_cases hmetric : metric = .latencySum
    · exact .inl hmetric
    · obtain ⟨value, htext⟩ | hsum := value_of_row hrow
      · refine .inr ⟨value, (counter_of_row h hmetric value).mp ?_, htext⟩
        rw [← renderCount, ← htext]
        exact hs
      · exact absurd (Prod.mk.inj hsum).1 hmetric

end Reached

/-- Parsing what is rendered gives back every counter under its metric, company, endpoint and type,
and no two series are rendered alike. -/
theorem exposition_faithful {D : Type} (doubles : Doubles D) (calls : List (RegistryCall D)) :
    (∃ samples, parse (renderPrometheus doubles (calls.foldl (Registry.call doubles) {})) =
        some samples ∧ Recovers doubles (calls.foldl (Registry.call doubles) {}) samples) ∧
    ∀ (key key' : SeriesKey) (metric metric' : Metric),
      renderSeries metric.name (metric.labels key) =
        renderSeries metric'.name (metric'.labels key') → metric = metric' ∧ key = key' := by
  refine ⟨⟨_, parse_renderPrometheus (standard_calls calls),
    recovers_samples (standard_calls calls)⟩, fun key key' metric metric' heq => ?_⟩
  obtain ⟨hname, hlabels⟩ := renderSeries_injective
    (wellFormed_sample key metric List.not_mem_nil) (wellFormed_sample key' metric' List.not_mem_nil)
    heq
  exact sample_injective hname hlabels

end SuperVoice.Core
