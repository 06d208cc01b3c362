import SuperVoice.Lib.Buckets
import SuperVoice.Core.Metrics

/-! The latencies of a series against the counts that are printed for it. -/
namespace SuperVoice.Core
open Bytes Exposition Buckets
open scoped UInt64.CommRing

/-- Exact numbers: they compare as they are ordered, and the bounds rise. -/
structure Doubles.Ordered {D : Type} [LinearOrder D] (doubles : Doubles D) : Prop where
  le : ∀ a b, doubles.le a b = decide (a ≤ b)
  rising : doubles.buckets.Pairwise (· ≤ ·)

/-- The text has one value for a metric of a series. -/
def Prints (text : Bytes) (key : SeriesKey) (metric : Metric) (value : Nat) : Prop :=
  ∃ samples, parse text = some samples ∧
    ∀ t, metric.sample key t ∈ samples ↔ t = decimal value

section
variable {D : Type}

/-- The series that a call changes. -/
def RegistryCall.key : RegistryCall D → Option SeriesKey
  | .incrementError company endpoint errorType =>
    if errorType = [] then none else some ⟨company, endpoint⟩
  | .recordRequest key .. => some key

/-- The latency that a call records for a series. -/
def RegistryCall.latency? (key : SeriesKey) : RegistryCall D → Option D
  | .incrementError .. => none
  | .recordRequest key' latencyMs .. => if key' = key then some latencyMs else none

def latencies (key : SeriesKey) (calls : List (RegistryCall D)) : List D :=
  calls.filterMap (RegistryCall.latency? key)

/-- The labels of the buckets in the order in which they are printed. -/
def bucketLabels (doubles : Doubles D) : List Bytes :=
  doubles.buckets.map doubles.format ++ [ascii "+Inf"]

/-- What a text prints of a series with these latencies. -/
structure Tallied [LinearOrder D] (doubles : Doubles D) (text : Bytes) (key : SeriesKey)
    (latencies : List D) : Prop where
  bucket : ∀ bound ∈ doubles.buckets, Prints text key (.latencyBucket (doubles.format bound))
    (latencies.countP fun latencyMs => decide (latencyMs ≤ bound))
  infinite : Prints text key (.latencyBucket (ascii "+Inf")) latencies.length
  count : Prints text key .latencyCount latencies.length
  total : Prints text key .requestsTotal latencies.length
  rising : ∀ (i j : Nat) le le' n n', i ≤ j → (bucketLabels doubles)[i]? = some le →
    (bucketLabels doubles)[j]? = some le' → Prints text key (.latencyBucket le) n →
    Prints text key (.latencyBucket le') n' → n ≤ n'

/-- A series with these latencies; the counters wrap around at 2 ^ 64. -/
structure Recorded [LinearOrder D] (doubles : Doubles D) (latencies : List D)
    (series : SeriesMetrics D) : Prop where
  buckets : series.latency.buckets = doubles.buckets
  counts : series.latency.counts =
    latencies.foldl (tally doubles.buckets) (List.replicate (doubles.buckets.length + 1) 0)
  totalCount : series.latency.totalCount = (latencies.length : UInt64)
  requestsTotal : series.requestsTotal = (latencies.length : UInt64)

end

section
variable {D : Type} [LinearOrder D] {doubles : Doubles D} {registry : Registry D}
  {series : SeriesMetrics D} {key key' : SeriesKey} {xs : List D}

theorem Prints.unique {text : Bytes} {metric : Metric} {n n' : Nat}
    (h : Prints text key metric n) (h' : Prints text key metric n') : n = n' := by
  obtain ⟨samples, hparse, hvalue⟩ := h
  obtain ⟨samples', hparse', hvalue'⟩ := h'
  cases hparse.symm.trans hparse'
  exact decimal_injective ((hvalue' _).mp ((hvalue _).mpr rfl))

/-- A bucket is chosen as its cell. -/
theorem counts_record (hordered : doubles.Ordered) {histogram : Histogram D}
    (hbuckets : histogram.buckets = doubles.buckets)
    (hcounts : histogram.counts.length = doubles.buckets.length + 1) (latencyMs : D) :
    (histogram.record doubles latencyMs).counts =
      tally doubles.buckets histogram.counts latencyMs := by
  have hle : doubles.le latencyMs = fun bound => decide (latencyMs ≤ bound) :=
    funext (hordered.le latencyMs)
  rw [Histogram.record, tally, cell, List.findIdx_eq_getD_findIdx?, hbuckets, hcounts, hle]
  rfl

theorem Recorded.length_counts (h : Recorded doubles xs series) :
    series.latency.counts.length = doubles.buckets.length + 1 := by
  rw [h.counts, length_foldl_tally, List.length_replicate]

/-- A request that is recorded; the other counters do not matter. -/
theorem Recorded.record (hordered : doubles.Ordered) (h : Recorded doubles xs series)
    (latencyMs : D) {series' : SeriesMetrics D}
    (hlatency : series'.latency = series.latency.record doubles latencyMs)
    (htotal : series'.requestsTotal = series.requestsTotal + 1) :
    Recorded doubles (xs ++ [latencyMs]) series' := by
  have hlength : ((xs ++ [latencyMs]).length : UInt64) = (xs.length : UInt64) + 1 := by
    rw [List.length_append, List.length_singleton, Nat.cast_add, Nat.cast_one]
  constructor
  case buckets =>
    rw [hlatency]
    exact h.buckets
  case counts =>
    rw [hlatency, counts_record hordered h.buckets h.length_counts, h.counts, List.foldl_append]
    rfl
  case totalCount =>
    rw [hlatency, hlength, ← h.totalCount]
    rfl
  case requestsTotal => rw [htotal, hlength, h.requestsTotal]

/-- What is recorded of latencies depends on the histogram and the number of requests alone. -/
theorem Recorded.congr (h : Recorded doubles xs series) {series' : SeriesMetrics D}
    (hlatency : series'.latency = series.latency)
    (htotal : series'.requestsTotal = series.requestsTotal) : Recorded doubles xs series' := by
  constructor
  case buckets => exact hlatency ▸ h.buckets
  case counts => exact hlatency ▸ h.counts
  case totalCount => exact hlatency ▸ h.totalCount
  case requestsTotal => exact htotal ▸ h.requestsTotal

omit [LinearOrder D] in
theorem series_of_none (h : registry[key]? = none) :
    registry.series doubles key = { latency := createHistogram doubles } := by
  rw [Registry.series, Std.TreeMap.getD_eq_getD_getElem?, h]
  rfl

theorem recorded_none (h : registry[key]? = none) :
    Recorded doubles [] (registry.series doubles key) := by
  rw [series_of_none h]
  constructor <;> rfl

omit [LinearOrder D] in
theorem series_of_some (hstandard : registry.Standard doubles) (h : registry[key]? = some series) :
    registry.series doubles key = series := by
  have hne : series.latency.buckets.isEmpty = false := by
    rw [hstandard key series h]
    rfl
  rw [Registry.series, Std.TreeMap.getD_eq_getD_getElem?, h]
  simp only [Option.getD_some, hne]
  rfl

omit [LinearOrder D] in
/-- A call replaces the series that it is for, and leaves the others alone. -/
theorem getElem?_call (doubles : Doubles D) (registry : Registry D) (call : RegistryCall D)
    (key : SeriesKey) :
    (registry.call doubles call)[key]? = if call.key = some key then
      some (match call with
        | .incrementError _ _ errorType => (registry.series doubles key).countError errorType
        | .recordRequest _ latencyMs bytesIn bytesOut tokensIn tokensOut streamEvents errorType =>
          let series := registry.series doubles key
          let series := { series with
            requestsTotal := series.requestsTotal + 1
            bytesIn := series.bytesIn + bytesIn
            bytesOut := series.bytesOut + bytesOut
            tokensIn := series.tokensIn + tokensIn
            tokensOut := series.tokensOut + tokensOut
            streamEvents := series.streamEvents + streamEvents
            latency := series.latency.record doubles latencyMs }
          if errorType = [] then series else series.countError errorType)
    else registry[key]? := by
  have hcompare : ∀ key' : SeriesKey, compare key' key = .eq ↔ some key' = some key :=
    fun key' => Std.LawfulEqCmp.compare_eq_iff_eq.trans Option.some_inj.symm
  cases call with
  | incrementError company endpoint errorType =>
    rw [Registry.call, incrementError, RegistryCall.key]
    by_cases hempty : errorType = []
    · rw [if_pos hempty, if_pos hempty, if_neg (Option.some_ne_none key).symm]
    · rw [if_neg hempty, if_neg hempty, Std.TreeMap.getElem?_insert]
      simp only [hcompare]
      split
      case isTrue hkey =>
        cases hkey
        rfl
      case isFalse => rfl
  | recordRequest key' latencyMs bytesIn bytesOut tokensIn tokensOut streamEvents errorType =>
    rw [Registry.call, recordRequest, RegistryCall.key, Std.TreeMap.getElem?_insert]
    simp only [hcompare]
    split
    case isTrue hkey =>
      cases hkey
      rfl
    case isFalse => rfl

/-- What is recorded of a series, and whether it exists. -/
def Follows (doubles : Doubles D) (calls : List (RegistryCall D)) (key : SeriesKey)
    (registry : Registry D) : Prop :=
  registry.Standard doubles ∧
    Recorded doubles (latencies key calls) (registry.series doubles key) ∧
    ((∃ call ∈ calls, call.key = some key) → ∃ series, registry[key]? = some series)

omit [LinearOrder D] in
theorem latencies_append (key : SeriesKey) (calls : List (RegistryCall D)) (call : RegistryCall D) :
    latencies key (calls ++ [call]) = latencies key calls ++ (call.latency? key).toList := by
  rw [latencies, List.filterMap_append, latencies, List.filterMap_cons, List.filterMap_nil]
  cases call.latency? key <;> rfl

/-- A call for the series, which it creates if need be. -/
theorem recorded_call (hordered : doubles.Ordered) (hstandard : registry.Standard doubles)
    (h : Recorded doubles xs (registry.series doubles key)) {call : RegistryCall D}
    (hkey : call.key = some key) : Recorded doubles (xs ++ (call.latency? key).toList)
      ((registry.call doubles call).series doubles key) := by
  have hget := getElem?_call doubles registry call key
  rw [if_pos hkey] at hget
  rw [series_of_some (standard_call hstandard call) hget]
  cases call with
  | incrementError company endpoint errorType =>
    rw [RegistryCall.latency?, Option.toList_none, List.append_nil]
    exact h.congr rfl rfl
  | recordRequest key' latencyMs bytesIn bytesOut tokensIn tokensOut streamEvents errorType =>
    cases hkey
    rw [RegistryCall.latency?, if_pos rfl, Option.toList_some]
    dsimp only
    split
    · exact h.record hordered latencyMs rfl rfl
    · exact h.record hordered latencyMs rfl rfl

omit [LinearOrder D] in
/-- A call for another series. -/
theorem series_call_of_ne {call : RegistryCall D} (hkey : call.key ≠ some key) :
    (registry.call doubles call).series doubles key = registry.series doubles key := by
  have hget := getElem?_call doubles registry call key
  rw [if_neg hkey] at hget
  rw [Registry.series, Registry.series, Std.TreeMap.getD_eq_getD_getElem?,
    Std.TreeMap.getD_eq_getD_getElem?, hget]

theorem recorded_other (h : Recorded doubles xs (registry.series doubles key))
    {call : RegistryCall D} (hkey : call.key ≠ some key) :
    Recorded doubles (xs ++ (call.latency? key).toList)
      ((registry.call doubles call).series doubles key) := by
  have hnone : call.latency? key = none := by
    cases call with
    | incrementError company endpoint errorType => rfl
    | recordRequest key' latencyMs bytesIn bytesOut tokensIn tokensOut streamEvents errorType =>
      exact if_neg fun heq => hkey (congrArg some heq)
  rw [series_call_of_ne hkey, hnone, Option.toList_none, List.append_nil]
  exact h

theorem Follows.next (hordered : doubles.Ordered) {calls : List (RegistryCall D)}
    (h : Follows doubles calls key registry) (call : RegistryCall D) :
    Follows doubles (calls ++ [call]) key (registry.call doubles call) := by
  obtain ⟨hstandard, hrecorded, hexists⟩ := h
  have hget := getElem?_call doubles registry call key
  refine ⟨standard_call hstandard call, ?_, ?_⟩
  · rw [latencies_append]
    by_cases hkey : call.key = some key
    · exact recorded_call hordered hstandard hrecorded hkey
    · exact recorded_other hrecorded hkey
  · intro htouched
    by_cases hkey : call.key = some key
    · exact ⟨_, hget.trans (if_pos hkey)⟩
    · rw [hget, if_neg hkey]
      obtain ⟨call', hmem, hkey'⟩ := htouched
      rcases List.mem_append.mp hmem with hearlier | hlast
      · exact hexists ⟨call', hearlier, hkey'⟩
      · cases List.mem_singleton.mp hlast
        exact absurd hkey' hkey

theorem follows_calls (hordered : doubles.Ordered) (calls : List (RegistryCall D))
    (key : SeriesKey) : Follows doubles calls key (calls.foldl (Registry.call doubles) {}) := by
  suffices hall : ∀ (before : List (RegistryCall D)) (registry : Registry D),
      Follows doubles before key registry →
        Follows doubles (before ++ calls) key (calls.foldl (Registry.call doubles) registry) by
    apply hall [] {}
    refine ⟨fun _ _ hget => by simp at hget, recorded_none (by simp), ?_⟩
    intro htouched
    obtain ⟨call, hmem, -⟩ := htouched
    cases hmem
  induction calls with
  | nil =>
    intro before registry h
    rw [List.append_nil]
    exact h
  | cons call calls ih =>
    intro before registry h
    have hrest := ih (before ++ [call]) _ (h.next hordered call)
    rw [List.append_assoc, List.singleton_append] at hrest
    exact hrest

/-- The values up to the cell number `i`, the last cell included. -/
def valuesUpTo (doubles : Doubles D) (xs : List D) (i : Nat) : Nat :=
  xs.countP fun latencyMs => decide (cell doubles.buckets latencyMs < i + 1)

theorem Recorded.sum_take (h : Recorded doubles xs series) (i : Nat) :
    (series.latency.counts.take (i + 1)).sum = (valuesUpTo doubles xs i : UInt64) := by
  have hlt : doubles.buckets.length <
      (List.replicate (doubles.buckets.length + 1) (0 : UInt64)).length := by
    rw [List.length_replicate]
    exact Nat.lt_succ_self _
  rw [h.counts, sum_take_foldl_tally xs (i + 1) _ hlt, List.take_replicate, List.sum_replicate,
    nsmul_zero, zero_add]
  rfl

theorem Recorded.cumulative (h : Recorded doubles xs series) (i : Nat) :
    series.latency.cumulative i = (valuesUpTo doubles xs i : UInt64) := by
  rw [← h.sum_take i]
  exact List.sum_eq_foldl.symm

/-- With the count of the last cell, all values are counted. -/
theorem Recorded.cumulative_last (h : Recorded doubles xs series) :
    series.latency.cumulative (doubles.buckets.length - 1) + series.latency.counts.getLastD 0 =
      (valuesUpTo doubles xs doubles.buckets.length : UInt64) := by
  have hlength := h.length_counts
  have hne : series.latency.counts ≠ [] := by
    intro hnil
    rw [hnil] at hlength
    cases hlength
  have hinit : series.latency.counts.dropLast =
      series.latency.counts.take (doubles.buckets.length - 1 + 1) := by
    rw [List.dropLast_eq_take, hlength]
    rfl
  have hlast : series.latency.counts.getLastD 0 = series.latency.counts.getLast hne := by
    rw [List.getLastD_eq_getLast?, List.getLast?_eq_some_getLast hne, Option.getD_some]
  have hall : series.latency.counts.take (doubles.buckets.length + 1) = series.latency.counts :=
    List.take_of_length_le hlength.le
  have hcumulative : series.latency.cumulative (doubles.buckets.length - 1) =
      (series.latency.counts.take (doubles.buckets.length - 1 + 1)).sum :=
    List.sum_eq_foldl.symm
  rw [hcumulative, ← hinit, hlast, ← h.sum_take, hall]
  conv_rhs => rw [← List.dropLast_append_getLast hne]
  rw [List.sum_append, List.sum_singleton]

/-- The count under the label number `i`. -/
theorem Recorded.bucketCounts (h : Recorded doubles xs series) {i : Nat} {le : Bytes}
    (hlabel : (bucketLabels doubles)[i]? = some le) :
    (le, (valuesUpTo doubles xs i : UInt64)) ∈ series.latency.bucketCounts doubles := by
  rw [Histogram.bucketCounts, h.buckets]
  rw [bucketLabels, List.getElem?_append, List.length_map] at hlabel
  split at hlabel
  case isTrue hlt =>
    rw [List.getElem?_map, Option.map_eq_some_iff] at hlabel
    obtain ⟨bound, hbound, rfl⟩ := hlabel
    apply List.mem_append_left
    apply List.mem_map.mpr
    refine ⟨(bound, i), List.mk_mem_zipIdx_iff_getElem?.mpr hbound, ?_⟩
    exact Prod.ext rfl (h.cumulative i)
  case isFalse hge =>
    obtain ⟨hi, hle⟩ := List.getElem?_eq_some_iff.mp hlabel
    have hlast : i = doubles.buckets.length := by
      rw [List.length_singleton] at hi
      omega
    subst hlast
    rw [List.getElem_singleton] at hle
    rw [h.cumulative_last, hle]
    exact List.mem_append_right _ (List.mem_singleton_self _)

omit [LinearOrder D] in
theorem prints_of_counter (hstandard : registry.Standard doubles) {metric : Metric}
    (hmetric : metric ≠ .latencySum) {value : UInt64}
    (hcounter : registry.counter doubles key metric = some value) :
    Prints (renderPrometheus doubles registry) key metric value.toNat := by
  refine ⟨_, parse_renderPrometheus hstandard, fun t => ?_⟩
  have hsample := (counter_of_row hstandard hmetric value).mpr hcounter
  constructor
  · intro ht
    obtain ⟨series, hseries, hrow⟩ := mem_samples_iff.mp ht
    obtain ⟨series', hseries', hrow'⟩ := mem_samples_iff.mp hsample
    cases hseries.symm.trans hseries'
    have hsame := List.inj_on_of_nodup_map (nodup_rows (hstandard key series hseries)) hrow hrow' rfl
    exact congrArg Prod.snd hsame
  · rintro rfl
    exact hsample

omit [LinearOrder D] in
/-- A counter that has not wrapped around. -/
theorem prints_of_cast (hstandard : registry.Standard doubles) {metric : Metric}
    (hmetric : metric ≠ .latencySum) {n : Nat} (hn : n < 2 ^ 64)
    (hcounter : registry.counter doubles key metric = some (n : UInt64)) :
    Prints (renderPrometheus doubles registry) key metric n := by
  have hprints := prints_of_counter hstandard hmetric hcounter
  have hvalue : (n : UInt64).toNat = n := UInt64.toNat_ofNat_of_lt' hn
  rwa [hvalue] at hprints

/-- The value under the label number `i`. -/
theorem prints_bucket (hstandard : registry.Standard doubles) (hseries : registry[key]? = some series)
    (h : Recorded doubles xs series) (hxs : xs.length < 2 ^ 64) {i : Nat} {le : Bytes}
    (hlabel : (bucketLabels doubles)[i]? = some le) :
    Prints (renderPrometheus doubles registry) key (.latencyBucket le) (valuesUpTo doubles xs i) := by
  have hn : valuesUpTo doubles xs i < 2 ^ 64 :=
    Nat.lt_of_le_of_lt List.countP_le_length hxs
  apply prints_of_cast hstandard (by intro hsum; cases hsum) hn
  rw [Registry.counter, hseries, Option.bind_some, SeriesMetrics.counter]
  exact (lookup_iff_mem (nodup_bucketCounts h.buckets) _ _).mpr (h.bucketCounts hlabel)

/-- Up to a bound, the values are those that do not exceed it. -/
theorem valuesUpTo_bound (hordered : doubles.Ordered) {i : Nat} {bound : D}
    (hbound : doubles.buckets[i]? = some bound) :
    valuesUpTo doubles xs i = xs.countP fun latencyMs => decide (latencyMs ≤ bound) := by
  apply List.countP_congr
  intro latencyMs _
  rw [decide_eq_true_iff, decide_eq_true_iff, Nat.lt_succ_iff]
  exact cell_le_iff hordered.rising hbound latencyMs

theorem valuesUpTo_last : valuesUpTo doubles xs doubles.buckets.length = xs.length := by
  apply List.countP_eq_length.mpr
  intro latencyMs _
  rw [decide_eq_true_iff, Nat.lt_succ_iff]
  exact cell_le_length doubles.buckets latencyMs

theorem valuesUpTo_mono {i j : Nat} (h : i ≤ j) :
    valuesUpTo doubles xs i ≤ valuesUpTo doubles xs j := by
  apply List.countP_mono_left
  intro latencyMs _ hi
  rw [decide_eq_true_iff] at hi ⊢
  omega

omit [LinearOrder D] in
theorem getElem?_bucketLabels {i : Nat} {bound : D} (hbound : doubles.buckets[i]? = some bound) :
    (bucketLabels doubles)[i]? = some (doubles.format bound) := by
  obtain ⟨hi, -⟩ := List.getElem?_eq_some_iff.mp hbound
  rw [bucketLabels, List.getElem?_append_left (by rwa [List.length_map]), List.getElem?_map, hbound]
  rfl

omit [LinearOrder D] in
theorem bucketLabels_last :
    (bucketLabels doubles)[doubles.buckets.length]? = some (ascii "+Inf") := by
  rw [bucketLabels, List.getElem?_append_right (by rw [List.length_map]), List.length_map,
    Nat.sub_self]
  rfl

theorem tallied_of_recorded (hordered : doubles.Ordered) (hstandard : registry.Standard doubles)
    (hseries : registry[key]? = some series) (h : Recorded doubles xs series)
    (hxs : xs.length < 2 ^ 64) : Tallied doubles (renderPrometheus doubles registry) key xs := by
  constructor
  case bucket =>
    intro bound hmem
    obtain ⟨i, hbound⟩ := List.mem_iff_getElem?.mp hmem
    rw [← valuesUpTo_bound hordered hbound]
    exact prints_bucket hstandard hseries h hxs (getElem?_bucketLabels hbound)
  case infinite =>
    have hlast := prints_bucket hstandard hseries h hxs bucketLabels_last
    rwa [valuesUpTo_last] at hlast
  case count =>
    apply prints_of_cast hstandard (by intro hsum; cases hsum) hxs
    rw [Registry.counter, hseries, Option.bind_some, SeriesMetrics.counter, h.totalCount]
  case total =>
    apply prints_of_cast hstandard (by intro hsum; cases hsum) hxs
    rw [Registry.counter, hseries, Option.bind_some, SeriesMetrics.counter, h.requestsTotal]
  case rising =>
    intro i j le le' n n' hij hi hj hn hn'
    rw [hn.unique (prints_bucket hstandard hseries h hxs hi),
      hn'.unique (prints_bucket hstandard hseries h hxs hj)]
    exact valuesUpTo_mono hij

/-- In every run of calls, the text has the tally of the latencies of every series. -/
theorem histogram_tallied (hordered : doubles.Ordered) {calls : List (RegistryCall D)}
    (hcalls : calls.length < 2 ^ 64) (htouched : ∃ call ∈ calls, call.key = some key) :
    Tallied doubles (renderPrometheus doubles (calls.foldl (Registry.call doubles) {})) key
      (latencies key calls) := by
  obtain ⟨hstandard, hrecorded, hexists⟩ := follows_calls hordered calls key
  obtain ⟨series, hseries⟩ := hexists htouched
  rw [series_of_some hstandard hseries] at hrecorded
  have hlength : (latencies key calls).length ≤ calls.length := List.length_filterMap_le _ _
  exact tallied_of_recorded hordered hstandard hseries hrecorded (hlength.trans_lt hcalls)

end

theorem ordered_rational : (default : Doubles ℚ).Ordered where
  le _ _ := rfl
  rising := by decide +kernel

theorem histogram_tallied_rational :
    let key : SeriesKey := ⟨ascii "acme", ascii "/chat"⟩
    let calls : List (RegistryCall ℚ) := [
      .incrementError (ascii "acme") (ascii "/chat") (ascii "timeout"),
      .recordRequest key 3 0 0 0 0 0 [],
      .recordRequest key 1000 0 0 0 0 0 (ascii "http_5xx")]
    latencies key calls = [3, 1000] ∧
      Tallied default (renderPrometheus default (calls.foldl (Registry.call default) {})) key
        (latencies key calls) := by
  intro key calls
  refine ⟨by decide +kernel, histogram_tallied ordered_rational (by decide) ?_⟩
  exact ⟨_, List.mem_cons_self, by decide⟩

end SuperVoice.Core
