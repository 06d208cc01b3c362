import SuperVoice.Core.Recording

/-! The observations of all requests, which record in the one registry. -/
namespace SuperVoice.Core
open Bytes Transition

/-- The counters that calls add to. The buckets are cumulative, and the sum is not an integer. -/
def Metric.Counts : Metric → Prop
  | .latencyBucket _ | .latencySum => False
  | _ => True

/-- What a call adds to a counter of a series. -/
def RegistryCall.adds {D : Type} (key : SeriesKey) (metric : Metric) : RegistryCall D → Nat
  | .incrementError company endpoint errorType =>
    if metric = .errorsTotal errorType ∧ errorType ≠ [] ∧ ⟨company, endpoint⟩ = key then 1 else 0
  | .recordRequest key' _ bytesIn bytesOut tokensIn tokensOut streamEvents errorType =>
    if key' = key then
      match metric with
      | .requestsTotal | .latencyCount => 1
      | .bytesIn => bytesIn.toNat
      | .bytesOut => bytesOut.toNat
      | .tokensIn => tokensIn.toNat
      | .tokensOut => tokensOut.toNat
      | .streamEventsTotal => streamEvents.toNat
      | .errorsTotal type => if type = errorType ∧ errorType ≠ [] then 1 else 0
      | .latencyBucket _ | .latencySum => 0
    else 0

section Counting
variable {D : Type} {doubles : Doubles D} {registry : Registry D} {key : SeriesKey}
  {metric : Metric}

/-- A counter that is not there has counted nothing. -/
theorem counter_series (hstandard : registry.Standard doubles) (hcounts : metric.Counts) :
    (registry.counter doubles key metric).getD 0 =
      ((registry.series doubles key).counter doubles metric).getD 0 := by
  rw [Registry.counter]
  cases hseries : registry[key]? with
  | none =>
    rw [series_of_none hseries]
    cases metric with
    | errorsTotal type => simp [SeriesMetrics.counter]
    | latencyBucket | latencySum => cases hcounts
    | _ => rfl
  | some series => rw [series_of_some hstandard hseries, Option.bind_some]

theorem getD_countError (series : SeriesMetrics D) (errorType type : Bytes) :
    ((series.countError errorType).counter doubles (.errorsTotal type)).getD 0 =
      (series.counter doubles (.errorsTotal type)).getD 0 +
        UInt64.ofNat (if type = errorType then 1 else 0) := by
  have hcompare : compare errorType type = .eq ↔ errorType = type :=
    Std.LawfulEqCmp.compare_eq_iff_eq
  rw [SeriesMetrics.counter, SeriesMetrics.counter, SeriesMetrics.countError,
    Std.TreeMap.getElem?_insert]
  by_cases htype : errorType = type
  · rw [if_pos (hcompare.mpr htype), if_pos htype.symm, Std.TreeMap.getD_eq_getD_getElem?, htype]
    rfl
  · rw [if_neg (mt hcompare.mp htype), if_neg (Ne.symm htype)]
    exact (UInt64.add_zero _).symm

theorem adds_of_ne {call : RegistryCall D} (hkey : call.key ≠ some key) :
    call.adds key metric = 0 := by
  cases call with
  | incrementError company endpoint errorType =>
    refine if_neg fun h => hkey ?_
    rw [RegistryCall.key, if_neg h.2.1, h.2.2]
  | recordRequest key' latencyMs bytesIn bytesOut tokensIn tokensOut streamEvents errorType =>
    exact if_neg fun h => hkey (congrArg some h)

/-- A call adds to the counters of its series. -/
theorem counter_call (hstandard : registry.Standard doubles) (hcounts : metric.Counts)
    (call : RegistryCall D) : ((registry.call doubles call).counter doubles key metric).getD 0 =
      (registry.counter doubles key metric).getD 0 + UInt64.ofNat (call.adds key metric) := by
  have hget := getElem?_call doubles registry call key
  by_cases hkey : call.key = some key
  · rw [if_pos hkey] at hget
    rw [counter_series hstandard hcounts, Registry.counter, hget, Option.bind_some]
    cases call with
    | incrementError company endpoint errorType =>
      have hsome : errorType ≠ [] := by
        intro hnil
        rw [RegistryCall.key, if_pos hnil] at hkey
        cases hkey
      rw [RegistryCall.key, if_neg hsome] at hkey
      cases hkey
      cases metric with
      | errorsTotal type =>
        simp only [RegistryCall.adds, Metric.errorsTotal.injEq, hsome, ne_eq, not_false_eq_true,
          and_true]
        exact getD_countError _ errorType type
      | latencyBucket | latencySum => cases hcounts
      | _ => exact (UInt64.add_zero _).symm
    | recordRequest key' latencyMs bytesIn bytesOut tokensIn tokensOut streamEvents errorType =>
      cases hkey
      cases metric with
      | errorsTotal type =>
        simp only [RegistryCall.adds, if_true]
        split
        case isTrue hnil =>
          rw [if_neg fun h => h.2 hnil]
          exact (UInt64.add_zero _).symm
        case isFalse hsome =>
          simp only [hsome, ne_eq, not_false_eq_true, and_true]
          exact getD_countError _ errorType type
      | latencyBucket | latencySum => cases hcounts
      | _ =>
        simp only [RegistryCall.adds, if_true]
        split <;> simp [SeriesMetrics.counter, SeriesMetrics.countError, Histogram.record]
  · rw [if_neg hkey] at hget
    rw [Registry.counter, hget, adds_of_ne hkey]
    exact (UInt64.add_zero _).symm

/-- The counters are the sums over all calls; they wrap around at 2 ^ 64. -/
theorem counter_calls (hcounts : metric.Counts) (calls : List (RegistryCall D)) :
    ((calls.foldl (Registry.call doubles) {}).counter doubles key metric).getD 0 =
      UInt64.ofNat (calls.map (RegistryCall.adds key metric)).sum := by
  induction calls using List.reverseRecOn with
  | nil => rfl
  | append_singleton calls call ih =>
    rw [List.foldl_append, List.foldl_cons, List.foldl_nil,
      counter_call (standard_calls calls) hcounts, ih, List.map_append, List.sum_append,
      UInt64.ofNat_add, List.map_singleton, List.sum_singleton]

end Counting

/-- The observations that `startRequest` has made, and their registry. -/
structure Requests (D : Type) where
  registry : Registry D := {}
  /-- An observation starts every step from the registry as it is then. -/
  observations : List (ObservedRequest × RequestObservation D) := []
  /-- The calls of `incrementError`. -/
  errors : List (RegistryCall D) := []

inductive RequestsStep (D : Type) where
  | startRequest (request : ObservedRequest)
  | incrementError (company endpoint errorType : Bytes)
  | observe (k : Nat) (a : ObservationStep D)

/-- A step that an observation takes of itself. -/
def ObservationStep.isOwn {D : Type} : ObservationStep D → Bool
  | .other _ => false
  | _ => true

/-- The calls with which an observation can record its request. -/
def ObservedRequest.Records {D : Type} (request : ObservedRequest) : RegistryCall D → Prop
  | .incrementError .. => False
  | .recordRequest key _ bytesIn .. => key = request.key ∧ bytesIn = request.bytesIn

namespace RequestObservation
variable {D : Type} {doubles : Doubles D} {request : ObservedRequest}
  {s s' : RequestObservation D}

theorem records_of_recorded {call : Completion} {latencyMs : D} {loaded : Loaded}
    {call' : RegistryCall D} (h : recorded? request call latencyMs loaded = some call') :
    request.Records call' := by
  obtain ⟨tokensIn, -, h⟩ := Option.bind_eq_some_iff.mp h
  obtain ⟨tokensOut, -, h⟩ := Option.bind_eq_some_iff.mp h
  obtain ⟨streamEvents, -, h⟩ := Option.bind_eq_some_iff.mp h
  cases h
  exact ⟨rfl, rfl⟩

/-- A step of an observation leaves the registry alone or records the request there. -/
theorem own_step {a : ObservationStep D} (hown : a.isOwn = true)
    (hstep : step doubles request s a = some s') :
    (s'.own = s.own ∧ s'.registry = s.registry) ∨
      ∃ call, request.Records call ∧ s'.own = s.own ++ [call] ∧
        s'.registry = s.registry.call doubles call := by
  cases a with
  | add counter count =>
    cases hstep
    exact .inl ⟨rfl, rfl⟩
  | complete i call =>
    obtain ⟨-, rfl⟩ := complete_inv hstep
    exact .inl ⟨rfl, rfl⟩
  | destroy i =>
    obtain ⟨-, rfl⟩ := destroy_inv hstep
    exact .inl ⟨rfl, rfl⟩
  | next i operation =>
    have hprogress := next_progress hstep
    generalize s.threads i = thread at hprogress
    cases hprogress with
    | records hrecorded => exact .inr ⟨_, records_of_recorded hrecorded, rfl, rfl⟩
    | _ => exact .inl ⟨rfl, rfl⟩
  | other call => cases hown

end RequestObservation

namespace Requests
variable {D : Type}

/-- What the observations have recorded. -/
def records (s : Requests D) : List (RegistryCall D) :=
  s.observations.flatMap fun p => p.2.own

def step (doubles : Doubles D) (s : Requests D) : RequestsStep D → Option (Requests D)
  | .startRequest request =>
    some { s with observations := s.observations ++ [(request, .start request)] }
  | .incrementError company endpoint errorType =>
    let call := .incrementError company endpoint errorType
    some { s with registry := s.registry.call doubles call, errors := s.errors ++ [call] }
  | .observe k a =>
    if a.isOwn then do
      let (request, observation) ← s.observations[k]?
      let observation ← RequestObservation.step doubles request
        { observation with registry := s.registry } a
      return { s with
        registry := observation.registry
        observations := s.observations.set k (request, observation) }
    else none

/-- Every observation lets one thread record its request, and the registry is what comes of these
calls and of the errors that are counted beside them. -/
structure Sound (doubles : Doubles D) (s : Requests D) : Prop where
  flag : ∀ p ∈ s.observations, Exchange.Sound p.2.view
  own : ∀ p ∈ s.observations, ∀ call ∈ p.2.own, p.1.Records call
  beside : ∀ call ∈ s.errors, ∀ key, call.latency? key = none
  logged : ∃ calls : List (RegistryCall D), s.registry = calls.foldl (Registry.call doubles) {} ∧
    calls.Perm (s.errors ++ s.records)

section Steps
variable {doubles : Doubles D} {s s' : Requests D} {k : Nat} {request : ObservedRequest}
  {observation observation' : RequestObservation D}

theorem observe_inv {a : ObservationStep D} (h : step doubles s (.observe k a) = some s') :
    ∃ request observation observation', a.isOwn = true ∧
      s.observations[k]? = some (request, observation) ∧
      RequestObservation.step doubles request { observation with registry := s.registry } a =
        some observation' ∧
      s' = { s with
        registry := observation'.registry
        observations := s.observations.set k (request, observation') } := by
  rw [step] at h
  split at h
  case isTrue hown =>
    obtain ⟨⟨request, observation⟩, hget, h⟩ := Option.bind_eq_some_iff.mp h
    obtain ⟨observation', hstep, h⟩ := Option.bind_eq_some_iff.mp h
    exact ⟨request, observation, observation', hown, hget, hstep, (Option.some.inj h).symm⟩
  case isFalse => cases h

/-- An element whose list grows brings just that to the lists of all. -/
theorem flatMap_set_perm {α β : Type*} {f : α → List β} {l : List α} {a b : α} {more : List β}
    (hget : l[k]? = some a) (hmore : f b = f a ++ more) :
    ((l.set k b).flatMap f).Perm (l.flatMap f ++ more) := by
  induction l generalizing k with
  | nil => cases hget
  | cons c l ih =>
    cases k with
    | zero =>
      cases hget
      rw [List.set_cons_zero, List.flatMap_cons, List.flatMap_cons, hmore, List.append_assoc,
        List.append_assoc]
      exact (List.perm_append_comm).append_left _
    | succ k =>
      rw [List.set_cons_succ, List.flatMap_cons, List.flatMap_cons, List.append_assoc]
      exact (ih hget).append_left _

theorem Sound.observe (h : Sound doubles s) (hget : s.observations[k]? = some (request, observation))
    {a : ObservationStep D} (hown : a.isOwn = true)
    (hstep : RequestObservation.step doubles request
      { observation with registry := s.registry } a = some observation') :
    Sound doubles { s with
      registry := observation'.registry
      observations := s.observations.set k (request, observation') } := by
  have hmem : (request, observation) ∈ s.observations := List.mem_of_getElem? hget
  obtain ⟨calls, hregistry, hperm⟩ := h.logged
  have hcases := RequestObservation.own_step hown hstep
  refine ⟨fun p hp => ?_, fun p hp call hcall => ?_, h.beside, ?_⟩
  · rcases List.mem_or_eq_of_mem_set hp with hold | rfl
    · exact h.flag p hold
    · have hflag : Exchange.Sound { observation with registry := s.registry }.view :=
        h.flag _ hmem
      exact RequestObservation.sound_step hflag hstep
  · rcases List.mem_or_eq_of_mem_set hp with hold | rfl
    · exact h.own p hold call hcall
    · rcases hcases with ⟨hsame, -⟩ | ⟨call', hrecords, hsame, -⟩
      · exact h.own _ hmem call (hsame ▸ hcall)
      · rw [show ((request, observation').2).own = observation.own ++ [call'] from hsame] at hcall
        rcases List.mem_append.mp hcall with hearlier | hlast
        · exact h.own _ hmem call hearlier
        · cases List.mem_singleton.mp hlast
          exact hrecords
  · rcases hcases with ⟨hsame, hkept⟩ | ⟨call, -, hsame, hcalled⟩
    · refine ⟨calls, hkept.trans hregistry, hperm.trans (.append_left _ ?_)⟩
      have hset := flatMap_set_perm (f := fun p : ObservedRequest × RequestObservation D => p.2.own)
        (b := (request, observation')) hget
        (show observation'.own = observation.own ++ [] from hsame.trans (List.append_nil _).symm)
      rw [List.append_nil] at hset
      exact hset.symm
    · refine ⟨calls ++ [call], ?_, ?_⟩
      · rw [List.foldl_append, ← hregistry]
        exact hcalled
      · have hset := flatMap_set_perm
          (f := fun p : ObservedRequest × RequestObservation D => p.2.own)
          (b := (request, observation')) hget hsame
        refine (hperm.append_right _).trans ?_
        rw [List.append_assoc]
        exact hset.symm.append_left _

theorem Sound.step {a : RequestsStep D} (h : Sound doubles s)
    (hstep : step doubles s a = some s') : Sound doubles s' := by
  cases a with
  | startRequest request =>
    cases hstep
    obtain ⟨calls, hregistry, hperm⟩ := h.logged
    refine ⟨fun p hp => ?_, fun p hp => ?_, h.beside, calls, hregistry, ?_⟩
    · rcases List.mem_append.mp hp with hold | hnew
      · exact h.flag p hold
      · cases List.mem_singleton.mp hnew
        exact Exchange.sound_start
    · rcases List.mem_append.mp hp with hold | hnew
      · exact h.own p hold
      · cases List.mem_singleton.mp hnew
        exact fun call hcall => by cases hcall
    · rw [records, List.flatMap_append, List.flatMap_singleton]
      exact hperm.trans (.of_eq (congrArg (s.errors ++ ·) (List.append_nil _).symm))
  | incrementError company endpoint errorType =>
    cases hstep
    obtain ⟨calls, hregistry, hperm⟩ := h.logged
    refine ⟨h.flag, h.own, fun call hcall => ?_,
      calls ++ [.incrementError company endpoint errorType], ?_, ?_⟩
    · rcases List.mem_append.mp hcall with hearlier | hlast
      · exact h.beside call hearlier
      · cases List.mem_singleton.mp hlast
        exact fun key => rfl
    · rw [List.foldl_append, ← hregistry]
      rfl
    · refine (hperm.append_right _).trans ?_
      show ((s.errors ++ s.records) ++ _).Perm ((s.errors ++ _) ++ s.records)
      rw [List.append_assoc, List.append_assoc]
      exact (List.perm_append_comm).append_left _
  | observe k a =>
    obtain ⟨request, observation, observation', hown, hget, hobserve, rfl⟩ := observe_inv hstep
    exact h.observe hget hown hobserve

theorem sound_reach (h : Reachable (step doubles) {} s) : Sound doubles s := by
  refine h.invariant (P := Sound doubles) ⟨?_, ?_, ?_, ?_⟩ fun s a s' hs _ hstep => hs.step hstep
  · exact fun p hp => by cases hp
  · exact fun p hp => by cases hp
  · exact fun p hp => by cases hp
  · exact ⟨[], rfl, .nil⟩

/-- The requests of a series that have been recorded. -/
def recordedOf (s : Requests D) (key : SeriesKey) : Nat :=
  s.observations.countP fun p => p.1.key = key ∧ p.2.own ≠ []

theorem latency_of_records {call : RegistryCall D} (h : request.Records call) (key : SeriesKey) :
    (call.latency? key).isSome = decide (request.key = key) := by
  cases call with
  | incrementError company endpoint errorType => cases h
  | recordRequest key' latencyMs bytesIn bytesOut tokensIn tokensOut streamEvents errorType =>
    obtain ⟨rfl, -⟩ := h
    rw [RegistryCall.latency?]
    split <;> simp_all

theorem Sound.own_length (h : Sound doubles s) {p : ObservedRequest × RequestObservation D}
    (hp : p ∈ s.observations) : p.2.own = [] ∨ ∃ call, p.1.Records call ∧ p.2.own = [call] := by
  have hle : p.2.own.length ≤ 1 := (h.flag p hp).phase.wins_le_one
  cases hown : p.2.own with
  | nil => exact .inl rfl
  | cons call calls =>
    rw [hown, List.length_cons] at hle
    have hnil : calls = [] := List.length_eq_zero_iff.mp (by omega)
    subst hnil
    exact .inr ⟨call, h.own p hp call (hown ▸ List.mem_singleton_self call), rfl⟩

/-- Every request that is recorded brings one latency to its series. -/
theorem length_latencies {observations : List (ObservedRequest × RequestObservation D)}
    (h : ∀ p ∈ observations, p.2.own = [] ∨ ∃ call, p.1.Records call ∧ p.2.own = [call])
    (key : SeriesKey) : (latencies key (observations.flatMap fun p => p.2.own)).length =
      observations.countP fun p => p.1.key = key ∧ p.2.own ≠ [] := by
  induction observations with
  | nil => rfl
  | cons p observations ih =>
    have hrest := ih fun q hq => h q (List.mem_cons_of_mem _ hq)
    rw [List.flatMap_cons, latencies, List.filterMap_append, List.length_append,
      List.countP_cons]
    rw [latencies] at hrest
    rw [hrest, Nat.add_comm]
    congr 1
    rcases h p List.mem_cons_self with hnone | ⟨call, hrecords, hone⟩
    · simp [hnone]
    · have hlatency := latency_of_records hrecords key
      rw [hone, List.filterMap_cons, List.filterMap_nil]
      cases hcall : call.latency? key with
      | none =>
        rw [hcall, Option.isSome_none] at hlatency
        simp [of_decide_eq_false hlatency.symm]
      | some latencyMs =>
        rw [hcall, Option.isSome_some] at hlatency
        simp [of_decide_eq_true hlatency.symm]

end Steps

section Ordered
variable [LinearOrder D] {doubles : Doubles D} {s : Requests D} {text : Bytes}

theorem tallied_perm {key : SeriesKey} {xs ys : List D} (h : Tallied doubles text key xs)
    (hperm : xs.Perm ys) : Tallied doubles text key ys := by
  have hlength := hperm.length_eq
  refine ⟨fun bound hbound => ?_, ?_, ?_, ?_, h.rising⟩
  · rw [← hperm.countP_eq]
    exact h.bucket bound hbound
  · exact hlength ▸ h.infinite
  · exact hlength ▸ h.count
  · exact hlength ▸ h.total

/-- Every observation records its request at most once, and once when all that has been started on
it is through. The counters of every series are the sums of what has been recorded and of the
errors that were counted beside, and a scrape has the tally of the latencies of its requests. -/
theorem scraped (hordered : doubles.Ordered) (h : Reachable (step doubles) {} s)
    (hroom : s.observations.length < 2 ^ 64) :
    (∀ p ∈ s.observations, p.2.RecordedOnce ∧ ∀ call ∈ p.2.own, p.1.Records call) ∧
    (∀ key metric, metric.Counts → (s.registry.counter doubles key metric).getD 0 =
      UInt64.ofNat ((s.errors ++ s.records).map (RegistryCall.adds key metric)).sum) ∧
    (∀ key, (∃ call ∈ s.errors ++ s.records, call.key = some key) →
      Tallied doubles (renderPrometheus doubles s.registry) key (latencies key s.records)) ∧
    (∀ key, (latencies key s.records).length = s.recordedOf key) ∧
    ((∀ p ∈ s.observations, p.2.Finished) →
      ∀ key, s.recordedOf key = s.observations.countP fun p => p.1.key = key) := by
  have hsound := sound_reach h
  obtain ⟨calls, hregistry, hperm⟩ := hsound.logged
  have hcount : ∀ key, (latencies key s.records).length = s.recordedOf key :=
    length_latencies fun p hp => hsound.own_length hp
  have honce : ∀ p ∈ s.observations, p.2.RecordedOnce := fun p hp =>
    RequestObservation.recordedOnce_of_sound (hsound.flag p hp)
  refine ⟨fun p hp => ⟨honce p hp, hsound.own p hp⟩, fun key metric hcounts => ?_,
    fun key htouched => ?_, hcount, fun hfinished key => ?_⟩
  · rw [hregistry, counter_calls hcounts, (hperm.map _).sum_eq]
  · obtain ⟨call, hcall, hkey⟩ := htouched
    obtain ⟨hstandard, hrecorded, hexists⟩ := follows_calls hordered calls key
    obtain ⟨series, hseries⟩ := hexists ⟨call, hperm.mem_iff.mpr hcall, hkey⟩
    have hnone : latencies key s.errors = [] :=
      List.filterMap_eq_nil_iff.mpr fun call hcall => hsound.beside call hcall key
    have hlatencies : (latencies key calls).Perm (latencies key s.records) := by
      have hfilter : (latencies key calls).Perm (latencies key (s.errors ++ s.records)) :=
        hperm.filterMap _
      have hsplit : latencies key (s.errors ++ s.records) =
          latencies key s.errors ++ latencies key s.records := List.filterMap_append
      rwa [hsplit, hnone, List.nil_append] at hfilter
    have hless : (latencies key calls).length < 2 ^ 64 := by
      rw [hlatencies.length_eq, hcount]
      exact List.countP_le_length.trans_lt hroom
    rw [series_of_some hstandard hseries] at hrecorded
    rw [hregistry]
    exact tallied_perm (tallied_of_recorded hordered hstandard hseries hrecorded hless) hlatencies
  · apply List.countP_congr
    intro p hp
    have hne : p.2.own ≠ [] := by
      intro hnil
      have hone := (honce p hp).finished (hfinished p hp)
      rw [hnil] at hone
      cases hone
    simp [hne]

end Ordered

/-- One request is completed and one is abandoned, with their steps in turns. -/
def sampleSteps : List (RequestsStep ℚ) :=
  [.startRequest RequestObservation.sampleRequest, .startRequest RequestObservation.sampleRequest,
    .observe 0 (.complete 0 ⟨200, 10, 7, 0, []⟩), .observe 1 (.destroy 0),
    .observe 0 (.next 0 (.exchange 3)), .observe 1 (.next 0 .check),
    .incrementError (ascii "acme") (ascii "/chat") (ascii "timeout"),
    .observe 1 (.next 0 (.read .tokensOut)), .observe 0 (.next 0 .store),
    .observe 0 (.next 0 .store), .observe 1 (.next 0 (.read .streamEvents)),
    .observe 1 (.next 0 .call), .observe 1 (.next 0 (.exchange 1000))] ++
  (RequestObservation.loads 0).map (.observe 0) ++
  [.observe 1 (.next 0 .store), .observe 1 (.next 0 .store)] ++
  (RequestObservation.loads 0).map (.observe 1)

theorem scraped_sample : ∃ s : Requests ℚ,
    s.records.map (RegistryCall.adds RequestObservation.sampleRequest.key .tokensOut) = [7, 0] ∧
      s.recordedOf RequestObservation.sampleRequest.key = 2 ∧
      Tallied default (renderPrometheus default s.registry) RequestObservation.sampleRequest.key
        (latencies RequestObservation.sampleRequest.key s.records) := by
  have hrun : (run (step default) {} sampleSteps).any (fun s =>
      s.records.map (RegistryCall.adds RequestObservation.sampleRequest.key .tokensOut) == [7, 0] &&
        s.recordedOf RequestObservation.sampleRequest.key == 2 &&
        s.observations.length == 2 &&
        (s.errors ++ s.records).any (fun call =>
          call.key = some RequestObservation.sampleRequest.key)) = true := by decide +kernel
  obtain ⟨s, hs, hend⟩ := exists_reachable hrun
  simp only [Bool.and_eq_true, beq_iff_eq, List.any_eq_true, decide_eq_true_eq] at hend
  obtain ⟨⟨⟨htokens, hrecorded⟩, hlength⟩, htouched⟩ := hend
  have hroom : s.observations.length < 2 ^ 64 := by
    rw [hlength]
    decide
  obtain ⟨-, -, htallied, -⟩ := scraped ordered_rational hs hroom
  exact ⟨s, htokens, hrecorded, htallied _ htouched⟩

end Requests

end SuperVoice.Core
