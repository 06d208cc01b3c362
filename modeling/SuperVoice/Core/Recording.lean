import SuperVoice.Lib.Exchange
import SuperVoice.Lib.Transition
import SuperVoice.Core.Histograms
import SuperVoice.Core.Observation

/-! Who records a request, and what the record has of the amounts that were added before. -/
namespace SuperVoice.Core
open Bytes Transition

/-- What a call adds to a total of a series. -/
def RegistryCall.amount {D : Type} (key : SeriesKey) (counter : Counter) : RegistryCall D → UInt64
  | .incrementError .. => 0
  | .recordRequest key' _ _ _ tokensIn tokensOut streamEvents _ =>
    if key' = key then
      match counter with
      | .tokensIn => tokensIn
      | .tokensOut => tokensOut
      | .streamEvents => streamEvents
    else 0

def SeriesMetrics.total {D : Type} (series : SeriesMetrics D) : Counter → UInt64
  | .tokensIn => series.tokensIn
  | .tokensOut => series.tokensOut
  | .streamEvents => series.streamEvents

/-- What calls add to a total; it wraps around at 2 ^ 64. -/
def amounts {D : Type} (key : SeriesKey) (calls : List (RegistryCall D)) (counter : Counter) :
    UInt64 :=
  (calls.map (RegistryCall.amount key counter)).sum

/-- Where the value is found that will be recorded, before anything more is added. -/
def Completion.values (call : Completion) (counters : Counter → UInt64) : Counter → UInt64
  | .tokensIn => counters .tokensIn
  | .tokensOut => call.tokensOut
  | .streamEvents => call.streamEvents

namespace Thread
variable {D : Type}

/-- The part in the exchange of `completed_`. -/
def role : Thread D → Exchange.Role
  | .idle => .idle
  | .checking | .reading _ | .entered _ => .contends
  | .storing .. | .storingEvents .. | .loading .. => .holds
  | .returned => .ended

/-- The value that a call with the flag will record, if nothing more is added. -/
def amount (counters : Counter → UInt64) (counter : Counter) : Thread D → UInt64
  | .storing call _ => call.values counters counter
  | .storingEvents call _ =>
    if counter = .streamEvents then call.streamEvents else counters counter
  | .loading _ _ loaded => (loaded counter).getD (counters counter)
  | _ => 0

/-- The call will load the counter as it stands. -/
def Awaits (counter : Counter) : Thread D → Prop
  | .storing .. => counter = .tokensIn
  | .storingEvents .. => counter ≠ .streamEvents
  | .loading _ _ loaded => loaded counter = none
  | _ => False

end Thread

namespace RequestObservation
variable {D : Type}

/-- No call or destructor is under way, but there has been one. -/
def Finished (s : RequestObservation D) : Prop :=
  (∃ i, s.threads i ≠ .idle) ∧ ∀ i, s.threads i = .idle ∨ s.threads i = .returned

/-- One record of the request is made. -/
structure RecordedOnce (s : RequestObservation D) : Prop where
  atMost : s.own.length ≤ 1
  finished : s.Finished → s.own.length = 1

/-- The totals of the series have what was added before the first call of `complete`. -/
structure Contained (doubles : Doubles D) (key : SeriesKey) (s : RequestObservation D) : Prop where
  total : ∀ counter, (s.registry.series doubles key).total counter =
    amounts key s.others counter + amounts key s.own counter
  added : s.own ≠ [] → ∀ counter, s.added counter ≤ (amounts key s.own counter).toNat

/-- The totals of the call that takes the flag cover what was added, and no counter wraps around
that is still to be recorded. -/
def Covered (s : RequestObservation D) : ObservationStep D → Prop
  | .add counter count =>
    (counter = .tokensIn ∧ s.completed = false) ∨ (∃ i, (s.threads i).Awaits counter) →
      (s.counters counter).toNat + count.toNat < 2 ^ 64
  | .next i (.exchange _) =>
    s.completed = false → ∀ call, s.threads i = .entered call →
      s.added .tokensOut ≤ call.tokensOut.toNat ∧ s.added .streamEvents ≤ call.streamEvents.toNat
  | _ => True

/-- The part of the state that decides who records. -/
def view (s : RequestObservation D) : Exchange.State Nat where
  taken := s.completed
  role := Thread.role ∘ s.threads
  wins := s.own.length

section Steps
variable {doubles : Doubles D} {request : ObservedRequest} {s s' : RequestObservation D} {i : Nat}

theorem sound_move (h : Exchange.Sound s.view) (n : Nat) {thread : Thread D}
    (hthreads : s'.threads = Function.update s.threads i thread)
    (hown : s'.own.length = s.own.length + n)
    (hchange : Exchange.Change s.completed (s.threads i).role s'.completed thread.role n) :
    Exchange.Sound s'.view := by
  have hview : s'.view = s.view.after i s'.completed thread.role n := by
    rw [view, hthreads, hown, Function.comp_update]
    rfl
  rw [hview]
  exact h.change hchange

theorem Progress.sound {operation : Operation D}
    (hprogress : Progress doubles request s i (s.threads i) operation s')
    (h : Exchange.Sound s.view) : Exchange.Sound s'.view := by
  generalize hthread : s.threads i = thread at hprogress
  have hrole : (s.threads i).role = thread.role := congrArg Thread.role hthread
  cases hprogress with
  | leaves hcompleted =>
    refine sound_move h 0 rfl rfl ?_
    show Exchange.Change s.completed _ s.completed _ 0
    rw [hrole, hcompleted]
    exact .loses
  | loses hcompleted =>
    refine sound_move h 0 rfl rfl ?_
    show Exchange.Change s.completed _ s.completed _ 0
    rw [hrole, hcompleted]
    exact .loses
  | takes hcompleted =>
    refine sound_move h 0 rfl rfl ?_
    rw [hrole, hcompleted]
    exact .takes
  | records =>
    refine sound_move h 1 rfl List.length_append ?_
    rw [hrole]
    exact .wins
  | _ =>
    refine sound_move h 0 rfl rfl ?_
    rw [hrole]
    exact .keeps

theorem sound_step {a : ObservationStep D} (h : Exchange.Sound s.view)
    (hstep : step doubles request s a = some s') : Exchange.Sound s'.view := by
  cases a with
  | add counter count =>
    cases hstep
    exact h
  | complete i call =>
    obtain ⟨hidle, rfl⟩ := complete_inv hstep
    refine sound_move h 0 rfl rfl ?_
    rw [hidle]
    exact .enters
  | destroy i =>
    obtain ⟨hidle, rfl⟩ := destroy_inv hstep
    refine sound_move h 0 rfl rfl ?_
    rw [hidle]
    exact .enters
  | next i operation => exact (next_progress hstep).sound h
  | other call =>
    cases hstep
    exact h

theorem recordedOnce_of_sound (h : Exchange.Sound s.view) : s.RecordedOnce where
  atMost := h.phase.wins_le_one
  finished := by
    intro hfinished
    obtain ⟨⟨i, hi⟩, hall⟩ := hfinished
    apply h.wins_eq_one
    · refine ⟨i, fun hrole => hi ?_⟩
      change (s.threads i).role = .idle at hrole
      cases hthread : s.threads i with
      | idle => rfl
      | _ =>
        rw [hthread] at hrole
        cases hrole
    · intro j
      show (s.threads j).role = .idle ∨ (s.threads j).role = .ended
      rcases hall j with hidle | hreturned
      · rw [hidle]
        exact .inl rfl
      · rw [hreturned]
        exact .inr rfl

/-- The total of the series and what has been recorded. -/
structure Accounted (doubles : Doubles D) (key : SeriesKey) (s : RequestObservation D) : Prop where
  standard : s.registry.Standard doubles
  total : ∀ counter, (s.registry.series doubles key).total counter =
    amounts key s.others counter + amounts key s.own counter

/-- Who has called `complete` has started. -/
structure Noted (s : RequestObservation D) : Prop where
  completed : s.completed = true → s.started = true
  entered : ∀ i call, s.threads i = .entered call → s.started = true

/-- What has been added before the first call is in the amounts that will be recorded. -/
structure Kept (key : SeriesKey) (s : RequestObservation D) : Prop where
  tokensIn : s.completed = false → s.added .tokensIn ≤ (s.counters .tokensIn).toNat
  amount : ∀ i, (s.threads i).role = .holds → ∀ counter,
    s.added counter ≤ ((s.threads i).amount s.counters counter).toNat
  own : ∀ call ∈ s.own, ∀ counter, s.added counter ≤ (call.amount key counter).toNat

theorem toNat_add_of_lt {a b : UInt64} (h : a.toNat + b.toNat < 2 ^ 64) :
    (a + b).toNat = a.toNat + b.toNat := by
  rw [UInt64.toNat_add, Nat.mod_eq_of_lt h]

/-- A counter that does not wrap around takes nothing from what will be recorded. -/
theorem amount_le_update {thread : Thread D} {counters : Counter → UInt64} {counter : Counter}
    {value : UInt64} (h : thread.Awaits counter → (counters counter).toNat ≤ value.toNat)
    (c : Counter) : (thread.amount counters c).toNat ≤
      (thread.amount (Function.update counters counter value) c).toNat := by
  have hcounter (hawaits : c = counter → thread.Awaits counter) :
      (counters c).toNat ≤ (Function.update counters counter value c).toNat := by
    rw [Function.update_apply]
    split
    case isTrue hc =>
      rw [hc]
      exact h (hawaits hc)
    case isFalse => exact Nat.le_refl _
  cases thread with
  | storing call latencyMs =>
    cases c with
    | tokensIn => exact hcounter fun hc => hc.symm
    | _ => exact Nat.le_refl _
  | storingEvents call latencyMs =>
    rw [Thread.amount, Thread.amount]
    split
    case isTrue => exact Nat.le_refl _
    case isFalse hc => exact hcounter fun heq => heq ▸ hc
  | loading call latencyMs loaded =>
    rw [Thread.amount, Thread.amount]
    cases hloaded : loaded c with
    | some value => exact Nat.le_refl _
    | none => exact hcounter fun heq => heq ▸ hloaded
  | _ => exact Nat.le_refl _

theorem amount_of_recorded {call : Completion} {latencyMs : D} {loaded : Loaded}
    {call' : RegistryCall D} (h : recorded? request call latencyMs loaded = some call')
    (counters : Counter → UInt64) (counter : Counter) :
    call'.amount request.key counter = (loaded counter).getD (counters counter) := by
  obtain ⟨tokensIn, htokensIn, h⟩ := Option.bind_eq_some_iff.mp h
  obtain ⟨tokensOut, htokensOut, h⟩ := Option.bind_eq_some_iff.mp h
  obtain ⟨streamEvents, hstreamEvents, h⟩ := Option.bind_eq_some_iff.mp h
  cases h
  cases counter with
  | tokensIn => simp [RegistryCall.amount, htokensIn]
  | tokensOut => simp [RegistryCall.amount, htokensOut]
  | streamEvents => simp [RegistryCall.amount, hstreamEvents]

theorem Noted.move (h : Noted s) {thread : Thread D}
    (hthreads : s'.threads = Function.update s.threads i thread)
    (hstarted : s.started = true → s'.started = true)
    (hcompleted : s'.completed = true → s'.started = true)
    (hentered : ∀ call, thread = .entered call → s'.started = true) : Noted s' where
  completed := hcompleted
  entered := by
    intro j call hj
    rw [hthreads, Function.update_apply] at hj
    split at hj
    case isTrue => exact hentered call hj
    case isFalse => exact hstarted (h.entered j call hj)

/-- A thread goes on. The counters that it stores are not those of another thread. -/
theorem Kept.move {key : SeriesKey} (h : Kept key s) {thread : Thread D}
    (hthreads : s'.threads = Function.update s.threads i thread)
    (hadded : s'.added = s.added) (hown : s'.own = s.own)
    (hfree : s'.completed = false →
      s.completed = false ∧ s'.counters .tokensIn = s.counters .tokensIn)
    (hothers : ∀ j, j ≠ i → (s.threads j).role = .holds → s'.counters = s.counters)
    (hamount : thread.role = .holds → ∀ counter,
      s.added counter ≤ (thread.amount s'.counters counter).toNat) : Kept key s' where
  tokensIn := by
    intro hfalse
    obtain ⟨hcompleted, hcounter⟩ := hfree hfalse
    rw [hadded, hcounter]
    exact h.tokensIn hcompleted
  amount := by
    intro j hrole counter
    rw [hadded]
    rw [hthreads, Function.update_apply] at hrole ⊢
    split at hrole
    case isTrue hj =>
      rw [if_pos hj]
      exact hamount hrole counter
    case isFalse hj =>
      rw [if_neg hj, hothers j hj hrole]
      exact h.amount j hrole counter
  own := by
    rw [hadded, hown]
    exact h.own

theorem Progress.noted {operation : Operation D}
    (hprogress : Progress doubles request s i (s.threads i) operation s') (h : Noted s) :
    Noted s' := by
  generalize hthread : s.threads i = thread at hprogress
  cases hprogress with
  | calls => exact h.move rfl (fun _ => rfl) (fun _ => rfl) (fun _ _ => rfl)
  | takes =>
    have hstarted : s.started = true := h.entered i _ hthread
    exact h.move rfl id (fun _ => hstarted) (fun _ _ => hstarted)
  | _ => exact h.move rfl id h.completed (fun _ heq => by cases heq)

theorem Progress.kept {operation : Operation D}
    (hprogress : Progress doubles request s i (s.threads i) operation s')
    (hsound : Exchange.Sound s.view) (h : Kept request.key s)
    (hcovered : s.Covered (.next i operation)) : Kept request.key s' := by
  generalize hthread : s.threads i = thread at hprogress
  -- Only one thread has the flag, so the counters that it stores are not those of another.
  have hone : thread.role = .holds → ∀ j, j ≠ i → (s.threads j).role ≠ .holds := by
    intro hrole j hj hholds
    have hrole' : s.view.role i = .holds := (congrArg Thread.role hthread).trans hrole
    exact hj (hsound.phase.unique hholds hrole')
  have hamount : thread.role = .holds → ∀ counter,
      s.added counter ≤ (thread.amount s.counters counter).toNat := by
    intro hrole counter
    rw [← hthread] at hrole ⊢
    exact h.amount i hrole counter
  cases hprogress with
  | takes hcompleted =>
    refine h.move rfl rfl rfl (fun hfalse => by cases hfalse) (fun _ _ _ => rfl) ?_
    intro _ counter
    obtain ⟨htokensOut, hstreamEvents⟩ := hcovered hcompleted _ hthread
    cases counter with
    | tokensIn => exact h.tokensIn hcompleted
    | tokensOut => exact htokensOut
    | streamEvents => exact hstreamEvents
  | stores | storesEvents =>
    refine h.move rfl rfl rfl ?_ (fun j hj hholds => absurd hholds (hone rfl j hj)) ?_
    · exact fun hfalse => ⟨hfalse, rfl⟩
    · intro _ counter
      have hkept := hamount rfl counter
      cases counter with
      | _ => exact hkept
  | loads hsame =>
    refine h.move rfl rfl rfl (fun hfalse => ⟨hfalse, rfl⟩) (fun _ _ _ => rfl) ?_
    intro _ counter
    have hkept := hamount rfl counter
    rw [Thread.amount] at hkept ⊢
    show _ ≤ (Option.getD _ (s.counters counter)).toNat
    rwa [hsame]
  | records hrecorded =>
    have hreturned : Kept request.key (s.move i .returned) :=
      h.move rfl rfl rfl (fun hfalse => ⟨hfalse, rfl⟩) (fun _ _ _ => rfl)
        (fun hrole => by cases hrole)
    refine ⟨hreturned.tokensIn, hreturned.amount, ?_⟩
    intro call hcall counter
    rcases List.mem_append.mp hcall with hearlier | hlast
    · exact h.own call hearlier counter
    · rw [List.mem_singleton.mp hlast, amount_of_recorded hrecorded s.counters]
      exact hamount rfl counter
  | _ =>
    exact h.move rfl rfl rfl (fun hfalse => ⟨hfalse, rfl⟩) (fun _ _ _ => rfl)
      (fun hrole => by cases hrole)

theorem toNat_grows {counter : Counter} {count : UInt64}
    (hcovered : s.Covered (.add counter count))
    (hpending : (counter = .tokensIn ∧ s.completed = false) ∨
      ∃ i, (s.threads i).Awaits counter) :
    (s.counters counter + count).toNat = (s.counters counter).toNat + count.toNat :=
  toNat_add_of_lt (hcovered hpending)

/-- An addition that comes after the start of a call. -/
theorem kept_add_started {key : SeriesKey} (h : Kept key s) {counter : Counter} {count : UInt64}
    (hcovered : s.Covered (.add counter count)) (hstarted : s.started = true) :
    Kept key (s.add counter count) := by
  have hadded : (s.add counter count).added = s.added := if_pos hstarted
  have hcounters : (s.add counter count).counters =
      Function.update s.counters counter (s.counters counter + count) := rfl
  constructor
  case tokensIn =>
    intro hfalse
    rw [hadded, hcounters, Function.update_apply]
    split
    case isTrue hc =>
      subst hc
      rw [toNat_grows hcovered (.inl ⟨rfl, hfalse⟩)]
      exact Nat.le_add_right_of_le (h.tokensIn hfalse)
    case isFalse => exact h.tokensIn hfalse
  case amount =>
    intro i hrole c
    rw [hadded]
    apply (h.amount i hrole c).trans
    apply amount_le_update
    intro hawaits
    rw [toNat_grows hcovered (.inr ⟨i, hawaits⟩)]
    exact Nat.le_add_right _ _
  case own =>
    rw [hadded]
    exact h.own

/-- An addition that is to be recorded. Nobody has the flag yet. -/
theorem kept_add_before {key : SeriesKey} (hsound : Exchange.Sound s.view) (hnoted : Noted s)
    (h : Kept key s) {counter : Counter} {count : UInt64}
    (hcovered : s.Covered (.add counter count)) (hstarted : s.started = false) :
    Kept key (s.add counter count) := by
  have hadded : (s.add counter count).added =
      Function.update s.added counter (s.added counter + count.toNat) := by
    rw [add, hstarted]
    rfl
  have hcounters : (s.add counter count).counters =
      Function.update s.counters counter (s.counters counter + count) := rfl
  have hfree : s.completed = false := by
    by_contra hdone
    rw [hnoted.completed (Bool.eq_true_of_not_eq_false hdone)] at hstarted
    cases hstarted
  obtain ⟨hown, hnone⟩ := hsound.phase.free_of_not_taken hfree
  constructor
  case tokensIn =>
    intro _
    rw [hadded, hcounters, Function.update_apply, Function.update_apply]
    split
    case isTrue hc =>
      subst hc
      rw [toNat_grows hcovered (.inl ⟨rfl, hfree⟩)]
      exact Nat.add_le_add_right (h.tokensIn hfree) _
    case isFalse => exact h.tokensIn hfree
  case amount => exact fun i hrole => absurd hrole (hnone i)
  case own =>
    intro call hcall
    rw [show (s.add counter count).own = [] from List.length_eq_zero_iff.mp hown] at hcall
    cases hcall

theorem noted_step {a : ObservationStep D} (h : Noted s)
    (hstep : step doubles request s a = some s') : Noted s' := by
  cases a with
  | complete i call =>
    obtain ⟨-, rfl⟩ := complete_inv hstep
    exact h.move rfl (fun _ => rfl) (fun _ => rfl) (fun _ _ => rfl)
  | destroy i =>
    obtain ⟨-, rfl⟩ := destroy_inv hstep
    exact h.move rfl id h.completed (fun _ heq => by cases heq)
  | next i operation => exact (next_progress hstep).noted h
  | _ =>
    cases hstep
    exact ⟨h.completed, h.entered⟩

theorem kept_step {a : ObservationStep D} (hsound : Exchange.Sound s.view) (hnoted : Noted s)
    (h : Kept request.key s) (hcovered : s.Covered a)
    (hstep : step doubles request s a = some s') : Kept request.key s' := by
  cases a with
  | add counter count =>
    cases hstep
    cases hstarted : s.started with
    | true => exact kept_add_started h hcovered hstarted
    | false => exact kept_add_before hsound hnoted h hcovered hstarted
  | complete i call =>
    obtain ⟨-, rfl⟩ := complete_inv hstep
    exact h.move rfl rfl rfl (fun hfalse => ⟨hfalse, rfl⟩) (fun _ _ _ => rfl)
      (fun hrole => by cases hrole)
  | destroy i =>
    obtain ⟨-, rfl⟩ := destroy_inv hstep
    exact h.move rfl rfl rfl (fun hfalse => ⟨hfalse, rfl⟩) (fun _ _ _ => rfl)
      (fun hrole => by cases hrole)
  | next i operation => exact (next_progress hstep).kept hsound h hcovered
  | other call =>
    cases hstep
    exact ⟨h.tokensIn, h.amount, h.own⟩

open scoped UInt64.CommRing in
theorem amounts_append (key : SeriesKey) (calls : List (RegistryCall D)) (call : RegistryCall D)
    (counter : Counter) :
    amounts key (calls ++ [call]) counter = amounts key calls counter + call.amount key counter := by
  have hsum : ∀ values : List UInt64,
      (values ++ [call.amount key counter]).sum = values.sum + call.amount key counter := by
    intro values
    rw [List.sum_append, List.sum_singleton]
  rw [amounts, List.map_append, List.map_singleton]
  exact hsum _

theorem total_call {registry : Registry D} (hstandard : registry.Standard doubles)
    (call : RegistryCall D) (key : SeriesKey) (counter : Counter) :
    ((registry.call doubles call).series doubles key).total counter =
      (registry.series doubles key).total counter + call.amount key counter := by
  by_cases hkey : call.key = some key
  · have hget := getElem?_call doubles registry call key
    rw [if_pos hkey] at hget
    rw [series_of_some (standard_call hstandard call) hget]
    cases call with
    | incrementError company endpoint errorType =>
      cases counter with
      | _ => exact (UInt64.add_zero _).symm
    | recordRequest key' latencyMs bytesIn bytesOut tokensIn tokensOut streamEvents errorType =>
      cases hkey
      cases counter with
      | _ =>
        dsimp only
        split <;> simp [RegistryCall.amount, SeriesMetrics.total, SeriesMetrics.countError]
  · rw [series_call_of_ne hkey]
    cases call with
    | incrementError company endpoint errorType => exact (UInt64.add_zero _).symm
    | recordRequest key' latencyMs bytesIn bytesOut tokensIn tokensOut streamEvents errorType =>
      have hne : key' ≠ key := fun heq => hkey (congrArg some heq)
      rw [RegistryCall.amount.eq_def]
      dsimp only
      rw [if_neg hne]
      exact (UInt64.add_zero _).symm

theorem accounted_step {a : ObservationStep D} (h : Accounted doubles request.key s)
    (hstep : step doubles request s a = some s') : Accounted doubles request.key s' := by
  cases a with
  | add counter count =>
    cases hstep
    exact ⟨h.standard, h.total⟩
  | complete i call =>
    obtain ⟨-, rfl⟩ := complete_inv hstep
    exact ⟨h.standard, h.total⟩
  | destroy i =>
    obtain ⟨-, rfl⟩ := destroy_inv hstep
    exact ⟨h.standard, h.total⟩
  | next i operation =>
    have hprogress := next_progress hstep
    generalize s.threads i = thread at hprogress
    cases hprogress with
    | records =>
      refine ⟨standard_call h.standard _, fun counter => ?_⟩
      show (Registry.series doubles (s.registry.call doubles _) request.key).total counter =
        amounts request.key s.others counter + amounts request.key (s.own ++ [_]) counter
      rw [total_call h.standard, h.total, amounts_append, UInt64.add_assoc]
    | _ => exact ⟨h.standard, h.total⟩
  | other call =>
    cases hstep
    refine ⟨standard_call h.standard call, fun counter => ?_⟩
    show (Registry.series doubles (s.registry.call doubles _) request.key).total counter =
      amounts request.key (s.others ++ [_]) counter + amounts request.key s.own counter
    rw [total_call h.standard, h.total, amounts_append, UInt64.add_assoc, UInt64.add_assoc,
      UInt64.add_comm (amounts request.key s.own counter)]

theorem accounted_start : Accounted doubles request.key (start request) where
  standard key series h := by simp [start] at h
  total counter := by
    have hseries : Registry.series doubles (start (D := D) request).registry request.key =
        { latency := createHistogram doubles } := series_of_none (by simp [start])
    rw [hseries]
    cases counter <;> rfl

/-- Every invariant of a run. -/
theorem reach_start {guard : RequestObservation D → ObservationStep D → Prop}
    (h : Reach (step doubles request) guard (start request) s) :
    Exchange.Sound s.view ∧ Noted s ∧ Accounted doubles request.key s := by
  apply Reach.invariant (P := fun s => Exchange.Sound s.view ∧ Noted s ∧
    Accounted doubles request.key s) _ _ h
  · exact ⟨Exchange.sound_start, ⟨fun h => (by cases h), fun _ _ h => by cases h⟩, accounted_start⟩
  · intro s a s' hs _ hstep
    obtain ⟨hsound, hnoted, haccounted⟩ := hs
    exact ⟨sound_step hsound hstep, noted_step hnoted hstep, accounted_step haccounted hstep⟩

theorem kept_reach (h : Reach (step doubles request) Covered (start request) s) :
    Kept request.key s := by
  induction h with
  | start =>
    constructor
    case tokensIn => exact fun _ => Nat.zero_le _
    case amount =>
      intro i hrole
      cases hrole
    case own =>
      intro call hcall
      cases hcall
  | next a hr hg hs ih =>
    obtain ⟨hsound, hnoted, -⟩ := reach_start hr
    exact kept_step hsound hnoted ih hg hs

theorem contained_of_kept (hsound : Exchange.Sound s.view)
    (haccounted : Accounted doubles request.key s) (h : Kept request.key s) :
    s.Contained doubles request.key where
  total := haccounted.total
  added := by
    intro hne counter
    have hone : s.own.length = 1 := by
      have hpos := List.length_pos_of_ne_nil hne
      have hle : s.own.length ≤ 1 := hsound.phase.wins_le_one
      omega
    obtain ⟨call, hown⟩ := List.length_eq_one_iff.mp hone
    have hsum : amounts request.key s.own counter = call.amount request.key counter := by
      rw [hown]
      exact UInt64.add_zero _
    rw [hsum]
    exact h.own call (hown ▸ List.mem_singleton_self call) counter

/-- The operations of a call that takes the flag, up to its loads. -/
def takes (i : Nat) (latencyMs : D) : List (ObservationStep D) :=
  [.exchange latencyMs, .store, .store].map (.next i)

def loads (i : Nat) : List (ObservationStep D) :=
  [.load .tokensIn, .load .tokensOut, .load .streamEvents, .record].map (.next i)

theorem run_takes (doubles : Doubles D) (request : ObservedRequest) {call : Completion}
    (hthread : s.threads i = .entered call) (hfree : s.completed = false) (latencyMs : D) :
    ∃ s', run (step doubles request) s (takes i latencyMs) = some s' ∧
      s'.threads i = .loading call latencyMs (fun _ => none) ∧
      s'.added = s.added ∧ s'.own = s.own ∧
      ∀ counter, s'.counters counter = call.values s.counters counter := by
  have hstored : ∀ counter, Function.update (Function.update s.counters .tokensOut call.tokensOut)
      .streamEvents call.streamEvents counter = call.values s.counters counter := by
    intro counter
    cases counter <;> rfl
  simpa [takes, run, step, next, exchange, hthread, hfree, move, put] using hstored

theorem run_loads (doubles : Doubles D) (request : ObservedRequest) {call : Completion}
    {latencyMs : D} (hthread : s.threads i = .loading call latencyMs fun _ => none) :
    ∃ s', run (step doubles request) s (loads i) = some s' ∧ s'.added = s.added ∧
      s'.own = s.own ++ [.recordRequest request.key latencyMs request.bytesIn call.bytesOut
        (s.counters .tokensIn) (s.counters .tokensOut) (s.counters .streamEvents)
        call.resolvedErrorType] := by
  simp [loads, run, step, next, hthread, move, loadInto, recorded?, record]

/-- A call that takes the flag without what was added can lose it. -/
theorem lost_of_uncovered (h : Reachable (step doubles request) (start request) s) {latencyMs : D}
    (huncovered : ¬ s.Covered (.next i (.exchange latencyMs))) :
    ∃ s', Reachable (step doubles request) s s' ∧ ¬ s'.Contained doubles request.key := by
  have huncovered' : ∃ call, s.completed = false ∧ s.threads i = .entered call ∧
      ¬ (s.added .tokensOut ≤ call.tokensOut.toNat ∧
        s.added .streamEvents ≤ call.streamEvents.toNat) := by
    rw [Covered] at huncovered
    push Not at huncovered
    obtain ⟨hfree, call, hthread, hless⟩ := huncovered
    refine ⟨call, hfree, hthread, fun hboth => ?_⟩
    exact absurd hboth.2 (Nat.not_le.mpr (hless hboth.1))
  obtain ⟨call, hfree, hthread, hless⟩ := huncovered'
  obtain ⟨t, htakes, hloading, htadded, htown, hcounters⟩ :=
    run_takes doubles request hthread hfree latencyMs
  obtain ⟨s', hloads, hadded, hown⟩ := run_loads doubles request hloading
  have hnil : s.own = [] :=
    List.length_eq_zero_iff.mp ((reach_start h).1.phase.free_of_not_taken hfree).1
  rw [htown, hnil, List.nil_append, hcounters .tokensIn, hcounters .tokensOut,
    hcounters .streamEvents] at hown
  refine ⟨s', (Reach.of_run htakes).trans (.of_run hloads), fun hcontained => hless ?_⟩
  have hall := hcontained.added (by rw [hown]; exact List.cons_ne_nil _ _)
  rw [hadded, htadded, hown] at hall
  have htokensOut := hall .tokensOut
  have hstreamEvents := hall .streamEvents
  simp [amounts, RegistryCall.amount, Completion.values] at htokensOut hstreamEvents
  exact ⟨htokensOut, hstreamEvents⟩

end Steps

/-- In every run one record is made. In every run in which the call that takes the flag covers what
has been added, and no counter wraps around that is still to be recorded, the record has it; a call
that does not cover it can lose it. -/
theorem recorded_contained (doubles : Doubles D) (request : ObservedRequest) :
    (∀ s, Reachable (step doubles request) (start request) s → s.RecordedOnce) ∧
    (∀ s, Reach (step doubles request) Covered (start request) s →
      s.Contained doubles request.key) ∧
    ∀ s i latencyMs, Reachable (step doubles request) (start request) s →
      ¬ s.Covered (.next i (.exchange latencyMs)) →
        ∃ s', Reachable (step doubles request) s s' ∧ ¬ s'.Contained doubles request.key := by
  refine ⟨?_, ?_, ?_⟩
  · intro s h
    exact recordedOnce_of_sound (reach_start h).1
  · intro s h
    obtain ⟨hsound, -, haccounted⟩ := reach_start h
    exact contained_of_kept hsound haccounted (kept_reach h)
  · intro s i latencyMs h huncovered
    exact lost_of_uncovered h huncovered

def sampleRequest : ObservedRequest := ⟨⟨ascii "acme", ascii "/chat"⟩, 0, 0⟩

/-- Five tokens are added, and the request is completed with a total. -/
def sampleRun (tokensOut : UInt64) : List (ObservationStep ℚ) :=
  [.add .tokensOut 5, .complete 0 ⟨200, 10, tokensOut, 0, []⟩] ++ takes 0 3 ++ loads 0 ++
    [.destroy 1, .next 1 .check]

/-- A step that is covered whatever the threads are about to load. -/
def covers (s : RequestObservation D) : ObservationStep D → Bool
  | .add counter count => (s.counters counter).toNat + count.toNat < 2 ^ 64
  | .next i (.exchange _) =>
    match s.threads i with
    | .entered call =>
      s.added .tokensOut ≤ call.tokensOut.toNat && s.added .streamEvents ≤ call.streamEvents.toNat
    | _ => true
  | _ => true

theorem covered_of_covers (s : RequestObservation D) (a : ObservationStep D)
    (h : s.covers a = true) : s.Covered a := by
  cases a with
  | add counter count =>
    intro _
    exact of_decide_eq_true h
  | next i operation =>
    cases operation with
    | exchange latencyMs =>
      intro _ call hthread
      rw [covers, hthread] at h
      simpa using h
    | _ => trivial
  | _ => trivial

theorem recorded_contained_sample : ∃ s : RequestObservation ℚ,
    Reach (step default sampleRequest) Covered (start sampleRequest) s ∧
      s.added .tokensOut = 5 ∧ s.own.length = 1 ∧ s.Contained default sampleRequest.key := by
  have hrun : (runIf (step default sampleRequest) covers (start sampleRequest) (sampleRun 7)).any
      (fun s => s.added .tokensOut == 5 && s.own.length == 1) = true := by decide +kernel
  obtain ⟨s, hs, hvalues⟩ := (Option.any_eq_true ..).mp hrun
  rw [Bool.and_eq_true, beq_iff_eq, beq_iff_eq] at hvalues
  have hreach := Reach.of_runIf covered_of_covers hs
  obtain ⟨-, hcontained, -⟩ := recorded_contained (default : Doubles ℚ) sampleRequest
  exact ⟨s, hreach, hvalues.1, hvalues.2, hcontained s hreach⟩

theorem amounts_lost : ∃ s : RequestObservation ℚ,
    Reachable (step default sampleRequest) (start sampleRequest) s ∧ s.added .tokensOut = 5 ∧
      s.own.length = 1 ∧ (s.registry.series default sampleRequest.key).total .tokensOut = 0 ∧
      ¬ s.Contained default sampleRequest.key := by
  have hrun : (run (step default sampleRequest) (start sampleRequest) (sampleRun 0)).any
      (fun s => s.added .tokensOut == 5 && s.own.length == 1 && s.others.isEmpty &&
        amounts sampleRequest.key s.own .tokensOut == 0) = true := by decide +kernel
  obtain ⟨s, hs, hvalues⟩ := exists_reachable hrun
  simp only [Bool.and_eq_true, beq_iff_eq, List.isEmpty_iff] at hvalues
  obtain ⟨⟨⟨hadded, hown⟩, hothers⟩, hamounts⟩ := hvalues
  obtain ⟨-, -, haccounted⟩ := reach_start hs
  have htotal := haccounted.total .tokensOut
  rw [hothers, hamounts] at htotal
  refine ⟨s, hs, hadded, hown, htotal, fun hcontained => ?_⟩
  have hne : s.own ≠ [] := List.ne_nil_of_length_pos (by omega)
  have hless := hcontained.added hne .tokensOut
  rw [hadded, hamounts] at hless
  exact absurd hless (by decide)

end RequestObservation

end SuperVoice.Core
