import SuperVoice.Server.Publication

/-! `cleanup_completed_files`: the cleanup thread removes old files beside those that handlers are
about to publish. A file is removed some time after its age has been looked at. -/
namespace SuperVoice.Server
open Bytes PosixPath FileStore FileStore.FileSystem StreamCodec Transition
variable {r : Root} {D : Decoder} {cat : Catalog} {fs : FileSystem}

/-- `path::extension` of a file name: from its last dot on, unless that is its first byte. -/
def extension (name : Bytes) : Bytes :=
  let stem := (name.reverse.takeWhile (· ≠ 46)).reverse
  if name = dotdot ∨ name.length ≤ stem.length + 1 then [] else 46 :: stem

/-- `std::chrono` compares in 64-bit nanoseconds, as for expired entries. -/
def tooOld (ttl now time : Int) : Bool :=
  decide ((now - time).bmod (2 ^ 64) > (ttl * 1000000000).bmod (2 ^ 64))

/-- A pass over the published files. -/
structure Sweep where
  ttl : Int
  now : Int
  /-- The file whose age has been found to exceed the TTL. -/
  doomed : Option Bytes

/-- The server with its cleanup thread. -/
structure Housekeeping (D : Decoder) where
  system : System D
  sweep : Option Sweep

inductive SweepEvent where
  | act (a : Action)
  | begin (ttl now : Int)
  /-- An entry of the directory, and what `last_write_time` says of it. -/
  | examine (name : Bytes) (time : Int)
  | remove (removes : Bool)
  | finish

def Housekeeping.unlink (s : Housekeeping D) (l : Location) : Housekeeping D :=
  { s with system := { s.system with world :=
    { s.system.world with fs := s.system.world.fs.unlink l } } }

variable (r) in
def sweepStep (s : Housekeeping D) : SweepEvent → Option (Housekeeping D)
  | .act a => (step r s.system a).map fun system => { s with system }
  | .begin ttl now =>
    if s.sweep.isSome then none
    else if ttl ≤ 0 then some s
    else some { s with sweep := some ⟨ttl, now, none⟩ }
  | .examine name time =>
    match s.sweep with
    | some ⟨ttl, now, none⟩ =>
      if (s.system.world.fs.link (r.files ++ [name])).isSome ∧ extension name ≠ ascii ".part" ∧
          tooOld ttl now time then
        some { s with sweep := some ⟨ttl, now, some name⟩ }
      else some s
    | _ => none
  | .remove removes =>
    match s.sweep with
    | some ⟨ttl, now, some name⟩ =>
      let s := if removes then s.unlink (r.files ++ [name]) else s
      some { s with sweep := some ⟨ttl, now, none⟩ }
    | _ => none
  | .finish =>
    match s.sweep with
    | some ⟨_, _, none⟩ => some { s with sweep := none }
    | _ => none

/-- A staging file is known by its extension. -/
theorem extension_part {name : Bytes} (hname : name ≠ []) :
    extension (name ++ ascii ".part") = ascii ".part" := by
  have hpos : 0 < name.length := List.length_pos_iff.mpr hname
  have hreverse : (name ++ ascii ".part").reverse = ascii "trap" ++ 46 :: name.reverse := by
    have hpart : (ascii ".part").reverse = ascii "trap" ++ [46] := by decide
    rw [List.reverse_append, hpart, List.append_assoc, List.singleton_append]
  have hstem : ((name ++ ascii ".part").reverse.takeWhile (· ≠ 46)).reverse = ascii "part" := by
    have hplain : ∀ b ∈ ascii "trap", decide (b ≠ 46) = true := List.all_eq_true.mp (by decide)
    rw [hreverse, List.takeWhile_append_of_pos hplain]
    simp only [ne_eq, not_true, decide_false, Bool.false_eq_true, not_false_eq_true,
      List.takeWhile_cons_of_neg, List.append_nil]
    decide
  have hlen : (name ++ ascii ".part").length = name.length + 5 := List.length_append
  have hdots : name ++ ascii ".part" ≠ dotdot := by
    intro h
    rw [h] at hlen
    have htwo : dotdot.length = 2 := by decide
    omega
  have hfour : (ascii "part").length = 4 := by decide
  rw [extension, hstem, if_neg]
  · decide
  · rw [not_or, hlen, hfour]
    exact ⟨hdots, by omega⟩

/-- Removing a file that is no staging file takes nothing that handlers rely on. -/
theorem storageEffect_unlink {name : Bytes} (hnames : ∀ id p, cat id = some p → IsComponent p.name)
    (hext : extension name ≠ ascii ".part") :
    StorageEffect r cat fs (fs.unlink (r.files ++ [name])) := by
  have hcontent : ∀ l b, (fs.unlink (r.files ++ [name])).content l = some b →
      fs.content l = some b := by
    intro l b h
    by_cases hl : l = r.files ++ [name]
    · subst hl
      simp [content, unlink, forget] at h
    · have hw : Within (· = r.files ++ [name]) fs (fs.unlink (r.files ++ [name])) := within_unlink
      rwa [hw.content hl] at h
  refine ⟨fun id p i _ _ h => h.of_content (hcontent _), fun id p hp => ?_,
    fun id p b _ h => hcontent _ b h⟩
  have hne : r.partAt p.name ≠ r.files ++ [name] := by
    rw [partAt_eq (hnames id p hp)]
    intro he
    have hsame : p.name ++ ascii ".part" = name :=
      List.singleton_inj.mp (List.append_cancel_left he)
    exact hext (hsame ▸ extension_part (hnames id p hp).ne_nil)
  have hw : Within (· = r.files ++ [name]) fs (fs.unlink (r.files ++ [name])) := within_unlink
  exact ⟨hw.link _ hne, hw.content hne⟩

theorem Publishing.storage {fs₀ : FileSystem} {s : System D} (h : Publishing r cat fs₀ s)
    {fs : FileSystem} (heff : StorageEffect r cat s.world.fs fs) :
    Publishing r cat fs₀ { s with world := { s.world with fs } } := by
  refine ⟨fun id e he => (h.entries id e he).keep heff.clean, fun t c hc => ?_,
    fun t record hrec => (h.records t record hrec).keep heff.clean, fun t a ha => ?_, h.exclusive,
    h.whole.keep heff.final⟩
  · obtain ⟨p, hp, hagrees, hclean⟩ := h.storing t c hc
    exact ⟨p, hp, hagrees, heff.clean _ p _ hp hagrees.index_lt hclean⟩
  · obtain ⟨p, hp, -, hcomplete, -⟩ := h.records t a.record (by rw [ha]; rfl)
    have hstaged := h.staged t a ha
    have hpart := heff.part _ p hp
    rw [← hcomplete.name] at hpart
    exact hstaged.keep hpart.1 hpart.2

variable (r cat) in
/-- The handlers keep to what whole publication rests on; the cleanup thread may do anything. -/
def SoleAssemblers (s : Housekeeping D) : SweepEvent → Prop
  | .act a => SoleAssembler r cat s.system a
  | _ => True

/-- No staging file is about to be removed. -/
structure Sweepable (r : Root) (cat : Catalog) (fs₀ : FileSystem) (s : Housekeeping D) : Prop where
  publishing : Publishing r cat fs₀ s.system
  doomed : ∀ sweep name, s.sweep = some sweep → sweep.doomed = some name →
    extension name ≠ ascii ".part"

theorem Sweepable.step {fs₀ : FileSystem} {s s' : Housekeeping D} {event : SweepEvent}
    (hsep : Separate r cat) (hnames : ∀ id p, cat id = some p → IsComponent p.name)
    (h : Sweepable r cat fs₀ s) (hg : SoleAssemblers r cat s event)
    (hs : sweepStep r s event = some s') : Sweepable r cat fs₀ s' := by
  cases event with
  | act a =>
    obtain ⟨system, hsystem, rfl⟩ := Option.map_eq_some_iff.mp hs
    exact ⟨publishing_step hsep h.publishing hg hsystem, h.doomed⟩
  | begin ttl now =>
    rw [sweepStep] at hs
    split at hs
    · cases hs
    · split at hs
      · cases hs
        exact h
      · cases hs
        refine ⟨h.publishing, ?_⟩
        rintro sweep name ⟨⟩ ⟨⟩
  | examine name time =>
    rw [sweepStep] at hs
    split at hs
    · split at hs
      · next hold =>
        cases hs
        refine ⟨h.publishing, ?_⟩
        rintro sweep name' ⟨⟩ ⟨⟩
        exact hold.2.1
      · cases hs
        exact h
    · cases hs
  | remove removes =>
    rw [sweepStep] at hs
    split at hs
    · next ttl now name hsweep =>
      have hext := h.doomed _ name hsweep rfl
      cases hs
      refine ⟨?_, ?_⟩
      · cases removes with
        | true => exact h.publishing.storage (storageEffect_unlink hnames hext)
        | false => exact h.publishing
      · rintro sweep name' ⟨⟩ ⟨⟩
    · cases hs
  | finish =>
    rw [sweepStep] at hs
    split at hs
    · cases hs
      refine ⟨h.publishing, ?_⟩
      rintro sweep name ⟨⟩
    · cases hs

/-- However sweeps and handlers interleave, a published file is whole as long as it is there, and
no sweep takes the staging file of an assembly. -/
theorem whole_under_sweeps (hsep : Separate r cat)
    (hnames : ∀ id p, cat id = some p → IsComponent p.name) {fs : FileSystem} {ttl : Int}
    {s : Housekeeping D} (h : Reach (sweepStep r) (SoleAssemblers r cat) ⟨System.start D fs ttl, none⟩ s) :
    PublishedWhole r D cat fs s.system.world.fs ∧
      ∀ t a, s.system.handlers t = .assembling a → Staged r cat s.system.world.fs a := by
  have hstart : Sweepable r cat fs ⟨System.start D fs ttl, none⟩ := by
    refine ⟨publishing_start fs ttl, ?_⟩
    rintro sweep name ⟨⟩
  have hsweepable := h.invariant hstart fun _ _ _ h hg hs => h.step hsep hnames hg hs
  exact ⟨hsweepable.publishing.whole, hsweepable.publishing.staged⟩

theorem reach_sweeps {fs : FileSystem} {ttl : Int} {s : Housekeeping D} {events : List SweepEvent}
    (hevents : ∀ event ∈ events, ∀ a, event = .act a →
      (∀ t, a.handler = some t → t = 0) ∧ ∀ s : System D, Resends cat s a)
    (h : run (sweepStep r) ⟨System.start D fs ttl, none⟩ events = some s) :
    Reach (sweepStep r) (SoleAssemblers r cat) ⟨System.start D fs ttl, none⟩ s := by
  refine Reach.of_run_of (P := fun s : Housekeeping D => ∀ t, t ≠ 0 → s.system.handlers t = .idle)
    (fun _ _ => rfl) (fun s event s' hidle hevent hs t ht => ?_) (fun s event hidle hevent => ?_)
    hevents h
  · cases event with
    | act a =>
      obtain ⟨system, hsystem, rfl⟩ := Option.map_eq_some_iff.mp hs
      rw [handlers_step_of_ne hsystem fun he => ht ((hevent a rfl).1 t he), hidle t ht]
    | begin | examine | remove | finish =>
      simp only [sweepStep] at hs
      split at hs <;> try split at hs
      all_goals cases hs
      all_goals exact hidle t ht
  · cases event with
    | act a =>
      cases a with
      | updateTtl fault newTtl => trivial
      | cleanup removes now => trivial
      | thread t a =>
        cases a with
        | openPart io =>
          intro record hready t' record' hstaging
          obtain rfl := (hevent _ rfl).1 t rfl
          by_cases ht : t' = 0
          · subst ht
            rw [hready] at hstaging
            cases hstaging
          · rw [hidle t' ht] at hstaging
            cases hstaging
        | _ => exact (hevent _ rfl).2 s.system
    | _ => trivial

/-- A pass looks at an old staging file and leaves it; it is published while the pass goes on. -/
theorem whole_under_sweeps_sample : ∃ s : Housekeeping RawFrame.decoder,
    s.system.world.fs.content (Root.sample.finalAt (ascii "n")) = some (ascii "a") ∧
      s.sweep.isSome = true ∧
      (PublishedWhole .sample RawFrame.decoder sampleCatalog sampleFiles s.system.world.fs ∧
        ∀ t a, s.system.handlers t = .assembling a →
          Staged .sample sampleCatalog s.system.world.fs a) := by
  let events : List SweepEvent :=
    [.act (.thread 0 (.deliver {} sampleChunk)), .act (.thread 0 (.register {} 0)),
      .act (.thread 0 (.openPart {})), .begin 1 10000000000, .examine (ascii "n.part") 0,
      .act (.thread 0 (.decompress 1 {})), .act (.thread 0 (.finish {}))]
  have hrun : (run (sweepStep .sample) ⟨System.start RawFrame.decoder sampleFiles 1, none⟩
      events).any (fun s =>
        s.system.world.fs.content (Root.sample.finalAt (ascii "n")) = some (ascii "a") ∧
          s.sweep.isSome = true) = true := by decide +kernel
  obtain ⟨s, hs, hend⟩ := (Option.any_eq_true ..).mp hrun
  obtain ⟨hcontent, hsweep⟩ := of_decide_eq_true hend
  refine ⟨s, hcontent, hsweep, whole_under_sweeps separate_sample ?_ (reach_sweeps ?_ hs)⟩
  · intro id p h
    unfold sampleCatalog at h
    split at h
    · cases h
      decide
    · cases h
  · intro event hevent a ha
    subst ha
    simp only [events, List.mem_cons, List.not_mem_nil, or_false, SweepEvent.act.injEq,
      reduceCtorEq, false_or] at hevent
    rcases hevent with rfl | rfl | rfl | rfl | rfl
    · exact ⟨fun t ht => (Option.some.inj ht).symm, fun s => resends_sampleChunk s 0 {}⟩
    all_goals exact ⟨fun t ht => (Option.some.inj ht).symm, fun _ => trivial⟩

end SuperVoice.Server
