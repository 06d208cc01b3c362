import SuperVoice.Lib.RawFrame
import SuperVoice.Server.Tracking

/-! What publishing or expiring one payload leaves of the others. The places are composed from
client strings, so the answer is a condition on where these lead. -/
namespace SuperVoice.Server
open Bytes PosixPath FileStore FileStore.FileSystem StreamCodec Transition
variable {r : Root} {D : Decoder} {fs fs' : FileSystem} {record : PayloadRecord}
  {io : AssembleIo} {fuel : Nat} {l : Location} {id id' name : Bytes} {w : World}

/-- A place that publishing the payload `id` under `name` does not reach. -/
structure Beside (r : Root) (id name : Bytes) (removes : Bool) (l : Location) : Prop where
  part : l ≠ r.partAt name
  final : l ≠ r.finalAt name
  patches : removes = true → ¬ r.patchDirAt id <+: l

/-- The entry of the payload is still there, and so are its patch files, unaltered. -/
structure KeepsPayload (r : Root) (w w' : World) (id : Bytes) (e : PayloadEntry) : Prop where
  entry : w'.entry id = some e
  patches : ∀ i ∈ e.received, Keeps w.fs w'.fs (r.patchAt id i)

section Publishing

theorem link_of_removePatches {removes : Bool} {i : Nat}
    (hdir : record.patchesDir = manifestDir r id)
    (h : (removePatches r removes fs record).link l = some i) :
    fs.link l = some i ∧ (removes = true → ¬ r.patchDirAt id <+: l) := by
  cases removes with
  | false => exact ⟨h, by simp⟩
  | true =>
    simp only [removePatches, hdir, if_true, link_removeAll] at h
    split at h
    · cases h
    · next hout => exact ⟨h, fun _ => hout⟩

theorem keeps_of_beside {path : Path} (hdir : record.patchesDir = manifestDir r id)
    (h : assemble r D fuel io fs record = some (.returned (some path), fs'))
    (hl : Beside r id record.originalName io.removes l) : Keeps fs fs' l := by
  obtain ⟨fs₁, hwithin, -, hfs⟩ := assemble_effect h
  have hreach : Within (fun l => (l = r.partAt record.originalName ∨
      l = r.finalAt record.originalName) ∨ io.removes = true ∧ r.patchDirAt id <+: l) fs fs' := by
    obtain rfl | rfl := hfs
    · exact hwithin.mono fun _ => .inl
    · exact (hwithin.mono fun _ => .inl).trans
        ((within_removePatches io.removes hdir).mono fun _ => .inr)
  apply hreach.keeps
  intro hin
  obtain (hin | hin) | ⟨hremoves, hin⟩ := hin
  · exact hl.part hin
  · exact hl.final hin
  · exact hl.patches hremoves hin

/-- What names a file before and keeps it lies beside the publication, unless staging and final
place coincide. -/
theorem beside_of_keeps {path : Path} (hdir : record.patchesDir = manifestDir r id)
    (h : assemble r D fuel io fs record = some (.returned (some path), fs'))
    (hne : r.partAt record.originalName ≠ r.finalAt record.originalName)
    (hk : Keeps fs fs' l) (hl : fs.link l ≠ none) :
    Beside r id record.originalName io.removes l := by
  obtain ⟨hnone, -⟩ | ⟨fs₁, -, hwithin, -, -, rfl⟩ := assemble_cases h
  · exact absurd rfl (hnone path)
  obtain ⟨i, hi⟩ := Option.ne_none_iff_exists'.mp hl
  obtain ⟨hmoved, hout⟩ := link_of_removePatches hdir (hk i hi).1
  refine ⟨?_, ?_, hout⟩
  · rintro rfl
    rw [link_move_src hne] at hmoved
    cases hmoved
  · rintro rfl
    rw [link_move_dst] at hmoved
    have hstay : fs₁.link (r.finalAt record.originalName) = some i :=
      (hwithin.link _ hne.symm).trans hi
    exact hne (fs₁.link_inj hmoved hstay)

end Publishing

section Expiring

variable {removes : Bytes → Bool} {now : Int} {e : PayloadEntry}

/-- A pass drops the expired entries and no other. -/
theorem lookup_cleanupExpired : (cleanupExpired r removes now w).entry id =
    (w.entry id).filter fun e => !expired now e := by
  have hpass : (cleanupExpired r removes now w).entry id =
      (w.entry id).bind fun e => if expired now e then none else some e := by
    apply entry_forEntries
    intro w id e id' he
    cases expired now e with
    | true => exact entry_expireEntry
    | false =>
      by_cases hid : id' = id
      · simp [hid, he]
      · simp [hid]
  rw [hpass]
  cases w.entry id with
  | none => rfl
  | some e => cases hexp : expired now e <;> simp [Option.filter_some, hexp]

theorem entry_cleanupExpired (he : w.entry id = some e) (hlive : expired now e = false) :
    (cleanupExpired r removes now w).entry id = some e := by
  rw [lookup_cleanupExpired, he, Option.filter_some, hlive, if_pos (by decide)]

/-- A pass leaves nothing below the directory of an expired entry it gets to remove. -/
theorem link_cleanupExpired (he : w.entry id = some e) (hexp : expired now e = true)
    (hrem : removes id = true) (hl : r.locate e.record.patchesDir <+: l) :
    (cleanupExpired r removes now w).fs.link l = none := by
  unfold cleanupExpired
  apply forEntries_visits (P := fun w => w.fs.link l = none) he
  · intro w id' e' hid hw
    split
    · rw [entry_expireEntry, if_neg hid.symm, hw]
    · exact hw
  · intro w _
    rw [if_pos hexp]
    simp only [expireEntry, hrem, if_true, link_removeAll, if_pos hl]
  · intro w id' e' hw
    split
    · cases hr : removes id' with
      | false => simpa [expireEntry, hr] using hw
      | true => simp [expireEntry, hr, link_removeAll, hw]
    · exact hw

theorem keeps_cleanupExpired (h : ∀ id e, w.entry id = some e → expired now e = true →
    removes id = true → ¬ r.locate e.record.patchesDir <+: l) :
    Keeps w.fs (cleanupExpired r removes now w).fs l := by
  apply (cleaned_cleanupExpired removes now w).within.keeps
  rintro ⟨id, e, he, hexp, hrem, -, hl⟩
  exact h id e he hexp hrem hl

end Expiring

section Ordinary

/-- The patch files of another ordinary id lie beside what an ordinary name publishes. -/
theorem beside_of_ordinary {removes : Bool} {i : Nat} (hid : IsComponent id)
    (hid' : IsComponent id') (hn : IsComponent name) (hne : id' ≠ id) :
    Beside r id name removes (r.patchAt id' i) := by
  obtain ⟨hpart, hfinal⟩ := (nameApart_of_component r hn).patchAt_ne hid' i
  exact ⟨hpart, hfinal, fun _ h => hne (patchDirAt_covers hid hid' h).symm⟩

/-- A file published under another ordinary name is touched only as the staging file. -/
theorem beside_of_ordinary_name {removes : Bool} {name' : Bytes} (hid : IsComponent id)
    (hn : IsComponent name) (hn' : IsComponent name') (hne : name' ≠ name)
    (hpart : name' ≠ name ++ ascii ".part") : Beside r id name removes (r.finalAt name') := by
  refine ⟨fun h => hpart ?_, fun h => hne ?_,
    fun _ => ((nameApart_of_component r hn').not_below hid).2⟩
  · simpa [finalAt_eq hn', partAt_eq hn] using h
  · simpa [finalAt_eq hn', finalAt_eq hn] using h

end Ordinary

/-- On the way from `s₀` to `s` a handler has renamed its staging file to `name`. -/
def PublishedBefore (r : Root) (s₀ s : System D) (name : Bytes) : Prop :=
  ∃ m m' t io record, Reachable (step r) s₀ m ∧ step r m (.thread t (.finish io)) = some m' ∧
    m'.handlers t = .renamed record ∧ record.originalName = name ∧ Reachable (step r) m' s

/-- What `mark_published` leaves once the assembly has ended with the file system `fs`. -/
def System.marked (s : System D) (fs : FileSystem) (id : Bytes) : World :=
  markPublished { s.world with fs } id

/-- Publishing or expiring one payload keeps the others and what was published before. -/
structure Isolated (r : Root) (s₀ s : System D) : Prop where
  payload : ∀ id e id' e', s.world.entry id = some e → s.world.entry id' = some e' → id' ≠ id →
    ∀ fuel io path fs, assemble r D fuel io s.world.fs e.record = some (.returned (some path), fs) →
      KeepsPayload r s.world (s.marked fs id) id' e'
  file : ∀ id e, s.world.entry id = some e →
    ∀ fuel io path fs, assemble r D fuel io s.world.fs e.record = some (.returned (some path), fs) →
      ∀ name, PublishedBefore r s₀ s name → r.finalAt name ≠ r.finalAt e.record.originalName →
        Keeps s.world.fs (s.marked fs id).fs (r.finalAt name)
  expiry : ∀ id e id' e', s.world.entry id = some e → s.world.entry id' = some e' → id' ≠ id →
    ∀ removes now, expired now e = true → expired now e' = false →
      KeepsPayload r s.world (cleanupExpired r removes now s.world) id' e'

/-- No patch file of `e` lies where publishing `id` under `name` reaches. -/
def PatchesBeside (r : Root) (fs : FileSystem) (id name : Bytes) (removes : Bool) (id' : Bytes)
    (e : PayloadEntry) : Prop :=
  ∀ i ∈ e.received, fs.link (r.patchAt id' i) ≠ none → Beside r id name removes (r.patchAt id' i)

/-- No patch file of `e` lies below the directory of an expired payload that gets removed. -/
def PatchesOutside (r : Root) (w : World) (removes : Bytes → Bool) (now : Int) (id' : Bytes)
    (e : PayloadEntry) : Prop :=
  ∀ i ∈ e.received, w.fs.link (r.patchAt id' i) ≠ none →
    ∀ id e, w.entry id = some e → expired now e = true → removes id = true →
      ¬ r.patchDirAt id <+: r.patchAt id' i

theorem keepsPayload_marked_iff {s : System D} {path : Path} {e e' : PayloadEntry}
    (hdir : e.record.patchesDir = manifestDir r id) (hid : id' ≠ id)
    (he' : s.world.entry id' = some e')
    (h : assemble r D fuel io s.world.fs e.record = some (.returned (some path), fs)) :
    (PatchesBeside r s.world.fs id e.record.originalName io.removes id' e' →
      KeepsPayload r s.world (s.marked fs id) id' e') ∧
    (r.partAt e.record.originalName ≠ r.finalAt e.record.originalName →
      KeepsPayload r s.world (s.marked fs id) id' e' →
      PatchesBeside r s.world.fs id e.record.originalName io.removes id' e') := by
  constructor
  · intro hbeside
    refine ⟨?_, fun i hi j hj => ?_⟩
    · rw [System.marked, entry_markPublished, if_neg hid]
      exact he'
    · have hlinked : s.world.fs.link (r.patchAt id' i) ≠ none := by simp [hj]
      exact keeps_of_beside hdir h (hbeside i hi hlinked) j hj
  · intro hne hkeeps i hi hl
    exact beside_of_keeps hdir h hne (hkeeps.patches i hi) hl

theorem keeps_published_iff {s : System D} {path : Path} {e : PayloadEntry}
    (hdir : e.record.patchesDir = manifestDir r id)
    (h : assemble r D fuel io s.world.fs e.record = some (.returned (some path), fs))
    (hname : r.finalAt name ≠ r.finalAt e.record.originalName) :
    Keeps s.world.fs (s.marked fs id).fs (r.finalAt name) ↔
      (s.world.fs.link (r.finalAt name) ≠ none →
        Beside r id e.record.originalName io.removes (r.finalAt name)) := by
  constructor
  · intro hkeeps hl
    by_cases hne : r.partAt e.record.originalName = r.finalAt e.record.originalName
    · obtain ⟨i, hi⟩ := Option.ne_none_iff_exists'.mp hl
      obtain ⟨hnone, -⟩ | ⟨fs₁, -, -, -, -, rfl⟩ := assemble_cases h
      · exact absurd rfl (hnone path)
      · exact ⟨hne ▸ hname, hname, (link_of_removePatches hdir (hkeeps i hi).1).2⟩
    · exact beside_of_keeps hdir h hne hkeeps hl
  · intro hbeside i hi
    have hlinked : s.world.fs.link (r.finalAt name) ≠ none := by simp [hi]
    exact keeps_of_beside hdir h (hbeside hlinked) i hi

theorem keepsPayload_cleanupExpired_iff {removes : Bytes → Bool} {now : Int} {e' : PayloadEntry}
    (hdir : ∀ id e, w.entry id = some e → e.record.patchesDir = manifestDir r id)
    (he' : w.entry id' = some e') (hlive : expired now e' = false) :
    KeepsPayload r w (cleanupExpired r removes now w) id' e' ↔
      PatchesOutside r w removes now id' e' := by
  constructor
  · intro hkeeps i hi hl id e he hexp hrem hbelow
    obtain ⟨j, hj⟩ := Option.ne_none_iff_exists'.mp hl
    have hgone : (cleanupExpired r removes now w).fs.link (r.patchAt id' i) = none := by
      apply link_cleanupExpired he hexp hrem
      rw [hdir id e he]
      exact hbelow
    rw [(hkeeps.patches i hi j hj).1] at hgone
    cases hgone
  · intro hout
    refine ⟨entry_cleanupExpired he' hlive, fun i hi j hj => ?_⟩
    refine keeps_cleanupExpired (fun id e he hexp hrem => ?_) j hj
    rw [hdir id e he]
    exact hout i hi (by simp [hj]) id e he hexp hrem

/-- Payload `x` is complete and payload `y` half there. -/
def twoPayloads : List Action :=
  [.thread 0 (.deliver {} (.sealed (ascii "x") (ascii "n") 0 1 1 (RawFrame.frame (ascii "a")))),
    .thread 0 (.register {} 0),
    .thread 1 (.deliver {} (.sealed (ascii "y") (ascii "m") 0 2 100 (ascii "b"))),
    .thread 1 (.register {} 0)]

end SuperVoice.Server
