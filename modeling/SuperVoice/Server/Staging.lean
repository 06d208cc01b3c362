import SuperVoice.Lib.RawFrame
import SuperVoice.Server.Effects

/-! What a run of `assemble` leaves in the files directory. The staging file is an ordinary file
of that directory, opened before anything is read and left where it is when the rename fails or a
chunk file cannot be read. -/
namespace SuperVoice.Server
open Bytes PosixPath FileStore FileStore.FileSystem StreamCodec
variable {r : Root} {D : Decoder} {fs fs' : FileSystem} {record : PayloadRecord} {io : AssembleIo}
  {fuel k : Nat} {out : Bytes} {s : D.State} {p : Nat} {a : Assembly D}

/-- What the run reads as a chunk: its own staging file so far, or the file as it was. -/
def chunkSource (r : Root) (fs : FileSystem) (record : PayloadRecord) (out : Bytes) (path : Path) :
    Option Bytes :=
  if r.locate path = r.partAt record.originalName then some out else fs.content (r.locate path)

/-- The first `k` chunks can be read, decoded and written one after the other; together they give
`out`. -/
inductive Written (r : Root) (D : Decoder) (io : AssembleIo) (fs : FileSystem)
    (record : PayloadRecord) : Nat → Bytes → D.State → Nat → Prop where
  | start : Written r D io fs record 0 [] D.init 0
  | chunk {k n p p' : Nat} {out input o : Bytes} {s s' : D.State} {path : Path}
      (h : Written r D io fs record k out s p) (hpath : record.chunkFiles[k]? = some path)
      (hnamed : path ≠ []) (hopens : (io.chunk k).opens = true)
      (hreads : (io.chunk k).reads = true)
      (hsource : chunkSource r fs record out path = some input)
      (hdrive : drive D.call n s p input = some ⟨o, some (s', p')⟩)
      (hflush : (io.chunk k).flush o = o) : Written r D io fs record (k + 1) (out ++ o) s' p'

theorem Written.unique {out' : Bytes} {s' : D.State} {p' : Nat}
    (h : Written r D io fs record k out s p) (h' : Written r D io fs record k out' s' p') :
    out = out' ∧ s = s' ∧ p = p' := by
  induction h generalizing out' s' p' with
  | start =>
    cases h'
    exact ⟨rfl, rfl, rfl⟩
  | chunk h hpath hnamed hopens hreads hsource hdrive hflush ih =>
    cases h' with
    | chunk h' hpath' _ _ _ hsource' hdrive' _ =>
      obtain ⟨rfl, rfl, rfl⟩ := ih h'
      rw [hpath] at hpath'
      cases hpath'
      rw [hsource] at hsource'
      cases hsource'
      cases drive_unique hdrive hdrive'
      exact ⟨rfl, rfl, rfl⟩

/-- To write more chunks is to write the first ones. -/
theorem Written.earlier {n : Nat} (h : Written r D io fs record n out s p) (hk : k ≤ n) :
    ∃ out s p, Written r D io fs record k out s p := by
  induction h with
  | start =>
    obtain rfl := Nat.le_zero.mp hk
    exact ⟨_, _, _, .start⟩
  | chunk h hpath hnamed hopens hreads hsource hdrive hflush ih =>
    obtain hlt | rfl := Nat.le_succ_iff.mp hk
    · exact ih hlt
    · exact ⟨_, _, _, .chunk h hpath hnamed hopens hreads hsource hdrive hflush⟩

/-- The first `k` chunks give `out`, and the next chunk file opens but cannot be read: the read
fails, or it is a directory. -/
structure ThrowsAt (r : Root) (D : Decoder) (io : AssembleIo) (fs : FileSystem)
    (record : PayloadRecord) (k : Nat) (out : Bytes) (path : Path) : Prop where
  written : ∃ s p, Written r D io fs record k out s p
  listed : record.chunkFiles[k]? = some path
  named : path ≠ []
  opens : (io.chunk k).opens = true
  unreadable : (chunkSource r fs record out path).isSome = true ∧ (io.chunk k).reads = false ∨
    chunkSource r fs record out path = none ∧ fs.dirs (r.locate path) = true

theorem ThrowsAt.not_written {path : Path} {out' : Bytes} {s : D.State} {p n : Nat}
    (h : ThrowsAt r D io fs record k out path) (hk : k < n) :
    ¬Written r D io fs record n out' s p := by
  intro hw
  obtain ⟨_, _, _, hw⟩ := hw.earlier (Nat.succ_le_of_lt hk)
  cases hw with
  | chunk hw hpath _ _ hreads hsource _ _ =>
    obtain ⟨_, _, hw'⟩ := h.written
    obtain ⟨rfl, -, -⟩ := hw.unique hw'
    cases hpath.symm.trans h.listed
    obtain ⟨-, hrefused⟩ | ⟨hnone, -⟩ := h.unreadable
    · cases hreads.symm.trans hrefused
    · cases hsource.symm.trans hnone

/-- The chunk loop gets to a chunk file that cannot be read. -/
def Throws (r : Root) (D : Decoder) (io : AssembleIo) (fs : FileSystem) (record : PayloadRecord) :
    Prop :=
  io.createsStream = true ∧
    ∃ k out path, k < record.totalChunks ∧ ThrowsAt r D io fs record k out path

theorem not_throws (hreads : ∀ k, (io.chunk k).reads = true)
    (hdirs : ∀ path ∈ record.chunkFiles, fs.dirs (r.locate path) = false) :
    ¬Throws r D io fs record := by
  rintro ⟨-, k, out, path, -, h⟩
  obtain ⟨-, hrefused⟩ | ⟨-, hdir⟩ := h.unreadable
  · cases (hreads k).symm.trans hrefused
  · cases (hdirs path (List.mem_of_getElem? h.listed)).symm.trans hdir

/-- The record is complete and its staging file can be opened, which empties it. -/
structure OpensPart (r : Root) (io : AssembleIo) (fs : FileSystem) (record : PayloadRecord) :
    Prop where
  complete : record.chunkFiles.length = record.totalChunks
  granted : io.opens = true
  place : fs.canHold (r.partAt record.originalName) = true

/-- Everything up to the rename goes through and gives `out`. -/
structure Completes (r : Root) (D : Decoder) (io : AssembleIo) (fs : FileSystem)
    (record : PayloadRecord) (out : Bytes) : Prop where
  stream : io.createsStream = true
  written : ∃ s, Written r D io fs record record.totalChunks out s 0
  syncs : io.syncs = true

theorem Completes.unique {out' : Bytes} (h : Completes r D io fs record out)
    (h' : Completes r D io fs record out') : out = out' := by
  obtain ⟨s, hw⟩ := h.written
  obtain ⟨s', hw'⟩ := h'.written
  exact (hw.unique hw').1

theorem Completes.not_throws (h : Completes r D io fs record out) : ¬Throws r D io fs record := by
  rintro ⟨-, k, out', path, hk, ht⟩
  obtain ⟨s, hw⟩ := h.written
  exact ht.not_written hk hw

/-- The rename is not refused. -/
def Renames (r : Root) (io : AssembleIo) (fs : FileSystem) (record : PayloadRecord) : Prop :=
  io.renames = true ∧ fs.canHold (r.finalAt record.originalName) = true

section Loop

/-- The staging file holds what the chunks read so far give, and no other file has changed. -/
structure Filling (r : Root) (D : Decoder) (io : AssembleIo) (fs₀ : FileSystem)
    (record : PayloadRecord) (fs : FileSystem) (a : Assembly D) (out : Bytes) : Prop where
  record_eq : a.record = record
  link : fs.link (r.partAt record.originalName) = some a.outFd
  data : fs.data a.outFd = out
  length : a.written = out.length
  within : Within (· = r.partAt record.originalName) fs₀ fs
  dirs : fs.dirs = fs₀.dirs
  written : Written r D io fs₀ record a.idx out a.stream a.pending

variable {fs₀ : FileSystem}

theorem Filling.content (h : Filling r D io fs₀ record fs a out) (path : Path) :
    fs.content (r.locate path) = chunkSource r fs₀ record out path := by
  unfold chunkSource
  split
  · next he => rw [he, FileSystem.content, h.link, Option.map_some, h.data]
  · next hne => exact h.within.content hne

theorem decompressChunk_read {cio : ChunkIo} {a' : Assembly D}
    (h : decompressChunk r fuel cio fs a = some (.ok a', fs')) :
    ∃ path input, a.record.chunkFiles[a.idx]? = some path ∧
      readChunk r cio fs path = .ok input := by
  unfold decompressChunk at h
  split at h
  · cases h
  · next path hpath =>
    split at h
    · cases h
    · next input hread => exact ⟨path, input, hpath, hread⟩

/-- A chunk that can be written is written. -/
theorem decompressChunk_written {cio : ChunkIo} {oa : Except Stop (Assembly D)} {n p' : Nat}
    {path : Path} {input o : Bytes} {s' : D.State}
    (hpath : a.record.chunkFiles[a.idx]? = some path)
    (hread : readChunk r cio fs path = .ok input)
    (hdrive : drive D.call n a.stream a.pending input = some ⟨o, some (s', p')⟩)
    (hflush : cio.flush o = o) (h : decompressChunk r fuel cio fs a = some (oa, fs')) :
    ∃ a', oa = .ok a' := by
  simp only [decompressChunk, hpath, hread] at h
  obtain ⟨fed, hfed, heq⟩ := Option.map_eq_some_iff.mp h
  cases drive_unique hfed hdrive
  simp only [hflush, if_true] at heq
  cases heq
  exact ⟨_, rfl⟩

/-- The exception of a round is that of reading its chunk file. -/
theorem decompressChunk_stop {cio : ChunkIo} {stop : Stop}
    (h : decompressChunk r fuel cio fs a = some (.error stop, fs')) :
    stop = .thrown ↔ ∃ path, a.record.chunkFiles[a.idx]? = some path ∧
      readChunk r cio fs path = .error .thrown := by
  unfold decompressChunk at h
  split at h
  · next hpath =>
    cases h
    simp [hpath]
  · next path hpath =>
    split at h
    · next hread =>
      cases h
      simp [hpath, hread]
    · next input hread =>
      obtain ⟨fed, -, heq⟩ := Option.map_eq_some_iff.mp h
      have hfailed : stop = .failed := by
        dsimp only at heq
        split at heq
        · cases heq
          rfl
        · split at heq
          · cases heq
          · cases heq
            rfl
      simp [hfailed, hpath, hread]

theorem readChunk_thrown {cio : ChunkIo} {path : Path} :
    readChunk r cio fs path = .error .thrown ↔ path ≠ [] ∧ cio.opens = true ∧
      ((fs.content (r.locate path)).isSome = true ∧ cio.reads = false ∨
        fs.content (r.locate path) = none ∧ fs.dirs (r.locate path) = true) := by
  unfold readChunk
  split
  · next hstop =>
    refine iff_of_false (fun h => by cases h) fun h => ?_
    simp [h.1, h.2.1] at hstop
  · next hgo =>
    have hboth : path ≠ [] ∧ cio.opens = true := by simpa using hgo
    cases fs.content (r.locate path) with
    | none => by_cases hdir : fs.dirs (r.locate path) = true <;> simp [hboth.1, hboth.2, hdir]
    | some content => by_cases hreads : cio.reads = true <;> simp [hboth.1, hboth.2, hreads]

/-- One round goes on with one more chunk, unless that chunk cannot be written. -/
theorem Filling.step {a' : Assembly D} (h : Filling r D io fs₀ record fs a out)
    (hd : decompressChunk r fuel (io.chunk a.idx) fs a = some (.ok a', fs')) :
    a'.idx = a.idx + 1 ∧ ∃ out', Filling r D io fs₀ record fs' a' out' := by
  have hself : fs.link (r.partAt record.originalName) = some a.outFd := h.link
  have hwithin := within_decompressChunk hself hd
  obtain ⟨hlink, hdirs⟩ := decompressChunk_link hd
  obtain ⟨_, _, hfirst, hread⟩ := decompressChunk_read hd
  obtain ⟨hnamed, hopens, hreads, -⟩ := readChunk_eq_ok.mp hread
  obtain ⟨⟨_, hstop⟩, -⟩ | ⟨path, input, fed, hpath, hinput, hfed, rfl, hnext⟩ :=
    decompressChunk_cases hd
  · cases hstop
  obtain ⟨hflush, stream, pending, hfednext, rfl⟩ := hnext a' rfl
  rw [hfirst] at hpath
  cases hpath
  have hdrive : drive D.call fuel a.stream a.pending input =
      some ⟨fed.output, some (stream, pending)⟩ := by rw [hfed, ← hfednext]
  refine ⟨rfl, out ++ fed.output, h.record_eq, hlink ▸ hself, ?_, ?_, h.within.trans hwithin,
    hdirs.trans h.dirs, ?_⟩
  · rw [hflush]
    exact data_write_self.trans (by rw [h.data, h.length, overwrite_end])
  · rw [List.length_append, ← h.length]
  · rw [h.content] at hinput
    rw [h.record_eq] at hfirst
    exact .chunk h.written hfirst hnamed hopens hreads hinput hdrive hflush

theorem Filling.stuck {stop : Stop} (h : Filling r D io fs₀ record fs a out)
    (hd : decompressChunk r fuel (io.chunk a.idx) fs a = some (.error stop, fs')) {out' : Bytes}
    {s' : D.State} {p' : Nat} : ¬Written r D io fs₀ record (a.idx + 1) out' s' p' := by
  intro hw
  cases hw with
  | chunk hw hpath hnamed hopens hreads hsource hdrive hflush =>
    obtain ⟨rfl, rfl, rfl⟩ := h.written.unique hw
    rw [← h.content] at hsource
    rw [← h.record_eq] at hpath
    obtain ⟨_, hok⟩ := decompressChunk_written hpath
      (readChunk_eq_ok.mpr ⟨hnamed, hopens, hreads, hsource⟩) hdrive hflush hd
    cases hok

/-- A round ends with an exception exactly where the next chunk file cannot be read. -/
theorem Filling.thrown_iff {stop : Stop} (h : Filling r D io fs₀ record fs a out)
    (hd : decompressChunk r fuel (io.chunk a.idx) fs a = some (.error stop, fs')) :
    stop = .thrown ↔ ∃ out path, ThrowsAt r D io fs₀ record a.idx out path := by
  rw [decompressChunk_stop hd, h.record_eq]
  constructor
  · rintro ⟨path, hpath, hread⟩
    obtain ⟨hnamed, hopens, hunreadable⟩ := readChunk_thrown.mp hread
    rw [h.content, h.dirs] at hunreadable
    exact ⟨out, path, ⟨_, _, h.written⟩, hpath, hnamed, hopens, hunreadable⟩
  · rintro ⟨out', path, ht⟩
    obtain ⟨_, _, hw⟩ := ht.written
    obtain ⟨rfl, -, -⟩ := h.written.unique hw
    refine ⟨path, ht.listed, readChunk_thrown.mpr ⟨ht.named, ht.opens, ?_⟩⟩
    rw [h.content, h.dirs]
    exact ht.unreadable

/-- The loop ends with all chunks written, unless they cannot all be: then it stops at the first
that cannot, with an exception if that is because it cannot be read. -/
theorem Filling.loop {n : Nat} {oa : Except Stop (Assembly D)}
    (h : Filling r D io fs₀ record fs a out)
    (hl : assembleChunks r fuel io n fs a = some (oa, fs')) :
    (∃ a' out', oa = .ok a' ∧ a'.idx = a.idx + n ∧ Filling r D io fs₀ record fs' a' out') ∨
    ∃ stop, oa = .error stop ∧ Within (· = r.partAt record.originalName) fs₀ fs' ∧
      fs'.dirs = fs₀.dirs ∧ (∀ out s p, ¬Written r D io fs₀ record (a.idx + n) out s p) ∧
      (stop = .thrown ↔
        ∃ k out path, k < a.idx + n ∧ ThrowsAt r D io fs₀ record k out path) := by
  induction n generalizing fs a out with
  | zero =>
    cases hl
    exact .inl ⟨a, out, rfl, rfl, h⟩
  | succ n ih =>
    unfold assembleChunks at hl
    split at hl
    · cases hl
    · next hd =>
      cases hl
      refine .inr ⟨_, rfl, h.within.trans (within_decompressChunk h.link hd),
        (decompressChunk_link hd).2.trans h.dirs, fun out' s' p' hw => ?_, ?_⟩
      · obtain ⟨out₁, s₁, p₁, hw₁⟩ := hw.earlier (k := a.idx + 1) (by omega)
        exact h.stuck hd hw₁
      · rw [h.thrown_iff hd]
        constructor
        · rintro ⟨out', path, ht⟩
          exact ⟨a.idx, out', path, by omega, ht⟩
        · rintro ⟨k, out', path, -, ht⟩
          -- nothing before the chunk of this round can throw, and nothing after it is reached
          obtain hlt | rfl | hlt := Nat.lt_trichotomy k a.idx
          · exact absurd h.written (ht.not_written hlt)
          · exact ⟨out', path, ht⟩
          · obtain ⟨_, _, hw⟩ := ht.written
            obtain ⟨_, _, _, hw₁⟩ := hw.earlier (Nat.succ_le_of_lt hlt)
            exact absurd hw₁ (h.stuck hd)
    · next a₁ fs₁ hd =>
      obtain ⟨hidx, out₁, h₁⟩ := h.step hd
      have hrest := ih h₁ hl
      rwa [hidx, Nat.add_assoc, Nat.add_comm 1 n] at hrest

end Loop

/-- Every way a run can end, told apart by its inputs. -/
inductive AssembleEnd (r : Root) (D : Decoder) (io : AssembleIo) (fs : FileSystem)
    (record : PayloadRecord) : Outcome (Option Path) → FileSystem → Prop where
  /-- The staging file is not opened. -/
  | unopened {fs' : FileSystem} (hno : ¬OpensPart r io fs record)
      (hw : Within (fun _ => False) fs fs') (hd : fs'.dirs = fs.dirs) :
      AssembleEnd r D io fs record (.returned none) fs'
  /-- Reading a chunk file throws, and the staging file stays. -/
  | thrown {fs' : FileSystem} (ho : OpensPart r io fs record) (ht : Throws r D io fs record) :
      AssembleEnd r D io fs record .thrown fs'
  /-- Something fails before the rename, and the staging file is removed. -/
  | discarded {fs' : FileSystem} (ho : OpensPart r io fs record)
      (hread : ¬Throws r D io fs record) (hno : ∀ out, ¬Completes r D io fs record out)
      (hw : Within (· = r.partAt record.originalName) fs fs') (hd : fs'.dirs = fs.dirs)
      (hgone : fs'.link (r.partAt record.originalName) = none) :
      AssembleEnd r D io fs record (.returned none) fs'
  /-- The rename fails, and the staging file stays. -/
  | lost {fs' : FileSystem} {out : Bytes} (ho : OpensPart r io fs record)
      (hc : Completes r D io fs record out) (hno : ¬Renames r io fs record)
      (hw : Within (· = r.partAt record.originalName) fs fs') (hd : fs'.dirs = fs.dirs)
      (hpart : fs'.content (r.partAt record.originalName) = some out) :
      AssembleEnd r D io fs record (.returned none) fs'
  | published {fs₁ : FileSystem} {out : Bytes} (ho : OpensPart r io fs record)
      (hc : Completes r D io fs record out) (hyes : Renames r io fs record)
      (hpart : fs₁.content (r.partAt record.originalName) = some out) :
      AssembleEnd r D io fs record (.returned (some (finalPath r record))) (removePatches r io.removes
        (fs₁.move (r.partAt record.originalName) (r.finalAt record.originalName)) record)

theorem openPart_none (h : openPart r D io fs record = (none, fs')) :
    (¬OpensPart r io fs record ∧ Within (fun _ => False) fs fs' ∧ fs'.dirs = fs.dirs) ∨
    (OpensPart r io fs record ∧ io.createsStream = false ∧
      Within (· = r.partAt record.originalName) fs fs' ∧ fs'.dirs = fs.dirs ∧
      fs'.link (r.partAt record.originalName) = none) := by
  have hpart := within_openPart r D fs record io
  have hdirs : (openPart r D io fs record).2.dirs = fs.dirs := dirs_openPart
  rw [h] at hpart hdirs
  unfold openPart at h
  split at h
  · next hlen =>
    cases h
    exact .inl ⟨fun ho => hlen ho.complete, .refl _ _, rfl⟩
  · next hlen =>
    dsimp only at h
    split at h
    · next hopens =>
      split at h
      · next hop =>
        cases h
        refine .inl ⟨fun ho => ?_, ?_, hdirs⟩
        · obtain ⟨i, fs₁, hsome⟩ := openTrunc_of_canHold ho.place
          rw [Root.partAt, ← partPath, hop] at hsome
          cases hsome
        · rw [openTrunc_none hop]
          exact within_log _ _
      · next hop =>
        split at h
        · cases h
        · next hstream =>
          cases h
          have hplace : fs.canHold (r.partAt record.originalName) = true := by
            by_contra hno
            rw [Root.partAt, ← partPath] at hno
            simp [openTrunc, hno] at hop
          refine .inr ⟨⟨not_not.mp hlen, hopens, hplace⟩, by simpa using hstream, hpart, hdirs, ?_⟩
          simp [unlink, forget, Root.partAt, partPath]
    · next hopens =>
      cases h
      exact .inl ⟨fun ho => hopens ho.granted, within_log _ _, rfl⟩

theorem opensPart_of_some (h : openPart r D io fs record = (some a, fs')) :
    OpensPart r io fs record ∧ io.createsStream = true := by
  unfold openPart at h
  split at h
  · cases h
  · next hlen =>
    dsimp only at h
    split at h
    · next hopens =>
      split at h
      · cases h
      · next hop =>
        split at h
        · next hstream =>
          refine ⟨⟨not_not.mp hlen, hopens, ?_⟩, hstream⟩
          by_contra hno
          rw [Root.partAt, ← partPath] at hno
          simp [openTrunc, hno] at hop
        · cases h
    · cases h

/-- How the run goes on when all chunks are written. -/
theorem finishPart_end {fs₀ : FileSystem} {f : Finished}
    (h : Filling r D io fs₀ record fs a out) (hf : finishPart r io fs a = (f, fs')) :
    (f = .aborted ∧ fs' = fs ∧ ¬(a.pending = 0 ∧ io.syncs = true)) ∨
    (a.pending = 0 ∧ io.syncs = true ∧
      ((f = .lost ∧ ¬Renames r io fs₀ record ∧
          fs' = fs.log (.rename (r.partAt record.originalName) (r.finalAt record.originalName))) ∨
        (f = .published ∧ Renames r io fs₀ record ∧
          fs' = (fs.log (.rename (r.partAt record.originalName)
            (r.finalAt record.originalName))).move (r.partAt record.originalName)
              (r.finalAt record.originalName)))) := by
  have hlink : (fs.link (r.partAt record.originalName)).isSome = true := by simp [h.link]
  have hplace : fs.canHold (r.finalAt record.originalName) =
      fs₀.canHold (r.finalAt record.originalName) := by rw [canHold, canHold, h.dirs]
  unfold finishPart at hf
  rw [h.record_eq] at hf
  split at hf
  · next hstop =>
    cases hf
    refine .inl ⟨rfl, rfl, fun hgo => ?_⟩
    simp [hgo.1, hgo.2] at hstop
  · next hgo =>
    have hboth : a.pending = 0 ∧ io.syncs = true := by simpa using hgo
    refine .inr ⟨hboth.1, hboth.2, ?_⟩
    dsimp only at hf
    split at hf
    · next hren =>
      split at hf
      · next hmoved =>
        cases hf
        have hhold : fs.canHold (r.finalAt record.originalName) = true := by
          by_contra hno
          rw [Root.finalAt, ← finalPath] at hno
          simp [rename, hno] at hmoved
        exact .inr ⟨rfl, ⟨hren, hplace ▸ hhold⟩, (rename_true hmoved).2⟩
      · next hstays =>
        cases hf
        refine .inl ⟨rfl, fun hyes => ?_, rename_false hstays⟩
        have hmove := rename_of_canHold hlink (hplace.trans hyes.2)
        rw [Root.partAt, Root.finalAt, ← partPath, ← finalPath, hstays] at hmove
        cases hmove
    · next hren =>
      cases hf
      exact .inl ⟨rfl, fun hyes => hren hyes.1, rfl⟩

theorem link_abortPart : (abortPart r fs record).link (r.partAt record.originalName) = none := by
  simp [abortPart, unlink, forget, Root.partAt, partPath]

theorem assemble_end {o : Outcome (Option Path)}
    (h : assemble r D fuel io fs record = some (o, fs')) :
    AssembleEnd r D io fs record o fs' := by
  unfold assemble at h
  split at h
  · next hopen =>
    cases h
    obtain ⟨hno, hw, hd⟩ | ⟨ho, hstream, hw, hd, hgone⟩ := openPart_none hopen
    · exact .unopened hno hw hd
    · refine .discarded ho (fun ht => ?_) (fun out hc => ?_) hw hd hgone
      · cases ht.1.symm.trans hstream
      · cases hc.stream.symm.trans hstream
  · next a fs₁ hopen =>
    obtain ⟨-, ha, hopened⟩ := openPart_some hopen
    obtain ⟨ho, hstream⟩ := opensPart_of_some hopen
    have hstart : Filling r D io fs record fs₁ a [] := by
      rw [ha]
      exact ⟨rfl, hopened.link_self, hopened.data_self, rfl, hopened.within, hopened.dirs, .start⟩
    have hidx : a.idx = 0 := congrArg Assembly.idx ha
    split at h
    · cases h
    · next fs₂ hchunks =>
      cases h
      obtain ⟨a', out, hok, -⟩ | ⟨stop, hstop, -, -, -, hthrown⟩ := hstart.loop hchunks
      · cases hok
      cases hstop
      rw [hidx, Nat.zero_add] at hthrown
      exact .thrown ho ⟨hstream, hthrown.mp rfl⟩
    · next fs₂ hchunks =>
      cases h
      obtain ⟨a', out, hok, -⟩ | ⟨stop, hstop, hw, hd, hnever, hthrown⟩ := hstart.loop hchunks
      · cases hok
      cases hstop
      rw [hidx, Nat.zero_add] at hnever hthrown
      refine .discarded ho (fun ht => ?_) (fun out hc => ?_) (hw.trans within_abortPart) hd
        link_abortPart
      · cases hthrown.mpr ht.2
      · obtain ⟨s, hwritten⟩ := hc.written
        exact hnever out s 0 hwritten
    · next a₂ fs₂ hchunks =>
      obtain ⟨a', out, hok, hend, hfill⟩ | ⟨_, hstop, -⟩ := hstart.loop hchunks
      swap
      · cases hstop
      cases hok
      have hwritten := hfill.written
      rw [hend, hidx, Nat.zero_add] at hwritten
      have hcontent : fs₂.content (r.partAt record.originalName) = some out := by
        rw [FileSystem.content, hfill.link, Option.map_some, hfill.data]
      have hcompletes : a₂.pending = 0 → io.syncs = true → Completes r D io fs record out :=
        fun hp hs => ⟨hstream, ⟨a₂.stream, hp ▸ hwritten⟩, hs⟩
      split at h
      · next hfinish =>
        cases h
        obtain ⟨-, rfl, hstop⟩ | ⟨-, -, ⟨hf, -⟩ | ⟨hf, -⟩⟩ := finishPart_end hfill hfinish
        · refine .discarded ho (fun ht => ?_) (fun out' hc => hstop ?_)
            (hfill.within.trans within_abortPart) hfill.dirs link_abortPart
          · obtain ⟨-, k, out', path, hk, ht⟩ := ht
            exact ht.not_written hk hwritten
          · obtain ⟨s, hall⟩ := hc.written
            exact ⟨(hwritten.unique hall).2.2, hc.syncs⟩
        · cases hf
        · cases hf
      · next hfinish =>
        cases h
        obtain ⟨hf, -⟩ | ⟨hp, hs, ⟨-, hno, rfl⟩ | ⟨hf, -⟩⟩ := finishPart_end hfill hfinish
        · cases hf
        · exact .lost ho (hcompletes hp hs) hno (hfill.within.trans (within_log _ _)) hfill.dirs
            hcontent
        · cases hf
      · next hfinish =>
        cases h
        obtain ⟨hf, -⟩ | ⟨hp, hs, ⟨hf, -⟩ | ⟨-, hyes, rfl⟩⟩ := finishPart_end hfill hfinish
        · cases hf
        · cases hf
        · exact .published ho (hcompletes hp hs) hyes hcontent

/-- The files directory, the staging place and the patch directory are as before. -/
structure LeftAlone (r : Root) (record : PayloadRecord) (fs fs' : FileSystem) : Prop where
  files : ∀ l, r.files <+: l ∨ l = r.partAt record.originalName →
    fs'.content l = fs.content l ∧ fs'.dirs l = fs.dirs l
  patches : ∀ l, r.locate record.patchesDir <+: l →
    fs'.content l = fs.content l ∧ fs'.dirs l = fs.dirs l

/-- The chunk files of the record hold `bs`. -/
structure ChunksHold (r : Root) (fs : FileSystem) (record : PayloadRecord) (bs : List Bytes) :
    Prop where
  length : bs.length = record.totalChunks
  chunk : ∀ i < record.totalChunks, ∃ path, record.chunkFiles[i]? = some path ∧
    fs.content (r.locate path) = bs[i]?

/-- The published file is what the chunks decompress to, and there is no other staging file. -/
structure Replaced (r : Root) (D : Decoder) (record : PayloadRecord) (fs fs' : FileSystem) :
    Prop where
  content : ∃ bs out, ChunksHold r fs record bs ∧ D.DecompressesTo bs out ∧
    fs'.content (r.finalAt record.originalName) = some out
  part : r.partAt record.originalName ≠ r.finalAt record.originalName →
    fs'.link (r.partAt record.originalName) = none

/-- Nothing happens, or everything. A run that throws does neither. -/
def AllOrNothing (r : Root) (D : Decoder) (record : PayloadRecord) (fs : FileSystem) :
    Outcome (Option Path) → FileSystem → Prop
  | .returned none, fs' => LeftAlone r record fs fs'
  | .returned (some path), fs' => path = finalPath r record ∧ Replaced r D record fs fs'
  | .thrown, _ => False

/-- A chunk file of the record is its staging file. -/
def Rereads (r : Root) (record : PayloadRecord) : Prop :=
  ∃ path ∈ record.chunkFiles, r.locate path = r.partAt record.originalName

/-- The staging file gets in nobody's way, whatever becomes of it. -/
structure StagesAside (r : Root) (D : Decoder) (io : AssembleIo) (fs : FileSystem)
    (record : PayloadRecord) : Prop where
  discarded : (∀ out, ¬Completes r D io fs record out) →
    fs.link (r.partAt record.originalName) = none
  lost : ∀ out, Completes r D io fs record out → ¬Renames r io fs record →
    fs.content (r.partAt record.originalName) = some out
  published : ∀ out, Completes r D io fs record out → Renames r io fs record →
    (io.removes = true → ¬r.locate record.patchesDir <+: r.finalAt record.originalName) ∧
      (Rereads r record → ∃ bs, ChunksHold r fs record bs ∧ D.DecompressesTo bs out)

/-- What is written without rereading is what the chunk files decode to. -/
theorem Written.decoding (hno : ¬Rereads r record) (h : Written r D io fs record k out s p) :
    ∃ bs, bs.length = k ∧ D.Decoding bs out s p ∧ ∀ i < k, ∃ path,
      record.chunkFiles[i]? = some path ∧ fs.content (r.locate path) = bs[i]? := by
  induction h with
  | start => exact ⟨[], rfl, .nil, by simp⟩
  | @chunk k n p p' out input o s s' path h hpath hnamed hopens hreads hsource hdrive hflush ih =>
    obtain ⟨bs, hlen, hdec, hall⟩ := ih
    have hother : r.locate path ≠ r.partAt record.originalName := fun he =>
      hno ⟨path, List.mem_of_getElem? hpath, he⟩
    rw [chunkSource, if_neg hother] at hsource
    refine ⟨bs ++ [input], by simp [hlen], .snoc hdec hdrive, fun i hi => ?_⟩
    obtain hlt | rfl := Nat.lt_succ_iff_lt_or_eq.mp hi
    · obtain ⟨path', hpath', hcontent⟩ := hall i hlt
      exact ⟨path', hpath', by rw [hcontent, List.getElem?_append_left (hlen ▸ hlt)]⟩
    · exact ⟨path, hpath, by rw [hsource, ← hlen, List.getElem?_concat_length]⟩

theorem leftAlone_iff (hw : Within (· = r.partAt record.originalName) fs fs')
    (hd : fs'.dirs = fs.dirs) : LeftAlone r record fs fs' ↔
      fs'.content (r.partAt record.originalName) = fs.content (r.partAt record.originalName) := by
  constructor
  · intro h
    exact (h.files _ (.inr rfl)).1
  · intro hpart
    have hall : ∀ l, fs'.content l = fs.content l ∧ fs'.dirs l = fs.dirs l := by
      intro l
      refine ⟨?_, congrFun hd l⟩
      by_cases hl : l = r.partAt record.originalName
      · rw [hl, hpart]
      · exact hw.content hl
    exact ⟨fun l _ => hall l, fun l _ => hall l⟩

theorem content_eq_none : fs.content l = none ↔ fs.link l = none := Option.map_eq_none_iff

theorem Completes.chunksHold (h : Completes r D io fs record out) (hno : ¬Rereads r record) :
    ∃ bs, ChunksHold r fs record bs ∧ D.DecompressesTo bs out := by
  obtain ⟨s, hw⟩ := h.written
  obtain ⟨bs, hlen, hdec, hall⟩ := hw.decoding hno
  exact ⟨bs, ⟨hlen, hall⟩, s, hdec⟩

/-- The published file is there and complete unless it goes with the patches, or the chunk files
held something else. -/
theorem replaced_iff {fs₁ : FileSystem}
    (hpart : fs₁.content (r.partAt record.originalName) = some out) :
    Replaced r D record fs (removePatches r io.removes
        (fs₁.move (r.partAt record.originalName) (r.finalAt record.originalName)) record) ↔
      (io.removes = true → ¬r.locate record.patchesDir <+: r.finalAt record.originalName) ∧
        ∃ bs, ChunksHold r fs record bs ∧ D.DecompressesTo bs out := by
  have hmoved : (fs₁.move (r.partAt record.originalName) (r.finalAt record.originalName)).content
      (r.finalAt record.originalName) = some out := content_move_dst.trans hpart
  constructor
  · rintro ⟨⟨bs, out', hhold, hdec, hfinal⟩, -⟩
    refine ⟨fun hrem hin => ?_, bs, hhold, ?_⟩
    · rw [removePatches, if_pos hrem, content_removeAll, if_pos hin] at hfinal
      cases hfinal
    · have hsame := content_removePatches hfinal
      rw [hmoved] at hsame
      cases hsame
      exact hdec
  · rintro ⟨houtside, bs, hhold, hdec⟩
    refine ⟨⟨bs, out, hhold, hdec, ?_⟩, fun hne => ?_⟩
    · unfold removePatches
      split
      · next hrem => rw [content_removeAll, if_neg (houtside hrem), hmoved]
      · exact hmoved
    · unfold removePatches
      split
      · rw [link_removeAll, link_move_src hne, ite_self]
      · exact link_move_src hne

/-- A run is all or nothing exactly when it does not get as far as the staging file, or it can read
every chunk file it gets to and the staging file gets in nobody's way. -/
theorem assemble_all_or_nothing_iff {o : Outcome (Option Path)}
    (h : assemble r D fuel io fs record = some (o, fs')) :
    AllOrNothing r D record fs o fs' ↔
      (OpensPart r io fs record →
        ¬Throws r D io fs record ∧ StagesAside r D io fs record) := by
  cases assemble_end h with
  | unopened hno hw hd =>
    refine iff_of_true ?_ fun ho => absurd ho hno
    exact (leftAlone_iff (hw.mono fun _ => False.elim) hd).mpr (hw.content not_false)
  | thrown ho ht => exact iff_of_false id fun h => (h ho).1 ht
  | discarded ho hread hno hw hd hgone =>
    rw [AllOrNothing, leftAlone_iff hw hd, content_eq_none.mpr hgone, eq_comm, content_eq_none]
    constructor
    · intro hfree _
      exact ⟨hread, fun _ => hfree, fun out hc => absurd hc (hno out),
        fun out hc => absurd hc (hno out)⟩
    · intro hsafe
      exact (hsafe ho).2.discarded hno
  | @lost _ out ho hc hno hw hd hpart =>
    rw [AllOrNothing, leftAlone_iff hw hd, hpart]
    constructor
    · intro hsame _
      refine ⟨hc.not_throws, fun hnever => absurd hc (hnever out), fun out' hc' _ => ?_,
        fun _ _ hyes => absurd hyes hno⟩
      rw [hc'.unique hc]
      exact hsame.symm
    · intro hsafe
      exact ((hsafe ho).2.lost out hc hno).symm
  | @published fs₁ out ho hc hyes hpart =>
    rw [AllOrNothing, and_iff_right rfl, replaced_iff hpart]
    constructor
    · rintro ⟨houtside, bs, hhold, hdec⟩ _
      refine ⟨hc.not_throws, fun hnever => absurd hc (hnever out), fun _ _ hno => absurd hyes hno,
        fun out' hc' _ => ⟨houtside, fun _ => ⟨bs, hhold, ?_⟩⟩⟩
      rw [hc'.unique hc]
      exact hdec
    · intro hsafe
      obtain ⟨houtside, hreread⟩ := (hsafe ho).2.published out hc hyes
      refine ⟨houtside, ?_⟩
      by_cases hr : Rereads r record
      · exact hreread hr
      · exact hc.chunksHold hr

/-- Payload `x` under the name `n` in one chunk. -/
def sampleRecord : PayloadRecord where
  fileId := ascii "x"
  originalName := ascii "n"
  totalChunks := 1
  patchesDir := manifestDir .sample (ascii "x")
  filesDir := Root.sample.filesDir
  chunkFiles := [patchPath .sample (ascii "x") 0]

/-- A server whose only file is the patch file of that chunk. -/
def sampleStore (payload : Bytes) : FileSystem :=
  (writePatch .sample {} sampleFiles (.sealed (ascii "x") (ascii "n") 0 1 60 payload)).2

/-- A whole frame is published. -/
theorem assemble_all_or_nothing_iff_sample : ∃ o fs',
    assemble .sample RawFrame.decoder 8 {} (sampleStore (RawFrame.frame (ascii "a")))
      sampleRecord = some (o, fs') ∧
    AllOrNothing .sample RawFrame.decoder sampleRecord (sampleStore (RawFrame.frame (ascii "a")))
      o fs' := by
  have hrun : (assemble .sample RawFrame.decoder 8 {} (sampleStore (RawFrame.frame (ascii "a")))
      sampleRecord).isSome = true := by decide +kernel
  obtain ⟨⟨o, fs'⟩, h⟩ := Option.isSome_iff_exists.mp hrun
  have hread : ¬Throws .sample RawFrame.decoder {} (sampleStore (RawFrame.frame (ascii "a")))
      sampleRecord := not_throws (fun _ => rfl) (by decide +kernel)
  refine ⟨o, fs', h,
    (assemble_all_or_nothing_iff h).mpr fun _ => ⟨hread, fun _ => ?_, ?_, ?_⟩⟩
  · decide +kernel
  · intro out _ hno
    have hyes : (sampleStore (RawFrame.frame (ascii "a"))).canHold
        (Root.sample.finalAt (ascii "n")) = true := by decide +kernel
    exact absurd ⟨rfl, hyes⟩ hno
  · intro out _ _
    refine ⟨fun _ => by decide +kernel, fun hr => absurd hr ?_⟩
    simp only [Rereads, sampleRecord, List.mem_singleton, exists_eq_left]
    decide +kernel

/-- A broken payload named `n` costs the published file `n.part`. -/
theorem assemble_all_or_nothing_fails : ¬ ∀ (r : Root) (D : Decoder) (fuel : Nat)
    (io : AssembleIo) (fs : FileSystem) (record : PayloadRecord) (o : Outcome (Option Path))
    (fs' : FileSystem), assemble r D fuel io fs record = some (o, fs') →
      AllOrNothing r D record fs o fs' := by
  intro hclaim
  let published : Location := Root.sample.finalAt (ascii "n.part")
  let fs : FileSystem := (FileSystem.replaceFile none (sampleStore (ascii "a"))
    (Root.sample.finalAt (ascii "tmp")) published (ascii "old")).2
  have hrun : (assemble .sample RawFrame.decoder 8 {} fs sampleRecord).any (fun p =>
      p.1 = .returned none ∧ p.2.content published ≠ fs.content published) = true := by decide +kernel
  obtain ⟨⟨o, fs'⟩, h, hend⟩ := (Option.any_eq_true ..).mp hrun
  obtain ⟨rfl, hlost⟩ := of_decide_eq_true hend
  have hsame := hclaim .sample RawFrame.decoder 8 {} fs sampleRecord (.returned none) fs' h
  exact hlost (hsame.files published (.inl (by decide +kernel))).1

end SuperVoice.Server
