import SuperVoice.Server.Granted
import SuperVoice.Server.Publication

/-! An assembly goes through: all patch files of a complete record are there, they decode, and
the system refuses nothing. -/
namespace SuperVoice.Server
open Bytes PosixPath FileStore FileStore.FileSystem StreamCodec
variable {r : Root} {D : Decoder} {fs fs' : FileSystem} {record : PayloadRecord} {p : Payload}
  {io : AssembleIo} {content : Bytes}

section Fuel
variable {n m : Nat} {a : Assembly D}

theorem decompressChunk_mono {cio : ChunkIo} {x : Except Stop (Assembly D) × FileSystem}
    (hnm : n ≤ m) (h : decompressChunk r n cio fs a = some x) :
    decompressChunk r m cio fs a = some x := by
  unfold decompressChunk at h ⊢
  split at h
  · exact h
  · split at h
    · exact h
    · obtain ⟨fed, hfed, hx⟩ := Option.map_eq_some_iff.mp h
      rw [drive_mono hnm hfed]
      exact congrArg some hx

theorem assembleChunks_mono {k : Nat} {x : Except Stop (Assembly D) × FileSystem} (hnm : n ≤ m)
    (h : assembleChunks r n io k fs a = some x) : assembleChunks r m io k fs a = some x := by
  induction k generalizing fs a with
  | zero => exact h
  | succ k ih =>
    unfold assembleChunks at h ⊢
    split at h
    · cases h
    · rename_i hd
      rw [decompressChunk_mono hnm hd]
      exact h
    · rename_i hd
      rw [decompressChunk_mono hnm hd]
      exact ih h

theorem assemble_mono {x : Outcome (Option Path) × FileSystem} (hnm : n ≤ m)
    (h : assemble r D n io fs record = some x) : assemble r D m io fs record = some x := by
  unfold assemble at h ⊢
  split at h
  · exact h
  · split at h
    · cases h
    all_goals
      rename_i hchunks
      rw [assembleChunks_mono hnm hchunks]
      exact h

variable (r io fs) (hD : D.Terminates)
include hD

theorem decompressChunk_total (cio : ChunkIo) (a : Assembly D) :
    ∃ n x, decompressChunk r n cio fs a = some x := by
  unfold decompressChunk
  split
  · exact ⟨0, _, rfl⟩
  · split
    · exact ⟨0, _, rfl⟩
    · rename_i input _
      obtain ⟨n, fed, hfed⟩ := hD a.stream a.pending input
      exact ⟨n, _, by rw [hfed]; rfl⟩

theorem assembleChunks_total (k : Nat) (a : Assembly D) :
    ∃ n x, assembleChunks r n io k fs a = some x := by
  induction k generalizing fs a with
  | zero => exact ⟨0, _, rfl⟩
  | succ k ih =>
    obtain ⟨n, ⟨oa, fs₁⟩, hd⟩ := decompressChunk_total r fs hD (io.chunk a.idx) a
    cases oa with
    | error stop => exact ⟨n, (.error stop, fs₁), by rw [assembleChunks, hd]⟩
    | ok a₁ =>
      obtain ⟨m, x, hrest⟩ := ih fs₁ a₁
      refine ⟨max n m, x, ?_⟩
      rw [assembleChunks, decompressChunk_mono (Nat.le_max_left n m) hd]
      exact assembleChunks_mono (Nat.le_max_right n m) hrest

/-- With a codec that uses up or rejects every buffer, every assembly comes to an end. -/
theorem assemble_total (record : PayloadRecord) : ∃ n x, assemble r D n io fs record = some x := by
  unfold assemble
  split
  · exact ⟨0, _, rfl⟩
  · rename_i a fs₁ _
    obtain ⟨n, ⟨oa, fs₂⟩, hchunks⟩ := assembleChunks_total r fs₁ io hD record.totalChunks a
    refine ⟨n, ?_⟩
    rw [hchunks]
    cases oa with
    | error stop => cases stop <;> exact ⟨_, rfl⟩
    | ok a₁ =>
      dsimp only
      split <;> exact ⟨_, rfl⟩

end Fuel

/-- Nothing that `assemble` needs is refused; the patches may stay behind. -/
structure AssembleIo.Granted (io : AssembleIo) : Prop where
  opens : io.opens = true
  createsStream : io.createsStream = true
  chunkOpens : ∀ i, (io.chunk i).opens = true
  reads : ∀ i, (io.chunk i).reads = true
  accepts : ∀ i, (io.chunk i).accepts = none
  syncs : io.syncs = true
  renames : io.renames = true

/-- Every patch file of the payload holds its chunk. -/
def Stocked (r : Root) (fs : FileSystem) (id : Bytes) (p : Payload) : Prop :=
  ∀ i < p.chunks.length, fs.content (r.patchAt id i) = p.chunks[i]?

theorem Stocked.recordClean (h : Stocked r fs record.fileId p) (hpos : 0 < p.chunks.length)
    (hcomplete : CompleteRecord r p record) : RecordClean r (fun _ => some p) fs record :=
  ⟨p, rfl, hpos, hcomplete, fun i hi _ hb => (h i hi).symm.trans hb⟩

/-- Patch files are not disturbed by what happens to a published or staging file. -/
theorem Stocked.within {id : Bytes} (h : Stocked r fs id p) (hid : IsComponent id)
    (hn : IsComponent p.name)
    (hw : Within (fun l => l = r.partAt p.name ∨ l = r.finalAt p.name) fs fs') :
    Stocked r fs' id p := by
  intro i hi
  rw [hw.content fun hl => ?_]
  · exact h i hi
  · obtain ⟨hpart, hfinal⟩ := (nameApart_of_component r hn).patchAt_ne hid i
    exact hl.elim hpart hfinal

/-- The next chunk is read, decoded and written. -/
theorem decompressChunk_granted {a : Assembly D} {m : Nat} {input o : Bytes} {s : D.State} {q : Nat}
    (hio : io.Granted) (hpath : a.record.chunkFiles[a.idx]? = some (patchPath r record.fileId a.idx))
    (hinput : fs.content (r.patchAt record.fileId a.idx) = some input)
    (hdrive : drive D.call m a.stream a.pending input = some ⟨o, some (s, q)⟩) :
    ∃ a₁ fs₁, ∀ fuel, m ≤ fuel →
      decompressChunk r fuel (io.chunk a.idx) fs a = some (.ok a₁, fs₁) := by
  refine ⟨{ a with stream := s, pending := q, idx := a.idx + 1, written := a.written + o.length },
    fs.write a.outFd a.written o, fun fuel hfuel => ?_⟩
  have hflush : (io.chunk a.idx).flush o = o := by
    rw [ChunkIo.flush, hio.accepts]
  have hread : readChunk r (io.chunk a.idx) fs (patchPath r record.fileId a.idx) = .ok input :=
    readChunk_eq_ok.mpr ⟨by simp [patchPath_ne_nil], hio.chunkOpens _, hio.reads _, hinput⟩
  simp only [decompressChunk, hpath, hread, drive_mono hfuel hdrive, Option.map_some, hflush,
    if_true]

/-- The chunk loop gets to the end. -/
theorem assembleChunks_granted (hio : io.Granted) (hid : IsComponent record.fileId)
    (hn : IsComponent p.name) (hcomplete : CompleteRecord r p record) {s : D.State}
    (hdec : D.Decoding p.chunks content s 0) {k : Nat} {fs : FileSystem} {a : Assembly D}
    (hrec : a.record = record) (hstaged : Staged r (fun _ => some p) fs a)
    (hstock : Stocked r fs record.fileId p) (hpos : 0 < p.chunks.length)
    (hk : a.idx + k = p.chunks.length) : ∃ n a' fs', (∀ fuel, n ≤ fuel →
      assembleChunks r fuel io k fs a = some (.ok a', fs')) ∧ a'.record = record ∧
        a'.idx = p.chunks.length ∧ Staged r (fun _ => some p) fs' a' := by
  induction k generalizing fs a with
  | zero => exact ⟨0, a, fs, fun _ _ => rfl, hrec, hk, hstaged⟩
  | succ k ih =>
    have hlt : a.idx < p.chunks.length := by omega
    have hchunk : p.chunks[a.idx]? = some p.chunks[a.idx] := List.getElem?_eq_getElem hlt
    obtain ⟨p', out, hp', -, -, -, hprefix⟩ := hstaged.decoded
    cases hp'
    have hsplit : p.chunks = p.chunks.take a.idx ++ p.chunks[a.idx] :: p.chunks.drop (a.idx + 1) := by
      rw [List.cons_getElem_drop_succ, List.take_append_drop]
    obtain ⟨m, o, s₁, q, hdrive⟩ := hdec.next hsplit hprefix
    have hpath : a.record.chunkFiles[a.idx]? = some (patchPath r record.fileId a.idx) := by
      rw [hrec, hcomplete.files, List.getElem?_map, List.getElem?_range hlt]
      rfl
    obtain ⟨a₁, fs₁, hstep⟩ := decompressChunk_granted hio hpath
      ((hstock a.idx hlt).trans hchunk) hdrive
    have hd := hstep m (Nat.le_refl m)
    obtain ⟨hrec₁, hidx₁, -⟩ := decompressChunk_record hd
    have hclean : RecordClean r (fun _ => some p) fs a.record :=
      hrec ▸ hstock.recordClean hpos hcomplete
    have hwithin := within_decompressChunk hstaged.link hd
    rw [hrec, hcomplete.name] at hwithin
    obtain ⟨n, a', fs', hloop, hend⟩ := ih (hrec₁.trans hrec)
      (staged_decompress hstaged hclean hd)
      (hstock.within hid hn (hwithin.mono fun _ => .inl)) (by omega)
    refine ⟨max m n, a', fs', fun fuel hfuel => ?_, hend⟩
    rw [assembleChunks, hstep fuel ((Nat.le_max_left m n).trans hfuel)]
    exact hloop fuel ((Nat.le_max_right m n).trans hfuel)

/-- Once all chunks are written, the staging file is the content and takes its final name. -/
theorem finishPart_granted {a : Assembly D} {s : D.State} (hio : io.Granted)
    (hn : a.record.originalName = p.name) (hdec : D.Decoding p.chunks content s 0)
    (hstaged : Staged r (fun _ => some p) fs a) (hidx : a.idx = p.chunks.length)
    (hhold : fs.canHold (r.finalAt p.name) = true) :
    ∃ fs', finishPart r io fs a = (.published, fs') ∧
      fs'.content (r.finalAt p.name) = some content := by
  obtain ⟨p', out, hp', hout, -, -, hall⟩ := hstaged.decoded
  cases hp'
  rw [hidx, List.take_length] at hall
  obtain ⟨rfl, -, hpending⟩ := hall.unique hdec
  have hlink : (fs.link (r.partAt a.record.originalName)).isSome := by
    simp [hstaged.link]
  rw [← hn] at hhold
  have hrename := rename_of_canHold hlink hhold
  refine ⟨(fs.log (.rename (r.partAt a.record.originalName) (r.finalAt a.record.originalName))).move
    (r.partAt a.record.originalName) (r.finalAt a.record.originalName), ?_, ?_⟩
  · rw [Root.partAt, Root.finalAt] at hrename
    simp [finishPart, hpending, hio.syncs, hio.renames, partPath, finalPath, hrename, Root.partAt,
      Root.finalAt]
  · rw [← hn, content_move_dst, content_log, hout]

/-- A complete record whose patch files are all there is published as what they decode to. -/
theorem assemble_granted (hio : io.Granted) (hid : IsComponent record.fileId)
    (hn : IsComponent p.name) (hcomplete : CompleteRecord r p record)
    (hpos : 0 < p.chunks.length) (hdec : D.DecompressesTo p.chunks content)
    (hstock : Stocked r fs record.fileId p)
    (hhold : ∀ l, l = r.partAt p.name ∨ l = r.finalAt p.name → fs.canHold l = true) :
    ∃ n fs', (∀ fuel, n ≤ fuel →
      assemble r D fuel io fs record = some (.returned (some (finalPath r record)), fs')) ∧
        fs'.content (r.finalAt p.name) = some content := by
  obtain ⟨s, hdec⟩ := hdec
  have hlen : record.chunkFiles.length = record.totalChunks := by
    rw [hcomplete.files, hcomplete.total, List.length_map, List.length_range]
  have hname := hcomplete.name
  obtain ⟨fd, fs₀, hopen⟩ := openTrunc_of_canHold (hhold _ (.inl rfl))
  have hopened := openTrunc_some hopen
  have hpart : openPart r D io fs record = (some ⟨record, fd, 0, D.init, 0, 0⟩, fs₀) := by
    rw [Root.partAt, ← hname] at hopen
    simp only [openPart, partPath, hlen, ne_eq, not_true, if_false, hio.opens, if_true, hopen,
      hio.createsStream]
  have hstaged : Staged r (fun _ => some p) fs₀ (⟨record, fd, 0, D.init, 0, 0⟩ : Assembly D) := by
    refine ⟨?_, p, [], rfl, ?_, rfl, Nat.zero_le _, .nil⟩ <;> rw [hname]
    · exact hopened.link_self
    · exact hopened.content_self
  obtain ⟨n, a, fs₁, hloop, hrec, hidx, hend⟩ := assembleChunks_granted hio hid hn hcomplete hdec
    (a := ⟨record, fd, 0, D.init, 0, 0⟩) rfl hstaged
    (hstock.within hid hn (hopened.within.mono fun _ => .inl)) hpos (Nat.zero_add _)
  obtain ⟨-, hdirs, -, -⟩ := assembleChunks_within hopened.link_self (hloop n (Nat.le_refl n))
  have hfinal : fs₁.canHold (r.finalAt p.name) = true := by
    rw [canHold, hdirs, hopened.dirs]
    exact hhold _ (.inr rfl)
  obtain ⟨fs₂, hfinish, hcontent⟩ :=
    finishPart_granted hio (by rw [hrec, hname]) hdec hend hidx hfinal
  have hremoved : Within _ fs₂ (removePatches r io.removes fs₂ record) :=
    within_removePatches io.removes hcomplete.patchesDir
  refine ⟨n, removePatches r io.removes fs₂ record, fun fuel hfuel => ?_, ?_⟩
  · have hloop' : assembleChunks r fuel io record.totalChunks fs₀ ⟨record, fd, 0, D.init, 0, 0⟩ =
        some (.ok a, fs₁) := by
      rw [hcomplete.total]
      exact hloop fuel hfuel
    simp only [assemble, hpart, hloop', hfinish]
  · rw [hremoved.content, hcontent]
    exact fun hin => ((nameApart_of_component r hn).not_below hid).2 hin.2

end SuperVoice.Server
