import SuperVoice.Lib.Transition
import SuperVoice.Server.Assembler

/-! The threads of the server: any number of data handlers, the control plane and the cleanup
thread. A handler is cut where another thread can come between; what the system may refuse and
what the clock shows are part of the label. -/
namespace SuperVoice.Server
open Bytes PosixPath FileStore StreamCodec
variable (r : Root) {D : Decoder}

/-- Where a data handler stands once its chunk has been read from the socket. -/
inductive Handler (D : Decoder) where
  | idle
  /-- The patch file is written, the chunk not yet registered. -/
  | storing (chunk : ChunkData)
  /-- `store_chunk` has returned a record. -/
  | ready (record : PayloadRecord)
  | assembling (a : Assembly D)
  /-- `success` is false and the staging file not yet unlinked. -/
  | failing (record : PayloadRecord)
  | renamed (record : PayloadRecord)
  /-- The patch directory is removed, `mark_published` not yet called. -/
  | removed (record : PayloadRecord)

/-- The record a handler is working on after `store_chunk` has returned it. -/
def Handler.record : Handler D → Option PayloadRecord
  | .idle | .storing _ => none
  | .ready record | .failing record | .renamed record | .removed record => some record
  | .assembling a => some a.record

inductive HandlerAction where
  | deliver (io : StoreIo) (chunk : ChunkData)
  | register (io : StoreIo) (now : Int)
  | openPart (io : AssembleIo)
  | decompress (fuel : Nat) (io : ChunkIo)
  | finish (io : AssembleIo)
  | abort
  | removePatches (removes : Bool)
  | markPublished

inductive Action where
  | thread (t : Nat) (a : HandlerAction)
  | updateTtl (fault : Bytes → Option Fault) (newTtl : Int)
  | cleanup (removes : Bytes → Bool) (now : Int)

structure System (D : Decoder) where
  world : World
  handlers : Nat → Handler D
  /-- The chunks handed to `store_chunk` so far. -/
  deliveries : List ChunkData

/-- The text rebuilt from the header values, over which `header_crc` is taken. -/
def headerBlob (fileId originalName : Bytes) (index totalChunks : Nat) (ttl : Int)
    (payloadSize : Nat) : Bytes :=
  fileId ++ [newline] ++ originalName ++ [newline] ++ decimal index ++ [newline] ++
    decimal totalChunks ++ [newline] ++ signedDecimal ttl ++ [newline] ++ decimal payloadSize ++
    [newline]

/-- What the data handler vouches for in a chunk it hands to `store_chunk`. -/
structure ChunkData.Admitted (chunk : ChunkData) : Prop where
  index_lt : chunk.index < chunk.totalChunks
  total_lt : chunk.totalChunks < 2 ^ 64
  size_lt : chunk.payload.length < 2 ^ 64
  ttl_range : -2 ^ 63 ≤ chunk.ttl ∧ chunk.ttl < 2 ^ 63
  fileId_line : newline ∉ chunk.fileId
  name_line : newline ∉ chunk.originalName
  header : chunk.headerBytes = headerBlob chunk.fileId chunk.originalName chunk.index
    chunk.totalChunks chunk.ttl chunk.payload.length

instance (chunk : ChunkData) : Decidable chunk.Admitted :=
  decidable_of_iff (chunk.index < chunk.totalChunks ∧ chunk.totalChunks < 2 ^ 64 ∧
    chunk.payload.length < 2 ^ 64 ∧ (-2 ^ 63 ≤ chunk.ttl ∧ chunk.ttl < 2 ^ 63) ∧
    newline ∉ chunk.fileId ∧ newline ∉ chunk.originalName ∧
    chunk.headerBytes = headerBlob chunk.fileId chunk.originalName chunk.index
      chunk.totalChunks chunk.ttl chunk.payload.length)
    ⟨fun ⟨h1, h2, h3, h4, h5, h6, h7⟩ => ⟨h1, h2, h3, h4, h5, h6, h7⟩,
      fun ⟨h1, h2, h3, h4, h5, h6, h7⟩ => ⟨h1, h2, h3, h4, h5, h6, h7⟩⟩

/-- A chunk with the header text and the checksums its sender would have computed. -/
def ChunkData.sealed (fileId originalName : Bytes) (index totalChunks : Nat) (ttl : Int)
    (payload : Bytes) : ChunkData where
  fileId
  originalName
  index
  totalChunks
  timestamp := 0
  ttl
  headerBytes := headerBlob fileId originalName index totalChunks ttl payload.length
  payload
  headerCrc := crc32 (headerBlob fileId originalName index totalChunks ttl payload.length)
  payloadCrc := crc32 payload

theorem verifyCrc_sealed (fileId originalName : Bytes) (index totalChunks : Nat) (ttl : Int)
    (payload : Bytes) :
    verifyCrc (.sealed fileId originalName index totalChunks ttl payload) = true := by
  simp [verifyCrc, ChunkData.sealed]

/-- One step of a handler: where it stands afterwards and the world it leaves. -/
def Handler.step : Handler D → World → HandlerAction → Option (Handler D × World)
  | .idle, w, .deliver io chunk =>
    if chunk.Admitted then
      match writePatch r io w.fs chunk with
      | (true, fs) => some (.storing chunk, { w with fs })
      | (false, fs) => some (.idle, { w with fs })
    else none
  | .storing chunk, w, .register io now =>
    match registerChunk r io now w chunk with
    | (.returned (some record), w) => some (.ready record, w)
    | (_, w) => some (.idle, w)
  | .ready record, w, .openPart io =>
    match openPart r D io w.fs record with
    | (some a, fs) => some (.assembling a, { w with fs })
    | (none, fs) => some (.idle, { w with fs })
  | .assembling a, w, .decompress fuel io =>
    if a.idx < a.record.totalChunks then
      match decompressChunk r fuel io w.fs a with
      | some (.ok a', fs) => some (.assembling a', { w with fs })
      | some (.error .failed, fs) => some (.failing a.record, { w with fs })
      | some (.error .thrown, fs) => some (.idle, { w with fs })
      | none => none
    else none
  | .assembling a, w, .finish io =>
    if a.idx < a.record.totalChunks then none
    else match finishPart r io w.fs a with
      | (.published, fs) => some (.renamed a.record, { w with fs })
      | (.aborted, fs) => some (.failing a.record, { w with fs })
      | (.lost, fs) => some (.idle, { w with fs })
  | .failing record, w, .abort => some (.idle, { w with fs := abortPart r w.fs record })
  | .renamed record, w, .removePatches removes =>
    some (.removed record, { w with fs := removePatches r removes w.fs record })
  | .removed record, w, .markPublished => some (.idle, markPublished w record.fileId)
  | _, _, _ => none

def HandlerAction.delivered : HandlerAction → List ChunkData
  | .deliver _ chunk => [chunk]
  | _ => []

def step (s : System D) : Action → Option (System D)
  | .thread t a =>
    ((s.handlers t).step r s.world a).map fun (h, world) =>
      { world
        handlers := Function.update s.handlers t h
        deliveries := s.deliveries ++ a.delivered }
  | .updateTtl fault newTtl => some { s with world := updateTtl r fault s.world newTtl }
  | .cleanup removes now => some { s with world := cleanupExpired r removes now s.world }

/-- The server has just started on the file system `fs`; from here on its calls are recorded. -/
def System.start (D : Decoder) (fs : FileSystem) (ttl : Int) : System D where
  world := ⟨{ fs with calls := [] }, ∅, ttl⟩
  handlers _ := .idle
  deliveries := []

/-- Everything a handler step can do. -/
inductive Moves (r : Root) : Handler D → World → HandlerAction → Handler D → World → Prop where
  | stored {w : World} {io : StoreIo} {chunk : ChunkData} {fs : FileSystem}
      (hadm : chunk.Admitted) (hw : writePatch r io w.fs chunk = (true, fs)) :
      Moves r .idle w (.deliver io chunk) (.storing chunk) { w with fs }
  | rejected {w : World} {io : StoreIo} {chunk : ChunkData} {fs : FileSystem}
      (hadm : chunk.Admitted) (hw : writePatch r io w.fs chunk = (false, fs)) :
      Moves r .idle w (.deliver io chunk) .idle { w with fs }
  | completed {w w' : World} {io : StoreIo} {now : Int} {chunk : ChunkData}
      {record : PayloadRecord}
      (hr : registerChunk r io now w chunk = (.returned (some record), w')) :
      Moves r (.storing chunk) w (.register io now) (.ready record) w'
  | registered {w w' : World} {io : StoreIo} {now : Int} {chunk : ChunkData}
      {o : Outcome (Option PayloadRecord)} (ho : ∀ record, o ≠ .returned (some record))
      (hr : registerChunk r io now w chunk = (o, w')) :
      Moves r (.storing chunk) w (.register io now) .idle w'
  | opened {w : World} {io : AssembleIo} {record : PayloadRecord} {a : Assembly D}
      {fs : FileSystem} (ho : openPart r D io w.fs record = (some a, fs)) :
      Moves r (.ready record) w (.openPart io) (.assembling a) { w with fs }
  | refused {w : World} {io : AssembleIo} {record : PayloadRecord} {fs : FileSystem}
      (ho : openPart r D io w.fs record = (none, fs)) :
      Moves r (.ready record) w (.openPart io) .idle { w with fs }
  | decompressed {w : World} {fuel : Nat} {io : ChunkIo} {a a' : Assembly D} {fs : FileSystem}
      (hidx : a.idx < a.record.totalChunks)
      (hd : decompressChunk r fuel io w.fs a = some (.ok a', fs)) :
      Moves r (.assembling a) w (.decompress fuel io) (.assembling a') { w with fs }
  | failed {w : World} {fuel : Nat} {io : ChunkIo} {a : Assembly D} {fs : FileSystem}
      (hidx : a.idx < a.record.totalChunks)
      (hd : decompressChunk r fuel io w.fs a = some (.error .failed, fs)) :
      Moves r (.assembling a) w (.decompress fuel io) (.failing a.record) { w with fs }
  | threw {w : World} {fuel : Nat} {io : ChunkIo} {a : Assembly D} {fs : FileSystem}
      (hidx : a.idx < a.record.totalChunks)
      (hd : decompressChunk r fuel io w.fs a = some (.error .thrown, fs)) :
      Moves r (.assembling a) w (.decompress fuel io) .idle { w with fs }
  | published {w : World} {io : AssembleIo} {a : Assembly D} {fs : FileSystem}
      (hidx : a.record.totalChunks ≤ a.idx)
      (hf : finishPart r io w.fs a = (.published, fs)) :
      Moves r (.assembling a) w (.finish io) (.renamed a.record) { w with fs }
  | aborted {w : World} {io : AssembleIo} {a : Assembly D} {fs : FileSystem}
      (hidx : a.record.totalChunks ≤ a.idx) (hf : finishPart r io w.fs a = (.aborted, fs)) :
      Moves r (.assembling a) w (.finish io) (.failing a.record) { w with fs }
  | lost {w : World} {io : AssembleIo} {a : Assembly D} {fs : FileSystem}
      (hidx : a.record.totalChunks ≤ a.idx) (hf : finishPart r io w.fs a = (.lost, fs)) :
      Moves r (.assembling a) w (.finish io) .idle { w with fs }
  | unlinked {w : World} {record : PayloadRecord} :
      Moves r (.failing record) w .abort .idle { w with fs := abortPart r w.fs record }
  | removed {w : World} {record : PayloadRecord} {removes : Bool} :
      Moves r (.renamed record) w (.removePatches removes) (.removed record)
        { w with fs := removePatches r removes w.fs record }
  | marked {w : World} {record : PayloadRecord} :
      Moves r (.removed record) w .markPublished .idle (markPublished w record.fileId)

variable {r}

theorem Handler.step_moves {h h' : Handler D} {w w' : World} {a : HandlerAction}
    (hs : h.step r w a = some (h', w')) : Moves r h w a h' w' := by
  cases h <;> cases a <;> try (simp [Handler.step] at hs; done)
  case idle.deliver io chunk =>
    by_cases hadm : chunk.Admitted
    · rcases hw : writePatch r io w.fs chunk with ⟨b, fs⟩
      cases b <;> simp only [Handler.step, hadm, if_true, hw, Option.some.injEq,
        Prod.mk.injEq] at hs <;> obtain ⟨rfl, rfl⟩ := hs
      · exact .rejected hadm hw
      · exact .stored hadm hw
    · simp [Handler.step, hadm] at hs
  case storing.register chunk io now =>
    rcases hr : registerChunk r io now w chunk with ⟨o, w₁⟩
    rcases o with (_ | record) | _ <;> simp only [Handler.step, hr, Option.some.injEq,
      Prod.mk.injEq] at hs <;> obtain ⟨rfl, rfl⟩ := hs
    · exact .registered (by simp) hr
    · exact .completed hr
    · exact .registered (by simp) hr
  case ready.openPart record io =>
    rcases ho : Server.openPart r D io w.fs record with ⟨a, fs⟩
    cases a <;> simp only [Handler.step, ho, Option.some.injEq, Prod.mk.injEq] at hs <;>
      obtain ⟨rfl, rfl⟩ := hs
    · exact .refused ho
    · exact .opened ho
  case assembling.decompress a fuel io =>
    by_cases hidx : a.idx < a.record.totalChunks
    · rcases hd : decompressChunk r fuel io w.fs a with _ | ⟨(_ | _) | a', fs⟩
      · simp [Handler.step, hidx, hd] at hs
      all_goals
        simp only [Handler.step, hidx, if_true, hd, Option.some.injEq, Prod.mk.injEq] at hs
        obtain ⟨rfl, rfl⟩ := hs
      · exact .failed hidx hd
      · exact .threw hidx hd
      · exact .decompressed hidx hd
    · simp [Handler.step, hidx] at hs
  case assembling.finish a io =>
    by_cases hidx : a.idx < a.record.totalChunks
    · simp [Handler.step, hidx] at hs
    · rcases hf : finishPart r io w.fs a with ⟨f, fs⟩
      cases f <;> simp only [Handler.step, hidx, if_false, hf, Option.some.injEq,
        Prod.mk.injEq] at hs <;> obtain ⟨rfl, rfl⟩ := hs
      · exact .aborted (Nat.le_of_not_lt hidx) hf
      · exact .lost (Nat.le_of_not_lt hidx) hf
      · exact .published (Nat.le_of_not_lt hidx) hf
  case failing.abort record =>
    obtain ⟨rfl, rfl⟩ := Prod.mk.inj (Option.some.inj hs)
    exact .unlinked
  case renamed.removePatches record removes =>
    obtain ⟨rfl, rfl⟩ := Prod.mk.inj (Option.some.inj hs)
    exact .removed
  case removed.markPublished record =>
    obtain ⟨rfl, rfl⟩ := Prod.mk.inj (Option.some.inj hs)
    exact .marked

theorem step_thread {s s' : System D} {t : Nat} {a : HandlerAction}
    (hs : step r s (.thread t a) = some s') :
    ∃ h w, Moves r (s.handlers t) s.world a h w ∧
      s' = ⟨w, Function.update s.handlers t h, s.deliveries ++ a.delivered⟩ := by
  obtain ⟨⟨h, w⟩, hm, rfl⟩ := Option.map_eq_some_iff.mp hs
  exact ⟨h, w, Handler.step_moves hm, rfl⟩

/-- The handler whose step the label is. -/
def Action.handler : Action → Option Nat
  | .thread t _ => some t
  | .updateTtl .. | .cleanup .. => none

theorem handlers_step_of_ne {s s' : System D} {a : Action} {t : Nat}
    (hs : step r s a = some s') (ht : a.handler ≠ some t) : s'.handlers t = s.handlers t := by
  cases a with
  | thread t' a =>
    obtain ⟨h, w, -, rfl⟩ := step_thread hs
    have hne : t ≠ t' := fun he => ht (congrArg some he.symm)
    simp [hne]
  | updateTtl fault newTtl => cases hs; rfl
  | cleanup removes now => cases hs; rfl

/-- A handler that no label belongs to stays where it stands. -/
theorem handlers_run_of_ne {as : List Action} {s s' : System D} {t : Nat}
    (h : Transition.run (step r) s as = some s') (ht : ∀ a ∈ as, a.handler ≠ some t) :
    s'.handlers t = s.handlers t := by
  induction as generalizing s with
  | nil => cases h; rfl
  | cons a as ih =>
    obtain ⟨m, hm, hrest⟩ := Option.bind_eq_some_iff.mp h
    rw [ih hrest fun b hb => ht b (List.mem_cons_of_mem a hb),
      handlers_step_of_ne hm (ht a List.mem_cons_self)]

/-- A server under `/srv/data`, with its directories and no file. -/
def Root.sample : Root := ⟨[ascii "srv"], ascii "data", by decide⟩

def sampleFiles : FileSystem :=
  .bare fun l => l <+: Root.sample.patches || l <+: Root.sample.files

end SuperVoice.Server
