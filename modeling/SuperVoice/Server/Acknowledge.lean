import SuperVoice.Lib.RawFrame
import SuperVoice.Server.DataHandler
import SuperVoice.Server.Granted

/-! The data channel handler as a whole: receive a chunk, store it, assemble a complete payload and
answer the client. -/
namespace SuperVoice.Server
open Bytes ByteStream PosixPath FileStore StreamCodec

/-- The counters of `Metrics` that the handler of a connection moves. -/
structure DataMetrics where
  chunks : Nat := 0
  chunkErrors : Nat := 0
  assemblies : Nat := 0
  assemblyErrors : Nat := 0
  deriving DecidableEq

/-- What the system grants and the clock shows while one connection is served. -/
structure DataIo where
  /-- The sizes of the line reader's reads. -/
  ask : Nat → Nat
  received : Int := 0
  store : StoreIo := {}
  stored : Int := 0
  fuel : Nat := 0
  assemble : AssembleIo := {}

/-- `response` is what the handler writes to the socket; it ignores errors of that write. -/
structure Served where
  response : Option Bytes
  metrics : DataMetrics
  world : World

def storedResponse : Bytes := ascii "STORED\n"

variable (r : Root) (D : Decoder)

/-- The thread of one connection, from accepting it to its end; `none` while the decoder does not
return. -/
def serveData (io : DataIo) (source : Source) (m : DataMetrics) (w : World) : Option Served :=
  match receiveChunk io.ask io.received source with
  -- `fail()` or an exception; a stream that stops counts once the connection is closed
  | none => some ⟨none, { m with chunkErrors := m.chunkErrors + 1 }, w⟩
  | some (chunk, _) =>
    let m := { m with chunks := m.chunks + 1 }
    match storeChunk r io.store io.stored w chunk with
    | (.thrown, w) => some ⟨none, { m with chunkErrors := m.chunkErrors + 1 }, w⟩
    | (.returned none, w) => some ⟨some storedResponse, m, w⟩
    | (.returned (some record), w) =>
      (assemble r D io.fuel io.assemble w.fs record).map fun (published, fs) =>
        match published with
        | .returned (some _) => ⟨some storedResponse, { m with assemblies := m.assemblies + 1 },
            markPublished { w with fs } record.fileId⟩
        | .returned none => ⟨some storedResponse,
            { m with assemblyErrors := m.assemblyErrors + 1 }, { w with fs }⟩
        | .thrown => ⟨none, { m with chunkErrors := m.chunkErrors + 1 }, { w with fs }⟩

/-- `store_chunk` found both checksums right and put the payload in the chunk's patch file. -/
def Commits (io : StoreIo) (fs : FileSystem) (chunk : ChunkData) : Prop :=
  (crc32 chunk.headerBytes = chunk.headerCrc ∧ crc32 chunk.payload = chunk.payloadCrc) ∧
    ∃ fs', writePatch r io fs chunk = (true, fs') ∧
      fs'.content (r.patchAt chunk.fileId chunk.index) = some chunk.payload

variable {r D}

theorem commits_iff {io : StoreIo} {fs : FileSystem} {chunk : ChunkData} :
    Commits r io fs chunk ↔ Storable r io fs chunk := by
  rw [← writePatch_fst]
  constructor
  · rintro ⟨-, fs', hwritten, -⟩
    rw [hwritten]
  · intro h
    rcases hwritten : writePatch r io fs chunk with ⟨ok, fs'⟩
    obtain rfl : ok = true := by rw [hwritten] at h; exact h
    obtain ⟨hcrc, -, hcontent⟩ := writePatch_true hwritten
    simp only [verifyCrc, Bool.and_eq_true, beq_iff_eq] at hcrc
    exact ⟨hcrc, fs', hwritten, hcontent⟩

/-- A chunk that is not stored is answered all the same. -/
theorem serveData_of_not_storable {io : DataIo} {source rest : Source} {m : DataMetrics} {w : World}
    {chunk : ChunkData} (hreceived : receiveChunk io.ask io.received source = some (chunk, rest))
    (h : ¬Storable r io.store w.fs chunk) : ∃ fs, serveData r D io source m w =
      some ⟨some storedResponse, { m with chunks := m.chunks + 1 }, { w with fs }⟩ := by
  rw [← writePatch_fst] at h
  rcases hwritten : writePatch r io.store w.fs chunk with ⟨ok, fs⟩
  obtain rfl : ok = false := by rw [hwritten] at h; exact Bool.eq_false_iff.mpr h
  refine ⟨fs, ?_⟩
  simp only [serveData, hreceived, storeChunk, hwritten]

/-- Exactly when every chunk that arrives is one that can be stored, the answer is true. -/
theorem response_true_iff (r : Root) (D : Decoder) (io : DataIo) (source : Source)
    (m : DataMetrics) (w : World) :
    (∀ served, serveData r D io source m w = some served → served.response = some storedResponse →
      ∃ chunk rest, receiveChunk io.ask io.received source = some (chunk, rest) ∧
        Commits r io.store w.fs chunk) ↔
    ∀ chunk rest, receiveChunk io.ask io.received source = some (chunk, rest) →
      Storable r io.store w.fs chunk := by
  constructor
  · intro h chunk rest hreceived
    by_contra hnot
    obtain ⟨fs, hserved⟩ := serveData_of_not_storable (D := D) (m := m) hreceived hnot
    obtain ⟨chunk', rest', hreceived', hcommits⟩ := h _ hserved rfl
    rw [hreceived] at hreceived'
    cases hreceived'
    exact hnot (commits_iff.mp hcommits)
  · intro h served hserved hresponse
    cases hreceived : receiveChunk io.ask io.received source with
    | none =>
      rw [serveData, hreceived] at hserved
      cases hserved
      cases hresponse
    | some received =>
      obtain ⟨chunk, rest⟩ := received
      exact ⟨chunk, rest, rfl, commits_iff.mpr (h chunk rest hreceived)⟩

/-- A chunk as it would be sent if its payload were damaged on the way. -/
def damagedMessage : Message where
  text := sampleHeader.text
  header := sampleHeader
  payload := ascii "ho"
  plain := sampleMessage.plain
  parses := sampleMessage.parses
  size := rfl

/-- The payload does not fit its checksum: nothing is written, and the client reads that it is
stored. -/
theorem response_true_fails : ¬ ∀ (r : Root) (D : Decoder) (io : DataIo) (source : Source)
    (m : DataMetrics) (w : World) (served : Served),
    serveData r D io source m w = some served → served.response = some storedResponse →
      ∃ chunk rest, receiveChunk io.ask io.received source = some (chunk, rest) ∧
        Commits r io.store w.fs chunk := by
  intro hclaim
  let source : Source := ⟨[], 0, [damagedMessage.text.bytes, damagedMessage.payload]⟩
  have hchunk : (receiveChunk (fun _ => 512) 0 source).any
      (fun received => !verifyCrc received.1) = true := by
    decide +kernel
  obtain ⟨⟨chunk, rest⟩, hreceived, hcrc⟩ := (Option.any_eq_true ..).mp hchunk
  have hnot : ¬Storable .sample {} sampleFiles chunk := fun h => by
    rw [h.verified] at hcrc
    cases hcrc
  have hanswered : ∃ fs, serveData .sample RawFrame.decoder { ask := fun _ => 512 } source {}
      ⟨sampleFiles, ∅, 3600⟩ =
        some ⟨some storedResponse, { chunks := 1 }, ⟨fs, ∅, 3600⟩⟩ :=
    serveData_of_not_storable hreceived hnot
  obtain ⟨fs, hserved⟩ := hanswered
  obtain ⟨chunk', rest', hreceived', hcommits⟩ := hclaim _ _ _ _ _ _ _ hserved rfl
  rw [hreceived] at hreceived'
  cases hreceived'
  exact hnot (commits_iff.mp hcommits)

end SuperVoice.Server
