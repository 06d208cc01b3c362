import SuperVoice.Client.Compressor
import SuperVoice.Server.Serial

/-! A file on its way from the client's compressor to the server's directory of published files:
compressed, cut, delivered in any order and any number of times, put together again. -/
namespace SuperVoice.Server
open Bytes PosixPath FileStore StreamCodec Transition Client
variable {r : Root} {E : Encoder} {D : Decoder} {H : Hasher} {id name content : Bytes}
  {chunks : List FileChunk} {payloadSize : Nat}

/-- The delivery brings one of the chunks, with right checksums and nothing refused. -/
structure Carries (id name : Bytes) (chunks : List FileChunk) (d : Delivery) : Prop where
  fileId : d.chunk.fileId = id
  name : d.chunk.originalName = name
  chunk : ∃ chunk ∈ chunks, d.chunk.index = chunk.index ∧
    d.chunk.totalChunks = chunk.totalChunks ∧ d.chunk.payload = chunk.payload
  crc : verifyCrc d.chunk = true
  granted : d.Granted

/-- The chunks of the payload come in between chunks of others. -/
def Interleaves (id name : Bytes) (chunks : List FileChunk) (_ : Serial) (d : Delivery) : Prop :=
  Carries id name chunks d ∨ Foreign id d

/-- The payload that the chunks make up. -/
def payloadOf (name : Bytes) (chunks : List FileChunk) : Payload :=
  ⟨name, chunks.map FileChunk.payload⟩

theorem Carries.own {d : Delivery} (h : Carries id name chunks d)
    (hnumbered : ∀ (i : Nat) (chunk : FileChunk), chunks[i]? = some chunk →
      chunk.index = i ∧ chunk.totalChunks = chunks.length) : Own id (payloadOf name chunks) d := by
  obtain ⟨chunk, hmem, hindex, htotal, hpayload⟩ := h.chunk
  obtain ⟨i, hi⟩ := List.getElem?_of_mem hmem
  obtain ⟨rfl, hlength⟩ := hnumbered i chunk hi
  refine ⟨h.fileId, ⟨h.name, ?_, ?_⟩, h.crc, h.granted⟩
  · rw [htotal, hlength, payloadOf, List.length_map]
  · rw [payloadOf, List.getElem?_map, hindex, hi, hpayload]
    rfl

/-- Whatever the order and the repetitions, the delivery that completes the indices publishes the
file, and no other one does. -/
theorem reassembled (hE : E.Compresses D content) (hD : D.Terminates) (hsize : 0 < payloadSize)
    (hid : IsComponent id) (hn : IsComponent name) {fs : FileSystem} (hfs : Prepared r id name fs)
    (ttl : Int) (descriptor : FileDescriptor) : ∃ n file,
      (∀ fuel, n ≤ fuel → compressor E H fuel { source := some { content := content } } descriptor =
        some (.ok file)) ∧
      (file.compressedData.length + payloadSize - 1 < 2 ^ 64 → ∃ chunks,
        chunker payloadSize file = some chunks ∧
        ∀ s, Reach (Serial.step r D) (Interleaves id name chunks) (Serial.start fs ttl) s →
          (∀ d, Foreign id d → d.chunk.index < d.chunk.totalChunks →
            ∃ m s', s.step r D { d with fuel := m } = some s') ∧
          ∀ d, Carries id name chunks d → ∃ m s',
            (∀ fuel, m ≤ fuel → s.step r D { d with fuel } = some s') ∧
            (s'.published = true ↔ insert d.chunk.index (gathered id s.log) =
              Finset.range chunks.length) ∧
            (s'.published = true → s'.world.fs.content (r.finalAt name) = some content ∧
              s'.world.entry id = none)) := by
  obtain ⟨n, file, hfile, hne, R, hdecodes⟩ := compressor_returns (H := H) hE descriptor
  refine ⟨n, file, hfile, fun hfit => ?_⟩
  obtain ⟨chunks, hchunks, hflat, hfull, hnumbered⟩ := chunker_cuts hsize hfit hne
  have hdec : D.DecompressesTo (payloadOf name chunks).chunks content := by
    refine hdecodes.decompressesTo hD ?_ hflat fun hnil => ?_
    · intro b hb
      obtain ⟨chunk, hc, rfl⟩ := List.mem_map.mp hb
      exact hfull chunk hc
    · have hnone : chunks.map FileChunk.payload = [] := hnil
      rw [hnone] at hflat
      exact hne hflat.symm
  refine ⟨chunks, hchunks, fun s hs => ⟨fun d hd hlt => ?_, fun d hd => ?_⟩⟩
  · obtain ⟨m, x, hx⟩ := receive_total (r := r) hD s.world d
    refine ⟨m, ⟨x.2, (d.chunk, x.1.isSome) :: s.log⟩, ?_⟩
    simp only [Serial.step, hlt, if_true, hx, Option.map_some]
  · have hprogress := Serial.progress_of_reach
      (fun _ _ hg => hg.imp_left fun hc => hc.own hnumbered) hid hn hdec hfs hs
    obtain ⟨m, s', hstep, hsettled⟩ := hprogress.own hid hn hdec (hd.own hnumbered)
    have hlength : (payloadOf name chunks).chunks.length = chunks.length := List.length_map _
    refine ⟨m, s', hstep, ?_, hsettled.whole⟩
    rw [← hlength]
    exact hsettled.completes

/-- A hasher that hashes nothing. -/
def sampleHasher : Hasher := ⟨Unit, (), fun _ _ => (), fun _ => []⟩

def sampleFile : CompressedFile := ⟨⟨ascii "n", 1, 0⟩, [], RawFrame.frame (ascii "a")⟩

theorem compressor_sample (k : Nat) : compressor RawFrame.encoder sampleHasher (k + 2)
    { source := some { content := ascii "a" } } sampleFile.descriptor = some (.ok sampleFile) := rfl

theorem prepared_sample (hid : IsComponent id) (hn : IsComponent name) :
    Prepared .sample id name sampleFiles := by
  have hpassed : ∀ l ∈ passed Root.sample.cwd Root.sample.patchesDir, l.length ≤ 3 := by decide
  have hpatches : Root.sample.patches.length = 3 := by decide
  have hfiles : Root.sample.files.length = 3 := by decide
  have hplace : ∀ l, FilePlace .sample l → 3 < l.length := by
    intro l hl
    obtain ⟨a, b, rfl⟩ | ⟨a, rfl⟩ := hl <;> simp [hpatches, hfiles]
  have hdirs : ∀ l, FilePlace .sample l → sampleFiles.dirs l = false := by
    intro l hl
    have hlong := hplace l hl
    apply Bool.eq_false_iff.mpr
    intro hd
    have hprefix : l <+: Root.sample.patches ∨ l <+: Root.sample.files := by
      simpa [sampleFiles, FileSystem.bare] using hd
    obtain hp | hp := hprefix
    · have := hp.length_le
      omega
    · have := hp.length_le
      omega
  refine ⟨by decide, fun l hl => ⟨rfl, fun hin => ?_⟩, rfl,
    fun i l hl => hdirs l (filePlace_patch hid hl), fun l hl => hdirs l (filePlace_publish hn hl)⟩
  have hshort := hpassed l hl
  have hlong := hplace l hin
  omega

/-- The chunk, sealed with its checksums, as one delivery. -/
def sampleDelivery (chunk : FileChunk) (fuel : Nat) : Delivery where
  chunk := .sealed (ascii "x") (ascii "n") chunk.index chunk.totalChunks 1 chunk.payload
  now := 0
  fuel

theorem carries_sample {chunk : FileChunk} (h : chunk ∈ chunks) (fuel : Nat) :
    Carries (ascii "x") (ascii "n") chunks (sampleDelivery chunk fuel) :=
  ⟨rfl, rfl, ⟨chunk, h, rfl, rfl, rfl⟩, verifyCrc_sealed .., ⟨rfl, rfl, rfl, rfl, rfl,
    fun _ => rfl, fun _ => rfl, fun _ => rfl, rfl, rfl⟩⟩

/-- Two chunks, the second one first. -/
theorem reassembled_sample : ∃ s : Serial, s.published = true ∧
    s.world.fs.content (Root.sample.finalAt (ascii "n")) = some (ascii "a") ∧
      s.world.entry (ascii "x") = none := by
  have hx : IsComponent (ascii "x") := by decide
  have hn : IsComponent (ascii "n") := by decide
  have hE : RawFrame.encoder.Compresses RawFrame.decoder (ascii "a") :=
    RawFrame.compresses (by decide)
  have hsize : 0 < 5 := by decide
  obtain ⟨n, file, hfile, hruns⟩ := reassembled (H := sampleHasher) hE RawFrame.terminates hsize
    hx hn (prepared_sample hx hn) 1 sampleFile.descriptor
  have hsame := hfile (n + 2) (Nat.le_add_right n 2)
  rw [compressor_sample] at hsame
  cases hsame
  obtain ⟨chunks, hchunks, hruns⟩ := hruns (by decide)
  have hcut : chunker 5 sampleFile = some [chunkAt 5 sampleFile 0, chunkAt 5 sampleFile 1] := rfl
  rw [hcut] at hchunks
  cases hchunks
  obtain ⟨m, s, hstep, hpublished, -⟩ := (hruns _ .start).2
    (sampleDelivery (chunkAt 5 sampleFile 1) 0) (carries_sample (by simp) 0)
  have hnot : s.published = false := Bool.eq_false_iff.mpr fun h => by
    have hall := hpublished.mp h
    revert hall
    decide
  have hlog : s.log = [((sampleDelivery (chunkAt 5 sampleFile 1) 0).chunk, false)] := by
    rw [Serial.log_step (hstep m (Nat.le_refl m)), hnot]
    rfl
  have hfirst : Interleaves (ascii "x") (ascii "n") [chunkAt 5 sampleFile 0, chunkAt 5 sampleFile 1]
      (Serial.start sampleFiles 1) (sampleDelivery (chunkAt 5 sampleFile 1) m) :=
    .inl (carries_sample (by simp) m)
  have hreach := Reach.next _ .start hfirst (hstep m (Nat.le_refl m))
  obtain ⟨m', s', hstep', hpublished', hwhole⟩ := (hruns s hreach).2
    (sampleDelivery (chunkAt 5 sampleFile 0) 0) (carries_sample (by simp) 0)
  have hlast : s'.published = true := by
    rw [hpublished', hlog]
    decide
  exact ⟨s', hlast, hwhole hlast⟩

end SuperVoice.Server
