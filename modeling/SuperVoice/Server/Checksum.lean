import SuperVoice.Common.PatchHeader
import SuperVoice.Server.Handlers

/-! The two checksums of the relay: `Storage::crc32` bit by bit and `Crc32` by its table. -/
namespace SuperVoice.Server
open Bytes Common LittleEndian

theorem crcBit_eq (crc : UInt32) : crcBit crc = crc32TableStep crc := by
  have hor : crc &&& 1 = 0 ∨ crc &&& 1 = 1 := by
    have hle : (crc &&& 1).toNat ≤ 1 := by
      rw [UInt32.toNat_and]
      exact Nat.and_le_right
    obtain hzero | hone : (crc &&& 1).toNat = 0 ∨ (crc &&& 1).toNat = 1 := by omega
    · exact .inl (UInt32.toNat_inj.mp hzero)
    · exact .inr (UInt32.toNat_inj.mp hone)
  unfold crcBit crc32TableStep
  cases hor with
  | inl hzero => simp [hzero]
  | inr hone => simp [hone]; rfl

theorem toBitVec_crcByte (crc : UInt32) (byte : UInt8) : (crcByte crc byte).toBitVec =
    Crc.next crc32Polynomial.toBitVec crc.toBitVec byte := by
  have hbits := toBitVec_crc32TableEntry (crc ^^^ byte.toUInt32)
  rw [crc32TableEntry, ← funext crcBit_eq] at hbits
  exact hbits

theorem toBitVec_foldl_crcByte (crc : UInt32) (data : Bytes) :
    (data.foldl crcByte crc).toBitVec =
      Crc.run crc32Polynomial.toBitVec crc.toBitVec data := by
  induction data generalizing crc with
  | nil => rfl
  | cons byte rest ih =>
    have hstep := ih (crcByte crc byte)
    rw [toBitVec_crcByte] at hstep
    exact hstep

/-- Both are one function, however the bytes are cut into calls of `update`. -/
theorem value_eq_crc32 (pieces : List Bytes) :
    (pieces.foldl Crc32.update {}).value = Server.crc32 pieces.flatten := by
  have hcrc : (Crc32.update {} pieces.flatten).crc =
      pieces.flatten.foldl crcByte 0xFFFFFFFF := by
    rw [← UInt32.toBitVec_inj, Crc32.toBitVec_update, toBitVec_foldl_crcByte]
  rw [Crc32.foldl_update, Crc32.value, hcrc]
  rfl

theorem crc32_eq (data : Bytes) : Server.crc32 data = Common.crc32 data := by
  have hvalue := value_eq_crc32 [data]
  rw [List.flatten_cons, List.flatten_nil, List.append_nil] at hvalue
  exact hvalue.symm

theorem verifyCrc_of_burst {chunk : ChunkData} {payload : Bytes} {start : Nat}
    (haccepted : verifyCrc chunk = true) (h : Crc.Burst start 4 chunk.payload payload) :
    verifyCrc { chunk with payload } = false := by
  have hne : Server.crc32 payload ≠ chunk.payloadCrc := by
    simp only [verifyCrc, Bool.and_eq_true, beq_iff_eq] at haccepted
    rw [← haccepted.2, crc32_eq, crc32_eq]
    exact (crc32_ne_of_burst h).symm
  simp [verifyCrc, hne]

section Headers
variable {header header' : PatchHeader} {start : Nat}

/-- Without its checksum a header is what it was outside of the field, and zero inside. -/
theorem zeroed_agree {i : Nat} (h : header.fields[i]? = header'.fields[i]?) :
    { header with headerCrc32 := 0 }.fields[i]? = { header' with headerCrc32 := 0 }.fields[i]? := by
  by_cases hfield : i < 32 ∨ 36 ≤ i
  · rw [header.fields_of_outside 0 hfield, header'.fields_of_outside 0 hfield, h]
  · have hinside : 32 ≤ i ∧ i < 36 := by omega
    rw [PatchHeader.fields_of_inside _ hinside, PatchHeader.fields_of_inside _ hinside]

theorem computeHeaderCrc32_eq (header : PatchHeader) : header.computeHeaderCrc32 =
    (Common.crc32 { header with headerCrc32 := 0 }.fields).toBitVec := by
  rw [← PatchHeader.serialize_bytes, ← PatchHeader.serialize_false]
  rfl

/-- A burst in the field leaves the rest, over which the checksum is taken. -/
theorem computeHeaderCrc32_of_inside (h : Crc.Burst 32 4 header.fields header'.fields) :
    header.computeHeaderCrc32 = header'.computeHeaderCrc32 ∧
      header.headerCrc32 ≠ header'.headerCrc32 := by
  have hzeroed : { header with headerCrc32 := 0 }.fields =
      { header' with headerCrc32 := 0 }.fields := by
    apply List.ext_getElem?
    intro i
    by_cases hfield : i < 32 ∨ 36 ≤ i
    · exact zeroed_agree (h.agree i hfield)
    · have hinside : 32 ≤ i ∧ i < 36 := by omega
      rw [PatchHeader.fields_of_inside _ hinside, PatchHeader.fields_of_inside _ hinside]
  refine ⟨by rw [computeHeaderCrc32_eq, computeHeaderCrc32_eq, hzeroed], fun hcrc => h.ne ?_⟩
  apply List.ext_getElem?
  intro i
  by_cases hfield : i < 32 ∨ 36 ≤ i
  · exact h.agree i hfield
  · have hinside : 32 ≤ i ∧ i < 36 := by omega
    rw [PatchHeader.fields_of_inside _ hinside, PatchHeader.fields_of_inside _ hinside, hcrc]

/-- A burst beside the field is one in the bytes over which the checksum is taken. -/
theorem computeHeaderCrc32_of_outside (h : Crc.Burst start 4 header.fields header'.fields)
    (hbeside : start + 4 ≤ 32 ∨ 36 ≤ start) :
    header.headerCrc32 = header'.headerCrc32 ∧
      header.computeHeaderCrc32 ≠ header'.computeHeaderCrc32 := by
  have hcrc : header.headerCrc32 = header'.headerCrc32 := by
    refine toBytes_injective (w := 4) (List.ext_getElem? fun i => ?_)
    by_cases hi : i < 4
    · have hinside : 32 ≤ 32 + i ∧ 32 + i < 36 := by omega
      have hbyte := h.agree (32 + i) (by omega)
      rwa [PatchHeader.fields_of_inside _ hinside, PatchHeader.fields_of_inside _ hinside,
        Nat.add_sub_cancel_left] at hbyte
    · rw [List.getElem?_eq_none (by rw [length_toBytes]; omega),
        List.getElem?_eq_none (by rw [length_toBytes]; omega)]
  have hburst : Crc.Burst start 4 { header with headerCrc32 := 0 }.fields
      { header' with headerCrc32 := 0 }.fields := by
    refine ⟨?_, fun heq => ?_, fun i hi => zeroed_agree (h.agree i hi)⟩
    · rw [PatchHeader.length_fields, PatchHeader.length_fields]
    · refine h.ne (List.ext_getElem? fun i => ?_)
      by_cases hfield : i < 32 ∨ 36 ≤ i
      · rw [← header.fields_of_outside 0 hfield, ← header'.fields_of_outside 0 hfield, heq]
      · exact h.agree i (by omega)
  refine ⟨hcrc, fun heq => crc32_ne_of_burst hburst ?_⟩
  rwa [computeHeaderCrc32_eq, computeHeaderCrc32_eq, UInt32.toBitVec_inj] at heq

theorem deserialize_of_burst {data data' : Bytes} (hlen : data.length = PatchHeader.encodedSize)
    (hvalid : PatchHeader.deserialize data = .ok header) (h : Crc.Burst start 4 data data')
    (hwindow : start + 4 ≤ 32 ∨ 36 ≤ start ∨ start = 32) :
    ∃ fault, fault ≠ .undefined ∧ PatchHeader.deserialize data' = .error fault := by
  cases hread : PatchHeader.deserialize data' with
  | error fault => exact ⟨fault, fun hf => PatchHeader.deserialize_safe data' (hf ▸ hread), rfl⟩
  | ok header' =>
    obtain ⟨-, hdata, -, -, hcrc⟩ := PatchHeader.deserialize_eq_ok.mp hvalid
    obtain ⟨-, hdata', -, -, hcrc'⟩ := PatchHeader.deserialize_eq_ok.mp hread
    rw [List.take_of_length_le hlen.le] at hdata
    rw [List.take_of_length_le (h.length.symm.trans hlen).le] at hdata'
    rw [hdata, hdata'] at h
    rcases hwindow with hbefore | hbehind | rfl
    · obtain ⟨hfield, hne⟩ := computeHeaderCrc32_of_outside h (.inl hbefore)
      exact absurd (hcrc.symm.trans (hfield.trans hcrc')) hne
    · obtain ⟨hfield, hne⟩ := computeHeaderCrc32_of_outside h (.inr hbehind)
      exact absurd (hcrc.symm.trans (hfield.trans hcrc')) hne
    · obtain ⟨hcompute, hne⟩ := computeHeaderCrc32_of_inside h
      exact absurd (hcrc.trans (hcompute.trans hcrc'.symm)) hne

end Headers

/-- Every change within four consecutive bytes is detected: by both checksums, by `store_chunk` and,
where the window does not lie across the border of the checksum's own field, by `deserialize`. -/
theorem bursts_detected (start : Nat) :
    (∀ x y, Crc.Burst start 4 x y →
      Server.crc32 x ≠ Server.crc32 y ∧ Common.crc32 x ≠ Common.crc32 y) ∧
    (∀ (r : Root) (io : StoreIo) (now : Int) (w : World) (chunk : ChunkData) (payload : Bytes),
      verifyCrc chunk = true → Crc.Burst start 4 chunk.payload payload →
        storeChunk r io now w { chunk with payload } = (.returned none, w)) ∧
    (∀ (data data' : Bytes) (header : PatchHeader), data.length = PatchHeader.encodedSize →
      PatchHeader.deserialize data = .ok header → Crc.Burst start 4 data data' →
      start + 4 ≤ 32 ∨ 36 ≤ start ∨ start = 32 →
        ∃ fault, fault ≠ .undefined ∧ PatchHeader.deserialize data' = .error fault) := by
  refine ⟨fun x y h => ?_, fun r io now w chunk payload haccepted h => ?_,
    fun data data' header hlen hvalid h hwindow => deserialize_of_burst hlen hvalid h hwindow⟩
  · rw [crc32_eq, crc32_eq]
    exact ⟨crc32_ne_of_burst h, crc32_ne_of_burst h⟩
  · simp [storeChunk, writePatch, verifyCrc_of_burst haccepted h]

/-- One changed byte of a stored payload and one of a header's `file_id`. -/
theorem bursts_detected_sample :
    (∀ (io : StoreIo) (w : World), storeChunk .sample io 0 w
      { ChunkData.sealed (ascii "a") (ascii "n") 0 1 60 (ascii "hi") with payload := ascii "ho" } =
        (.returned none, w)) ∧
    ∃ fault, fault ≠ .undefined ∧ PatchHeader.deserialize
      ((encodePatchHeader .sample).bytes.set 12 8) = .error fault := by
  have hpayload : Crc.Burst 0 4 (ascii "hi") ((ascii "hi").set 1 111) :=
    Crc.burst_set rfl (by decide) (by decide)
  have hheader : Crc.Burst 12 4 (encodePatchHeader .sample).bytes
      ((encodePatchHeader .sample).bytes.set 12 8) := by
    rw [PatchHeader.encodePatchHeader_bytes]
    exact Crc.burst_set rfl (by decide) (by decide)
  exact ⟨fun io w => (bursts_detected 0).2.1 .sample io 0 w _ _ (verifyCrc_sealed ..) hpayload,
    (bursts_detected 12).2.2 _ _ _ (encodePatchHeader .sample).length_eq
      (PatchHeader.deserialize_encode rfl rfl) hheader (by decide)⟩

end SuperVoice.Server
