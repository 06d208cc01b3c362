import SuperVoice.Server.DataHandler

/-! What `header_crc` protects. The text it is checked against is written anew from the values the
handler has read, so it is the text on the wire only where every number is spelled as
`std::to_string` spells it. -/
namespace SuperVoice.Server
open Bytes ByteStream Numeral

/-- Line `i` of a stream, counted from 0. -/
def wireLine (b : Bytes) (i : Nat) : Bytes := ((b.splitOn newline)[i]?).getD []

/-- The first `n` lines of a stream with their newlines. -/
def firstLines (n : Nat) (b : Bytes) : Bytes :=
  ((b.splitOn newline).take n).flatMap (· ++ [newline])

variable {ask : Nat → Nat} {now : Int} {s s' : Source} {chunk : ChunkData} {t : HeaderText}

/-- The lines that a stream starts with are its header. -/
structure Starts (b : Bytes) (t : HeaderText) : Prop where
  bytes : ∃ rest, b = t.bytes ++ rest
  plain : ∀ line ∈ t.lines, newline ∉ line

theorem Starts.splitOn {b : Bytes} (h : Starts b t) :
    ∃ rest, b.splitOn newline = t.lines ++ rest := by
  obtain ⟨rest, rfl⟩ := h.bytes
  exact ⟨rest.splitOn newline, splitOn_lines_append h.plain rest⟩

/-- Where the handler gets to a chunk, eight lines have been read and converted. -/
theorem starts_of_receiveChunk (h : receiveChunk ask now s = some (chunk, s')) :
    ∃ t header payload, Starts s.pending t ∧ t.parse = some header ∧
      chunk = header.chunk now payload := by
  obtain ⟨fileId, s1, r1, h⟩ := exists_of_bind h
  obtain ⟨originalName, s2, r2, h⟩ := exists_of_bind h
  obtain ⟨l3, s3, r3, h⟩ := exists_of_bind h
  obtain ⟨index, hindex, h⟩ := exists_of_bind_lift h
  obtain ⟨l4, s4, r4, h⟩ := exists_of_bind h
  obtain ⟨total, htotal, h⟩ := exists_of_bind_lift h
  obtain ⟨hcheck, h⟩ := of_bind_guard h
  obtain ⟨l5, s5, r5, h⟩ := exists_of_bind h
  obtain ⟨ttl, httl, h⟩ := exists_of_bind_lift h
  obtain ⟨l6, s6, r6, h⟩ := exists_of_bind h
  obtain ⟨size, hsize, h⟩ := exists_of_bind_lift h
  obtain ⟨l7, s7, r7, h⟩ := exists_of_bind h
  obtain ⟨headerCrc, hhcrc, h⟩ := exists_of_bind_lift h
  obtain ⟨l8, s8, r8, h⟩ := exists_of_bind h
  obtain ⟨payloadCrc, hpcrc, h⟩ := exists_of_bind_lift h
  obtain ⟨hlimit, h⟩ := of_bind_guard h
  obtain ⟨payload, s9, r9, h⟩ := exists_of_bind h
  obtain ⟨rfl, rfl⟩ := Prod.mk.inj (Option.some.inj h)
  refine ⟨⟨fileId, originalName, l3, l4, l5, l6, l7, l8⟩, _, payload, ⟨⟨s8.pending, ?_⟩, ?_⟩, ?_,
    rfl⟩
  · rw [readLine_pending r1, readLine_pending r2, readLine_pending r3, readLine_pending r4,
      readLine_pending r5, readLine_pending r6, readLine_pending r7, readLine_pending r8]
    simp [HeaderText.bytes, HeaderText.lines]
  · simp only [HeaderText.lines, List.mem_cons, List.not_mem_nil, or_false, forall_eq_or_imp,
      forall_eq]
    exact ⟨readLine_plain r1, readLine_plain r2, readLine_plain r3, readLine_plain r4,
      readLine_plain r5, readLine_plain r6, readLine_plain r7, readLine_plain r8⟩
  · simp only [HeaderText.parse, hindex, htotal, httl, hsize, hhcrc, hpcrc, guard, hcheck, hlimit,
      not_false_eq_true, if_true, Option.bind_eq_bind, Option.bind_some, Option.pure_def]

/-- The four numbers of the header that its checksum covers are spelled as they are printed. -/
structure SpelledAsPrinted (b : Bytes) : Prop where
  index : Canonical (wireLine b 2)
  totalChunks : Canonical (wireLine b 3)
  ttl : CanonicalSigned (wireLine b 4)
  payloadSize : Canonical (wireLine b 5)

instance (b : Bytes) : Decidable (SpelledAsPrinted b) :=
  decidable_of_iff (Canonical (wireLine b 2) ∧ Canonical (wireLine b 3) ∧
    CanonicalSigned (wireLine b 4) ∧ Canonical (wireLine b 5))
    ⟨fun ⟨h1, h2, h3, h4⟩ => ⟨h1, h2, h3, h4⟩, fun ⟨h1, h2, h3, h4⟩ => ⟨h1, h2, h3, h4⟩⟩

theorem parse_values {header : Header} (h : t.parse = some header) :
    header.fileId = t.fileId ∧ header.originalName = t.originalName ∧
      stoul t.index = some header.index ∧ stoul t.totalChunks = some header.totalChunks ∧
      stoll t.ttl = some header.ttl ∧ stoul t.payloadSize = some header.payloadSize := by
  simp only [HeaderText.parse, Option.bind_eq_bind, Option.bind_eq_some_iff] at h
  obtain ⟨index, hindex, total, htotal, _, -, ttl, httl, size, hsize, hcrc, -, pcrc, -, _, -,
    hheader⟩ := h
  cases hheader
  exact ⟨rfl, rfl, hindex, htotal, httl, hsize⟩

/-- The rebuilt text is that of the lines exactly when each number prints as its line. -/
theorem headerBlob_eq_iff (plain : ∀ line ∈ t.lines, newline ∉ line) (i n : Nat) (ttl : Int)
    (size : Nat) : headerBlob t.fileId t.originalName i n ttl size =
        (t.lines.take 6).flatMap (· ++ [newline]) ↔
      t.index = decimal i ∧ t.totalChunks = decimal n ∧ t.ttl = signedDecimal ttl ∧
        t.payloadSize = decimal size := by
  simp only [HeaderText.lines, List.mem_cons, List.not_mem_nil, or_false, forall_eq_or_imp,
    forall_eq] at plain
  obtain ⟨-, -, h3, h4, h5, h6, -, -⟩ := plain
  simp only [headerBlob, HeaderText.lines, List.take_succ_cons, List.take_zero, List.flatMap_cons,
    List.flatMap_nil, List.append_assoc, List.cons_append, List.append_cancel_left_eq,
    List.cons.injEq, true_and, List.append_nil]
  constructor
  · intro he
    obtain ⟨hi, he⟩ := line_inj (newline_notMem_decimal i) h3 he
    obtain ⟨hn, he⟩ := line_inj (newline_notMem_decimal n) h4 he
    obtain ⟨httl, he⟩ := line_inj (newline_notMem_signedDecimal ttl) h5 he
    obtain ⟨hsize, -⟩ := line_inj (newline_notMem_decimal size) h6 he
    exact ⟨hi.symm, hn.symm, httl.symm, hsize.symm⟩
  · rintro ⟨h3, h4, h5, h6⟩
    rw [h3, h4, h5, h6]

/-- For every stream the handler accepts a header from, the bytes whose checksum it compares are
those on the wire exactly when the four numbers are spelled as printed. -/
theorem header_bytes_on_wire_iff (h : receiveChunk ask now s = some (chunk, s')) :
    chunk.headerBytes = firstLines 6 s.pending ↔ SpelledAsPrinted s.pending := by
  obtain ⟨t, header, payload, hstarts, hparse, rfl⟩ := starts_of_receiveChunk h
  obtain ⟨hid, hname, hindex, htotal, httl, hsize⟩ := parse_values hparse
  obtain ⟨rest, hsplit⟩ := hstarts.splitOn
  have hfirst : firstLines 6 s.pending = (t.lines.take 6).flatMap (· ++ [newline]) := by
    rw [firstLines, hsplit, List.take_append_of_le_length (by simp [HeaderText.lines])]
  have hline : wireLine s.pending 2 = t.index ∧ wireLine s.pending 3 = t.totalChunks ∧
      wireLine s.pending 4 = t.ttl ∧ wireLine s.pending 5 = t.payloadSize := by
    simp [wireLine, hsplit, HeaderText.lines]
  rw [Header.chunk, hfirst, hid, hname, headerBlob_eq_iff hstarts.plain, eq_decimal_iff hindex,
    eq_decimal_iff htotal, eq_signedDecimal_iff httl, eq_decimal_iff hsize]
  obtain ⟨h2, h3, h4, h5⟩ := hline
  constructor
  · rintro ⟨c1, c2, c3, c4⟩
    exact ⟨h2 ▸ c1, h3 ▸ c2, h4 ▸ c3, h5 ▸ c4⟩
  · rintro ⟨c1, c2, c3, c4⟩
    exact ⟨h2 ▸ c1, h3 ▸ c2, h4 ▸ c3, h5 ▸ c4⟩

/-- A header whose numbers are printed ones is checked as it came. -/
theorem header_bytes_on_wire_iff_sample : ∃ chunk s,
    receiveChunk (fun _ => 512) 0
      ⟨[], 0, [sampleMessage.text.bytes, sampleMessage.payload]⟩ = some (chunk, s) ∧
    chunk.headerBytes = firstLines 6 sampleMessage.bytes := by
  have hrun : (receiveChunk (fun _ => 512) 0
      ⟨[], 0, [sampleMessage.text.bytes, sampleMessage.payload]⟩).isSome = true := by
    decide +kernel
  obtain ⟨⟨chunk, s⟩, h⟩ := Option.isSome_iff_exists.mp hrun
  have hstream : Source.pending ⟨[], 0, [sampleMessage.text.bytes, sampleMessage.payload]⟩ =
      sampleMessage.bytes := by simp [Source.pending, Message.bytes]
  refine ⟨chunk, s, h, ?_⟩
  rw [← hstream]
  apply (header_bytes_on_wire_iff h).mpr
  rw [hstream]
  decide +kernel

/-- The sample header with its index spelled `00`. -/
def paddedHeader : Bytes := { sampleHeader.text with index := ascii "00" }.bytes

/-- A leading zero is not part of what is checked, and the chunk passes both checks. -/
theorem header_bytes_on_wire_fails : ¬ ∀ (ask : Nat → Nat) (now : Int) (s s' : Source)
    (chunk : ChunkData), receiveChunk ask now s = some (chunk, s') → verifyCrc chunk = true →
      chunk.headerBytes = firstLines 6 s.pending := by
  intro hclaim
  have hrun : (receiveChunk (fun _ => 512) 0 ⟨[], 0, [paddedHeader, ascii "hi"]⟩).any (fun p =>
      verifyCrc p.1 && decide (p.1.headerBytes ≠
        firstLines 6 (Source.pending ⟨[], 0, [paddedHeader, ascii "hi"]⟩))) = true := by
    decide +kernel
  obtain ⟨⟨chunk, s⟩, h, hend⟩ := (Option.any_eq_true ..).mp hrun
  obtain ⟨hcrc, hdiffers⟩ := (Bool.and_eq_true ..).mp hend
  exact of_decide_eq_true hdiffers (hclaim _ _ _ _ _ h hcrc)

end SuperVoice.Server
