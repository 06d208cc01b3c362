import SuperVoice.Lib.ByteStream
import SuperVoice.Lib.Numeral
import SuperVoice.Server.Handlers

/-! The data channel handler up to `store_chunk`: eight header lines are read through a
`streambuf`, the payload by `read_some` on the socket itself. -/
namespace SuperVoice.Server
open Bytes ByteStream Numeral

/-- The eight header lines as they stand on the wire. -/
structure HeaderText where
  fileId : Bytes
  originalName : Bytes
  index : Bytes
  totalChunks : Bytes
  ttl : Bytes
  payloadSize : Bytes
  headerCrc : Bytes
  payloadCrc : Bytes
  deriving DecidableEq

/-- The header values as the handler converts them. -/
structure Header where
  fileId : Bytes
  originalName : Bytes
  index : Nat
  totalChunks : Nat
  ttl : Int
  payloadSize : Nat
  headerCrc : UInt32
  payloadCrc : UInt32
  deriving DecidableEq

/-- `std::vector::resize` throws from this size on. -/
def vectorLimit : Nat := 2 ^ 63

def Header.chunk (h : Header) (now : Int) (payload : Bytes) : ChunkData where
  fileId := h.fileId
  originalName := h.originalName
  index := h.index
  totalChunks := h.totalChunks
  timestamp := now
  ttl := h.ttl
  headerBytes := headerBlob h.fileId h.originalName h.index h.totalChunks h.ttl h.payloadSize
  payload
  headerCrc := h.headerCrc
  payloadCrc := h.payloadCrc

/-- The handler until it has a chunk to store; `none` where it counts a chunk error or waits for
bytes that do not come. -/
def receiveChunk (ask : Nat → Nat) (now : Int) : Reader ChunkData := do
  let fileId ← readLine ask
  let originalName ← readLine ask
  let line ← readLine ask
  let index ← stoul line
  let line ← readLine ask
  let totalChunks ← stoul line
  guard ¬(totalChunks = 0 ∨ totalChunks ≤ index)
  let line ← readLine ask
  let ttl ← stoll line
  let line ← readLine ask
  let payloadSize ← stoull line
  let line ← readLine ask
  let headerCrc ← stoul line
  let line ← readLine ask
  let payloadCrc ← stoul line
  guard (payloadSize < vectorLimit)
  let payload ← readDirect payloadSize
  let header : Header := ⟨fileId, originalName, index, totalChunks, ttl, payloadSize,
    headerCrc.toUInt32, payloadCrc.toUInt32⟩
  return header.chunk now payload

/-- The lines of a header as `std::to_string` writes its values. -/
def Header.text (h : Header) : HeaderText where
  fileId := h.fileId
  originalName := h.originalName
  index := decimal h.index
  totalChunks := decimal h.totalChunks
  ttl := signedDecimal h.ttl
  payloadSize := decimal h.payloadSize
  headerCrc := decimal h.headerCrc.toNat
  payloadCrc := decimal h.payloadCrc.toNat

/-- The conversions and checks of the handler on the lines alone. -/
def HeaderText.parse (t : HeaderText) : Option Header := do
  let index ← stoul t.index
  let totalChunks ← stoul t.totalChunks
  guard ¬(totalChunks = 0 ∨ totalChunks ≤ index)
  let ttl ← stoll t.ttl
  let payloadSize ← stoull t.payloadSize
  let headerCrc ← stoul t.headerCrc
  let payloadCrc ← stoul t.payloadCrc
  guard (payloadSize < vectorLimit)
  return ⟨t.fileId, t.originalName, index, totalChunks, ttl, payloadSize, headerCrc.toUInt32,
    payloadCrc.toUInt32⟩

theorem parse_text {h : Header} (hindex : h.index < h.totalChunks) (htotal : h.totalChunks < 2 ^ 64)
    (httl : -2 ^ 63 ≤ h.ttl ∧ h.ttl < 2 ^ 63) (hsize : h.payloadSize < vectorLimit) :
    h.text.parse = some h := by
  have hcrc (c : UInt32) : stoul (decimal c.toNat) = some c.toNat :=
    stoul_decimal (c.toNat_lt.trans (by decide))
  have hsize' : stoull (decimal h.payloadSize) = some h.payloadSize :=
    stoul_decimal (hsize.trans (by decide))
  have hcheck : ¬(h.totalChunks = 0 ∨ h.totalChunks ≤ h.index) := by omega
  simp only [HeaderText.parse, Header.text, stoul_decimal (hindex.trans htotal),
    stoul_decimal htotal, stoll_signedDecimal httl, hsize', hcrc, guard, hcheck, hsize,
    not_false_eq_true, if_true, Option.bind_eq_bind, Option.bind_some, Option.pure_def,
    Nat.toUInt32_eq, UInt32.ofNat_toNat]

def HeaderText.lines (t : HeaderText) : List Bytes :=
  [t.fileId, t.originalName, t.index, t.totalChunks, t.ttl, t.payloadSize, t.headerCrc,
    t.payloadCrc]

def HeaderText.bytes (t : HeaderText) : Bytes := t.lines.flatMap (· ++ [newline])

/-- A message the handler understands: eight lines it can convert, then as many bytes of payload
as they announce. -/
structure Message where
  text : HeaderText
  header : Header
  payload : Bytes
  plain : ∀ line ∈ text.lines, newline ∉ line
  parses : text.parse = some header
  size : payload.length = header.payloadSize

def Message.bytes (m : Message) : Bytes := m.text.bytes ++ m.payload

variable {ask : Nat → Nat} {ps : List Bytes}

/-- The line reader works through the whole header, wherever the pieces end. -/
theorem receiveChunk_eq (hask : ∀ n, 0 < ask n) (hps : Proper ps) (now : Int) (m : Message)
    (hflat : ps.flatten = m.bytes) :
    ∃ s, Consumed ask ps m.text.bytes s ∧ s.pending = m.payload ∧
      receiveChunk ask now ⟨[], 0, ps⟩ =
        (readDirect m.header.payloadSize s).map fun (payload, s) =>
          (m.header.chunk now payload, s) := by
  have hplain := m.plain
  simp only [HeaderText.lines, List.mem_cons, List.not_mem_nil, or_false, forall_eq_or_imp,
    forall_eq] at hplain
  obtain ⟨p1, p2, p3, p4, p5, p6, p7, p8⟩ := hplain
  have hstart : Source.pending ⟨[], 0, ps⟩ = m.text.fileId ++ newline :: (m.text.originalName ++
      newline :: (m.text.index ++ newline :: (m.text.totalChunks ++ newline :: (m.text.ttl ++
      newline :: (m.text.payloadSize ++ newline :: (m.text.headerCrc ++ newline ::
      (m.text.payloadCrc ++ newline :: m.payload))))))) := by
    simp [Source.pending, hflat, Message.bytes, HeaderText.bytes, HeaderText.lines]
  obtain ⟨s1, r1, hs1, c1⟩ := readLine_consumed hask (consumed_start hps) p1 hstart
  obtain ⟨s2, r2, hs2, c2⟩ := readLine_consumed hask c1 p2 hs1
  obtain ⟨s3, r3, hs3, c3⟩ := readLine_consumed hask c2 p3 hs2
  obtain ⟨s4, r4, hs4, c4⟩ := readLine_consumed hask c3 p4 hs3
  obtain ⟨s5, r5, hs5, c5⟩ := readLine_consumed hask c4 p5 hs4
  obtain ⟨s6, r6, hs6, c6⟩ := readLine_consumed hask c5 p6 hs5
  obtain ⟨s7, r7, hs7, c7⟩ := readLine_consumed hask c6 p7 hs6
  obtain ⟨s8, r8, hs8, c8⟩ := readLine_consumed hask c7 p8 hs7
  have hparses := m.parses
  simp only [HeaderText.parse, Option.bind_eq_bind, Option.bind_eq_some_iff] at hparses
  obtain ⟨index, hindex, total, htotal, _, hcheck, ttl, httl, size, hsize, hcrc, hhcrc, pcrc,
    hpcrc, _, hlimit, hheader⟩ := hparses
  have hcheck := (Option.guard_eq_some' ..).mp hcheck
  have hlimit := (Option.guard_eq_some' ..).mp hlimit
  refine ⟨s8, ?_, hs8, ?_⟩
  · have hdone : m.text.bytes = [] ++ m.text.fileId ++ [newline] ++ m.text.originalName ++
        [newline] ++ m.text.index ++ [newline] ++ m.text.totalChunks ++ [newline] ++ m.text.ttl ++
        [newline] ++ m.text.payloadSize ++ [newline] ++ m.text.headerCrc ++ [newline] ++
        m.text.payloadCrc ++ [newline] := by
      simp [HeaderText.bytes, HeaderText.lines]
    rw [hdone]
    exact c8
  · rw [← Option.some.inj hheader, receiveChunk, bind_of_eq_some r1, bind_of_eq_some r2,
      bind_of_eq_some r3, bind_lift s3 hindex, bind_of_eq_some r4, bind_lift s4 htotal,
      bind_guard s4 hcheck, bind_of_eq_some r5, bind_lift s5 httl, bind_of_eq_some r6,
      bind_lift s6 hsize, bind_of_eq_some r7, bind_lift s7 hhcrc, bind_of_eq_some r8,
      bind_lift s8 hpcrc, bind_guard s8 hlimit]
    show (readDirect size s8).bind _ = _
    cases readDirect size s8 with
    | none => rfl
    | some p => rfl

/-- A received chunk is one that `store_chunk` may be handed. -/
theorem admitted_of_receiveChunk {now : Int} {s s' : Source} {chunk : ChunkData}
    (h : receiveChunk ask now s = some (chunk, s')) : chunk.Admitted := by
  obtain ⟨fileId, s1, r1, h⟩ := exists_of_bind h
  obtain ⟨originalName, s2, r2, h⟩ := exists_of_bind h
  obtain ⟨line, s3, r3, h⟩ := exists_of_bind h
  obtain ⟨index, hindex, h⟩ := exists_of_bind_lift h
  obtain ⟨line, s4, r4, h⟩ := exists_of_bind h
  obtain ⟨total, htotal, h⟩ := exists_of_bind_lift h
  obtain ⟨hcheck, h⟩ := of_bind_guard h
  obtain ⟨line, s5, r5, h⟩ := exists_of_bind h
  obtain ⟨ttl, httl, h⟩ := exists_of_bind_lift h
  obtain ⟨line, s6, r6, h⟩ := exists_of_bind h
  obtain ⟨size, hsize, h⟩ := exists_of_bind_lift h
  obtain ⟨line, s7, r7, h⟩ := exists_of_bind h
  obtain ⟨headerCrc, hhcrc, h⟩ := exists_of_bind_lift h
  obtain ⟨line, s8, r8, h⟩ := exists_of_bind h
  obtain ⟨payloadCrc, hpcrc, h⟩ := exists_of_bind_lift h
  obtain ⟨hlimit, h⟩ := of_bind_guard h
  obtain ⟨payload, s9, r9, h⟩ := exists_of_bind h
  obtain ⟨rfl, rfl⟩ := Prod.mk.inj (Option.some.inj h)
  have hlength : payload.length = size := readDirect_length r9
  refine ⟨?_, stoul_lt htotal, ?_, stoll_range httl, readLine_plain r1, readLine_plain r2, ?_⟩
  · show index < total
    omega
  · show payload.length < 2 ^ 64
    rw [hlength]
    exact Nat.lt_trans hlimit (by decide)
  · simp only [Header.chunk, hlength]

theorem Message.size_eq (m : Message) {s : Source} (h : s.pending = m.payload) :
    s.buffer.length + s.pieces.flatten.length = m.header.payloadSize := by
  rw [← m.size, ← h, Source.pending, List.length_append]

/-- The payload arrives exactly when no byte of it was read with the header lines: either there
is none, or one of the line reader's reads ends where the header does. -/
theorem payload_received (hask : ∀ n, 0 < ask n) (hps : Proper ps) (now : Int) (m : Message)
    (hflat : ps.flatten = m.bytes) :
    (∃ chunk s, receiveChunk ask now ⟨[], 0, ps⟩ = some (chunk, s) ∧ chunk.payload = m.payload) ↔
      m.payload = [] ∨ ∃ k, (reads ask ps k).1 = m.text.bytes := by
  obtain ⟨s, hc, hpend, heq⟩ := receiveChunk_eq hask hps now m hflat
  rw [heq, ← hc.buffer_eq_nil]
  have hsize := m.size_eq hpend
  constructor
  · intro ⟨chunk, s', hreceived, _⟩
    by_cases hlt : s.pieces.flatten.length < m.header.payloadSize
    · rw [readDirect_none hc.proper hlt] at hreceived
      cases hreceived
    · exact .inr (List.eq_nil_of_length_eq_zero (by omega))
  · intro hor
    have hbuffer : s.buffer = [] := by
      cases hor with
      | inl hnil =>
        rw [hnil, Source.pending, List.append_eq_nil_iff] at hpend
        exact hpend.1
      | inr hbuffer => exact hbuffer
    rw [hbuffer, List.length_nil, Nat.zero_add] at hsize
    have hpieces : s.pieces.flatten = m.payload := by
      rw [← hpend, Source.pending, hbuffer, List.nil_append]
    obtain ⟨s', hread⟩ := readDirect_spec hc.proper hsize.ge
    rw [hread]
    refine ⟨_, _, rfl, ?_⟩
    rw [Header.chunk, ← hsize, List.take_length, hpieces]

/-- One chunk as a sender that knows the format puts it on the wire. -/
def sampleHeader : Header where
  fileId := ascii "a"
  originalName := ascii "n"
  index := 0
  totalChunks := 1
  ttl := 60
  payloadSize := 2
  headerCrc := crc32 (headerBlob (ascii "a") (ascii "n") 0 1 60 2)
  payloadCrc := crc32 (ascii "hi")

def sampleMessage : Message where
  text := sampleHeader.text
  header := sampleHeader
  payload := ascii "hi"
  plain := by decide +kernel
  parses := parse_text (by decide) (by decide) (by decide) (by decide)
  size := rfl

/-- The header in one segment and the payload in the next. -/
theorem payload_received_sample :
    Proper [sampleMessage.text.bytes, sampleMessage.payload] ∧
      ∃ chunk s, receiveChunk (fun _ => 512) 0
        ⟨[], 0, [sampleMessage.text.bytes, sampleMessage.payload]⟩ = some (chunk, s) ∧
        chunk.payload = sampleMessage.payload := by
  have hproper : Proper [sampleMessage.text.bytes, sampleMessage.payload] := by decide +kernel
  refine ⟨hproper, (payload_received (fun _ => by decide) hproper 0 sampleMessage ?_).mpr
    (.inr ⟨1, ?_⟩)⟩
  · simp [Message.bytes]
  · have hle : ∀ p ∈ [sampleMessage.text.bytes, sampleMessage.payload], p.length ≤ 512 := by
      decide +kernel
    rw [reads_of_le fun p hp _ => hle p hp]
    simp

/-- The whole message in one segment: the payload stays in the buffer of the line reader. -/
theorem payload_received_fails :
    ¬ ∀ (ask : Nat → Nat) (ps : List Bytes) (now : Int) (m : Message), (∀ n, 0 < ask n) →
      Proper ps → ps.flatten = m.bytes → ∃ chunk s,
        receiveChunk ask now ⟨[], 0, ps⟩ = some (chunk, s) ∧ chunk.payload = m.payload := by
  intro h
  obtain ⟨chunk, s, hreceived, -⟩ := h (fun _ => 512) [sampleMessage.bytes] 0 sampleMessage
    (fun _ => by decide) (by decide +kernel) (by simp)
  have hnone : (receiveChunk (fun _ => 512) 0 ⟨[], 0, [sampleMessage.bytes]⟩).isNone := by
    decide +kernel
  rw [hreceived] at hnone
  cases hnone

end SuperVoice.Server
