import SuperVoice.Client.Connection
import SuperVoice.Server.DataHandler

/-! The client's chunk encoder against the server's chunk decoder: the third header line, which
the decoder reads as the index, is text. -/
namespace SuperVoice.Relay
open Bytes ByteStream Numeral Client Server

/-- The decoder, run on a stream that begins with the encoded chunk, gives this chunk back. -/
def Agrees (ask : Nat → Nat) (now : Int) (ps : List Bytes) (chunk : FileChunk) : Prop :=
  ∃ received s, receiveChunk ask now ⟨[], 0, ps⟩ = some (received, s) ∧
    verifyCrc received = true ∧ received.index = chunk.index ∧
    received.totalChunks = chunk.totalChunks ∧ received.payload = chunk.payload

variable {chunk : FileChunk}

def fileLine (chunk : FileChunk) : Bytes := ascii "FILE " ++ chunk.descriptor.path

def shaLine (chunk : FileChunk) : Bytes := ascii "SHA256 " ++ chunk.sha256Hex

def sizeLine (chunk : FileChunk) : Bytes := ascii "ORIGINAL_SIZE " ++ decimal chunk.descriptor.size

theorem serialize_lines (chunk : FileChunk) : ∃ rest, serialize chunk =
    fileLine chunk ++ newline :: (shaLine chunk ++ newline :: (sizeLine chunk ++ newline :: rest)) :=
  ⟨ascii "CHUNK " ++ decimal chunk.index ++ ascii "/" ++ decimal chunk.totalChunks ++ [newline] ++
      ascii "PAYLOAD_SIZE " ++ decimal chunk.payload.length ++ [newline, newline] ++ chunk.payload,
    by simp [serialize, fileLine, shaLine, sizeLine]⟩

theorem fileLine_plain (h : newline ∉ chunk.descriptor.path) : newline ∉ fileLine chunk := by
  have hprefix : newline ∉ ascii "FILE " := by decide
  simp [fileLine, hprefix, h]

theorem shaLine_plain (h : newline ∉ chunk.sha256Hex) : newline ∉ shaLine chunk := by
  have hprefix : newline ∉ ascii "SHA256 " := by decide
  simp [shaLine, hprefix, h]

theorem sizeLine_plain : newline ∉ sizeLine chunk := by
  have hprefix : newline ∉ ascii "ORIGINAL_SIZE " := by decide
  simp [sizeLine, hprefix, newline_notMem_decimal]

/-- The line begins with a letter. -/
theorem stoul_sizeLine : stoul (sizeLine chunk) = none := rfl

/-- `std::stoul` throws on the third line of every encoded chunk, wherever the pieces end and
whatever follows. -/
theorem receiveChunk_serialize {ask : Nat → Nat} {now : Int} {ps : List Bytes} {rest : Bytes}
    (hpath : newline ∉ chunk.descriptor.path) (hsha : newline ∉ chunk.sha256Hex)
    (hflat : ps.flatten = serialize chunk ++ rest) :
    receiveChunk ask now ⟨[], 0, ps⟩ = none := by
  rw [Option.eq_none_iff_forall_ne_some]
  intro ⟨received, s⟩ h
  obtain ⟨fileId, s1, r1, h⟩ := exists_of_bind h
  obtain ⟨originalName, s2, r2, h⟩ := exists_of_bind h
  obtain ⟨line, s3, r3, h⟩ := exists_of_bind h
  obtain ⟨index, hindex, -⟩ := exists_of_bind_lift h
  obtain ⟨tail, hlines⟩ := serialize_lines chunk
  have hstart : Source.pending ⟨[], 0, ps⟩ = fileLine chunk ++ newline :: (shaLine chunk ++
      newline :: (sizeLine chunk ++ newline :: (tail ++ rest))) := by
    simp [Source.pending, hflat, hlines]
  obtain ⟨-, hs1⟩ := readLine_line (fileLine_plain hpath) hstart r1
  obtain ⟨-, hs2⟩ := readLine_line (shaLine_plain hsha) hs1 r2
  obtain ⟨rfl, -⟩ := readLine_line sizeLine_plain hs2 r3
  rw [stoul_sizeLine] at hindex
  cases hindex

/-- The decoder understands no chunk that the encoder writes. -/
theorem never_agrees (ask : Nat → Nat) (now : Int) (ps : List Bytes) (rest : Bytes)
    (hpath : newline ∉ chunk.descriptor.path) (hsha : newline ∉ chunk.sha256Hex)
    (hflat : ps.flatten = serialize chunk ++ rest) : ¬ Agrees ask now ps chunk := by
  intro h
  obtain ⟨received, s, hreceived, -⟩ := h
  rw [receiveChunk_serialize hpath hsha hflat] at hreceived
  cases hreceived

/-- The one chunk of an empty file, compressed by zstd. -/
def emptyFileChunk : FileChunk where
  descriptor := ⟨ascii "roundtrip_empty.bin", 0, 0⟩
  sha256Hex := ascii "e3b0c44298fc1c149afbf4c8996fb92427ae41e4649b934ca495991b7852b855"
  index := 0
  totalChunks := 1
  payload := [40, 181, 47, 253, 36, 0, 1, 0, 0, 153, 233, 216, 81]

theorem emptyFileChunk_plain :
    newline ∉ emptyFileChunk.descriptor.path ∧ newline ∉ emptyFileChunk.sha256Hex := by
  decide +kernel

theorem disagrees : ¬ ∀ chunk : FileChunk, newline ∉ chunk.descriptor.path →
    Agrees (fun _ => 512) 0 [serialize chunk] chunk := by
  intro h
  obtain ⟨hpath, hsha⟩ := emptyFileChunk_plain
  obtain ⟨received, s, hreceived, -⟩ := h emptyFileChunk hpath
  have hflat : [serialize emptyFileChunk].flatten = serialize emptyFileChunk ++ [] := by simp
  rw [receiveChunk_serialize hpath hsha hflat] at hreceived
  cases hreceived

theorem never_agrees_sample :
    ¬ Agrees (fun _ => 512) 0 [serialize emptyFileChunk] emptyFileChunk :=
  never_agrees (fun _ => 512) 0 [serialize emptyFileChunk] [] emptyFileChunk_plain.1
    emptyFileChunk_plain.2 (by simp)

end SuperVoice.Relay
