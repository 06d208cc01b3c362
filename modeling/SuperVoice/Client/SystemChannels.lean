import SuperVoice.Client.Chunker
import SuperVoice.Lib.JsonString

/-! `sv::client::SystemChannels`: what it tells of the chunks in JSON. -/
namespace SuperVoice.Client
open Bytes JsonString

def escapeByte : UInt8 → Bytes
  | 92 => ascii "\\\\"
  | 34 => ascii "\\\""
  | 10 => ascii "\\n"
  | 13 => ascii "\\r"
  | 9 => ascii "\\t"
  | ch => [ch]

def escapeJson (value : Bytes) : Bytes := value.flatMap escapeByte

/-! The messages, in front of the path and behind the quotation mark that ends it. -/

def fileMetaHead : Bytes := ascii "\x7b\"type\":\"FILE_META\",\"path\":\""

def fileMetaTail (chunk : FileChunk) : Bytes :=
  ascii ",\"sha256\":\"" ++ chunk.sha256Hex ++ ascii "\",\"size\":" ++
    decimal chunk.descriptor.size ++ ascii ",\"chunks\":" ++ decimal chunk.totalChunks ++ ascii "\x7d"

def fileMeta (chunk : FileChunk) : Bytes :=
  fileMetaHead ++ (escapeJson chunk.descriptor.path ++ quote :: fileMetaTail chunk)

def filePatchMapHead : Bytes := ascii "\x7b\"type\":\"FILE_PATCH_MAP\",\"path\":\""

def filePatchMapTail (chunk : FileChunk) : Bytes :=
  ascii ",\"sha256\":\"" ++ chunk.sha256Hex ++ ascii "\",\"chunk_index\":" ++ decimal chunk.index ++
    ascii ",\"total_chunks\":" ++ decimal chunk.totalChunks ++ ascii ",\"payload_size\":" ++
    decimal chunk.payload.length ++ ascii "\x7d"

def filePatchMap (chunk : FileChunk) : Bytes :=
  filePatchMapHead ++ (escapeJson chunk.descriptor.path ++ quote :: filePatchMapTail chunk)

structure SystemChannels where
  /-- There is a socket. -/
  socket : Bool
  /-- The keys of the files whose meta data is not sent again, even if its send has failed. -/
  publishedMeta : List Bytes
  /-- The messages in the order of the lock of the socket, each with whether it was sent. -/
  messages : List (Bytes × Bool)

namespace SystemChannels

def start (socket : Bool) : SystemChannels := ⟨socket, [], []⟩

/-- Without a socket nothing is sent; a send that fails is logged and not tried again. -/
def sendMessage (s : SystemChannels) (message : Bytes) (succeeds : Bool) : SystemChannels :=
  { s with messages := s.messages ++ [(message, s.socket && succeeds)] }

/-- The messages that were sent. -/
def sent (s : SystemChannels) : List Bytes := (s.messages.filter Prod.snd).map Prod.fst

def sendFileMeta (s : SystemChannels) (chunk : FileChunk) (succeeds : Bool) : SystemChannels :=
  let key := chunk.descriptor.path ++ ascii ":" ++ chunk.sha256Hex
  if key ∈ s.publishedMeta then s
  else { s with publishedMeta := key :: s.publishedMeta }.sendMessage (fileMeta chunk) succeeds

def sendFilePatchMap (s : SystemChannels) (chunk : FileChunk) (succeeds : Bool) : SystemChannels :=
  s.sendMessage (filePatchMap chunk) succeeds

/-- Whether the sends of the two messages succeed is given. -/
def notifyFileChunkEnqueued (s : SystemChannels) (chunk : FileChunk) (metaSent mapSent : Bool) :
    SystemChannels :=
  (s.sendFileMeta chunk metaSent).sendFilePatchMap chunk mapSent

theorem messages_notifyFileChunkEnqueued (s : SystemChannels) (chunk : FileChunk)
    (metaSent mapSent : Bool) : ∀ m ∈ (s.notifyFileChunkEnqueued chunk metaSent mapSent).messages,
      m ∈ s.messages ∨ m.1 = fileMeta chunk ∨ m.1 = filePatchMap chunk := by
  intro m hm
  unfold notifyFileChunkEnqueued sendFilePatchMap sendFileMeta at hm
  dsimp only at hm
  split at hm
  · simp only [sendMessage, List.mem_append, List.mem_singleton] at hm
    obtain hm | rfl := hm
    · exact .inl hm
    · exact .inr (.inr rfl)
  · simp only [sendMessage, List.mem_append, List.mem_singleton] at hm
    obtain (hm | rfl) | rfl := hm
    · exact .inl hm
    · exact .inr (.inl rfl)
    · exact .inr (.inr rfl)

/-- Over every run, a message is the meta data or the patch map of a chunk that was enqueued. -/
theorem messages_of_run (socket : Bool) (chunks : List (FileChunk × Bool × Bool)) :
    ∀ m ∈ (chunks.foldl (fun s (chunk, metaSent, mapSent) =>
        s.notifyFileChunkEnqueued chunk metaSent mapSent) (start socket)).messages,
      ∃ chunk ∈ chunks.map Prod.fst, m.1 = fileMeta chunk ∨ m.1 = filePatchMap chunk := by
  induction chunks using List.reverseRecOn with
  | nil => nofun
  | append_singleton chunks last ih =>
    intro m hm
    rw [List.foldl_append] at hm
    rw [List.map_append]
    obtain hm | hm := messages_notifyFileChunkEnqueued _ last.1 last.2.1 last.2.2 m hm
    · obtain ⟨chunk, hmem, hm⟩ := ih m hm
      exact ⟨chunk, List.mem_append_left _ hmem, hm⟩
    · exact ⟨last.1, List.mem_append_right _ (List.mem_singleton_self _), hm⟩

end SystemChannels

/-- Of the control characters only those occur that have an escape. -/
def Covered (s : Bytes) : Prop := ∀ b ∈ s, 32 ≤ b ∨ b = 10 ∨ b = 13 ∨ b = 9

/-- The name `s` is read back from every message about it, which holds nothing else behind it. -/
structure Safe (s : Bytes) : Prop where
  body : Body (escapeJson s) s
  fileMeta : ∀ chunk : FileChunk, chunk.descriptor.path = s → ∀ v rest,
    Reads (fileMeta chunk) fileMetaHead v rest ↔ v = s ∧ rest = fileMetaTail chunk
  filePatchMap : ∀ chunk : FileChunk, chunk.descriptor.path = s → ∀ v rest,
    Reads (filePatchMap chunk) filePatchMapHead v rest ↔ v = s ∧ rest = filePatchMapTail chunk

section Escape
variable {s : Bytes} {b : UInt8}

theorem piece_escapeByte (h : 32 ≤ b ∨ b = 10 ∨ b = 13 ∨ b = 9) : Piece (escapeByte b) [b] := by
  unfold escapeByte
  split
  · exact .escape rfl
  · exact .escape rfl
  · exact .escape rfl
  · exact .escape rfl
  · exact .escape rfl
  · next hs hq hn hr ht =>
    obtain h | h | h | h := h
    · exact .plain h hq hs
    · exact absurd h hn
    · exact absurd h hr
    · exact absurd h ht

theorem escapeByte_of_lt (h : ¬(32 ≤ b ∨ b = 10 ∨ b = 13 ∨ b = 9)) : escapeByte b = [b] := by
  simp only [not_or] at h
  unfold escapeByte
  split
  · exact absurd (by decide) h.1
  · exact absurd (by decide) h.1
  · exact absurd rfl h.2.1
  · exact absurd rfl h.2.2.1
  · exact absurd rfl h.2.2.2
  · rfl

/-- Each escape stands for its character, and no control character is left. -/
theorem body_escapeJson_iff : Body (escapeJson s) s ↔ Covered s := by
  constructor
  · intro h b hb
    by_contra hbare
    have hmem : b ∈ escapeJson s :=
      List.mem_flatMap.mpr ⟨b, hb, by rw [escapeByte_of_lt hbare]; exact List.mem_singleton_self b⟩
    exact hbare (.inl (h.le b hmem))
  · intro h
    induction s with
    | nil => exact .nil
    | cons b s ih =>
      obtain ⟨hb, hs⟩ := List.forall_mem_cons.mp h
      exact .cons (piece_escapeByte hb) (ih hs)

/-- A file name can be read back from the messages about it exactly when every control character
in it has an escape. -/
theorem safe_iff (s : Bytes) : Safe s ↔ Covered s := by
  constructor
  · intro h
    exact body_escapeJson_iff.mp h.body
  · intro h
    have hbody := body_escapeJson_iff.mpr h
    constructor
    · exact hbody
    · rintro chunk rfl v rest
      exact hbody.reads_iff
    · rintro chunk rfl v rest
      exact hbody.reads_iff

end Escape

/-- The escape character of terminals has no escape of its own. -/
theorem safe_fails : ¬ ∀ s : Bytes, Safe s := by
  intro hclaim
  have hle := (hclaim [27]).body.le 27 (by decide)
  exact absurd hle (by decide)

end SuperVoice.Client
