import SuperVoice.Client.SystemChannels
import SuperVoice.Client.Watcher
import SuperVoice.Lib.Delimiter
import SuperVoice.Lib.Introduce

/-! The system channel over a run of the client: the scan loop tells of every chunk before it puts
it on the queue, the queue-size loop and the sender's threads send their messages in between. -/
namespace SuperVoice.Client
open Bytes JsonString Delimiter Transition

/-- `QUEUE_SIZE_UPDATE`, with the capacity if a provider of it is set. -/
def queueSizeUpdate (size : Nat) (capacity : Option Nat) : Bytes :=
  ascii "\x7b\"type\":\"QUEUE_SIZE_UPDATE\",\"size\":" ++ (decimal size ++
    ((match capacity with
      | none => []
      | some capacity => ascii ",\"capacity\":" ++ decimal capacity) ++ ascii "\x7d"))

def controlMessage (totalConnections activeConnections : Nat) : Bytes :=
  ascii "\x7b\"type\":\"CONTROL\",\"total_connections\":" ++ (decimal totalConnections ++
    (ascii ",\"active_connections\":" ++ (decimal activeConnections ++ ascii "\x7d")))

/-- What a listener takes from `FILE_META`. -/
@[ext] structure FileMeta where
  path : Bytes
  sha256 : Bytes
  size : Nat
  chunks : Nat
  deriving DecidableEq

/-- What a listener takes from `FILE_PATCH_MAP`. -/
@[ext] structure FilePatchMap where
  path : Bytes
  sha256 : Bytes
  chunkIndex : Nat
  totalChunks : Nat
  payloadSize : Nat
  deriving DecidableEq

def FileMeta.ofChunk (chunk : FileChunk) : FileMeta where
  path := chunk.descriptor.path
  sha256 := chunk.sha256Hex
  size := chunk.descriptor.size
  chunks := chunk.totalChunks

def FilePatchMap.ofChunk (chunk : FileChunk) : FilePatchMap where
  path := chunk.descriptor.path
  sha256 := chunk.sha256Hex
  chunkIndex := chunk.index
  totalChunks := chunk.totalChunks
  payloadSize := chunk.payload.length

/-- The version of a file: its path and the digest of its content. -/
def FileMeta.file (m : FileMeta) : Bytes × Bytes := (m.path, m.sha256)

def FilePatchMap.file (m : FilePatchMap) : Bytes × Bytes := (m.path, m.sha256)

def FileChunk.file (chunk : FileChunk) : Bytes × Bytes := (chunk.descriptor.path, chunk.sha256Hex)

inductive Announcement where
  | fileMeta (m : FileMeta)
  | filePatchMap (m : FilePatchMap)
  | queueSizeUpdate (size : Nat) (capacity : Option Nat)
  | control (totalConnections activeConnections : Nat)
  deriving DecidableEq

namespace Announcement

/-- `text_fileMeta` and `text_filePatchMap` say that these are the texts that the source sends. -/
def text : Announcement → Bytes
  | .fileMeta m => fileMetaHead ++ (escapeJson m.path ++ (ascii "\",\"sha256\":\"" ++ (m.sha256 ++
      (ascii "\",\"size\":" ++ (decimal m.size ++ (ascii ",\"chunks\":" ++ (decimal m.chunks ++
        ascii "\x7d")))))))
  | .filePatchMap m => filePatchMapHead ++ (escapeJson m.path ++ (ascii "\",\"sha256\":\"" ++
      (m.sha256 ++ (ascii "\",\"chunk_index\":" ++ (decimal m.chunkIndex ++
        (ascii ",\"total_chunks\":" ++ (decimal m.totalChunks ++ (ascii ",\"payload_size\":" ++
          (decimal m.payloadSize ++ ascii "\x7d")))))))))
  | .queueSizeUpdate size capacity => Client.queueSizeUpdate size capacity
  | .control total active => controlMessage total active

/-- The digest stands as it is between its quotation marks. -/
def Plain : Announcement → Prop
  | .fileMeta m => ∀ b ∈ m.sha256, ¬b = quote
  | .filePatchMap m => ∀ b ∈ m.sha256, ¬b = quote
  | .queueSizeUpdate _ _ | .control _ _ => True

def fileMeta? : Announcement → Option FileMeta
  | .fileMeta m => some m
  | _ => none

def filePatchMap? : Announcement → Option FilePatchMap
  | .filePatchMap m => some m
  | _ => none

/-- What a message tells of a file. -/
def item? : Announcement → Option (FileMeta ⊕ FilePatchMap)
  | .fileMeta m => some (.inl m)
  | .filePatchMap m => some (.inr m)
  | _ => none

theorem text_fileMeta (chunk : FileChunk) :
    (fileMeta (.ofChunk chunk)).text = Client.fileMeta chunk := by
  have hquote : ascii "\",\"sha256\":\"" = quote :: ascii ",\"sha256\":\"" := by decide
  simp only [text, Client.fileMeta, fileMetaTail, FileMeta.ofChunk, hquote, List.append_assoc,
    List.cons_append]

theorem text_filePatchMap (chunk : FileChunk) :
    (filePatchMap (.ofChunk chunk)).text = Client.filePatchMap chunk := by
  have hquote : ascii "\",\"sha256\":\"" = quote :: ascii ",\"sha256\":\"" := by decide
  simp only [text, Client.filePatchMap, filePatchMapTail, FilePatchMap.ofChunk, hquote,
    List.append_assoc, List.cons_append]

/-! No message can be taken for another one. -/

/-- A byte stands as it is, or behind a backslash the one that denotes it. -/
theorem escapeByte_cases (b : UInt8) :
    (∃ c, escapeByte b = [backslash, c] ∧ escaped c = some b) ∨
      escapeByte b = [b] ∧ b ≠ backslash ∧ b ≠ quote := by
  unfold escapeByte
  split
  · exact .inl ⟨92, by decide, rfl⟩
  · exact .inl ⟨34, by decide, rfl⟩
  · exact .inl ⟨110, by decide, rfl⟩
  · exact .inl ⟨114, by decide, rfl⟩
  · exact .inl ⟨116, by decide, rfl⟩
  · next hs hq _ _ _ => exact .inr ⟨rfl, hs, hq⟩

theorem escapeByte_append {b b' : UInt8} {t t' : Bytes}
    (h : escapeByte b ++ t = escapeByte b' ++ t') : b = b' ∧ t = t' := by
  obtain ⟨c, hb, hc⟩ | ⟨hb, hslash, -⟩ := escapeByte_cases b <;>
    obtain ⟨c', hb', hc'⟩ | ⟨hb', hslash', -⟩ := escapeByte_cases b' <;>
    rw [hb, hb'] at h <;>
    simp only [List.cons_append, List.nil_append, List.cons.injEq] at h
  · obtain ⟨-, rfl, hrest⟩ := h
    rw [hc, Option.some.injEq] at hc'
    exact ⟨hc', hrest⟩
  · exact absurd h.1.symm hslash'
  · exact absurd h.1 hslash
  · exact h

theorem escapeByte_head (b : UInt8) : ∃ c r, escapeByte b = c :: r ∧ ¬c = quote := by
  obtain ⟨c, hb, -⟩ | ⟨hb, -, hquote⟩ := escapeByte_cases b
  · exact ⟨_, _, hb, by decide⟩
  · exact ⟨_, _, hb, hquote⟩

theorem delimited_escapeJson : Delimited escapeJson (fun _ => True) (· = quote) :=
  delimited_flatMap (fun _ _ _ _ h => escapeByte_append h) escapeByte_head

/-- What the text of a message of its kind begins with. -/
def head : Announcement → Bytes
  | .fileMeta _ => fileMetaHead
  | .filePatchMap _ => filePatchMapHead
  | .queueSizeUpdate _ _ => ascii "\x7b\"type\":\"QUEUE_SIZE_UPDATE\",\"size\":"
  | .control _ _ => ascii "\x7b\"type\":\"CONTROL\",\"total_connections\":"

theorem take_text (m : Announcement) : m.text.take 15 = m.head.take 15 := by
  have htake : ∀ {head : Bytes} (rest : Bytes), 15 ≤ head.length →
      (head ++ rest).take 15 = head.take 15 := fun rest h => List.take_append_of_le_length h
  cases m with
  | fileMeta m => exact htake _ (by decide)
  | filePatchMap m => exact htake _ (by decide)
  | queueSizeUpdate size capacity => exact htake _ (by decide)
  | control total active => exact htake _ (by decide)

theorem stops_quote {t : Bytes} (h : t.head? = some quote) (r : Bytes) :
    Stops (· = quote) (t ++ r) :=
  stops_append h (by rfl) r

theorem stops_comma {t : Bytes} (h : t.head? = some 44) (r : Bytes) :
    Stops (fun c => ¬IsDigit c) (t ++ r) :=
  stops_append h (by decide) r

theorem fileMeta_unique {m m' : FileMeta} (hm : (fileMeta m).Plain) (hm' : (fileMeta m').Plain)
    (h : (fileMeta m).text = (fileMeta m').text) : m = m' := by
  obtain ⟨hpath, hsha⟩ := delimited_escapeJson.inj trivial trivial (stops_quote (by decide) _)
    (stops_quote (by decide) _) (List.append_cancel_left h)
  obtain ⟨hsha256, hsize⟩ := append_inj_of_stops hm hm' (stops_quote (by decide) _)
    (stops_quote (by decide) _) (List.append_cancel_left hsha)
  obtain ⟨hsize, hchunks⟩ := delimited_decimal.inj trivial trivial (stops_comma (by decide) _)
    (stops_comma (by decide) _) (List.append_cancel_left hsize)
  have hlast := List.append_cancel_right (List.append_cancel_left hchunks)
  exact FileMeta.ext hpath hsha256 hsize (decimal_injective hlast)

theorem filePatchMap_unique {m m' : FilePatchMap} (hm : (filePatchMap m).Plain)
    (hm' : (filePatchMap m').Plain) (h : (filePatchMap m).text = (filePatchMap m').text) :
    m = m' := by
  obtain ⟨hpath, hsha⟩ := delimited_escapeJson.inj trivial trivial (stops_quote (by decide) _)
    (stops_quote (by decide) _) (List.append_cancel_left h)
  obtain ⟨hsha256, hindex⟩ := append_inj_of_stops hm hm' (stops_quote (by decide) _)
    (stops_quote (by decide) _) (List.append_cancel_left hsha)
  obtain ⟨hindex, htotal⟩ := delimited_decimal.inj trivial trivial (stops_comma (by decide) _)
    (stops_comma (by decide) _) (List.append_cancel_left hindex)
  obtain ⟨htotal, hsize⟩ := delimited_decimal.inj trivial trivial (stops_comma (by decide) _)
    (stops_comma (by decide) _) (List.append_cancel_left htotal)
  have hlast := List.append_cancel_right (List.append_cancel_left hsize)
  exact FilePatchMap.ext hpath hsha256 hindex htotal (decimal_injective hlast)

theorem control_unique {total total' active active' : Nat}
    (h : (control total active).text = (control total' active').text) :
    total = total' ∧ active = active' := by
  obtain ⟨rfl, hactive⟩ := delimited_decimal.inj trivial trivial (stops_comma (by decide) _)
    (stops_comma (by decide) _) (List.append_cancel_left h)
  have hlast := List.append_cancel_right (List.append_cancel_left hactive)
  exact ⟨rfl, decimal_injective hlast⟩

theorem queueSizeUpdate_unique {size size' : Nat} {capacity capacity' : Option Nat}
    (h : (queueSizeUpdate size capacity).text = (queueSizeUpdate size' capacity').text) :
    size = size' ∧ capacity = capacity' := by
  have hstops : ∀ capacity : Option Nat, Stops (fun c => ¬IsDigit c) ((match capacity with
      | none => []
      | some capacity => ascii ",\"capacity\":" ++ decimal capacity) ++ ascii "\x7d") := by
    intro capacity
    cases capacity with
    | none =>
      intro c hc
      have hbrace : c = 125 := (Option.some.inj hc).symm
      rw [hbrace]
      decide
    | some capacity =>
      rw [List.append_assoc]
      exact stops_comma (by decide) _
  obtain ⟨rfl, hcapacity⟩ := delimited_decimal.inj trivial trivial (hstops capacity)
    (hstops capacity') (List.append_cancel_left h)
  have hsame := List.append_cancel_right hcapacity
  have hne : ∀ n, ascii ",\"capacity\":" ++ decimal n ≠ [] := fun n hnil =>
    decimal_ne_nil n (List.append_eq_nil_iff.mp hnil).2
  cases capacity with
  | none =>
    cases capacity' with
    | none => exact ⟨rfl, rfl⟩
    | some n => exact absurd hsame.symm (hne n)
  | some n =>
    cases capacity' with
    | none => exact absurd hsame (hne n)
    | some n' => exact ⟨rfl, congrArg some (decimal_injective (List.append_cancel_left hsame))⟩

/-- A text is that of one message only. -/
theorem text_unique {m m' : Announcement} (hm : m.Plain) (hm' : m'.Plain)
    (h : m.text = m'.text) : m = m' := by
  have hkind : m.head.take 15 = m'.head.take 15 := by
    rw [← take_text, ← take_text, h]
  cases m with
  | fileMeta m =>
    cases m' with
    | fileMeta m' => rw [fileMeta_unique hm hm' h]
    | filePatchMap | queueSizeUpdate | control => exact absurd hkind (by simp only [head]; decide)
  | filePatchMap m =>
    cases m' with
    | filePatchMap m' => rw [filePatchMap_unique hm hm' h]
    | fileMeta | queueSizeUpdate | control => exact absurd hkind (by simp only [head]; decide)
  | queueSizeUpdate size capacity =>
    cases m' with
    | queueSizeUpdate size' capacity' =>
      obtain ⟨rfl, rfl⟩ := queueSizeUpdate_unique h
      rfl
    | fileMeta | filePatchMap | control => exact absurd hkind (by simp only [head]; decide)
  | control total active =>
    cases m' with
    | control total' active' =>
      obtain ⟨rfl, rfl⟩ := control_unique h
      rfl
    | fileMeta | filePatchMap | queueSizeUpdate => exact absurd hkind (by simp only [head]; decide)

/-- Texts are those of one list of messages only. -/
theorem texts_unique {ms ms' : List Announcement} (hms : ∀ m ∈ ms, m.Plain)
    (hms' : ∀ m ∈ ms', m.Plain) (h : ms.map text = ms'.map text) : ms = ms' := by
  induction ms generalizing ms' with
  | nil => exact (List.map_eq_nil_iff.mp h.symm).symm
  | cons m ms ih =>
    cases ms' with
    | nil => cases h
    | cons m' ms' =>
      obtain ⟨hm, hms⟩ := List.forall_mem_cons.mp hms
      obtain ⟨hm', hms'⟩ := List.forall_mem_cons.mp hms'
      obtain ⟨hfirst, hrest⟩ := List.cons.inj h
      rw [text_unique hm hm' hfirst, ih hms hms' hrest]

end Announcement

/-- Where the scan loop stands. -/
inductive ScanLoop where
  | between
  /-- The key of the chunk is inserted, the meta data not yet sent. -/
  | describing (chunk : FileChunk)
  | mapping (chunk : FileChunk)
  | pushing (chunk : FileChunk)
  | stopped
  deriving DecidableEq

structure Announcer where
  channels : SystemChannels
  loop : ScanLoop := .between
  /-- What is left of the chunks of the file. -/
  pending : List FileChunk := []
  /-- The chunks of which both messages were handed to `send_message`. -/
  told : List FileChunk := []
  queued : List FileChunk := []
  /-- The chunks that `push` did not take. -/
  lost : List FileChunk := []

inductive AnnouncerAction where
  /-- A file is compressed and cut. -/
  | process (descriptor : FileDescriptor) (digest compressedData : Bytes)
  /-- The next step of `notify_file_chunk_enqueued`; a send in it succeeds or not. -/
  | notify (succeeds : Bool)
  | push (result : Pushed)
  /-- The other threads send a message. -/
  | queueSize (size : Nat) (capacity : Option Nat) (succeeds : Bool)
  | control (totalConnections activeConnections : Nat) (succeeds : Bool)

/-- The key under which meta data is published. -/
def metaKey (chunk : FileChunk) : Bytes := chunk.descriptor.path ++ ascii ":" ++ chunk.sha256Hex

namespace Announcer

/-- The client starts; the socket of its system channel could be made or not. -/
def start (socket : Bool) : Announcer where
  channels := .start socket

def send (s : Announcer) (message : Bytes) (succeeds : Bool) : Announcer :=
  { s with channels := s.channels.sendMessage message succeeds }

def step (payloadSize : Nat) (s : Announcer) : AnnouncerAction → Option Announcer
  | .process descriptor digest compressedData =>
    match s.loop, s.pending with
    | .between, [] =>
      (chunker payloadSize ⟨descriptor, toHex digest, compressedData⟩).map fun chunks =>
        { s with pending := chunks }
    | _, _ => none
  | .notify succeeds =>
    match s.loop, s.pending with
    | .between, chunk :: pending =>
      if s.channels.publishedMeta.contains (metaKey chunk) then
        some { s with pending, loop := .mapping chunk }
      else
        let channels := { s.channels with
          publishedMeta := metaKey chunk :: s.channels.publishedMeta }
        some { s with channels, pending, loop := .describing chunk }
    | .describing chunk, _ => some { s.send (fileMeta chunk) succeeds with loop := .mapping chunk }
    | .mapping chunk, _ =>
      some { s.send (filePatchMap chunk) succeeds with loop := .pushing chunk, told := s.told ++ [chunk] }
    | _, _ => none
  | .push result =>
    match s.loop, result with
    | .pushing chunk, .accepted =>
      some { s with loop := .between, queued := s.queued ++ [chunk] }
    | .pushing chunk, .refused => some { s with loop := .stopped, lost := s.lost ++ [chunk] }
    | .pushing chunk, .throws =>
      some { s with loop := .between, pending := [], lost := s.lost ++ [chunk] }
    | _, _ => none
  | .queueSize size capacity succeeds => some (s.send (queueSizeUpdate size capacity) succeeds)
  | .control total active succeeds => some (s.send (controlMessage total active) succeeds)

/-- What a step does: the scan loop goes on, or another thread sends a message that is about no
file. -/
inductive Tells (payloadSize : Nat) : Announcer → Announcer → Prop where
  | processes {s : Announcer} {descriptor : FileDescriptor} {digest compressedData : Bytes}
      {chunks : List FileChunk} (hloop : s.loop = .between) (hpending : s.pending = [])
      (hcut : chunker payloadSize ⟨descriptor, toHex digest, compressedData⟩ = some chunks) :
      Tells payloadSize s { s with pending := chunks }
  | knows {s : Announcer} {chunk : FileChunk} {pending : List FileChunk}
      (hloop : s.loop = .between) (hpending : s.pending = chunk :: pending)
      (hkey : metaKey chunk ∈ s.channels.publishedMeta) :
      Tells payloadSize s { s with pending, loop := .mapping chunk }
  | inserts {s : Announcer} {chunk : FileChunk} {pending : List FileChunk}
      (hloop : s.loop = .between) (hpending : s.pending = chunk :: pending)
      (hkey : metaKey chunk ∉ s.channels.publishedMeta) :
      Tells payloadSize s { s with
        channels := { s.channels with publishedMeta := metaKey chunk :: s.channels.publishedMeta }
        pending
        loop := .describing chunk }
  | describes {s : Announcer} {chunk : FileChunk} {succeeds : Bool}
      (hloop : s.loop = .describing chunk) :
      Tells payloadSize s { s.send (fileMeta chunk) succeeds with loop := .mapping chunk }
  | maps {s : Announcer} {chunk : FileChunk} {succeeds : Bool} (hloop : s.loop = .mapping chunk) :
      Tells payloadSize s { s.send (filePatchMap chunk) succeeds with
        loop := .pushing chunk
        told := s.told ++ [chunk] }
  | accepts {s : Announcer} {chunk : FileChunk} (hloop : s.loop = .pushing chunk) :
      Tells payloadSize s { s with loop := .between, queued := s.queued ++ [chunk] }
  | refuses {s : Announcer} {chunk : FileChunk} (hloop : s.loop = .pushing chunk) :
      Tells payloadSize s { s with loop := .stopped, lost := s.lost ++ [chunk] }
  | throws {s : Announcer} {chunk : FileChunk} (hloop : s.loop = .pushing chunk) :
      Tells payloadSize s { s with loop := .between, pending := [], lost := s.lost ++ [chunk] }
  | other {s : Announcer} {m : Announcement} {succeeds : Bool} (hm : m.item? = none) :
      Tells payloadSize s (s.send m.text succeeds)

variable {payloadSize : Nat} {s s' : Announcer} {a : AnnouncerAction}

theorem tells_of_step (h : step payloadSize s a = some s') : Tells payloadSize s s' := by
  cases a with
  | process descriptor digest compressedData =>
    simp only [step] at h
    split at h
    · next hloop hpending =>
      obtain ⟨chunks, hcut, rfl⟩ := Option.map_eq_some_iff.mp h
      exact .processes hloop hpending hcut
    · cases h
  | notify succeeds =>
    simp only [step] at h
    split at h
    · next hloop hpending =>
      split at h
      · next hkey =>
        cases h
        exact .knows hloop hpending (List.contains_iff_mem.mp hkey)
      · next hkey =>
        cases h
        exact .inserts hloop hpending (mt List.contains_iff_mem.mpr hkey)
    · next hloop =>
      cases h
      exact .describes hloop
    · next hloop =>
      cases h
      exact .maps hloop
    · cases h
  | push result =>
    simp only [step] at h
    split at h
    · next hloop =>
      cases h
      exact .accepts hloop
    · next hloop =>
      cases h
      exact .refuses hloop
    · next hloop =>
      cases h
      exact .throws hloop
    · cases h
  | queueSize size capacity succeeds =>
    cases h
    exact .other (m := .queueSizeUpdate size capacity) rfl
  | control total active succeeds =>
    cases h
    exact .other (m := .control total active) rfl

/-- With nothing in between, the steps are `notify_file_chunk_enqueued`. -/
theorem run_notify {chunk : FileChunk} {pending : List FileChunk} (hloop : s.loop = .between)
    (hpending : s.pending = chunk :: pending) (metaSent mapSent : Bool) :
    ∃ outcomes : List Bool, run (step payloadSize) s (outcomes.map .notify) = some { s with
      channels := s.channels.notifyFileChunkEnqueued chunk metaSent mapSent
      loop := .pushing chunk
      pending
      told := s.told ++ [chunk] } := by
  by_cases hkey : metaKey chunk ∈ s.channels.publishedMeta
  · refine ⟨[true, mapSent], ?_⟩
    have hmeta : s.channels.sendFileMeta chunk metaSent = s.channels := if_pos hkey
    simp [run, step, hloop, hpending, hkey, send, SystemChannels.notifyFileChunkEnqueued, hmeta,
      SystemChannels.sendFilePatchMap]
  · refine ⟨[true, metaSent, mapSent], ?_⟩
    have hmeta : s.channels.sendFileMeta chunk metaSent = { s.channels with
        publishedMeta := metaKey chunk :: s.channels.publishedMeta }.sendMessage (fileMeta chunk)
          metaSent := if_neg hkey
    simp [run, step, hloop, hpending, hkey, send, SystemChannels.notifyFileChunkEnqueued, hmeta,
      SystemChannels.sendFilePatchMap]

end Announcer

/-! A key stands for one version of a file. -/

/-- The digest of the chunk is written as the client writes digests. -/
def FileChunk.Hex (chunk : FileChunk) : Prop := ∃ digest, chunk.sha256Hex = toHex digest

theorem toHex_range (digest : Bytes) : ∀ b ∈ toHex digest, b ∈ ascii "0123456789abcdef" ∨ b = 0 := by
  have hchar : ∀ digit, toHex.hexChar digit ∈ ascii "0123456789abcdef" ∨ toHex.hexChar digit = 0 := by
    intro digit
    unfold toHex.hexChar
    rw [List.getD_eq_getElem?_getD]
    cases hget : (ascii "0123456789abcdef")[digit.toNat]? with
    | none => exact .inr rfl
    | some b => exact .inl (List.mem_of_getElem? hget)
  intro b hb
  obtain ⟨byte, -, hb⟩ := List.mem_flatMap.mp hb
  simp only [List.mem_cons, List.not_mem_nil, or_false] at hb
  obtain rfl | rfl := hb
  · exact hchar _
  · exact hchar _

namespace FileChunk
variable {chunk chunk' : FileChunk}

theorem Hex.not_mem (h : chunk.Hex) {c : UInt8} (hrange : c ∉ ascii "0123456789abcdef")
    (hne : c ≠ 0) : c ∉ chunk.sha256Hex := by
  obtain ⟨digest, hdigest⟩ := h
  rw [hdigest]
  intro hc
  obtain hc | hc := toHex_range digest c hc
  · exact hrange hc
  · exact hne hc

theorem Hex.plain (h : chunk.Hex) : ∀ b ∈ chunk.sha256Hex, ¬b = quote :=
  fun _ hb hquote => h.not_mem (c := quote) (by decide) (by decide) (hquote ▸ hb)

/-- The last colon of a key stands in front of the digest. -/
theorem Hex.metaKey_eq_iff (h : chunk.Hex) (h' : chunk'.Hex) :
    metaKey chunk = metaKey chunk' ↔ chunk.file = chunk'.file := by
  have hcolon : ∀ {c : FileChunk}, c.Hex → ∀ b ∈ c.sha256Hex.reverse, ¬b = 58 := fun hc b hb heq =>
    hc.not_mem (c := 58) (by decide) (by decide) (heq ▸ List.mem_reverse.mp hb)
  have hreverse : ∀ c : FileChunk,
      (metaKey c).reverse = c.sha256Hex.reverse ++ 58 :: c.descriptor.path.reverse := fun c => by
    simp [metaKey, show ascii ":" = [58] by decide]
  have hstops : ∀ t : Bytes, Stops (· = 58) (58 :: t) := fun t => stops_cons (by rfl)
  constructor
  · intro hkey
    have hkey := congrArg List.reverse hkey
    rw [hreverse, hreverse] at hkey
    obtain ⟨hsha, hpath⟩ := append_inj_of_stops (hcolon h) (hcolon h') (hstops _) (hstops _) hkey
    exact Prod.ext (List.reverse_injective (List.cons.inj hpath).2) (List.reverse_injective hsha)
  · intro hfile
    obtain ⟨hpath, hsha⟩ := Prod.mk.inj hfile
    rw [metaKey, metaKey, hpath, hsha]

end FileChunk

namespace ScanLoop

/-- The chunk of which the loop is telling. -/
def telling : ScanLoop → List FileChunk
  | .describing chunk | .mapping chunk => [chunk]
  | .between | .pushing _ | .stopped => []

/-- The chunk that is told of and not yet on the queue. -/
def pushed : ScanLoop → List FileChunk
  | .pushing chunk => [chunk]
  | .between | .describing _ | .mapping _ | .stopped => []

/-- The chunk of which the meta data is known, but not yet the place in the file. -/
def described : ScanLoop → List FileChunk
  | .mapping chunk => [chunk]
  | .between | .describing _ | .pushing _ | .stopped => []

/-- The header that stands in front of it. -/
def header (told : List FileChunk) : ScanLoop → List (FileChunk ⊕ FileChunk)
  | .mapping chunk => if chunk.file ∈ told.map FileChunk.file then [] else [.inl chunk]
  | .between | .describing _ | .pushing _ | .stopped => []

end ScanLoop

namespace Announcer
open Introduce
variable {payloadSize : Nat} {s s' : Announcer} {messages : List Announcement}

/-- The messages behind the texts, sent or not, and what they have told of. -/
structure Telling (s : Announcer) (messages : List Announcement) : Prop where
  texts : s.channels.messages.map Prod.fst = messages.map Announcement.text
  plain : ∀ m ∈ messages, m.Plain
  hex : ∀ chunk ∈ s.told ++ s.loop.telling ++ s.pending, chunk.Hex
  keys : ∀ key, key ∈ s.channels.publishedMeta ↔
    ∃ chunk ∈ s.told ++ s.loop.telling, metaKey chunk = key
  items : messages.filterMap Announcement.item? =
    (introduce FileChunk.file [] s.told ++ s.loop.header s.told).map
      (Sum.map FileMeta.ofChunk FilePatchMap.ofChunk)
  fresh : ∀ chunk, s.loop = .describing chunk → chunk.file ∉ s.told.map FileChunk.file

theorem telling_start (socket : Bool) : Telling (start socket) [] where
  texts := rfl
  plain := nofun
  hex := nofun
  keys _ := by simp [start, SystemChannels.start, ScanLoop.telling]
  items := rfl
  fresh _ h := by cases h

theorem hex_of_chunker {descriptor : FileDescriptor} {digest compressedData : Bytes}
    {chunks : List FileChunk}
    (h : chunker payloadSize ⟨descriptor, toHex digest, compressedData⟩ = some chunks) :
    ∀ chunk ∈ chunks, chunk.Hex := by
  intro chunk hchunk
  unfold chunker at h
  split at h
  · cases h
    cases hchunk
  · split at h
    · cases h
    · cases h
      obtain ⟨i, -, rfl⟩ := List.mem_map.mp hchunk
      exact ⟨digest, rfl⟩

theorem Telling.step (h : s.Telling messages)
    (hstep : Tells payloadSize s s') : ∃ more, s'.Telling (messages ++ more) := by
  obtain ⟨htexts, hplain, hhex, hkeys, hitems, hfresh⟩ := h
  cases hstep with
  | processes hloop hpending hcut =>
    refine ⟨[], ?_⟩
    rw [List.append_nil]
    refine ⟨htexts, hplain, ?_, hkeys, hitems, hfresh⟩
    intro chunk hchunk
    obtain hchunk | hchunk := List.mem_append.mp hchunk
    · exact hhex chunk (List.mem_append_left _ hchunk)
    · exact hex_of_chunker hcut chunk hchunk
  | @knows chunk pending hloop hpending hkey =>
    rw [hloop] at hhex hkeys hitems
    rw [hpending] at hhex
    simp only [ScanLoop.telling, ScanLoop.header, List.append_nil] at hhex hkeys hitems
    obtain ⟨first, hfirst, hsame⟩ := (hkeys _).mp hkey
    have hknown : chunk.file ∈ s.told.map FileChunk.file := by
      have hchunk := hhex chunk (List.mem_append_right _ List.mem_cons_self)
      have hfile := ((hhex first (List.mem_append_left _ hfirst)).metaKey_eq_iff hchunk).mp hsame
      exact hfile ▸ List.mem_map_of_mem hfirst
    refine ⟨[], ?_⟩
    rw [List.append_nil]
    refine ⟨htexts, hplain, ?_, fun key => ?_, ?_, fun _ h => by cases h⟩
    · simpa [ScanLoop.telling] using hhex
    · rw [hkeys]
      simp only [ScanLoop.telling, List.mem_append, List.mem_singleton]
      constructor
      · rintro ⟨c, hc, rfl⟩
        exact ⟨c, .inl hc, rfl⟩
      · rintro ⟨c, hc | rfl, rfl⟩
        · exact ⟨c, hc, rfl⟩
        · exact ⟨first, hfirst, hsame⟩
    · simpa [ScanLoop.header, hknown] using hitems
  | @inserts chunk pending hloop hpending hkey =>
    rw [hloop] at hhex hkeys hitems
    rw [hpending] at hhex
    simp only [ScanLoop.telling, ScanLoop.header, List.append_nil] at hhex hkeys hitems
    refine ⟨[], ?_⟩
    rw [List.append_nil]
    refine ⟨htexts, hplain, ?_, fun key => ?_, ?_, fun c hc hfile => ?_⟩
    · simpa [ScanLoop.telling] using hhex
    · simp only [ScanLoop.telling, List.mem_cons, hkeys, List.mem_append]
      constructor
      · rintro (rfl | ⟨c, hc, rfl⟩)
        · exact ⟨chunk, .inr (.inl rfl), rfl⟩
        · exact ⟨c, .inl hc, rfl⟩
      · rintro ⟨c, hc | (rfl | hc), rfl⟩
        · exact .inr ⟨c, hc, rfl⟩
        · exact .inl rfl
        · cases hc
    · simpa [ScanLoop.header] using hitems
    · cases hc
      obtain ⟨first, hfirst, hsame⟩ := List.mem_map.mp hfile
      apply hkey
      have hchunk := hhex chunk (List.mem_append_right _ List.mem_cons_self)
      have hfile := ((hhex first (List.mem_append_left _ hfirst)).metaKey_eq_iff hchunk).mpr hsame
      exact (hkeys _).mpr ⟨first, hfirst, hfile⟩
  | @describes chunk succeeds hloop =>
    have hnew := hfresh chunk hloop
    rw [hloop] at hhex hkeys hitems
    simp only [ScanLoop.telling, ScanLoop.header, List.append_nil] at hhex hkeys hitems
    have hplainChunk : (Announcement.fileMeta (.ofChunk chunk)).Plain := (hhex chunk (by simp)).plain
    refine ⟨[.fileMeta (.ofChunk chunk)], ?_, ?_, ?_, ?_, ?_, fun _ h => by cases h⟩
    · simp [send, SystemChannels.sendMessage, htexts, Announcement.text_fileMeta]
    · exact List.forall_mem_append.mpr ⟨hplain, List.forall_mem_singleton.mpr hplainChunk⟩
    · simpa [ScanLoop.telling, send] using hhex
    · simpa [ScanLoop.telling, send, SystemChannels.sendMessage] using hkeys
    · simp [ScanLoop.header, send, hnew, hitems, Announcement.item?]
  | @maps chunk succeeds hloop =>
    rw [hloop] at hhex hkeys hitems
    simp only [ScanLoop.telling, ScanLoop.header] at hhex hkeys hitems
    have hplainChunk : (Announcement.filePatchMap (.ofChunk chunk)).Plain :=
      (hhex chunk (by simp)).plain
    refine ⟨[.filePatchMap (.ofChunk chunk)], ?_, ?_, ?_, ?_, ?_, fun _ h => by cases h⟩
    · simp [send, SystemChannels.sendMessage, htexts, Announcement.text_filePatchMap]
    · exact List.forall_mem_append.mpr ⟨hplain, List.forall_mem_singleton.mpr hplainChunk⟩
    · simpa [ScanLoop.telling, send] using hhex
    · simpa [ScanLoop.telling, send, SystemChannels.sendMessage] using hkeys
    · rw [List.filterMap_append, hitems]
      simp only [ScanLoop.header, introduce_concat]
      by_cases hknown : chunk.file ∈ s.told.map FileChunk.file <;>
        simp [hknown, Announcement.item?]
  | accepts hloop =>
    refine ⟨[], ?_⟩
    rw [List.append_nil]
    rw [hloop] at hhex hkeys hitems
    exact ⟨htexts, hplain, hhex, hkeys, hitems, fun _ h => by cases h⟩
  | refuses hloop =>
    refine ⟨[], ?_⟩
    rw [List.append_nil]
    rw [hloop] at hhex hkeys hitems
    exact ⟨htexts, hplain, hhex, hkeys, hitems, fun _ h => by cases h⟩
  | throws hloop =>
    refine ⟨[], ?_⟩
    rw [List.append_nil]
    rw [hloop] at hhex hkeys hitems
    refine ⟨htexts, hplain, fun chunk hchunk => ?_, hkeys, hitems, fun _ h => by cases h⟩
    rw [List.append_nil] at hchunk
    exact hhex chunk (List.mem_append_left _ hchunk)
  | @other m succeeds hm =>
    have hplainOther : m.Plain := by
      cases m with
      | fileMeta | filePatchMap => cases hm
      | queueSizeUpdate | control => trivial
    refine ⟨[m], ?_, ?_, hhex, hkeys, ?_, hfresh⟩
    · simp [send, SystemChannels.sendMessage, htexts]
    · exact List.forall_mem_append.mpr ⟨hplain, List.forall_mem_singleton.mpr hplainOther⟩
    · rw [List.filterMap_append, hitems]
      simp [hm, send]

/-- The chunks that were told of are on the queue, lost or just being put there. -/
def Settled (s : Announcer) : Prop :=
  ∃ settled, s.told = settled ++ s.loop.pushed ∧ s.queued.Sublist settled ∧
    settled.Perm (s.queued ++ s.lost)

theorem Settled.step (h : s.Settled) (hstep : Tells payloadSize s s') : s'.Settled := by
  obtain ⟨settled, htold, hsub, hperm⟩ := h
  cases hstep with
  | processes hloop => exact ⟨settled, htold, hsub, hperm⟩
  | knows hloop | inserts hloop | describes hloop =>
    rw [hloop] at htold
    exact ⟨settled, htold, hsub, hperm⟩
  | maps hloop =>
    rw [hloop, ScanLoop.pushed, List.append_nil] at htold
    subst htold
    exact ⟨s.told, rfl, hsub, hperm⟩
  | @accepts chunk hloop =>
    rw [hloop] at htold
    refine ⟨settled ++ [chunk], by simpa [ScanLoop.pushed] using htold,
      hsub.append (List.Sublist.refl _), ?_⟩
    calc settled ++ [chunk]
        _ |>.Perm (s.queued ++ s.lost ++ [chunk]) := hperm.append_right _
        _ |>.Perm (s.queued ++ [chunk] ++ s.lost) := by
          rw [List.append_assoc, List.append_assoc]
          exact List.perm_append_comm.append_left _
  | @refuses chunk hloop | @throws chunk hloop =>
    rw [hloop] at htold
    refine ⟨settled ++ [chunk], by simpa [ScanLoop.pushed] using htold,
      hsub.trans (List.sublist_append_left _ _), ?_⟩
    rw [← List.append_assoc]
    exact hperm.append_right _
  | other hm => exact ⟨settled, htold, hsub, hperm⟩

/-- The messages that were sent. -/
def heard (messages : List (Announcement × Bool)) : List Announcement :=
  (messages.filter Prod.snd).map Prod.fst

/-- What the client hands to `send_message`, each message with whether it is sent, and what a
listener can rely on. -/
structure Conveyed (s : Announcer) (messages : List (Announcement × Bool)) : Prop where
  texts : s.channels.messages = messages.map (Prod.map Announcement.text id)
  places : (messages.map Prod.fst).filterMap Announcement.filePatchMap? =
    s.told.map FilePatchMap.ofChunk
  files : (messages.map Prod.fst).filterMap Announcement.fileMeta? =
    (firsts FileChunk.file [] (s.told ++ s.loop.described)).map FileMeta.ofChunk
  once : (((messages.map Prod.fst).filterMap Announcement.fileMeta?).map FileMeta.file).Nodup
  before : ∀ front m back, messages.map Prod.fst = front ++ .filePatchMap m :: back →
    ∃ first, .fileMeta first ∈ front ∧ first.file = m.file
  /-- The texts that were sent are those of no other messages. -/
  only : ∀ others, (∀ m ∈ others, m.Plain) →
    (s.channels.sent = others.map Announcement.text ↔ others = heard messages)
  /-- The meta data of a file is not sent again when it was lost. -/
  lost : ∀ first, (.fileMeta first, false) ∈ messages → ∀ m, .fileMeta m ∈ heard messages →
    ¬m.file = first.file
  /-- A place is heard of behind the meta data of its file if that was not lost. -/
  behind : ∀ front m back, heard messages = front ++ .filePatchMap m :: back →
    (∃ first, .fileMeta first ∈ front ∧ first.file = m.file) ∨
      ∃ first, (.fileMeta first, false) ∈ messages ∧ first.file = m.file
  queued : s.queued.Sublist s.told
  settled : s.told.Perm (s.queued ++ s.lost ++ s.loop.pushed)

theorem filterMap_fileMeta (messages : List Announcement) :
    messages.filterMap Announcement.fileMeta? =
      (messages.filterMap Announcement.item?).filterMap Sum.getLeft? := by
  rw [List.filterMap_filterMap]
  congr 1
  funext m
  cases m <;> rfl

theorem filterMap_filePatchMap (messages : List Announcement) :
    messages.filterMap Announcement.filePatchMap? =
      (messages.filterMap Announcement.item?).filterMap Sum.getRight? := by
  rw [List.filterMap_filterMap]
  congr 1
  funext m
  cases m <;> rfl

theorem Telling.files (h : s.Telling messages) : messages.filterMap Announcement.fileMeta? =
    (firsts FileChunk.file [] (s.told ++ s.loop.described)).map FileMeta.ofChunk := by
  have hleft : ∀ items : List (FileChunk ⊕ FileChunk),
      (items.map (Sum.map FileMeta.ofChunk FilePatchMap.ofChunk)).filterMap Sum.getLeft? =
        (items.filterMap Sum.getLeft?).map FileMeta.ofChunk := by
    intro items
    rw [List.filterMap_map, List.map_filterMap]
    congr 1
    funext item
    cases item <;> rfl
  rw [filterMap_fileMeta, h.items, hleft, List.filterMap_append, filterMap_getLeft]
  congr 1
  cases s.loop with
  | mapping chunk =>
    simp only [ScanLoop.header, ScanLoop.described, firsts_concat]
    by_cases hknown : chunk.file ∈ s.told.map FileChunk.file <;> simp [hknown]
  | between | describing | pushing | stopped => simp [ScanLoop.header, ScanLoop.described]

theorem Telling.places (h : s.Telling messages) :
    messages.filterMap Announcement.filePatchMap? = s.told.map FilePatchMap.ofChunk := by
  have hright : ∀ items : List (FileChunk ⊕ FileChunk),
      (items.map (Sum.map FileMeta.ofChunk FilePatchMap.ofChunk)).filterMap Sum.getRight? =
        (items.filterMap Sum.getRight?).map FilePatchMap.ofChunk := by
    intro items
    rw [List.filterMap_map, List.map_filterMap]
    congr 1
    funext item
    cases item <;> rfl
  have hheader : (s.loop.header s.told).filterMap Sum.getRight? = [] := by
    cases s.loop with
    | mapping chunk =>
      rw [ScanLoop.header]
      split <;> rfl
    | between | describing | pushing | stopped => rfl
  rw [filterMap_filePatchMap, h.items, hright, List.filterMap_append, filterMap_getRight, hheader,
    List.append_nil]

/-- A place in a file is told of behind the meta data of the file. -/
theorem Telling.before (h : s.Telling messages) {front back : List Announcement}
    {m : FilePatchMap} (hsplit : messages = front ++ .filePatchMap m :: back) :
    ∃ first, .fileMeta first ∈ front ∧ first.file = m.file := by
  have hitem : (Announcement.filePatchMap m).item? = some (.inr m) := rfl
  have hitems := h.items
  rw [hsplit, List.filterMap_append, List.filterMap_cons_some hitem] at hitems
  obtain ⟨items, rest, hall, hfront, hrest⟩ := List.append_eq_map_iff.mp hitems
  obtain ⟨item, rest, rfl, hinr, -⟩ := List.map_eq_cons_iff.mp hrest
  obtain ⟨chunk, rfl, rfl⟩ : ∃ chunk, item = .inr chunk ∧ m = .ofChunk chunk := by
    cases item with
    | inl chunk => cases hinr
    | inr chunk => exact ⟨chunk, rfl, (Sum.inr.inj hinr).symm⟩
  have hplace : .inr chunk ∉ s.loop.header s.told := by
    cases s.loop with
    | mapping other =>
      rw [ScanLoop.header]
      split <;> simp
    | between | describing | pushing | stopped => simp [ScanLoop.header]
  obtain ⟨back', hback⟩ : ∃ back', introduce FileChunk.file [] s.told =
      items ++ .inr chunk :: back' := by
    obtain ⟨middle, -, hheader⟩ | ⟨middle, htold, hmiddle⟩ := List.append_eq_append_iff.mp hall
    · exact absurd (hheader ▸ List.mem_append_right _ List.mem_cons_self) hplace
    · cases middle with
      | nil =>
        rw [List.nil_append] at hmiddle
        exact absurd (hmiddle ▸ List.mem_cons_self) hplace
      | cons first middle =>
        obtain ⟨rfl, -⟩ := List.cons.inj hmiddle
        exact ⟨middle, htold⟩
  obtain hnone | ⟨first, hfirst, hfile⟩ := introduced_before hback
  · cases hnone
  · have hmeta : .inl (FileMeta.ofChunk first) ∈ front.filterMap Announcement.item? := by
      rw [← hfront]
      exact List.mem_map.mpr ⟨.inl first, hfirst, rfl⟩
    obtain ⟨message, hmem, hmessage⟩ := List.mem_filterMap.mp hmeta
    cases message with
    | fileMeta m =>
      cases hmessage
      exact ⟨_, hmem, hfile⟩
    | filePatchMap | queueSizeUpdate | control => cases hmessage

section Heard
variable {sent : List (Announcement × Bool)} {m : Announcement}

theorem mem_heard : m ∈ heard sent ↔ (m, true) ∈ sent := by
  simp [heard]

/-- A message that is heard stands behind the same messages as where it was handed over. -/
theorem split_of_heard {front back : List Announcement} (h : heard sent = front ++ m :: back) :
    ∃ front' back', sent = front' ++ (m, true) :: back' ∧ heard front' = front := by
  obtain ⟨before, after, hsplit, hbefore, hafter⟩ := List.map_eq_append_iff.mp h
  obtain ⟨⟨_, _⟩, after, rfl, rfl, -⟩ := List.map_eq_cons_iff.mp hafter
  obtain ⟨front', rest, rfl, hfront, hrest⟩ := List.filter_eq_append_iff.mp hsplit
  obtain ⟨silent, back', rfl, hsilent, rfl, -⟩ := List.filter_eq_cons_iff.mp hrest
  refine ⟨front' ++ silent, back', by simp, ?_⟩
  have hnone : silent.filter Prod.snd = [] := List.filter_eq_nil_iff.mpr hsilent
  rw [heard, List.filter_append, hnone, List.append_nil, hfront, hbefore]

theorem sent_eq_heard (h : s.channels.messages = sent.map (Prod.map Announcement.text id)) :
    s.channels.sent = (heard sent).map Announcement.text := by
  rw [SystemChannels.sent, h, heard, List.filter_map, List.map_map, List.map_map]
  rfl

/-- What is handed over once is not heard where it was lost. -/
theorem not_heard_of_lost
    (h : (((sent.map Prod.fst).filterMap Announcement.fileMeta?).map FileMeta.file).Nodup)
    {first m : FileMeta} (hlost : (.fileMeta first, false) ∈ sent)
    (hm : .fileMeta m ∈ heard sent) : ¬m.file = first.file := by
  rw [List.Nodup, List.pairwise_map, List.pairwise_filterMap, List.pairwise_map] at h
  have hsymm : Std.Symm fun p q : Announcement × Bool => ∀ m, p.1.fileMeta? = some m →
      ∀ m', q.1.fileMeta? = some m' → m.file ≠ m'.file :=
    ⟨fun p q hpq m hm m' hm' hfile => hpq m' hm' m hm hfile.symm⟩
  have hne : (Announcement.fileMeta m, true) ≠ (Announcement.fileMeta first, false) := by simp
  exact h.forall (mem_heard.mp hm) hlost hne m rfl first rfl

end Heard

/-- Every message is put together with whether it was sent. -/
theorem Telling.paired (h : s.Telling messages) : ∃ sent : List (Announcement × Bool),
    sent.map Prod.fst = messages ∧
      s.channels.messages = sent.map (Prod.map Announcement.text id) := by
  refine ⟨messages.zip (s.channels.messages.map Prod.snd), List.map_fst_zip ?_, ?_⟩
  · have hlength := congrArg List.length h.texts
    simp only [List.length_map] at hlength ⊢
    exact hlength.ge
  · have hzip : s.channels.messages =
        (s.channels.messages.map Prod.fst).zip (s.channels.messages.map Prod.snd) :=
      List.zip_of_prod rfl rfl
    conv_lhs => rw [hzip]
    rw [h.texts, List.zip_map_left]

theorem conveyed {socket : Bool} (h : Reachable (step payloadSize) (start socket) s) :
    ∃ messages, s.Conveyed messages := by
  have hboth : (∃ messages, s.Telling messages) ∧ s.Settled := by
    refine Reach.invariant (P := fun s : Announcer => (∃ messages, s.Telling messages) ∧ s.Settled)
      ⟨⟨[], telling_start socket⟩, [], rfl, .slnil, .nil⟩ ?_ h
    rintro s a s' ⟨⟨messages, htelling⟩, hsettled⟩ - hs
    have hstep := tells_of_step hs
    obtain ⟨more, hmore⟩ := htelling.step hstep
    exact ⟨⟨messages ++ more, hmore⟩, hsettled.step hstep⟩
  obtain ⟨⟨messages, htelling⟩, settled, htold, hsub, hperm⟩ := hboth
  obtain ⟨sent, rfl, htexts⟩ := htelling.paired
  have honce : (((sent.map Prod.fst).filterMap Announcement.fileMeta?).map FileMeta.file).Nodup := by
    have hnodup : ((firsts FileChunk.file [] (s.told ++ s.loop.described)).map
        FileChunk.file).Nodup := (nodup_firsts _ _).1
    rw [htelling.files, List.map_map]
    exact hnodup
  refine ⟨sent, htexts, htelling.places, htelling.files, honce,
    fun front m back hsplit => htelling.before hsplit, fun others hothers => ?_,
    fun first hlost m hm => not_heard_of_lost honce hlost hm, fun front m back hsplit => ?_, ?_, ?_⟩
  · rw [sent_eq_heard htexts]
    constructor
    · intro hsame
      refine Announcement.texts_unique hothers (fun m hm => ?_) hsame.symm
      exact htelling.plain m (List.mem_map_of_mem (mem_heard.mp hm))
    · rintro rfl
      rfl
  · obtain ⟨front', back', rfl, rfl⟩ := split_of_heard hsplit
    have hplace : (front' ++ (.filePatchMap m, true) :: back').map Prod.fst =
        front'.map Prod.fst ++ .filePatchMap m :: back'.map Prod.fst := by
      rw [List.map_append, List.map_cons]
    obtain ⟨first, hfirst, hfile⟩ := htelling.before hplace
    obtain ⟨⟨_, sent⟩, hmem, rfl⟩ := List.mem_map.mp hfirst
    cases sent with
    | true => exact .inl ⟨first, mem_heard.mpr hmem, hfile⟩
    | false => exact .inr ⟨first, List.mem_append_left _ hmem, hfile⟩
  · rw [htold]
    exact hsub.trans (List.sublist_append_left _ _)
  · rw [htold]
    exact hperm.append_right _

/-- Two chunks of a file, the second one refused; the sender's worker starts in between. The meta
data of the file is lost. -/
def sampleSteps : List AnnouncerAction :=
  [.process ⟨ascii "a", 3, 0⟩ [171] [1, 2, 3], .notify true, .control 2 0 true, .notify false,
    .notify true, .push .accepted, .queueSize 1 (some 32) true, .notify true, .notify true,
    .push .refused]

theorem conveyed_sample : ∃ s : Announcer, s.told.map FileChunk.index = [0, 1] ∧
    s.queued.map FileChunk.index = [0] ∧ s.channels.sent.length = 4 ∧
      ∃ messages, s.Conveyed messages := by
  have hrun : (run (step 2) (start true) sampleSteps).any (fun s =>
      s.told.map FileChunk.index == [0, 1] && s.queued.map FileChunk.index == [0] &&
        s.channels.sent.length == 4) = true := by
    decide +kernel
  obtain ⟨s, hreach, hs⟩ := exists_reachable hrun
  simp only [Bool.and_eq_true, beq_iff_eq] at hs
  exact ⟨s, hs.1.1, hs.1.2, hs.2, conveyed hreach⟩

end Announcer

end SuperVoice.Client
