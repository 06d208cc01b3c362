import Mathlib.Tactic.MkIffOfInductiveProp
import SuperVoice.Common.Bytes

/-! The system messages of `sv::common::protocol`: what is decoded is exactly what is encoded. -/
namespace SuperVoice.Common
open Codec ByteReader

/-- An enumeration over `std::uint16_t`, which may hold other values than its named ones. -/
abbrev SystemMessageType := BitVec 16

namespace SystemMessageType

def queueSizeUpdate : SystemMessageType := 1
def fileMeta : SystemMessageType := 2
def filePatchMap : SystemMessageType := 3
def control : SystemMessageType := 4

end SystemMessageType

structure QueueSizeUpdateMessage where
  queueSize : BitVec 32
  deriving DecidableEq

structure FileMetaMessage where
  fileId : BitVec 64
  utf8Name : Bytes
  originalSizeBytes : BitVec 64
  totalPatches : BitVec 32
  sha256 : FixedBytes 32
  deriving DecidableEq

structure FilePatchMapMessage where
  fileId : BitVec 64
  patchIndex : BitVec 32
  deriving DecidableEq

structure ControlMessage where
  command : UInt8
  valueSeconds : BitVec 32
  deriving DecidableEq

inductive SystemPayload where
  | queueSizeUpdate (payload : QueueSizeUpdateMessage)
  | fileMeta (payload : FileMetaMessage)
  | filePatchMap (payload : FilePatchMapMessage)
  | control (payload : ControlMessage)
  deriving DecidableEq

structure SystemMessage where
  type : SystemMessageType
  payload : SystemPayload
  deriving DecidableEq

def encodeSystemMessage (message : SystemMessage) : Bytes :=
  let writer := ByteWriter.write 2 {} message.type
  (match message.payload with
  | .queueSizeUpdate payload => writer.write 4 payload.queueSize
  | .fileMeta payload =>
    let writer := writer.write 8 payload.fileId
    let writer := writer.write 4 (BitVec.ofNat 32 payload.utf8Name.length)
    let writer := writer.writeBytes payload.utf8Name
    let writer := writer.write 8 payload.originalSizeBytes
    let writer := writer.write 4 payload.totalPatches
    writer.writeBytes payload.sha256.bytes
  | .filePatchMap payload => (writer.write 8 payload.fileId).write 4 payload.patchIndex
  | .control payload => (writer.writeBytes [payload.command]).write 4 payload.valueSeconds).buffer

def decodeFileMeta : Reads FileMetaMessage := do
  let fileId ← read 8
  let nameSize ← read 4
  let utf8Name ← readBytes nameSize.toNat
  let originalSizeBytes ← read 8
  let totalPatches ← read 4
  let hashBytes ← readBytes 32
  let sha256 ← (FixedBytes.zero 32).copy hashBytes
  return { fileId, utf8Name, originalSizeBytes, totalPatches, sha256 }

def decodeControl : Reads ControlMessage := do
  let commandBytes ← readBytes 1
  let command ← access commandBytes 0
  let valueSeconds ← read 4
  return { command, valueSeconds }

/-- The members of the payload in the `FilePatchMap` case. -/
def readFilePatchMap : Reads FilePatchMapMessage := do
  let fileId ← read 8
  let patchIndex ← read 4
  return { fileId, patchIndex }

/-- The `switch` over the type that has been read. -/
def decodePayload (type : SystemMessageType) : Reads SystemMessage :=
  if type = .queueSizeUpdate then do
    let queueSize ← read 4
    return ⟨type, .queueSizeUpdate { queueSize }⟩
  else if type = .fileMeta then do
    let payload ← decodeFileMeta
    return ⟨type, .fileMeta payload⟩
  else if type = .filePatchMap then do
    let payload ← readFilePatchMap
    return ⟨type, .filePatchMap payload⟩
  else if type = .control then do
    let payload ← decodeControl
    return ⟨type, .control payload⟩
  else throw .runtimeError

def decodeSystemMessage (data : Bytes) : Except Fault SystemMessage := do
  let (message, _) ← (read 2 >>= decodePayload) ⟨data, 0⟩
  return message

/-- The type that belongs to a payload. -/
def SystemPayload.type : SystemPayload → SystemMessageType
  | .queueSizeUpdate _ => .queueSizeUpdate
  | .fileMeta _ => .fileMeta
  | .filePatchMap _ => .filePatchMap
  | .control _ => .control

/-- The size of a file name fits its field. -/
def SystemPayload.Fits : SystemPayload → Prop
  | .fileMeta payload => payload.utf8Name.length < 2 ^ 32
  | _ => True

/-- The type tag agrees with the payload, and the payload fits its encoding. -/
@[mk_iff] structure SystemMessage.Proper (message : SystemMessage) : Prop where
  type : message.type = message.payload.type
  fits : message.payload.Fits

/-- The encoding of file meta data, field by field. -/
def FileMetaMessage.fields (payload : FileMetaMessage) : Bytes :=
  toLeArray 8 payload.fileId ++ (toLeArray 4 (BitVec.ofNat 32 payload.utf8Name.length) ++
    (payload.utf8Name ++ (toLeArray 8 payload.originalSizeBytes ++
      (toLeArray 4 payload.totalPatches ++ (payload.sha256.bytes ++ [])))))

def FilePatchMapMessage.fields (payload : FilePatchMapMessage) : Bytes :=
  toLeArray 8 payload.fileId ++ (toLeArray 4 payload.patchIndex ++ [])

def ControlMessage.fields (payload : ControlMessage) : Bytes :=
  [payload.command] ++ (toLeArray 4 payload.valueSeconds ++ [])

/-- The encoding of a payload, field by field. -/
def SystemPayload.fields : SystemPayload → Bytes
  | .queueSizeUpdate payload => toLeArray 4 payload.queueSize
  | .fileMeta payload => payload.fields
  | .filePatchMap payload => payload.fields
  | .control payload => payload.fields

theorem encodeSystemMessage_eq (message : SystemMessage) :
    encodeSystemMessage message = toLeArray 2 message.type ++ message.payload.fields := by
  obtain ⟨type, payload⟩ := message
  cases payload with
  | _ => simp [encodeSystemMessage, ByteWriter.write, ByteWriter.writeBytes, SystemPayload.fields,
      FileMetaMessage.fields, FilePatchMapMessage.fields, ControlMessage.fields]

theorem liftM_ok {α : Type} (a : α) : (liftM (.ok a : Except Fault α) : Reads α) = pure a := rfl

theorem inverts_decodeFileMeta : Inverts input decodeFileMeta FileMetaMessage.fields
    fun payload => payload.utf8Name.length < 2 ^ 32 := by
  refine (inverts_read 8).bind FileMetaMessage.fileId (fun fileId _ => ?_) fun _ _ => trivial
  refine (inverts_read 4).bind (fun c : FileMetaMessage => BitVec.ofNat 32 c.utf8Name.length)
    (fun nameSize _ => ?_) fun _ _ => trivial
  refine (inverts_readBytes _).bind FileMetaMessage.utf8Name (fun utf8Name hname => ?_) ?_
  swap
  · intro c hc
    obtain ⟨⟨hshort, -⟩, rfl⟩ := hc
    rw [BitVec.toNat_ofNat, Nat.mod_eq_of_lt hshort]
  refine (inverts_read 8).bind FileMetaMessage.originalSizeBytes (fun originalSizeBytes _ => ?_)
    fun _ _ => trivial
  refine (inverts_read 4).bind FileMetaMessage.totalPatches (fun totalPatches _ => ?_)
    fun _ _ => trivial
  refine (inverts_readBytes 32).bind (fun c : FileMetaMessage => c.sha256.bytes)
    (fun hashBytes hhash => ?_) fun c _ => c.sha256.length_eq
  rw [FixedBytes.copy_eq _ hhash, liftM_ok, pure_bind]
  apply inverts_pure _
  intro c
  constructor
  · intro h
    obtain ⟨⟨⟨⟨⟨⟨-, rfl⟩, -⟩, rfl⟩, rfl⟩, rfl⟩, rfl⟩ := h
    rfl
  · intro h
    subst h
    have hlt : utf8Name.length < 2 ^ 32 := hname ▸ nameSize.isLt
    have hsize : BitVec.ofNat 32 utf8Name.length = nameSize := by
      rw [hname]
      exact BitVec.ofNat_toNat _ _
    exact ⟨⟨⟨⟨⟨⟨hlt, rfl⟩, hsize⟩, rfl⟩, rfl⟩, rfl⟩, rfl⟩

theorem inverts_decodeControl :
    Inverts input decodeControl ControlMessage.fields fun _ => True := by
  refine (inverts_readBytes 1).bind (fun c : ControlMessage => [c.command])
    (fun commandBytes hlen => ?_) fun _ _ => rfl
  obtain ⟨command, rfl⟩ := List.length_eq_one_iff.mp hlen
  rw [access_cons, liftM_ok, pure_bind]
  refine (inverts_read 4).bind ControlMessage.valueSeconds (fun valueSeconds _ => ?_)
    fun _ _ => trivial
  apply inverts_pure _
  intro c
  constructor
  · intro h
    obtain ⟨⟨-, hcommand⟩, rfl⟩ := h
    cases hcommand
    rfl
  · intro h
    subst h
    exact ⟨⟨trivial, rfl⟩, rfl⟩

theorem inverts_readFilePatchMap :
    Inverts input readFilePatchMap FilePatchMapMessage.fields fun _ => True := by
  refine (inverts_read 8).bind FilePatchMapMessage.fileId (fun fileId _ => ?_) fun _ _ => trivial
  refine (inverts_read 4).bind FilePatchMapMessage.patchIndex (fun patchIndex _ => ?_)
    fun _ _ => trivial
  apply inverts_pure _
  intro c
  constructor
  · intro h
    obtain ⟨⟨-, rfl⟩, rfl⟩ := h
    rfl
  · intro h
    subst h
    exact ⟨⟨trivial, rfl⟩, rfl⟩

/-- The proper messages of a type have a payload that belongs to it. -/
theorem proper_iff_of_type {α : Type} {type : SystemMessageType} {ok : α → Prop}
    {payload : α → SystemPayload} (htype : ∀ a, (payload a).type = type)
    (hfits : ∀ a, (payload a).Fits ↔ ok a) (hall : ∀ p, p.type = type → ∃ a, p = payload a)
    (message : SystemMessage) :
    message.Proper ∧ message.type = type ↔ ∃ a, ok a ∧ message = ⟨type, payload a⟩ := by
  obtain ⟨type', p⟩ := message
  rw [SystemMessage.proper_iff]
  constructor
  · intro h
    obtain ⟨⟨hp, hf⟩, rfl⟩ := h
    obtain ⟨a, rfl⟩ := hall p hp.symm
    exact ⟨a, (hfits a).mp hf, rfl⟩
  · intro h
    obtain ⟨a, ha, h⟩ := h
    cases h
    exact ⟨⟨(htype a).symm, (hfits a).mpr ha⟩, rfl⟩

/-- Under each type the payload that belongs to it is read. -/
theorem inverts_decodePayload (type : SystemMessageType) : Inverts input (decodePayload type)
    (fun message => message.payload.fields) fun message => message.Proper ∧ message.type = type := by
  unfold decodePayload
  by_cases h₁ : type = .queueSizeUpdate
  · rw [if_pos h₁]
    refine (inverts_read 4).map (proper_iff_of_type (fun _ => h₁.symm) (fun _ => Iff.rfl) ?_)
      fun _ => rfl
    intro p hp
    cases p with
    | queueSizeUpdate payload => exact ⟨payload.queueSize, rfl⟩
    | _ => cases hp.trans h₁
  rw [if_neg h₁]
  by_cases h₂ : type = .fileMeta
  · rw [if_pos h₂]
    refine inverts_decodeFileMeta.map
      (proper_iff_of_type (fun _ => h₂.symm) (fun _ => Iff.rfl) ?_) fun _ => rfl
    intro p hp
    cases p with
    | fileMeta payload => exact ⟨payload, rfl⟩
    | _ => cases hp.trans h₂
  rw [if_neg h₂]
  by_cases h₃ : type = .filePatchMap
  · rw [if_pos h₃]
    refine inverts_readFilePatchMap.map
      (proper_iff_of_type (fun _ => h₃.symm) (fun _ => Iff.rfl) ?_) fun _ => rfl
    intro p hp
    cases p with
    | filePatchMap payload => exact ⟨payload, rfl⟩
    | _ => cases hp.trans h₃
  rw [if_neg h₃]
  by_cases h₄ : type = .control
  · rw [if_pos h₄]
    refine inverts_decodeControl.map
      (proper_iff_of_type (fun _ => h₄.symm) (fun _ => Iff.rfl) ?_) fun _ => rfl
    intro p hp
    cases p with
    | control payload => exact ⟨payload, rfl⟩
    | _ => cases hp.trans h₄
  rw [if_neg h₄]
  refine inverts_throw nofun fun message h => ?_
  obtain ⟨⟨htype, -⟩, rfl⟩ := h
  cases hp : message.payload <;> rw [hp] at htype <;> contradiction

theorem inverts_systemMessage :
    Inverts input (read 2 >>= decodePayload) encodeSystemMessage SystemMessage.Proper := by
  have h := (inverts_read 2).bind SystemMessage.type
    (fun type _ => inverts_decodePayload type) fun _ _ => trivial
  rwa [← funext encodeSystemMessage_eq] at h

theorem decodeSystemMessage_eq_ok {b : Bytes} {message : SystemMessage} :
    decodeSystemMessage b = .ok message ↔
      ∃ r, (read 2 >>= decodePayload) ⟨b, 0⟩ = .ok (message, r) := by
  unfold decodeSystemMessage
  cases (read 2 >>= decodePayload) ⟨b, 0⟩ with
  | error fault => simp [bind, Except.bind]
  | ok p => simp [bind, Except.bind, pure, Except.pure, Prod.ext_iff]

theorem decodeSystemMessage_eq_error {b : Bytes} {fault : Fault} :
    decodeSystemMessage b = .error fault ↔ (read 2 >>= decodePayload) ⟨b, 0⟩ = .error fault := by
  unfold decodeSystemMessage
  cases (read 2 >>= decodePayload) ⟨b, 0⟩ with
  | error fault => simp [bind, Except.bind]
  | ok p => simp [bind, Except.bind, pure, Except.pure]

/-- Decoding is the exact inverse of encoding: it returns a proper message if and only if its
encoding stands at the front of the bytes, throws on all other bytes, and stays inside the buffer. -/
theorem decode_inverts_encode (b : Bytes) :
    (∀ message : SystemMessage, message.Proper →
      (decodeSystemMessage b = .ok message ↔ ∃ suffix, b = encodeSystemMessage message ++ suffix)) ∧
    ((¬∃ message suffix, SystemMessage.Proper message ∧ b = encodeSystemMessage message ++ suffix) →
      ∃ fault, decodeSystemMessage b = .error fault) ∧
    decodeSystemMessage b ≠ .error .undefined := by
  have hvalid : input.valid ⟨b, 0⟩ := Nat.zero_le _
  have hsound : ∀ message, decodeSystemMessage b = .ok message →
      message.Proper ∧ ∃ suffix, b = encodeSystemMessage message ++ suffix := by
    intro message h
    obtain ⟨r, hr⟩ := decodeSystemMessage_eq_ok.mp h
    obtain ⟨hproper, -, hrest⟩ := inverts_systemMessage.sound _ _ _ hvalid hr
    exact ⟨hproper, _, hrest⟩
  refine ⟨fun message hproper => ⟨fun h => (hsound message h).2, fun h => ?_⟩, fun hnone => ?_,
    fun h => ?_⟩
  · obtain ⟨suffix, hb⟩ := h
    obtain ⟨r, hr, -⟩ := inverts_systemMessage.complete ⟨b, 0⟩ message suffix hvalid hproper hb
    exact decodeSystemMessage_eq_ok.mpr ⟨r, hr⟩
  · cases h : decodeSystemMessage b with
    | error fault => exact ⟨fault, rfl⟩
    | ok message =>
      obtain ⟨hproper, suffix, hb⟩ := hsound message h
      exact absurd ⟨message, suffix, hproper, hb⟩ hnone
  · exact inverts_systemMessage.safe _ _ hvalid (decodeSystemMessage_eq_error.mp h) rfl

/-- A control message with a byte behind it. -/
theorem decode_inverts_encode_sample :
    decodeSystemMessage (encodeSystemMessage ⟨.control, .control ⟨88, 30⟩⟩ ++ [7]) =
      .ok ⟨.control, .control ⟨88, 30⟩⟩ :=
  ((decode_inverts_encode _).1 ⟨.control, .control ⟨88, 30⟩⟩ ⟨rfl, trivial⟩).mpr ⟨[7], rfl⟩

end SuperVoice.Common
