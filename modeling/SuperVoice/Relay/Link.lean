import SuperVoice.Client.Draining
import SuperVoice.Server.Handlers

/-! The client's sender and the server's data handlers, joined by the sockets. Each socket has a
handler of its own on the server: it reads one message, stores it and ends. How a message is read
is a parameter, so that both sides can be taken to agree on it. -/
namespace SuperVoice
open Bytes Transition StreamCodec
open Client (FileChunk Sender SenderAction SenderOptions serialize)
open Server (ChunkData Handler HandlerAction Outcome Root StoreIo registerChunk)

/-- The server's way to read a message: `parse` waits for more bytes as long as it gives `none`. -/
structure Format where
  parse : Bytes → Option ChunkData
  /-- What the server is to make of a chunk. -/
  data : FileChunk → ChunkData

/-- Client and server agree on how this chunk is sent. -/
structure Format.Agreed (f : Format) (chunk : FileChunk) : Prop where
  whole : ∀ rest, f.parse (serialize chunk ++ rest) = some (f.data chunk)
  cut : ∀ b, b <+: serialize chunk → b ≠ serialize chunk → f.parse b = none
  admitted : (f.data chunk).Admitted
  verified : Server.verifyCrc (f.data chunk) = true

structure Relay (D : Decoder) where
  /-- The chunks the producer has yet to push. -/
  todo : List FileChunk
  client : Sender
  server : Server.System D
  /-- What the handler of a socket has read of its message; `none` once it reads no more. -/
  inbox : Nat → Option Bytes
  /-- The chunks that `store_chunk` has entered. -/
  stored : List ChunkData

inductive RelayAction where
  | produce
  | client (a : SenderAction)
  /-- `n` more bytes reach the handler of socket `x`. -/
  | receive (x n : Nat)
  /-- The handler of socket `x` calls `store_chunk` with its message. -/
  | deliver (x : Nat) (io : StoreIo)
  /-- The handler of socket `x` finds the stream at its end. -/
  | hangUp (x : Nat)
  /-- The connection of socket `x` is reset: bytes on their way are lost. -/
  | reset (x : Nat)
  | server (a : Server.Action)

/-- A step of one of the programs or of the sockets between them: no call from outside, no timer
and no failure of the network. -/
def RelayAction.Internal : RelayAction → Prop
  | .client a => a.Internal
  | .server (.thread ..) => True
  | .produce | .receive .. | .deliver .. | .hangUp _ => True
  | .reset _ | .server _ => False

/-- What a step of a handler enters by `store_chunk`. -/
def entered {D : Decoder} (r : Root) (s : Server.System D) : Server.Action → List ChunkData
  | .thread t (.register io now) =>
    match s.handlers t with
    | .storing chunk =>
      match (registerChunk r io now s.world chunk).1 with
      | .returned _ => [chunk]
      | .thrown => []
    | _ => []
  | _ => []

namespace Relay
variable {D : Decoder} (o : SenderOptions) (r : Root) (f : Format)

/-- The handler of socket `x` waits for more bytes and has read `b`. -/
def Reads (s : Relay D) (x : Nat) (b : Bytes) : Prop :=
  s.inbox x = some b ∧ x < s.client.net.sockets ∧ f.parse b = none

instance (s : Relay D) (x : Nat) (b : Bytes) : Decidable (s.Reads f x b) :=
  inferInstanceAs (Decidable (_ ∧ _ ∧ _ = none))

def step (s : Relay D) : RelayAction → Option (Relay D)
  | .produce =>
    match s.todo with
    | [] => none
    | chunk :: todo =>
      (Sender.step o s.client (.push chunk)).map fun client => { s with todo, client }
  | .client a =>
    match a with
    | .push _ => none
    | a => (Sender.step o s.client a).map fun client => { s with client }
  | .receive x n =>
    (s.inbox x).bind fun b =>
      if s.Reads f x b ∧ 0 < n ∧ b.length + n ≤ (s.client.net.sent x).length then
        some { s with inbox :=
          Function.update s.inbox x (some ((s.client.net.sent x).take (b.length + n))) }
      else none
  | .deliver x io =>
    if x < s.client.net.sockets then
      ((s.inbox x).bind f.parse).bind fun chunk =>
        (Server.step r s.server (.thread x (.deliver io chunk))).map fun server =>
          { s with server, inbox := Function.update s.inbox x none }
    else none
  | .hangUp x =>
    (s.inbox x).bind fun b =>
      if s.Reads f x b ∧ b = s.client.net.sent x ∧
          ∀ c < o.slots, (s.client.net.conns c).socket ≠ some x then
        some { s with inbox := Function.update s.inbox x none }
      else none
  | .reset x =>
    (s.inbox x).bind fun b =>
      if s.Reads f x b then some { s with inbox := Function.update s.inbox x none } else none
  | .server a =>
    match a with
    | .thread _ (.deliver ..) => none
    | a => (Server.step r s.server a).map fun server =>
      { s with server, stored := s.stored ++ entered r s.server a }

/-- Nothing is sent yet, and the server runs in the world `w`. -/
def start (chunks : List FileChunk) (w : Server.World) : Relay D where
  todo := chunks
  client := .start
  server := ⟨w, fun _ => .idle, []⟩
  inbox _ := some []
  stored := []

end Relay

end SuperVoice
