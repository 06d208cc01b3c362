import SuperVoice.Http.Sse

/-! `WebSocketStream`: frames wait in a queue for the connection. Each lock section is one step. -/
namespace SuperVoice.Http
open Bytes Providers

structure WebSocketOptions where
  maxBufferedFrames : Nat := 64

inductive CloseCode where
  | normalClosure
  | tryAgainLater
  deriving DecidableEq

structure WebSocketStream where
  closed : Bool := false
  pending : List Json := []
  /-- The frames that the connection has been given. -/
  sent : List Json := []
  /-- The code and the reason with which the connection has been shut down. -/
  shutdown : Option (CloseCode × Bytes) := none

namespace WebSocketStream
variable (options : WebSocketOptions) (connected : Nat → Bool)

/-- Hand over the frames in order; `connected n` says whether the connection is there for its
frame number `n`. -/
def flushFrames (s : WebSocketStream) : List Json → WebSocketStream
  | [] => { s with pending := [] }
  | payload :: rest =>
    if connected s.sent.length then
      flushFrames { s with sent := s.sent ++ [payload], pending := rest } rest
    else { s with closed := true, pending := [] }

def flushUnlocked (s : WebSocketStream) : WebSocketStream :=
  if s.closed then s else s.flushFrames connected s.pending

/-- In spite of its name it takes the lock itself. -/
def enqueueUnlocked (s : WebSocketStream) (frame : Json) : WebSocketStream :=
  if s.closed then s
  else if options.maxBufferedFrames ≤ s.pending.length then
    { s with closed := true, pending := []
             shutdown := some (.tryAgainLater, ascii "backpressure: too many queued frames") }
  else { s with pending := s.pending ++ [frame] }.flushUnlocked connected

def closeStream (code : CloseCode) (reason : Bytes) (s : WebSocketStream) : WebSocketStream :=
  if s.closed then s
  else { s with closed := true, pending := [], shutdown := some (code, reason) }

end WebSocketStream

/-- Members stand in the order of their keys. -/
def makeFrame (event : Bytes) (payload : Json) : Json :=
  .object [(ascii "data", payload), (ascii "event", .string event)]

/-- `makeErrorFrame` builds what `SseStream::sendError` does. -/
def makeErrorFrame (code message : Bytes) (status : Int32) : Json := errorPayload code message status

/-- The frames of `sendJson`, `sendText` and `sendError`. -/
def StreamEvent.webSocketFrame : StreamEvent → Json
  | .json event payload => makeFrame event payload
  | .text event data => makeFrame event (.object [(ascii "data", .string data)])
  | .error code message status => makeFrame (ascii "error") (makeErrorFrame code message status)

/-- The frame of `sendDone`, which closes with the defaults of `close` behind it. -/
def webSocketDoneFrame (payload : Json) : Json := makeFrame (ascii "done") payload

end SuperVoice.Http
