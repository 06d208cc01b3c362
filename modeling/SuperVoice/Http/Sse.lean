import SuperVoice.Lib.Transition
import SuperVoice.Providers.Json

/-! `SseStream`: frames wait in a buffer until the response stream is ready and are then handed to
it one by one. Each lock section is one step. -/
namespace SuperVoice.Http
open Providers Transition

def heartbeatComment : Bytes := Bytes.ascii ": heartbeat\n\n"

def defaultRetry : Bytes := Bytes.ascii "retry: 5000\n"

def dataLine (line : Bytes) : Bytes := Bytes.ascii "data: " ++ line ++ [Bytes.newline]

/-- The data lines of the rest of a text whose current line has begun with `line`. -/
def escapeFrom (line : Bytes) : Bytes → Bytes
  | [] => if line.isEmpty then [] else dataLine line
  | c :: rest =>
    if c = Bytes.newline then dataLine line ++ escapeFrom [] rest else escapeFrom (line ++ [c]) rest

def escapeData (data : Bytes) : Bytes :=
  (if data.isEmpty then dataLine [] else escapeFrom [] data) ++ [Bytes.newline]

def formatEvent (event data : Bytes) : Bytes :=
  (if event.isEmpty then [] else Bytes.ascii "event: " ++ event ++ [Bytes.newline]) ++
    escapeData data

structure SseOptions where
  /-- In milliseconds. -/
  heartbeatInterval : Int := 15000
  maxBufferedBytes : Nat := 65536

structure SseStream where
  /-- `stream_` is set. -/
  stream : Bool := false
  heartbeatTimer : Bool := false
  streamReady : Bool := false
  closed : Bool := false
  pending : List Bytes := []
  bufferedBytes : Nat := 0
  /-- The frames that the response stream has taken. -/
  sent : List Bytes := []
  /-- The response stream has been closed. -/
  streamClosed : Bool := false
  deriving DecidableEq

/-- The lock sections of an `SseStream`. -/
inductive LockSection where
  | ready
  | enqueue (frame : Bytes)
  | close
  | heartbeat

def LockSection.frame? : LockSection → Option Bytes
  | .enqueue frame => some frame
  | _ => none

namespace SseStream
variable (options : SseOptions) (takes : Nat → Bool)

def cancelHeartbeatUnlocked (s : SseStream) : SseStream := { s with heartbeatTimer := false }

/-- Hand over the frames in order; `takes n` says whether the response stream takes its frame
number `n`. The first that it does not take closes the stream. -/
def flushFrames (s : SseStream) : List Bytes → SseStream
  | [] => { s with pending := [] }
  | front :: rest =>
    if takes s.sent.length then
      flushFrames { s with sent := s.sent ++ [front]
                           bufferedBytes := s.bufferedBytes - front.length
                           pending := rest } rest
    else
      cancelHeartbeatUnlocked
        { s with closed := true, stream := false, pending := [], bufferedBytes := 0 }

def flushUnlocked (s : SseStream) : SseStream :=
  if s.streamReady && s.stream then s.flushFrames takes s.pending else s

/-- On an overflow `sendError` locks the mutex that its own thread holds, and never returns:
`none`. -/
def enqueueUnlocked (s : SseStream) (frame : Bytes) : Option SseStream :=
  if s.closed || frame.isEmpty then some s
  else
    let s := { s with bufferedBytes := s.bufferedBytes + frame.length
                      pending := s.pending ++ [frame] }
    if options.maxBufferedBytes < s.bufferedBytes then none else some (s.flushUnlocked takes)

def scheduleHeartbeatUnlocked (s : SseStream) : SseStream :=
  if s.closed || options.heartbeatInterval ≤ 0 then s else { s with heartbeatTimer := true }

def onStreamReady (s : SseStream) : Option SseStream :=
  if s.closed then some { s with streamClosed := true }
  else
    (enqueueUnlocked options takes { s with stream := true, streamReady := true }
      defaultRetry).map fun s => (s.flushUnlocked takes).scheduleHeartbeatUnlocked options

def sendHeartbeatUnlocked (s : SseStream) : SseStream :=
  if !s.streamReady || s.closed then s
  else
    { s with pending := s.pending ++ [heartbeatComment]
             bufferedBytes := s.bufferedBytes + heartbeatComment.length }.flushUnlocked takes

def closeStream (s : SseStream) : SseStream :=
  if s.closed then s
  else
    cancelHeartbeatUnlocked
      { s with closed := true, pending := [], bufferedBytes := 0
               stream := false, streamClosed := s.streamClosed || s.stream }

/-- One lock section; `none` when it never ends. -/
def step (s : SseStream) : LockSection → Option SseStream
  | .ready => s.onStreamReady options takes
  | .enqueue frame => s.enqueueUnlocked options takes frame
  | .close => some s.closeStream
  | .heartbeat => if s.heartbeatTimer then some (s.sendHeartbeatUnlocked takes) else some s

end SseStream

/-- The send operations of one event each. -/
inductive StreamEvent where
  | json (event : Bytes) (payload : Json)
  | text (event data : Bytes)
  | error (code message : Bytes) (status : Int32)

section
variable (writeString : Json → Bytes)

/-- Members stand in the order of their keys. -/
def errorPayload (code message : Bytes) (status : Int32) : Json :=
  .object ([(Bytes.ascii "code", .string code), (Bytes.ascii "message", .string message)] ++
    (if 0 < status then [(Bytes.ascii "status", .int status.toInt64)] else []) ++
    [(Bytes.ascii "type", .string (Bytes.ascii "error"))])

def StreamEvent.frame : StreamEvent → Bytes
  | .json event payload => formatEvent event (writeString payload)
  | .text event data => formatEvent event data
  | .error code message status =>
    formatEvent (Bytes.ascii "error") (writeString (errorPayload code message status))

def donePayload : Json → Json
  | .null => .object []
  | finalPayload => .object [(Bytes.ascii "payload", finalPayload)]

def doneFrame (finalPayload : Json) : Bytes :=
  formatEvent (Bytes.ascii "done") (writeString (donePayload finalPayload))

/-- The lock sections of `sendDone`. -/
def sendDone (finalPayload : Json) : List LockSection :=
  [.enqueue (doneFrame writeString finalPayload), .close]

end

theorem formatEvent_ne_nil (event data : Bytes) : formatEvent event data ≠ [] := by
  simp [formatEvent, escapeData]

theorem StreamEvent.frame_ne_nil (writeString : Json → Bytes) (e : StreamEvent) :
    e.frame writeString ≠ [] := by
  cases e <;> exact formatEvent_ne_nil _ _

end SuperVoice.Http
