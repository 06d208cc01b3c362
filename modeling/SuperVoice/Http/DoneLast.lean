import SuperVoice.Lib.LastFrame
import SuperVoice.Http.WebSocket

/-! The done frame among the frames of other threads, on either kind of stream. -/
namespace SuperVoice.Http
open Providers LastFrame Transition

section
variable {options : SseOptions} {takes : Nat → Bool} {s s' : SseStream} {frame : Bytes}

namespace SseStream

/-- The response stream is there and nothing waits for it. -/
def Streaming (s : SseStream) : Prop :=
  s.pending = [] ∧ (s.closed = false → s.streamReady = true ∧ s.stream = true)

/-- What the next frame meets. -/
def takesNext (takes : Nat → Bool) (s : SseStream) : Bool := !s.closed && takes s.sent.length

theorem enqueue_closed (h : s.closed = true) :
    s.enqueueUnlocked options takes frame = some s := by
  simp [enqueueUnlocked, h]

/-- What an open stream does with one more frame, unless it overflows. -/
theorem enqueue_open (h : s.Streaming) (hclosed : s.closed = false) (hne : frame ≠ [])
    (hs : s.enqueueUnlocked options takes frame = some s') :
    s'.pending = [] ∧ if takes s.sent.length then
      s'.sent = s.sent ++ [frame] ∧ s'.streamReady = true ∧ s'.stream = true
    else s'.sent = s.sent ∧ s'.closed = true := by
  obtain ⟨hready, hstream⟩ := h.2 hclosed
  have hskip : ¬ (s.closed || frame.isEmpty) = true := by simp [hclosed, hne]
  rw [enqueueUnlocked, if_neg hskip] at hs
  dsimp only at hs
  split at hs
  case isTrue => cases hs
  case isFalse =>
    cases hs
    simp only [flushUnlocked, hready, hstream, h.1, Bool.and_self, if_true, List.nil_append,
      flushFrames]
    split
    · exact ⟨rfl, rfl, rfl, rfl⟩
    · exact ⟨rfl, rfl, rfl⟩

theorem takesNext_of_closed (h : s.closed = true) : s.takesNext takes = false := by
  rw [takesNext, h]
  rfl

/-- A frame is handed over at once, or the stream closes. -/
theorem enqueue_spec (h : s.Streaming) (hne : frame ≠ [])
    (hs : s.enqueueUnlocked options takes frame = some s') :
    s'.Streaming ∧ if s.takesNext takes then s'.sent = s.sent ++ [frame]
      else s'.sent = s.sent ∧ s'.closed = true := by
  cases hclosed : s.closed with
  | true =>
    cases (enqueue_closed hclosed).symm.trans hs
    rw [takesNext_of_closed hclosed]
    exact ⟨h, rfl, hclosed⟩
  | false =>
    have htakes : s.takesNext takes = takes s.sent.length := by
      rw [takesNext, hclosed]
      rfl
    obtain ⟨hpending, hspec⟩ := enqueue_open h hclosed hne hs
    rw [htakes]
    split at hspec
    case isTrue htaken =>
      rw [if_pos htaken]
      exact ⟨⟨hpending, fun _ => hspec.2⟩, hspec.1⟩
    case isFalse htaken =>
      rw [if_neg htaken]
      exact ⟨⟨hpending, fun hopen => by cases hopen.symm.trans hspec.2⟩, hspec⟩

theorem enqueue_taken (h : s.Streaming) (hne : frame ≠ []) (htakes : s.takesNext takes = true)
    (hs : s.enqueueUnlocked options takes frame = some s') : s'.sent = s.sent ++ [frame] := by
  have hspec := (enqueue_spec h hne hs).2
  rw [if_pos htakes] at hspec
  exact hspec

theorem enqueue_untaken (h : s.Streaming) (hne : frame ≠ []) (htakes : s.takesNext takes = false)
    (hs : s.enqueueUnlocked options takes frame = some s') :
    s'.sent = s.sent ∧ s'.closed = true := by
  have hspec := (enqueue_spec h hne hs).2
  rw [htakes] at hspec
  exact hspec

theorem closeStream_spec (s : SseStream) :
    s.closeStream.sent = s.sent ∧ s.closeStream.closed = true := by
  rw [closeStream]
  split
  case isTrue hclosed => exact ⟨rfl, hclosed⟩
  case isFalse => exact ⟨rfl, rfl⟩

theorem Streaming.close (h : s.Streaming) : s.closeStream.Streaming := by
  refine ⟨?_, fun hopen => ?_⟩
  · rw [closeStream]
    split
    · exact h.1
    · rfl
  · cases (closeStream_spec s).2.symm.trans hopen

end SseStream

/-- The frames of the send operations and of `sendDone`. -/
def sseFrame (writeString : Json → Bytes) : StreamEvent ⊕ Json → Bytes
  | .inl event => event.frame writeString
  | .inr finalPayload => doneFrame writeString finalPayload

theorem sseFrame_ne_nil (writeString : Json → Bytes) (x : StreamEvent ⊕ Json) :
    sseFrame writeString x ≠ [] := by
  cases x with
  | inl event => exact event.frame_ne_nil writeString
  | inr finalPayload => exact formatEvent_ne_nil _ _

/-- An `SseStream` as a connection; a send that overflows the buffer never ends its step. -/
def sseConnection (options : SseOptions) (takes : Nat → Bool) (writeString : Json → Bytes) :
    Connection SseStream StreamEvent Json Bytes where
  send s x := s.enqueueUnlocked options takes (sseFrame writeString x)
  close := SseStream.closeStream
  frame := sseFrame writeString
  sent := SseStream.sent
  closed := SseStream.closed
  takes := SseStream.takesNext takes
  Ready := SseStream.Streaming
  ready_send h hs := (SseStream.enqueue_spec h (sseFrame_ne_nil writeString _) hs).1
  ready_close h := h.close
  taken h htakes hs := SseStream.enqueue_taken h (sseFrame_ne_nil writeString _) htakes hs
  untaken h htakes hs := SseStream.enqueue_untaken h (sseFrame_ne_nil writeString _) htakes hs
  takes_closed h := SseStream.takesNext_of_closed h
  close_spec := SseStream.closeStream_spec

end

section
variable {options : WebSocketOptions} {connected : Nat → Bool} {s : WebSocketStream} {frame : Json}

namespace WebSocketStream

/-- What the next frame meets. -/
def takesNext (options : WebSocketOptions) (connected : Nat → Bool) (s : WebSocketStream) : Bool :=
  !s.closed && decide (0 < options.maxBufferedFrames) && connected s.sent.length

theorem takesNext_of_closed (h : s.closed = true) : s.takesNext options connected = false := by
  rw [takesNext, h]
  rfl

variable (options connected) in
/-- A frame is handed over at once, or the stream closes. -/
theorem enqueue_spec (h : s.pending = []) (frame : Json) :
    (s.enqueueUnlocked options connected frame).pending = [] ∧
      if s.takesNext options connected then
        (s.enqueueUnlocked options connected frame).sent = s.sent ++ [frame]
      else (s.enqueueUnlocked options connected frame).sent = s.sent ∧
        (s.enqueueUnlocked options connected frame).closed = true := by
  cases hclosed : s.closed with
  | true =>
    have hsame : s.enqueueUnlocked options connected frame = s := if_pos hclosed
    rw [takesNext_of_closed hclosed, hsame]
    exact ⟨h, rfl, hclosed⟩
  | false =>
    by_cases hroom : 0 < options.maxBufferedFrames
    · have hflush : s.enqueueUnlocked options connected frame =
          { s with pending := [frame] }.flushFrames connected [frame] := by
        have hfits : ¬ options.maxBufferedFrames ≤ 0 := Nat.not_le.mpr hroom
        simp [enqueueUnlocked, flushUnlocked, hclosed, h, hfits]
      have htakes : s.takesNext options connected = connected s.sent.length := by
        simp [takesNext, hclosed, hroom]
      rw [hflush, htakes, flushFrames]
      split
      · exact ⟨rfl, rfl⟩
      · exact ⟨rfl, rfl, rfl⟩
    · have hfull : options.maxBufferedFrames = 0 := Nat.eq_zero_of_not_pos hroom
      have htakes : s.takesNext options connected = false := by simp [takesNext, hroom]
      rw [htakes]
      simp [enqueueUnlocked, hclosed, hfull]

theorem enqueue_taken (h : s.pending = []) (htakes : s.takesNext options connected = true) :
    (s.enqueueUnlocked options connected frame).sent = s.sent ++ [frame] := by
  have hspec := (enqueue_spec options connected h frame).2
  rw [if_pos htakes] at hspec
  exact hspec

theorem enqueue_untaken (h : s.pending = []) (htakes : s.takesNext options connected = false) :
    (s.enqueueUnlocked options connected frame).sent = s.sent ∧
      (s.enqueueUnlocked options connected frame).closed = true := by
  have hspec := (enqueue_spec options connected h frame).2
  rw [htakes] at hspec
  exact hspec

theorem closeStream_spec (code : CloseCode) (reason : Bytes) (s : WebSocketStream) :
    (s.closeStream code reason).sent = s.sent ∧ (s.closeStream code reason).closed = true := by
  rw [closeStream]
  split
  case isTrue hclosed => exact ⟨rfl, hclosed⟩
  case isFalse => exact ⟨rfl, rfl⟩

theorem pending_closeStream (code : CloseCode) (reason : Bytes) (h : s.pending = []) :
    (s.closeStream code reason).pending = [] := by
  rw [closeStream]
  split
  · exact h
  · rfl

end WebSocketStream

def webSocketFrame : StreamEvent ⊕ Json → Json
  | .inl event => event.webSocketFrame
  | .inr payload => webSocketDoneFrame payload

/-- A `WebSocketStream` as a connection. -/
def webSocketConnection (options : WebSocketOptions) (connected : Nat → Bool) :
    Connection WebSocketStream StreamEvent Json Json where
  send s x := some (s.enqueueUnlocked options connected (webSocketFrame x))
  close := WebSocketStream.closeStream .normalClosure []
  frame := webSocketFrame
  sent := WebSocketStream.sent
  closed := WebSocketStream.closed
  takes := WebSocketStream.takesNext options connected
  Ready s := s.pending = []
  ready_send h hs := by
    cases hs
    exact (WebSocketStream.enqueue_spec options connected h _).1
  ready_close h := WebSocketStream.pending_closeStream _ _ h
  taken h htakes hs := by
    cases hs
    exact WebSocketStream.enqueue_taken h htakes
  untaken h htakes hs := by
    cases hs
    exact WebSocketStream.enqueue_untaken h htakes
  takes_closed h := WebSocketStream.takesNext_of_closed h
  close_spec := WebSocketStream.closeStream_spec _ _

end

/-- On both kinds of stream nothing follows the done frame exactly in the runs in which no other
send comes between the two lock sections of `sendDone` while frames are still taken. -/
theorem done_last_iff (options : SseOptions) (takes : Nat → Bool) (writeString : Json → Bytes)
    (webSocketOptions : WebSocketOptions) (connected : Nat → Bool) {stream : SseStream}
    {webSocket : WebSocketStream} (hstream : stream.Streaming) (hwebSocket : webSocket.pending = [])
    (actions : List (Action StreamEvent Json)) :
    (Along (sseConnection options takes writeString).step
        (sseConnection options takes writeString).Ends (fun _ _ _ => True) ⟨stream, .before⟩
        actions ↔
      Meets (sseConnection options takes writeString).step
        (sseConnection options takes writeString).Undisturbed ⟨stream, .before⟩ actions) ∧
    (Along (webSocketConnection webSocketOptions connected).step
        (webSocketConnection webSocketOptions connected).Ends (fun _ _ _ => True)
        ⟨webSocket, .before⟩ actions ↔
      Meets (webSocketConnection webSocketOptions connected).step
        (webSocketConnection webSocketOptions connected).Undisturbed ⟨webSocket, .before⟩
        actions) :=
  ⟨(sseConnection options takes writeString).ends_iff hstream actions,
    (webSocketConnection webSocketOptions connected).ends_iff hwebSocket actions⟩

/-- A stream that has become ready. -/
def readyStream : SseStream := { stream := true, streamReady := true }

theorem streaming_readyStream : readyStream.Streaming := ⟨rfl, fun _ => ⟨rfl, rfl⟩⟩

def disturbed : List (Action StreamEvent Json) :=
  [.done .null, .send (.text (Bytes.ascii "delta") (Bytes.ascii "late")), .close]

/-- An event that another thread sends before the close follows the done frame, on both kinds of
stream. -/
theorem done_not_last :
    (¬ ∀ (options : SseOptions) (takes : Nat → Bool) (writeString : Json → Bytes)
      (stream : SseStream), stream.Streaming → ∀ actions : List (Action StreamEvent Json),
        Along (sseConnection options takes writeString).step
          (sseConnection options takes writeString).Ends (fun _ _ _ => True) ⟨stream, .before⟩
          actions) ∧
    ¬ ∀ (options : WebSocketOptions) (connected : Nat → Bool) (stream : WebSocketStream),
      stream.pending = [] → ∀ actions : List (Action StreamEvent Json),
        Along (webSocketConnection options connected).step
          (webSocketConnection options connected).Ends (fun _ _ _ => True) ⟨stream, .before⟩
          actions := by
  constructor
  · intro h
    have halong := h {} (fun _ => true) (fun _ => []) readyStream streaming_readyStream disturbed
    have hends := ((halong.2 _ rfl).2.2 _ rfl).2.1
    rcases hends with hsent | hsent
    · exact absurd (congrArg List.length hsent) (by decide)
    · exact absurd (congrArg List.length hsent) (by decide)
  · intro h
    have halong := h {} (fun _ => true) {} rfl disturbed
    have hends := ((halong.2 _ rfl).2.2 _ rfl).2.1
    rcases hends with hsent | hsent
    · exact absurd (congrArg List.length hsent) (by decide)
    · exact absurd (congrArg List.length hsent) (by decide)

theorem done_last_undisturbed :
    Along (sseConnection {} (fun _ => true) (fun _ => [])).step
      (sseConnection {} (fun _ => true) (fun _ => [])).Ends (fun _ _ _ => True)
      ⟨readyStream, .before⟩ [.done .null, .close] := by
  have hwebSocket : ({} : WebSocketStream).pending = [] := rfl
  apply (done_last_iff {} (fun _ => true) (fun _ => []) {} (fun _ => true) streaming_readyStream
    hwebSocket _).1.mpr
  intro s hs
  constructor
  · intro event front last haction
    cases haction
  · intro s' hs'
    refine ⟨?_, trivial⟩
    intro event front last haction
    cases haction

end SuperVoice.Http
