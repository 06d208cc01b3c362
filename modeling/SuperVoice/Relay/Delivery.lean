import SuperVoice.Client.Completions
import SuperVoice.Lib.RawFrame
import SuperVoice.Relay.Link
import SuperVoice.Server.Granted

/-! From a completed write to a stored chunk. The client counts a chunk as sent when its bytes
have left; the server's handler reads one message of a socket and then closes it. -/
namespace SuperVoice
open Bytes Transition StreamCodec
open Client (FileChunk Sender SenderAction SenderOptions Streamed serialize Report)
open Client.Sender (FreshWrite Alone Completions Draws)
open Server (ChunkData Handler HandlerAction Outcome Root StoreIo registerChunk Unobstructed)

namespace Relay
variable {D : Decoder} {o : SenderOptions} {r : Root} {f : Format} {s s' : Relay D}
  {chunks : List FileChunk}

/-- The condition on a step: a socket carries one chunk, its handler hears the chunk to the end,
and the server is able to store it. -/
structure Delivers (r : Root) (f : Format) (chunks : List FileChunk) (s : Relay D)
    (a : RelayAction) : Prop where
  fresh : ∀ ca, a = .client ca → FreshWrite s.client ca
  heard : ∀ ca i t others p x rest, a = .client ca → ca.task = some i →
    Pool.take s.client.net.tasks i = some (t, others) → t.phase = .writing p x rest →
      s.inbox x ≠ none
  kept : ∀ x, a = .reset x → ∀ chunk ∈ chunks, s.client.net.sent x ≠ serialize chunk
  granted : ∀ x io b chunk, a = .deliver x io → s.inbox x = some b → f.parse b = some chunk →
    io.directories = true ∧ io.patch = none ∧
      Unobstructed r s.server.world.fs chunk.fileId chunk.index
  registered : ∀ t io now, a = .server (.thread t (.register io now)) → io.allocates = true

/-- All bytes of the chunk are out, and its handler has not stored it yet. -/
def Underway (f : Format) (s : Relay D) (x : Nat) (chunk : FileChunk) : Prop :=
  (s.inbox x ≠ none ∧ s.client.net.sent x = serialize chunk) ∨
    (s.inbox x = none ∧ s.server.handlers x = .storing (f.data chunk))

/-- The chunk is stored or certain to be. -/
def Arrives (f : Format) (chunks : List FileChunk) (s : Relay D) (chunk : FileChunk) : Prop :=
  chunk ∈ chunks ∧ (f.data chunk ∈ s.stored ∨ ∃ x, s.Underway f x chunk)

/-- The invariant behind the delivery. -/
structure Delivering (f : Format) (chunks : List FileChunk) (s : Relay D) : Prop where
  streamed : Streamed s.client.net
  alone : Alone s.client.net
  todo : ∀ chunk ∈ s.todo, chunk ∈ chunks
  draws : Draws chunks s.client
  received : ∀ x b, s.inbox x = some b → b <+: s.client.net.sent x
  idle : ∀ x, s.inbox x ≠ none → s.server.handlers x = .idle
  completions : Completions (s.Arrives f chunks) s.client

theorem delivering_start (f : Format) (chunks : List FileChunk) (w : Server.World) :
    (start chunks w : Relay D).Delivering f chunks where
  streamed := .start
  alone _ h := nomatch h
  todo _ h := h
  draws := Client.Sender.draws_start chunks
  received x b h := by
    cases h
    exact List.nil_prefix
  idle _ _ := rfl
  completions := Client.Sender.completions_start _

/-- No whole message is a part of another one. -/
theorem eq_nil_of_serialize {c c' : FileChunk} {rest : Bytes} (hc : f.Agreed c) (hc' : f.Agreed c')
    (h : serialize c ++ rest = serialize c') : rest = [] := by
  by_contra hne
  have hwhole := hc.whole []
  rw [List.append_nil] at hwhole
  have hcut := hc'.cut (serialize c) ⟨rest, h⟩ fun heq => by
    rw [← heq] at h
    exact hne (List.append_right_eq_self.mp h)
  rw [hwhole] at hcut
  cases hcut

/-- A step of the sender takes no byte back and adds none to a chunk that is out. -/
theorem sent_client {client : Sender} {a : SenderAction} (hi : s.Delivering f chunks)
    (hagreed : ∀ chunk ∈ chunks, f.Agreed chunk) (h : Client.Sender.Moves o s.client a client) :
    (∀ x b, s.inbox x = some b → b <+: client.net.sent x) ∧
      ∀ chunk, s.Arrives f chunks chunk → ({ s with client } : Relay D).Arrives f chunks chunk := by
  constructor
  · intro x b hb
    have hpre := hi.received x b hb
    obtain heq | ⟨-, -, -, -, b', -, -, -, -, heq⟩ := h.sent x
    · exact heq ▸ hpre
    · rw [heq]
      exact hpre.trans (List.prefix_append _ _)
  · intro chunk ⟨hmem, harr⟩
    refine ⟨hmem, harr.imp_right fun ⟨x, hu⟩ => ⟨x, ?_⟩⟩
    obtain ⟨hx, hsent⟩ | hu := hu
    · refine .inl ⟨hx, ?_⟩
      obtain heq | ⟨i, t, others, p, b, rest, -, ht, hp, heq⟩ := h.sent x
      · exact heq.trans hsent
      · have htask := Pool.mem_of_take ht
        have hwhole := hi.alone t htask p x _ hp
        rw [hsent] at hwhole
        have hp' : p.chunk ∈ chunks :=
          hi.draws.pending p (.inr (.inr ⟨t, htask, by rw [hp]; rfl⟩))
        have hnil := eq_nil_of_serialize (hagreed _ hmem) (hagreed _ hp') hwhole
        rw [heq, (List.append_eq_nil_iff.mp hnil).1, List.append_nil]
        exact hsent
    · exact .inr hu

theorem client_of_step {a : SenderAction} (h : step o r f s (.client a) = some s') :
    (∀ chunk, a ≠ .push chunk) ∧
      ∃ client, Sender.step o s.client a = some client ∧ { s with client } = s' := by
  constructor
  · intro chunk ha
    subst ha
    cases h
  · cases a with
    | push chunk => cases h
    | _ => exact Option.map_eq_some_iff.mp h

theorem server_of_step {a : Server.Action} (h : step o r f s (.server a) = some s') :
    (∀ t io chunk, a ≠ .thread t (.deliver io chunk)) ∧
      ∃ server, Server.step r s.server a = some server ∧
        { s with server, stored := s.stored ++ entered r s.server a } = s' := by
  constructor
  · intro t io chunk ha
    subst ha
    cases h
  · cases a with
    | thread t act =>
      cases act with
      | deliver io chunk => cases h
      | _ => exact Option.map_eq_some_iff.mp h
    | _ => exact Option.map_eq_some_iff.mp h

/-- An idle handler waits for its chunk. -/
theorem handlers_of_idle {a : Server.Action} {server : Server.System D} {x : Nat}
    (h : Server.step r s.server a = some server)
    (ha : ∀ t io chunk, a ≠ .thread t (.deliver io chunk))
    (hidle : s.server.handlers x = .idle) : a.handler ≠ some x := by
  intro hself
  cases a with
  | thread t act =>
    cases hself
    obtain ⟨⟨handler, world⟩, hstep, -⟩ := Option.map_eq_some_iff.mp h
    rw [hidle] at hstep
    cases act with
    | deliver io chunk => exact ha x io chunk rfl
    | _ => cases hstep
  | _ => cases hself

/-- What is under way stays under way or is stored, so all that arrives still does. -/
theorem Arrives.mono {chunk : FileChunk} (h : s.Arrives f chunks chunk)
    (hstored : ∀ d ∈ s.stored, d ∈ s'.stored)
    (hu : ∀ x, chunk ∈ chunks → s.Underway f x chunk →
      f.data chunk ∈ s'.stored ∨ s'.Underway f x chunk) : s'.Arrives f chunks chunk := by
  obtain ⟨hmem, h | ⟨x, h⟩⟩ := h
  · exact ⟨hmem, .inl (hstored _ h)⟩
  · exact ⟨hmem, (hu x hmem h).imp_right fun h => ⟨x, h⟩⟩

theorem Delivering.client {client : Sender} {a : SenderAction} {todo : List FileChunk}
    (hi : s.Delivering f chunks) (hagreed : ∀ chunk ∈ chunks, f.Agreed chunk)
    (h : Client.Sender.Moves o s.client a client) (hfresh : FreshWrite s.client a)
    (hheard : ∀ i t others p x rest, a.task = some i →
      Pool.take s.client.net.tasks i = some (t, others) → t.phase = .writing p x rest →
        s.inbox x ≠ none)
    (hpush : ∀ chunk, a = .push chunk → chunk ∈ chunks) (htodo : ∀ chunk ∈ todo, chunk ∈ chunks) :
    ({ s with todo, client } : Relay D).Delivering f chunks := by
  obtain ⟨hreceived, harrives⟩ := sent_client hi hagreed h
  refine ⟨h.streamed hi.streamed hfresh.sole, h.alone hi.alone hi.streamed.sole hfresh, htodo,
    h.draws hi.draws hpush, hreceived, hi.idle,
    h.completions (hi.completions.mono harrives) fun i t others p x rest ha ht hp hsent => ?_⟩
  have htask := Pool.mem_of_take ht
  refine ⟨hi.draws.pending p (.inr (.inr ⟨t, htask, by rw [hp]; rfl⟩)),
    .inr ⟨x, .inl ⟨hheard i t others p x rest ha ht hp, ?_⟩⟩⟩
  exact hsent.trans (hi.alone t htask p x rest hp)

/-- Only the inbox of `x` changes. -/
theorem Delivering.inbox {x : Nat} {b : Bytes} {b' : Option Bytes} (hi : s.Delivering f chunks)
    (hb : s.inbox x = some b) (hpre : ∀ c, b' = some c → c <+: s.client.net.sent x)
    (hu : b' = none → ∀ chunk ∈ chunks, s.client.net.sent x ≠ serialize chunk) :
    ({ s with inbox := Function.update s.inbox x b' } : Relay D).Delivering f chunks := by
  refine ⟨hi.streamed, hi.alone, hi.todo, hi.draws, fun y c hc => ?_, fun y hy => ?_,
    hi.completions.mono fun chunk h => h.mono (fun _ h => h) fun y hmem hy => .inr ?_⟩
  · dsimp only at hc
    by_cases hxy : y = x
    · subst hxy
      exact hpre c (by rwa [Function.update_self] at hc)
    · exact hi.received y c (by rwa [Function.update_of_ne hxy] at hc)
  · dsimp only at hy
    by_cases hxy : y = x
    · subst hxy
      exact hi.idle y (by rw [hb]; nofun)
    · exact hi.idle y (by rwa [Function.update_of_ne hxy] at hy)
  · unfold Underway at hy ⊢
    dsimp only
    by_cases hxy : y = x
    · subst hxy
      rw [Function.update_self]
      obtain ⟨-, hsent⟩ | ⟨hnone, -⟩ := hy
      · cases b' with
        | none => exact absurd hsent (hu rfl chunk hmem)
        | some c => exact .inl ⟨nofun, hsent⟩
      · rw [hb] at hnone
        cases hnone
    · rw [Function.update_of_ne hxy]
      exact hy

/-- A message that has been read to its end is handed to `store_chunk`. -/
theorem Delivering.deliver {x : Nat} {io : StoreIo} {b : Bytes} {data : ChunkData}
    {server : Server.System D} (hi : s.Delivering f chunks)
    (hagreed : ∀ chunk ∈ chunks, f.Agreed chunk) (hb : s.inbox x = some b)
    (hdata : f.parse b = some data)
    (h : Server.step r s.server (.thread x (.deliver io data)) = some server)
    (hio : io.directories = true ∧ io.patch = none ∧
      Unobstructed r s.server.world.fs data.fileId data.index) :
    ({ s with server, inbox := Function.update s.inbox x none } : Relay D).Delivering f chunks := by
  have hother : ∀ y, y ≠ x → server.handlers y = s.server.handlers y := fun y hy =>
    Server.handlers_step_of_ne h fun he => hy (Option.some.inj he).symm
  refine ⟨hi.streamed, hi.alone, hi.todo, hi.draws, fun y c hc => ?_, fun y hy => ?_,
    hi.completions.mono fun chunk h => h.mono (fun _ h => h) fun y hmem hy => .inr ?_⟩
  · dsimp only at hc
    by_cases hxy : y = x
    · rw [hxy, Function.update_self] at hc
      cases hc
    · exact hi.received y c (by rwa [Function.update_of_ne hxy] at hc)
  · dsimp only at hy ⊢
    by_cases hxy : y = x
    · rw [hxy, Function.update_self] at hy
      exact absurd rfl hy
    · rw [hother y hxy]
      exact hi.idle y (by rwa [Function.update_of_ne hxy] at hy)
  · unfold Underway at hy ⊢
    dsimp only
    by_cases hxy : y = x
    · subst hxy
      obtain ⟨-, hsent⟩ | ⟨hnone, -⟩ := hy
      · refine .inr ⟨Function.update_self .., ?_⟩
        have hc := hagreed chunk hmem
        have hpre := hi.received y b hb
        rw [hsent] at hpre
        have hwhole : b = serialize chunk := by
          by_contra hne
          rw [hc.cut b hpre hne] at hdata
          cases hdata
        have hchunk : data = f.data chunk := by
          have := hc.whole []
          rw [List.append_nil, ← hwhole, hdata] at this
          exact Option.some.inj this
        have hwritten := Server.writePatch_granted hio.1 hio.2.1 (hchunk ▸ hc.verified) hio.2.2
        have hidle := hi.idle y (by rw [hb]; nofun)
        have hadm : data.Admitted := hchunk ▸ hc.admitted
        obtain ⟨⟨handler, world⟩, hstep, rfl⟩ := Option.map_eq_some_iff.mp h
        rw [hidle] at hstep
        simp only [Handler.step, if_pos hadm] at hstep
        generalize Server.writePatch r io s.server.world.fs data = w at hwritten hstep
        obtain ⟨ok, fs⟩ := w
        cases hwritten
        cases hstep
        exact (Function.update_self ..).trans (by rw [hchunk])
      · rw [hb] at hnone
        cases hnone
    · rw [Function.update_of_ne hxy, hother y hxy]
      exact hy

theorem entered_register {t : Nat} {io : StoreIo} {now : Int} {data : ChunkData}
    (h : s.server.handlers t = .storing data) (hio : io.allocates = true) :
    entered r s.server (.thread t (.register io now)) = [data] := by
  simp only [entered, h, registerChunk, if_pos hio]

/-- A handler that has a chunk to enter does nothing else. -/
theorem Delivering.server {a : Server.Action} {server : Server.System D}
    (hi : s.Delivering f chunks) (ha : ∀ t io chunk, a ≠ .thread t (.deliver io chunk))
    (h : Server.step r s.server a = some server)
    (hio : ∀ t io now, a = .thread t (.register io now) → io.allocates = true) :
    ({ s with server, stored := s.stored ++ entered r s.server a } : Relay D).Delivering f
      chunks := by
  refine ⟨hi.streamed, hi.alone, hi.todo, hi.draws, hi.received, fun x hx => ?_,
    hi.completions.mono fun chunk h' => h'.mono (fun d hd => List.mem_append_left _ hd) fun x _ hx => ?_⟩
  · have hidle := hi.idle x hx
    exact (Server.handlers_step_of_ne h (handlers_of_idle h ha hidle)).trans hidle
  · obtain hx | ⟨hnone, hstoring⟩ := hx
    · exact .inr (.inl hx)
    · by_cases hself : a.handler = some x
      · cases a with
        | thread t act =>
          cases hself
          obtain ⟨⟨handler, world⟩, hstep, -⟩ := Option.map_eq_some_iff.mp h
          rw [hstoring] at hstep
          cases act with
          | register io now =>
            left
            rw [entered_register hstoring (hio x io now rfl)]
            exact List.mem_append_right _ (List.mem_singleton_self _)
          | _ => cases hstep
        | _ => cases hself
      · exact .inr (.inr ⟨hnone, (Server.handlers_step_of_ne h hself).trans hstoring⟩)

theorem delivering_of_step {a : RelayAction} (hi : s.Delivering f chunks)
    (hagreed : ∀ chunk ∈ chunks, f.Agreed chunk) (hg : Delivers r f chunks s a)
    (h : step o r f s a = some s') : s'.Delivering f chunks := by
  cases a with
  | produce =>
    simp only [step] at h
    split at h
    · cases h
    · next chunk todo htodo =>
      obtain ⟨client, hstep, rfl⟩ := Option.map_eq_some_iff.mp h
      have hmem : ∀ c ∈ chunk :: todo, c ∈ chunks := htodo ▸ hi.todo
      refine hi.client hagreed (Client.Sender.moves_of_step hstep) nofun nofun (fun c hc => ?_)
        fun c hc => hmem c (List.mem_cons_of_mem _ hc)
      cases hc
      exact hmem chunk List.mem_cons_self
  | client a =>
    obtain ⟨hpush, client, hstep, rfl⟩ := client_of_step h
    exact hi.client hagreed (Client.Sender.moves_of_step hstep) (hg.fresh a rfl)
      (fun i t others p x rest => hg.heard a i t others p x rest rfl)
      (fun chunk ha => absurd ha (hpush chunk)) hi.todo
  | receive x n =>
    obtain ⟨b, hb, h⟩ := Option.bind_eq_some_iff.mp h
    split at h
    · cases h
      refine hi.inbox hb (fun c hc => ?_) nofun
      cases hc
      exact List.take_prefix _ _
    · cases h
  | deliver x io =>
    simp only [step] at h
    split at h
    · obtain ⟨data, hdata, h⟩ := Option.bind_eq_some_iff.mp h
      obtain ⟨b, hb, hdata⟩ := Option.bind_eq_some_iff.mp hdata
      obtain ⟨server, hstep, rfl⟩ := Option.map_eq_some_iff.mp h
      exact hi.deliver hagreed hb hdata hstep (hg.granted x io b data rfl hb hdata)
    · cases h
  | hangUp x =>
    obtain ⟨b, hb, h⟩ := Option.bind_eq_some_iff.mp h
    split at h
    · next hend =>
      cases h
      refine hi.inbox hb nofun fun _ chunk hmem hsent => ?_
      have hwhole := (hagreed chunk hmem).whole []
      rw [List.append_nil, ← hsent, ← hend.2.1, hend.1.2.2] at hwhole
      cases hwhole
    · cases h
  | reset x =>
    obtain ⟨b, hb, h⟩ := Option.bind_eq_some_iff.mp h
    split at h
    · cases h
      exact hi.inbox hb nofun fun _ => hg.kept x rfl
    · cases h
  | server a =>
    obtain ⟨ha, server, hstep, rfl⟩ := server_of_step h
    exact hi.server ha hstep fun t io now ha => hg.registered t io now (by rw [ha])

/-- Where nothing can move any more, no chunk is left under way. -/
theorem stored_of_stuck {chunk : FileChunk} (hi : s.Delivering f chunks)
    (hagreed : ∀ chunk ∈ chunks, f.Agreed chunk)
    (hstuck : Stuck (step o r f) RelayAction.Internal s) (h : s.Arrives f chunks chunk) :
    f.data chunk ∈ s.stored := by
  obtain ⟨hmem, h | ⟨x, h⟩⟩ := h
  · exact h
  exfalso
  have hc := hagreed chunk hmem
  obtain ⟨hx, hsent⟩ | ⟨-, hstoring⟩ := h
  · obtain ⟨b, hb⟩ := Option.ne_none_iff_exists'.mp hx
    have hne : s.client.net.sent x ≠ [] := by
      rw [hsent]
      exact Client.serialize_ne_nil chunk
    have hsocket : x < s.client.net.sockets := by
      by_contra hge
      exact hne (hi.streamed.unsent x (Nat.le_of_not_lt hge))
    have hpre := hi.received x b hb
    by_cases hall : b = s.client.net.sent x
    · have hparse : f.parse b = some (f.data chunk) := by
        have := hc.whole []
        rwa [List.append_nil, ← hsent, ← hall] at this
      have hnone := hstuck (.deliver x {}) trivial
      simp only [step, if_pos hsocket, hb, Option.bind_some, hparse, Server.step,
        hi.idle x hx, Handler.step, if_pos hc.admitted] at hnone
      split at hnone <;> cases hnone
    · have hlen : b.length < (s.client.net.sent x).length := by
        refine Nat.lt_of_le_of_ne hpre.length_le fun he => hall (hpre.eq_of_length he)
      have hcut : f.parse b = none := hc.cut b (hsent ▸ hpre) (hsent ▸ hall)
      have hnone := hstuck (.receive x ((s.client.net.sent x).length - b.length)) trivial
      simp only [step, hb, Option.bind_some] at hnone
      rw [if_pos ⟨⟨hb, hsocket, hcut⟩, by omega, by omega⟩] at hnone
      cases hnone
  · have hnone := hstuck (.server (.thread x (.register {} 0))) trivial
    simp only [step, Server.step, hstoring, Handler.step, registerChunk, if_true,
      Option.map_eq_none_iff] at hnone
    split at hnone <;> cases hnone

/-- Over every run in which each socket carries one chunk that its handler hears to the end and
is able to store, every chunk reported as sent is stored once nothing can move any more. -/
theorem delivered {w : Server.World} (hagreed : ∀ chunk ∈ chunks, f.Agreed chunk)
    (h : Reach (step o r f) (Delivers r f chunks) (start chunks w) s)
    (hstuck : Stuck (step o r f) RelayAction.Internal s) :
    ∀ p, .sent p ∈ s.client.reports → f.data p.chunk ∈ s.stored := by
  have hi : s.Delivering f chunks :=
    h.invariant (delivering_start f chunks w) fun _ _ _ hi hg hs =>
      delivering_of_step hi hagreed hg hs
  intro p hp
  exact stored_of_stuck hi hagreed hstuck (hi.completions.reported p hp)

/-- A socket that does not exist yet has an idle handler. -/
theorem idle_of_unused {w : Server.World} (h : Reachable (step o r f) (start chunks w) s) :
    ∀ x, s.client.net.sockets ≤ x → s.server.handlers x = .idle := by
  refine h.invariant (P := fun s => ∀ x, s.client.net.sockets ≤ x → s.server.handlers x = .idle)
    (fun _ _ => rfl) fun s a s' hi _ hs x hx => ?_
  have hclient : ∀ {a client}, Sender.step o s.client a = some client →
      client.net.sockets ≤ x → s.server.handlers x = .idle := fun hstep hx =>
    hi x (Nat.le_trans (Client.Sender.moves_of_step hstep).sockets_le hx)
  cases a with
  | produce =>
    simp only [step] at hs
    split at hs
    · cases hs
    · obtain ⟨client, hstep, rfl⟩ := Option.map_eq_some_iff.mp hs
      exact hclient hstep hx
  | client a =>
    obtain ⟨-, client, hstep, rfl⟩ := client_of_step hs
    exact hclient hstep hx
  | receive | hangUp | reset =>
    obtain ⟨b, -, hs⟩ := Option.bind_eq_some_iff.mp hs
    split at hs
    · cases hs
      exact hi x hx
    · cases hs
  | deliver y io =>
    simp only [step] at hs
    split at hs
    · next hy =>
      obtain ⟨data, -, hs⟩ := Option.bind_eq_some_iff.mp hs
      obtain ⟨server, hstep, rfl⟩ := Option.map_eq_some_iff.mp hs
      rw [← hi x hx]
      apply Server.handlers_step_of_ne hstep
      intro he
      have hxy : y = x := Option.some.inj he
      exact Nat.not_le_of_lt hy (hxy ▸ hx)
    · cases hs
  | server a =>
    obtain ⟨ha, server, hstep, rfl⟩ := server_of_step hs
    have hidle := hi x hx
    exact (Server.handlers_step_of_ne hstep (handlers_of_idle hstep ha hidle)).trans hidle

/-- The worker waits for a chunk, and everything else has come to rest. -/
structure AtRest (o : SenderOptions) (s : Relay D) : Prop where
  todo : s.todo = []
  client : s.client.AtRest o
  inbox : ∀ x < s.client.net.sockets, s.inbox x = none
  handlers : ∀ x, s.server.handlers x = .idle

theorem AtRest.stuck (h : s.AtRest o) : Stuck (step o r f) RelayAction.Internal s := by
  have hreads : ∀ x b, s.inbox x = some b → ¬s.Reads f x b := by
    intro x b hb hreads
    rw [h.inbox x hreads.2.1] at hb
    cases hb
  intro a ha
  apply Option.eq_none_iff_forall_ne_some.mpr
  intro s' hs
  cases a with
  | produce =>
    simp only [step, h.todo] at hs
    cases hs
  | client a =>
    obtain ⟨-, client, hstep, -⟩ := client_of_step hs
    rw [h.client.stuck a ha] at hstep
    cases hstep
  | receive x n | hangUp x =>
    obtain ⟨b, hb, hs⟩ := Option.bind_eq_some_iff.mp hs
    rw [if_neg fun hr => hreads x b hb hr.1] at hs
    cases hs
  | deliver x io =>
    simp only [step] at hs
    split at hs
    · next hx =>
      rw [h.inbox x hx] at hs
      cases hs
    · cases hs
  | reset => exact ha
  | server a =>
    obtain ⟨hdeliver, server, hstep, -⟩ := server_of_step hs
    cases a with
    | thread t act => exact handlers_of_idle hstep hdeliver (h.handlers t) rfl
    | _ => exact ha

/-- Two chunks of one file. -/
def firstChunk : FileChunk := ⟨⟨ascii "f", 4, 0⟩, ascii "0", 0, 2, ascii "hi"⟩
def secondChunk : FileChunk := { firstChunk with index := 1, payload := ascii "ho" }

def sampleData (chunk : FileChunk) : ChunkData :=
  .sealed (ascii "x") (ascii "n") chunk.index chunk.totalChunks 60 chunk.payload

/-- The server knows the two chunks by what they look like on the wire. -/
def sampleFormat : Format where
  parse b := ([firstChunk, secondChunk].find? fun chunk =>
    serialize chunk = b.take (serialize firstChunk).length).map sampleData
  data := sampleData

theorem agreed_sample : ∀ chunk ∈ [firstChunk, secondChunk], sampleFormat.Agreed chunk := by
  have hlen : ∀ chunk ∈ [firstChunk, secondChunk],
      (serialize chunk).length = (serialize firstChunk).length := by
    decide +kernel
  have hself : ∀ chunk ∈ [firstChunk, secondChunk],
      ([firstChunk, secondChunk].find? fun c => serialize c = serialize chunk) = some chunk := by
    decide +kernel
  intro chunk hmem
  refine ⟨fun rest => ?_, fun b hpre hne => ?_, ?_, ?_⟩
  · simp only [sampleFormat, ← hlen chunk hmem, List.take_left', hself chunk hmem,
      Option.map_some]
  · have hlt : b.length < (serialize chunk).length :=
      Nat.lt_of_le_of_ne hpre.length_le fun he => hne (hpre.eq_of_length he)
    have htake : b.take (serialize firstChunk).length = b := by
      rw [hlen chunk hmem] at hlt
      exact List.take_of_length_le (Nat.le_of_lt hlt)
    simp only [sampleFormat, htake, Option.map_eq_none_iff, List.find?_eq_none, decide_eq_true_eq]
    intro c hc heq
    have := hlen c hc
    have := hlen chunk hmem
    rw [heq] at *
    omega
  · revert chunk
    decide +kernel
  · exact Server.verifyCrc_sealed ..

/-- A server with its directories and no file. -/
def sampleWorld : Server.World := ⟨Server.sampleFiles, ∅, 60⟩

/-- The steps of a run that sends one chunk over the first connection and stores it. -/
def sendsFirst : List RelayAction :=
  [.client (.work true), .client (.work true), .client (.work true), .client (.work true),
    .client (.work true), .client (.work true), .client (.work true), .client (.work true),
    .client (.handle 0), .client (.write 0 (serialize firstChunk).length),
    .receive 0 (serialize firstChunk).length, .deliver 0 {},
    .server (.thread 0 (.register {} 0)), .client (.handle 0), .client (.handle 0),
    .client (.handle 0), .client (.handle 0)]

/-- The rest state as far as it can be computed. -/
def restsAt (s : Relay D) (o : SenderOptions) (n : Nat) : Bool :=
  s.todo.isEmpty && s.client.worker = .popping && s.client.queue.isEmpty && !s.client.closed &&
    s.client.stopper = .idle && s.client.net.tasks.isEmpty &&
    (List.range o.slots).all (fun c => !(s.client.net.conns c).runnerStop) &&
    s.client.net.sockets = n &&
    (List.range n).all fun x => s.inbox x = none && s.server.handlers x matches .idle

theorem atRest_of_restsAt {w : Server.World} {n : Nat}
    (h : Reachable (step o r f) (start chunks w) s) (hrest : s.restsAt o n = true) :
    s.AtRest o := by
  simp only [restsAt, Bool.and_eq_true, List.isEmpty_iff, Bool.not_eq_true', decide_eq_true_eq,
    List.all_eq_true, List.mem_range] at hrest
  obtain ⟨⟨⟨⟨⟨⟨⟨⟨htodo, hw⟩, hq⟩, hclosed⟩, hst⟩, htasks⟩, hrunner⟩, hsockets⟩, hsocket⟩ := hrest
  refine ⟨htodo, ⟨hw, hq, hclosed, hst, htasks, hrunner⟩, fun x hx => ?_, fun x => ?_⟩
  · exact (hsocket x (hsockets ▸ hx)).1
  · by_cases hx : x < n
    · have := (hsocket x hx).2
      cases hh : s.server.handlers x with
      | idle => rfl
      | _ =>
        rw [hh] at this
        cases this
    · exact idle_of_unused h x (by omega)

/-- A step of a run in which one chunk at a time is under way, as far as it can be computed. -/
def steady (r : Root) (f : Format) (s : Relay D) : RelayAction → Bool
  | .client _ => s.client.net.tasks.length ≤ 1 && s.client.net.tasks.all fun t =>
      match t.phase with
      | .posted _ => match (s.client.net.conns t.conn).socket with
        | some x => s.client.net.sent x = []
        | none => true
      | .writing _ x _ => (s.inbox x).isSome
      | _ => true
  | .deliver x io => io.directories && io.patch.isNone &&
      match (s.inbox x).bind f.parse with
      | some chunk => Unobstructed r s.server.world.fs chunk.fileId chunk.index
      | none => true
  | .server (.thread _ (.register io _)) => io.allocates
  | .reset _ => false
  | _ => true

theorem delivers_of_steady (s : Relay D) (a : RelayAction) (h : s.steady r f a = true) :
    Delivers r f chunks s a := by
  have htasks : ∀ ca, a = .client ca → ∀ i t others, Pool.take s.client.net.tasks i = some (t, others) →
      others = [] ∧ (∀ p x, t.phase = .posted p → (s.client.net.conns t.conn).socket = some x →
        s.client.net.sent x = []) ∧
        ∀ p x rest, t.phase = .writing p x rest → s.inbox x ≠ none := by
    intro ca ha i t others ht
    subst ha
    simp only [steady, Bool.and_eq_true, decide_eq_true_eq, List.all_eq_true] at h
    have hlen := (Pool.perm_of_take ht).length_eq
    rw [List.length_cons] at hlen
    have hcheck := h.2 t (Pool.mem_of_take ht)
    refine ⟨List.eq_nil_of_length_eq_zero (by omega), fun p x hp hx => ?_, fun p x rest hp => ?_⟩
    · simpa only [hp, hx, decide_eq_true_eq] using hcheck
    · rw [hp] at hcheck
      exact Option.isSome_iff_ne_none.mp hcheck
  constructor
  · intro ca ha i t others p x _ ht hp hx
    obtain ⟨hnil, hfresh, -⟩ := htasks ca ha i t others ht
    refine ⟨hfresh p x hp hx, fun t' ht' => ?_⟩
    rw [hnil] at ht'
    cases ht'
  · intro ca i t others p x rest ha _ ht hp
    obtain ⟨-, -, hheard⟩ := htasks ca ha i t others ht
    exact hheard p x rest hp
  · intro x ha
    subst ha
    cases h
  · intro x io b chunk ha hb hparse
    subst ha
    simpa [steady, hb, hparse, and_assoc] using h
  · intro t io now ha
    subst ha
    exact h

/-- One chunk is sent over the only connection, received and stored. -/
theorem delivered_sample : ∃ s : Relay RawFrame.decoder,
    .sent ⟨firstChunk, 1⟩ ∈ s.client.reports ∧ sampleData firstChunk ∈ s.stored := by
  let labels := .produce :: sendsFirst ++ [.client (.work true), .client (.work true)]
  have hrun : (runIf (step Client.Sender.sampleOptions .sample sampleFormat)
      (steady .sample sampleFormat) (start [firstChunk] sampleWorld : Relay RawFrame.decoder)
      labels).any (fun s => s.restsAt Client.Sender.sampleOptions 1 &&
        (.sent ⟨firstChunk, 1⟩ ∈ s.client.reports : Bool)) = true := by
    decide +kernel
  obtain ⟨s, hs, hend⟩ := (Option.any_eq_true ..).mp hrun
  simp only [Bool.and_eq_true, decide_eq_true_eq] at hend
  have hstuck := (atRest_of_restsAt (.of_run (run_of_runIf hs)) hend.1).stuck
    (r := .sample) (f := sampleFormat)
  have hagreed : ∀ chunk ∈ [firstChunk], sampleFormat.Agreed chunk := fun chunk hc =>
    agreed_sample chunk (List.mem_cons.mpr (.inl (List.mem_singleton.mp hc)))
  exact ⟨s, hend.2, delivered hagreed (.of_runIf delivers_of_steady hs) hstuck _ hend.2⟩

/-- The second chunk is sent over the socket of the first one. Its write completes, but nobody
reads the socket any more. -/
theorem delivered_fails : ¬ ∀ (D : Decoder) (o : SenderOptions) (r : Root) (f : Format)
    (chunks : List FileChunk) (w : Server.World) (s : Relay D),
    (∀ chunk ∈ chunks, f.Agreed chunk) → Reachable (step o r f) (start chunks w) s →
      Stuck (step o r f) RelayAction.Internal s →
        ∀ p, .sent p ∈ s.client.reports → f.data p.chunk ∈ s.stored := by
  intro hclaim
  let labels := .produce :: .produce :: sendsFirst ++
    [.client (.work true), .client (.work true), .client (.work true), .client (.work true),
      .client (.work true), .client (.work true), .client (.work true), .client (.handle 0),
      .client (.write 0 (serialize secondChunk).length), .client (.handle 0),
      .client (.handle 0), .client (.handle 0), .client (.handle 0), .client (.work true),
      .client (.work true)]
  have hrun : (run (step Client.Sender.sampleOptions .sample sampleFormat)
      (start [firstChunk, secondChunk] sampleWorld : Relay RawFrame.decoder) labels).any
      (fun s => s.restsAt Client.Sender.sampleOptions 1 &&
        (.sent ⟨secondChunk, 1⟩ ∈ s.client.reports : Bool) &&
        s.stored.all fun data => data.index = 0) = true := by
    decide +kernel
  obtain ⟨s, hs, hend⟩ := (Option.any_eq_true ..).mp hrun
  simp only [Bool.and_eq_true, decide_eq_true_eq, List.all_eq_true] at hend
  have hstuck := (atRest_of_restsAt (.of_run hs) hend.1.1).stuck (r := .sample) (f := sampleFormat)
  have hstored := hclaim _ _ _ _ _ _ s agreed_sample (.of_run hs) hstuck _ hend.1.2
  exact absurd (hend.2 _ hstored) (by decide)

end Relay

end SuperVoice
