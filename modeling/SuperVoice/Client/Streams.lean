import SuperVoice.Client.Shutdown
import Mathlib.Data.List.Infix

/-! What the connections send. The bytes on a socket are whole chunks and at most one cut chunk
behind them, as long as no write begins on a socket where another one is outstanding. -/
namespace SuperVoice.Client
open Bytes Transition
variable {o : SenderOptions}

/-- An `async_write` on socket `x` is outstanding. -/
def Task.writesOn (x : Nat) (t : Task) : Bool :=
  match t.phase with
  | .writing _ y _ => y == x
  | _ => false

theorem Task.writesOn_eq_true {x : Nat} {t : Task} :
    t.writesOn x = true ↔ ∃ p rest, t.phase = .writing p x rest := by
  obtain ⟨c, phase⟩ := t
  cases phase with
  | writing p y rest =>
    simp only [writesOn, beq_iff_eq, Phase.writing.injEq]
    constructor
    · intro h
      exact ⟨p, rest, rfl, h, rfl⟩
    · intro ⟨_, _, _, h, _⟩
      exact h
  | _ => simp [writesOn]

/-- A write that has been aborted is not outstanding any more. -/
theorem Task.writesOn_abort {x c : Nat} {t : Task} (h : (t.abort c).writesOn x = true) :
    t.writesOn x = true ∧ t.conn ≠ c ∧ t.abort c = t := by
  obtain ⟨c', phase⟩ := t
  unfold Task.abort at h ⊢
  split at h
  · cases phase <;> cases h
  · next hne => exact ⟨h, hne, if_neg hne⟩

/-- What socket `x` has sent is the given chunks and a cut behind them, where the outstanding
write goes on. -/
structure Sends (n : Net) (x : Nat) (chunks : List FileChunk) (cut : Bytes) : Prop where
  sent : n.sent x = chunks.flatMap serialize ++ cut
  short : ∃ chunk, cut <+: serialize chunk
  writing : ∀ t ∈ n.tasks, ∀ p rest, t.phase = .writing p x rest →
    (n.conns t.conn).broken = false → cut ++ rest = serialize p.chunk
  idle : ∀ c, (n.conns c).socket = some x → (n.conns c).broken = false →
    (∀ t ∈ n.tasks, t.writesOn x = false) → cut = []

/-- The invariant behind the byte streams. -/
structure Streamed (n : Net) : Prop where
  sole : ∀ x, n.tasks.countP (Task.writesOn x) ≤ 1
  owner : ∀ t ∈ n.tasks, ∀ x, t.writesOn x = true → (n.conns t.conn).socket = some x
  fresh : ∀ c x, (n.conns c).socket = some x → x < n.sockets
  distinct : ∀ c c' x, (n.conns c).socket = some x → (n.conns c').socket = some x → c = c'
  unsent : ∀ x, n.sockets ≤ x → n.sent x = []
  stream : ∀ x, ∃ chunks cut, Sends n x chunks cut

namespace Streamed
variable {n : Net} {t : Task} {c x : Nat}

theorem start : Streamed Sender.start.net where
  sole _ := Nat.zero_le 1
  owner _ h := nomatch h
  fresh _ _ h := nomatch h
  distinct _ _ _ h := nomatch h
  unsent _ _ := rfl
  stream _ := ⟨[], [], rfl, ⟨⟨⟨[], 0, 0⟩, [], 0, 0, []⟩, List.nil_prefix⟩, nofun, fun _ _ _ _ => rfl⟩

/-- A task is taken out whose write, if it writes, is to a socket that takes no more bytes. -/
theorem takeOut (hi : Streamed n) {others : List Task} (hperm : n.tasks.Perm (t :: others))
    (hend : ∀ x, t.writesOn x = true → (n.conns t.conn).broken = true) :
    Streamed { n with tasks := others } where
  sole x := by
    have hle := hi.sole x
    rw [hperm.countP_eq, List.countP_cons] at hle
    exact Nat.le_trans (Nat.le_add_right _ _) hle
  owner t' ht' := hi.owner t' (hperm.mem_iff.mpr (List.mem_cons_of_mem t ht'))
  fresh := hi.fresh
  distinct := hi.distinct
  unsent := hi.unsent
  stream x := by
    obtain ⟨chunks, cut, hs⟩ := hi.stream x
    refine ⟨chunks, cut, hs.sent, hs.short, fun t' ht' => ?_, fun c hc hsound hidle => ?_⟩
    · exact hs.writing t' (hperm.mem_iff.mpr (List.mem_cons_of_mem t ht'))
    · apply hs.idle c hc hsound
      intro t' ht'
      cases List.mem_cons.mp (hperm.mem_iff.mp ht') with
      | inl h =>
        subst h
        apply Bool.eq_false_iff.mpr
        intro hw
        have hbroken := hend x hw
        rw [hi.distinct _ _ x (hi.owner t' ht' x hw) hc, hsound] at hbroken
        cases hbroken
      | inr h => exact hidle t' h

theorem remove (hi : Streamed n) {others : List Task} (hperm : n.tasks.Perm (t :: others))
    (ht : ∀ x, t.writesOn x = false) : Streamed { n with tasks := others } :=
  hi.takeOut hperm fun x hw => by
    rw [ht x] at hw
    cases hw

/-- A task that does not write is put back. -/
theorem put (hi : Streamed n) (ht : ∀ x, t.writesOn x = false) : Streamed (n.put t) where
  sole x := by
    rw [Net.put_tasks, List.countP_cons_of_neg (by rw [ht x]; decide)]
    exact hi.sole x
  owner t' ht' y hw := by
    cases List.mem_cons.mp ht' with
    | inl h =>
      rw [h, ht y] at hw
      cases hw
    | inr h => exact hi.owner t' h y hw
  fresh := hi.fresh
  distinct := hi.distinct
  unsent := hi.unsent
  stream x := by
    obtain ⟨chunks, cut, hs⟩ := hi.stream x
    refine ⟨chunks, cut, hs.sent, hs.short, fun t' ht' p rest hp => ?_, fun c hc hb hidle => ?_⟩
    · cases List.mem_cons.mp ht' with
      | inl h =>
        have := Task.writesOn_eq_true.mpr ⟨p, rest, hp⟩
        rw [h, ht x] at this
        cases this
      | inr h => exact hs.writing t' h p rest hp
    · exact hs.idle c hc hb fun t' ht' => hidle t' (List.mem_cons_of_mem t ht')

/-- A write begins on a socket without another one. -/
theorem begin (hi : Streamed n) {p : PendingChunk} (hx : (n.conns c).socket = some x)
    (hsole : ∀ t ∈ n.tasks, t.writesOn x = false) :
    Streamed (n.put ⟨c, .writing p x (serialize p.chunk)⟩) where
  sole y := by
    by_cases hy : y = x
    · subst hy
      exact Pool.countP_cons_le_one hsole
    · have hneg : ¬(Task.writesOn y ⟨c, .writing p x (serialize p.chunk)⟩ = true) := by
        simpa [Task.writesOn] using fun h : x = y => hy h.symm
      rw [Net.put_tasks, List.countP_cons_of_neg hneg]
      exact hi.sole y
  owner t ht y hw := by
    cases List.mem_cons.mp ht with
    | inl h =>
      subst h
      have : x = y := by simpa [Task.writesOn] using hw
      exact this ▸ hx
    | inr h => exact hi.owner t h y hw
  fresh := hi.fresh
  distinct := hi.distinct
  unsent := hi.unsent
  stream y := by
    obtain ⟨chunks, cut, hs⟩ := hi.stream y
    refine ⟨chunks, cut, hs.sent, hs.short, fun t ht q rest hp hb => ?_, fun c' hc hb hidle => ?_⟩
    · cases List.mem_cons.mp ht with
      | inl h =>
        subst h
        obtain ⟨rfl, rfl, rfl⟩ := Phase.writing.inj hp
        rw [hs.idle c hx hb hsole, List.nil_append]
      | inr h => exact hs.writing t h q rest hp hb
    · exact hs.idle c' hc hb fun t ht => hidle t (List.mem_cons_of_mem _ ht)

section Transmit
variable {p : PendingChunk} {b rest : Bytes} {others : List Task} {t' : Task}
  {chunks : List FileChunk} {cut : Bytes}

/-- The socket of the write: the cut grows, or it becomes a chunk. -/
theorem sends_transmit (hs : Sends n x chunks cut)
    (hperm : n.tasks.Perm (⟨c, .writing p x (b ++ rest)⟩ :: others))
    (hsound : (n.conns c).broken = false) (hsole : ∀ t ∈ others, t.writesOn x = false)
    (ht' : t' = ⟨c, .writing p x rest⟩ ∨ (rest = [] ∧ t' = ⟨c, .completed p true⟩)) :
    ∃ chunks cut, Sends (({ n with tasks := others }.transmit x b).put t') x chunks cut := by
  have hserial : cut ++ b ++ rest = serialize p.chunk := by
    rw [List.append_assoc]
    exact hs.writing _ (hperm.mem_iff.mpr List.mem_cons_self) p _ rfl hsound
  have hsent : (({ n with tasks := others }.transmit x b).put t').sent x =
      chunks.flatMap serialize ++ (cut ++ b) := by
    show Function.update _ _ _ x = _
    rw [Function.update_self, hs.sent, List.append_assoc]
  obtain rfl | ⟨rfl, rfl⟩ := ht'
  · refine ⟨chunks, cut ++ b, hsent, ⟨p.chunk, rest, hserial⟩, fun t ht q r hp hb => ?_,
      fun _ _ _ hidle => ?_⟩
    · cases List.mem_cons.mp ht with
      | inl h =>
        rw [h] at hp
        obtain ⟨rfl, -, rfl⟩ := Phase.writing.inj hp
        exact hserial
      | inr h =>
        have hw := Task.writesOn_eq_true.mpr ⟨q, r, hp⟩
        rw [hsole t h] at hw
        cases hw
    · have hw := hidle _ List.mem_cons_self
      rw [Task.writesOn_eq_true.mpr ⟨p, rest, rfl⟩] at hw
      cases hw
  · refine ⟨chunks ++ [p.chunk], [], ?_, ⟨p.chunk, List.nil_prefix⟩, fun t ht q r hp hb => ?_,
      fun _ _ _ _ => rfl⟩
    · rw [List.append_nil] at hserial
      rw [hsent, hserial]
      simp
    · have hw := Task.writesOn_eq_true.mpr ⟨q, r, hp⟩
      cases List.mem_cons.mp ht with
      | inl h =>
        rw [h] at hw
        cases hw
      | inr h =>
        rw [hsole t h] at hw
        cases hw

/-- The other sockets. -/
theorem sends_transmit_of_ne {y : Nat} (hs : Sends n y chunks cut) (hy : y ≠ x)
    (hperm : n.tasks.Perm (⟨c, .writing p x (b ++ rest)⟩ :: others))
    (hnew : t'.writesOn y = false) :
    Sends (({ n with tasks := others }.transmit x b).put t') y chunks cut where
  sent := by
    show Function.update _ _ _ y = _
    rw [Function.update_of_ne hy]
    exact hs.sent
  short := hs.short
  writing := by
    intro t ht q r hp hb
    cases List.mem_cons.mp ht with
    | inl h =>
      have hw := Task.writesOn_eq_true.mpr ⟨q, r, hp⟩
      rw [h, hnew] at hw
      cases hw
    | inr h => exact hs.writing t (hperm.mem_iff.mpr (List.mem_cons_of_mem _ h)) q r hp hb
  idle := by
    intro c' hc hb hidle
    apply hs.idle c' hc hb
    intro t ht
    cases List.mem_cons.mp (hperm.mem_iff.mp ht) with
    | inl h =>
      rw [h, Task.writesOn]
      exact beq_false_of_ne hy.symm
    | inr h => exact hidle t (List.mem_cons_of_mem _ h)

/-- The outstanding write gets bytes off, and with the last of them it completes. -/
theorem transmit (hi : Streamed n)
    (hperm : n.tasks.Perm (⟨c, .writing p x (b ++ rest)⟩ :: others))
    (hsound : (n.conns c).broken = false)
    (ht' : t' = ⟨c, .writing p x rest⟩ ∨ (rest = [] ∧ t' = ⟨c, .completed p true⟩)) :
    Streamed (({ n with tasks := others }.transmit x b).put t') := by
  have hwrites : Task.writesOn x ⟨c, .writing p x (b ++ rest)⟩ = true := by simp [Task.writesOn]
  have hnew : ∀ y, y ≠ x → t'.writesOn y = false := by
    intro y hy
    obtain rfl | ⟨-, rfl⟩ := ht'
    · exact beq_false_of_ne hy.symm
    · rfl
  have hsole : ∀ t ∈ others, t.writesOn x = false :=
    Pool.eq_false_of_countP_le_one (hi.sole x) hperm hwrites
  have howner : (n.conns c).socket = some x :=
    hi.owner _ (hperm.mem_iff.mpr List.mem_cons_self) x hwrites
  constructor
  · intro y
    by_cases hy : y = x
    · rw [hy]
      exact Pool.countP_cons_le_one hsole
    · have hle := hi.sole y
      rw [hperm.countP_eq, List.countP_cons] at hle
      rw [Net.put_tasks, List.countP_cons_of_neg (Bool.eq_false_iff.mp (hnew y hy))]
      exact Nat.le_trans (Nat.le_add_right _ _) hle
  · intro t ht y hw
    cases List.mem_cons.mp ht with
    | inl h =>
      have hc : t'.conn = c := by
        obtain ht' | ⟨-, ht'⟩ := ht' <;> rw [ht']
      have hy : y = x := by
        by_contra hne
        rw [h, hnew y hne] at hw
        cases hw
      rw [h, hy]
      show (n.conns _).socket = _
      rw [hc]
      exact howner
    | inr h => exact hi.owner t (hperm.mem_iff.mpr (List.mem_cons_of_mem _ h)) y hw
  · exact hi.fresh
  · exact hi.distinct
  · intro y hy
    have hne : y ≠ x := fun h => Nat.not_lt_of_le hy (h ▸ hi.fresh c x howner)
    show Function.update _ _ _ y = _
    rw [Function.update_of_ne hne]
    exact hi.unsent y hy
  · intro y
    obtain ⟨chunks, cut, hs⟩ := hi.stream y
    by_cases hy : y = x
    · subst hy
      exact sends_transmit hs hperm hsound hsole ht'
    · exact ⟨chunks, cut, sends_transmit_of_ne hs hy hperm (hnew y hy)⟩

end Transmit

/-- A connection changes, but not the socket it has. -/
theorem setConn (hi : Streamed n) {conn : Connection} (hx : conn.socket = (n.conns c).socket)
    (hb : conn.broken = true ∨ conn.broken = (n.conns c).broken) : Streamed (n.setConn c conn) := by
  have hsocket : ∀ c', ((n.setConn c conn).conns c').socket = (n.conns c').socket := by
    intro c'
    rw [Net.setConn_conns]
    by_cases hc : c' = c
    · subst hc
      rw [Function.update_self, hx]
    · rw [Function.update_of_ne hc]
  have hbroken : ∀ c', ((n.setConn c conn).conns c').broken = false →
      (n.conns c').broken = false := by
    intro c' h
    rw [Net.setConn_conns] at h
    by_cases hc : c' = c
    · subst hc
      rw [Function.update_self] at h
      cases hb with
      | inl hb =>
        rw [hb] at h
        cases h
      | inr hb => exact hb ▸ h
    · rw [Function.update_of_ne hc] at h
      exact h
  constructor
  · exact hi.sole
  · intro t ht y hw
    rw [hsocket]
    exact hi.owner t ht y hw
  · intro c' y hy
    rw [hsocket] at hy
    exact hi.fresh c' y hy
  · intro c' c'' y h h'
    rw [hsocket] at h h'
    exact hi.distinct c' c'' y h h'
  · exact hi.unsent
  · intro y
    obtain ⟨chunks, cut, hs⟩ := hi.stream y
    refine ⟨chunks, cut, hs.sent, hs.short, fun t ht q r hp hb => ?_, fun c' hc hb hidle => ?_⟩
    · exact hs.writing t ht q r hp (hbroken _ hb)
    · rw [hsocket] at hc
      exact hs.idle c' hc (hbroken c' hb) hidle

/-- The outstanding write fails. -/
theorem fail (hi : Streamed n) {p : PendingChunk} {rest : Bytes} {others : List Task}
    (hperm : n.tasks.Perm (⟨c, .writing p x rest⟩ :: others)) :
    Streamed (({ n with tasks := others }.sever c).put ⟨c, .completed p false⟩) := by
  have hsever : Streamed (n.sever c) := hi.setConn rfl (.inl rfl)
  refine (hsever.takeOut hperm fun _ _ => ?_).put fun _ => rfl
  rw [Net.sever_conns, Function.update_self]

theorem close_socket {n : Net} {c c' x : Nat} (h : ((n.close c).conns c').socket = some x) :
    c' ≠ c ∧ (n.close c).conns c' = n.conns c' := by
  rw [Net.close_conns] at h ⊢
  by_cases hc : c' = c
  · subst hc
    rw [Function.update_self, Connection.close, Connection.stopRunner] at h
    split at h <;> cases h
  · exact ⟨hc, Function.update_of_ne hc _ _⟩

theorem close (hi : Streamed n) (c : Nat) : Streamed (n.close c) := by
  have habort : ∀ t ∈ (n.close c).tasks, ∀ y, t.writesOn y = true →
      t ∈ n.tasks ∧ (n.close c).conns t.conn = n.conns t.conn := by
    intro t ht y hw
    obtain ⟨t', ht', rfl⟩ := Sender.mem_abort ht
    obtain ⟨-, hne, he⟩ := Task.writesOn_abort hw
    rw [he]
    exact ⟨ht', Function.update_of_ne hne _ _⟩
  constructor
  · intro x
    rw [Net.close_tasks, List.countP_map]
    refine Nat.le_trans (List.countP_mono_left fun t _ hw => ?_) (hi.sole x)
    exact (Task.writesOn_abort hw).1
  · intro t ht x hw
    obtain ⟨hmem, hconn⟩ := habort t ht x hw
    rw [hconn]
    exact hi.owner t hmem x hw
  · intro c' x h
    rw [(close_socket h).2] at h
    exact hi.fresh c' x h
  · intro c' c'' x h h'
    rw [(close_socket h).2] at h
    rw [(close_socket h').2] at h'
    exact hi.distinct c' c'' x h h'
  · exact hi.unsent
  · intro x
    obtain ⟨chunks, cut, hs⟩ := hi.stream x
    refine ⟨chunks, cut, hs.sent, hs.short, fun t ht p rest hp hb => ?_, fun c' hc hb hidle => ?_⟩
    · obtain ⟨hmem, hconn⟩ := habort t ht x (Task.writesOn_eq_true.mpr ⟨p, rest, hp⟩)
      rw [hconn] at hb
      exact hs.writing t hmem p rest hp hb
    · obtain ⟨hne, hconn⟩ := close_socket hc
      rw [hconn] at hc hb
      refine hs.idle c' hc hb fun t ht => Bool.eq_false_iff.mpr fun hw => ?_
      have hct : t.conn = c' := hi.distinct _ _ x (hi.owner t ht x hw) hc
      have hsame : t.abort c = t := if_neg (hct ▸ hne)
      have := hidle (t.abort c) (List.mem_map_of_mem ht)
      rw [hsame, hw] at this
      cases this

theorem emplace (hi : Streamed n) (hx : (n.conns c).socket = none) : Streamed (n.emplace c) := by
  have hother : ∀ c', c' ≠ c → (n.emplace c).conns c' = n.conns c' := fun c' hc =>
    Function.update_of_ne hc _ _
  have hself : ((n.emplace c).conns c).socket = some n.sockets := by
    rw [Net.emplace_conns, Function.update_self, Connection.emplace]
  have hne : ∀ t ∈ n.tasks, ∀ y, t.writesOn y = true → t.conn ≠ c := by
    intro t ht y hw hc
    have := hi.owner t ht y hw
    rw [hc, hx] at this
    cases this
  have hsocket : ∀ c' y, ((n.emplace c).conns c').socket = some y →
      (c' = c ∧ y = n.sockets) ∨ (c' ≠ c ∧ (n.conns c').socket = some y) := by
    intro c' y h
    by_cases hc : c' = c
    · rw [hc, hself] at h
      exact .inl ⟨hc, (Option.some.inj h).symm⟩
    · rw [hother c' hc] at h
      exact .inr ⟨hc, h⟩
  constructor
  · exact hi.sole
  · intro t ht y hw
    rw [hother _ (hne t ht y hw)]
    exact hi.owner t ht y hw
  · intro c' y h
    obtain ⟨-, rfl⟩ | ⟨-, h⟩ := hsocket c' y h
    · exact Nat.lt_succ_self _
    · exact Nat.lt_succ_of_lt (hi.fresh c' y h)
  · intro c' c'' y h h'
    obtain ⟨hc, hy⟩ | ⟨-, h⟩ := hsocket c' y h
    · obtain ⟨hc', -⟩ | ⟨-, h'⟩ := hsocket c'' y h'
      · rw [hc, hc']
      · exact absurd (hi.fresh c'' y h') (Nat.not_lt_of_le hy.ge)
    · obtain ⟨-, hy⟩ | ⟨-, h'⟩ := hsocket c'' y h'
      · exact absurd (hi.fresh c' y h) (Nat.not_lt_of_le hy.ge)
      · exact hi.distinct c' c'' y h h'
  · intro y hy
    exact hi.unsent y (Nat.le_of_succ_le hy)
  · intro y
    obtain ⟨chunks, cut, hs⟩ := hi.stream y
    refine ⟨chunks, cut, hs.sent, hs.short, fun t ht p rest hp hb => ?_, fun c' hc hb hidle => ?_⟩
    · rw [hother _ (hne t ht y (Task.writesOn_eq_true.mpr ⟨p, rest, hp⟩))] at hb
      exact hs.writing t ht p rest hp hb
    · obtain ⟨-, hy⟩ | ⟨hne', hc⟩ := hsocket c' y hc
      · have hnil := hs.sent
        rw [hi.unsent y hy.ge] at hnil
        exact (List.append_eq_nil_iff.mp hnil.symm).2
      · rw [hother c' hne'] at hb
        exact hs.idle c' hc hb hidle

end Streamed

namespace Sender

/-- A write begins on a socket only when no other write on it is outstanding. -/
def SoleWrite (s : Sender) (a : SenderAction) : Prop :=
  ∀ i t others p x, a.task = some i → Pool.take s.net.tasks i = some (t, others) →
    t.phase = .posted p → (s.net.conns t.conn).socket = some x →
      ∀ t' ∈ others, t'.writesOn x = false

theorem ensureRunner_socket {c conn : Connection} (h : c.ensureRunner = some conn) :
    conn.socket = c.socket ∧ conn.broken = c.broken := by
  unfold Connection.ensureRunner at h
  split at h
  · cases h
  · cases h
    unfold Connection.spawn Connection.reap
    constructor <;> split <;> split <;> rfl

theorem Dial.streamed {s s' : Sender} (h : Dial s s') (hi : Streamed s.net) :
    Streamed s'.net := by
  cases h with
  | emplaces hw hx => exact hi.emplace hx
  | connects hw hloop hopen he =>
    obtain ⟨hx, hb⟩ := ensureRunner_socket he
    exact hi.setConn hx (.inr hb)
  | reattempts =>
    refine (hi.close _).emplace (Option.eq_none_iff_forall_ne_some.mpr fun x hx => ?_)
    exact (Streamed.close_socket hx).1 rfl
  | givesUp => exact hi.close _
  | dispatches => exact hi.put fun _ => rfl
  | _ => exact hi

theorem Handled.streamed {s s' : Sender} {t : Task} {others : List Task} {i : Nat}
    (ht : Pool.take s.net.tasks i = some (t, others))
    (h : Handled o s t.conn { s.net with tasks := others } t.phase s') (hi : Streamed s.net)
    (hg : ∀ p x, t.phase = .posted p → (s.net.conns t.conn).socket = some x →
      ∀ t' ∈ others, t'.writesOn x = false) : Streamed s'.net := by
  have hperm := Pool.perm_of_take ht
  obtain ⟨c, phase⟩ := t
  dsimp only at h hg
  cases h with
  | refuses | succeeds => exact (hi.remove hperm fun _ => rfl).put fun _ => rfl
  | begins _ _ hx => exact (hi.remove hperm fun _ => rfl).begin hx (hg _ _ rfl hx)
  | closes => exact ((hi.remove hperm fun _ => rfl).close c).put fun _ => rfl
  | calls hk =>
    obtain ⟨-, -, -, -, hnet, -⟩ := hk.frame
    rw [hnet]
    exact (hi.remove hperm fun _ => rfl).put fun _ => rfl
  | ends hk =>
    obtain ⟨-, -, -, -, hnet, -⟩ := hk.frame
    rw [hnet]
    exact hi.remove hperm fun _ => rfl
  | @writes _ _ _ _ k rest _ hsound =>
    rw [← List.take_append_drop k rest] at hperm
    exact hi.transmit hperm hsound (.inl rfl)
  | @completes _ _ _ _ rest _ hsound =>
    rw [← List.append_nil rest] at hperm
    exact hi.transmit hperm hsound (.inr ⟨rfl, rfl⟩)
  | fails => exact hi.fail hperm

theorem Moves.streamed {s s' : Sender} {a : SenderAction} (h : Moves o s a s')
    (hi : Streamed s.net) (hg : SoleWrite s a) : Streamed s'.net := by
  cases h with
  | control h =>
    cases h <;> exact hi
  | dial h => exact h.streamed hi
  | reports _ h | reported _ h =>
    obtain ⟨-, -, -, -, hnet, -⟩ := h.frame
    exact hnet ▸ hi
  | handled ha ht h => exact h.streamed ht hi fun p x => hg _ _ _ p x ha ht
  | exits => exact hi.setConn rfl (.inr rfl)
  | stopper h =>
    cases h with
    | stops => exact hi.close _
    | joined => exact hi.setConn rfl (.inr rfl)
    | _ => exact hi
  | rejects | accepts | closes | requests => exact hi

/-- At most one write is outstanding on each socket, and each socket has sent whole chunks with
at most one cut chunk behind them. -/
def SendsWhole (n : Net) : Prop :=
  ∀ x, n.tasks.countP (Task.writesOn x) ≤ 1 ∧
    ∃ (chunks : List FileChunk) (cut : Bytes), n.sent x = chunks.flatMap serialize ++ cut ∧
      ∃ chunk, cut <+: serialize chunk

/-- Over every run in which writes begin on free sockets only, the streams stay whole. -/
theorem sends_whole {s : Sender} (h : Reach (step o) SoleWrite .start s) : SendsWhole s.net := by
  have hstreamed : Streamed s.net :=
    h.invariant (P := fun s => Streamed s.net) Streamed.start fun _ _ _ hi hg hs =>
      (moves_of_step hs).streamed hi hg
  intro x
  obtain ⟨chunks, cut, hs⟩ := hstreamed.stream x
  exact ⟨hstreamed.sole x, chunks, cut, hs.sent, hs.short⟩

/-- With a single connection there is a single slot, and no two writes can meet. -/
theorem soleWrite_of_single (hsingle : o.slots = 1) {s : Sender} (hs : s.Slotted)
    (hle : s.inflight ≤ o.slots) (a : SenderAction) : SoleWrite s a := by
  intro i t others p x _ ht hp _ t' ht'
  apply Bool.eq_false_iff.mpr
  intro hw
  obtain ⟨q, rest, hq⟩ := Task.writesOn_eq_true.mp hw
  obtain ⟨j, left, hleft⟩ := Pool.exists_take ht'
  have hsum := Pool.sum_of_take ht Task.slots
  rw [Pool.sum_of_take hleft Task.slots] at hsum
  simp only [Task.slots, hp, hq, Phase.slots] at hsum
  unfold Slotted taskSlots at hs
  omega

theorem reach_soleWrite (hsingle : o.slots = 1) {s : Sender} (h : Reachable (step o) .start s) :
    Reach (step o) SoleWrite .start s := by
  induction h with
  | start => exact .start
  | @next s _ a hr _ hs ih =>
    have hinv : s.Slotted ∧ s.inflight ≤ o.slots :=
      hr.invariant (P := fun s => s.Slotted ∧ s.inflight ≤ o.slots)
        ⟨slotted_start, Nat.zero_le _⟩ fun _ _ _ hi _ hs =>
          ⟨(moves_of_step hs).slotted hi.1, (moves_of_step hs).inflight_le hi.2⟩
    exact .next a ih (soleWrite_of_single hsingle hinv.1 hinv.2 a) hs

/-- Two chunks are written one after the other. -/
theorem sends_whole_sample : ∃ s : Sender,
    s.net.sent 0 = serialize sampleChunk ++ serialize sampleChunk ∧ SendsWhole s.net := by
  let size := (serialize sampleChunk).length
  let labels : List SenderAction :=
    [.push sampleChunk, .push sampleChunk, .work true, .work true, .work true, .work true,
      .work true, .work true, .work true, .work true, .handle 0, .write 0 size, .handle 0,
      .handle 0, .handle 0, .handle 0, .work true, .work true, .work true, .work true, .work true,
      .work true, .work true, .handle 0, .write 0 size]
  have hrun : (run (step sampleOptions) .start labels).any
      (fun s => s.net.sent 0 = serialize sampleChunk ++ serialize sampleChunk) = true := by
    decide +kernel
  obtain ⟨s, hs, hend⟩ := (Option.any_eq_true ..).mp hrun
  exact ⟨s, of_decide_eq_true hend, sends_whole (reach_soleWrite rfl (.of_run hs))⟩

/-- Two connections and no retries. -/
def pairOptions : SenderOptions where
  connections := 2
  maxSendRetries := 1
  capacity := 4

/-- The second connection is faster, and the third chunk is written on the first one while the
first chunk is. -/
theorem sends_whole_fails : ¬ ∀ (o : SenderOptions) (s : Sender),
    Reachable (step o) .start s → SendsWhole s.net := by
  intro hclaim
  let labels : List SenderAction :=
    [.push sampleChunk, .push sampleChunk, .push sampleChunk, .work true, .work true, .work true,
      .work true, .work true, .work true, .work true, .work true, .handle 0, .work true,
      .work true, .work true, .work true, .work true, .work true, .work true, .work true,
      .handle 0, .write 0 (serialize sampleChunk).length, .handle 0, .handle 0, .handle 0,
      .handle 0, .work true, .work true, .work true, .work true, .work true, .work true,
      .work true, .handle 0]
  have hrun : (run (step pairOptions) .start labels).any
      (fun s => s.net.tasks.countP (Task.writesOn 0) = 2) = true := by
    decide +kernel
  obtain ⟨s, hs, hend⟩ := (Option.any_eq_true ..).mp hrun
  have hle := (hclaim _ s (.of_run hs) 0).1
  rw [of_decide_eq_true hend] at hle
  exact absurd hle (by decide)

end Sender

end SuperVoice.Client
