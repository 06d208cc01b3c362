import Mathlib.Data.List.Nodup
import Mathlib.Data.List.Perm.Basic
import Mathlib.Tactic.Common

/-! Objects that are handed from owner to owner, one owner at a time. An owner begins an attempt,
loads the content of the object, writes it out, and passes the object on for another attempt or ends
with it, which wipes the object. -/
namespace Custody
variable {α β : Type*}

inductive Stage (β : Type*) where
  | waiting
  /-- The attempt has begun. -/
  | begun
  | loaded (b : β)

structure Entry (α β : Type*) where
  object : Nat
  content : α
  /-- The number of the attempt that comes next or is under way. -/
  attempt : Nat
  stage : Stage β

inductive Event (β : Type*) where
  | begins (object : Nat)
  | loads (object : Nat) (b : β)
  | writes (object : Nat) (b : β)
  | again (object : Nat)
  | succeeds (object : Nat)
  | drops (object : Nat)
  /-- What an attempt occupies is given back. -/
  | releases

def Event.object : Event β → Option Nat
  | .begins i | .loads i _ | .writes i _ | .again i | .succeeds i | .drops i => some i
  | .releases => none

/-- The object that the event is the end of. -/
def Event.final : Event β → Option Nat
  | .succeeds i | .drops i => some i
  | .begins _ | .loads .. | .writes .. | .again _ | .releases => none

def Event.begun : Event β → Option Nat
  | .begins i => some i
  | .loads .. | .writes .. | .again _ | .succeeds _ | .drops _ | .releases => none

def Event.isBegin (ev : Event β) : Bool := ev.begun.isSome

def Event.isRelease : Event β → Bool
  | .releases => true
  | .begins _ | .loads .. | .writes .. | .again _ | .succeeds _ | .drops _ => false

/-- How often an attempt for object `i` has begun. -/
def tries (i : Nat) (log : List (Event β)) : Nat := log.countP fun ev => ev.begun == some i

/-- Nothing happens to an object behind its end. -/
def Closed (log : List (Event β)) : Prop :=
  log.Pairwise fun ev ev' => ∀ i, ev.final = some i → ev'.object ≠ some i

/-- The attempts that have begun for the object of the entry. -/
def Entry.tries (e : Entry α β) : Nat :=
  match e.stage with
  | .waiting => e.attempt - 1
  | .begun | .loaded _ => e.attempt

structure State (α β : Type*) where
  /-- The objects as they were made. -/
  made : List α
  /-- The objects as they are. -/
  heap : List α
  /-- The owners, in no order. -/
  entries : List (Entry α β)
  log : List (Event β)

section Machine
variable (limit : Nat) (read : α → β) (wipe : α → α)

/-- What an owner does with its object. -/
inductive Change (heap : List α) : Entry α β → Event β → Entry α β → Prop where
  | begins {i k : Nat} {a : α} :
      Change heap ⟨i, a, k, .waiting⟩ (.begins i) ⟨i, a, k, .begun⟩
  | loads {i k : Nat} {a : α} {b : β} (h : ∀ c, heap[i]? = some c → b = read c) :
      Change heap ⟨i, a, k, .begun⟩ (.loads i b) ⟨i, a, k, .loaded b⟩
  | writes {i k : Nat} {a : α} {b : β} :
      Change heap ⟨i, a, k, .loaded b⟩ (.writes i b) ⟨i, a, k, .loaded b⟩
  | again {i k : Nat} {a : α} {stage : Stage β} (hs : stage ≠ .waiting) (hk : k < limit) :
      Change heap ⟨i, a, k, stage⟩ (.again i) ⟨i, a, k + 1, .waiting⟩

inductive Step : State α β → State α β → Prop where
  /-- Owners may give up. -/
  | keeps {s s' : State α β} (he : s'.entries.Subperm s.entries) (hmade : s'.made = s.made)
      (hheap : s'.heap = s.heap) (hlog : s'.log = s.log) : Step s s'
  | makes {s s' : State α β} {a : α}
      (he : s'.entries.Perm (⟨s.heap.length, a, 1, .waiting⟩ :: s.entries))
      (hmade : s'.made = s.made ++ [a]) (hheap : s'.heap = s.heap ++ [a])
      (hlog : s'.log = s.log) : Step s s'
  | changes {s s' : State α β} {e e' : Entry α β} {ev : Event β} {rest : List (Entry α β)}
      (he : s.entries.Perm (e :: rest)) (hc : Change limit read s.heap e ev e')
      (he' : s'.entries.Perm (e' :: rest)) (hmade : s'.made = s.made) (hheap : s'.heap = s.heap)
      (hlog : s'.log = s.log ++ [ev]) : Step s s'
  | ends {s s' : State α β} {e : Entry α β} {ev : Event β} {rest : List (Entry α β)}
      (he : s.entries.Perm (e :: rest)) (hev : ev = .succeeds e.object ∨ ev = .drops e.object)
      (he' : s'.entries.Perm rest) (hmade : s'.made = s.made)
      (hheap : s'.heap = s.heap.modify e.object wipe) (hlog : s'.log = s.log ++ [ev]) : Step s s'
  | releases {s s' : State α β} (he : s'.entries.Perm s.entries) (hmade : s'.made = s.made)
      (hheap : s'.heap = s.heap) (hlog : s'.log = s.log ++ [.releases]) : Step s s'

/-- The object of an entry is as it was made, and its attempts are counted. -/
structure Held (s : State α β) (e : Entry α β) : Prop where
  made : s.made[e.object]? = some e.content
  heap : s.heap[e.object]? = some e.content
  pos : 0 < e.attempt
  le : e.attempt ≤ limit
  tries : tries e.object s.log = e.tries
  buffer : ∀ b, e.stage = .loaded b → b = read e.content
  unended : ∀ ev ∈ s.log, ev.final ≠ some e.object

structure Sound (s : State α β) : Prop where
  length : s.heap.length = s.made.length
  held : ∀ e ∈ s.entries, Held limit read s e
  one : (s.entries.map Entry.object).Nodup
  known : ∀ ev ∈ s.log, ∀ i, ev.object = some i → i < s.heap.length
  limited : ∀ i, tries i s.log ≤ limit
  written : ∀ i b, .loads i b ∈ s.log ∨ .writes i b ∈ s.log → ∃ a, s.made[i]? = some a ∧ b = read a
  closed : Closed s.log

end Machine

variable {limit : Nat} {read : α → β} {wipe : α → α} {s s' : State α β} {e e' : Entry α β}
  {ev : Event β} {rest : List (Entry α β)} {log : List (Event β)} {i : Nat}

theorem Event.object_of_final (h : ev.final = some i) : ev.object = some i := by
  cases ev <;> first | exact h | cases h

theorem Event.object_of_begun (h : ev.begun = some i) : ev.object = some i := by
  cases ev <;> first | exact h | cases h

theorem tries_append_of_eq (h : ev.begun = some i) : tries i (log ++ [ev]) = tries i log + 1 := by
  simp [tries, List.countP_append, h]

theorem tries_append_of_ne (h : ev.begun ≠ some i) : tries i (log ++ [ev]) = tries i log := by
  simp [tries, List.countP_append, h]

theorem Closed.append (h : Closed log) (hev : ∀ i, ev.object = some i → ∀ ev' ∈ log, ev'.final ≠ some i) :
    Closed (log ++ [ev]) := by
  apply List.pairwise_append.mpr
  refine ⟨h, List.pairwise_singleton _ _, ?_⟩
  intro ev' hmem ev'' hlast i hfinal hobject
  rw [List.mem_singleton.mp hlast] at hobject
  exact hev i hobject ev' hmem hfinal

theorem Change.object (h : Change limit read s.heap e ev e') :
    e'.object = e.object ∧ ev.object = some e.object ∧ ev.final = none := by
  cases h <;> exact ⟨rfl, rfl, rfl⟩

/-- What happens to another object leaves an entry as it is. -/
theorem Held.frame (h : Held limit read s e) (hmade : s'.made[e.object]? = s.made[e.object]?)
    (hheap : s'.heap[e.object]? = s.heap[e.object]?) (hlog : s'.log = s.log ++ [ev])
    (hev : ev.object ≠ some e.object) : Held limit read s' e where
  made := hmade.trans h.made
  heap := hheap.trans h.heap
  pos := h.pos
  le := h.le
  tries := by
    rw [hlog, tries_append_of_ne fun hb => hev (Event.object_of_begun hb)]
    exact h.tries
  buffer := h.buffer
  unended := by
    intro ev' hmem
    rw [hlog] at hmem
    cases List.mem_append.mp hmem with
    | inl hmem => exact h.unended ev' hmem
    | inr hmem =>
      rw [List.mem_singleton.mp hmem]
      exact fun hf => hev (Event.object_of_final hf)

theorem Held.mono (h : Held limit read s e) (hmade : s'.made[e.object]? = s.made[e.object]?)
    (hheap : s'.heap[e.object]? = s.heap[e.object]?) (hlog : s'.log = s.log) :
    Held limit read s' e where
  made := hmade.trans h.made
  heap := hheap.trans h.heap
  pos := h.pos
  le := h.le
  tries := hlog ▸ h.tries
  buffer := h.buffer
  unended := hlog ▸ h.unended

/-- The owner keeps its object sound. -/
theorem Change.held (hc : Change limit read s.heap e ev e') (h : Held limit read s e)
    (hmade : s'.made = s.made) (hheap : s'.heap = s.heap) (hlog : s'.log = s.log ++ [ev]) :
    Held limit read s' e' := by
  obtain ⟨hobject, -, hfinal⟩ := hc.object
  have hunended : ∀ ev' ∈ s'.log, ev'.final ≠ some e'.object := by
    intro ev' hmem
    rw [hlog] at hmem
    cases List.mem_append.mp hmem with
    | inl hmem =>
      rw [hobject]
      exact h.unended ev' hmem
    | inr hmem =>
      rw [List.mem_singleton.mp hmem, hfinal]
      nofun
  have htries := h.tries
  have hpos := h.pos
  cases hc with
  | begins =>
    refine ⟨hmade ▸ h.made, hheap ▸ h.heap, h.pos, h.le, ?_, nofun, hunended⟩
    rw [hlog, tries_append_of_eq rfl, htries]
    exact Nat.sub_add_cancel hpos
  | loads hb =>
    refine ⟨hmade ▸ h.made, hheap ▸ h.heap, h.pos, h.le, ?_, ?_, hunended⟩
    · rw [hlog, tries_append_of_ne (fun hb => by cases hb)]
      exact htries
    · intro b' hb'
      cases hb'
      exact hb _ h.heap
  | writes =>
    refine ⟨hmade ▸ h.made, hheap ▸ h.heap, h.pos, h.le, ?_, h.buffer, hunended⟩
    rw [hlog, tries_append_of_ne (fun hb => by cases hb)]
    exact htries
  | @again i k a stage hs hk =>
    refine ⟨hmade ▸ h.made, hheap ▸ h.heap, Nat.succ_pos _, hk, ?_, nofun, hunended⟩
    rw [hlog, tries_append_of_ne (fun hb => by cases hb), htries]
    cases stage with
    | waiting => exact absurd rfl hs
    | begun | loaded => rfl

/-- The entries of the others are about other objects. -/
theorem Sound.ne_of_perm (hi : Sound limit read s) (he : s.entries.Perm (e :: rest))
    {d : Entry α β} (hd : d ∈ rest) : d.object ≠ e.object := by
  have hone := ((he.map Entry.object).nodup_iff).mp hi.one
  rw [List.map_cons, List.nodup_cons] at hone
  intro heq
  exact hone.1 (heq ▸ List.mem_map_of_mem hd)

theorem Sound.one_of_perm (hi : Sound limit read s) (he : s.entries.Perm (e :: rest)) :
    ((e :: rest).map Entry.object).Nodup :=
  ((he.map Entry.object).nodup_iff).mp hi.one

theorem Sound.held_of_perm (hi : Sound limit read s) (he : s.entries.Perm (e :: rest)) :
    Held limit read s e := hi.held e (he.mem_iff.mpr List.mem_cons_self)

theorem Sound.lt_of_held (h : Held limit read s e) : e.object < s.heap.length :=
  (List.getElem?_eq_some_iff.mp h.heap).1

/-- An event on the object of one owner leaves what the others hold as it is. -/
theorem Sound.held_of_rest (hi : Sound limit read s) (he : s.entries.Perm (e :: rest))
    {d : Entry α β} (hd : d ∈ rest) (hev : ev.object = some e.object) (hmade : s'.made = s.made)
    (hheap : s'.heap[d.object]? = s.heap[d.object]?) (hlog : s'.log = s.log ++ [ev]) :
    Held limit read s' d := by
  have hheld := hi.held d (he.mem_iff.mpr (List.mem_cons_of_mem e hd))
  apply hheld.frame (congrArg (·[d.object]?) hmade) hheap hlog
  rw [hev]
  exact fun heq => hi.ne_of_perm he hd (Option.some.inj heq).symm

/-- What is loaded and written is read from the chunk that the object was made for. -/
theorem Change.written (hc : Change limit read s.heap e ev e') (h : Held limit read s e) {i : Nat}
    {b : β} (hev : .loads i b = ev ∨ .writes i b = ev) : ∃ a, s.made[i]? = some a ∧ b = read a := by
  cases hc with
  | loads hb =>
    cases hev with
    | inl hev =>
      cases hev
      exact ⟨_, h.made, hb _ h.heap⟩
    | inr hev => cases hev
  | writes =>
    cases hev with
    | inl hev => cases hev
    | inr hev =>
      cases hev
      exact ⟨_, h.made, h.buffer _ rfl⟩
  | begins | again => cases hev <;> contradiction

/-- An event on an object with an owner leaves the log sound. -/
theorem Sound.logged (hi : Sound limit read s) (h : Held limit read s e)
    (hev : ev.object = some e.object) :
    (∀ ev' ∈ s.log ++ [ev], ∀ i, ev'.object = some i → i < s.heap.length) ∧
      Closed (s.log ++ [ev]) := by
  constructor
  · intro ev' hmem i hobject
    cases List.mem_append.mp hmem with
    | inl hmem => exact hi.known ev' hmem i hobject
    | inr hmem =>
      rw [List.mem_singleton.mp hmem, hev] at hobject
      cases hobject
      exact Sound.lt_of_held h
  · apply hi.closed.append
    intro i hobject ev' hmem
    rw [hev] at hobject
    cases hobject
    exact h.unended ev' hmem

theorem Sound.makes {a : α} (hi : Sound limit read s) (hlimit : 0 < limit)
    (he : s'.entries.Perm (⟨s.heap.length, a, 1, .waiting⟩ :: s.entries))
    (hmade : s'.made = s.made ++ [a]) (hheap : s'.heap = s.heap ++ [a]) (hlog : s'.log = s.log) :
    Sound limit read s' where
  length := by simp [hmade, hheap, hi.length]
  held := by
    intro d hd
    cases List.mem_cons.mp (he.mem_iff.mp hd) with
    | inl hd =>
      subst hd
      -- nothing is logged about an object that is yet to be made
      have hnone : ∀ ev ∈ s.log, ev.object ≠ some s.heap.length := fun ev hmem hobject =>
        Nat.lt_irrefl _ (hi.known ev hmem _ hobject)
      refine ⟨?_, ?_, Nat.one_pos, hlimit, ?_, nofun, ?_⟩
      · rw [hmade, hi.length]
        exact List.getElem?_concat_length
      · rw [hheap]
        exact List.getElem?_concat_length
      · rw [hlog]
        apply List.countP_eq_zero.mpr
        intro ev hmem hb
        exact hnone ev hmem (Event.object_of_begun (beq_iff_eq.mp hb))
      · rw [hlog]
        exact fun ev hmem hf => hnone ev hmem (Event.object_of_final hf)
    | inr hd =>
      have h := hi.held d hd
      have hlt := Sound.lt_of_held h
      apply h.mono _ _ hlog
      · rw [hmade, List.getElem?_append_left (hi.length ▸ hlt)]
      · rw [hheap, List.getElem?_append_left hlt]
  one := by
    rw [(he.map Entry.object).nodup_iff, List.map_cons, List.nodup_cons]
    refine ⟨?_, hi.one⟩
    intro hmem
    obtain ⟨d, hd, heq⟩ := List.mem_map.mp hmem
    exact Nat.ne_of_lt (Sound.lt_of_held (hi.held d hd)) heq
  known := by
    intro ev hmem i hobject
    rw [hlog] at hmem
    rw [hheap, List.length_append]
    exact Nat.lt_add_right _ (hi.known ev hmem i hobject)
  limited := hlog ▸ hi.limited
  written := by
    intro i b hmem
    rw [hlog] at hmem
    obtain ⟨c, hc, hb⟩ := hi.written i b hmem
    refine ⟨c, ?_, hb⟩
    rw [hmade, List.getElem?_append_left (List.getElem?_eq_some_iff.mp hc).1, hc]
  closed := hlog ▸ hi.closed

theorem Sound.changes (hi : Sound limit read s) (he : s.entries.Perm (e :: rest))
    (hc : Change limit read s.heap e ev e') (he' : s'.entries.Perm (e' :: rest))
    (hmade : s'.made = s.made) (hheap : s'.heap = s.heap) (hlog : s'.log = s.log ++ [ev]) :
    Sound limit read s' := by
  have hheld := hi.held_of_perm he
  have hheld' := hc.held hheld hmade hheap hlog
  obtain ⟨hobject, hev, -⟩ := hc.object
  obtain ⟨hknown, hclosed⟩ := hi.logged hheld hev
  constructor
  · rw [hmade, hheap, hi.length]
  · intro d hd
    cases List.mem_cons.mp (he'.mem_iff.mp hd) with
    | inl hd => exact hd ▸ hheld'
    | inr hd => exact hi.held_of_rest he hd hev hmade (by rw [hheap]) hlog
  · rw [(he'.map Entry.object).nodup_iff, List.map_cons, hobject]
    exact hi.one_of_perm he
  · rw [hlog, hheap]
    exact hknown
  · intro i
    by_cases hbegun : ev.begun = some i
    · have hsame := Event.object_of_begun hbegun
      rw [hev, ← hobject] at hsame
      cases hsame
      rw [hheld'.tries]
      exact (Nat.le_trans (by unfold Entry.tries; split <;> omega) hheld'.le)
    · rw [hlog, tries_append_of_ne hbegun]
      exact hi.limited i
  · intro i b hmem
    rw [hlog, List.mem_append, List.mem_append] at hmem
    rw [hmade]
    obtain (hmem | hmem) | (hmem | hmem) := hmem
    · exact hi.written i b (.inl hmem)
    · exact hc.written hheld (.inl (List.mem_singleton.mp hmem))
    · exact hi.written i b (.inr hmem)
    · exact hc.written hheld (.inr (List.mem_singleton.mp hmem))
  · rw [hlog]
    exact hclosed

theorem Sound.ends (hi : Sound limit read s) (he : s.entries.Perm (e :: rest))
    (hev : ev = .succeeds e.object ∨ ev = .drops e.object) (he' : s'.entries.Perm rest)
    (hmade : s'.made = s.made) (hheap : s'.heap = s.heap.modify e.object wipe)
    (hlog : s'.log = s.log ++ [ev]) : Sound limit read s' := by
  have hheld := hi.held_of_perm he
  have hobject : ev.object = some e.object := by
    obtain rfl | rfl := hev <;> rfl
  have hbegun : ev.begun = none := by
    obtain rfl | rfl := hev <;> rfl
  obtain ⟨hknown, hclosed⟩ := hi.logged hheld hobject
  constructor
  · rw [hmade, hheap, List.length_modify, hi.length]
  · intro d hd
    have hrest := he'.mem_iff.mp hd
    apply hi.held_of_rest he hrest hobject hmade _ hlog
    rw [hheap, List.getElem?_modify_ne _ _ (hi.ne_of_perm he hrest).symm]
  · have hone := hi.one_of_perm he
    rw [List.map_cons, List.nodup_cons] at hone
    exact ((he'.map Entry.object).nodup_iff).mpr hone.2
  · rw [hlog, hheap, List.length_modify]
    exact hknown
  · intro i
    rw [hlog, tries_append_of_ne (by rw [hbegun]; nofun)]
    exact hi.limited i
  · intro i b hmem
    rw [hlog, List.mem_append, List.mem_append, List.mem_singleton, List.mem_singleton] at hmem
    rw [hmade]
    apply hi.written i b
    obtain (hmem | rfl) | (hmem | rfl) := hmem
    · exact .inl hmem
    · obtain h | h := hev <;> cases h
    · exact .inr hmem
    · obtain h | h := hev <;> cases h
  · rw [hlog]
    exact hclosed

theorem Sound.keeps (hi : Sound limit read s) (he : s'.entries.Subperm s.entries)
    (hmade : s'.made = s.made) (hheap : s'.heap = s.heap) (hlog : s'.log = s.log) :
    Sound limit read s' where
  length := by rw [hmade, hheap, hi.length]
  held := by
    intro d hd
    exact (hi.held d (he.subset hd)).mono (by rw [hmade]) (by rw [hheap]) hlog
  one := by
    obtain ⟨l, hperm, hsub⟩ := he
    exact ((hperm.map Entry.object).nodup_iff).mp ((hsub.map Entry.object).nodup hi.one)
  known := by
    rw [hlog, hheap]
    exact hi.known
  limited := hlog ▸ hi.limited
  written := by
    rw [hlog, hmade]
    exact hi.written
  closed := hlog ▸ hi.closed

theorem Sound.releases (hi : Sound limit read s) (he : s'.entries.Perm s.entries)
    (hmade : s'.made = s.made) (hheap : s'.heap = s.heap) (hlog : s'.log = s.log ++ [.releases]) :
    Sound limit read s' where
  length := by rw [hmade, hheap, hi.length]
  held := by
    intro d hd
    exact (hi.held d (he.mem_iff.mp hd)).frame (by rw [hmade]) (by rw [hheap]) hlog fun heq => by cases heq
  one := ((he.map Entry.object).nodup_iff).mpr hi.one
  known := by
    intro ev hmem i hobject
    rw [hlog] at hmem
    rw [hheap]
    cases List.mem_append.mp hmem with
    | inl hmem => exact hi.known ev hmem i hobject
    | inr hmem =>
      rw [List.mem_singleton.mp hmem] at hobject
      cases hobject
  limited := by
    intro i
    rw [hlog, tries_append_of_ne (fun hb => by cases hb)]
    exact hi.limited i
  written := by
    intro i b hmem
    rw [hlog, List.mem_append, List.mem_append, List.mem_singleton, List.mem_singleton] at hmem
    rw [hmade]
    apply hi.written i b
    simpa using hmem
  closed := by
    rw [hlog]
    exact hi.closed.append nofun

/-- The owners have no order. -/
theorem Step.perm {entries entries' : List (Entry α β)} (h : Step limit read wipe s s')
    (he : entries.Perm s.entries) (he' : entries'.Perm s'.entries) :
    Step limit read wipe { s with entries } { s' with entries := entries' } := by
  cases h with
  | keeps h hmade hheap hlog =>
    exact .keeps ((he'.subperm.trans h).trans he.symm.subperm) hmade hheap hlog
  | makes h hmade hheap hlog => exact .makes (he'.trans (h.trans (he.symm.cons _))) hmade hheap hlog
  | changes h hc h' hmade hheap hlog =>
    exact .changes (he.trans h) hc (he'.trans h') hmade hheap hlog
  | ends h hev h' hmade hheap hlog => exact .ends (he.trans h) hev (he'.trans h') hmade hheap hlog
  | releases h hmade hheap hlog =>
    exact .releases (he'.trans (h.trans he.symm)) hmade hheap hlog

/-- Every step keeps what is owned, logged and written sound. -/
theorem Step.sound (h : Step limit read wipe s s') (hlimit : 0 < limit) (hi : Sound limit read s) :
    Sound limit read s' := by
  cases h with
  | keeps he hmade hheap hlog => exact hi.keeps he hmade hheap hlog
  | makes he hmade hheap hlog => exact hi.makes hlimit he hmade hheap hlog
  | changes he hc he' hmade hheap hlog => exact hi.changes he hc he' hmade hheap hlog
  | ends he hev he' hmade hheap hlog => exact hi.ends he hev he' hmade hheap hlog
  | releases he hmade hheap hlog => exact hi.releases he hmade hheap hlog

theorem sound_start : Sound limit read (⟨[], [], [], []⟩ : State α β) where
  length := rfl
  held := nofun
  one := List.nodup_nil
  known := nofun
  limited := fun _ => Nat.zero_le _
  written := by
    intro i b hmem
    obtain hmem | hmem := hmem <;> cases hmem
  closed := List.Pairwise.nil

end Custody
