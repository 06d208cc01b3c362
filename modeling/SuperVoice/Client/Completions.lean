import SuperVoice.Client.Draining

/-! What stands behind a report of success: the write of the chunk has completed, and if every
socket carries one chunk only, that chunk is all the socket has sent. -/
namespace SuperVoice.Client
open Bytes Transition
variable {o : SenderOptions}

theorem serialize_ne_nil (chunk : FileChunk) : serialize chunk ≠ [] := by
  intro h
  simp only [serialize, List.append_assoc, List.append_eq_nil_iff] at h
  exact absurd h.1 (by decide)

namespace Sender

/-- The chunks whose write has completed satisfy `A`. -/
structure Completions (A : FileChunk → Prop) (s : Sender) : Prop where
  completed : ∀ t ∈ s.net.tasks, ∀ p,
    t.phase = .completed p true ∨ t.phase = .handling (.success p) → A p.chunk
  worker : ∀ p, s.worker ≠ .reporting (.success p)
  reported : ∀ p, .sent p ∈ s.reports → A p.chunk

theorem completions_start (A : FileChunk → Prop) : Completions A .start where
  completed _ h := nomatch h
  worker _ h := nomatch h
  reported _ h := nomatch h

theorem Completions.mono {A B : FileChunk → Prop} {s : Sender} (h : ∀ chunk, A chunk → B chunk)
    (hi : Completions A s) : Completions B s where
  completed t ht p hp := h _ (hi.completed t ht p hp)
  worker := hi.worker
  reported p hp := h _ (hi.reported p hp)

theorem completed_abort {c : Nat} {t : Task} {p : PendingChunk}
    (h : (t.abort c).phase = .completed p true ∨ (t.abort c).phase = .handling (.success p)) :
    t.phase = .completed p true ∨ t.phase = .handling (.success p) := by
  obtain ⟨c', phase⟩ := t
  unfold Task.abort at h
  split at h
  · cases phase with
    | writing q x rest => obtain h | h := h <;> cases h
    | _ => exact h
  · exact h

/-- A callback reports a success only for the chunk it was called with. -/
theorem Called.success {s s' : Sender} {k : Callback} {k' : Option Callback} (h : Called o s k k' s') :
    (∀ p, k' ≠ some (.success p)) ∧
      ∀ p, .sent p ∈ s'.reports → .sent p ∈ s.reports ∨ k = .success p := by
  cases h with
  | sent =>
    refine ⟨nofun, fun p hp => ?_⟩
    cases List.mem_append.mp hp with
    | inl hp => exact .inl hp
    | inr hp =>
      cases List.mem_singleton.mp hp
      exact .inr rfl
  | dropped =>
    refine ⟨nofun, fun p hp => ?_⟩
    cases List.mem_append.mp hp with
    | inl hp => exact .inl hp
    | inr hp => cases List.mem_singleton.mp hp
  | wakesWorker | wakesStopper | passesSlot =>
    refine ⟨fun p h => ?_, fun p hp => .inl hp⟩
    split at h <;> cases h
  | _ => exact ⟨nofun, fun p hp => .inl hp⟩

theorem Called.not_reporting {s s' : Sender} {k : Callback} {k' : Option Callback}
    (h : Called o s k k' s') (hw : ∀ p, s.worker ≠ .reporting (.success p)) :
    ∀ p, s'.worker ≠ .reporting (.success p) := by
  intro p hp
  obtain h | ⟨-, h⟩ | ⟨q, -, h⟩ := h.worker
  · exact hw p (h.symm.trans hp)
  · cases h.symm.trans hp
  · cases h.symm.trans hp

theorem Dial.completions {A : FileChunk → Prop} {s s' : Sender} (h : Dial s s')
    (hi : Completions A s) : Completions A s' := by
  cases h with
  | reattempts | givesUp =>
    refine ⟨fun t ht p hp => ?_, nofun, hi.reported⟩
    obtain ⟨t', ht', rfl⟩ := mem_abort ht
    exact hi.completed t' ht' p (completed_abort hp)
  | dispatches =>
    refine ⟨fun t ht p hp => ?_, nofun, hi.reported⟩
    cases List.mem_cons.mp ht with
    | inl h =>
      subst h
      obtain hp | hp := hp <;> cases hp
    | inr h => exact hi.completed t h p hp
  | _ => exact ⟨hi.completed, nofun, hi.reported⟩

/-- A task is put back without having completed. -/
theorem Completions.put {A : FileChunk → Prop} {s : Sender} {n : Net} {t : Task}
    (hi : Completions A s) (hn : ∀ t' ∈ n.tasks, t' ∈ s.net.tasks ∨ ∃ c, ∃ t'' ∈ s.net.tasks,
      t' = t''.abort c)
    (ht : ∀ p, t.phase = .completed p true ∨ t.phase = .handling (.success p) → A p.chunk) :
    Completions A { s with net := n.put t } := by
  refine ⟨fun t' ht' p hp => ?_, hi.worker, hi.reported⟩
  cases List.mem_cons.mp ht' with
  | inl h =>
    subst h
    exact ht p hp
  | inr h =>
    obtain h | ⟨c, t'', ht'', rfl⟩ := hn t' h
    · exact hi.completed t' h p hp
    · exact hi.completed t'' ht'' p (completed_abort hp)

theorem Handled.completions {A : FileChunk → Prop} {s s' : Sender} {t : Task} {others : List Task}
    {i : Nat} (ht : Pool.take s.net.tasks i = some (t, others))
    (h : Handled o s t.conn { s.net with tasks := others } t.phase s') (hi : Completions A s)
    (hnew : ∀ p x rest, t.phase = .writing p x rest → s'.net.sent x = s.net.sent x ++ rest →
      A p.chunk) : Completions A s' := by
  have hself := hi.completed t (Pool.mem_of_take ht)
  have hrest : ∀ t' ∈ others, t' ∈ s.net.tasks := fun t' => Pool.mem_of_mem_rest ht
  generalize t.phase = phase at h hself hnew
  cases h with
  | refuses | begins | writes | fails =>
    refine hi.put (fun t' ht' => .inl (hrest t' ht')) fun p hp => ?_
    obtain hp | hp := hp <;> cases hp
  | succeeds =>
    refine hi.put (fun t' ht' => .inl (hrest t' ht')) fun p hp => ?_
    obtain hp | hp := hp
    · cases hp
    · cases hp
      exact hself _ (.inl rfl)
  | closes =>
    refine hi.put (fun t' ht' => .inr ?_) fun p hp => ?_
    · obtain ⟨t'', ht'', rfl⟩ := mem_abort ht'
      exact ⟨_, t'', hrest t'' ht'', rfl⟩
    · obtain hp | hp := hp <;> cases hp
  | completes =>
    refine hi.put (fun t' ht' => .inl (hrest t' ht')) fun p hp => ?_
    obtain hp | hp := hp
    · cases hp
      exact hnew _ _ _ rfl (Function.update_self ..)
    · cases hp
  | calls hk =>
    obtain ⟨-, -, -, -, hnet, -⟩ := hk.frame
    obtain ⟨hk', hreports⟩ := hk.success
    refine ⟨fun t' ht' p hp => ?_, hk.not_reporting hi.worker, fun p hp => ?_⟩
    · rw [hnet] at ht'
      cases List.mem_cons.mp ht' with
      | inl h =>
        subst h
        obtain hp | hp := hp
        · cases hp
        · cases hp
          exact absurd rfl (hk' p)
      | inr h => exact hi.completed t' (hrest t' h) p hp
    · obtain hp | rfl := hreports p hp
      · exact hi.reported p hp
      · exact hself p (.inr rfl)
  | ends hk =>
    obtain ⟨-, -, -, -, hnet, -⟩ := hk.frame
    obtain ⟨-, hreports⟩ := hk.success
    refine ⟨fun t' ht' p hp => ?_, hk.not_reporting hi.worker, fun p hp => ?_⟩
    · rw [hnet] at ht'
      exact hi.completed t' (hrest t' ht') p hp
    · obtain hp | rfl := hreports p hp
      · exact hi.reported p hp
      · exact hself p (.inr rfl)

/-- A chunk comes to be reported as sent only by a write that completes. -/
theorem Moves.completions {A : FileChunk → Prop} {s s' : Sender} {a : SenderAction}
    (h : Moves o s a s') (hi : Completions A s)
    (hnew : ∀ i t others p x rest, a.task = some i → Pool.take s.net.tasks i = some (t, others) →
      t.phase = .writing p x rest → s'.net.sent x = s.net.sent x ++ rest → A p.chunk) :
    Completions A s' := by
  cases h with
  | control h =>
    cases h <;> exact ⟨hi.completed, nofun, hi.reported⟩
  | dial h => exact h.completions hi
  | reports hw h =>
    obtain ⟨-, -, -, -, hnet, -⟩ := h.frame
    obtain ⟨hk', hreports⟩ := h.success
    refine ⟨fun t ht p hp => hi.completed t (hnet ▸ ht) p hp, fun p hp => ?_, fun p hp => ?_⟩
    · cases hp
      exact hk' p rfl
    · obtain hp | rfl := hreports p hp
      · exact hi.reported p hp
      · exact absurd hw (hi.worker p)
  | reported hw h =>
    obtain ⟨-, -, -, -, hnet, -⟩ := h.frame
    obtain ⟨-, hreports⟩ := h.success
    refine ⟨fun t ht p hp => hi.completed t (hnet ▸ ht) p hp, nofun, fun p hp => ?_⟩
    obtain hp | rfl := hreports p hp
    · exact hi.reported p hp
    · exact absurd hw (hi.worker p)
  | handled ha ht h =>
    exact h.completions ht hi fun p x rest => hnew _ _ _ p x rest ha ht
  | stopper h =>
    cases h with
    | stops =>
      refine ⟨fun t ht p hp => ?_, hi.worker, hi.reported⟩
      obtain ⟨t', ht', rfl⟩ := mem_abort ht
      exact hi.completed t' ht' p (completed_abort hp)
    | _ => exact ⟨hi.completed, hi.worker, hi.reported⟩
  | rejects | accepts | closes | exits | requests => exact ⟨hi.completed, hi.worker, hi.reported⟩

/-- What a socket sends is due to a write outstanding on it. -/
theorem Moves.sent {s s' : Sender} {a : SenderAction} (h : Moves o s a s') (x : Nat) :
    s'.net.sent x = s.net.sent x ∨ ∃ i t others p b rest, a.task = some i ∧
      Pool.take s.net.tasks i = some (t, others) ∧ t.phase = .writing p x (b ++ rest) ∧
      s'.net.sent x = s.net.sent x ++ b := by
  cases h with
  | @handled _ _ i t others ha ht h =>
    have hwrite : ∀ {p y} b rest, t.phase = .writing p y (b ++ rest) →
        (∀ z, s'.net.sent z = Function.update s.net.sent y (s.net.sent y ++ b) z) →
        s'.net.sent x = s.net.sent x ∨ ∃ i t others p b rest, a.task = some i ∧
          Pool.take s.net.tasks i = some (t, others) ∧ t.phase = .writing p x (b ++ rest) ∧
          s'.net.sent x = s.net.sent x ++ b := by
      intro p y b rest hp hsent
      by_cases hx : x = y
      · subst hx
        refine .inr ⟨_, _, _, p, b, rest, ha, ht, hp, ?_⟩
        rw [hsent, Function.update_self]
      · rw [hsent, Function.update_of_ne hx]
        exact .inl rfl
    generalize hphase : t.phase = phase at h
    cases h with
    | @writes _ _ _ _ k rest =>
      exact hwrite (rest.take k) (rest.drop k)
        (by rw [List.take_append_drop]; exact hphase) fun z => rfl
    | @completes _ _ _ _ rest =>
      exact hwrite rest [] (by rw [List.append_nil]; exact hphase) fun z => rfl
    | calls hk | ends hk =>
      obtain ⟨-, -, -, -, hnet, -⟩ := hk.frame
      left
      simp only [Net.put_sent, hnet]
    | _ => exact .inl rfl
  | control h | dial h | stopper h =>
    left
    cases h <;> rfl
  | reports _ h | reported _ h =>
    obtain ⟨-, -, -, -, hnet, -⟩ := h.frame
    left
    simp only [hnet]
  | rejects | accepts | closes | exits | requests => exact .inl rfl

/-- A write begins only on a socket that has sent nothing and on which no other is outstanding. -/
def FreshWrite (s : Sender) (a : SenderAction) : Prop :=
  ∀ i t others p x, a.task = some i → Pool.take s.net.tasks i = some (t, others) →
    t.phase = .posted p → (s.net.conns t.conn).socket = some x →
      s.net.sent x = [] ∧ ∀ t' ∈ others, t'.writesOn x = false

theorem FreshWrite.sole {s : Sender} {a : SenderAction} (h : FreshWrite s a) : SoleWrite s a :=
  fun i t others p x ha ht hp hx => (h i t others p x ha ht hp hx).2

/-- The outstanding write is the only thing its socket sends. -/
def Alone (n : Net) : Prop :=
  ∀ t ∈ n.tasks, ∀ p x rest, t.phase = .writing p x rest → n.sent x ++ rest = serialize p.chunk

namespace Alone
variable {n n' : Net}

/-- Nothing is sent and no write begins. -/
theorem congr (hi : Alone n) (hsent : n'.sent = n.sent)
    (ht : ∀ t ∈ n'.tasks, ∀ p x rest, t.phase = .writing p x rest →
      ∃ t' ∈ n.tasks, t'.phase = .writing p x rest) : Alone n' := by
  intro t hmem p x rest hp
  obtain ⟨t', ht', hp'⟩ := ht t hmem p x rest hp
  rw [hsent]
  exact hi t' ht' p x rest hp'

theorem close (hi : Alone n) (c : Nat) : Alone (n.close c) := by
  refine hi.congr rfl fun t ht p x rest hp => ?_
  obtain ⟨t', ht', rfl⟩ := mem_abort ht
  have hw : (t'.abort c).writesOn x = true := Task.writesOn_eq_true.mpr ⟨p, rest, hp⟩
  obtain ⟨-, -, heq⟩ := Task.writesOn_abort hw
  exact ⟨t', ht', heq ▸ hp⟩

end Alone

theorem Dial.alone {s s' : Sender} (h : Dial s s') (hi : Alone s.net) : Alone s'.net := by
  cases h with
  | reattempts | givesUp => exact hi.close _
  | dispatches =>
    refine hi.congr rfl fun t ht p x rest hp => ?_
    cases List.mem_cons.mp ht with
    | inl h =>
      subst h
      cases hp
    | inr h => exact ⟨t, h, hp⟩
  | _ => exact hi

theorem Handled.alone {s s' : Sender} {t : Task} {others : List Task} {i : Nat}
    (ht : Pool.take s.net.tasks i = some (t, others))
    (h : Handled o s t.conn { s.net with tasks := others } t.phase s') (hi : Alone s.net)
    (hsole : ∀ x, s.net.tasks.countP (Task.writesOn x) ≤ 1)
    (hg : ∀ p x, t.phase = .posted p → (s.net.conns t.conn).socket = some x → s.net.sent x = []) :
    Alone s'.net := by
  have hself := hi t (Pool.mem_of_take ht)
  have hothers : Alone { s.net with tasks := others } := fun t' ht' =>
    hi t' (Pool.mem_of_mem_rest ht ht')
  have hput : ∀ {n : Net} {t' : Task}, Alone n → (∀ p x rest, t'.phase ≠ .writing p x rest) →
      Alone (n.put t') := fun {n t'} hn ht' => hn.congr rfl fun t'' hmem p x rest hp => by
    cases List.mem_cons.mp hmem with
    | inl h => exact absurd (h ▸ hp) (ht' p x rest)
    | inr h => exact ⟨t'', h, hp⟩
  -- no other write is outstanding on the socket that sends
  have hnone : ∀ p x rest, t.phase = .writing p x rest → ∀ t' ∈ others, t'.writesOn x = false :=
    fun p x rest hp => Pool.eq_false_of_countP_le_one (hsole x) (Pool.perm_of_take ht)
      (Task.writesOn_eq_true.mpr ⟨p, rest, hp⟩)
  have hsend : ∀ p x b rest, t.phase = .writing p x (b ++ rest) →
      Alone ({ s.net with tasks := others }.transmit x b) := by
    intro p x b rest hp t' ht' q y rest' hq
    have hxy : y ≠ x := by
      intro hxy
      have hw := Task.writesOn_eq_true.mpr ⟨q, rest', hxy ▸ hq⟩
      rw [hnone p x _ hp t' ht'] at hw
      cases hw
    rw [Net.transmit_sent, Function.update_of_ne hxy]
    exact hothers t' ht' q y rest' hq
  generalize hphase : t.phase = phase at h
  cases h with
  | refuses | succeeds | fails => exact hput hothers nofun
  | closes => exact hput (hothers.close _) nofun
  | @begins _ _ p x _ _ hx =>
    intro t' ht' q y rest' hq
    cases List.mem_cons.mp ht' with
    | inl h =>
      subst h
      cases hq
      rw [Net.put_sent, hg _ _ hphase hx, List.nil_append]
    | inr h => exact hothers t' h q y rest' hq
  | @writes _ _ p x k rest =>
    have hp : t.phase = .writing p x (rest.take k ++ rest.drop k) := by
      rw [List.take_append_drop]
      exact hphase
    intro t' ht' q y rest' hq
    cases List.mem_cons.mp ht' with
    | inl h =>
      subst h
      cases hq
      rw [Net.put_sent, Net.transmit_sent, Function.update_self, List.append_assoc,
        List.take_append_drop]
      exact hself _ _ _ hphase
    | inr h => exact hsend _ _ _ _ hp t' h q y rest' hq
  | @completes _ _ p x rest =>
    refine hput (hsend p x rest [] ?_) nofun
    rw [List.append_nil]
    exact hphase
  | calls hk =>
    obtain ⟨-, -, -, -, hnet, -⟩ := hk.frame
    rw [hnet]
    exact hput hothers nofun
  | ends hk =>
    obtain ⟨-, -, -, -, hnet, -⟩ := hk.frame
    rw [hnet]
    exact hothers

theorem Moves.alone {s s' : Sender} {a : SenderAction} (h : Moves o s a s') (hi : Alone s.net)
    (hsole : ∀ x, s.net.tasks.countP (Task.writesOn x) ≤ 1) (hg : FreshWrite s a) :
    Alone s'.net := by
  cases h with
  | control h => cases h <;> exact hi
  | dial h => exact h.alone hi
  | reports _ h | reported _ h =>
    obtain ⟨-, -, -, -, hnet, -⟩ := h.frame
    exact hnet ▸ hi
  | handled ha ht h =>
    exact h.alone ht hi hsole fun p x hp hx => (hg _ _ _ p x ha ht hp hx).1
  | stopper h =>
    cases h with
    | stops => exact hi.close _
    | _ => exact hi
  | rejects | accepts | closes | exits | requests => exact hi

theorem Moves.sockets_le {s s' : Sender} {a : SenderAction} (h : Moves o s a s') :
    s.net.sockets ≤ s'.net.sockets := by
  cases h with
  | control h | stopper h => cases h <;> exact Nat.le_refl _
  | dial h =>
    cases h with
    | emplaces | reattempts => exact Nat.le_succ _
    | _ => exact Nat.le_refl _
  | reports _ h | reported _ h =>
    obtain ⟨-, -, -, -, hnet, -⟩ := h.frame
    simp only [hnet, Nat.le_refl]
  | handled _ _ h =>
    generalize Task.phase _ = phase at h
    cases h with
    | calls hk | ends hk =>
      obtain ⟨-, -, -, -, hnet, -⟩ := hk.frame
      simp only [hnet, Net.put_sockets, Nat.le_refl]
    | _ => exact Nat.le_refl _
  | rejects | accepts | closes | exits | requests => exact Nat.le_refl _

/-- The worker waits for a chunk, no task is left, and no runner has been asked to stop. -/
structure AtRest (o : SenderOptions) (s : Sender) : Prop where
  worker : s.worker = .popping
  queue : s.queue = []
  closed : s.closed = false
  stopper : s.stopper = .idle
  tasks : s.net.tasks = []
  runner : ∀ c < o.slots, (s.net.conns c).runnerStop = false

theorem AtRest.stuck {s : Sender} (h : s.AtRest o) :
    Stuck (step o) SenderAction.Internal s := by
  have htask : ∀ i f, s.task i f = none := by
    intro i f
    simp only [task, h.tasks, Pool.take, List.getElem?_nil, Option.map_none, Option.bind_none]
  intro a ha
  cases a with
  | push | close | callStop | wakeWorker | wakeStopper => exact ha.elim
  | work ok =>
    simp only [step, work, h.worker, h.queue, h.closed]
    rfl
  | handle i | write i n | fail i => exact htask ..
  | exitRunner c =>
    simp only [step]
    split
    · next hc =>
      unfold Net.exitRunner
      rw [if_neg fun hrun => by rw [h.runner c hc] at hrun; cases hrun.2.1]
      rfl
    · rfl
  | stop => simp only [step, advanceStop, h.stopper]

end Sender

end SuperVoice.Client
