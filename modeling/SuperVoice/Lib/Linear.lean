import Mathlib.Data.List.Induction
import Mathlib.Data.List.Nodup
import Mathlib.Tactic.Common

/-! Linearizability of histories of calls and returns, and its proof from commit points: operations
that each take effect at one moment between call and return are linearized by the order of these
moments. -/
namespace Linear
variable {ι Op Res : Type*}

inductive Event (ι Op Res : Type*) where
  | call (i : ι) (op : Op)
  | ret (i : ι) (res : Res)

/-- An operation that has taken effect, with its result. -/
structure Commit (ι Op Res : Type*) where
  id : ι
  op : Op
  res : Res

/-- What callers see, and between it the moments at which operations take effect. -/
abbrev Trace (ι Op Res : Type*) := List (Event ι Op Res ⊕ Commit ι Op Res)

/-- `l` puts operations of the history `h` in a sequential order: a legal one, in which each
operation stands at most once and those that have returned stand with their result, and one that
keeps the order of operations that do not overlap. -/
structure Linearizes (legal : List (Op × Res) → Prop) (h : List (Event ι Op Res))
    (l : List (Commit ι Op Res)) : Prop where
  legal : legal (l.map fun c => (c.op, c.res))
  once : (l.map Commit.id).Nodup
  called : ∀ c ∈ l, Event.call c.id c.op ∈ h
  returned : ∀ i r, Event.ret i r ∈ h → ∃ op, ⟨i, op, r⟩ ∈ l
  ordered : ∀ c ∈ l, ∀ d ∈ l, ∀ r op, [Event.ret c.id r, Event.call d.id op].Sublist h →
    [c, d].Sublist l

def history (tr : Trace ι Op Res) : List (Event ι Op Res) := tr.filterMap Sum.getLeft?

def commits (tr : Trace ι Op Res) : List (Commit ι Op Res) := tr.filterMap Sum.getRight?

/-- The operation a moment of the trace belongs to. -/
def owner : Event ι Op Res ⊕ Commit ι Op Res → ι
  | .inl (.call i _) | .inl (.ret i _) => i
  | .inr c => c.id

theorem mem_commits {tr : Trace ι Op Res} {c : Commit ι Op Res} :
    c ∈ commits tr ↔ .inr c ∈ tr := by
  simp [commits, List.mem_filterMap, Sum.getRight?_eq_some_iff]

theorem mem_history {tr : Trace ι Op Res} {e : Event ι Op Res} :
    e ∈ history tr ↔ .inl e ∈ tr := by
  simp [history, List.mem_filterMap, Sum.getLeft?_eq_some_iff]

@[simp] theorem commits_append_event (tr : Trace ι Op Res) (e : Event ι Op Res) :
    commits (tr ++ [.inl e]) = commits tr :=
  (List.filterMap_append ..).trans (List.append_nil _)

@[simp] theorem commits_append_commit (tr : Trace ι Op Res) (c : Commit ι Op Res) :
    commits (tr ++ [.inr c]) = commits tr ++ [c] := List.filterMap_append ..

/-- The moments of a whole operation. -/
def lifetime (i : ι) (op : Op) (r : Res) : Trace ι Op Res :=
  [.inl (.call i op), .inr ⟨i, op, r⟩, .inl (.ret i r)]

/-- What precedes a moment of an operation. -/
theorem lifetime_split {i : ι} {op : Op} {r : Res} {x y : Trace ι Op Res}
    {e : Event ι Op Res ⊕ Commit ι Op Res} (h : x ++ e :: y <+: lifetime i op r) :
    x = [] ∧ e = .inl (.call i op) ∨ x = [.inl (.call i op)] ∧ e = .inr ⟨i, op, r⟩ ∨
      x = [.inl (.call i op), .inr ⟨i, op, r⟩] ∧ e = .inl (.ret i r) := by
  unfold lifetime at h
  cases x with
  | nil =>
    left
    exact ⟨rfl, (List.cons_prefix_cons.mp h).1⟩
  | cons a x =>
    rw [List.cons_append, List.cons_prefix_cons] at h
    obtain ⟨rfl, h₁⟩ := h
    right
    cases x with
    | nil =>
      left
      exact ⟨rfl, (List.cons_prefix_cons.mp h₁).1⟩
    | cons b x =>
      rw [List.cons_append, List.cons_prefix_cons] at h₁
      obtain ⟨rfl, h₂⟩ := h₁
      right
      cases x with
      | nil => exact ⟨rfl, (List.cons_prefix_cons.mp h₂).1⟩
      | cons c x =>
        rw [List.cons_append, List.cons_prefix_cons] at h₂
        exact absurd (List.prefix_nil.mp h₂.2) (List.append_ne_nil_of_right_ne_nil _ (by simp))

section
variable [DecidableEq ι] {tr : Trace ι Op Res} {i : ι}

/-- The moments of operation `i`. -/
def project (i : ι) (tr : Trace ι Op Res) : Trace ι Op Res := tr.filter fun e => owner e = i

/-- Every operation is called, takes effect and returns in this order, or is on its way. -/
def Orderly (tr : Trace ι Op Res) : Prop := ∀ i, ∃ op r, project i tr <+: lifetime i op r

theorem project_append (tr tr' : Trace ι Op Res) :
    project i (tr ++ tr') = project i tr ++ project i tr' := List.filter_append ..

theorem project_cons_self {e : Event ι Op Res ⊕ Commit ι Op Res} (h : owner e = i) :
    project i (e :: tr) = e :: project i tr := List.filter_cons_of_pos (by simp [h])

theorem project_cons_of_ne {e : Event ι Op Res ⊕ Commit ι Op Res} (h : owner e ≠ i) :
    project i (e :: tr) = project i tr := List.filter_cons_of_neg (by simp [h])

theorem mem_of_project {e : Event ι Op Res ⊕ Commit ι Op Res} (h : e ∈ project i tr) : e ∈ tr :=
  (List.mem_filter.mp h).1

theorem project_snoc_self {e : Event ι Op Res ⊕ Commit ι Op Res} (h : owner e = i) :
    project i (tr ++ [e]) = project i tr ++ [e] := by
  rw [project_append, project_cons_self h]
  rfl

theorem project_snoc_of_ne {e : Event ι Op Res ⊕ Commit ι Op Res} (h : owner e ≠ i) :
    project i (tr ++ [e]) = project i tr := by
  rw [project_append, project_cons_of_ne h]
  exact List.append_nil _

theorem Orderly.append {e : Event ι Op Res ⊕ Commit ι Op Res} (h : Orderly tr) (op : Op) (r : Res)
    (he : project (owner e) tr ++ [e] <+: lifetime (owner e) op r) :
    Orderly (tr ++ [e]) := by
  intro i
  by_cases hi : owner e = i
  · subst hi
    refine ⟨op, r, ?_⟩
    rwa [project_snoc_self rfl]
  · obtain ⟨op, r, hp⟩ := h i
    exact ⟨op, r, (project_snoc_of_ne hi).symm ▸ hp⟩

/-- What precedes a moment in an orderly trace. -/
theorem Orderly.split {x y : Trace ι Op Res} {e : Event ι Op Res ⊕ Commit ι Op Res}
    (h : Orderly (x ++ e :: y)) (he : owner e = i) : ∃ op r,
      project i x = [] ∧ e = .inl (.call i op) ∨
      project i x = [.inl (.call i op)] ∧ e = .inr ⟨i, op, r⟩ ∨
      project i x = [.inl (.call i op), .inr ⟨i, op, r⟩] ∧ e = .inl (.ret i r) := by
  obtain ⟨op, r, hp⟩ := h i
  rw [project_append, project_cons_self he] at hp
  exact ⟨op, r, lifetime_split hp⟩

/-- Before an operation takes effect it has been called. -/
theorem Orderly.call_mem {x y : Trace ι Op Res} {c : Commit ι Op Res}
    (h : Orderly (x ++ .inr c :: y)) : .inl (.call c.id c.op) ∈ x := by
  obtain ⟨op, r, ⟨-, hc⟩ | ⟨hx, hc⟩ | ⟨-, hc⟩⟩ := h.split rfl
  · cases hc
  · obtain rfl : c.op = op := congrArg Commit.op (Sum.inr.inj hc)
    exact mem_of_project (hx ▸ List.mem_singleton_self _)
  · cases hc

/-- Before an operation returns it has taken effect. -/
theorem Orderly.commit_mem {x y : Trace ι Op Res} {r : Res}
    (h : Orderly (x ++ .inl (.ret i r) :: y)) : ∃ op, .inr ⟨i, op, r⟩ ∈ x := by
  obtain ⟨op, r, ⟨-, hr⟩ | ⟨-, hr⟩ | ⟨hx, hr⟩⟩ := h.split rfl
  · cases hr
  · cases hr
  · cases hr
    exact ⟨op, mem_of_project (hx ▸ List.mem_cons_of_mem _ (List.mem_singleton_self _))⟩

/-- Nothing of an operation precedes its call. -/
theorem Orderly.fresh {x y : Trace ι Op Res} {op : Op}
    (h : Orderly (x ++ .inl (.call i op) :: y)) : project i x = [] := by
  obtain ⟨op, r, ⟨hx, -⟩ | ⟨-, hc⟩ | ⟨-, hc⟩⟩ := h.split rfl
  · exact hx
  · cases hc
  · cases hc

theorem Orderly.commits_nodup (h : Orderly tr) : ((commits tr).map Commit.id).Nodup := by
  induction tr using List.reverseRecOn with
  | nil => exact List.nodup_nil
  | append_singleton tr e ih =>
    have htr : Orderly tr := fun i => by
      obtain ⟨op, r, hp⟩ := h i
      rw [project_append] at hp
      exact ⟨op, r, (List.prefix_append _ _).trans hp⟩
    cases e with
    | inl e =>
      rw [commits_append_event]
      exact ih htr
    | inr c =>
      obtain ⟨op, r, ⟨-, hc⟩ | ⟨hx, -⟩ | ⟨-, hc⟩⟩ := h.split rfl
      · cases hc
      · rw [commits_append_commit, List.map_append]
        refine List.nodup_append'.mpr ⟨ih htr, List.nodup_singleton _, fun i hi hc => ?_⟩
        obtain ⟨d, hd, rfl⟩ := List.mem_map.mp hi
        obtain hid : d.id = c.id := List.mem_singleton.mp hc
        have hmem : .inr d ∈ project (owner (.inr c)) tr :=
          List.mem_filter.mpr ⟨mem_commits.mp hd, by simp [owner, hid]⟩
        rw [hx] at hmem
        cases List.mem_singleton.mp hmem
      · cases hc

/-- Commit points linearize: it is enough that their order is legal. -/
theorem Orderly.linearizes {legal : List (Op × Res) → Prop} (h : Orderly tr)
    (hl : legal ((commits tr).map fun c => (c.op, c.res))) :
    Linearizes legal (history tr) (commits tr) where
  legal := hl
  once := h.commits_nodup
  called c hc := by
    obtain ⟨x, y, rfl⟩ := List.mem_iff_append.mp (mem_commits.mp hc)
    exact mem_history.mpr (List.mem_append_left _ h.call_mem)
  returned i r hr := by
    obtain ⟨x, y, rfl⟩ := List.mem_iff_append.mp (mem_history.mp hr)
    obtain ⟨op, hop⟩ := h.commit_mem
    exact ⟨op, mem_commits.mpr (List.mem_append_left _ hop)⟩
  ordered c hc d hd r op hsub := by
    obtain ⟨h₁, h₂, heq, hret, hcall⟩ := List.cons_sublist_iff.mp hsub
    obtain ⟨l₁, l₂, rfl, rfl, rfl⟩ := List.filterMap_eq_append_iff.mp heq
    have hcommits : commits (l₁ ++ l₂) = commits l₁ ++ commits l₂ := List.filterMap_append ..
    have hcl : c ∈ commits l₁ := by
      obtain ⟨x, y, rfl⟩ := List.mem_iff_append.mp (mem_history.mp hret)
      rw [List.append_assoc, List.cons_append] at h hc
      obtain ⟨op', hop⟩ := h.commit_mem
      have hmem : ⟨c.id, op', r⟩ ∈ commits (x ++ .inl (.ret c.id r) :: (y ++ l₂)) :=
        mem_commits.mpr (List.mem_append_left _ hop)
      have hsame := List.inj_on_of_nodup_map h.commits_nodup hc hmem rfl
      exact mem_commits.mpr (List.mem_append_left _ (hsame ▸ hop))
    have hdl : d ∈ commits l₂ := by
      obtain ⟨x, y, rfl⟩ := List.mem_iff_append.mp
        (mem_history.mp (List.singleton_sublist.mp hcall))
      rw [← List.append_assoc] at h hd
      obtain hmem | hmem := List.mem_append.mp (mem_commits.mp hd)
      · have : .inr d ∈ project d.id (l₁ ++ x) := List.mem_filter.mpr ⟨hmem, by simp [owner]⟩
        rw [h.fresh] at this
        cases this
      · exact mem_commits.mpr (List.mem_append_right _ hmem)
    rw [hcommits]
    exact List.cons_sublist_iff.mpr ⟨_, _, rfl, hcl, List.singleton_sublist.mpr hdl⟩

end
end Linear
