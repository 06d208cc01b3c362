import Mathlib.Tactic.Common

/-! A mutex that is not recursive, as one thread sees it: the thread waits for ever for a lock that
it holds. -/
namespace Mutex
variable {σ : Type*}

/-- Why a call does not return. -/
inductive Halt where
  | deadlock
  /-- The calls go deeper than a bound. -/
  | depth
  deriving DecidableEq

/-- A value and the mutex that guards it. -/
structure Guarded (σ : Type*) where
  held : Bool := false
  value : σ

abbrev Action (σ : Type*) := Guarded σ → Except Halt (Guarded σ)

/-- `std::lock_guard` over a scope. -/
def withLock (body : Action σ) (s : Guarded σ) : Except Halt (Guarded σ) :=
  if s.held then .error .deadlock
  else (body { s with held := true }).map fun s => { s with held := false }

def update (f : σ → σ) (s : Guarded σ) : Except Halt (Guarded σ) :=
  .ok { s with value := f s.value }

section
variable {body : Action σ} {v v' : σ} {halt : Halt}

@[simp] theorem update_mk (f : σ → σ) (held : Bool) (v : σ) :
    update f ⟨held, v⟩ = .ok ⟨held, f v⟩ := rfl

theorem withLock_ok (h : body ⟨true, v⟩ = .ok ⟨true, v'⟩) :
    withLock body ⟨false, v⟩ = .ok ⟨false, v'⟩ := by
  simp [withLock, h, Except.map]

theorem withLock_error (h : body ⟨true, v⟩ = .error halt) :
    withLock body ⟨false, v⟩ = .error halt := by
  simp [withLock, h, Except.map]

end

end Mutex
