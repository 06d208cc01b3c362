import Mathlib.Data.List.Basic
import Mathlib.Tactic.Common

/-! Readers that invert an encoding exactly: a value comes out if and only if its encoding stands at
the front of what is left of the input. -/
namespace Codec
variable {σ β ε α γ : Type}

/-- What a reader works on: what is left of the input, the states it may be in, and the faults that
must not happen. -/
structure Input (σ β ε : Type) where
  rest : σ → List β
  valid : σ → Prop
  forbidden : ε → Prop

/-- `dec` inverts `enc` on the values that are `ok`. -/
structure Inverts (input : Input σ β ε) (dec : StateT σ (Except ε) α) (enc : α → List β)
    (ok : α → Prop) : Prop where
  complete : ∀ s a t, input.valid s → ok a → input.rest s = enc a ++ t →
    ∃ s', dec s = .ok (a, s') ∧ input.valid s' ∧ input.rest s' = t
  sound : ∀ s a s', input.valid s → dec s = .ok (a, s') →
    ok a ∧ input.valid s' ∧ input.rest s = enc a ++ input.rest s'
  safe : ∀ s e, input.valid s → dec s = .error e → ¬input.forbidden e

variable {input : Input σ β ε} {ok : γ → Prop} {enc : γ → List β}

theorem inverts_pure (c : γ) (hok : ∀ c', ok c' ↔ c' = c) :
    Inverts input (pure c) (fun _ => []) ok where
  complete s a t hs ha hr := by
    cases (hok a).mp ha
    exact ⟨s, rfl, hs, hr⟩
  sound s a s' hs h := by
    cases h
    exact ⟨(hok _).mpr rfl, hs, rfl⟩
  safe s e hs h := by cases h

/-- A reader that gives up is right where no value is allowed. -/
theorem inverts_throw {e : ε} (he : ¬input.forbidden e) (hok : ∀ c, ¬ok c) :
    Inverts input (throw e) enc ok where
  complete s a t hs ha := absurd ha (hok a)
  sound s a s' hs h := by cases h
  safe s e' hs h := by
    cases h
    exact he

/-- What has been read first is a part of the value that comes out. -/
theorem Inverts.bind {dec : StateT σ (Except ε) α} {k : α → StateT σ (Except ε) γ}
    {first : α → List β} {second : γ → List β} {okFirst : α → Prop} (part : γ → α)
    (h : Inverts input dec first okFirst)
    (hk : ∀ a, okFirst a → Inverts input (k a) second fun c => ok c ∧ part c = a)
    (hok : ∀ c, ok c → okFirst (part c)) :
    Inverts input (dec >>= k) (fun c => first (part c) ++ second c) ok where
  complete s c t hs hc hr := by
    rw [List.append_assoc] at hr
    obtain ⟨s₁, hdec, hs₁, hr₁⟩ := h.complete s (part c) _ hs (hok c hc) hr
    obtain ⟨s₂, hdec₂, hs₂, hr₂⟩ := (hk _ (hok c hc)).complete s₁ c t hs₁ ⟨hc, rfl⟩ hr₁
    refine ⟨s₂, ?_, hs₂, hr₂⟩
    show (dec s >>= fun p => k p.1 p.2) = _
    rw [hdec]
    exact hdec₂
  sound s c s' hs hbind := by
    have hbind : (dec s >>= fun p => k p.1 p.2) = .ok (c, s') := hbind
    cases hdec : dec s with
    | error e =>
      rw [hdec] at hbind
      cases hbind
    | ok p =>
      rw [hdec] at hbind
      obtain ⟨hok₁, hs₁, hr₁⟩ := h.sound s p.1 p.2 hs hdec
      obtain ⟨⟨hok₂, hpart⟩, hs₂, hr₂⟩ := (hk p.1 hok₁).sound p.2 c s' hs₁ hbind
      refine ⟨hok₂, hs₂, ?_⟩
      rw [hr₁, hr₂, hpart, List.append_assoc]
  safe s e hs hbind := by
    have hbind : (dec s >>= fun p => k p.1 p.2) = .error e := hbind
    cases hdec : dec s with
    | error e' =>
      rw [hdec] at hbind
      cases hbind
      exact h.safe s e hs hdec
    | ok p =>
      rw [hdec] at hbind
      obtain ⟨hok₁, hs₁, -⟩ := h.sound s p.1 p.2 hs hdec
      exact (hk p.1 hok₁).safe p.2 e hs₁ hbind

/-- Reading a part of which everything else is a function. -/
theorem Inverts.map {dec : StateT σ (Except ε) α} {first : α → List β} {okFirst : α → Prop}
    {f : α → γ} (h : Inverts input dec first okFirst)
    (hok : ∀ c, ok c ↔ ∃ a, okFirst a ∧ c = f a) (henc : ∀ a, enc (f a) = first a) :
    Inverts input (dec >>= fun a => pure (f a)) enc ok where
  complete s c t hs hc hr := by
    obtain ⟨a, ha, rfl⟩ := (hok c).mp hc
    obtain ⟨s', hdec, hs', hr'⟩ := h.complete s a t hs ha (henc a ▸ hr)
    refine ⟨s', ?_, hs', hr'⟩
    show (dec s >>= fun p => pure (f p.1, p.2)) = _
    rw [hdec]
    rfl
  sound s c s' hs hbind := by
    have hbind : (dec s >>= fun p => pure (f p.1, p.2)) = .ok (c, s') := hbind
    cases hdec : dec s with
    | error e =>
      rw [hdec] at hbind
      cases hbind
    | ok p =>
      rw [hdec] at hbind
      cases hbind
      obtain ⟨ha, hs', hr⟩ := h.sound s p.1 p.2 hs hdec
      exact ⟨(hok _).mpr ⟨p.1, ha, rfl⟩, hs', (henc p.1).symm ▸ hr⟩
  safe s e hs hbind := by
    have hbind : (dec s >>= fun p => pure (f p.1, p.2)) = .error e := hbind
    cases hdec : dec s with
    | error e' =>
      rw [hdec] at hbind
      cases hbind
      exact h.safe s e hs hdec
    | ok p =>
      rw [hdec] at hbind
      cases hbind

end Codec
