import SuperVoice.Lib.Bytes
import Mathlib.Data.List.Infix

/-! Streaming compression interfaces and the loops that drive them. A call may take less
than it is offered and may return output; `ret` is its return value. What a codec promises is
stated on its state machine, so that every way of cutting the data into buffers is covered. -/
namespace StreamCodec

/-- The effect of one call. -/
structure Call (S : Type) where
  state : S
  consumed : Nat
  output : Bytes
  ret : Nat

/-- The effect of driving a codec over one buffer: `next` is missing after an error. -/
structure Fed (S : Type) where
  output : Bytes
  next : Option (S × Nat)

variable {S : Type}

def Fed.prepend (o : Bytes) (r : Fed S) : Fed S := ⟨o ++ r.output, r.next⟩

/-- Call until the buffer is used up; `none` when `fuel` calls did not do it. -/
def drive (call : S → Bytes → Option (Call S)) : Nat → S → Nat → Bytes → Option (Fed S)
  | 0, s, p, inp => if inp = [] then some ⟨[], some (s, p)⟩ else none
  | n + 1, s, p, inp =>
    if inp = [] then some ⟨[], some (s, p)⟩
    else match call s inp with
      | none => some ⟨[], none⟩
      | some c => (drive call n c.state c.ret (inp.drop c.consumed)).map (Fed.prepend c.output)

theorem drive_nil (call : S → Bytes → Option (Call S)) (n : Nat) (s : S) (p : Nat) :
    drive call n s p [] = some ⟨[], some (s, p)⟩ := by
  cases n <;> simp [drive]

/-- A call that takes the whole buffer is the only one. -/
theorem drive_one {call : S → Bytes → Option (Call S)} {s : S} {p : Nat} {inp : Bytes}
    {c : Call S} (hi : inp ≠ []) (hc : call s inp = some c) (hall : inp.length ≤ c.consumed) :
    drive call 1 s p inp = some ⟨c.output, some (c.state, c.ret)⟩ := by
  simp only [drive, hi, if_false, hc, List.drop_of_length_le hall, if_true, Option.map_some,
    Fed.prepend, List.append_nil]

theorem drive_error {call : S → Bytes → Option (Call S)} {s : S} {p : Nat} {inp : Bytes}
    (hi : inp ≠ []) (hc : call s inp = none) : drive call 1 s p inp = some ⟨[], none⟩ := by
  simp only [drive, hi, if_false, hc]

theorem drive_succ {call : S → Bytes → Option (Call S)} {n : Nat} {s : S} {p : Nat}
    {inp : Bytes} {r : Fed S} (h : drive call n s p inp = some r) :
    drive call (n + 1) s p inp = some r := by
  induction n generalizing s p inp r with
  | zero =>
    by_cases hi : inp = []
    · simpa [drive, hi] using h
    · simp [drive, hi] at h
  | succ n ih =>
    by_cases hi : inp = []
    · simpa [drive, hi] using h
    · rw [drive, if_neg hi] at h ⊢
      cases hc : call s inp with
      | none => simpa [hc] using h
      | some c =>
        simp only [hc] at h ⊢
        obtain ⟨r', hr', rfl⟩ := Option.map_eq_some_iff.mp h
        rw [ih hr']
        rfl

theorem drive_mono {call : S → Bytes → Option (Call S)} {n m : Nat} (hnm : n ≤ m) {s : S}
    {p : Nat} {inp : Bytes} {r : Fed S} (h : drive call n s p inp = some r) :
    drive call m s p inp = some r := by
  induction hnm with
  | refl => exact h
  | step _ ih => exact drive_succ ih

/-- Fuel decides whether a result is there, never which one. -/
theorem drive_unique {call : S → Bytes → Option (Call S)} {n m : Nat} {s : S} {p : Nat}
    {inp : Bytes} {r r' : Fed S} (h : drive call n s p inp = some r)
    (h' : drive call m s p inp = some r') : r = r' := by
  have h₁ := drive_mono (Nat.le_max_left n m) h
  have h₂ := drive_mono (Nat.le_max_right n m) h'
  exact Option.some.inj (h₁.symm.trans h₂)

structure Decoder where
  State : Type
  init : State
  call : State → Bytes → Option (Call State)

namespace Decoder
variable (D : Decoder)

/-- The decoder uses up or rejects every buffer it is given. -/
def Terminates : Prop := ∀ s p inp, ∃ n r, drive D.call n s p inp = some r

/-- Buffers `bs` decoded one after the other gave `out` and left state `s`, the last call
having returned `p`. -/
inductive Decoding : List Bytes → Bytes → D.State → Nat → Prop where
  | nil : Decoding [] [] D.init 0
  | snoc {bs : List Bytes} {out b o : Bytes} {s s' : D.State} {p p' n : Nat}
      (h : Decoding bs out s p) (hb : drive D.call n s p b = some ⟨o, some (s', p')⟩) :
      Decoding (bs ++ [b]) (out ++ o) s' p'

/-- The whole of `bs` is accepted as complete frames with content `out`. -/
def DecompressesTo (bs : List Bytes) (out : Bytes) : Prop := ∃ s, D.Decoding bs out s 0

variable {D}

theorem Decoding.unique {bs : List Bytes} {out out' : Bytes} {s s' : D.State} {p p' : Nat}
    (h : D.Decoding bs out s p) (h' : D.Decoding bs out' s' p') :
    out = out' ∧ s = s' ∧ p = p' := by
  induction h generalizing out' s' p' with
  | nil =>
    generalize hbs : ([] : List Bytes) = bs at h'
    cases h' with
    | nil => exact ⟨rfl, rfl, rfl⟩
    | snoc _ _ => simp at hbs
  | snoc hpre hb ih =>
    generalize hbs : _ ++ [_] = bs at h'
    cases h' with
    | nil => simp at hbs
    | snoc hpre' hb' =>
      obtain ⟨rfl, hbb⟩ := List.append_inj' hbs rfl
      obtain rfl := List.singleton_inj.mp hbb
      obtain ⟨rfl, rfl, rfl⟩ := ih hpre'
      have := drive_unique hb hb'
      cases this
      exact ⟨rfl, rfl, rfl⟩

/-- Inside a decoding that goes through, the buffer after the first ones is accepted. -/
theorem Decoding.next {bs xs ys : List Bytes} {b out out' : Bytes} {s s' : D.State} {p p' : Nat}
    (h : D.Decoding bs out s p) (hbs : bs = xs ++ b :: ys) (h' : D.Decoding xs out' s' p') :
    ∃ n o s₁ p₁, drive D.call n s' p' b = some ⟨o, some (s₁, p₁)⟩ := by
  induction h generalizing ys with
  | nil => simp at hbs
  | @snoc bs out b₁ o s s₁ p p₁ n hpre hb ih =>
    cases hys : ys using List.reverseRecOn with
    | nil =>
      rw [hys] at hbs
      obtain ⟨rfl, hlast⟩ := List.append_inj' hbs rfl
      cases List.singleton_inj.mp hlast
      obtain ⟨-, rfl, rfl⟩ := hpre.unique h'
      exact ⟨n, o, s₁, p₁, hb⟩
    | append_singleton ys b₂ =>
      rw [hys, ← List.cons_append, ← List.append_assoc] at hbs
      exact ih (List.append_inj' hbs rfl).1

theorem DecompressesTo.unique {bs : List Bytes} {out out' : Bytes}
    (h : D.DecompressesTo bs out) (h' : D.DecompressesTo bs out') : out = out' :=
  let ⟨_, hs⟩ := h
  let ⟨_, hs'⟩ := h'
  (hs.unique hs').1

/-- `D` decodes `frame` to `content` wherever the buffer boundaries fall: `R u w s` holds when
`u` has been taken and `w` emitted, and a call returns 0 exactly at the end of the frame. -/
structure Decodes (D : Decoder) (frame content : Bytes) (R : Bytes → Bytes → D.State → Prop) :
    Prop where
  start : R [] [] D.init
  call : ∀ {u w s inp}, R u w s → inp ≠ [] → u ++ inp <+: frame →
    ∃ c, D.call s inp = some c ∧ c.consumed ≤ inp.length ∧
      R (u ++ inp.take c.consumed) (w ++ c.output) c.state ∧
      (c.ret = 0 ↔ u ++ inp.take c.consumed = frame)
  finished : ∀ {w s}, R frame w s → w = content

variable {frame content : Bytes} {R : Bytes → Bytes → D.State → Prop}

theorem Decodes.drive (h : Decodes D frame content R) {n : Nat} {u w inp : Bytes} {s : D.State}
    {p : Nat} {r : Fed D.State} (hR : R u w s) (hu : u ++ inp <+: frame)
    (hr : StreamCodec.drive D.call n s p inp = some r) :
    ∃ s' p', r.next = some (s', p') ∧ R (u ++ inp) (w ++ r.output) s' ∧
      (inp ≠ [] → (p' = 0 ↔ u ++ inp = frame)) := by
  induction n generalizing u w s p inp r with
  | zero =>
    by_cases hi : inp = []
    · simp only [StreamCodec.drive, hi, if_true] at hr
      cases hr
      exact ⟨s, p, rfl, by simpa [hi] using hR, fun hne => absurd hi hne⟩
    · simp [StreamCodec.drive, hi] at hr
  | succ n ih =>
    by_cases hi : inp = []
    · simp only [StreamCodec.drive, hi, if_true] at hr
      cases hr
      exact ⟨s, p, rfl, by simpa [hi] using hR, fun hne => absurd hi hne⟩
    · obtain ⟨c, hc, hle, hR', hret⟩ := h.call hR hi hu
      simp only [StreamCodec.drive, hi, if_false, hc] at hr
      obtain ⟨r', hr', rfl⟩ := Option.map_eq_some_iff.mp hr
      have hsplit : u ++ inp.take c.consumed ++ inp.drop c.consumed = u ++ inp := by
        rw [List.append_assoc, List.take_append_drop]
      obtain ⟨s', p', hnext, hR'', hp'⟩ := ih hR' (by rw [hsplit]; exact hu) hr'
      rw [hsplit] at hR'' hp'
      refine ⟨s', p', hnext, by simpa [Fed.prepend] using hR'', fun _ => ?_⟩
      by_cases hrest : inp.drop c.consumed = []
      · -- the last call took everything, so the loop ends with its return value
        rw [hrest, drive_nil] at hr'
        cases hr'
        cases hnext
        rw [hret, ← hsplit, hrest, List.append_nil]
      · exact hp' hrest

/-- Every split of the frame into non-empty buffers decodes to the content. -/
theorem Decodes.decoding (h : Decodes D frame content R) (hD : D.Terminates)
    (bs : List Bytes) (hne : ∀ b ∈ bs, b ≠ []) (hbs : bs.flatten <+: frame) :
    ∃ out s p, D.Decoding bs out s p ∧ R bs.flatten out s ∧
      (bs ≠ [] → (p = 0 ↔ bs.flatten = frame)) := by
  induction bs using List.reverseRecOn with
  | nil => exact ⟨[], D.init, 0, .nil, h.start, fun hne => absurd rfl hne⟩
  | append_singleton bs b ih =>
    have hflat : (bs ++ [b]).flatten = bs.flatten ++ b := by simp
    rw [hflat] at hbs ⊢
    obtain ⟨out, s, p, hdec, hR, -⟩ := ih (fun x hx => hne x (by simp [hx]))
      ((List.prefix_append _ _).trans hbs)
    obtain ⟨n, r, hr⟩ := hD s p b
    obtain ⟨s', p', hnext, hR', hp'⟩ := h.drive hR hbs hr
    have hb : StreamCodec.drive D.call n s p b = some ⟨r.output, some (s', p')⟩ := by
      rw [hr, ← hnext]
    exact ⟨out ++ r.output, s', p', .snoc hdec hb, hR', fun _ => hp' (hne b (by simp))⟩

theorem Decodes.decompressesTo (h : Decodes D frame content R) (hD : D.Terminates)
    {bs : List Bytes} (hne : ∀ b ∈ bs, b ≠ []) (hbs : bs.flatten = frame) (hbs0 : bs ≠ []) :
    D.DecompressesTo bs content := by
  obtain ⟨out, s, p, hdec, hR, hp⟩ := h.decoding hD bs hne (hbs ▸ List.prefix_refl _)
  rw [hbs] at hR
  have hp0 : p = 0 := (hp hbs0).mpr hbs
  have hout : out = content := h.finished hR
  subst hp0 hout
  exact ⟨s, hdec⟩

end Decoder

structure Encoder where
  State : Type
  init : State
  compress : State → Bytes → Option (Call State)
  finish : State → Option (Call State)

namespace Encoder
variable (E : Encoder)

/-- Repeat the final flush until it returns 0; the inner `none` is an error. -/
def drain : Nat → E.State → Option (Option Bytes)
  | 0, _ => none
  | n + 1, s =>
    match E.finish s with
    | none => some none
    | some c =>
      if c.ret = 0 then some (some c.output)
      else (drain n c.state).map (Option.map (c.output ++ ·))

/-- The encoder took `u` in some pieces, emitted `w` and is in state `s`. -/
inductive Session : Bytes → Bytes → E.State → Prop where
  | nil : Session [] [] E.init
  | feed {u w inp : Bytes} {s s' : E.State} {o : Bytes} {n p p' : Nat} (h : Session u w s)
      (hf : drive E.compress n s p inp = some ⟨o, some (s', p')⟩) :
      Session (u ++ inp) (w ++ o) s'

/-- Given `content` in any pieces, the encoder takes all of it and emits in total one
non-empty frame, which `D` decodes back. -/
structure Compresses (E : Encoder) (D : Decoder) (content : Bytes) : Prop where
  consumes : ∀ {u w s}, E.Session u w s → ∀ p inp, u ++ inp <+: content →
    ∃ n o s' p', drive E.compress n s p inp = some ⟨o, some (s', p')⟩
  closes : ∀ {w s}, E.Session content w s → ∃ n o, E.drain n s = some (some o)
  one_frame : ∀ {w s n o}, E.Session content w s → E.drain n s = some (some o) →
    w ++ o ≠ [] ∧ ∃ R, Decoder.Decodes D (w ++ o) content R

variable {E}

theorem drain_succ {n : Nat} {s : E.State} {o : Option Bytes} (h : E.drain n s = some o) :
    E.drain (n + 1) s = some o := by
  induction n generalizing s o with
  | zero => cases h
  | succ n ih =>
    rw [drain] at h ⊢
    cases hf : E.finish s with
    | none => simpa [hf] using h
    | some c =>
      simp only [hf] at h ⊢
      by_cases hc : c.ret = 0
      · simpa [hc] using h
      · rw [if_neg hc] at h ⊢
        obtain ⟨o', ho', rfl⟩ := Option.map_eq_some_iff.mp h
        rw [ih ho']
        rfl

theorem drain_mono {n m : Nat} (hnm : n ≤ m) {s : E.State} {o : Option Bytes}
    (h : E.drain n s = some o) : E.drain m s = some o := by
  induction hnm with
  | refl => exact h
  | step _ ih => exact drain_succ ih

end Encoder
end StreamCodec
