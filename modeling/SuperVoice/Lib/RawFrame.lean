import SuperVoice.Lib.StreamCodec

/-! The shortest compressed frames: a frame header, then one uncompressed block of fewer than 32
bytes. Their codec holds its input back until the end and shows that the promises of
`StreamCodec` can be kept. -/
namespace RawFrame
open StreamCodec

def magic : Bytes := [0x28, 0xB5, 0x2F, 0xFD, 0x00, 0x58]

/-- Frame header and the header of a last raw block of `n` bytes. -/
def header (n : Nat) : Bytes := magic ++ [(8 * n + 1).toUInt8, 0, 0]

def frame (content : Bytes) : Bytes := header content.length ++ content

def Accepts (b : Bytes) : Prop := ∃ n < 32, b.take 9 <+: header n ∧ b.length ≤ 9 + n
def Complete (b : Bytes) : Prop := ∃ n < 32, b.take 9 = header n ∧ b.length = 9 + n

instance (b : Bytes) : Decidable (Accepts b) := inferInstanceAs (Decidable (∃ _, _ ∧ _))
instance (b : Bytes) : Decidable (Complete b) := inferInstanceAs (Decidable (∃ _, _ ∧ _))

/-- One decoding call when `s` has been read of the frame. -/
def decode (s inp : Bytes) : Option (Call Bytes) :=
  if Accepts (s ++ inp) then
    some ⟨s ++ inp, inp.length, ((s ++ inp).drop 9).drop (s.length - 9),
      if Complete (s ++ inp) then 0 else 1⟩
  else none

abbrev decoder : Decoder := ⟨Bytes, [], decode⟩

/-- The state is the content taken so far. -/
abbrev encoder : Encoder where
  State := Bytes
  init := []
  compress s inp := some ⟨s ++ inp, inp.length, [], 0⟩
  finish s := some ⟨[], 0, frame s, 0⟩

theorem length_header (n : Nat) : (header n).length = 9 := rfl

theorem length_frame (content : Bytes) : (frame content).length = 9 + content.length := by
  rw [frame, List.length_append, length_header]

theorem drop_frame (content : Bytes) : (frame content).drop 9 = content := by
  rw [frame, List.drop_append_of_le_length (length_header _).ge,
    List.drop_of_length_le (length_header _).le, List.nil_append]

theorem header_inj {m n : Nat} (hm : m < 32) (hn : n < 32) (h : header m = header n) : m = n := by
  have h6 : (8 * m + 1).toUInt8 = (8 * n + 1).toUInt8 := by
    simpa [header] using h
  have := congrArg UInt8.toNat h6
  simp only [Nat.toUInt8_eq, UInt8.toNat_ofNat'] at this
  omega

theorem take_frame (content : Bytes) : (frame content).take 9 = header content.length := by
  rw [frame, List.take_append_of_le_length (length_header _).ge]
  exact List.take_of_length_le (length_header _).le

theorem take_prefix_header {content b : Bytes} (hb : b <+: frame content) :
    b.take 9 <+: header content.length := take_frame content ▸ hb.take 9

theorem complete_iff {content b : Bytes} (hlen : content.length < 32) (hb : b <+: frame content) :
    Complete b ↔ b = frame content := by
  have hfl := length_frame content
  constructor
  · rintro ⟨n, hn, htake, hblen⟩
    have hpre := take_prefix_header hb
    rw [htake] at hpre
    have heq := hpre.eq_of_length (by rw [length_header, length_header])
    have hcn := header_inj hn hlen heq
    exact hb.eq_of_length (by rw [hblen, hfl, hcn])
  · rintro rfl
    exact ⟨content.length, hlen, take_frame content, hfl⟩

theorem terminates : decoder.Terminates := by
  intro s p inp
  by_cases hi : inp = []
  · exact ⟨0, _, hi ▸ drive_nil _ _ _ _⟩
  · by_cases ha : Accepts (s ++ inp)
    · exact ⟨1, _, drive_one hi (if_pos ha) (Nat.le_refl _)⟩
    · exact ⟨1, _, drive_error hi (if_neg ha)⟩

/-- What the decoder has emitted is what of the frame lies behind its headers. -/
theorem decodes {content : Bytes} (hlen : content.length < 32) :
    Decoder.Decodes decoder (frame content) content fun u w s => s = u ∧ w = u.drop 9 where
  start := ⟨rfl, rfl⟩
  call := by
    rintro u w _ inp ⟨rfl, rfl⟩ - hpre
    rename_i u
    have hacc : Accepts (u ++ inp) := by
      refine ⟨content.length, hlen, take_prefix_header hpre, ?_⟩
      exact length_frame content ▸ hpre.length_le
    refine ⟨_, if_pos hacc, Nat.le_refl _, ⟨by simp, ?_⟩, ?_⟩
    · simp only [List.take_length, List.drop_append, List.drop_drop]
      by_cases hs : 9 ≤ u.length
      · have h2 : u.drop (9 + (u.length - 9)) = [] := List.drop_of_length_le (by omega)
        have h3 : 9 - u.length = 0 := by omega
        simp [h2, h3]
      · have h1 : u.length - 9 = 0 := by omega
        have h2 : u.drop 9 = [] := List.drop_of_length_le (by omega)
        simp [h1, h2]
    · simp only [List.take_length]
      rw [← complete_iff hlen hpre]
      by_cases hc : Complete (u ++ inp) <;> simp [hc]
  finished := by
    rintro w _ ⟨-, rfl⟩
    exact drop_frame _

theorem compress_all (s : Bytes) (p : Nat) (inp : Bytes) : ∃ n p',
    drive encoder.compress n s p inp = some ⟨[], some (s ++ inp, p')⟩ := by
  by_cases hi : inp = []
  · exact ⟨0, p, by rw [hi, drive_nil, List.append_nil]⟩
  · exact ⟨1, 0, drive_one (c := ⟨s ++ inp, inp.length, [], 0⟩) hi rfl (Nat.le_refl _)⟩

theorem session_state {u w : Bytes} {s : encoder.State} (h : encoder.Session u w s) :
    s = u ∧ w = [] := by
  induction h with
  | nil => exact ⟨rfl, rfl⟩
  | @feed u w inp s s' o n p p' _ hf ih =>
    obtain ⟨rfl, rfl⟩ := ih
    obtain ⟨m, p'', hall⟩ := compress_all s p inp
    cases drive_unique hf hall
    exact ⟨rfl, rfl⟩

theorem compresses {content : Bytes} (hlen : content.length < 32) :
    encoder.Compresses decoder content where
  consumes := fun {_ _ s} _ p inp _ =>
    let ⟨n, p', h⟩ := compress_all s p inp
    ⟨n, [], s ++ inp, p', h⟩
  closes := fun _ => ⟨1, _, rfl⟩
  one_frame := by
    intro w s n o hs hd
    obtain ⟨rfl, rfl⟩ := session_state hs
    cases n with
    | zero => cases hd
    | succ n =>
      cases hd
      exact ⟨by simp [frame, header, magic], _, decodes hlen⟩

end RawFrame
