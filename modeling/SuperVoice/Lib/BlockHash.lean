import SuperVoice.Lib.Bytes

/-! Hash functions that work through their input in blocks of `n` bytes: byte by byte, piece by
piece or block by block. -/
namespace BlockHash
variable {σ : Type} (compress : σ → Bytes → σ) (n : Nat)

/-- A chaining value and the block that has been begun. -/
structure Pending (σ : Type) where
  state : σ
  bytes : Bytes

def push (p : Pending σ) (byte : UInt8) : Pending σ :=
  if p.bytes.length + 1 = n then ⟨compress p.state (p.bytes ++ [byte]), []⟩
  else ⟨p.state, p.bytes ++ [byte]⟩

def feed (p : Pending σ) (data : Bytes) : Pending σ := data.foldl (push compress n) p

/-- The chaining value after the first `k` blocks. -/
def chain (s : σ) (data : Bytes) (k : Nat) : σ :=
  (List.range k).foldl (fun s i => compress s ((data.drop (n * i)).take n)) s

variable {compress n} {p : Pending σ} {data : Bytes}

@[simp] theorem feed_nil : feed compress n p [] = p := rfl

theorem feed_append (x y : Bytes) :
    feed compress n p (x ++ y) = feed compress n (feed compress n p x) y := List.foldl_append

/-- What does not fill the block is kept. -/
theorem feed_short (h : p.bytes.length + data.length < n) :
    feed compress n p data = ⟨p.state, p.bytes ++ data⟩ := by
  induction data generalizing p with
  | nil => simp
  | cons byte rest ih =>
    rw [List.length_cons] at h
    have hpush : push compress n p byte = ⟨p.state, p.bytes ++ [byte]⟩ := if_neg (by omega)
    show feed compress n (push compress n p byte) rest = _
    rw [hpush, ih (by simp; omega)]
    simp

/-- What just fills the block completes it. -/
theorem feed_fill (hne : data ≠ []) (h : p.bytes.length + data.length = n) :
    feed compress n p data = ⟨compress p.state (p.bytes ++ data), []⟩ := by
  obtain ⟨front, last, rfl⟩ := List.eq_nil_or_concat data |>.resolve_left hne
  rw [List.concat_eq_append, List.length_append, List.length_singleton] at h
  have hfront : feed compress n p front = ⟨p.state, p.bytes ++ front⟩ := feed_short (by omega)
  rw [List.concat_eq_append, feed_append, hfront]
  have hfull : (p.bytes ++ front).length + 1 = n := by
    rw [List.length_append]
    omega
  show push compress n _ last = _
  rw [push, if_pos hfull, List.append_assoc]

theorem length_push_lt (hp : p.bytes.length < n) (byte : UInt8) :
    (push compress n p byte).bytes.length < n := by
  unfold push
  split
  · exact Nat.zero_lt_of_lt hp
  · simp only [List.length_append, List.length_singleton]
    omega

theorem length_feed_lt (hp : p.bytes.length < n) :
    (feed compress n p data).bytes.length < n := by
  induction data generalizing p with
  | nil => exact hp
  | cons byte rest ih => exact ih (length_push_lt hp byte)

/-- Byte by byte the block begun holds what is left over of whole blocks. -/
theorem length_push (hp : p.bytes.length < n) (byte : UInt8) :
    (push compress n p byte).bytes.length = (p.bytes.length + 1) % n := by
  unfold push
  split
  · rename_i hfull
    rw [hfull, Nat.mod_self]
    rfl
  · rename_i hpartial
    rw [Nat.mod_eq_of_lt (by omega), List.length_append]
    rfl

theorem length_feed (hp : p.bytes.length < n) :
    (feed compress n p data).bytes.length = (p.bytes.length + data.length) % n := by
  induction data generalizing p with
  | nil => exact (Nat.mod_eq_of_lt hp).symm
  | cons byte rest ih =>
    show (feed compress n (push compress n p byte) rest).bytes.length = _
    rw [ih (length_push_lt hp byte), length_push hp, Nat.mod_add_mod, List.length_cons,
      Nat.add_right_comm, Nat.add_assoc]

theorem feed_blocks {s : σ} (hn : 0 < n) {k : Nat} (h : n * k ≤ data.length) :
    feed compress n ⟨s, []⟩ (data.take (n * k)) = ⟨chain compress n s data k, []⟩ := by
  induction k with
  | zero => rfl
  | succ k ih =>
    rw [Nat.mul_succ] at h
    have hlen : ((data.drop (n * k)).take n).length = n := by
      rw [List.length_take, List.length_drop]
      omega
    have hne : (data.drop (n * k)).take n ≠ [] := by
      intro hnil
      rw [hnil] at hlen
      exact hn.ne hlen
    rw [Nat.mul_succ, List.take_add, feed_append, ih (by omega),
      feed_fill hne (by simpa using hlen), chain, chain, List.range_succ, List.foldl_append]
    rfl

/-- Whole blocks leave nothing behind. -/
theorem feed_whole {s : σ} (hn : 0 < n) {k : Nat} (h : data.length = n * k) :
    feed compress n ⟨s, []⟩ data = ⟨chain compress n s data k, []⟩ := by
  have hblocks : feed compress n ⟨s, []⟩ (data.take (n * k)) =
      ⟨chain compress n s data k, []⟩ := feed_blocks hn h.ge
  rwa [← h, List.take_length] at hblocks

end BlockHash
