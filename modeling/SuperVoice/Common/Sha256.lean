import Mathlib.Data.List.GetD
import SuperVoice.Common.Bytes
import SuperVoice.Lib.Fips180

/-! `sv::common::bytes::Sha256`: the bytes of a block are gathered one by one in a buffer. -/
namespace SuperVoice.Common
open BlockHash Fips180

namespace Detail

def rotr (value bits : UInt32) : UInt32 := (value >>> bits) ||| (value <<< (32 - bits))
def ch (x y z : UInt32) : UInt32 := (x &&& y) ^^^ (~~~x &&& z)
def maj (x y z : UInt32) : UInt32 := (x &&& y) ^^^ (x &&& z) ^^^ (y &&& z)
def bigSigma0 (x : UInt32) : UInt32 := rotr x 2 ^^^ rotr x 13 ^^^ rotr x 22
def bigSigma1 (x : UInt32) : UInt32 := rotr x 6 ^^^ rotr x 11 ^^^ rotr x 25
def smallSigma0 (x : UInt32) : UInt32 := rotr x 7 ^^^ rotr x 18 ^^^ (x >>> 3)
def smallSigma1 (x : UInt32) : UInt32 := rotr x 17 ^^^ rotr x 19 ^^^ (x >>> 10)

end Detail

/-- `buffer_` and `buffer_length_`. -/
structure BlockBuffer where
  bytes : FixedBytes 64
  length : Nat

namespace BlockBuffer

def empty : BlockBuffer := ⟨.zero 64, 0⟩

def put (b : BlockBuffer) (byte : UInt8) : BlockBuffer :=
  ⟨⟨b.bytes.bytes.set b.length byte, List.length_set.trans b.bytes.length_eq⟩, b.length + 1⟩

/-- Zeros up to a length. -/
def fill (b : BlockBuffer) (target : Nat) : BlockBuffer :=
  (List.replicate (target - b.length) 0).foldl put b

/-- The bytes gathered so far; what stands behind them is stale. -/
structure Holds (b : BlockBuffer) (bytes : Bytes) : Prop where
  length : b.length = bytes.length
  bytes : b.bytes.bytes.take b.length = bytes

variable {b : BlockBuffer} {bytes : Bytes}

theorem holds_empty (array : FixedBytes 64) : Holds ⟨array, 0⟩ [] := ⟨rfl, rfl⟩

theorem Holds.put (h : b.Holds bytes) (hroom : bytes.length < 64) (byte : UInt8) :
    (b.put byte).Holds (bytes ++ [byte]) where
  length := by simp [BlockBuffer.put, h.length]
  bytes := by
    have hlt : b.length < b.bytes.bytes.length := by rw [b.bytes.length_eq, h.length]; exact hroom
    show (b.bytes.bytes.set b.length byte).take (b.length + 1) = _
    rw [List.take_succ_eq_append_getElem (by rwa [List.length_set]), List.getElem_set_self,
      List.take_set_of_le (Nat.le_refl _), h.bytes]

theorem Holds.foldl_put (h : b.Holds bytes) {more : Bytes}
    (hroom : bytes.length + more.length ≤ 64) : (more.foldl BlockBuffer.put b).Holds (bytes ++ more) := by
  induction more generalizing b bytes with
  | nil => simpa using h
  | cons byte rest ih =>
    rw [List.length_cons] at hroom
    have hstep := ih (h.put (by omega) byte) (by simp; omega)
    simpa using hstep

theorem Holds.fill (h : b.Holds bytes) (target : Nat) (hle : bytes.length ≤ target)
    (htarget : target ≤ 64) :
    (b.fill target).Holds (bytes ++ List.replicate (target - bytes.length) 0) := by
  unfold BlockBuffer.fill
  rw [h.length]
  exact h.foldl_put (by rw [List.length_replicate]; omega)

theorem Holds.full (h : b.Holds bytes) (hfull : bytes.length = 64) : b.bytes.bytes = bytes := by
  rw [← h.bytes, h.length, hfull, List.take_of_length_le b.bytes.length_eq.le]

end BlockBuffer

section Finish
variable (process : Words → Bytes → Words) (lengthBytes : Bytes) (state : Words) (b : BlockBuffer)

/-- The block that ends with the length; the array is left as it is. -/
def finishLast : Words × FixedBytes 64 :=
  let b := b.fill 56
  let b := lengthBytes.foldl .put b
  (process state b.bytes.bytes, b.bytes)

/-- The end of a message as both hashers write it. -/
def finishBlocks : Words × FixedBytes 64 :=
  let b := b.put 0x80
  if 56 < b.length then
    let b := b.fill 64
    finishLast process lengthBytes (process state b.bytes.bytes) ⟨b.bytes, 0⟩
  else finishLast process lengthBytes state b

end Finish

/-- The words of a state, the highest byte of each first. -/
def digestBytes (state : Words) : Bytes :=
  state.toList.flatMap fun w : UInt32 =>
    [((w >>> 24) &&& 0xFF).toUInt8, ((w >>> 16) &&& 0xFF).toUInt8, ((w >>> 8) &&& 0xFF).toUInt8,
      (w &&& 0xFF).toUInt8]

section Finish
variable {b : BlockBuffer} {bytes lengthBytes : Bytes}

theorem finishLast_eq (state : Words) (h : b.Holds bytes) (hroom : bytes.length ≤ 56)
    (hlength : lengthBytes.length = 8) : (finishLast compress lengthBytes state b).1 =
      compress state (bytes ++ (List.replicate (56 - bytes.length) 0 ++ lengthBytes)) := by
  have hfill := h.fill 56 hroom (by decide)
  have hlen : (bytes ++ List.replicate (56 - bytes.length) 0).length = 56 := by
    rw [List.length_append, List.length_replicate]
    omega
  have hput : (lengthBytes.foldl BlockBuffer.put (b.fill 56)).Holds _ := hfill.foldl_put (by omega)
  show compress state _ = _
  rw [hput.full (by rw [List.length_append]; omega), List.append_assoc]

/-- Whether it takes one block or two, it is the padding of the standard that is hashed. -/
theorem finishBlocks_eq (state : Words) (h : b.Holds bytes) (hroom : bytes.length < 64)
    (hlength : lengthBytes.length = 8) :
    (finishBlocks compress lengthBytes state b).1 = (feed compress 64 ⟨state, bytes⟩
      (0x80 :: List.replicate (zeroBytes bytes.length) 0 ++ lengthBytes)).state := by
  have hput := h.put hroom 0x80
  have hone : (b.put 0x80).length = bytes.length + 1 := by rw [hput.length]; simp
  unfold finishBlocks
  by_cases hlong : 56 < bytes.length + 1
  · have hzeros : zeroBytes bytes.length = (63 - bytes.length) + 56 := by
      unfold zeroBytes
      omega
    have hfill := hput.fill 64 (by simp; omega) (Nat.le_refl 64)
    have hfull := hfill.full (by simp; omega)
    have hfirst : feed compress 64 ⟨state, bytes⟩ (0x80 :: List.replicate (63 - bytes.length) 0) =
        ⟨compress state (bytes ++ 0x80 :: List.replicate (63 - bytes.length) 0), []⟩ :=
      feed_fill (List.cons_ne_nil _ _) (by simp; omega)
    have hlast : feed compress 64
        ⟨compress state (bytes ++ 0x80 :: List.replicate (63 - bytes.length) 0), []⟩
        (List.replicate 56 0 ++ lengthBytes) = ⟨compress
          (compress state (bytes ++ 0x80 :: List.replicate (63 - bytes.length) 0))
          (List.replicate 56 0 ++ lengthBytes), []⟩ :=
      feed_fill (by simp) (by simp; omega)
    have hsplit : 0x80 :: List.replicate (zeroBytes bytes.length) 0 ++ lengthBytes =
        (0x80 :: List.replicate (63 - bytes.length) 0) ++ (List.replicate 56 0 ++ lengthBytes) := by
      rw [hzeros, List.replicate_add]
      simp
    rw [if_pos (hone.symm ▸ hlong), finishLast_eq _ (BlockBuffer.holds_empty _) (by simp) hlength,
      hfull, hsplit, feed_append, hfirst, hlast]
    simp
  · have hzeros : zeroBytes bytes.length = 55 - bytes.length := by
      unfold zeroBytes
      omega
    have hfill : feed compress 64 ⟨state, bytes⟩
        (0x80 :: List.replicate (55 - bytes.length) 0 ++ lengthBytes) = ⟨compress state (bytes ++
          (0x80 :: List.replicate (55 - bytes.length) 0 ++ lengthBytes)), []⟩ :=
      feed_fill (List.cons_ne_nil _ _) (by simp; omega)
    rw [if_neg (hone.symm ▸ hlong), finishLast_eq _ hput (by simp; omega) hlength, hzeros, hfill]
    simp

end Finish

/-- The table of `process_block`. -/
def sha256Table : List UInt32 := [
  0x428a2f98, 0x71374491, 0xb5c0fbcf, 0xe9b5dba5, 0x3956c25b, 0x59f111f1, 0x923f82a4, 0xab1c5ed5,
  0xd807aa98, 0x12835b01, 0x243185be, 0x550c7dc3, 0x72be5d74, 0x80deb1fe, 0x9bdc06a7, 0xc19bf174,
  0xe49b69c1, 0xefbe4786, 0x0fc19dc6, 0x240ca1cc, 0x2de92c6f, 0x4a7484aa, 0x5cb0a9dc, 0x76f988da,
  0x983e5152, 0xa831c66d, 0xb00327c8, 0xbf597fc7, 0xc6e00bf3, 0xd5a79147, 0x06ca6351, 0x14292967,
  0x27b70a85, 0x2e1b2138, 0x4d2c6dfc, 0x53380d13, 0x650a7354, 0x766a0abb, 0x81c2c92e, 0x92722c85,
  0xa2bfe8a1, 0xa81a664b, 0xc24b8b70, 0xc76c51a3, 0xd192e819, 0xd6990624, 0xf40e3585, 0x106aa070,
  0x19a4c116, 0x1e376c08, 0x2748774c, 0x34b0bcb5, 0x391c0cb3, 0x4ed8aa4a, 0x5b9cca4f, 0x682e6ff3,
  0x748f82ee, 0x78a5636f, 0x84c87814, 0x8cc70208, 0x90befffa, 0xa4506ceb, 0xbef9a3f7, 0xc67178f2]

/-- The value that the constructors give to `state_`. -/
def initialState : Words :=
  ⟨0x6a09e667, 0xbb67ae85, 0x3c6ef372, 0xa54ff53a, 0x510e527f, 0x9b05688c, 0x1f83d9ab, 0x5be0cd19⟩

/-- The four bytes of `block` behind `w[i]`, for `i < 16`. -/
def blockWord (block : Bytes) (i : Nat) : UInt32 :=
  ((block.getD (i * 4) 0).toUInt32 <<< 24) ||| ((block.getD (i * 4 + 1) 0).toUInt32 <<< 16) |||
    ((block.getD (i * 4 + 2) 0).toUInt32 <<< 8) ||| (block.getD (i * 4 + 3) 0).toUInt32

/-- The first `16 + n` entries of the array `w`; `next` is what an entry is made of. -/
def expand (next : List UInt32 → Nat → UInt32) (block : Bytes) (n : Nat) : List UInt32 :=
  (List.range' 16 n).foldl (fun w i => w ++ [next w i]) ((List.range 16).map (blockWord block))

def nextWord (w : List UInt32) (i : Nat) : UInt32 :=
  Detail.smallSigma1 (w.getD (i - 2) 0) + w.getD (i - 7) 0 +
    Detail.smallSigma0 (w.getD (i - 15) 0) + w.getD (i - 16) 0

def processBlock (state : Words) (block : Bytes) : Words :=
  let w := expand nextWord block 48
  let v := (List.range 64).foldl (fun (v : Words) i =>
    let temp1 := v.h + Detail.bigSigma1 v.e + Detail.ch v.e v.f v.g + sha256Table.getD i 0 +
      w.getD i 0
    let temp2 := Detail.bigSigma0 v.a + Detail.maj v.a v.b v.c
    ⟨temp1 + temp2, v.a, v.b, v.c, v.d + temp1, v.e, v.f, v.g⟩) state
  ⟨state.a + v.a, state.b + v.b, state.c + v.c, state.d + v.d, state.e + v.e, state.f + v.f,
    state.g + v.g, state.h + v.h⟩

theorem initialState_eq : initialState = initial := by decide +kernel

theorem sha256Table_eq : sha256Table = constants := by
  rw [constants, primes_eq]
  decide +kernel

theorem toBitVec_shifts (a b c d : UInt8) :
    ((a.toUInt32 <<< 24) ||| (b.toUInt32 <<< 16) ||| (c.toUInt32 <<< 8) ||| d.toUInt32).toBitVec =
      a.toBitVec ++ b.toBitVec ++ c.toBitVec ++ d.toBitVec := by
  have hwords : (a.toBitVec ++ b.toBitVec ++ c.toBitVec ++ d.toBitVec).setWidth 32 =
      a.toBitVec.setWidth 32 <<< 24 ||| b.toBitVec.setWidth 32 <<< 16 |||
        c.toBitVec.setWidth 32 <<< 8 ||| d.toBitVec.setWidth 32 := by
    simp only [setWidth_append, BitVec.shiftLeft_or_distrib, ← BitVec.shiftLeft_add]
  rw [BitVec.setWidth_eq] at hwords
  exact hwords.symm

theorem blockWord_eq (block : Bytes) (i : Nat) : blockWord block i = word block i := by
  rw [← UInt32.toBitVec_inj, blockWord, toBitVec_shifts, word, Nat.mul_comm]

theorem expand_succ (next : List UInt32 → Nat → UInt32) (block : Bytes) (n : Nat) :
    expand next block (n + 1) = expand next block n ++ [next (expand next block n) (16 + n)] := by
  rw [expand, List.range'_concat, List.foldl_append, Nat.one_mul]
  rfl

theorem length_expand (next : List UInt32 → Nat → UInt32) (block : Bytes) (n : Nat) :
    (expand next block n).length = 16 + n := by
  induction n with
  | zero => rfl
  | succ n ih => rw [expand_succ, List.length_append, ih]; rfl

/-- An array whose entries follow the recurrence of the standard is its schedule. -/
theorem expand_eq {next : List UInt32 → Nat → UInt32} {block : Bytes}
    (hnext : ∀ w i, 16 ≤ i → (∀ t < i, w.getD t 0 = schedule block t) →
      next w i = schedule block i) (n : Nat) :
    ∀ t < 16 + n, (expand next block n).getD t 0 = schedule block t := by
  induction n with
  | zero =>
    intro t ht
    rw [schedule, if_pos ht, ← blockWord_eq]
    simp [expand, List.getD_eq_getElem?_getD, ht]
  | succ n ih =>
    intro t ht
    have hlength := length_expand next block n
    rw [expand_succ]
    by_cases hold : t < 16 + n
    · rw [List.getD_append _ _ _ _ (hlength.symm ▸ hold), ih t hold]
    · have hlast : t = 16 + n := by omega
      subst hlast
      rw [List.getD_append_right _ _ _ _ hlength.le, hlength, Nat.sub_self,
        ← hnext _ (16 + n) (by omega) ih]
      rfl

theorem nextWord_eq {block : Bytes} (w : List UInt32) (i : Nat) (hi : 16 ≤ i)
    (hw : ∀ t < i, w.getD t 0 = schedule block t) : nextWord w i = schedule block i := by
  rw [schedule, if_neg (Nat.not_lt_of_le hi), nextWord, hw _ (by omega), hw _ (by omega),
    hw _ (by omega), hw _ (by omega)]
  rfl

/-- The block function of the standard. -/
theorem processBlock_eq (state : Words) (block : Bytes) :
    processBlock state block = compress state block := by
  have hrounds : ∀ (v : Words), ∀ i ∈ List.range 64,
      (let temp1 := v.h + Detail.bigSigma1 v.e + Detail.ch v.e v.f v.g + sha256Table.getD i 0 +
        (expand nextWord block 48).getD i 0
      let temp2 := Detail.bigSigma0 v.a + Detail.maj v.a v.b v.c
      ⟨temp1 + temp2, v.a, v.b, v.c, v.d + temp1, v.e, v.f, v.g⟩) = round block v i := by
    intro v i hi
    rw [expand_eq nextWord_eq 48 i (List.mem_range.mp hi), sha256Table_eq]
    rfl
  rw [processBlock, compress, List.foldl_ext _ _ _ hrounds, Words.add]
  simp only [UInt32.add_comm]

theorem digestBytes_eq (state : Words) :
    digestBytes state = state.toList.flatMap fun w => bigEndian 4 w.toBitVec := by
  unfold digestBytes
  congr 1
  funext w
  show [lowByte (w.toBitVec >>> 24), lowByte (w.toBitVec >>> 16), lowByte (w.toBitVec >>> 8),
    lowByte w.toBitVec] = _
  simp [bigEndian, lowByte_eq, List.range_succ]

structure Sha256 where
  state : Words := initialState
  bitLength : UInt64 := 0
  buffer : BlockBuffer := .empty
  room : buffer.length < 64 := by exact Nat.zero_lt_succ 63

namespace Sha256

def putByte (hasher : Sha256) (byte : UInt8) : Sha256 :=
  let buffer := hasher.buffer.put byte
  if hfull : buffer.length = 64 then
    { hasher with
      state := processBlock hasher.state buffer.bytes.bytes
      buffer := ⟨buffer.bytes, 0⟩
      room := Nat.zero_lt_succ 63 }
  else
    { hasher with
      buffer
      room := Nat.lt_of_le_of_ne (Nat.succ_le_of_lt hasher.room) hfull }

def update (hasher : Sha256) (data : Bytes) : Sha256 :=
  data.foldl putByte { hasher with bitLength := hasher.bitLength + (UInt64.ofNat data.length <<< 3) }

/-- The bytes that the last loop of `finish` appends. -/
def lengthBytes (totalBits : UInt64) : Bytes :=
  [56, 48, 40, 32, 24, 16, 8, 0].map fun shift : UInt64 => ((totalBits >>> shift) &&& 0xFF).toUInt8

/-- The array keeps its bytes. -/
def reset (array : FixedBytes 64) : Sha256 := { buffer := ⟨array, 0⟩ }

def finish (hasher : Sha256) : Bytes × Sha256 :=
  let (state, array) :=
    finishBlocks processBlock (lengthBytes hasher.bitLength) hasher.state hasher.buffer
  (digestBytes state, reset array)

def digest (hasher : Sha256) (data : Bytes) : Bytes × Sha256 :=
  ((reset hasher.buffer.bytes).update data).finish

/-- The hasher stands where the block by block reading stands. -/
structure Follows (hasher : Sha256) (p : Pending Words) : Prop where
  state : hasher.state = p.state
  buffer : hasher.buffer.Holds p.bytes

/-- The hasher has taken in `message` since it was made or last finished. -/
structure Represents (hasher : Sha256) (message : Bytes) : Prop where
  bitLength : hasher.bitLength = .ofNat (8 * message.length)
  follows : hasher.Follows (feed compress 64 ⟨initial, []⟩ message)

variable {hasher : Sha256} {message : Bytes} {p : Pending Words}

theorem represents_reset (array : FixedBytes 64) : (reset array).Represents [] :=
  ⟨rfl, initialState_eq, BlockBuffer.holds_empty array⟩

theorem Follows.putByte (h : hasher.Follows p) (byte : UInt8) :
    (hasher.putByte byte).Follows (push compress 64 p byte) := by
  have hroom : p.bytes.length < 64 := h.buffer.length ▸ hasher.room
  have hput := h.buffer.put hroom byte
  have hlength : (hasher.buffer.put byte).length = p.bytes.length + 1 := by rw [hput.length]; simp
  unfold Sha256.putByte push
  by_cases hfull : p.bytes.length + 1 = 64
  · rw [dif_pos (hlength.trans hfull), if_pos hfull]
    refine ⟨?_, BlockBuffer.holds_empty _⟩
    show processBlock _ _ = compress _ _
    rw [processBlock_eq, hput.full (by simpa using hfull), h.state]
  · rw [dif_neg (hlength ▸ hfull), if_neg hfull]
    exact ⟨h.state, hput⟩

theorem putByte_bitLength (byte : UInt8) : (hasher.putByte byte).bitLength = hasher.bitLength := by
  unfold putByte
  dsimp only
  split <;> rfl

theorem Follows.foldl_putByte (h : hasher.Follows p) (data : Bytes) :
    (data.foldl Sha256.putByte hasher).Follows (feed compress 64 p data) ∧
      (data.foldl Sha256.putByte hasher).bitLength = hasher.bitLength := by
  induction data generalizing hasher p with
  | nil => exact ⟨h, rfl⟩
  | cons byte rest ih =>
    obtain ⟨hrest, hbits⟩ := ih (h.putByte byte)
    exact ⟨hrest, hbits.trans (putByte_bitLength byte)⟩

theorem bits_append (m n : Nat) :
    UInt64.ofNat (8 * m) + (UInt64.ofNat n <<< 3) = .ofNat (8 * (m + n)) := by
  rw [← UInt64.toNat_inj, UInt64.toNat_add, UInt64.toNat_shiftLeft, UInt64.toNat_ofNat',
    UInt64.toNat_ofNat', UInt64.toNat_ofNat', Nat.shiftLeft_eq]
  have hthree : (3 : UInt64).toNat % 64 = 3 := rfl
  rw [hthree]
  omega

theorem Represents.update (h : hasher.Represents message) (data : Bytes) :
    (hasher.update data).Represents (message ++ data) := by
  have hstart : Follows { hasher with bitLength :=
      hasher.bitLength + (UInt64.ofNat data.length <<< 3) } _ := ⟨h.follows.state, h.follows.buffer⟩
  obtain ⟨hfollows, hbits⟩ := hstart.foldl_putByte data
  refine ⟨?_, ?_⟩
  · rw [Sha256.update, hbits, h.bitLength, bits_append, List.length_append]
  · rw [feed_append]
    exact hfollows

theorem Represents.updates (h : hasher.Represents message) (pieces : List Bytes) :
    (pieces.foldl Sha256.update hasher).Represents (message ++ pieces.flatten) := by
  induction pieces generalizing hasher message with
  | nil => simpa using h
  | cons piece rest ih =>
    have hrest := ih (h.update piece)
    rwa [List.append_assoc, ← List.flatten_cons] at hrest

theorem lengthBytes_eq (bits : UInt64) : lengthBytes bits = bigEndian 8 bits.toBitVec := by
  show [lowByte (bits.toBitVec >>> 56), lowByte (bits.toBitVec >>> 48),
    lowByte (bits.toBitVec >>> 40), lowByte (bits.toBitVec >>> 32), lowByte (bits.toBitVec >>> 24),
    lowByte (bits.toBitVec >>> 16), lowByte (bits.toBitVec >>> 8), lowByte bits.toBitVec] = _
  simp [bigEndian, lowByte_eq, List.range_succ]

/-- The block that is begun when a message ends gives the digest of the standard. -/
theorem digest_of_finishBlocks {state : Words} {b : BlockBuffer} {process : Words → Bytes → Words}
    (hprocess : process = compress) (hstate : state = (feed compress 64 ⟨initial, []⟩ message).state)
    (h : b.Holds (feed compress 64 ⟨initial, []⟩ message).bytes) :
    digestBytes (finishBlocks process (bigEndian 8 (BitVec.ofNat 64 (8 * message.length)))
      state b).1 = sha256 message := by
  have hstart : (⟨initial, []⟩ : Pending Words).bytes.length < 64 := Nat.zero_lt_succ 63
  have hroom : (feed compress 64 ⟨initial, []⟩ message).bytes.length < 64 := length_feed_lt hstart
  have hzeros : zeroBytes (feed compress 64 ⟨initial, []⟩ message).bytes.length =
      zeroBytes message.length := by
    rw [length_feed hstart, List.length_nil, Nat.zero_add, zeroBytes, zeroBytes, Nat.mod_mod]
  rw [hprocess, hstate, finishBlocks_eq _ h hroom (length_bigEndian 8 _), hzeros, digestBytes_eq,
    sha256_eq_feed, padded, feed_append message, padding]

/-- `finish` gives the digest and makes the hasher fresh. -/
theorem Represents.finish (h : hasher.Represents message) :
    hasher.finish.1 = sha256 message ∧ hasher.finish.2.Represents [] := by
  refine ⟨?_, represents_reset _⟩
  rw [← digest_of_finishBlocks (funext₂ processBlock_eq) h.follows.state h.follows.buffer]
  have hlength : lengthBytes hasher.bitLength = bigEndian 8 (BitVec.ofNat 64 (8 * message.length)) := by
    rw [h.bitLength, lengthBytes_eq]
    rfl
  rw [← hlength]
  rfl

/-- The digests of messages that one hasher takes in one after the other, each in pieces. -/
def digests (hasher : Sha256) : List (List Bytes) → List Bytes
  | [] => []
  | pieces :: rest =>
    let finished := (pieces.foldl update hasher).finish
    finished.1 :: finished.2.digests rest

theorem Represents.digests (h : hasher.Represents []) (messages : List (List Bytes)) :
    hasher.digests messages = messages.map fun pieces => sha256 pieces.flatten := by
  induction messages generalizing hasher with
  | nil => rfl
  | cons pieces rest ih =>
    obtain ⟨hdigest, hfresh⟩ := (h.updates pieces).finish
    rw [Sha256.digests, List.map_cons, ← ih hfresh, hdigest, List.nil_append]

end Sha256

end SuperVoice.Common
