import SuperVoice.Client.Compressor
import SuperVoice.Common.Sha256

/-! `sv::client::Sha256`: whole pieces of the data are copied into the block. -/
namespace SuperVoice.Client
open BlockHash Fips180 Common

/-- The table of `transform`. -/
def transformTable : List UInt32 := [
  0x428a2f98, 0x71374491, 0xb5c0fbcf, 0xe9b5dba5, 0x3956c25b, 0x59f111f1, 0x923f82a4, 0xab1c5ed5,
  0xd807aa98, 0x12835b01, 0x243185be, 0x550c7dc3, 0x72be5d74, 0x80deb1fe, 0x9bdc06a7, 0xc19bf174,
  0xe49b69c1, 0xefbe4786, 0x0fc19dc6, 0x240ca1cc, 0x2de92c6f, 0x4a7484aa, 0x5cb0a9dc, 0x76f988da,
  0x983e5152, 0xa831c66d, 0xb00327c8, 0xbf597fc7, 0xc6e00bf3, 0xd5a79147, 0x06ca6351, 0x14292967,
  0x27b70a85, 0x2e1b2138, 0x4d2c6dfc, 0x53380d13, 0x650a7354, 0x766a0abb, 0x81c2c92e, 0x92722c85,
  0xa2bfe8a1, 0xa81a664b, 0xc24b8b70, 0xc76c51a3, 0xd192e819, 0xd6990624, 0xf40e3585, 0x106aa070,
  0x19a4c116, 0x1e376c08, 0x2748774c, 0x34b0bcb5, 0x391c0cb3, 0x4ed8aa4a, 0x5b9cca4f, 0x682e6ff3,
  0x748f82ee, 0x78a5636f, 0x84c87814, 0x8cc70208, 0x90befffa, 0xa4506ceb, 0xbef9a3f7, 0xc67178f2]

def rightRotate (value bits : UInt32) : UInt32 := (value >>> bits) ||| (value <<< (32 - bits))

/-- The entry of `w` behind the first sixteen. -/
def transformWord (w : List UInt32) (i : Nat) : UInt32 :=
  let w15 := w.getD (i - 15) 0
  let w2 := w.getD (i - 2) 0
  let s0 := rightRotate w15 7 ^^^ rightRotate w15 18 ^^^ (w15 >>> 3)
  let s1 := rightRotate w2 17 ^^^ rightRotate w2 19 ^^^ (w2 >>> 10)
  w.getD (i - 16) 0 + s0 + w.getD (i - 7) 0 + s1

def transform (state : Words) (block : Bytes) : Words :=
  let w := expand transformWord block 48
  let v := (List.range 64).foldl (fun (v : Words) i =>
    let s1 := rightRotate v.e 6 ^^^ rightRotate v.e 11 ^^^ rightRotate v.e 25
    let ch := (v.e &&& v.f) ^^^ (~~~v.e &&& v.g)
    let temp1 := v.h + s1 + ch + transformTable.getD i 0 + w.getD i 0
    let s0 := rightRotate v.a 2 ^^^ rightRotate v.a 13 ^^^ rightRotate v.a 22
    let maj := (v.a &&& v.b) ^^^ (v.a &&& v.c) ^^^ (v.b &&& v.c)
    let temp2 := s0 + maj
    ⟨temp1 + temp2, v.a, v.b, v.c, v.d + temp1, v.e, v.f, v.g⟩) state
  ⟨state.a + v.a, state.b + v.b, state.c + v.c, state.d + v.d, state.e + v.e, state.f + v.f,
    state.g + v.g, state.h + v.h⟩

theorem transformTable_eq : transformTable = sha256Table := rfl

theorem transformWord_eq : transformWord = nextWord := by
  funext w i
  show w.getD (i - 16) 0 + smallSigma0 (w.getD (i - 15) 0) + w.getD (i - 7) 0 +
    smallSigma1 (w.getD (i - 2) 0) = smallSigma1 (w.getD (i - 2) 0) + w.getD (i - 7) 0 +
      smallSigma0 (w.getD (i - 15) 0) + w.getD (i - 16) 0
  ac_rfl

/-- The block functions of the two hashers agree, although they sum up in another order. -/
theorem transform_eq : transform = processBlock := by
  funext state block
  rw [transform, transformWord_eq, transformTable_eq]
  rfl

/-- `memcpy` behind the bytes gathered so far. -/
def copyIn (b : BlockBuffer) (bytes : Bytes) (h : b.length + bytes.length ≤ 64) : BlockBuffer :=
  ⟨b.bytes.write b.length bytes h, b.length + bytes.length⟩

theorem holds_copyIn {b : BlockBuffer} {bytes : Bytes} (h : b.Holds bytes) (more : Bytes)
    (hroom : b.length + more.length ≤ 64) : (copyIn b more hroom).Holds (bytes ++ more) where
  length := by rw [List.length_append, ← h.length]; rfl
  bytes := by
    show (b.bytes.bytes.take b.length ++ more ++ _).take (b.length + more.length) = _
    rw [h.bytes, List.take_left' (by rw [List.length_append, h.length])]

/-- The loop of `update`. -/
def copyBlocks (state : Words) (buffer : BlockBuffer) (hroom : buffer.length < 64) (data : Bytes) :
    { p : Words × BlockBuffer // p.2.length < 64 } :=
  if hdata : data = [] then ⟨(state, buffer), hroom⟩ else
  let toCopy := min data.length (64 - buffer.length)
  have hcopy : buffer.length + (data.take toCopy).length ≤ 64 := by
    rw [List.length_take]
    omega
  let buffer' := copyIn buffer (data.take toCopy) hcopy
  have hless : (data.drop toCopy).length < data.length := by
    have hpos := List.length_pos_of_ne_nil hdata
    rw [List.length_drop]
    omega
  if hfull : buffer'.length = 64 then
    copyBlocks (transform state buffer'.bytes.bytes) ⟨buffer'.bytes, 0⟩ (Nat.zero_lt_succ 63)
      (data.drop toCopy)
  else copyBlocks state buffer' (Nat.lt_of_le_of_ne hcopy hfull) (data.drop toCopy)
termination_by data.length

theorem copyBlocks_feed (state : Words) {buffer : BlockBuffer} {bytes : Bytes}
    (hroom : buffer.length < 64) (h : buffer.Holds bytes) (data : Bytes) :
    (copyBlocks state buffer hroom data).1.1 = (feed compress 64 ⟨state, bytes⟩ data).state ∧
      (copyBlocks state buffer hroom data).1.2.Holds
        (feed compress 64 ⟨state, bytes⟩ data).bytes := by
  fun_induction copyBlocks state buffer hroom data generalizing bytes with
  | case1 state buffer hroom => exact ⟨rfl, h⟩
  | case2 state buffer hroom data hdata toCopy hcopy buffer' _ hfull =>
    rename_i ih
    have hin : buffer'.Holds (bytes ++ data.take toCopy) := holds_copyIn h _ hcopy
    have hlength : bytes.length + (data.take toCopy).length = 64 := by
      rw [← List.length_append, ← hin.length, hfull]
    have hpiece : data.take toCopy ≠ [] := by
      intro hnil
      rw [hnil, List.length_nil, ← h.length] at hlength
      omega
    have hfeed : feed compress 64 ⟨state, bytes⟩ data =
        feed compress 64 ⟨compress state (bytes ++ data.take toCopy), []⟩ (data.drop toCopy) := by
      rw [← feed_fill (p := ⟨state, bytes⟩) hpiece hlength, ← feed_append, List.take_append_drop]
    have hblock : transform state buffer'.bytes.bytes =
        compress state (bytes ++ data.take toCopy) := by
      rw [transform_eq, processBlock_eq, hin.full (by rw [List.length_append, hlength])]
    rw [hfeed, ← hblock]
    exact ih (BlockBuffer.holds_empty _)
  | case3 state buffer hroom data hdata toCopy hcopy buffer' _ hpartial =>
    rename_i ih
    have hin : buffer'.Holds (bytes ++ data.take toCopy) := holds_copyIn h _ hcopy
    have hlength : bytes.length + (data.take toCopy).length < 64 := by
      rw [← List.length_append, ← hin.length]
      exact Nat.lt_of_le_of_ne hcopy hpartial
    have hfeed : feed compress 64 ⟨state, bytes⟩ data =
        feed compress 64 ⟨state, bytes ++ data.take toCopy⟩ (data.drop toCopy) := by
      rw [← feed_short (p := ⟨state, bytes⟩) hlength, ← feed_append, List.take_append_drop]
    rw [hfeed]
    exact ih hin

structure Sha256 where
  state : Words := initialState
  buffer : BlockBuffer := .empty
  bitCount : UInt64 := 0
  finalized : Bool := false
  room : finalized = false → buffer.length < 64 := by exact fun _ => Nat.zero_lt_succ 63

namespace Sha256

/-- `update` of a hasher whose digest was not taken yet. -/
def absorb (hasher : Sha256) (hgoing : hasher.finalized = false) (data : Bytes) : Sha256 :=
  let p := copyBlocks hasher.state hasher.buffer (hasher.room hgoing) data
  { state := p.1.1
    buffer := p.1.2
    bitCount := hasher.bitCount + UInt64.ofNat data.length * 8
    finalized := false
    room := fun _ => p.2 }

/-- The text of the exception if the digest has been taken. -/
def update (hasher : Sha256) (data : Bytes) : Except Bytes Sha256 :=
  if hfinalized : hasher.finalized then
    .error (Bytes.ascii "Sha256::update called after finalize")
  else .ok (hasher.absorb (Bool.eq_false_of_not_eq_true hfinalized) data)

/-- The bytes that the last loop of `finalize` appends. -/
def lengthBytes (bitCount : UInt64) : Bytes :=
  [7, 6, 5, 4, 3, 2, 1, 0].map fun i : UInt64 => ((bitCount >>> (i * 8)) &&& 0xFF).toUInt8

/-- A digest that has been taken is read from the state again. -/
def finalize (hasher : Sha256) : Bytes × Sha256 :=
  let hasher := if hasher.finalized then hasher else
    let (state, array) :=
      finishBlocks transform (lengthBytes hasher.bitCount) hasher.state hasher.buffer
    { hasher with
      state
      buffer := ⟨array, 64⟩
      finalized := true
      room := nofun }
  (digestBytes hasher.state, hasher)

/-- The hasher has taken in `message`, and nothing was asked of it yet. -/
structure Represents (hasher : Sha256) (message : Bytes) : Prop where
  going : hasher.finalized = false
  bitCount : hasher.bitCount = .ofNat (8 * message.length)
  state : hasher.state = (feed compress 64 ⟨initial, []⟩ message).state
  buffer : hasher.buffer.Holds (feed compress 64 ⟨initial, []⟩ message).bytes

variable {hasher : Sha256} {message : Bytes}

theorem represents_new : Represents {} [] :=
  ⟨rfl, rfl, initialState_eq, BlockBuffer.holds_empty _⟩

theorem bits_append (m n : Nat) :
    UInt64.ofNat (8 * m) + UInt64.ofNat n * 8 = .ofNat (8 * (m + n)) := by
  rw [← UInt64.toNat_inj, UInt64.toNat_add, UInt64.toNat_mul, UInt64.toNat_ofNat',
    UInt64.toNat_ofNat', UInt64.toNat_ofNat']
  have height : (8 : UInt64).toNat = 8 := rfl
  rw [height]
  omega

theorem Represents.absorb (h : hasher.Represents message) (hgoing : hasher.finalized = false)
    (data : Bytes) : (hasher.absorb hgoing data).Represents (message ++ data) := by
  obtain ⟨hstate, hbuffer⟩ :=
    copyBlocks_feed hasher.state (hasher.room hgoing) h.buffer data
  have hfeed : feed compress 64 ⟨hasher.state, (feed compress 64 ⟨initial, []⟩ message).bytes⟩ data =
      feed compress 64 ⟨initial, []⟩ (message ++ data) := by
    rw [feed_append, h.state]
  rw [hfeed] at hstate hbuffer
  refine ⟨rfl, ?_, hstate, hbuffer⟩
  show hasher.bitCount + UInt64.ofNat data.length * 8 = _
  rw [h.bitCount, bits_append, List.length_append]

theorem Represents.updates (h : hasher.Represents message) (pieces : List Bytes) :
    ∃ next, pieces.foldlM Sha256.update hasher = .ok next ∧
      next.Represents (message ++ pieces.flatten) := by
  induction pieces generalizing hasher message with
  | nil => exact ⟨hasher, rfl, by simpa using h⟩
  | cons piece rest ih =>
    have hfirst : hasher.update piece = .ok (hasher.absorb h.going piece) :=
      dif_neg (by simp [h.going])
    obtain ⟨next, hnext, hlast⟩ := ih (h.absorb h.going piece)
    refine ⟨next, ?_, ?_⟩
    · rw [List.foldlM_cons, hfirst]
      exact hnext
    · rwa [List.flatten_cons, ← List.append_assoc]

theorem lengthBytes_eq (bits : UInt64) : lengthBytes bits = Common.Sha256.lengthBytes bits := rfl

theorem finalize_of_going (hgoing : hasher.finalized = false) : hasher.finalize.1 = digestBytes
    (finishBlocks transform (lengthBytes hasher.bitCount) hasher.state hasher.buffer).1 := by
  unfold finalize
  rw [if_neg (by simp [hgoing])]

theorem Represents.finalize (h : hasher.Represents message) :
    hasher.finalize.1 = sha256 message := by
  have hprocess : transform = compress := transform_eq.trans (funext₂ processBlock_eq)
  have hlength : lengthBytes hasher.bitCount = bigEndian 8 (BitVec.ofNat 64 (8 * message.length)) := by
    rw [h.bitCount, lengthBytes_eq, Common.Sha256.lengthBytes_eq]
    rfl
  rw [finalize_of_going h.going, hlength]
  exact Common.Sha256.digest_of_finishBlocks hprocess h.state h.buffer

/-- What was taken once is given again. -/
theorem finalize_again (hasher : Sha256) : hasher.finalize.2.finalize = hasher.finalize := by
  unfold finalize
  split <;> simp [*]

end Sha256

/-- `to_hex` -/
def toHex (digest : Bytes) : Bytes :=
  digest.flatMap fun byte : UInt8 => [hexChar ((byte >>> 4) &&& 0x0F), hexChar (byte &&& 0x0F)]
where
  hexChar (digit : UInt8) : UInt8 := (Bytes.ascii "0123456789abcdef").getD digit.toNat 0

/-- The hasher of `Compressor`, which feeds it before it asks for the digest. -/
def sha256Hasher : Hasher where
  State := { hasher : Sha256 // hasher.finalized = false }
  init := ⟨{}, rfl⟩
  update hasher data := ⟨hasher.1.absorb hasher.2 data, rfl⟩
  hex hasher := toHex hasher.1.finalize.1

theorem sha256Hasher_hex (pieces : List Bytes) :
    sha256Hasher.hex (pieces.foldl sha256Hasher.update sha256Hasher.init) =
      toHex (Fips180.sha256 pieces.flatten) := by
  have hrep : ∀ (hasher : sha256Hasher.State) (message : Bytes), hasher.1.Represents message →
      (pieces.foldl sha256Hasher.update hasher).1.Represents (message ++ pieces.flatten) := by
    induction pieces with
    | nil => exact fun _ _ h => by simpa using h
    | cons piece rest ih =>
      intro hasher message h
      rw [List.flatten_cons, ← List.append_assoc]
      exact ih _ _ (h.absorb hasher.2 piece)
  exact congrArg toHex (hrep sha256Hasher.init [] Sha256.represents_new).finalize

/-- Both hashers compute the digest of the standard, however the data is cut: the client's as often
as it is asked, the common one for one message after another. -/
theorem hashers_meet_standard :
    (∀ pieces : List Bytes, ∃ hasher, pieces.foldlM Sha256.update {} = .ok hasher ∧
      hasher.finalize.1 = Fips180.sha256 pieces.flatten ∧
      hasher.finalize.2.finalize.1 = Fips180.sha256 pieces.flatten) ∧
    ∀ messages : List (List Bytes), Common.Sha256.digests {} messages =
      messages.map fun pieces => Fips180.sha256 pieces.flatten := by
  refine ⟨fun pieces => ?_, Common.Sha256.represents_reset (.zero 64) |>.digests⟩
  obtain ⟨hasher, htaken, hrep⟩ := Sha256.represents_new.updates pieces
  refine ⟨hasher, htaken, hrep.finalize, ?_⟩
  rw [Sha256.finalize_again]
  exact hrep.finalize

end SuperVoice.Client
