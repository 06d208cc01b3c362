import SuperVoice.Client.Chunker
import SuperVoice.Lib.StreamCodec

/-! `sv::client::Compressor`: a file is read piece by piece through the streaming encoder and the
hasher, then the frame is closed. -/
namespace SuperVoice.Client
open Bytes StreamCodec

/-- The interface of `Sha256`; `hex` is `to_hex` of the digest. -/
structure Hasher where
  State : Type
  init : State
  update : State → Bytes → State
  hex : State → Bytes

/-- The file as it can be read: `fails` when reading ends with an error behind `content`. -/
structure SourceFile where
  content : Bytes
  fails : Bool := false

/-- What the system grants one call; `source` is missing if the file does not open. -/
structure CompressIo where
  source : Option SourceFile
  createsStream : Bool := true
  initsStream : Bool := true

inductive CompressError where
  | openFails (path : Bytes)
  | createFails
  | initFails
  | compressFails
  | readFails (path : Bytes)
  | flushFails
  deriving DecidableEq

/-- The message, without the error name that the codec adds. -/
def CompressError.text : CompressError → Bytes
  | .openFails path => ascii "Failed to open file for compression: " ++ path
  | .createFails => ascii "Failed to create ZSTD_CStream"
  | .initFails => ascii "ZSTD_initCStream failed: "
  | .compressFails => ascii "ZSTD_compressStream2 failed: "
  | .readFails path => ascii "Failed while reading file for compression: " ++ path
  | .flushFails => ascii "ZSTD_compressStream2 final flush failed: "

/-- The size of `input_buffer`. -/
def inputSize : Nat := 2 ^ 15

variable (E : Encoder) (H : Hasher)

/-- The locals of the read loop. -/
structure Compression where
  sha : H.State
  stream : E.State
  compressed : Bytes

variable {E H}

/-- The locals after a read and the output of the encoder for it. -/
def Compression.take (s : Compression E H) (read : Bytes) (stream : E.State) (output : Bytes) :
    Compression E H where
  sha := if read = [] then s.sha else H.update s.sha read
  stream
  compressed := s.compressed ++ output

/-- The read loop with `rest` of the file to go; a short read ends it. The outer `none` means
that it takes more rounds or calls than given, the inner one an error of the codec. -/
def readLoop (fuel : Nat) : Nat → Compression E H → Bytes → Option (Option (Compression E H))
  | 0, _, _ => none
  | rounds + 1, s, rest =>
    let read := rest.take inputSize
    match drive E.compress fuel s.stream 0 read with
    | none => none
    | some ⟨_, none⟩ => some none
    | some ⟨output, some (stream, _)⟩ =>
      let s := s.take read stream output
      if read.length < inputSize then some (some s)
      else readLoop fuel rounds s (rest.drop inputSize)

variable (E H)

def compressor (fuel : Nat) (io : CompressIo) (descriptor : FileDescriptor) :
    Option (Except CompressError CompressedFile) :=
  match io.source with
  | none => some (.error (.openFails descriptor.path))
  | some file =>
    if !io.createsStream then some (.error .createFails)
    else if !io.initsStream then some (.error .initFails)
    else match readLoop (E := E) (H := H) fuel fuel ⟨H.init, E.init, []⟩ file.content with
      | none => none
      | some none => some (.error .compressFails)
      | some (some s) =>
        if file.fails then some (.error (.readFails descriptor.path))
        else match E.drain fuel s.stream with
          | none => none
          | some none => some (.error .flushFails)
          | some (some output) =>
            some (.ok ⟨descriptor, H.hex s.sha, s.compressed ++ output⟩)

variable {E H} {D : Decoder} {c : Bytes}

/-- From a point where `u` of the file has been taken, the loop takes all of it. -/
theorem readLoop_returns (hE : E.Compresses D c) {u rest : Bytes} {s : Compression E H}
    (hs : E.Session u s.compressed s.stream) (hc : u ++ rest = c) : ∃ n s',
      (∀ fuel rounds, n ≤ fuel → n ≤ rounds → readLoop fuel rounds s rest = some (some s')) ∧
      E.Session c s'.compressed s'.stream := by
  induction hlen : rest.length using Nat.strong_induction_on generalizing u rest s with
  | _ k ih =>
    have hpre : u ++ rest.take inputSize <+: c := by
      rw [← hc, List.prefix_append_right_inj]
      exact List.take_prefix _ _
    obtain ⟨m, output, stream, p', hdrive⟩ := hE.consumes hs 0 _ hpre
    have hsession : E.Session (u ++ rest.take inputSize) (s.compressed ++ output) stream :=
      hs.feed hdrive
    by_cases hshort : (rest.take inputSize).length < inputSize
    · have hall : rest.take inputSize = rest := by
        rw [List.length_take] at hshort
        exact List.take_of_length_le (by omega)
      refine ⟨m + 1, s.take (rest.take inputSize) stream output,
        fun fuel rounds hfuel hrounds => ?_, ?_⟩
      · cases rounds with
        | zero => omega
        | succ rounds =>
          rw [readLoop, drive_mono (Nat.le_of_succ_le hfuel) hdrive]
          exact if_pos hshort
      · rw [hall, hc] at hsession
        exact hsession
    · have hdrop : (rest.drop inputSize).length < k := by
        have hpos : 0 < inputSize := by decide
        rw [List.length_take] at hshort
        rw [List.length_drop, ← hlen]
        omega
      have hsplit : u ++ rest.take inputSize ++ rest.drop inputSize = c := by
        rw [List.append_assoc, List.take_append_drop, hc]
      obtain ⟨n, s', hloop, hend⟩ := ih _ hdrop
        (s := s.take (rest.take inputSize) stream output) hsession hsplit rfl
      refine ⟨max m n + 1, s', fun fuel rounds hfuel hrounds => ?_, hend⟩
      cases rounds with
      | zero => omega
      | succ rounds =>
        rw [readLoop, drive_mono (by omega) hdrive]
        exact (if_neg hshort).trans (hloop fuel rounds (by omega) (by omega))

/-- With an encoder that keeps its promises and nothing refused, the compressor returns a file
that decodes back to the content. -/
theorem compressor_returns (hE : E.Compresses D c) (descriptor : FileDescriptor) :
    ∃ n file, (∀ fuel, n ≤ fuel →
      compressor E H fuel { source := some { content := c } } descriptor = some (.ok file)) ∧
      file.compressedData ≠ [] ∧ ∃ R, Decoder.Decodes D file.compressedData c R := by
  obtain ⟨n, s, hloop, hsession⟩ :=
    readLoop_returns (s := (⟨H.init, E.init, []⟩ : Compression E H)) hE .nil (List.nil_append c)
  obtain ⟨m, output, hdrain⟩ := hE.closes hsession
  refine ⟨max n m, ⟨descriptor, H.hex s.sha, s.compressed ++ output⟩, fun fuel hfuel => ?_,
    hE.one_frame hsession hdrain⟩
  have hn : n ≤ fuel := (Nat.le_max_left n m).trans hfuel
  have hm : m ≤ fuel := (Nat.le_max_right n m).trans hfuel
  simp [compressor, hloop fuel fuel hn hn, Encoder.drain_mono hm hdrain]

end SuperVoice.Client
