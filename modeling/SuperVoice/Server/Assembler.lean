import SuperVoice.Lib.StreamCodec
import SuperVoice.Server.Storage

/-! `server::Assembler`: a complete record is decompressed chunk by chunk into `<name>.part`,
which is then renamed to the final name. The steps are those other threads can come between;
`assemble` runs them in one piece. -/
namespace SuperVoice.Server
open Bytes PosixPath FileStore StreamCodec
variable (r : Root) {D : Decoder}

def partPath (record : PayloadRecord) : Path :=
  join r.filesDir (record.originalName ++ ascii ".part")

def finalPath (record : PayloadRecord) : Path := join r.filesDir record.originalName

/-- The locals of `assemble` while the staging file is open. -/
structure Assembly (D : Decoder) where
  record : PayloadRecord
  outFd : Nat
  written : Nat
  stream : D.State
  pending : Nat
  idx : Nat

/-- How the system answers while one chunk is read and its output written. -/
structure ChunkIo where
  opens : Bool := true
  reads : Bool := true
  /-- The number of bytes `write` accepts before it fails. -/
  accepts : Option Nat := none

/-- What `flush_buffer` gets written of `output`. -/
def ChunkIo.flush (io : ChunkIo) (output : Bytes) : Bytes :=
  match io.accepts with
  | none => output
  | some k => output.take k

structure AssembleIo where
  opens : Bool := true
  createsStream : Bool := true
  chunk : Nat → ChunkIo := fun _ => {}
  syncs : Bool := true
  renames : Bool := true
  removes : Bool := true

/-- The size check, `open` of the staging file and creation of the stream. -/
def openPart (D : Decoder) (io : AssembleIo) (fs : FileSystem) (record : PayloadRecord) :
    Option (Assembly D) × FileSystem :=
  if record.chunkFiles.length ≠ record.totalChunks then (none, fs)
  else
    let part := r.locate (partPath r record)
    if io.opens then
      match fs.openTrunc part with
      | (none, fs) => (none, fs)
      | (some fd, fs) =>
        if io.createsStream then (some ⟨record, fd, 0, D.init, 0, 0⟩, fs)
        else (none, fs.unlink part)
    else (none, fs.log (.create part))

/-- Why the chunk loop is left before its end. -/
inductive Stop where
  /-- `success` is false. -/
  | failed
  /-- Reading a chunk file throws out of `assemble`. -/
  | thrown
  deriving DecidableEq

/-- What is read from a chunk file. A directory opens too, and then cannot be read. -/
def readChunk (io : ChunkIo) (fs : FileSystem) (path : Path) : Except Stop Bytes :=
  if path = [] || !io.opens then .error .failed
  else match fs.content (r.locate path) with
    | some input => if io.reads then .ok input else .error .thrown
    | none => .error (if fs.dirs (r.locate path) then .thrown else .failed)

/-- One round of the chunk loop; `none` while the inner loop needs more than `fuel` calls. -/
def decompressChunk (fuel : Nat) (io : ChunkIo) (fs : FileSystem) (a : Assembly D) :
    Option (Except Stop (Assembly D) × FileSystem) :=
  match a.record.chunkFiles[a.idx]? with
  | none => some (.error .failed, fs)
  | some path =>
    match readChunk r io fs path with
    | .error stop => some (.error stop, fs)
    | .ok input =>
      (drive D.call fuel a.stream a.pending input).map fun fed =>
        let out := io.flush fed.output
        let fs := fs.write a.outFd a.written out
        match fed.next with
        | none => (.error .failed, fs)
        | some (stream, pending) =>
          if out = fed.output then
            (.ok { a with stream, pending, idx := a.idx + 1, written := a.written + out.length },
              fs)
          else (.error .failed, fs)

/-- What becomes of the staging file after the chunk loop. -/
inductive Finished where
  | aborted
  | lost
  | published
  deriving DecidableEq

/-- The test of `pending`, `fsync` and the rename; `aborted` leaves the `unlink` to do. -/
def finishPart (io : AssembleIo) (fs : FileSystem) (a : Assembly D) : Finished × FileSystem :=
  if a.pending ≠ 0 || !io.syncs then (.aborted, fs)
  else
    let part := r.locate (partPath r a.record)
    let final := r.locate (finalPath r a.record)
    if io.renames then
      match fs.rename part final with
      | (true, fs) => (.published, fs)
      | (false, fs) => (.lost, fs)
    else (.lost, fs.log (.rename part final))

def abortPart (fs : FileSystem) (record : PayloadRecord) : FileSystem :=
  fs.unlink (r.locate (partPath r record))

def removePatches (removes : Bool) (fs : FileSystem) (record : PayloadRecord) : FileSystem :=
  if removes then fs.removeAll (r.locate record.patchesDir) else fs

/-- The chunk loop from `a.idx` on, `n` chunks to go. -/
def assembleChunks (fuel : Nat) (io : AssembleIo) :
    Nat → FileSystem → Assembly D → Option (Except Stop (Assembly D) × FileSystem)
  | 0, fs, a => some (.ok a, fs)
  | n + 1, fs, a =>
    match decompressChunk r fuel (io.chunk a.idx) fs a with
    | none => none
    | some (.error stop, fs) => some (.error stop, fs)
    | some (.ok a, fs) => assembleChunks fuel io n fs a

/-- `assemble` without interruption: the published path, or nothing. An exception leaves the
staging file where it is. -/
def assemble (D : Decoder) (fuel : Nat) (io : AssembleIo) (fs : FileSystem)
    (record : PayloadRecord) : Option (Outcome (Option Path) × FileSystem) :=
  match openPart r D io fs record with
  | (none, fs) => some (.returned none, fs)
  | (some a, fs) =>
    match assembleChunks r fuel io record.totalChunks fs a with
    | none => none
    | some (.error .thrown, fs) => some (.thrown, fs)
    | some (.error .failed, fs) => some (.returned none, abortPart r fs record)
    | some (.ok a, fs) =>
      match finishPart r io fs a with
      | (.aborted, fs) => some (.returned none, abortPart r fs record)
      | (.lost, fs) => some (.returned none, fs)
      | (.published, fs) =>
        some (.returned (some (finalPath r record)), removePatches r io.removes fs record)

end SuperVoice.Server
