import SuperVoice.Lib.FileStore
import Mathlib.Data.Finset.Card
import Mathlib.Data.List.AList

/-! `server::Storage`: chunks are committed as patch files and tracked per payload. The state
is the file system and the map `payloads_`; what the system may refuse to do is an argument. -/
namespace SuperVoice.Server
open Bytes PosixPath FileStore

structure ChunkData where
  fileId : Bytes
  originalName : Bytes
  index : Nat
  totalChunks : Nat
  /-- Nanoseconds. -/
  timestamp : Int
  /-- Seconds. -/
  ttl : Int
  headerBytes : Bytes
  payload : Bytes
  headerCrc : UInt32
  payloadCrc : UInt32

structure PayloadRecord where
  fileId : Bytes
  originalName : Bytes
  totalChunks : Nat
  patchesDir : Path
  filesDir : Path
  chunkFiles : List Path
  deriving DecidableEq

inductive EntryState where
  | isPartial
  | isComplete
  deriving DecidableEq

def EntryState.text : EntryState → Bytes
  | .isPartial => ascii "partial"
  | .isComplete => ascii "complete"

structure PayloadEntry where
  record : PayloadRecord
  received : Finset Nat
  lastUpdate : Int
  ttl : Int
  state : EntryState
  deriving DecidableEq

/-- The value `payloads_[file_id]` creates for a new id. -/
def PayloadEntry.fresh : PayloadEntry :=
  ⟨⟨[], [], 0, [], [], []⟩, ∅, 0, 0, .isPartial⟩

/-- The root directory and the directory it is relative to; `argv` strings hold no NUL. -/
structure Root where
  cwd : Location
  path : Path
  no_nul : 0 ∉ path

namespace Root
variable (r : Root)

def patchesDir : Path := join r.path (ascii "patches")
def filesDir : Path := join r.path (ascii "files")
def locate (p : Path) : Location := resolve r.cwd p
def patches : Location := r.locate r.patchesDir
def files : Location := r.locate r.filesDir

end Root

structure Storage where
  payloads : AList fun _ : Bytes => PayloadEntry
  defaultTtl : Int

/-- What `Storage` and its users act on. -/
structure World where
  fs : FileSystem
  storage : Storage

def World.entry (w : World) (id : Bytes) : Option PayloadEntry := w.storage.payloads.lookup id

/-- What the system grants one `store_chunk` call. -/
structure StoreIo where
  directories : Bool := true
  /-- How many places `create_directories` gets past before it is refused. -/
  made : Nat := 0
  patch : Option Fault := none
  allocates : Bool := true
  manifest : Option Fault := none

def patchFileName (index : Nat) : Bytes := ascii "patch_" ++ decimal index ++ ascii ".bin"

def crcPolynomial : UInt32 := 0xEDB88320

def crcBit (crc : UInt32) : UInt32 :=
  if crc &&& 1 = 1 then (crc >>> 1) ^^^ crcPolynomial else crc >>> 1

def crcByte (crc : UInt32) (byte : UInt8) : UInt32 := crcBit^[8] (crc ^^^ byte.toUInt32)

def crc32 (data : Bytes) : UInt32 := data.foldl crcByte 0xFFFFFFFF ^^^ 0xFFFFFFFF

def verifyCrc (chunk : ChunkData) : Bool :=
  crc32 chunk.headerBytes == chunk.headerCrc && crc32 chunk.payload == chunk.payloadCrc

variable (r : Root)

/-- The places `create_directories` gets to; a refused call does not get to the last one. -/
def reached (io : StoreIo) (p : Path) : List Location :=
  if io.directories then passed r.cwd p else (passed r.cwd p).dropLast.take io.made

def createDirectories (io : StoreIo) (fs : FileSystem) (p : Path) : Bool × FileSystem :=
  let (ok, fs) := fs.mkdirs (reached r io p)
  (io.directories && ok, fs)

/-- Both `write_binary_file` and `persist_manifest` write next to the target and rename. -/
def commitFile (fault : Option Fault) (fs : FileSystem) (p : Path) (data : Bytes) :
    Bool × FileSystem :=
  FileSystem.replaceFile fault fs (r.locate (p ++ ascii ".tmp")) (r.locate p) data

def writeBinaryFile (fault : Option Fault) (fs : FileSystem) (p : Path) (data : Bytes) :
    Bool × FileSystem := commitFile r fault fs p data

def manifestDir (id : Bytes) : Path := join r.patchesDir id
def patchPath (id : Bytes) (index : Nat) : Path := join (manifestDir r id) (patchFileName index)

def manifestLine (record : PayloadRecord) (entry : PayloadEntry) : Bytes :=
  record.fileId ++ ascii "," ++ record.originalName ++ ascii "," ++
    signedDecimal (entry.lastUpdate.tdiv 1000000000) ++ ascii "," ++ signedDecimal entry.ttl ++
    ascii "," ++ entry.state.text ++ [newline]

def persistManifest (fault : Option Fault) (fs : FileSystem) (record : PayloadRecord)
    (entry : PayloadEntry) : FileSystem :=
  (commitFile r fault fs (join record.patchesDir (ascii "ids.list"))
    (manifestLine record entry)).2

/-- `store_chunk` up to the lock: check both CRCs, then commit the patch file. -/
def writePatch (io : StoreIo) (fs : FileSystem) (chunk : ChunkData) : Bool × FileSystem :=
  if verifyCrc chunk then
    match createDirectories r io fs (manifestDir r chunk.fileId) with
    | (false, fs) => (false, fs)
    | (true, fs) =>
      writeBinaryFile r io.patch fs (patchPath r chunk.fileId chunk.index) chunk.payload
  else (false, fs)

/-- `std::vector::resize` to a size that is not smaller. -/
def grow (files : List Path) (n : Nat) : List Path :=
  files ++ List.replicate (n - files.length) []

/-- The record an arriving chunk finds: filled in anew while it has no chunk files. -/
def openRecord (chunk : ChunkData) (record : PayloadRecord) : PayloadRecord :=
  if record.chunkFiles = [] then
    { record with
      fileId := chunk.fileId
      originalName := chunk.originalName
      totalChunks := chunk.totalChunks
      patchesDir := manifestDir r chunk.fileId
      filesDir := r.filesDir }
  else record

def addChunk (chunk : ChunkData) (record : PayloadRecord) : PayloadRecord :=
  { record with
    chunkFiles := (grow record.chunkFiles (max record.chunkFiles.length chunk.totalChunks)).set
      chunk.index (patchPath r chunk.fileId chunk.index) }

def updateEntry (now defaultTtl : Int) (chunk : ChunkData) (entry : PayloadEntry) :
    PayloadEntry :=
  let record := addChunk r chunk (openRecord r chunk entry.record)
  let received := insert chunk.index entry.received
  { record
    received
    lastUpdate := now
    ttl := if chunk.ttl > 0 then chunk.ttl else defaultTtl
    state := if received.card = record.totalChunks then .isComplete else .isPartial }

/-- `entry.received.size() == entry.record.total_chunks`. -/
def PayloadEntry.complete (entry : PayloadEntry) : Bool :=
  entry.received.card == entry.record.totalChunks

/-- How a call ends: with a value, or by an exception that leaves through it. -/
inductive Outcome (α : Type) where
  | returned (value : α)
  | thrown
  deriving DecidableEq

/-- `store_chunk` under the lock. A failing `resize` throws and leaves the opened record. -/
def registerChunk (io : StoreIo) (now : Int) (w : World) (chunk : ChunkData) :
    Outcome (Option PayloadRecord) × World :=
  let entry := (w.entry chunk.fileId).getD .fresh
  if io.allocates then
    let entry := updateEntry r now w.storage.defaultTtl chunk entry
    (.returned (if entry.complete then some entry.record else none),
      { fs := persistManifest r io.manifest w.fs entry.record entry
        storage := { w.storage with payloads := w.storage.payloads.insert chunk.fileId entry } })
  else
    let entry := { entry with record := openRecord r chunk entry.record }
    (.thrown,
      { w with storage :=
        { w.storage with payloads := w.storage.payloads.insert chunk.fileId entry } })

def storeChunk (io : StoreIo) (now : Int) (w : World) (chunk : ChunkData) :
    Outcome (Option PayloadRecord) × World :=
  match writePatch r io w.fs chunk with
  | (false, fs) => (.returned none, { w with fs })
  | (true, fs) => registerChunk r io now { w with fs } chunk

def markPublished (w : World) (id : Bytes) : World :=
  { w with storage := { w.storage with payloads := w.storage.payloads.erase id } }

/-- Run `f` on the tracked entries one after the other; `f` may drop its own entry. -/
def World.forEntries (f : World → Bytes → PayloadEntry → World) (w : World) : World :=
  w.storage.payloads.keys.foldl
    (fun w id => match w.entry id with
      | none => w
      | some entry => f w id entry) w

/-- One entry of `update_ttl`; persisting the manifest may fail. -/
def resetTtl (fault : Option Fault) (newTtl : Int) (w : World) (id : Bytes)
    (entry : PayloadEntry) : World :=
  let entry := { entry with ttl := newTtl }
  { fs := persistManifest r fault w.fs entry.record entry
    storage := { w.storage with payloads := w.storage.payloads.insert id entry } }

def updateTtl (fault : Bytes → Option Fault) (w : World) (newTtl : Int) : World :=
  { w with storage := { w.storage with defaultTtl := newTtl } }.forEntries
    fun w id entry => resetTtl r (fault id) newTtl w id entry

/-- `std::chrono` compares in 64-bit nanoseconds, the common type of both sides. -/
def expired (now : Int) (entry : PayloadEntry) : Bool :=
  decide ((now - entry.lastUpdate).bmod (2 ^ 64) > (entry.ttl * 1000000000).bmod (2 ^ 64))

/-- One expired entry: `remove_all`, which may fail, then `erase`. -/
def expireEntry (removes : Bytes → Bool) (w : World) (id : Bytes) (entry : PayloadEntry) :
    World :=
  { fs := if removes id then w.fs.removeAll (r.locate entry.record.patchesDir) else w.fs
    storage := { w.storage with payloads := w.storage.payloads.erase id } }

def cleanupExpired (removes : Bytes → Bool) (now : Int) (w : World) : World :=
  w.forEntries fun w id entry =>
    if expired now entry then expireEntry r removes w id entry else w

end SuperVoice.Server
