import Flocate.EncodingCorpus
import Flocate.Lib.StreamDecoder

/-!
# Reading the old database

`ExistingDB` reads filename blocks one at a time and the directory times and the metadata from two
compressed streams in pieces of up to 4096 bytes. The loops that call the decoder take a bound on
their rounds and give nothing if it does not suffice.
-/

namespace Flocate

open Bytes

/-- What is used of zstd, with the dictionary of the database. -/
structure Zstd (σ : Type) where
  contentSize : Str → Option ℕ
  /-- The content, if it fits into that many bytes. -/
  decompress : Str → ℕ → Option Str
  stream : StreamDecoder σ

structure Database where
  numDocids : UInt32
  filenameBlocks : List Str
  directoryData : Str
  metadata : Str

structure ExistingDB (σ : Type) where
  currentDocid : UInt32 := 0
  /-- From `current_filename_ptr` on; empty if that is null. -/
  currentFilename : Str := []
  dirTime : Inflow σ
  unreadRecord : Str × DirTime := ([], unknownDirTime)
  unreadMetadataRecord : FileMetadata := {}
  unreadMetadataValid : Bool := false
  metadataAvailable : Bool
  metadata : Inflow σ
  lastMetadataRecord : FileMetadata := {}
  eof : Bool := false
  error : Bool := false

namespace ExistingDB

variable {σ : Type} (zstd : Zstd σ) (db : Database)

/-- The constructor, for a database with the configuration at hand. -/
def ofDatabase : ExistingDB σ where
  dirTime := { ctx := zstd.stream.init }
  metadataAvailable := db.metadata ≠ []
  metadata := { ctx := zstd.stream.init }

def unread (s : ExistingDB σ) (record : Str × DirTime) : ExistingDB σ :=
  { s with
    unreadRecord := record
    unreadMetadataRecord := s.lastMetadataRecord
    unreadMetadataValid := true }

/-- Returns whether there are new bytes. -/
def refillMetadataBlock : ℕ → Inflow σ → Option (Inflow σ × Bool)
  | 0, _ => none
  | fuel + 1, s =>
      match zstd.stream.call s.ctx s.compressed 4096 with
      | none => some (s, false)
      | some (consumed, out, ctx) =>
          let s := s.decoded consumed out ctx
          if out ≠ [] then some (s, true)
          else if db.metadata.length ≤ s.pos then some (s, false)
          else refillMetadataBlock fuel
            (s.read db.metadata (min 4096 (db.metadata.length - s.pos)))

def ensureMetadataBytes (need : ℕ) : ℕ → Inflow σ → Option (Inflow σ × Bool)
  | 0, _ => none
  | fuel + 1, s =>
      if need ≤ s.block.length then some (s, true)
      else do
        let (s, found) ← refillMetadataBlock zstd db fuel s
        if found then ensureMetadataBytes need fuel s else some (s, false)

/-- Pulls in bytes until a whole record is at hand. -/
def bufferMetadataRecord (fuel : ℕ) (s : Inflow σ) : Option (Inflow σ × Bool) := do
  let (s, found) ← ensureMetadataBytes zstd db 1 fuel s
  if !found || s.block.head? = some 0 then some (s, found)
  else
    let upToHashLen := 1 + metadataRecordFixedBytes + 2
    let (s, found) ← ensureMetadataBytes zstd db upToHashLen fuel s
    if !found then some (s, false)
    else
      let hashLen := s.block.getD (upToHashLen - 1) 0
      ensureMetadataBytes zstd db (upToHashLen + hashLen.toNat) fuel s

def readNextMetadataRecord (fuel : ℕ) (s : ExistingDB σ) : Option (ExistingDB σ) :=
  let s := { s with lastMetadataRecord := {} }
  if !s.metadataAvailable then some s
  else do
    let (metadata, found) ← bufferMetadataRecord zstd db fuel s.metadata
    if !found then some { s with metadata := metadata, metadataAvailable := false }
    else
      match decodeMetadataRecord metadata.block with
      | none => some { s with metadata := metadata, metadataAvailable := false }
      | some (record, rest) =>
          some { s with
            metadata := metadata.consume (metadata.block.length - rest.length)
            lastMetadataRecord := record }

def readFilenameBlock (compressed : Str) : Option Str := do
  let len ← zstd.contentSize compressed
  let out ← zstd.decompress compressed (len + 1)
  some ((out ++ List.replicate (len - out.length) 0).take len ++ [0])

/-- Makes sure that there are filenames. Otherwise `read_next` returns an empty path. -/
def nextFilenameBlock (s : ExistingDB σ) : Except (ExistingDB σ) (ExistingDB σ) :=
  if s.currentFilename ≠ [] then .ok s
  else if db.numDocids ≤ s.currentDocid then .error { s with eof := true }
  else
    match db.filenameBlocks[s.currentDocid.toNat]?.bind (readFilenameBlock zstd) with
    | none => .error { s with error := true }
    | some block => .ok { s with currentFilename := block, currentDocid := s.currentDocid + 1 }

/-- A marker byte, and behind a nonzero one `sec` and `nsec`. -/
def dirRecordBytes : ℕ := 1 + 8 + 4

/-- The loop of `read_next` over the directory times. Returns whether a record is at hand. -/
def refillDirTime : ℕ → Inflow σ → Option (Inflow σ × Bool)
  | 0, _ => none
  | fuel + 1, s =>
      if s.block = [] ∨ s.block.head? ≠ some 0 ∧ s.block.length < dirRecordBytes then
        match zstd.stream.call s.ctx s.compressed 4096 with
        | none => some (s, false)
        | some (consumed, out, ctx) =>
            let s := s.decoded consumed out ctx
            if consumed = 0 ∧ out = [] then
              let bytesToRead := min (db.directoryData.length - s.pos) 4096
              if bytesToRead = 0 then some (s, false)
              else refillDirTime fuel (s.read db.directoryData bytesToRead)
            else refillDirTime fuel s
      else some (s, true)

/-- The end of `read_next`, with a filename and a directory time at hand. -/
def takeRecord (fuel : ℕ) (s : ExistingDB σ) : Option (ExistingDB σ × Str × DirTime) := do
  let filename := s.currentFilename.takeWhile (· ≠ 0)
  let isDir := s.dirTime.block.head? ≠ some 0
  let dt := if isDir then getTime (s.dirTime.block.drop 1) else notADir
  let s := { s with
    currentFilename := s.currentFilename.drop (filename.length + 1)
    dirTime := s.dirTime.consume (if isDir then dirRecordBytes else 1) }
  let s ← if filename ≠ [] then readNextMetadataRecord zstd db fuel s else some s
  some (s, filename, dt)

/-- Returns the path and the directory time; the path is empty at the end or after an error. -/
def readNext (fuel : ℕ) (s : ExistingDB σ) : Option (ExistingDB σ × Str × DirTime) :=
  if s.unreadRecord.1 ≠ [] then
    some ({ s with
      unreadRecord := ([], s.unreadRecord.2)
      lastMetadataRecord := if s.unreadMetadataValid then s.unreadMetadataRecord else {}
      unreadMetadataValid := false }, s.unreadRecord)
  else if s.eof || s.error then some (s, [], notADir)
  else
    match s.nextFilenameBlock zstd db with
    | .error s => some (s, [], notADir)
    | .ok s => do
        let (dirTime, found) ← refillDirTime zstd db fuel s.dirTime
        let s := { s with dirTime := dirTime }
        if !found then some ({ s with error := true }, [], notADir)
        else takeRecord zstd db fuel s

/-- That many calls of `read_next`, each with the `last_metadata` after it. -/
def readMany (fuel : ℕ) : ℕ → ExistingDB σ → Option (List (Str × DirTime × FileMetadata))
  | 0, _ => some []
  | n + 1, s => do
      let (s, path, dt) ← readNext zstd db fuel s
      let records ← readMany fuel n s
      some ((path, dt, s.lastMetadataRecord) :: records)

end ExistingDB

end Flocate
