import Flocate.HashTable
import Flocate.Lib.Stdio
import Flocate.MetadataCodec

/-!
# Writing a database file

`DatabaseBuilder` writes its file in order from the start, with a header that is not valid yet, and
puts the final header over it at the end. Every byte in the file remembers the call that has
written it.
-/

namespace Flocate

open Bytes Stdio

def magicBytes : Vector UInt8 8 := #v[0, 102, 108, 111, 99, 97, 116, 101]

structure DatabaseHeader where
  magic : Vector UInt8 8 := magicBytes
  version : UInt32
  hashtableSize : UInt32
  extraHtSlots : UInt32
  numDocids : UInt32
  hashTableOffsetBytes : UInt64
  filenameIndexOffsetBytes : UInt64
  maxVersion : UInt32
  zstdDictionaryLengthBytes : UInt32
  zstdDictionaryOffsetBytes : UInt64
  directoryDataLengthBytes : UInt64
  directoryDataOffsetBytes : UInt64
  nextZstdDictionaryLengthBytes : UInt64
  nextZstdDictionaryOffsetBytes : UInt64
  confBlockLengthBytes : UInt64
  confBlockOffsetBytes : UInt64
  metadataLengthBytes : UInt64
  metadataOffsetBytes : UInt64
  historyLengthBytes : UInt64
  historyOffsetBytes : UInt64
  metadataFlags : UInt32
  checkVisibility : Bool
deriving DecidableEq

namespace DatabaseHeader

def metadataFlagPosixV2 : UInt32 := 2

def size : ℕ := 144

/-- The layout of the structure; the last three bytes are padding. -/
def toBytes (hdr : DatabaseHeader) : Str :=
  hdr.magic.toList ++ putU32 hdr.version ++ putU32 hdr.hashtableSize ++ putU32 hdr.extraHtSlots ++
    putU32 hdr.numDocids ++ putU64 hdr.hashTableOffsetBytes ++
    putU64 hdr.filenameIndexOffsetBytes ++ putU32 hdr.maxVersion ++
    putU32 hdr.zstdDictionaryLengthBytes ++ putU64 hdr.zstdDictionaryOffsetBytes ++
    putU64 hdr.directoryDataLengthBytes ++ putU64 hdr.directoryDataOffsetBytes ++
    putU64 hdr.nextZstdDictionaryLengthBytes ++ putU64 hdr.nextZstdDictionaryOffsetBytes ++
    putU64 hdr.confBlockLengthBytes ++ putU64 hdr.confBlockOffsetBytes ++
    putU64 hdr.metadataLengthBytes ++ putU64 hdr.metadataOffsetBytes ++
    putU64 hdr.historyLengthBytes ++ putU64 hdr.historyOffsetBytes ++
    putU32 hdr.metadataFlags ++ [if hdr.checkVisibility then 1 else 0, 0, 0, 0]

def ofBytes (p : Str) : DatabaseHeader where
  magic := Vector.ofFn fun i => p.getD i 0
  version := getU32 (p.drop 8)
  hashtableSize := getU32 (p.drop 12)
  extraHtSlots := getU32 (p.drop 16)
  numDocids := getU32 (p.drop 20)
  hashTableOffsetBytes := getU64 (p.drop 24)
  filenameIndexOffsetBytes := getU64 (p.drop 32)
  maxVersion := getU32 (p.drop 40)
  zstdDictionaryLengthBytes := getU32 (p.drop 44)
  zstdDictionaryOffsetBytes := getU64 (p.drop 48)
  directoryDataLengthBytes := getU64 (p.drop 56)
  directoryDataOffsetBytes := getU64 (p.drop 64)
  nextZstdDictionaryLengthBytes := getU64 (p.drop 72)
  nextZstdDictionaryOffsetBytes := getU64 (p.drop 80)
  confBlockLengthBytes := getU64 (p.drop 88)
  confBlockOffsetBytes := getU64 (p.drop 96)
  metadataLengthBytes := getU64 (p.drop 104)
  metadataOffsetBytes := getU64 (p.drop 112)
  historyLengthBytes := getU64 (p.drop 120)
  historyOffsetBytes := getU64 (p.drop 128)
  metadataFlags := getU32 (p.drop 136)
  checkVisibility := (p.drop 140).headD 0 ≠ 0

def initial (checkVisibility : Bool) : DatabaseHeader where
  version := -1
  hashtableSize := 0
  extraHtSlots := numOverflowSlots
  numDocids := 0
  hashTableOffsetBytes := -1
  filenameIndexOffsetBytes := -1
  maxVersion := 3
  zstdDictionaryLengthBytes := -1
  zstdDictionaryOffsetBytes := -1
  directoryDataLengthBytes := 0
  directoryDataOffsetBytes := 0
  nextZstdDictionaryLengthBytes := 0
  nextZstdDictionaryOffsetBytes := 0
  confBlockLengthBytes := 0
  confBlockOffsetBytes := 0
  metadataLengthBytes := 0
  metadataOffsetBytes := 0
  historyLengthBytes := 0
  historyOffsetBytes := 0
  metadataFlags := 0
  checkVisibility := checkVisibility

end DatabaseHeader

/-- The calls on the stream up to the publication, in order. -/
inductive Call where
  | header
  | dictionary
  | block (docid : ℕ)
  | filenameIndex
  | hashTable
  | postingList (slot : ℕ)
  | directoryData
  | metadata
  | history
  | nextDictionary
  | confBlock
  | rewind
  | finalHeader
  | flush
deriving DecidableEq

/-- What a `DatabaseBuilder` is given to write: the compressed streams, the posting lists and the
hash table, without its offsets. -/
structure FinishedCorpus where
  dictionary : Str := []
  checkVisibility : Bool := true
  blocks : List Str
  getPlBuilder : UInt32 → FinishedList
  htSize : UInt32
  hashtable : List Trigram
  directoryData : Str := []
  metadata : Str := []
  history : Str := []
  nextDictionary : Str := []
  confBlock : Str := []
  block_ne_nil : ∀ block ∈ blocks, block ≠ []
  hashtable_ne_nil : hashtable ≠ []
  encoded_ne_nil : ∀ slot ∈ hashtable, slot.numDocids ≠ 0 → (getPlBuilder slot.trgm).encoded ≠ []

abbrev Written := Call × UInt8

structure DatabaseBuilder where
  hdr : DatabaseHeader
  outfp : File Written := {}

namespace DatabaseBuilder

variable (outcomes : Call → Outcome)

def fwrite (b : DatabaseBuilder) (call : Call) (data : Str) : DatabaseBuilder :=
  { b with outfp := b.outfp.fwrite (data.map (call, ·)) (outcomes call) }

/-- A section that is left out if it is empty; `set` puts offset and length into the header. -/
def writeSection (set : DatabaseHeader → UInt64 → UInt64 → DatabaseHeader) (call : Call)
    (data : Str) (b : DatabaseBuilder) : DatabaseBuilder :=
  if data = [] then b
  else
    let b := { b with
      hdr := set b.hdr (UInt64.ofNat b.outfp.ftell) (UInt64.ofNat data.length) }
    b.fwrite outcomes call data

def create (dictionary : Str) (checkVisibility : Bool) : DatabaseBuilder :=
  let hdr := DatabaseHeader.initial checkVisibility
  let b := fwrite outcomes { hdr := hdr } .header hdr.toBytes
  let hdr := { hdr with zstdDictionaryOffsetBytes := 0, zstdDictionaryLengthBytes := 0 }
  writeSection outcomes (fun hdr offset len => { hdr with
    zstdDictionaryOffsetBytes := offset
    zstdDictionaryLengthBytes := len.toUInt32 }) .dictionary dictionary { b with hdr := hdr }

/-- What the calls of `flush_block` write, and the positions they put into `filename_blocks`. A
failure ends the program. -/
def writeBlocks : List Str → ℕ → ℕ → DatabaseBuilder → Option (DatabaseBuilder × List ℕ)
  | [], _, _, b => some (b, [])
  | block :: blocks, docid, outfpPos, b =>
      let b := b.fwrite outcomes (.block docid) block
      if outcomes (.block docid) ≠ .ok then none
      else (writeBlocks blocks (docid + 1) (outfpPos + block.length) b).map fun (b, offsets) =>
        (b, outfpPos :: offsets)

/-- `finish_corpus` up to the offsets of the filenames. -/
def writeFilenameIndex (offsets : List ℕ) (b : DatabaseBuilder) : DatabaseBuilder :=
  let filenameBlocks := offsets ++ [b.outfp.ftell]
  let hdr := { b.hdr with
    numDocids := UInt32.ofNat offsets.length
    filenameIndexOffsetBytes := UInt64.ofNat b.outfp.ftell }
  { b with hdr := hdr }.fwrite outcomes .filenameIndex (filenameBlocks.flatMap (leBytes 8))

def writePostingLists (getPlBuilder : UInt32 → FinishedList) :
    List Trigram → ℕ → DatabaseBuilder → DatabaseBuilder
  | [], _, b => b
  | slot :: slots, i, b =>
      let b := if slot.numDocids = 0 then b
        else b.fwrite outcomes (.postingList i) (getPlBuilder slot.trgm).encoded
      writePostingLists getPlBuilder slots (i + 1) b

def writeTables (d : FinishedCorpus) (b : DatabaseBuilder) : DatabaseBuilder :=
  let bytesForHashtable := d.hashtable.length * 16
  let hashtable := assignOffsets d.getPlBuilder (b.outfp.ftell + bytesForHashtable) d.hashtable
  let hdr := { b.hdr with
    hashTableOffsetBytes := UInt64.ofNat b.outfp.ftell
    hashtableSize := d.htSize }
  let b := { b with hdr := hdr }.fwrite outcomes .hashTable (hashtable.flatMap Trigram.toBytes)
  writePostingLists outcomes d.getPlBuilder hashtable 0 b

def writeSections (d : FinishedCorpus) (b : DatabaseBuilder) : DatabaseBuilder :=
  let b := writeSection outcomes (fun hdr offset len => { hdr with
    directoryDataOffsetBytes := offset
    directoryDataLengthBytes := len }) .directoryData d.directoryData b
  let b := writeSection outcomes (fun hdr offset len => { hdr with
    metadataOffsetBytes := offset
    metadataLengthBytes := len
    metadataFlags := DatabaseHeader.metadataFlagPosixV2 }) .metadata d.metadata b
  let b := writeSection outcomes (fun hdr offset len => { hdr with
    historyOffsetBytes := offset
    historyLengthBytes := len }) .history d.history b
  let b := writeSection outcomes (fun hdr offset len => { hdr with
    nextZstdDictionaryOffsetBytes := offset
    nextZstdDictionaryLengthBytes := len }) .nextDictionary d.nextDictionary b
  writeSection outcomes (fun hdr offset len => { hdr with
    confBlockOffsetBytes := offset
    confBlockLengthBytes := len }) .confBlock d.confBlock b

def writeBody (d : FinishedCorpus) : Option DatabaseBuilder :=
  let b := create outcomes d.dictionary d.checkVisibility
  (writeBlocks outcomes d.blocks 0 b.outfp.ftell b).map fun (b, offsets) =>
    writeSections outcomes d (writeTables outcomes d (writeFilenameIndex outcomes offsets b))

/-- The final header, and what is in the file when `finish_corpus` publishes it. -/
def writeHeader (b : DatabaseBuilder) : List Written :=
  let b := { b with
    hdr := { b.hdr with version := 2 }
    outfp := b.outfp.fseek 0 (outcomes .rewind) }
  ((b.fwrite outcomes .finalHeader b.hdr.toBytes).outfp.fflush (outcomes .flush)).disk

end DatabaseBuilder

/-- The two ways to a temporary file, and what becomes of the calls that give it its name. -/
inductive Publication where
  | rename (succeeds : Bool)
  | tmpfile (unlinkSucceeds linkatSucceeds : Bool)

/-- What the output path names, if anything. -/
inductive Named where
  | previous (contents : Str)
  | published (contents : List Written)

/-- A missing file cannot be unlinked, and `linkat` does not replace a file. -/
def Publication.publish (previous : Option Str) (contents : List Written) :
    Publication → Option Named
  | .rename true => some (.published contents)
  | .rename false => previous.map .previous
  | .tmpfile unlinkSucceeds linkatSucceeds =>
      match if unlinkSucceeds then none else previous.map Named.previous with
      | some named => some named
      | none => if linkatSucceeds then some (.published contents) else none

/-- What the output path names when `finish_corpus` has returned or the program has ended. -/
def finishCorpus (outcomes : Call → Outcome) (publication : Publication) (previous : Option Str)
    (d : FinishedCorpus) : Option Named :=
  match DatabaseBuilder.writeBody outcomes d with
  | none => previous.map .previous
  | some b => publication.publish previous (b.writeHeader outcomes)

def FinishedCorpus.database (d : FinishedCorpus) : List Written :=
  match DatabaseBuilder.writeBody (fun _ => .ok) d with
  | none => []
  | some b => b.writeHeader fun _ => .ok

end Flocate
