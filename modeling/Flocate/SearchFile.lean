import Flocate.DamagedDatabase
import Flocate.DatabaseSearch
import Flocate.HashTable
import Flocate.TurbopforDecode

/-!
# The database file under a search

What `Corpus` reads of a file: the header, the entries of the hash table from a bucket on, posting
lists and filename blocks. A read that fails ends the program.
-/

namespace Flocate

open Bytes

/-- The constructor of `Corpus`. Fields that an old version does not have are junk in the file. -/
def openCorpus (ignoreVisibility : Bool) (file : Str) : Option DatabaseHeader := do
  let hdr := DatabaseHeader.ofBytes (← tryCompletePread file DatabaseHeader.size 0)
  if hdr.magic ≠ magicBytes then none
  else if hdr.version ≠ 0 ∧ hdr.version ≠ 1 ∧ hdr.version ≠ 2 then none
  else
    let hdr := if hdr.version = 0 then
        { hdr with zstdDictionaryOffsetBytes := 0, zstdDictionaryLengthBytes := 0 }
      else hdr
    let hdr := if hdr.maxVersion < 2 then { hdr with checkVisibility := true } else hdr
    some (if ignoreVisibility then { hdr with checkVisibility := false } else hdr)

/-- What a callback of `submit_read` gets. The engine takes a read of nothing for a failure. -/
def submitRead (file : Str) (len offset : ℕ) : Option Str :=
  if len = 0 then none else tryCompletePread file len offset

def Trigram.ofBytes (p : Str) : Trigram :=
  ⟨getU32 p, getU32 (p.drop 4), (getU64 (p.drop 8)).toNat⟩

def readSlots : ℕ → Str → List Trigram
  | 0, _ => []
  | n + 1, p => Trigram.ofBytes p :: readSlots n (p.drop 16)

section Reads

variable {σ : Type} (zstd : Zstd σ) (beyond : Memory) (file : Str) (hdr : DatabaseHeader)

/-- `Corpus::find_trigram`; the inner `none` stands for the null pointer. -/
def findTrigramIn (trgm : UInt32) : Option (Option (Trigram × ℕ)) :=
  let bucket := hashTrigram trgm hdr.hashtableSize
  let num := hdr.extraHtSlots + 2
  (submitRead file (16 * num.toNat) (hdr.hashTableOffsetBytes + 16 * bucket.toUInt64).toNat).map
    fun s => scanSlots trgm (readSlots num.toNat s)

/-- The callback of a posting list. `beyond` is what the memory has behind the buffer. -/
def postingListIn (r : Trigram × ℕ) : Option (List UInt32) := do
  let s ← submitRead file r.2 r.1.offset
  match decodePforDelta1 (writeBytes beyond 0 s) 0 r.1.numDocids.toNat true with
  | .ok (docids, _) => some docids
  | .error _ => none

/-- The block that `scan_file_block` decompresses, without the zero byte behind it. -/
def scannedBlock (compressed : Str) : Option Str :=
  (ExistingDB.readFilenameBlock zstd compressed).map List.dropLast

def filenameBlockIn (docid : UInt32) : Option Str := do
  let s ← submitRead file 16 (hdr.filenameIndexOffsetBytes + docid.toUInt64 * 8).toNat
  let compressed ← submitRead file (getU64 (s.drop 8) - getU64 s).toNat (getU64 s).toNat
  scannedBlock zstd compressed

def dictionaryIn : Option Str :=
  if hdr.zstdDictionaryLengthBytes = 0 then some []
  else submitRead file hdr.zstdDictionaryLengthBytes.toNat hdr.zstdDictionaryOffsetBytes.toNat

/-- What a search works with, as far as no read fails. -/
def Corpus.ofFile : Corpus where
  filenameBlocks := (List.range hdr.numDocids.toNat).map fun k =>
    (filenameBlockIn zstd file hdr (UInt32.ofNat k)).getD []
  findTrigram trgm := (findTrigramIn file hdr trgm).join
  decode r := (postingListIn beyond file r).getD []

/-- No read of a search fails, whatever it looks up and whichever blocks it scans. -/
structure ReadsSucceed : Prop where
  findTrigram : ∀ trgm < 0x1000000, findTrigramIn file hdr trgm ≠ none
  postingList : ∀ trgm < 0x1000000, ∀ r, findTrigramIn file hdr trgm = some (some r) →
    postingListIn beyond file r ≠ none
  filenameBlock : ∀ docid < hdr.numDocids, filenameBlockIn zstd file hdr docid ≠ none

/-- A round of the loop of `scan_all_docids` and what the threads make of it: the blocks from
`first` to `last` are read in one go and cut apart by their offsets. -/
def scanChunk (offset : ℕ → UInt64) (first last : ℕ) : Option (List Str) := do
  let compressed ← tryCompletePread file (offset last - offset first).toNat (offset first).toNat
  (List.range' first (last - first)).mapM fun docid =>
    scannedBlock zstd ((compressed.drop (offset docid - offset first).toNat).take
      (offset (docid + 1) - offset docid).toNat)

def scanChunks (offset : ℕ → UInt64) (first numBlocks : ℕ) : Option (List Str) :=
  if _h : first < numBlocks then do
    let blocks ← scanChunk zstd file offset first (min (first + 32) numBlocks)
    let rest ← scanChunks offset (first + 32) numBlocks
    some (blocks ++ rest)
  else some []
termination_by numBlocks - first

def allBlocksIn : Option (List Str) := do
  let numBlocks := hdr.numDocids.toNat
  let offsets ← tryCompletePread file ((numBlocks + 1) * 8) hdr.filenameIndexOffsetBytes.toNat
  scanChunks zstd file (fun docid => getU64 (offsets.drop (8 * docid))) 0 numBlocks

end Reads

end Flocate
