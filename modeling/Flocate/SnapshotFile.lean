import Flocate.DatabaseReuse
import Flocate.HistoryCodec
import Flocate.PruneConfig
import Flocate.SnapshotRecords

/-!
# Reading a database file for a comparison

`flocate-showdiff` checks the header against the length of the file and then reads the sections that
the header and the filename index point to. Every call of `pread` is recorded. A call may transfer
fewer bytes than it is asked for or fail; one that a signal has interrupted is made again.
-/

namespace Flocate

open Bytes

/-- A file as `fstat` and `pread` see it; its length is an `off_t`. -/
structure OpenFile where
  bytes : Str
  length_lt : bytes.length < 2 ^ 63

def OpenFile.size (file : OpenFile) : UInt64 := UInt64.ofNat file.bytes.length

/-- What a call of `pread` asks for. -/
structure Pread where
  offset : ℕ
  length : ℕ
deriving DecidableEq

/-- The calls that a function makes and its result; nothing if it returns false. -/
structure Loading (α : Type) where
  reads : List Pread
  result : Option α

namespace Loading

variable {α β : Type}

def pure (a : α) : Loading α := ⟨[], some a⟩

def fail : Loading α := ⟨[], none⟩

def ofOption (a : Option α) : Loading α := ⟨[], a⟩

def bind (x : Loading α) (f : α → Loading β) : Loading β :=
  match x.result with
  | none => ⟨x.reads, none⟩
  | some a => ⟨x.reads ++ (f a).reads, (f a).result⟩

instance : Monad Loading where
  pure := pure
  bind := bind

end Loading

section Preads

variable (transfer : ℕ → ℕ → Option ℕ) (file : OpenFile)

/-- `pread_fully`. The call for `len` bytes from `offset` on transfers at most `k + 1` bytes if
`transfer offset len` is `k`. -/
def preadFully (len offset : ℕ) : Loading Str :=
  if _hlen : len = 0 then pure []
  else
    match transfer offset len with
    | none => ⟨[⟨offset, len⟩], none⟩
    | some k =>
        let got := (file.bytes.drop offset).take (min (k + 1) len)
        if _hgot : got = [] then ⟨[⟨offset, len⟩], none⟩
        else
          let rest := preadFully (len - got.length) (offset + got.length)
          ⟨⟨offset, len⟩ :: rest.reads, rest.result.map (got ++ ·)⟩
termination_by len
decreasing_by
  exact Nat.sub_lt (Nat.pos_of_ne_zero _hlen) (List.length_pos_iff.mpr _hgot)

def readBlob (offset length : UInt64) : Loading Str :=
  if 0 < length then preadFully transfer file length.toNat offset.toNat else pure []

def sectionFits (offset length fileSize : UInt64) : Bool :=
  length = 0 || (offset ≤ fileSize && length ≤ fileSize - offset)

def DatabaseHeader.indexBytes (hdr : DatabaseHeader) : UInt64 := (hdr.numDocids.toUInt64 + 1) * 8

def DatabaseHeader.accepted (hdr : DatabaseHeader) (fileSize : UInt64) : Bool :=
  hdr.magic = magicBytes && (hdr.version = 1 || hdr.version = 2) && 3 ≤ hdr.maxVersion &&
    sectionFits hdr.filenameIndexOffsetBytes hdr.indexBytes fileSize &&
    sectionFits hdr.zstdDictionaryOffsetBytes hdr.zstdDictionaryLengthBytes.toUInt64 fileSize &&
    sectionFits hdr.confBlockOffsetBytes hdr.confBlockLengthBytes fileSize &&
    sectionFits hdr.metadataOffsetBytes hdr.metadataLengthBytes fileSize &&
    sectionFits hdr.historyOffsetBytes hdr.historyLengthBytes fileSize &&
    ((hdr.metadataLengthBytes = 0 && hdr.historyLengthBytes = 0) ||
      hdr.metadataFlags &&& DatabaseHeader.metadataFlagPosixV2 ≠ 0)

def readHeader : Loading DatabaseHeader := do
  if file.bytes.length < DatabaseHeader.size then .fail
  else
    let hdr := DatabaseHeader.ofBytes (← preadFully transfer file DatabaseHeader.size 0)
    if hdr.accepted file.size then pure hdr else .fail

end Preads

structure LoadedSnapshot extends Snapshot where
  prune : PruneConfig

/-- The paths in this order, each moved out of the list, which leaves an empty string there. -/
def moveOut : List UInt32 → List Str → List Str
  | [], _ => []
  | i :: order, paths => paths.getD i.toNat [] :: moveOut order (paths.set i.toNat [])

/-- The paths moved and the metadata copied in an order. -/
def movedSnapshot (paths : List Str) (metadata : List FileMetadata) (prune : PruneConfig)
    (order : List UInt32) : LoadedSnapshot :=
  let kinds := (metadata.map (·.hash.kind)).filter (· ≠ .none)
  let metadata :=
    if paths.length ≠ metadata.length then resize metadata paths.length {} else metadata
  let sortedPaths := moveOut order paths
  { paths := sortedPaths
    metadata := order.map fun i => metadata.getD i.toNat {}
    hashKind := kinds.headD .none
    scanRoot := scanRootFromPaths sortedPaths
    prune := prune }

/-- The end of `load_snapshot`, from the comparison of the counts on. -/
def sortSnapshot (paths : List Str) (metadata : List FileMetadata) (prune : PruneConfig) :
    Except Fault LoadedSnapshot :=
  (sortedOrder paths).map (movedSnapshot paths metadata prune)

section Load

variable {σ : Type} (stream : StreamDecoder σ) (advancing : stream.Advancing)
  (zstd : Str → Zstd σ) (transfer : ℕ → ℕ → Option ℕ) (file : OpenFile)

/-- `decompress_stream` through a buffer of 8192 bytes. -/
def decompressSection (compressed : Str) : Option Str :=
  stream.decompress advancing 8192 (Nat.zero_lt_succ 8191) stream.init compressed

def blockOffset (index : Str) (block : ℕ) : UInt64 := getU64 (index.drop (8 * block))

def loadBlocks (dictionary index : Str) : List ℕ → Loading (List Str)
  | [] => pure []
  | block :: blocks => do
      let start := blockOffset index block
      let stop := blockOffset index (block + 1)
      if stop < start ∨ sectionFits start (stop - start) file.size = false then .fail
      else
        let blob ← readBlob transfer file start (stop - start)
        let blockData ← .ofOption (decompressBlock (zstd dictionary) blob)
        let paths ← loadBlocks dictionary index blocks
        pure (extractPathsFromBlock blockData ++ paths)

/-- `load_snapshot` behind `read_header`; without a dictionary its bytes are empty. -/
def loadSnapshotFile (hdr : DatabaseHeader) : Loading (Except Fault LoadedSnapshot) := do
  if hdr.metadataLengthBytes = 0 then .fail
  else
    let blob ← readBlob transfer file hdr.metadataOffsetBytes hdr.metadataLengthBytes
    let metadataStream ← .ofOption (decompressSection stream advancing blob)
    let confBlob ← readBlob transfer file hdr.confBlockOffsetBytes hdr.confBlockLengthBytes
    let index ← preadFully transfer file (8 * (hdr.numDocids.toNat + 1))
      hdr.filenameIndexOffsetBytes.toNat
    let dictionary ← readBlob transfer file hdr.zstdDictionaryOffsetBytes
      hdr.zstdDictionaryLengthBytes.toUInt64
    let paths ← loadBlocks zstd transfer file dictionary index (List.range hdr.numDocids.toNat)
    pure (sortSnapshot paths (decodeMetadataStream metadataStream) (parseConfBlock confBlob {}))

/-- `load_history_events` behind `read_header`. -/
def loadHistoryEvents (hdr : DatabaseHeader) : Loading (List HistoryEvent) := do
  if hdr.historyLengthBytes = 0 then .fail
  else
    let blob ← readBlob transfer file hdr.historyOffsetBytes hdr.historyLengthBytes
    let decompressed ← .ofOption (decompressSection stream advancing blob)
    pure (decodeHistoryStream decompressed)

end Load

end Flocate
