import Flocate.Lib.NulJoin
import Flocate.MetadataCodec
import Flocate.PostingListBuilder
import Mathlib.Logic.Function.Basic

/-!
# Building the corpus

`EncodingCorpus` joins filenames into blocks, collects for every trigram the blocks it occurs in,
and keeps directory times and metadata as two byte streams. What zstd compresses is kept
uncompressed here: `filenameBlocks` are the contents of the blocks written.
-/

namespace Flocate

open Bytes Fault

structure EncodingCorpus where
  blockSize : ℕ
  storeDirTimes : Bool
  storeMetadata : Bool
  numFiles : ℕ := 0
  numFilesInBlock : ℕ := 0
  numBlocks : ℕ := 0
  filenameBlocks : List Str := []
  invindex : UInt32 → Option PostingListBuilder := fun _ => none
  currentBlock : Str := []
  dirTimes : Str := []
  metadataStream : Str := []

def readWindow (a b c d : UInt8) : UInt32 := UInt32.ofNat (leNat [a, b, c, d])

/-- The inner loop of `flush_block` from `ptr` on: the trigrams of one filename, and where the
next one starts. The zero byte behind the block belongs to the string. -/
def filenameTrigrams : Str → Except Fault (List UInt32 × Str)
  | a :: b :: c :: d :: p =>
      if readWindow a b c d ≤ 0xffffff then .ok ([readWindow a b c d &&& 0xffffff], p)
      else
        (filenameTrigrams (b :: c :: d :: p)).map fun r =>
          ((readWindow a b c d &&& 0xffffff) :: r.1, r.2)
  | _ => .error .outOfBounds

theorem filenameTrigrams_length {p rest : Str} {trgms : List UInt32}
    (h : filenameTrigrams p = .ok (trgms, rest)) : rest.length < p.length := by
  induction p using filenameTrigrams.induct generalizing trgms with
  | case1 a b c d p hle =>
      rw [filenameTrigrams, if_pos hle, Except.ok.injEq, Prod.mk.injEq] at h
      rw [← h.2]
      simp only [List.length_cons]
      omega
  | case2 a b c d p hle ih =>
      rw [filenameTrigrams, if_neg hle, map_eq_ok] at h
      obtain ⟨r, hr, heq⟩ := h
      obtain ⟨-, rfl⟩ := Prod.mk.inj heq
      exact (ih hr).trans (Nat.lt_succ_self _)
  | case3 p hp =>
      rw [filenameTrigrams] at h
      · cases h
      · exact hp

/-- The outer loop of `flush_block` from `ptr` on. All trigrams of the block in the order in which
they are passed to `add_docid`. -/
def blockTrigrams (p : Str) : Except Fault (List UInt32) :=
  -- `ptr < end - 3`, and the string has a zero byte more
  if _h : 4 < p.length then
    if p[0] = 0 then blockTrigrams (p.drop 1)
    else if p[1] = 0 then blockTrigrams (p.drop 2)
    else if p[2] = 0 then blockTrigrams (p.drop 3)
    else
      match _hf : filenameTrigrams p with
      | .error e => .error e
      | .ok (trgms, rest) => (blockTrigrams rest).map (trgms ++ ·)
  else .ok []
termination_by p.length
decreasing_by
  · rw [List.length_drop]; omega
  · rw [List.length_drop]; omega
  · rw [List.length_drop]; omega
  · exact filenameTrigrams_length _hf

abbrev InvIndex := UInt32 → Option PostingListBuilder

def addDocid (docid : UInt32) (invindex : InvIndex) (trgm : UInt32) : Except Fault InvIndex :=
  match invindex trgm with
  | none => (PostingListBuilder.addFirstDocid {} docid).map fun b =>
      Function.update invindex trgm (some b)
  | some b => .ok (Function.update invindex trgm (some (b.addDocid docid)))

namespace EncodingCorpus

def flushBlock (corpus : EncodingCorpus) : Except Fault EncodingCorpus :=
  if corpus.currentBlock = [] then .ok corpus
  else do
    let docid := UInt32.ofNat corpus.numBlocks
    let trgms ← blockTrigrams (corpus.currentBlock ++ [0])
    let invindex ← trgms.foldlM (addDocid docid) corpus.invindex
    return { corpus with
      invindex := invindex
      filenameBlocks := corpus.filenameBlocks ++ [corpus.currentBlock]
      currentBlock := []
      numFilesInBlock := 0
      numBlocks := corpus.numBlocks + 1 }

def dirTimeRecord (dt : DirTime) : Str :=
  if dt.sec = -1 then [0] else 1 :: putU64 dt.sec.toUInt64 ++ putU32 dt.nsec.toUInt32

/-- `add_file` up to the count of files in the block. -/
def addPath (corpus : EncodingCorpus) (path : Str) : EncodingCorpus :=
  { corpus with
    numFiles := corpus.numFiles + 1
    currentBlock := (if corpus.currentBlock = [] then [] else corpus.currentBlock ++ [0]) ++ path
    numFilesInBlock := corpus.numFilesInBlock + 1 }

/-- `add_file` from `if (store_dir_times)` on. -/
def addStreams (corpus : EncodingCorpus) (record : FileRecord) : EncodingCorpus :=
  { corpus with
    dirTimes := corpus.dirTimes ++
      if corpus.storeDirTimes then dirTimeRecord record.dirTimestamp else []
    metadataStream := corpus.metadataStream ++
      if corpus.storeMetadata then encodeMetadataRecord record.metadata else [] }

def addFile (corpus : EncodingCorpus) (record : FileRecord) : Except Fault EncodingCorpus :=
  let corpus := corpus.addPath record.path
  (if corpus.numFilesInBlock = corpus.blockSize then corpus.flushBlock else .ok corpus).map
    (·.addStreams record)

def finish (corpus : EncodingCorpus) : Except Fault EncodingCorpus := corpus.flushBlock

/-- A corpus that has received `records` and been finished. -/
def build (blockSize : ℕ) (storeDirTimes storeMetadata : Bool) (records : List FileRecord) :
    Except Fault EncodingCorpus := do
  let corpus ← records.foldlM addFile
    { blockSize := blockSize, storeDirTimes := storeDirTimes, storeMetadata := storeMetadata }
  corpus.finish

end EncodingCorpus

end Flocate
