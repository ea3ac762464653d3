import Flocate.NeedleTrigrams

/-!
# Searching a database

`scan_all_docids` tests every filename and `do_search_file` only those of the candidate blocks. The
reads of a search complete in any order, so that `DoSearchFile` is a relation. The search is case
sensitive and without regular expressions.
-/

namespace Flocate

open Bytes Fault

/-- A database: its filename blocks after decompression, the outcome of `find_trigram`, and the
decoded posting list of an entry. -/
structure Corpus where
  filenameBlocks : List Str
  findTrigram : UInt32 → Option (Trigram × ℕ)
  decode : Trigram × ℕ → List UInt32

/-- The blocks hold `blocks` of filenames, and trigram `t` lists block `d` if and only if some
filename of the block contains its three bytes. -/
structure Corpus.Exact (corpus : Corpus) (blocks : List (List Str)) : Prop where
  filenameBlocks : corpus.filenameBlocks = blocks.map joinNul
  isName : ∀ names ∈ blocks, ∀ s ∈ names, IsName s
  ne_nil : ∀ names ∈ blocks, names ≠ []
  length_le : blocks.length ≤ 2 ^ 32
  trgm : ∀ t r, corpus.findTrigram t = some r → r.1.trgm = t
  numDocids : ∀ t r, corpus.findTrigram t = some r → r.1.numDocids.toNat = (corpus.decode r).length
  sorted : ∀ t r, corpus.findTrigram t = some r → (corpus.decode r).Pairwise (· < ·)
  exact : ∀ t < 0x1000000, ∀ d, (∃ r, corpus.findTrigram t = some r ∧ d ∈ corpus.decode r) ↔
    ∃ names, blocks[d.toNat]? = some names ∧ Occurs t names

/-- The options and the surroundings of a search. `visible` is the outcome of the checks that
follow a match: access to the file's directories, and its existence if asked for. -/
structure SearchOptions where
  matchBasename : Bool
  fnmatch : Str → Str → Bool
  visible : Str → Bool

/-- What the needles are matched against: with `--basename`, the part behind the last slash. -/
def haystack (matchBasename : Bool) (filename : Str) : Str :=
  if matchBasename then (filename.reverse.takeWhile (· ≠ '/'.toUInt8)).reverse else filename

variable (options : SearchOptions) (needles : List Needle)

def reported (filename : Str) : Bool :=
  (needles.all fun needle =>
    «matches» options.fnmatch needle (haystack options.matchBasename filename)) &&
    options.visible filename

def scanFileBlock (block : Str) : List Str :=
  (splitNul (block ++ [0])).filter (reported options needles)

def scanDocids (docids : List UInt32) (corpus : Corpus) : List Str :=
  docids.flatMap fun docid =>
    (corpus.filenameBlocks[docid.toNat]?).toList.flatMap (scanFileBlock options needles)

def scanAllDocids (corpus : Corpus) : List Str :=
  corpus.filenameBlocks.flatMap (scanFileBlock options needles)

inductive DoSearchFile (corpus : Corpus) : List Str → Prop
  | bruteForce (h : trigramsToLookup (trigramGroups needles) = []) :
      DoSearchFile corpus (scanAllDocids options needles corpus)
  | earlyExit {order : List UInt32} (hne : trigramsToLookup (trigramGroups needles) ≠ [])
      (horder : order.Perm (trigramsToLookup (trigramGroups needles)))
      (hlook : (lookUp corpus.findTrigram order (trigramGroups needles)).2 = true) :
      DoSearchFile corpus []
  | intersected {order : List UInt32} {groups₁ groups : List TrigramDisjunction}
      {events : List SelectionEvent} {s : Selection}
      (hne : trigramsToLookup (trigramGroups needles) ≠ [])
      (horder : order.Perm (trigramsToLookup (trigramGroups needles)))
      (hlook : lookUp corpus.findTrigram order (trigramGroups needles) = (groups₁, false))
      (hsort : groups.Perm (groups₁.map .reset))
      (hsorted : groups.Pairwise (·.maxNumDocids ≤ ·.maxNumDocids))
      (hrun : Run.run (Selection.step false corpus.decode) (.start groups) events = some s)
      (hend : s.Ended) :
      DoSearchFile corpus
        (if s.done then [] else scanDocids options needles s.curCandidates corpus)

end Flocate
