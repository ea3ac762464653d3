import Flocate.Lib.Run
import Flocate.Lib.SortedList
import Flocate.Lib.WordOrder
import Flocate.ParseTrigrams
import Mathlib.Data.List.Dedup

/-!
# Selecting candidate blocks in `do_search_file`

First all trigrams are looked up in the hash table, in any order of completion. Then the groups'
posting lists are read: one loop submits reads, their callbacks run whenever a read completes, and
a group whose lists are all read is intersected into the candidates. `find` is the outcome of a
lookup and `decode` the decoded posting list of a read.
-/

namespace Flocate

open SortedList

section Lookup

def trigramsToLookup (groups : List TrigramDisjunction) : List UInt32 :=
  (groups.flatMap (·.trigramAlternatives)).dedup

namespace TrigramDisjunction

def lookedUp (td : TrigramDisjunction) : Option (Trigram × ℕ) → TrigramDisjunction
  | none => { td with remainingTrigramsToRead := td.remainingTrigramsToRead - 1 }
  | some r =>
      { td with
        remainingTrigramsToRead := td.remainingTrigramsToRead - 1
        maxNumDocids := td.maxNumDocids + r.1.numDocids
        readTrigrams := td.readTrigrams ++ [r] }

/-- `td->remaining_trigrams_to_read == 0 && td->read_trigrams.empty()`. -/
def Hopeless (td : TrigramDisjunction) : Prop :=
  td.remainingTrigramsToRead = 0 ∧ td.readTrigrams = []

instance : DecidablePred Hopeless := fun _ => inferInstanceAs (Decidable (_ ∧ _))

def reset (td : TrigramDisjunction) : TrigramDisjunction :=
  { td with remainingTrigramsToRead := td.readTrigrams.length }

end TrigramDisjunction

variable (find : UInt32 → Option (Trigram × ℕ))

/-- The callback of one lookup. The flag is `should_early_exit`, which also stands for the `exit`
outside of a forked child. -/
def lookupCallback (s : List TrigramDisjunction × Bool) (trgm : UInt32) :
    List TrigramDisjunction × Bool :=
  let groups := s.1.map fun td =>
    if trgm ∈ td.trigramAlternatives then td.lookedUp (find trgm) else td
  (groups, s.2 || (find trgm).isNone &&
    groups.any fun td => trgm ∈ td.trigramAlternatives ∧ td.Hopeless)

def lookUp (order : List UInt32) (groups : List TrigramDisjunction) :
    List TrigramDisjunction × Bool :=
  order.foldl (lookupCallback find) (groups, false)

end Lookup

/-- Returns the group, the candidates, and whether the search should be aborted. -/
def newPostingListRead (ignoreCase : Bool) (td : TrigramDisjunction)
    (decoded curCandidates : List UInt32) : TrigramDisjunction × List UInt32 × Bool :=
  let docids := if td.docids = [] then decoded else setUnion decoded td.docids
  let td := { td with
    docids := docids, remainingTrigramsToRead := td.remainingTrigramsToRead - 1 }
  if td.remainingTrigramsToRead > 0 then (td, curCandidates, false)
  else if curCandidates = [] then ({ td with docids := [] }, docids, false)
  else
    let curCandidates := setIntersection curCandidates docids
    (td, curCandidates, ignoreCase && curCandidates.isEmpty)

def deliver (ignoreCase : Bool) (trgm : UInt32) (decoded : List UInt32) :
    List TrigramDisjunction → List UInt32 → List TrigramDisjunction × List UInt32 × Bool
  | [], curCandidates => ([], curCandidates, false)
  | td :: tds, curCandidates =>
      if trgm ∈ td.trigramAlternatives then
        let (td, curCandidates, done) := newPostingListRead ignoreCase td decoded curCandidates
        if done then (td :: tds, curCandidates, true)
        else
          let (tds, curCandidates, done) := deliver ignoreCase trgm decoded tds curCandidates
          (td :: tds, curCandidates, done)
      else
        let (tds, curCandidates, done) := deliver ignoreCase trgm decoded tds curCandidates
        (td :: tds, curCandidates, done)

/-- The state of the submission loop. `next` are the groups it has not reached and `reads` the
rest of the current group's reads; `waiting` holds a read back until `engine.finish()` returns. -/
structure Selection where
  groups : List TrigramDisjunction
  next : List TrigramDisjunction
  reads : List (Trigram × ℕ) := []
  waiting : Option (Trigram × ℕ) := none
  submitted : List UInt32 := []
  pending : List (Trigram × ℕ) := []
  curCandidates : List UInt32 := []
  done : Bool := false
deriving DecidableEq

/-- The loop goes on, or the pending read number `i` completes. -/
inductive SelectionEvent where
  | advance
  | complete (i : ℕ)

namespace Selection

def start (groups : List TrigramDisjunction) : Selection where
  groups := groups
  next := groups

def readCallback (ignoreCase : Bool) (decode : Trigram × ℕ → List UInt32) (s : Selection)
    (r : Trigram × ℕ) : Selection :=
  if s.done then s
  else
    let (groups, curCandidates, done) :=
      deliver ignoreCase r.1.trgm (decode r) s.groups s.curCandidates
    { s with groups := groups, curCandidates := curCandidates, done := done }

def advance (s : Selection) : Option Selection :=
  match s.waiting, s.reads, s.next with
  | some r, _, _ =>
      if s.pending ≠ [] then none
      else if s.done then some { s with waiting := none, reads := [] }
      else some { s with waiting := none, pending := [r] }
  | none, r :: reads, _ =>
      if r.1.trgm ∈ s.submitted then some { s with reads := reads }
      else
        let s := { s with reads := reads, submitted := r.1.trgm :: s.submitted }
        if 5 ≤ s.pending.length then some { s with waiting := some r }
        else some { s with pending := s.pending ++ [r] }
  | none, [], td :: next =>
      if s.curCandidates ≠ [] ∧ s.curCandidates.length * 100 < td.maxNumDocids.toNat then
        some { s with next := [] }
      else some { s with reads := td.readTrigrams, next := next }
  | none, [], [] => none

def step (ignoreCase : Bool) (decode : Trigram × ℕ → List UInt32) (s : Selection) :
    SelectionEvent → Option Selection
  | .advance => s.advance
  | .complete i => s.pending[i]?.map fun r =>
      readCallback ignoreCase decode { s with pending := s.pending.eraseIdx i } r

def Ended (s : Selection) : Prop :=
  s.waiting = none ∧ s.reads = [] ∧ s.next = [] ∧ s.pending = []

end Selection

end Flocate
