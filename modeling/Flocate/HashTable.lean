import Flocate.Db
import Flocate.Lib.Fault
import Flocate.Lib.RobinHood

/-!
# The hash table of trigrams

`create_hashtable` and the part of `finish_corpus` that assigns the offsets and writes table and
posting lists, `find_trigram` on the reading side, and their agreement.
-/

namespace Flocate

open Bytes Fault

def numOverflowSlots : UInt32 := 16

/-- What `finish_corpus` reads of a `PostingListBuilder` after its `finish`. -/
structure FinishedList where
  numDocids : UInt32
  encoded : Str

section Writer

variable (getPlBuilder : UInt32 → FinishedList) (htSize ovSlots : UInt32)

def emptySlot : Trigram := ⟨0xffffffff, 0, 0⟩

/-- `ht_size + num_overflow_slots + 1`, a 32-bit sum. -/
def tableSize : UInt32 := htSize + ovSlots + 1

/-- The loop `while (ht[bucket].num_docids != 0)` over the slots from `bucket` on, and the
assignment behind it. `none` is the null pointer. -/
def insertFrom : List Trigram → UInt32 → UInt32 → Trigram → Except Fault (Option (List Trigram))
  | [], _, _, _ => .error .outOfBounds
  | slot :: slots, bucket, distance, toInsert =>
      if slot.numDocids = 0 then .ok (some (toInsert :: slots))
      else
        let otherDistance := bucket - hashTrigram slot.trgm htSize
        if distance > otherDistance then
          if otherDistance + 1 > ovSlots then .ok none
          else (insertFrom slots (bucket + 1) (otherDistance + 1) slot).map (.map (toInsert :: ·))
        else
          if distance + 1 > ovSlots then .ok none
          else (insertFrom slots (bucket + 1) (distance + 1) toInsert).map (.map (slot :: ·))

def toInsert (trgm : UInt32) : Trigram := ⟨trgm, (getPlBuilder trgm).numDocids, 0⟩

def insertTrigram (ht : List Trigram) (trgm : UInt32) : Except Fault (Option (List Trigram)) :=
  let bucket := hashTrigram trgm htSize
  (insertFrom htSize ovSlots (ht.drop bucket.toNat) bucket 0 (toInsert getPlBuilder trgm)).map
    (.map (ht.take bucket.toNat ++ ·))

def insertTrigrams (ht : List Trigram) : List UInt32 → Except Fault (Option (List Trigram))
  | [] => .ok (some ht)
  | trgm :: trgms => do
      match ← insertTrigram getPlBuilder htSize ovSlots ht trgm with
      | none => .ok none
      | some ht => insertTrigrams ht trgms

def createHashtable (allTrigrams : List UInt32) : Except Fault (Option (List Trigram)) :=
  insertTrigrams getPlBuilder htSize ovSlots
    (List.replicate (tableSize htSize ovSlots).toNat emptySlot) allTrigrams

def slotList (slot : Trigram) : Str :=
  if slot.numDocids = 0 then [] else (getPlBuilder slot.trgm).encoded

def assignOffsets (offset : ℕ) : List Trigram → List Trigram
  | [] => []
  | slot :: slots =>
      { slot with offset := offset } ::
        assignOffsets (offset + (slotList getPlBuilder slot).length) slots

/-- The database once the posting lists are written: `written` is what the file holds before. -/
structure CorpusFile where
  hdr : Header
  hashtable : List Trigram
  bytes : Str

def writeHashtable (written : Str) (ht : List Trigram) : CorpusFile :=
  let bytesForHashtable := (tableSize htSize ovSlots).toNat * 16
  let ht := assignOffsets getPlBuilder (written.length + bytesForHashtable) ht
  { hdr := ⟨htSize, ovSlots, written.length⟩
    hashtable := ht
    bytes := written ++ ht.flatMap Trigram.toBytes ++ ht.flatMap (slotList getPlBuilder) }

end Writer

/-- The loop of `find_trigram` over the entries read: all but the last are compared, the next
entry tells where the list ends. -/
def scanSlots (trgm : UInt32) : List Trigram → Option (Trigram × ℕ)
  | slot :: next :: slots =>
      if slot.trgm = trgm then some (slot, next.offset - slot.offset)
      else scanSlots trgm (next :: slots)
  | _ => none

def findTrigram (corpus : CorpusFile) (trgm : UInt32) : Except Fault (Option (Trigram × ℕ)) :=
  let bucket := (hashTrigram trgm corpus.hdr.hashtableSize).toNat
  let num := corpus.hdr.extraHtSlots.toNat + 2
  if bucket + num ≤ corpus.hashtable.length then
    .ok (scanSlots trgm ((corpus.hashtable.drop bucket).take num))
  else .error .outOfBounds

end Flocate
