import Flocate.Lib.Fault
import Flocate.Lib.WordOrder
import Mathlib.Data.List.Basic

/-!
# Posting lists under construction

`PostingListBuilder` hands a first docid to `write_baseval` and blocks of deltas to
`encode_pfor_single_block`. `encoded` records what was handed over, in order; the bytes are in
`PostingListCodec`.
-/

namespace Flocate

inductive PostingListPart where
  | baseval (docid : UInt32)
  | block (deltas : List UInt32) (interleaved : Bool)
deriving DecidableEq

structure PostingListBuilder where
  encoded : List PostingListPart := []
  pendingDeltas : List UInt32 := []
  numDocids : UInt32 := 0
  lastDocid : UInt32 := 0xffffffff
deriving DecidableEq

namespace PostingListBuilder

def addDocid (b : PostingListBuilder) (docid : UInt32) : PostingListBuilder :=
  if docid = b.lastDocid then b
  else
    let deltas := b.pendingDeltas ++ [docid - b.lastDocid - 1]
    if deltas.length = 128 then
      { encoded := b.encoded ++ [.block deltas true]
        pendingDeltas := []
        numDocids := b.numDocids + 128
        lastDocid := docid }
    else { b with pendingDeltas := deltas, lastDocid := docid }

/-- `write_baseval` only has the assertion for docids from `2 ^ 28` on. -/
def addFirstDocid (b : PostingListBuilder) (docid : UInt32) : Except Fault PostingListBuilder :=
  if docid < 0x10000000 then
    .ok { b with
      encoded := b.encoded ++ [.baseval docid], numDocids := b.numDocids + 1, lastDocid := docid }
  else .error .assertion

def finish (b : PostingListBuilder) : PostingListBuilder :=
  if b.pendingDeltas = [] then b
  else { b with
    encoded := b.encoded ++ [.block b.pendingDeltas false]
    numDocids := b.numDocids + UInt32.ofNat b.pendingDeltas.length
    pendingDeltas := [] }

def deltaDecode (prev : UInt32) : List UInt32 → List UInt32
  | [] => []
  | delta :: deltas => (delta + prev + 1) :: deltaDecode (delta + prev + 1) deltas

def partDocids (prev : UInt32) : List PostingListPart → List UInt32
  | [] => []
  | .baseval docid :: parts => docid :: partDocids docid parts
  | .block deltas _ :: parts =>
      deltaDecode prev deltas ++ partDocids ((deltaDecode prev deltas).getLast?.getD prev) parts

def docids (b : PostingListBuilder) : List UInt32 :=
  partDocids 0xffffffff (b.encoded ++ [.block b.pendingDeltas false])

theorem deltaDecode_append (prev : UInt32) (ds es : List UInt32) :
    deltaDecode prev (ds ++ es) =
      deltaDecode prev ds ++ deltaDecode ((deltaDecode prev ds).getLast?.getD prev) es := by
  induction ds generalizing prev with
  | nil => rfl
  | cons d ds ih =>
      rw [List.cons_append, deltaDecode, ih, deltaDecode, List.cons_append,
        List.getLast?_cons, Option.getD_some]

theorem partDocids_append (prev : UInt32) (ps qs : List PostingListPart) :
    partDocids prev (ps ++ qs) =
      partDocids prev ps ++ partDocids ((partDocids prev ps).getLast?.getD prev) qs := by
  induction ps generalizing prev with
  | nil => rfl
  | cons p ps ih =>
      cases p with
      | baseval docid =>
          rw [List.cons_append, partDocids, ih, partDocids, List.cons_append, List.getLast?_cons,
            Option.getD_some]
      | block deltas interleaved =>
          rw [List.cons_append, partDocids, ih, partDocids, List.append_assoc,
            List.getLast?_append]
          congr 3
          cases (partDocids ((deltaDecode prev deltas).getLast?.getD prev) ps).getLast? with
          | none => rfl
          | some x => rfl

theorem partDocids_block (prev : UInt32) (deltas : List UInt32) (interleaved : Bool) :
    partDocids prev [.block deltas interleaved] = deltaDecode prev deltas := by
  rw [partDocids, partDocids, List.append_nil]

theorem partDocids_blocks (prev : UInt32) (ps : List PostingListPart) (ds es : List UInt32)
    (i j : Bool) :
    partDocids prev (ps ++ [.block (ds ++ es) i]) =
      partDocids prev (ps ++ [.block ds j]) ++
        deltaDecode ((partDocids prev (ps ++ [.block ds j])).getLast?.getD prev) es := by
  simp only [partDocids_append, partDocids_block, deltaDecode_append, List.append_assoc,
    List.getLast?_append]
  congr 3
  cases (deltaDecode ((partDocids prev ps).getLast?.getD prev) ds).getLast? with
  | none => rfl
  | some x => rfl

/-- Docids are there, and `last_docid` is the last of them. -/
def Started (b : PostingListBuilder) : Prop := b.docids.getLast? = some b.lastDocid

theorem docids_addFirstDocid {docid : UInt32} {b : PostingListBuilder}
    (h : addFirstDocid {} docid = .ok b) : b.docids = [docid] ∧ b.Started := by
  rw [addFirstDocid] at h
  split at h
  · obtain rfl := Except.ok.inj h
    exact ⟨rfl, rfl⟩
  · cases h

/-- A new docid is appended, a repetition of the last one is not. -/
theorem docids_addDocid {b : PostingListBuilder} (h : b.Started) (docid : UInt32) :
    (b.addDocid docid).docids = (if docid = b.lastDocid then b.docids else b.docids ++ [docid]) ∧
      (b.addDocid docid).Started := by
  by_cases hd : docid = b.lastDocid
  · rw [addDocid, if_pos hd, if_pos hd]
    exact ⟨rfl, h⟩
  · have hdelta : docid - b.lastDocid - 1 + b.lastDocid + 1 = docid := by
      rw [UInt32.add_assoc, UInt32.add_comm b.lastDocid 1, ← UInt32.add_assoc,
        UInt32.sub_add_cancel, UInt32.sub_add_cancel]
    have hdocids (i : Bool) :
        partDocids 0xffffffff
          (b.encoded ++ [.block (b.pendingDeltas ++ [docid - b.lastDocid - 1]) i]) =
          b.docids ++ [docid] := by
      have hlast : (partDocids 0xffffffff
          (b.encoded ++ [.block b.pendingDeltas false])).getLast? = some b.lastDocid := h
      rw [partDocids_blocks _ _ _ _ i false, hlast, Option.getD_some, deltaDecode, deltaDecode,
        hdelta]
      rfl
    have hall : (b.addDocid docid).docids = b.docids ++ [docid] ∧
        (b.addDocid docid).lastDocid = docid := by
      rw [addDocid, if_neg hd]
      by_cases hfull : (b.pendingDeltas ++ [docid - b.lastDocid - 1]).length = 128
      · simp only [if_pos hfull]
        refine ⟨?_, trivial⟩
        rw [docids, partDocids_append, partDocids_block, deltaDecode, List.append_nil]
        exact hdocids true
      · simp only [if_neg hfull]
        exact ⟨hdocids false, trivial⟩
    refine ⟨by rw [if_neg hd, hall.1], ?_⟩
    rw [Started, hall.1, hall.2, List.getLast?_concat]

/-- `finish` changes how the docids are stored, not which. -/
theorem docids_finish (b : PostingListBuilder) : b.finish.docids = b.docids := by
  rw [finish]
  split
  · rfl
  · rw [docids, partDocids_append, partDocids_block, deltaDecode, List.append_nil]
    rfl

end PostingListBuilder

end Flocate
