import Flocate.BlockCodec
import Flocate.Lib.Blocks
import Mathlib.Data.List.Perm.Subperm

/-!
# Posting lists and their bytes

The bytes that `PostingListBuilder` collects are decoded by `decode_pfor_delta1` to the distinct
docids, if every block of deltas fits.
-/

namespace Flocate

open Bytes Fault PostingListBuilder

variable (junk : Memory)

/-- What a call of `write_baseval` or `encode_pfor_single_block` appends. The buffer on the stack is
not initialized. -/
def PostingListPart.bytes : PostingListPart → Except Fault Str
  | .baseval docid => (writeBaseval docid junk 0).map fun (mem, last) => region mem 0 last
  | .block deltas interleaved =>
      (encodePforSingleBlock deltas interleaved junk 0).map fun (mem, last) => region mem 0 last

def encodedBytes : List PostingListPart → Except Fault Str
  | [] => .ok []
  | part :: parts => do
      let bytes ← part.bytes junk
      let rest ← encodedBytes parts
      .ok (bytes ++ rest)

def buildPostingList (docid : UInt32) (docids : List UInt32) :
    Except Fault PostingListBuilder := do
  let b ← addFirstDocid {} docid
  .ok (docids.foldl PostingListBuilder.addDocid b).finish

def deltasOf (prev : UInt32) : List UInt32 → List UInt32
  | [] => []
  | docid :: docids =>
      if docid = prev then deltasOf prev docids else (docid - prev - 1) :: deltasOf docid docids

/-- Only full blocks are interleaved. -/
def blockPart (deltas : List UInt32) : PostingListPart :=
  .block deltas (decide (deltas.length = 128))

section Builder

/-- Adding docids cuts their deltas into blocks. -/
theorem finish_foldl_addDocid (docids : List UInt32) {b : PostingListBuilder}
    (hb : b.pendingDeltas.length < 128) :
    (docids.foldl PostingListBuilder.addDocid b).finish.encoded = b.encoded ++
        (blocksOf 128 (b.pendingDeltas ++ deltasOf b.lastDocid docids)).map blockPart ∧
      (docids.foldl PostingListBuilder.addDocid b).finish.numDocids = b.numDocids +
        UInt32.ofNat (b.pendingDeltas ++ deltasOf b.lastDocid docids).length ∧
      (docids.foldl PostingListBuilder.addDocid b).finish.pendingDeltas = [] := by
  induction docids generalizing b with
  | nil =>
      rw [List.foldl_nil, deltasOf, List.append_nil, finish]
      by_cases hnil : b.pendingDeltas = []
      · rw [if_pos hnil, hnil, blocksOf_nil]
        exact ⟨(List.append_nil _).symm, (UInt32.add_zero _).symm, rfl⟩
      · rw [if_neg hnil, blocksOf_of_length_lt hb hnil, List.map_singleton, blockPart,
          decide_eq_false (by omega)]
        exact ⟨rfl, rfl, rfl⟩
  | cons docid docids ih =>
      rw [List.foldl_cons, deltasOf]
      by_cases hd : docid = b.lastDocid
      · rw [PostingListBuilder.addDocid, if_pos hd, if_pos hd]
        exact ih hb
      · rw [if_neg hd, List.append_cons]
        set deltas := b.pendingDeltas ++ [docid - b.lastDocid - 1] with hdeltas
        have hlength : deltas.length = b.pendingDeltas.length + 1 := by
          rw [hdeltas, List.length_append, List.length_singleton]
        by_cases hfull : deltas.length = 128
        · have hadd : b.addDocid docid =
              { encoded := b.encoded ++ [.block deltas true]
                pendingDeltas := []
                numDocids := b.numDocids + 128
                lastDocid := docid } := by
            rw [PostingListBuilder.addDocid, if_neg hd]
            exact if_pos hfull
          have hrest := ih (b := b.addDocid docid) (by rw [hadd]; exact Nat.zero_lt_succ _)
          rw [hadd] at hrest ⊢
          obtain ⟨hencoded, hnum, hpending⟩ := hrest
          refine ⟨?_, ?_, hpending⟩
          · have hblock : blockPart deltas = .block deltas true := by
              rw [blockPart, decide_eq_true hfull]
            rw [hencoded, blocksOf_append (by omega) hfull, List.map_cons, hblock]
            exact List.append_assoc _ _ _
          · have hall : (deltas ++ deltasOf docid docids).length =
                128 + (deltasOf docid docids).length := by rw [List.length_append, hfull]
            rw [hnum, hall, UInt32.ofNat_add]
            exact UInt32.add_assoc _ _ _
        · have hadd :
              b.addDocid docid = { b with pendingDeltas := deltas, lastDocid := docid } := by
            rw [PostingListBuilder.addDocid, if_neg hd]
            exact if_neg hfull
          have hrest := ih (b := b.addDocid docid) (by rw [hadd]; change deltas.length < 128; omega)
          rw [hadd] at hrest ⊢
          exact hrest

theorem buildPostingList_eq {docid : UInt32} (h : docid < 0x10000000) (docids : List UInt32) :
    ∃ b, buildPostingList docid docids = .ok b ∧
      b.encoded = .baseval docid :: (blocksOf 128 (deltasOf docid docids)).map blockPart ∧
      b.numDocids = 1 + UInt32.ofNat (deltasOf docid docids).length ∧ b.pendingDeltas = [] := by
  rw [buildPostingList, addFirstDocid, if_pos h]
  exact ⟨_, rfl, finish_foldl_addDocid docids (Nat.zero_lt_succ 127)⟩

end Builder

section Deltas

/-- The deltas stand for the distinct docids, in order. -/
theorem deltaDecode_deltasOf {prev : UInt32} {docids : List UInt32}
    (h : (prev :: docids).Pairwise (· ≤ ·)) :
    (prev :: deltaDecode prev (deltasOf prev docids)).Pairwise (· < ·) ∧
      ∀ d, d ∈ prev :: deltaDecode prev (deltasOf prev docids) ↔ d ∈ prev :: docids := by
  induction docids generalizing prev with
  | nil => exact ⟨List.pairwise_singleton _ _, fun d => Iff.rfl⟩
  | cons docid docids ih =>
      obtain ⟨hprev, hrest⟩ := List.pairwise_cons.mp h
      rw [List.forall_mem_cons] at hprev
      rw [deltasOf]
      by_cases hd : docid = prev
      · subst hd
        obtain ⟨hlt, hmem⟩ := ih hrest
        rw [if_pos rfl]
        refine ⟨hlt, fun d => (hmem d).trans ?_⟩
        simp only [List.mem_cons, or_self_left]
      · obtain ⟨hlt, hmem⟩ := ih hrest
        have hdelta : docid - prev - 1 + prev + 1 = docid := by
          rw [UInt32.add_assoc, UInt32.add_comm prev 1, ← UInt32.add_assoc, UInt32.sub_add_cancel,
            UInt32.sub_add_cancel]
        rw [if_neg hd, deltaDecode, hdelta]
        refine ⟨List.pairwise_cons.mpr ⟨fun d hdmem => ?_, hlt⟩, fun d => ?_⟩
        · have hlt' : prev < docid := lt_of_le_of_ne hprev.1 fun heq => hd heq.symm
          rcases List.mem_cons.mp ((hmem d).mp hdmem) with rfl | hdmem'
          · exact hlt'
          · exact lt_of_lt_of_le hlt' ((List.pairwise_cons.mp hrest).1 d hdmem')
        · rw [List.mem_cons, hmem, ← List.mem_cons]

/-- Increasing values below a bound are not more than the bound. -/
theorem length_le_of_increasing {n : ℕ} {l : List UInt32} (h : l.Pairwise (· < ·))
    (hn : ∀ d ∈ l, d.toNat < n) : l.length ≤ n := by
  have hnodup : (l.map (·.toNat)).Nodup := by
    rw [List.Nodup, List.pairwise_map]
    exact h.imp fun hlt heq => absurd (UInt32.toNat_inj.mp heq) (ne_of_lt hlt)
  have hsubset : l.map (·.toNat) ⊆ List.range n := by
    intro x hx
    obtain ⟨d, hd, rfl⟩ := List.mem_map.mp hx
    exact List.mem_range.mpr (hn d hd)
  have hle := (hnodup.subperm hsubset).length_le
  rwa [List.length_map, List.length_range] at hle

end Deltas

section Blocks

theorem bytes_blockPart {block : List UInt32} (hne : block ≠ []) (h128 : block.length ≤ 128)
    (hfit : BlockFits block (decide (block.length = 128))) :
    ∃ bs, (blockPart block).bytes junk = .ok bs ∧ ∀ m p prev, HasBytes m p bs →
      decodeBlock m true p block.length prev = .ok (deltaDecode prev block, p + bs.length) := by
  obtain ⟨mem', bs, hok, hemit, hdecode⟩ :=
    encodePforSingleBlock_ok junk 0 hne h128 decide_eq_true_iff hfit
  refine ⟨bs, ?_, fun m p prev hm => (hdecode m p prev hm).2⟩
  rw [blockPart, PostingListPart.bytes, hok]
  change Except.ok (region mem' 0 (0 + bs.length)) = _
  rw [Nat.zero_add, region_eq hemit.bytes]

theorem bytes_blockPart_shift {block : List UInt32} (hne : block ≠ [])
    (hfit : ¬BlockFits block (decide (block.length = 128))) :
    (blockPart block).bytes junk = .error .shift := by
  rw [blockPart, PostingListPart.bytes,
    encodePforSingleBlock_shift junk 0 hne decide_eq_true_iff hfit]
  rfl

theorem bytes_ok_of_encodedBytes {parts : List PostingListPart} {bs : Str}
    (h : encodedBytes junk parts = .ok bs) {part : PostingListPart} (hpart : part ∈ parts) :
    ∃ cs, part.bytes junk = .ok cs := by
  induction parts generalizing bs with
  | nil => cases hpart
  | cons first parts ih =>
      rw [encodedBytes] at h
      obtain ⟨cs, hcs, h⟩ := bind_eq_ok.mp h
      obtain ⟨rest, hrest, -⟩ := bind_eq_ok.mp h
      rcases List.mem_cons.mp hpart with rfl | hpart
      · exact ⟨cs, hcs⟩
      · exact ih hrest hpart

/-- The loop of the decoder takes the blocks in turn. -/
theorem decodeBlocks_encodedBytes {deltas : List UInt32}
    (hfit : ∀ block ∈ blocksOf 128 deltas, BlockFits block (decide (block.length = 128))) :
    ∃ bs, encodedBytes junk ((blocksOf 128 deltas).map blockPart) = .ok bs ∧
      ∀ m p prev, HasBytes m p bs →
        decodeBlocks m true deltas.length p prev =
          .ok (deltaDecode prev deltas, p + bs.length) := by
  induction deltas using blocksOf.induct 128 with
  | case1 deltas h =>
      obtain rfl : deltas = [] := h.resolve_left (by omega)
      rw [blocksOf_nil]
      refine ⟨[], rfl, fun m p prev _ => ?_⟩
      rw [decodeBlocks, List.length_nil, dif_pos rfl]
      rfl
  | case2 deltas h ih =>
      have hne : deltas ≠ [] := fun hnil => h (Or.inr hnil)
      have hpos := List.length_pos_iff.mpr hne
      have htake : (deltas.take 128).length = min deltas.length 128 := by
        rw [List.length_take, Nat.min_comm]
      rw [blocksOf, dif_neg h] at hfit ⊢
      rw [List.forall_mem_cons] at hfit
      obtain ⟨bs, hbs, hblock⟩ := bytes_blockPart junk
        (List.ne_nil_of_length_pos (by omega)) (by omega) hfit.1
      obtain ⟨cs, hcs, hblocks⟩ := ih hfit.2
      refine ⟨bs ++ cs, ?_, fun m p prev hm => ?_⟩
      · rw [List.map_cons, encodedBytes, hbs, hcs]
        rfl
      · rw [hasBytes_append] at hm
        have hfirst := hblock m p prev hm.1
        have hrest := hblocks m (p + bs.length)
          ((deltaDecode prev (deltas.take 128)).getLast?.getD prev) hm.2
        rw [htake] at hfirst
        rw [List.length_drop, show deltas.length - 128 = deltas.length - min deltas.length 128 by
          omega] at hrest
        have hall := deltaDecode_append prev (deltas.take 128) (deltas.drop 128)
        rw [List.take_append_drop] at hall
        rw [decodeBlocks, dif_neg (Nat.ne_of_gt hpos), hfirst]
        change (decodeBlocks m true _ (p + bs.length) _ >>= _) = _
        rw [hrest, hall, List.length_append, ← Nat.add_assoc]
        rfl

end Blocks

section RoundTrip

/-- What is encoded is decoded to the distinct docids, up to the last byte. -/
def RoundTrip (docid : UInt32) (docids : List UInt32) : Prop :=
  ∀ junk, ∃ b bytes, buildPostingList docid docids = .ok b ∧ b.pendingDeltas = [] ∧
    encodedBytes junk b.encoded = .ok bytes ∧
    ∀ mem p, HasBytes mem p bytes → ∃ out,
      decodePforDelta1 mem p b.numDocids.toNat true = .ok (out, p + bytes.length) ∧
      out.Pairwise (· < ·) ∧ ∀ d, d ∈ out ↔ d ∈ docid :: docids

/-- No stream of a `BitWriter` runs into an undefined shift. -/
def DocidsFit (docid : UInt32) (docids : List UInt32) : Prop :=
  ∀ block ∈ blocksOf 128 (deltasOf docid docids), BlockFits block (decide (block.length = 128))

instance (docid : UInt32) (docids : List UInt32) : Decidable (DocidsFit docid docids) :=
  inferInstanceAs (Decidable (∀ block ∈ blocksOf 128 (deltasOf docid docids), _))

variable {docid : UInt32} {docids : List UInt32}

theorem roundTrip_of_docidsFit (hsorted : (docid :: docids).Pairwise (· ≤ ·))
    (hlt : ∀ d ∈ docid :: docids, d < 0x10000000) (hfit : DocidsFit docid docids) :
    RoundTrip docid docids := by
  intro junk
  have hdocid : docid < 0x10000000 := hlt docid List.mem_cons_self
  obtain ⟨b, hb, hencoded, hnum, hpending⟩ := buildPostingList_eq hdocid docids
  obtain ⟨mem', bs, hwrite, hemit, hread⟩ := writeBaseval_ok hdocid junk 0
  obtain ⟨cs, hcs, hdecode⟩ := decodeBlocks_encodedBytes junk hfit
  obtain ⟨hincreasing, hmem⟩ := deltaDecode_deltasOf hsorted
  have hlength : (deltasOf docid docids).length + 1 ≤ 2 ^ 28 := by
    have hle := length_le_of_increasing hincreasing fun d hd =>
      UInt32.lt_iff_toNat_lt.mp (hlt d ((hmem d).mp hd))
    rwa [List.length_cons, length_deltaDecode] at hle
  have htoNat : b.numDocids.toNat = (deltasOf docid docids).length + 1 := by
    rw [hnum, UInt32.toNat_add, UInt32.toNat_ofNat']
    change (1 + _) % _ = _
    omega
  have hbase : (PostingListPart.baseval docid).bytes junk = .ok bs := by
    rw [PostingListPart.bytes, hwrite]
    change Except.ok (region mem' 0 (0 + bs.length)) = _
    rw [Nat.zero_add, region_eq hemit.bytes]
  refine ⟨b, bs ++ cs, hb, hpending, ?_, fun m p hm =>
    ⟨docid :: deltaDecode docid (deltasOf docid docids), ?_, hincreasing, hmem⟩⟩
  · rw [hencoded, encodedBytes, hbase, hcs]
    rfl
  · rw [hasBytes_append] at hm
    rw [htoNat, decodePforDelta1, if_neg (Nat.succ_ne_zero _), hread m p hm.1]
    change (decodeBlocks m true _ (p + bs.length) docid >>= _) = _
    rw [Nat.add_sub_cancel, hdecode m _ docid hm.2, List.length_append, ← Nat.add_assoc]
    rfl

theorem docidsFit_of_roundTrip (hdocid : docid < 0x10000000) (h : RoundTrip docid docids) :
    DocidsFit docid docids := by
  intro block hblock
  by_contra hfit
  obtain ⟨b, bytes, hb, -, hbytes, -⟩ := h fun _ => 0
  obtain ⟨b', hb', hencoded, -⟩ := buildPostingList_eq hdocid docids
  obtain rfl := Except.ok.inj (hb.symm.trans hb')
  have hpart : blockPart block ∈ b.encoded := by
    rw [hencoded]
    exact List.mem_cons_of_mem _ (List.mem_map_of_mem hblock)
  obtain ⟨cs, hcs⟩ := bytes_ok_of_encodedBytes _ hbytes hpart
  rw [bytes_blockPart_shift _ (ne_nil_of_mem_blocksOf hblock) hfit] at hcs
  cases hcs

/-- The round trip holds of exactly the docids whose blocks fit. -/
theorem roundTrip_iff_docidsFit (hsorted : (docid :: docids).Pairwise (· ≤ ·))
    (hlt : ∀ d ∈ docid :: docids, d < 0x10000000) :
    RoundTrip docid docids ↔ DocidsFit docid docids :=
  ⟨docidsFit_of_roundTrip (hlt docid List.mem_cons_self), roundTrip_of_docidsFit hsorted hlt⟩

theorem roundTrip_repeated : RoundTrip 5 [5, 130, 70000] :=
  (roundTrip_iff_docidsFit (by decide +kernel) (by
    intro d hd
    simp only [List.mem_cons, List.not_mem_nil, or_false] at hd
    rcases hd with rfl | rfl | rfl | rfl <;> decide)).mpr (by decide +kernel)

/-- Three values of 27 bits do not fit: the last one starts at bit 6 of its byte. -/
theorem not_roundTrip_sparse : ¬∀ docid docids, (docid :: docids).Pairwise (· ≤ ·) →
    (∀ d ∈ docid :: docids, d < 0x10000000) → RoundTrip docid docids := by
  intro h
  have hround := h 0 [0x4000001, 0x8000003, 0xc000006] (by decide +kernel) (by
    intro d hd
    simp only [List.mem_cons, List.not_mem_nil, or_false] at hd
    rcases hd with rfl | rfl | rfl | rfl <;> decide)
  have hfit := docidsFit_of_roundTrip (by decide) hround
  have hblock : BlockFits [0x4000000, 0x4000001, 0x4000002] false :=
    hfit [0x4000000, 0x4000001, 0x4000002] (by decide +kernel)
  exact absurd hblock (by decide +kernel)

end RoundTrip

end Flocate
