import Flocate.IndexExactness
import Flocate.PostingListCodec
import Mathlib.Data.List.Sort

/-!
# The posting lists of a run

A list that a run has collected is decoded to the docids that the run has added, whenever its bytes
could be written at all.
-/

namespace Flocate

open Bytes Fault PostingListBuilder

def allTrigrams (invindex : InvIndex) : List UInt32 :=
  ((List.range 0x1000000).map UInt32.ofNat).filter fun t => (invindex t).isSome

def Appended (n : ℕ) (b : PostingListBuilder) : Prop :=
  ∃ docid docids b₀, addFirstDocid {} docid = .ok b₀ ∧
    b = docids.foldl PostingListBuilder.addDocid b₀ ∧ (docid :: docids).Pairwise (· ≤ ·) ∧
      ∀ d ∈ docid :: docids, d.toNat ≤ n

def AllAppended (n : ℕ) (invindex : InvIndex) : Prop :=
  ∀ t b, invindex t = some b → Appended n b

section Collect

variable {n : ℕ} {t : UInt32} {b : PostingListBuilder} {invindex invindex' : InvIndex}

theorem mem_allTrigrams {invindex : InvIndex} :
    t ∈ allTrigrams invindex ↔ t < 0x1000000 ∧ (invindex t).isSome := by
  rw [allTrigrams, List.mem_filter, List.mem_map]
  refine and_congr_left fun _ => ?_
  rw [UInt32.lt_iff_toNat_lt]
  constructor
  · rintro ⟨k, hk, rfl⟩
    rw [List.mem_range] at hk
    rwa [UInt32.toNat_ofNat', Nat.mod_eq_of_lt (by omega)]
  · exact fun ht => ⟨t.toNat, List.mem_range.mpr ht, UInt32.ofNat_toNat⟩

theorem pairwise_allTrigrams (invindex : InvIndex) :
    (allTrigrams invindex).Pairwise (· < ·) := by
  refine List.Pairwise.filter _ (List.pairwise_map.mpr ?_)
  refine List.pairwise_lt_range.imp_of_mem fun {i j} hi hj hij => ?_
  rw [List.mem_range] at hj
  exact ofNat_lt_ofNat hij (hj.trans (by decide))

theorem Appended.mono {m : ℕ} (h : Appended n b) (hle : n ≤ m) : Appended m b := by
  obtain ⟨docid, docids, b₀, hfirst, hb, hsorted, hall⟩ := h
  exact ⟨docid, docids, b₀, hfirst, hb, hsorted, fun d hd => (hall d hd).trans hle⟩

/-- The number of a block is not below those that a list has already. -/
theorem Appended.addDocid {docid : UInt32} (h : Appended n b) (hdocid : docid.toNat = n) :
    Appended n (b.addDocid docid) := by
  obtain ⟨first, docids, b₀, hfirst, rfl, hsorted, hall⟩ := h
  refine ⟨first, docids ++ [docid], b₀, hfirst, ?_, ?_, ?_⟩
  · rw [List.foldl_append]
    rfl
  · rw [← List.cons_append, List.pairwise_append]
    refine ⟨hsorted, List.pairwise_singleton _ _, fun d hd d' hd' => ?_⟩
    rw [List.mem_singleton.mp hd', UInt32.le_iff_toNat_le, hdocid]
    exact hall d hd
  · rw [← List.cons_append, List.forall_mem_append, List.forall_mem_singleton]
    exact ⟨hall, hdocid.le⟩

theorem addDocid_appended {docid : UInt32} (h : AllAppended n invindex) (hdocid : docid.toNat = n)
    (hok : addDocid docid invindex t = .ok invindex') : AllAppended n invindex' := by
  have hupdate {b' : PostingListBuilder} (hb' : Appended n b') :
      AllAppended n (Function.update invindex t (some b')) := by
    intro t' b'' hb''
    by_cases ht : t' = t
    · rw [ht, Function.update_self] at hb''
      rwa [← Option.some.inj hb'']
    · rw [Function.update_of_ne ht] at hb''
      exact h t' b'' hb''
  rw [Flocate.addDocid] at hok
  cases hb : invindex t with
  | none =>
      rw [hb, map_eq_ok] at hok
      obtain ⟨b', hb', rfl⟩ := hok
      refine hupdate ⟨docid, [], b', hb', rfl, List.pairwise_singleton _ _, ?_⟩
      exact List.forall_mem_singleton.mpr hdocid.le
  | some b' =>
      rw [hb] at hok
      obtain rfl := Except.ok.inj hok
      exact hupdate ((h t b' hb).addDocid hdocid)

theorem foldlM_addDocid_appended {docid : UInt32} {trgms : List UInt32}
    (h : AllAppended n invindex) (hdocid : docid.toNat = n)
    (hok : trgms.foldlM (addDocid docid) invindex = .ok invindex') : AllAppended n invindex' := by
  induction trgms generalizing invindex with
  | nil =>
      obtain rfl := Except.ok.inj hok
      exact h
  | cons t trgms ih =>
      rw [List.foldlM_cons, bind_eq_ok] at hok
      obtain ⟨invindex₁, h₁, hok⟩ := hok
      exact ih (addDocid_appended h hdocid h₁) hok

/-- Whatever a run collects, it has appended in order. -/
theorem indexBlocks_appended {blocks : List (List UInt32)} (h : AllAppended n invindex)
    (hcount : n + blocks.length ≤ 2 ^ 32) (hok : indexBlocks n invindex blocks = .ok invindex') :
    AllAppended (n + blocks.length) invindex' := by
  induction blocks generalizing n invindex with
  | nil =>
      obtain rfl := Except.ok.inj hok
      exact h
  | cons trgms blocks ih =>
      rw [List.length_cons] at hcount ⊢
      rw [indexBlocks, bind_eq_ok] at hok
      obtain ⟨invindex₁, h₁, hok⟩ := hok
      have hdocid : (UInt32.ofNat n).toNat = n := by
        rw [UInt32.toNat_ofNat', Nat.mod_eq_of_lt (by omega)]
      have hnext := foldlM_addDocid_appended h hdocid h₁
      have hall := ih (n := n + 1) (fun t b hb => (hnext t b hb).mono (Nat.le_succ n)) (by omega)
        hok
      rwa [Nat.add_assoc, Nat.add_comm 1] at hall

end Collect

section Decode

variable {n : ℕ} {b : PostingListBuilder} {junk : Memory} {bytes : Str}

/-- The blocks of deltas stand for the docids that the deltas stand for. -/
theorem partDocids_blockParts (prev : UInt32) (deltas : List UInt32) :
    partDocids prev ((blocksOf 128 deltas).map blockPart) = deltaDecode prev deltas := by
  induction deltas using blocksOf.induct 128 generalizing prev with
  | case1 deltas h =>
      obtain rfl : deltas = [] := h.resolve_left (by omega)
      rw [blocksOf_nil]
      rfl
  | case2 deltas h ih =>
      rw [blocksOf, dif_neg h, List.map_cons, blockPart, partDocids, ih, ← deltaDecode_append,
        List.take_append_drop]

theorem bytes_baseval_ne_nil {docid : UInt32} {bs : Str}
    (h : (PostingListPart.baseval docid).bytes junk = .ok bs) : bs ≠ [] := by
  rw [PostingListPart.bytes, map_eq_ok] at h
  obtain ⟨⟨mem, last⟩, hwrite, rfl⟩ := h
  have hlast : 0 < last := by
    unfold writeBaseval at hwrite
    split_ifs at hwrite
    all_goals
      obtain ⟨-, rfl⟩ := Prod.mk.inj (Except.ok.inj hwrite)
      exact Nat.succ_pos _
  refine List.ne_nil_of_length_pos ?_
  rwa [length_region]

/-- What the bytes of a list are decoded to. -/
theorem Appended.decode (h : Appended n b) (hn : n < 2 ^ 28)
    (hbytes : encodedBytes junk b.finish.encoded = .ok bytes) :
    b.finish.numDocids.toNat = b.docids.length ∧ b.docids ≠ [] ∧ bytes ≠ [] ∧
      ∀ mem p, HasBytes mem p bytes →
        decodePforDelta1 mem p b.finish.numDocids.toNat true =
          .ok (b.docids, p + bytes.length) := by
  obtain ⟨docid, docids, b₀, hfirst, rfl, hsorted, hall⟩ := h
  set b := docids.foldl PostingListBuilder.addDocid b₀ with hb
  have hlt : ∀ d ∈ docid :: docids, d < 0x10000000 := fun d hd =>
    UInt32.lt_iff_toNat_lt.mpr ((hall d hd).trans_lt hn)
  have hbuild : buildPostingList docid docids = .ok b.finish := by
    rw [buildPostingList, hfirst]
    rfl
  obtain ⟨b', hb', hencoded, hnum, hpending⟩ := buildPostingList_eq (hlt docid List.mem_cons_self)
    docids
  obtain rfl := Except.ok.inj (hbuild.symm.trans hb')
  have hfit : DocidsFit docid docids := by
    intro block hblock
    by_contra hfit
    have hpart : blockPart block ∈ b.finish.encoded := by
      rw [hencoded]
      exact List.mem_cons_of_mem _ (List.mem_map_of_mem hblock)
    obtain ⟨cs, hcs⟩ := bytes_ok_of_encodedBytes junk hbytes hpart
    rw [bytes_blockPart_shift junk (ne_nil_of_mem_blocksOf hblock) hfit] at hcs
    cases hcs
  have hdocids : b.docids = docid :: deltaDecode docid (deltasOf docid docids) := by
    have hparts := partDocids_append docid ((blocksOf 128 (deltasOf docid docids)).map blockPart)
      [.block [] false]
    rw [partDocids_block, deltaDecode, List.append_nil, partDocids_blockParts] at hparts
    rw [← docids_finish, PostingListBuilder.docids, hencoded, hpending, List.cons_append,
      partDocids, hparts]
  obtain ⟨hincreasing, hmem⟩ := deltaDecode_deltasOf hsorted
  have hlength : (deltasOf docid docids).length + 1 ≤ 2 ^ 28 := by
    have hle := length_le_of_increasing hincreasing fun d hd =>
      UInt32.lt_iff_toNat_lt.mp (hlt d ((hmem d).mp hd))
    rwa [List.length_cons, length_deltaDecode] at hle
  have htoNat : b.finish.numDocids.toNat = b.docids.length := by
    rw [hnum, hdocids, List.length_cons, length_deltaDecode, UInt32.toNat_add, UInt32.toNat_ofNat']
    change (1 + _) % _ = _
    omega
  obtain ⟨b'', bytes', hb'', -, hbytes', hdecode⟩ := roundTrip_of_docidsFit hsorted hlt hfit junk
  obtain rfl := Except.ok.inj (hbuild.symm.trans hb'')
  obtain rfl := Except.ok.inj (hbytes.symm.trans hbytes')
  have hout (mem : Memory) (p : ℕ) (hhas : HasBytes mem p bytes) :
      decodePforDelta1 mem p b.finish.numDocids.toNat true = .ok (b.docids, p + bytes.length) := by
    obtain ⟨out, hok, hsorted', hmem'⟩ := hdecode mem p hhas
    have heq : out = b.docids := by
      rw [hdocids]
      refine List.Perm.eq_of_pairwise' hsorted' hincreasing ?_
      refine (List.perm_ext_iff_of_nodup (hsorted'.imp ne_of_lt) (hincreasing.imp ne_of_lt)).mpr ?_
      exact fun d => (hmem' d).trans (hmem d).symm
    rw [hok, heq]
  refine ⟨htoNat, hdocids ▸ List.cons_ne_nil _ _, ?_, hout⟩
  rw [hencoded, encodedBytes, bind_eq_ok] at hbytes
  obtain ⟨base, hbase, hbytes⟩ := hbytes
  obtain ⟨rest, -, hbytes⟩ := bind_eq_ok.mp hbytes
  obtain rfl := Except.ok.inj hbytes
  exact List.append_ne_nil_of_left_ne_nil (bytes_baseval_ne_nil hbase) rest

end Decode

end Flocate
