import Flocate.ExistingDBRecords
import Flocate.IndexExactness
import Flocate.Snapshot
import Mathlib.Data.List.TakeWhile

/-!
# Snapshots hold the records

What `EncodingCorpus` has written is read back by both readers: record for record by `ExistingDB`,
sorted by path by `load_snapshot`.
-/

namespace Flocate

open Bytes Fault

variable {σ : Type} {zstd : Zstd σ} {db : Database}

section Streams

variable {data content : Str} {R : σ → ℕ → ℕ → Bool → Prop}

theorem decompressStream_eq (fuel : ℕ) (ctx : σ) (input : Str) :
    decompressStream zstd fuel ctx input = zstd.stream.decodeAll 8192 fuel ctx input := by
  induction fuel generalizing ctx input with
  | zero => rfl
  | succ fuel ih =>
      cases hcall : zstd.stream.call ctx input 8192 with
      | none => simp only [decompressStream, StreamDecoder.decodeAll, hcall]
      | some result => simp only [decompressStream, StreamDecoder.decodeAll, hcall, ih]

theorem decodeMetadataStream_flatMap {records : List FileRecord}
    (h : ∀ r ∈ records, r.metadata.hash.length ≤ 32) :
    decodeMetadataStream (records.flatMap FileRecord.metadataBytes) =
      records.map (·.metadata.canonical) := by
  induction records with
  | nil =>
      rw [decodeMetadataStream]
      rfl
  | cons r records ih =>
      rw [List.forall_mem_cons] at h
      have hdecode := decodeMetadataRecord_encodeMetadataRecord h.1
        (records.flatMap FileRecord.metadataBytes)
      rw [List.flatMap_cons, decodeMetadataStream, FileRecord.metadataBytes]
      split
      · rename_i hnone
        rw [hdecode] at hnone
        cases hnone
      · rename_i m rest hsome
        rw [hdecode] at hsome
        obtain ⟨rfl, rfl⟩ := Prod.mk.inj (Option.some.inj hsome)
        rw [ih h.2]
        rfl

end Streams

section Blocks

theorem extractPathsFromBlock_name {p : Str} (hp : IsName p) :
    extractPathsFromBlock p = [p] := by
  have htake : p.takeWhile (· ≠ 0) = p := by
    rw [List.takeWhile_eq_self_iff]
    intro b hb
    exact decide_eq_true fun h0 => hp.nul_free (h0 ▸ hb)
  rw [extractPathsFromBlock, dif_neg hp.ne_nil]
  simp only [htake]
  rw [if_pos hp.ne_nil, List.drop_of_length_le (Nat.le_succ _), extractPathsFromBlock, dif_pos rfl]
  rfl

theorem extractPathsFromBlock_joinNul {ps : List Str} (h : ∀ p ∈ ps, IsName p) :
    extractPathsFromBlock (joinNul ps) = ps := by
  induction ps with
  | nil => rw [joinNul, extractPathsFromBlock, dif_pos rfl]
  | cons p ps ih =>
      rw [List.forall_mem_cons] at h
      cases ps with
      | nil => exact extractPathsFromBlock_name h.1
      | cons q ps =>
          have htake := takeWhile_append_nul h.1.nul_free (joinNul (q :: ps))
          have hdrop : (p ++ 0 :: joinNul (q :: ps)).drop (p.length + 1) = joinNul (q :: ps) := by
            rw [List.drop_append, List.drop_of_length_le (Nat.le_succ _), Nat.add_sub_cancel_left]
            rfl
          rw [joinNul, extractPathsFromBlock, dif_neg (by simp)]
          simp only [htake, hdrop]
          rw [if_pos h.1.ne_nil, ih h.2]
          rfl

theorem decompressBlock_eq {compressed content : Str} (h : zstd.LosslessBlock compressed content)
    (hlen : content.length ≤ 1 <<< 30) : decompressBlock zstd compressed = some content := by
  rw [decompressBlock, h.contentSize]
  change (if 1 <<< 30 < content.length then _ else _) = _
  rw [if_neg (Nat.not_lt.mpr hlen), h.decompress _ le_rfl]

theorem mapM_decompressBlock {compressed contents : List Str}
    (h : List.Forall₂ zstd.LosslessBlock compressed contents)
    (hlen : ∀ content ∈ contents, content.length ≤ 1 <<< 30) :
    compressed.mapM (decompressBlock zstd) = some contents := by
  induction h with
  | nil => rfl
  | cons hc _ ih =>
      rw [List.forall_mem_cons] at hlen
      rw [List.mapM_cons, decompressBlock_eq hc hlen.1, ih hlen.2]
      rfl

end Blocks

section Order

variable {paths : List Str}

theorem map_toNat_indexOrder_perm (hn : paths.length < 2 ^ 32) :
    ((indexOrder paths).map (·.toNat)).Perm (List.range paths.length) := by
  have hperm := (List.mergeSort_perm ((List.range paths.length).map UInt32.ofNat)
    fun a b => decide ¬paths.getD b.toNat [] < paths.getD a.toNat []).map (·.toNat)
  have hid : ((List.range paths.length).map UInt32.ofNat).map (·.toNat) =
      List.range paths.length := by
    rw [List.map_map]
    refine (List.map_congr_left fun i hi => ?_).trans (List.map_id _)
    have hlt := List.mem_range.mp hi
    change (UInt32.ofNat i).toNat = i
    rw [UInt32.toNat_ofNat', Nat.mod_eq_of_lt (hlt.trans hn)]
  rwa [hid] at hperm

/-- Going through all indexes in another order permutes the elements. -/
theorem map_getD_perm {α : Type} {xs : List α} {order : List UInt32} (x : α)
    (h : (order.map (·.toNat)).Perm (List.range xs.length)) :
    (order.map fun i => xs.getD i.toNat x).Perm xs := by
  have hmap := h.map fun i => xs.getD i x
  rw [List.map_map] at hmap
  refine hmap.trans (List.Perm.of_eq (List.ext_getElem (by simp) fun i hi hi' => ?_))
  simp [List.getElem?_eq_getElem hi']

theorem pairwise_indexOrder :
    ((indexOrder paths).map fun i => paths.getD i.toNat []).Pairwise (· ≤ ·) := by
  rw [List.pairwise_map]
  have hsorted : (indexOrder paths).Pairwise fun a b =>
      decide ¬paths.getD b.toNat [] < paths.getD a.toNat [] := List.pairwise_mergeSort
    (fun a b c hab hbc => by
      rw [decide_eq_true_eq, not_lt] at hab hbc ⊢
      exact le_trans hab hbc)
    (fun a b => by
      rw [Bool.or_eq_true, decide_eq_true_eq, decide_eq_true_eq, not_lt, not_lt]
      exact le_total _ _) ((List.range paths.length).map UInt32.ofNat)
  exact hsorted.imp fun h => not_lt.mp (of_decide_eq_true h)

def sortedSnapshot (paths : List Str) (metadata : List FileMetadata) : Snapshot :=
  orderedSnapshot paths metadata (indexOrder paths)

theorem assembleSnapshot_eq (hn : paths.length < 2 ^ 31) (metadata : List FileMetadata) :
    assembleSnapshot paths metadata = .ok (sortedSnapshot paths metadata) := by
  rw [assembleSnapshot, sortedOrder, if_neg (Nat.not_le.mpr hn)]
  rfl

/-- The paths come out in order, each with its own metadata. -/
theorem sortedSnapshot_spec (paths : List Str) (metadata : List FileMetadata)
    (hlen : paths.length = metadata.length) (hn : paths.length < 2 ^ 32) (hnodup : paths.Nodup) :
    (sortedSnapshot paths metadata).paths.Pairwise (· < ·) ∧
      (sortedSnapshot paths metadata).paths.length =
        (sortedSnapshot paths metadata).metadata.length ∧
      ((sortedSnapshot paths metadata).paths.zip (sortedSnapshot paths metadata).metadata).Perm
        (paths.zip metadata) := by
  have hperm := map_toNat_indexOrder_perm hn
  have hpaths : (sortedSnapshot paths metadata).paths =
      (indexOrder paths).map fun i => paths.getD i.toNat [] := rfl
  have hmetadata : (sortedSnapshot paths metadata).metadata =
      (indexOrder paths).map fun i => metadata.getD i.toNat {} := by
    rw [sortedSnapshot, orderedSnapshot]
    simp only [if_neg (not_not_intro hlen)]
  rw [hpaths, hmetadata]
  refine ⟨?_, by rw [List.length_map, List.length_map], ?_⟩
  · have hnodup' := (map_getD_perm [] hperm).nodup_iff.mpr hnodup
    exact pairwise_indexOrder.imp₂ (fun a b hle hne => lt_of_le_of_ne hle hne) hnodup'
  · have hlength : (paths.zip metadata).length = paths.length := by
      rw [List.length_zip, ← hlen, Nat.min_self]
    have hzip : ∀ i ∈ indexOrder paths, (paths.getD i.toNat [], metadata.getD i.toNat {}) =
        (paths.zip metadata).getD i.toNat ([], {}) := by
      intro i hi
      have hlt := List.mem_range.mp (hperm.mem_iff.mp (List.mem_map_of_mem hi))
      simp [List.getElem?_eq_getElem hlt, List.getElem?_eq_getElem (hlen ▸ hlt),
        List.getElem?_eq_getElem (hlength.symm ▸ hlt)]
    rw [List.zip_map', List.map_congr_left hzip]
    exact map_getD_perm _ (by rwa [hlength])

end Order

section Readers

/-- A database that holds a corpus, zstd having lost nothing. -/
structure Stores (zstd : Zstd σ) (db : Database) (corpus : EncodingCorpus) : Prop where
  numDocids : db.numDocids = UInt32.ofNat corpus.filenameBlocks.length
  filenameBlocks : List.Forall₂ zstd.LosslessBlock db.filenameBlocks corpus.filenameBlocks
  directoryData : zstd.stream.Decodes db.directoryData corpus.dirTimes
  metadata : zstd.stream.Decodes db.metadata corpus.metadataStream

def Snapshot.Holds (snapshot : Snapshot) (records : List (Str × FileMetadata)) : Prop :=
  snapshot.paths.Pairwise (· < ·) ∧ snapshot.paths.length = snapshot.metadata.length ∧
    (snapshot.paths.zip snapshot.metadata).Perm records

variable {blockSize fuel : ℕ} {records : List FileRecord} {corpus : EncodingCorpus}

/-- What a corpus hands to the database, block by block. -/
theorem build_streams (hb : 0 < blockSize) (hrecords : ∀ r ∈ records, Storable r)
    (hbuild : EncodingCorpus.build blockSize true true records = .ok corpus) :
    corpus.filenameBlocks =
        (blocksOf blockSize records).map (fun b => joinNul (b.map (·.path))) ∧
      corpus.dirTimes = records.flatMap FileRecord.dirTimeBytes ∧
      corpus.metadataStream = records.flatMap FileRecord.metadataBytes := by
  rw [build_eq hb true true fun r hr => (hrecords r hr).name] at hbuild
  obtain ⟨invindex, -, rfl⟩ := map_eq_ok.mp hbuild
  refine ⟨?_, rfl, rfl⟩
  change [] ++ (blocksOf blockSize (records.map (·.path))).map joinNul = _
  rw [List.nil_append, blocksOf_map, List.map_map]
  rfl

theorem toNat_numDocids (hb : 0 < blockSize) (hrecords : ∀ r ∈ records, Storable r)
    (hbuild : EncodingCorpus.build blockSize true true records = .ok corpus)
    (hcount : (blocksOf blockSize records).length < 2 ^ 32) (h : Stores zstd db corpus) :
    db.numDocids.toNat = (blocksOf blockSize records).length ∧
      db.filenameBlocks.length = (blocksOf blockSize records).length := by
  have hlength : corpus.filenameBlocks.length = (blocksOf blockSize records).length := by
    rw [(build_streams hb hrecords hbuild).1, List.length_map]
  refine ⟨?_, by rw [h.filenameBlocks.length_eq, hlength]⟩
  rw [h.numDocids, hlength, UInt32.toNat_ofNat', Nat.mod_eq_of_lt hcount]

open ExistingDB in
/-- The reader in front of the first record. -/
theorem readerAt_ofDatabase (hb : 0 < blockSize) (hrecords : ∀ r ∈ records, Storable r)
    (hbuild : EncodingCorpus.build blockSize true true records = .ok corpus)
    (hcount : (blocksOf blockSize records).length < 2 ^ 32) (h : Stores zstd db corpus) :
    ReaderAt zstd db corpus (ofDatabase zstd db) [] (blocksOf blockSize records) := by
  obtain ⟨hblocks, hdirTimes, hmetadata⟩ := build_streams hb hrecords hbuild
  have hflatten : [] ++ (blocksOf blockSize records).flatten = records :=
    flatten_blocksOf hb records
  refine ⟨rfl, rfl, fun b hb' => ne_nil_of_mem_blocksOf hb', rfl, ?_, ?_, ?_, ?_, ?_⟩
  · change 0 + _ = _
    rw [Nat.zero_add, (toNat_numDocids hb hrecords hbuild hcount h).1]
  · rw [← hblocks]
    exact h.filenameBlocks
  · rw [hflatten, ← hdirTimes]
    exact Inflow.serves_start h.directoryData
  · exact decide_eq_true h.metadata.1
  · rw [hflatten, ← hmetadata]
    exact Inflow.serves_start h.metadata

open ExistingDB in
theorem readMany_ofDatabase (hb : 0 < blockSize) (hrecords : ∀ r ∈ records, Storable r)
    (hbuild : EncodingCorpus.build blockSize true true records = .ok corpus)
    (hcount : (blocksOf blockSize records).length < 2 ^ 32) (h : Stores zstd db corpus)
    (hfuel : rounds db corpus ≤ fuel) (n : ℕ) :
    ∃ last, readMany zstd db fuel (records.length + n) (ofDatabase zstd db) =
      some (records.map returned ++ List.replicate n ([], notADir, last)) :=
  readMany_records records hrecords (readerAt_ofDatabase hb hrecords hbuild hcount h)
    (flatten_blocksOf hb records) hfuel n

open ExistingDB in
theorem loadSnapshot_eq (hb : 0 < blockSize) (hrecords : ∀ r ∈ records, Storable r)
    (hbuild : EncodingCorpus.build blockSize true true records = .ok corpus)
    (hcount : records.length < 2 ^ 31) (h : Stores zstd db corpus)
    (hfuel : rounds db corpus ≤ fuel)
    (hsize : ∀ block ∈ corpus.filenameBlocks, block.length ≤ 1 <<< 30) :
    loadSnapshot zstd db fuel = some (.ok (some (sortedSnapshot (records.map (·.path))
      (records.map (·.metadata.canonical))))) := by
  have hle := length_blocksOf_le blockSize records
  obtain ⟨hblocks, -, hmetadata⟩ := build_streams hb hrecords hbuild
  obtain ⟨hnum, hlength⟩ := toNat_numDocids hb hrecords hbuild (by omega) h
  have hrounds : db.metadata.length + corpus.metadataStream.length < fuel := by
    rw [rounds] at hfuel
    omega
  have hstream := h.metadata.decodeAll (show 0 < 8192 by decide) hrounds
  rw [← decompressStream_eq] at hstream
  have hmapM := mapM_decompressBlock h.filenameBlocks hsize
  have hpaths : corpus.filenameBlocks.flatMap extractPathsFromBlock = records.map (·.path) := by
    have heach : ∀ b ∈ blocksOf blockSize records,
        extractPathsFromBlock (joinNul (b.map (·.path))) = b.map (·.path) := by
      intro b hb'
      refine extractPathsFromBlock_joinNul fun p hp => ?_
      obtain ⟨r, hr, rfl⟩ := List.mem_map.mp hp
      exact (hrecords r (mem_of_mem_blocksOf hb' hr)).name
    rw [hblocks, List.flatMap_map, List.flatMap_congr heach, ← List.map_flatMap, List.flatMap_id',
      flatten_blocksOf hb]
  have hcount : (records.map (·.path)).length < 2 ^ 31 := by rwa [List.length_map]
  have hassemble := assembleSnapshot_eq hcount (records.map (·.metadata.canonical))
  rw [loadSnapshot, if_neg h.metadata.1, hstream, Option.map_some]
  dsimp only
  rw [if_neg (by omega), hnum, ← hlength, List.take_length, hmapM]
  dsimp only
  rw [hpaths, hmetadata, decodeMetadataStream_flatMap fun r hr => (hrecords r hr).hash, hassemble]
  rfl

end Readers

end Flocate
