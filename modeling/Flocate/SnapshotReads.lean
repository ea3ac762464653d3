import Flocate.DatabaseReaders
import Flocate.SnapshotFile

/-!
# What is read of a database file

All that is read behind the header lies in the file, since every section is checked against the
length of the file first. What is read comes out in order if its paths can be counted by the `int`
that fills the indexes that they are sorted through.
-/

namespace Flocate

open Bytes

section Reads

variable {α β : Type} {transfer : ℕ → ℕ → Option ℕ} {file : OpenFile}

def Pread.Inside (file : OpenFile) (r : Pread) : Prop := r.offset + r.length ≤ file.bytes.length

def OpenFile.slice (file : OpenFile) (offset length : UInt64) : Str :=
  (file.bytes.drop offset.toNat).take length.toNat

theorem Loading.result_bind (x : Loading α) (f : α → Loading β) :
    (x >>= f).result = x.result.bind fun a => (f a).result := by
  change (Loading.bind x f).result = _
  unfold Loading.bind
  cases x.result with
  | none => rfl
  | some a => rfl

theorem Loading.reads_bind {P : Pread → Prop} {x : Loading α} {f : α → Loading β}
    (hx : ∀ r ∈ x.reads, P r) (hf : ∀ a, x.result = some a → ∀ r ∈ (f a).reads, P r) :
    ∀ r ∈ (x >>= f).reads, P r := by
  change ∀ r ∈ (Loading.bind x f).reads, P r
  unfold Loading.bind
  cases ha : x.result with
  | none => exact hx
  | some a =>
      rw [List.forall_mem_append]
      exact ⟨hx, hf a ha⟩

/-- All calls end where the first one does. -/
theorem preadFully_reads (len offset : ℕ) :
    ∀ r ∈ (preadFully transfer file len offset).reads, r.offset + r.length = offset + len := by
  induction len using Nat.strongRecOn generalizing offset with
  | ind len ih =>
      rw [preadFully]
      split
      · exact List.forall_mem_nil _
      · rename_i hlen
        split
        · exact List.forall_mem_singleton.mpr rfl
        · dsimp only
          split
          · exact List.forall_mem_singleton.mpr rfl
          · rename_i hgot
            have hpos := List.length_pos_iff.mpr hgot
            rw [List.forall_mem_cons]
            refine ⟨rfl, fun r hr => ?_⟩
            have hend := ih _ (by omega) _ r hr
            rw [hend, List.length_take, List.length_drop]
            rw [List.length_take, List.length_drop] at hpos
            omega

theorem take_append_take_drop (l : Str) {m n : ℕ} (h : m ≤ n) :
    l.take m ++ (l.drop (l.take m).length).take (n - (l.take m).length) = l.take n := by
  have htake : l.take m = l.take (l.take m).length := by
    rw [List.length_take, ← List.take_eq_take_min]
  have hle : (l.take m).length ≤ n := (List.length_take_le _ _).trans h
  rw [← Nat.add_sub_cancel' hle, List.take_add, ← htake, Nat.add_sub_cancel_left]

theorem preadFully_result {len offset : ℕ} {bytes : Str}
    (h : (preadFully transfer file len offset).result = some bytes) :
    bytes = (file.bytes.drop offset).take len := by
  induction len using Nat.strongRecOn generalizing offset bytes with
  | ind len ih =>
      rw [preadFully] at h
      split at h
      · rename_i hlen
        obtain rfl := Option.some.inj h
        rw [hlen, List.take_zero]
      · rename_i hlen
        split at h
        · exact absurd h (by simp)
        · dsimp only at h
          split at h
          · exact absurd h (by simp)
          · rename_i k _ hgot
            have hpos := List.length_pos_iff.mpr hgot
            obtain ⟨rest, hrest, rfl⟩ := Option.map_eq_some_iff.mp h
            rw [ih _ (by omega) hrest, ← List.drop_drop, take_append_take_drop _ (by omega)]

/-- A call that transfers all that there is. -/
def transferAll (_offset len : ℕ) : Option ℕ := some len

theorem preadFully_transferAll {len offset : ℕ} (h : offset + len ≤ file.bytes.length) :
    (preadFully transferAll file len offset).result =
      some ((file.bytes.drop offset).take len) := by
  have hempty (offset : ℕ) : (preadFully transferAll file 0 offset).result = some [] := by
    rw [preadFully]
    rfl
  rw [preadFully]
  split
  · rename_i hlen
    rw [hlen, List.take_zero]
    rfl
  · rename_i hlen
    have hmin : min (len + 1) len = len := Nat.min_eq_right (Nat.le_succ len)
    have hlength : ((file.bytes.drop offset).take len).length = len := by
      rw [List.length_take, List.length_drop]
      omega
    rw [transferAll]
    dsimp only
    rw [hmin, dif_neg (List.ne_nil_of_length_pos (by omega))]
    dsimp only
    rw [hlength, Nat.sub_self, hempty, Option.map_some, List.append_nil]

theorem OpenFile.toNat_size (file : OpenFile) : file.size.toNat = file.bytes.length := by
  have hlt := file.length_lt
  rw [OpenFile.size, UInt64.toNat_ofNat', Nat.mod_eq_of_lt (by omega)]

/-- The checks do not wrap around. -/
theorem sectionFits_iff {offset length : UInt64} :
    sectionFits offset length file.size = true ↔
      length = 0 ∨ offset.toNat + length.toNat ≤ file.bytes.length := by
  have hsize := file.toNat_size
  simp only [sectionFits, Bool.or_eq_true, Bool.and_eq_true, decide_eq_true_eq,
    UInt64.le_iff_toNat_le, hsize]
  refine or_congr_right ⟨fun ⟨hoffset, hlength⟩ => ?_, fun h => ⟨by omega, ?_⟩⟩
  · rw [UInt64.toNat_sub_of_le _ _ (UInt64.le_iff_toNat_le.mpr (hsize ▸ hoffset)), hsize] at hlength
    omega
  · rw [UInt64.toNat_sub_of_le _ _ (UInt64.le_iff_toNat_le.mpr (by omega)), hsize]
    omega

theorem readBlob_inside {offset length : UInt64}
    (h : sectionFits offset length file.size = true) :
    ∀ r ∈ (readBlob transfer file offset length).reads, r.Inside file := by
  rw [readBlob]
  split
  · rename_i hpos
    intro r hr
    rw [Pread.Inside, preadFully_reads _ _ r hr]
    rcases sectionFits_iff.mp h with hzero | hle
    · exact absurd hpos (by rw [hzero]; exact UInt64.lt_irrefl 0)
    · exact hle
  · exact List.forall_mem_nil _

theorem readBlob_result {offset length : UInt64} {bytes : Str}
    (h : (readBlob transfer file offset length).result = some bytes) :
    bytes = file.slice offset length := by
  rw [readBlob] at h
  split at h
  · exact preadFully_result h
  · rename_i hzero
    obtain rfl := Option.some.inj h
    have hlength : length = 0 := UInt64.le_zero_iff.mp (UInt64.not_lt.mp hzero)
    rw [OpenFile.slice, hlength]
    rfl

theorem readBlob_transferAll {offset length : UInt64}
    (h : sectionFits offset length file.size = true) :
    (readBlob transferAll file offset length).result = some (file.slice offset length) := by
  rw [readBlob]
  split
  · rename_i hpos
    rcases sectionFits_iff.mp h with hzero | hle
    · exact absurd hpos (by rw [hzero]; exact UInt64.lt_irrefl 0)
    · exact preadFully_transferAll hle
  · rename_i hzero
    have hlength : length = 0 := UInt64.le_zero_iff.mp (UInt64.not_lt.mp hzero)
    rw [OpenFile.slice, hlength]
    rfl

end Reads

section Order

variable {paths : List Str}

theorem getD_set_of_ne {i j : ℕ} (h : i ≠ j) (path : Str) :
    (paths.set i path).getD j [] = paths.getD j [] := by
  rw [List.getD_eq_getElem?_getD, List.getElem?_set_ne h, List.getD_eq_getElem?_getD]

/-- Without a repeated index all paths are still there when they are moved. -/
theorem moveOut_eq_map {order : List UInt32} (h : order.Nodup) :
    moveOut order paths = order.map fun i => paths.getD i.toNat [] := by
  induction order generalizing paths with
  | nil => rfl
  | cons i order ih =>
      rw [List.nodup_cons] at h
      rw [moveOut, ih h.2, List.map_cons]
      refine congrArg _ (List.map_congr_left fun j hj => getD_set_of_ne ?_ [])
      intro heq
      exact h.1 (UInt32.toNat_inj.mp heq ▸ hj)

theorem nodup_indexOrder (h : paths.length < 2 ^ 31) : (indexOrder paths).Nodup := by
  have hperm := map_toNat_indexOrder_perm (h.trans (by decide))
  exact List.Nodup.of_map _ (hperm.nodup_iff.mpr List.nodup_range)

theorem moveOut_indexOrder (h : paths.length < 2 ^ 31) :
    moveOut (indexOrder paths) paths =
      (indexOrder paths).map fun i => paths.getD i.toNat [] :=
  moveOut_eq_map (nodup_indexOrder h)

/-- The indexes count the paths. -/
theorem sortSnapshot_eq (h : paths.length < 2 ^ 31) (metadata : List FileMetadata)
    (prune : PruneConfig) :
    sortSnapshot paths metadata prune = .ok ⟨sortedSnapshot paths metadata, prune⟩ := by
  rw [sortSnapshot, sortedOrder, if_neg (Nat.not_le.mpr h), Except.map, movedSnapshot,
    moveOut_indexOrder h]
  rfl

theorem sortSnapshot_overflow (h : 2 ^ 31 ≤ paths.length) (metadata : List FileMetadata)
    (prune : PruneConfig) : sortSnapshot paths metadata prune = .error .overflow := by
  rw [sortSnapshot, sortedOrder, if_pos h]
  rfl

end Order

section Snapshot

variable {σ : Type} {stream : StreamDecoder σ} {advancing : stream.Advancing} {zstd : Str → Zstd σ}
  {transfer : ℕ → ℕ → Option ℕ} {file : OpenFile} {hdr : DatabaseHeader}

/-- The paths in some filename blocks of a file, each of which lies in it and decompresses. -/
inductive HoldsBlocks (zstd : Str → Zstd σ) (file : OpenFile) (dictionary index : Str) :
    List ℕ → List Str → Prop
  | nil : HoldsBlocks zstd file dictionary index [] []
  | cons {block : ℕ} {blocks : List ℕ} {content : Str} {paths : List Str}
      (hle : blockOffset index block ≤ blockOffset index (block + 1))
      (hinside : sectionFits (blockOffset index block)
        (blockOffset index (block + 1) - blockOffset index block) file.size = true)
      (hcontent : decompressBlock (zstd dictionary) (file.slice (blockOffset index block)
        (blockOffset index (block + 1) - blockOffset index block)) = some content)
      (h : HoldsBlocks zstd file dictionary index blocks paths) :
      HoldsBlocks zstd file dictionary index (block :: blocks)
        (extractPathsFromBlock content ++ paths)

/-- The paths in the filename blocks of a file whose metadata decompresses. -/
structure HoldsPaths (stream : StreamDecoder σ) (advancing : stream.Advancing)
    (zstd : Str → Zstd σ) (file : OpenFile) (hdr : DatabaseHeader) (paths : List Str) : Prop where
  metadata_ne : hdr.metadataLengthBytes ≠ 0
  metadata : (decompressSection stream advancing
    (file.slice hdr.metadataOffsetBytes hdr.metadataLengthBytes)).isSome
  blocks : HoldsBlocks zstd file
    (file.slice hdr.zstdDictionaryOffsetBytes hdr.zstdDictionaryLengthBytes.toUInt64)
    (file.slice hdr.filenameIndexOffsetBytes hdr.indexBytes)
    (List.range hdr.numDocids.toNat) paths

theorem loadBlocks_inside (dictionary index : Str) (blocks : List ℕ) :
    ∀ r ∈ (loadBlocks zstd transfer file dictionary index blocks).reads, r.Inside file := by
  induction blocks with
  | nil => exact List.forall_mem_nil _
  | cons block blocks ih =>
      rw [loadBlocks]
      split
      · exact List.forall_mem_nil _
      · rename_i hfits
        rw [not_or, Bool.not_eq_false] at hfits
        refine Loading.reads_bind (readBlob_inside hfits.2) fun _ _ => ?_
        refine Loading.reads_bind (List.forall_mem_nil _) fun _ _ => ?_
        exact Loading.reads_bind ih fun _ _ => List.forall_mem_nil _

theorem loadBlocks_holds {dictionary index : Str} {blocks : List ℕ} {paths : List Str}
    (h : (loadBlocks zstd transfer file dictionary index blocks).result = some paths) :
    HoldsBlocks zstd file dictionary index blocks paths := by
  induction blocks generalizing paths with
  | nil =>
      obtain rfl := Option.some.inj h
      exact .nil
  | cons block blocks ih =>
      rw [loadBlocks] at h
      split at h
      · exact absurd h (by simp [Loading.fail])
      · rename_i hfits
        rw [not_or, Bool.not_eq_false, UInt64.not_lt] at hfits
        rw [Loading.result_bind] at h
        obtain ⟨blob, hblob, h⟩ := Option.bind_eq_some_iff.mp h
        rw [Loading.result_bind] at h
        obtain ⟨content, hcontent, h⟩ := Option.bind_eq_some_iff.mp h
        rw [Loading.result_bind] at h
        obtain ⟨rest, hrest, h⟩ := Option.bind_eq_some_iff.mp h
        obtain rfl := Option.some.inj h
        rw [readBlob_result hblob] at hcontent
        exact .cons hfits.1 hfits.2 hcontent (ih hrest)

theorem HoldsBlocks.loadBlocks {dictionary index : Str} {blocks : List ℕ} {paths : List Str}
    (h : HoldsBlocks zstd file dictionary index blocks paths) :
    (loadBlocks zstd transferAll file dictionary index blocks).result = some paths := by
  induction h with
  | nil => rfl
  | cons hle hinside hcontent _ ih =>
      rw [Flocate.loadBlocks, if_neg (by
        rw [not_or, Bool.not_eq_false, UInt64.not_lt]
        exact ⟨hle, hinside⟩), Loading.result_bind, readBlob_transferAll hinside,
        Option.bind_some, Loading.result_bind]
      change (decompressBlock _ _).bind _ = _
      rw [hcontent, Option.bind_some, Loading.result_bind, ih]
      rfl

/-- What `read_header` has accepted. -/
theorem readHeader_accepted (h : (readHeader transfer file).result = some hdr) :
    hdr.accepted file.size = true := by
  rw [readHeader] at h
  split at h
  · exact absurd h (by simp [Loading.fail])
  · rw [Loading.result_bind] at h
    obtain ⟨bytes, -, h⟩ := Option.bind_eq_some_iff.mp h
    dsimp only at h
    split at h
    · rename_i haccepted
      obtain rfl := Option.some.inj h
      exact haccepted
    · exact absurd h (by simp [Loading.fail])

structure SectionsFit (hdr : DatabaseHeader) (file : OpenFile) : Prop where
  index : sectionFits hdr.filenameIndexOffsetBytes hdr.indexBytes file.size = true
  dictionary : sectionFits hdr.zstdDictionaryOffsetBytes hdr.zstdDictionaryLengthBytes.toUInt64
    file.size = true
  confBlock : sectionFits hdr.confBlockOffsetBytes hdr.confBlockLengthBytes file.size = true
  metadata : sectionFits hdr.metadataOffsetBytes hdr.metadataLengthBytes file.size = true
  history : sectionFits hdr.historyOffsetBytes hdr.historyLengthBytes file.size = true

theorem sectionsFit_of_accepted (h : hdr.accepted file.size = true) : SectionsFit hdr file := by
  simp only [DatabaseHeader.accepted, Bool.and_eq_true] at h
  obtain ⟨⟨⟨⟨⟨⟨-, hindex⟩, hdictionary⟩, hconf⟩, hmetadata⟩, hhistory⟩, -⟩ := h
  exact ⟨hindex, hdictionary, hconf, hmetadata, hhistory⟩

theorem toNat_indexBytes (hdr : DatabaseHeader) :
    hdr.indexBytes.toNat = 8 * (hdr.numDocids.toNat + 1) := by
  have hlt := hdr.numDocids.toNat_lt
  have h1 : (1 : UInt64).toNat = 1 := rfl
  have h8 : (8 : UInt64).toNat = 8 := rfl
  rw [DatabaseHeader.indexBytes, UInt64.toNat_mul, UInt64.toNat_add, UInt32.toNat_toUInt64, h1, h8]
  omega

theorem SectionsFit.index_le (h : SectionsFit hdr file) :
    hdr.filenameIndexOffsetBytes.toNat + 8 * (hdr.numDocids.toNat + 1) ≤ file.bytes.length := by
  have hbytes := toNat_indexBytes hdr
  rcases sectionFits_iff.mp h.index with hzero | hle
  · rw [hzero] at hbytes
    have h0 : (0 : UInt64).toNat = 0 := rfl
    omega
  · rwa [hbytes] at hle

theorem loadSnapshotFile_inside (hfit : SectionsFit hdr file) :
    ∀ r ∈ (loadSnapshotFile stream advancing zstd transfer file hdr).reads, r.Inside file := by
  rw [loadSnapshotFile]
  split
  · exact List.forall_mem_nil _
  · refine Loading.reads_bind (readBlob_inside hfit.metadata) fun _ _ => ?_
    refine Loading.reads_bind (List.forall_mem_nil _) fun _ _ => ?_
    refine Loading.reads_bind (readBlob_inside hfit.confBlock) fun _ _ => ?_
    refine Loading.reads_bind (fun r hr => ?_) fun _ _ => ?_
    · rw [Pread.Inside, preadFully_reads _ _ r hr]
      exact hfit.index_le
    · refine Loading.reads_bind (readBlob_inside hfit.dictionary) fun _ _ => ?_
      exact Loading.reads_bind (loadBlocks_inside _ _ _) fun _ _ => List.forall_mem_nil _

theorem loadHistoryEvents_inside (hfit : SectionsFit hdr file) :
    ∀ r ∈ (loadHistoryEvents stream advancing transfer file hdr).reads, r.Inside file := by
  rw [loadHistoryEvents]
  split
  · exact List.forall_mem_nil _
  · refine Loading.reads_bind (readBlob_inside hfit.history) fun _ _ => ?_
    exact Loading.reads_bind (List.forall_mem_nil _) fun _ _ => List.forall_mem_nil _

/-- A snapshot is made of the paths in the file. -/
theorem loadSnapshotFile_holds {outcome : Except Fault LoadedSnapshot}
    (h : (loadSnapshotFile stream advancing zstd transfer file hdr).result = some outcome) :
    ∃ paths metadata prune, HoldsPaths stream advancing zstd file hdr paths ∧
      outcome = sortSnapshot paths metadata prune := by
  rw [loadSnapshotFile] at h
  split at h
  · exact absurd h (by simp [Loading.fail])
  · rename_i hmetadata
    rw [Loading.result_bind] at h
    obtain ⟨blob, hblob, h⟩ := Option.bind_eq_some_iff.mp h
    rw [Loading.result_bind] at h
    obtain ⟨metadataStream, hstream, h⟩ := Option.bind_eq_some_iff.mp h
    rw [Loading.result_bind] at h
    obtain ⟨confBlob, -, h⟩ := Option.bind_eq_some_iff.mp h
    rw [Loading.result_bind] at h
    obtain ⟨index, hindex, h⟩ := Option.bind_eq_some_iff.mp h
    rw [Loading.result_bind] at h
    obtain ⟨dictionary, hdictionary, h⟩ := Option.bind_eq_some_iff.mp h
    rw [Loading.result_bind] at h
    obtain ⟨paths, hpaths, h⟩ := Option.bind_eq_some_iff.mp h
    obtain rfl := Option.some.inj h
    refine ⟨paths, _, _, ⟨hmetadata, ?_, ?_⟩, rfl⟩
    · rw [← readBlob_result hblob]
      exact Option.isSome_iff_exists.mpr ⟨metadataStream, hstream⟩
    · rw [OpenFile.slice, OpenFile.slice, toNat_indexBytes, ← preadFully_result hindex]
      have hslice := readBlob_result hdictionary
      rw [OpenFile.slice] at hslice
      rw [← hslice]
      exact loadBlocks_holds hpaths

theorem HoldsPaths.loadSnapshotFile {paths : List Str}
    (h : HoldsPaths stream advancing zstd file hdr paths) (hfit : SectionsFit hdr file) :
    ∃ metadata prune, (loadSnapshotFile stream advancing zstd transferAll file hdr).result =
      some (sortSnapshot paths metadata prune) := by
  obtain ⟨metadataStream, hstream⟩ := Option.isSome_iff_exists.mp h.metadata
  have hindex : (preadFully transferAll file (8 * (hdr.numDocids.toNat + 1))
      hdr.filenameIndexOffsetBytes.toNat).result =
        some (file.slice hdr.filenameIndexOffsetBytes hdr.indexBytes) := by
    rw [OpenFile.slice, toNat_indexBytes]
    exact preadFully_transferAll hfit.index_le
  refine ⟨decodeMetadataStream metadataStream,
    parseConfBlock (file.slice hdr.confBlockOffsetBytes hdr.confBlockLengthBytes) {}, ?_⟩
  rw [Flocate.loadSnapshotFile, if_neg h.metadata_ne, Loading.result_bind,
    readBlob_transferAll hfit.metadata, Option.bind_some, Loading.result_bind]
  change (decompressSection _ _ _).bind _ = _
  rw [hstream, Option.bind_some, Loading.result_bind, readBlob_transferAll hfit.confBlock,
    Option.bind_some, Loading.result_bind, hindex, Option.bind_some, Loading.result_bind,
    readBlob_transferAll hfit.dictionary, Option.bind_some, Loading.result_bind,
    h.blocks.loadBlocks]
  rfl

/-- What `load_snapshot` and `load_history_events` promise for a file, however `pread` behaves. -/
structure LoadsSafely (stream : StreamDecoder σ) (advancing : stream.Advancing)
    (zstd : Str → Zstd σ) (file : OpenFile) (hdr : DatabaseHeader) : Prop where
  inside : ∀ transfer, ∀ r ∈ (loadSnapshotFile stream advancing zstd transfer file hdr).reads ++
    (loadHistoryEvents stream advancing transfer file hdr).reads, r.Inside file
  sorted : ∀ transfer outcome,
    (loadSnapshotFile stream advancing zstd transfer file hdr).result = some outcome →
      ∃ snapshot, outcome = .ok snapshot ∧ snapshot.paths.Pairwise (· ≤ ·) ∧
        snapshot.metadata.length = snapshot.paths.length

theorem loadsSafely_of_sectionsFit (hfit : SectionsFit hdr file) :
    LoadsSafely stream advancing zstd file hdr ↔
      ∀ paths, HoldsPaths stream advancing zstd file hdr paths → paths.length < 2 ^ 31 := by
  constructor
  · intro hsafe paths hpaths
    by_contra hmany
    obtain ⟨metadata, prune, hload⟩ := hpaths.loadSnapshotFile hfit
    obtain ⟨snapshot, hok, -⟩ := hsafe.sorted transferAll _ hload
    rw [sortSnapshot_overflow (Nat.not_lt.mp hmany)] at hok
    cases hok
  · intro hcount
    refine ⟨fun transfer => ?_, fun transfer outcome hload => ?_⟩
    · rw [List.forall_mem_append]
      exact ⟨loadSnapshotFile_inside hfit, loadHistoryEvents_inside hfit⟩
    · obtain ⟨paths, metadata, prune, hpaths, rfl⟩ := loadSnapshotFile_holds hload
      refine ⟨_, sortSnapshot_eq (hcount paths hpaths) metadata prune, pairwise_indexOrder, ?_⟩
      change (List.map _ _).length = (List.map _ _).length
      rw [List.length_map, List.length_map]

/-- Everything that is read behind the header of an accepted file lies in it, and the snapshot is
in order with one record of metadata for each path, exactly if there are fewer than `2 ^ 31`
paths. -/
theorem loadsSafely_iff (stream : StreamDecoder σ) (advancing : stream.Advancing)
    (zstd : Str → Zstd σ) (transfer : ℕ → ℕ → Option ℕ) (file : OpenFile) (hdr : DatabaseHeader)
    (h : (readHeader transfer file).result = some hdr) :
    LoadsSafely stream advancing zstd file hdr ↔
      ∀ paths, HoldsPaths stream advancing zstd file hdr paths → paths.length < 2 ^ 31 :=
  loadsSafely_of_sectionsFit (sectionsFit_of_accepted (readHeader_accepted h))

end Snapshot

section Crowded

def advancing_rawStream : rawStream.Advancing where
  potential _ n := n
  decreases {s input room c out s'} hne hroom hcall := by
    obtain ⟨rfl, -⟩ := Prod.mk.inj (Option.some.inj hcall)
    have hpos := List.length_pos_iff.mpr hne
    have hout : ((input.drop (min (9 - s) input.length)).take room).length =
        min room (input.length - min (9 - s) input.length) := by
      rw [List.length_take, List.length_drop]
    omega

def crowdedOffset (n : ℕ) : ℕ := 153 + 8 * (n + 1)

def crowdedBlock : Str := rawFrame [97, 0, 97]

def crowdedHeader (n : ℕ) : DatabaseHeader :=
  { DatabaseHeader.initial false with
    version := 1
    numDocids := UInt32.ofNat n
    filenameIndexOffsetBytes := 153
    zstdDictionaryLengthBytes := 0
    metadataLengthBytes := 9
    metadataOffsetBytes := 144
    metadataFlags := DatabaseHeader.metadataFlagPosixV2 }

def crowdedEntry (n i : ℕ) : Str := putU64 (UInt64.ofNat (crowdedOffset n + 12 * i))

def crowdedIndex (n : ℕ) : Str := (List.range (n + 1)).flatMap (crowdedEntry n)

/-- A database of `n` blocks that have the path `a` twice. -/
def crowdedBytes (n : ℕ) : Str :=
  (crowdedHeader n).toBytes ++ (rawFrame [] ++ (crowdedIndex n ++
    (List.range n).flatMap fun _ => crowdedBlock))

theorem length_flatMap_of_length {α : Type} {f : α → Str} {k : ℕ} (hf : ∀ x, (f x).length = k)
    (l : List α) : (l.flatMap f).length = k * l.length := by
  induction l with
  | nil => rfl
  | cons x l ih =>
      rw [List.flatMap_cons, List.length_append, ih, hf, List.length_cons, Nat.mul_succ]
      omega

theorem drop_flatMap_of_length {α : Type} {f : α → Str} {k : ℕ} (hf : ∀ x, (f x).length = k)
    (l : List α) (i : ℕ) : (l.flatMap f).drop (k * i) = (l.drop i).flatMap f := by
  induction i generalizing l with
  | zero => rfl
  | succ i ih =>
      cases l with
      | nil => simp
      | cons x l =>
          rw [List.flatMap_cons, List.drop_succ_cons, ← ih, Nat.mul_succ, Nat.add_comm,
            ← List.drop_drop, ← hf x, List.drop_left]

theorem length_crowdedEntry (n i : ℕ) : (crowdedEntry n i).length = 8 := length_putU64 _

theorem length_crowdedIndex (n : ℕ) : (crowdedIndex n).length = 8 * (n + 1) := by
  rw [crowdedIndex, length_flatMap_of_length (length_crowdedEntry n), List.length_range]

theorem length_crowdedBytes (n : ℕ) :
    (crowdedBytes n).length = crowdedOffset n + 12 * n := by
  have hblock (i : ℕ) : crowdedBlock.length = 12 := rfl
  have hblocks := length_flatMap_of_length hblock (List.range n)
  have hmetadata : (rawFrame []).length = 9 := rfl
  have hsize : DatabaseHeader.size = 144 := rfl
  rw [crowdedBytes, List.length_append, List.length_append, List.length_append,
    DatabaseBuilder.length_toBytes, length_crowdedIndex, hblocks, hmetadata, crowdedOffset, hsize,
    List.length_range]
  omega

/-- The bytes behind a known beginning. -/
theorem OpenFile.slice_eq {file : OpenFile} {offset length : UInt64} {p s t : Str}
    (h : file.bytes = p ++ (s ++ t)) (hp : p.length = offset.toNat)
    (hs : s.length = length.toNat) : file.slice offset length = s := by
  rw [OpenFile.slice, h, ← hp, List.drop_left, ← hs, List.take_left]

variable {n : ℕ} (hn : n < 2 ^ 32)

def crowdedFile : OpenFile where
  bytes := crowdedBytes n
  length_lt := by
    rw [length_crowdedBytes, crowdedOffset]
    omega

include hn

theorem toNat_crowdedOffset {i : ℕ} (hi : i ≤ n) :
    (UInt64.ofNat (crowdedOffset n + 12 * i)).toNat = crowdedOffset n + 12 * i := by
  rw [UInt64.toNat_ofNat', Nat.mod_eq_of_lt]
  rw [crowdedOffset]
  omega

omit hn in
theorem blockOffset_crowdedIndex {i : ℕ} (hi : i ≤ n) :
    blockOffset (crowdedIndex n) i = UInt64.ofNat (crowdedOffset n + 12 * i) := by
  have hlt : i < (List.range (n + 1)).length := by
    rw [List.length_range]
    omega
  rw [blockOffset, crowdedIndex, drop_flatMap_of_length (length_crowdedEntry n),
    List.drop_eq_getElem_cons hlt, List.getElem_range, List.flatMap_cons, crowdedEntry,
    getU64_putU64]

theorem toNat_blockOffset_crowdedIndex {i : ℕ} (hi : i ≤ n) :
    (blockOffset (crowdedIndex n) i).toNat = crowdedOffset n + 12 * i := by
  rw [blockOffset_crowdedIndex hi, toNat_crowdedOffset hn hi]

theorem toNat_numDocids_crowded : (crowdedHeader n).numDocids.toNat = n := by
  change (UInt32.ofNat n).toNat = n
  rw [UInt32.toNat_ofNat', Nat.mod_eq_of_lt hn]

theorem accepted_crowdedHeader :
    (crowdedHeader n).accepted (crowdedFile hn).size = true := by
  have hlength : (crowdedFile hn).bytes.length = crowdedOffset n + 12 * n :=
    length_crowdedBytes n
  have hindex : sectionFits (crowdedHeader n).filenameIndexOffsetBytes
      (crowdedHeader n).indexBytes (crowdedFile hn).size = true := by
    rw [sectionFits_iff, toNat_indexBytes, toNat_numDocids_crowded hn, hlength, crowdedOffset]
    have h153 : (crowdedHeader n).filenameIndexOffsetBytes.toNat = 153 := rfl
    omega
  have hmetadata : sectionFits (crowdedHeader n).metadataOffsetBytes
      (crowdedHeader n).metadataLengthBytes (crowdedFile hn).size = true := by
    rw [sectionFits_iff, hlength, crowdedOffset]
    have h144 : (crowdedHeader n).metadataOffsetBytes.toNat = 144 := rfl
    have h9 : (crowdedHeader n).metadataLengthBytes.toNat = 9 := rfl
    omega
  have hdictionary : sectionFits (crowdedHeader n).zstdDictionaryOffsetBytes
      (crowdedHeader n).zstdDictionaryLengthBytes.toUInt64 (crowdedFile hn).size = true :=
    sectionFits_iff.mpr (.inl rfl)
  have hconf : sectionFits (crowdedHeader n).confBlockOffsetBytes
      (crowdedHeader n).confBlockLengthBytes (crowdedFile hn).size = true :=
    sectionFits_iff.mpr (.inl rfl)
  have hhistory : sectionFits (crowdedHeader n).historyOffsetBytes
      (crowdedHeader n).historyLengthBytes (crowdedFile hn).size = true :=
    sectionFits_iff.mpr (.inl rfl)
  have hmagic : (crowdedHeader n).magic = magicBytes := rfl
  have hversion : (crowdedHeader n).version = 1 := rfl
  have hmax : (crowdedHeader n).maxVersion = 3 := rfl
  have hflags : (crowdedHeader n).metadataFlags = DatabaseHeader.metadataFlagPosixV2 := rfl
  have hlengths : (crowdedHeader n).metadataLengthBytes = 9 ∧
      (crowdedHeader n).historyLengthBytes = 0 := ⟨rfl, rfl⟩
  rw [DatabaseHeader.accepted, hindex, hmetadata, hdictionary, hconf, hhistory, hmagic, hversion,
    hmax, hflags, hlengths.1, hlengths.2]
  decide

theorem readHeader_crowdedFile :
    (readHeader transferAll (crowdedFile hn)).result = some (crowdedHeader n) := by
  have hlength : (crowdedFile hn).bytes.length = crowdedOffset n + 12 * n :=
    length_crowdedBytes n
  have hsize : DatabaseHeader.size = 144 := rfl
  have hle : 0 + DatabaseHeader.size ≤ (crowdedFile hn).bytes.length := by
    rw [hlength, hsize, crowdedOffset]
    omega
  have hheader : DatabaseHeader.ofBytes
      (((crowdedFile hn).bytes.drop 0).take DatabaseHeader.size) = crowdedHeader n := by
    change DatabaseHeader.ofBytes ((crowdedBytes n).take DatabaseHeader.size) = _
    rw [crowdedBytes, ← DatabaseBuilder.length_toBytes (crowdedHeader n), List.take_left,
      ← List.append_nil (crowdedHeader n).toBytes, DatabaseBuilder.ofBytes_toBytes]
  rw [readHeader, if_neg (by omega), Loading.result_bind, preadFully_transferAll hle,
    Option.bind_some, hheader, if_pos (accepted_crowdedHeader hn)]
  rfl

/-- A block of the file, by its entries of the index. -/
theorem slice_crowdedBlock {i : ℕ} (hi : i < n) :
    (crowdedFile hn).slice (blockOffset (crowdedIndex n) i)
      (blockOffset (crowdedIndex n) (i + 1) - blockOffset (crowdedIndex n) i) = crowdedBlock := by
  have hblock (j : ℕ) : crowdedBlock.length = 12 := rfl
  have hstart := toNat_blockOffset_crowdedIndex hn hi.le
  have hstop : (blockOffset (crowdedIndex n) (i + 1)).toNat = _ :=
    toNat_blockOffset_crowdedIndex hn (Nat.succ_le_of_lt hi)
  have hlt : i < (List.range n).length := by rwa [List.length_range]
  have hdrop : ((List.range n).flatMap fun _ => crowdedBlock).drop (12 * i) =
      crowdedBlock ++ ((List.range n).drop (i + 1)).flatMap fun _ => crowdedBlock := by
    rw [drop_flatMap_of_length hblock, List.drop_eq_getElem_cons hlt, List.flatMap_cons]
  have hlength := length_flatMap_of_length hblock (List.range n)
  rw [List.length_range] at hlength
  have hmetadata : (rawFrame []).length = 9 := rfl
  have hsize : DatabaseHeader.size = 144 := rfl
  have h12 : crowdedBlock.length = 12 := rfl
  refine OpenFile.slice_eq (p := (crowdedHeader n).toBytes ++ (rawFrame [] ++ (crowdedIndex n ++
    ((List.range n).flatMap fun _ => crowdedBlock).take (12 * i))))
    (t := ((List.range n).drop (i + 1)).flatMap fun _ => crowdedBlock) ?_ ?_ ?_
  · change crowdedBytes n = _
    rw [← hdrop, crowdedBytes]
    simp only [List.append_assoc, List.take_append_drop]
  · rw [hstart, List.length_append, List.length_append, List.length_append, List.length_take,
      hlength, DatabaseBuilder.length_toBytes, length_crowdedIndex, hmetadata, crowdedOffset, hsize]
    omega
  · rw [UInt64.toNat_sub_of_le _ _ (UInt64.le_iff_toNat_le.mpr (by omega)), hstart, hstop, h12]
    omega

theorem holdsBlocks_crowdedFile (dictionary : Str) {blocks : List ℕ}
    (hblocks : ∀ i ∈ blocks, i < n) :
    HoldsBlocks (fun _ => rawZstd) (crowdedFile hn) dictionary (crowdedIndex n) blocks
      (blocks.flatMap fun _ => [[97], [97]]) := by
  have hextract : extractPathsFromBlock [97, 0, 97] = [[97], [97]] := by decide +kernel
  induction blocks with
  | nil => exact .nil
  | cons i blocks ih =>
      rw [List.forall_mem_cons] at hblocks
      have hstart := toNat_blockOffset_crowdedIndex hn hblocks.1.le
      have hstop : (blockOffset (crowdedIndex n) (i + 1)).toNat = _ :=
        toNat_blockOffset_crowdedIndex hn (Nat.succ_le_of_lt hblocks.1)
      have hle : blockOffset (crowdedIndex n) i ≤ blockOffset (crowdedIndex n) (i + 1) :=
        UInt64.le_iff_toNat_le.mpr (by omega)
      rw [List.flatMap_cons, ← hextract]
      refine .cons hle ?_ ?_ (hextract ▸ ih hblocks.2)
      · have hlength : (crowdedFile hn).bytes.length = crowdedOffset n + 12 * n :=
          length_crowdedBytes n
        rw [sectionFits_iff, UInt64.toNat_sub_of_le _ _ hle, hlength]
        omega
      · rw [slice_crowdedBlock hn hblocks.1]
        decide

omit hn in
theorem length_crowdedPaths (n : ℕ) :
    ((List.range n).flatMap fun _ => [([97] : Str), [97]]).length = 2 * n := by
  induction n with
  | zero => rfl
  | succ n ih =>
      rw [List.range_succ, List.flatMap_append, List.length_append, ih, List.flatMap_singleton]
      rfl

theorem holdsPaths_crowdedFile :
    HoldsPaths rawStream advancing_rawStream (fun _ => rawZstd) (crowdedFile hn) (crowdedHeader n)
      ((List.range n).flatMap fun _ => [[97], [97]]) := by
  have hsize : DatabaseHeader.size = 144 := rfl
  have hindex : (crowdedFile hn).slice (crowdedHeader n).filenameIndexOffsetBytes
      (crowdedHeader n).indexBytes = crowdedIndex n := by
    refine OpenFile.slice_eq (p := (crowdedHeader n).toBytes ++ rawFrame [])
      (t := (List.range n).flatMap fun _ => crowdedBlock) ?_ ?_ ?_
    · change crowdedBytes n = _
      rw [crowdedBytes, List.append_assoc]
    · rw [List.length_append, DatabaseBuilder.length_toBytes, hsize]
      rfl
    · rw [toNat_indexBytes, toNat_numDocids_crowded hn, length_crowdedIndex]
  have hmetadata : (crowdedFile hn).slice (crowdedHeader n).metadataOffsetBytes
      (crowdedHeader n).metadataLengthBytes = rawFrame [] := by
    refine OpenFile.slice_eq (p := (crowdedHeader n).toBytes) rfl ?_ rfl
    rw [DatabaseBuilder.length_toBytes, hsize]
    rfl
  refine ⟨by change (9 : UInt64) ≠ 0; decide, ?_, ?_⟩
  · rw [hmetadata]
    decide +kernel
  · rw [hindex, toNat_numDocids_crowded hn]
    exact holdsBlocks_crowdedFile hn _ fun i hi => List.mem_range.mp hi

end Crowded

theorem one_lt_two_pow_32 : 1 < 2 ^ 32 := by decide

theorem loadsSafely_iff_crowdedFile :
    (readHeader transferAll (crowdedFile one_lt_two_pow_32)).result = some (crowdedHeader 1) ∧
      (LoadsSafely rawStream advancing_rawStream (fun _ => rawZstd)
        (crowdedFile one_lt_two_pow_32) (crowdedHeader 1) ↔
          ∀ paths, HoldsPaths rawStream advancing_rawStream (fun _ => rawZstd)
            (crowdedFile one_lt_two_pow_32) (crowdedHeader 1) paths → paths.length < 2 ^ 31) :=
  ⟨readHeader_crowdedFile _, loadsSafely_iff _ _ _ transferAll _ _ (readHeader_crowdedFile _)⟩

/-- A file of `2 ^ 30` blocks with two paths each. -/
theorem not_loadsSafely_crowdedFile :
    ¬ ∀ (zstd : Str → Zstd ℕ) (transfer : ℕ → ℕ → Option ℕ) (file : OpenFile)
      (hdr : DatabaseHeader), (readHeader transfer file).result = some hdr →
        LoadsSafely rawStream advancing_rawStream zstd file hdr := by
  intro hall
  have hn : 2 ^ 30 < 2 ^ 32 := by decide
  have hsafe := hall (fun _ => rawZstd) transferAll (crowdedFile hn) _ (readHeader_crowdedFile hn)
  have hfit := sectionsFit_of_accepted (accepted_crowdedHeader hn)
  have hcount := (loadsSafely_of_sectionsFit hfit).mp hsafe _ (holdsPaths_crowdedFile hn)
  rw [length_crowdedPaths] at hcount
  omega

end Flocate
