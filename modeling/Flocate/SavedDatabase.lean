import Flocate.DatabaseLayout
import Flocate.DatabaseReaders
import Flocate.SnapshotDiff
import Flocate.SnapshotReads

/-!
# Reading back a database

`flocate-showdiff` reads back what a run has written: the paths with their metadata in order of the
paths, the pruning settings and the history.
-/

namespace Flocate

open Bytes Pieces

/-- Every call of `pread` that is made for bytes of the file transfers some. -/
def Transfers (transfer : ℕ → ℕ → Option ℕ) : Prop := ∀ offset length, transfer offset length ≠ none

section Reads

variable {transfer : ℕ → ℕ → Option ℕ} {file : OpenFile} {data : Str} {offset : ℕ}

theorem preadFully_transfers (h : Transfers transfer) {len : ℕ}
    (hle : offset + len ≤ file.bytes.length) :
    (preadFully transfer file len offset).result = some ((file.bytes.drop offset).take len) := by
  suffices hsome : ((preadFully transfer file len offset).result).isSome by
    obtain ⟨bytes, hbytes⟩ := Option.isSome_iff_exists.mp hsome
    rw [hbytes, preadFully_result hbytes]
  induction len using Nat.strongRecOn generalizing offset with
  | ind len ih =>
      rw [preadFully]
      split
      · rfl
      · rename_i hlen
        split
        · rename_i hnone
          exact absurd hnone (h offset len)
        · rename_i k _
          dsimp only
          have hlength : ((file.bytes.drop offset).take (min (k + 1) len)).length =
              min (k + 1) len := by
            rw [List.length_take, List.length_drop]
            omega
          rw [dif_neg (List.ne_nil_of_length_pos (by omega))]
          dsimp only
          rw [Option.isSome_map, hlength]
          exact ih _ (by omega) (by omega)

theorem preadFully_standsAt (h : Transfers transfer) (hdata : StandsAt file.bytes offset data) :
    (preadFully transfer file data.length offset).result = some data := by
  rw [preadFully_transfers h hdata.le, hdata.slice]

/-- What is in a file can be counted by its offsets. -/
theorem toNat_ofNat_of_standsAt (hdata : StandsAt file.bytes offset data) :
    (UInt64.ofNat offset).toNat = offset ∧ (UInt64.ofNat data.length).toNat = data.length := by
  have hle := hdata.le
  have hlt := file.length_lt
  rw [UInt64.toNat_ofNat', UInt64.toNat_ofNat', Nat.mod_eq_of_lt (by omega),
    Nat.mod_eq_of_lt (by omega)]
  exact ⟨rfl, rfl⟩

theorem readBlob_standsAt (h : Transfers transfer) (hdata : StandsAt file.bytes offset data) :
    (readBlob transfer file (UInt64.ofNat offset) (UInt64.ofNat data.length)).result =
      some data := by
  obtain ⟨hoffset, hlength⟩ := toNat_ofNat_of_standsAt hdata
  rw [readBlob, hoffset, hlength]
  split
  · exact preadFully_standsAt h hdata
  · rename_i hpos
    rw [UInt64.lt_iff_toNat_lt, hlength] at hpos
    have hnil : data = [] := List.length_eq_zero_iff.mp (Nat.eq_zero_of_not_pos hpos)
    rw [hnil]
    rfl

theorem sectionFits_standsAt (hdata : StandsAt file.bytes offset data) :
    sectionFits (UInt64.ofNat offset) (UInt64.ofNat data.length) file.size = true := by
  obtain ⟨hoffset, hlength⟩ := toNat_ofNat_of_standsAt hdata
  rw [sectionFits_iff, hoffset, hlength]
  exact Or.inr hdata.le

/-- A section without an offset is empty. -/
theorem readBlob_section (h : Transfers transfer) (hdata : StandsAt file.bytes offset data) :
    (readBlob transfer file (if data = [] then 0 else UInt64.ofNat offset)
      (UInt64.ofNat data.length)).result = some data := by
  split
  · rename_i hnil
    rw [hnil]
    rfl
  · exact readBlob_standsAt h hdata

theorem sectionFits_section (hdata : StandsAt file.bytes offset data) :
    sectionFits (if data = [] then 0 else UInt64.ofNat offset) (UInt64.ofNat data.length)
      file.size = true := by
  split
  · rename_i hnil
    rw [hnil]
    exact sectionFits_iff.mpr (Or.inl rfl)
  · exact sectionFits_standsAt hdata

end Reads

structure FinishedCorpus.Fits (d : FinishedCorpus) : Prop where
  dictionary : d.dictionary.length < 2 ^ 32
  blocks : d.blocks.length < 2 ^ 32

section Header

open DatabaseBuilder

variable {transfer : ℕ → ℕ → Option ℕ} {file : OpenFile} {d : FinishedCorpus}

theorem FinishedCorpus.Fits.numDocids (h : d.Fits) :
    d.header.numDocids.toNat = d.blocks.length := by
  change (UInt32.ofNat d.blocks.length).toNat = _
  rw [UInt32.toNat_ofNat', Nat.mod_eq_of_lt h.blocks]

theorem FinishedCorpus.Fits.dictionaryLength (h : d.Fits) :
    d.header.zstdDictionaryLengthBytes.toUInt64 = UInt64.ofNat d.dictionary.length := by
  have hlt := h.dictionary
  change (UInt64.ofNat d.dictionary.length).toUInt32.toUInt64 = _
  rw [← UInt64.toNat_inj, UInt32.toNat_toUInt64, UInt64.toNat_toUInt32, UInt64.toNat_ofNat',
    Nat.mod_eq_of_lt (a := d.dictionary.length) (by omega), Nat.mod_eq_of_lt hlt]

theorem FinishedCorpus.Fits.indexBytes (h : d.Fits) :
    d.header.indexBytes = UInt64.ofNat d.filenameIndex.length := by
  have hlt := h.blocks
  rw [← UInt64.toNat_inj, toNat_indexBytes, h.numDocids, UInt64.toNat_ofNat',
    FinishedCorpus.length_filenameIndex, Nat.mod_eq_of_lt (by omega)]

/-- A database with metadata is accepted. -/
theorem accepted_header (hfile : file.bytes = d.file) (hfits : d.Fits)
    (hmetadata : d.metadata ≠ []) : d.header.accepted file.size = true := by
  have hsection {k : ℕ} {data : Str} (hk : d.sections[k]? = some data) :
      StandsAt file.bytes (d.start k) data := hfile ▸ FinishedCorpus.standsAt_section hk
  have hindex : sectionFits d.header.filenameIndexOffsetBytes d.header.indexBytes
      file.size = true := by
    rw [hfits.indexBytes]
    exact sectionFits_standsAt (hsection (k := 2) rfl)
  have hdictionary : sectionFits d.header.zstdDictionaryOffsetBytes
      d.header.zstdDictionaryLengthBytes.toUInt64 file.size = true := by
    rw [hfits.dictionaryLength]
    exact sectionFits_section (hsection (k := 0) rfl)
  have hconf : sectionFits d.header.confBlockOffsetBytes d.header.confBlockLengthBytes
      file.size = true := sectionFits_section (hsection (k := 9) rfl)
  have hmetadata' : sectionFits d.header.metadataOffsetBytes d.header.metadataLengthBytes
      file.size = true := sectionFits_section (hsection (k := 6) rfl)
  have hhistory : sectionFits d.header.historyOffsetBytes d.header.historyLengthBytes
      file.size = true := sectionFits_section (hsection (k := 7) rfl)
  have hflags : d.header.metadataFlags = DatabaseHeader.metadataFlagPosixV2 := if_neg hmetadata
  have hmagic : d.header.magic = magicBytes := rfl
  have hversion : d.header.version = 2 := rfl
  have hmax : d.header.maxVersion = 3 := rfl
  have hflag : DatabaseHeader.metadataFlagPosixV2 &&& DatabaseHeader.metadataFlagPosixV2 ≠ 0 := by
    decide
  have hversion' : (decide ((2 : UInt32) = 1) || decide ((2 : UInt32) = 2)) = true := by decide
  have hmax' : decide ((3 : UInt32) ≤ 3) = true := by decide
  rw [DatabaseHeader.accepted, hindex, hdictionary, hconf, hmetadata', hhistory, hflags, hmagic,
    hversion, hmax, hversion', hmax', decide_eq_true hflag, Bool.or_true, decide_eq_true rfl]
  rfl

theorem readHeader_written (htransfer : Transfers transfer) (hfile : file.bytes = d.file)
    (hfits : d.Fits) (hmetadata : d.metadata ≠ []) :
    (readHeader transfer file).result = some d.header := by
  have hheader : StandsAt file.bytes 0 d.header.toBytes := hfile ▸ FinishedCorpus.standsAt_header
  have hle := hheader.le
  have hread := preadFully_standsAt htransfer hheader
  rw [length_toBytes] at hle hread
  have hofBytes := ofBytes_toBytes d.header []
  rw [List.append_nil] at hofBytes
  rw [readHeader, if_neg (by omega), Loading.result_bind, hread, Option.bind_some, hofBytes,
    if_pos (accepted_header hfile hfits hmetadata)]
  rfl

/-- The filename index tells where the blocks are. -/
theorem blockOffset_filenameIndex {k : ℕ} (hk : k ≤ d.blocks.length) :
    blockOffset d.filenameIndex k = UInt64.ofNat (d.blockStart k) := by
  have hindex : StandsAt d.filenameIndex 0 d.filenameIndex := ⟨[], [], by simp, rfl⟩
  rw [FinishedCorpus.filenameIndex_eq] at hindex
  have hentry := hindex.item (length_leBytes 8) (x := d.blockStart k) (k := k) (by
    rw [List.getElem?_map, List.getElem?_range (Nat.lt_succ_of_le hk), Option.map_some])
  have hslice := hentry.slice
  rw [length_leBytes, Nat.zero_add] at hslice
  rw [blockOffset, getU64, FinishedCorpus.filenameIndex_eq, hslice, leNat_leBytes,
    ← UInt64.toNat_inj, UInt64.toNat_ofNat', UInt64.toNat_ofNat']
  exact Nat.mod_mod _ _

theorem loadBlocks_written {σ : Type} {zstd : Str → Zstd σ} {dictionary : Str}
    (htransfer : Transfers transfer) (hfile : file.bytes = d.file) {contents : List Str}
    (hcontents : List.Forall₂ (zstd dictionary).LosslessBlock d.blocks contents)
    (hsize : ∀ content ∈ contents, content.length ≤ 1 <<< 30) (blocks : List ℕ)
    (hblocks : ∀ k ∈ blocks, k < d.blocks.length) :
    (loadBlocks zstd transfer file dictionary d.filenameIndex blocks).result =
      some (blocks.flatMap fun k => extractPathsFromBlock (contents.getD k [])) := by
  induction blocks with
  | nil => rfl
  | cons k blocks ih =>
      rw [List.forall_mem_cons] at hblocks
      have hk := List.getElem?_eq_getElem hblocks.1
      have hk' : k < contents.length := hcontents.length_eq ▸ hblocks.1
      have hblock : StandsAt file.bytes (d.blockStart k) d.blocks[k] :=
        hfile ▸ FinishedCorpus.standsAt_block hk
      obtain ⟨hstart, hlength⟩ := toNat_ofNat_of_standsAt hblock
      have hle := hblock.le
      have hlt := file.length_lt
      have hstop := FinishedCorpus.blockStart_succ hk
      have hbetween : UInt64.ofNat (d.blockStart (k + 1)) - UInt64.ofNat (d.blockStart k) =
          UInt64.ofNat d.blocks[k].length := by
        rw [hstop, UInt64.ofNat_add, UInt64.add_comm, UInt64.add_sub_cancel]
      have horder : ¬UInt64.ofNat (d.blockStart (k + 1)) < UInt64.ofNat (d.blockStart k) := by
        rw [UInt64.lt_iff_toNat_lt, hstart, hstop, UInt64.toNat_ofNat',
          Nat.mod_eq_of_lt (by omega)]
        omega
      have hcontent : decompressBlock (zstd dictionary) d.blocks[k] = some contents[k] :=
        decompressBlock_eq (hcontents.get hblocks.1 hk') (hsize _ (List.getElem_mem hk'))
      rw [loadBlocks, blockOffset_filenameIndex hblocks.1.le, blockOffset_filenameIndex hblocks.1,
        hbetween, sectionFits_standsAt hblock, if_neg (by
          rw [not_or]
          exact ⟨horder, Bool.true_eq_false_eq_False⟩), Loading.result_bind,
        readBlob_standsAt htransfer hblock, Option.bind_some, Loading.result_bind]
      change (decompressBlock _ _).bind _ = _
      rw [hcontent, Option.bind_some, Loading.result_bind, ih hblocks.2, List.flatMap_cons,
        List.getD_eq_getElem?_getD, List.getElem?_eq_getElem hk']
      rfl

end Header

/-- The sections of a database with this corpus and this history, zstd having lost nothing. -/
structure FinishedCorpus.Compressed {σ : Type} (d : FinishedCorpus) (stream : StreamDecoder σ)
    (zstd : Str → Zstd σ) (corpus : EncodingCorpus) (history : List HistoryEvent) : Prop where
  blocks : List.Forall₂ (zstd d.dictionary).LosslessBlock d.blocks corpus.filenameBlocks
  directoryData : stream.Decodes d.directoryData corpus.dirTimes
  metadata : stream.Decodes d.metadata corpus.metadataStream
  history : if history = [] then d.history = []
    else stream.Decodes d.history (encodeHistoryStream history)

section Load

variable {σ : Type} {stream : StreamDecoder σ} {advancing : stream.Advancing} {zstd : Str → Zstd σ}
  {transfer : ℕ → ℕ → Option ℕ} {file : OpenFile} {d : FinishedCorpus} {corpus : EncodingCorpus}
  {history : List HistoryEvent} {blockSize : ℕ} {records : List FileRecord}

theorem decompressSection_decodes {compressed content : Str}
    (h : stream.Decodes compressed content) :
    decompressSection stream advancing compressed = some content := h.decompress advancing _

theorem flatMap_range_getD {α : Type} (f : Str → List α) (contents : List Str) :
    (List.range contents.length).flatMap (fun k => f (contents.getD k [])) =
      contents.flatMap f := by
  have hmap : (List.range contents.length).map (fun k => contents.getD k []) = contents := by
    refine List.ext_getElem (by simp) fun k hk hk' => ?_
    rw [List.getElem_map, List.getElem_range, List.getD_eq_getElem?_getD,
      List.getElem?_eq_getElem hk', Option.getD_some]
  rw [← List.flatMap_map (fun k => contents.getD k []) f, hmap]

theorem paths_of_blocks (hb : 0 < blockSize) (hrecords : ∀ r ∈ records, Storable r)
    (hbuild : EncodingCorpus.build blockSize true true records = .ok corpus) :
    corpus.filenameBlocks.flatMap extractPathsFromBlock = records.map (·.path) := by
  have heach : ∀ b ∈ blocksOf blockSize records,
      extractPathsFromBlock (joinNul (b.map (·.path))) = b.map (·.path) := by
    intro b hb'
    refine extractPathsFromBlock_joinNul fun p hp => ?_
    obtain ⟨r, hr, rfl⟩ := List.mem_map.mp hp
    exact (hrecords r (mem_of_mem_blocksOf hb' hr)).name
  rw [(build_streams hb hrecords hbuild).1, List.flatMap_map, List.flatMap_congr heach,
    ← List.map_flatMap, List.flatMap_id', flatten_blocksOf hb]

/-- What has room if the records can be counted. -/
theorem FinishedCorpus.Compressed.fits (h : d.Compressed stream zstd corpus history)
    (hb : 0 < blockSize) (hrecords : ∀ r ∈ records, Storable r)
    (hbuild : EncodingCorpus.build blockSize true true records = .ok corpus)
    (hcount : records.length < 2 ^ 32) (hdictionary : d.dictionary.length < 2 ^ 32) : d.Fits := by
  refine ⟨hdictionary, ?_⟩
  have hlength := congrArg List.length (build_streams hb hrecords hbuild).1
  rw [List.length_map] at hlength
  have hle := length_blocksOf_le blockSize records
  rw [h.blocks.length_eq, hlength]
  omega

theorem loadSnapshotFile_written (htransfer : Transfers transfer) (hfile : file.bytes = d.file)
    (hfits : d.Fits) (hb : 0 < blockSize) (hrecords : ∀ r ∈ records, Storable r)
    (hbuild : EncodingCorpus.build blockSize true true records = .ok corpus)
    (hcount : records.length < 2 ^ 31) (hwritten : d.Compressed stream zstd corpus history)
    (hsize : ∀ block ∈ corpus.filenameBlocks, block.length ≤ 1 <<< 30) :
    (loadSnapshotFile stream advancing zstd transfer file d.header).result =
      some (.ok ⟨sortedSnapshot (records.map (·.path)) (records.map (·.metadata.canonical)),
        parseConfBlock d.confBlock {}⟩) := by
  have hsection {k : ℕ} {data : Str} (hk : d.sections[k]? = some data) :
      StandsAt file.bytes (d.start k) data := hfile ▸ FinishedCorpus.standsAt_section hk
  have hmetadata : (readBlob transfer file d.header.metadataOffsetBytes
      d.header.metadataLengthBytes).result = some d.metadata :=
    readBlob_section htransfer (hsection (k := 6) rfl)
  have hlength : d.header.metadataLengthBytes ≠ 0 := by
    intro hzero
    have hnat := (toNat_ofNat_of_standsAt (hsection (k := 6) rfl)).2
    change d.header.metadataLengthBytes.toNat = _ at hnat
    rw [hzero] at hnat
    exact hwritten.metadata.1 (List.length_eq_zero_iff.mp hnat.symm)
  have hconf : (readBlob transfer file d.header.confBlockOffsetBytes
      d.header.confBlockLengthBytes).result = some d.confBlock :=
    readBlob_section htransfer (hsection (k := 9) rfl)
  have hindexAt : StandsAt file.bytes (d.start 2) d.filenameIndex := hsection rfl
  have hindex := preadFully_standsAt htransfer hindexAt
  rw [FinishedCorpus.length_filenameIndex, ← hfits.numDocids,
    ← (toNat_ofNat_of_standsAt hindexAt).1] at hindex
  have hdictionary : (readBlob transfer file d.header.zstdDictionaryOffsetBytes
      d.header.zstdDictionaryLengthBytes.toUInt64).result = some d.dictionary := by
    rw [hfits.dictionaryLength]
    exact readBlob_section htransfer (hsection (k := 0) rfl)
  have hblocks := loadBlocks_written htransfer hfile hwritten.blocks hsize
    (List.range d.header.numDocids.toNat) fun k hk => by
      rw [← hfits.numDocids]
      exact List.mem_range.mp hk
  rw [hfits.numDocids, hwritten.blocks.length_eq, flatMap_range_getD,
    paths_of_blocks hb hrecords hbuild] at hblocks
  have hrange : d.header.numDocids.toNat = corpus.filenameBlocks.length :=
    hfits.numDocids.trans hwritten.blocks.length_eq
  rw [loadSnapshotFile, if_neg hlength, Loading.result_bind, hmetadata, Option.bind_some,
    Loading.result_bind]
  change (decompressSection _ _ _).bind _ = _
  rw [decompressSection_decodes hwritten.metadata, Option.bind_some, Loading.result_bind, hconf,
    Option.bind_some, Loading.result_bind]
  change ((preadFully transfer file (8 * (d.header.numDocids.toNat + 1))
    (UInt64.ofNat (d.start 2)).toNat).result.bind _) = _
  rw [hindex, Option.bind_some, Loading.result_bind, hdictionary, Option.bind_some,
    Loading.result_bind, hrange, hblocks, Option.bind_some]
  have hdecode := decodeMetadataStream_flatMap fun r hr => (hrecords r hr).hash
  change some (sortSnapshot _ _ _) = _
  rw [(build_streams hb hrecords hbuild).2.2, hdecode, sortSnapshot_eq]
  rwa [List.length_map]

/-- The history that a run has left, beginning with its first marker. -/
theorem loadHistoryEvents_written (htransfer : Transfers transfer) (hfile : file.bytes = d.file)
    (hwritten : d.Compressed stream zstd corpus history) {marker : HistoryEvent}
    {events : List HistoryEvent} (hhistory : history = marker :: events)
    (hmarker : marker.kind = .runMarker) (hevents : ∀ event ∈ history, event.Recordable) :
    (loadHistoryEvents stream advancing transfer file d.header).result = some history := by
  have hsection : StandsAt file.bytes (d.start 7) d.history :=
    hfile ▸ FinishedCorpus.standsAt_section (k := 7) rfl
  have hdecodes := hwritten.history
  rw [if_neg (hhistory ▸ List.cons_ne_nil _ _)] at hdecodes
  have hblob : (readBlob transfer file d.header.historyOffsetBytes
      d.header.historyLengthBytes).result = some d.history := readBlob_section htransfer hsection
  have hlength : d.header.historyLengthBytes ≠ 0 := by
    intro hzero
    have hnat := (toNat_ofNat_of_standsAt hsection).2
    change d.header.historyLengthBytes.toNat = _ at hnat
    rw [hzero] at hnat
    exact hdecodes.1 (List.length_eq_zero_iff.mp hnat.symm)
  rw [loadHistoryEvents, if_neg hlength, Loading.result_bind, hblob, Option.bind_some,
    Loading.result_bind]
  change (decompressSection _ _ _).bind _ = _
  subst hhistory
  rw [decompressSection_decodes hdecodes, Option.bind_some]
  exact congrArg some (decodeHistoryStream_encodeHistoryStream hmarker hevents)

end Load

def keptOf (records : List FileRecord) : List (Str × FileMetadata) :=
  records.map fun r => (r.path, r.metadata.canonical)

def storedOf (records : List FileRecord) (p : Str) : Option FileMetadata :=
  (keptOf records).lookup p

section Stored

variable {entries : List (Str × FileMetadata)} {records : List FileRecord} {snapshot : Snapshot}

theorem lookup_eq_some_iff (h : (entries.map Prod.fst).Nodup) {p : Str} {m : FileMetadata} :
    entries.lookup p = some m ↔ (p, m) ∈ entries := by
  induction entries with
  | nil => exact iff_of_false (Option.some_ne_none m).symm List.not_mem_nil
  | cons x entries ih =>
      obtain ⟨q, n⟩ := x
      rw [List.map_cons, List.nodup_cons] at h
      rw [List.mem_cons, Prod.mk.injEq]
      by_cases hpq : p = q
      · subst hpq
        have hnot : (p, m) ∉ entries := fun hmem =>
          h.1 (List.mem_map.mpr ⟨(p, m), hmem, rfl⟩)
        rw [List.lookup_cons_self, Option.some.injEq, eq_comm (a := n)]
        exact ⟨fun hmn => Or.inl ⟨rfl, hmn⟩, fun hor => hor.elim And.right (absurd · hnot)⟩
      · rw [lookup_cons_of_ne hpq, ih h.2]
        exact ⟨Or.inr, Or.rec (fun heq => absurd heq.1 hpq) id⟩

/-- A snapshot of the records says what they say. -/
theorem Snapshot.Holds.find (h : snapshot.Holds (keptOf records))
    (hnodup : (records.map (·.path)).Nodup) :
    snapshot.Sorted ∧ snapshot.find = storedOf records := by
  have hsorted : snapshot.Sorted := ⟨h.2.1, h.1⟩
  have hnodup' : ((keptOf records).map Prod.fst).Nodup := by
    rw [keptOf, List.map_map]
    exact hnodup
  refine ⟨hsorted, funext fun p => Option.ext fun m => ?_⟩
  rw [Snapshot.find, hsorted.increasing.lookup_eq_some_iff, storedOf, lookup_eq_some_iff hnodup']
  exact h.2.2.mem_iff

end Stored

/-- A database that a run has written: its records, its history and the sections that hold them. -/
structure SavedDatabase {σ : Type} (stream : StreamDecoder σ) (zstd : Str → Zstd σ) where
  records : List FileRecord
  history : List HistoryEvent
  blockSize : ℕ
  corpus : EncodingCorpus
  finished : FinishedCorpus
  blockSize_pos : 0 < blockSize
  storable : ∀ r ∈ records, Storable r
  nodup : (records.map (·.path)).Nodup
  length_records : records.length < 2 ^ 32
  build : EncodingCorpus.build blockSize true true records = .ok corpus
  compressed : finished.Compressed stream zstd corpus history
  length_dictionary : finished.dictionary.length < 2 ^ 32
  length_block : ∀ block ∈ corpus.filenameBlocks, block.length ≤ 1 <<< 30
  length_file : finished.file.length < 2 ^ 63

namespace SavedDatabase

variable {σ : Type} {stream : StreamDecoder σ} {advancing : stream.Advancing} {zstd : Str → Zstd σ}
  {transfer : ℕ → ℕ → Option ℕ} (w : SavedDatabase stream zstd)

def openFile : OpenFile := ⟨w.finished.file, w.length_file⟩

def entries : List (Str × FileMetadata) := keptOf w.records

def stored (p : Str) : Option FileMetadata := storedOf w.records p

theorem fits : w.finished.Fits :=
  w.compressed.fits w.blockSize_pos w.storable w.build w.length_records w.length_dictionary

theorem readHeader_eq (h : Transfers transfer) :
    (readHeader transfer w.openFile).result = some w.finished.header :=
  readHeader_written h rfl w.fits w.compressed.metadata.1

def snapshot : Snapshot :=
  sortedSnapshot (w.records.map (·.path)) (w.records.map (·.metadata.canonical))

theorem loadSnapshotFile_eq (h : Transfers transfer) (hcount : w.records.length < 2 ^ 31) :
    (loadSnapshotFile stream advancing zstd transfer w.openFile w.finished.header).result =
      some (.ok ⟨w.snapshot, parseConfBlock w.finished.confBlock {}⟩) :=
  loadSnapshotFile_written h rfl w.fits w.blockSize_pos w.storable w.build hcount w.compressed
    w.length_block

/-- The snapshot has the paths in order, each with what is kept of its metadata. -/
theorem holds_snapshot : w.snapshot.Holds w.entries := by
  have hspec := sortedSnapshot_spec (w.records.map (·.path))
    (w.records.map (·.metadata.canonical)) (by simp)
    (by rw [List.length_map]; exact w.length_records) w.nodup
  rwa [List.zip_map'] at hspec

/-- A snapshot of the database says what is stored. -/
theorem find_eq {snapshot : Snapshot} (h : snapshot.Holds w.entries) :
    snapshot.Sorted ∧ snapshot.find = w.stored := Snapshot.Holds.find h w.nodup

end SavedDatabase

section RawFrames

variable {records : List FileRecord} {history : List HistoryEvent} {confBlock : Str}

theorem numDocids_emptySlots :
    ∀ slot ∈ List.replicate 18 emptySlot, slot.numDocids ≠ 0 → ([] : Str) ≠ [] := by
  intro slot hslot hnum
  rw [(List.mem_replicate.mp hslot).2] at hnum
  exact absurd rfl hnum

/-- The sections of records that are stored in frames of uncompressed bytes, one block for each,
without an index. -/
def rawSections (records : List FileRecord) (history : List HistoryEvent) (confBlock : Str) :
    FinishedCorpus where
  blocks := (blocksOf 1 records).map fun b => rawFrame (joinNul (b.map (·.path)))
  getPlBuilder _ := ⟨0, []⟩
  htSize := 1
  hashtable := List.replicate 18 emptySlot
  directoryData := rawFrame (records.flatMap FileRecord.dirTimeBytes)
  metadata := rawFrame (records.flatMap FileRecord.metadataBytes)
  history := if history = [] then [] else rawFrame (encodeHistoryStream history)
  confBlock := confBlock
  block_ne_nil := by
    intro block hblock
    obtain ⟨b, -, rfl⟩ := List.mem_map.mp hblock
    exact List.cons_ne_nil _ _
  hashtable_ne_nil := List.cons_ne_nil _ _
  encoded_ne_nil := numDocids_emptySlots

theorem length_block_one (hpaths : ∀ r ∈ records, r.path.length < 256) {b : List FileRecord}
    (hb : b ∈ blocksOf 1 records) : (joinNul (b.map (·.path))).length < 256 := by
  have hlength : b.length ≤ 1 := length_le_of_mem_blocksOf hb
  match b, hb, hlength with
  | [], _, _ => decide
  | [r], hb, _ => exact hpaths r (mem_of_mem_blocksOf hb List.mem_cons_self)

theorem compressed_rawSections (hrecords : ∀ r ∈ records, Storable r)
    (hpaths : ∀ r ∈ records, r.path.length < 256) {corpus : EncodingCorpus}
    (hbuild : EncodingCorpus.build 1 true true records = .ok corpus) :
    (rawSections records history confBlock).Compressed rawStream (fun _ => rawZstd) corpus
      history := by
  obtain ⟨hblocks, htimes, hmetadata⟩ := build_streams Nat.one_pos hrecords hbuild
  refine ⟨?_, htimes ▸ decodes_rawFrame _, hmetadata ▸ decodes_rawFrame _, ?_⟩
  · rw [hblocks]
    change List.Forall₂ _ ((blocksOf 1 records).map _) _
    rw [List.forall₂_map_left_iff, List.forall₂_map_right_iff, List.forall₂_same]
    exact fun b hb => losslessBlock_rawFrame (length_block_one hpaths hb)
  · split
    · rename_i hnil
      exact if_pos hnil
    · rename_i hne
      have hhistory : (rawSections records history confBlock).history =
          rawFrame (encodeHistoryStream history) := if_neg hne
      exact hhistory ▸ decodes_rawFrame _

theorem exists_savedDatabase (history : List HistoryEvent) (confBlock : Str)
    (hrecords : ∀ r ∈ records, Storable r)
    (hnodup : (records.map (·.path)).Nodup) (hcount : records.length ≤ 2 ^ 28)
    (hpaths : ∀ r ∈ records, r.path.length < 256)
    (hfile : (rawSections records history confBlock).file.length < 2 ^ 63) :
    ∃ w : SavedDatabase rawStream fun _ => rawZstd,
      w.records = records ∧ w.history = history ∧ w.finished.confBlock = confBlock := by
  obtain ⟨corpus, hbuild⟩ :=
    build_ok Nat.one_pos true true (fun r hr => (hrecords r hr).name) hcount
  refine ⟨{
    records := records
    history := history
    blockSize := 1
    corpus := corpus
    finished := rawSections records history confBlock
    blockSize_pos := Nat.one_pos
    storable := hrecords
    nodup := hnodup
    length_records := hcount.trans_lt (by decide)
    build := hbuild
    compressed := compressed_rawSections hrecords hpaths hbuild
    length_dictionary := Nat.two_pow_pos 32
    length_block := ?_
    length_file := hfile }, rfl, rfl, rfl⟩
  rw [(build_streams Nat.one_pos hrecords hbuild).1]
  intro block hblock
  obtain ⟨b, hb, rfl⟩ := List.mem_map.mp hblock
  exact (length_block_one hpaths hb).le.trans (by decide)

end RawFrames

end Flocate
