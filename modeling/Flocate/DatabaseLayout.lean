import Flocate.DatabaseFile
import Flocate.Lib.Pieces

/-!
# The layout of a database file

A database that is written without failures is a header and ten sections behind it, one after the
other, and the header has the place of every section.
-/

namespace Flocate

open Bytes Stdio Pieces

/-- Where the filename blocks start if the first one starts at `pos`. -/
def blockOffsets (pos : ℕ) : List Str → List ℕ
  | [] => []
  | block :: blocks => pos :: blockOffsets (pos + block.length) blocks

namespace FinishedCorpus

variable (d : FinishedCorpus)

/-- The filename index, which has the end of the last block as well. -/
def filenameIndex : Str :=
  (blockOffsets (DatabaseHeader.size + d.dictionary.length) d.blocks ++
    [DatabaseHeader.size + d.dictionary.length + d.blocks.flatten.length]).flatMap (leBytes 8)

def tableStart : ℕ :=
  DatabaseHeader.size + d.dictionary.length + d.blocks.flatten.length + d.filenameIndex.length

def offsetTable : List Trigram :=
  assignOffsets d.getPlBuilder (d.tableStart + d.hashtable.length * 16) d.hashtable

def sections : List Str :=
  [d.dictionary, d.blocks.flatten, d.filenameIndex, d.offsetTable.flatMap Trigram.toBytes,
    d.offsetTable.flatMap (slotList d.getPlBuilder), d.directoryData, d.metadata, d.history,
    d.nextDictionary, d.confBlock]

def start (k : ℕ) : ℕ := DatabaseHeader.size + ((d.sections.take k).flatten).length

end FinishedCorpus

/-- The header of the file. A section that is empty has no offset. -/
def FinishedCorpus.header (d : FinishedCorpus) : DatabaseHeader where
  version := 2
  hashtableSize := d.htSize
  extraHtSlots := numOverflowSlots
  numDocids := UInt32.ofNat d.blocks.length
  hashTableOffsetBytes := UInt64.ofNat (d.start 3)
  filenameIndexOffsetBytes := UInt64.ofNat (d.start 2)
  maxVersion := 3
  zstdDictionaryLengthBytes := (UInt64.ofNat d.dictionary.length).toUInt32
  zstdDictionaryOffsetBytes := if d.dictionary = [] then 0 else UInt64.ofNat (d.start 0)
  directoryDataLengthBytes := UInt64.ofNat d.directoryData.length
  directoryDataOffsetBytes := if d.directoryData = [] then 0 else UInt64.ofNat (d.start 5)
  nextZstdDictionaryLengthBytes := UInt64.ofNat d.nextDictionary.length
  nextZstdDictionaryOffsetBytes := if d.nextDictionary = [] then 0 else UInt64.ofNat (d.start 8)
  confBlockLengthBytes := UInt64.ofNat d.confBlock.length
  confBlockOffsetBytes := if d.confBlock = [] then 0 else UInt64.ofNat (d.start 9)
  metadataLengthBytes := UInt64.ofNat d.metadata.length
  metadataOffsetBytes := if d.metadata = [] then 0 else UInt64.ofNat (d.start 6)
  historyLengthBytes := UInt64.ofNat d.history.length
  historyOffsetBytes := if d.history = [] then 0 else UInt64.ofNat (d.start 7)
  metadataFlags := if d.metadata = [] then 0 else DatabaseHeader.metadataFlagPosixV2
  checkVisibility := d.checkVisibility

attribute [ext] DatabaseHeader

namespace DatabaseBuilder

/-- The bytes that are in the file or will be. -/
def text (b : DatabaseBuilder) : Str := b.outfp.contents.map Prod.snd

/-- Every write has been made at the end, and these are the bytes that have been written. -/
structure Wrote (b : DatabaseBuilder) (text : Str) : Prop where
  appending : b.outfp.Appending
  text : b.text = text

variable {b : DatabaseBuilder} {text : Str}

theorem Wrote.ftell (h : b.Wrote text) : b.outfp.ftell = text.length := by
  rw [h.appending.ftell_eq, ← h.text, DatabaseBuilder.text, List.length_map]

theorem Wrote.fwrite (h : b.Wrote text) (hdr : DatabaseHeader) (call : Call) (data : Str) :
    (fwrite (fun _ => .ok) { b with hdr := hdr } call data).Wrote (text ++ data) where
  appending := h.appending.fwrite _ _
  text := by
    rw [DatabaseBuilder.text, contents_fwrite_ok _ call data rfl, List.map_append, List.map_map,
      ← h.text]
    exact congrArg _ (List.map_id data)

theorem hdr_writeSection (h : b.Wrote text)
    (set : DatabaseHeader → UInt64 → UInt64 → DatabaseHeader) (call : Call) (data : Str) :
    (writeSection (fun _ => .ok) set call data b).hdr = if data = [] then b.hdr
      else set b.hdr (UInt64.ofNat text.length) (UInt64.ofNat data.length) := by
  rw [writeSection, h.ftell]
  split <;> rfl

theorem Wrote.writeSection (h : b.Wrote text)
    (set : DatabaseHeader → UInt64 → UInt64 → DatabaseHeader) (call : Call) (data : Str) :
    (writeSection (fun _ => .ok) set call data b).Wrote (text ++ data) := by
  unfold DatabaseBuilder.writeSection
  split
  · rename_i hdata
    rwa [hdata, List.append_nil]
  · exact h.fwrite _ call data

theorem writeBlocks_wrote (h : b.Wrote text) (blocks : List Str) (docid : ℕ) :
    ∃ c : DatabaseBuilder, writeBlocks (fun _ => .ok) blocks docid text.length b =
      some (c, blockOffsets text.length blocks) ∧ c.hdr = b.hdr ∧
        c.Wrote (text ++ blocks.flatten) := by
  induction blocks generalizing docid b text with
  | nil => exact ⟨b, rfl, rfl, by rwa [List.flatten_nil, List.append_nil]⟩
  | cons block blocks ih =>
      have hblock := h.fwrite b.hdr (.block docid) block
      obtain ⟨c, hc, hhdr, hwrote⟩ := ih hblock (docid + 1)
      rw [List.length_append] at hc
      refine ⟨c, ?_, hhdr, ?_⟩
      · unfold writeBlocks
        simp only [ne_eq, not_true_eq_false, if_false]
        exact (congrArg _ hc).trans rfl
      · rwa [List.flatten_cons, ← List.append_assoc]

theorem writePostingLists_wrote (h : b.Wrote text) (getPlBuilder : UInt32 → FinishedList)
    (slots : List Trigram) (i : ℕ) :
    (writePostingLists (fun _ => .ok) getPlBuilder slots i b).hdr = b.hdr ∧
      (writePostingLists (fun _ => .ok) getPlBuilder slots i b).Wrote
        (text ++ slots.flatMap (slotList getPlBuilder)) := by
  induction slots generalizing i b text with
  | nil => exact ⟨rfl, by rwa [List.flatMap_nil, List.append_nil]⟩
  | cons slot slots ih =>
      rw [writePostingLists, List.flatMap_cons, ← List.append_assoc, slotList]
      split
      · rw [List.append_nil]
        exact ih h (i + 1)
      · exact ih (h.fwrite b.hdr (.postingList i) _) (i + 1)

theorem writeFilenameIndex_wrote (h : b.Wrote text) (offsets : List ℕ) :
    (writeFilenameIndex (fun _ => .ok) offsets b).Wrote
        (text ++ (offsets ++ [text.length]).flatMap (leBytes 8)) ∧
      (writeFilenameIndex (fun _ => .ok) offsets b).hdr = { b.hdr with
        numDocids := UInt32.ofNat offsets.length
        filenameIndexOffsetBytes := UInt64.ofNat text.length } := by
  have hwrote := h.fwrite { b.hdr with
    numDocids := UInt32.ofNat offsets.length
    filenameIndexOffsetBytes := UInt64.ofNat text.length } .filenameIndex
    ((offsets ++ [text.length]).flatMap (leBytes 8))
  rw [← h.ftell] at hwrote ⊢
  exact ⟨hwrote, rfl⟩

theorem writeTables_wrote (h : b.Wrote text) (d : FinishedCorpus) :
    let table := assignOffsets d.getPlBuilder (text.length + d.hashtable.length * 16) d.hashtable
    (writeTables (fun _ => .ok) d b).Wrote (text ++ table.flatMap Trigram.toBytes ++
        table.flatMap (slotList d.getPlBuilder)) ∧
      (writeTables (fun _ => .ok) d b).hdr = { b.hdr with
        hashTableOffsetBytes := UInt64.ofNat text.length
        hashtableSize := d.htSize } := by
  intro table
  have hwrote := h.fwrite { b.hdr with
    hashTableOffsetBytes := UInt64.ofNat text.length
    hashtableSize := d.htSize } .hashTable (table.flatMap Trigram.toBytes)
  obtain ⟨hhdr, hlists⟩ := writePostingLists_wrote hwrote d.getPlBuilder table 0
  have htables : writeTables (fun _ => .ok) d b = writePostingLists (fun _ => .ok) d.getPlBuilder
      table 0 (fwrite (fun _ => .ok) { b with hdr := { b.hdr with
        hashTableOffsetBytes := UInt64.ofNat text.length
        hashtableSize := d.htSize } } .hashTable (table.flatMap Trigram.toBytes)) := by
    unfold writeTables
    rw [h.ftell]
  rw [htables]
  exact ⟨hlists, hhdr⟩

/-- The header after the last sections. -/
theorem hdr_writeSections (h : b.Wrote text) (d : FinishedCorpus) :
    (writeSections (fun _ => .ok) d b).Wrote (text ++ d.directoryData ++ d.metadata ++ d.history ++
        d.nextDictionary ++ d.confBlock) ∧
      (writeSections (fun _ => .ok) d b).hdr =
        let hdr := if d.directoryData = [] then b.hdr else { b.hdr with
          directoryDataOffsetBytes := UInt64.ofNat text.length
          directoryDataLengthBytes := UInt64.ofNat d.directoryData.length }
        let text := text ++ d.directoryData
        let hdr := if d.metadata = [] then hdr else { hdr with
          metadataOffsetBytes := UInt64.ofNat text.length
          metadataLengthBytes := UInt64.ofNat d.metadata.length
          metadataFlags := DatabaseHeader.metadataFlagPosixV2 }
        let text := text ++ d.metadata
        let hdr := if d.history = [] then hdr else { hdr with
          historyOffsetBytes := UInt64.ofNat text.length
          historyLengthBytes := UInt64.ofNat d.history.length }
        let text := text ++ d.history
        let hdr := if d.nextDictionary = [] then hdr else { hdr with
          nextZstdDictionaryOffsetBytes := UInt64.ofNat text.length
          nextZstdDictionaryLengthBytes := UInt64.ofNat d.nextDictionary.length }
        let text := text ++ d.nextDictionary
        if d.confBlock = [] then hdr else { hdr with
          confBlockOffsetBytes := UInt64.ofNat text.length
          confBlockLengthBytes := UInt64.ofNat d.confBlock.length } := by
  have hdirectory := h.writeSection (fun hdr offset len => { hdr with
    directoryDataOffsetBytes := offset
    directoryDataLengthBytes := len }) .directoryData d.directoryData
  have hmetadata := hdirectory.writeSection (fun hdr offset len => { hdr with
    metadataOffsetBytes := offset
    metadataLengthBytes := len
    metadataFlags := DatabaseHeader.metadataFlagPosixV2 }) .metadata d.metadata
  have hhistory := hmetadata.writeSection (fun hdr offset len => { hdr with
    historyOffsetBytes := offset
    historyLengthBytes := len }) .history d.history
  have hnext := hhistory.writeSection (fun hdr offset len => { hdr with
    nextZstdDictionaryOffsetBytes := offset
    nextZstdDictionaryLengthBytes := len }) .nextDictionary d.nextDictionary
  have hconf := hnext.writeSection (fun hdr offset len => { hdr with
    confBlockOffsetBytes := offset
    confBlockLengthBytes := len }) .confBlock d.confBlock
  refine ⟨hconf, ?_⟩
  unfold writeSections
  rw [hdr_writeSection hnext, hdr_writeSection hhistory, hdr_writeSection hmetadata,
    hdr_writeSection hdirectory, hdr_writeSection h]

/-- The constructor. -/
theorem create_wrote (dictionary : Str) (checkVisibility : Bool) :
    (create (fun _ => .ok) dictionary checkVisibility).Wrote
        ((DatabaseHeader.initial checkVisibility).toBytes ++ dictionary) ∧
      (create (fun _ => .ok) dictionary checkVisibility).hdr =
        if dictionary = [] then { DatabaseHeader.initial checkVisibility with
          zstdDictionaryOffsetBytes := 0
          zstdDictionaryLengthBytes := 0 }
        else { DatabaseHeader.initial checkVisibility with
          zstdDictionaryOffsetBytes := UInt64.ofNat DatabaseHeader.size
          zstdDictionaryLengthBytes := (UInt64.ofNat dictionary.length).toUInt32 } := by
  have hheader (hdr hdr' : DatabaseHeader) (data : Str) :
      DatabaseBuilder.Wrote { fwrite (fun _ => .ok) { hdr := hdr } .header data with hdr := hdr' }
        data := by
    have hempty : DatabaseBuilder.Wrote { hdr := hdr } [] := ⟨rfl, rfl⟩
    have hwrote := hempty.fwrite hdr .header data
    exact ⟨hwrote.appending, hwrote.text⟩
  have hready := hheader (.initial checkVisibility) { DatabaseHeader.initial checkVisibility with
    zstdDictionaryOffsetBytes := 0
    zstdDictionaryLengthBytes := 0 } (DatabaseHeader.initial checkVisibility).toBytes
  have hwrote := hready.writeSection (fun hdr offset len => { hdr with
    zstdDictionaryOffsetBytes := offset
    zstdDictionaryLengthBytes := len.toUInt32 }) .dictionary dictionary
  have hhdr := hdr_writeSection hready (fun hdr offset len => { hdr with
    zstdDictionaryOffsetBytes := offset
    zstdDictionaryLengthBytes := len.toUInt32 }) .dictionary dictionary
  rw [length_toBytes] at hhdr
  exact ⟨hwrote, hhdr⟩

theorem length_blockOffsets (pos : ℕ) (blocks : List Str) :
    (blockOffsets pos blocks).length = blocks.length := by
  induction blocks generalizing pos with
  | nil => rfl
  | cons block blocks ih => rw [blockOffsets, List.length_cons, ih, List.length_cons]

theorem length_or_zero (data : Str) :
    (if data = [] then 0 else UInt64.ofNat data.length) = UInt64.ofNat data.length := by
  split
  · rename_i hdata
    rw [hdata]
    rfl
  · rfl

/-- Everything in front of the final header. -/
theorem writeBody_wrote (d : FinishedCorpus) : ∃ b : DatabaseBuilder,
    writeBody (fun _ => .ok) d = some b ∧
      b.Wrote ((DatabaseHeader.initial d.checkVisibility).toBytes ++ d.sections.flatten) ∧
      { b.hdr with version := 2 } = d.header := by
  obtain ⟨hcreate, hcreateHdr⟩ := create_wrote d.dictionary d.checkVisibility
  have hheader := length_toBytes (DatabaseHeader.initial d.checkVisibility)
  generalize (DatabaseHeader.initial d.checkVisibility).toBytes = header at hcreate hheader ⊢
  obtain ⟨b, hb, hbHdr, hblocks⟩ := writeBlocks_wrote hcreate d.blocks 0
  obtain ⟨hindex, hindexHdr⟩ := writeFilenameIndex_wrote hblocks
    (blockOffsets (header ++ d.dictionary).length d.blocks)
  obtain ⟨htables, htablesHdr⟩ := writeTables_wrote hindex d
  obtain ⟨hsections, hsectionsHdr⟩ := hdr_writeSections htables d
  rw [htablesHdr, hindexHdr, hbHdr, hcreateHdr] at hsectionsHdr
  generalize htables' : writeTables (fun _ => .ok) d _ = tables at hsections hsectionsHdr
  have hbody : writeBody (fun _ => .ok) d = some (writeSections (fun _ => .ok) d tables) := by
    unfold writeBody
    dsimp only
    rw [hcreate.ftell, hb, ← htables']
    rfl
  have hdictionary : (header ++ d.dictionary).length =
      DatabaseHeader.size + d.dictionary.length := by rw [List.length_append, hheader]
  have hblocksEnd : (header ++ d.dictionary ++ d.blocks.flatten).length =
      DatabaseHeader.size + d.dictionary.length + d.blocks.flatten.length := by
    rw [List.length_append, hdictionary]
  have hindexEq : (blockOffsets (header ++ d.dictionary).length d.blocks ++
      [(header ++ d.dictionary ++ d.blocks.flatten).length]).flatMap (leBytes 8) =
        d.filenameIndex := by
    rw [hdictionary, hblocksEnd, FinishedCorpus.filenameIndex]
  rw [hindexEq] at hsections hsectionsHdr
  have hindexEnd : (header ++ d.dictionary ++ d.blocks.flatten ++ d.filenameIndex).length =
      d.tableStart := by
    rw [List.length_append, hblocksEnd, FinishedCorpus.tableStart]
  have htable : assignOffsets d.getPlBuilder ((header ++ d.dictionary ++ d.blocks.flatten ++
      d.filenameIndex).length + d.hashtable.length * 16) d.hashtable = d.offsetTable := by
    rw [hindexEnd, FinishedCorpus.offsetTable]
  rw [htable] at hsections hsectionsHdr
  refine ⟨_, hbody, ?_, ?_⟩
  · have htext : header ++ d.sections.flatten = header ++ d.dictionary ++ d.blocks.flatten ++
        d.filenameIndex ++ d.offsetTable.flatMap Trigram.toBytes ++
        d.offsetTable.flatMap (slotList d.getPlBuilder) ++ d.directoryData ++ d.metadata ++
        d.history ++ d.nextDictionary ++ d.confBlock := by
      simp only [FinishedCorpus.sections, List.flatten_cons, List.flatten_nil, List.append_nil,
        List.append_assoc]
    rw [htext]
    exact hsections
  · have hstart : (header ++ d.dictionary ++ d.blocks.flatten).length = d.start 2 ∧
        (header ++ d.dictionary ++ d.blocks.flatten ++ d.filenameIndex).length = d.start 3 ∧
        (header ++ d.dictionary ++ d.blocks.flatten ++ d.filenameIndex ++
          d.offsetTable.flatMap Trigram.toBytes ++
          d.offsetTable.flatMap (slotList d.getPlBuilder)).length = d.start 5 ∧
        d.start 6 = d.start 5 + d.directoryData.length ∧
        d.start 7 = d.start 6 + d.metadata.length ∧ d.start 8 = d.start 7 + d.history.length ∧
        d.start 9 = d.start 8 + d.nextDictionary.length := by
      simp only [FinishedCorpus.start, FinishedCorpus.sections, List.length_append, hheader,
        List.take_succ_cons, List.take_zero, List.flatten_cons, List.flatten_nil, List.length_nil]
      omega
    obtain ⟨h2, h3, h5, h6, h7, h8, h9⟩ := hstart
    simp only [hdictionary, List.length_append] at h2 h3 h5 hsectionsHdr
    rw [hsectionsHdr]
    apply DatabaseHeader.ext
    · simp only [apply_ite DatabaseHeader.magic, ite_self]
      rfl
    · rfl
    · simp only [apply_ite DatabaseHeader.hashtableSize, ite_self]
      rfl
    · simp only [apply_ite DatabaseHeader.extraHtSlots, ite_self]
      rfl
    · simp only [apply_ite DatabaseHeader.numDocids, ite_self, length_blockOffsets]
      rfl
    · simp only [apply_ite DatabaseHeader.hashTableOffsetBytes, ite_self]
      exact congrArg UInt64.ofNat (by omega)
    · simp only [apply_ite DatabaseHeader.filenameIndexOffsetBytes, ite_self]
      exact congrArg UInt64.ofNat (by omega)
    · simp only [apply_ite DatabaseHeader.maxVersion, ite_self]
      rfl
    · simp only [apply_ite DatabaseHeader.zstdDictionaryLengthBytes, ite_self]
      exact (apply_ite UInt64.toUInt32 _ _ _).symm.trans (congrArg _ (length_or_zero _))
    · simp only [apply_ite DatabaseHeader.zstdDictionaryOffsetBytes, ite_self]
      rfl
    · simp only [apply_ite DatabaseHeader.directoryDataLengthBytes, ite_self]
      exact length_or_zero _
    · simp only [apply_ite DatabaseHeader.directoryDataOffsetBytes, ite_self]
      exact if_congr Iff.rfl rfl (congrArg UInt64.ofNat (by omega))
    · simp only [apply_ite DatabaseHeader.nextZstdDictionaryLengthBytes, ite_self]
      exact length_or_zero _
    · simp only [apply_ite DatabaseHeader.nextZstdDictionaryOffsetBytes, ite_self]
      exact if_congr Iff.rfl rfl (congrArg UInt64.ofNat (by omega))
    · simp only [apply_ite DatabaseHeader.confBlockLengthBytes, ite_self]
      exact length_or_zero _
    · simp only [apply_ite DatabaseHeader.confBlockOffsetBytes, ite_self]
      exact if_congr Iff.rfl rfl (congrArg UInt64.ofNat (by omega))
    · simp only [apply_ite DatabaseHeader.metadataLengthBytes, ite_self]
      exact length_or_zero _
    · simp only [apply_ite DatabaseHeader.metadataOffsetBytes, ite_self]
      exact if_congr Iff.rfl rfl (congrArg UInt64.ofNat (by omega))
    · simp only [apply_ite DatabaseHeader.historyLengthBytes, ite_self]
      exact length_or_zero _
    · simp only [apply_ite DatabaseHeader.historyOffsetBytes, ite_self]
      exact if_congr Iff.rfl rfl (congrArg UInt64.ofNat (by omega))
    · simp only [apply_ite DatabaseHeader.metadataFlags, ite_self]
      rfl
    · simp only [apply_ite DatabaseHeader.checkVisibility, ite_self]
      rfl

end DatabaseBuilder

namespace FinishedCorpus

open DatabaseBuilder

variable (d : FinishedCorpus)

/-- A complete database is its header and the sections. -/
theorem file_layout : d.file = d.header.toBytes ++ d.sections.flatten := by
  obtain ⟨b, hb, hwrote, hheader⟩ := writeBody_wrote d
  have hlength := length_toBytes (DatabaseHeader.initial d.checkVisibility)
  have hcontents := congrArg List.length hwrote.text
  rw [text, List.length_map, List.length_append, hlength] at hcontents
  have hdatabase : d.database = b.writeHeader fun _ => .ok := by
    unfold database
    rw [hb]
  rw [file, hdatabase, (length_writeHeader_ok hwrote.appending (by omega)).1, List.map_append,
    map_snd_finalCells, hheader, List.map_drop]
  change _ ++ b.text.drop DatabaseHeader.size = _
  rw [hwrote.text, ← hlength, List.drop_left]

def blockStart (k : ℕ) : ℕ :=
  DatabaseHeader.size + d.dictionary.length + (d.blocks.take k).flatten.length

variable {d} {k : ℕ} {data : Str}

/-- A section is where it starts. -/
theorem standsAt_section (h : d.sections[k]? = some data) : StandsAt d.file (d.start k) data := by
  have hsections : StandsAt d.file DatabaseHeader.size d.sections.flatten := by
    refine ⟨d.header.toBytes, [], ?_, length_toBytes _⟩
    rw [List.append_nil, file_layout]
  exact hsections.piece h

theorem standsAt_header : StandsAt d.file 0 d.header.toBytes := by
  refine ⟨[], d.sections.flatten, ?_, rfl⟩
  rw [List.nil_append, file_layout]

/-- A filename block is where it starts. -/
theorem standsAt_block (h : d.blocks[k]? = some data) : StandsAt d.file (d.blockStart k) data := by
  have hblocks : StandsAt d.file (d.start 1) d.blocks.flatten := standsAt_section rfl
  have hstart : d.start 1 = DatabaseHeader.size + d.dictionary.length := by
    rw [start, sections, List.take_succ_cons, List.take_zero, List.flatten_cons, List.flatten_nil,
      List.append_nil]
  rw [hstart] at hblocks
  exact hblocks.piece h

theorem blockOffsets_append (pos : ℕ) (blocks : List Str) :
    blockOffsets pos blocks ++ [pos + blocks.flatten.length] =
      (List.range (blocks.length + 1)).map fun k => pos + (blocks.take k).flatten.length := by
  induction blocks generalizing pos with
  | nil => rfl
  | cons block blocks ih =>
      have htail := ih (pos + block.length)
      rw [List.length_cons, List.range_succ_eq_map, List.map_cons, List.map_map]
      rw [blockOffsets, List.cons_append, List.flatten_cons, List.length_append, ← Nat.add_assoc,
        htail]
      congr 1
      refine List.map_congr_left fun k _ => ?_
      rw [Function.comp_apply, List.take_succ_cons, List.flatten_cons, List.length_append,
        Nat.add_assoc]

/-- The filename index has the places of the blocks. -/
theorem filenameIndex_eq :
    d.filenameIndex =
      ((List.range (d.blocks.length + 1)).map d.blockStart).flatMap (leBytes 8) := by
  rw [filenameIndex, blockOffsets_append]
  rfl

theorem blockStart_succ (h : d.blocks[k]? = some data) :
    d.blockStart (k + 1) = d.blockStart k + data.length := by
  obtain ⟨hk, rfl⟩ := List.getElem?_eq_some_iff.mp h
  rw [blockStart, blockStart, List.take_add_one, List.getElem?_eq_getElem hk, Option.toList_some,
    List.flatten_append, List.length_append, List.flatten_cons, List.flatten_nil, List.append_nil]
  omega

theorem length_filenameIndex : d.filenameIndex.length = 8 * (d.blocks.length + 1) := by
  rw [filenameIndex_eq, List.length_flatMap]
  simp only [length_leBytes, List.map_map, List.map_const', List.sum_replicate_nat,
    List.length_range, Function.comp_def]
  exact Nat.mul_comm _ _

end FinishedCorpus

end Flocate
