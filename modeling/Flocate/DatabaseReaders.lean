import Flocate.SnapshotRecords

/-!
# The readers of a database invert its writer

Both readers return what the records keep of the metadata. Frames of a single uncompressed block
show that the assumptions on zstd can be met.
-/

namespace Flocate

open Bytes ExistingDB

/-- Both readers give back the records, and the old database an empty path behind the last one. -/
theorem readers_invert {σ : Type} {zstd : Zstd σ} {db : Database} {blockSize : ℕ}
    {records : List FileRecord} {corpus : EncodingCorpus} (hb : 0 < blockSize)
    (hrecords : ∀ r ∈ records, Storable r) (hnodup : (records.map (·.path)).Nodup)
    (hcount : (blocksOf blockSize records).length < 2 ^ 32)
    (hbuild : EncodingCorpus.build blockSize true true records = .ok corpus)
    (hstores : Stores zstd db corpus) :
    ∀ fuel, rounds db corpus ≤ fuel →
      (∀ n, ∃ last, readMany zstd db fuel (records.length + n) (ofDatabase zstd db) =
        some (records.map (fun r => (r.path, r.dirTimestamp, r.metadata.canonical)) ++
          List.replicate n ([], notADir, last))) ∧
      ((∀ block ∈ corpus.filenameBlocks, block.length ≤ 1 <<< 30) → records.length < 2 ^ 31 →
        ∃ snapshot, loadSnapshot zstd db fuel = some (.ok (some snapshot)) ∧
          snapshot.Holds (records.map fun r => (r.path, r.metadata.canonical))) := by
  intro fuel hfuel
  refine ⟨readMany_ofDatabase hb hrecords hbuild hcount hstores hfuel, fun hsize hfew => ?_⟩
  refine ⟨_, loadSnapshot_eq hb hrecords hbuild hfew hstores hfuel hsize, ?_⟩
  have hspec := sortedSnapshot_spec (records.map (·.path))
    (records.map (·.metadata.canonical)) (by simp) (by rw [List.length_map]; omega) hnodup
  rwa [List.zip_map'] at hspec

section RawFrames

/-- A frame of one uncompressed block: magic number, frame header, block header, content. -/
def rawFrame (content : Str) : Str :=
  [0x28, 0xB5, 0x2F, 0xFD, 0x20, UInt8.ofNat content.length] ++
    leBytes 3 (8 * content.length + 1) ++ content

/-- Skips the headers and copies the content. The state counts the bytes of the frame. -/
def rawStream : StreamDecoder ℕ where
  init := 0
  call s input room :=
    let header := min (9 - s) input.length
    let out := (input.drop header).take room
    some (header + out.length, out, s + header + out.length)

def rawZstd : Zstd ℕ where
  contentSize compressed := (compressed[5]?).map (·.toNat)
  decompress compressed room :=
    if (compressed.drop 9).length ≤ room then some (compressed.drop 9) else none
  stream := rawStream

theorem length_rawFrame (content : Str) : (rawFrame content).length = 9 + content.length := by
  simp [rawFrame]
  omega

theorem drop_rawFrame (content : Str) : (rawFrame content).drop 9 = content := by
  rw [rawFrame]
  exact List.drop_left' (by simp)

theorem losslessBlock_rawFrame {content : Str} (h : content.length < 256) :
    rawZstd.LosslessBlock (rawFrame content) content where
  contentSize := by
    change some (UInt8.ofNat content.length).toNat = some content.length
    rw [UInt8.toNat_ofNat', Nat.mod_eq_of_lt h]
  decompress room hroom := by
    change (if ((rawFrame content).drop 9).length ≤ room then _ else _) = _
    rw [drop_rawFrame, if_pos hroom]

theorem keeps_rawFrame (content : Str) :
    rawStream.Keeps (rawFrame content) content fun s i o _ => s = i ∧ o = i - 9 where
  init := ⟨rfl, rfl⟩
  call := by
    rintro s i o idle ⟨rfl, rfl⟩ k room hk hroom -
    rw [length_rawFrame] at hk ⊢
    set input := ((rawFrame content).drop s).take k with hinput
    have hlength : input.length = k := by
      rw [hinput, List.length_take, List.length_drop, length_rawFrame]
      omega
    set header := min (9 - s) input.length with hheader
    have hdrop : input.drop header = (content.drop (s - 9)).take (k - header) := by
      rw [hinput, List.drop_take, List.drop_drop]
      by_cases hshort : s + header < 9
      · have hk0 : k - header = 0 := by omega
        rw [hk0, List.take_zero, List.take_zero]
      · rw [show s + header = 9 + (s - 9) by omega, ← List.drop_drop, drop_rawFrame]
    have hout : (input.drop header).take room <+: content.drop (s - 9) := by
      rw [hdrop]
      exact (List.take_prefix _ _).trans (List.take_prefix _ _)
    have houtlength : ((input.drop header).take room).length = min room (k - header) := by
      rw [List.length_take, List.length_drop, hlength]
    refine ⟨_, _, _, rfl, ?_, ?_, hout, ⟨?_, ?_⟩, fun hend => ⟨fun ho hnil => ?_, fun hpos => ?_⟩⟩
    · change header + ((input.drop header).take room).length ≤ k
      omega
    · change ((input.drop header).take room).length ≤ room
      omega
    · change s + header + ((input.drop header).take room).length =
        s + (header + ((input.drop header).take room).length)
      omega
    · change s - 9 + ((input.drop header).take room).length =
        s + (header + ((input.drop header).take room).length) - 9
      omega
    · change (input.drop header).take room = [] at hnil
      rw [hnil, List.length_nil] at houtlength
      omega
    · left
      change header + ((input.drop header).take room).length ≠ 0
      omega
  finish := by
    rintro s o idle ⟨-, rfl⟩
    rw [length_rawFrame]
    omega

theorem decodes_rawFrame (content : Str) : rawStream.Decodes (rawFrame content) content :=
  ⟨List.ne_nil_of_length_pos (by rw [length_rawFrame]; omega), _, keeps_rawFrame content⟩

def rawDatabase (corpus : EncodingCorpus) : Database where
  numDocids := UInt32.ofNat corpus.filenameBlocks.length
  filenameBlocks := corpus.filenameBlocks.map rawFrame
  directoryData := rawFrame corpus.dirTimes
  metadata := rawFrame corpus.metadataStream

theorem stores_rawDatabase {corpus : EncodingCorpus}
    (h : ∀ block ∈ corpus.filenameBlocks, block.length < 256) :
    Stores rawZstd (rawDatabase corpus) corpus where
  numDocids := rfl
  filenameBlocks := by
    change List.Forall₂ _ (corpus.filenameBlocks.map rawFrame) _
    rw [List.forall₂_map_left_iff, List.forall₂_same]
    exact fun block hblock => losslessBlock_rawFrame (h block hblock)
  directoryData := decodes_rawFrame _
  metadata := decodes_rawFrame _

/-- Records that fit into such frames. -/
theorem exists_stores_rawDatabase {blockSize : ℕ} {records : List FileRecord} (hb : 0 < blockSize)
    (hrecords : ∀ r ∈ records, Storable r) (hcount : records.length ≤ 2 ^ 28)
    (hshort : ∀ b ∈ blocksOf blockSize records, (joinNul (b.map (·.path))).length < 256) :
    ∃ corpus, EncodingCorpus.build blockSize true true records = .ok corpus ∧
      Stores rawZstd (rawDatabase corpus) corpus ∧
      ∀ block ∈ corpus.filenameBlocks, block.length < 256 := by
  obtain ⟨corpus, hbuild⟩ := build_ok hb true true (fun r hr => (hrecords r hr).name) hcount
  have hblocks : ∀ block ∈ corpus.filenameBlocks, block.length < 256 := by
    rw [(build_streams hb hrecords hbuild).1]
    intro block hblock
    obtain ⟨b, hb', rfl⟩ := List.mem_map.mp hblock
    exact hshort b hb'
  exact ⟨corpus, hbuild, stores_rawDatabase hblocks, hblocks⟩

def directoryRecord : FileRecord where
  path := [47, 97]
  dirTimestamp := ⟨5, 7⟩
  metadata := { enabled := true, mode := 0x41ed, size := 4096 }

def fileRecord : FileRecord where
  path := [47, 97, 47, 98]
  dirTimestamp := notADir
  metadata := { mode := 0x81a4 }

theorem storable_records : ∀ r ∈ [directoryRecord, fileRecord], Storable r := by
  rw [List.forall_mem_cons, List.forall_mem_singleton]
  exact ⟨⟨⟨by decide, by decide⟩, by decide, Or.inr (by decide)⟩,
    ⟨⟨by decide, by decide⟩, by decide, Or.inl rfl⟩⟩

theorem exists_stores_records : ∃ corpus,
    EncodingCorpus.build 1 true true [directoryRecord, fileRecord] = .ok corpus ∧
      Stores rawZstd (rawDatabase corpus) corpus ∧
      ∀ block ∈ corpus.filenameBlocks, block.length < 256 :=
  exists_stores_rawDatabase (by decide) storable_records (by decide) (by
    rw [show blocksOf 1 [directoryRecord, fileRecord] = [[directoryRecord], [fileRecord]] by
      decide +kernel]
    decide)

theorem readers_invert_records : ∃ corpus,
    EncodingCorpus.build 1 true true [directoryRecord, fileRecord] = .ok corpus ∧
      ∀ fuel, rounds (rawDatabase corpus) corpus ≤ fuel →
        (∃ last, readMany rawZstd (rawDatabase corpus) fuel 3
          (ofDatabase rawZstd (rawDatabase corpus)) = some [
            ([47, 97], ⟨5, 7⟩, { enabled := true, mode := 0x41ed, size := 4096 }),
            ([47, 97, 47, 98], notADir, {}), ([], notADir, last)]) ∧
        ∃ snapshot, loadSnapshot rawZstd (rawDatabase corpus) fuel = some (.ok (some snapshot)) ∧
          snapshot.Holds [([47, 97], { enabled := true, mode := 0x41ed, size := 4096 }),
            ([47, 97, 47, 98], {})] := by
  obtain ⟨corpus, hbuild, hstores, hblocks⟩ := exists_stores_records
  refine ⟨corpus, hbuild, fun fuel hfuel => ?_⟩
  have hcount : (blocksOf 1 [directoryRecord, fileRecord]).length < 2 ^ 32 :=
    (length_blocksOf_le 1 _).trans_lt (by decide)
  obtain ⟨hread, hload⟩ := readers_invert (by decide) storable_records (by decide) hcount
    hbuild hstores fuel hfuel
  have hcanonical : directoryRecord.metadata.canonical =
      { enabled := true, mode := 0x41ed, size := 4096 } := by decide +kernel
  obtain ⟨last, hlast⟩ := hread 1
  obtain ⟨snapshot, hsnapshot, hholds⟩ :=
    hload (fun block hblock => (hblocks block hblock).le.trans (by decide)) (by decide)
  simp only [List.map_cons, List.map_nil, hcanonical] at hlast hholds
  exact ⟨⟨last, hlast⟩, snapshot, hsnapshot, hholds⟩

/-- Metadata that is not enabled does not come back as it was. -/
theorem not_readers_exact : ¬∀ (zstd : Zstd ℕ) (db : Database) (blockSize : ℕ)
    (records : List FileRecord) (corpus : EncodingCorpus), 0 < blockSize →
    (∀ r ∈ records, Storable r) → (records.map (·.path)).Nodup →
    EncodingCorpus.build blockSize true true records = .ok corpus → Stores zstd db corpus →
    ∃ fuel, rounds db corpus ≤ fuel ∧ readMany zstd db fuel records.length (ofDatabase zstd db) =
      some (records.map fun r => (r.path, r.dirTimestamp, r.metadata)) := by
  intro h
  obtain ⟨corpus, hbuild, hstores, -⟩ := exists_stores_records
  obtain ⟨fuel, hfuel, hexact⟩ := h rawZstd (rawDatabase corpus) 1 _ corpus (by decide)
    storable_records (by decide) hbuild hstores
  have hcount : (blocksOf 1 [directoryRecord, fileRecord]).length < 2 ^ 32 :=
    (length_blocksOf_le 1 _).trans_lt (by decide)
  obtain ⟨last, hread⟩ := readMany_ofDatabase (by decide) storable_records hbuild hcount
    hstores hfuel 0
  rw [List.replicate_zero, List.append_nil] at hread
  have heq := Option.some.inj (hread.symm.trans hexact)
  have hmode := congrArg (fun l => l.map (·.2.2.mode)) heq
  exact absurd hmode (by decide +kernel)

end RawFrames

end Flocate
