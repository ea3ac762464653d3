import Flocate.SavedDatabase
import Flocate.SearchFile

/-!
# The filename blocks of a written database

`flocate` opens what a run has written. A candidate block that it looks up and the blocks that the
linear scan reads in one go are the blocks of the corpus.
-/

namespace Flocate

open Bytes Pieces

theorem getU64_leBytes (n : ℕ) (rest : Str) : getU64 (leBytes 8 n ++ rest) = UInt64.ofNat n := by
  rw [getU64, List.take_left' (length_leBytes 8 _), leNat_leBytes, ← UInt64.toNat_inj,
    UInt64.toNat_ofNat', UInt64.toNat_ofNat']
  exact Nat.mod_mod _ _

theorem submitRead_standsAt {file data : Str} {offset : ℕ} (h : StandsAt file offset data)
    (hne : data ≠ []) : submitRead file data.length offset = some data := by
  rw [submitRead, if_neg fun hlength => hne (List.length_eq_zero_iff.mp hlength),
    tryCompletePread_of_le h.le, h.slice]

theorem tryCompletePread_standsAt {file data : Str} {offset : ℕ} (h : StandsAt file offset data) :
    tryCompletePread file data.length offset = some data := by
  rw [tryCompletePread_of_le h.le, h.slice]

theorem scannedBlock_eq {σ : Type} {zstd : Zstd σ} {compressed content : Str}
    (h : zstd.LosslessBlock compressed content) : scannedBlock zstd compressed = some content := by
  rw [scannedBlock, ExistingDB.readFilenameBlock_eq h, Option.map_some, List.dropLast_concat]

theorem mapM_eq_some {α β : Type} {f : α → Option β} {g : α → β} {l : List α}
    (h : ∀ x ∈ l, f x = some (g x)) : l.mapM f = some (l.map g) := by
  induction l with
  | nil => rfl
  | cons x l ih =>
      rw [List.forall_mem_cons] at h
      rw [List.mapM_cons, h.1, ih h.2]
      rfl

theorem range'_map_getD (contents : List Str) {first n : ℕ} (h : first + n ≤ contents.length) :
    (List.range' first n).map (fun k => contents.getD k []) = (contents.drop first).take n := by
  refine List.ext_getElem ?_ fun i hi hi' => ?_
  · rw [List.length_map, List.length_range', List.length_take, List.length_drop]
    omega
  · rw [List.length_map, List.length_range'] at hi
    rw [List.getElem_map, List.getElem_range', List.getElem_take, List.getElem_drop, Nat.one_mul,
      List.getD_eq_getElem?_getD, List.getElem?_eq_getElem (by omega), Option.getD_some]

namespace SavedDatabase

variable {σ : Type} {stream : StreamDecoder σ} {zstd : Str → Zstd σ}
  (w : SavedDatabase stream zstd)

/-- A written database is accepted, whether its visibility is checked or not. -/
theorem openCorpus_eq (ignoreVisibility : Bool) :
    openCorpus ignoreVisibility w.finished.file =
      some (if ignoreVisibility then { w.finished.header with checkVisibility := false }
        else w.finished.header) := by
  have hheader : StandsAt w.finished.file 0 w.finished.header.toBytes :=
    FinishedCorpus.standsAt_header
  have hread := tryCompletePread_standsAt hheader
  rw [DatabaseBuilder.length_toBytes] at hread
  have hofBytes := DatabaseBuilder.ofBytes_toBytes w.finished.header []
  rw [List.append_nil] at hofBytes
  have hmagic : w.finished.header.magic = magicBytes := rfl
  have hversion : w.finished.header.version = 2 := rfl
  have hmax : w.finished.header.maxVersion = 3 := rfl
  rw [openCorpus, hread]
  generalize w.finished.header = hdr at *
  have hknown : ¬((2 : UInt32) ≠ 0 ∧ (2 : UInt32) ≠ 1 ∧ (2 : UInt32) ≠ 2) := by decide
  have hold : ¬(2 : UInt32) = 0 := by decide
  have hvisibility : ¬(3 : UInt32) < 2 := by decide
  simp only [Option.bind_eq_bind, Option.bind_some, hofBytes, hmagic, hversion, hmax,
    if_neg hknown, if_neg hold, if_neg hvisibility, if_neg (not_not_intro (Eq.refl magicBytes))]

theorem dictionaryIn_eq :
    dictionaryIn w.finished.file w.finished.header = some w.finished.dictionary := by
  have hstands : StandsAt w.finished.file (w.finished.start 0) w.finished.dictionary :=
    FinishedCorpus.standsAt_section rfl
  have hlength : w.finished.header.zstdDictionaryLengthBytes.toNat =
      w.finished.dictionary.length := by
    have hnat := congrArg UInt64.toNat w.fits.dictionaryLength
    have hlt := w.length_dictionary
    rwa [UInt32.toNat_toUInt64, UInt64.toNat_ofNat', Nat.mod_eq_of_lt (by omega)] at hnat
  rw [dictionaryIn]
  split
  · rename_i hzero
    rw [hzero] at hlength
    rw [List.length_eq_zero_iff.mp hlength.symm]
  · rename_i hne
    have hne' : w.finished.dictionary ≠ [] := by
      intro hnil
      rw [hnil] at hlength
      exact hne (UInt32.toNat_inj.mp hlength)
    have hoffset : w.finished.header.zstdDictionaryOffsetBytes.toNat = w.finished.start 0 := by
      have hif : w.finished.header.zstdDictionaryOffsetBytes =
          UInt64.ofNat (w.finished.start 0) := if_neg hne'
      have hle := hstands.le
      have hfile := w.length_file
      rw [hif, UInt64.toNat_ofNat', Nat.mod_eq_of_lt (by omega)]
    rw [hlength, hoffset]
    exact submitRead_standsAt hstands hne'

section Blocks

variable {w} {k : ℕ} {offset : ℕ → UInt64}

theorem start_index_toNat : w.finished.header.filenameIndexOffsetBytes.toNat =
    w.finished.start 2 := by
  have hstands : StandsAt w.finished.file (w.finished.start 2) w.finished.filenameIndex :=
    FinishedCorpus.standsAt_section rfl
  have hle := hstands.le
  have hfile := w.length_file
  change (UInt64.ofNat (w.finished.start 2)).toNat = _
  rw [UInt64.toNat_ofNat', Nat.mod_eq_of_lt (by omega)]

/-- Two neighbouring entries of the filename index. -/
theorem standsAt_entries (hk : k < w.finished.blocks.length) :
    StandsAt w.finished.file (w.finished.start 2 + 8 * k)
      (leBytes 8 (w.finished.blockStart k) ++ leBytes 8 (w.finished.blockStart (k + 1))) := by
  have hindex : StandsAt w.finished.file (w.finished.start 2) w.finished.filenameIndex :=
    FinishedCorpus.standsAt_section rfl
  rw [FinishedCorpus.filenameIndex_eq] at hindex
  have hitems := hindex.items (length_leBytes 8) (k := k)
    (by rw [List.length_map, List.length_range]; omega) 2
  have htwo : (((List.range (w.finished.blocks.length + 1)).map w.finished.blockStart).drop k).take
      2 = [w.finished.blockStart k, w.finished.blockStart (k + 1)] := by
    refine List.ext_getElem ?_ fun i hi hi' => ?_
    · rw [List.length_take, List.length_drop, List.length_map, List.length_range]
      change min 2 _ = 2
      omega
    · rw [List.getElem_take, List.getElem_drop, List.getElem_map, List.getElem_range]
      match i, hi' with
      | 0, _ => rfl
      | 1, _ => rfl
  rwa [htwo, List.flatMap_cons, List.flatMap_singleton] at hitems

theorem blockStart_le {j : ℕ} (hjk : j ≤ k) :
    w.finished.blockStart j ≤ w.finished.blockStart k := by
  have hsplit : (w.finished.blocks.take k).flatten =
      (w.finished.blocks.take j).flatten ++ ((w.finished.blocks.take k).drop j).flatten := by
    rw [← List.flatten_append, ← Nat.min_eq_left hjk, ← List.take_take, Nat.min_eq_left hjk,
      List.take_append_drop]
  rw [FinishedCorpus.blockStart, FinishedCorpus.blockStart, hsplit, List.length_append]
  omega

/-- Some blocks in a row, and where they are. -/
theorem standsAt_blocks {first last : ℕ} (hle : first ≤ last) :
    StandsAt w.finished.file (w.finished.blockStart first)
        ((w.finished.blocks.drop first).take (last - first)).flatten ∧
      ((w.finished.blocks.drop first).take (last - first)).flatten.length =
        w.finished.blockStart last - w.finished.blockStart first := by
  have hblocks : StandsAt w.finished.file (w.finished.start 1) w.finished.blocks.flatten :=
    FinishedCorpus.standsAt_section rfl
  have hstart : w.finished.start 1 = DatabaseHeader.size + w.finished.dictionary.length := by
    rw [FinishedCorpus.start, FinishedCorpus.sections, List.take_succ_cons, List.take_zero,
      List.flatten_cons, List.flatten_nil, List.append_nil]
  rw [hstart] at hblocks
  refine ⟨hblocks.pieces first (last - first), ?_⟩
  have hsplit : (w.finished.blocks.take last).flatten = (w.finished.blocks.take first).flatten ++
      ((w.finished.blocks.drop first).take (last - first)).flatten := by
    rw [← List.flatten_append, ← List.take_add, Nat.add_sub_cancel' hle]
  rw [FinishedCorpus.blockStart, FinishedCorpus.blockStart, hsplit, List.length_append]
  omega

theorem blockStart_lt : w.finished.blockStart k < 2 ^ 63 := by
  obtain ⟨hstands, hlength⟩ := standsAt_blocks (w := w) (Nat.zero_le k)
  have hle := hstands.le
  have hmono := blockStart_le (w := w) (Nat.zero_le k)
  have hfile := w.length_file
  omega

theorem toNat_blockStart : (UInt64.ofNat (w.finished.blockStart k)).toNat =
    w.finished.blockStart k := by
  have hlt := blockStart_lt (w := w) (k := k)
  rw [UInt64.toNat_ofNat', Nat.mod_eq_of_lt (by omega)]

theorem toNat_between {j : ℕ} (hjk : j ≤ k) :
    (UInt64.ofNat (w.finished.blockStart k) - UInt64.ofNat (w.finished.blockStart j)).toNat =
      w.finished.blockStart k - w.finished.blockStart j := by
  have hle := blockStart_le (w := w) hjk
  rw [UInt64.toNat_sub_of_le _ _ (by rwa [UInt64.le_iff_toNat_le, toNat_blockStart,
    toNat_blockStart]), toNat_blockStart, toNat_blockStart]

theorem scannedBlock_getElem (hk : k < w.finished.blocks.length)
    (hk' : k < w.corpus.filenameBlocks.length) :
    scannedBlock (zstd w.finished.dictionary) w.finished.blocks[k] =
      some w.corpus.filenameBlocks[k] := scannedBlock_eq (w.compressed.blocks.get hk hk')

/-- A candidate block is the block of that number. -/
theorem filenameBlockIn_eq (hk : k < w.corpus.filenameBlocks.length) :
    filenameBlockIn (zstd w.finished.dictionary) w.finished.file w.finished.header
      (UInt32.ofNat k) = some w.corpus.filenameBlocks[k] := by
  have hlength := w.compressed.blocks.length_eq
  have hcount := w.fits.blocks
  have hk' : k < w.finished.blocks.length := hlength ▸ hk
  have hentries := standsAt_entries hk'
  have hstart := start_index_toNat (w := w)
  have hle := hentries.le
  have hfile := w.length_file
  have hoffset : (w.finished.header.filenameIndexOffsetBytes +
      (UInt32.ofNat k).toUInt64 * 8).toNat = w.finished.start 2 + 8 * k := by
    rw [UInt64.toNat_add, UInt64.toNat_mul, UInt32.toNat_toUInt64, UInt32.toNat_ofNat', hstart,
      Nat.mod_eq_of_lt (a := k) (by omega)]
    change (_ + k * 8 % 2 ^ 64) % 2 ^ 64 = _
    omega
  have hread := submitRead_standsAt hentries (List.append_ne_nil_of_left_ne_nil
    (List.ne_nil_of_length_pos (by rw [length_leBytes]; decide)) _)
  rw [List.length_append, length_leBytes, length_leBytes] at hread
  have hsecond := getU64_leBytes (w.finished.blockStart (k + 1)) []
  rw [List.append_nil] at hsecond
  have hblock : StandsAt w.finished.file (w.finished.blockStart k) w.finished.blocks[k] :=
    FinishedCorpus.standsAt_block (List.getElem?_eq_getElem hk')
  have hbetween : w.finished.blockStart (k + 1) - w.finished.blockStart k =
      w.finished.blocks[k].length := by
    rw [FinishedCorpus.blockStart_succ (List.getElem?_eq_getElem hk'), Nat.add_sub_cancel_left]
  have hne := w.finished.block_ne_nil _ (List.getElem_mem hk')
  rw [filenameBlockIn, hoffset, hread]
  simp only [Option.bind_eq_bind, Option.bind_some]
  rw [List.drop_left' (length_leBytes 8 _), hsecond, getU64_leBytes,
    toNat_between (Nat.le_succ k), toNat_blockStart, hbetween, submitRead_standsAt hblock hne,
    Option.bind_some, scannedBlock_getElem hk' hk]

/-- What the linear scan reads at once is cut into the blocks. -/
theorem scanChunk_eq (hoffset : ∀ docid ≤ w.corpus.filenameBlocks.length,
      offset docid = UInt64.ofNat (w.finished.blockStart docid)) {first last : ℕ}
    (hle : first ≤ last) (hlast : last ≤ w.corpus.filenameBlocks.length) :
    scanChunk (zstd w.finished.dictionary) w.finished.file offset first last =
      some ((w.corpus.filenameBlocks.drop first).take (last - first)) := by
  obtain ⟨hstands, hlength⟩ := standsAt_blocks (w := w) hle
  have hread := tryCompletePread_standsAt hstands
  rw [hlength] at hread
  have hcount := w.compressed.blocks.length_eq
  set chunk := (w.finished.blocks.drop first).take (last - first) with hchunk
  have hchunkAt : StandsAt chunk.flatten 0 chunk.flatten := ⟨[], [], by simp, rfl⟩
  have heach : ∀ docid ∈ List.range' first (last - first),
      scannedBlock (zstd w.finished.dictionary)
        ((chunk.flatten.drop (offset docid - offset first).toNat).take
          (offset (docid + 1) - offset docid).toNat) =
        some (w.corpus.filenameBlocks.getD docid []) := by
    intro docid hdocid
    rw [List.mem_range'_1] at hdocid
    have hlt : docid < w.corpus.filenameBlocks.length := by omega
    have hlt' : docid < w.finished.blocks.length := by omega
    have hget : chunk[docid - first]? = some w.finished.blocks[docid] := by
      rw [hchunk, List.getElem?_take_of_lt (by omega), List.getElem?_drop,
        Nat.add_sub_cancel' hdocid.1, List.getElem?_eq_getElem hlt']
    have hpiece := (hchunkAt.piece hget).slice
    have hbefore : (chunk.take (docid - first)).flatten.length =
        w.finished.blockStart docid - w.finished.blockStart first := by
      rw [hchunk, List.take_take, Nat.min_eq_left (by omega)]
      exact (standsAt_blocks (w := w) hdocid.1).2
    rw [hbefore, Nat.zero_add] at hpiece
    rw [hoffset docid hlt.le, hoffset first (by omega), hoffset (docid + 1) hlt,
      toNat_between hdocid.1, toNat_between (Nat.le_succ docid),
      FinishedCorpus.blockStart_succ (List.getElem?_eq_getElem hlt'), Nat.add_sub_cancel_left,
      hpiece, scannedBlock_getElem hlt' hlt, List.getD_eq_getElem?_getD,
      List.getElem?_eq_getElem hlt, Option.getD_some]
  rw [scanChunk, hoffset first (by omega), hoffset last hlast, toNat_between hle, toNat_blockStart,
    hread]
  simp only [Option.bind_eq_bind, Option.bind_some, ← hoffset first (by omega)]
  rw [mapM_eq_some heach, range'_map_getD _ (by omega)]

theorem scanChunks_eq (hoffset : ∀ docid ≤ w.corpus.filenameBlocks.length,
      offset docid = UInt64.ofNat (w.finished.blockStart docid)) (first : ℕ) :
    scanChunks (zstd w.finished.dictionary) w.finished.file offset first
        w.corpus.filenameBlocks.length =
      some (w.corpus.filenameBlocks.drop first) := by
  set numBlocks := w.corpus.filenameBlocks.length with hnumBlocks
  induction hn : numBlocks - first using Nat.strongRecOn generalizing first with
  | ind n ih =>
      rw [scanChunks]
      split
      · rename_i hfirst
        have hlast : min (first + 32) numBlocks - first = min 32 (numBlocks - first) := by omega
        have hrest := ih (numBlocks - (first + 32)) (by omega) (first + 32) rfl
        rw [scanChunk_eq hoffset (by omega) (by omega), hrest, hlast]
        change some (_ ++ _) = _
        rw [hnumBlocks, ← List.length_drop, Nat.min_comm, ← List.take_take,
          List.take_of_length_le (List.length_take_le' _ _), ← List.drop_drop,
          List.take_append_drop]
      · rename_i hfirst
        rw [List.drop_of_length_le (by omega)]

/-- The linear scan scans all blocks of the corpus. -/
theorem allBlocksIn_eq :
    allBlocksIn (zstd w.finished.dictionary) w.finished.file w.finished.header =
      some w.corpus.filenameBlocks := by
  have hcount := w.compressed.blocks.length_eq
  have hnum : w.finished.header.numDocids.toNat = w.corpus.filenameBlocks.length :=
    w.fits.numDocids.trans hcount
  have hindex : StandsAt w.finished.file (w.finished.start 2) w.finished.filenameIndex :=
    FinishedCorpus.standsAt_section rfl
  have hread := tryCompletePread_standsAt hindex
  rw [FinishedCorpus.length_filenameIndex, hcount, ← start_index_toNat, Nat.mul_comm] at hread
  have hoffset : ∀ docid ≤ w.corpus.filenameBlocks.length,
      getU64 (w.finished.filenameIndex.drop (8 * docid)) =
        UInt64.ofNat (w.finished.blockStart docid) :=
    fun docid hdocid => blockOffset_filenameIndex (hcount ▸ hdocid)
  have hchunks := scanChunks_eq hoffset 0
  rw [List.drop_zero] at hchunks
  rw [allBlocksIn, hnum]
  simp only [Option.bind_eq_bind, hread, Option.bind_some]
  exact hchunks

end Blocks

end SavedDatabase

end Flocate
