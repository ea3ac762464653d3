import Flocate.IndexExactness

/-!
# Blocks partition the paths

A path that comes to an empty buffer is not told from no path if it is empty itself. Only then does
a path get lost, and from then on the count of files and the buffer say different things. Empty
paths elsewhere in a block stay.
-/

namespace Flocate

open Bytes Fault

namespace EncodingCorpus

def start (blockSize : ℕ) (storeDirTimes storeMetadata : Bool) : EncodingCorpus :=
  { blockSize := blockSize, storeDirTimes := storeDirTimes, storeMetadata := storeMetadata }

def blockPaths (block : Str) : List Str := block.splitOn 0

def pending (corpus : EncodingCorpus) : List Str :=
  if corpus.currentBlock = [] then [] else blockPaths corpus.currentBlock

def kept (corpus : EncodingCorpus) : List Str :=
  corpus.filenameBlocks.flatMap blockPaths ++ corpus.pending

/-- `corpus` has received `records` and been finished. -/
structure Partitions (blockSize : ℕ) (storeDirTimes storeMetadata : Bool)
    (records : List FileRecord) (corpus : EncodingCorpus) : Prop where
  sizes : ∀ block ∈ corpus.filenameBlocks,
    1 ≤ (blockPaths block).length ∧ (blockPaths block).length ≤ blockSize
  count : ∀ n corpus',
    (records.take n).foldlM addFile (start blockSize storeDirTimes storeMetadata) = .ok corpus' →
    corpus'.numFilesInBlock < blockSize
  paths : corpus.filenameBlocks.flatMap blockPaths = records.map (·.path)

/-- No path is lost so far: the buffer holds the paths of the block under construction. -/
structure InStep (blockSize : ℕ) (done : List Str) (corpus : EncodingCorpus) : Prop where
  full : corpus.blockSize = blockSize
  kept : corpus.kept = done
  count : corpus.numFilesInBlock = corpus.pending.length
  room : corpus.pending.length < blockSize
  position : corpus.pending.length = done.length % blockSize
  sizes : ∀ block ∈ corpus.filenameBlocks,
    1 ≤ (blockPaths block).length ∧ (blockPaths block).length ≤ blockSize

section Step

variable {corpus corpus' : EncodingCorpus} {record : FileRecord} {path : Str} {done : List Str}
  {blockSize : ℕ}

theorem blockPaths_pos (block : Str) : 1 ≤ (blockPaths block).length :=
  List.length_pos_iff.mpr (List.splitOn_ne_nil _ _)

theorem pending_eq_nil_iff : corpus.pending = [] ↔ corpus.currentBlock = [] := by
  unfold pending
  split
  · rename_i h
    exact iff_of_true rfl h
  · rename_i h
    exact iff_of_false (List.splitOn_ne_nil _ _) h

/-- What `flush_block` does to the blocks. -/
theorem flushBlock_inv (h : corpus.flushBlock = .ok corpus') :
    corpus.currentBlock = [] ∧ corpus' = corpus ∨
      corpus.currentBlock ≠ [] ∧ ∃ invindex, corpus' = { corpus with
        invindex := invindex
        filenameBlocks := corpus.filenameBlocks ++ [corpus.currentBlock]
        currentBlock := []
        numFilesInBlock := 0
        numBlocks := corpus.numBlocks + 1 } := by
  unfold flushBlock at h
  split at h
  · rename_i hempty
    exact .inl ⟨hempty, (Except.ok.inj h).symm⟩
  · rename_i hempty
    rw [bind_eq_ok] at h
    obtain ⟨trgms, -, h⟩ := h
    rw [bind_eq_ok] at h
    obtain ⟨invindex, -, h⟩ := h
    exact .inr ⟨hempty, invindex, (Except.ok.inj h).symm⟩

theorem flushBlock_kept (h : corpus.flushBlock = .ok corpus') :
    corpus'.kept = corpus.kept ∧ corpus'.currentBlock = [] := by
  rcases flushBlock_inv h with ⟨hempty, rfl⟩ | ⟨hempty, invindex, rfl⟩
  · exact ⟨rfl, hempty⟩
  · refine ⟨?_, rfl⟩
    simp only [kept, pending, if_pos, if_neg hempty, List.flatMap_append, List.flatMap_singleton,
      List.append_nil]

theorem pending_addPath (hpath : 0 ∉ path) : (corpus.addPath path).pending =
    if corpus.currentBlock = [] ∧ path = [] then [] else corpus.pending ++ [path] := by
  have hblock : (corpus.addPath path).currentBlock =
      (if corpus.currentBlock = [] then [] else corpus.currentBlock ++ [0]) ++ path := rfl
  by_cases hempty : corpus.currentBlock = []
  · rw [if_pos hempty, List.nil_append] at hblock
    rw [pending, hblock, pending, if_pos hempty]
    by_cases hnil : path = []
    · rw [if_pos hnil, if_pos ⟨hempty, hnil⟩]
    · rw [if_neg hnil, if_neg fun h => hnil h.2, blockPaths, List.splitOn_eq_singleton hpath]
      rfl
  · rw [if_neg hempty, List.append_assoc, List.singleton_append] at hblock
    have hnot : ¬(corpus.currentBlock = [] ∧ path = []) := fun h => hempty h.1
    rw [pending, hblock, pending, if_neg hempty, if_neg hnot, if_neg (by simp), blockPaths,
      List.splitOn_append_cons_self, List.splitOn_eq_singleton hpath]
    rfl

theorem addFile_inv (h : corpus.addFile record = .ok corpus') :
    ∃ flushed : EncodingCorpus, corpus' = flushed.addStreams record ∧
      (if (corpus.addPath record.path).numFilesInBlock = corpus.blockSize then
        (corpus.addPath record.path).flushBlock = .ok flushed
      else flushed = corpus.addPath record.path) := by
  unfold addFile at h
  rw [map_eq_ok] at h
  obtain ⟨flushed, hflushed, hstreams⟩ := h
  refine ⟨flushed, hstreams.symm, ?_⟩
  have hblockSize : (corpus.addPath record.path).blockSize = corpus.blockSize := rfl
  simp only [hblockSize] at hflushed
  split at hflushed
  · rename_i hfull
    rwa [if_pos hfull]
  · rename_i hfull
    rw [if_neg hfull]
    exact (Except.ok.inj hflushed).symm

/-- A file adds its path to those that are kept, unless both the buffer and the path are empty. -/
theorem addFile_kept (hpath : 0 ∉ record.path) (h : corpus.addFile record = .ok corpus') :
    corpus'.kept = corpus.kept ++
      if corpus.currentBlock = [] ∧ record.path = [] then [] else [record.path] := by
  obtain ⟨flushed, rfl, hflushed⟩ := addFile_inv h
  have hadded : (corpus.addPath record.path).kept = corpus.kept ++
      if corpus.currentBlock = [] ∧ record.path = [] then [] else [record.path] := by
    have hblocks : (corpus.addPath record.path).filenameBlocks = corpus.filenameBlocks := rfl
    rw [kept, hblocks, pending_addPath hpath, kept]
    split
    · rename_i hlost
      rw [pending_eq_nil_iff.mpr hlost.1, List.append_nil, List.append_nil]
    · rw [List.append_assoc]
  rw [← hadded]
  split at hflushed
  · exact (flushBlock_kept hflushed).1
  · rw [hflushed]
    rfl

/-- A file that is kept keeps the corpus in step. -/
theorem InStep.add (hs : InStep blockSize done corpus) (hpath : 0 ∉ record.path)
    (hkept : corpus.currentBlock = [] → record.path ≠ [])
    (h : corpus.addFile record = .ok corpus') :
    InStep blockSize (done ++ [record.path]) corpus' := by
  have hnot : ¬(corpus.currentBlock = [] ∧ record.path = []) := fun hlost => hkept hlost.1 hlost.2
  have hpaths := addFile_kept hpath h
  rw [if_neg hnot, hs.kept] at hpaths
  obtain ⟨flushed, rfl, hflushed⟩ := addFile_inv h
  have hpending : (corpus.addPath record.path).pending.length = corpus.pending.length + 1 := by
    rw [pending_addPath hpath, if_neg hnot, List.length_append, List.length_singleton]
  have hcount : (corpus.addPath record.path).numFilesInBlock = corpus.pending.length + 1 :=
    congrArg (· + 1) hs.count
  have hroom := hs.room
  have hposition := hs.position
  have hlength : (done ++ [record.path]).length = done.length + 1 := by
    rw [List.length_append, List.length_singleton]
  have hmod : (done.length + 1) % blockSize = (corpus.pending.length + 1) % blockSize := by
    rw [hposition, Nat.mod_add_mod]
  rw [hcount, hs.full] at hflushed
  split at hflushed
  · rename_i hfull
    rcases flushBlock_inv hflushed with ⟨hempty, -⟩ | ⟨hempty, invindex, rfl⟩
    · rw [pending_eq_nil_iff.mpr hempty] at hpending
      cases hpending
    · have hnil : (addStreams { corpus.addPath record.path with
          invindex := invindex
          filenameBlocks := (corpus.addPath record.path).filenameBlocks ++
            [(corpus.addPath record.path).currentBlock]
          currentBlock := []
          numFilesInBlock := 0
          numBlocks := (corpus.addPath record.path).numBlocks + 1 } record).pending = [] :=
        pending_eq_nil_iff.mpr rfl
      refine ⟨hs.full, hpaths, ?_, ?_, ?_, ?_⟩
      · rw [hnil]
        rfl
      · rw [hnil, List.length_nil]
        omega
      · rw [hnil, hlength, hmod, hfull, Nat.mod_self]
        rfl
      · refine List.forall_mem_append.mpr ⟨hs.sizes, List.forall_mem_singleton.mpr ?_⟩
        refine ⟨blockPaths_pos _, ?_⟩
        rw [pending, if_neg hempty] at hpending
        omega
  · rename_i hfull
    subst hflushed
    have hsame : ((corpus.addPath record.path).addStreams record).pending =
        (corpus.addPath record.path).pending := rfl
    refine ⟨hs.full, hpaths, ?_, ?_, ?_, hs.sizes⟩
    · rw [hsame, hpending]
      exact hcount
    · rw [hsame, hpending]
      omega
    · rw [hsame, hpending, hlength, hmod, Nat.mod_eq_of_lt (by omega)]

end Step

section Runs

variable {blockSize : ℕ} {corpus last : EncodingCorpus} {records : List FileRecord}
  {done : List Str}

theorem inStep_start (hb : 0 < blockSize) (storeDirTimes storeMetadata : Bool) :
    InStep blockSize [] (start blockSize storeDirTimes storeMetadata) :=
  ⟨rfl, rfl, rfl, hb, (Nat.zero_mod _).symm, List.forall_mem_nil _⟩

theorem InStep.currentBlock_eq_nil_iff (hs : InStep blockSize done corpus) :
    corpus.currentBlock = [] ↔ blockSize ∣ done.length := by
  rw [← pending_eq_nil_iff, ← List.length_eq_zero_iff, hs.position, Nat.dvd_iff_mod_eq_zero]

/-- A run in which no block starts with an empty path stays in step. -/
theorem InStep.run (hs : InStep blockSize done corpus) (hpaths : ∀ r ∈ records, 0 ∉ r.path)
    (hstarts : ∀ i (hi : i < records.length), blockSize ∣ done.length + i → records[i].path ≠ [])
    (h : records.foldlM addFile corpus = .ok last) :
    InStep blockSize (done ++ records.map (·.path)) last := by
  induction records generalizing corpus done with
  | nil =>
      obtain rfl := Except.ok.inj h
      rwa [List.map_nil, List.append_nil]
  | cons r records ih =>
      rw [List.forall_mem_cons] at hpaths
      rw [List.foldlM_cons, bind_eq_ok] at h
      obtain ⟨next, hnext, h⟩ := h
      have hkept : corpus.currentBlock = [] → r.path ≠ [] := fun hempty =>
        hstarts 0 (Nat.succ_pos _) (hs.currentBlock_eq_nil_iff.mp hempty)
      have hrest := ih (hs.add hpaths.1 hkept hnext) hpaths.2 (fun i hi hdvd => ?_) h
      · rwa [List.append_assoc] at hrest
      · rw [List.length_append, List.length_singleton, Nat.add_assoc, Nat.add_comm 1] at hdvd
        exact hstarts (i + 1) (Nat.succ_lt_succ hi) hdvd

/-- No more paths are kept than have come. -/
theorem length_kept_le (hpaths : ∀ r ∈ records, 0 ∉ r.path)
    (h : records.foldlM addFile corpus = .ok last) :
    last.kept.length ≤ corpus.kept.length + records.length := by
  induction records generalizing corpus with
  | nil =>
      obtain rfl := Except.ok.inj h
      exact Nat.le_refl _
  | cons r records ih =>
      rw [List.forall_mem_cons] at hpaths
      rw [List.foldlM_cons, bind_eq_ok] at h
      obtain ⟨next, hnext, h⟩ := h
      have hrest := ih hpaths.2 h
      rw [addFile_kept hpaths.1 hnext, List.length_append] at hrest
      rw [List.length_cons]
      split at hrest
      · rw [List.length_nil] at hrest
        omega
      · rw [List.length_singleton] at hrest
        omega

/-- Where all paths are kept, no block starts with an empty one. -/
theorem InStep.starts_of_length (hs : InStep blockSize done corpus)
    (hpaths : ∀ r ∈ records, 0 ∉ r.path) (h : records.foldlM addFile corpus = .ok last)
    (hlength : last.kept.length = done.length + records.length) :
    ∀ i (hi : i < records.length), blockSize ∣ done.length + i → records[i].path ≠ [] := by
  induction records generalizing corpus done with
  | nil => exact fun i hi => absurd hi (Nat.not_lt_zero i)
  | cons r records ih =>
      rw [List.forall_mem_cons] at hpaths
      rw [List.foldlM_cons, bind_eq_ok] at h
      obtain ⟨next, hnext, h⟩ := h
      have hadded := addFile_kept hpaths.1 hnext
      have hle := length_kept_le hpaths.2 h
      rw [List.length_cons] at hlength
      have hkept : corpus.currentBlock = [] → r.path ≠ [] := by
        intro hempty hnil
        rw [if_pos ⟨hempty, hnil⟩, List.append_nil] at hadded
        rw [hadded, hs.kept] at hle
        omega
      have hrest := ih (hs.add hpaths.1 hkept hnext) hpaths.2 h
        (by rw [List.length_append, List.length_singleton]; omega)
      intro i hi hdvd
      cases i with
      | zero => exact hkept (hs.currentBlock_eq_nil_iff.mpr hdvd)
      | succ i =>
          apply hrest i (Nat.lt_of_succ_lt_succ hi)
          rwa [List.length_append, List.length_singleton, Nat.add_assoc, Nat.add_comm 1]

/-- Blocks partition the paths exactly if no block starts with an empty one. -/
theorem partitions_iff (blockSize : ℕ) (hb : 1 ≤ blockSize) (storeDirTimes storeMetadata : Bool)
    (records : List FileRecord) (hpaths : ∀ r ∈ records, 0 ∉ r.path) (corpus : EncodingCorpus)
    (h : build blockSize storeDirTimes storeMetadata records = .ok corpus) :
    Partitions blockSize storeDirTimes storeMetadata records corpus ↔
      ∀ i (hi : i < records.length), blockSize ∣ i → records[i].path ≠ [] := by
  unfold build at h
  rw [bind_eq_ok] at h
  obtain ⟨last, hlast, hfinish⟩ := h
  obtain ⟨hkept, hempty⟩ := flushBlock_kept hfinish
  have hpending : corpus.pending = [] := pending_eq_nil_iff.mpr hempty
  rw [kept, hpending, List.append_nil] at hkept
  have hstart := inStep_start hb storeDirTimes storeMetadata
  constructor
  · intro hpartitions i hi hdvd
    have hlength := congrArg List.length (hkept.symm.trans hpartitions.paths)
    rw [List.length_map] at hlength
    exact hstart.starts_of_length hpaths hlast (by rw [hlength, List.length_nil, Nat.zero_add]) i hi
      (by rwa [List.length_nil, Nat.zero_add])
  · intro hstarts
    have hrun {n : ℕ} {mid : EncodingCorpus}
        (hmid : (records.take n).foldlM addFile (start blockSize storeDirTimes storeMetadata) =
          .ok mid) : InStep blockSize ((records.take n).map (·.path)) mid := by
      have hstep := hstart.run (fun r hr => hpaths r (List.mem_of_mem_take hr))
        (fun i hi hdvd => ?_) hmid
      · rwa [List.nil_append] at hstep
      · rw [List.length_nil, Nat.zero_add] at hdvd
        rw [List.getElem_take]
        rw [List.length_take] at hi
        exact hstarts i (by omega) hdvd
    have hall := hrun ((congrArg (List.foldlM addFile _) List.take_length).trans hlast)
    rw [List.take_length] at hall
    refine ⟨?_, ?_, ?_⟩
    · rcases flushBlock_inv hfinish with ⟨-, rfl⟩ | ⟨hne, invindex, rfl⟩
      · exact hall.sizes
      · refine List.forall_mem_append.mpr ⟨hall.sizes, List.forall_mem_singleton.mpr ?_⟩
        have hroom := hall.room
        rw [pending, if_neg hne] at hroom
        exact ⟨blockPaths_pos _, hroom.le⟩
    · intro n mid hmid
      have hstep := hrun hmid
      rw [hstep.count]
      exact hstep.room
    · rw [hkept, hall.kept]

end Runs

section Totality

variable {p : Str} {corpus : EncodingCorpus}

/-- The inner loop gets to the zero byte that ends the filename, as there is one at the end. -/
theorem exists_filenameTrigrams (h : p.getLast? = some 0) (hlength : 4 ≤ p.length) :
    ∃ trgms rest, filenameTrigrams p = .ok (trgms, rest) ∧
      (rest = [] ∨ rest.getLast? = some 0) := by
  induction p using filenameTrigrams.induct with
  | case1 a b c d p hle =>
      rw [filenameTrigrams, if_pos hle]
      refine ⟨_, p, rfl, ?_⟩
      cases p with
      | nil => exact .inl rfl
      | cons e p => exact .inr (by simpa using h)
  | case2 a b c d p hle ih =>
      rw [readWindow_le_iff] at hle
      have hne : p ≠ [] := by
        rintro rfl
        exact hle (by simpa using h)
      have hpos := List.length_pos_iff.mpr hne
      obtain ⟨trgms, rest, hread, hrest⟩ := ih (by simpa using h) (by
        simp only [List.length_cons]
        omega)
      rw [filenameTrigrams, if_neg (mt (readWindow_le_iff a b c d).mp hle), hread]
      exact ⟨_, rest, rfl, hrest⟩
  | case3 p hp =>
      obtain ⟨a, p, rfl⟩ := List.exists_cons_of_length_pos (by omega : 0 < p.length)
      rw [List.length_cons] at hlength
      obtain ⟨b, p, rfl⟩ := List.exists_cons_of_length_pos (by omega : 0 < p.length)
      rw [List.length_cons] at hlength
      obtain ⟨c, p, rfl⟩ := List.exists_cons_of_length_pos (by omega : 0 < p.length)
      rw [List.length_cons] at hlength
      obtain ⟨d, p, rfl⟩ := List.exists_cons_of_length_pos (by omega : 0 < p.length)
      exact absurd rfl (hp a b c d p)

theorem exists_blockTrigrams (h : p = [] ∨ p.getLast? = some 0) :
    ∃ trgms, blockTrigrams p = .ok trgms := by
  induction hn : p.length using Nat.strongRecOn generalizing p with
  | ind n ih =>
      rw [blockTrigrams]
      split
      · rename_i hlength
        have hlast : p.getLast? = some 0 := by
          rcases h with rfl | h
          · exact absurd hlength (by decide)
          · exact h
        have hdrop {k : ℕ} (hpos : 0 < k) (hk : k ≤ 4) :
            ∃ trgms, blockTrigrams (p.drop k) = .ok trgms := by
          apply ih (p.drop k).length _ _ rfl
          · rw [List.length_drop]
            omega
          · rw [List.getLast?_drop, if_neg (by omega)]
            exact .inr hlast
        split
        · exact hdrop (by decide) (by decide)
        split
        · exact hdrop (by decide) (by decide)
        split
        · exact hdrop (by decide) (by decide)
        obtain ⟨trgms, rest, hread, hrest⟩ := exists_filenameTrigrams hlast hlength.le
        split
        · rename_i herror
          rw [hread] at herror
          cases herror
        · rename_i hok
          rw [hread] at hok
          obtain ⟨rfl, rfl⟩ := Prod.mk.inj (Except.ok.inj hok)
          obtain ⟨later, hlater⟩ :=
            ih rest.length (hn ▸ filenameTrigrams_length hread) hrest rfl
          rw [hlater]
          exact ⟨_, rfl⟩
      · exact ⟨[], rfl⟩

theorem exists_flushBlock (corpus : EncodingCorpus) (hs : AllStarted corpus.invindex)
    (hn : corpus.numBlocks < 2 ^ 28) :
    ∃ flushed, corpus.flushBlock = .ok flushed ∧ AllStarted flushed.invindex ∧
      flushed.numBlocks ≤ corpus.numBlocks + 1 := by
  unfold flushBlock
  split
  · exact ⟨corpus, rfl, hs, Nat.le_succ _⟩
  · have hdocid : UInt32.ofNat corpus.numBlocks < 0x10000000 := by
      rw [UInt32.lt_iff_toNat_lt, UInt32.toNat_ofNat', Nat.mod_eq_of_lt (by omega)]
      exact hn
    obtain ⟨trgms, htrgms⟩ := exists_blockTrigrams (p := corpus.currentBlock ++ [0])
      (.inr List.getLast?_concat)
    have hindex : ∃ invindex, trgms.foldlM (addDocid (UInt32.ofNat corpus.numBlocks))
        corpus.invindex = .ok invindex := foldlM_addDocid_ok hs fun _ _ _ => hdocid
    obtain ⟨invindex, hindex⟩ := hindex
    refine ⟨{ corpus with
      invindex := invindex
      filenameBlocks := corpus.filenameBlocks ++ [corpus.currentBlock]
      currentBlock := []
      numFilesInBlock := 0
      numBlocks := corpus.numBlocks + 1 }, ?_, (foldlM_addDocid_eq_ok hs hindex).1, Nat.le_refl _⟩
    simp only [htrgms]
    change (trgms.foldlM (addDocid (UInt32.ofNat corpus.numBlocks)) corpus.invindex >>=
      fun invindex => _) = _
    rw [hindex]
    rfl

theorem exists_foldlM_addFile (records : List FileRecord) (hs : AllStarted corpus.invindex)
    (hn : corpus.numBlocks + records.length < 2 ^ 28) :
    ∃ last, records.foldlM addFile corpus = .ok last ∧ AllStarted last.invindex ∧
      last.numBlocks ≤ corpus.numBlocks + records.length := by
  induction records generalizing corpus with
  | nil => exact ⟨corpus, rfl, hs, Nat.le_refl _⟩
  | cons r records ih =>
      rw [List.length_cons] at hn
      have hstep : ∃ next, corpus.addFile r = .ok next ∧ AllStarted next.invindex ∧
          next.numBlocks ≤ corpus.numBlocks + 1 := by
        have hadded : (corpus.addPath r.path).numBlocks < 2 ^ 28 := by
          change corpus.numBlocks < _
          omega
        obtain ⟨flushed, hflush, hstarted, hle⟩ :=
          exists_flushBlock (corpus.addPath r.path) hs hadded
        rw [addFile]
        split
        · rw [hflush]
          exact ⟨_, rfl, hstarted, hle⟩
        · exact ⟨_, rfl, hs, Nat.le_succ _⟩
      obtain ⟨next, hnext, hstarted, hle⟩ := hstep
      obtain ⟨last, hlast, hstarted', hle'⟩ := ih hstarted (by omega)
      refine ⟨last, ?_, hstarted', ?_⟩
      · rw [List.foldlM_cons, hnext]
        exact hlast
      · rw [List.length_cons]
        omega

/-- Any paths can be built into a corpus, as long as their blocks can be numbered. -/
theorem exists_build (blockSize : ℕ) (storeDirTimes storeMetadata : Bool)
    (records : List FileRecord) (hn : records.length < 2 ^ 28 - 1) :
    ∃ corpus, build blockSize storeDirTimes storeMetadata records = .ok corpus := by
  have hs : AllStarted (start blockSize storeDirTimes storeMetadata).invindex := nofun
  have hzero : (start blockSize storeDirTimes storeMetadata).numBlocks = 0 := rfl
  obtain ⟨last, hlast, hstarted, hle⟩ := exists_foldlM_addFile records hs (by omega)
  obtain ⟨corpus, hcorpus, -, -⟩ := exists_flushBlock last hstarted (by omega)
  refine ⟨corpus, ?_⟩
  change (records.foldlM addFile (start blockSize storeDirTimes storeMetadata) >>= _) = _
  rw [hlast]
  exact hcorpus

end Totality

section Examples

def plainRecord (path : Str) : FileRecord where
  path := path
  dirTimestamp := unknownDirTime
  metadata := {}

def blankLines : List FileRecord :=
  [[], [], ascii "a", ascii "b", ascii "c"].map plainRecord

/-- The blank lines fill a block that is not written, and no other block becomes full then. -/
theorem blankLines_not_partitioned : ∃ corpus, build 2 false false blankLines = .ok corpus ∧
    corpus.filenameBlocks.map blockPaths = [[ascii "a", ascii "b", ascii "c"]] ∧
    ¬Partitions 2 false false blankLines corpus := by
  have hblocks : (build 2 false false blankLines).map (fun corpus => corpus.filenameBlocks) =
      .ok [joinNul [ascii "a", ascii "b", ascii "c"]] := by decide +kernel
  rw [map_eq_ok] at hblocks
  obtain ⟨corpus, hbuild, hblocks⟩ := hblocks
  have hpaths : corpus.filenameBlocks.map blockPaths = [[ascii "a", ascii "b", ascii "c"]] := by
    rw [hblocks]
    decide +kernel
  refine ⟨corpus, hbuild, hpaths, fun h => ?_⟩
  have hall := h.paths
  rw [List.flatMap_def, hpaths] at hall
  exact absurd hall (by decide +kernel)

theorem partitions_inner_blank_line : ∃ corpus,
    build 2 false false ([ascii "a", [], ascii "b"].map plainRecord) = .ok corpus ∧
      Partitions 2 false false ([ascii "a", [], ascii "b"].map plainRecord) corpus := by
  obtain ⟨corpus, hbuild⟩ := exists_build 2 false false
    ([ascii "a", [], ascii "b"].map plainRecord) (by decide)
  refine ⟨corpus, hbuild, ?_⟩
  exact (partitions_iff 2 (by decide) false false _ (by decide +kernel) corpus hbuild).mpr
    (by decide +kernel)

end Examples

end EncodingCorpus

end Flocate
