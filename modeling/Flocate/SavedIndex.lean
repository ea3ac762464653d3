import Flocate.CollectedLists
import Flocate.HashTableGrowth
import Flocate.HashTableLookup
import Flocate.SavedBlocks

/-!
# The index of a written database

In a database that a run has written, every read of a search succeeds, and what is read says for
each trigram in which blocks it occurs.
-/

namespace Flocate

open Bytes Fault Pieces

/-- A written database with its index: the lists of the trigrams that the run has seen, in a hash
table of one of the sizes that are tried. -/
structure IndexedDatabase {σ : Type} (stream : StreamDecoder σ) (zstd : Str → Zstd σ)
    extends SavedDatabase stream zstd where
  lists : ∀ t b, corpus.invindex t = some b → ∃ junk bytes,
    encodedBytes junk b.finish.encoded = .ok bytes ∧
      finished.getPlBuilder t = ⟨b.finish.numDocids, bytes⟩
  tried : Tried finished.getPlBuilder (allTrigrams corpus.invindex) finished.htSize
  table : createHashtable finished.getPlBuilder finished.htSize numOverflowSlots
    (allTrigrams corpus.invindex) = .ok (some finished.hashtable)
  length_blocks : finished.blocks.length < 2 ^ 28

section Slots

theorem ofBytes_toBytes_trigram {slot : Trigram} (h : slot.offset < 2 ^ 64) (rest : Str) :
    Trigram.ofBytes (slot.toBytes ++ rest) = slot := by
  have hdrop4 : (slot.toBytes ++ rest).drop 4 =
      putU32 slot.numDocids ++ (leBytes 8 slot.offset ++ rest) := by
    rw [Trigram.toBytes, List.append_assoc, List.append_assoc,
      List.drop_left' (length_leBytes 4 _)]
    rfl
  have hdrop8 : (slot.toBytes ++ rest).drop 8 = leBytes 8 slot.offset ++ rest := by
    rw [Trigram.toBytes, List.append_assoc,
      List.drop_left' (by rw [List.length_append, length_leBytes, length_leBytes])]
  have hfirst : getU32 (slot.toBytes ++ rest) = slot.trgm := by
    rw [Trigram.toBytes, List.append_assoc, List.append_assoc]
    exact getU32_putU32 slot.trgm _
  have hoffset : (getU64 (leBytes 8 slot.offset ++ rest)).toNat = slot.offset := by
    rw [getU64_leBytes, UInt64.toNat_ofNat', Nat.mod_eq_of_lt h]
  rw [Trigram.ofBytes, hfirst, hdrop4, hdrop8, getU32_putU32, hoffset]

theorem readSlots_toBytes (slots : List Trigram) (h : ∀ slot ∈ slots, slot.offset < 2 ^ 64)
    (rest : Str) :
    readSlots slots.length (slots.flatMap Trigram.toBytes ++ rest) = slots := by
  induction slots with
  | nil => rfl
  | cons slot slots ih =>
      rw [List.forall_mem_cons] at h
      rw [List.length_cons, readSlots, List.flatMap_cons, List.append_assoc,
        ofBytes_toBytes_trigram h.1, List.drop_left' (Trigram.length_toBytes slot), ih h.2]

end Slots

namespace FinishedCorpus

variable {d : FinishedCorpus}

theorem start_four : d.start 4 = d.tableStart + d.hashtable.length * 16 := by
  have htable : (d.offsetTable.flatMap Trigram.toBytes).length = d.hashtable.length * 16 := by
    rw [length_flatMap_toBytes, offsetTable, length_assignOffsets]
  rw [start, sections, tableStart]
  simp only [List.take_succ_cons, List.take_zero, List.flatten_cons, List.flatten_nil,
    List.length_append, List.append_nil, Nat.add_assoc, htable]

def corpusFile (d : FinishedCorpus) : CorpusFile :=
  writeHashtable d.getPlBuilder d.htSize numOverflowSlots (List.replicate d.tableStart 0)
    d.hashtable

theorem hashtable_corpusFile
    (hsize : (tableSize d.htSize numOverflowSlots).toNat = d.hashtable.length) :
    d.corpusFile.hashtable = d.offsetTable := by
  change assignOffsets _ ((List.replicate d.tableStart (0 : UInt8)).length + _) _ = _
  rw [hsize, List.length_replicate]
  rfl

/-- The posting list of a slot. -/
theorem standsAt_list {i : ℕ} (hi : i < d.hashtable.length) :
    StandsAt d.file
      (listsEnd d.getPlBuilder (List.replicate d.tableStart 0) d.hashtable i)
      (slotList d.getPlBuilder d.hashtable[i]) := by
  have hlists : StandsAt d.file (d.start 4) (d.offsetTable.flatMap (slotList d.getPlBuilder)) :=
    standsAt_section rfl
  rw [offsetTable, flatMap_assignOffsets, List.flatMap_def] at hlists
  have hpiece := hlists.piece (k := i) (by rw [List.getElem?_map, List.getElem?_eq_getElem hi]; rfl)
  rw [start_four, ← List.map_take, ← List.flatMap_def] at hpiece
  rwa [listsEnd, List.length_replicate]

end FinishedCorpus

namespace IndexedDatabase

variable {σ : Type} {stream : StreamDecoder σ} {zstd : Str → Zstd σ}
  (w : IndexedDatabase stream zstd)

def blocks : List (List Str) := blocksOf w.blockSize (w.records.map (·.path))

theorem isName {names : List Str} (hnames : names ∈ w.blocks) : ∀ s ∈ names, IsName s := by
  intro s hs
  obtain ⟨r, hr, rfl⟩ := List.mem_map.mp (mem_of_mem_blocksOf hnames hs)
  exact (w.storable r hr).name

/-- What the corpus of the run has collected of the paths. -/
theorem corpus_eq :
    indexBlocks 0 (fun _ => none) (w.blocks.map indexedTrigrams) = .ok w.corpus.invindex ∧
      w.corpus.filenameBlocks = w.blocks.map joinNul := by
  have hbuild := w.build
  rw [build_eq w.blockSize_pos true true fun r hr => (w.storable r hr).name, map_eq_ok] at hbuild
  obtain ⟨invindex, hok, hcorpus⟩ := hbuild
  rw [← hcorpus]
  exact ⟨hok, rfl⟩

theorem length_finished : w.finished.blocks.length = w.blocks.length := by
  rw [w.compressed.blocks.length_eq, w.corpus_eq.2, List.length_map]

theorem appended : AllAppended w.blocks.length w.corpus.invindex := by
  have hcount := w.length_blocks
  rw [w.length_finished] at hcount
  have hempty : AllAppended 0 fun _ => none := nofun
  have hall := indexBlocks_appended hempty (by rw [List.length_map]; omega) w.corpus_eq.1
  rwa [List.length_map, Nat.zero_add] at hall

/-- The list of a trigram that the run has seen. -/
theorem list_spec {t : UInt32} (ht : t ∈ allTrigrams w.corpus.invindex) :
    let list := w.finished.getPlBuilder t
    let docids := docidsOf w.corpus.invindex t
    list.numDocids.toNat = docids.length ∧ docids ≠ [] ∧ list.encoded ≠ [] ∧
      ∀ mem p, HasBytes mem p list.encoded →
        decodePforDelta1 mem p list.numDocids.toNat true =
          .ok (docids, p + list.encoded.length) := by
  intro list docids
  obtain ⟨b, hb⟩ := Option.isSome_iff_exists.mp (mem_allTrigrams.mp ht).2
  obtain ⟨junk, bytes, hbytes, hlist⟩ := w.lists t b hb
  have hdocids : docids = b.docids := by
    change (w.corpus.invindex t).elim [] _ = _
    rw [hb]
    rfl
  rw [hdocids, show list = ⟨b.finish.numDocids, bytes⟩ from hlist]
  exact (w.appended t b hb).decode (w.length_finished ▸ w.length_blocks) hbytes

theorem numDocids_ne_zero {t : UInt32} (ht : t ∈ allTrigrams w.corpus.invindex) :
    (w.finished.getPlBuilder t).numDocids ≠ 0 := by
  obtain ⟨hnum, hne, -⟩ := w.list_spec ht
  intro hzero
  rw [hzero] at hnum
  exact hne (List.length_eq_zero_iff.mp hnum.symm)

/-- The hash table has every trigram near its bucket. -/
theorem table_spec :
    0 < w.finished.htSize ∧
      (tableSize w.finished.htSize numOverflowSlots).toNat = w.finished.hashtable.length ∧
      w.finished.hashtable.length = w.finished.htSize.toNat + numOverflowSlots.toNat + 1 ∧
      RobinHood.Placed (home w.finished.htSize) Free numOverflowSlots.toNat 0
        w.finished.hashtable ∧
      ∃ k, w.finished.hashtable.Perm
        ((allTrigrams w.corpus.invindex).map (toInsert w.finished.getPlBuilder) ++
          List.replicate k emptySlot) := by
  have hnodup : (allTrigrams w.corpus.invindex).Nodup :=
    (pairwise_allTrigrams _).imp fun hlt heq => UInt32.ne_of_lt hlt heq
  obtain ⟨hprime, -, hroom⟩ := w.tried.spec hnodup (fun t ht => (mem_allTrigrams.mp ht).1)
    fun t ht => w.numDocids_ne_zero ht
  obtain ⟨hplaced, hlength, hperm⟩ := createHashtable_eq_ok hroom
    (fun t ht => w.numDocids_ne_zero ht) w.table
  refine ⟨?_, (toNat_tableSize hroom).trans hlength.symm, hlength, hplaced, hperm⟩
  rw [UInt32.lt_iff_toNat_lt]
  change 0 < _
  rcases isPrime_iff.mp hprime with hone | ⟨hfive, -⟩
  · omega
  · omega

/-- Every offset of the table is in the file. -/
theorem offset_lt {slot : Trigram} (hslot : slot ∈ w.finished.offsetTable) :
    slot.offset < 2 ^ 63 := by
  obtain ⟨i, hi, rfl⟩ := List.getElem_of_mem hslot
  have hi' : i < w.finished.hashtable.length := by
    rwa [FinishedCorpus.offsetTable, length_assignOffsets] at hi
  have hlist := (FinishedCorpus.standsAt_list hi').le
  have hfile := w.length_file
  simp only [← FinishedCorpus.hashtable_corpusFile w.table_spec.2.1] at hi ⊢
  have hoffset : w.finished.corpusFile.hashtable[i] = _ :=
    getElem_hashtable w.table_spec.2.1 hi hi'
  rw [hoffset]
  change listsEnd _ _ _ _ < _
  omega

/-- A lookup reads the entries that are compared. -/
theorem findTrigramIn_eq (t : UInt32) :
    ∃ r, findTrigramIn w.finished.file w.finished.header t = some r ∧
      findTrigram w.finished.corpusFile t = .ok r := by
  obtain ⟨hpos, hsize, hlength, -⟩ := w.table_spec
  have hbucket := bucket_add_le w.finished.getPlBuilder
    (List.replicate w.finished.tableStart 0) hpos hlength t
  set bucket := hashTrigram t w.finished.htSize with hbucketEq
  have h18 : (numOverflowSlots + 2).toNat = 18 := rfl
  have h16 : numOverflowSlots.toNat = 16 := rfl
  change bucket.toNat + _ ≤ w.finished.corpusFile.hashtable.length at hbucket
  rw [FinishedCorpus.hashtable_corpusFile hsize] at hbucket
  set slots := (w.finished.offsetTable.drop bucket.toNat).take 18 with hslots
  have hcount : slots.length = 18 := by
    rw [hslots, List.length_take, List.length_drop]
    omega
  have htable : StandsAt w.finished.file (w.finished.start 3)
      (w.finished.offsetTable.flatMap Trigram.toBytes) := FinishedCorpus.standsAt_section rfl
  have hstands := htable.items Trigram.length_toBytes (k := bucket.toNat) (by omega) 18
  have hbytes : (slots.flatMap Trigram.toBytes).length = 16 * 18 := by
    rw [length_flatMap_toBytes, hcount]
  have hoffset : (w.finished.header.hashTableOffsetBytes + 16 * bucket.toUInt64).toNat =
      w.finished.start 3 + 16 * bucket.toNat := by
    have hle := hstands.le
    have hfile := w.length_file
    change (UInt64.ofNat (w.finished.start 3) + 16 * bucket.toUInt64).toNat = _
    rw [UInt64.toNat_add, UInt64.toNat_mul, UInt64.toNat_ofNat', UInt32.toNat_toUInt64]
    change (_ + 16 * bucket.toNat % 2 ^ 64) % 2 ^ 64 = _
    rw [Nat.mod_eq_of_lt (a := w.finished.start 3) (by omega),
      Nat.mod_eq_of_lt (a := 16 * bucket.toNat) (by omega), Nat.mod_eq_of_lt (by omega)]
  have hread := submitRead_standsAt hstands
    (List.ne_nil_of_length_pos (by rw [hbytes]; decide))
  rw [hbytes] at hread
  have hentries := readSlots_toBytes slots (fun slot hslot => (w.offset_lt
    (List.mem_of_mem_drop (List.mem_of_mem_take hslot))).trans (by decide)) []
  rw [List.append_nil, hcount] at hentries
  refine ⟨scanSlots t slots, ?_, ?_⟩
  · change (submitRead w.finished.file (16 * (numOverflowSlots + 2).toNat)
      (w.finished.header.hashTableOffsetBytes + 16 * bucket.toUInt64).toNat).map
        (fun s => scanSlots t (readSlots (numOverflowSlots + 2).toNat s)) = _
    rw [h18, hoffset, hread, Option.map_some, hentries]
  · rw [FinishedCorpus.corpusFile, findTrigram_eq]
    change (if bucket.toNat + (numOverflowSlots.toNat + 2) ≤
      w.finished.corpusFile.hashtable.length then
        Except.ok (scanSlots t ((w.finished.corpusFile.hashtable.drop bucket.toNat).take
          (numOverflowSlots.toNat + 2))) else _) = _
    rw [FinishedCorpus.hashtable_corpusFile hsize, if_pos (by omega), h16]

/-- What a lookup finds is read: the list of a trigram that the run has seen, or an empty slot. -/
theorem found_spec (beyond : Memory) {t : UInt32} {r : Trigram × ℕ}
    (h : findTrigramIn w.finished.file w.finished.header t = some (some r)) :
    r.1.trgm = t ∧
      (t ∈ allTrigrams w.corpus.invindex ∧
          r.1.numDocids.toNat = (docidsOf w.corpus.invindex t).length ∧
          postingListIn beyond w.finished.file r = some (docidsOf w.corpus.invindex t) ∨
        0x1000000 ≤ t ∧ r.1.numDocids = 0 ∧ postingListIn beyond w.finished.file r = none) := by
  obtain ⟨hpos, hsize, hlength, hplaced, k, hperm⟩ := w.table_spec
  obtain ⟨r', hr', hfind⟩ := w.findTrigramIn_eq t
  obtain rfl := Option.some.inj (h.symm.trans hr')
  obtain ⟨e, len⟩ := r
  obtain ⟨i, hi, htrgm, hetrgm, hnum, hoffset, hlen⟩ := findTrigram_eq_some hsize hfind
  have hi' := Nat.lt_of_succ_lt hi
  have hstands := FinishedCorpus.standsAt_list hi'
  rw [← hoffset] at hstands
  have hlen' : len = (slotList w.finished.getPlBuilder w.finished.hashtable[i]).length := by
    rw [hlen, hoffset, listsEnd, listsEnd, length_flatMap_take_succ _ _ hi']
    omega
  refine ⟨hetrgm, ?_⟩
  rcases List.mem_append.mp (hperm.mem_iff.mp (List.getElem_mem hi')) with hslot | hslot
  · obtain ⟨t', ht', hslot⟩ := List.mem_map.mp hslot
    obtain rfl : t' = t := (congrArg Trigram.trgm hslot).trans htrgm
    obtain ⟨hcount, -, hne, hdecode⟩ := w.list_spec ht'
    have hlist : slotList w.finished.getPlBuilder w.finished.hashtable[i] =
        (w.finished.getPlBuilder t').encoded := by
      rw [← hslot, slotList]
      exact if_neg (w.numDocids_ne_zero ht')
    have hnum' : e.numDocids = (w.finished.getPlBuilder t').numDocids := by
      rw [hnum, ← hslot]
      rfl
    rw [hlist] at hlen' hstands
    refine Or.inl ⟨ht', by rw [hnum', hcount], ?_⟩
    rw [postingListIn]
    change (submitRead w.finished.file len e.offset).bind _ = _
    rw [hlen', submitRead_standsAt hstands hne, Option.bind_some, hnum',
      hdecode _ 0 (hasBytes_writeBytes beyond 0 _)]
  · have hslot := (List.mem_replicate.mp hslot).2
    rw [hslot] at htrgm hlen' hnum
    have hlen0 : len = 0 := hlen'
    refine Or.inr ⟨?_, hnum, ?_⟩
    · rw [← htrgm]
      decide
    · rw [postingListIn]
      change (submitRead w.finished.file len e.offset).bind _ = _
      rw [hlen0]
      rfl

/-- Whatever the run has seen is found. -/
theorem found_of_mem {t : UInt32} (ht : t ∈ allTrigrams w.corpus.invindex) :
    ∃ r, findTrigramIn w.finished.file w.finished.header t = some (some r) := by
  obtain ⟨hpos, hsize, hlength, hplaced, k, hperm⟩ := w.table_spec
  have hslot : toInsert w.finished.getPlBuilder t ∈ w.finished.hashtable :=
    hperm.mem_iff.mpr (List.mem_append_left _ (List.mem_map_of_mem ht))
  obtain ⟨e, len, hfind⟩ := findTrigram_of_mem (List.replicate w.finished.tableStart 0) hpos hlength
    hsize hplaced hslot (w.numDocids_ne_zero ht)
  obtain ⟨r, hr, hfind'⟩ := w.findTrigramIn_eq t
  obtain rfl := Except.ok.inj (hfind'.symm.trans hfind)
  exact ⟨_, hr⟩

section Corpus

variable (beyond : Memory)

/-- No read of a search fails. -/
theorem readsSucceed : ReadsSucceed (zstd w.finished.dictionary) beyond w.finished.file
    w.finished.header where
  findTrigram trgm _ := by
    obtain ⟨r, hr, -⟩ := w.findTrigramIn_eq trgm
    rw [hr]
    exact Option.some_ne_none r
  postingList trgm h24 r hr := by
    rcases (w.found_spec beyond hr).2 with ⟨-, -, hlist⟩ | ⟨h24', -⟩
    · rw [hlist]
      exact Option.some_ne_none _
    · exact absurd h24 (not_lt.mpr h24')
  filenameBlock docid hdocid := by
    rw [UInt32.lt_iff_toNat_lt, w.fits.numDocids, w.compressed.blocks.length_eq] at hdocid
    have hblock := SavedDatabase.filenameBlockIn_eq hdocid
    rw [UInt32.ofNat_toNat] at hblock
    rw [hblock]
    exact Option.some_ne_none _

def corpusIn : Corpus :=
  Corpus.ofFile (zstd w.finished.dictionary) beyond w.finished.file w.finished.header

theorem filenameBlocks_corpusIn : (w.corpusIn beyond).filenameBlocks = w.corpus.filenameBlocks := by
  have hnum : w.finished.header.numDocids.toNat = w.corpus.filenameBlocks.length :=
    w.fits.numDocids.trans w.compressed.blocks.length_eq
  change (List.range w.finished.header.numDocids.toNat).map _ = _
  rw [hnum]
  refine List.ext_getElem (by rw [List.length_map, List.length_range]) fun k hk hk' => ?_
  rw [List.getElem_map, List.getElem_range, SavedDatabase.filenameBlockIn_eq hk', Option.getD_some]

theorem findTrigram_corpusIn {t : UInt32} {r : Trigram × ℕ} :
    (w.corpusIn beyond).findTrigram t = some r ↔
      findTrigramIn w.finished.file w.finished.header t = some (some r) := by
  change (findTrigramIn w.finished.file w.finished.header t).join = some r ↔ _
  obtain ⟨r', hr', -⟩ := w.findTrigramIn_eq t
  rw [hr', Option.join_some, Option.some.injEq]

theorem decode_corpusIn {t : UInt32} {r : Trigram × ℕ}
    (h : (w.corpusIn beyond).findTrigram t = some r) :
    r.1.trgm = t ∧ r.1.numDocids.toNat = ((w.corpusIn beyond).decode r).length ∧
      (t ∈ allTrigrams w.corpus.invindex ∧
          (w.corpusIn beyond).decode r = docidsOf w.corpus.invindex t ∨
        0x1000000 ≤ t ∧ (w.corpusIn beyond).decode r = []) := by
  obtain ⟨htrgm, hcase⟩ := w.found_spec beyond ((w.findTrigram_corpusIn beyond).mp h)
  have hdecode : (w.corpusIn beyond).decode r =
      (postingListIn beyond w.finished.file r).getD [] := rfl
  rw [hdecode]
  rcases hcase with ⟨hmem, hnum, hlist⟩ | ⟨h24, hnum, hlist⟩
  · rw [hlist]
    exact ⟨htrgm, hnum, Or.inl ⟨hmem, rfl⟩⟩
  · rw [hlist, hnum]
    exact ⟨htrgm, rfl, Or.inr ⟨h24, rfl⟩⟩

/-- If no trigram is only in a filename of three bytes that ends its block, what a search sees is
the paths with the blocks of every trigram. -/
theorem exact_corpusIn (hlast : ∀ names ∈ w.blocks, LastNameCovered names) :
    (w.corpusIn beyond).Exact w.blocks := by
  have hcount := w.length_blocks
  rw [w.length_finished] at hcount
  obtain ⟨invindex, hok, hexact⟩ :=
    exact_of_indexable (indexable_of_length_le hcount.le hlast)
  obtain rfl := Except.ok.inj (hok.symm.trans w.corpus_eq.1)
  refine ⟨(w.filenameBlocks_corpusIn beyond).trans w.corpus_eq.2, fun names => w.isName,
    fun names => ne_nil_of_mem_blocksOf, hcount.le.trans (by decide),
    fun t r h => (w.decode_corpusIn beyond h).1, fun t r h => (w.decode_corpusIn beyond h).2.1,
    fun t r h => ?_, fun t ht d => ?_⟩
  · rcases (w.decode_corpusIn beyond h).2.2 with ⟨hmem, hdecode⟩ | ⟨-, hdecode⟩
    · rw [hdecode]
      exact (hexact t (mem_allTrigrams.mp hmem).1).1
    · rw [hdecode]
      exact List.Pairwise.nil
  · have hmem : (∃ names, w.blocks[d.toNat]? = some names ∧ Occurs t names) ↔
        d ∈ docidsOf w.corpus.invindex t := by
      rw [← (hexact t ht).2 d.toNat, List.mem_map]
      constructor
      · rintro ⟨d', hd', heq⟩
        rwa [← UInt32.toNat_inj.mp heq]
      · exact fun hd => ⟨d, hd, rfl⟩
    rw [hmem]
    constructor
    · rintro ⟨r, hr, hd⟩
      rcases (w.decode_corpusIn beyond hr).2.2 with ⟨-, hdecode⟩ | ⟨-, hdecode⟩
      · rwa [hdecode] at hd
      · rw [hdecode] at hd
        cases hd
    · intro hd
      have hseen : t ∈ allTrigrams w.corpus.invindex := by
        refine mem_allTrigrams.mpr ⟨ht, Option.isSome_iff_ne_none.mpr fun hnone => ?_⟩
        rw [docidsOf, hnone] at hd
        cases hd
      obtain ⟨r, hr⟩ := w.found_of_mem hseen
      have hfind := (w.findTrigram_corpusIn beyond).mpr hr
      refine ⟨r, hfind, ?_⟩
      rcases (w.decode_corpusIn beyond hfind).2.2 with ⟨-, hdecode⟩ | ⟨h24, -⟩
      · rwa [hdecode]
      · exact absurd ht (not_lt.mpr h24)

end Corpus

end IndexedDatabase

end Flocate
