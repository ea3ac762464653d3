import Flocate.DatabaseList
import Flocate.GlobTrigrams
import Flocate.SavedIndex
import Flocate.SearchAgreement
import Flocate.SelectionRuns

/-!
# Searching a written database

A search reads candidate blocks in any order. Whatever it asks for, it finds the stored paths that
match, in the order in which they are stored.
-/

namespace Flocate

open Bytes SortedList

namespace Query

/-- Every name that is reported has a trigram of every group. -/
def Sound (query : Query) : Prop :=
  ∀ s, IsName s → query.reported s = true → ∀ td ∈ query.groups,
    ∃ t ∈ td.trigramAlternatives, t < 0x1000000 ∧ trigramBytes t <:+: s

section Blocks

variable {query : Query} {corpus : Corpus} {blocks : List (List Str)}

theorem scanFileBlock_joinNul {names : List Str} (hne : names ≠ [])
    (hnames : ∀ s ∈ names, IsName s) :
    query.scanFileBlock (joinNul names) = names.filter query.reported := by
  rw [scanFileBlock, joinNul_append_nul hne,
    splitNul_terminateNul fun s hs => (hnames s hs).nul_free]

theorem scanAllDocids_eq (hexact : corpus.Exact blocks) :
    query.scanAllDocids corpus = blocks.flatten.filter query.reported := by
  have heach : ∀ names ∈ blocks, query.scanFileBlock (joinNul names) =
      names.filter query.reported := fun names hnames =>
    scanFileBlock_joinNul (hexact.ne_nil names hnames) (hexact.isName names hnames)
  rw [scanAllDocids, hexact.filenameBlocks, List.flatMap_map, List.flatMap_congr heach,
    List.filter_flatten, List.flatMap_def]

def matchesOf (query : Query) (blocks : List (List Str)) (i : ℕ) : List Str :=
  (blocks[i]?).toList.flatMap fun names => names.filter query.reported

theorem flatMap_matchesOf (blocks : List (List Str)) :
    (List.range blocks.length).flatMap (query.matchesOf blocks) =
      blocks.flatten.filter query.reported := by
  have hmap : (List.range blocks.length).map (query.matchesOf blocks) =
      blocks.map fun names => names.filter query.reported := by
    refine List.ext_getElem (by simp) fun i hi hi' => ?_
    rw [List.length_map] at hi'
    rw [List.getElem_map, List.getElem_range, List.getElem_map, matchesOf,
      List.getElem?_eq_getElem hi', Option.toList_some, List.flatMap_singleton]
  rw [List.flatMap_def, hmap, List.filter_flatten]

/-- Candidates in order that leave out no block with a match. -/
theorem scanDocids_eq (hexact : corpus.Exact blocks) {docids : List UInt32}
    (hsorted : docids.Pairwise (· < ·))
    (hcovers : ∀ d : UInt32, query.matchesOf blocks d.toNat ≠ [] → d ∈ docids) :
    query.scanDocids docids corpus = blocks.flatten.filter query.reported := by
  have heach (d : UInt32) : (corpus.filenameBlocks[d.toNat]?).toList.flatMap query.scanFileBlock =
      query.matchesOf blocks d.toNat := by
    rw [hexact.filenameBlocks, List.getElem?_map, matchesOf]
    cases hi : blocks[d.toNat]? with
    | none => rfl
    | some names =>
        have hmem := List.mem_of_getElem? hi
        rw [Option.map_some, Option.toList_some, List.flatMap_singleton, Option.toList_some,
          List.flatMap_singleton,
          scanFileBlock_joinNul (hexact.ne_nil names hmem) (hexact.isName names hmem)]
  have hscan : query.scanDocids docids corpus =
      (docids.map UInt32.toNat).flatMap (query.matchesOf blocks) := by
    rw [scanDocids, List.flatMap_map]
    exact List.flatMap_congr fun d _ => heach d
  rw [hscan, ← flatMap_matchesOf]
  refine flatMap_eq_of_mem_iff ?_ List.pairwise_lt_range fun i hi => ?_
  · rw [List.pairwise_map]
    exact hsorted.imp UInt32.lt_iff_toNat_lt.mp
  · have hlt : i < blocks.length := by
      by_contra hge
      rw [matchesOf, List.getElem?_eq_none (Nat.not_lt.mp hge)] at hi
      exact hi rfl
    obtain ⟨d, rfl⟩ : ∃ d : UInt32, d.toNat = i :=
      ⟨UInt32.ofNat i, UInt32.toNat_ofNat_of_lt' (hlt.trans_le hexact.length_le)⟩
    exact iff_of_true (List.mem_map_of_mem (hcovers d hi)) (List.mem_range.mpr hlt)

/-- A block with a match is in some list of every group. -/
theorem exists_list_of_match (hexact : corpus.Exact blocks) (hsound : query.Sound) {d : UInt32}
    (hmatch : query.matchesOf blocks d.toNat ≠ []) {td : TrigramDisjunction}
    (htd : td ∈ query.groups) :
    ∃ t ∈ td.trigramAlternatives, ∃ r, corpus.findTrigram t = some r ∧ d ∈ corpus.decode r := by
  obtain ⟨s, hs⟩ := List.exists_mem_of_ne_nil _ hmatch
  obtain ⟨names, hnames, hs⟩ := List.mem_flatMap.mp hs
  have hnames := Option.mem_toList.mp hnames
  obtain ⟨hs, hreported⟩ := List.mem_filter.mp hs
  have hname := hexact.isName names (List.mem_of_getElem? hnames) s hs
  obtain ⟨t, ht, hlt, hin⟩ := hsound s hname hreported td htd
  obtain ⟨r, hr, hd⟩ := (hexact.exact t hlt d).mpr ⟨names, hnames, s, hs, hin⟩
  exact ⟨t, ht, r, hr, hd⟩

theorem wellFormed_of_exact (hexact : corpus.Exact blocks) : corpus.WellFormed where
  trgm := hexact.trgm
  nonempty block hblock := by
    rw [hexact.filenameBlocks] at hblock
    obtain ⟨names, hnames, rfl⟩ := List.mem_map.mp hblock
    rw [joinNul_append_nul (hexact.ne_nil names hnames),
      splitNul_terminateNul fun s hs => (hexact.isName names hnames s hs).nul_free]
    exact fun hnil => (hexact.isName names hnames [] hnil).ne_nil rfl

/-- The matches of a search are all stored names that match, in order. -/
theorem Search.filenames_eq (hexact : corpus.Exact blocks) (hsound : query.Sound)
    {result : SearchResult} (h : query.Search true corpus result) :
    result.filenames = blocks.flatten.filter query.reported := by
  cases h with
  | inaccessible h => cases h
  | bruteForce => exact scanAllDocids_eq hexact
  | missingGroup _ hne horder hlook =>
      obtain ⟨td, htd, hnone⟩ := (lookUp_stops_iff (wellFormed_of_exact hexact) horder).mp hlook
      -- a match would have its block in a list of the group that has no lists
      refine scanDocids_eq hexact List.Pairwise.nil fun d hmatch => ?_
      obtain ⟨t, ht, r, hr, -⟩ := exists_list_of_match hexact hsound hmatch htd
      rw [hnone t ht] at hr
      cases hr
  | @intersected order groups₁ groups events st _ hne horder hlook hsort _ hrun hend =>
      have hmem {td' : TrigramDisjunction} (htd' : td' ∈ groups) :=
        exists_of_mem_sorted hexact.trgm query.fresh horder hlook hsort htd'
      have hgroups : query.groups ≠ [] := by
        intro hnil
        rw [hnil] at hne
        exact hne rfl
      have hevery (d : UInt32) (hmatch : query.matchesOf blocks d.toNat ≠ []) :
          InEveryGroup corpus.decode (groups.map (·.readTrigrams)) d := by
        intro rs hrs
        obtain ⟨td', htd', rfl⟩ := List.mem_map.mp hrs
        obtain ⟨td, htd, rfl⟩ := List.mem_map.mp (hsort.mem_iff.mp htd')
        have hlookUp := lookUp_inv hexact.trgm (horder.nodup_iff.mpr (List.nodup_dedup _))
          query.fresh
        rw [hlook] at hlookUp
        have hin : td.trigramAlternatives ∈ query.groups.map (·.trigramAlternatives) :=
          hlookUp.alternatives ▸ List.mem_map_of_mem htd
        obtain ⟨td₀, htd₀, heq⟩ := List.mem_map.mp hin
        obtain ⟨t, ht, r, hr, hd⟩ := exists_list_of_match hexact hsound hmatch htd₀
        have hseen := List.mem_reverse.mpr (mem_of_perm_trigramsToLookup horder htd₀ ht)
        have htrgm := hexact.trgm t r hr
        refine ⟨r, ((hlookUp.lookedUp td htd).mem r).mpr ?_, hd⟩
        rw [htrgm]
        exact ⟨heq ▸ ht, hseen, hr⟩
      have hinv := Run.invariant (fun _ _ _ hi hs => Selection.Inv.step hexact.sorted hi hs)
        (Selection.start_inv fun td' => hmem) hrun
      change (if st.done then [] else query.scanDocids st.curCandidates corpus) = _
      rcases hinv.state with ⟨hdone, hcov⟩ | ⟨_, hact⟩
      · rw [if_pos hdone]
        exact scanDocids_eq hexact List.Pairwise.nil fun d hmatch => hcov d (hevery d hmatch)
      · rw [hact.running, if_neg Bool.false_ne_true]
        rcases hinv.ended (sorted_ne_nil hexact.trgm hgroups query.fresh horder hlook hsort) hend
          with ⟨hdone, -⟩ | ⟨hsorted, hcov⟩
        · rw [hact.running] at hdone
          cases hdone
        · exact scanDocids_eq hexact hsorted fun d hmatch => hcov d (hevery d hmatch)

theorem exists_perm_sorted (groups : List TrigramDisjunction) :
    ∃ sorted : List TrigramDisjunction, sorted.Perm groups ∧
      sorted.Pairwise (·.maxNumDocids ≤ ·.maxNumDocids) := by
  have hsorted := UniqueSort.pairwise_mergeSort TrigramDisjunction.maxNumDocids
    (fun td td' => decide_eq_true_iff (p := td.maxNumDocids ≤ td'.maxNumDocids)) groups
  exact ⟨_, List.mergeSort_perm _ _, hsorted⟩

/-- A search ends. -/
theorem exists_search (query : Query) (corpus : Corpus) :
    ∃ result, query.Search true corpus result := by
  by_cases hnil : trigramsToLookup query.groups = []
  · exact ⟨_, .bruteForce rfl hnil⟩
  · cases hlook : lookUp corpus.findTrigram (trigramsToLookup query.groups) query.groups with
    | mk groups₁ stopped =>
        cases stopped with
        | true => exact ⟨_, .missingGroup rfl hnil (.refl _) (by rw [hlook])⟩
        | false =>
            obtain ⟨groups, hperm, hsorted⟩ := exists_perm_sorted (groups₁.map .reset)
            obtain ⟨events, s, hrun, hend⟩ :=
              Selection.exists_ended query.ignoreCase corpus.decode (.start groups)
            exact ⟨_, .intersected rfl hnil (.refl _) hlook hperm hsorted hrun hend⟩

end Blocks

section Needles

variable {options : SearchOptions} {needles : List Needle}

/-- Patterns whose trigrams are in whatever they match, and needles without wildcards. A trigram
that is read across a backslash has to occur in one of these all the same. -/
theorem sound_ofNeedles (h : ∀ needle ∈ needles,
      needle.type = .glob ∧ TrigramsSound options.fnmatch needle.str ∨
        needle.type = .strstr ∧ ∀ p, UnigramSuffix needle.str p → IsUnigram (readTrigram p) →
          EscapeInside p → ∃ needle' ∈ needles, needle'.type = .strstr ∧
            trigramBytes (readTrigram p) <:+: needle'.str) :
    (ofNeedles options needles).Sound := by
  intro s hname hreported td htd
  obtain ⟨needle, hneedle, p, hp, hval, rfl⟩ := exists_of_mem_trigramGroups htd
  obtain ⟨a, b, c, heq, hin⟩ := readTrigram_spec hval
  have hsuffix := haystack_suffix options.matchBasename s
  have hmatches : ∀ needle ∈ needles,
      «matches» options.fnmatch needle (haystack options.matchBasename s) = true :=
    List.all_eq_true.mp (Bool.and_eq_true_iff.mp hreported).1
  have hplain {needle : Needle} (hneedle : needle ∈ needles) (htype : needle.type = .strstr) :
      needle.str <:+: s := by
    have hmatch := hmatches needle hneedle
    rw [«matches», htype] at hmatch
    exact (of_decide_eq_true hmatch).trans hsuffix.isInfix
  refine ⟨readTrigram p, List.mem_singleton_self _, heq ▸ readWindow_lt a b c, ?_⟩
  rcases h needle hneedle with ⟨htype, hsound⟩ | ⟨htype, hocc⟩
  · have hne : p ≠ [] := by
      rintro rfl
      exact absurd hval (by decide)
    have hneedleEq : needle = ⟨.glob, needle.str⟩ := by rw [← htype]
    have hbytes := hsound _ (fun hzero => hname.nul_free (hsuffix.subset hzero))
      (hneedleEq ▸ hmatches needle hneedle) _ (mem_parseTrigrams.mpr ⟨p, hp, hne, hval, rfl⟩)
      (readTrigram p) (List.mem_singleton_self _)
    exact hbytes.trans hsuffix.isInfix
  · by_cases hesc : EscapeInside p
    · obtain ⟨needle', hneedle', htype', hbytes⟩ := hocc p hp hval hesc
      exact hbytes.trans (hplain hneedle' htype')
    · rw [heq, trigramBytes_readWindow]
      exact (hin hesc).trans (hp.suffix.isInfix.trans (hplain hneedle htype))

end Needles

end Query

/-- What one database has is printed as far as the limit allows. -/
theorem composes_single {options : OutputOptions} {result : SearchResult}
    (hne : ∀ s ∈ result.filenames, s ≠ []) (hlength : result.filenames.length < 2 ^ 63) :
    Composes options result.filenames (flocate options [result]) := by
  have hnone : (allFilenames []).length < options.limitMatches := limitMatches_pos options
  cases result with
  | missingGroup =>
      have hprinted : flocate options ([] ++ [.missingGroup]) = _ :=
        flocate_missingGroup (fun _ hs => nomatch hs) hnone
      have hfirst : options.firstMatches [] = [] := firstMatches_of_lt hnone
      rw [List.nil_append] at hprinted
      rw [hprinted, composes_iff_eq, SearchResult.filenames, hfirst]
      exact ⟨rfl, rfl⟩
  | found filenames =>
      have hall : allFilenames ([] ++ [.found filenames]) = filenames := by
        rw [List.nil_append, allFilenames, List.flatMap_singleton]
        rfl
      have hprinted : flocate options ([] ++ [.found filenames]) = _ :=
        flocate_found (hall.symm ▸ hne) hnone
      dsimp only at hprinted
      rw [hall, List.nil_append] at hprinted
      rw [hprinted]
      split
      · rename_i hlt
        rw [composes_iff_eq]
        exact ⟨by rw [SearchResult.filenames, firstMatches_of_lt hlt], rfl⟩
      · rename_i hge
        exact (composes_limit_iff (Nat.not_lt.mp hge)).mpr fun _ => hlength

section Database

variable {σ : Type} {stream : StreamDecoder σ} {zstd : Str → Zstd σ}

section TwoRecords

def secondBlock : PostingListBuilder := ⟨[.baseval 1], [], 1, 1⟩

/-- The records of a directory and a file in it, with an index. -/
def indexedSections : FinishedCorpus where
  blocks := (rawSections [directoryRecord, fileRecord] [] []).blocks
  getPlBuilder _ := ⟨1, [1]⟩
  htSize := 5
  hashtable := [⟨6434657, 1, 0⟩, emptySlot, ⟨3105071, 1, 0⟩] ++ List.replicate 19 emptySlot
  directoryData := (rawSections [directoryRecord, fileRecord] [] []).directoryData
  metadata := (rawSections [directoryRecord, fileRecord] [] []).metadata
  block_ne_nil := (rawSections [directoryRecord, fileRecord] [] []).block_ne_nil
  hashtable_ne_nil := List.cons_ne_nil _ _
  encoded_ne_nil _ _ _ := List.cons_ne_nil _ _

theorem blocksOf_two : (blocksOf 1 ([directoryRecord, fileRecord].map (·.path))).map
    indexedTrigrams = [[], [3105071, 6434657]] := by decide +kernel

theorem nextPrime_two : nextPrime 2 = 5 := by
  have heven : (2 : UInt32) % 2 = 0 := by decide
  have hthree : ¬isPrime (2 + 1) = true := by decide +kernel
  have hfive : isPrime (2 + 1 + 2) = true := by decide +kernel
  rw [nextPrime, dif_pos heven, nextOddPrime, dif_neg hthree, nextOddPrime, dif_pos hfive]
  rfl

theorem exists_indexedDatabase : ∃ w : IndexedDatabase rawStream fun _ => rawZstd,
    w.records = [directoryRecord, fileRecord] ∧ ∀ names ∈ w.blocks, LastNameCovered names := by
  have hrecords := storable_records
  have hpaths : ∀ r ∈ [directoryRecord, fileRecord], r.path.length < 256 := by decide
  obtain ⟨corpus, hbuild⟩ := build_ok Nat.one_pos true true (fun r hr => (hrecords r hr).name)
    (show [directoryRecord, fileRecord].length ≤ 2 ^ 28 by decide)
  have hindex : corpus.invindex = Function.update (Function.update (fun _ => none) 3105071
      (some secondBlock)) 6434657 (some secondBlock) := by
    have hok := hbuild
    rw [build_eq Nat.one_pos true true fun r hr => (hrecords r hr).name, blocksOf_two,
      Fault.map_eq_ok] at hok
    obtain ⟨invindex, hinvindex, rfl⟩ := hok
    exact Except.ok.inj (hinvindex.symm.trans rfl)
  have hlists {t : UInt32} {b : PostingListBuilder} (hb : corpus.invindex t = some b) :
      (t = 3105071 ∨ t = 6434657) ∧ b = secondBlock := by
    rw [hindex] at hb
    by_cases hsecond : t = 6434657
    · rw [hsecond, Function.update_self] at hb
      exact ⟨Or.inr hsecond, (Option.some.inj hb).symm⟩
    · rw [Function.update_of_ne hsecond] at hb
      by_cases hfirst : t = 3105071
      · rw [hfirst, Function.update_self] at hb
        exact ⟨Or.inl hfirst, (Option.some.inj hb).symm⟩
      · rw [Function.update_of_ne hfirst] at hb
        cases hb
  have hall : allTrigrams corpus.invindex = [3105071, 6434657] := by
    refine List.Perm.eq_of_pairwise' (pairwise_allTrigrams _) (by decide) ?_
    have hnodup : (allTrigrams corpus.invindex).Nodup :=
      (pairwise_allTrigrams _).imp fun hlt heq => UInt32.ne_of_lt hlt heq
    refine (List.perm_ext_iff_of_nodup hnodup (by decide)).mpr fun t => ?_
    rw [mem_allTrigrams, List.mem_pair]
    constructor
    · rintro ⟨-, hsome⟩
      obtain ⟨b, hb⟩ := Option.isSome_iff_exists.mp hsome
      exact (hlists hb).1
    · rintro (rfl | rfl)
      · exact ⟨by decide, by rw [hindex]; rfl⟩
      · exact ⟨by decide, by rw [hindex]; rfl⟩
  have hwritten : (rawSections [directoryRecord, fileRecord] [] []).Compressed rawStream
      (fun _ => rawZstd) corpus [] := compressed_rawSections hrecords hpaths hbuild
  refine ⟨{
    records := [directoryRecord, fileRecord]
    history := []
    blockSize := 1
    corpus := corpus
    finished := indexedSections
    blockSize_pos := Nat.one_pos
    storable := hrecords
    nodup := by decide
    length_records := by decide
    build := hbuild
    compressed := ⟨hwritten.blocks, hwritten.directoryData, hwritten.metadata, hwritten.history⟩
    length_dictionary := Nat.two_pow_pos 32
    length_block := ?_
    length_file := by decide +kernel
    lists := fun t b hb => ⟨fun _ => 0, [1], by rw [(hlists hb).2]; rfl, by rw [(hlists hb).2]; rfl⟩
    tried := ?_
    table := by rw [hall]; decide +kernel
    length_blocks := by decide +kernel }, rfl, ?_⟩
  · rw [(build_streams Nat.one_pos hrecords hbuild).1]
    intro block hblock
    obtain ⟨b, hb, rfl⟩ := List.mem_map.mp hblock
    exact (length_block_one hpaths hb).le.trans (by decide)
  · have hsize : indexedSections.htSize = nextPrime (UInt32.ofNat [3105071, 6434657].length) :=
      nextPrime_two.symm
    rw [hall, hsize]
    exact .start
  · intro names hnames s hs hlength
    have hall : ∀ p ∈ [directoryRecord, fileRecord].map (·.path), p.length ≠ 3 := by decide
    exact absurd hlength (hall s (mem_of_mem_blocksOf hnames (List.mem_of_getLast? hs)))

end TwoRecords

end Database

end Flocate
