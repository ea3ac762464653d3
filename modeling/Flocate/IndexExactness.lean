import Flocate.BlockTrigrams

/-!
# When the inverted index is exact

A corpus that is built from a list of files indexes one block after the other. Every posting list
then has the numbers of the blocks whose walk visited the trigram. These are the blocks that
contain it, unless a filename of three bytes ends a block and its trigram is nowhere else in it,
or block numbers leave the range of docids.
-/

namespace Flocate

open Bytes Fault

def docidsOf (invindex : InvIndex) (t : UInt32) : List UInt32 :=
  (invindex t).elim [] PostingListBuilder.docids

/-- Adding a docid that may repeat the last one. -/
def appendDocid (docids : List UInt32) (docid : UInt32) : List UInt32 :=
  if docids.getLast? = some docid then docids else docids ++ [docid]

def AllStarted (invindex : InvIndex) : Prop := ∀ t b, invindex t = some b → b.Started

theorem appendDocid_appendDocid (docids : List UInt32) (docid : UInt32) :
    appendDocid (appendDocid docids docid) docid = appendDocid docids docid := by
  by_cases h : docids.getLast? = some docid
  · simp only [appendDocid, if_pos h]
  · simp only [appendDocid, if_neg h, List.getLast?_concat, if_true]

theorem appendDocid_ne_nil (docids : List UInt32) (docid : UInt32) :
    appendDocid docids docid ≠ [] := by
  rw [appendDocid]
  split
  · rintro rfl
    simp_all
  · exact List.append_ne_nil_of_right_ne_nil _ (List.cons_ne_nil _ _)

theorem docidsOf_update (invindex : InvIndex) (t t' : UInt32) (b : PostingListBuilder) :
    docidsOf (Function.update invindex t (some b)) t' =
      if t' = t then b.docids else docidsOf invindex t' := by
  by_cases h : t' = t
  · rw [h, if_pos rfl, docidsOf, Function.update_self]
    rfl
  · rw [if_neg h, docidsOf, Function.update_of_ne h]
    rfl

theorem allStarted_update {invindex : InvIndex} (h : AllStarted invindex) (t : UInt32)
    {b : PostingListBuilder} (hb : b.Started) :
    AllStarted (Function.update invindex t (some b)) := by
  intro t' b' hb'
  by_cases ht : t' = t
  · rw [ht, Function.update_self] at hb'
    rwa [← Option.some.inj hb']
  · rw [Function.update_of_ne ht] at hb'
    exact h t' b' hb'

theorem addDocid_eq_ok {docid t : UInt32} {invindex invindex' : InvIndex}
    (hs : AllStarted invindex) (h : addDocid docid invindex t = .ok invindex') :
    AllStarted invindex' ∧
      (∀ t', docidsOf invindex' t' =
        if t' = t then appendDocid (docidsOf invindex t') docid else docidsOf invindex t') ∧
      (docidsOf invindex t = [] → docid < 0x10000000) := by
  rw [addDocid] at h
  cases hb : invindex t with
  | none =>
      rw [hb, map_eq_ok] at h
      obtain ⟨b, hb', rfl⟩ := h
      obtain ⟨hdocids, hstarted⟩ := PostingListBuilder.docids_addFirstDocid hb'
      refine ⟨allStarted_update hs t hstarted, fun t' => ?_, fun _ => ?_⟩
      · rw [docidsOf_update]
        split
        · rename_i ht
          rw [ht, docidsOf, hb, hdocids]
          rfl
        · rfl
      · rw [PostingListBuilder.addFirstDocid] at hb'
        split at hb'
        · assumption
        · cases hb'
  | some b =>
      rw [hb] at h
      obtain rfl := Except.ok.inj h
      have hstart := hs t b hb
      obtain ⟨hdocids, hstarted⟩ := PostingListBuilder.docids_addDocid hstart docid
      refine ⟨allStarted_update hs t hstarted, fun t' => ?_, fun hnil => ?_⟩
      · rw [docidsOf_update]
        split
        · rename_i ht
          rw [ht, hdocids, docidsOf, hb, Option.elim_some, appendDocid, hstart]
          simp only [Option.some.injEq, eq_comm]
        · rfl
      · rw [docidsOf, hb, Option.elim_some] at hnil
        rw [PostingListBuilder.Started, hnil] at hstart
        cases hstart

theorem addDocid_ok {docid t : UInt32} {invindex : InvIndex}
    (h : docidsOf invindex t = [] → docid < 0x10000000) :
    ∃ invindex', addDocid docid invindex t = .ok invindex' := by
  rw [addDocid]
  cases hb : invindex t with
  | none =>
      have hlt := h (by rw [docidsOf, hb]; rfl)
      simp only [PostingListBuilder.addFirstDocid, if_pos hlt]
      exact ⟨_, rfl⟩
  | some b => exact ⟨_, rfl⟩

/-- One block: every trigram visited gets the docid once. -/
theorem foldlM_addDocid_eq_ok {docid : UInt32} {trgms : List UInt32} {invindex invindex' : InvIndex}
    (hs : AllStarted invindex) (h : trgms.foldlM (addDocid docid) invindex = .ok invindex') :
    AllStarted invindex' ∧
      (∀ t, docidsOf invindex' t =
        if t ∈ trgms then appendDocid (docidsOf invindex t) docid else docidsOf invindex t) ∧
      (∀ t ∈ trgms, docidsOf invindex t = [] → docid < 0x10000000) := by
  induction trgms generalizing invindex with
  | nil =>
      obtain rfl := Except.ok.inj h
      exact ⟨hs, fun t => (if_neg List.not_mem_nil).symm, nofun⟩
  | cons t₀ trgms ih =>
      rw [List.foldlM_cons, bind_eq_ok] at h
      obtain ⟨invindex₁, h₁, h⟩ := h
      obtain ⟨hs₁, hdocids₁, hlt₁⟩ := addDocid_eq_ok hs h₁
      obtain ⟨hs', hdocids, hlt⟩ := ih hs₁ h
      refine ⟨hs', fun t => ?_, fun t ht hnil => ?_⟩
      · simp only [hdocids, hdocids₁, List.mem_cons]
        by_cases ht : t = t₀
        · simp only [ht, if_true, true_or, appendDocid_appendDocid, ite_self]
        · simp only [ht, if_false, false_or]
      · rcases List.mem_cons.mp ht with rfl | ht
        · exact hlt₁ hnil
        · by_cases heq : t = t₀
          · exact hlt₁ (heq ▸ hnil)
          · exact hlt t ht (by rw [hdocids₁, if_neg heq, hnil])

theorem foldlM_addDocid_ok {docid : UInt32} {trgms : List UInt32} {invindex : InvIndex}
    (hs : AllStarted invindex)
    (h : ∀ t ∈ trgms, docidsOf invindex t = [] → docid < 0x10000000) :
    ∃ invindex', trgms.foldlM (addDocid docid) invindex = .ok invindex' := by
  induction trgms generalizing invindex with
  | nil => exact ⟨invindex, rfl⟩
  | cons t₀ trgms ih =>
      rw [List.forall_mem_cons] at h
      obtain ⟨invindex₁, h₁⟩ := addDocid_ok h.1
      obtain ⟨hs₁, hdocids₁, -⟩ := addDocid_eq_ok hs h₁
      obtain ⟨invindex', h'⟩ := ih hs₁ fun t ht hnil => by
        rw [hdocids₁] at hnil
        split at hnil
        · exact absurd hnil (appendDocid_ne_nil _ _)
        · exact h.2 t ht hnil
      exact ⟨invindex', by rw [List.foldlM_cons, h₁]; exact h'⟩

def indexBlocks : ℕ → InvIndex → List (List UInt32) → Except Fault InvIndex
  | _, invindex, [] => .ok invindex
  | n, invindex, trgms :: blocks => do
      let invindex ← trgms.foldlM (addDocid (UInt32.ofNat n)) invindex
      indexBlocks (n + 1) invindex blocks

section Build

variable {corpus : EncodingCorpus} {cur : List Str}

structure Holds (corpus : EncodingCorpus) (cur : List Str) : Prop where
  names : ∀ s ∈ cur, IsName s
  currentBlock : corpus.currentBlock = joinNul cur
  numFilesInBlock : corpus.numFilesInBlock = cur.length
  room : cur.length < corpus.blockSize

def EncodingCorpus.finished (corpus : EncodingCorpus) (records : List FileRecord)
    (blocks : List (List Str)) (invindex : InvIndex) : EncodingCorpus :=
  { corpus with
    numFiles := corpus.numFiles + records.length
    numFilesInBlock := 0
    numBlocks := corpus.numBlocks + blocks.length
    filenameBlocks := corpus.filenameBlocks ++ blocks.map joinNul
    invindex := invindex
    currentBlock := []
    dirTimes := corpus.dirTimes ++
      if corpus.storeDirTimes then
        records.flatMap fun r => EncodingCorpus.dirTimeRecord r.dirTimestamp
      else []
    metadataStream := corpus.metadataStream ++
      if corpus.storeMetadata then records.flatMap fun r => encodeMetadataRecord r.metadata
      else [] }

theorem currentBlock_addPath (h : Holds corpus cur) {path : Str} (hp : IsName path) :
    (∀ s ∈ cur ++ [path], IsName s) ∧
      (corpus.addPath path).currentBlock = joinNul (cur ++ [path]) := by
  constructor
  · intro s hs
    rcases List.mem_append.mp hs with hs | hs
    · exact h.names s hs
    · rwa [List.mem_singleton.mp hs]
  · change (if corpus.currentBlock = [] then [] else corpus.currentBlock ++ [0]) ++ path = _
    rw [h.currentBlock]
    by_cases hc : cur = []
    · subst hc
      rfl
    · rw [if_neg (by rwa [joinNul_eq_nil h.names]), joinNul_concat hc, List.append_assoc]
      rfl

theorem finished_nil (h : Holds corpus []) :
    corpus.finished [] [] corpus.invindex = corpus := by
  have hb : corpus.currentBlock = [] := h.currentBlock
  have hn : corpus.numFilesInBlock = 0 := h.numFilesInBlock
  cases corpus
  subst hb hn
  simp [EncodingCorpus.finished]

def EncodingCorpus.flushed (corpus : EncodingCorpus) (cur : List Str) (invindex : InvIndex) :
    EncodingCorpus :=
  { corpus with
    invindex := invindex
    filenameBlocks := corpus.filenameBlocks ++ [joinNul cur]
    currentBlock := []
    numFilesInBlock := 0
    numBlocks := corpus.numBlocks + 1 }

theorem finished_addPath (corpus : EncodingCorpus) (r : FileRecord) (records : List FileRecord)
    (blocks : List (List Str)) (invindex : InvIndex) :
    ((corpus.addPath r.path).addStreams r).finished records blocks invindex =
      corpus.finished (r :: records) blocks invindex := by
  cases hd : corpus.storeDirTimes <;> cases hm : corpus.storeMetadata <;>
    simp [EncodingCorpus.finished, EncodingCorpus.addStreams, EncodingCorpus.addPath, hd, hm,
      Nat.add_assoc, Nat.add_comm 1]

theorem finished_flushed (corpus : EncodingCorpus) (r : FileRecord) (records : List FileRecord)
    (block : List Str) (blocks : List (List Str)) (invindex invindex' : InvIndex) :
    (((corpus.addPath r.path).flushed block invindex').addStreams r).finished records blocks
        invindex =
      corpus.finished (r :: records) (block :: blocks) invindex := by
  cases hd : corpus.storeDirTimes <;> cases hm : corpus.storeMetadata <;>
    simp [EncodingCorpus.finished, EncodingCorpus.addStreams, EncodingCorpus.addPath,
      EncodingCorpus.flushed, hd, hm, Nat.add_assoc, Nat.add_comm 1]

theorem flushBlock_eq (hcur : ∀ s ∈ cur, IsName s) (hne : cur ≠ [])
    (hb : corpus.currentBlock = joinNul cur) :
    corpus.flushBlock =
      ((indexedTrigrams cur).foldlM (addDocid (UInt32.ofNat corpus.numBlocks)) corpus.invindex).map
        (corpus.flushed cur) := by
  have hnil : corpus.currentBlock ≠ [] := by
    rw [hb, Ne, joinNul_eq_nil hcur]
    exact hne
  rw [EncodingCorpus.flushBlock, if_neg hnil, hb, joinNul_append_nul hne,
    blockTrigrams_terminateNul hcur]
  change (List.foldlM _ _ _ >>= fun invindex => Except.ok _) = _
  cases (indexedTrigrams cur).foldlM (addDocid (UInt32.ofNat corpus.numBlocks)) corpus.invindex with
  | error e => rfl
  | ok invindex => rfl

/-- A corpus in the middle of a block indexes the blocks that its files make with those to come. -/
theorem foldlM_addFile_finish (h : Holds corpus cur) (records : List FileRecord)
    (hnames : ∀ r ∈ records, IsName r.path) :
    (records.foldlM EncodingCorpus.addFile corpus >>= EncodingCorpus.finish) =
      (indexBlocks corpus.numBlocks corpus.invindex
        ((blocksOf corpus.blockSize (cur ++ records.map (·.path))).map indexedTrigrams)).map
        (corpus.finished records (blocksOf corpus.blockSize (cur ++ records.map (·.path)))) := by
  induction records generalizing corpus cur with
  | nil =>
      rw [List.map_nil, List.append_nil]
      change corpus.flushBlock = _
      by_cases hc : cur = []
      · subst hc
        have hb : corpus.currentBlock = [] := h.currentBlock
        rw [EncodingCorpus.flushBlock, if_pos hb, blocksOf_nil]
        change Except.ok corpus = Except.ok (corpus.finished [] [] corpus.invindex)
        rw [finished_nil h]
      · rw [flushBlock_eq h.names hc h.currentBlock, blocksOf_of_length_lt h.room hc,
          List.map_singleton, indexBlocks]
        cases (indexedTrigrams cur).foldlM (addDocid (UInt32.ofNat corpus.numBlocks))
            corpus.invindex with
        | error e => rfl
        | ok invindex =>
            change Except.ok _ = Except.ok _
            simp [EncodingCorpus.finished, EncodingCorpus.flushed]
  | cons r records ih =>
      rw [List.forall_mem_cons] at hnames
      have hjoin : cur ++ (r :: records).map (·.path) =
          (cur ++ [r.path]) ++ records.map (·.path) := by
        rw [List.map_cons, List.append_assoc, List.singleton_append]
      have hlen : (corpus.addPath r.path).numFilesInBlock = cur.length + 1 :=
        congrArg (· + 1) h.numFilesInBlock
      obtain ⟨hnames', hblock⟩ := currentBlock_addPath h hnames.1
      rw [List.foldlM_cons, hjoin, EncodingCorpus.addFile]
      by_cases hfull : cur.length + 1 = corpus.blockSize
      · have hpos : 0 < corpus.blockSize := by omega
        have hfull' : (corpus.addPath r.path).numFilesInBlock = (corpus.addPath r.path).blockSize :=
          hlen.trans hfull
        rw [if_pos hfull', flushBlock_eq hnames' (List.concat_ne_nil _ _) hblock,
          blocksOf_append hpos (by rw [List.length_append]; exact hfull), List.map_cons,
          indexBlocks]
        change _ = ((List.foldlM (addDocid (UInt32.ofNat (corpus.addPath r.path).numBlocks))
          (corpus.addPath r.path).invindex _) >>= _).map _
        cases List.foldlM (addDocid (UInt32.ofNat (corpus.addPath r.path).numBlocks))
            (corpus.addPath r.path).invindex (indexedTrigrams (cur ++ [r.path])) with
        | error e => rfl
        | ok invindex =>
            have hholds : Holds (((corpus.addPath r.path).flushed (cur ++ [r.path])
                invindex).addStreams r) [] := ⟨nofun, rfl, rfl, hpos⟩
            refine (ih hholds hnames.2).trans ?_
            exact congrArg (fun f => Except.map f _)
              (funext fun invindex' => finished_flushed corpus r records _ _ _ _)
      · have hroom : (cur ++ [r.path]).length < corpus.blockSize := by
          have := h.room
          rw [List.length_append, List.length_singleton]
          omega
        have hholds : Holds ((corpus.addPath r.path).addStreams r) (cur ++ [r.path]) :=
          ⟨hnames', hblock, by rw [List.length_append]; exact hlen, hroom⟩
        have hfull' : (corpus.addPath r.path).numFilesInBlock ≠ (corpus.addPath r.path).blockSize :=
          fun heq => hfull (hlen.symm.trans heq)
        rw [if_neg hfull']
        refine (ih hholds hnames.2).trans ?_
        exact congrArg (fun f => Except.map f _)
          (funext fun invindex' => finished_addPath corpus r records _ _)

end Build

section Numbering

def Visited (blocks : List (List UInt32)) (t : UInt32) (i : ℕ) : Prop :=
  ∃ trgms, blocks[i]? = some trgms ∧ t ∈ trgms

theorem visited_concat {pre : List (List UInt32)} {trgms : List UInt32} {t : UInt32} {i : ℕ} :
    Visited (pre ++ [trgms]) t i ↔ Visited pre t i ∨ (i = pre.length ∧ t ∈ trgms) := by
  rcases Nat.lt_trichotomy i pre.length with hi | rfl | hi
  · simp only [Visited, List.getElem?_append_left hi, Nat.ne_of_lt hi, false_and, or_false]
  · simp [Visited]
  · have hnone : (pre ++ [trgms])[i]? = none := by
      rw [List.getElem?_eq_none_iff, List.length_append, List.length_singleton]
      omega
    have hpre : pre[i]? = none := List.getElem?_eq_none_iff.mpr (Nat.le_of_lt hi)
    simp [Visited, hnone, hpre, Nat.ne_of_gt hi]

theorem Visited.lt_length {blocks : List (List UInt32)} {t : UInt32} {i : ℕ}
    (h : Visited blocks t i) : i < blocks.length := by
  obtain ⟨trgms, hi, -⟩ := h
  exact (List.getElem?_eq_some_iff.mp hi).1

structure Collected (pre : List (List UInt32)) (invindex : InvIndex) : Prop where
  started : AllStarted invindex
  visited : ∀ t, ∀ d ∈ docidsOf invindex t, ∃ i, Visited pre t i ∧ d = UInt32.ofNat i
  first : ∀ t, docidsOf invindex t ≠ [] →
    ∃ i, Visited pre t i ∧ UInt32.ofNat i < 0x10000000

theorem Collected.empty : Collected [] fun _ => none :=
  ⟨nofun, nofun, fun _ h => absurd rfl h⟩

theorem Collected.indexBlocks {pre blocks : List (List UInt32)} {invindex invindex' : InvIndex}
    (h : Collected pre invindex) (hok : indexBlocks pre.length invindex blocks = .ok invindex') :
    Collected (pre ++ blocks) invindex' := by
  induction blocks generalizing pre invindex with
  | nil =>
      obtain rfl := Except.ok.inj hok
      rwa [List.append_nil]
  | cons trgms blocks ih =>
      rw [Flocate.indexBlocks, bind_eq_ok] at hok
      obtain ⟨invindex₁, h₁, hok⟩ := hok
      obtain ⟨hs₁, hdocids, hlt⟩ := foldlM_addDocid_eq_ok h.started h₁
      have hc : Collected (pre ++ [trgms]) invindex₁ := by
        refine ⟨hs₁, fun t d hd => ?_, fun t hne => ?_⟩
        · rw [hdocids] at hd
          have hold (hd : d ∈ docidsOf invindex t) :
              ∃ i, Visited (pre ++ [trgms]) t i ∧ d = UInt32.ofNat i := by
            obtain ⟨i, hi, rfl⟩ := h.visited t d hd
            exact ⟨i, visited_concat.mpr (Or.inl hi), rfl⟩
          by_cases ht : t ∈ trgms
          · rw [if_pos ht, appendDocid] at hd
            split at hd
            · exact hold hd
            · rcases List.mem_append.mp hd with hd | hd
              · exact hold hd
              · exact ⟨pre.length, visited_concat.mpr (Or.inr ⟨rfl, ht⟩), List.mem_singleton.mp hd⟩
          · rw [if_neg ht] at hd
            exact hold hd
        · by_cases hnil : docidsOf invindex t = []
          · by_cases ht : t ∈ trgms
            · exact ⟨pre.length, visited_concat.mpr (Or.inr ⟨rfl, ht⟩), hlt t ht hnil⟩
            · rw [hdocids, if_neg ht] at hne
              exact absurd hnil hne
          · obtain ⟨i, hi, hi28⟩ := h.first t hnil
            exact ⟨i, visited_concat.mpr (Or.inl hi), hi28⟩
      have hlen : (pre ++ [trgms]).length = pre.length + 1 := by simp
      have hrest := ih hc (by rwa [hlen])
      rwa [List.append_assoc, List.singleton_append] at hrest

structure Exact (pre : List (List UInt32)) (invindex : InvIndex) : Prop where
  started : AllStarted invindex
  sorted : ∀ t, (docidsOf invindex t).Pairwise (· < ·)
  mem : ∀ t d, d ∈ docidsOf invindex t ↔ ∃ i, Visited pre t i ∧ d = UInt32.ofNat i

theorem ofNat_lt_ofNat {i n : ℕ} (hi : i < n) (hn : n < 2 ^ 32) :
    UInt32.ofNat i < UInt32.ofNat n := by
  rw [UInt32.lt_iff_toNat_lt, UInt32.toNat_ofNat', UInt32.toNat_ofNat', Nat.mod_eq_of_lt hn,
    Nat.mod_eq_of_lt (hi.trans hn)]
  exact hi

theorem Exact.indexBlocks {pre blocks : List (List UInt32)} {invindex : InvIndex}
    (h : Exact pre invindex) (hnum : ∀ t i, Visited (pre ++ blocks) t i → i < 2 ^ 32)
    (hfirst : ∀ t i, Visited (pre ++ blocks) t i → ∃ j < 2 ^ 28, Visited (pre ++ blocks) t j) :
    ∃ invindex', indexBlocks pre.length invindex blocks = .ok invindex' ∧
      Exact (pre ++ blocks) invindex' := by
  induction blocks generalizing pre invindex with
  | nil => exact ⟨invindex, rfl, by rwa [List.append_nil]⟩
  | cons trgms blocks ih =>
      have hsplit : pre ++ trgms :: blocks = (pre ++ [trgms]) ++ blocks := by simp
      have hvisit (t : UInt32) (ht : t ∈ trgms) : Visited (pre ++ trgms :: blocks) t pre.length :=
        ⟨trgms, by simp, ht⟩
      have hlow (t : UInt32) (j : ℕ) (hj : Visited (pre ++ trgms :: blocks) t j)
          (hlt : j < pre.length) : Visited pre t j := by
        obtain ⟨trgms', hj', ht⟩ := hj
        exact ⟨trgms', by rwa [List.getElem?_append_left hlt] at hj', ht⟩
      have hstep : ∀ t ∈ trgms, docidsOf invindex t = [] →
          UInt32.ofNat pre.length < 0x10000000 := by
        intro t ht hnil
        obtain ⟨j, hj, hv⟩ := hfirst t _ (hvisit t ht)
        have hge : pre.length ≤ j := by
          by_contra hlt
          have hmem := (h.mem t (UInt32.ofNat j)).mpr ⟨j, hlow t j hv (by omega), rfl⟩
          rw [hnil] at hmem
          cases hmem
        exact ofNat_lt_ofNat (n := 0x10000000) (hge.trans_lt hj) (by decide)
      obtain ⟨invindex₁, h₁⟩ := foldlM_addDocid_ok h.started hstep
      obtain ⟨hs₁, hdocids, -⟩ := foldlM_addDocid_eq_ok h.started h₁
      have hnew (t : UInt32) (ht : t ∈ trgms) : docidsOf invindex₁ t =
          docidsOf invindex t ++ [UInt32.ofNat pre.length] ∧
            ∀ d ∈ docidsOf invindex t, d < UInt32.ofNat pre.length := by
        have hbelow : ∀ d ∈ docidsOf invindex t, d < UInt32.ofNat pre.length := by
          intro d hd
          obtain ⟨i, hi, rfl⟩ := (h.mem t d).mp hd
          exact ofNat_lt_ofNat hi.lt_length (hnum t _ (hvisit t ht))
        refine ⟨?_, hbelow⟩
        rw [hdocids, if_pos ht, appendDocid, if_neg]
        intro hlast
        exact lt_irrefl _ (hbelow _ (List.mem_of_getLast? hlast))
      have hex : Exact (pre ++ [trgms]) invindex₁ := by
        refine ⟨hs₁, fun t => ?_, fun t d => ?_⟩
        · by_cases ht : t ∈ trgms
          · obtain ⟨hd, hbelow⟩ := hnew t ht
            rw [hd, List.pairwise_append]
            exact ⟨h.sorted t, List.pairwise_singleton _ _, fun a ha b hb =>
              List.mem_singleton.mp hb ▸ hbelow a ha⟩
          · rw [hdocids, if_neg ht]
            exact h.sorted t
        · simp only [visited_concat, or_and_right, exists_or, ← h.mem]
          by_cases ht : t ∈ trgms
          · rw [(hnew t ht).1, List.mem_append, List.mem_singleton]
            simp [ht]
          · rw [hdocids, if_neg ht]
            simp [ht]
      have hlen : (pre ++ [trgms]).length = pre.length + 1 := by simp
      rw [hsplit] at hnum hfirst ⊢
      obtain ⟨invindex', hok, hexact⟩ := ih hex hnum hfirst
      rw [hlen] at hok
      exact ⟨invindex', by rw [Flocate.indexBlocks, h₁]; exact hok, hexact⟩

end Numbering

theorem occurs_of_mem_indexedTrigrams {t : UInt32} {names : List Str}
    (h : t ∈ indexedTrigrams names) : Occurs t names := by
  rcases (mem_indexedTrigrams (lt_of_mem_indexedTrigrams h) names).mp h with
    ⟨s, hs, ht⟩ | ⟨s, hs, -, ht⟩
  · exact ⟨s, List.dropLast_subset names hs, ht⟩
  · exact ⟨s, List.mem_of_getLast? hs, ht⟩

theorem mem_indexedTrigrams_iff {t : UInt32} (ht : t < 0x1000000) {names : List Str}
    (hlast : LastNameCovered names) : t ∈ indexedTrigrams names ↔ Occurs t names := by
  refine ⟨occurs_of_mem_indexedTrigrams, fun ⟨s, hs, hts⟩ => ?_⟩
  have hlen : (trigramBytes t).length = 3 := length_leBytes 3 _
  rw [mem_indexedTrigrams ht]
  have hne : names ≠ [] := List.ne_nil_of_mem hs
  rw [← List.dropLast_append_getLast hne, List.mem_append, List.mem_singleton] at hs
  rcases hs with hs | rfl
  · exact Or.inl ⟨s, hs, hts⟩
  · have hget := List.getLast?_eq_some_getLast hne
    by_cases h3 : (names.getLast hne).length = 3
    · obtain ⟨s', hs', hin⟩ := hlast _ hget h3
      exact Or.inl ⟨s', hs', hts.trans hin⟩
    · exact Or.inr ⟨_, hget, h3, hts⟩

theorem exists_trigram {s : Str} (h : 3 ≤ s.length) : ∃ t < 0x1000000, trigramBytes t <:+: s := by
  match s, h with
  | a :: b :: c :: s, _ =>
      refine ⟨readWindow a b c 0, readWindow_lt a b c, ?_⟩
      rw [trigramBytes_readWindow]
      exact ⟨[], s, rfl⟩

/-- For every trigram, the collected list is strictly increasing and has the numbers of the blocks
in which it occurs. -/
def IndexExact (invindex : InvIndex) (blocks : List (List Str)) : Prop :=
  ∀ t < 0x1000000, (docidsOf invindex t).Pairwise (· < ·) ∧
    ∀ d : ℕ, d ∈ (docidsOf invindex t).map UInt32.toNat ↔
      ∃ names, blocks[d]? = some names ∧ Occurs t names

/-- No trigram is only in a filename of three bytes at the end of its block, and the block numbers
are in the range of the docids. -/
structure Indexable (blocks : List (List Str)) : Prop where
  lastNames : ∀ names ∈ blocks, LastNameCovered names
  numbers : ∀ (i : ℕ) names, blocks[i]? = some names → (∃ s ∈ names, 3 ≤ s.length) → i < 2 ^ 32
  first : ∀ t < 0x1000000, ∀ names ∈ blocks, Occurs t names →
    ∃ i < 2 ^ 28, ∃ names', blocks[i]? = some names' ∧ Occurs t names'

theorem visited_map {blocks : List (List Str)} {t : UInt32} {i : ℕ} :
    Visited (blocks.map indexedTrigrams) t i ↔
      ∃ names, blocks[i]? = some names ∧ t ∈ indexedTrigrams names := by
  simp only [Visited, List.getElem?_map, Option.map_eq_some_iff]
  constructor
  · rintro ⟨_, ⟨names, hi, rfl⟩, ht⟩
    exact ⟨names, hi, ht⟩
  · rintro ⟨names, hi, ht⟩
    exact ⟨_, ⟨names, hi, rfl⟩, ht⟩

theorem length_of_occurs {t : UInt32} {names : List Str} (h : Occurs t names) :
    ∃ s ∈ names, 3 ≤ s.length := by
  obtain ⟨s, hs, hts⟩ := h
  exact ⟨s, hs, (length_leBytes 3 t.toNat).symm.le.trans hts.length_le⟩

theorem indexable_of_exact {blocks : List (List Str)} {invindex : InvIndex}
    (hc : Collected (blocks.map indexedTrigrams) invindex) (h : IndexExact invindex blocks) :
    Indexable blocks := by
  have hnum (i : ℕ) (names : List Str) (hi : blocks[i]? = some names)
      (hlong : ∃ s ∈ names, 3 ≤ s.length) : i < 2 ^ 32 := by
    obtain ⟨s, hs, h3⟩ := hlong
    obtain ⟨t, ht, hts⟩ := exists_trigram h3
    have hmem := ((h t ht).2 i).mpr ⟨names, hi, s, hs, hts⟩
    obtain ⟨d, -, rfl⟩ := List.mem_map.mp hmem
    exact d.toNat_lt
  have hvisited (t : UInt32) (i : ℕ) (hv : Visited (blocks.map indexedTrigrams) t i) :
      ∃ names, blocks[i]? = some names ∧ t ∈ indexedTrigrams names ∧
        (UInt32.ofNat i).toNat = i := by
    obtain ⟨names, hi, ht⟩ := visited_map.mp hv
    have hlt := hnum i names hi (length_of_occurs (occurs_of_mem_indexedTrigrams ht))
    exact ⟨names, hi, ht, by rw [UInt32.toNat_ofNat', Nat.mod_eq_of_lt hlt]⟩
  refine ⟨fun names hnames s hlast h3 => ?_, hnum, fun t ht names hnames hocc => ?_⟩
  · -- the block's number is in the list, so its walk visited the trigram, but not at the end
    obtain ⟨k, hk, rfl⟩ := List.getElem_of_mem hnames
    have hget : blocks[k]? = some blocks[k] := List.getElem?_eq_getElem hk
    obtain ⟨t, ht, hts⟩ := exists_trigram h3.ge
    have heq : trigramBytes t = s :=
      hts.eq_of_length ((length_leBytes 3 t.toNat).trans h3.symm)
    have hmem := ((h t ht).2 k).mpr ⟨_, hget, s, List.mem_of_getLast? hlast, hts⟩
    obtain ⟨d, hd, hdk⟩ := List.mem_map.mp hmem
    obtain ⟨i, hi, rfl⟩ := hc.visited t d hd
    obtain ⟨names', hi', ht', hnat⟩ := hvisited t i hi
    obtain rfl : i = k := hnat.symm.trans hdk
    rw [hget] at hi'
    obtain rfl := Option.some.inj hi'
    rcases (mem_indexedTrigrams ht _).mp ht' with ⟨s', hs', hin⟩ | ⟨s', hs', hne, -⟩
    · exact ⟨s', hs', heq ▸ hin⟩
    · rw [hlast] at hs'
      exact absurd (Option.some.inj hs' ▸ h3) hne
  · obtain ⟨k, hk, rfl⟩ := List.getElem_of_mem hnames
    have hmem := ((h t ht).2 k).mpr ⟨_, List.getElem?_eq_getElem hk, hocc⟩
    have hne : docidsOf invindex t ≠ [] := by
      intro hnil
      rw [hnil] at hmem
      cases hmem
    obtain ⟨i, hi, hlt⟩ := hc.first t hne
    obtain ⟨names', hi', ht', hnat⟩ := hvisited t i hi
    rw [UInt32.lt_iff_toNat_lt, hnat] at hlt
    exact ⟨i, hlt, names', hi', occurs_of_mem_indexedTrigrams ht'⟩

theorem exact_of_indexable {blocks : List (List Str)} (h : Indexable blocks) :
    ∃ invindex, indexBlocks 0 (fun _ => none) (blocks.map indexedTrigrams) = .ok invindex ∧
      IndexExact invindex blocks := by
  have hvisited {t : UInt32} (ht : t < 0x1000000) {i : ℕ} :
      Visited (blocks.map indexedTrigrams) t i ↔
        ∃ names, blocks[i]? = some names ∧ Occurs t names := by
    rw [visited_map]
    refine exists_congr fun names => and_congr_right fun hi => ?_
    exact mem_indexedTrigrams_iff ht (h.lastNames names (List.mem_of_getElem? hi))
  have hnum (t : UInt32) (i : ℕ) (hv : Visited (blocks.map indexedTrigrams) t i) : i < 2 ^ 32 := by
    obtain ⟨names, hi, ht⟩ := visited_map.mp hv
    exact h.numbers i names hi (length_of_occurs (occurs_of_mem_indexedTrigrams ht))
  have hfirst (t : UInt32) (i : ℕ) (hv : Visited (blocks.map indexedTrigrams) t i) :
      ∃ j < 2 ^ 28, Visited (blocks.map indexedTrigrams) t j := by
    obtain ⟨names, hi, ht⟩ := visited_map.mp hv
    have hlt := lt_of_mem_indexedTrigrams ht
    obtain ⟨j, hj, hocc⟩ := h.first t hlt names (List.mem_of_getElem? hi)
      (occurs_of_mem_indexedTrigrams ht)
    exact ⟨j, hj, (hvisited hlt).mpr hocc⟩
  have hempty : Exact [] fun _ => none :=
    ⟨nofun, fun _ => List.Pairwise.nil, fun t d => ⟨nofun, fun ⟨_, ⟨_, hi, _⟩, _⟩ => nomatch hi⟩⟩
  obtain ⟨invindex, hok, hex⟩ := hempty.indexBlocks hnum hfirst
  refine ⟨invindex, hok, fun t ht => ⟨hex.sorted t, fun d => ?_⟩⟩
  rw [List.mem_map, ← hvisited ht]
  constructor
  · rintro ⟨d, hd, rfl⟩
    obtain ⟨i, hi, rfl⟩ := (hex.mem t d).mp hd
    rwa [UInt32.toNat_ofNat', Nat.mod_eq_of_lt (hnum t i hi)]
  · intro hv
    exact ⟨UInt32.ofNat d, (hex.mem t _).mpr ⟨d, hv, rfl⟩, by
      rw [UInt32.toNat_ofNat', Nat.mod_eq_of_lt (hnum t d hv)]⟩

theorem build_eq {blockSize : ℕ} (hb : 0 < blockSize) (storeDirTimes storeMetadata : Bool)
    {records : List FileRecord} (hnames : ∀ r ∈ records, IsName r.path) :
    EncodingCorpus.build blockSize storeDirTimes storeMetadata records =
      (indexBlocks 0 (fun _ => none)
        ((blocksOf blockSize (records.map (·.path))).map indexedTrigrams)).map
        (EncodingCorpus.finished { blockSize, storeDirTimes, storeMetadata } records
          (blocksOf blockSize (records.map (·.path)))) := by
  have hstart : Holds { blockSize, storeDirTimes, storeMetadata } [] := ⟨nofun, rfl, rfl, hb⟩
  exact foldlM_addFile_finish hstart records hnames

/-- The docids of up to `2 ^ 28` blocks are all accepted. -/
theorem build_ok {blockSize : ℕ} (hb : 0 < blockSize) (storeDirTimes storeMetadata : Bool)
    {records : List FileRecord} (hnames : ∀ r ∈ records, IsName r.path)
    (hlen : records.length ≤ 2 ^ 28) :
    ∃ corpus, EncodingCorpus.build blockSize storeDirTimes storeMetadata records = .ok corpus := by
  set blocks := (blocksOf blockSize (records.map (·.path))).map indexedTrigrams with hblocks
  have hcount : blocks.length ≤ 2 ^ 28 := by
    have hle := length_blocksOf_le blockSize (records.map (·.path))
    rw [List.length_map] at hle
    rw [hblocks, List.length_map]
    omega
  have hempty : Exact [] fun _ => none :=
    ⟨nofun, fun _ => List.Pairwise.nil, fun t d => ⟨nofun, fun ⟨_, ⟨_, hi, _⟩, _⟩ => nomatch hi⟩⟩
  have hlt (t : UInt32) (i : ℕ) (hv : Visited blocks t i) : i < 2 ^ 28 :=
    lt_of_lt_of_le hv.lt_length hcount
  obtain ⟨invindex, hok, -⟩ := hempty.indexBlocks (fun t i hv => (hlt t i hv).trans (by decide))
    fun t i hv => ⟨i, hlt t i hv, hv⟩
  change indexBlocks 0 (fun _ => none) blocks = .ok invindex at hok
  exact ⟨_, by rw [build_eq hb _ _ hnames, ← hblocks, hok]; rfl⟩

/-- The index that a corpus collects is exact if and only if its blocks are indexable. -/
theorem build_indexExact_iff {blockSize : ℕ} (hb : 0 < blockSize)
    (storeDirTimes storeMetadata : Bool) {records : List FileRecord}
    (hnames : ∀ r ∈ records, IsName r.path) :
    (∃ corpus, EncodingCorpus.build blockSize storeDirTimes storeMetadata records = .ok corpus ∧
        IndexExact corpus.invindex (blocksOf blockSize (records.map (·.path)))) ↔
      Indexable (blocksOf blockSize (records.map (·.path))) := by
  rw [build_eq hb _ _ hnames]
  constructor
  · rintro ⟨corpus, hok, hexact⟩
    obtain ⟨invindex, hindex, rfl⟩ := map_eq_ok.mp hok
    exact indexable_of_exact (Collected.empty.indexBlocks hindex) hexact
  · intro h
    obtain ⟨invindex, hok, hexact⟩ := exact_of_indexable h
    exact ⟨_, by rw [hok]; rfl, hexact⟩

theorem indexable_of_length_le {blocks : List (List Str)} (hlength : blocks.length ≤ 2 ^ 28)
    (hlast : ∀ names ∈ blocks, LastNameCovered names) : Indexable blocks where
  lastNames := hlast
  numbers i names hi _ := by
    have hlt := (List.getElem?_eq_some_iff.mp hi).1
    omega
  first t _ names hmem hocc := by
    obtain ⟨i, hi⟩ := List.getElem?_of_mem hmem
    have hlt := (List.getElem?_eq_some_iff.mp hi).1
    exact ⟨i, by omega, names, hi, hocc⟩

/-- Filenames of one to five bytes. The last one of the second block has three, which are in the
one before it as well. -/
def mixedNames : List Str :=
  [ascii "a", ascii "bcd", ascii "bcde", ascii "ef", ascii "abcde", ascii "bcd", ascii "f"]

theorem build_indexExact_mixedNames :
    ∃ corpus, EncodingCorpus.build 3 true true (mixedNames.map fun s => { path := s }) =
        .ok corpus ∧
      IndexExact corpus.invindex (blocksOf 3 mixedNames) := by
  have hnames : ∀ r ∈ mixedNames.map fun s => ({ path := s } : FileRecord), IsName r.path := by
    rw [List.forall_mem_map]
    exact fun s hs => ⟨(by decide : ∀ s ∈ mixedNames, s ≠ []) s hs,
      (by decide : ∀ s ∈ mixedNames, 0 ∉ s) s hs⟩
  have hpaths : (mixedNames.map fun s => ({ path := s } : FileRecord)).map (·.path) =
      mixedNames := rfl
  have hblocks : blocksOf 3 mixedNames = [[ascii "a", ascii "bcd", ascii "bcde"],
      [ascii "ef", ascii "abcde", ascii "bcd"], [ascii "f"]] := by decide +kernel
  have hindexable : Indexable (blocksOf 3 mixedNames) := by
    rw [hblocks]
    refine indexable_of_length_le (by decide) fun names hmem s hs h3 => ?_
    simp only [List.mem_cons, List.not_mem_nil, or_false] at hmem
    rcases hmem with rfl | rfl | rfl
    · obtain rfl := Option.some.inj hs
      exact absurd h3 (by decide)
    · obtain rfl := Option.some.inj hs
      exact ⟨ascii "abcde", by decide, ascii "a", ascii "e", by decide⟩
    · obtain rfl := Option.some.inj hs
      exact absurd h3 (by decide)
  have hexact := (build_indexExact_iff (by decide) true true hnames).mpr (hpaths ▸ hindexable)
  rwa [hpaths] at hexact

/-- A single filename of three bytes is not indexed at all. -/
theorem build_not_indexExact :
    ¬∃ corpus, EncodingCorpus.build 32 true true [{ path := [97, 98, 99] }] = .ok corpus ∧
      IndexExact corpus.invindex (blocksOf 32 [[97, 98, 99]]) := by
  rintro ⟨corpus, hok, hexact⟩
  have hnames : ∀ r ∈ [({ path := [97, 98, 99] } : FileRecord)], IsName r.path := by
    intro r hr
    rw [List.mem_singleton.mp hr]
    exact ⟨by decide, by decide⟩
  have hblocks : blocksOf 32 [[97, 98, 99]] = [[([97, 98, 99] : Str)]] :=
    blocksOf_of_length_lt (by decide) (by decide)
  rw [build_eq (by decide) true true hnames] at hok
  obtain ⟨invindex, hindex, rfl⟩ := map_eq_ok.mp hok
  have hlast := (indexable_of_exact (Collected.empty.indexBlocks hindex) hexact).lastNames
  change ∀ names ∈ blocksOf 32 [[97, 98, 99]], _ at hlast
  rw [hblocks] at hlast
  obtain ⟨s, hs, -⟩ := hlast _ (List.mem_singleton_self _) [97, 98, 99] rfl rfl
  cases hs

end Flocate
