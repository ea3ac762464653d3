import Flocate.FileSearch

/-!
# Searching one database, with any options

`do_search_file` without what it prints. The options decide which groups of trigrams are looked up
and which filenames are reported; in the case-sensitive search they are those of the needles.
-/

namespace Flocate

open Bytes

/-- What a search is after. With `--regex` there are no groups. -/
structure Query where
  ignoreCase : Bool
  groups : List TrigramDisjunction
  fresh : ∀ td ∈ groups, td.Fresh
  reported : Str → Bool

def Query.ofNeedles (options : SearchOptions) (needles : List Needle) : Query where
  ignoreCase := false
  groups := trigramGroups needles
  fresh _ := trigramGroups_fresh
  reported := Flocate.reported options needles

/-- The matches of a search, or none because the hash table lacks a whole group. -/
inductive SearchResult where
  | found (filenames : List Str)
  | missingGroup
deriving DecidableEq

def SearchResult.filenames : SearchResult → List Str
  | found filenames => filenames
  | missingGroup => []

namespace Query

variable (query : Query)

def scanFileBlock (block : Str) : List Str :=
  (splitNul (block ++ [0])).filter query.reported

def scanDocids (docids : List UInt32) (corpus : Corpus) : List Str :=
  docids.flatMap fun docid =>
    (corpus.filenameBlocks[docid.toNat]?).toList.flatMap query.scanFileBlock

def scanAllDocids (corpus : Corpus) : List Str :=
  corpus.filenameBlocks.flatMap query.scanFileBlock

/-- The possible results of a search; `rootAccessible` is the outcome of `access("/")`. -/
inductive Search (rootAccessible : Bool) (corpus : Corpus) : SearchResult → Prop
  | inaccessible (h : rootAccessible = false) : Search rootAccessible corpus (.found [])
  | bruteForce (hroot : rootAccessible = true) (h : trigramsToLookup query.groups = []) :
      Search rootAccessible corpus (.found (query.scanAllDocids corpus))
  | missingGroup {order : List UInt32} (hroot : rootAccessible = true)
      (hne : trigramsToLookup query.groups ≠ [])
      (horder : order.Perm (trigramsToLookup query.groups))
      (hlook : (lookUp corpus.findTrigram order query.groups).2 = true) :
      Search rootAccessible corpus .missingGroup
  | intersected {order : List UInt32} {groups₁ groups : List TrigramDisjunction}
      {events : List SelectionEvent} {s : Selection} (hroot : rootAccessible = true)
      (hne : trigramsToLookup query.groups ≠ [])
      (horder : order.Perm (trigramsToLookup query.groups))
      (hlook : lookUp corpus.findTrigram order query.groups = (groups₁, false))
      (hsort : groups.Perm (groups₁.map .reset))
      (hsorted : groups.Pairwise (·.maxNumDocids ≤ ·.maxNumDocids))
      (hrun : Run.run (Selection.step query.ignoreCase corpus.decode) (.start groups) events =
        some s)
      (hend : s.Ended) :
      Search rootAccessible corpus
        (.found (if s.done then [] else query.scanDocids s.curCandidates corpus))

def MissesGroup (corpus : Corpus) : Prop :=
  ∃ td ∈ query.groups, ∀ t ∈ td.trigramAlternatives, corpus.findTrigram t = none

instance (corpus : Corpus) : Decidable (query.MissesGroup corpus) :=
  inferInstanceAs (Decidable (∃ _ ∈ _, ∀ _ ∈ _, _))

end Query

/-- `find_trigram` returns entries of the trigram that is looked up, and no filename is empty. -/
structure Corpus.WellFormed (corpus : Corpus) : Prop where
  trgm : ∀ t r, corpus.findTrigram t = some r → r.1.trgm = t
  nonempty : ∀ block ∈ corpus.filenameBlocks, [] ∉ splitNul (block ++ [0])

section CaseSensitive

variable {options : SearchOptions} {needles : List Needle} {corpus : Corpus}

/-- With the case-sensitive query this is the search of a database that `/` gives access to. -/
theorem doSearchFile_iff_search {outcome : List Str} :
    DoSearchFile options needles corpus outcome ↔
      ∃ result, (Query.ofNeedles options needles).Search true corpus result ∧
        result.filenames = outcome := by
  constructor
  · intro h
    cases h with
    | bruteForce h => exact ⟨_, .bruteForce rfl h, rfl⟩
    | earlyExit hne horder hlook => exact ⟨_, .missingGroup rfl hne horder hlook, rfl⟩
    | intersected hne horder hlook hsort hsorted hrun hend =>
        exact ⟨_, .intersected rfl hne horder hlook hsort hsorted hrun hend, rfl⟩
  · rintro ⟨result, h, rfl⟩
    cases h with
    | inaccessible h => cases h
    | bruteForce _ h => exact .bruteForce h
    | missingGroup _ hne horder hlook => exact .earlyExit hne horder hlook
    | intersected _ hne horder hlook hsort hsorted hrun hend =>
        exact .intersected hne horder hlook hsort hsorted hrun hend

end CaseSensitive

namespace Query

variable {query : Query} {rootAccessible : Bool} {corpus : Corpus}

theorem trigramsToLookup_ne_nil {td : TrigramDisjunction} (htd : td ∈ query.groups) :
    trigramsToLookup query.groups ≠ [] := by
  obtain ⟨t, ht⟩ := List.exists_mem_of_ne_nil _ (query.fresh td htd).ne_nil
  apply List.ne_nil_of_mem (a := t)
  rw [trigramsToLookup, List.mem_dedup]
  exact List.mem_flatMap.mpr ⟨td, htd, ht⟩

/-- Whether the lookups stop early does not depend on their order. -/
theorem lookUp_stops_iff (hwf : corpus.WellFormed) {order : List UInt32}
    (horder : order.Perm (trigramsToLookup query.groups)) :
    (lookUp corpus.findTrigram order query.groups).2 = true ↔ query.MissesGroup corpus := by
  have hinv := lookUp_inv hwf.trgm (horder.nodup_iff.mpr (List.nodup_dedup _)) query.fresh
  refine ⟨hinv.stopped, ?_⟩
  rintro ⟨td, htd, hnone⟩
  by_contra hrun
  have halt : td.trigramAlternatives ∈
      (lookUp corpus.findTrigram order query.groups).1.map (·.trigramAlternatives) :=
    hinv.alternatives ▸ List.mem_map_of_mem htd
  obtain ⟨td', htd', heq⟩ := List.mem_map.mp halt
  have hl := hinv.lookedUp td' htd'
  apply hinv.running (Bool.eq_false_iff.mpr hrun) td' htd'
  constructor
  · rw [hl.remaining, List.countP_eq_zero]
    intro t ht
    have hseen : t ∈ order := by
      rw [horder.mem_iff, trigramsToLookup, List.mem_dedup]
      exact List.mem_flatMap.mpr ⟨td, htd, heq ▸ ht⟩
    simpa using hseen
  · rw [List.eq_nil_iff_forall_not_mem]
    intro r hr
    obtain ⟨hmem, -, hfound⟩ := (hl.mem r).mp hr
    rw [hnone _ (heq ▸ hmem)] at hfound
    cases hfound

/-- The search finds a group missing exactly if the database misses one. -/
theorem Search.eq_missingGroup_iff (hwf : corpus.WellFormed) {result : SearchResult}
    (h : query.Search rootAccessible corpus result) :
    result = .missingGroup ↔ rootAccessible = true ∧ query.MissesGroup corpus := by
  cases h with
  | inaccessible h =>
      rw [h]
      refine ⟨fun heq => ?_, fun hmiss => ?_⟩
      · cases heq
      · cases hmiss.1
  | bruteForce hroot hnil =>
      refine ⟨fun heq => ?_, fun hmiss => ?_⟩
      · cases heq
      · obtain ⟨-, td, htd, -⟩ := hmiss
        exact absurd hnil (trigramsToLookup_ne_nil htd)
  | missingGroup hroot _ horder hlook =>
      exact ⟨fun _ => ⟨hroot, (lookUp_stops_iff hwf horder).mp hlook⟩, fun _ => rfl⟩
  | intersected hroot _ horder hlook =>
      refine ⟨fun heq => ?_, fun hmiss => ?_⟩
      · cases heq
      · have hstop := (lookUp_stops_iff hwf horder).mpr hmiss.2
        rw [hlook] at hstop
        cases hstop

theorem ne_nil_of_mem_scanFileBlock {block : Str} (h : [] ∉ splitNul (block ++ [0])) {s : Str}
    (hs : s ∈ query.scanFileBlock block) : s ≠ [] := by
  rintro rfl
  exact h (List.mem_of_mem_filter hs)

/-- The matches of a search have names. -/
theorem Search.ne_nil (hwf : corpus.WellFormed) {result : SearchResult}
    (h : query.Search rootAccessible corpus result) : ∀ s ∈ result.filenames, s ≠ [] := by
  intro s hs
  cases h with
  | inaccessible => cases hs
  | bruteForce =>
      obtain ⟨block, hblock, hs⟩ := List.mem_flatMap.mp hs
      exact ne_nil_of_mem_scanFileBlock (hwf.nonempty block hblock) hs
  | missingGroup => cases hs
  | @intersected _ _ _ _ st =>
      cases hdone : st.done with
      | true =>
          rw [hdone, if_pos rfl] at hs
          cases hs
      | false =>
          rw [hdone, if_neg Bool.false_ne_true] at hs
          obtain ⟨docid, -, hs⟩ := List.mem_flatMap.mp hs
          obtain ⟨block, hblock, hs⟩ := List.mem_flatMap.mp hs
          have hblock := List.mem_of_getElem? (Option.mem_toList.mp hblock)
          exact ne_nil_of_mem_scanFileBlock (hwf.nonempty block hblock) hs

end Query

end Flocate
