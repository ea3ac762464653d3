import Flocate.SavedDatabase
import Flocate.ShowdiffMain

/-!
# What `flocate-showdiff` prints of databases that runs have written

The events of the difference, in the order of their paths, of the kinds that are asked for.
-/

namespace Flocate

open Bytes

section Arguments

variable {args : List Str} {options options' : ShowdiffOptions} {kind : HistoryEventKind}

def requestedKind (arg : Str) : Option HistoryEventKind :=
  if arg = ascii "--added-only" then some .added
  else if arg = ascii "--removed-only" then some .removed
  else if arg = ascii "--modified-only" then some .modified
  else none

def requestedKinds : List Str → List HistoryEventKind
  | [] => []
  | arg :: args =>
      if arg = ascii "--live" ∨ arg = ascii "--hash-max-size" then
        match args with
        | [] => []
        | _ :: args => requestedKinds args
      else (requestedKind arg).toList ++ requestedKinds args

def HistoryEventKind.IsChange (kind : HistoryEventKind) : Prop :=
  kind = .added ∨ kind = .removed ∨ kind = .modified

instance (kind : HistoryEventKind) : Decidable kind.IsChange :=
  inferInstanceAs (Decidable (_ ∨ _))

theorem requestedKinds_cons {arg : Str} (h : arg ≠ ascii "--live" ∧ arg ≠ ascii "--hash-max-size")
    (args : List Str) :
    requestedKinds (arg :: args) = (requestedKind arg).toList ++ requestedKinds args := by
  rw [requestedKinds.eq_def]
  exact if_neg (not_or.mpr h)

theorem requestedKinds_value {arg : Str}
    (h : arg = ascii "--live" ∨ arg = ascii "--hash-max-size") (value : Str) (args : List Str) :
    requestedKinds (arg :: value :: args) = requestedKinds args := by
  rw [requestedKinds.eq_def]
  exact if_pos h

theorem filter_flag {arg : Str} (h : options.flag arg = some options') :
    options'.filter = (requestedKind arg).toList.foldl EventFilter.enable options.filter := by
  unfold ShowdiffOptions.flag at h
  unfold requestedKind
  by_cases hhistory : arg = ascii "--history"
  · subst hhistory
    rw [if_pos rfl] at h
    obtain rfl := Option.some.inj h
    rfl
  rw [if_neg hhistory] at h
  split at h
  · rename_i harg
    obtain rfl := Option.some.inj h
    rw [if_pos harg]
    rfl
  · rename_i hadded
    rw [if_neg hadded]
    split at h
    · rename_i harg
      obtain rfl := Option.some.inj h
      rw [if_pos harg]
      rfl
    · rename_i hremoved
      rw [if_neg hremoved]
      split at h
      · rename_i harg
        obtain rfl := Option.some.inj h
        rw [if_pos harg]
        rfl
      · rename_i hmodified
        rw [if_neg hmodified]
        split at h
        · obtain rfl := Option.some.inj h
          rfl
        · split at h
          · obtain rfl := Option.some.inj h
            rfl
          · split at h
            · cases h
            · obtain rfl := Option.some.inj h
              rfl

/-- The filter depends on the kinds that are asked for and on nothing else. -/
theorem filter_parse (h : ShowdiffOptions.parse args options = .ok options') :
    options'.filter = (requestedKinds args).foldl EventFilter.enable options.filter := by
  induction args, options using ShowdiffOptions.parse.induct with
  | case1 options =>
      obtain rfl := Except.ok.inj h
      rfl
  | case2 options => cases h
  | case3 options root args ih =>
      rw [requestedKinds_value (Or.inl rfl)]
      exact ih h
  | case4 args options hlive =>
      rw [ShowdiffOptions.parse.eq_def] at h
      dsimp only at h
      rw [if_neg hlive, if_pos rfl] at h
      cases h
  | case5 arg args options hlive hhelp hversion =>
      rw [ShowdiffOptions.parse.eq_def] at h
      dsimp only at h
      rw [if_neg hlive, if_neg hhelp, if_pos hversion] at h
      cases h
  | case6 options hlive hhelp hversion => cases h
  | case7 options size args hashMaxSize hlive hhelp hversion hsize ih =>
      rw [requestedKinds_value (Or.inr rfl)]
      rw [ShowdiffOptions.parse.eq_def] at h
      dsimp only at h
      rw [if_neg hlive, if_neg hhelp, if_neg hversion, if_pos rfl, hsize] at h
      exact ih h
  | case8 options size args ok hashMaxSize hsize hok hlive hhelp hversion =>
      rw [ShowdiffOptions.parse.eq_def] at h
      dsimp only at h
      rw [if_neg hlive, if_neg hhelp, if_neg hversion, if_pos rfl, hsize] at h
      dsimp only at h
      rw [if_neg hok] at h
      cases h
  | case9 arg args options hlive hhelp hversion hsize hflag =>
      rw [ShowdiffOptions.parse.eq_def] at h
      dsimp only at h
      rw [if_neg hlive, if_neg hhelp, if_neg hversion, if_neg hsize, hflag] at h
      cases h
  | case10 arg args options hlive hhelp hversion hsize flagged hflag ih =>
      rw [ShowdiffOptions.parse.eq_def] at h
      dsimp only at h
      rw [if_neg hlive, if_neg hhelp, if_neg hversion, if_neg hsize, hflag] at h
      rw [requestedKinds_cons ⟨hlive, hsize⟩, List.foldl_append, ← filter_flag hflag]
      exact ih h

/-- Whatever is no change is shown. -/
theorem accepts_of_not_isChange (hkind : ¬kind.IsChange) (filter : EventFilter) :
    filter.accepts kind = true := by
  cases kind with
  | added => exact absurd (Or.inl rfl) hkind
  | removed => exact absurd (Or.inr (Or.inl rfl)) hkind
  | modified => exact absurd (Or.inr (Or.inr rfl)) hkind
  | runMarker => rfl
  | other => rfl

theorem accepts_enable {filter : EventFilter} (hfilter : filter.filterSpecified = true)
    (hkind : kind.IsChange) (asked : HistoryEventKind) :
    (filter.enable asked).filterSpecified = true ∧
      ((filter.enable asked).accepts kind = true ↔ filter.accepts kind = true ∨ kind = asked) := by
  unfold EventFilter.enable
  rw [if_pos hfilter]
  rcases hkind with rfl | rfl | rfl
  all_goals
    cases asked
    all_goals exact ⟨hfilter, by simp [EventFilter.accepts]⟩

theorem accepts_foldl_enable {filter : EventFilter} (hfilter : filter.filterSpecified = true)
    (hkind : kind.IsChange) (kinds : List HistoryEventKind) :
    (kinds.foldl EventFilter.enable filter).accepts kind = true ↔
      filter.accepts kind = true ∨ kind ∈ kinds := by
  induction kinds generalizing filter with
  | nil => exact (or_iff_left List.not_mem_nil).symm
  | cons asked kinds ih =>
      obtain ⟨hspecified, haccepts⟩ := accepts_enable hfilter hkind asked
      rw [List.foldl_cons, ih hspecified, haccepts, List.mem_cons, or_assoc]

/-- All kinds of changes are shown, or those that are asked for. -/
theorem accepts_parse (h : ShowdiffOptions.parse args {} = .ok options) (hkind : kind.IsChange) :
    options.filter.accepts kind = true ↔
      requestedKinds args = [] ∨ kind ∈ requestedKinds args := by
  rw [filter_parse h]
  cases requestedKinds args with
  | nil =>
      refine iff_of_true ?_ (Or.inl rfl)
      rcases hkind with rfl | rfl | rfl
      all_goals rfl
  | cons asked kinds =>
      have hnone : (⟨false, false, false, true⟩ : EventFilter).accepts kind = false := by
        rcases hkind with rfl | rfl | rfl
        all_goals rfl
      have hfirst : ({} : EventFilter).enable asked =
          (⟨false, false, false, true⟩ : EventFilter).enable asked := rfl
      have hspecified : (⟨false, false, false, true⟩ : EventFilter).filterSpecified = true := rfl
      have hfold := accepts_foldl_enable hspecified hkind (asked :: kinds)
      rw [List.foldl_cons] at hfold ⊢
      change ((kinds.foldl EventFilter.enable (({} : EventFilter).enable asked)).accepts kind =
        true) ↔ _
      rw [hfirst, hfold, hnone]
      simp only [Bool.false_eq_true, false_or, reduceCtorEq]

end Arguments

/-- The changes from what is stored before to what is stored after, in the order of the paths. -/
structure IsDifference (compareAtime : Bool) (before after : Str → Option FileMetadata)
    (events : List HistoryEvent) : Prop where
  order : events.Pairwise fun x y => x.path < y.path
  mem : ∀ event, event ∈ events ↔ diffAt compareAtime event.path (before event.path)
    (after event.path) = some event

/-- The changes of the kinds that the arguments ask for, and all events that are no changes. -/
def askedEvents (args : List Str) (events : List HistoryEvent) : List HistoryEvent :=
  events.filter fun event => ¬event.kind.IsChange ∨ requestedKinds args = [] ∨
    (requestedKinds args).contains event.kind = true

section Differences

variable {args : List Str} {env : ShowdiffEnv} {options : ShowdiffOptions} {compareAtime : Bool}
  {before after : Str → Option FileMetadata} {events : List HistoryEvent} {old new : Snapshot}

theorem isDifference_diffSnapshots (compareAtime : Bool) (hold : old.Sorted) (hnew : new.Sorted) :
    IsDifference compareAtime old.find new.find (diffSnapshots compareAtime old new) :=
  ⟨pairwise_diffEntries hold.increasing hnew.increasing,
    fun _ => mem_diffEntries hold.increasing hnew.increasing⟩

theorem isChange_of_diffAt {p : Str} {m n : Option FileMetadata} {event : HistoryEvent}
    (h : diffAt compareAtime p m n = some event) : event.kind.IsChange := by
  unfold diffAt at h
  split at h
  · cases h
  · obtain rfl := Option.some.inj h
    exact Or.inr (Or.inl rfl)
  · obtain rfl := Option.some.inj h
    exact Or.inl rfl
  · split at h
    · cases h
    · obtain rfl := Option.some.inj h
      exact Or.inr (Or.inr rfl)

theorem IsDifference.isChange (h : IsDifference compareAtime before after events) :
    ∀ event ∈ events, event.kind.IsChange :=
  fun event hevent => isChange_of_diffAt ((h.mem event).mp hevent)

/-- What is shown is what the arguments ask for. -/
theorem shownEvents_eq (hparse : ShowdiffOptions.parse args {} = .ok options)
    (events : List HistoryEvent) : shownEvents options events = askedEvents args events := by
  refine List.filter_congr fun event hevent => ?_
  rw [Bool.eq_iff_iff, decide_eq_true_eq, List.contains_iff_mem]
  by_cases hkind : event.kind.IsChange
  · rw [accepts_parse hparse hkind]
    exact (or_iff_right (not_not_intro hkind)).symm
  · refine iff_of_true ?_ (Or.inl hkind)
    exact accepts_of_not_isChange hkind options.filter

/-- All changes that are shown are counted. -/
theorem countPrinted_eq (hevents : ∀ event ∈ events, event.kind.IsChange) :
    countPrinted options events = (shownEvents options events).length := by
  refine List.countP_eq_length.mpr fun event hevent => decide_eq_true fun hmarker => ?_
  have hchange := hevents event (List.mem_of_mem_filter hevent)
  rw [hmarker] at hchange
  rcases hchange with h | h | h
  all_goals cases h

theorem printDifferences_eq (hparse : ShowdiffOptions.parse args {} = .ok options)
    (hevents : ∀ event ∈ events, event.kind.IsChange) (nothing : Str) :
    printDifferences env options nothing events =
      ⟨if askedEvents args events = [] ∧ options.jsonOutput = false then nothing
        else (askedEvents args events).flatMap (showEvent env options), true⟩ := by
  rw [printDifferences, printEvents, countPrinted_eq hevents, shownEvents_eq hparse]
  by_cases hnothing : askedEvents args events = [] ∧ options.jsonOutput = false
  · rw [if_pos hnothing, if_pos ⟨List.length_eq_zero_iff.mpr hnothing.1, hnothing.2⟩, hnothing.1]
    rfl
  · rw [if_neg hnothing, if_neg fun h => hnothing ⟨List.length_eq_zero_iff.mp h.1, h.2⟩,
      List.append_nil]

end Differences

section Diff

variable {σ : Type} {stream : StreamDecoder σ} {zstd : Str → Zstd σ}
  {transfer : ℕ → ℕ → Option ℕ} {env : ShowdiffEnv} {name oldDb newDb : Str}

/-- A database that can be opened is loaded as it was written. -/
theorem openSnapshot_eq (advancing : stream.Advancing) (htransfer : Transfers transfer)
    (w : SavedDatabase stream zstd) (hfile : env.files name = some w.openFile)
    (hcount : w.records.length < 2 ^ 31) :
    openSnapshot stream advancing zstd transfer env name =
      .ok (some ⟨w.snapshot, parseConfBlock w.finished.confBlock {}⟩) := by
  rw [openSnapshot, hfile]
  dsimp only
  rw [w.readHeader_eq htransfer]
  dsimp only
  rw [w.loadSnapshotFile_eq htransfer hcount]
  rfl

theorem transfers_transferAll : Transfers transferAll := fun _ _ => Option.some_ne_none _

def twoDatabases (a b : OpenFile) : ShowdiffEnv where
  files name := if name = ascii "a" then some a else if name = ascii "b" then some b else none
  trees _ := ⟨directoryNode, .nil⟩
  live := { prune := {} }

def removedOnly : List Str := [ascii "a", ascii "--removed-only", ascii "b"]

def removedOptions : ShowdiffOptions where
  filter := ⟨false, true, false, true⟩
  dbs := [ascii "a", ascii "b"]

def baselineRun : List HistoryEvent :=
  [{ kind := .runMarker, eventTime := ⟨1000, 0⟩, path := ascii "baseline" },
    { kind := .runMarker, eventTime := ⟨2000, 0⟩ }, { kind := .added, path := ascii "/a" }]

end Diff

end Flocate
