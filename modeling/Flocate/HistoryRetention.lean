import Flocate.Conf
import Flocate.DatabaseReaders
import Flocate.HistoryCodec
import Mathlib.Data.List.DropRight

/-!
# How many runs the history keeps

A run puts its marker and its events behind the history of the previous database and keeps the last
runs of that. What is stored then is the list of the runs that are kept, each as a whole, as long as
their number fits into an `int`.
-/

namespace Flocate

open Bytes

variable {σ : Type}

def intCast (n : ℕ) : ℤ := (n : ℤ).bmod (2 ^ 32)

/-- The positions of the markers, the first event having number `i`. -/
def markerIndices : List HistoryEvent → ℕ → List ℕ
  | [], _ => []
  | event :: events, i =>
      if event.kind = .runMarker then i :: markerIndices events (i + 1)
      else markerIndices events (i + 1)

def trimHistoryRuns (events : List HistoryEvent) (maxRuns : ℕ) : List HistoryEvent :=
  if maxRuns = 0 then []
  else
    match events with
    | [] => []
    | first :: _ =>
        let runStarts := (if first.kind ≠ .runMarker then [0] else []) ++ markerIndices events 0
        if runStarts = [] ∨ intCast runStarts.length ≤ maxRuns then events
        else events.drop (runStarts.getD (runStarts.length - maxRuns) 0)

/-- What a run of updedb brings along: its settings and what `scan` would record. -/
structure HistoryRun where
  /-- `conf_history_depth`. -/
  depth : ℕ
  depth_le : depth ≤ intMax
  baseline : Bool
  eventTime : DirTime
  scanned : List HistoryEvent

namespace HistoryRun

def marker (run : HistoryRun) : HistoryEvent where
  kind := .runMarker
  path := if run.baseline then ascii "baseline" else []
  eventTime := run.eventTime

def events (run : HistoryRun) : List HistoryEvent :=
  if run.depth = 0 ∨ run.baseline then [] else run.scanned

/-- The end of `main`, with the events that have been read from the previous database. -/
def merge (run : HistoryRun) (previous : List HistoryEvent) : List HistoryEvent :=
  if 0 < run.depth then
    let historyEvents := run.marker :: run.events
    if 1 < run.depth then trimHistoryRuns (previous ++ historyEvents) run.depth
    else trimHistoryRuns historyEvents run.depth
  else []

end HistoryRun

variable (d : StreamDecoder σ) (compress : Str → Str)

def decompressHistoryBlob (fuel : ℕ) (compressed : Str) : Option Str :=
  (d.decodeAll 4096 fuel d.init compressed).map (·.getD [])

/-- The history of a database; the blob is empty if the header gives it no length. -/
def readHistoryEvents (fuel : ℕ) (blob : Str) : Option (List HistoryEvent) :=
  if blob = [] then some []
  else (decompressHistoryBlob d fuel blob).map decodeHistoryStream

def historyBlob (events : List HistoryEvent) : Str :=
  if events = [] then [] else compress (encodeHistoryStream events)

def updateHistory (fuel : ℕ) (blob : Str) (run : HistoryRun) : Option Str := do
  let previous ← if 1 < run.depth then readHistoryEvents d fuel blob else some []
  some (historyBlob compress (run.merge previous))

/-- The groups that are kept: a group is a marker and its events. -/
def retain (groups : List (List HistoryEvent)) (run : HistoryRun) : List (List HistoryEvent) :=
  (groups ++ [run.marker :: run.events]).rtake run.depth

def retained (groups : List (List HistoryEvent)) (runs : List HistoryRun) :
    List (List HistoryEvent) :=
  runs.foldl retain groups

structure IsGroup (group : List HistoryEvent) : Prop where
  marker : ∃ marker events, group = marker :: events ∧ marker.kind = .runMarker ∧
    ∀ event ∈ events, event.kind ≠ .runMarker
  recordable : ∀ event ∈ group, event.Recordable

section Trim

theorem intCast_of_lt {n : ℕ} (h : n < 2 ^ 31) : intCast n = n := by
  unfold intCast
  exact Int.bmod_eq_of_le (by omega) (by omega)

theorem markerIndices_append (events events' : List HistoryEvent) (i : ℕ) :
    markerIndices (events ++ events') i =
      markerIndices events i ++ markerIndices events' (i + events.length) := by
  induction events generalizing i with
  | nil => rfl
  | cons event events ih =>
      rw [List.cons_append, markerIndices, markerIndices, ih, List.length_cons,
        Nat.add_right_comm, ← Nat.add_assoc]
      split <;> rfl

theorem markerIndices_of_forall_ne {events : List HistoryEvent}
    (h : ∀ event ∈ events, event.kind ≠ .runMarker) (i : ℕ) : markerIndices events i = [] := by
  induction events generalizing i with
  | nil => rfl
  | cons event events ih =>
      rw [List.forall_mem_cons] at h
      rw [markerIndices, if_neg h.1, ih h.2]

theorem IsGroup.markerIndices_eq {group : List HistoryEvent} (h : IsGroup group) (i : ℕ) :
    markerIndices group i = [i] := by
  obtain ⟨marker, events, rfl, hmarker, hevents⟩ := h.marker
  rw [markerIndices, if_pos hmarker, markerIndices_of_forall_ne hevents]

variable {groups : List (List HistoryEvent)}

/-- Every group has one marker, where it starts. -/
theorem markerIndices_flatten (h : ∀ group ∈ groups, IsGroup group) (i : ℕ) :
    (markerIndices groups.flatten i).length = groups.length ∧ ∀ j < groups.length,
      (markerIndices groups.flatten i).getD j 0 = i + (groups.take j).flatten.length := by
  induction groups generalizing i with
  | nil => exact ⟨rfl, fun j hj => absurd hj (Nat.not_lt_zero j)⟩
  | cons group groups ih =>
      rw [List.forall_mem_cons] at h
      obtain ⟨hlength, hget⟩ := ih h.2 (i + group.length)
      rw [List.flatten_cons, markerIndices_append, h.1.markerIndices_eq]
      refine ⟨by rw [List.length_append, hlength, List.length_singleton, List.length_cons,
        Nat.add_comm], ?_⟩
      intro j hj
      cases j with
      | zero => rfl
      | succ j =>
          rw [List.singleton_append, List.getD_cons_succ, hget j (Nat.lt_of_succ_lt_succ hj),
            List.take_succ_cons, List.flatten_cons, List.length_append, Nat.add_assoc]

theorem drop_flatten (j : ℕ) :
    groups.flatten.drop (groups.take j).flatten.length = (groups.drop j).flatten := by
  have hsplit : groups.flatten = (groups.take j).flatten ++ (groups.drop j).flatten := by
    rw [← List.flatten_append, List.take_append_drop]
  rw [hsplit, List.drop_left]

/-- Whole runs are kept, if their number fits into an `int`. -/
theorem trimHistoryRuns_flatten (h : ∀ group ∈ groups, IsGroup group) {maxRuns : ℕ}
    (hpos : 0 < maxRuns) (hlt : groups.length < 2 ^ 31) :
    trimHistoryRuns groups.flatten maxRuns = (groups.rtake maxRuns).flatten := by
  obtain ⟨hlength, hget⟩ := markerIndices_flatten h 0
  unfold trimHistoryRuns List.rtake
  rw [if_neg hpos.ne']
  cases groups with
  | nil =>
      rw [List.drop_nil]
      rfl
  | cons group groups =>
      obtain ⟨marker, events, rfl, hmarker, -⟩ := (h group List.mem_cons_self).marker
      have hne : markerIndices ((marker :: events) :: groups).flatten 0 ≠ [] :=
        List.ne_nil_of_length_pos (by rw [hlength]; exact Nat.succ_pos _)
      rw [List.flatten_cons, List.cons_append] at hlength hget hne ⊢
      simp only [if_neg (not_not_intro hmarker), List.nil_append, hne, false_or]
      rw [hlength, intCast_of_lt hlt]
      by_cases hle : ((marker :: events) :: groups).length ≤ maxRuns
      · rw [if_pos (Int.ofNat_le.mpr hle), Nat.sub_eq_zero_of_le hle]
        rfl
      · rw [if_neg (fun hcast => hle (Int.ofNat_le.mp hcast)), hget _ (by omega), Nat.zero_add]
        exact drop_flatten _

/-- The cast makes a negative number of this many runs, and none is dropped. -/
theorem trimHistoryRuns_overflow (h : ∀ group ∈ groups, IsGroup group) {maxRuns : ℕ}
    (hpos : 0 < maxRuns) (hlength : groups.length = 2 ^ 31) :
    trimHistoryRuns groups.flatten maxRuns = groups.flatten := by
  obtain ⟨hindices, -⟩ := markerIndices_flatten h 0
  have hcast : intCast (2 ^ 31) ≤ maxRuns := by
    have hneg : intCast (2 ^ 31) = -2 ^ 31 := by decide
    omega
  unfold trimHistoryRuns
  rw [if_neg hpos.ne']
  cases groups with
  | nil => rfl
  | cons group groups =>
      obtain ⟨marker, events, rfl, hmarker, -⟩ := (h group List.mem_cons_self).marker
      rw [List.flatten_cons, List.cons_append] at hindices ⊢
      simp only [if_neg (not_not_intro hmarker), List.nil_append]
      rw [hindices, hlength]
      exact if_pos (Or.inr hcast)

end Trim

section Runs

variable {d} {compress} {groups : List (List HistoryEvent)}

theorem HistoryRun.isGroup (run : HistoryRun)
    (h : ∀ event ∈ run.events, event.Recordable ∧ event.kind ≠ .runMarker) :
    IsGroup (run.marker :: run.events) := by
  have hmarker : run.marker.Recordable := by
    refine ⟨?_, Nat.zero_le _, Nat.zero_le _, rfl, rfl⟩
    have hbaseline : (ascii "baseline").length < 2 ^ 32 := by decide
    unfold HistoryRun.marker
    split
    · exact hbaseline
    · exact Nat.two_pow_pos 32
  exact ⟨⟨_, _, rfl, rfl, fun event hevent => (h event hevent).2⟩,
    List.forall_mem_cons.mpr ⟨hmarker, fun event hevent => (h event hevent).1⟩⟩

theorem isGroup_of_mem_retain {run : HistoryRun} (h : ∀ group ∈ groups, IsGroup group)
    (hrun : IsGroup (run.marker :: run.events)) : ∀ group ∈ retain groups run, IsGroup group := by
  intro group hgroup
  have hmem := List.mem_of_mem_drop hgroup
  rcases List.mem_append.mp hmem with hmem | hmem
  · exact h group hmem
  · exact List.mem_singleton.mp hmem ▸ hrun

/-- One run, while the number of the runs fits. -/
theorem merge_flatten {run : HistoryRun} (h : ∀ group ∈ groups, IsGroup group)
    (hrun : IsGroup (run.marker :: run.events))
    (hfits : run.depth ≤ 1 ∨ groups.length + 1 < 2 ^ 31) :
    run.merge (if 1 < run.depth then groups.flatten else []) = (retain groups run).flatten := by
  unfold HistoryRun.merge retain
  by_cases hpos : 0 < run.depth
  · have hsingle : ∀ group ∈ [run.marker :: run.events], IsGroup group :=
      List.forall_mem_singleton.mpr hrun
    have hflatten : run.marker :: run.events = [run.marker :: run.events].flatten := by simp
    rw [if_pos hpos]
    by_cases hone : 1 < run.depth
    · have hall := List.forall_mem_append.mpr ⟨h, hsingle⟩
      have htrim := trimHistoryRuns_flatten hall hpos (by
        rw [List.length_append, List.length_singleton]
        omega)
      rw [List.flatten_append, ← hflatten] at htrim
      simp only [if_pos hone]
      exact htrim
    · have heq : run.depth = 1 := by omega
      have htrim := trimHistoryRuns_flatten hsingle hpos (by simp)
      rw [← hflatten] at htrim
      simp only [if_neg hone]
      rw [htrim, heq]
      unfold List.rtake
      simp
  · have hzero : run.depth = 0 := by omega
    rw [if_neg hpos, hzero, List.rtake_zero]
    rfl

variable (d) in
def HoldsHistory (blob : Str) (groups : List (List HistoryEvent)) : Prop :=
  (∀ group ∈ groups, IsGroup group) ∧
    ((blob = [] ∧ groups = []) ∨
      (groups ≠ [] ∧ d.Decodes blob (encodeHistoryStream groups.flatten)))

theorem HoldsHistory.readHistoryEvents {blob : Str} (h : HoldsHistory d blob groups) :
    ∃ bound, ∀ fuel, bound ≤ fuel → readHistoryEvents d fuel blob = some groups.flatten := by
  unfold Flocate.readHistoryEvents
  rcases h.2 with ⟨rfl, rfl⟩ | ⟨hne, hblob⟩
  · exact ⟨0, fun fuel _ => rfl⟩
  · refine ⟨blob.length + (encodeHistoryStream groups.flatten).length + 1, fun fuel hfuel => ?_⟩
    have hdecode := hblob.decodeAll (show 0 < 4096 by decide) hfuel
    have hstream : decodeHistoryStream (encodeHistoryStream groups.flatten) = groups.flatten := by
      obtain ⟨group, rest, rfl⟩ := List.exists_cons_of_ne_nil hne
      obtain ⟨marker, events, rfl, hmarker, -⟩ := (h.1 group List.mem_cons_self).marker
      refine decodeHistoryStream_encodeHistoryStream hmarker fun event hevent => ?_
      have hmem : event ∈ ((marker :: events) :: rest).flatten := hevent
      obtain ⟨group, hgroup, hevent⟩ := List.mem_flatten.mp hmem
      exact (h.1 group hgroup).recordable event hevent
    unfold decompressHistoryBlob
    rw [if_neg hblob.1, hdecode]
    exact congrArg some hstream

theorem flatten_eq_nil_iff_of_groups (h : ∀ group ∈ groups, IsGroup group) :
    groups.flatten = [] ↔ groups = [] := by
  constructor
  · intro hnil
    cases groups with
    | nil => rfl
    | cons group groups =>
        obtain ⟨marker, events, rfl, -⟩ := (h group List.mem_cons_self).marker
        cases hnil
  · rintro rfl
    rfl

/-- The step: what a run leaves behind holds the groups that are kept. -/
theorem HoldsHistory.updateHistory (hcompress : ∀ content, d.Decodes (compress content) content)
    {blob : Str} (h : HoldsHistory d blob groups) {run : HistoryRun}
    (hrun : IsGroup (run.marker :: run.events))
    (hfits : run.depth ≤ 1 ∨ groups.length + 1 < 2 ^ 31) :
    ∃ next, HoldsHistory d next (retain groups run) ∧ ∃ bound, ∀ fuel, bound ≤ fuel →
      updateHistory d compress fuel blob run = some next := by
  have hgroups := isGroup_of_mem_retain h.1 hrun
  obtain ⟨bound, hread⟩ := h.readHistoryEvents
  refine ⟨historyBlob compress (retain groups run).flatten, ⟨hgroups, ?_⟩, bound, ?_⟩
  · unfold historyBlob
    by_cases hnil : retain groups run = []
    · exact Or.inl ⟨if_pos ((flatten_eq_nil_iff_of_groups hgroups).mpr hnil), hnil⟩
    · rw [if_neg ((flatten_eq_nil_iff_of_groups hgroups).not.mpr hnil)]
      exact Or.inr ⟨hnil, hcompress _⟩
  · intro fuel hfuel
    have hmerge := merge_flatten h.1 hrun hfits
    unfold Flocate.updateHistory
    split
    · rename_i hdepth
      rw [if_pos hdepth] at hmerge
      rw [hread fuel hfuel, ← hmerge]
      rfl
    · rename_i hdepth
      rw [if_neg hdepth] at hmerge
      rw [← hmerge]
      rfl

/-- What is asked of the runs, one after the other: no markers among the events, and nothing that
does not fit into the encoding of an event or the count of the runs. -/
def RunsFit : List (List HistoryEvent) → List HistoryRun → Prop
  | _, [] => True
  | groups, run :: runs =>
      (∀ event ∈ run.events, event.Recordable ∧ event.kind ≠ .runMarker) ∧
        (run.depth ≤ 1 ∨ groups.length + 1 < 2 ^ 31) ∧ RunsFit (retain groups run) runs

/-- All runs of a sequence. -/
theorem HoldsHistory.foldlM (hcompress : ∀ content, d.Decodes (compress content) content)
    {blob : Str} (h : HoldsHistory d blob groups) {runs : List HistoryRun}
    (hruns : RunsFit groups runs) :
    ∃ last, HoldsHistory d last (retained groups runs) ∧ ∃ bound, ∀ fuel, bound ≤ fuel →
      runs.foldlM (Flocate.updateHistory d compress fuel) blob = some last := by
  induction runs generalizing blob groups with
  | nil => exact ⟨blob, h, 0, fun fuel _ => rfl⟩
  | cons run runs ih =>
      obtain ⟨hevents, hfits, hruns⟩ := hruns
      obtain ⟨next, hnext, bound, hupdate⟩ :=
        h.updateHistory hcompress (run.isGroup hevents) hfits
      obtain ⟨last, hlast, bound', hrest⟩ := ih hnext hruns
      refine ⟨last, hlast, max bound bound', fun fuel hfuel => ?_⟩
      rw [List.foldlM_cons, hupdate fuel (le_trans (le_max_left _ _) hfuel)]
      exact hrest fuel (le_trans (le_max_right _ _) hfuel)

/-- The runs that are kept are the last ones, each as a whole. -/
theorem retained_suffix (groups : List (List HistoryEvent)) (runs : List HistoryRun) :
    retained groups runs <:+ groups ++ runs.map fun run => run.marker :: run.events := by
  induction runs generalizing groups with
  | nil => exact (List.append_nil groups).symm ▸ List.suffix_refl _
  | cons run runs ih =>
      have hretain : retain groups run <:+ groups ++ [run.marker :: run.events] :=
        List.drop_suffix _ _
      obtain ⟨dropped, hdropped⟩ := hretain
      refine (ih (retain groups run)).trans ⟨dropped, ?_⟩
      rw [← List.append_assoc, hdropped, List.append_assoc]
      rfl

/-- The history after any sequence of runs consists of whole runs, the last ones that each of the
depths has left. -/
theorem history_retained (hcompress : ∀ content, d.Decodes (compress content) content)
    {blob : Str} (h : HoldsHistory d blob groups) {runs : List HistoryRun}
    (hruns : RunsFit groups runs) :
    ∃ last bound, ∀ fuel, bound ≤ fuel →
      runs.foldlM (updateHistory d compress fuel) blob = some last ∧
      readHistoryEvents d fuel last = some (retained groups runs).flatten ∧
      (∀ group ∈ retained groups runs, IsGroup group) ∧
      retained groups runs <:+ groups ++ runs.map fun run => run.marker :: run.events := by
  obtain ⟨last, hlast, bound, hfold⟩ := h.foldlM hcompress hruns
  obtain ⟨bound', hread⟩ := hlast.readHistoryEvents
  exact ⟨last, max bound bound', fun fuel hfuel => ⟨hfold fuel (le_trans (le_max_left _ _) hfuel),
    hread fuel (le_trans (le_max_right _ _) hfuel), hlast.1, retained_suffix groups runs⟩⟩

end Runs

section Examples

/-- A run with other settings than the one before it. -/
def resetRun (depth : ℕ) (h : depth ≤ intMax) : HistoryRun where
  depth := depth
  depth_le := h
  baseline := true
  eventTime := unknownDirTime
  scanned := []

def resetGroup : List HistoryEvent := [{ kind := .runMarker, path := ascii "baseline" }]

theorem events_resetRun (depth : ℕ) (h : depth ≤ intMax) :
    (resetRun depth h).events = [] := if_pos (.inr rfl)

theorem group_resetRun {depth : ℕ} {h : depth ≤ intMax} :
    (resetRun depth h).marker :: (resetRun depth h).events = resetGroup := by
  rw [events_resetRun]
  rfl

theorem isGroup_resetGroup : IsGroup resetGroup :=
  (resetRun 1 (by decide)).isGroup (List.forall_mem_nil _)

def addedFile : HistoryEvent where
  kind := .added
  path := ascii "/a"

/-- The first run finds no database, the second one a new file. -/
def twoRuns : List HistoryRun :=
  [resetRun 2 (by decide), ⟨2, by decide, false, unknownDirTime, [addedFile]⟩]

theorem history_retained_twoRuns : ∃ last bound, ∀ fuel, bound ≤ fuel →
    twoRuns.foldlM (updateHistory rawStream rawFrame fuel) [] = some last ∧
    readHistoryEvents rawStream fuel last = some (retained [] twoRuns).flatten ∧
    (∀ group ∈ retained [] twoRuns, IsGroup group) ∧
    retained [] twoRuns <:+ [] ++ twoRuns.map fun run => run.marker :: run.events := by
  have hfits : RunsFit [] twoRuns :=
    ⟨List.forall_mem_nil _, Or.inr (by decide),
      List.forall_mem_singleton.mpr ⟨⟨by decide, by decide, by decide, rfl, rfl⟩, by decide⟩,
      Or.inr (by decide), trivial⟩
  exact history_retained decodes_rawFrame ⟨List.forall_mem_nil _, Or.inl ⟨rfl, rfl⟩⟩ hfits

variable {depth : ℕ} {h : depth ≤ intMax}

theorem retain_replicate {k : ℕ} (hle : k + 1 ≤ depth) :
    retain (List.replicate k resetGroup) (resetRun depth h) =
      List.replicate (k + 1) resetGroup := by
  unfold retain List.rtake
  rw [group_resetRun, ← List.replicate_succ', List.length_replicate]
  change List.drop (k + 1 - depth) _ = _
  rw [Nat.sub_eq_zero_of_le hle, List.drop_zero]

theorem retained_replicate {k n : ℕ} (hle : k + n ≤ depth) :
    retained (List.replicate k resetGroup) (List.replicate n (resetRun depth h)) =
      List.replicate (k + n) resetGroup := by
  induction n generalizing k with
  | zero => rfl
  | succ n ih =>
      rw [List.replicate_succ]
      change retained (retain _ _) _ = _
      rw [retain_replicate (by omega), ih (by omega), Nat.add_right_comm, Nat.add_assoc]

theorem fits_replicate {k n : ℕ} (hle : k + n ≤ depth) :
    RunsFit (List.replicate k resetGroup) (List.replicate n (resetRun depth h)) := by
  induction n generalizing k with
  | zero => trivial
  | succ n ih =>
      have hmax : intMax = 2 ^ 31 - 1 := rfl
      refine ⟨by rw [events_resetRun]; exact List.forall_mem_nil _, Or.inr ?_, ?_⟩
      · rw [List.length_replicate]
        omega
      · rw [retain_replicate (by omega)]
        exact ih (by omega)

theorem flatten_replicate_succ (n : ℕ) : (List.replicate n resetGroup).flatten ++ resetGroup =
    (List.replicate (n + 1) resetGroup).flatten := by
  rw [List.replicate_succ', List.flatten_append, List.flatten_cons, List.flatten_nil,
    List.append_nil]

theorem forall_isGroup_replicate (n : ℕ) :
    ∀ group ∈ List.replicate n resetGroup, IsGroup group :=
  fun _ hgroup => List.eq_of_mem_replicate hgroup ▸ isGroup_resetGroup

theorem merge_overflow {n : ℕ} (hn : n + 1 = 2 ^ 31) (hdepth : 1 < depth) :
    (resetRun depth h).merge (List.replicate n resetGroup).flatten =
      (List.replicate (n + 1) resetGroup).flatten := by
  have htrim := trimHistoryRuns_overflow (forall_isGroup_replicate (n + 1))
    (Nat.zero_lt_of_lt hdepth) (List.length_replicate.trans hn)
  have hdepth' : (resetRun depth h).depth = depth := rfl
  unfold HistoryRun.merge
  dsimp only
  rw [group_resetRun, flatten_replicate_succ, hdepth', if_pos (Nat.zero_lt_of_lt hdepth),
    if_pos hdepth, htrim]

theorem holdsHistory_replicate_succ (n : ℕ) : HoldsHistory rawStream
    (historyBlob rawFrame (List.replicate (n + 1) resetGroup).flatten)
    (List.replicate (n + 1) resetGroup) := by
  have hall := forall_isGroup_replicate (n + 1)
  have hne : List.replicate (n + 1) resetGroup ≠ [] := by
    rw [List.replicate_succ]
    exact List.cons_ne_nil _ _
  refine ⟨hall, Or.inr ⟨hne, ?_⟩⟩
  unfold historyBlob
  rw [if_neg ((flatten_eq_nil_iff_of_groups hall).not.mpr hne)]
  exact decodes_rawFrame _

/-- Of as many runs as an `int` cannot count any more, none is dropped. -/
theorem history_overflow {n : ℕ} (hn : n ≤ intMax) (hsucc : n + 1 = 2 ^ 31) (hdepth : 1 < depth)
    (hlt : depth < n + 1) : ∃ last events bound,
    (∀ fuel, bound ≤ fuel →
      (List.replicate n (resetRun n hn) ++ [resetRun depth h]).foldlM
        (updateHistory rawStream rawFrame fuel) [] = some last ∧
      readHistoryEvents rawStream fuel last = some events) ∧
    events ≠ (retained [] (List.replicate n (resetRun n hn) ++ [resetRun depth h])).flatten := by
  have hfull : retained [] (List.replicate n (resetRun n hn)) = List.replicate n resetGroup := by
    have hreplicate := retained_replicate (h := hn) (Nat.zero_add n).le
    rwa [Nat.zero_add] at hreplicate
  have hstart : HoldsHistory rawStream [] [] := ⟨List.forall_mem_nil _, Or.inl ⟨rfl, rfl⟩⟩
  obtain ⟨blob, hblob, bound, hfold⟩ :=
    hstart.foldlM decodes_rawFrame (fits_replicate (h := hn) (Nat.zero_add n).le)
  rw [hfull] at hblob
  obtain ⟨bound', hread⟩ := hblob.readHistoryEvents
  obtain ⟨bound'', hread'⟩ := (holdsHistory_replicate_succ n).readHistoryEvents
  refine ⟨_, _, max bound (max bound' bound''), fun fuel hfuel =>
    ⟨?_, hread' fuel (by omega)⟩, ?_⟩
  · have hdepth' : 1 < (resetRun depth h).depth := hdepth
    have hupdate : updateHistory rawStream rawFrame fuel blob (resetRun depth h) =
        some (historyBlob rawFrame (List.replicate (n + 1) resetGroup).flatten) := by
      unfold updateHistory
      rw [if_pos hdepth', hread fuel (by omega), ← merge_overflow hsucc hdepth]
      rfl
    rw [List.foldlM_append, hfold fuel (by omega)]
    change Option.bind (updateHistory _ _ _ _ _) some = _
    rw [hupdate]
    rfl
  · intro heq
    have hlength := congrArg List.length heq
    have hkept : retained [] (List.replicate n (resetRun n hn) ++ [resetRun depth h]) =
        (List.replicate (n + 1) resetGroup).rtake depth := by
      unfold retained at hfull ⊢
      rw [List.foldl_append, hfull, List.replicate_succ', ← group_resetRun (h := h)]
      rfl
    have hflatten (m : ℕ) : (List.replicate m resetGroup).flatten.length = m := by
      simp [resetGroup]
    rw [hkept, List.rtake, List.drop_replicate, hflatten, hflatten,
      List.length_replicate] at hlength
    omega

/-- The largest depth lets the history grow until the count of its runs overflows; a run with depth
2 then keeps all of them. -/
theorem not_history_retained : ∃ runs : List HistoryRun, ∃ last events bound,
    (∀ fuel, bound ≤ fuel →
      runs.foldlM (updateHistory rawStream rawFrame fuel) [] = some last ∧
      readHistoryEvents rawStream fuel last = some events) ∧
    events ≠ (retained [] runs).flatten :=
  ⟨_, history_overflow (h := (by decide : 2 ≤ intMax)) (Nat.le_refl intMax) (by decide)
    (by decide) (by decide)⟩

end Examples

end Flocate
