import Flocate.PruneConfig
import Flocate.DirectoryTree
import Flocate.SnapshotDiff
import Flocate.Lib.StackWalk
import Mathlib.Data.List.DropRight

/-!
# Comparing a database with the live tree

`diff_with_live` walks the tree with a stack and looks every entry up in the sorted paths of the
snapshot. It returns what `diff_snapshots` returns for the snapshot of a full run on the tree.
-/

namespace Flocate

open Bytes

structure LiveEnv where
  prune : PruneConfig
  compareAtime : Bool := false
  hashMaxSize : UInt64 := 0
  mountedFsType : Str → Str := fun _ => []
  fsAllowsHashing : Str → Bool := fun _ => true
  computeFileHash : Str → Option MetadataHash := fun _ => none

/-- Slashes at the end are taken off, but not the first byte. -/
def normalizeRoot (root : Str) : Str :=
  let root := root.take 1 ++ (root.drop 1).rdropWhile (· = 47)
  if root = [47] then [] else root

def joinPath (dir name : Str) : Str := if dir = [47] then dir ++ name else dir ++ 47 :: name

structure WalkDir where
  real : Str
  db : Str
  dev : ℕ
  hashAllowed : Bool
  checkFs : Bool

def lowerBound (paths : List Str) (path : Str) : ℕ := paths.findIdx fun q => ¬q < path

structure LiveState where
  seen : List Bool
  events : List HistoryEvent := []

section Live

variable (env : LiveEnv) (snapshot : Snapshot)

/-- The position of a path in the snapshot, and whether it is there. -/
def knownAt (path : Str) : ℕ × Bool :=
  let idx := lowerBound snapshot.paths path
  (idx, snapshot.paths[idx]? = some path)

/-- The first directory of a file system decides about hashing. -/
def WalkDir.opened (w : WalkDir) : WalkDir :=
  if w.checkFs && snapshot.hashKind ≠ .none && w.hashAllowed then
    { w with hashAllowed := env.fsAllowsHashing w.real }
  else w

/-- A file is hashed only if its digest can be compared with something. -/
def wantHash (w : WalkDir) (path : Str) (metadata : FileMetadata) : Bool :=
  let (idx, known) := knownAt snapshot path
  if snapshot.hashKind ≠ .none && w.hashAllowed && metadata.isReg then
    if known then
      let stored := (snapshot.metadata.getD idx {}).hash
      stored.kind ≠ .none && stored.length ≠ 0
    else env.hashMaxSize = 0 || metadata.size ≤ env.hashMaxSize
  else false

def liveMetadata (w : WalkDir) (name : Str) (t : Tree) : FileMetadata :=
  if wantHash env snapshot w (joinPath w.db name) t.node.metadata then
    { t.node.metadata with hash := (env.computeFileHash (joinPath w.real name)).getD {} }
  else t.node.metadata

def compareEntry (w : WalkDir) (s : LiveState) (entry : Str × Tree) : LiveState :=
  let (name, t) := entry
  if name = [] || t.node.statFails then s
  else
    let path := joinPath w.db name
    let live := liveMetadata env snapshot w name t
    let (idx, known) := knownAt snapshot path
    if known then
      let stored := snapshot.metadata.getD idx {}
      { seen := s.seen.set idx true
        events :=
          if metadataEquals stored live env.compareAtime then s.events
          else s.events ++ [makeEvent .modified path stored live] }
    else { s with events := s.events ++ [makeEvent .added path {} live] }

/-- The loop over `readdir` pushes a directory that is not pruned. -/
def descend (w : WalkDir) (entry : Str × Tree) : Option (WalkDir × Tree) :=
  let (name, t) := entry
  let path := joinPath w.db name
  let realPath := joinPath w.real name
  if name = [] || t.node.statFails || !t.isDir then none
  else if env.prune.prunenames.contains name || env.prune.prunepaths.contains path then none
  else
    let newFs : Bool := t.node.dev ≠ w.dev
    let type := env.mountedFsType realPath
    if newFs && env.prune.prunefs ≠ [] && type ≠ [] && env.prune.prunefs.contains type then none
    else some (⟨realPath, path, t.node.dev, w.hashAllowed, newFs⟩, t)

def Tree.closed (t : Tree) : Bool := t.node.openFails || t.node.listFails

def liveEntries (dir : WalkDir × Tree) : List (Str × Tree) :=
  if dir.2.closed then [] else dir.2.content.entries

def pushedDirs (dir : WalkDir × Tree) : List (WalkDir × Tree) :=
  (liveEntries dir).filterMap (descend env (dir.1.opened env snapshot))

def compareDir (s : LiveState) (dir : WalkDir × Tree) : LiveState :=
  (liveEntries dir).foldl (compareEntry env snapshot (dir.1.opened env snapshot)) s

end Live

def Dir.count : Dir → ℕ
  | nil => 0
  | cons _ _ content rest => content.count + 1 + rest.count

theorem Dir.total_entries (dir : Dir) :
    StackWalk.total (fun e : Str × Tree => e.2.content.count + 1) dir.entries = dir.count := by
  induction dir with
  | nil => rfl
  | cons name node content rest _ ih => rw [entries, StackWalk.total, ih, count]

def dirWeight (dir : WalkDir × Tree) : ℕ := dir.2.content.count + 1

theorem descend_tree {env : LiveEnv} {w : WalkDir} {entry : Str × Tree} {sub : WalkDir × Tree}
    (h : descend env w entry = some sub) : sub.2 = entry.2 := by
  unfold descend at h
  dsimp only at h
  split at h
  · cases h
  · split at h
    · cases h
    · split at h
      · cases h
      · obtain rfl := Option.some.inj h
        rfl

theorem total_filterMap_descend (env : LiveEnv) (w : WalkDir) (entries : List (Str × Tree)) :
    StackWalk.total dirWeight (entries.filterMap (descend env w)) ≤
      StackWalk.total (fun e : Str × Tree => e.2.content.count + 1) entries := by
  induction entries with
  | nil => exact Nat.le_refl 0
  | cons entry entries ih =>
      rw [StackWalk.total]
      cases hdescend : descend env w entry with
      | none =>
          rw [List.filterMap_cons_none hdescend]
          exact ih.trans (Nat.le_add_left _ _)
      | some sub =>
          rw [List.filterMap_cons_some hdescend, StackWalk.total, dirWeight,
            descend_tree hdescend]
          exact Nat.add_le_add_left ih _

/-- The directories that are pushed are smaller than the one that is read. -/
theorem shrinks_pushedDirs (env : LiveEnv) (snapshot : Snapshot) :
    StackWalk.Shrinks (pushedDirs env snapshot) dirWeight := by
  intro dir
  refine Nat.lt_succ_of_le ((total_filterMap_descend env _ _).trans ?_)
  unfold liveEntries
  split
  · exact Nat.zero_le _
  · exact le_of_eq (Dir.total_entries dir.2.content)

section Live

variable (env : LiveEnv) (snapshot : Snapshot)

/-- The loop over the stack; its last element is the first one here. -/
def liveWalk : List (WalkDir × Tree) → LiveState → LiveState
  | [], s => s
  | dir :: stack, s =>
      liveWalk ((pushedDirs env snapshot dir).reverse ++ stack) (compareDir env snapshot s dir)
termination_by stack => StackWalk.total dirWeight stack
decreasing_by exact (shrinks_pushedDirs env snapshot).total_lt dir stack

def removedEvents (seen : List Bool) : List HistoryEvent :=
  (List.range snapshot.paths.length).filterMap fun i =>
    if seen.getD i false then none
    else some (makeEvent .removed (snapshot.paths.getD i []) (snapshot.metadata.getD i {}) {})

/-- `diff_with_live`, with the tree that is at the root; nothing if it is not a directory. -/
def diffWithLive (root : Str) (t : Tree) : Option (List HistoryEvent) :=
  if t.node.statFails || !t.isDir then none
  else
    let top : WalkDir := {
      real := normalizeRoot root ++ snapshot.scanRoot
      db := snapshot.scanRoot
      dev := t.node.dev
      hashAllowed := true
      checkFs := true }
    let s := liveWalk env snapshot [(top, t)]
      { seen := List.replicate snapshot.paths.length false }
    some ((s.events ++ removedEvents snapshot s.seen).mergeSort fun a b =>
      decide ¬b.path < a.path)

end Live

section Lookup

variable {snapshot : Snapshot} {paths : List Str} {path : Str} {i : ℕ}

theorem lowerBound_eq (hpaths : paths.Pairwise (· < ·)) (h : paths[i]? = some path) :
    lowerBound paths path = i := by
  obtain ⟨hi, hget⟩ := List.getElem?_eq_some_iff.mp h
  rw [lowerBound, List.findIdx_eq hi]
  refine ⟨?_, fun j hj => ?_⟩
  · rw [hget]
    exact decide_eq_true (List.lt_irrefl path)
  · have hlt := List.pairwise_iff_getElem.mp hpaths j i (hj.trans hi) hi hj
    rw [hget] at hlt
    exact decide_eq_false (not_not_intro hlt)

/-- Every path of the snapshot is found where it is. -/
theorem knownAt_iff (h : snapshot.Sorted) :
    knownAt snapshot path = (i, true) ↔ snapshot.paths[i]? = some path := by
  rw [knownAt, Prod.mk.injEq, decide_eq_true_eq]
  constructor
  · rintro ⟨rfl, hget⟩
    exact hget
  · intro hget
    have hidx := lowerBound_eq h.paths hget
    exact ⟨hidx, hidx.symm ▸ hget⟩

theorem mem_entries_iff (h : snapshot.Sorted) {m : FileMetadata} :
    (path, m) ∈ snapshot.entries ↔ ∃ i, snapshot.paths[i]? = some path ∧
      snapshot.metadata.getD i {} = m := by
  rw [Snapshot.entries, List.mem_iff_getElem?]
  refine exists_congr fun i => ?_
  rw [List.getElem?_zip_eq_some, List.getD_eq_getElem?_getD]
  refine and_congr_right fun hpath => ?_
  have hi : i < snapshot.metadata.length := h.length ▸ (List.getElem?_eq_some_iff.mp hpath).1
  rw [List.getElem?_eq_getElem hi, Option.getD_some, Option.some.injEq]

theorem find_iff (h : snapshot.Sorted) {m : FileMetadata} :
    snapshot.find path = some m ↔ ∃ i, snapshot.paths[i]? = some path ∧
      snapshot.metadata.getD i {} = m := by
  rw [Snapshot.find, h.increasing.lookup_eq_some_iff, mem_entries_iff h]

theorem find_knownAt (h : snapshot.Sorted) : snapshot.find path =
    if (knownAt snapshot path).2 then some (snapshot.metadata.getD (knownAt snapshot path).1 {})
    else none := by
  split
  · rename_i hknown
    exact (find_iff h).mpr ⟨_, (knownAt_iff h).mp (Prod.ext rfl hknown), rfl⟩
  · rename_i hknown
    rw [Option.eq_none_iff_forall_ne_some]
    intro m hm
    obtain ⟨i, hi, -⟩ := (find_iff h).mp hm
    rw [(knownAt_iff h).mpr hi] at hknown
    exact hknown rfl

end Lookup

section Compare

variable (snapshot : Snapshot) (compareAtime : Bool)

def comparePath (s : LiveState) (x : Str × FileMetadata) : LiveState :=
  let (idx, known) := knownAt snapshot x.1
  if known then
    let stored := snapshot.metadata.getD idx {}
    { seen := s.seen.set idx true
      events :=
        if metadataEquals stored x.2 compareAtime then s.events
        else s.events ++ [makeEvent .modified x.1 stored x.2] }
  else { s with events := s.events ++ [makeEvent .added x.1 {} x.2] }

def entryEvent (x : Str × FileMetadata) : Option HistoryEvent :=
  diffAt compareAtime x.1 (snapshot.find x.1) (some x.2)

variable {snapshot compareAtime} {s : LiveState} {i : ℕ}

theorem events_comparePath (h : snapshot.Sorted) (x : Str × FileMetadata) :
    (comparePath snapshot compareAtime s x).events =
      s.events ++ (entryEvent snapshot compareAtime x).toList := by
  rw [entryEvent, find_knownAt h, comparePath]
  dsimp only
  split
  · dsimp only
    rw [diffAt]
    split
    · exact (List.append_nil _).symm
    · rfl
  · rfl

theorem seen_comparePath (compareAtime : Bool) (h : snapshot.Sorted) (hi : i < s.seen.length)
    (x : Str × FileMetadata) :
    (comparePath snapshot compareAtime s x).seen.length = s.seen.length ∧
      ((comparePath snapshot compareAtime s x).seen.getD i false = true ↔
        s.seen.getD i false = true ∨ snapshot.paths[i]? = some x.1) := by
  rw [← knownAt_iff h, comparePath]
  obtain ⟨idx, known⟩ := knownAt snapshot x.1
  cases known with
  | false => exact ⟨rfl, by simp⟩
  | true =>
      refine ⟨List.length_set, ?_⟩
      simp only [if_true, List.getD_eq_getElem?_getD, List.getElem?_set]
      by_cases heq : idx = i
      · simp [heq, hi]
      · simp [heq]

theorem events_foldl (h : snapshot.Sorted) (xs : List (Str × FileMetadata)) :
    (xs.foldl (comparePath snapshot compareAtime) s).events =
      s.events ++ xs.filterMap (entryEvent snapshot compareAtime) := by
  induction xs generalizing s with
  | nil => exact (List.append_nil _).symm
  | cons x xs ih =>
      rw [List.foldl_cons, ih, events_comparePath h, List.append_assoc, List.filterMap_cons]
      cases entryEvent snapshot compareAtime x with
      | none => rfl
      | some event => rfl

theorem seen_foldl (h : snapshot.Sorted) (xs : List (Str × FileMetadata))
    (hi : i < s.seen.length) :
    (xs.foldl (comparePath snapshot compareAtime) s).seen.getD i false = true ↔
      s.seen.getD i false = true ∨ ∃ x ∈ xs, snapshot.paths[i]? = some x.1 := by
  induction xs generalizing s with
  | nil => simp
  | cons x xs ih =>
      obtain ⟨hlength, hseen⟩ := seen_comparePath compareAtime h hi x
      rw [List.foldl_cons, ih (hlength.symm ▸ hi), hseen, List.exists_mem_cons_iff, or_assoc]

theorem mem_removedEvents {seen : List Bool} {event : HistoryEvent} :
    event ∈ removedEvents snapshot seen ↔ ∃ i path m, snapshot.paths[i]? = some path ∧
      snapshot.metadata.getD i {} = m ∧ seen.getD i false = false ∧
        makeEvent .removed path m {} = event := by
  rw [removedEvents, List.mem_filterMap]
  refine exists_congr fun i => ?_
  rw [List.mem_range]
  constructor
  · rintro ⟨hi, hevent⟩
    split at hevent
    · cases hevent
    · rename_i hseen
      obtain rfl := Option.some.inj hevent
      have hget : snapshot.paths.getD i [] = snapshot.paths[i] := by
        rw [List.getD_eq_getElem?_getD, List.getElem?_eq_getElem hi, Option.getD_some]
      refine ⟨_, _, List.getElem?_eq_getElem hi, rfl, Bool.not_eq_true _ ▸ hseen, ?_⟩
      rw [hget]
  · rintro ⟨path, m, hpath, rfl, hseen, rfl⟩
    obtain ⟨hi, hget⟩ := List.getElem?_eq_some_iff.mp hpath
    refine ⟨hi, ?_⟩
    rw [hseen, if_neg Bool.false_ne_true, List.getD_eq_getElem?_getD, hpath, Option.getD_some]

theorem map_filterMap_sublist {α β γ : Type} {f : α → Option β} {g : β → γ} {k : α → γ}
    (hf : ∀ x y, f x = some y → g y = k x) (xs : List α) :
    ((xs.filterMap f).map g).Sublist (xs.map k) := by
  induction xs with
  | nil => exact .slnil
  | cons x xs ih =>
      rw [List.map_cons]
      cases hx : f x with
      | none =>
          rw [List.filterMap_cons_none hx]
          exact ih.cons _
      | some y =>
          rw [List.filterMap_cons_some hx, List.map_cons, hf x y hx]
          exact ih.cons_cons _

/-- Every path has one event at most. -/
theorem nodup_compare (h : snapshot.Sorted) {xs : List (Str × FileMetadata)}
    (hxs : (xs.map Prod.fst).Nodup) {seen : List Bool}
    (hseen : ∀ i path, snapshot.paths[i]? = some path → seen.getD i false = false →
      path ∉ xs.map Prod.fst) :
    ((xs.filterMap (entryEvent snapshot compareAtime) ++
      removedEvents snapshot seen).map HistoryEvent.path).Nodup := by
  have hentries : ((xs.filterMap (entryEvent snapshot compareAtime)).map
      HistoryEvent.path).Sublist (xs.map Prod.fst) :=
    map_filterMap_sublist (fun x event hevent => diffAt_path hevent) xs
  have hremoved : ((removedEvents snapshot seen).map HistoryEvent.path).Sublist
      ((List.range snapshot.paths.length).map fun i => snapshot.paths.getD i []) := by
    refine map_filterMap_sublist (fun i event hevent => ?_) _
    split at hevent
    · cases hevent
    · obtain rfl := Option.some.inj hevent
      rfl
  have hpaths : ((List.range snapshot.paths.length).map fun i => snapshot.paths.getD i []) =
      snapshot.paths := by
    refine List.ext_getElem (by simp) fun i hi hi' => ?_
    simp [List.getElem?_eq_getElem hi']
  rw [hpaths] at hremoved
  rw [List.map_append, List.nodup_append]
  refine ⟨hentries.nodup hxs, hremoved.nodup (h.paths.imp fun hlt => ne_of_lt hlt), ?_⟩
  rintro path hpath _ hpath' rfl
  obtain ⟨event, hevent, rfl⟩ := List.mem_map.mp hpath'
  obtain ⟨i, path, m, hget, -, hunseen, rfl⟩ := mem_removedEvents.mp hevent
  exact hseen i path hget hunseen (hentries.subset hpath)

theorem mem_compare_iff (h : snapshot.Sorted) {after : Snapshot}
    {xs : List (Str × FileMetadata)}
    (hfind : ∀ path m, after.find path = some m ↔ (path, m) ∈ xs) {seen : List Bool}
    (hseen : ∀ i path, snapshot.paths[i]? = some path →
      (seen.getD i false = true ↔ path ∈ xs.map Prod.fst)) {event : HistoryEvent} :
    event ∈ xs.filterMap (entryEvent snapshot compareAtime) ++ removedEvents snapshot seen ↔
      diffAt compareAtime event.path (snapshot.find event.path) (after.find event.path) =
        some event := by
  have hnone : ∀ {path}, path ∉ xs.map Prod.fst → after.find path = none := by
    intro path hpath
    rw [Option.eq_none_iff_forall_ne_some]
    intro m hm
    exact hpath (List.mem_map_of_mem (f := Prod.fst) ((hfind path m).mp hm))
  rw [List.mem_append, List.mem_filterMap, mem_removedEvents]
  constructor
  · rintro (⟨⟨path, m⟩, hx, hevent⟩ | ⟨i, path, m, hget, hm, hunseen, rfl⟩)
    · rw [diffAt_path hevent, (hfind path m).mpr hx]
      exact hevent
    · have hpath : path ∉ xs.map Prod.fst := by
        rw [← hseen i path hget, hunseen]
        exact Bool.false_ne_true
      change diffAt compareAtime path (snapshot.find path) (after.find path) = _
      rw [hnone hpath, (find_iff h).mpr ⟨i, hget, hm⟩]
      rfl
  · intro hevent
    cases hafter : after.find event.path with
    | some m =>
        rw [hafter] at hevent
        exact Or.inl ⟨(event.path, m), (hfind _ _).mp hafter, hevent⟩
    | none =>
        rw [hafter] at hevent
        cases hbefore : snapshot.find event.path with
        | none =>
            rw [hbefore] at hevent
            cases hevent
        | some m =>
            rw [hbefore] at hevent
            obtain ⟨i, hget, hm⟩ := (find_iff h).mp hbefore
            refine Or.inr ⟨i, event.path, m, hget, hm, ?_, Option.some.inj hevent⟩
            rw [← Bool.not_eq_true, hseen i _ hget, List.mem_map]
            rintro ⟨⟨path, m'⟩, hx, rfl⟩
            rw [(hfind _ _).mpr hx] at hafter
            cases hafter

/-- Looking every path up and sorting the events is merging the two snapshots. -/
theorem compare_eq_diffSnapshots (h : snapshot.Sorted) {after : Snapshot} (hafter : after.Sorted)
    {xs : List (Str × FileMetadata)} (hxs : (xs.map Prod.fst).Nodup)
    (hfind : ∀ path m, after.find path = some m ↔ (path, m) ∈ xs) {seen : List Bool}
    (hseen : ∀ i path, snapshot.paths[i]? = some path →
      (seen.getD i false = true ↔ path ∈ xs.map Prod.fst)) :
    (xs.filterMap (entryEvent snapshot compareAtime) ++
        removedEvents snapshot seen).mergeSort (fun a b => decide ¬b.path < a.path) =
      diffSnapshots compareAtime snapshot after := by
  set events := xs.filterMap (entryEvent snapshot compareAtime) ++ removedEvents snapshot seen
    with hevents
  have hnodup : (events.map HistoryEvent.path).Nodup := by
    refine nodup_compare h hxs fun i path hget hunseen => ?_
    rw [← hseen i path hget, hunseen]
    exact Bool.false_ne_true
  have hperm := List.mergeSort_perm events fun a b => decide ¬b.path < a.path
  have hsorted : (events.mergeSort fun a b => decide ¬b.path < a.path).Pairwise
      fun a b => a.path < b.path := by
    have hle : (events.mergeSort fun a b => decide ¬b.path < a.path).Pairwise
        fun a b => decide (¬b.path < a.path) = true := List.pairwise_mergeSort
      (fun a b c hab hbc => by
        rw [decide_eq_true_eq, not_lt] at hab hbc ⊢
        exact hab.trans hbc)
      (fun a b => by
        rw [Bool.or_eq_true, decide_eq_true_eq, decide_eq_true_eq, not_lt, not_lt]
        exact le_total _ _) events
    have hne := (hperm.map HistoryEvent.path).nodup_iff.mpr hnodup
    rw [List.Nodup, List.pairwise_map] at hne
    refine hle.imp₂ (fun a b hab hab' => ?_) hne
    exact lt_of_le_of_ne (not_lt.mp (of_decide_eq_true hab)) hab'
  have hdiff : (diffSnapshots compareAtime snapshot after).Pairwise fun a b => a.path < b.path :=
    pairwise_diffEntries h.increasing hafter.increasing
  have hnodup' : (diffSnapshots compareAtime snapshot after).Nodup := by
    apply List.Pairwise.imp _ hdiff
    intro a b hlt heq
    exact List.lt_irrefl _ (heq ▸ hlt)
  refine List.Perm.eq_of_pairwise (fun a b _ _ hab hba => ?_) hsorted hdiff (hperm.trans ?_)
  · exact absurd hab (List.lt_asymm hba)
  · rw [List.perm_ext_iff_of_nodup (List.Nodup.of_map _ hnodup) hnodup']
    intro event
    rw [mem_compare_iff h hfind hseen]
    exact (mem_diffEntries h.increasing hafter.increasing).symm

end Compare

end Flocate
