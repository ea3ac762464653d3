import Flocate.FullRunRecords
import Flocate.HistoryDifference
import Flocate.LiveDiff
import Flocate.ScanRoot

/-!
# Comparing with the live tree and rebuilding

The walk of `diff_with_live` reads the directories that a full run enters, each of them once. So it
finds what there is between the database and the one that `updatedb` would write.
-/

namespace Flocate

open Bytes

def Tree.lookup (t : Tree) : List Str → Option Node
  | [] => some t.node
  | name :: names => (t.content.find name).bind fun sub => sub.lookup names

/-- The same files, in whatever order `readdir` returns them. -/
def SameFiles (t t' : Tree) : Prop := ∀ names, t.lookup names = t'.lookup names

/-- `lstat` works and has no digest, and a directory can be read. -/
structure Node.Readable (dev : ℕ) (node : Node) : Prop where
  stat : node.statFails = false
  enabled : node.metadata.enabled = true
  hash : node.metadata.hash = {}
  dir : node.metadata.isDir = true → node.Accessible dev

structure Tree.Readable (dev : ℕ) (t : Tree) : Prop where
  wellFormed : t.content.WellFormed
  dir : t.isDir = true
  nodes : ∀ names node, t.lookup names = some node → node.Readable dev

section Readable

variable {conf : Conf} {dev : ℕ} {t t' sub sub' d : Tree} {path p name : Str}

theorem lookup_of_find (h : t.content.find name = some sub) (names : List Str) :
    t.lookup (name :: names) = sub.lookup names := by
  rw [Tree.lookup, h, Option.bind_some]

theorem SameFiles.node (h : SameFiles t t') : t.node = t'.node := Option.some.inj (h [])

theorem SameFiles.symm (h : SameFiles t t') : SameFiles t' t := fun names => (h names).symm

/-- What is in one of the trees is in the other one too. -/
theorem SameFiles.find (h : SameFiles t t') (hfind : t.content.find name = some sub) :
    ∃ sub', t'.content.find name = some sub' ∧ SameFiles sub sub' := by
  have hname := h [name]
  rw [lookup_of_find hfind] at hname
  cases hfind' : t'.content.find name with
  | none =>
      rw [Tree.lookup, Tree.lookup, hfind'] at hname
      cases hname
  | some sub' =>
      refine ⟨sub', rfl, fun names => ?_⟩
      rw [← lookup_of_find hfind, ← lookup_of_find hfind']
      exact h (name :: names)

/-- The order of the entries does not matter. -/
theorem sameFiles_of_perm (hnode : t.node = t'.node) (ht : t.content.WellFormed)
    (ht' : t'.content.WellFormed) (hperm : t.content.entries.Perm t'.content.entries) :
    SameFiles t t' := by
  have hfind (name : Str) : t.content.find name = t'.content.find name := by
    ext sub
    constructor
    · exact fun h => ht'.find_of_mem (hperm.subset (Dir.mem_of_find h))
    · exact fun h => ht.find_of_mem (hperm.symm.subset (Dir.mem_of_find h))
  intro names
  cases names with
  | nil => exact congrArg some hnode
  | cons name names => rw [Tree.lookup, Tree.lookup, hfind]

/-- What can be read is made of what can be read. -/
theorem readable_of_entries (ht : t.content.WellFormed) (hdir : t.isDir = true)
    (hnode : t.node.Readable dev) (hentries : ∀ e ∈ t.content.entries, ∀ names node,
      e.2.lookup names = some node → node.Readable dev) : t.Readable dev := by
  refine ⟨ht, hdir, fun names node h => ?_⟩
  cases names with
  | nil =>
      obtain rfl := Option.some.inj h
      exact hnode
  | cons name names =>
      obtain ⟨sub, hfind, h⟩ := Option.bind_eq_some_iff.mp h
      exact hentries (name, sub) (Dir.mem_of_find hfind) names node h

theorem SameFiles.isDir (h : SameFiles t t') : t.isDir = t'.isDir := by
  rw [Tree.isDir, Tree.isDir, h.node]

theorem SameFiles.readable (h : SameFiles t t') (ht : t.Readable dev)
    (hwf : t'.content.WellFormed) : t'.Readable dev := by
  refine ⟨hwf, h.isDir ▸ ht.dir, fun names node hnode => ?_⟩
  rw [← h names] at hnode
  exact ht.nodes names node hnode

/-- A walk enters the same directories. -/
theorem SameFiles.entered (h : SameFiles t t') (ht : t.content.WellFormed)
    (hentered : Entered conf path t p d) :
    ∃ d', Entered conf path t' p d' ∧ SameFiles d d' := by
  induction hentered generalizing t' with
  | here hpruned => exact ⟨t', .here hpruned, h⟩
  | inside hpruned hmem hdir hname _ ih =>
      obtain ⟨sub', hfind', hsame⟩ := h.find (ht.find_of_mem hmem)
      obtain ⟨d', hentered', hsame'⟩ := ih hsame (ht.content hmem)
      exact ⟨d', .inside hpruned (Dir.mem_of_find hfind') (hsame.isDir ▸ hdir) hname hentered',
        hsame'⟩

theorem Tree.Readable.entry (h : t.Readable dev) (hmem : (name, sub) ∈ t.content.entries) :
    sub.node.Readable dev ∧ (sub.isDir = true → sub.Readable dev) := by
  have hlookup := lookup_of_find (h.wellFormed.find_of_mem hmem)
  refine ⟨h.nodes [name] sub.node (hlookup []), fun hdir => ?_⟩
  refine ⟨h.wellFormed.content hmem, hdir, fun names node hnode => ?_⟩
  exact h.nodes (name :: names) node ((hlookup names).trans hnode)

theorem Tree.Readable.entered (h : t.Readable dev) (hentered : Entered conf path t p d) :
    d.Readable dev := by
  induction hentered with
  | here _ => exact h
  | inside _ hmem hdir _ _ ih => exact ih ((h.entry hmem).2 hdir)

theorem Tree.Readable.node (h : t.Readable dev) : t.node.Accessible dev :=
  (h.nodes [] t.node rfl).dir h.dir

theorem Dir.accessible_of_entries {dir : Dir} (h : ∀ e ∈ dir.entries, e.2.isDir = true →
    e.2.node.Accessible dev ∧ e.2.content.Accessible dev) : dir.Accessible dev := by
  induction dir with
  | nil => trivial
  | cons name node content rest _ ih =>
      rw [Dir.entries, List.forall_mem_cons] at h
      exact ⟨h.1, ih h.2⟩

theorem Tree.Readable.accessible (h : t.Readable dev) : t.content.Accessible dev := by
  obtain ⟨node, dir⟩ := t
  induction dir using Dir.treeInduction generalizing node with
  | h dir ih =>
      refine Dir.accessible_of_entries fun e he hdir => ?_
      have hmem : (e.1, e.2) ∈ dir.entries := he
      have hsub := (h.entry hmem).2 hdir
      exact ⟨hsub.node, ih e he e.2.node hsub⟩

theorem Tree.Readable.undisturbed {env : ScanEnv} (h : t.Readable t.node.dev)
    (hhash : env.conf.metadataHashKind = .none) (hmounts : ∀ path, env.isBindMount path = false) :
    Undisturbed env t :=
  ⟨hhash, hmounts, h.wellFormed, h.node, h.accessible⟩

end Readable

section Walk

variable {env : LiveEnv} {snapshot : Snapshot} {conf : Conf} {dir sub x : WalkDir × Tree}
  {w : WalkDir} {name path : Str} {t d : Tree} {dev : ℕ}

theorem liveWalk_eq (stack : List (WalkDir × Tree)) (s : LiveState) :
    liveWalk env snapshot stack s =
      (StackWalk.visits (shrinks_pushedDirs env snapshot) stack).foldl
        (compareDir env snapshot) s := by
  induction stack, s using liveWalk.induct env snapshot with
  | case1 s => rw [liveWalk, StackWalk.visits, List.foldl_nil]
  | case2 s dir stack ih => rw [liveWalk, StackWalk.visits, List.foldl_cons, ih]

def comparedPaths (dir : WalkDir × Tree) : List (Str × FileMetadata) :=
  (liveEntries dir).filterMap fun entry =>
    if entry.1 = [] || entry.2.node.statFails then none
    else some (joinPath dir.1.db entry.1, entry.2.node.metadata)

theorem compareEntry_eq (hhash : snapshot.hashKind = .none) (s : LiveState)
    (entry : Str × Tree) : compareEntry env snapshot w s entry =
      if entry.1 = [] || entry.2.node.statFails then s
      else comparePath snapshot env.compareAtime s
        (joinPath w.db entry.1, entry.2.node.metadata) := by
  have hwant (path : Str) (metadata : FileMetadata) :
      wantHash env snapshot w path metadata = false := by
    rw [wantHash, hhash]
    rfl
  have hlive (name : Str) (t : Tree) :
      liveMetadata env snapshot w name t = t.node.metadata := by
    rw [liveMetadata, hwant, if_neg Bool.false_ne_true]
  rw [compareEntry]
  dsimp only
  rw [hlive]
  rfl

theorem compareDir_eq (hhash : snapshot.hashKind = .none) (s : LiveState) :
    compareDir env snapshot s dir =
      (comparedPaths dir).foldl (comparePath snapshot env.compareAtime) s := by
  have hopened : dir.1.opened env snapshot = dir.1 := by
    rw [WalkDir.opened, hhash, if_neg]
    simp
  rw [compareDir, comparedPaths, hopened]
  induction liveEntries dir generalizing s with
  | nil => rfl
  | cons entry entries ih =>
      rw [List.foldl_cons, compareEntry_eq hhash, ih, List.filterMap_cons]
      split <;> rfl

theorem foldl_compareDir (hhash : snapshot.hashKind = .none) (dirs : List (WalkDir × Tree))
    (s : LiveState) : dirs.foldl (compareDir env snapshot) s =
      (dirs.flatMap comparedPaths).foldl (comparePath snapshot env.compareAtime) s := by
  induction dirs generalizing s with
  | nil => rfl
  | cons dir dirs ih =>
      rw [List.foldl_cons, List.flatMap_cons, List.foldl_append, ih, compareDir_eq hhash]

def IsDirPath (path : Str) : Prop := path ≠ [] ∧ (path.getLast? = some 47 → path = [47])

theorem joinPath_eq (h : IsDirPath path) (name : Str) :
    joinPath path name = withSlash path ++ name := by
  rw [joinPath, withSlash]
  by_cases hlast : path.getLast? = some 47
  · rw [if_pos (h.2 hlast), if_pos hlast]
  · have hne : path ≠ [47] := by
      rintro rfl
      exact hlast rfl
    rw [if_neg hne, if_neg hlast, List.append_assoc]
    rfl

theorem isDirPath_entry (path : Str) (hname : name ≠ [] ∧ 47 ∉ name) :
    IsDirPath (withSlash path ++ name) := by
  refine ⟨List.append_ne_nil_of_right_ne_nil _ hname.1, fun hlast => ?_⟩
  rw [List.getLast?_append_of_ne_nil _ hname.1] at hlast
  exact absurd (List.mem_of_getLast? hlast) hname.2

/-- Which directories are pushed. -/
theorem descend_spec (h : descend env w (name, t) = some sub) :
    sub.2 = t ∧ sub.1.db = joinPath w.db name ∧ sub.1.dev = t.node.dev ∧ t.isDir = true ∧
      name ∉ env.prune.prunenames ∧ joinPath w.db name ∉ env.prune.prunepaths := by
  unfold descend at h
  dsimp only at h
  split at h
  · cases h
  · rename_i hdir
    split at h
    · cases h
    · rename_i hpruned
      split at h
      · cases h
      · obtain rfl := Option.some.inj h
        simp only [Bool.or_eq_true, Bool.not_eq_true', not_or, Bool.not_eq_false,
          List.contains_iff_mem] at hdir hpruned
        exact ⟨rfl, rfl, rfl, hdir.2, hpruned.1, hpruned.2⟩

/-- On one file system every directory is pushed that is not pruned. -/
theorem exists_descend (env : LiveEnv) (hname : name ≠ []) (hstat : t.node.statFails = false)
    (hdir : t.isDir = true) (hdev : t.node.dev = w.dev) (hprune : name ∉ env.prune.prunenames)
    (hpath : joinPath w.db name ∉ env.prune.prunepaths) :
    ∃ sub, descend env w (name, t) = some sub := by
  unfold descend
  dsimp only
  rw [if_neg (by simp [hname, hstat, hdir]), if_neg (by simp [hprune, hpath]), if_neg]
  · exact ⟨_, rfl⟩
  · simp [hdev]

theorem opened_db : (w.opened env snapshot).db = w.db := by
  unfold WalkDir.opened
  split <;> rfl

theorem liveEntries_sublist (dir : WalkDir × Tree) :
    (liveEntries dir).Sublist dir.2.content.entries := by
  unfold liveEntries
  split
  · exact List.nil_sublist _
  · exact List.Sublist.refl _

/-- Its path is one that the walk forms, and no name in it occurs twice. -/
def GoodDir (dir : WalkDir × Tree) : Prop := dir.2.content.WellFormed ∧ IsDirPath dir.1.db

def slashedPath (dir : WalkDir × Tree) : Str := withSlash dir.1.db

/-- A directory that is pushed is an entry of the directory that is read. -/
theorem GoodDir.entry (h : GoodDir dir) (hsub : sub ∈ pushedDirs env snapshot dir) :
    ∃ name, (name, sub.2) ∈ dir.2.content.entries ∧ (name ≠ [] ∧ 47 ∉ name) ∧
      sub.1.db = withSlash dir.1.db ++ name ∧ sub.2.isDir = true ∧
        name ∉ env.prune.prunenames ∧ sub.1.db ∉ env.prune.prunepaths := by
  obtain ⟨⟨name, t⟩, hmem, hdescend⟩ := List.mem_filterMap.mp hsub
  obtain ⟨rfl, hdb, -, hdir, hprune, hpath⟩ := descend_spec hdescend
  rw [opened_db] at hdb hpath
  have hmem' := (liveEntries_sublist dir).subset hmem
  exact ⟨name, hmem', h.1.named hmem', hdb.trans (joinPath_eq h.2 name), hdir, hprune,
    hdb ▸ hpath⟩

theorem disjoint_of_entries {base a b : Str} (ha : a ≠ [] ∧ 47 ∉ a) (hb : b ≠ [] ∧ 47 ∉ b)
    (hne : a ≠ b) (k : Str) (hka : withSlash (withSlash base ++ a) <+: k) :
    ¬withSlash (withSlash base ++ b) <+: k :=
  fun hkb => hne (entry_eq_of_isPrefix hka hkb ha hb)

theorem separates_pushedDirs (env : LiveEnv) (snapshot : Snapshot) :
    StackWalk.Separates (pushedDirs env snapshot) GoodDir slashedPath
      fun dir key => slashedPath dir <+: key where
  step dir sub h hsub := by
    obtain ⟨name, hmem, hname, hdb, -⟩ := h.entry hsub
    exact ⟨h.1.content hmem, hdb ▸ isDirPath_entry dir.1.db hname⟩
  self dir := List.prefix_refl _
  child dir sub key h hsub hinside := by
    obtain ⟨name, -, -, hdb, -⟩ := h.entry hsub
    rw [slashedPath, hdb] at hinside
    exact (withSlash_isPrefix dir.1.db name).trans hinside
  proper dir sub h hsub hinside := by
    obtain ⟨name, -, hname, hdb, -⟩ := h.entry hsub
    rw [slashedPath, hdb] at hinside
    exact ne_of_prefix_entry hinside hname rfl
  disjoint dir h := by
    have hnames : dir.2.content.entries.Pairwise fun a b => a.1 ≠ b.1 := by
      have hnodup := h.1.nodup
      rwa [← Dir.map_fst_entries, List.Nodup, List.pairwise_map] at hnodup
    have hsublist := liveEntries_sublist dir
    rw [pushedDirs, List.pairwise_filterMap]
    refine (hnames.sublist hsublist).imp_of_mem fun {a b} ha hb hne c hc c' hc' => ?_
    obtain ⟨-, hdb, -⟩ := descend_spec hc
    obtain ⟨-, hdb', -⟩ := descend_spec hc'
    rw [opened_db, joinPath_eq h.2] at hdb hdb'
    rw [slashedPath, slashedPath, hdb, hdb']
    exact disjoint_of_entries (h.1.named (hsublist.subset ha)) (h.1.named (hsublist.subset hb)) hne

def walkedPaths (env : LiveEnv) (snapshot : Snapshot) (dir : WalkDir × Tree) :
    List (Str × FileMetadata) :=
  (StackWalk.visits (shrinks_pushedDirs env snapshot) [dir]).flatMap comparedPaths

theorem mem_comparedPaths {m : FileMetadata} : (path, m) ∈ comparedPaths dir ↔
    ∃ name t, (name, t) ∈ liveEntries dir ∧ name ≠ [] ∧ t.node.statFails = false ∧
      joinPath dir.1.db name = path ∧ t.node.metadata = m := by
  rw [comparedPaths, List.mem_filterMap]
  constructor
  · rintro ⟨⟨name, t⟩, hmem, heq⟩
    dsimp only at heq
    split at heq
    · cases heq
    · rename_i hstat
      obtain ⟨rfl, rfl⟩ := Prod.mk.inj (Option.some.inj heq)
      rw [Bool.or_eq_true, not_or, decide_eq_true_eq, Bool.not_eq_true] at hstat
      exact ⟨name, t, hmem, hstat.1, hstat.2, rfl, rfl⟩
  · rintro ⟨name, t, hmem, hname, hstat, rfl, rfl⟩
    refine ⟨(name, t), hmem, if_neg ?_⟩
    rw [Bool.or_eq_true, not_or, decide_eq_true_eq, Bool.not_eq_true]
    exact ⟨hname, hstat⟩

theorem entered_of_leads (hnames : env.prune.prunenames = conf.prunenames)
    (hpaths : ∀ q, q ∈ env.prune.prunepaths ↔ q ∈ conf.prunepaths) (hgood : GoodDir dir)
    (hroot : dir.1.db ∉ conf.prunepaths)
    (h : StackWalk.Leads (pushedDirs env snapshot) dir x) :
    Entered conf dir.1.db dir.2 x.1.db x.2 := by
  induction h using Relation.ReflTransGen.head_induction_on with
  | refl => exact .here hroot
  | head hsub _ ih =>
      obtain ⟨name, hmem, -, hdb, hdir, hname, hpath⟩ := hgood.entry hsub
      have hentered := ih ((separates_pushedDirs env snapshot).step _ _ hgood hsub)
        (hpath ∘ (hpaths _).mpr)
      exact .inside hroot hmem hdir (hnames ▸ hname) (hdb ▸ hentered)

theorem Entered.root (h : Entered conf path t p d) : path ∉ conf.prunepaths := by
  cases h with
  | here hroot => exact hroot
  | inside hroot => exact hroot

theorem liveEntries_readable (dir : WalkDir × Tree) (h : dir.2.Readable dev) :
    liveEntries dir = dir.2.content.entries := by
  rw [liveEntries, Tree.closed, h.node.opened, h.node.listed]
  rfl

/-- What a run enters can be reached by pushing directories. -/
theorem exists_leads (snapshot : Snapshot) (hnames : env.prune.prunenames = conf.prunenames)
    (hpaths : ∀ q, q ∈ env.prune.prunepaths ↔ q ∈ conf.prunepaths) (h : Entered conf path t p d) :
    t.Readable dev → ∀ w : WalkDir, w.db = path → IsDirPath path → w.dev = dev →
      ∃ x, StackWalk.Leads (pushedDirs env snapshot) (w, t) x ∧ x.1.db = p ∧ x.2 = d := by
  induction h with
  | here _ =>
      rintro - w rfl - -
      exact ⟨(w, _), .refl, rfl, rfl⟩
  | @inside path name p t sub d _ hmem hdir hname hentered ih =>
      rintro ht w rfl hpath rfl
      have hopened : (w.opened env snapshot).dev = w.dev := by
        unfold WalkDir.opened
        split <;> rfl
      have hnamed := ht.wellFormed.named hmem
      have hsub := (ht.entry hmem).2 hdir
      have hjoin : joinPath (w.opened env snapshot).db name = withSlash w.db ++ name := by
        rw [opened_db, joinPath_eq hpath]
      obtain ⟨next, hnext⟩ := exists_descend env hnamed.1 hsub.node.stat hdir
        (hsub.node.dev.trans hopened.symm) (hnames ▸ hname)
        (by rw [hpaths, hjoin]; exact hentered.root)
      obtain ⟨rfl, hdb, hdev, -⟩ := descend_spec hnext
      obtain ⟨x, hleads, hxdb, hxtree⟩ := ih hsub next.1 (hdb.trans hjoin)
        (isDirPath_entry w.db hnamed) (hdev.trans hsub.node.dev)
      refine ⟨x, .head ?_ hleads, hxdb, hxtree⟩
      refine List.mem_filterMap.mpr ⟨(name, next.2), ?_, hnext⟩
      rwa [liveEntries_readable (w, t) ht]

/-- The walk compares the entries of the directories that a run enters. -/
theorem mem_walkedPaths (hnames : env.prune.prunenames = conf.prunenames)
    (hpaths : ∀ q, q ∈ env.prune.prunepaths ↔ q ∈ conf.prunepaths)
    (hroot : dir.1.db ∉ conf.prunepaths)
    (hpath : IsDirPath dir.1.db) (ht : dir.2.Readable dir.1.dev) {m : FileMetadata} :
    (path, m) ∈ walkedPaths env snapshot dir ↔ ∃ p d name sub,
      Entered conf dir.1.db dir.2 p d ∧ (name, sub) ∈ d.content.entries ∧
        withSlash p ++ name = path ∧ sub.node.metadata = m := by
  have hgood : GoodDir dir := ⟨ht.wellFormed, hpath⟩
  have hvisited {x : WalkDir × Tree} (h : StackWalk.Leads (pushedDirs env snapshot) dir x) :
      IsDirPath x.1.db ∧ liveEntries x = x.2.content.entries := by
    have hentered := entered_of_leads hnames hpaths hgood hroot h
    exact ⟨((separates_pushedDirs env snapshot).leads hgood h).1.2,
      liveEntries_readable x (ht.entered hentered)⟩
  rw [walkedPaths, List.mem_flatMap]
  simp only [StackWalk.mem_visits, List.mem_singleton, exists_eq_left, mem_comparedPaths]
  constructor
  · rintro ⟨x, hleads, name, t, hmem, -, -, hjoin, hm⟩
    obtain ⟨hdb, hentries⟩ := hvisited hleads
    rw [hentries] at hmem
    rw [joinPath_eq hdb] at hjoin
    exact ⟨_, _, name, t, entered_of_leads hnames hpaths hgood hroot hleads, hmem, hjoin, hm⟩
  · rintro ⟨p, d, name, t, hentered, hmem, hjoin, hm⟩
    have hd := ht.entered hentered
    obtain ⟨x, hleads, rfl, rfl⟩ := exists_leads snapshot hnames hpaths hentered ht
      dir.1 rfl hpath rfl
    obtain ⟨hdb, hentries⟩ := hvisited hleads
    rw [← joinPath_eq hdb] at hjoin
    rw [← hentries] at hmem
    exact ⟨x, hleads, name, t, hmem, (hd.wellFormed.named ((liveEntries_sublist x).subset hmem)).1,
      (hd.entry ((liveEntries_sublist x).subset hmem)).1.stat, hjoin, hm⟩

theorem nodup_comparedPaths (h : GoodDir dir) : ((comparedPaths dir).map Prod.fst).Nodup := by
  have hpaths : ((comparedPaths dir).map Prod.fst).Sublist
      ((liveEntries dir).map fun e => joinPath dir.1.db e.1) := by
    refine map_filterMap_sublist (fun e y hy => ?_) _
    split at hy
    · cases hy
    · obtain rfl := Option.some.inj hy
      rfl
  have hall : (dir.2.content.entries.map fun e => joinPath dir.1.db e.1) =
      dir.2.content.names.map (joinPath dir.1.db) := by
    rw [← Dir.map_fst_entries, List.map_map]
    rfl
  refine (hpaths.trans ((liveEntries_sublist dir).map _)).nodup ?_
  rw [hall]
  refine h.1.nodup.map fun a b hab => ?_
  rw [joinPath_eq h.2, joinPath_eq h.2] at hab
  exact List.append_cancel_left hab

/-- No path is compared twice. -/
theorem nodup_walkedPaths (h : GoodDir dir) :
    ((walkedPaths env snapshot dir).map Prod.fst).Nodup := by
  have hseparates := separates_pushedDirs env snapshot
  have hvisits := StackWalk.nodup_visits hseparates (shrinks_pushedDirs env snapshot)
    (List.forall_mem_singleton.mpr h) (List.pairwise_singleton _ _)
  have hgood : ∀ x ∈ StackWalk.visits (shrinks_pushedDirs env snapshot) [dir], GoodDir x := by
    intro x hx
    obtain ⟨a, ha, hleads⟩ := StackWalk.mem_visits.mp hx
    rw [List.mem_singleton.mp ha] at hleads
    exact (hseparates.leads h hleads).1
  rw [walkedPaths, List.map_flatMap, List.nodup_flatMap]
  refine ⟨fun x hx => nodup_comparedPaths (hgood x hx), ?_⟩
  rw [List.Nodup, List.pairwise_map] at hvisits
  refine hvisits.imp_of_mem fun {a b} ha hb hne => ?_
  have hslash {x : WalkDir × Tree} (hx : GoodDir x) {p : Str}
      (hp : p ∈ (comparedPaths x).map Prod.fst) :
      ∃ name, 47 ∉ name ∧ p = slashedPath x ++ name := by
    obtain ⟨⟨p, m⟩, hp', rfl⟩ := List.mem_map.mp hp
    obtain ⟨name, t, hmem, -, -, rfl, -⟩ := mem_comparedPaths.mp hp'
    exact ⟨name, (hx.1.named ((liveEntries_sublist x).subset hmem)).2, joinPath_eq hx.2 name⟩
  intro p hpa hpb
  obtain ⟨name, hname, hpa⟩ := hslash (hgood a ha) hpa
  obtain ⟨name', hname', hpb⟩ := hslash (hgood b hb) hpb
  exact hne (split_unique (hpa.symm.trans hpb) (getLast?_withSlash _)
    (getLast?_withSlash _) hname hname').1

end Walk

/-- A database, the tree that there is, and the database that `updatedb` would write for it. The
walk of the comparison may get the entries of a directory in another order. -/
structure LiveComparison (env : ScanEnv) (live : LiveEnv) (root : Str) (old new : Snapshot)
    (t t' : Tree) : Prop where
  conf : PrunepathsPrepared env.conf
  hash : env.conf.metadataHashKind = .none
  mounts : ∀ path, env.isBindMount path = false
  prunenames : live.prune.prunenames = env.conf.prunenames
  prunepaths : ∀ q, q ∈ live.prune.prunepaths ↔ q ∈ env.conf.prunepaths
  isRoot : IsScanRoot root
  unpruned : root ∉ env.conf.prunepaths
  readable : t.Readable t.node.dev
  same : SameFiles t t'
  wellFormed : t'.content.WellFormed
  sorted : old.Sorted
  noDigests : old.hashKind = .none
  rootOfOld : old.scanRoot = root
  stored : new.Holds ((scanRoot env root t.node t.content {}).corpus.map
    fun r => (r.path, r.metadata.canonical))

section Agreement

variable {env : ScanEnv} {live : LiveEnv} {root path : Str} {old new : Snapshot} {t t' : Tree}
  {m : FileMetadata}

theorem IsScanRoot.isDirPath (h : IsScanRoot root) : IsDirPath root := by
  refine ⟨?_, h.2⟩
  rintro rfl
  cases h.1

theorem Node.Readable.canonical {node : Node} {dev : ℕ} (h : node.Readable dev) :
    node.metadata.canonical = node.metadata := by
  rw [canonical_eq_iff h.enabled, h.hash]
  unfold MetadataHash.Fits
  decide

/-- What `updatedb` would store for the tree. -/
theorem LiveComparison.find_new (h : LiveComparison env live root old new t t') :
    new.find path = some m ↔ ∃ p d name sub, Entered env.conf root t p d ∧
      (name, sub) ∈ d.content.entries ∧ withSlash p ++ name = path ∧ sub.node.metadata = m := by
  have hundisturbed := h.readable.undisturbed h.hash h.mounts
  have hstored {p name : Str} {d sub : Tree} (hentered : Entered env.conf root t p d)
      (hmem : (name, sub) ∈ d.content.entries) :
      (storedRecord env p name sub).metadata.canonical = sub.node.metadata := by
    obtain ⟨hsub, -⟩ := (h.readable.entered hentered).entry hmem
    rw [storedRecord, storedMetadata, hsub.stat, if_neg Bool.false_ne_true, hsub.canonical]
  rw [h.stored.find_iff, List.mem_map, corpus_empty h.conf.sorted hundisturbed]
  simp only [mem_records_nil hundisturbed, Prod.mk.injEq]
  constructor
  · rintro ⟨r, ⟨p, d, name, sub, hentered, hmem, rfl⟩, rfl, rfl⟩
    exact ⟨p, d, name, sub, hentered, hmem, rfl, (hstored hentered hmem).symm⟩
  · rintro ⟨p, d, name, sub, hentered, hmem, rfl, rfl⟩
    exact ⟨_, ⟨p, d, name, sub, hentered, hmem, rfl⟩, rfl, hstored hentered hmem⟩

theorem SameFiles.entries (h : SameFiles t t') (ht : t.content.WellFormed) {conf : Conf} :
    (∃ p d name sub, Entered conf root t p d ∧ (name, sub) ∈ d.content.entries ∧
      withSlash p ++ name = path ∧ sub.node.metadata = m) →
    ∃ p d name sub, Entered conf root t' p d ∧ (name, sub) ∈ d.content.entries ∧
      withSlash p ++ name = path ∧ sub.node.metadata = m := by
  rintro ⟨p, d, name, sub, hentered, hmem, hpath, hm⟩
  obtain ⟨d', hentered', hsame⟩ := h.entered ht hentered
  obtain ⟨sub', hfind', hsame'⟩ := hsame.find ((hentered.wellFormed ht).find_of_mem hmem)
  exact ⟨p, d', name, sub', hentered', Dir.mem_of_find hfind', hpath, hsame'.node ▸ hm⟩

/-- Comparing a database with the live tree gives the difference to the database that `updatedb`
would write. -/
theorem diffWithLive_eq (h : LiveComparison env live root old new t t') (rootArgument : Str) :
    diffWithLive live old rootArgument t' = some (diffSnapshots live.compareAtime old new) := by
  have ht' := h.same.readable h.readable h.wellFormed
  have hnew : new.Sorted := ⟨h.stored.2.1, h.stored.1⟩
  have hdir : ¬(t'.node.statFails || !t'.isDir) = true := by
    rw [ht'.node.stat, ht'.dir]
    decide
  rw [diffWithLive, if_neg hdir]
  dsimp only
  generalize htop : (WalkDir.mk _ _ _ _ _, t') = top
  have hdb : top.1.db = root := htop ▸ h.rootOfOld
  have htree : top.2 = t' := htop ▸ rfl
  have hdev : top.1.dev = t.node.dev := htop ▸ congrArg Node.dev h.same.node.symm
  have hpath : IsDirPath top.1.db := hdb.symm ▸ h.isRoot.isDirPath
  have htopReadable : top.2.Readable top.1.dev := by rw [htree, hdev]; exact ht'
  rw [liveWalk_eq, foldl_compareDir h.noDigests, events_foldl h.sorted, List.nil_append]
  refine congrArg some (compare_eq_diffSnapshots h.sorted hnew
    (nodup_walkedPaths ⟨htopReadable.wellFormed, hpath⟩) (fun path m => ?_) fun i path hget => ?_)
  · rw [h.find_new]
    rw [mem_walkedPaths h.prunenames h.prunepaths (hdb.symm ▸ h.unpruned) hpath htopReadable, hdb,
      htree]
    exact ⟨h.same.entries h.readable.wellFormed, h.same.symm.entries h.wellFormed⟩
  · have hi : i < (List.replicate old.paths.length false).length := by
      rw [List.length_replicate]
      exact (List.getElem?_eq_some_iff.mp hget).1
    have hunseen : (List.replicate old.paths.length false).getD i false = false := by
      rw [List.getD_eq_getElem?_getD, List.getElem?_eq_getElem hi, List.getElem_replicate]
      rfl
    rw [seen_foldl h.sorted _ hi, hunseen, List.mem_map, hget]
    simp only [Bool.false_eq_true, false_or, Option.some.injEq, eq_comm]
    rfl

end Agreement

end Flocate
