import Flocate.DirectoryTree

/-!
# The listing of a directory

What a run stores of the entries of a directory depends on their names and kinds and on what there
is at their paths, and not on what the old database says about them.
-/

namespace Flocate

open Bytes

/-- A directory on this device that a run can open, list and `stat`, with times from 1970 on. -/
structure Node.Accessible (dev : ℕ) (node : Node) : Prop where
  stat : node.statFails = false
  opened : node.openFails = false
  listed : node.listFails = false
  dev : node.dev = dev
  mtime : 0 ≤ node.metadata.mtime.sec
  ctime : 0 ≤ node.metadata.ctime.sec

def Dir.Accessible (dev : ℕ) : Dir → Prop
  | nil => True
  | cons _ node content rest =>
      (node.metadata.isDir = true → node.Accessible dev ∧ content.Accessible dev) ∧
        rest.Accessible dev

def bareEntry (kind : Str × Bool) : Entry where
  name := kind.1
  isDirectory := kind.2

def Entry.kind (e : Entry) : Str × Bool := (e.name, e.isDirectory)

/-- An entry without what the old database says about it. -/
def Entry.forget (e : Entry) : Entry :=
  { e with
    dbModified := unknownDirTime
    previousMetadata := {}
    existedBefore := false
    matchedInNewScan := false }

def ScanArgs.forget (args : ScanArgs) : ScanArgs := { args with dbModified := unknownDirTime }

def Dir.listed (dir : Dir) : List Entry := sortEntries (dir.kinds.map bareEntry)

section Entries

variable {env : ScanEnv} {args : ScanArgs} {listing : List Found} {e : Entry} {dev : ℕ} {dir : Dir}

theorem Dir.Accessible.entry (h : dir.Accessible dev) {name : Str} {t : Tree}
    (ht : (name, t) ∈ dir.entries) (hdir : t.isDir = true) :
    t.node.Accessible dev ∧ t.content.Accessible dev := by
  induction dir with
  | nil => cases ht
  | cons n node content rest _ ih =>
      rcases List.mem_cons.mp ht with heq | ht
      · obtain rfl := (Prod.mk.inj heq).2
        exact h.1 hdir
      · exact ih h.2 ht

theorem Entered.accessible {conf : Conf} {path p : Str} {t d : Tree} (h : Entered conf path t p d)
    (ht : t.content.Accessible dev) : d.content.Accessible dev := by
  induction h with
  | here _ => exact ht
  | inside _ hmem hkind _ _ ih => exact ih (ht.entry hmem hkind).2

/-- `readdir` tells the kinds. -/
theorem map_entry_found (h : dir.Accessible dev) :
    (dir.found env).map Found.entry = dir.kinds.map bareEntry := by
  induction dir with
  | nil => rfl
  | cons name node content rest _ ih =>
      have hkind : (if node.typeUnknown then !node.statFails && node.metadata.isDir
          else node.metadata.isDir) = node.metadata.isDir := by
        split
        · cases hdir : node.metadata.isDir with
          | false => exact Bool.and_false _
          | true => rw [(h.1 hdir).1.stat, Bool.not_false, Bool.true_and]
        · rfl
      rw [Dir.found, List.map_cons, ih h.2, Found.entry, hkind]
      rfl

theorem forget_statEntry (hhash : env.conf.metadataHashKind = .none) :
    (statEntry env args listing e).forget = statEntry env args.forget listing e.forget := by
  have hfile (path : Str) (allowed : Bool) (prev metadata : FileMetadata) :
      fileHash env path allowed prev metadata = metadata.hash := by
    rw [fileHash, if_neg fun h => h.1 hhash]
  have hlookup : lookup listing e.forget.name = lookup listing e.name := rfl
  rw [statEntry, statEntry, hlookup]
  cases lookup listing e.name with
  | none => rfl
  | some f =>
      dsimp only
      rw [apply_ite Entry.forget]
      simp only [hfile]
      rfl

theorem forget_openEntry :
    (openEntry env args listing e).forget = openEntry env args.forget listing e.forget := by
  have hlookup : lookup listing e.forget.name = lookup listing e.name := rfl
  rw [openEntry, openEntry, hlookup]
  cases lookup listing e.name with
  | none =>
      rw [apply_ite Entry.forget, apply_ite Entry.forget]
      rfl
  | some f =>
      dsimp only
      rw [apply_ite Entry.forget, apply_ite Entry.forget, apply_ite Entry.forget,
        apply_ite Entry.forget]
      rfl

theorem map_forget_preparedEntries (hhash : env.conf.metadataHashKind = .none)
    (args : ScanArgs) (listing : List Found) (entries : List Entry) :
    (preparedEntries env args listing entries).map Entry.forget =
      preparedEntries env args.forget listing (entries.map Entry.forget) := by
  rw [preparedEntries, preparedEntries, List.map_map, List.map_map]
  refine List.map_congr_left fun e _ => ?_
  rw [Function.comp_apply, Function.comp_apply, forget_openEntry, forget_statEntry hhash]

/-- The entries of an old database do not say more than the names and the kinds. -/
theorem map_forget_entriesOf (old : List FileRecord) (path : Str) :
    (entriesOf old path).map Entry.forget =
      ((entriesOf old path).map Entry.kind).map bareEntry := by
  rw [entriesOf, List.map_map, List.map_map, List.map_map]
  rfl

theorem map_forget_mergeOld (entries olds : List Entry) :
    (mergeOld entries olds).1.map Entry.forget = entries.map Entry.forget := by
  induction entries, olds using mergeOld.induct with
  | case1 olds => rw [mergeOld]
  | case2 entries h =>
      cases entries with
      | nil => exact absurd rfl h
      | cons e entries => rw [mergeOld]; exact h
  | case3 e entries old olds hlt entries' olds' _ ih =>
      rw [mergeOld, if_pos hlt]
      exact congrArg (e.forget :: ·) ih
  | case4 e entries old olds hlt heq entries' olds' _ ih =>
      rw [mergeOld, if_neg hlt, if_pos heq]
      exact congrArg (e.forget :: ·) ih
  | case5 e entries old olds hlt hne entries' olds' _ ih =>
      rw [mergeOld, if_neg hlt, if_neg hne]
      exact ih

/-- A time that an entry has from the old database is the one of the entry with its name. -/
theorem dbModified_mergeOld {entries olds : List Entry} {e : Entry}
    (he : e ∈ (mergeOld entries olds).1) :
    (∃ e' ∈ entries, e'.dbModified = e.dbModified) ∨
      ∃ o ∈ olds, o.name = e.name ∧ o.dbModified = e.dbModified := by
  induction entries, olds using mergeOld.induct with
  | case1 olds =>
      rw [mergeOld] at he
      cases he
  | case2 entries h =>
      cases entries with
      | nil => exact absurd rfl h
      | cons e' entries =>
          rw [mergeOld] at he
          · exact Or.inl ⟨e, he, rfl⟩
          · exact h
  | case3 e' entries old olds hlt entries' olds' heq ih =>
      rw [mergeOld, if_pos hlt] at he
      rcases List.mem_cons.mp he with rfl | he
      · exact Or.inl ⟨e, List.mem_cons_self, rfl⟩
      · rcases ih he with ⟨e'', he'', heq⟩ | hold
        · exact Or.inl ⟨e'', List.mem_cons_of_mem _ he'', heq⟩
        · exact Or.inr hold
  | case4 e' entries old olds hlt heq entries' olds' hrest ih =>
      rw [mergeOld, if_neg hlt, if_pos heq] at he
      rcases List.mem_cons.mp he with rfl | he
      · exact Or.inr ⟨old, List.mem_cons_self, heq.symm, rfl⟩
      · rcases ih he with ⟨e'', he'', heq⟩ | ⟨o, ho, hname, heq⟩
        · exact Or.inl ⟨e'', List.mem_cons_of_mem _ he'', heq⟩
        · rcases List.mem_cons.mp ho with rfl | ho
          · exact Or.inr ⟨old, List.mem_cons_self, hname, heq⟩
          · exact Or.inr ⟨o, List.mem_cons_of_mem _ ho, hname, heq⟩
  | case5 e' entries old olds hlt hne entries' olds' hrest ih =>
      rw [mergeOld, if_neg hlt, if_neg hne] at he
      rcases ih he with hentry | ⟨o, ho, hname, heq⟩
      · exact Or.inl hentry
      · exact Or.inr ⟨o, List.mem_cons_of_mem _ ho, hname, heq⟩

theorem openEntry_dbModified : (openEntry env args listing e).dbModified = e.dbModified := by
  unfold openEntry
  split
  · rfl
  · split
    · rfl
    · split
      · rfl
      · dsimp only
        split
        · rfl
        · split <;> rfl

theorem openEntry_metadata : (openEntry env args listing e).metadata = e.metadata := by
  unfold openEntry
  split
  · rfl
  · split
    · rfl
    · split
      · rfl
      · dsimp only
        split
        · rfl
        · split <;> rfl

theorem statEntry_frame (env : ScanEnv) (args : ScanArgs) (listing : List Found) (e : Entry) :
    (statEntry env args listing e).dbModified = e.dbModified ∧
      (statEntry env args listing e).opened = e.opened ∧
      (statEntry env args listing e).isDirectory = e.isDirectory := by
  unfold statEntry
  split
  · exact ⟨rfl, rfl, rfl⟩
  · split <;> exact ⟨rfl, rfl, rfl⟩

theorem statEntry_fails {f : Found} (hlookup : lookup listing e.name = some f)
    (hfails : f.node.statFails = true) : statEntry env args listing e = e := by
  rw [statEntry, hlookup]
  exact if_pos hfails

theorem dt_statEntry {f : Found} (hlookup : lookup listing e.name = some f)
    (hfails : f.node.statFails = false) : (statEntry env args listing e).dt =
      if f.node.metadata.isDir then
        getDirtimeFromStat (env.cache (args.pathPlusSlash ++ e.name) false) f.node.metadata
      else notADir := by
  rw [statEntry, hlookup]
  dsimp only
  rw [hfails, if_neg Bool.false_ne_true]

theorem openEntry_file (h : e.isDirectory = false) :
    openEntry env args listing e = { e with dt := notADir } := by
  rw [openEntry, h]
  rfl

theorem openEntry_pruned (h : e.isDirectory = true) (hname : e.name ∈ env.conf.prunenames) :
    openEntry env args listing e = e := by
  rw [openEntry, h, if_neg (by decide), if_pos hname]

/-- A directory on the same file system that can be opened. -/
theorem openEntry_accessible {f : Found} (h : e.isDirectory = true)
    (hname : e.name ∉ env.conf.prunenames) (hlookup : lookup listing e.name = some f)
    (hnode : f.node.Accessible args.dev) (hdir : f.node.metadata.isDir = true) :
    openEntry env args listing e = { e with
      opened := true
      dev := f.node.dev
      hashAllowed := args.hashAllowed
      dt := getDirtimeFromStat (env.cache (args.pathPlusSlash ++ e.name) true)
        f.node.metadata } := by
  have hsame {P : Prop} : ¬(f.node.dev ≠ args.dev ∧ P) := fun h => h.1 hnode.dev
  rw [openEntry, h, if_neg (by decide), if_neg hname, hlookup]
  dsimp only
  rw [hnode.opened, hdir, if_neg (by decide), if_neg hsame, if_neg hsame]

/-- What is opened is a directory with a name that is not pruned, and its time is stored. -/
theorem openEntry_opened (hclosed : e.opened = false)
    (h : (openEntry env args listing e).opened = true) :
    ∃ f, lookup listing e.name = some f ∧ f.node.metadata.isDir = true ∧
      e.name ∉ env.conf.prunenames ∧ (openEntry env args listing e).dev = f.node.dev ∧
      (openEntry env args listing e).dt =
        getDirtimeFromStat (env.cache (args.pathPlusSlash ++ e.name) true) f.node.metadata := by
  unfold openEntry at h ⊢
  split at h
  · exact absurd (hclosed.symm.trans h) (by decide)
  · rename_i hdir
    rw [if_neg hdir]
    split at h
    · exact absurd (hclosed.symm.trans h) (by decide)
    · rename_i hname
      rw [if_neg hname]
      cases hlookup : lookup listing e.name with
      | none =>
          rw [hlookup] at h
          exact absurd (hclosed.symm.trans h) (by decide)
      | some f =>
          rw [hlookup] at h
          dsimp only at h ⊢
          split at h
          · exact absurd (hclosed.symm.trans h) (by decide)
          · rename_i hopen
            rw [if_neg hopen]
            split at h
            · exact absurd (hclosed.symm.trans h) (by decide)
            · rename_i hexcluded
              rw [if_neg hexcluded]
              rw [Bool.or_eq_true, not_or, Bool.not_eq_true, Bool.not_eq_true,
                Bool.not_eq_false'] at hopen
              exact ⟨f, rfl, hopen.2, hname, rfl, rfl⟩

/-- What is found to be a directory is opened unless it is pruned or cannot be opened. -/
theorem opened_openEntry {f : Found} (hdir : e.isDirectory = true)
    (hlookup : lookup listing e.name = some f) (hkind : f.node.metadata.isDir = true)
    (hname : e.name ∉ env.conf.prunenames) (hopens : f.node.openFails = false)
    (hfs : ¬(f.node.dev ≠ args.dev ∧
      env.filesystemIsExcluded (args.pathPlusSlash ++ e.name) = true)) :
    (openEntry env args listing e).opened = true := by
  rw [openEntry, hdir, if_neg (by decide), if_neg hname, hlookup]
  dsimp only
  rw [hopens, hkind, if_neg (by decide), if_neg hfs]

theorem openFails_of_opened {f : Found} (hclosed : e.opened = false)
    (hlookup : lookup listing e.name = some f)
    (h : (openEntry env args listing e).opened = true) : f.node.openFails = false := by
  by_contra hfails
  have hnot : ¬e.opened = true := Bool.eq_false_iff.mp hclosed
  unfold openEntry at h
  split at h
  · exact hnot h
  · split at h
    · exact hnot h
    · rw [hlookup] at h
      dsimp only at h
      rw [Bool.not_eq_false] at hfails
      rw [hfails, Bool.true_or, if_pos rfl] at h
      exact hnot h

theorem openEntry_isDirectory :
    (openEntry env args listing e).isDirectory = e.isDirectory := by
  unfold openEntry
  split
  · rfl
  · split
    · rfl
    · split
      · rfl
      · dsimp only
        split
        · rfl
        · split <;> rfl

/-- A time that may be found unchanged is the time of a directory. -/
theorem dt_openEntry_pos (hfresh : e.dt = unknownDirTime)
    (h : 0 < (openEntry env args listing (statEntry env args listing e)).dt.sec) :
    e.isDirectory = true ∧ ∃ f, lookup listing e.name = some f ∧ f.node.metadata.isDir = true := by
  have hdir : e.isDirectory = true := by
    by_contra hfile
    rw [openEntry_file ((statEntry_frame _ _ _ _).2.2.trans (Bool.not_eq_true _ ▸ hfile))] at h
    exact absurd (show 0 < notADir.sec from h) (by decide)
  refine ⟨hdir, ?_⟩
  have hunknown : ¬0 < e.dt.sec := by
    rw [hfresh]
    decide
  cases hlookup : lookup listing e.name with
  | none =>
      have hstat : statEntry env args listing e = e := by rw [statEntry, hlookup]
      rw [hstat, openEntry, hdir, if_neg (by decide), hlookup, ite_self] at h
      exact absurd h hunknown
  | some f =>
      refine ⟨f, rfl, ?_⟩
      by_contra hkind
      have hstat : ¬0 < (statEntry env args listing e).dt.sec := by
        cases hfails : f.node.statFails with
        | true =>
            rw [statEntry_fails hlookup hfails]
            exact hunknown
        | false =>
            rw [dt_statEntry hlookup hfails, if_neg hkind]
            decide
      have hlookup' : lookup listing (statEntry env args listing e).name = some f :=
        name_statEntry.symm ▸ hlookup
      rw [openEntry, (statEntry_frame _ _ _ _).2.2.trans hdir, if_neg (by decide), hlookup'] at h
      dsimp only at h
      rw [Bool.not_eq_true] at hkind
      rw [hkind, Bool.not_false, Bool.or_true, if_pos rfl, ite_self] at h
      exact hstat h

theorem isUnchanged_iff (args : ScanArgs) (existing : OldDatabase) :
    isUnchanged args existing = true ↔ existing.error = false ∧ 0 < args.dbModified.sec ∧
      args.modified = args.dbModified := by
  have htimes : dirTimeEquals args.modified args.dbModified = true ↔
      args.modified = args.dbModified := by
    rw [dirTimeEquals, decide_eq_true_eq, DirTime.mk.injEq]
  rw [isUnchanged, Bool.and_eq_true, Bool.and_eq_true, decide_eq_true_eq, htimes,
    Bool.not_eq_true', and_assoc]

theorem mem_kinds {name : Str} {kind : Bool} :
    (name, kind) ∈ dir.kinds ↔ ∃ t, (name, t) ∈ dir.entries ∧ t.isDir = kind := by
  rw [Dir.kinds, List.mem_map]
  constructor
  · rintro ⟨⟨n, t⟩, ht, heq⟩
    obtain ⟨rfl, rfl⟩ := Prod.mk.inj heq
    exact ⟨t, ht, rfl⟩
  · rintro ⟨t, ht, rfl⟩
    exact ⟨(name, t), ht, rfl⟩

theorem mem_listed : e ∈ dir.listed ↔ ∃ name t, (name, t) ∈ dir.entries ∧
    e = bareEntry (name, t.isDir) := by
  rw [Dir.listed, sortEntries, List.mem_mergeSort, List.mem_map]
  constructor
  · rintro ⟨⟨name, kind⟩, hkind, rfl⟩
    obtain ⟨t, ht, rfl⟩ := mem_kinds.mp hkind
    exact ⟨name, t, ht, rfl⟩
  · rintro ⟨name, t, ht, rfl⟩
    exact ⟨_, mem_kinds.mpr ⟨t, ht, rfl⟩, rfl⟩

theorem map_name_kinds (dir : Dir) : (dir.kinds.map bareEntry).map Entry.name = dir.names := by
  rw [Dir.kinds, List.map_map, List.map_map, ← Dir.map_fst_entries]
  rfl

theorem Dir.WellFormed.listed (h : dir.WellFormed) :
    (dir.listed.Pairwise fun a b => a.name < b.name) ∧
      ∀ e ∈ dir.listed, e.name ≠ [] ∧ 47 ∉ e.name := by
  refine ⟨pairwise_sortEntries _ (map_name_kinds dir ▸ h.nodup), fun e he => ?_⟩
  obtain ⟨name, t, ht, rfl⟩ := mem_listed.mp he
  exact h.named ht

/-- Sorting leaves nothing of the order in which the entries are read. -/
theorem listed_congr {dir' : Dir} (h : dir.WellFormed) (h' : dir'.WellFormed)
    (hkinds : ∀ kind, kind ∈ dir.kinds ↔ kind ∈ dir'.kinds) : dir.listed = dir'.listed := by
  have hnodup {d : Dir} (hd : d.WellFormed) : d.kinds.Nodup := by
    apply List.Nodup.of_map Prod.fst
    have hnames : d.kinds.map Prod.fst = d.names := by
      rw [Dir.kinds, List.map_map, ← Dir.map_fst_entries]
      rfl
    exact hnames ▸ hd.nodup
  have hperm : dir.listed.Perm dir'.listed := by
    refine (List.mergeSort_perm _ _).trans (.trans ?_ (List.mergeSort_perm _ _).symm)
    exact ((List.perm_ext_iff_of_nodup (hnodup h) (hnodup h')).mpr hkinds).map _
  refine List.Perm.eq_of_pairwise (fun a b _ _ hab hba => ?_) h.listed.1 h'.listed.1 hperm
  exact absurd hab (List.lt_asymm hba)

theorem map_forget_listed (dir : Dir) : dir.listed.map Entry.forget = dir.listed := by
  conv_rhs => rw [← List.map_id dir.listed]
  refine List.map_congr_left fun e he => ?_
  obtain ⟨name, t, -, rfl⟩ := mem_listed.mp he
  rfl

theorem map_kind_listed (dir : Dir) : (dir.listed.map Entry.kind).map bareEntry = dir.listed := by
  rw [List.map_map]
  conv_rhs => rw [← List.map_id dir.listed]
  refine List.map_congr_left fun e he => ?_
  obtain ⟨name, t, -, rfl⟩ := mem_listed.mp he
  rfl

end Entries

section Records

variable {path : Str} {records : List FileRecord}

theorem entriesOf_append (a b : List FileRecord) (path : Str) :
    entriesOf (a ++ b) path = entriesOf a path ++ entriesOf b path := by
  rw [entriesOf, List.filter_append, List.map_append]
  rfl

theorem entriesOf_flatMap (entries : List Entry) (below : Entry → List FileRecord) (path : Str) :
    entriesOf (entries.flatMap below) path =
      entries.flatMap fun e => entriesOf (below e) path := by
  induction entries with
  | nil => rfl
  | cons e entries ih => rw [List.flatMap_cons, entriesOf_append, ih, List.flatMap_cons]

theorem entriesOf_eq_nil
    (h : ∀ r ∈ records, r.dir ≠ withSlash path) : entriesOf records path = [] := by
  rw [entriesOf, List.filter_eq_nil_iff.mpr, List.map_nil]
  exact fun r hr heq => h r hr (of_decide_eq_true heq)

theorem path_of_dir {r : FileRecord} (h : r.dir = withSlash path) :
    r.path = withSlash path ++ r.name := by
  have hsplit := dirPart_append_namePart r.path
  rw [show dirPart r.path = withSlash path from h] at hsplit
  exact hsplit.symm

theorem dir_name_of_path {r : FileRecord} {name : Str} (hname : 47 ∉ name)
    (h : r.path = withSlash path ++ name) : r.dir = withSlash path ∧ r.name = name := by
  rw [FileRecord.dir, FileRecord.name, h]
  have hlast := getLast?_withSlash path
  exact ⟨dirPart_append hlast hname, namePart_append hlast hname⟩

theorem mem_entriesOf {e : Entry} : e ∈ entriesOf records path ↔
    ∃ r ∈ records, r.dir = withSlash path ∧ r.oldEntry = e := by
  simp only [entriesOf, List.mem_map, List.mem_filter, decide_eq_true_eq, and_assoc]

/-- An entry of the old database has the time of its record. -/
theorem dbModified_entriesOf {e : Entry} (he : e ∈ entriesOf records path) :
    ∃ r ∈ records, r.path = withSlash path ++ e.name ∧ r.dirTimestamp = e.dbModified := by
  obtain ⟨r, hmem, hdir, rfl⟩ := mem_entriesOf.mp he
  exact ⟨r, hmem, path_of_dir hdir, rfl⟩

end Records

section Walk

variable {env : ScanEnv} {old : OldDatabase} {args : ScanArgs} {dir : Dir} {dev : ℕ}

theorem mergeOld_nil (entries : List Entry) : mergeOld entries [] = (entries, []) := by
  cases entries with
  | nil => rw [mergeOld]
  | cons e entries => rw [mergeOld]; simp

/-- The walk of a directory that is not listed from the old database. -/
theorem walkTree_listed (args : ScanArgs) (hmounts : ∀ p, env.isBindMount p = false)
    (hdir : dir.Accessible dev) (hpruned : args.path ∉ env.conf.prunepaths)
    (hlist : args.listFails = false)
    (hchanged : ¬isUnchanged args { error := old.failsAt args.path } = true) :
    walkTree env old args dir =
      walkEntries env args (dir.found env) (dir.visits env old)
        (mergeOld dir.listed (entriesOf old.records args.path)).1
        (mergeOld dir.listed (entriesOf old.records args.path)).2 := by
  rw [walkTree, walkDirectory, if_neg fun h => hpruned (List.contains_iff_mem.mp h), hmounts,
    Bool.and_false, if_neg Bool.false_ne_true, if_neg hchanged, hlist, if_neg Bool.false_ne_true,
    map_entry_found hdir]
  rfl

theorem not_isUnchanged_forget (args : ScanArgs) (existing : OldDatabase) :
    ¬isUnchanged args.forget existing = true := by
  rw [isUnchanged_iff]
  exact fun h => absurd (show 0 < unknownDirTime.sec from h.2.1) (by decide)

theorem forget_of_unknown (args : ScanArgs) (h : args.dbModified = unknownDirTime) :
    args.forget = args := by
  rw [ScanArgs.forget, ← h]

theorem walkTree_nil (hmounts : ∀ p, env.isBindMount p = false) (hdir : dir.Accessible dev)
    (hpruned : args.path ∉ env.conf.prunepaths) (hlist : args.listFails = false) :
    walkTree env {} args.forget dir =
      walkEntries env args.forget (dir.found env) (dir.visits env {}) dir.listed [] := by
  rw [walkTree_listed args.forget hmounts hdir hpruned hlist
    (not_isUnchanged_forget args _)]
  change walkEntries _ _ _ _ (mergeOld dir.listed []).1 (mergeOld dir.listed []).2 = _
  rw [mergeOld_nil]

theorem closed_of_map_forget {entries : List Entry} (h : entries.map Entry.forget = dir.listed) :
    ∀ e ∈ entries, e.opened = false := by
  intro e he
  have hmem := List.mem_map_of_mem (f := Entry.forget) he
  rw [h] at hmem
  obtain ⟨name, t, -, heq⟩ := mem_listed.mp hmem
  exact congrArg Entry.opened heq

/-- An entry that is opened, with what the old database says about it. -/
theorem opened_of_mem_prepared {entries : List Entry} (hclosed : ∀ e ∈ entries, e.opened = false)
    {e : Entry} (he : e ∈ preparedEntries env args (dir.found env) entries)
    (hopened : e.opened = true) :
    ∃ e' ∈ entries, ∃ t, e'.name = e.name ∧ e'.dbModified = e.dbModified ∧
      dir.find e.name = some t ∧ t.isDir = true ∧ e.name ∉ env.conf.prunenames ∧
      e.dev = t.node.dev ∧ e.dt =
        getDirtimeFromStat (env.cache (withSlash args.path ++ e.name) true) t.node.metadata := by
  obtain ⟨e', he', rfl⟩ := List.mem_map.mp he
  have hclosed' := (statEntry_frame env args (dir.found env) e').2.1.trans (hclosed e' he')
  obtain ⟨f, hf, hdir, hname, hdev, hdt⟩ := openEntry_opened hclosed' hopened
  have hsame : (openEntry env args (dir.found env) (statEntry env args (dir.found env) e')).name =
    e'.name := name_openEntry.trans name_statEntry
  rw [name_statEntry] at hf hname hdt
  rw [lookup_found] at hf
  cases hfind : dir.find e'.name with
  | none =>
      rw [hfind] at hf
      cases hf
  | some t =>
      rw [hfind] at hf
      obtain rfl := Option.some.inj hf
      rw [hsame]
      exact ⟨e', he', t, rfl, (openEntry_dbModified.trans (statEntry_frame _ _ _ _).1).symm, hfind,
        hdir, hname, hdev, hdt⟩

end Walk

end Flocate
