import Flocate.DirectoryListing

/-!
# Full runs

A run without an old database stores for every directory that it enters what is listed there, and
nothing else.
-/

namespace Flocate

open Bytes

/-- The later one of the times at which the contents or the status have changed. -/
def FileMetadata.changeTime (metadata : FileMetadata) : DirTime :=
  if metadata.ctime.lt metadata.mtime then metadata.mtime else metadata.ctime

def storedTime (env : ScanEnv) (path name : Str) (t : Tree) : DirTime :=
  if t.isDir then
    getDirtimeFromStat (env.cache (withSlash path ++ name) !(env.conf.prunenames.contains name))
      t.node.metadata
  else notADir

section FullRun

variable {env : ScanEnv} {args : ScanArgs} {dir : Dir} {dev : ℕ} {path name p : Str}
  {t d sub : Tree}

theorem changeTime_nonneg {node : Node} (h : node.Accessible dev) :
    0 ≤ node.metadata.changeTime.sec := by
  unfold FileMetadata.changeTime
  split
  · exact h.mtime
  · exact h.ctime

theorem getDirtimeFromStat_nonneg {node : Node} (h : node.Accessible dev) (cache : DirTime) :
    0 ≤ (getDirtimeFromStat cache node.metadata).sec := by
  unfold getDirtimeFromStat
  change 0 ≤ DirTime.sec (if timeIsCurrent cache node.metadata.changeTime then _ else _)
  split
  · decide
  · exact changeTime_nonneg h

/-- A time that a later run may find unchanged is the time of the directory. -/
theorem getDirtimeFromStat_of_pos {cache : DirTime} {metadata : FileMetadata}
    (h : 0 < (getDirtimeFromStat cache metadata).sec) :
    getDirtimeFromStat cache metadata = metadata.changeTime := by
  unfold getDirtimeFromStat at h ⊢
  change 0 < DirTime.sec (if timeIsCurrent cache metadata.changeTime then _ else _) at h
  change (if timeIsCurrent cache metadata.changeTime then _ else _) = metadata.changeTime
  split at h
  · exact absurd h (by decide)
  · rename_i hold
    rw [if_neg hold]
    rfl

/-- The stored time tells the directories. -/
theorem storedTime_nonneg_iff (h : t.isDir = true → t.node.Accessible dev) :
    0 ≤ (storedTime env path name t).sec ↔ t.isDir = true := by
  unfold storedTime
  split
  · rename_i hdir
    exact iff_of_true (getDirtimeFromStat_nonneg (h hdir) _) hdir
  · rename_i hdir
    exact iff_of_false (by decide) hdir

/-- How an entry that has just been listed is stored. -/
theorem prepared_listed (args : ScanArgs) (hwf : dir.WellFormed) (hdir : dir.Accessible dev)
    (hdev : args.dev = dev) (ht : (name, t) ∈ dir.entries) {e : Entry}
    (he : e = openEntry env args (dir.found env)
      (statEntry env args (dir.found env) (bareEntry (name, t.isDir)))) :
    e.name = name ∧ e.isDirectory = t.isDir ∧ e.dt = storedTime env args.path name t ∧
      (t.isDir = true → name ∉ env.conf.prunenames → e.opened = true ∧ e.dev = dev) := by
  have hlookup : lookup (dir.found env) name =
      some ⟨name, t.node, fun args => scan env t.content args⟩ := by
    rw [lookup_found, hwf.find_of_mem ht]
    rfl
  subst he
  obtain ⟨-, -, hfile⟩ := statEntry_frame env args (dir.found env) (bareEntry (name, t.isDir))
  have hname' : (statEntry env args (dir.found env) (bareEntry (name, t.isDir))).name = name :=
    name_statEntry
  refine ⟨name_openEntry.trans hname', ?_⟩
  cases hkind : t.isDir with
  | false =>
      rw [hkind] at hfile
      rw [openEntry_file hfile, storedTime, hkind]
      exact ⟨hfile, rfl, fun h => by cases h⟩
  | true =>
      obtain ⟨hnode, -⟩ := hdir.entry ht hkind
      rw [hkind] at hfile hname'
      have hstat : (statEntry env args (dir.found env) (bareEntry (name, true))).dt =
          getDirtimeFromStat (env.cache (withSlash args.path ++ name) false) t.node.metadata := by
        have hlookup' : lookup (dir.found env) (bareEntry (name, true)).name =
          some ⟨name, t.node, fun args => scan env t.content args⟩ := hlookup
        exact (dt_statEntry hlookup' hnode.stat).trans (if_pos hkind)
      by_cases hname : name ∈ env.conf.prunenames
      · rw [openEntry_pruned hfile (hname'.symm ▸ hname), storedTime, hkind, if_pos rfl, hstat,
          List.contains_iff_mem.mpr hname]
        exact ⟨hfile, rfl, fun _ h => absurd hname h⟩
      · have hnode' : t.node.Accessible args.dev := hdev.symm ▸ hnode
        have hlookup' := hname'.symm ▸ hlookup
        have hunpruned : env.conf.prunenames.contains name = false := by
          rw [← Bool.not_eq_true, List.contains_iff_mem]
          exact hname
        rw [openEntry_accessible hfile (hname'.symm ▸ hname) hlookup' hnode' hkind, storedTime,
          hkind, if_pos rfl, hunpruned]
        refine ⟨hfile, ?_, fun _ _ => ⟨rfl, hnode.dev⟩⟩
        rw [hname']
        rfl

theorem opened_listed (hdir : dir.Accessible dev) {e : Entry}
    (he : e ∈ preparedEntries env args (dir.found env) dir.listed) (hopened : e.opened = true) :
    ∃ t, dir.find e.name = some t ∧ (e.name, t) ∈ dir.entries ∧ t.isDir = true ∧
      e.name ∉ env.conf.prunenames ∧ t.node.Accessible dev ∧ t.content.Accessible dev ∧
      e.dev = dev ∧ e.dbModified = unknownDirTime := by
  have hclosed := closed_of_map_forget (map_forget_listed dir)
  obtain ⟨e', he', t, -, hmodified, hfind, hkind, hname, hdev, -⟩ :=
    opened_of_mem_prepared hclosed he hopened
  have hunknown : e'.dbModified = unknownDirTime := by
    obtain ⟨name, t, -, rfl⟩ := mem_listed.mp he'
    rfl
  have hmem := Dir.mem_of_find hfind
  obtain ⟨hnode, hcontent⟩ := hdir.entry hmem hkind
  exact ⟨t, hfind, hmem, hkind, hname, hnode, hcontent, hdev.trans hnode.dev,
    hmodified.symm.trans hunknown⟩

/-- Every record of a walk is of an entry of a directory that has been entered. -/
theorem mem_walkTree_nil (hmounts : ∀ p, env.isBindMount p = false) (dir : Dir) :
    ∀ (args : ScanArgs) (t : Tree), t.content = dir → dir.WellFormed → dir.Accessible dev →
      args.listFails = false → args.dev = dev →
      ∀ r ∈ (walkTree env {} args.forget dir).records, ∃ p d name sub,
        Entered env.conf args.path t p d ∧ (name, sub) ∈ d.content.entries ∧
          r.path = withSlash p ++ name ∧ r.dirTimestamp = storedTime env p name sub := by
  induction dir using Dir.treeInduction with
  | h dir ih =>
      rintro args t rfl hwf hdir hlist hdev r hr
      by_cases hpruned : args.path ∈ env.conf.prunepaths
      · have hpruned' : args.forget.path ∈ env.conf.prunepaths := hpruned
        rw [walkTree, walkDirectory_pruned _ _ _ _ _ hpruned'] at hr
        cases hr
      · rw [walkTree_nil hmounts hdir hpruned hlist] at hr
        rcases List.mem_append.mp hr with hr | hr
        · obtain ⟨e, he, rfl⟩ := List.mem_map.mp hr
          obtain ⟨e', he', rfl⟩ := List.mem_map.mp he
          obtain ⟨name, sub, hmem, rfl⟩ := mem_listed.mp he'
          obtain ⟨hname, -, hdt, -⟩ := prepared_listed args.forget hwf hdir hdev hmem rfl
          exact ⟨args.path, t, name, sub, .here hpruned, hmem,
            congrArg (withSlash args.path ++ ·) hname, hdt⟩
        · obtain ⟨e, he, hr⟩ := List.mem_flatMap.mp hr
          cases hfind : t.content.find e.name with
          | none =>
              rw [visitEntry_none env {} hfind] at hr
              cases hr
          | some sub =>
              rw [visitEntry_some env {} hfind] at hr
              by_cases hopened : (e.isDirectory && e.opened) = true
              · rw [if_pos hopened] at hr
                obtain ⟨sub', hfind', hmem, hkind, hname, hnode, hcontent, hdev', hunknown⟩ :=
                  opened_listed hdir he (Bool.and_eq_true_iff.mp hopened).2
                obtain rfl := Option.some.inj (hfind.symm.trans hfind')
                rw [← forget_of_unknown (subdirArgs args.forget sub.node e) hunknown] at hr
                obtain ⟨p, d, name, sub', hentered, hmem', hpath, htime⟩ :=
                  ih _ hmem _ sub rfl (hwf.content hmem) hcontent hnode.listed hdev' r hr
                exact ⟨p, d, name, sub', .inside hpruned hmem hkind hname hentered, hmem', hpath,
                  htime⟩
              · rw [if_neg hopened] at hr
                cases hr

/-- Of entries in the order of their names only one has a name. -/
theorem flatMap_eq_of_name {α : Type} {entries : List Entry} {g : Entry → List α} {e : Entry}
    (hentries : entries.Pairwise fun a b => a.name < b.name) (he : e ∈ entries)
    (hother : ∀ e' ∈ entries, e'.name ≠ e.name → g e' = []) : entries.flatMap g = g e := by
  induction entries with
  | nil => cases he
  | cons e' entries ih =>
      rw [List.pairwise_cons] at hentries
      rw [List.forall_mem_cons] at hother
      rw [List.flatMap_cons]
      rcases List.mem_cons.mp he with rfl | he
      · have hnil : entries.flatMap g = [] := by
          rw [List.flatMap_eq_nil_iff]
          intro e' he'
          exact hother.2 e' he' fun heq => List.lt_irrefl _ (heq ▸ hentries.1 e' he')
        rw [hnil, List.append_nil]
      · have hne : e'.name ≠ e.name := fun heq => List.lt_irrefl _ (heq ▸ hentries.1 e he)
        rw [hother.1 hne, List.nil_append, ih hentries.2 he hother.2]

/-- The entries of a directory, read back from their records. -/
theorem entriesOf_prepared (args : ScanArgs) (hwf : dir.WellFormed) (hdir : dir.Accessible dev)
    (hdev : args.dev = dev) :
    (entriesOf ((preparedEntries env args (dir.found env) dir.listed).map (Entry.record args))
      args.path).map Entry.kind = dir.listed.map Entry.kind := by
  have hfilter : ((preparedEntries env args (dir.found env) dir.listed).map
      (Entry.record args)).filter (fun r => r.dir = withSlash args.path) =
        (preparedEntries env args (dir.found env) dir.listed).map (Entry.record args) := by
    rw [List.filter_eq_self]
    intro r hr
    obtain ⟨e, he, rfl⟩ := List.mem_map.mp hr
    obtain ⟨hnames, -⟩ := prepared_spec env args (dir.found env) hwf.listed.2 hwf.listed.1
    exact decide_eq_true (dir_record args (hnames e he).2)
  rw [entriesOf, hfilter, preparedEntries, List.map_map, List.map_map, List.map_map]
  refine List.map_congr_left fun e he => ?_
  obtain ⟨name, t, hmem, rfl⟩ := mem_listed.mp he
  obtain ⟨hname, -, hdt, -⟩ := prepared_listed args hwf hdir hdev hmem rfl
  have hslash := (hwf.named hmem).2
  have hkind : decide (0 ≤ (storedTime env args.path name t).sec) = t.isDir := by
    rw [Bool.eq_iff_iff, decide_eq_true_eq,
      storedTime_nonneg_iff fun hkind => (hdir.entry hmem hkind).1]
  refine Prod.ext ?_ ?_
  · exact (name_record args (hname.symm ▸ hslash)).trans hname
  · refine Eq.trans ?_ hkind
    rw [← hdt]
    rfl

/-- A walk stores for each directory that it enters what is listed there. -/
theorem entriesOf_walkTree_nil (hmounts : ∀ p, env.isBindMount p = false)
    (h : Entered env.conf path t p d) :
    ∀ args : ScanArgs, args.path = path → t.content.WellFormed → t.content.Accessible dev →
      args.listFails = false → args.dev = dev →
      (entriesOf (walkTree env {} args.forget t.content).records p).map Entry.kind =
        d.content.listed.map Entry.kind := by
  have hvisits {c : Dir} (hc : c.WellFormed) : VisitsOrdered (c.visits env {}) :=
    visits_ordered {} walkRecords_nil hc
  induction h with
  | @here path t hpruned =>
      rintro args rfl hwf hdir hlist hdev
      rw [walkTree_nil hmounts hdir hpruned hlist, walkEntries]
      dsimp only
      have hbelow : entriesOf ((preparedEntries env args.forget (t.content.found env)
          t.content.listed).flatMap fun e => (visitEntry args.forget (t.content.found env)
            (t.content.visits env {}) e).records) args.path = [] := by
        refine entriesOf_eq_nil fun r hr => ?_
        obtain ⟨e, he, hr⟩ := List.mem_flatMap.mp hr
        have hprefix := (visitEntry_walkFrom args.forget _ (hvisits hwf) e).below r hr
        obtain ⟨hnames, -⟩ := prepared_spec env args.forget (t.content.found env)
          hwf.listed.2 hwf.listed.1
        exact ne_of_prefix_entry hprefix (hnames e he)
      rw [entriesOf_append, hbelow, List.append_nil]
      exact entriesOf_prepared args.forget hwf hdir hdev
  | @inside path name p t sub d hpruned hmem hkind hname hentered ih =>
      rintro args rfl hwf hdir hlist hdev
      have hnamed := hwf.named hmem
      obtain ⟨hnode, hcontent⟩ := hdir.entry hmem hkind
      obtain ⟨hnames, hentries⟩ := prepared_spec env args.forget (t.content.found env)
        hwf.listed.2 hwf.listed.1
      rw [walkTree_nil hmounts hdir hpruned hlist, walkEntries]
      dsimp only
      have hown : entriesOf ((preparedEntries env args.forget (t.content.found env)
          t.content.listed).map (Entry.record args.forget)) p = [] := by
        refine entriesOf_eq_nil fun r hr => ?_
        obtain ⟨e, he, rfl⟩ := List.mem_map.mp hr
        rw [dir_record args.forget (hnames e he).2]
        exact (ne_of_prefix_entry hentered.isPrefix hnamed).symm
      let e := openEntry env args.forget (t.content.found env)
        (statEntry env args.forget (t.content.found env) (bareEntry (name, sub.isDir)))
      have he : e ∈ preparedEntries env args.forget (t.content.found env) t.content.listed :=
        List.mem_map_of_mem (mem_listed.mpr ⟨name, sub, hmem, rfl⟩)
      obtain ⟨hename, hedir, -, hopen⟩ := prepared_listed args.forget hwf hdir hdev hmem
        (rfl : e = _)
      obtain ⟨hopened, hedev⟩ := hopen hkind hname
      obtain ⟨-, -, -, -, -, -, -, -, hunknown⟩ := opened_listed hdir he hopened
      rw [entriesOf_append, hown, List.nil_append, entriesOf_flatMap,
        flatMap_eq_of_name hentries he, visitEntry_some env {} (hename ▸ hwf.find_of_mem hmem),
        hedir, hkind, hopened, Bool.and_self, if_pos rfl,
        ← forget_of_unknown (subdirArgs args.forget sub.node e) hunknown]
      · refine ih (subdirArgs args.forget sub.node e) ?_ (hwf.content hmem) hcontent hnode.listed
          hedev
        exact congrArg (withSlash args.path ++ ·) hename
      · intro e' he' hne
        refine entriesOf_eq_nil fun r hr heq => hne ?_
        have hprefix := (visitEntry_walkFrom args.forget _ (hvisits hwf) e').below r hr
        rw [heq] at hprefix
        rw [hename]
        exact entry_eq_of_isPrefix hprefix hentered.isPrefix (hnames e' he') hnamed

end FullRun

end Flocate
