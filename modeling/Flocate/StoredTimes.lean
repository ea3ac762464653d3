import Flocate.FullRunRecords

/-!
# The times of directories

A later run lists a directory from the database if it finds the time unchanged that is stored for
it. That time is stored before the walk knows whether it can list the directory, so that it can come
without the entries.
-/

namespace Flocate

open Bytes

/-- The records of a database that runs have written for this root, or of which the rest cannot be
read. -/
inductive RootDatabase (root : Str) : List FileRecord → Prop where
  | empty : RootDatabase root []
  | run (env : ScanEnv) (node : Node) (content : Dir) (existing : OldDatabase) :
      PrunepathsPrepared env.conf → content.WellFormed → existing.error = false →
      RootDatabase root existing.records →
      RootDatabase root ((scanRoot env root node content existing).corpus.map FileRecord.reread)
  | part {records start : List FileRecord} : RootDatabase root records → start <+: records →
      RootDatabase root start

/-- An entry of a directory on the device `dev` is excluded by the file systems that are pruned. -/
def OnExcludedFs (env : ScanEnv) (dev : ℕ) (path : Str) (sub : Tree) : Prop :=
  sub.node.dev ≠ dev ∧ env.filesystemIsExcluded path = true

/-- An entry of a directory is excluded by the configuration. -/
def ExcludedEntry (env : ScanEnv) (dev : ℕ) (path name : Str) (sub : Tree) : Prop :=
  name ∈ env.conf.prunenames ∨ withSlash path ++ name ∈ env.conf.prunepaths ∨
    OnExcludedFs env dev (withSlash path ++ name) sub

def StoresAll (records : List FileRecord) (path : Str) (dir : Dir) : Prop :=
  ∀ n ∈ dir.names, ∃ r ∈ records, r.path = withSlash path ++ n

/-- A directory that is stored with a time that may be found unchanged is stored with its entries,
unless it is excluded. -/
def TimesKept (env : ScanEnv) (root : Str) (t : Tree) (records : List FileRecord) : Prop :=
  ∀ path parent, DirectoryAt root t path parent → ∀ name sub,
    (name, sub) ∈ parent.content.entries → sub.isDir = true →
    ∀ r ∈ records, r.path = withSlash path ++ name → 0 < r.dirTimestamp.sec →
      ExcludedEntry env parent.node.dev path name sub ∨
        StoresAll records (withSlash path ++ name) sub.content

/-- A directory that is found in the call for the directory above can be opened and is listed in
full. -/
structure ListedInFull (env : ScanEnv) (old : OldDatabase) (args : ScanArgs) (e : Entry)
    (sub : Tree) : Prop where
  opens : sub.node.openFails = false
  mount : ¬(env.conf.pruneBindMounts && env.isBindMount (withSlash args.path ++ e.name)) = true
  lists : listsOld old (subdirArgs args sub.node e) = false → sub.node.listFails = false
  complete : listsOld old (subdirArgs args sub.node e) = true →
    StoresAll old.records (withSlash args.path ++ e.name) sub.content

/-- Every directory that the run comes to, with a time that may be found unchanged, is listed in
full unless it is empty or excluded. -/
def AllListedInFull (env : ScanEnv) (old : OldDatabase) (root : Str) (t : Tree) : Prop :=
  ∀ a d, ScanCall env old (rootArgs env root t.node) t.content a d → ListsEntries env old a →
    ∀ e ∈ storedEntries env old a d, ∀ sub, d.find e.name = some sub → 0 < e.dt.sec →
      sub.content.names ≠ [] → ¬ExcludedEntry env a.dev a.path e.name sub →
        ListedInFull env old a e sub

/-- A later run on these records lists a directory from there only if it was stored with its
entries, or was on a file system that was excluded. -/
def ListsWhatIsStored (env : ScanEnv) (root : Str) (t : Tree) (records : List FileRecord) : Prop :=
  ∀ (env' : ScanEnv) (t' : Tree), env'.conf = env.conf → t'.content.WellFormed → ∀ a d,
    ScanCall env' (.ofCorpus records) (rootArgs env' root t'.node) t'.content a d →
    ListsEntries env' (.ofCorpus records) a → listsOld (.ofCorpus records) a = true →
      ∃ path parent name sub, DirectoryAt root t path parent ∧
        (name, sub) ∈ parent.content.entries ∧ a.path = withSlash path ++ name ∧
          (OnExcludedFs env parent.node.dev a.path sub ∨ StoresAll records a.path sub.content)

section Records

variable {env : ScanEnv} {old : OldDatabase} {root : Str} {t : Tree} {records : List FileRecord}

/-- A run reads the databases for its root in step. -/
theorem RootDatabase.walkFrom (h : RootDatabase root records) : WalkFrom root records := by
  induction h with
  | empty => exact WalkFrom.nil root
  | run env node content existing hconf hcontent herror _ ih =>
      rw [(scanRoot_eq_walkRoot existing hconf.sorted ih.toWalkRecords herror root ih.below node
        hcontent).1]
      exact (walkRoot_walkFrom env existing ih.toWalkRecords root node hcontent).reread
  | part _ hstart ih =>
      have hmem := fun r hr => hstart.subset (a := r) hr
      exact ⟨⟨ih.order.sublist hstart.sublist, fun r hr => ih.slash r (hmem r hr),
        fun r hr => ih.named r (hmem r hr)⟩, fun r hr => ih.below r (hmem r hr)⟩

theorem corpus_eq_walkTree (hconf : PrunepathsPrepared env.conf) (ht : t.content.WellFormed)
    (hold : RootDatabase root old.records) (herror : old.error = false) :
    (scanRoot env root t.node t.content old).corpus =
      (walkTree env old (rootArgs env root t.node) t.content).records :=
  (scanRoot_eq_walkRoot old hconf.sorted hold.walkFrom.toWalkRecords herror root
    hold.walkFrom.below t.node ht).1

end Records

section Calls

variable {env : ScanEnv} {old : OldDatabase} {args a : ScanArgs} {dir d : Dir} {e : Entry}
  {sub : Tree}

/-- What is stored with a time is a directory. -/
theorem exists_dir_of_dt_pos (he : e ∈ storedEntries env old args dir) (hpos : 0 < e.dt.sec) :
    e.isDirectory = true ∧ ∃ sub, dir.find e.name = some sub ∧ sub.isDir = true := by
  obtain ⟨e', he', rfl⟩ := List.mem_map.mp he
  obtain ⟨hdir, f, hlookup, hkind⟩ := dt_openEntry_pos (takenEntries_fresh he').2 hpos
  refine ⟨openEntry_isDirectory.trans ((statEntry_frame _ _ _ _).2.2.trans hdir), ?_⟩
  rw [name_openEntry, name_statEntry]
  rw [lookup_found] at hlookup
  obtain ⟨sub, hfind, rfl⟩ := Option.map_eq_some_iff.mp hlookup
  exact ⟨sub, hfind, hkind⟩

theorem isDir_of_dt_pos (he : e ∈ storedEntries env old args dir)
    (hfind : dir.find e.name = some sub) (hpos : 0 < e.dt.sec) :
    e.isDirectory = true ∧ sub.isDir = true := by
  obtain ⟨hdir, sub', hfind', hkind⟩ := exists_dir_of_dt_pos he hpos
  obtain rfl := Option.some.inj (hfind.symm.trans hfind')
  exact ⟨hdir, hkind⟩

theorem openFails_of_stored (he : e ∈ storedEntries env old args dir)
    (hfind : dir.find e.name = some sub) (hopened : e.opened = true) :
    sub.node.openFails = false := by
  obtain ⟨e', he', rfl⟩ := List.mem_map.mp he
  have hclosed := (statEntry_frame env args (dir.found env) e').2.1.trans
    (takenEntries_fresh he').1
  rw [name_openEntry] at hfind
  exact openFails_of_opened (f := ⟨_, sub.node, _⟩) hclosed
    (by rw [lookup_found, hfind]; rfl) hopened

/-- A directory that is not excluded and can be opened is called. -/
theorem callsEntry_of_opens (hlists : ListsEntries env old args)
    (he : e ∈ storedEntries env old args dir) (hfind : dir.find e.name = some sub)
    (hpos : 0 < e.dt.sec) (hexcluded : ¬ExcludedEntry env args.dev args.path e.name sub)
    (hopens : sub.node.openFails = false) : CallsEntry env old args dir e sub := by
  obtain ⟨hdir, hkind⟩ := isDir_of_dt_pos he hfind hpos
  refine ⟨hlists, he, hdir, ?_, hfind⟩
  obtain ⟨e', he', rfl⟩ := List.mem_map.mp he
  rw [openEntry_isDirectory] at hdir
  rw [name_openEntry] at hfind hexcluded
  have hlookup : lookup (dir.found env) (statEntry env args (dir.found env) e').name = some
      ⟨(statEntry env args (dir.found env) e').name, sub.node,
        fun args => scan env sub.content args⟩ := by
    rw [lookup_found, hfind]
    rfl
  exact opened_openEntry hdir hlookup hkind (fun h => hexcluded (Or.inl h)) hopens
    fun h => hexcluded (Or.inr (Or.inr h))

theorem named_of_mem_names {name : Str} (h : dir.WellFormed) (hname : name ∈ dir.names) :
    name ≠ [] ∧ 47 ∉ name := by
  rw [← Dir.map_fst_entries] at hname
  obtain ⟨⟨n, t⟩, ht, rfl⟩ := List.mem_map.mp hname
  exact h.named ht

/-- A directory that is listed in full is stored with all its entries. -/
theorem storedEntries_of_full (env : ScanEnv) (hdir : dir.WellFormed)
    (hcomplete : listsOld old args = true → StoresAll old.records args.path dir) {n : Str}
    (hn : n ∈ dir.names) : ∃ e ∈ storedEntries env old args dir, e.name = n := by
  have htaken : n ∈ (takenEntries env old args dir).map Entry.name := by
    unfold takenEntries
    split
    · rename_i hold
      obtain ⟨r, hr, hpath⟩ := hcomplete hold n hn
      obtain ⟨hrdir, hrname⟩ := dir_name_of_path (named_of_mem_names hdir hn).2 hpath
      exact List.mem_map.mpr ⟨r.oldEntry, mem_entriesOf.mpr ⟨r, hr, hrdir, rfl⟩, hrname⟩
    · rw [map_name_mergeOld, (map_name_sortEntries_perm _).mem_iff, List.map_map]
      exact (map_name_found dir).symm ▸ hn
  have hnames : (storedEntries env old args dir).map Entry.name =
      (takenEntries env old args dir).map Entry.name := name_preparedEntries _
  rw [← hnames, List.mem_map] at htaken
  exact htaken

end Calls

section Kept

variable {env : ScanEnv} {old : OldDatabase} {args a a' : ScanArgs} {dir d d' : Dir} {e : Entry}
  {root : Str} {t sub : Tree}

/-- What is stored in a directory is stored by the call for it. -/
theorem exists_call_of_path (hold : WalkRecords old.records) (hdir : dir.WellFormed)
    {p name : Str} (hname : 47 ∉ name) {r : FileRecord}
    (hr : r ∈ (walkTree env old args dir).records) (hpath : r.path = withSlash p ++ name) :
    ∃ a d, ScanCall env old args dir a d ∧ ListsEntries env old a ∧
      withSlash a.path = withSlash p ∧ ∃ e ∈ storedEntries env old a d, e.name = name ∧
        e.record a = r := by
  obtain ⟨a, d, hcall, hlists, e, he, rfl⟩ := mem_records.mp hr
  have hslash := ((storedEntries_spec env hold a (hcall.wellFormed hdir)).1 e he).2
  obtain ⟨hsame, hnames⟩ := split_unique (show withSlash a.path ++ e.name = _ from hpath)
    (getLast?_withSlash _) (getLast?_withSlash _) hslash hname
  exact ⟨a, d, hcall, hlists, hsame, e, he, hnames, rfl⟩

theorem timesKept_of_full (hold : WalkRecords old.records) (ht : t.content.WellFormed)
    (h : AllListedInFull env old root t) :
    TimesKept env root t (walkTree env old (rootArgs env root t.node) t.content).records := by
  intro path parent hat name sub hmem hkind r hr hpath hpos
  rw [or_iff_not_imp_left]
  intro hexcluded n hn
  have hslash := ((hat.wellFormed ht).named hmem).2
  obtain ⟨a, d, hcall, hlists, hsame, e, he, rfl, rfl⟩ :=
    exists_call_of_path hold ht hslash hr hpath
  obtain ⟨parent', hat', rfl, hdev⟩ := hcall.directoryAt rfl rfl
  obtain ⟨rfl, rfl⟩ := hat'.unique ht hat hsame
  have hfind := (hat'.wellFormed ht).find_of_mem hmem
  rw [← hdev] at hexcluded
  have hfull := h a _ hcall hlists e he sub hfind hpos (List.ne_nil_of_mem hn) hexcluded
  have hentry := callsEntry_of_opens hlists he hfind hpos hexcluded hfull.opens
  have hpruned : withSlash a.path ++ e.name ∉ env.conf.prunepaths :=
    fun hin => hexcluded (Or.inr (Or.inl hin))
  have hlists' : ListsEntries env old (subdirArgs a sub.node e) := by
    refine ⟨hpruned, hfull.mount, ?_⟩
    rw [or_iff_not_imp_left, Bool.not_eq_true]
    exact hfull.lists
  obtain ⟨e', he', rfl⟩ := storedEntries_of_full env
    ((hat'.wellFormed ht).content hmem) hfull.complete hn
  exact ⟨_, mem_records.mpr ⟨_, _, hcall.entry hentry, hlists', e', he', rfl⟩, rfl⟩

theorem full_of_timesKept (hold : WalkRecords old.records) (ht : t.content.WellFormed)
    (h : TimesKept env root t (walkTree env old (rootArgs env root t.node) t.content).records) :
    AllListedInFull env old root t := by
  intro a d hcall hlists e he sub hfind hpos hne hexcluded
  obtain ⟨parent, hat, rfl, hdev⟩ := hcall.directoryAt rfl rfl
  have hmem := Dir.mem_of_find hfind
  have hkind := (isDir_of_dt_pos he hfind hpos).2
  have hwf := (hat.wellFormed ht).content hmem
  have hr := mem_records.mpr ⟨a, _, hcall, hlists, e, he, rfl⟩
  have hstored := (h a.path parent hat e.name sub hmem hkind _ hr rfl hpos).resolve_left
    (hdev ▸ hexcluded)
  have hcalled {n : Str} (hn : n ∈ sub.content.names) :
      e.opened = true ∧ ListsEntries env old (subdirArgs a sub.node e) ∧
        ∃ e' ∈ storedEntries env old (subdirArgs a sub.node e) sub.content, e'.name = n := by
    obtain ⟨r, hr, hpath⟩ := hstored n hn
    obtain ⟨a', d', hcall', hlists', hsame, e', he', hname, -⟩ :=
      exists_call_of_path hold ht (named_of_mem_names hwf hn).2 hr hpath
    obtain ⟨sub', hentry, rfl, rfl⟩ := hcall.of_entry hold ht he hcall' hsame
    obtain rfl := Option.some.inj (hfind.symm.trans hentry.find)
    exact ⟨hentry.opened, hlists', e', he', hname⟩
  obtain ⟨n, hn⟩ := List.exists_mem_of_ne_nil _ hne
  obtain ⟨hopened, hlists', -⟩ := hcalled hn
  refine ⟨?_, hlists'.mount, fun hnew => hlists'.listed.resolve_left (by simp [hnew]), ?_⟩
  · exact openFails_of_stored he hfind hopened
  · intro hold' n hn
    obtain ⟨-, -, e', he', rfl⟩ := hcalled hn
    obtain ⟨e'', he'', hname⟩ := exists_of_mem_prepared he'
    rw [takenEntries, if_pos hold'] at he''
    obtain ⟨r, hr, hpath, -⟩ := dbModified_entriesOf he''
    exact ⟨r, hr, hname ▸ hpath⟩

/-- The times that a later run finds unchanged are those that have been stored. -/
theorem exists_record_of_listsOld {env : ScanEnv} {old : OldDatabase} {node : Node}
    (h : ScanCall env old (rootArgs env root node) dir a d) (hold : listsOld old a = true) :
    ∃ a₀ d₀ e₀ t₀, ScanCall env old (rootArgs env root node) dir a₀ d₀ ∧
      CallsEntry env old a₀ d₀ e₀ t₀ ∧ a.path = withSlash a₀.path ++ e₀.name ∧
      ∃ r ∈ old.records, r.path = withSlash a₀.path ++ e₀.name ∧ 0 < r.dirTimestamp.sec := by
  obtain ⟨-, hpos, -⟩ := (isUnchanged_iff _ _).mp hold
  rcases h.last with ⟨rfl, -⟩ | ⟨a₀, d₀, e₀, t₀, hcall₀, he₀, rfl, -⟩
  · exact absurd (show 0 < unknownDirTime.sec from hpos) (by decide)
  · obtain ⟨-, -, -, -, e', he', hname, htime⟩ := he₀.spec
    change 0 < e₀.dbModified.sec at hpos
    rw [← htime] at hpos
    obtain ⟨r, hr, hpath, hstored⟩ := dbModified_takenEntries he' hpos
    exact ⟨a₀, d₀, e₀, t₀, hcall₀, he₀, rfl, r, hr, hname ▸ hpath, hstored ▸ hpos⟩

theorem listsWhatIsStored_of_timesKept (hold : WalkRecords old.records)
    (ht : t.content.WellFormed)
    (h : TimesKept env root t (walkTree env old (rootArgs env root t.node) t.content).records) :
    ListsWhatIsStored env root t
      (walkTree env old (rootArgs env root t.node) t.content).records := by
  intro env' t' hconf ht' a d hcall hlists hunchanged
  have hold' := (walkRoot_walkFrom env old hold root t.node ht).reread.toWalkRecords
  obtain ⟨a₀, d₀, e₀, t₀, hcall₀, he₀, hpath, r₀, hr₀, hrpath, hpos⟩ :=
    exists_record_of_listsOld hcall hunchanged
  obtain ⟨r, hr, rfl⟩ := List.mem_map.mp hr₀
  obtain ⟨a₁, d₁, hcall₁, hlists₁, e₁, he₁, rfl⟩ := mem_records.mp hr
  obtain ⟨parent, hat, rfl, hdev⟩ := hcall₁.directoryAt rfl rfl
  obtain ⟨-, sub, hfind, hkind⟩ := exists_dir_of_dt_pos he₁ hpos
  have hmem := Dir.mem_of_find hfind
  have hsame : withSlash a₁.path ++ e₁.name = withSlash a₀.path ++ e₀.name := hrpath
  refine ⟨a₁.path, parent, e₁.name, sub, hat, hmem, hpath.trans hsame.symm, ?_⟩
  rw [hpath, ← hsame]
  rcases h a₁.path parent hat e₁.name sub hmem hkind _ hr rfl hpos with
    (hname | hpruned | hfs) | hall
  · have hslash := ((storedEntries_spec env' hold' a₀ (hcall₀.wellFormed ht')).1 e₀ he₀.stored).2
    have heq := (split_unique hsame (getLast?_withSlash _) (getLast?_withSlash _)
      ((hat.wellFormed ht).named hmem).2 hslash).2
    exact absurd (hconf ▸ heq ▸ hname) he₀.spec.2.1
  · exact absurd (hconf ▸ hpath ▸ hsame ▸ hpruned) hlists.pruned
  · exact Or.inl hfs
  · exact Or.inr hall

/-- A run keeps the times for the next one exactly if it can list every directory in full that it
stores with a time; then the next run lists from the database only what is stored there. -/
theorem timesKept_iff (hconf : PrunepathsPrepared env.conf) (ht : t.content.WellFormed)
    (hold : RootDatabase root old.records) (herror : old.error = false) :
    (TimesKept env root t (scanRoot env root t.node t.content old).corpus ↔
        AllListedInFull env old root t) ∧
      (TimesKept env root t (scanRoot env root t.node t.content old).corpus →
        ListsWhatIsStored env root t (scanRoot env root t.node t.content old).corpus) := by
  rw [corpus_eq_walkTree hconf ht hold herror]
  have hrecords := hold.walkFrom.toWalkRecords
  exact ⟨⟨full_of_timesKept hrecords ht, timesKept_of_full hrecords ht⟩,
    listsWhatIsStored_of_timesKept hrecords ht⟩

def closedTree : Tree :=
  ⟨directoryNodeAt 10, .cons (ascii "a") { directoryNodeAt 20 with openFails := true }
    subdirTree.content .nil⟩

/-- The directory is stored with its time and without its file. -/
theorem not_timesKept_closedTree : ¬TimesKept lateEnv [47] closedTree
    (scanRoot lateEnv [47] closedTree.node closedTree.content {}).corpus := by
  have hconf : PrunepathsPrepared lateEnv.conf := prunepathsPrepared_nil rfl
  have ht : closedTree.content.WellFormed :=
    ⟨⟨by decide, by decide, by decide⟩, by decide, ⟨⟨by decide, by decide, by decide⟩, by decide,
      trivial, trivial⟩, trivial⟩
  rw [(timesKept_iff hconf ht .empty rfl).1]
  intro hall
  let args := rootArgs lateEnv [47] closedTree.node
  have hlists : ListsEntries lateEnv {} args := ⟨by decide, by decide, Or.inr rfl⟩
  have htaken : bareEntry (ascii "a", true) ∈ takenEntries lateEnv {} args closedTree.content := by
    rw [takenEntries, if_neg (by decide)]
    change _ ∈ (mergeOld (sortEntries [bareEntry (ascii "a", true)]) []).1
    rw [mergeOld_nil, sortEntries, List.mergeSort_singleton]
    exact List.mem_singleton_self _
  have hexcluded (dev : ℕ) (path name : Str) (sub : Tree) :
      ¬ExcludedEntry lateEnv dev path name sub := by
    rintro (h | h | ⟨-, h⟩)
    · cases h
    · cases h
    · cases h
  have hfull := hall args closedTree.content (.here _ _) hlists _ (List.mem_map_of_mem htaken) _
    rfl (by decide) (by decide) (hexcluded _ _ _ _)
  exact absurd hfull.opens (by decide)

end Kept

end Flocate
