import Flocate.DirectoryListing

/-!
# The calls of a walk

A walk adds what its calls add, one for each directory that it opens. There is one call at most for
the path of a directory.
-/

namespace Flocate

open Bytes

section Calls

variable (env : ScanEnv) (old : OldDatabase)

def listsOld (args : ScanArgs) : Bool := isUnchanged args { error := old.failsAt args.path }

structure ListsEntries (args : ScanArgs) : Prop where
  pruned : args.path ∉ env.conf.prunepaths
  mount : ¬(env.conf.pruneBindMounts && env.isBindMount args.path) = true
  listed : listsOld old args = true ∨ args.listFails = false

def takenEntries (args : ScanArgs) (dir : Dir) : List Entry :=
  if listsOld old args then entriesOf old.records args.path
  else (mergeOld (sortEntries ((dir.found env).map Found.entry))
    (entriesOf old.records args.path)).1

def comparedEntries (args : ScanArgs) (dir : Dir) : List Entry :=
  if listsOld old args then []
  else (mergeOld (sortEntries ((dir.found env).map Found.entry))
    (entriesOf old.records args.path)).2

def storedEntries (args : ScanArgs) (dir : Dir) : List Entry :=
  preparedEntries env args (dir.found env) (takenEntries env old args dir)

def ownOutput (args : ScanArgs) (dir : Dir) : WalkOutput where
  records := (storedEntries env old args dir).map (Entry.record args)
  events := (takenEntries env old args dir).filterMap (statEvent env args (dir.found env)) ++
    (comparedEntries env old args dir).filterMap (removedEvent env args)

structure CallsEntry (args : ScanArgs) (dir : Dir) (e : Entry) (t : Tree) : Prop where
  lists : ListsEntries env old args
  stored : e ∈ storedEntries env old args dir
  isDirectory : e.isDirectory = true
  opened : e.opened = true
  find : dir.find e.name = some t

inductive ScanCall : ScanArgs → Dir → ScanArgs → Dir → Prop where
  | here (args : ScanArgs) (dir : Dir) : ScanCall args dir args dir
  | inside {args a : ScanArgs} {dir d : Dir} {e : Entry} {t : Tree} :
      CallsEntry env old args dir e t → ScanCall (subdirArgs args t.node e) t.content a d →
      ScanCall args dir a d

end Calls

section Walk

variable {env : ScanEnv} {old : OldDatabase} {args a a' : ScanArgs} {dir d d' : Dir}

theorem walkTree_lists (h : ListsEntries env old args) :
    walkTree env old args dir = walkEntries env args (dir.found env) (dir.visits env old)
      (takenEntries env old args dir) (comparedEntries env old args dir) := by
  rw [walkTree, walkDirectory, if_neg fun hin => h.pruned (List.contains_iff_mem.mp hin),
    if_neg h.mount, takenEntries, comparedEntries, listsOld]
  dsimp only
  by_cases hold : isUnchanged args { error := old.failsAt args.path } = true
  · rw [if_pos hold, if_pos hold, if_pos hold]
  · have hlist : ¬args.listFails = true := by
      rw [h.listed.resolve_left hold]
      exact Bool.false_ne_true
    rw [if_neg hold, if_neg hold, if_neg hold, if_neg hlist]

theorem walkTree_not_lists (h : ¬ListsEntries env old args) : walkTree env old args dir = {} := by
  unfold walkTree walkDirectory
  split
  · rfl
  · rename_i hpruned
    split
    · rfl
    · rename_i hmount
      dsimp only
      split
      · rename_i hold
        exact absurd ⟨fun hin => hpruned (List.contains_iff_mem.mpr hin), hmount, Or.inl hold⟩ h
      · split
        · rfl
        · rename_i hlist
          exact absurd ⟨fun hin => hpruned (List.contains_iff_mem.mpr hin), hmount,
            Or.inr (Bool.not_eq_true _ ▸ hlist)⟩ h

/-- A walk adds what its calls add. -/
theorem mem_walkTree {α : Type} (get : WalkOutput → List α) (hnil : get {} = [])
    (hget : ∀ args dir, get (walkEntries env args (dir.found env) (dir.visits env old)
        (takenEntries env old args dir) (comparedEntries env old args dir)) =
      get (ownOutput env old args dir) ++ (storedEntries env old args dir).flatMap fun e =>
        get (visitEntry args (dir.found env) (dir.visits env old) e))
    (x : α) (dir : Dir) :
    ∀ args, x ∈ get (walkTree env old args dir) ↔ ∃ a d, ScanCall env old args dir a d ∧
      ListsEntries env old a ∧ x ∈ get (ownOutput env old a d) := by
  induction dir using Dir.treeInduction with
  | h dir ih =>
      intro args
      by_cases hlists : ListsEntries env old args
      · rw [walkTree_lists hlists, hget, List.mem_append, List.mem_flatMap]
        constructor
        · rintro (hx | ⟨e, he, hx⟩)
          · exact ⟨args, dir, .here args dir, hlists, hx⟩
          · cases hfind : dir.find e.name with
            | none =>
                rw [visitEntry_none env old hfind, hnil] at hx
                cases hx
            | some t =>
                rw [visitEntry_some env old hfind] at hx
                split at hx
                · rename_i hopened
                  obtain ⟨hdir, hopened⟩ := Bool.and_eq_true_iff.mp hopened
                  obtain ⟨a, d, hcall, hx⟩ := (ih _ (Dir.mem_of_find hfind) _).mp hx
                  exact ⟨a, d, .inside ⟨hlists, he, hdir, hopened, hfind⟩ hcall, hx⟩
                · rw [hnil] at hx
                  cases hx
        · rintro ⟨a, d, hcall, hx⟩
          cases hcall with
          | here => exact Or.inl hx.2
          | @inside _ _ _ _ e t he hcall =>
              refine Or.inr ⟨e, he.stored, ?_⟩
              rw [visitEntry_some env old he.find, he.isDirectory, he.opened, Bool.and_self,
                if_pos rfl]
              exact (ih _ (Dir.mem_of_find he.find) _).mpr ⟨a, d, hcall, hx⟩
      · rw [walkTree_not_lists hlists, hnil]
        constructor
        · intro hx
          cases hx
        · rintro ⟨a, d, hcall, hlists', -⟩
          cases hcall with
          | here => exact absurd hlists' hlists
          | inside he _ => exact absurd he.lists hlists

theorem mem_records {r : FileRecord} : r ∈ (walkTree env old args dir).records ↔
    ∃ a d, ScanCall env old args dir a d ∧ ListsEntries env old a ∧
      ∃ e ∈ storedEntries env old a d, e.record a = r := by
  rw [mem_walkTree WalkOutput.records rfl (fun _ _ => rfl)]
  simp only [ownOutput, List.mem_map]

theorem mem_events {event : HistoryEvent} : event ∈ (walkTree env old args dir).events ↔
    ∃ a d, ScanCall env old args dir a d ∧ ListsEntries env old a ∧
      ((∃ e ∈ takenEntries env old a d, statEvent env a (d.found env) e = some event) ∨
        ∃ o ∈ comparedEntries env old a d, removedEvent env a o = some event) := by
  rw [mem_walkTree WalkOutput.events rfl (fun _ _ => rfl)]
  simp only [ownOutput, List.mem_append, List.mem_filterMap]

end Walk

section Paths

variable {env : ScanEnv} {old : OldDatabase} {args a a' : ScanArgs} {dir d d' : Dir} {e : Entry}
  {t : Tree} {root : Str}

theorem takenEntries_spec (env : ScanEnv) (hold : WalkRecords old.records) (args : ScanArgs)
    (hdir : dir.WellFormed) :
    ((takenEntries env old args dir).Pairwise fun a b => a.name < b.name) ∧
      ∀ e ∈ takenEntries env old args dir, e.name ≠ [] ∧ 47 ∉ e.name := by
  unfold takenEntries
  split
  · exact entriesOf_spec hold args.path
  · refine ⟨pairwise_readdir (map_name_found dir ▸ hdir.nodup) _, fun e he => ?_⟩
    obtain ⟨f, hf, hname⟩ := mem_names_readdir he
    exact hname ▸ hdir.found_named f hf

theorem storedEntries_spec (env : ScanEnv) (hold : WalkRecords old.records) (args : ScanArgs)
    (hdir : dir.WellFormed) :
    (∀ e ∈ storedEntries env old args dir, e.name ≠ [] ∧ 47 ∉ e.name) ∧
      (storedEntries env old args dir).Pairwise fun a b => a.name < b.name := by
  obtain ⟨hentries, hnames⟩ := takenEntries_spec env hold args hdir
  exact prepared_spec env args (dir.found env) hnames hentries

theorem eq_of_name_eq {entries : List Entry} {e e' : Entry}
    (hentries : entries.Pairwise fun a b => a.name < b.name) (he : e ∈ entries)
    (he' : e' ∈ entries) (hname : e.name = e'.name) : e = e' := by
  have hnodup : (entries.map Entry.name).Nodup := by
    rw [List.Nodup, List.pairwise_map]
    apply hentries.imp
    intro a b hlt heq
    exact List.lt_irrefl _ (heq ▸ hlt)
  exact List.inj_on_of_nodup_map hnodup he he' hname

theorem CallsEntry.wellFormed (h : CallsEntry env old args dir e t) (hdir : dir.WellFormed) :
    t.content.WellFormed := hdir.content (Dir.mem_of_find h.find)

theorem ScanCall.wellFormed (h : ScanCall env old args dir a d) (hdir : dir.WellFormed) :
    d.WellFormed := by
  induction h with
  | here => exact hdir
  | inside he _ ih => exact ih (he.wellFormed hdir)

/-- From a call to one for an entry. -/
theorem ScanCall.entry (h : ScanCall env old args dir a d) (he : CallsEntry env old a d e t) :
    ScanCall env old args dir (subdirArgs a t.node e) t.content := by
  induction h with
  | here args dir => exact .inside he (.here _ _)
  | inside hfirst _ ih => exact .inside hfirst (ih he)

/-- Where a call comes from. -/
theorem ScanCall.last (h : ScanCall env old args dir a d) : a = args ∧ d = dir ∨
    ∃ a' d' e t, ScanCall env old args dir a' d' ∧ CallsEntry env old a' d' e t ∧
      a = subdirArgs a' t.node e ∧ d = t.content := by
  induction h with
  | here args dir => exact Or.inl ⟨rfl, rfl⟩
  | @inside args a dir d e t he _ ih =>
      rcases ih with ⟨rfl, rfl⟩ | ⟨a', d', e', t', hcall, he', ha, hd⟩
      · exact Or.inr ⟨args, dir, e, t, .here args dir, he, rfl, rfl⟩
      · exact Or.inr ⟨a', d', e', t', .inside he hcall, he', ha, hd⟩

theorem ScanCall.isPrefix (h : ScanCall env old args dir a d) :
    withSlash args.path <+: withSlash a.path := by
  induction h with
  | here args dir => exact List.prefix_refl _
  | @inside args a dir d e t _ _ ih => exact (withSlash_isPrefix args.path e.name).trans ih

/-- What is called for an entry is not in the directory itself. -/
theorem CallsEntry.path_ne (hold : WalkRecords old.records) (hdir : dir.WellFormed)
    (he : CallsEntry env old args dir e t)
    (h : ScanCall env old (subdirArgs args t.node e) t.content a d) :
    withSlash a.path ≠ withSlash args.path :=
  ne_of_prefix_entry h.isPrefix ((storedEntries_spec env hold args hdir).1 e he.stored)

/-- There is one call at most for a path. -/
theorem ScanCall.unique (hold : WalkRecords old.records) (hdir : dir.WellFormed)
    (h : ScanCall env old args dir a d) (h' : ScanCall env old args dir a' d')
    (hpath : withSlash a.path = withSlash a'.path) : a = a' ∧ d = d' := by
  induction h with
  | here args dir =>
      cases h' with
      | here => exact ⟨rfl, rfl⟩
      | inside he h' => exact absurd hpath.symm (he.path_ne hold hdir h')
  | @inside args a dir d e t he h ih =>
      cases h' with
      | here => exact absurd hpath (he.path_ne hold hdir h)
      | @inside _ _ _ _ e' t' he' h' =>
          obtain ⟨hnames, hentries⟩ := storedEntries_spec env hold args hdir
          have hname : e.name = e'.name := by
            refine entry_eq_of_isPrefix h.isPrefix ?_ (hnames e he.stored) (hnames e' he'.stored)
            rw [hpath]
            exact h'.isPrefix
          obtain rfl := eq_of_name_eq hentries he.stored he'.stored hname
          obtain rfl := Option.some.inj (he.find.symm.trans he'.find)
          exact ih (he.wellFormed hdir) h' hpath

/-- The call for an entry comes from the call for its directory. -/
theorem ScanCall.of_entry (hold : WalkRecords old.records) (hdir : dir.WellFormed)
    (h : ScanCall env old args dir a d) (he : e ∈ storedEntries env old a d)
    (h' : ScanCall env old args dir a' d')
    (hpath : withSlash a'.path = withSlash (withSlash a.path ++ e.name)) :
    ∃ t, CallsEntry env old a d e t ∧ a' = subdirArgs a t.node e ∧ d' = t.content := by
  have hname := (storedEntries_spec env hold a (h.wellFormed hdir)).1 e he
  rcases h'.last with ⟨rfl, rfl⟩ | ⟨a₀, d₀, e₀, t₀, h₀, he₀, rfl, rfl⟩
  · have hwithin := h.isPrefix
    have hself := withSlash_isPrefix a.path e.name
    rw [← hpath] at hself
    have hsame := List.IsPrefix.eq_of_length_le hself hwithin.length_le
    exact absurd hsame.symm (ne_of_prefix_entry (hpath ▸ List.prefix_refl _) hname)
  · obtain ⟨hnames₀, -⟩ := storedEntries_spec env hold a₀ (h₀.wellFormed hdir)
    have hname₀ := hnames₀ e₀ he₀.stored
    change withSlash (withSlash a₀.path ++ e₀.name) = _ at hpath
    rw [withSlash_entry _ hname₀, withSlash_entry _ hname, ← List.append_assoc,
      ← List.append_assoc] at hpath
    obtain ⟨hdirs, heq⟩ := split_unique (List.append_cancel_right hpath) (getLast?_withSlash _)
      (getLast?_withSlash _) hname₀.2 hname.2
    obtain ⟨rfl, rfl⟩ := h₀.unique hold hdir h hdirs
    obtain rfl := eq_of_name_eq (storedEntries_spec env hold a₀ (h₀.wellFormed hdir)).2 he₀.stored
      he heq
    exact ⟨t₀, he₀, rfl, rfl⟩

end Paths

section Trees

variable {env : ScanEnv} {old : OldDatabase} {args a : ScanArgs} {dir d : Dir} {e : Entry}
  {t : Tree} {root : Str}

/-- No entry has been opened yet, and no time is known. -/
theorem takenEntries_fresh (he : e ∈ takenEntries env old args dir) :
    e.opened = false ∧ e.dt = unknownDirTime := by
  unfold takenEntries at he
  split at he
  · obtain ⟨r, -, rfl⟩ := List.mem_map.mp he
    exact ⟨rfl, rfl⟩
  · have hmem := List.mem_map_of_mem (f := Entry.forget) he
    rw [map_forget_mergeOld, List.mem_map] at hmem
    obtain ⟨e', he', heq⟩ := hmem
    rw [sortEntries, List.mem_mergeSort, List.mem_map] at he'
    obtain ⟨f, -, rfl⟩ := he'
    exact ⟨(congrArg Entry.opened heq).symm, (congrArg Entry.dt heq).symm⟩

/-- What is called is a directory of the tree, with its device and its time. -/
theorem CallsEntry.spec (h : CallsEntry env old args dir e t) :
    t.isDir = true ∧ e.name ∉ env.conf.prunenames ∧ e.dev = t.node.dev ∧ e.dt =
        getDirtimeFromStat (env.cache (withSlash args.path ++ e.name) true) t.node.metadata ∧
      ∃ e' ∈ takenEntries env old args dir, e'.name = e.name ∧ e'.dbModified = e.dbModified := by
  obtain ⟨e', he', t', hname, hmodified, hfind, hkind, hprune, hdev, hdt⟩ :=
    opened_of_mem_prepared (fun e he => (takenEntries_fresh he).1) h.stored h.opened
  obtain rfl := Option.some.inj (h.find.symm.trans hfind)
  exact ⟨hkind, hprune, hdev, hdt, e', he', hname, hmodified⟩

/-- A time that an entry has from the old database is there at its path. -/
theorem dbModified_takenEntries (he : e ∈ takenEntries env old args dir)
    (hpos : 0 < e.dbModified.sec) :
    ∃ r ∈ old.records, r.path = withSlash args.path ++ e.name ∧ r.dirTimestamp = e.dbModified := by
  unfold takenEntries at he
  split at he
  · exact dbModified_entriesOf he
  · rcases dbModified_mergeOld he with ⟨e', he', heq⟩ | ⟨o, ho, hname, heq⟩
    · rw [sortEntries, List.mem_mergeSort, List.mem_map] at he'
      obtain ⟨f, -, rfl⟩ := he'
      rw [← heq] at hpos
      exact absurd (show 0 < unknownDirTime.sec from hpos) (by decide)
    · rw [← hname, ← heq]
      exact dbModified_entriesOf ho

/-- A call is for a directory of the tree. -/
theorem ScanCall.directoryAt (h : ScanCall env old args dir a d) (ht : t.content = dir)
    (hdev : args.dev = t.node.dev) :
    ∃ t', DirectoryAt args.path t a.path t' ∧ t'.content = d ∧ a.dev = t'.node.dev := by
  induction h generalizing t with
  | here args dir => exact ⟨t, .here args.path t, ht, hdev⟩
  | @inside args a dir d e sub he _ ih =>
      obtain ⟨hkind, -, hdev', -⟩ := he.spec
      obtain ⟨t', hat, hcontent, hdev''⟩ := ih rfl hdev'
      exact ⟨t', .inside (ht.symm ▸ Dir.mem_of_find he.find) hkind hat, hcontent, hdev''⟩

end Trees

end Flocate
