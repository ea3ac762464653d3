import Flocate.OldRecords

/-!
# The walk of a tree, directory by directory

What a run adds to the database and to the history, with the old records of each directory looked
up by its path. A run reads them from a stream in one pass, and searches the pruned paths in one
pass too; it adds the same.
-/

namespace Flocate

open Bytes

/-- What the call of `scan` for a directory adds. -/
structure WalkOutput where
  records : List FileRecord := []
  events : List HistoryEvent := []

/-- An entry of a directory, with what the call of `scan` for it adds. -/
structure Visit where
  name : Str
  walk : ScanArgs → WalkOutput

/-- The error behind the last record shows when the records of the directory are read. -/
def OldDatabase.failsAt (old : OldDatabase) (path : Str) : Bool :=
  old.broken && !old.records.any fun r => DirLt (withSlash path) r.dir

section Walk

variable (env : ScanEnv) (old : OldDatabase) (args : ScanArgs) (listing : List Found)
  (visits : List Visit)

def subdirArgs (node : Node) (e : Entry) : ScanArgs where
  path := args.pathPlusSlash ++ e.name
  dev := e.dev
  modified := e.dt
  dbModified := e.dbModified
  hashAllowed := e.hashAllowed
  listFails := node.listFails

def visitEntry (e : Entry) : WalkOutput :=
  match lookup listing e.name, visits.find? fun v => v.name = e.name with
  | some f, some v => if e.isDirectory && e.opened then v.walk (subdirArgs args f.node e) else {}
  | _, _ => {}

def preparedEntries (entries : List Entry) : List Entry :=
  entries.map fun e => openEntry env args listing (statEntry env args listing e)

def walkEntries (entries olds : List Entry) : WalkOutput where
  records := (preparedEntries env args listing entries).map (Entry.record args) ++
    (preparedEntries env args listing entries).flatMap fun e =>
      (visitEntry args listing visits e).records
  events := (entries.filterMap (statEvent env args listing) ++
      olds.filterMap (removedEvent env args)) ++
    (preparedEntries env args listing entries).flatMap fun e =>
      (visitEntry args listing visits e).events

def walkDirectory : WalkOutput :=
  if env.conf.prunepaths.contains args.path then {}
  else if env.conf.pruneBindMounts && env.isBindMount args.path then {}
  else
    let olds := entriesOf old.records args.path
    if isUnchanged args { error := old.failsAt args.path } then
      walkEntries env args listing visits olds []
    else if args.listFails then {}
    else
      let (entries, olds) := mergeOld (sortEntries (listing.map Found.entry)) olds
      walkEntries env args listing visits entries olds

theorem walkDirectory_pruned (h : args.path ∈ env.conf.prunepaths) :
    walkDirectory env old args listing visits = {} := by
  rw [walkDirectory, if_pos (List.contains_iff_mem.mpr h)]

end Walk

def Dir.visits (env : ScanEnv) (old : OldDatabase) : Dir → List Visit
  | nil => []
  | cons name _ content rest =>
      ⟨name, fun args => walkDirectory env old args (content.found env) (content.visits env old)⟩ ::
        rest.visits env old

def rootArgs (env : ScanEnv) (root : Str) (node : Node) : ScanArgs where
  path := root
  dev := node.dev
  modified := getDirtimeFromStat (env.cache root true) node.metadata
  dbModified := unknownDirTime
  hashAllowed := env.conf.metadataHashKind = .none || env.hashAllowedOnFs root
  listFails := node.listFails

def walkRoot (env : ScanEnv) (root : Str) (node : Node) (content : Dir) (old : OldDatabase) :
    WalkOutput :=
  walkDirectory env old (rootArgs env root node) (content.found env) (content.visits env old)

section Refinement

variable {env : ScanEnv} {old : OldDatabase} {args : ScanArgs} {listing : List Found}
  {visits : List Visit} {left left' : FileRecord → Bool} {dir p : Str} {s s' s'' : ScanState}

/-- A path that does not come behind a directory and everything below it. -/
def NotBehind (dir p : Str) : Prop := ∃ q, Below dir q ∧ ¬DirLt q p

structure Remains (old : OldDatabase) (left : FileRecord → Bool) (existing : OldDatabase) :
    Prop where
  records : existing.records = old.records.filter left
  broken : existing.broken = old.broken
  error : existing.error = true → old.broken = true ∧ ∀ r ∈ old.records, left r = false

/-- The walk comes to a directory with these old records left: what has been passed comes before the
directory, and what is to be skipped comes before it in the order of the paths too. -/
structure InStep (env : ScanEnv) (old : OldDatabase) (left : FileRecord → Bool) (dir : Str)
    (s : ScanState) : Prop where
  existing : Remains old left s.existing
  passed : ∀ r ∈ old.records, left r = false → DirLt r.dir (withSlash dir)
  skipped : ∀ r ∈ old.records, left r = true → DirLt r.dir (withSlash dir) → DirLt r.path dir
  pruned : ∀ x ∈ env.conf.prunepaths.take s.prunepathsIndex, DirLt x dir

/-- The walk has gone through a directory and has added this, and has passed nothing behind it. -/
structure Advanced (env : ScanEnv) (old : OldDatabase) (left left' : FileRecord → Bool)
    (dir : Str) (s s' : ScanState) (output : WalkOutput) : Prop where
  existing : Remains old left' s'.existing
  remaining : ∀ r ∈ old.records, left' r = true → left r = true
  passed : ∀ r ∈ old.records, left' r = false → left r = false ∨ NotBehind dir r.dir
  pruned : ∀ x ∈ env.conf.prunepaths.take s'.prunepathsIndex,
    x ∈ env.conf.prunepaths.take s.prunepathsIndex ∨ NotBehind dir x
  corpus : s'.corpus = s.corpus ++ output.records
  history : s'.history =
    if env.recordHistory then s.history ++ output.events else s.history

/-- The call of `scan` for an entry adds what the walk says. -/
structure Found.Follows (env : ScanEnv) (old : OldDatabase) (f : Found) (v : Visit) :
    Prop where
  name : f.name ≠ [] ∧ 47 ∉ f.name
  scan : ∀ args s left, args.path.getLast? ≠ some 47 → InStep env old left args.path s →
    ∃ left', Advanced env old left left' args.path s (f.scan args s) (v.walk args)

theorem NotBehind.trans_entry {a : Str} (h : NotBehind (withSlash dir ++ a) p) (ha : 47 ∉ a)
    (hne : a ≠ []) : NotBehind dir p := by
  obtain ⟨q, hbelow, hq⟩ := h
  exact ⟨q, hbelow.trans_entry ha hne, hq⟩

/-- What is not behind an entry comes before the entries behind that. -/
theorem NotBehind.dirLt {a b : Str} (h : NotBehind (withSlash dir ++ a) p) (ha : 47 ∉ a)
    (hne : a ≠ []) (hb : 47 ∉ b) (hlt : a < b) : DirLt p (withSlash dir ++ b) := by
  obtain ⟨q, hbelow, hq⟩ := h
  exact DirLt.trans_not hq (dirLt_of_below hbelow ha hne hb hlt)

theorem Advanced.refl (hs : Remains old left s.existing) :
    Advanced env old left left dir s s {} := by
  refine ⟨hs, fun r _ h => h, fun r _ h => Or.inl h, fun x hx => Or.inl hx, ?_, ?_⟩
  · exact (List.append_nil _).symm
  · split
    · exact (List.append_nil _).symm
    · rfl

theorem Advanced.trans {left'' : FileRecord → Bool} {w w' : WalkOutput}
    (h : Advanced env old left left' dir s s' w)
    (h' : Advanced env old left' left'' dir s' s'' w') :
    Advanced env old left left'' dir s s''
      ⟨w.records ++ w'.records, w.events ++ w'.events⟩ := by
  refine ⟨h'.existing, fun r hr hleft => h.remaining r hr (h'.remaining r hr hleft),
    fun r hr hleft => ?_, fun x hx => ?_, ?_, ?_⟩
  · rcases h'.passed r hr hleft with hleft | hbehind
    · exact h.passed r hr hleft
    · exact Or.inr hbehind
  · rcases h'.pruned x hx with hx | hbehind
    · exact h.pruned x hx
    · exact Or.inr hbehind
  · rw [h'.corpus, h.corpus, List.append_assoc]
  · rw [h'.history, h.history]
    split
    · exact List.append_assoc _ _ _
    · rfl

theorem Advanced.widen {a : Str} {w : WalkOutput}
    (h : Advanced env old left left' (withSlash dir ++ a) s s' w) (ha : 47 ∉ a) (hne : a ≠ []) :
    Advanced env old left left' dir s s' w :=
  ⟨h.existing, h.remaining,
    fun r hr hleft => (h.passed r hr hleft).imp_right (·.trans_entry ha hne),
    fun x hx => (h.pruned x hx).imp_right (·.trans_entry ha hne), h.corpus, h.history⟩

/-- What `scan` knows when it has read the old records of a directory and goes on to its entries. -/
structure AtEntries (env : ScanEnv) (old : OldDatabase) (left : FileRecord → Bool) (dir : Str)
    (entries : List Entry) (s : ScanState) : Prop where
  existing : Remains old left s.existing
  remaining : ∀ r ∈ old.records, left r = true → DirLt (withSlash dir) r.dir
  passed : ∀ e ∈ entries, ∀ r ∈ old.records, left r = false → DirLt r.dir (withSlash dir ++ e.name)
  pruned : ∀ e ∈ entries, ∀ x ∈ env.conf.prunepaths.take s.prunepathsIndex,
    DirLt x (withSlash dir ++ e.name)

theorem AtEntries.inStep (hold : WalkRecords old.records) {e : Entry} {entries : List Entry}
    (h : AtEntries env old left dir entries s) (he : e ∈ entries)
    (hname : e.name ≠ [] ∧ 47 ∉ e.name) : InStep env old left (withSlash dir ++ e.name) s := by
  refine ⟨h.existing, fun r hr hleft => ?_, fun r hr hleft hlt => ?_, h.pruned e he⟩
  · exact DirLt.not_trans (h.passed e he r hr hleft) (not_dirLt_withSlash _)
  · exact dirLt_entry (hold.slash r hr) hname.2 hname.1 (h.remaining r hr hleft) hlt

/-- After the call for an entry the walk is at the entries behind it. -/
theorem AtEntries.advance {e : Entry} {entries : List Entry} {w : WalkOutput}
    (h : AtEntries env old left dir (e :: entries) s) (hname : e.name ≠ [] ∧ 47 ∉ e.name)
    (hnames : ∀ e' ∈ entries, 47 ∉ e'.name) (hlt : ∀ e' ∈ entries, e.name < e'.name)
    (hgone : Advanced env old left left' (withSlash dir ++ e.name) s s' w) :
    AtEntries env old left' dir entries s' := by
  refine ⟨hgone.existing, fun r hr hleft => h.remaining r hr (hgone.remaining r hr hleft),
    fun e' he' r hr hleft => ?_, fun e' he' x hx => ?_⟩
  · rcases hgone.passed r hr hleft with hleft | hbehind
    · exact h.passed e' (List.mem_cons_of_mem _ he') r hr hleft
    · exact hbehind.dirLt hname.2 hname.1 (hnames e' he') (hlt e' he')
  · rcases hgone.pruned x hx with hx | hbehind
    · exact h.pruned e' (List.mem_cons_of_mem _ he') x hx
    · exact hbehind.dirLt hname.2 hname.1 (hnames e' he') (hlt e' he')

def Matched (env : ScanEnv) (old : OldDatabase) (listing : List Found) (visits : List Visit) :
    Prop :=
  List.Forall₂ (fun f v => f.name = v.name ∧ f.Follows env old v) listing visits

theorem Matched.lookup (h : Matched env old listing visits) (name : Str) :
    lookup listing name = none ∧ (visits.find? fun v => v.name = name) = none ∨
      ∃ f v, lookup listing name = some f ∧ (visits.find? fun v => v.name = name) = some v ∧
        f.Follows env old v := by
  induction h with
  | nil => exact Or.inl ⟨rfl, rfl⟩
  | @cons f v listing visits hfirst _ ih =>
      unfold Flocate.lookup at ih ⊢
      by_cases heq : f.name = name
      · rw [List.find?_cons_of_pos (by exact decide_eq_true heq),
          List.find?_cons_of_pos (by exact decide_eq_true (hfirst.1 ▸ heq))]
        exact Or.inr ⟨f, v, rfl, rfl, hfirst.2⟩
      · rw [List.find?_cons_of_neg (by simpa using heq),
          List.find?_cons_of_neg (by simpa [← hfirst.1] using heq)]
        exact ih

theorem Matched.named (h : Matched env old listing visits) :
    ∀ f ∈ listing, f.name ≠ [] ∧ 47 ∉ f.name := by
  induction h with
  | nil => exact List.forall_mem_nil _
  | cons hfirst _ ih =>
      rw [List.forall_mem_cons]
      exact ⟨hfirst.2.name, ih⟩

/-- The call for one entry. -/
theorem scanEntry_follows (hold : WalkRecords old.records)
    (hmatched : Matched env old listing visits) {e : Entry} {entries : List Entry}
    (he : e ∈ entries) (hname : e.name ≠ [] ∧ 47 ∉ e.name)
    (hs : AtEntries env old left args.path entries s) :
    ∃ left', Advanced env old left left' (withSlash args.path ++ e.name) s
      (scanEntry args listing s e) (visitEntry args listing visits e) := by
  unfold scanEntry visitEntry
  rcases hmatched.lookup e.name with ⟨hnone, hnone'⟩ | ⟨f, v, hf, hv, hfollows⟩
  · rw [hnone, hnone']
    exact ⟨left, Advanced.refl hs.existing⟩
  · rw [hf, hv]
    dsimp only
    split
    · have hlast : (withSlash args.path ++ e.name).getLast? ≠ some 47 := by
        rw [List.getLast?_append_of_ne_nil _ hname.1]
        exact fun hlast => hname.2 (List.mem_of_getLast? hlast)
      exact hfollows.scan (subdirArgs args f.node e) s left hlast (hs.inStep hold he hname)
    · exact ⟨left, Advanced.refl hs.existing⟩

theorem foldl_scanEntry_follows (hold : WalkRecords old.records)
    (hmatched : Matched env old listing visits) (entries : List Entry)
    (hnames : ∀ e ∈ entries, e.name ≠ [] ∧ 47 ∉ e.name)
    (hentries : entries.Pairwise fun a b => a.name < b.name)
    (hs : AtEntries env old left args.path entries s) :
    ∃ left', Advanced env old left left' args.path s (entries.foldl (scanEntry args listing) s)
      ⟨entries.flatMap fun e => (visitEntry args listing visits e).records,
        entries.flatMap fun e => (visitEntry args listing visits e).events⟩ := by
  induction entries generalizing s left with
  | nil => exact ⟨left, Advanced.refl hs.existing⟩
  | cons e entries ih =>
      rw [List.pairwise_cons] at hentries
      rw [List.forall_mem_cons] at hnames
      obtain ⟨left₁, hgone⟩ := scanEntry_follows hold hmatched List.mem_cons_self hnames.1 hs
      obtain ⟨left₂, hrest⟩ := ih hnames.2 hentries.2
        (hs.advance hnames.1 (fun e' he' => (hnames.2 e' he').2) hentries.1 hgone)
      exact ⟨left₂, (hgone.widen hnames.1.2 hnames.1.1).trans hrest⟩

theorem name_preparedEntries (entries : List Entry) :
    (preparedEntries env args listing entries).map Entry.name = entries.map Entry.name := by
  rw [preparedEntries, List.map_map]
  exact List.map_congr_left fun e _ => name_openEntry.trans name_statEntry

theorem exists_of_mem_prepared {entries : List Entry} {e : Entry}
    (he : e ∈ preparedEntries env args listing entries) : ∃ e' ∈ entries, e'.name = e.name := by
  have hmem := List.mem_map_of_mem (f := Entry.name) he
  rw [name_preparedEntries] at hmem
  exact List.mem_map.mp hmem

theorem prepared_spec (env : ScanEnv) (args : ScanArgs) (listing : List Found)
    {entries : List Entry} (hnames : ∀ e ∈ entries, e.name ≠ [] ∧ 47 ∉ e.name)
    (hentries : entries.Pairwise fun a b => a.name < b.name) :
    (∀ e ∈ preparedEntries env args listing entries, e.name ≠ [] ∧ 47 ∉ e.name) ∧
      (preparedEntries env args listing entries).Pairwise fun a b => a.name < b.name := by
  constructor
  · intro e he
    obtain ⟨e', he', hname⟩ := exists_of_mem_prepared he
    exact hname ▸ hnames e' he'
  · rw [← List.pairwise_map (f := Entry.name) (R := (· < ·)), name_preparedEntries,
      List.pairwise_map]
    exact hentries

theorem scanEntries_follows (hold : WalkRecords old.records)
    (hmatched : Matched env old listing visits) {entries : List Entry}
    (hnames : ∀ e ∈ entries, e.name ≠ [] ∧ 47 ∉ e.name)
    (hentries : entries.Pairwise fun a b => a.name < b.name)
    (hs : AtEntries env old left args.path entries s) (olds : List Entry) :
    ∃ left', Advanced env old left left' args.path s (scanEntries env args listing entries olds s)
      (walkEntries env args listing visits entries olds) := by
  let events := entries.filterMap (statEvent env args listing) ++
    olds.filterMap (removedEvent env args)
  let s₁ : ScanState := { s with
    corpus := s.corpus ++ (preparedEntries env args listing entries).map (Entry.record args)
    history := if env.recordHistory then s.history ++ events else s.history }
  have hadded : Advanced env old left left args.path s s₁
      ⟨(preparedEntries env args listing entries).map (Entry.record args), events⟩ :=
    ⟨hs.existing, fun _ _ h => h, fun _ _ h => Or.inl h, fun _ hx => Or.inl hx, rfl, rfl⟩
  have hs₁ : AtEntries env old left args.path (preparedEntries env args listing entries) s₁ := by
    refine ⟨hs.existing, hs.remaining, fun e he => ?_, fun e he => ?_⟩
    · obtain ⟨e', he', hname⟩ := exists_of_mem_prepared he
      exact hname ▸ hs.passed e' he'
    · obtain ⟨e', he', hname⟩ := exists_of_mem_prepared he
      exact hname ▸ hs.pruned e' he'
  obtain ⟨hnames', hentries'⟩ := prepared_spec env args listing hnames hentries
  obtain ⟨left', hgone⟩ := foldl_scanEntry_follows hold hmatched _ hnames' hentries' hs₁
  exact ⟨left', hadded.trans hgone⟩

/-- The old entries of a directory are in the order of their names. -/
theorem entriesOf_spec (hold : WalkRecords old.records) (dir : Str) :
    ((entriesOf old.records dir).Pairwise fun a b => a.name < b.name) ∧
      ∀ e ∈ entriesOf old.records dir, e.name ≠ [] ∧ 47 ∉ e.name := by
  constructor
  · rw [entriesOf, List.pairwise_map]
    refine (hold.order.sublist List.filter_sublist).imp_of_mem fun {a b} ha hb hlt => ?_
    have hadir := of_decide_eq_true (List.mem_filter.mp ha).2
    have hbdir := of_decide_eq_true (List.mem_filter.mp hb).2
    rcases hlt with hlt | ⟨-, hlt⟩
    · rw [hadir, hbdir] at hlt
      exact absurd hlt (DirLt.irrefl _)
    · exact hlt
  · intro e he
    obtain ⟨r, hr, rfl⟩ := List.mem_map.mp he
    exact ⟨hold.named r (List.mem_of_mem_filter hr), slash_notMem_namePart r.path⟩

/-- What has been passed is not in the directory. -/
theorem InStep.entriesOf (hs : InStep env old left dir s) :
    entriesOf (old.records.filter left) dir = Flocate.entriesOf old.records dir := by
  rw [Flocate.entriesOf, Flocate.entriesOf, List.filter_filter]
  refine congrArg _ (List.filter_congr fun r hr => ?_)
  cases hleft : left r with
  | true => exact Bool.and_true _
  | false =>
      have hne : r.dir ≠ withSlash dir := by
        intro heq
        exact DirLt.irrefl _ (heq ▸ hs.passed r hr hleft)
      rw [Bool.and_false, decide_eq_false hne]

theorem failsAt_iff (old : OldDatabase) (path : Str) : old.failsAt path = true ↔
    old.broken = true ∧ ∀ r ∈ old.records, ¬DirLt (withSlash path) r.dir := by
  rw [OldDatabase.failsAt, Bool.and_eq_true, Bool.not_eq_true', List.any_eq_false]
  simp only [decide_eq_true_eq]

/-- The error shows as soon as nothing is left. -/
theorem InStep.error (hs : InStep env old left dir s) :
    (s.existing.error || (old.broken && (old.records.filter
      fun r => DirLt (withSlash dir) r.dir && left r).isEmpty)) = old.failsAt dir := by
  rw [Bool.eq_iff_iff, Bool.or_eq_true, Bool.and_eq_true, failsAt_iff, List.isEmpty_iff,
    List.filter_eq_nil_iff]
  have hbehind : ∀ r ∈ old.records, left r = false → ¬DirLt (withSlash dir) r.dir :=
    fun r hr hleft => (hs.passed r hr hleft).asymm
  constructor
  · rintro (herror | ⟨hbroken, hnone⟩)
    · obtain ⟨hbroken, hnone⟩ := hs.existing.error herror
      exact ⟨hbroken, fun r hr => hbehind r hr (hnone r hr)⟩
    · refine ⟨hbroken, fun r hr hlt => ?_⟩
      cases hleft : left r with
      | false => exact hbehind r hr hleft hlt
      | true =>
          refine hnone r hr ?_
          rw [hleft, Bool.and_true]
          exact decide_eq_true hlt
  · rintro ⟨hbroken, hnone⟩
    refine Or.inr ⟨hbroken, fun r hr hlt => ?_⟩
    exact hnone r hr (of_decide_eq_true (Bool.and_eq_true_iff.mp hlt).1)

def OldDatabase.behind (old : OldDatabase) (left : FileRecord → Bool) (path : Str) :
    OldDatabase where
  records := old.records.filter fun r => DirLt (withSlash path) r.dir && left r
  broken := old.broken
  error := old.failsAt path

theorem remains_behind (old : OldDatabase) (left : FileRecord → Bool) (path : Str) :
    Remains old (fun r => DirLt (withSlash path) r.dir && left r) (old.behind left path) := by
  refine ⟨rfl, rfl, fun herror => ?_⟩
  obtain ⟨hbroken, hnone⟩ := (failsAt_iff old path).mp herror
  refine ⟨hbroken, fun r hr => ?_⟩
  rw [decide_eq_false (hnone r hr), Bool.false_and]

theorem InStep.readDirectory (hold : WalkRecords old.records)
    (hs : InStep env old left args.path s) :
    (s.existing.skipBefore args.path).readDirectory args.pathPlusSlash =
      (Flocate.entriesOf old.records args.path, old.behind left args.path) := by
  have hrecords := hs.existing.records
  have hread := readDirectory_eq s.existing args.path
    (hrecords ▸ hold.order.sublist (List.filter_sublist (p := left)))
    (hrecords ▸ fun r hr => hold.slash r (List.mem_of_mem_filter hr))
    (hrecords ▸ fun r hr => hs.skipped r (List.mem_of_mem_filter hr) (List.of_mem_filter hr))
  rw [hrecords, List.filter_filter, hs.entriesOf, hs.existing.broken, hs.error] at hread
  exact hread

/-- The pruned paths are searched from where the walk is. -/
theorem InStep.prunepaths (hsorted : DirSorted env.conf.prunepaths)
    (hs : InStep env old left dir s) :
    ((stringListContainsDirPath env.conf.prunepaths s.prunepathsIndex dir).1 = true ↔
        dir ∈ env.conf.prunepaths) ∧
      ∀ x ∈ env.conf.prunepaths.take
        (stringListContainsDirPath env.conf.prunepaths s.prunepathsIndex dir).2, ¬DirLt dir x :=
  containsDirPath_iff hsorted hs.pruned

/-- What the read of a directory leaves, and what it leaves it for. -/
theorem advanced_read (env : ScanEnv) (old : OldDatabase) (left : FileRecord → Bool)
    (s : ScanState) (checked : List (Str × Bool)) {index : ℕ}
    (hpruned : ∀ x ∈ env.conf.prunepaths.take index, ¬DirLt dir x) :
    Advanced env old left (fun r => DirLt (withSlash dir) r.dir && left r) dir s { s with
        prunepathsIndex := index
        checked := checked
        existing := old.behind left dir }
      {} := by
  refine ⟨remains_behind old left dir, fun r _ h => ?_, fun r _ h => ?_, fun x hx => ?_,
    (List.append_nil _).symm, ?_⟩
  · rw [Bool.and_eq_true] at h
    exact h.2
  · rw [Bool.and_eq_false_iff, decide_eq_false_iff_not] at h
    rcases h with h | h
    · refine Or.inr ⟨withSlash dir ++ [47], Or.inr ⟨[47], rfl, List.cons_ne_nil _ _⟩, fun hlt => ?_⟩
      exact h ((dirLt_append _ (List.cons_ne_nil 47 [])).trans hlt)
    · exact Or.inl h
  · exact Or.inr ⟨dir, Or.inl rfl, hpruned x hx⟩
  · split
    · exact (List.append_nil _).symm
    · rfl

theorem InStep.atEntries (hs : InStep env old left dir s) {index : ℕ}
    {checked : List (Str × Bool)}
    (hpruned : ∀ x ∈ env.conf.prunepaths.take index, ¬DirLt dir x) {entries : List Entry}
    (hnames : ∀ e ∈ entries, e.name ≠ []) :
    AtEntries env old (fun r => DirLt (withSlash dir) r.dir && left r) dir entries { s with
      prunepathsIndex := index
      checked := checked
      existing := old.behind left dir } := by
  refine ⟨remains_behind old left dir, fun r _ h => ?_, fun e he r hr h => ?_, fun e he x hx => ?_⟩
  · rw [Bool.and_eq_true, decide_eq_true_eq] at h
    exact h.1
  · rw [Bool.and_eq_false_iff, decide_eq_false_iff_not] at h
    have hlt := dirLt_append (withSlash dir) (hnames e he)
    rcases h with h | h
    · exact DirLt.trans_not h hlt
    · exact (hs.passed r hr h).trans hlt
  · exact DirLt.trans_not (hpruned x hx) (dirLt_withSlash_append dir (hnames e he))

/-- `scan` of one directory adds what the walk says, if the calls for its entries do. -/
theorem scanDirectory_follows (args : ScanArgs) (hsorted : DirSorted env.conf.prunepaths)
    (hold : WalkRecords old.records) (hmatched : Matched env old listing visits)
    (hnodup : (listing.map Found.name).Nodup) (hs : InStep env old left args.path s) :
    ∃ left', Advanced env old left left' args.path s (scanDirectory env args listing s)
      (walkDirectory env old args listing visits) := by
  obtain ⟨hanswer, hpruned⟩ := hs.prunepaths hsorted
  have hread := hs.readDirectory hold
  unfold scanDirectory walkDirectory
  generalize stringListContainsDirPath env.conf.prunepaths s.prunepathsIndex args.path = r
    at hanswer hpruned ⊢
  obtain ⟨pruned, index⟩ := r
  dsimp only at hanswer hpruned ⊢
  rw [hread]
  have hstay : Advanced env old left left args.path s { s with
      prunepathsIndex := index
      checked := s.checked ++ [(args.path, pruned)] } {} := by
    refine ⟨hs.existing, fun _ _ h => h, fun _ _ h => Or.inl h, fun x hx => ?_,
      (List.append_nil _).symm, ?_⟩
    · exact Or.inr ⟨args.path, Or.inl rfl, hpruned x hx⟩
    · split
      · exact (List.append_nil _).symm
      · rfl
  have hgone := advanced_read env old left s (s.checked ++ [(args.path, pruned)]) hpruned
  by_cases hin : args.path ∈ env.conf.prunepaths
  · rw [if_pos (hanswer.mpr hin), if_pos (List.contains_iff_mem.mpr hin)]
    exact ⟨left, hstay⟩
  · rw [if_neg fun h => hin (hanswer.mp h), if_neg fun h => hin (List.contains_iff_mem.mp h)]
    split
    · exact ⟨left, hstay⟩
    · dsimp only
      change ∃ left', Advanced env old left left' args.path s
        (if isUnchanged args { error := old.failsAt args.path } = true then _ else _) _
      split
      · obtain ⟨hentries, hnames⟩ := entriesOf_spec hold args.path
        obtain ⟨left', hrest⟩ := scanEntries_follows hold hmatched hnames hentries
          (hs.atEntries hpruned fun e he => (hnames e he).1) []
        exact ⟨left', hgone.trans hrest⟩
      · split
        · exact ⟨_, hgone⟩
        · have hnames : ∀ e ∈ (mergeOld (sortEntries (listing.map Found.entry))
              (Flocate.entriesOf old.records args.path)).1, e.name ≠ [] ∧ 47 ∉ e.name := by
            intro e he
            obtain ⟨f, hf, hname⟩ := mem_names_readdir he
            exact hname ▸ hmatched.named f hf
          obtain ⟨left', hrest⟩ := scanEntries_follows hold hmatched hnames
            (pairwise_readdir hnodup _) (hs.atEntries hpruned fun e he => (hnames e he).1)
            (mergeOld (sortEntries (listing.map Found.entry))
              (Flocate.entriesOf old.records args.path)).2
          exact ⟨left', hgone.trans hrest⟩

theorem found_matched (hsorted : DirSorted env.conf.prunepaths) (hold : WalkRecords old.records)
    {content : Dir} (h : content.WellFormed) :
    Matched env old (content.found env) (content.visits env old) := by
  induction content with
  | nil => exact List.Forall₂.nil
  | cons name node content rest ihContent ihRest =>
      obtain ⟨⟨hne, hslash, -⟩, -, hcontent, hrest⟩ := h
      rw [Dir.found, Dir.visits]
      refine List.Forall₂.cons ⟨rfl, ⟨hne, hslash⟩, fun args s left _ hs => ?_⟩ (ihRest hrest)
      exact scanDirectory_follows args hsorted hold (ihContent hcontent)
        (map_name_found content ▸ hcontent.nodup) hs

def FromRoot (root : Str) (records : List FileRecord) : Prop :=
  ∀ r ∈ records, withSlash root <+: r.dir

/-- A run adds what the walk says. -/
theorem scanRoot_eq_walkRoot (old : OldDatabase) (hsorted : DirSorted env.conf.prunepaths)
    (hold : WalkRecords old.records) (herror : old.error = false) (root : Str)
    (hroot : FromRoot root old.records) (node : Node) {content : Dir}
    (h : content.WellFormed) :
    (scanRoot env root node content old).corpus =
        (walkRoot env root node content old).records ∧
      (scanRoot env root node content old).history =
        if env.recordHistory then (walkRoot env root node content old).events else [] := by
  have hstart : InStep env old (fun _ => true) root { existing := old } := by
    refine ⟨⟨?_, rfl, fun h => absurd (herror.symm.trans h) (by decide)⟩,
      fun _ _ h => absurd h (by decide), fun r hr _ hlt => ?_, ?_⟩
    · rw [List.filter_eq_self.mpr fun _ _ => rfl]
    · exact absurd hlt (not_dirLt_of_isPrefix (hroot r hr))
    · exact List.forall_mem_nil _
  obtain ⟨left', hgone⟩ := scanDirectory_follows (rootArgs env root node) hsorted hold
    (found_matched hsorted hold h) (map_name_found content ▸ h.nodup) hstart
  exact ⟨hgone.corpus, hgone.history⟩

end Refinement

section Order

variable {env : ScanEnv} {old : OldDatabase} {args : ScanArgs} {listing : List Found}
  {visits : List Visit} {dir : Str}

structure WalkFrom (dir : Str) (records : List FileRecord) : Prop extends WalkRecords records where
  below : FromRoot dir records

theorem WalkFrom.nil (dir : Str) : WalkFrom dir [] :=
  ⟨walkRecords_nil, List.forall_mem_nil _⟩

theorem withSlash_entry (dir : Str) {name : Str} (hname : name ≠ [] ∧ 47 ∉ name) :
    withSlash (withSlash dir ++ name) = withSlash dir ++ (name ++ [47]) := by
  have hlast : (withSlash dir ++ name).getLast? ≠ some 47 := by
    rw [List.getLast?_append_of_ne_nil _ hname.1]
    exact fun hlast => hname.2 (List.mem_of_getLast? hlast)
  rw [withSlash, if_neg hlast, List.append_assoc]

/-- The path of an entry is found in what begins with it. -/
theorem entry_eq_of_isPrefix {d a b q : Str} (ha : withSlash (withSlash d ++ a) <+: q)
    (hb : withSlash (withSlash d ++ b) <+: q) (ha' : a ≠ [] ∧ 47 ∉ a) (hb' : b ≠ [] ∧ 47 ∉ b) :
    a = b := by
  rw [withSlash_entry d ha'] at ha
  rw [withSlash_entry d hb'] at hb
  obtain ⟨u, hu⟩ := ha
  obtain ⟨v, hv⟩ := hb
  have hsame := hu.trans hv.symm
  simp only [List.append_assoc] at hsame
  have htail := List.append_cancel_left hsame
  have hkey {a b u v : Str} (ha : 47 ∉ a) (h : a ++ ([47] ++ u) = b ++ ([47] ++ v)) :
      ∃ t, a ++ t = b := by
    rcases List.append_eq_append_iff.mp h with ⟨t, ht, -⟩ | ⟨t, ht, h'⟩
    · exact ⟨t, ht.symm⟩
    · cases t with
      | nil => exact ⟨[], by rw [List.append_nil, ht, List.append_nil]⟩
      | cons c t =>
          obtain rfl := (List.cons.inj h').1
          exact absurd (ht ▸ List.mem_append_right _ List.mem_cons_self) ha
  obtain ⟨x, hx⟩ := hkey ha'.2 htail
  obtain ⟨y, hy⟩ := hkey hb'.2 htail.symm
  rw [← hx, List.append_assoc] at hy
  have hnil := List.append_eq_nil_iff.mp (List.append_right_eq_self.mp hy)
  rw [← hx, hnil.1, List.append_nil]

/-- What is in an entry is not in the directory itself. -/
theorem ne_of_prefix_entry {d a q : Str} (h : withSlash (withSlash d ++ a) <+: q)
    (ha : a ≠ [] ∧ 47 ∉ a) : q ≠ withSlash d := by
  rintro rfl
  rw [withSlash_entry d ha] at h
  have hle := h.length_le
  rw [List.length_append, List.length_append, List.length_singleton] at hle
  omega

/-- What is in an entry comes before the entries behind it. -/
theorem dirLt_of_prefix_entry {a b p : Str} (hp : withSlash (withSlash dir ++ a) <+: p)
    (ha : a ≠ [] ∧ 47 ∉ a) (hb : 47 ∉ b) (hlt : a < b) : DirLt p (withSlash dir ++ b) := by
  obtain ⟨t, rfl⟩ := hp
  rw [withSlash_entry dir ha, List.append_assoc, List.append_assoc]
  exact (dirLt_append_left _).mpr (dirLt_of_name_lt hlt ha.2 hb _ (Or.inr rfl))

theorem dir_record (args : ScanArgs) {e : Entry} (h : 47 ∉ e.name) :
    (e.record args).dir = withSlash args.path :=
  dirPart_append (getLast?_withSlash args.path) h

theorem name_record (args : ScanArgs) {e : Entry} (h : 47 ∉ e.name) :
    (e.record args).name = e.name :=
  namePart_append (getLast?_withSlash args.path) h

/-- The records of the entries of a directory. -/
theorem walkFrom_entries (args : ScanArgs) {entries : List Entry}
    (hnames : ∀ e ∈ entries, e.name ≠ [] ∧ 47 ∉ e.name)
    (hentries : entries.Pairwise fun a b => a.name < b.name) :
    WalkFrom args.path (entries.map (Entry.record args)) := by
  have hall : ∀ r ∈ entries.map (Entry.record args),
      r.dir = withSlash args.path ∧ 47 ∈ r.path ∧ r.name ≠ [] := by
    intro r hr
    obtain ⟨e, he, rfl⟩ := List.mem_map.mp hr
    have hslash := List.mem_of_getLast? (getLast?_withSlash args.path)
    exact ⟨dir_record args (hnames e he).2, List.mem_append_left _ hslash,
      name_record args (hnames e he).2 ▸ (hnames e he).1⟩
  refine ⟨⟨?_, fun r hr => (hall r hr).2.1, fun r hr => (hall r hr).2.2⟩,
    fun r hr => (hall r hr).1 ▸ List.prefix_refl _⟩
  rw [InWalkOrder, List.pairwise_map]
  refine hentries.imp_of_mem fun {a b} ha hb hlt => Or.inr ⟨?_, ?_⟩
  · rw [dir_record args (hnames a ha).2, dir_record args (hnames b hb).2]
  · rwa [name_record args (hnames a ha).2, name_record args (hnames b hb).2]

/-- The records of what is below a directory, from those of its entries. -/
theorem walkFrom_flatMap {entries : List Entry} {below : Entry → List FileRecord}
    (hnames : ∀ e ∈ entries, e.name ≠ [] ∧ 47 ∉ e.name)
    (hentries : entries.Pairwise fun a b => a.name < b.name)
    (hbelow : ∀ e ∈ entries, WalkFrom (withSlash dir ++ e.name) (below e)) :
    WalkFrom dir (entries.flatMap below) := by
  refine ⟨⟨?_, fun r hr => ?_, fun r hr => ?_⟩, fun r hr => ?_⟩
  · refine List.pairwise_flatMap.mpr ⟨fun e he => (hbelow e he).order, ?_⟩
    refine hentries.imp_of_mem fun {a b} ha hb hlt r hr r' hr' => Or.inl ?_
    have hfirst := dirLt_of_prefix_entry ((hbelow a ha).below r hr) (hnames a ha) (hnames b hb).2
      hlt
    have hsecond := (hbelow b hb).below r' hr'
    exact DirLt.not_trans hfirst
      (not_dirLt_trans (not_dirLt_withSlash _) (not_dirLt_of_isPrefix hsecond))
  all_goals obtain ⟨e, he, hr⟩ := List.mem_flatMap.mp hr
  · exact (hbelow e he).slash r hr
  · exact (hbelow e he).named r hr
  · have hprefix := (hbelow e he).below r hr
    rw [withSlash_entry dir (hnames e he)] at hprefix
    exact (List.prefix_append _ _).trans hprefix

theorem WalkFrom.append {entries : List Entry} {below : List FileRecord}
    (h : WalkFrom args.path (entries.map (Entry.record args)))
    (hnames : ∀ e ∈ entries, 47 ∉ e.name) (h' : WalkFrom args.path below)
    (hbehind : ∀ r ∈ below, DirLt (withSlash args.path) r.dir) :
    WalkFrom args.path (entries.map (Entry.record args) ++ below) := by
  refine ⟨⟨List.pairwise_append.mpr ⟨h.order, h'.order, fun r hr r' hr' => Or.inl ?_⟩, ?_, ?_⟩, ?_⟩
  · obtain ⟨e, he, rfl⟩ := List.mem_map.mp hr
    rw [dir_record args (hnames e he)]
    exact hbehind r' hr'
  · exact List.forall_mem_append.mpr ⟨h.slash, h'.slash⟩
  · exact List.forall_mem_append.mpr ⟨h.named, h'.named⟩
  · exact List.forall_mem_append.mpr ⟨h.below, h'.below⟩

/-- The visits of the entries of a directory give records of these entries. -/
def VisitsOrdered (visits : List Visit) : Prop :=
  ∀ v ∈ visits, ∀ args : ScanArgs, WalkFrom args.path (v.walk args).records

theorem visitEntry_walkFrom (args : ScanArgs) (listing : List Found)
    (hvisits : VisitsOrdered visits) (e : Entry) :
    WalkFrom (withSlash args.path ++ e.name) (visitEntry args listing visits e).records := by
  unfold visitEntry
  split
  · rename_i f v _ hv
    split
    · exact hvisits v (List.mem_of_find?_eq_some hv) (subdirArgs args f.node e)
    · exact WalkFrom.nil _
  · exact WalkFrom.nil _

theorem walkEntries_walkFrom (hvisits : VisitsOrdered visits) {entries : List Entry}
    (hnames : ∀ e ∈ entries, e.name ≠ [] ∧ 47 ∉ e.name)
    (hentries : entries.Pairwise fun a b => a.name < b.name) (olds : List Entry) :
    WalkFrom args.path (walkEntries env args listing visits entries olds).records := by
  obtain ⟨hnames', hentries'⟩ := prepared_spec env args listing hnames hentries
  refine (walkFrom_entries args hnames' hentries').append (fun e he => (hnames' e he).2)
    (walkFrom_flatMap hnames' hentries' fun e _ => visitEntry_walkFrom args listing hvisits e)
    fun r hr => ?_
  obtain ⟨e, he, hr⟩ := List.mem_flatMap.mp hr
  have hprefix := (visitEntry_walkFrom args listing hvisits e).below r hr
  have hlt := dirLt_append (withSlash args.path) (hnames' e he).1
  exact DirLt.not_trans hlt
    (not_dirLt_trans (not_dirLt_withSlash _) (not_dirLt_of_isPrefix hprefix))

theorem walkDirectory_walkFrom (args : ScanArgs) (hold : WalkRecords old.records)
    (hlisting : ∀ f ∈ listing, f.name ≠ [] ∧ 47 ∉ f.name)
    (hnodup : (listing.map Found.name).Nodup) (hvisits : VisitsOrdered visits) :
    WalkFrom args.path (walkDirectory env old args listing visits).records := by
  unfold walkDirectory
  split
  · exact WalkFrom.nil _
  · split
    · exact WalkFrom.nil _
    · dsimp only
      split
      · obtain ⟨hentries, hnames⟩ := entriesOf_spec hold args.path
        exact walkEntries_walkFrom hvisits hnames hentries []
      · split
        · exact WalkFrom.nil _
        · apply walkEntries_walkFrom hvisits ?_ (pairwise_readdir hnodup _)
          intro e he
          obtain ⟨f, hf, hname⟩ := mem_names_readdir he
          exact hname ▸ hlisting f hf

theorem Dir.WellFormed.found_named {content : Dir} (h : content.WellFormed) :
    ∀ f ∈ content.found env, f.name ≠ [] ∧ 47 ∉ f.name := by
  induction content with
  | nil => exact List.forall_mem_nil _
  | cons name node content rest _ ih =>
      rw [Dir.found, List.forall_mem_cons]
      exact ⟨⟨h.1.1, h.1.2.1⟩, ih h.2.2.2⟩

theorem visits_ordered (old : OldDatabase) (hold : WalkRecords old.records) {content : Dir}
    (h : content.WellFormed) :
    VisitsOrdered (content.visits env old) := by
  induction content with
  | nil => exact List.forall_mem_nil _
  | cons name node content rest ihContent ihRest =>
      obtain ⟨-, -, hcontent, hrest⟩ := h
      rw [VisitsOrdered, Dir.visits, List.forall_mem_cons]
      exact ⟨fun args => walkDirectory_walkFrom args hold hcontent.found_named
        (map_name_found content ▸ hcontent.nodup) (ihContent hcontent), ihRest hrest⟩

/-- A walk gives records that the next walk can read in step. -/
theorem walkRoot_walkFrom (env : ScanEnv) (old : OldDatabase) (hold : WalkRecords old.records)
    (root : Str) (node : Node) {content : Dir} (h : content.WellFormed) :
    WalkFrom root (walkRoot env root node content old).records :=
  walkDirectory_walkFrom (rootArgs env root node) hold h.found_named
    (map_name_found content ▸ h.nodup) (visits_ordered old hold h)

end Order

end Flocate
