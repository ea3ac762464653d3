import Flocate.ExistingDBRecords
import Flocate.FullRun

/-!
# Incremental runs

A run that reads the database of an earlier run lists a directory from there if its time stamp has
not moved. Where the time stamps tell whether the entries of a directory have changed, it stores
what a run without that database stores.
-/

namespace Flocate

open Bytes

/-- A run on a tree on one file system, without bind mounts and without digests. -/
structure Undisturbed (env : ScanEnv) (t : Tree) : Prop where
  hash : env.conf.metadataHashKind = .none
  mounts : ∀ path, env.isBindMount path = false
  wellFormed : t.content.WellFormed
  root : t.node.Accessible t.node.dev
  accessible : t.content.Accessible t.node.dev

/-- Directories with the same path and the same time have the same entries. -/
def Coherent (root : Str) (t₁ t₂ : Tree) : Prop :=
  ∀ path d₁ d₂, DirectoryAt root t₁ path d₁ → DirectoryAt root t₂ path d₂ →
    d₁.node.metadata.changeTime = d₂.node.metadata.changeTime →
    ∀ kind, kind ∈ d₁.content.kinds ↔ kind ∈ d₂.content.kinds

def FileRecord.reread (r : FileRecord) : FileRecord := { r with metadata := r.metadata.canonical }

def OldDatabase.ofCorpus (corpus : List FileRecord) : OldDatabase where
  records := corpus.map FileRecord.reread

/-- Runs with the same configuration and root, each on the database of the one before and on a tree
of which the time stamps tell what has changed. -/
inductive UpdateRuns (conf : Conf) (root : Str) : Tree → List FileRecord → Prop where
  | first (env : ScanEnv) (t : Tree) : env.conf = conf → Undisturbed env t →
      UpdateRuns conf root t (scanRoot env root t.node t.content {}).corpus
  | next (env : ScanEnv) (t₀ t : Tree) (records : List FileRecord) :
      UpdateRuns conf root t₀ records → env.conf = conf → Undisturbed env t →
      Coherent root t₀ t →
      UpdateRuns conf root t (scanRoot env root t.node t.content (.ofCorpus records)).corpus

/-- The records of the next run are what the reader of the database returns. -/
theorem records_ofCorpus (corpus : List FileRecord) :
    (OldDatabase.ofCorpus corpus).records.map
      (fun r => (r.path, r.dirTimestamp, r.metadata)) = corpus.map ExistingDB.returned := by
  rw [OldDatabase.ofCorpus, List.map_map]
  rfl

section Walk

variable {env : ScanEnv} {old : OldDatabase} {args : ScanArgs} {dir : Dir} {dev : ℕ}
  {path name : Str} {t sub : Tree}

/-- What the old database has of the directories that a walk enters, and finds to have their old
times, is what is there now. -/
def Faithful (env : ScanEnv) (old : OldDatabase) (path : Str) (t : Tree) : Prop :=
  ∀ p d, Entered env.conf path t p d → ∀ r ∈ old.records, r.path = p → 0 < r.dirTimestamp.sec →
    r.dirTimestamp = getDirtimeFromStat (env.cache p true) d.node.metadata →
    (entriesOf old.records p).map Entry.kind = d.content.listed.map Entry.kind

theorem Faithful.entry (h : Faithful env old path t) (hroot : path ∉ env.conf.prunepaths)
    (hmem : (name, sub) ∈ t.content.entries) (hdir : sub.isDir = true)
    (hname : name ∉ env.conf.prunenames) : Faithful env old (withSlash path ++ name) sub :=
  fun p d hd => h p d (.inside hroot hmem hdir hname hd)

/-- Only the names and the kinds of the entries matter for what is stored, and what is stored of the
subdirectories. -/
theorem records_walkEntries (hhash : env.conf.metadataHashKind = .none) {entries : List Entry}
    (hentries : entries.map Entry.forget = dir.listed) (olds : List Entry)
    (hsub : ∀ e ∈ preparedEntries env args (dir.found env) entries,
      (visitEntry args (dir.found env) (dir.visits env old) e).records =
        (visitEntry args.forget (dir.found env) (dir.visits env {}) e.forget).records) :
    (walkEntries env args (dir.found env) (dir.visits env old) entries olds).records =
      (walkEntries env args.forget (dir.found env) (dir.visits env {}) dir.listed []).records := by
  have hprepared := map_forget_preparedEntries hhash args (dir.found env) entries
  rw [hentries] at hprepared
  rw [walkEntries, walkEntries, ← hprepared, List.map_map, List.flatMap_map]
  exact congrArg₂ (· ++ ·) rfl (List.flatMap_congr hsub)

/-- The entries of a directory as the walk takes them, with what the old database says about
them. -/
structure TakenFrom (records : List FileRecord) (path : Str) (dir : Dir) (entries : List Entry) :
    Prop where
  forget : entries.map Entry.forget = dir.listed
  closed : ∀ e ∈ entries, e.opened = false
  dbModified : ∀ e ∈ entries, e.dbModified = unknownDirTime ∨
    ∃ r ∈ records, r.path = withSlash path ++ e.name ∧ r.dirTimestamp = e.dbModified

theorem takenFrom_entriesOf {records : List FileRecord}
    (h : (entriesOf records path).map Entry.kind = dir.listed.map Entry.kind) :
    TakenFrom records path dir (entriesOf records path) := by
  refine ⟨?_, fun e he => ?_, fun e he => Or.inr (dbModified_entriesOf he)⟩
  · rw [map_forget_entriesOf, h, map_kind_listed]
  · obtain ⟨r, -, rfl⟩ := List.mem_map.mp he
    rfl

theorem takenFrom_mergeOld (records : List FileRecord) (path : Str) (dir : Dir) :
    TakenFrom records path dir (mergeOld dir.listed (entriesOf records path)).1 := by
  have hforget :
      (mergeOld dir.listed (entriesOf records path)).1.map Entry.forget = dir.listed := by
    rw [map_forget_mergeOld, map_forget_listed]
  refine ⟨hforget, closed_of_map_forget hforget, fun e he => ?_⟩
  rcases dbModified_mergeOld he with ⟨e', he', heq⟩ | ⟨o, ho, hname, heq⟩
  · obtain ⟨name, t, -, rfl⟩ := mem_listed.mp he'
    exact Or.inl heq.symm
  · rw [← hname, ← heq]
    exact Or.inr (dbModified_entriesOf ho)

/-- If the old database is faithful the walk stores what a walk without it stores. -/
theorem records_walkTree (hhash : env.conf.metadataHashKind = .none)
    (hmounts : ∀ p, env.isBindMount p = false) (dir : Dir) :
    ∀ (args : ScanArgs) (t : Tree), t.content = dir → dir.WellFormed → dir.Accessible dev →
      args.listFails = false → Faithful env old args.path t →
      (args.path ∉ env.conf.prunepaths →
        isUnchanged args { error := old.failsAt args.path } = true →
        (entriesOf old.records args.path).map Entry.kind = dir.listed.map Entry.kind) →
      (walkTree env old args dir).records = (walkTree env {} args.forget dir).records := by
  induction dir using Dir.treeInduction with
  | h dir ih =>
      rintro args t rfl hwf hdir hlist hfaithful hunchanged
      by_cases hpruned : args.path ∈ env.conf.prunepaths
      · have hpruned' : args.forget.path ∈ env.conf.prunepaths := hpruned
        rw [walkTree, walkTree, walkDirectory_pruned _ _ _ _ _ hpruned,
          walkDirectory_pruned _ _ _ _ _ hpruned']
      · rw [walkTree_nil hmounts hdir hpruned hlist]
        have hsubdir {entries : List Entry} (h : TakenFrom old.records args.path t.content entries)
            {e : Entry} (he : e ∈ preparedEntries env args (t.content.found env) entries)
            {sub : Tree} (hfind : t.content.find e.name = some sub) (hopened : e.opened = true) :
            (walkTree env old (subdirArgs args sub.node e) sub.content).records =
              (walkTree env {} (subdirArgs args sub.node e).forget sub.content).records := by
          obtain ⟨e', he', sub', hname, hmodified, hfind', hkind, hprune, -, hdt⟩ :=
            opened_of_mem_prepared h.closed he hopened
          obtain rfl := Option.some.inj (hfind.symm.trans hfind')
          have hmem := Dir.mem_of_find hfind
          obtain ⟨hnode, hcontent⟩ := hdir.entry hmem hkind
          have hsub := hfaithful.entry hpruned hmem hkind hprune
          refine ih _ hmem _ sub rfl (hwf.content hmem) hcontent hnode.listed hsub ?_
          intro hpath hsame
          obtain ⟨-, hpos, hequal⟩ := (isUnchanged_iff _ _).mp hsame
          rcases h.dbModified e' he' with hunknown | ⟨r, hr, hpath', htime⟩
          · rw [hmodified] at hunknown
            exact absurd (hunknown ▸ hpos : 0 < unknownDirTime.sec) (by decide)
          · rw [hmodified] at htime
            rw [hname] at hpath'
            refine hsub _ sub (.here hpath) r hr hpath' (htime ▸ hpos) ?_
            exact htime.trans (hequal.symm.trans hdt)
        have htaken {entries : List Entry} (h : TakenFrom old.records args.path t.content entries)
            (olds : List Entry) :
            (walkEntries env args (t.content.found env) (t.content.visits env old) entries
              olds).records = (walkEntries env args.forget (t.content.found env)
                (t.content.visits env {}) t.content.listed []).records := by
          refine records_walkEntries hhash h.forget olds fun e he => ?_
          have hname : e.forget.name = e.name := rfl
          cases hfind : t.content.find e.name with
          | none => rw [visitEntry_none env old hfind, visitEntry_none env {} (hname ▸ hfind)]
          | some sub =>
              rw [visitEntry_some env old hfind, visitEntry_some env {} (hname ▸ hfind)]
              change WalkOutput.records (if (e.isDirectory && e.opened) = true then _ else _) =
                WalkOutput.records (if (e.isDirectory && e.opened) = true then _ else _)
              by_cases hopened : (e.isDirectory && e.opened) = true
              · rw [if_pos hopened, if_pos hopened]
                exact hsubdir h he hfind (Bool.and_eq_true_iff.mp hopened).2
              · rw [if_neg hopened, if_neg hopened]
        by_cases hsame : isUnchanged args { error := old.failsAt args.path } = true
        · rw [walkTree, walkDirectory, if_neg fun h => hpruned (List.contains_iff_mem.mp h),
            hmounts, Bool.and_false, if_neg Bool.false_ne_true]
          dsimp only
          rw [if_pos hsame]
          exact htaken (takenFrom_entriesOf (hunchanged hpruned hsame)) []
        · rw [walkTree_listed args hmounts hdir hpruned hlist hsame]
          exact htaken (takenFrom_mergeOld old.records args.path t.content) _

end Walk

section Runs

variable {conf : Conf} {env env₁ : ScanEnv} {root p : Str} {t t₁ d : Tree}
  {records : List FileRecord}

theorem WalkFrom.reread {dir : Str} (h : WalkFrom dir records) :
    WalkFrom dir (records.map FileRecord.reread) := by
  have hall {P : FileRecord → Prop} (hp : ∀ r ∈ records, P r.reread) :
      ∀ r ∈ records.map FileRecord.reread, P r := by
    intro r hr
    obtain ⟨r', hr', rfl⟩ := List.mem_map.mp hr
    exact hp r' hr'
  refine ⟨⟨?_, hall h.slash, hall h.named⟩, hall h.below⟩
  rw [InWalkOrder, List.pairwise_map]
  exact h.order

theorem entriesOf_reread (records : List FileRecord) (path : Str) :
    (entriesOf (records.map FileRecord.reread) path).map Entry.kind =
      (entriesOf records path).map Entry.kind := by
  rw [entriesOf, entriesOf, List.filter_map, List.map_map, List.map_map, List.map_map]
  rfl

/-- What a run has stored is faithful to a later tree if the time stamps tell. -/
theorem faithful_of_coherent (hconf : env₁.conf = env.conf) (h₁ : Undisturbed env₁ t₁)
    (h : Undisturbed env t) (hcoherent : Coherent root t₁ t) :
    Faithful env (.ofCorpus (walkRoot env₁ root t₁.node t₁.content {}).records) root t := by
  intro p d hd r hr hpath hpos htime
  obtain ⟨r₀, hr₀, rfl⟩ := List.mem_map.mp hr
  obtain ⟨q, d', name, sub, hd', hmem, hpath', htime'⟩ :=
    mem_walkTree_nil h₁.mounts t₁.content (rootArgs env₁ root t₁.node) t₁ rfl h₁.wellFormed
      h₁.accessible h₁.root.listed rfl r₀ hr₀
  have hslash := ((hd'.wellFormed h₁.wellFormed).named hmem).2
  obtain ⟨hpruned, hlast⟩ := hd.last h.wellFormed
  change r₀.path = p at hpath
  change 0 < r₀.dirTimestamp.sec at hpos
  change r₀.dirTimestamp = _ at htime
  have hname : name ∉ env₁.conf.prunenames := by
    rcases hlast with rfl | ⟨q', name', hsplit, hname', hslash'⟩
    · have hle := (hd'.isPrefix).length_le
      have hshort : p.length ≤ (withSlash p).length := by
        rw [withSlash]
        split
        · exact le_rfl
        · rw [List.length_append]
          exact Nat.le_add_right _ _
      have hlong := congrArg List.length (hpath.symm.trans hpath')
      have hpositive := List.length_pos_of_ne_nil
        ((hd'.wellFormed h₁.wellFormed).named hmem).1
      rw [List.length_append] at hlong
      change (withSlash p).length ≤ _ at hle
      omega
    · obtain ⟨-, rfl⟩ := split_unique (hsplit.symm.trans (hpath.symm.trans hpath'))
        (getLast?_withSlash _) (getLast?_withSlash _) hslash' hslash
      rwa [hconf]
  have hkind : sub.isDir = true := by
    by_contra hnot
    rw [htime', storedTime, if_neg hnot] at hpos
    exact absurd hpos (by decide)
  rw [hpath] at hpath'
  rw [hpath', ← hconf] at hpruned
  have hsub : Entered env₁.conf root t₁ p sub := by
    rw [hpath']
    exact hd'.entry hmem hkind hname hpruned
  have hchange : sub.node.metadata.changeTime = d.node.metadata.changeTime := by
    rw [storedTime, if_pos hkind] at htime'
    rw [← getDirtimeFromStat_of_pos (htime' ▸ hpos), ← htime', htime]
    exact getDirtimeFromStat_of_pos (htime ▸ hpos)
  rw [OldDatabase.ofCorpus, entriesOf_reread]
  have hstored := entriesOf_walkTree_nil h₁.mounts hsub (rootArgs env₁ root t₁.node) rfl
    h₁.wellFormed h₁.accessible h₁.root.listed rfl
  refine Eq.trans hstored (congrArg _ ?_)
  exact listed_congr (hsub.wellFormed h₁.wellFormed) (hd.wellFormed h.wellFormed)
    (hcoherent p sub d hsub.directoryAt hd.directoryAt hchange)

/-- A run on the database of a full run stores what a full run stores. -/
theorem corpus_ofCorpus_walkRoot (hsorted : DirSorted env.conf.prunepaths)
    (hconf : env₁.conf = env.conf) (h₁ : Undisturbed env₁ t₁) (h : Undisturbed env t)
    (hcoherent : Coherent root t₁ t) :
    (scanRoot env root t.node t.content
      (.ofCorpus (walkRoot env₁ root t₁.node t₁.content {}).records)).corpus =
        (walkRoot env root t.node t.content {}).records := by
  have hold := (walkRoot_walkFrom env₁ {} walkRecords_nil root t₁.node h₁.wellFormed).reread
  have hwalk := (scanRoot_eq_walkRoot (.ofCorpus _) hsorted hold.toWalkRecords rfl root hold.below
    t.node h.wellFormed).1
  refine hwalk.trans ?_
  refine records_walkTree h.hash h.mounts t.content (rootArgs env root t.node) t rfl
    h.wellFormed h.accessible h.root.listed (faithful_of_coherent hconf h₁ h hcoherent) ?_
  exact fun _ hsame => absurd hsame (not_isUnchanged_forget (rootArgs env root t.node) _)

theorem corpus_empty (hsorted : DirSorted env.conf.prunepaths) (h : Undisturbed env t) :
    (scanRoot env root t.node t.content {}).corpus =
      (walkRoot env root t.node t.content {}).records :=
  (scanRoot_eq_walkRoot {} hsorted walkRecords_nil rfl root (List.forall_mem_nil _) t.node
    h.wellFormed).1

/-- Each of the runs has stored what a full run stores. -/
theorem UpdateRuns.eq_walkRoot (hconf : PrunepathsPrepared conf)
    (h : UpdateRuns conf root t records) : ∃ env : ScanEnv, env.conf = conf ∧
      Undisturbed env t ∧ records = (walkRoot env root t.node t.content {}).records := by
  induction h with
  | first env t henv hrun =>
      exact ⟨env, henv, hrun, corpus_empty (henv.symm ▸ hconf.sorted) hrun⟩
  | next env t₀ t records _ henv hrun hcoherent ih =>
      obtain ⟨env₀, henv₀, hrun₀, rfl⟩ := ih
      exact ⟨env, henv, hrun, corpus_ofCorpus_walkRoot (henv.symm ▸ hconf.sorted)
        (henv₀.trans henv.symm) hrun₀ hrun hcoherent⟩

/-- An incremental run writes the database of a full run. -/
theorem incremental_eq_full (hconf : PrunepathsPrepared conf)
    (hprevious : UpdateRuns conf root t₁ records) (henv : env.conf = conf)
    (h : Undisturbed env t) (hcoherent : Coherent root t₁ t) :
    (scanRoot env root t.node t.content (.ofCorpus records)).corpus =
      (scanRoot env root t.node t.content {}).corpus := by
  obtain ⟨env₁, henv₁, hrun₁, rfl⟩ := hprevious.eq_walkRoot hconf
  have hsorted : DirSorted env.conf.prunepaths := henv.symm ▸ hconf.sorted
  rw [corpus_ofCorpus_walkRoot hsorted (henv₁.trans henv.symm) hrun₁ h hcoherent,
    corpus_empty hsorted h]

def fileNode : Node where
  metadata := { enabled := true, mode := 0x81a4 }

def directoryNodeAt (sec : Int64) : Node where
  metadata := { enabled := true, mode := 0x41ed, mtime := ⟨sec, 0⟩, ctime := ⟨sec, 0⟩ }

/-- The directory `a`, which stays as it is. -/
def subdirTree : Tree := ⟨directoryNodeAt 20, .cons (ascii "z") fileNode .nil .nil⟩

def treeBefore : Tree :=
  ⟨directoryNodeAt 10, .cons (ascii "a") subdirTree.node subdirTree.content .nil⟩

def treeAfter : Tree :=
  ⟨directoryNodeAt 30, .cons (ascii "b") fileNode .nil
    (.cons (ascii "a") subdirTree.node subdirTree.content .nil)⟩

def lateEnv : ScanEnv where
  conf := {}
  cache _ _ := ⟨1000, 0⟩

theorem accessible_directoryNodeAt (sec : Int64) (h : 0 ≤ sec) :
    (directoryNodeAt sec).Accessible 0 := ⟨rfl, rfl, rfl, rfl, h, h⟩

theorem undisturbed_treeBefore : Undisturbed lateEnv treeBefore := by
  have hsub := accessible_directoryNodeAt 20 (by decide)
  have hfile : fileNode.metadata.isDir = true → fileNode.Accessible 0 ∧ Dir.Accessible 0 .nil :=
    fun h => absurd h (by decide)
  exact ⟨rfl, fun _ => rfl,
    ⟨⟨by decide, by decide, by decide⟩, by decide, ⟨⟨by decide, by decide, by decide⟩, by decide,
      trivial, trivial⟩, trivial⟩,
    accessible_directoryNodeAt 10 (by decide), ⟨fun _ => ⟨hsub, hfile, trivial⟩, trivial⟩⟩

theorem undisturbed_treeAfter : Undisturbed lateEnv treeAfter := by
  have hsub := accessible_directoryNodeAt 20 (by decide)
  have hfile : fileNode.metadata.isDir = true → fileNode.Accessible 0 ∧ Dir.Accessible 0 .nil :=
    fun h => absurd h (by decide)
  exact ⟨rfl, fun _ => rfl,
    ⟨⟨by decide, by decide, by decide⟩, by decide, trivial, ⟨by decide, by decide, by decide⟩,
      by decide, ⟨⟨by decide, by decide, by decide⟩, by decide, trivial, trivial⟩, trivial⟩,
    accessible_directoryNodeAt 30 (by decide), ⟨hfile, fun _ => ⟨hsub, hfile, trivial⟩, trivial⟩⟩

theorem directoryAt_subdirTree {path p : Str} {d : Tree} (h : DirectoryAt path subdirTree p d) :
    p = path ∧ d = subdirTree := by
  cases h with
  | here => exact ⟨rfl, rfl⟩
  | inside hmem hdir _ =>
      rcases List.mem_cons.mp hmem with heq | hmem
      · obtain rfl := (Prod.mk.inj heq).2
        exact absurd hdir (by decide)
      · cases hmem

theorem directoryAt_treeBefore {d : Tree} (h : DirectoryAt [47] treeBefore p d) :
    p = [47] ∧ d = treeBefore ∨ p = ascii "/a" ∧ d = subdirTree := by
  cases h with
  | here => exact Or.inl ⟨rfl, rfl⟩
  | inside hmem hdir h =>
      rcases List.mem_cons.mp hmem with heq | hmem
      · obtain ⟨rfl, rfl⟩ := Prod.mk.inj heq
        exact Or.inr (directoryAt_subdirTree h)
      · cases hmem

theorem directoryAt_treeAfter {d : Tree} (h : DirectoryAt [47] treeAfter p d) :
    p = [47] ∧ d = treeAfter ∨ p = ascii "/a" ∧ d = subdirTree := by
  cases h with
  | here => exact Or.inl ⟨rfl, rfl⟩
  | inside hmem hdir h =>
      rcases List.mem_cons.mp hmem with heq | hmem
      · obtain ⟨rfl, rfl⟩ := Prod.mk.inj heq
        exact absurd hdir (by decide)
      · rcases List.mem_cons.mp hmem with heq | hmem
        · obtain ⟨rfl, rfl⟩ := Prod.mk.inj heq
          exact Or.inr (directoryAt_subdirTree h)
        · cases hmem

theorem coherent_newFile : Coherent [47] treeBefore treeAfter := by
  intro path d₁ d₂ h₁ h₂ htime kind
  rcases directoryAt_treeBefore h₁ with ⟨rfl, rfl⟩ | ⟨rfl, rfl⟩
  · rcases directoryAt_treeAfter h₂ with ⟨-, rfl⟩ | ⟨hpath, -⟩
    · exact absurd htime (by decide)
    · exact absurd hpath (by decide)
  · rcases directoryAt_treeAfter h₂ with ⟨hpath, -⟩ | ⟨-, rfl⟩
    · exact absurd hpath (by decide)
    · exact Iff.rfl

/-- The directory is listed from the old database and the file beside it is new. -/
theorem incremental_eq_full_newFile :
    (scanRoot lateEnv [47] treeAfter.node treeAfter.content (.ofCorpus
      (scanRoot lateEnv [47] treeBefore.node treeBefore.content {}).corpus)).corpus =
        (scanRoot lateEnv [47] treeAfter.node treeAfter.content {}).corpus := by
  have hconf : PrunepathsPrepared lateEnv.conf := by
    refine ⟨[], List.nodup_nil, ?_⟩
    rw [stringListDirPathSort, List.mergeSort_nil]
    rfl
  exact incremental_eq_full hconf (.first lateEnv treeBefore rfl undisturbed_treeBefore) rfl
    undisturbed_treeAfter coherent_newFile

end Runs

end Flocate
