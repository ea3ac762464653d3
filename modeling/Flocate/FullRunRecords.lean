import Flocate.DirectoryCalls
import Flocate.FullRun
import Flocate.IncrementalRun

/-!
# The records of a full run

A full run stores every entry of every directory that it enters, once and in order, and nothing
else.
-/

namespace Flocate

open Bytes

/-- What is stored of the metadata if there are no digests. -/
def storedMetadata (t : Tree) : FileMetadata :=
  if t.node.statFails then {} else t.node.metadata

def storedRecord (env : ScanEnv) (path name : Str) (t : Tree) : FileRecord where
  path := withSlash path ++ name
  dirTimestamp := storedTime env path name t
  metadata := storedMetadata t

section FullRun

variable {env : ScanEnv} {args a : ScanArgs} {dir d : Dir} {dev : ℕ} {path name root p : Str}
  {t sub : Tree} {e : Entry}

theorem not_listsOld (old : OldDatabase) (h : args.dbModified = unknownDirTime) :
    ¬listsOld old args = true := by
  rw [listsOld, isUnchanged_iff, h]
  exact fun hold => absurd hold.2.1 (by decide)

theorem takenEntries_nil (h : args.dbModified = unknownDirTime) (hdir : dir.Accessible dev) :
    takenEntries env {} args dir = dir.listed := by
  rw [takenEntries, if_neg (not_listsOld {} h), map_entry_found hdir]
  exact congrArg Prod.fst (mergeOld_nil _)

/-- An entry that is stored, and the record of it. -/
theorem storedEntries_nil (h : args.dbModified = unknownDirTime) (hdir : dir.Accessible dev) :
    storedEntries env {} args dir = dir.listed.map fun e =>
      openEntry env args (dir.found env) (statEntry env args (dir.found env) e) := by
  rw [storedEntries, takenEntries_nil h hdir]
  rfl

theorem fileHash_none (hhash : env.conf.metadataHashKind = .none) (path : Str) (allowed : Bool)
    (prev metadata : FileMetadata) : fileHash env path allowed prev metadata = metadata.hash := by
  rw [fileHash, if_neg fun h => h.1 hhash]

theorem metadata_listed (hhash : env.conf.metadataHashKind = .none) (hwf : dir.WellFormed)
    (ht : (name, t) ∈ dir.entries) :
    (statEntry env args (dir.found env) (bareEntry (name, t.isDir))).metadata =
      storedMetadata t := by
  have hlookup : lookup (dir.found env) (bareEntry (name, t.isDir)).name =
      some ⟨name, t.node, fun args => scan env t.content args⟩ := by
    change lookup (dir.found env) name = _
    rw [lookup_found, hwf.find_of_mem ht]
    rfl
  unfold storedMetadata
  split
  · rename_i hfails
    rw [statEntry_fails hlookup hfails]
    rfl
  · rename_i hstat
    rw [statEntry, hlookup]
    dsimp only
    rw [if_neg hstat, fileHash_none hhash]

theorem record_listed (hhash : env.conf.metadataHashKind = .none) (hwf : dir.WellFormed)
    (hdir : dir.Accessible dev) (hdev : args.dev = dev) (ht : (name, t) ∈ dir.entries) :
    (openEntry env args (dir.found env) (statEntry env args (dir.found env)
      (bareEntry (name, t.isDir)))).record args = storedRecord env args.path name t := by
  let e := openEntry env args (dir.found env)
    (statEntry env args (dir.found env) (bareEntry (name, t.isDir)))
  obtain ⟨hname, -, hdt, -⟩ := prepared_listed args hwf hdir hdev ht (rfl : e = _)
  have hmetadata : e.metadata = storedMetadata t :=
    openEntry_metadata.trans (metadata_listed hhash hwf ht)
  change e.record args = _
  rw [Entry.record, storedRecord, hname, hdt, hmetadata]
  rfl

/-- A full run calls `scan` for the directories that it enters. -/
theorem ScanCall.entered (h : ScanCall env {} args dir a d) (hlists : ListsEntries env {} a)
    (ht : t.content = dir) : ∃ t', Entered env.conf args.path t a.path t' ∧ t'.content = d := by
  induction h generalizing t with
  | here args dir => exact ⟨t, .here hlists.pruned, ht⟩
  | @inside args a dir d e sub he _ ih =>
      obtain ⟨hkind, hname, -⟩ := he.spec
      obtain ⟨t', hentered, hcontent⟩ := ih hlists rfl
      refine ⟨t', ?_, hcontent⟩
      exact .inside he.lists.pruned (ht.symm ▸ Dir.mem_of_find he.find) hkind hname hentered

/-- Every directory that is entered is called. -/
theorem Entered.scanCall (hmounts : ∀ p, env.isBindMount p = false)
    (h : Entered env.conf path t p sub) :
    ∀ args : ScanArgs, args.path = path → args.dbModified = unknownDirTime → args.dev = dev →
      args.listFails = false → t.content.WellFormed → t.content.Accessible dev →
      ∃ a, ScanCall env {} args t.content a sub.content ∧ ListsEntries env {} a ∧ a.path = p ∧
        a.dbModified = unknownDirTime ∧ a.dev = dev := by
  have hmount {args : ScanArgs} :
      ¬(env.conf.pruneBindMounts && env.isBindMount args.path) = true := by
    rw [hmounts, Bool.and_false]
    exact Bool.false_ne_true
  induction h with
  | here hpruned =>
      rintro args rfl hunknown hdev hlist _ _
      exact ⟨args, .here args _, ⟨hpruned, hmount, Or.inr hlist⟩, rfl, hunknown, hdev⟩
  | @inside path name p t sub d hpruned hmem hkind hname _ ih =>
      rintro args rfl hunknown hdev hlist hwf hdir
      obtain ⟨hnode, hcontent⟩ := hdir.entry hmem hkind
      let e := openEntry env args (t.content.found env)
        (statEntry env args (t.content.found env) (bareEntry (name, sub.isDir)))
      obtain ⟨hename, hedir, -, hopens⟩ := prepared_listed args hwf hdir hdev hmem (rfl : e = _)
      obtain ⟨hopened, hedev⟩ := hopens hkind hname
      have he : CallsEntry env {} args t.content e sub := by
        refine ⟨⟨hpruned, hmount, Or.inr hlist⟩, ?_, hedir.trans hkind, hopened, ?_⟩
        · rw [storedEntries_nil hunknown hdir]
          exact List.mem_map_of_mem (mem_listed.mpr ⟨name, sub, hmem, rfl⟩)
        · rw [hename]
          exact hwf.find_of_mem hmem
      have hedb : e.dbModified = unknownDirTime :=
        openEntry_dbModified.trans (statEntry_frame _ _ _ _).1
      obtain ⟨a, hcall, hlists, hpath, hadb, hadev⟩ := ih (subdirArgs args sub.node e)
        (congrArg (withSlash args.path ++ ·) hename) hedb hedev hnode.listed (hwf.content hmem)
        hcontent
      exact ⟨a, .inside he hcall, hlists, hpath, hadb, hadev⟩

theorem mem_records_nil (h : Undisturbed env t) {r : FileRecord} :
    r ∈ (walkRoot env root t.node t.content {}).records ↔ ∃ p d name sub,
      Entered env.conf root t p d ∧ (name, sub) ∈ d.content.entries ∧
        storedRecord env p name sub = r := by
  change r ∈ (walkTree env {} (rootArgs env root t.node) t.content).records ↔ _
  have hcalls {p : Str} {d : Tree} (hd : Entered env.conf root t p d) :=
    hd.scanCall h.mounts (rootArgs env root t.node) rfl rfl rfl h.root.listed h.wellFormed
      h.accessible
  have hdirs {p : Str} {d : Tree} (hd : Entered env.conf root t p d) :
      d.content.WellFormed ∧ d.content.Accessible t.node.dev :=
    ⟨hd.wellFormed h.wellFormed, hd.accessible h.accessible⟩
  rw [mem_records]
  constructor
  · rintro ⟨a, d, hcall, hlists, e, he, rfl⟩
    obtain ⟨t', hentered, rfl⟩ := hcall.entered hlists rfl
    obtain ⟨a', hcall', -, hpath, hunknown, hdev⟩ := hcalls hentered
    obtain ⟨rfl, -⟩ := hcall'.unique walkRecords_nil h.wellFormed hcall (congrArg withSlash hpath)
    obtain ⟨hwf, hdir⟩ := hdirs hentered
    rw [storedEntries_nil hunknown hdir] at he
    obtain ⟨e', he', rfl⟩ := List.mem_map.mp he
    obtain ⟨name, sub, hmem, rfl⟩ := mem_listed.mp he'
    exact ⟨_, t', name, sub, hentered, hmem, (record_listed h.hash hwf hdir hdev hmem).symm⟩
  · rintro ⟨p, d, name, sub, hentered, hmem, rfl⟩
    obtain ⟨a, hcall, hlists, rfl, hunknown, hdev⟩ := hcalls hentered
    obtain ⟨hwf, hdir⟩ := hdirs hentered
    refine ⟨a, d.content, hcall, hlists, _, ?_, record_listed h.hash hwf hdir hdev hmem⟩
    rw [storedEntries_nil hunknown hdir]
    exact List.mem_map_of_mem (mem_listed.mpr ⟨name, sub, hmem, rfl⟩)

/-- A full run stores exactly the entries of the directories that it enters, in the order of the
directories and of the names, so none twice. -/
theorem fullRun_stores (hconf : PrunepathsPrepared env.conf) (h : Undisturbed env t) :
    (∀ r, r ∈ (scanRoot env root t.node t.content {}).corpus ↔ ∃ p d name sub,
      Entered env.conf root t p d ∧ (name, sub) ∈ d.content.entries ∧
        storedRecord env p name sub = r) ∧
      InWalkOrder (scanRoot env root t.node t.content {}).corpus := by
  rw [corpus_empty hconf.sorted h]
  refine ⟨fun r => mem_records_nil h, ?_⟩
  exact (walkRoot_walkFrom env {} walkRecords_nil root t.node h.wellFormed).order

theorem prunepathsPrepared_nil {conf : Conf} (h : conf.prunepaths = []) :
    PrunepathsPrepared conf := by
  refine ⟨[], List.nodup_nil, ?_⟩
  rw [stringListDirPathSort, List.mergeSort_nil]
  exact h

theorem fullRun_stores_treeBefore :
    storedRecord lateEnv (ascii "/a") (ascii "z") ⟨fileNode, .nil⟩ ∈
        (scanRoot lateEnv [47] treeBefore.node treeBefore.content {}).corpus ∧
      InWalkOrder (scanRoot lateEnv [47] treeBefore.node treeBefore.content {}).corpus := by
  have hconf : PrunepathsPrepared lateEnv.conf := prunepathsPrepared_nil rfl
  obtain ⟨hrecords, horder⟩ := fullRun_stores hconf undisturbed_treeBefore
  refine ⟨(hrecords _).mpr ⟨ascii "/a", subdirTree, ascii "z", ⟨fileNode, .nil⟩, ?_,
    List.mem_singleton_self _, rfl⟩, horder⟩
  have hroot : ([47] : Str) ∉ lateEnv.conf.prunepaths := List.not_mem_nil
  exact .inside hroot (List.mem_singleton_self _) (by decide) List.not_mem_nil
    (.here List.not_mem_nil)

end FullRun

end Flocate
