import Flocate.DatabaseReuse
import Flocate.LiveAgreement
import Flocate.ShowdiffSaved

/-!
# What `flocate-showdiff --live` prints

The difference between what a run has stored and what a full run with the same settings would store
for the tree that is there now.
-/

namespace Flocate

open Bytes

section Settings

variable {inv : Invocation} {conf : Conf}

theorem nodup_varFinish (list : List Str) : (varFinish list).Nodup := by
  refine UniqueSort.pairwise_uniqueSort id (fun a b => ?_) list
  rw [decide_eq_true_eq, not_lt]
  rfl

theorem nodup_prunepaths (h : inv.confPrepare = some conf) : conf.prunepaths.Nodup := by
  obtain ⟨base, -, h⟩ := Option.bind_eq_some_iff.mp h
  obtain ⟨s, -, h⟩ := Option.bind_eq_some_iff.mp h
  obtain rfl := Option.some.inj h
  exact nodup_varFinish _

theorem upper_prunefs (h : inv.confPrepare = some conf) :
    conf.prunefs.map (·.map toupper) = conf.prunefs := by
  obtain ⟨base, -, h⟩ := Option.bind_eq_some_iff.mp h
  obtain ⟨s, -, h⟩ := Option.bind_eq_some_iff.mp h
  obtain rfl := Option.some.inj h
  exact s.conf.map_toupper_finish

end Settings

theorem map_fst_keptOf (records : List FileRecord) :
    (keptOf records).map Prod.fst = records.map FileRecord.path := by
  rw [keptOf, List.map_map]
  rfl

/-- Any records have a snapshot. -/
theorem exists_holds {entries : List (Str × FileMetadata)} (h : (entries.map Prod.fst).Nodup) :
    ∃ snapshot : Snapshot, snapshot.Holds entries := by
  let sorted := entries.mergeSort fun a b => decide (a.1 ≤ b.1)
  have hperm : sorted.Perm entries := List.mergeSort_perm _ _
  have hle : sorted.Pairwise fun a b => a.1 ≤ b.1 :=
    UniqueSort.pairwise_mergeSort Prod.fst (fun a b => decide_eq_true_iff) entries
  have hne : sorted.Pairwise fun a b => a.1 ≠ b.1 :=
    List.pairwise_map.mp ((hperm.map Prod.fst).nodup_iff.mpr h)
  refine ⟨⟨sorted.map Prod.fst, sorted.map Prod.snd, .none, []⟩, ?_, ?_, ?_⟩
  · refine List.pairwise_map.mpr ((hle.and hne).imp fun hab => ?_)
    exact lt_of_le_of_ne hab.1 hab.2
  · rw [List.length_map, List.length_map]
  · change ((sorted.map Prod.fst).zip (sorted.map Prod.snd)).Perm entries
    rw [List.zip_map', List.map_id'']
    · exact hperm
    · exact fun _ => rfl

section Saved

variable {σ : Type} {stream : StreamDecoder σ} {zstd : Str → Zstd σ}

/-- A database that a run with these settings has written for a root, and the tree that is there
now. The walk of the comparison may get the entries of a directory in another order. -/
structure LiveRun (inv : Invocation) (conf : Conf) (env : ScanEnv) (w : SavedDatabase stream zstd)
    (root : Str) (t t' : Tree) : Prop where
  prepared : inv.confPrepare = some conf
  settings : env.conf = { conf with prunepaths := stringListDirPathSort conf.prunepaths }
  confBlock : w.finished.confBlock = conf.genConfBlock
  nonempty : [] ∉ conf.prunepaths
  hash : conf.metadataHashKind = .none
  mounts : ∀ path, env.isBindMount path = false
  isRoot : IsScanRoot root
  unpruned : root ∉ conf.prunepaths
  below : ∀ r ∈ w.records, StoredBelow root w.records r.path
  inhabited : w.records = [] → root = [47]
  noDigests : ∀ r ∈ w.records, r.metadata.canonical.hash.kind = .none
  readable : t.Readable t.node.dev
  same : SameFiles t t'
  wellFormed : t'.content.WellFormed

variable {inv : Invocation} {conf : Conf} {env : ScanEnv} {w : SavedDatabase stream zstd}
  {root : Str} {t t' : Tree}

theorem LiveRun.mem_prunepaths (h : LiveRun inv conf env w root t t') {path : Str} :
    path ∈ env.conf.prunepaths ↔ path ∈ conf.prunepaths := by
  rw [h.settings]
  exact (List.mergeSort_perm conf.prunepaths _).mem_iff

theorem LiveRun.prunepathsPrepared (h : LiveRun inv conf env w root t t') :
    PrunepathsPrepared env.conf := by
  rw [h.settings]
  exact ⟨conf.prunepaths, nodup_prunepaths h.prepared, rfl⟩

/-- The settings are read as they were written. -/
theorem LiveRun.parseConfBlock_eq (h : LiveRun inv conf env w root t t') :
    parseConfBlock w.finished.confBlock {} = conf.pruneConfig := by
  rw [h.confBlock]
  exact (inv.wf_of_confPrepare h.prepared).parseConfBlock_genConfBlock (upper_prunefs h.prepared)
    h.nonempty

/-- The root of the run is found in what it has stored. -/
theorem LiveRun.scanRoot_eq (h : LiveRun inv conf env w root t t') {snapshot : Snapshot}
    (hholds : snapshot.Holds w.entries) (hscan : snapshot.scanRoot =
      scanRootFromPaths snapshot.paths) : snapshot.scanRoot = root := by
  obtain ⟨hsorted, hlength, hperm⟩ := hholds
  have hpaths : snapshot.paths.Perm (w.records.map (·.path)) := by
    have hmap := hperm.map Prod.fst
    rw [List.map_fst_zip hlength.le, SavedDatabase.entries, keptOf, List.map_map] at hmap
    exact hmap
  rw [hscan]
  cases hp : snapshot.paths with
  | nil =>
      rw [hp] at hpaths
      exact (h.inhabited (List.map_eq_nil_iff.mp hpaths.symm.eq_nil)).symm
  | cons first paths =>
      rw [hp] at hpaths hsorted
      have hmem {path : Str} (hpath : path ∈ first :: paths) : ∃ r ∈ w.records, r.path = path :=
        List.mem_map.mp (hpaths.subset hpath)
      refine scanRootFromPaths_of_first h.isRoot (fun path hpath => ?_) (List.cons_ne_nil _ _) ?_
      · obtain ⟨r, hr, rfl⟩ := hmem hpath
        exact StoredBelow.prefix h.below (h.below r hr)
      · obtain ⟨r, hr, rfl⟩ := hmem List.mem_cons_self
        have hfirst : ∀ r' ∈ w.records, r.path ≤ r'.path := by
          intro r' hr'
          rcases List.mem_cons.mp (hpaths.symm.subset (List.mem_map_of_mem hr')) with heq | hlater
          · exact le_of_eq heq.symm
          · exact le_of_lt ((List.pairwise_cons.mp hsorted).1 _ hlater)
        obtain ⟨name, hpath, hname⟩ := StoredBelow.first h.below (h.below r hr) hfirst
        exact ⟨name, congrArg some hpath, hname⟩

/-- No path is stored twice. -/
theorem LiveRun.nodup_corpus (h : LiveRun inv conf env w root t t') :
    ((scanRoot env root t.node t.content {}).corpus.map FileRecord.path).Nodup := by
  have hhash : env.conf.metadataHashKind = .none := by rw [h.settings, h.hash]
  have hundisturbed := h.readable.undisturbed hhash h.mounts
  rw [corpus_empty h.prunepathsPrepared.sorted hundisturbed]
  exact (walkRoot_walkFrom env {} walkRecords_nil root t.node
    h.readable.wellFormed).toWalkRecords.nodup

theorem hashKind_sortedSnapshot {paths : List Str} {metadata : List FileMetadata}
    (h : ∀ m ∈ metadata, m.hash.kind = .none) :
    (sortedSnapshot paths metadata).hashKind = .none := by
  change ((metadata.map (·.hash.kind)).filter (· ≠ .none)).headD .none = .none
  rw [List.filter_eq_nil_iff.mpr]
  · rfl
  · intro kind hkind
    obtain ⟨m, hm, rfl⟩ := List.mem_map.mp hkind
    rw [h m hm]
    decide

variable {transfer : ℕ → ℕ → Option ℕ} {showEnv : ShowdiffEnv} {db rootArgument : Str}

end Saved

section NewFile

/-- The file has been read after the directory. -/
def treeReordered : Tree :=
  ⟨directoryNodeAt 30, .cons (ascii "a") subdirTree.node subdirTree.content
    (.cons (ascii "b") fileNode .nil .nil)⟩

theorem readable_directoryNodeAt (sec : Int64) (h : 0 ≤ sec) :
    (directoryNodeAt sec).Readable 0 :=
  ⟨rfl, rfl, rfl, fun _ => accessible_directoryNodeAt sec h⟩

theorem readable_file {names : List Str} {node : Node}
    (h : (Tree.mk fileNode .nil).lookup names = some node) : node.Readable 0 := by
  cases names with
  | nil =>
      obtain rfl := Option.some.inj h
      exact ⟨rfl, rfl, rfl, fun hdir => absurd hdir (by decide)⟩
  | cons name names => cases h

theorem readable_subdirTree : subdirTree.Readable 0 := by
  refine readable_of_entries ⟨⟨by decide, by decide, by decide⟩, by decide, trivial, trivial⟩
    (by decide) (readable_directoryNodeAt 20 (by decide)) fun e he names node => ?_
  obtain rfl := List.mem_singleton.mp he
  exact readable_file

theorem readable_treeAfter : treeAfter.Readable 0 := by
  refine readable_of_entries undisturbed_treeAfter.wellFormed (by decide)
    (readable_directoryNodeAt 30 (by decide)) fun e he names node => ?_
  rcases List.mem_cons.mp he with rfl | he
  · exact readable_file
  · obtain rfl := List.mem_singleton.mp he
    exact readable_subdirTree.nodes names node

def rootDirectory : CStr := ⟨[47], by decide⟩

def rootConf : Conf := { scanRoot := some rootDirectory.val }

/-- A run that scans everything, without other settings. -/
def rootScanEnv : ScanEnv where
  conf := { rootConf with prunepaths := stringListDirPathSort rootConf.prunepaths }
  cache _ _ := ⟨1000, 0⟩

/-- A database that is called `db` and a tree that is the same everywhere. -/
def liveDatabase (file : OpenFile) (t : Tree) : ShowdiffEnv where
  files name := if name = ascii "db" then some file else none
  trees _ := t
  live := { prune := {} }

def liveArguments : List Str := [ascii "--live", ascii "/mnt/", ascii "db"]

def liveOptions : ShowdiffOptions where
  liveRoot := some (ascii "/mnt/")
  dbs := [ascii "db"]

theorem storedBelow_records :
    ∀ r ∈ [directoryRecord, fileRecord], StoredBelow [47] [directoryRecord, fileRecord] r.path := by
  rw [List.forall_mem_cons, List.forall_mem_singleton]
  refine ⟨⟨[47], [97], Or.inl rfl, rfl, by decide, by decide⟩, ⟨[47, 97], [98], Or.inr ?_, rfl,
    by decide, by decide⟩⟩
  exact ⟨directoryRecord, List.mem_cons_self, rfl⟩

theorem liveRun_newFile {stream : StreamDecoder ℕ} {zstd : Str → Zstd ℕ}
    {w : SavedDatabase stream zstd} (hrecords : w.records = [directoryRecord, fileRecord])
    (hconf : w.finished.confBlock = rootConf.genConfBlock) :
    LiveRun (invocationAt rootDirectory) rootConf rootScanEnv w [47] treeAfter treeReordered := by
  have hwf : treeReordered.content.WellFormed :=
    ⟨⟨by decide, by decide, by decide⟩, by decide, readable_subdirTree.wellFormed,
      ⟨by decide, by decide, by decide⟩, by decide, trivial, trivial⟩
  exact {
    prepared := confPrepare_invocationAt rootDirectory
    settings := rfl
    confBlock := hconf
    nonempty := List.not_mem_nil
    hash := rfl
    mounts := fun _ => rfl
    isRoot := ⟨rfl, fun _ => rfl⟩
    unpruned := List.not_mem_nil
    below := hrecords ▸ storedBelow_records
    inhabited := fun _ => rfl
    noDigests := hrecords ▸ List.forall_mem_cons.mpr ⟨by decide +kernel,
      List.forall_mem_singleton.mpr (by decide +kernel)⟩
    readable := readable_treeAfter
    same := sameFiles_of_perm rfl readable_treeAfter.wellFormed hwf (List.Perm.swap _ _ _)
    wellFormed := hwf }

end NewFile

end Flocate
