import Flocate.SnapshotDiff
import Flocate.SnapshotRecords
import Flocate.StoredTimes

/-!
# The history and the snapshots

A run records what has changed directory by directory, from the old records of each directory that
it lists. The difference of the snapshots before and after the run has the same events, as long as
no directory with old records is left out.
-/

namespace Flocate

open Bytes

section Merge

variable {entries olds : List Entry}

def Entry.withOld (olds : List Entry) (e : Entry) : Entry :=
  match olds.find? fun o => o.name = e.name with
  | none => e
  | some o =>
      { e with
        dbModified := o.dbModified
        previousMetadata := o.previousMetadata
        existedBefore := true }

def Entry.marked (entries : List Entry) (o : Entry) : Entry :=
  if entries.any fun e => e.name = o.name then { o with matchedInNewScan := true } else o

def NamesIncrease (entries : List Entry) : Prop := entries.Pairwise fun a b => a.name < b.name

theorem withOld_of_lt {e o : Entry} (h : e.name < o.name) (holds : NamesIncrease (o :: olds)) :
    e.withOld (o :: olds) = e := by
  have hnone : (o :: olds).find? (fun o => o.name = e.name) = none := by
    rw [List.find?_eq_none, List.forall_mem_cons]
    refine ⟨by simpa using ne_of_gt h, fun o' ho' => ?_⟩
    have hlt := List.lt_trans h ((List.pairwise_cons.mp holds).1 o' ho')
    simpa using ne_of_gt hlt
  rw [Entry.withOld, hnone]

theorem withOld_of_gt {e o : Entry} (h : o.name < e.name) :
    e.withOld (o :: olds) = e.withOld olds := by
  rw [Entry.withOld, Entry.withOld, List.find?_cons_of_neg (by simpa using ne_of_lt h)]

theorem marked_of_ne {e o : Entry} (h : e.name ≠ o.name) :
    o.marked (e :: entries) = o.marked entries := by
  rw [Entry.marked, Entry.marked, List.any_cons, decide_eq_false h, Bool.false_or]

theorem marked_of_lt {o : Entry} (h : ∀ e ∈ entries, o.name < e.name) :
    o.marked entries = o := by
  rw [Entry.marked, if_neg]
  rw [Bool.not_eq_true, List.any_eq_false]
  intro e he
  simpa using ne_of_gt (h e he)

/-- Merging two sorted lists looks every entry up in the other one. -/
theorem mergeOld_eq (hentries : NamesIncrease entries) (holds : NamesIncrease olds) :
    mergeOld entries olds =
      (entries.map (Entry.withOld olds), olds.map (Entry.marked entries)) := by
  induction entries, olds using mergeOld.induct with
  | case1 olds =>
      rw [mergeOld]
      refine Prod.ext rfl ?_
      conv_lhs => rw [← List.map_id olds]
      rfl
  | case2 entries h =>
      cases entries with
      | nil => exact absurd rfl h
      | cons e entries =>
          rw [mergeOld]
          · refine Prod.ext ?_ rfl
            conv_lhs => rw [← List.map_id (e :: entries)]
            rfl
          · exact h
  | case3 e entries old olds hlt entries' olds' hrest ih =>
      have hall := (List.pairwise_cons.mp holds).1
      rw [mergeOld, if_pos hlt, ih (List.pairwise_cons.mp hentries).2 holds]
      refine Prod.ext ?_ (List.map_congr_left fun o ho => ?_)
      · exact congrArg₂ List.cons (withOld_of_lt hlt holds).symm rfl
      · refine (marked_of_ne ?_).symm
        rcases List.mem_cons.mp ho with rfl | ho
        · exact ne_of_lt hlt
        · exact ne_of_lt (List.lt_trans hlt (hall o ho))
  | case4 e entries old olds hlt heq entries' olds' hrest ih =>
      have hbehind := (List.pairwise_cons.mp hentries).1
      have hall := (List.pairwise_cons.mp holds).1
      have hold : NamesIncrease ({ old with matchedInNewScan := true } :: olds) := by
        exact List.pairwise_cons.mpr ⟨hall, (List.pairwise_cons.mp holds).2⟩
      rw [mergeOld, if_neg hlt, if_pos heq, ih (List.pairwise_cons.mp hentries).2 hold]
      refine Prod.ext ?_ ?_
      · have hfound : e.withOld (old :: olds) =
            { e with
              dbModified := old.dbModified
              previousMetadata := old.previousMetadata
              existedBefore := true } := by
          rw [Entry.withOld, List.find?_cons_of_pos (by exact decide_eq_true heq.symm)]
        refine congrArg₂ List.cons hfound.symm (List.map_congr_left fun e' he' => ?_)
        have hlt' : old.name < e'.name := heq ▸ hbehind e' he'
        rw [withOld_of_gt hlt']
        exact withOld_of_gt hlt'
      · have hmarked : old.marked (e :: entries) = { old with matchedInNewScan := true } := by
          rw [Entry.marked, List.any_cons, decide_eq_true heq, Bool.true_or, if_pos rfl]
        refine congrArg₂ List.cons ?_ (List.map_congr_left fun o ho => ?_)
        · rw [hmarked]
          exact marked_of_lt fun e' he' => heq ▸ hbehind e' he'
        · exact (marked_of_ne (heq ▸ ne_of_lt (hall o ho))).symm
  | case5 e entries old olds hlt hne entries' olds' hrest ih =>
      have hgt : old.name < e.name := lt_of_le_of_ne (not_lt.mp hlt) (Ne.symm hne)
      have hbehind : ∀ e' ∈ e :: entries, old.name < e'.name := by
        rw [List.forall_mem_cons]
        exact ⟨hgt, fun e' he' => List.lt_trans hgt ((List.pairwise_cons.mp hentries).1 e' he')⟩
      rw [mergeOld, if_neg hlt, if_neg hne, ih hentries (List.pairwise_cons.mp holds).2]
      refine Prod.ext (List.map_congr_left fun e' he' => ?_) ?_
      · exact (withOld_of_gt (hbehind e' he')).symm
      · exact congrArg₂ List.cons (marked_of_lt hbehind).symm rfl

end Merge

section Entries

variable {env : ScanEnv} {old : OldDatabase} {args : ScanArgs} {dir : Dir} {e : Entry}
  {event : HistoryEvent}

theorem namesIncrease_listing (hdir : dir.WellFormed) :
    NamesIncrease (sortEntries ((dir.found env).map Found.entry)) := by
  refine pairwise_sortEntries _ ?_
  rw [List.map_map]
  exact (map_name_found dir).symm ▸ hdir.nodup

/-- An entry knows what the old database says about its path. -/
theorem takenEntries_old (hold : WalkRecords old.records) (hdir : dir.WellFormed)
    (he : e ∈ takenEntries env old args dir) :
    e.existedBefore = true ∧ (∃ r ∈ old.records, r.path = withSlash args.path ++ e.name ∧
        r.metadata = e.previousMetadata) ∨
      e.existedBefore = false ∧ e.previousMetadata = {} ∧
        ∀ r ∈ old.records, r.path ≠ withSlash args.path ++ e.name := by
  have hslash := ((takenEntries_spec env hold args hdir).2 e he).2
  unfold takenEntries at he
  split at he
  · obtain ⟨r, hr, hrdir, rfl⟩ := mem_entriesOf.mp he
    exact Or.inl ⟨rfl, r, hr, path_of_dir hrdir, rfl⟩
  · rw [mergeOld_eq (namesIncrease_listing hdir) (entriesOf_spec hold args.path).1,
      List.mem_map] at he
    obtain ⟨e', he', rfl⟩ := he
    rw [sortEntries, List.mem_mergeSort, List.mem_map] at he'
    obtain ⟨f, -, rfl⟩ := he'
    rw [Entry.withOld] at hslash ⊢
    cases hfind : (entriesOf old.records args.path).find? fun o => o.name = f.entry.name with
    | none =>
        rw [hfind] at hslash
        refine Or.inr ⟨rfl, rfl, fun r hr hpath => ?_⟩
        obtain ⟨hrdir, hrname⟩ := dir_name_of_path hslash hpath
        have hmem := mem_entriesOf.mpr ⟨r, hr, hrdir, rfl⟩
        exact absurd (decide_eq_true hrname) (List.find?_eq_none.mp hfind _ hmem)
    | some o =>
        obtain ⟨r, hr, hrdir, rfl⟩ := mem_entriesOf.mp (List.mem_of_find?_eq_some hfind)
        have hfound := List.find?_some hfind
        have hrname : r.name = f.entry.name := of_decide_eq_true hfound
        exact Or.inl ⟨rfl, r, hr, hrname ▸ path_of_dir hrdir, rfl⟩

theorem name_withOld (olds : List Entry) (e : Entry) : (e.withOld olds).name = e.name := by
  rw [Entry.withOld]
  split <;> rfl

theorem removedEvent_marked (entries : List Entry) {o : Entry}
    (ho : o.matchedInNewScan = false) :
    removedEvent env args (o.marked entries) = some event ↔ (∀ e ∈ entries, e.name ≠ o.name) ∧
      makeTimedEvent env .removed (withSlash args.path ++ o.name) o.previousMetadata {} =
        event := by
  rw [Entry.marked]
  split
  · rename_i hany
    obtain ⟨e, he, hname⟩ := List.any_eq_true.mp hany
    refine iff_of_false (Option.some_ne_none event).symm fun h => ?_
    exact h.1 e he (of_decide_eq_true hname)
  · rename_i hnone
    rw [Bool.not_eq_true, List.any_eq_false] at hnone
    rw [removedEvent, ho, if_neg Bool.false_ne_true, Option.some.injEq]
    refine (and_iff_right fun e he hname => ?_).symm
    exact hnone e he (decide_eq_true hname)

/-- What is recorded as removed is what the directory has in the old database only. -/
theorem exists_removedEvent_iff (hold : WalkRecords old.records) (hdir : dir.WellFormed) :
    (∃ o ∈ comparedEntries env old args dir, removedEvent env args o = some event) ↔
      ∃ r ∈ old.records, r.dir = withSlash args.path ∧
        (∀ e ∈ takenEntries env old args dir, e.name ≠ r.name) ∧
          makeTimedEvent env .removed r.path r.metadata {} = event := by
  unfold comparedEntries takenEntries
  split
  · constructor
    · rintro ⟨o, ho, -⟩
      cases ho
    · rintro ⟨r, hr, hrdir, hnone, -⟩
      exact absurd rfl (hnone r.oldEntry (mem_entriesOf.mpr ⟨r, hr, hrdir, rfl⟩))
  · rw [mergeOld_eq (namesIncrease_listing hdir) (entriesOf_spec hold args.path).1]
    dsimp only
    constructor
    · rintro ⟨o', ho', hevent⟩
      obtain ⟨o, ho, rfl⟩ := List.mem_map.mp ho'
      obtain ⟨r, hr, hrdir, rfl⟩ := mem_entriesOf.mp ho
      obtain ⟨hnone, hevent⟩ := (removedEvent_marked _ rfl).mp hevent
      refine ⟨r, hr, hrdir, fun e he => ?_, path_of_dir hrdir ▸ hevent⟩
      obtain ⟨e', he', rfl⟩ := List.mem_map.mp he
      exact name_withOld _ e' ▸ hnone e' he'
    · rintro ⟨r, hr, hrdir, hnone, hevent⟩
      refine ⟨_, List.mem_map_of_mem (mem_entriesOf.mpr ⟨r, hr, hrdir, rfl⟩),
        (removedEvent_marked _ rfl).mpr ⟨fun e he => ?_, ?_⟩⟩
      · exact name_withOld (entriesOf old.records args.path) e ▸ hnone _ (List.mem_map_of_mem he)
      · exact path_of_dir hrdir ▸ hevent

end Entries

def Dir.Statted : Dir → Prop
  | nil => True
  | cons _ node content rest =>
      (node.metadata.enabled = true ∧ node.metadata.hash = {}) ∧ content.Statted ∧ rest.Statted

/-- Nothing is in a hash but its digest. -/
def MetadataHash.Fits (hash : MetadataHash) : Prop := ofDigest hash.kind hash.digest = hash

section Metadata

variable {env : ScanEnv} {old : OldDatabase} {args : ScanArgs} {dir : Dir} {e : Entry}
  {root : Str} {records : List FileRecord}

theorem fits_ofDigest {kind : MetadataHashKind} {bytes : Str} (h : bytes.length ≤ 32) :
    (MetadataHash.ofDigest kind bytes).Fits := by
  rw [MetadataHash.Fits, MetadataHash.digest_ofDigest kind bytes h]
  rfl

theorem MetadataHash.length_digest_le (hash : MetadataHash) : hash.digest.length ≤ 32 := by
  rw [digest, List.length_take, Vector.length_toList]
  exact Nat.min_le_right _ _

theorem canonical_eq_iff {metadata : FileMetadata} (h : metadata.enabled = true) :
    metadata.canonical = metadata ↔ metadata.hash.Fits := by
  rw [FileMetadata.canonical, if_pos h, MetadataHash.Fits]
  constructor
  · exact congrArg FileMetadata.hash
  · intro hfits
    rw [hfits]

theorem canonical_canonical (metadata : FileMetadata) :
    metadata.canonical.canonical = metadata.canonical := by
  cases henabled : metadata.enabled with
  | false =>
      have hempty : metadata.canonical = {} := by
        rw [FileMetadata.canonical, henabled, if_neg Bool.false_ne_true]
      rw [hempty]
      rfl
  | true =>
      have hcanonical : metadata.canonical.enabled = true := by
        rw [FileMetadata.canonical, if_pos henabled]
        exact henabled
      rw [canonical_eq_iff hcanonical, FileMetadata.canonical, if_pos henabled]
      exact fits_ofDigest metadata.hash.length_digest_le

theorem RootDatabase.canonical (h : RootDatabase root records) :
    ∀ r ∈ records, r.metadata.canonical = r.metadata := by
  induction h with
  | empty => exact List.forall_mem_nil _
  | run env node content existing _ _ _ _ _ =>
      intro r hr
      obtain ⟨r, -, rfl⟩ := List.mem_map.mp hr
      exact canonical_canonical r.metadata
  | part _ hstart ih => exact fun r hr => ih r (hstart.subset hr)

theorem Dir.Statted.find (h : dir.Statted) {name : Str} {t : Tree} (ht : dir.find name = some t) :
    (t.node.metadata.enabled = true ∧ t.node.metadata.hash = {}) ∧ t.content.Statted := by
  induction dir with
  | nil => cases ht
  | cons n node content rest _ ih =>
      rw [Dir.find] at ht
      split at ht
      · obtain rfl := Option.some.inj ht
        exact ⟨h.1, h.2.1⟩
      · exact ih h.2.2 ht

theorem fits_fileHash {path : Str} {allowed : Bool} {prev metadata : FileMetadata}
    (hdigests : ∀ path hash, env.computeFileHash path = some hash → hash.Fits)
    (hprev : prev.canonical = prev) (hmetadata : metadata.hash = {}) :
    (fileHash env path allowed prev metadata).Fits := by
  have hnone : MetadataHash.Fits {} := by
    unfold MetadataHash.Fits
    decide
  unfold fileHash
  split
  · dsimp only
    split
    · rename_i hreuse
      have henabled : prev.enabled = true := by
        rw [reusePreviousHash] at hreuse
        simp only [Bool.and_eq_true] at hreuse
        exact hreuse.1.1.1.1.1.2
      exact (canonical_eq_iff henabled).mp hprev
    · split
      · cases hdigest : env.computeFileHash path with
        | none => exact hnone
        | some hash => exact hdigests path hash hdigest
      · exact hmetadata ▸ hnone
  · exact hmetadata ▸ hnone

theorem takenEntries_metadata (he : e ∈ takenEntries env old args dir) : e.metadata = {} := by
  unfold takenEntries at he
  split at he
  · obtain ⟨r, -, -, rfl⟩ := mem_entriesOf.mp he
    rfl
  · have hmem := List.mem_map_of_mem (f := Entry.forget) he
    rw [map_forget_mergeOld, List.mem_map] at hmem
    obtain ⟨e', he', heq⟩ := hmem
    rw [sortEntries, List.mem_mergeSort, List.mem_map] at he'
    obtain ⟨f, -, rfl⟩ := he'
    exact (congrArg Entry.metadata heq).symm

def statMetadata (env : ScanEnv) (args : ScanArgs) (dir : Dir) (e : Entry) : FileMetadata :=
  (statEntry env args (dir.found env) e).metadata

/-- What is stored of an entry is what a reader of the database gets back. -/
theorem statMetadata_canonical (hold : WalkRecords old.records)
    (hcanonical : ∀ r ∈ old.records, r.metadata.canonical = r.metadata) (hdir : dir.WellFormed)
    (hstatted : dir.Statted)
    (hdigests : ∀ path hash, env.computeFileHash path = some hash → hash.Fits)
    (he : e ∈ takenEntries env old args dir) :
    (statMetadata env args dir e).canonical = statMetadata env args dir e := by
  have hprev : e.previousMetadata.canonical = e.previousMetadata := by
    rcases takenEntries_old hold hdir he with ⟨-, r, hr, -, hmetadata⟩ | ⟨-, hmetadata, -⟩
    · exact hmetadata ▸ hcanonical r hr
    · rw [hmetadata]
      rfl
  rw [statMetadata, statEntry, lookup_found]
  cases hfind : dir.find e.name with
  | none =>
      rw [Option.map_none, takenEntries_metadata he]
      rfl
  | some t =>
      obtain ⟨⟨henabled, hhash⟩, -⟩ := hstatted.find hfind
      rw [Option.map_some]
      dsimp only
      split
      · rw [takenEntries_metadata he]
        rfl
      · rw [canonical_eq_iff (by exact henabled)]
        exact fits_fileHash hdigests hprev hhash

end Metadata

section Find

variable {snapshot : Snapshot} {records : List (Str × FileMetadata)} {p : Str}
  {m : FileMetadata}

/-- A snapshot says about a path what the records say that it is taken from. -/
theorem Snapshot.Holds.find_iff (h : snapshot.Holds records) :
    snapshot.find p = some m ↔ (p, m) ∈ records := by
  have hsorted : snapshot.Sorted := ⟨h.2.1, h.1⟩
  rw [Snapshot.find, hsorted.increasing.lookup_eq_some_iff]
  exact h.2.2.mem_iff

end Find

def HistoryEvent.stamp (env : ScanEnv) (event : HistoryEvent) : HistoryEvent :=
  { event with eventTime := env.realtime event.path }

/-- The run lists a directory, which is given with its slash. -/
def ListsDirectory (env : ScanEnv) (old : OldDatabase) (root : Str) (t : Tree) (dir : Str) :
    Prop :=
  ∃ a d, ScanCall env old (rootArgs env root t.node) t.content a d ∧ ListsEntries env old a ∧
    dir = withSlash a.path

/-- `fstatat` works for every entry of the directories that the run lists. -/
def StatsSucceed (env : ScanEnv) (old : OldDatabase) (root : Str) (t : Tree) : Prop :=
  ∀ a d, ScanCall env old (rootArgs env root t.node) t.content a d → ListsEntries env old a →
    ∀ e ∈ takenEntries env old a d, ∃ sub, d.find e.name = some sub ∧ sub.node.statFails = false

/-- A run that records its history, and the snapshots of the databases before and after it. -/
structure RecordedRun (env : ScanEnv) (old : OldDatabase) (root : Str) (t : Tree)
    (before after : Snapshot) : Prop where
  conf : PrunepathsPrepared env.conf
  wellFormed : t.content.WellFormed
  statted : t.content.Statted
  digests : ∀ path hash, env.computeFileHash path = some hash → hash.Fits
  usable : RootDatabase root old.records
  error : old.error = false
  history : env.recordHistory = true
  stats : StatsSucceed env old root t
  oldSnapshot : before.Holds (old.records.map fun r => (r.path, r.metadata))
  newSnapshot : after.Holds ((scanRoot env root t.node t.content old).corpus.map
    fun r => (r.path, r.metadata.canonical))

section History

variable {env : ScanEnv} {old : OldDatabase} {root p : Str} {t : Tree} {before after : Snapshot}
  {m : FileMetadata} {a : ScanArgs} {d : Dir} {e : Entry} {event change : HistoryEvent}

theorem RecordedRun.events (h : RecordedRun env old root t before after) :
    (scanRoot env root t.node t.content old).history =
      (walkTree env old (rootArgs env root t.node) t.content).events := by
  have hwalk := (scanRoot_eq_walkRoot old h.conf.sorted h.usable.walkFrom.toWalkRecords h.error root
    h.usable.walkFrom.below t.node h.wellFormed).2
  rwa [h.history, if_pos rfl] at hwalk

theorem RecordedRun.find_before (h : RecordedRun env old root t before after) :
    before.find p = some m ↔ ∃ r ∈ old.records, r.path = p ∧ r.metadata = m := by
  rw [h.oldSnapshot.find_iff, List.mem_map]
  simp only [Prod.mk.injEq]

theorem ScanCall.statted {args : ScanArgs} {dir : Dir} (h : ScanCall env old args dir a d)
    (hdir : dir.Statted) : d.Statted := by
  induction h with
  | here args dir => exact hdir
  | inside he _ ih => exact ih (hdir.find he.find).2

theorem record_metadata (env : ScanEnv) (a : ScanArgs) (d : Dir) (e : Entry) :
    ((openEntry env a (d.found env) (statEntry env a (d.found env) e)).record a).metadata =
      statMetadata env a d e := openEntry_metadata

theorem record_path (env : ScanEnv) (a : ScanArgs) (d : Dir) (e : Entry) :
    ((openEntry env a (d.found env) (statEntry env a (d.found env) e)).record a).path =
      withSlash a.path ++ e.name :=
  congrArg (withSlash a.path ++ ·) (name_openEntry.trans name_statEntry)

/-- The snapshot after the run has what the entries of its calls turn out to be. -/
theorem RecordedRun.find_after (h : RecordedRun env old root t before after) :
    after.find p = some m ↔ ∃ a d, ScanCall env old (rootArgs env root t.node) t.content a d ∧
      ListsEntries env old a ∧ ∃ e ∈ takenEntries env old a d, withSlash a.path ++ e.name = p ∧
        statMetadata env a d e = m := by
  have hrecords := h.usable.walkFrom.toWalkRecords
  have hcanonical {a d} (hcall : ScanCall env old (rootArgs env root t.node) t.content a d)
      {e : Entry} (he : e ∈ takenEntries env old a d) :
      (statMetadata env a d e).canonical = statMetadata env a d e :=
    statMetadata_canonical hrecords h.usable.canonical (hcall.wellFormed h.wellFormed)
      (hcall.statted h.statted) h.digests he
  rw [h.newSnapshot.find_iff, List.mem_map,
    corpus_eq_walkTree h.conf h.wellFormed h.usable h.error]
  constructor
  · rintro ⟨r, hr, heq⟩
    obtain ⟨rfl, rfl⟩ := Prod.mk.inj heq
    obtain ⟨a, d, hcall, hlists, e', he', rfl⟩ := mem_records.mp hr
    obtain ⟨e, he, rfl⟩ := List.mem_map.mp he'
    refine ⟨a, d, hcall, hlists, e, he, (record_path env a d e).symm, ?_⟩
    rw [record_metadata, hcanonical hcall he]
  · rintro ⟨a, d, hcall, hlists, e, he, rfl, rfl⟩
    refine ⟨_, mem_records.mpr ⟨a, d, hcall, hlists, _, List.mem_map_of_mem he, rfl⟩, ?_⟩
    rw [record_path, record_metadata, hcanonical hcall he]

/-- The event for an entry is the one for its path in the difference. -/
theorem RecordedRun.statEvent_eq (h : RecordedRun env old root t before after)
    (hcall : ScanCall env old (rootArgs env root t.node) t.content a d)
    (hlists : ListsEntries env old a) (he : e ∈ takenEntries env old a d) :
    statEvent env a (d.found env) e = (diffAt env.compareAtime (withSlash a.path ++ e.name)
      (before.find (withSlash a.path ++ e.name))
      (after.find (withSlash a.path ++ e.name))).map (HistoryEvent.stamp env) := by
  have hafter := h.find_after.mpr ⟨a, d, hcall, hlists, e, he, rfl, rfl⟩
  obtain ⟨sub, hfind, hstat⟩ := h.stats a d hcall hlists e he
  have hold := takenEntries_old h.usable.walkFrom.toWalkRecords (hcall.wellFormed h.wellFormed) he
  rw [hafter, statEvent, lookup_found, hfind, Option.map_some]
  dsimp only
  rw [hstat, if_neg Bool.false_ne_true]
  rcases hold with ⟨hexisted, hrecord⟩ | ⟨hexisted, -, hnone⟩
  · rw [h.find_before.mpr hrecord, diffAt, hexisted, if_neg (by decide), metadataEquals_comm,
      statMetadata]
    cases metadataEquals e.previousMetadata (statEntry env a (d.found env) e).metadata
      env.compareAtime with
    | false => rfl
    | true => rfl
  · have hbefore : before.find (withSlash a.path ++ e.name) = none := by
      rw [Option.eq_none_iff_forall_ne_some]
      intro m hm
      obtain ⟨r, hr, hpath, -⟩ := h.find_before.mp hm
      exact hnone r hr hpath
    rw [hbefore, diffAt, hexisted, if_pos (by decide)]
    rfl

/-- What is left of a directory has nothing at the paths that are gone. -/
theorem RecordedRun.find_after_removed (h : RecordedRun env old root t before after)
    (hcall : ScanCall env old (rootArgs env root t.node) t.content a d) {r : FileRecord}
    (hdir : r.dir = withSlash a.path) (hnone : ∀ e ∈ takenEntries env old a d, e.name ≠ r.name) :
    after.find r.path = none := by
  have hrecords := h.usable.walkFrom.toWalkRecords
  rw [Option.eq_none_iff_forall_ne_some]
  intro m hm
  obtain ⟨a', d', hcall', -, e, he, hpath, -⟩ := h.find_after.mp hm
  have hslash := ((takenEntries_spec env hrecords a' (hcall'.wellFormed h.wellFormed)).2 e he).2
  obtain ⟨hdir', hname⟩ := dir_name_of_path hslash hpath.symm
  obtain ⟨rfl, rfl⟩ := hcall'.unique hrecords h.wellFormed hcall (hdir'.symm.trans hdir)
  exact hnone e he hname.symm

theorem diffAt_removed_iff {compareAtime : Bool} {before after : Option FileMetadata}
    (h : diffAt compareAtime p before after = some change) :
    change.kind = .removed ↔ after = none := by
  cases before with
  | none =>
      cases after with
      | none => cases h
      | some n =>
          obtain rfl := Option.some.inj h
          exact iff_of_false (by rintro ⟨⟩) (by rintro ⟨⟩)
  | some m =>
      cases after with
      | none =>
          obtain rfl := Option.some.inj h
          exact iff_of_true rfl rfl
      | some n =>
          rw [diffAt] at h
          split at h
          · cases h
          · obtain rfl := Option.some.inj h
            exact iff_of_false (by rintro ⟨⟩) (by rintro ⟨⟩)

theorem RecordedRun.mem_diff (h : RecordedRun env old root t before after) :
    change ∈ diffSnapshots env.compareAtime before after ↔ diffAt env.compareAtime change.path
      (before.find change.path) (after.find change.path) = some change := by
  have hbefore : before.Sorted := ⟨h.oldSnapshot.2.1, h.oldSnapshot.1⟩
  have hafter : after.Sorted := ⟨h.newSnapshot.2.1, h.newSnapshot.1⟩
  exact mem_diffEntries hbefore.increasing hafter.increasing

/-- What a run records is the difference of the snapshots without what is removed from directories
that the run does not list. -/
theorem RecordedRun.mem_history (h : RecordedRun env old root t before after) :
    event ∈ (scanRoot env root t.node t.content old).history ↔
      ∃ change ∈ diffSnapshots env.compareAtime before after, change.stamp env = event ∧
        (change.kind = .removed → ListsDirectory env old root t (dirPart change.path)) := by
  have hrecords := h.usable.walkFrom.toWalkRecords
  rw [h.events, mem_events]
  constructor
  · rintro ⟨a, d, hcall, hlists, ⟨e, he, hevent⟩ | hremoved⟩
    · rw [h.statEvent_eq hcall hlists he, Option.map_eq_some_iff] at hevent
      obtain ⟨change, hchange, rfl⟩ := hevent
      have hpath := diffAt_path hchange
      rw [← hpath] at hchange
      refine ⟨change, h.mem_diff.mpr hchange, rfl, fun hkind => ?_⟩
      have hafter := (diffAt_removed_iff hchange).mp hkind
      rw [hpath, h.find_after.mpr ⟨a, d, hcall, hlists, e, he, rfl, rfl⟩] at hafter
      cases hafter
    · obtain ⟨r, hr, hdir, hnone, rfl⟩ := (exists_removedEvent_iff hrecords
        (hcall.wellFormed h.wellFormed)).mp hremoved
      have hafter := h.find_after_removed hcall hdir hnone
      have hbefore := h.find_before.mpr ⟨r, hr, rfl, rfl⟩
      refine ⟨makeEvent .removed r.path r.metadata {}, h.mem_diff.mpr ?_, rfl, fun _ => ?_⟩
      · rw [show (makeEvent .removed r.path r.metadata {}).path = r.path from rfl, hbefore, hafter]
        rfl
      · exact ⟨a, d, hcall, hlists, hdir⟩
  · rintro ⟨change, hchange, rfl, hlisted⟩
    rw [h.mem_diff] at hchange
    cases hafter : after.find change.path with
    | some n =>
        obtain ⟨a, d, hcall, hlists, e, he, hpath, -⟩ := h.find_after.mp hafter
        refine ⟨a, d, hcall, hlists, Or.inl ⟨e, he, ?_⟩⟩
        rw [h.statEvent_eq hcall hlists he, hpath, hchange]
        rfl
    | none =>
        obtain ⟨a, d, hcall, hlists, hdir⟩ := hlisted ((diffAt_removed_iff hchange).mpr hafter)
        rw [hafter] at hchange
        cases hbefore : before.find change.path with
        | none =>
            rw [hbefore] at hchange
            cases hchange
        | some m =>
            rw [hbefore] at hchange
            obtain ⟨r, hr, hpath, rfl⟩ := h.find_before.mp hbefore
            have hrdir : r.dir = withSlash a.path := by rw [FileRecord.dir, hpath, hdir]
            refine ⟨a, d, hcall, hlists, Or.inr ((exists_removedEvent_iff hrecords
              (hcall.wellFormed h.wellFormed)).mpr ⟨r, hr, hrdir, fun e he hname => ?_, ?_⟩)⟩
            · have hstored := h.find_after.mpr ⟨a, d, hcall, hlists, e, he, rfl, rfl⟩
              rw [hname, ← path_of_dir hrdir, hpath, hafter] at hstored
              cases hstored
            · rw [← Option.some.inj hchange, hpath]
              rfl

/-- No directory with old records is left out by the run. -/
def DirectoriesRemain (env : ScanEnv) (old : OldDatabase) (root : Str) (t : Tree) : Prop :=
  ∀ r ∈ old.records, ListsDirectory env old root t r.dir

/-- The history has the whole difference exactly if no directory with old records is left out. -/
theorem RecordedRun.diff_in_history_iff (h : RecordedRun env old root t before after) :
    (∀ change ∈ diffSnapshots env.compareAtime before after,
      change.stamp env ∈ (scanRoot env root t.node t.content old).history) ↔
        DirectoriesRemain env old root t := by
  constructor
  · intro hall r hr
    have hbefore := h.find_before.mpr ⟨r, hr, rfl, rfl⟩
    cases hafter : after.find r.path with
    | some m =>
        obtain ⟨a, d, hcall, hlists, e, he, hpath, -⟩ := h.find_after.mp hafter
        have hnames := (takenEntries_spec env h.usable.walkFrom.toWalkRecords a
          (hcall.wellFormed h.wellFormed)).2
        exact ⟨a, d, hcall, hlists, (dir_name_of_path (hnames e he).2 hpath.symm).1⟩
    | none =>
        have hchange : makeEvent .removed r.path r.metadata {} ∈
            diffSnapshots env.compareAtime before after := by
          rw [h.mem_diff, show (makeEvent .removed r.path r.metadata {}).path = r.path from rfl,
            hbefore, hafter]
          rfl
        obtain ⟨change, -, hstamp, hlisted⟩ := h.mem_history.mp (hall _ hchange)
        have hkind : change.kind = .removed := congrArg HistoryEvent.kind hstamp
        have hpath : change.path = r.path := congrArg HistoryEvent.path hstamp
        have hdir := hlisted hkind
        rwa [hpath] at hdir
  · intro hremain change hchange
    refine h.mem_history.mpr ⟨change, hchange, rfl, fun hkind => ?_⟩
    rw [h.mem_diff] at hchange
    rw [diffAt_removed_iff hchange] at hkind
    rw [hkind] at hchange
    cases hbefore : before.find change.path with
    | none =>
        rw [hbefore] at hchange
        cases hchange
    | some m =>
        obtain ⟨r, hr, hpath, -⟩ := h.find_before.mp hbefore
        exact hpath ▸ hremain r hr

/-- A run records the difference of the snapshots, but for what is removed from directories that it
does not list, so all of it exactly if there are no old records from such directories. -/
theorem history_difference (h : RecordedRun env old root t before after) :
    (∀ event, event ∈ (scanRoot env root t.node t.content old).history ↔
      ∃ change ∈ diffSnapshots env.compareAtime before after, change.stamp env = event ∧
        (change.kind = .removed → ListsDirectory env old root t (dirPart change.path))) ∧
      ((∀ change ∈ diffSnapshots env.compareAtime before after,
        change.stamp env ∈ (scanRoot env root t.node t.content old).history) ↔
          DirectoriesRemain env old root t) :=
  ⟨fun _ => h.mem_history, h.diff_in_history_iff⟩

end History

section Vanished

def snapshotOf (records : List FileRecord) : Snapshot :=
  sortedSnapshot (records.map FileRecord.path) (records.map FileRecord.metadata)

theorem WalkRecords.nodup {records : List FileRecord} (h : WalkRecords records) :
    (records.map FileRecord.path).Nodup := by
  rw [List.Nodup, List.pairwise_map]
  apply h.order.imp
  intro a b hlt hpath
  have hdir : a.dir = b.dir := congrArg dirPart hpath
  have hname : a.name = b.name := congrArg namePart hpath
  rcases hlt with hlt | ⟨-, hlt⟩
  · exact DirLt.irrefl _ (hdir ▸ hlt)
  · exact List.lt_irrefl _ (hname ▸ hlt)

theorem holds_snapshotOf {records : List FileRecord} (h : WalkRecords records)
    (hlength : records.length < 2 ^ 32) :
    (snapshotOf records).Holds (records.map fun r => (r.path, r.metadata)) := by
  have hspec := sortedSnapshot_spec (records.map FileRecord.path)
    (records.map FileRecord.metadata) (by simp) (by simpa using hlength) h.nodup
  rwa [List.zip_map'] at hspec

def historyEnv : ScanEnv := { lateEnv with recordHistory := true }

/-- The database of a run on a tree with a file in the directory `a`. -/
def beforeVanishing : List FileRecord :=
  (scanRoot historyEnv [47] treeBefore.node treeBefore.content {}).corpus.map FileRecord.reread

/-- The directory `a` is gone, with what was in it. -/
def vanishedTree : Tree := ⟨directoryNodeAt 30, .nil⟩

theorem scanCall_vanishedTree {old : OldDatabase} {a : ScanArgs} {d : Dir}
    (h : ScanCall historyEnv old (rootArgs historyEnv [47] vanishedTree.node) vanishedTree.content
      a d) : a = rootArgs historyEnv [47] vanishedTree.node ∧ d = .nil := by
  cases h with
  | here => exact ⟨rfl, rfl⟩
  | inside he _ => cases he.find

theorem rootDatabase_beforeVanishing : RootDatabase [47] beforeVanishing := by
  apply RootDatabase.run historyEnv treeBefore.node treeBefore.content {}
    (prunepathsPrepared_nil rfl) undisturbed_treeBefore.wellFormed rfl .empty

/-- That the file is removed does not come into the history. -/
theorem not_diff_in_history_vanished :
    ¬∀ change ∈ diffSnapshots false (snapshotOf beforeVanishing) (snapshotOf []),
      change.stamp historyEnv ∈ (scanRoot historyEnv [47] vanishedTree.node vanishedTree.content
        { records := beforeVanishing }).history := by
  have hconf : PrunepathsPrepared historyEnv.conf := prunepathsPrepared_nil rfl
  have hwalk := rootDatabase_beforeVanishing.walkFrom.toWalkRecords
  have hrun : RecordedRun historyEnv { records := beforeVanishing } [47] vanishedTree
      (snapshotOf beforeVanishing) (snapshotOf []) := by
    refine ⟨hconf, trivial, trivial, fun _ _ h => ?_, rootDatabase_beforeVanishing, rfl, rfl, ?_,
      holds_snapshotOf hwalk (by decide +kernel), ?_⟩
    · cases h
    · intro a d hcall _ e he
      obtain ⟨rfl, rfl⟩ := scanCall_vanishedTree hcall
      rw [takenEntries, if_neg (by decide +kernel)] at he
      change e ∈ (mergeOld (sortEntries []) _).1 at he
      rw [sortEntries, List.mergeSort_nil, mergeOld] at he
      cases he
    · have hempty : (scanRoot historyEnv [47] vanishedTree.node vanishedTree.content
          { records := beforeVanishing }).corpus = [] := by decide +kernel
      rw [hempty]
      exact holds_snapshotOf walkRecords_nil (by decide)
  intro hall
  have hremain := (history_difference hrun).2.mp hall
  have hmem : ascii "/a/" ∈ beforeVanishing.map FileRecord.dir := by decide +kernel
  obtain ⟨r, hr, hdir⟩ := List.mem_map.mp hmem
  obtain ⟨a, d, hcall, -, hlisted⟩ := hremain r hr
  obtain ⟨rfl, -⟩ := scanCall_vanishedTree hcall
  exact absurd (hdir.symm.trans hlisted) (by decide)

end Vanished

end Flocate
