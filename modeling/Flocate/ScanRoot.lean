import Flocate.PrunepathsOrder
import Flocate.Snapshot

/-!
# The root of a walk

A walk stores every entry after the directory that it is in, and the root itself is not stored. So
the first path in byte order is an entry of the root, and the last slash of what it has in common
with the last path ends the root.
-/

namespace Flocate

open Bytes

/-- A path as `realpath` returns it has a slash at its end only if it is the root directory. -/
def IsScanRoot (root : Str) : Prop :=
  root.head? = some 47 ∧ (root.getLast? = some 47 → root = [47])

section Stored

variable {env : ScanEnv} {args : ScanArgs} {listing : List Found} {root : Str} {s s' : ScanState}

def StoredDir (root : Str) (records : List FileRecord) (dir : Str) : Prop :=
  dir = root ∨ ∃ r ∈ records, r.path = dir

def StoredBelow (root : Str) (records : List FileRecord) (path : Str) : Prop :=
  ∃ dir name, StoredDir root records dir ∧ path = withSlash dir ++ name ∧ name ≠ [] ∧ 47 ∉ name

/-- What holds of a walk up to any point: whatever is stored is in a directory that is stored, and
no path, stored now or before, ends with a slash. -/
structure Rooted (root : Str) (s : ScanState) : Prop where
  old : ∀ r ∈ s.existing.records, r.path.getLast? ≠ some 47
  stored : ∀ r ∈ s.corpus, StoredBelow root s.corpus r.path

/-- An entry of a listing whose call of `scan` keeps that. -/
structure Found.KeepsRooted (root : Str) (f : Found) : Prop where
  name : f.name ≠ [] ∧ 47 ∉ f.name
  scan : ∀ args s, StoredDir root s.corpus args.path → Rooted root s →
    Rooted root (f.scan args s) ∧ s.corpus <+: (f.scan args s).corpus

theorem StoredDir.mono {records records' : List FileRecord} {dir : Str}
    (h : StoredDir root records dir) (hmore : records <+: records') :
    StoredDir root records' dir := by
  rcases h with h | ⟨r, hr, h⟩
  · exact .inl h
  · exact .inr ⟨r, hmore.subset hr, h⟩

theorem StoredBelow.mono {records records' : List FileRecord} {path : Str}
    (h : StoredBelow root records path) (hmore : records <+: records') :
    StoredBelow root records' path := by
  obtain ⟨dir, name, hdir, h⟩ := h
  exact ⟨dir, name, hdir.mono hmore, h⟩

theorem StoredBelow.getLast? {records : List FileRecord} {path : Str}
    (h : StoredBelow root records path) : path.getLast? ≠ some 47 := by
  obtain ⟨dir, name, -, rfl, hne, hslash⟩ := h
  rw [List.getLast?_append_of_ne_nil _ hne]
  exact fun hlast => hslash (List.mem_of_getLast? hlast)

theorem foldl_scanEntry_rooted (hlisting : ∀ f ∈ listing, f.KeepsRooted root)
    (entries : List Entry)
    (hentries : ∀ e ∈ entries, StoredDir root s.corpus (args.pathPlusSlash ++ e.name))
    (hs : Rooted root s) :
    Rooted root (entries.foldl (scanEntry args listing) s) ∧
      s.corpus <+: (entries.foldl (scanEntry args listing) s).corpus := by
  induction entries generalizing s with
  | nil => exact ⟨hs, List.prefix_refl _⟩
  | cons e entries ih =>
      rw [List.forall_mem_cons] at hentries
      have hstep : Rooted root (scanEntry args listing s e) ∧
          s.corpus <+: (scanEntry args listing s e).corpus := by
        unfold scanEntry
        split
        · exact ⟨hs, List.prefix_refl _⟩
        · rename_i f hf
          split
          · exact (hlisting f (lookup_eq_some hf).1).scan _ s hentries.1 hs
          · exact ⟨hs, List.prefix_refl _⟩
      obtain ⟨hrooted, hprefix⟩ := ih
        (fun e' he' => (hentries.2 e' he').mono hstep.2) hstep.1
      exact ⟨hrooted, hstep.2.trans hprefix⟩

theorem scanEntries_rooted (hlisting : ∀ f ∈ listing, f.KeepsRooted root)
    (hs : Rooted root s) (hdir : StoredDir root s.corpus args.path) {entries : List Entry}
    (hentries : ∀ e ∈ entries, e.name ≠ [] ∧ 47 ∉ e.name) (olds : List Entry) :
    Rooted root (scanEntries env args listing entries olds s) ∧
      s.corpus <+: (scanEntries env args listing entries olds s).corpus := by
  let entries' := entries.map fun e => openEntry env args listing (statEntry env args listing e)
  have hentries' : ∀ e ∈ entries', e.name ≠ [] ∧ 47 ∉ e.name := by
    intro e he
    obtain ⟨e₀, he₀, rfl⟩ := List.mem_map.mp he
    rw [name_openEntry, name_statEntry]
    exact hentries e₀ he₀
  have hprefix : s.corpus <+: s.corpus ++ entries'.map (Entry.record args) :=
    List.prefix_append _ _
  have hadded : Rooted root { s with
      corpus := s.corpus ++ entries'.map (Entry.record args)
      history := if env.recordHistory then
        s.history ++ (entries.filterMap (statEvent env args listing) ++
          olds.filterMap (removedEvent env args)) else s.history } := by
    refine ⟨hs.old, ?_⟩
    rw [List.forall_mem_append]
    refine ⟨fun r hr => (hs.stored r hr).mono hprefix, fun r hr => ?_⟩
    obtain ⟨e, he, rfl⟩ := List.mem_map.mp hr
    exact ⟨args.path, e.name, hdir.mono hprefix, rfl, hentries' e he⟩
  have hdirs : ∀ e ∈ entries', StoredDir root (s.corpus ++ entries'.map (Entry.record args))
      (args.pathPlusSlash ++ e.name) := by
    intro e he
    exact .inr ⟨_, List.mem_append_right _ (List.mem_map_of_mem he), rfl⟩
  obtain ⟨hrooted, hmore⟩ := foldl_scanEntry_rooted hlisting entries' hdirs hadded
  exact ⟨hrooted, hprefix.trans hmore⟩

/-- The names of what the old database and `readdir` list are names. -/
theorem entries_named (hlisting : ∀ f ∈ listing, f.KeepsRooted root) (hs : Rooted root s)
    (path pathPlusSlash : Str) (hlast : pathPlusSlash.getLast? = some 47) (olds : List Entry) :
    (∀ e ∈ ((s.existing.skipBefore path).readDirectory pathPlusSlash).1,
      e.name ≠ [] ∧ 47 ∉ e.name) ∧
    ∀ e ∈ (mergeOld (sortEntries (listing.map Found.entry)) olds).1,
      e.name ≠ [] ∧ 47 ∉ e.name := by
  constructor
  · intro e he
    obtain ⟨hslash, r, hr, hpath⟩ := mem_takeEntries he
    refine ⟨fun hnil => ?_, hslash⟩
    rw [hnil, List.append_nil] at hpath
    exact hs.old r ((skipRecords_suffix path _).subset hr) (hpath ▸ hlast)
  · intro e he
    obtain ⟨f, hf, hname⟩ := mem_names_readdir he
    rw [← hname]
    exact (hlisting f hf).name

theorem scanDirectory_rooted (hlisting : ∀ f ∈ listing, f.KeepsRooted root)
    (hdir : StoredDir root s.corpus args.path) (hs : Rooted root s) :
    Rooted root (scanDirectory env args listing s) ∧
      s.corpus <+: (scanDirectory env args listing s).corpus := by
  have hsuffix : ((s.existing.skipBefore args.path).readDirectory args.pathPlusSlash).2.records
      <:+ s.existing.records :=
    (takeEntries_suffix _ _).trans (skipRecords_suffix _ _)
  have hstay (index : ℕ) (checked : List (Str × Bool)) :
      Rooted root { s with
        prunepathsIndex := index
        checked := checked } := ⟨hs.old, hs.stored⟩
  have hread (index : ℕ) (checked : List (Str × Bool)) :
      Rooted root { s with
        prunepathsIndex := index
        checked := checked
        existing := ((s.existing.skipBefore args.path).readDirectory args.pathPlusSlash).2 } :=
    ⟨fun r hr => hs.old r (hsuffix.subset hr), hs.stored⟩
  unfold scanDirectory
  generalize stringListContainsDirPath env.conf.prunepaths s.prunepathsIndex args.path = r
  obtain ⟨pruned, idx⟩ := r
  have hnamed := entries_named hlisting hs args.path args.pathPlusSlash
    (getLast?_withSlash args.path)
  dsimp only
  split
  · exact ⟨hstay _ _, List.prefix_refl _⟩
  · split
    · exact ⟨hstay _ _, List.prefix_refl _⟩
    · split
      · exact scanEntries_rooted hlisting (hread _ _) hdir (hnamed []).1 []
      · split
        · exact ⟨hread _ _, List.prefix_refl _⟩
        · exact scanEntries_rooted hlisting (hread _ _) hdir (hnamed _).2 _

theorem found_keepsRooted {dir : Dir} (h : dir.WellFormed) :
    ∀ f ∈ dir.found env, f.KeepsRooted root := by
  induction dir with
  | nil => exact List.forall_mem_nil _
  | cons name node content rest ihContent ihRest =>
      obtain ⟨⟨hne, hslash, -⟩, -, hcontent, hrest⟩ := h
      rw [Dir.found, List.forall_mem_cons]
      refine ⟨⟨⟨hne, hslash⟩, fun args s hdir hs => ?_⟩, ihRest hrest⟩
      exact scanDirectory_rooted (ihContent hcontent) hdir hs

theorem scanRoot_rooted (root : Str) (node : Node) {content : Dir} (h : content.WellFormed)
    {existing : OldDatabase} (hold : ∀ r ∈ existing.records, r.path.getLast? ≠ some 47) :
    Rooted root (scanRoot env root node content existing) := by
  have hstart : Rooted root { existing := existing } := ⟨hold, List.forall_mem_nil _⟩
  have hrooted (args : ScanArgs) (hpath : args.path = root) :
      Rooted root (scanDirectory env args (content.found env) { existing := existing }) :=
    (scanDirectory_rooted (found_keepsRooted h) (.inl hpath) hstart).1
  exact hrooted _ rfl

theorem WrittenDatabase.getLast? {records : List FileRecord} (h : WrittenDatabase records) :
    ∀ r ∈ records, r.path.getLast? ≠ some 47 := by
  induction h with
  | empty => exact List.forall_mem_nil _
  | run env root node content existing _ hcontent _ ih =>
      exact fun r hr => ((scanRoot_rooted root node hcontent ih).stored r hr).getLast?

end Stored

section Root

variable {root a b dir name : Str} {records : List FileRecord}

theorem withSlash_of_getLast?_ne (h : dir.getLast? ≠ some 47) : withSlash dir = dir ++ [47] :=
  if_neg h

/-- Everything that is stored is below the root. -/
theorem StoredBelow.prefix (hstored : ∀ r ∈ records, StoredBelow root records r.path)
    {path : Str} (h : StoredBelow root records path) : withSlash root <+: path := by
  induction hn : path.length using Nat.strongRecOn generalizing path with
  | ind n ih =>
      obtain ⟨dir, name, hdir, rfl, hne, -⟩ := h
      rcases hdir with rfl | ⟨r, hr, rfl⟩
      · exact List.prefix_append _ _
      · have hbelow := hstored r hr
        have hsplit := withSlash_of_getLast?_ne hbelow.getLast?
        have hshort : r.path.length < n := by
          rw [← hn, hsplit, List.length_append, List.length_append, List.length_singleton]
          omega
        have hprefix := ih r.path.length hshort hbelow rfl
        rw [hsplit, List.append_assoc]
        exact hprefix.trans (List.prefix_append _ _)

/-- A directory comes before its entries, so the first path is an entry of the root. -/
theorem StoredBelow.first (hstored : ∀ r ∈ records, StoredBelow root records r.path)
    (ha : StoredBelow root records a) (hfirst : ∀ r ∈ records, a ≤ r.path) :
    ∃ name, a = withSlash root ++ name ∧ 47 ∉ name := by
  obtain ⟨dir, name, hdir, rfl, hne, hslash⟩ := ha
  rcases hdir with rfl | ⟨r, hr, rfl⟩
  · exact ⟨name, rfl, hslash⟩
  · rw [withSlash_of_getLast?_ne (hstored r hr).getLast?, List.append_assoc] at hfirst
    have hle : r.path ≤ r.path ++ ([47] ++ name) :=
      not_lt.mp fun hlt => absurd hlt List.le_append_left
    exact absurd (List.self_eq_append_right.mp (le_antisymm hle (hfirst r hr))) (by simp)

theorem commonPrefixLength_append (p : Str) (a b : Str) :
    commonPrefixLength (p ++ a) (p ++ b) = p.length + commonPrefixLength a b := by
  induction p with
  | nil => exact (Nat.zero_add _).symm
  | cons c p ih =>
      rw [List.cons_append, List.cons_append, commonPrefixLength, if_pos rfl, ih,
        List.length_cons]
      omega

/-- The last slash of a directory is found in front of a name. -/
theorem rfindSlash_append {p : Str} (hlast : p.getLast? = some 47) (hname : 47 ∉ name) {pos : ℕ}
    (hpos : p.length ≤ pos + 1) : rfindSlash (p ++ name) pos = some (p.length - 1) := by
  obtain ⟨front, rfl⟩ : ∃ front, p = front ++ [47] := List.getLast?_eq_some_iff.mp hlast
  have hlength : (front ++ [47] ++ name).length = front.length + 1 + name.length := by
    simp only [List.length_append, List.length_singleton]
  have hnone : ((List.range name.length).map (front.length + 1 + ·)).filter
      (fun i => i ≤ pos ∧ (front ++ [47] ++ name)[i]? = some 47) = [] := by
    rw [List.filter_eq_nil_iff]
    intro i hi
    obtain ⟨j, -, rfl⟩ := List.mem_map.mp hi
    rw [decide_eq_true_eq, not_and]
    intro _ hget
    rw [List.getElem?_append_right (by simp), List.length_append, List.length_singleton,
      Nat.add_sub_cancel_left] at hget
    exact hname (List.mem_of_getElem? hget)
  have hlastIndex : front.length ≤ pos ∧ (front ++ [47] ++ name)[front.length]? = some 47 := by
    rw [List.length_append, List.length_singleton] at hpos
    refine ⟨by omega, ?_⟩
    rw [List.append_assoc, List.getElem?_append_right le_rfl, Nat.sub_self]
    rfl
  rw [rfindSlash, hlength, List.range_add, List.filter_append, hnone, List.append_nil,
    List.range_succ, List.filter_append, List.filter_singleton, decide_eq_true hlastIndex,
    List.length_append, List.length_singleton, Nat.add_sub_cancel]
  exact List.getLast?_concat

theorem scanRootFromPaths_of_first {paths : List Str} (hroot : IsScanRoot root)
    (hbelow : ∀ path ∈ paths, withSlash root <+: path) (hne : paths ≠ [])
    (hfirst : ∃ name, paths.head? = some (withSlash root ++ name) ∧ 47 ∉ name) :
    scanRootFromPaths paths = root := by
  obtain ⟨name, hhead, hname⟩ := hfirst
  have hb := List.getLast?_eq_some_getLast hne
  generalize paths.getLast hne = b at hb
  obtain ⟨rest, rfl⟩ := hbelow b (List.mem_of_getLast? hb)
  have hslash : rfindSlash (withSlash root ++ name)
      (commonPrefixLength (withSlash root ++ name) (withSlash root ++ rest) - 1) =
        some ((withSlash root).length - 1) := by
    refine rfindSlash_append (getLast?_withSlash root) hname ?_
    rw [commonPrefixLength_append]
    omega
  unfold scanRootFromPaths
  rw [hhead, hb]
  dsimp only
  rw [hslash]
  dsimp only
  by_cases hlast : root.getLast? = some 47
  · obtain rfl := hroot.2 hlast
    rfl
  · have hpos : root.length ≠ 0 := by
      intro hzero
      have hnil := List.eq_nil_of_length_eq_zero hzero
      rw [hnil] at hroot
      exact absurd hroot.1 (by simp)
    rw [withSlash_of_getLast?_ne hlast, List.length_append, List.length_singleton,
      Nat.add_sub_cancel, if_neg hpos, List.append_assoc, List.take_left]

/-- The root of a walk is found in the sorted list of the paths that the walk stores. -/
theorem scanRootFromPaths_scan (env : ScanEnv) (root : Str) (node : Node) (content : Dir)
    (existing : OldDatabase) (hroot : IsScanRoot root) (hcontent : content.WellFormed)
    (hexisting : WrittenDatabase existing.records)
    (hstored : (scanRoot env root node content existing).corpus ≠ []) (paths : List Str)
    (hperm : paths.Perm ((scanRoot env root node content existing).corpus.map FileRecord.path))
    (hsorted : paths.Pairwise (· ≤ ·)) : scanRootFromPaths paths = root := by
  have hrooted := @scanRoot_rooted env root node _ hcontent _ hexisting.getLast?
  have hmem : ∀ path ∈ paths, ∃ r ∈ (scanRoot env root node content existing).corpus,
      r.path = path := fun path hpath => List.mem_map.mp (hperm.subset hpath)
  have hne : paths ≠ [] := by
    rintro rfl
    exact hstored (List.map_eq_nil_iff.mp hperm.symm.eq_nil)
  refine scanRootFromPaths_of_first hroot (fun path hpath => ?_) hne ?_
  · obtain ⟨r, hr, rfl⟩ := hmem path hpath
    exact StoredBelow.prefix hrooted.stored (hrooted.stored r hr)
  · cases paths with
    | nil => exact absurd rfl hne
    | cons a paths =>
        obtain ⟨r, hr, rfl⟩ := hmem a List.mem_cons_self
        have hfirst : ∀ r' ∈ (scanRoot env root node content existing).corpus,
            r.path ≤ r'.path := by
          intro r' hr'
          rcases List.mem_cons.mp (hperm.symm.subset (List.mem_map_of_mem hr')) with heq | hlater
          · exact le_of_eq heq.symm
          · exact (List.pairwise_cons.mp hsorted).1 _ hlater
        obtain ⟨name, hpath, hname⟩ :=
          StoredBelow.first hrooted.stored (hrooted.stored r hr) hfirst
        exact ⟨name, congrArg some hpath, hname⟩

/-- A chain of single entries below the root `/a`. -/
def singleChildTree : Dir :=
  .cons (ascii "b") directoryNode
    (.cons (ascii "z") { metadata := { enabled := true } } .nil .nil) .nil

theorem scanRootFromPaths_scan_singleChild :
    IsScanRoot (ascii "/a") ∧ singleChildTree.WellFormed ∧ WrittenDatabase [] ∧
      scanRootFromPaths [ascii "/a/b", ascii "/a/b/z"] = ascii "/a" := by
  have hroot : IsScanRoot (ascii "/a") := ⟨by decide, by decide⟩
  have hcontent : singleChildTree.WellFormed :=
    ⟨⟨by decide, by decide, by decide⟩, by decide, ⟨⟨by decide, by decide, by decide⟩, by decide,
      trivial, trivial⟩, trivial⟩
  have hpaths : (scanRoot siblingEnv (ascii "/a") directoryNode singleChildTree {}).corpus.map
      FileRecord.path = [ascii "/a/b", ascii "/a/b/z"] := by decide +kernel
  have hsorted : [ascii "/a/b", ascii "/a/b/z"].Pairwise (· ≤ ·) := by
    rw [List.pairwise_pair]
    have hle : ¬ascii "/a/b" ++ ascii "/z" < ascii "/a/b" := List.le_append_left
    exact not_lt.mp hle
  refine ⟨hroot, hcontent, .empty, ?_⟩
  apply scanRootFromPaths_scan siblingEnv (ascii "/a") directoryNode singleChildTree {} hroot
    hcontent .empty ?_ _ (hpaths ▸ .refl _) hsorted
  intro hnil
  rw [hnil] at hpaths
  exact absurd hpaths (by decide)

end Root

end Flocate
