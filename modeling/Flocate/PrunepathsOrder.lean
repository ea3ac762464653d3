import Flocate.Scan
import Flocate.Lib.Run

/-!
# The order in which directories are visited

A walk comes to the directories in the order of their paths, since what is in a directory comes
right behind it and the names in it are sorted. So an index that only moves forward finds every
pruned path, and records of one directory are in order in the database, from where the next run may
take them.
-/

namespace Flocate

open Bytes

def withSlash (path : Str) : Str := if path.getLast? = some 47 then path else path ++ [47]

def InDirectory (dir path : Str) : Prop := ∃ name, path = withSlash dir ++ name ∧ 47 ∉ name

def Below (dir path : Str) : Prop := path = dir ∨ ∃ rest, path = withSlash dir ++ rest ∧ rest ≠ []

def SiblingsIncrease (records : List FileRecord) : Prop :=
  records.Pairwise fun a b => ∀ dir n m : Str, a.path = dir ++ n → b.path = dir ++ m →
    dir.getLast? = some 47 → 47 ∉ n → 47 ∉ m → n < m

namespace Dir

def names : Dir → List Str
  | nil => []
  | cons name _ _ rest => name :: rest.names

def WellFormed : Dir → Prop
  | nil => True
  | cons name _ content rest =>
      (name ≠ [] ∧ 47 ∉ name ∧ 0 ∉ name) ∧ name ∉ rest.names ∧ content.WellFormed ∧
        rest.WellFormed

end Dir

section Paths

variable {dir path a b n m : Str}

theorem getLast?_withSlash (dir : Str) : (withSlash dir).getLast? = some 47 := by
  unfold withSlash
  split
  · assumption
  · exact List.getLast?_concat

/-- A path is split at its last slash in one way. -/
theorem split_unique {d d' n n' : Str} (h : d ++ n = d' ++ n') (hd : d.getLast? = some 47)
    (hd' : d'.getLast? = some 47) (hn : 47 ∉ n) (hn' : 47 ∉ n') : d = d' ∧ n = n' := by
  have hshort {d d' n n' t : Str} (hd' : d'.getLast? = some 47) (hn : 47 ∉ n) (ht : d' = d ++ t)
      (hnt : n = t ++ n') : t = [] := by
    by_contra hne
    rw [ht, List.getLast?_append_of_ne_nil _ hne] at hd'
    exact hn (hnt ▸ List.mem_append_left _ (List.mem_of_getLast? hd'))
  rcases List.append_eq_append_iff.mp h with ⟨t, ht, hnt⟩ | ⟨t, ht, hnt⟩
  · have hnil := hshort hd' hn ht hnt
    rw [hnil, List.append_nil] at ht
    rw [hnil, List.nil_append] at hnt
    exact ⟨ht.symm, hnt⟩
  · have hnil := hshort hd hn' ht hnt
    rw [hnil, List.append_nil] at ht
    rw [hnil, List.nil_append] at hnt
    exact ⟨ht, hnt.symm⟩

theorem dirLt_withSlash_append (dir : Str) (h : n ≠ []) : DirLt dir (withSlash dir ++ n) := by
  unfold withSlash
  split
  · exact dirLt_append dir h
  · rw [List.append_assoc]
    exact dirLt_append dir (List.cons_ne_nil _ _)

/-- What is below a name comes before a name that is greater. -/
theorem dirLt_of_name_lt (h : a < b) (ha : 47 ∉ a) (hb : 47 ∉ b) (rest : Str)
    (hrest : rest = [] ∨ rest.head? = some 47) : DirLt (a ++ rest) b := by
  induction a generalizing b with
  | nil =>
      cases b with
      | nil => exact absurd h (List.lt_irrefl _)
      | cons y bs =>
          rw [List.nil_append]
          rcases hrest with rfl | hrest
          · exact dirLt_append [] (List.cons_ne_nil y bs)
          · cases rest with
            | nil => cases hrest
            | cons x rest =>
                obtain rfl := Option.some.inj hrest
                have hy : y ≠ 47 := fun hy => hb (hy ▸ List.mem_cons_self)
                rw [dirLt_iff, dirKey_cons_lt_of_ne (Ne.symm hy), dirByte, if_pos rfl, dirByte,
                  if_neg hy]
                exact Nat.succ_pos _
  | cons x as ih =>
      cases b with
      | nil => cases h
      | cons y bs =>
          rw [List.mem_cons, not_or] at ha hb
          rw [List.cons_append, dirLt_iff, dirKey_cons_lt]
          rcases List.cons_lt_cons_iff.mp h with hlt | ⟨rfl, hlt⟩
          · left
            rw [dirByte, if_neg (Ne.symm ha.1), dirByte, if_neg (Ne.symm hb.1)]
            exact Nat.succ_lt_succ hlt
          · right
            exact ⟨rfl, dirLt_iff.mp (ih hlt ha.2 hb.2)⟩

/-- What is below an entry comes before an entry with a greater name. -/
theorem dirLt_of_below (h : Below (withSlash dir ++ a) path) (ha : 47 ∉ a) (hne : a ≠ [])
    (hb : 47 ∉ b) (hlt : a < b) : DirLt path (withSlash dir ++ b) := by
  have hlast : (withSlash dir ++ a).getLast? ≠ some 47 := by
    rw [List.getLast?_append_of_ne_nil _ hne]
    exact fun hlast => ha (List.mem_of_getLast? hlast)
  rcases h with rfl | ⟨rest, rfl, -⟩
  · have hlt := dirLt_of_name_lt hlt ha hb [] (Or.inl rfl)
    rw [List.append_nil] at hlt
    exact (dirLt_append_left _).mpr hlt
  · have hlt := dirLt_of_name_lt hlt ha hb (47 :: rest) (Or.inr rfl)
    rw [withSlash, if_neg hlast, List.append_assoc, List.append_assoc]
    exact (dirLt_append_left _).mpr hlt

theorem Below.trans_entry (h : Below (withSlash dir ++ a) path) (ha : 47 ∉ a) (hne : a ≠ []) :
    Below dir path := by
  right
  rcases h with rfl | ⟨rest, rfl, -⟩
  · exact ⟨a, rfl, hne⟩
  · have hlast : (withSlash dir ++ a).getLast? ≠ some 47 := by
      rw [List.getLast?_append_of_ne_nil _ hne]
      exact fun hlast => ha (List.mem_of_getLast? hlast)
    rw [withSlash, if_neg hlast]
    exact ⟨a ++ [47] ++ rest, by simp only [List.append_assoc],
      List.append_ne_nil_of_left_ne_nil (List.append_ne_nil_of_left_ne_nil hne _) _⟩

/-- Directories that come one behind the other have different entries. -/
theorem withSlash_ne_of_dirLt (h : DirLt a b) (hb : b.getLast? ≠ some 47) :
    withSlash a ≠ withSlash b := by
  intro heq
  rw [withSlash, withSlash, if_neg hb] at heq
  split at heq
  · rw [heq] at h
    exact (dirLt_append b (List.cons_ne_nil 47 [])).asymm h
  · exact DirLt.irrefl b ((List.append_left_injective [47] heq) ▸ h)

end Paths

section Walk

variable {env : ScanEnv} {args : ScanArgs} {listing : List Found} {s s' : ScanState} {e : Entry}
  {f : Found}

/-- What holds of a walk up to any point: the pruned paths have been looked up in increasing order
and with the right answers, and the records come from directories that have been visited. -/
structure Walked (env : ScanEnv) (s : ScanState) : Prop where
  increasing : s.checked.Pairwise fun a b => DirLt a.1 b.1
  answers : ∀ c ∈ s.checked, (c.2 = true ↔ c.1 ∈ env.conf.prunepaths)
  passed : ∀ x ∈ env.conf.prunepaths.take s.prunepathsIndex, ∃ c ∈ s.checked, ¬DirLt c.1 x
  old : SiblingsIncrease s.existing.records
  siblings : SiblingsIncrease s.corpus
  placed : ∀ r ∈ s.corpus, ∃ c ∈ s.checked, InDirectory c.1 r.path

/-- The walk has gone on, and only to a directory and what is below it. -/
def GoneBelow (dir : Str) (s s' : ScanState) : Prop :=
  ∃ more, s'.checked = s.checked ++ more ∧ ∀ c ∈ more, Below dir c.1

/-- An entry of a listing whose call of `scan` keeps to the order. -/
structure Found.Ordered (env : ScanEnv) (f : Found) : Prop where
  name : f.name ≠ [] ∧ 47 ∉ f.name
  scan : ∀ args s, args.path.getLast? ≠ some 47 → Walked env s →
    (∀ c ∈ s.checked, DirLt c.1 args.path) →
    Walked env (f.scan args s) ∧ GoneBelow args.path s (f.scan args s)

theorem lookup_eq_some {name : Str} (h : lookup listing name = some f) :
    f ∈ listing ∧ f.name = name := by
  have hname := List.find?_some h
  exact ⟨List.mem_of_find?_eq_some h, of_decide_eq_true hname⟩

theorem name_statEntry : (statEntry env args listing e).name = e.name := by
  unfold statEntry
  split
  · rfl
  · split <;> rfl

theorem name_openEntry : (openEntry env args listing e).name = e.name := by
  unfold openEntry
  split
  · rfl
  · split
    · rfl
    · split
      · rfl
      · dsimp only
        split
        · rfl
        · split <;> rfl

theorem mem_checked_of_goneBelow {dir : Str} (h : GoneBelow dir s s') {c : Str × Bool}
    (hc : c ∈ s'.checked) : c ∈ s.checked ∨ Below dir c.1 := by
  obtain ⟨more, hmore, hbelow⟩ := h
  rw [hmore] at hc
  exact (List.mem_append.mp hc).imp_right (hbelow c)

/-- The calls for the entries of a directory, in the order of their names. -/
theorem foldl_scanEntry_walked (hlisting : ∀ f ∈ listing, f.Ordered env) (entries : List Entry)
    (hentries : entries.Pairwise fun a b => a.name < b.name) (hs : Walked env s)
    (hbefore : ∀ e ∈ entries, ∀ f, lookup listing e.name = some f → ∀ c ∈ s.checked,
      DirLt c.1 (args.pathPlusSlash ++ e.name)) :
    Walked env (entries.foldl (scanEntry args listing) s) ∧
      GoneBelow args.path s (entries.foldl (scanEntry args listing) s) := by
  induction entries generalizing s with
  | nil => exact ⟨hs, [], (List.append_nil _).symm, List.forall_mem_nil _⟩
  | cons e entries ih =>
      rw [List.pairwise_cons] at hentries
      rw [List.forall_mem_cons] at hbefore
      have hstep : Walked env (scanEntry args listing s e) ∧
          GoneBelow args.path s (scanEntry args listing s e) ∧
          ∀ e' ∈ entries, ∀ f, lookup listing e'.name = some f →
            ∀ c ∈ (scanEntry args listing s e).checked,
              DirLt c.1 (args.pathPlusSlash ++ e'.name) := by
        have hstay : Walked env s ∧ GoneBelow args.path s s ∧
            ∀ e' ∈ entries, ∀ f, lookup listing e'.name = some f → ∀ c ∈ s.checked,
              DirLt c.1 (args.pathPlusSlash ++ e'.name) :=
          ⟨hs, ⟨[], (List.append_nil _).symm, List.forall_mem_nil _⟩, hbefore.2⟩
        unfold scanEntry
        split
        · exact hstay
        · rename_i f hf
          split
          · obtain ⟨hmem, hname⟩ := lookup_eq_some hf
            obtain ⟨hne, hslash⟩ := hname ▸ (hlisting f hmem).name
            have hlast : (args.pathPlusSlash ++ e.name).getLast? ≠ some 47 := by
              rw [List.getLast?_append_of_ne_nil _ hne]
              exact fun hlast => hslash (List.mem_of_getLast? hlast)
            obtain ⟨hwalked, hgone⟩ := (hlisting f hmem).scan {
              path := args.pathPlusSlash ++ e.name
              dev := e.dev
              modified := e.dt
              dbModified := e.dbModified
              hashAllowed := e.hashAllowed
              listFails := f.node.listFails } s hlast hs (hbefore.1 f hf)
            refine ⟨hwalked, ?_, fun e' he' f' hf' c hc => ?_⟩
            · obtain ⟨more, hmore, hbelow⟩ := hgone
              exact ⟨more, hmore, fun c hc => (hbelow c hc).trans_entry hslash hne⟩
            · rcases mem_checked_of_goneBelow hgone hc with hc | hc
              · exact hbefore.2 e' he' f' hf' c hc
              · obtain ⟨hmem', hname'⟩ := lookup_eq_some hf'
                obtain ⟨-, hslash'⟩ := hname' ▸ (hlisting f' hmem').name
                exact dirLt_of_below hc hslash hne hslash' (hentries.1 e' he')
          · exact hstay
      obtain ⟨hwalked, ⟨more, hmore, hbelow⟩, hlt⟩ := hstep
      obtain ⟨hwalked', more', hmore', hbelow'⟩ := ih hentries.2 hwalked hlt
      refine ⟨hwalked', more ++ more', ?_, ?_⟩
      · rw [List.foldl_cons, hmore', hmore, List.append_assoc]
      · rw [List.forall_mem_append]
        exact ⟨hbelow, hbelow'⟩

/-- The records of the entries of a directory that has just been visited. -/
theorem Walked.add_records (hs : Walked env s) (history : List HistoryEvent)
    (hvisited : ∃ c ∈ s.checked, c.1 = args.path)
    (hnew : ∀ r ∈ s.corpus, ¬InDirectory args.path r.path) {entries : List Entry}
    (hentries : entries.Pairwise fun a b => a.name < b.name)
    (hslash : ∀ e ∈ entries, 47 ∉ e.name) :
    Walked env { s with
      corpus := s.corpus ++ entries.map (Entry.record args)
      history := history } := by
  refine ⟨hs.increasing, hs.answers, hs.passed, hs.old, ?_, ?_⟩
  · refine List.pairwise_append.mpr ⟨hs.siblings, ?_, ?_⟩
    · rw [List.pairwise_map]
      refine hentries.imp_of_mem fun {a b} ha hb hlt dir n m hn hm hdir hn' hm' => ?_
      obtain ⟨-, rfl⟩ := split_unique hn (getLast?_withSlash args.path) hdir (hslash a ha) hn'
      obtain ⟨-, rfl⟩ := split_unique hm (getLast?_withSlash args.path) hdir (hslash b hb) hm'
      exact hlt
    · intro r hr r' hr' dir n m hn hm hdir hn' hm'
      obtain ⟨e, he, rfl⟩ := List.mem_map.mp hr'
      obtain ⟨rfl, -⟩ := split_unique hm (getLast?_withSlash args.path) hdir (hslash e he) hm'
      exact absurd ⟨n, hn, hn'⟩ (hnew r hr)
  · rw [List.forall_mem_append]
    refine ⟨hs.placed, fun r hr => ?_⟩
    obtain ⟨e, he, rfl⟩ := List.mem_map.mp hr
    obtain ⟨c, hc, hpath⟩ := hvisited
    exact ⟨c, hc, e.name, by rw [hpath]; rfl, hslash e he⟩

theorem scanEntries_walked (hlisting : ∀ f ∈ listing, f.Ordered env) (hs : Walked env s)
    (hvisited : ∃ c ∈ s.checked, c.1 = args.path)
    (hbefore : ∀ c ∈ s.checked, c.1 = args.path ∨ DirLt c.1 args.path)
    (hnew : ∀ r ∈ s.corpus, ¬InDirectory args.path r.path) {entries : List Entry}
    (hentries : entries.Pairwise fun a b => a.name < b.name)
    (hslash : ∀ e ∈ entries, 47 ∉ e.name) (olds : List Entry) :
    Walked env (scanEntries env args listing entries olds s) ∧
      GoneBelow args.path s (scanEntries env args listing entries olds s) := by
  let entries' := entries.map fun e => openEntry env args listing (statEntry env args listing e)
  have hname (e : Entry) :
      (openEntry env args listing (statEntry env args listing e)).name = e.name :=
    name_openEntry.trans name_statEntry
  have hentries' : entries'.Pairwise fun a b => a.name < b.name := by
    rw [List.pairwise_map]
    simp only [hname]
    exact hentries
  have hslash' : ∀ e ∈ entries', 47 ∉ e.name := by
    intro e he
    obtain ⟨e₀, he₀, rfl⟩ := List.mem_map.mp he
    rw [hname]
    exact hslash e₀ he₀
  refine foldl_scanEntry_walked hlisting entries' hentries'
    (hs.add_records _ hvisited hnew hentries' hslash') fun e _ f hf c hc => ?_
  obtain ⟨hmem, hname⟩ := lookup_eq_some hf
  have hlt := dirLt_withSlash_append args.path (hname ▸ (hlisting f hmem).name.1)
  rcases hbefore c hc with hpath | hbefore
  · rw [hpath]
    exact hlt
  · exact hbefore.trans hlt

theorem skipRecords_suffix (path : Str) (records : List FileRecord) :
    (OldDatabase.skipRecords path records).1 <:+ records := by
  induction records with
  | nil => exact List.suffix_refl _
  | cons record records ih =>
      rw [OldDatabase.skipRecords]
      split
      · exact List.suffix_cons _ _
      · split
        · exact List.suffix_refl _
        · exact ih.trans (List.suffix_cons _ _)

theorem mem_takeEntries {pathPlusSlash : Str} {records : List FileRecord} {e : Entry}
    (h : e ∈ (OldDatabase.takeEntries pathPlusSlash records).1) :
    47 ∉ e.name ∧ ∃ r ∈ records, r.path = pathPlusSlash ++ e.name := by
  induction records with
  | nil => exact absurd h List.not_mem_nil
  | cons record records ih =>
      rw [OldDatabase.takeEntries] at h
      split at h
      · exact absurd h List.not_mem_nil
      · split at h
        · exact absurd h List.not_mem_nil
        · rename_i hwithin
          rw [not_not] at hwithin
          split at h
          · exact absurd h List.not_mem_nil
          · rename_i hslash
            rcases List.mem_cons.mp h with rfl | h
            · have hpath := (List.prefix_iff_eq_append.mp hwithin).symm
              exact ⟨hslash, record, List.mem_cons_self, hpath⟩
            · obtain ⟨hname, r, hr, hpath⟩ := ih h
              exact ⟨hname, r, List.mem_cons_of_mem _ hr, hpath⟩

theorem takeEntries_suffix (pathPlusSlash : Str) (records : List FileRecord) :
    (OldDatabase.takeEntries pathPlusSlash records).2.1 <:+ records := by
  induction records with
  | nil => exact List.suffix_refl _
  | cons record records ih =>
      rw [OldDatabase.takeEntries]
      split
      · exact List.suffix_cons _ _
      · split
        · exact List.suffix_refl _
        · split
          · exact List.suffix_refl _
          · exact ih.trans (List.suffix_cons _ _)

/-- What is taken from the old database comes in the order of the names, and these have no slash. -/
theorem takeEntries_spec {pathPlusSlash : Str} (hlast : pathPlusSlash.getLast? = some 47)
    {records : List FileRecord} (h : SiblingsIncrease records) :
    (OldDatabase.takeEntries pathPlusSlash records).2.1 <:+ records ∧
      (∀ e ∈ (OldDatabase.takeEntries pathPlusSlash records).1, 47 ∉ e.name) ∧
      (∀ e ∈ (OldDatabase.takeEntries pathPlusSlash records).1, ∃ r ∈ records,
        r.path = pathPlusSlash ++ e.name) ∧
      (OldDatabase.takeEntries pathPlusSlash records).1.Pairwise fun a b => a.name < b.name := by
  refine ⟨takeEntries_suffix _ _, fun e he => (mem_takeEntries he).1,
    fun e he => (mem_takeEntries he).2, ?_⟩
  induction records with
  | nil => exact List.Pairwise.nil
  | cons record records ih =>
      have hsiblings := List.pairwise_cons.mp h
      rw [OldDatabase.takeEntries]
      split
      · exact List.Pairwise.nil
      · split
        · exact List.Pairwise.nil
        · rename_i hwithin
          rw [not_not] at hwithin
          split
          · exact List.Pairwise.nil
          · rename_i hslash
            rw [List.pairwise_cons]
            refine ⟨fun e he => ?_, ih hsiblings.2⟩
            obtain ⟨hname, r, hr, hpath⟩ := mem_takeEntries he
            exact hsiblings.1 r hr pathPlusSlash _ _ (List.prefix_iff_eq_append.mp hwithin).symm
              hpath hlast hslash hname

theorem map_name_mergeOld (entries olds : List Entry) :
    (mergeOld entries olds).1.map Entry.name = entries.map Entry.name := by
  induction entries, olds using mergeOld.induct with
  | case1 olds => rw [mergeOld]
  | case2 entries h =>
      cases entries with
      | nil => exact absurd rfl h
      | cons e entries =>
          rw [mergeOld]
          exact h
  | case3 e entries old olds hlt entries' olds' _ ih =>
      rw [mergeOld, if_pos hlt]
      exact congrArg (e.name :: ·) ih
  | case4 e entries old olds hlt heq entries' olds' _ ih =>
      rw [mergeOld, if_neg hlt, if_pos heq]
      exact congrArg (e.name :: ·) ih
  | case5 e entries old olds hlt hne entries' olds' _ ih =>
      rw [mergeOld, if_neg hlt, if_neg hne]
      exact ih

theorem map_name_sortEntries_perm (entries : List Entry) :
    ((sortEntries entries).map Entry.name).Perm (entries.map Entry.name) :=
  (List.mergeSort_perm entries _).map _

theorem pairwise_sortEntries (entries : List Entry) (h : (entries.map Entry.name).Nodup) :
    (sortEntries entries).Pairwise fun a b => a.name < b.name := by
  have hsorted : (sortEntries entries).Pairwise fun a b => decide ¬b.name < a.name := by
    refine List.pairwise_mergeSort (fun a b c hab hbc => ?_) (fun a b => ?_) entries
    · rw [decide_eq_true_eq] at hab hbc ⊢
      exact List.le_trans hab hbc
    · rw [Bool.or_eq_true, decide_eq_true_eq, decide_eq_true_eq]
      exact List.le_total a.name b.name
  have hnodup := (map_name_sortEntries_perm entries).nodup_iff.mpr h
  rw [List.nodup_iff_pairwise_ne, List.pairwise_map] at hnodup
  refine hsorted.imp₂ (fun a b hab hne => ?_) hnodup
  rw [decide_eq_true_eq] at hab
  by_contra hlt
  exact hne (List.le_antisymm hab hlt)

/-- The entries of a directory, as they are read and sorted, have the names that are listed. -/
theorem mem_names_readdir {olds : List Entry} {e : Entry}
    (he : e ∈ (mergeOld (sortEntries (listing.map Found.entry)) olds).1) :
    ∃ f ∈ listing, f.name = e.name := by
  have hmem := List.mem_map_of_mem (f := Entry.name) he
  rw [map_name_mergeOld, (map_name_sortEntries_perm _).mem_iff, List.map_map] at hmem
  exact List.mem_map.mp hmem

theorem pairwise_readdir (hnodup : (listing.map Found.name).Nodup) (olds : List Entry) :
    (mergeOld (sortEntries (listing.map Found.entry)) olds).1.Pairwise
      fun a b => a.name < b.name := by
  have hmap : (listing.map Found.entry).map Entry.name = listing.map Found.name := by
    rw [List.map_map]
    rfl
  rw [← List.pairwise_map (f := Entry.name) (R := (· < ·)), map_name_mergeOld, List.pairwise_map]
  exact pairwise_sortEntries (listing.map Found.entry) (hmap ▸ hnodup)

theorem Walked.check (hs : Walked env s) (hsorted : DirSorted env.conf.prunepaths)
    (hbefore : ∀ c ∈ s.checked, DirLt c.1 args.path) :
    Walked env { s with
      prunepathsIndex :=
        (stringListContainsDirPath env.conf.prunepaths s.prunepathsIndex args.path).2
      checked := s.checked ++ [(args.path,
        (stringListContainsDirPath env.conf.prunepaths s.prunepathsIndex args.path).1)] } := by
  have hpassed : ∀ x ∈ env.conf.prunepaths.take s.prunepathsIndex, DirLt x args.path := by
    intro x hx
    obtain ⟨c, hc, hle⟩ := hs.passed x hx
    by_cases heq : c.1 = x
    · exact heq ▸ hbefore c hc
    · have hlt : DirLt x c.1 := by
        by_contra hnot
        exact heq (DirLt.trichotomous hle hnot)
      exact hlt.trans (hbefore c hc)
  obtain ⟨hanswer, hpassed'⟩ := containsDirPath_iff hsorted hpassed
  refine ⟨?_, ?_, fun x hx => ?_, hs.old, hs.siblings, fun r hr => ?_⟩
  · refine List.pairwise_append.mpr
      ⟨hs.increasing, List.pairwise_singleton _ _, fun a ha b hb => ?_⟩
    obtain rfl := List.mem_singleton.mp hb
    exact hbefore a ha
  · rw [List.forall_mem_append, List.forall_mem_singleton]
    exact ⟨hs.answers, hanswer⟩
  · exact ⟨_, List.mem_append_right _ (List.mem_singleton_self _), hpassed' x hx⟩
  · obtain ⟨c, hc, hin⟩ := hs.placed r hr
    exact ⟨c, List.mem_append_left _ hc, hin⟩

theorem Walked.withExisting (hs : Walked env s) (existing : OldDatabase)
    (h : existing.records <:+ s.existing.records) : Walked env { s with existing := existing } :=
  ⟨hs.increasing, hs.answers, hs.passed, hs.old.sublist h.sublist, hs.siblings, hs.placed⟩

/-- The directory is new to the walk, so that no record is from there. -/
theorem Walked.not_inDirectory (hs : Walked env s)
    (hbefore : ∀ c ∈ s.checked, DirLt c.1 args.path)
    (hlast : args.path.getLast? ≠ some 47 ∨ s.checked = []) :
    ∀ r ∈ s.corpus, ¬InDirectory args.path r.path := by
  rintro r hr ⟨name, hpath, hslash⟩
  obtain ⟨c, hc, name', hpath', hslash'⟩ := hs.placed r hr
  rcases hlast with hlast | hnil
  · have heq := (split_unique (hpath.symm.trans hpath') (getLast?_withSlash _)
      (getLast?_withSlash _) hslash hslash').1
    exact withSlash_ne_of_dirLt (hbefore c hc) hlast heq.symm
  · rw [hnil] at hc
    cases hc

/-- The entries of an unchanged directory, as they come from the old database. -/
theorem readDirectory_spec (hs : Walked env s) (path pathPlusSlash : Str)
    (hlast : pathPlusSlash.getLast? = some 47) :
    ((s.existing.skipBefore path).readDirectory pathPlusSlash).2.records <:+ s.existing.records ∧
      ((s.existing.skipBefore path).readDirectory pathPlusSlash).1.Pairwise
        (fun a b => a.name < b.name) ∧
      ∀ e ∈ ((s.existing.skipBefore path).readDirectory pathPlusSlash).1, 47 ∉ e.name := by
  have hskip := skipRecords_suffix path s.existing.records
  obtain ⟨hrest, hslash, -, hpairwise⟩ := takeEntries_spec hlast (hs.old.sublist hskip.sublist)
  exact ⟨hrest.trans hskip, hpairwise, hslash⟩

/-- `scan` of one directory keeps to the order, if the calls for its entries do. -/
theorem scanDirectory_walked (hsorted : DirSorted env.conf.prunepaths)
    (hlisting : ∀ f ∈ listing, f.Ordered env) (hnodup : (listing.map Found.name).Nodup)
    (hs : Walked env s) (hbefore : ∀ c ∈ s.checked, DirLt c.1 args.path)
    (hlast : args.path.getLast? ≠ some 47 ∨ s.checked = []) :
    Walked env (scanDirectory env args listing s) ∧
      GoneBelow args.path s (scanDirectory env args listing s) := by
  have hchecked := hs.check hsorted hbefore
  have hnew := hs.not_inDirectory hbefore hlast
  unfold scanDirectory
  generalize stringListContainsDirPath env.conf.prunepaths s.prunepathsIndex args.path = r
    at hchecked ⊢
  obtain ⟨pruned, idx⟩ := r
  let s₁ : ScanState := { s with
    prunepathsIndex := idx
    checked := s.checked ++ [(args.path, pruned)] }
  have hself (s' : ScanState) (h : GoneBelow args.path s₁ s') : GoneBelow args.path s s' := by
    obtain ⟨more, hmore, hbelow⟩ := h
    refine ⟨(args.path, pruned) :: more, ?_, ?_⟩
    · rw [hmore]
      exact List.append_assoc _ _ _
    · rw [List.forall_mem_cons]
      exact ⟨Or.inl rfl, hbelow⟩
  have hvisited : ∃ c ∈ s₁.checked, c.1 = args.path :=
    ⟨_, List.mem_append_right _ (List.mem_singleton_self _), rfl⟩
  have hbefore₁ : ∀ c ∈ s₁.checked, c.1 = args.path ∨ DirLt c.1 args.path := by
    rw [List.forall_mem_append, List.forall_mem_singleton]
    exact ⟨fun c hc => Or.inr (hbefore c hc), Or.inl rfl⟩
  have hstay : GoneBelow args.path s s₁ :=
    hself s₁ ⟨[], (List.append_nil _).symm, List.forall_mem_nil _⟩
  obtain ⟨hrest, hpairwise, hslash⟩ := readDirectory_spec hs args.path args.pathPlusSlash
    (getLast?_withSlash args.path)
  have hchecked₂ := Walked.withExisting hchecked _ hrest
  dsimp only
  split
  · exact ⟨hchecked, hstay⟩
  · split
    · exact ⟨hchecked, hstay⟩
    · split
      · obtain ⟨hwalked, hgone⟩ := scanEntries_walked hlisting hchecked₂ hvisited hbefore₁ hnew
          hpairwise hslash []
        exact ⟨hwalked, hself _ hgone⟩
      · split
        · exact ⟨hchecked₂, hstay⟩
        · have hpairwise' := pairwise_readdir hnodup
            ((s.existing.skipBefore args.path).readDirectory args.pathPlusSlash).1
          have hslash' : ∀ e ∈ (mergeOld (sortEntries (listing.map Found.entry))
              ((s.existing.skipBefore args.path).readDirectory args.pathPlusSlash).1).1,
              47 ∉ e.name := by
            intro e he
            obtain ⟨f, hf, hname⟩ := mem_names_readdir he
            exact hname ▸ (hlisting f hf).name.2
          obtain ⟨hwalked, hgone⟩ := scanEntries_walked hlisting hchecked₂ hvisited hbefore₁ hnew
            hpairwise' hslash'
            (mergeOld (sortEntries (listing.map Found.entry))
              ((s.existing.skipBefore args.path).readDirectory args.pathPlusSlash).1).2
          exact ⟨hwalked, hself _ hgone⟩

theorem map_name_found (dir : Dir) : (dir.found env).map Found.name = dir.names := by
  induction dir with
  | nil => rfl
  | cons name node content rest _ ih =>
      rw [Dir.found, List.map_cons, ih, Dir.names]

theorem Dir.WellFormed.nodup {dir : Dir} (h : dir.WellFormed) : dir.names.Nodup := by
  induction dir with
  | nil => exact List.nodup_nil
  | cons name node content rest _ ih => exact List.nodup_cons.mpr ⟨h.2.1, ih h.2.2.2⟩

/-- The calls for all entries of a tree keep to the order. -/
theorem found_ordered (hsorted : DirSorted env.conf.prunepaths) {dir : Dir}
    (h : dir.WellFormed) : ∀ f ∈ dir.found env, f.Ordered env := by
  induction dir with
  | nil => exact List.forall_mem_nil _
  | cons name node content rest ihContent ihRest =>
      obtain ⟨⟨hne, hslash, -⟩, -, hcontent, hrest⟩ := h
      rw [Dir.found, List.forall_mem_cons]
      refine ⟨⟨⟨hne, hslash⟩, fun args s hlast hs hbefore => ?_⟩, ihRest hrest⟩
      exact scanDirectory_walked hsorted (ihContent hcontent)
        (map_name_found content ▸ hcontent.nodup) hs hbefore (Or.inl hlast)

theorem scanRoot_walked (hsorted : DirSorted env.conf.prunepaths) (root : Str) (node : Node)
    {content : Dir} (h : content.WellFormed) {existing : OldDatabase}
    (hold : SiblingsIncrease existing.records) :
    Walked env (scanRoot env root node content existing) := by
  have hstart : Walked env { existing := existing } := {
    increasing := List.Pairwise.nil
    answers := List.forall_mem_nil _
    passed := List.forall_mem_nil _
    old := hold
    siblings := List.Pairwise.nil
    placed := List.forall_mem_nil _ }
  exact (scanDirectory_walked hsorted (found_ordered hsorted h)
    (map_name_found content ▸ h.nodup) hstart (List.forall_mem_nil _) (Or.inr rfl)).1

end Walk

section Runs

/-- `conf_prunepaths` after `conf_prepare`, from a list without duplicates. -/
def PrunepathsPrepared (conf : Conf) : Prop :=
  ∃ list : List Str, list.Nodup ∧ conf.prunepaths = stringListDirPathSort list

theorem PrunepathsPrepared.sorted {conf : Conf} (h : PrunepathsPrepared conf) :
    DirSorted conf.prunepaths := by
  obtain ⟨list, hnodup, hsort⟩ := h
  rw [hsort]
  exact dirSorted_stringListDirPathSort hnodup

/-- The records of a database that runs have written, one after the other, on any trees and with
any settings. -/
inductive WrittenDatabase : List FileRecord → Prop where
  | empty : WrittenDatabase []
  | run (env : ScanEnv) (root : Str) (node : Node) (content : Dir) (existing : OldDatabase) :
      PrunepathsPrepared env.conf → content.WellFormed → WrittenDatabase existing.records →
      WrittenDatabase (scanRoot env root node content existing).corpus

theorem WrittenDatabase.siblingsIncrease {records : List FileRecord}
    (h : WrittenDatabase records) : SiblingsIncrease records := by
  induction h with
  | empty => exact List.Pairwise.nil
  | run env root node content existing hconf hcontent _ ih =>
      exact (scanRoot_walked hconf.sorted root node hcontent ih).siblings

/-- In every run the paths are looked up in increasing order, and each is found exactly if it is
pruned. -/
theorem scan_looksUpPrunepaths (env : ScanEnv) (root : Str) (node : Node) (content : Dir)
    (existing : OldDatabase) (hconf : PrunepathsPrepared env.conf) (hcontent : content.WellFormed)
    (hexisting : WrittenDatabase existing.records) :
    (scanRoot env root node content existing).checked.Pairwise (fun a b => DirLt a.1 b.1) ∧
      ∀ c ∈ (scanRoot env root node content existing).checked,
        (c.2 = true ↔ c.1 ∈ env.conf.prunepaths) := by
  have hwalked := scanRoot_walked hconf.sorted root node hcontent hexisting.siblingsIncrease
  exact ⟨hwalked.increasing, hwalked.answers⟩

def directoryNode : Node where
  metadata := { enabled := true, mode := 0x41ed }

/-- A directory `a` with `z` in it and a pruned directory `a.b`, which comes behind `a/z`. -/
def siblingTree : Dir :=
  .cons (ascii "a.b") directoryNode .nil
    (.cons (ascii "a") directoryNode (.cons (ascii "z") directoryNode .nil .nil) .nil)

def siblingEnv : ScanEnv where
  conf := { prunepaths := stringListDirPathSort [ascii "/a.b"] }
  cache _ _ := ⟨1000, 0⟩

theorem scan_looksUpPrunepaths_siblingTree :
    (scanRoot siblingEnv (ascii "/") directoryNode siblingTree {}).checked.Pairwise
      fun a b => DirLt a.1 b.1 := by
  refine (scan_looksUpPrunepaths siblingEnv (ascii "/") directoryNode siblingTree {}
    ⟨_, List.nodup_singleton _, rfl⟩ ?_ .empty).1
  exact ⟨⟨by decide, by decide, by decide⟩, by decide, trivial, ⟨by decide, by decide, by decide⟩,
    by decide, ⟨⟨by decide, by decide, by decide⟩, by decide, trivial, trivial⟩, trivial⟩

end Runs

end Flocate
