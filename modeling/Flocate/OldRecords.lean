import Flocate.PrunepathsOrder

/-!
# The old records of a directory

The records of a database come directory by directory, and the directories in the order in which a
walk visits them. So a walk that reads them in step with its directories gets for each directory
exactly the records from there, though it only moves forward.
-/

namespace Flocate

open Bytes

/-- A path up to its last slash, and the name behind it. -/
def dirPart (path : Str) : Str := (path.reverse.dropWhile (· ≠ 47)).reverse

def namePart (path : Str) : Str := (path.reverse.takeWhile (· ≠ 47)).reverse

def FileRecord.dir (r : FileRecord) : Str := dirPart r.path

def FileRecord.name (r : FileRecord) : Str := namePart r.path

def RecordLt (a b : FileRecord) : Prop := DirLt a.dir b.dir ∨ a.dir = b.dir ∧ a.name < b.name

def InWalkOrder (records : List FileRecord) : Prop := records.Pairwise RecordLt

structure WalkRecords (records : List FileRecord) : Prop where
  order : InWalkOrder records
  slash : ∀ r ∈ records, 47 ∈ r.path
  named : ∀ r ∈ records, r.name ≠ []

theorem walkRecords_nil : WalkRecords [] :=
  ⟨List.Pairwise.nil, List.forall_mem_nil _, List.forall_mem_nil _⟩

def FileRecord.oldEntry (r : FileRecord) : Entry where
  name := r.name
  isDirectory := 0 ≤ r.dirTimestamp.sec
  dbModified := r.dirTimestamp
  previousMetadata := r.metadata
  existedBefore := true

def entriesOf (records : List FileRecord) (dir : Str) : List Entry :=
  (records.filter fun r => r.dir = withSlash dir).map FileRecord.oldEntry

section Parts

variable {path d n : Str}

theorem dirPart_append_namePart (path : Str) : dirPart path ++ namePart path = path := by
  rw [dirPart, namePart, ← List.reverse_append, List.takeWhile_append_dropWhile,
    List.reverse_reverse]

theorem slash_notMem_namePart (path : Str) : 47 ∉ namePart path := by
  intro hmem
  have hne := List.mem_takeWhile_imp (List.mem_reverse.mp hmem)
  exact absurd rfl (of_decide_eq_true hne)

theorem getLast?_dirPart (h : 47 ∈ path) : (dirPart path).getLast? = some 47 := by
  have hhead := List.head?_dropWhile_not (p := fun c : UInt8 => decide (c ≠ 47)) path.reverse
  rw [dirPart, List.getLast?_reverse]
  cases hrest : path.reverse.dropWhile (· ≠ 47) with
  | nil =>
      rw [List.dropWhile_eq_nil_iff] at hrest
      exact absurd rfl (of_decide_eq_true (hrest 47 (List.mem_reverse.mpr h)))
  | cons c rest =>
      rw [hrest] at hhead
      exact congrArg some (not_not.mp (of_decide_eq_false hhead))

theorem dirPart_append (hd : d.getLast? = some 47) (hn : 47 ∉ n) : dirPart (d ++ n) = d := by
  have hsplit := dirPart_append_namePart (d ++ n)
  have hmem : 47 ∈ d ++ n := List.mem_append_left _ (List.mem_of_getLast? hd)
  exact (split_unique hsplit (getLast?_dirPart hmem) hd (slash_notMem_namePart _) hn).1

theorem namePart_append (hd : d.getLast? = some 47) (hn : 47 ∉ n) : namePart (d ++ n) = n := by
  have hsplit := dirPart_append_namePart (d ++ n)
  rw [dirPart_append hd hn] at hsplit
  exact List.append_cancel_left hsplit

theorem dirPart_isPrefix (path : Str) : dirPart path <+: path :=
  ⟨namePart path, dirPart_append_namePart path⟩

end Parts

section Order

variable {a b c dir path q : Str}

theorem DirLt.trans_not (hab : ¬DirLt b a) (hbc : DirLt b c) : DirLt a c := by
  rw [dirLt_iff] at *
  exact (not_lt.mp hab).trans_lt hbc

theorem DirLt.not_trans (hab : DirLt a b) (hbc : ¬DirLt c b) : DirLt a c := by
  rw [dirLt_iff] at *
  exact hab.trans_le (not_lt.mp hbc)

theorem not_dirLt_trans (hab : ¬DirLt b a) (hbc : ¬DirLt c b) : ¬DirLt c a :=
  fun hca => hbc (DirLt.not_trans hca hab)

/-- A path does not come before what it begins with. -/
theorem not_dirLt_of_isPrefix (h : a <+: b) : ¬DirLt b a := by
  obtain ⟨t, rfl⟩ := h
  cases t with
  | nil =>
      rw [List.append_nil]
      exact DirLt.irrefl a
  | cons x t => exact (dirLt_append a (List.cons_ne_nil x t)).asymm

theorem not_dirLt_withSlash (dir : Str) : ¬DirLt (withSlash dir) dir := by
  apply not_dirLt_of_isPrefix
  unfold withSlash
  split
  · exact List.prefix_refl _
  · exact List.prefix_append _ _

/-- What comes before a path without being its beginning stays before it when it goes on. -/
theorem dirLt_append_of_not_isPrefix (hlt : DirLt q path) (hnot : ¬q <+: path) (t : Str) :
    DirLt (q ++ t) path := by
  induction q generalizing path with
  | nil => exact absurd List.nil_prefix hnot
  | cons x q ih =>
      cases path with
      | nil =>
          rw [dirLt_iff] at hlt
          cases hlt
      | cons y path =>
          rw [dirLt_iff, dirKey_cons_lt] at hlt
          rw [List.cons_append, dirLt_iff, dirKey_cons_lt]
          rcases hlt with hlt | ⟨heq, hlt⟩
          · exact Or.inl hlt
          · obtain rfl := dirByte_injective heq
            refine Or.inr ⟨rfl, dirLt_iff.mp (ih (dirLt_iff.mpr hlt) fun hwithin => ?_)⟩
            exact hnot (List.cons_prefix_cons.mpr ⟨rfl, hwithin⟩)

/-- Nothing comes between a directory and its slash. -/
theorem eq_or_dirLt_of_dirLt_slash (h : DirLt q (dir ++ [47])) : q = dir ∨ DirLt q dir := by
  induction dir generalizing q with
  | nil =>
      cases q with
      | nil => exact Or.inl rfl
      | cons y q =>
          rw [List.nil_append, dirLt_iff, dirKey_cons_lt] at h
          rcases h with hlt | ⟨-, hlt⟩
          · exact absurd hlt (Nat.not_lt_zero _)
          · exact absurd hlt (List.not_lt_nil _)
  | cons x dir ih =>
      cases q with
      | nil => exact Or.inr (dirLt_append [] (List.cons_ne_nil x dir))
      | cons y q =>
          rw [List.cons_append, dirLt_iff, dirKey_cons_lt] at h
          rw [dirLt_iff, dirKey_cons_lt]
          rcases h with hlt | ⟨heq, hlt⟩
          · exact Or.inr (Or.inl hlt)
          · rcases ih (dirLt_iff.mpr hlt) with rfl | hlt
            · exact Or.inl (congrArg (· :: q) (dirByte_injective heq))
            · exact Or.inr (Or.inr ⟨heq, dirLt_iff.mp hlt⟩)

/-- What is in a directory between a directory and one of its entries comes before that entry. -/
theorem dirLt_entry {r : FileRecord} {name : Str} (hr : 47 ∈ r.path) (hname : 47 ∉ name)
    (hne : name ≠ []) (hlt : DirLt (withSlash dir) r.dir)
    (hlt' : DirLt r.dir (withSlash (withSlash dir ++ name))) :
    DirLt r.path (withSlash dir ++ name) := by
  have hlast : (withSlash dir ++ name).getLast? ≠ some 47 := by
    rw [List.getLast?_append_of_ne_nil _ hne]
    exact fun hlast => hname (List.mem_of_getLast? hlast)
  rw [withSlash, if_neg hlast] at hlt'
  have hnot : ¬r.dir <+: withSlash dir ++ name ++ [47] := by
    intro hwithin
    rcases List.prefix_concat_iff.mp hwithin with heq | hwithin
    · exact DirLt.irrefl _ (heq ▸ hlt')
    · obtain ⟨t, ht⟩ := hwithin
      have hshort : r.dir <+: withSlash dir := by
        rcases List.append_eq_append_iff.mp ht with ⟨u, hu, -⟩ | ⟨u, hu, hname'⟩
        · exact ⟨u, hu.symm⟩
        · cases u with
          | nil =>
              rw [List.append_nil] at hu
              rw [hu]
          | cons x u =>
              have hslash := getLast?_dirPart hr
              rw [show dirPart r.path = withSlash dir ++ x :: u from hu,
                List.getLast?_append_of_ne_nil _ (List.cons_ne_nil x u)] at hslash
              refine absurd ?_ hname
              rw [hname']
              exact List.mem_append_left _ (List.mem_of_getLast? hslash)
      exact not_dirLt_of_isPrefix hshort hlt
  have hbefore := dirLt_append_of_not_isPrefix hlt' hnot r.name
  rw [FileRecord.dir, FileRecord.name, dirPart_append_namePart] at hbefore
  rcases eq_or_dirLt_of_dirLt_slash hbefore with heq | hbefore
  · rw [FileRecord.dir, heq, dirPart_append (getLast?_withSlash dir) hname] at hlt
    exact absurd hlt (DirLt.irrefl _)
  · exact hbefore

end Order

section Read

variable {records : List FileRecord} {path dir : Str}

theorem skipRecords_eq (horder : InWalkOrder records) (hslash : ∀ r ∈ records, 47 ∈ r.path)
    (hskip : ∀ r ∈ records, DirLt r.dir (withSlash path) → DirLt r.path path) :
    (OldDatabase.skipRecords path records).1 =
      records.filter fun r => ¬DirLt r.dir (withSlash path) := by
  induction records with
  | nil => rfl
  | cons r records ih =>
      rw [InWalkOrder, List.pairwise_cons] at horder
      rw [List.forall_mem_cons] at hslash hskip
      rw [OldDatabase.skipRecords, if_neg (List.ne_nil_of_mem hslash.1)]
      by_cases hlt : DirLt r.dir (withSlash path)
      · have hbefore := hskip.1 hlt
        have hnot : ¬dirPathCmp path r.path ≤ 0 := by
          intro hle
          rcases lt_or_eq_of_le hle with hlt | heq
          · exact hbefore.asymm hlt
          · exact DirLt.irrefl _ (dirPathCmp_eq_zero_iff.mp heq ▸ hbefore)
        rw [if_neg hnot, ih horder.2 hslash.2 hskip.2,
          List.filter_cons_of_neg (by rw [decide_eq_true_eq]; exact not_not_intro hlt)]
      · have hle : dirPathCmp path r.path ≤ 0 := by
          have hnot : ¬DirLt r.path path :=
            not_dirLt_trans (not_dirLt_withSlash path)
              (not_dirLt_trans hlt (not_dirLt_of_isPrefix (dirPart_isPrefix r.path)))
          by_cases heq : path = r.path
          · exact le_of_eq (dirPathCmp_eq_zero_iff.mpr heq)
          · by_contra hgt
            exact heq (DirLt.trichotomous (fun hlt => hgt (le_of_lt hlt)) hnot)
        rw [if_pos hle]
        refine (List.filter_eq_self.mpr ?_).symm
        rw [List.forall_mem_cons]
        refine ⟨decide_eq_true hlt, fun r' hr' => decide_eq_true ?_⟩
        rcases horder.1 r' hr' with hlt' | ⟨heq, -⟩
        · exact not_dirLt_trans hlt hlt'.asymm
        · exact heq ▸ hlt

theorem dir_eq_iff {r : FileRecord} (hdir : dir.getLast? = some 47) :
    r.dir = dir ↔ dir <+: r.path ∧ 47 ∉ r.path.drop dir.length := by
  constructor
  · intro heq
    have hsplit := dirPart_append_namePart r.path
    rw [show dirPart r.path = dir from heq] at hsplit
    rw [← hsplit, List.drop_left]
    exact ⟨List.prefix_append _ _, slash_notMem_namePart _⟩
  · rintro ⟨hwithin, hslash⟩
    rw [FileRecord.dir, List.prefix_iff_eq_append.mp hwithin |>.symm]
    exact dirPart_append hdir hslash

theorem name_eq_drop (r : FileRecord) : r.name = r.path.drop r.dir.length := by
  have hdrop := @List.drop_left _ (dirPart r.path) (namePart r.path)
  rw [dirPart_append_namePart] at hdrop
  exact hdrop.symm

theorem takeEntries_eq (horder : InWalkOrder records) (hslash : ∀ r ∈ records, 47 ∈ r.path)
    (hdir : dir.getLast? = some 47) (hfrom : ∀ r ∈ records, ¬DirLt r.dir dir) :
    (OldDatabase.takeEntries dir records).1 =
        (records.filter fun r => r.dir = dir).map FileRecord.oldEntry ∧
      (OldDatabase.takeEntries dir records).2.1 = records.filter fun r => DirLt dir r.dir := by
  induction records with
  | nil => exact ⟨rfl, rfl⟩
  | cons r records ih =>
      rw [InWalkOrder, List.pairwise_cons] at horder
      rw [List.forall_mem_cons] at hslash hfrom
      rw [OldDatabase.takeEntries, if_neg (List.ne_nil_of_mem hslash.1)]
      by_cases heq : r.dir = dir
      · obtain ⟨hwithin, hname⟩ := (dir_eq_iff hdir).mp heq
        obtain ⟨hentries, hrest⟩ := ih horder.2 hslash.2 hfrom.2
        have hdrop : r.path.drop dir.length = r.name := by rw [name_eq_drop, heq]
        have hnot : ¬DirLt dir r.dir := heq ▸ DirLt.irrefl _
        rw [if_neg (not_not_intro hwithin), if_neg hname, hdrop,
          List.filter_cons_of_pos (by exact decide_eq_true heq),
          List.filter_cons_of_neg (by rwa [decide_eq_true_eq]), List.map_cons, ← hentries, ← hrest]
        exact ⟨rfl, rfl⟩
      · have hlt : DirLt dir r.dir := by
          by_contra hnot
          exact heq (DirLt.trichotomous hfrom.1 hnot)
        have hstop : (OldDatabase.takeEntries dir (r :: records)) =
            ([], r :: records, false) := by
          rw [OldDatabase.takeEntries, if_neg (List.ne_nil_of_mem hslash.1)]
          by_cases hwithin : dir <+: r.path
          · rw [if_neg (not_not_intro hwithin), if_pos]
            by_contra hname
            exact heq ((dir_eq_iff hdir).mpr ⟨hwithin, hname⟩)
          · rw [if_pos hwithin]
        have hlater : ∀ r' ∈ r :: records, DirLt dir r'.dir := by
          rw [List.forall_mem_cons]
          refine ⟨hlt, fun r' hr' => ?_⟩
          rcases horder.1 r' hr' with hlt' | ⟨heq', -⟩
          · exact hlt.trans hlt'
          · exact heq' ▸ hlt
        rw [OldDatabase.takeEntries, if_neg (List.ne_nil_of_mem hslash.1)] at hstop
        rw [hstop]
        refine ⟨?_, (List.filter_eq_self.mpr fun r' hr' => decide_eq_true (hlater r' hr')).symm⟩
        rw [List.filter_eq_nil_iff.mpr]
        · rfl
        · intro r' hr' heq'
          exact DirLt.irrefl _ (of_decide_eq_true heq' ▸ hlater r' hr')

theorem skipRecords_atEnd (path : Str) (hslash : ∀ r ∈ records, 47 ∈ r.path) :
    (OldDatabase.skipRecords path records).2 =
      (OldDatabase.skipRecords path records).1.isEmpty := by
  induction records with
  | nil => rfl
  | cons r records ih =>
      rw [List.forall_mem_cons] at hslash
      rw [OldDatabase.skipRecords, if_neg (List.ne_nil_of_mem hslash.1)]
      split
      · rfl
      · exact ih hslash.2

theorem takeEntries_atEnd (dir : Str) (hslash : ∀ r ∈ records, 47 ∈ r.path) :
    (OldDatabase.takeEntries dir records).2.2 =
      (OldDatabase.takeEntries dir records).2.1.isEmpty := by
  induction records with
  | nil => rfl
  | cons r records ih =>
      rw [List.forall_mem_cons] at hslash
      rw [OldDatabase.takeEntries, if_neg (List.ne_nil_of_mem hslash.1)]
      split
      · rfl
      · split
        · rfl
        · exact ih hslash.2

/-- A directory finds its records among those that are left, and leaves those of the directories
behind it. If there are none it has come to the end. -/
theorem readDirectory_eq (existing : OldDatabase) (path : Str)
    (horder : InWalkOrder existing.records) (hslash : ∀ r ∈ existing.records, 47 ∈ r.path)
    (hskip : ∀ r ∈ existing.records, DirLt r.dir (withSlash path) → DirLt r.path path) :
    (existing.skipBefore path).readDirectory (withSlash path) =
      (entriesOf existing.records path,
        { existing with
          records := existing.records.filter fun r => DirLt (withSlash path) r.dir
          error := existing.error || (existing.broken &&
            (existing.records.filter fun r => DirLt (withSlash path) r.dir).isEmpty) }) := by
  have hrecords := skipRecords_eq horder hslash hskip
  have hend := skipRecords_atEnd path hslash
  have hslash' : ∀ r ∈ existing.records.filter fun r => ¬DirLt r.dir (withSlash path),
      47 ∈ r.path := fun r hr => hslash r (List.mem_of_mem_filter hr)
  obtain ⟨hentries, hrest⟩ := takeEntries_eq (horder.sublist List.filter_sublist) hslash'
    (getLast?_withSlash path) (fun r hr => of_decide_eq_true
      (List.of_mem_filter (p := fun r : FileRecord => decide ¬DirLt r.dir (withSlash path)) hr))
  have hend' := takeEntries_atEnd (withSlash path) hslash'
  have hsame : (existing.records.filter fun r => decide (r.dir = withSlash path) &&
      decide ¬DirLt r.dir (withSlash path)) =
        existing.records.filter fun r => r.dir = withSlash path := by
    refine List.filter_congr fun r _ => ?_
    by_cases heq : r.dir = withSlash path
    · simp [heq, DirLt.irrefl]
    · simp [heq]
  have hbehind : (existing.records.filter fun r => decide (DirLt (withSlash path) r.dir) &&
      decide ¬DirLt r.dir (withSlash path)) =
        existing.records.filter fun r => DirLt (withSlash path) r.dir := by
    refine List.filter_congr fun r _ => ?_
    by_cases hlt : DirLt (withSlash path) r.dir
    · simp [hlt, hlt.asymm]
    · simp [hlt]
  rw [List.filter_filter, hsame] at hentries
  rw [List.filter_filter, hbehind] at hrest
  rw [hrest] at hend'
  rw [hrecords] at hend
  have hempty : (existing.records.filter fun r => ¬DirLt r.dir (withSlash path)).isEmpty = true →
      (existing.records.filter fun r => DirLt (withSlash path) r.dir).isEmpty = true := by
    rw [List.isEmpty_iff, List.isEmpty_iff, List.filter_eq_nil_iff, List.filter_eq_nil_iff]
    intro hnone r hr hlt
    exact hnone r hr (decide_eq_true (of_decide_eq_true hlt).asymm)
  rw [OldDatabase.skipBefore, OldDatabase.readDirectory]
  simp only [hrecords, hentries, hrest, hend, hend']
  rw [Bool.or_assoc, ← Bool.and_or_distrib_right, Bool.or_eq_right_iff_imp.mpr hempty,
    Bool.and_comm]
  rfl

end Read

end Flocate
