import Flocate.Snapshot

/-!
# The difference of two snapshots

`diff_snapshots` merges two sorted lists of paths. There is an event for a path exactly if the two
snapshots do not agree about it, so that the events turn one snapshot into the other.
-/

namespace Flocate

open Bytes

def makeEvent (kind : HistoryEventKind) (path : Str) (oldMetadata newMetadata : FileMetadata) :
    HistoryEvent where
  kind := kind
  path := path
  oldMetadata := oldMetadata
  newMetadata := newMetadata

def diffEntries (compareAtime : Bool) :
    List (Str × FileMetadata) → List (Str × FileMetadata) → List HistoryEvent
  | [], [] => []
  | [], (q, n) :: news => makeEvent .added q {} n :: diffEntries compareAtime [] news
  | (p, m) :: olds, [] => makeEvent .removed p m {} :: diffEntries compareAtime olds []
  | (p, m) :: olds, (q, n) :: news =>
      if p = q then
        if metadataEquals m n compareAtime then diffEntries compareAtime olds news
        else makeEvent .modified q m n :: diffEntries compareAtime olds news
      else if p < q then makeEvent .removed p m {} :: diffEntries compareAtime olds ((q, n) :: news)
      else makeEvent .added q {} n :: diffEntries compareAtime ((p, m) :: olds) news
termination_by olds news => olds.length + news.length

namespace Snapshot

def entries (s : Snapshot) : List (Str × FileMetadata) := s.paths.zip s.metadata

def find (s : Snapshot) (p : Str) : Option FileMetadata := s.entries.lookup p

structure Sorted (s : Snapshot) : Prop where
  length : s.paths.length = s.metadata.length
  paths : s.paths.Pairwise (· < ·)

end Snapshot

def diffSnapshots (compareAtime : Bool) (old new : Snapshot) : List HistoryEvent :=
  diffEntries compareAtime old.entries new.entries

/-- From what there was at the path of an event to what there is; nothing if the event does not
fit. -/
def HistoryEvent.apply (event : HistoryEvent) (old : Option FileMetadata) :
    Option (Option FileMetadata) :=
  match event.kind with
  | .added => if old = none then some (some event.newMetadata) else none
  | .removed => if old = some event.oldMetadata then some none else none
  | .modified => if old = some event.oldMetadata then some (some event.newMetadata) else none
  | _ => none

/-- An event as a patch of a map from paths. -/
def applyEvent (m : Str → Option FileMetadata) (event : HistoryEvent) :
    Option (Str → Option FileMetadata) :=
  (event.apply (m event.path)).map (Function.update m event.path)

def SameMetadata (compareAtime : Bool) (a b : Option FileMetadata) : Prop :=
  match a, b with
  | none, none => True
  | some a, some b => metadataEquals a b compareAtime = true
  | _, _ => False

def diffAt (compareAtime : Bool) (p : Str) (old new : Option FileMetadata) :
    Option HistoryEvent :=
  match old, new with
  | none, none => none
  | some m, none => some (makeEvent .removed p m {})
  | none, some n => some (makeEvent .added p {} n)
  | some m, some n =>
      if metadataEquals m n compareAtime then none else some (makeEvent .modified p m n)

def HistoryEvent.reverse (event : HistoryEvent) : HistoryEvent :=
  { event with
    kind :=
      match event.kind with
      | .added => .removed
      | .removed => .added
      | kind => kind
    oldMetadata := event.newMetadata
    newMetadata := event.oldMetadata }

section Metadata

variable {a b : FileMetadata} {compareAtime : Bool}

theorem hashEquals_comm (a b : MetadataHash) : hashEquals a b = hashEquals b a := by
  have himp (a b : MetadataHash) (h : hashEquals a b = true) : hashEquals b a = true := by
    unfold hashEquals at h ⊢
    rw [decide_eq_true_iff] at h ⊢
    exact ⟨h.1.symm, h.2.1.symm, h.2.1 ▸ h.2.2.symm⟩
  exact Bool.eq_iff_iff.mpr ⟨himp a b, himp b a⟩

theorem metadataEquals_iff : metadataEquals a b compareAtime = true ↔
    a.enabled = b.enabled ∧ (a.enabled = true →
      (compareAtime = true → a.atime = b.atime) ∧ a.mode = b.mode ∧ a.uid = b.uid ∧
        a.gid = b.gid ∧ a.size = b.size ∧ a.mtime = b.mtime ∧ a.ctime = b.ctime ∧
        hashEquals a.hash b.hash = true) := by
  unfold metadataEquals
  simp only [dirTimeEquals_iff]
  by_cases henabled : a.enabled = b.enabled
  · rw [if_neg (not_not_intro henabled)]
    cases ha : a.enabled with
    | false => exact iff_of_true rfl ⟨ha ▸ henabled, fun h => by cases h⟩
    | true =>
        rw [ha] at henabled
        simp only [Bool.not_true, Bool.false_eq_true, if_false, ← henabled, true_and, forall_const]
        cases compareAtime with
        | false => simp
        | true =>
            by_cases hatime : a.atime = b.atime
            · simp [hatime, (dirTimeEquals_iff _ _).mpr]
            · have hdiffer : dirTimeEquals a.atime b.atime = false :=
                Bool.eq_false_iff.mpr fun h => hatime ((dirTimeEquals_iff _ _).mp h)
              simp [hatime, hdiffer]
  · rw [if_pos henabled]
    exact iff_of_false Bool.false_ne_true fun h => henabled h.1

theorem metadataEquals_refl (a : FileMetadata) (compareAtime : Bool) :
    metadataEquals a a compareAtime = true :=
  metadataEquals_iff.mpr ⟨rfl, fun _ => ⟨fun _ => rfl, rfl, rfl, rfl, rfl, rfl, rfl,
    decide_eq_true ⟨rfl, rfl, rfl⟩⟩⟩

theorem metadataEquals_comm (a b : FileMetadata) (compareAtime : Bool) :
    metadataEquals a b compareAtime = metadataEquals b a compareAtime := by
  have himp (a b : FileMetadata) (h : metadataEquals a b compareAtime = true) :
      metadataEquals b a compareAtime = true := by
    rw [metadataEquals_iff] at h ⊢
    refine ⟨h.1.symm, fun henabled => ?_⟩
    obtain ⟨hatime, hmode, huid, hgid, hsize, hmtime, hctime, hhash⟩ := h.2 (h.1 ▸ henabled)
    rw [hashEquals_comm] at hhash
    exact ⟨fun hcompare => (hatime hcompare).symm, hmode.symm, huid.symm, hgid.symm, hsize.symm,
      hmtime.symm, hctime.symm, hhash⟩
  exact Bool.eq_iff_iff.mpr ⟨himp a b, himp b a⟩

theorem addField_ne_nil (out : Str) {name : String} (h : ascii name ≠ []) :
    addField out name ≠ [] :=
  List.append_ne_nil_of_right_ne_nil _ h

/-- No name is empty, so that the names of the fields that differ are not, if there are any. -/
theorem foldl_addField_eq_nil_iff (fields : List (String × Bool))
    (hnames : ∀ name ∈ fields.map Prod.fst, ascii name ≠ []) (out : Str) :
    fields.foldl (fun out field => if field.2 then addField out field.1 else out) out = [] ↔
      out = [] ∧ ∀ field ∈ fields, field.2 = false := by
  induction fields generalizing out with
  | nil => exact ⟨fun h => ⟨h, List.forall_mem_nil _⟩, fun h => h.1⟩
  | cons field fields ih =>
      rw [List.map_cons, List.forall_mem_cons] at hnames
      rw [List.foldl_cons, ih hnames.2, List.forall_mem_cons]
      cases hdiffer : field.2 with
      | false => simp
      | true =>
          have hne := addField_ne_nil out hnames.1
          simp [hne]

/-- Metadata that is not the same differs in some field. -/
theorem metadataDiffFields_ne_nil (h : metadataEquals a b compareAtime = false) :
    metadataDiffFields a b ≠ [] := by
  intro hnil
  unfold metadataDiffFields at hnil
  split at hnil
  · split at hnil
    · exact addField_ne_nil [] (by decide) hnil
    · exact addField_ne_nil [] (by decide) hnil
  · rename_i henabled
    rw [not_not] at henabled
    split at hnil
    · rename_i hdisabled
      have heq : metadataEquals a b compareAtime = true :=
        metadataEquals_iff.mpr ⟨henabled, fun ha => by simp [ha] at hdisabled⟩
      rw [heq] at h
      cases h
    · have hnames : ∀ name ∈ ["mode", "uid", "gid", "size", "mtime", "ctime", "atime", "hash"],
          ascii name ≠ [] := by decide
      have hnil := (foldl_addField_eq_nil_iff _ (by exact hnames) []).mp hnil
      simp only [List.forall_mem_cons, decide_eq_false_iff_not, not_not, Bool.not_eq_false',
        dirTimeEquals_iff] at hnil
      obtain ⟨-, hmode, huid, hgid, hsize, hmtime, hctime, hatime, hhash, -⟩ := hnil
      have heq : metadataEquals a b compareAtime = true :=
        metadataEquals_iff.mpr ⟨henabled, fun _ => ⟨fun _ => hatime, hmode, huid, hgid, hsize,
          hmtime, hctime, hhash⟩⟩
      rw [heq] at h
      cases h

end Metadata

section Lookup

variable {entries : List (Str × FileMetadata)} {p q : Str} {m : FileMetadata}

theorem lookup_cons_of_ne (h : p ≠ q) : ((q, m) :: entries).lookup p = entries.lookup p := by
  rw [List.lookup_cons, beq_false_of_ne h]

theorem lookup_eq_none_of_lt (h : ∀ x ∈ entries, p < x.1) : entries.lookup p = none := by
  rw [List.lookup_eq_none_iff]
  intro x hx
  rw [bne_iff_ne]
  rintro rfl
  exact List.lt_irrefl _ (h x hx)

def Increasing (entries : List (Str × FileMetadata)) : Prop :=
  entries.Pairwise fun x y => x.1 < y.1

theorem Increasing.lookup_head (h : Increasing ((q, m) :: entries)) : entries.lookup q = none :=
  lookup_eq_none_of_lt (List.pairwise_cons.mp h).1

theorem Increasing.lookup_of_lt (h : Increasing ((q, m) :: entries)) (hlt : p < q) :
    ((q, m) :: entries).lookup p = none := by
  refine lookup_eq_none_of_lt ?_
  rw [List.forall_mem_cons]
  exact ⟨hlt, fun x hx => List.lt_trans hlt ((List.pairwise_cons.mp h).1 x hx)⟩

theorem Increasing.lookup_eq_some_iff (h : Increasing entries) :
    entries.lookup p = some m ↔ (p, m) ∈ entries := by
  induction entries with
  | nil => exact iff_of_false (Option.some_ne_none m).symm List.not_mem_nil
  | cons x entries ih =>
      obtain ⟨q, n⟩ := x
      rw [List.mem_cons, Prod.mk.injEq]
      by_cases hpq : p = q
      · subst hpq
        rw [List.lookup_cons_self, Option.some.injEq, eq_comm]
        constructor
        · exact fun hmn => Or.inl ⟨rfl, hmn⟩
        · rintro (⟨-, hmn⟩ | hmem)
          · exact hmn
          · exact absurd ((List.pairwise_cons.mp h).1 _ hmem) (List.lt_irrefl _)
      · rw [lookup_cons_of_ne hpq, ih (List.pairwise_cons.mp h).2]
        exact ⟨Or.inr, Or.rec (fun heq => absurd heq.1 hpq) id⟩

end Lookup

section Events

variable {compareAtime : Bool} {olds news olds' news' : List (Str × FileMetadata)}
  {event : HistoryEvent}

theorem diffAt_path {p : Str} {old new : Option FileMetadata}
    (h : diffAt compareAtime p old new = some event) : event.path = p := by
  unfold diffAt at h
  split at h
  · cases h
  · cases h
    rfl
  · cases h
    rfl
  · split at h
    · cases h
    · cases h
      rfl

/-- The loop has dealt with the path `r`. -/
theorem diffAt_step {r : Str} {rest : List HistoryEvent}
    (hother : ∀ p ≠ r, olds'.lookup p = olds.lookup p ∧ news'.lookup p = news.lookup p)
    (hr : olds'.lookup r = none ∧ news'.lookup r = none)
    (hrest : event ∈ rest ↔ diffAt compareAtime event.path (olds'.lookup event.path)
      (news'.lookup event.path) = some event) :
    (diffAt compareAtime r (olds.lookup r) (news.lookup r) = some event ∨ event ∈ rest) ↔
      diffAt compareAtime event.path (olds.lookup event.path) (news.lookup event.path) =
        some event := by
  rw [hrest]
  by_cases hpath : event.path = r
  · rw [hpath, hr.1, hr.2]
    exact or_iff_left (Option.some_ne_none event).symm
  · obtain ⟨hold, hnew⟩ := hother event.path hpath
    rw [hold, hnew]
    exact or_iff_right fun h => hpath (diffAt_path h)

/-- The loop has dealt with the path `r` through an event. -/
theorem mem_cons_step {r : Str} {rest : List HistoryEvent} {first : HistoryEvent}
    (hother : ∀ p ≠ r, olds'.lookup p = olds.lookup p ∧ news'.lookup p = news.lookup p)
    (hr : olds'.lookup r = none ∧ news'.lookup r = none)
    (hrest : event ∈ rest ↔ diffAt compareAtime event.path (olds'.lookup event.path)
      (news'.lookup event.path) = some event)
    (hfirst : diffAt compareAtime r (olds.lookup r) (news.lookup r) = some first) :
    event ∈ first :: rest ↔ diffAt compareAtime event.path (olds.lookup event.path)
      (news.lookup event.path) = some event := by
  rw [← diffAt_step hother hr hrest, hfirst, List.mem_cons, Option.some.injEq, eq_comm]

/-- There is an event for a path exactly if the snapshots do not agree about it. -/
theorem mem_diffEntries (holds : Increasing olds) (hnews : Increasing news) :
    event ∈ diffEntries compareAtime olds news ↔ diffAt compareAtime event.path
      (olds.lookup event.path) (news.lookup event.path) = some event := by
  induction olds, news using diffEntries.induct compareAtime with
  | case1 =>
      rw [diffEntries]
      exact iff_of_false List.not_mem_nil (Option.some_ne_none event).symm
  | case2 q n news ih =>
      rw [diffEntries]
      apply mem_cons_step (fun p hp => ⟨rfl, (lookup_cons_of_ne hp).symm⟩)
        ⟨rfl, hnews.lookup_head⟩ (ih holds (List.pairwise_cons.mp hnews).2)
      rw [List.lookup_cons_self]
      rfl
  | case3 p m olds ih =>
      rw [diffEntries]
      apply mem_cons_step (fun p hp => ⟨(lookup_cons_of_ne hp).symm, rfl⟩)
        ⟨holds.lookup_head, rfl⟩ (ih (List.pairwise_cons.mp holds).2 hnews)
      rw [List.lookup_cons_self]
      rfl
  | case4 m olds p n news hequal ih =>
      have hih := ih (List.pairwise_cons.mp holds).2 (List.pairwise_cons.mp hnews).2
      rw [diffEntries, if_pos rfl, if_pos hequal, ← diffAt_step (r := p)
        (fun p hp => ⟨(lookup_cons_of_ne hp).symm, (lookup_cons_of_ne hp).symm⟩)
        ⟨holds.lookup_head, hnews.lookup_head⟩ hih, List.lookup_cons_self, List.lookup_cons_self,
        diffAt, if_pos hequal]
      exact (or_iff_right (Option.some_ne_none event).symm).symm
  | case5 m olds p n news hequal ih =>
      rw [diffEntries, if_pos rfl, if_neg hequal]
      apply mem_cons_step
        (fun p hp => ⟨(lookup_cons_of_ne hp).symm, (lookup_cons_of_ne hp).symm⟩)
        ⟨holds.lookup_head, hnews.lookup_head⟩
        (ih (List.pairwise_cons.mp holds).2 (List.pairwise_cons.mp hnews).2)
      rw [List.lookup_cons_self, List.lookup_cons_self, diffAt, if_neg hequal]
  | case6 p m olds q n news hne hlt ih =>
      rw [diffEntries, if_neg hne, if_pos hlt]
      apply mem_cons_step (fun p hp => ⟨(lookup_cons_of_ne hp).symm, rfl⟩)
        ⟨holds.lookup_head, hnews.lookup_of_lt hlt⟩ (ih (List.pairwise_cons.mp holds).2 hnews)
      rw [List.lookup_cons_self, hnews.lookup_of_lt hlt]
      rfl
  | case7 p m olds q n news hne hlt ih =>
      have hgt : q < p := by
        apply Classical.byContradiction
        intro hle
        exact hne (List.le_antisymm hle hlt)
      rw [diffEntries, if_neg hne, if_neg hlt]
      apply mem_cons_step (fun p hp => ⟨rfl, (lookup_cons_of_ne hp).symm⟩)
        ⟨holds.lookup_of_lt hgt, hnews.lookup_head⟩ (ih holds (List.pairwise_cons.mp hnews).2)
      rw [List.lookup_cons_self, holds.lookup_of_lt hgt]
      rfl

/-- Every event is about a path of one of the snapshots. -/
theorem path_mem_of_mem_diffEntries (h : event ∈ diffEntries compareAtime olds news) :
    event.path ∈ olds.map Prod.fst ∨ event.path ∈ news.map Prod.fst := by
  induction olds, news using diffEntries.induct compareAtime with
  | case1 =>
      rw [diffEntries] at h
      cases h
  | case2 q n news ih =>
      rw [diffEntries] at h
      rcases List.mem_cons.mp h with rfl | h
      · exact Or.inr List.mem_cons_self
      · exact (ih h).imp_right (List.mem_cons_of_mem _)
  | case3 p m olds ih =>
      rw [diffEntries] at h
      rcases List.mem_cons.mp h with rfl | h
      · exact Or.inl List.mem_cons_self
      · exact (ih h).imp_left (List.mem_cons_of_mem _)
  | case4 m olds p n news hequal ih =>
      rw [diffEntries, if_pos rfl, if_pos hequal] at h
      exact (ih h).imp (List.mem_cons_of_mem _) (List.mem_cons_of_mem _)
  | case5 m olds p n news hequal ih =>
      rw [diffEntries, if_pos rfl, if_neg hequal] at h
      rcases List.mem_cons.mp h with rfl | h
      · exact Or.inl List.mem_cons_self
      · exact (ih h).imp (List.mem_cons_of_mem _) (List.mem_cons_of_mem _)
  | case6 p m olds q n news hne hlt ih =>
      rw [diffEntries, if_neg hne, if_pos hlt] at h
      rcases List.mem_cons.mp h with rfl | h
      · exact Or.inl List.mem_cons_self
      · exact (ih h).imp_left (List.mem_cons_of_mem _)
  | case7 p m olds q n news hne hlt ih =>
      rw [diffEntries, if_neg hne, if_neg hlt] at h
      rcases List.mem_cons.mp h with rfl | h
      · exact Or.inr List.mem_cons_self
      · exact (ih h).imp_right (List.mem_cons_of_mem _)

theorem Increasing.forall_lt {p : Str} {m : FileMetadata} (h : Increasing ((p, m) :: olds)) :
    ∀ q ∈ olds.map Prod.fst, p < q :=
  List.forall_mem_map.mpr (List.pairwise_cons.mp h).1

/-- The events come in the order of their paths. -/
theorem pairwise_diffEntries (holds : Increasing olds) (hnews : Increasing news) :
    (diffEntries compareAtime olds news).Pairwise fun x y => x.path < y.path := by
  have hcons {first : HistoryEvent} {olds news : List (Str × FileMetadata)}
      (hold : ∀ p ∈ olds.map Prod.fst, first.path < p)
      (hnew : ∀ p ∈ news.map Prod.fst, first.path < p)
      (hrest : (diffEntries compareAtime olds news).Pairwise fun x y => x.path < y.path) :
      (first :: diffEntries compareAtime olds news).Pairwise fun x y => x.path < y.path := by
    rw [List.pairwise_cons]
    refine ⟨fun event hevent => ?_, hrest⟩
    rcases path_mem_of_mem_diffEntries hevent with hpath | hpath
    · exact hold _ hpath
    · exact hnew _ hpath
  have hcons' {p q : Str} {n : FileMetadata} {news : List (Str × FileMetadata)}
      (hnews : Increasing ((q, n) :: news)) (hlt : p < q) :
      ∀ r ∈ ((q, n) :: news).map Prod.fst, p < r := by
    rw [List.map_cons, List.forall_mem_cons]
    exact ⟨hlt, fun r hr => List.lt_trans hlt (hnews.forall_lt r hr)⟩
  induction olds, news using diffEntries.induct compareAtime with
  | case1 =>
      rw [diffEntries]
      exact List.Pairwise.nil
  | case2 q n news ih =>
      rw [diffEntries]
      exact hcons (List.forall_mem_nil _) hnews.forall_lt (ih holds (List.pairwise_cons.mp hnews).2)
  | case3 p m olds ih =>
      rw [diffEntries]
      exact hcons holds.forall_lt (List.forall_mem_nil _) (ih (List.pairwise_cons.mp holds).2 hnews)
  | case4 m olds p n news hequal ih =>
      rw [diffEntries, if_pos rfl, if_pos hequal]
      exact ih (List.pairwise_cons.mp holds).2 (List.pairwise_cons.mp hnews).2
  | case5 m olds p n news hequal ih =>
      rw [diffEntries, if_pos rfl, if_neg hequal]
      exact hcons holds.forall_lt hnews.forall_lt
        (ih (List.pairwise_cons.mp holds).2 (List.pairwise_cons.mp hnews).2)
  | case6 p m olds q n news hne hlt ih =>
      rw [diffEntries, if_neg hne, if_pos hlt]
      exact hcons holds.forall_lt (hcons' hnews hlt) (ih (List.pairwise_cons.mp holds).2 hnews)
  | case7 p m olds q n news hne hlt ih =>
      have hgt : q < p := by
        apply Classical.byContradiction
        intro hle
        exact hne (List.le_antisymm hle hlt)
      rw [diffEntries, if_neg hne, if_neg hlt]
      exact hcons (hcons' holds hgt) hnews.forall_lt (ih holds (List.pairwise_cons.mp hnews).2)

/-- An event turns what the one snapshot says into what the other one does. -/
theorem apply_of_diffAt {p : Str} {old new : Option FileMetadata}
    (h : diffAt compareAtime p old new = some event) : event.apply old = some new := by
  unfold diffAt at h
  unfold HistoryEvent.apply
  split at h
  · cases h
  · obtain rfl := Option.some.inj h
    exact if_pos rfl
  · obtain rfl := Option.some.inj h
    exact if_pos rfl
  · split at h
    · cases h
    · obtain rfl := Option.some.inj h
      exact if_pos rfl

theorem diffAt_eq_none_iff {p : Str} {old new : Option FileMetadata} :
    diffAt compareAtime p old new = none ↔ SameMetadata compareAtime old new := by
  cases old with
  | none =>
      cases new with
      | none => exact iff_of_true rfl trivial
      | some n => exact iff_of_false (Option.some_ne_none _) not_false
  | some m =>
      cases new with
      | none => exact iff_of_false (Option.some_ne_none _) not_false
      | some n =>
          change (if metadataEquals m n compareAtime = true then none else _) = none ↔
            metadataEquals m n compareAtime = true
          split
          · exact iff_of_true rfl ‹_›
          · exact iff_of_false (Option.some_ne_none _) ‹_›

theorem sameMetadata_refl (compareAtime : Bool) (a : Option FileMetadata) :
    SameMetadata compareAtime a a := by
  cases a with
  | none => trivial
  | some a => exact metadataEquals_refl a compareAtime

theorem metadataDiffFields_of_diffAt {p : Str} {old new : Option FileMetadata}
    (h : diffAt compareAtime p old new = some event) (hkind : event.kind = .modified) :
    metadataDiffFields event.oldMetadata event.newMetadata ≠ [] := by
  unfold diffAt at h
  split at h
  · cases h
  · obtain rfl := Option.some.inj h
    cases hkind
  · obtain rfl := Option.some.inj h
    cases hkind
  · split at h
    · cases h
    · rename_i hdiffer
      obtain rfl := Option.some.inj h
      exact metadataDiffFields_ne_nil (Bool.eq_false_iff.mpr hdiffer)

/-- Events of different paths do not interfere. -/
theorem foldlM_applyEvent {events : List HistoryEvent} {m : Str → Option FileMetadata}
    (after : HistoryEvent → Option FileMetadata)
    (hpaths : events.Pairwise fun x y => x.path < y.path)
    (happly : ∀ event ∈ events, event.apply (m event.path) = some (after event)) :
    ∃ m', events.foldlM applyEvent m = some m' ∧
      (∀ event ∈ events, m' event.path = after event) ∧
      ∀ p, (∀ event ∈ events, event.path ≠ p) → m' p = m p := by
  induction events generalizing m with
  | nil => exact ⟨m, rfl, List.forall_mem_nil _, fun p _ => rfl⟩
  | cons first events ih =>
      rw [List.pairwise_cons] at hpaths
      rw [List.forall_mem_cons] at happly
      have hne : ∀ event ∈ events, event.path ≠ first.path := by
        intro event hevent heq
        exact List.lt_irrefl _ (heq ▸ hpaths.1 event hevent)
      obtain ⟨m', hfold, hafter, hother⟩ := ih (m := Function.update m first.path (after first))
        hpaths.2 fun event hevent => by
          rw [Function.update_of_ne (hne event hevent)]
          exact happly.2 event hevent
      refine ⟨m', ?_, ?_, fun p hp => ?_⟩
      · rw [List.foldlM_cons, applyEvent, happly.1]
        exact hfold
      · rw [List.forall_mem_cons, hother first.path hne, Function.update_self]
        exact ⟨rfl, hafter⟩
      · rw [List.forall_mem_cons] at hp
        rw [hother p hp.2, Function.update_of_ne (Ne.symm hp.1)]

/-- The other way round, every event is reversed. -/
theorem diffEntries_reverse (olds news : List (Str × FileMetadata)) :
    diffEntries compareAtime news olds =
      (diffEntries compareAtime olds news).map HistoryEvent.reverse := by
  induction olds, news using diffEntries.induct compareAtime with
  | case1 => rw [diffEntries, List.map_nil]
  | case2 q n news ih => rw [diffEntries, diffEntries, ih, List.map_cons, HistoryEvent.reverse]; rfl
  | case3 p m olds ih => rw [diffEntries, diffEntries, ih, List.map_cons]; rfl
  | case4 m olds p n news hequal ih =>
      rw [diffEntries, diffEntries, if_pos rfl, if_pos rfl, metadataEquals_comm n m, if_pos hequal,
        if_pos hequal, ih]
  | case5 m olds p n news hequal ih =>
      rw [diffEntries, diffEntries, if_pos rfl, if_pos rfl, metadataEquals_comm n m, if_neg hequal,
        if_neg hequal, ih]
      rfl
  | case6 p m olds q n news hne hlt ih =>
      rw [diffEntries, diffEntries, if_neg hne, if_neg (Ne.symm hne), if_pos hlt,
        if_neg (List.lt_asymm hlt), ih]
      rfl
  | case7 p m olds q n news hne hlt ih =>
      have hgt : q < p := by
        apply Classical.byContradiction
        intro hle
        exact hne (List.le_antisymm hle hlt)
      rw [diffEntries, diffEntries, if_neg hne, if_neg (Ne.symm hne), if_neg hlt, if_pos hgt, ih]
      rfl

end Events

section Snapshots

theorem Snapshot.Sorted.increasing {s : Snapshot} (h : s.Sorted) : Increasing s.entries := by
  have hpaths : s.entries.map Prod.fst = s.paths := List.map_fst_zip h.length.le
  unfold Increasing
  rw [← List.pairwise_map (f := Prod.fst) (R := (· < ·)), hpaths]
  exact h.paths

/-- The events are in order, and they turn the old snapshot into the new one; none is for a path
that is the same in both, and the events of the opposite direction are their reverses. -/
theorem diffSnapshots_patch (compareAtime : Bool) (old new : Snapshot) (hold : old.Sorted)
    (hnew : new.Sorted) :
    ((diffSnapshots compareAtime old new).Pairwise fun x y => x.path < y.path) ∧
      (∃ m, (diffSnapshots compareAtime old new).foldlM applyEvent old.find = some m ∧
        ∀ p, SameMetadata compareAtime (m p) (new.find p)) ∧
      (∀ event ∈ diffSnapshots compareAtime old new,
        ¬SameMetadata compareAtime (old.find event.path) (new.find event.path)) ∧
      (∀ event ∈ diffSnapshots compareAtime old new, event.kind = .modified →
        metadataDiffFields event.oldMetadata event.newMetadata ≠ []) ∧
      diffSnapshots compareAtime new old =
        (diffSnapshots compareAtime old new).map HistoryEvent.reverse := by
  have hmem (event : HistoryEvent) : event ∈ diffSnapshots compareAtime old new ↔
      diffAt compareAtime event.path (old.find event.path) (new.find event.path) = some event :=
    mem_diffEntries hold.increasing hnew.increasing
  have hpaths : (diffSnapshots compareAtime old new).Pairwise fun x y => x.path < y.path :=
    pairwise_diffEntries hold.increasing hnew.increasing
  refine ⟨hpaths, ?_, ?_, ?_, diffEntries_reverse _ _⟩
  · obtain ⟨m, hfold, hafter, hother⟩ := foldlM_applyEvent (m := old.find)
      (fun event => new.find event.path) hpaths
      fun event hevent => apply_of_diffAt ((hmem event).mp hevent)
    refine ⟨m, hfold, fun p => ?_⟩
    cases hevent : diffAt compareAtime p (old.find p) (new.find p) with
    | none =>
        rw [hother p, ← diffAt_eq_none_iff, hevent]
        intro event hin hpath
        rw [← hpath, (hmem event).mp hin] at hevent
        cases hevent
    | some event =>
        have hpath := diffAt_path hevent
        subst hpath
        rw [hafter event ((hmem event).mpr hevent)]
        exact sameMetadata_refl compareAtime _
  · intro event hevent hsame
    rw [← diffAt_eq_none_iff (p := event.path), (hmem event).mp hevent] at hsame
    cases hsame
  · intro event hevent hkind
    exact metadataDiffFields_of_diffAt ((hmem event).mp hevent) hkind

/-- One path goes, one changes and one comes. -/
def beforeChange : Snapshot where
  paths := [ascii "/a", ascii "/b"]
  metadata := [{ enabled := true }, { enabled := true }]
  hashKind := .none
  scanRoot := ascii "/"

def afterChange : Snapshot where
  paths := [ascii "/b", ascii "/c"]
  metadata := [{ enabled := true, size := 1 }, { enabled := true }]
  hashKind := .none
  scanRoot := ascii "/"

theorem diffSnapshots_patch_change :
    ∃ m, (diffSnapshots false beforeChange afterChange).foldlM applyEvent beforeChange.find =
      some m ∧ ∀ p, SameMetadata false (m p) (afterChange.find p) :=
  (diffSnapshots_patch false beforeChange afterChange ⟨rfl, by decide⟩ ⟨rfl, by decide⟩).2.1

end Snapshots

end Flocate
