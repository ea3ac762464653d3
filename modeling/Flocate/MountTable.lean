import Flocate.BindMount
import Flocate.PrunepathsOrder
import Mathlib.Data.Finset.Preimage
import Mathlib.Logic.Relation
import Mathlib.Order.WellFoundedSet

/-!
# What is under a pruned mount

`find_whether_under_pruned` follows the parents of a mount and remembers an answer when it comes
back from them. Only a missing mount, a pruned one or a parent `0` ends the way upwards, so that a
cycle of parents, and be it the root that names itself, is followed forever. The mounts that are not
taken out then decide about bind mounts, where a mount of a directory on itself is put aside for the
mount that shows the directory at the same place, unless one of the two has been taken out.
-/

namespace Flocate

open Bytes Relation

section Acyclic

variable {α : Type} {r : α → α → Prop}

/-- A relation that leads away from finitely many elements only, and never back, ends. -/
theorem wellFounded_of_acyclic (s : Finset α) (hs : ∀ a b, r a b → a ∈ s)
    (h : ∀ a, ¬TransGen r a a) : WellFounded fun b a => r a b := by
  let before : α → α → Prop := fun b a => TransGen r a b
  have : IsStrictOrder α before :=
    { irrefl := h, trans := fun a b c hab hbc => TransGen.trans hbc hab }
  have hfinite : (s : Set α).WellFoundedOn before := s.finite_toSet.wellFoundedOn
  rw [Set.wellFoundedOn_iff] at hfinite
  have hacc (a : α) (ha : a ∈ s) : Acc (fun b a => r a b) a := by
    induction a using hfinite.induction with
    | _ a ih =>
        refine ⟨a, fun b hab => ?_⟩
        by_cases hb : b ∈ s
        · exact ih b ⟨TransGen.single hab, hb, ha⟩ hb
        · exact ⟨b, fun c hbc => absurd (hs b c hbc) hb⟩
  refine ⟨fun a => ⟨a, fun b hab => ?_⟩⟩
  exact (hacc a (hs a b hab)).inv hab

theorem not_acc_of_self {a : α} (h : r a a) : ¬Acc r a := by
  intro hacc
  induction hacc with
  | intro a _ ih => exact ih a h h

end Acyclic

structure MountEntry extends Mount where
  parentId : ℤ
  prunedDueToFsType : Bool
  prunedDueToPath : Bool
deriving DecidableEq

def MountEntry.isPruned (me : MountEntry) : Bool := me.prunedDueToFsType || me.prunedDueToPath

def idToMount (entries : List MountEntry) : ℤ → Option MountEntry :=
  entries.foldl (fun m me => Function.update m me.id (some me)) fun _ => none

abbrev PrunedCache := ℤ → Option Bool

/-- An answer that is there already stays. -/
def PrunedCache.emplace (cache : PrunedCache) (id : ℤ) (result : Bool) : PrunedCache :=
  Function.update cache id (some ((cache id).getD result))

/-- The recursion, down to a depth. -/
def findWhetherUnderPruned (mounts : ℤ → Option MountEntry) :
    ℕ → ℤ → PrunedCache → Option (Bool × PrunedCache)
  | 0, _, _ => none
  | fuel + 1, id, cache =>
    match cache id with
    | some result => some (result, cache)
    | none =>
      match mounts id with
      | none => some (false, cache)
      | some me =>
        if me.isPruned then some (true, cache.emplace id true)
        else if me.parentId ≠ 0 then
          (findWhetherUnderPruned mounts fuel me.parentId cache).map fun found =>
            (found.1, found.2.emplace id found.1)
        else some (false, cache.emplace id false)

/-- The loop that asks for every mount and takes out what is under a pruned one. -/
def removePruned (mounts : ℤ → Option MountEntry) (fuel : ℕ) :
    List MountEntry → PrunedCache → Option (List Mount)
  | [], _ => some []
  | me :: entries, cache =>
    match findWhetherUnderPruned mounts fuel me.id cache with
    | none => none
    | some (toRemove, cache) =>
      (removePruned mounts fuel entries cache).map fun rest =>
        if toRemove then rest else me.toMount :: rest

def readMountEntries (fuel : ℕ) (entries : List MountEntry) : Option (List Mount) :=
  removePruned (idToMount entries) fuel entries fun _ => none

inductive Filled (entries : List MountEntry) : PrunedCache → Prop
  | empty : Filled entries fun _ => none
  | query {fuel : ℕ} {id : ℤ} {result : Bool} {cache cache' : PrunedCache} :
      Filled entries cache →
      findWhetherUnderPruned (idToMount entries) fuel id cache = some (result, cache') →
      Filled entries cache'

def Parent (entries : List MountEntry) (id parent : ℤ) : Prop :=
  ∃ me ∈ entries, me.id = id ∧ me.parentId = parent

def UnderPruned (entries : List MountEntry) (id : ℤ) : Prop :=
  ∃ above, ReflTransGen (Parent entries) id above ∧
    ∃ me ∈ entries, me.id = above ∧ me.isPruned = true

/-- Every call comes back with the right answer. -/
def PropagatesPruned (entries : List MountEntry) : Prop :=
  ∀ cache, Filled entries cache → ∀ id, ∃ fuel result cache',
    findWhetherUnderPruned (idToMount entries) fuel id cache = some (result, cache') ∧
      (result = true ↔ UnderPruned entries id)

/-- Where nothing is known, the way upwards goes on behind a mount. -/
def Follows (entries : List MountEntry) (id parent : ℤ) : Prop :=
  ∃ me ∈ entries, me.id = id ∧ me.isPruned = false ∧ me.parentId = parent ∧ parent ≠ 0

/-- No mount is above itself without a pruned one between. -/
def ParentsEnd (entries : List MountEntry) : Prop := ∀ id, ¬TransGen (Follows entries) id id

/-- What is mounted on a mount `0` is not under a pruned one by that. -/
def ZeroEnds (entries : List MountEntry) : Prop :=
  ∀ me ∈ entries, me.isPruned = false → me.parentId = 0 → ¬UnderPruned entries 0

/-- A pruned mount is come to on the way upwards. -/
def FoundPruned (entries : List MountEntry) (id : ℤ) : Prop :=
  ∃ above, ReflTransGen (Follows entries) id above ∧
    ∃ me ∈ entries, me.id = above ∧ me.isPruned = true

section Tables

variable {entries : List MountEntry} {me : MountEntry} {id : ℤ} {fuel : ℕ} {result : Bool}
  {cache cache' : PrunedCache}

theorem foldl_update_eq_some_iff (hids : (entries.map (·.id)).Nodup) (m : ℤ → Option MountEntry)
    (hm : ∀ id ∈ entries.map (·.id), m id = none) :
    entries.foldl (fun (m : ℤ → Option MountEntry) (me : MountEntry) =>
      Function.update m me.id (some me)) m id = some me ↔
      me ∈ entries ∧ me.id = id ∨ m id = some me := by
  induction entries generalizing m with
  | nil => simp
  | cons e entries ih =>
      rw [List.map_cons, List.nodup_cons] at hids
      rw [List.map_cons, List.forall_mem_cons] at hm
      rw [List.foldl_cons, ih hids.2]
      · by_cases hid : e.id = id
        · subst hid
          rw [Function.update_self, hm.1, List.mem_cons]
          constructor
          · rintro (⟨hme, hid⟩ | h)
            · exact .inl ⟨.inr hme, hid⟩
            · obtain rfl := Option.some.inj h
              exact .inl ⟨.inl rfl, rfl⟩
          · rintro (⟨rfl | hme, hid⟩ | h)
            · exact .inr rfl
            · exact .inl ⟨hme, hid⟩
            · cases h
        · rw [Function.update_of_ne (Ne.symm hid), List.mem_cons]
          constructor
          · rintro (⟨hme, hid'⟩ | h)
            · exact .inl ⟨.inr hme, hid'⟩
            · exact .inr h
          · rintro (⟨rfl | hme, hid'⟩ | h)
            · exact absurd hid' hid
            · exact .inl ⟨hme, hid'⟩
            · exact .inr h
      · intro id' hid'
        rw [Function.update_of_ne, hm.2 id' hid']
        rintro rfl
        exact hids.1 hid'

theorem idToMount_eq_some_iff (hids : (entries.map (·.id)).Nodup) :
    idToMount entries id = some me ↔ me ∈ entries ∧ me.id = id := by
  rw [idToMount, foldl_update_eq_some_iff hids _ fun _ _ => rfl]
  simp

theorem idToMount_eq_none (hids : (entries.map (·.id)).Nodup) (h : idToMount entries id = none) :
    ∀ me ∈ entries, me.id ≠ id := by
  intro me hme hid
  rw [(idToMount_eq_some_iff hids).mpr ⟨hme, hid⟩] at h
  cases h

theorem eq_of_id_eq (hids : (entries.map (·.id)).Nodup) {me' : MountEntry} (hme : me ∈ entries)
    (hme' : me' ∈ entries) (hid : me'.id = me.id) : me' = me :=
  List.inj_on_of_nodup_map hids hme' hme hid

theorem not_follows_of_missing (h : ∀ me ∈ entries, me.id ≠ id) (parent : ℤ) :
    ¬Follows entries id parent := by
  rintro ⟨me, hme, hid, -⟩
  exact h me hme hid

theorem follows_iff (hids : (entries.map (·.id)).Nodup) (hme : me ∈ entries) {parent : ℤ} :
    Follows entries me.id parent ↔ me.isPruned = false ∧ me.parentId = parent ∧ parent ≠ 0 := by
  constructor
  · rintro ⟨me', hme', hid, h⟩
    rwa [eq_of_id_eq hids hme hme' hid] at h
  · exact fun h => ⟨me, hme, rfl, h⟩

theorem foundPruned_of_isPruned (hme : me ∈ entries) (hpruned : me.isPruned = true) :
    FoundPruned entries me.id :=
  ⟨me.id, .refl, me, hme, rfl, hpruned⟩

theorem not_foundPruned_of_missing (h : ∀ me ∈ entries, me.id ≠ id) : ¬FoundPruned entries id := by
  rintro ⟨above, hreach, me, hme, hid, hpruned⟩
  rcases ReflTransGen.cases_head hreach with rfl | ⟨next, hnext, -⟩
  · exact h me hme hid
  · exact not_follows_of_missing h next hnext

/-- A mount that is not pruned itself is found under a pruned one if its parent is. -/
theorem foundPruned_iff_parent (hids : (entries.map (·.id)).Nodup) (hme : me ∈ entries)
    (hpruned : me.isPruned = false) :
    FoundPruned entries me.id ↔ me.parentId ≠ 0 ∧ FoundPruned entries me.parentId := by
  constructor
  · rintro ⟨above, hreach, me', hme', hid, hpruned'⟩
    rcases ReflTransGen.cases_head hreach with rfl | ⟨next, hnext, hreach⟩
    · rw [eq_of_id_eq hids hme hme' hid, hpruned] at hpruned'
      cases hpruned'
    · obtain ⟨-, rfl, hparent⟩ := (follows_iff hids hme).mp hnext
      exact ⟨hparent, above, hreach, me', hme', hid, hpruned'⟩
  · rintro ⟨hparent, above, hreach, hfound⟩
    exact ⟨above, .head ⟨me, hme, rfl, hpruned, rfl, hparent⟩ hreach, hfound⟩

theorem FoundPruned.underPruned (h : FoundPruned entries id) : UnderPruned entries id := by
  obtain ⟨above, hreach, hfound⟩ := h
  refine ⟨above, ReflTransGen.mono ?_ id above hreach, hfound⟩
  rintro id parent ⟨me, hme, hid, -, hparent, -⟩
  exact ⟨me, hme, hid, hparent⟩

theorem UnderPruned.foundPruned (hids : (entries.map (·.id)).Nodup) (hzero : ZeroEnds entries)
    (h : UnderPruned entries id) : FoundPruned entries id := by
  obtain ⟨above, hreach, hfound⟩ := h
  induction hreach using ReflTransGen.head_induction_on with
  | refl => exact ⟨above, .refl, hfound⟩
  | head hparent hreach ih =>
      obtain ⟨me, hme, rfl, rfl⟩ := hparent
      cases hpruned : me.isPruned with
      | true => exact foundPruned_of_isPruned hme hpruned
      | false =>
          rw [foundPruned_iff_parent hids hme hpruned]
          refine ⟨fun hparent => hzero me hme hpruned hparent ?_, ih⟩
          exact ⟨above, hparent ▸ hreach, hfound⟩

theorem foundPruned_iff_underPruned (hids : (entries.map (·.id)).Nodup)
    (hzero : ZeroEnds entries) : FoundPruned entries id ↔ UnderPruned entries id :=
  ⟨FoundPruned.underPruned, UnderPruned.foundPruned hids hzero⟩

/-- The answer is right, and the way upwards ends. -/
def Answered (entries : List MountEntry) (id : ℤ) (result : Bool) : Prop :=
  (result = true ↔ FoundPruned entries id) ∧ Acc (fun parent id => Follows entries id parent) id

def CacheRight (entries : List MountEntry) (cache : PrunedCache) : Prop :=
  ∀ id result, cache id = some result → Answered entries id result

theorem CacheRight.emplace (h : CacheRight entries cache) (hresult : Answered entries id result) :
    CacheRight entries (cache.emplace id result) := by
  intro id' result' hget
  rw [PrunedCache.emplace] at hget
  by_cases hid : id' = id
  · subst hid
    rw [Function.update_self] at hget
    cases hcache : cache id' with
    | none =>
        rw [hcache] at hget
        exact Option.some.inj hget ▸ hresult
    | some known =>
        rw [hcache] at hget
        exact Option.some.inj hget ▸ h id' known hcache
  · rw [Function.update_of_ne hid] at hget
    exact h id' result' hget

theorem answered_of_missing (h : ∀ me ∈ entries, me.id ≠ id) : Answered entries id false :=
  ⟨iff_of_false Bool.false_ne_true (not_foundPruned_of_missing h),
    ⟨id, fun parent hparent => absurd hparent (not_follows_of_missing h parent)⟩⟩

theorem answered_of_isPruned (hids : (entries.map (·.id)).Nodup) (hme : me ∈ entries)
    (hpruned : me.isPruned = true) : Answered entries me.id true := by
  refine ⟨iff_of_true rfl (foundPruned_of_isPruned hme hpruned), ⟨me.id, fun parent hparent => ?_⟩⟩
  obtain ⟨hnot, -⟩ := (follows_iff hids hme).mp hparent
  rw [hpruned] at hnot
  cases hnot

theorem answered_of_parent (hids : (entries.map (·.id)).Nodup) (hme : me ∈ entries)
    (hpruned : me.isPruned = false) (h : Answered entries me.parentId result) :
    Answered entries me.id (decide (me.parentId ≠ 0) && result) := by
  constructor
  · rw [Bool.and_eq_true, decide_eq_true_iff, h.1, foundPruned_iff_parent hids hme hpruned]
  · refine ⟨me.id, fun parent hparent => ?_⟩
    obtain ⟨-, rfl, -⟩ := (follows_iff hids hme).mp hparent
    exact h.2

theorem answered_of_parent_eq_zero (hids : (entries.map (·.id)).Nodup) (hme : me ∈ entries)
    (hpruned : me.isPruned = false) (hparent : me.parentId = 0) :
    Answered entries me.id false := by
  constructor
  · rw [foundPruned_iff_parent hids hme hpruned, hparent]
    exact iff_of_false Bool.false_ne_true fun h => h.1 rfl
  · refine ⟨me.id, fun parent hfollows => ?_⟩
    obtain ⟨-, rfl, hne⟩ := (follows_iff hids hme).mp hfollows
    exact absurd hparent hne

/-- What comes back is right, and so is what is remembered then. -/
theorem findWhetherUnderPruned_sound (hids : (entries.map (·.id)).Nodup)
    (hcache : CacheRight entries cache)
    (h : findWhetherUnderPruned (idToMount entries) fuel id cache = some (result, cache')) :
    Answered entries id result ∧ CacheRight entries cache' := by
  induction fuel generalizing id result cache' with
  | zero => cases h
  | succ fuel ih =>
      rw [findWhetherUnderPruned] at h
      cases hknown : cache id with
      | some known =>
          rw [hknown] at h
          obtain ⟨rfl, rfl⟩ := Prod.mk.inj (Option.some.inj h)
          exact ⟨hcache id _ hknown, hcache⟩
      | none =>
          rw [hknown] at h
          cases hmount : idToMount entries id with
          | none =>
              rw [hmount] at h
              obtain ⟨rfl, rfl⟩ := Prod.mk.inj (Option.some.inj h)
              exact ⟨answered_of_missing (idToMount_eq_none hids hmount), hcache⟩
          | some me =>
              obtain ⟨hme, rfl⟩ := (idToMount_eq_some_iff hids).mp hmount
              simp only [hmount] at h
              split at h
              · rename_i hpruned
                obtain ⟨rfl, rfl⟩ := Prod.mk.inj (Option.some.inj h)
                have hresult := answered_of_isPruned hids hme hpruned
                exact ⟨hresult, hcache.emplace hresult⟩
              · rename_i hpruned
                rw [Bool.not_eq_true] at hpruned
                split at h
                · rename_i hparent
                  obtain ⟨⟨result', cache''⟩, hfound, hpair⟩ := Option.map_eq_some_iff.mp h
                  obtain ⟨rfl, rfl⟩ := Prod.mk.inj hpair
                  obtain ⟨hresult, hright⟩ := ih hfound
                  have hresult' := answered_of_parent hids hme hpruned hresult
                  rw [decide_eq_true hparent, Bool.true_and] at hresult'
                  exact ⟨hresult', hright.emplace hresult'⟩
                · rename_i hparent
                  rw [not_not] at hparent
                  obtain ⟨rfl, rfl⟩ := Prod.mk.inj (Option.some.inj h)
                  have hresult := answered_of_parent_eq_zero hids hme hpruned hparent
                  exact ⟨hresult, hcache.emplace hresult⟩

theorem cacheRight_empty : CacheRight entries fun _ => none := by
  intro id result h
  cases h

theorem Filled.cacheRight (hids : (entries.map (·.id)).Nodup) (h : Filled entries cache) :
    CacheRight entries cache := by
  induction h with
  | empty => exact cacheRight_empty
  | query _ hquery ih => exact (findWhetherUnderPruned_sound hids ih hquery).2

theorem ParentsEnd.wellFounded (h : ParentsEnd entries) :
    WellFounded fun parent id => Follows entries id parent := by
  refine wellFounded_of_acyclic (entries.map (·.id)).toFinset ?_ h
  rintro id parent ⟨me, hme, rfl, -⟩
  exact List.mem_toFinset.mpr (List.mem_map_of_mem hme)

theorem parentsEnd_of_acc
    (h : ∀ me ∈ entries, Acc (fun parent id => Follows entries id parent) me.id) :
    ParentsEnd entries := by
  intro id hcycle
  obtain ⟨-, ⟨me, hme, rfl, -⟩, -⟩ := TransGen.head'_iff.mp hcycle
  exact not_acc_of_self (transGen_swap.mpr hcycle) (h me hme).transGen

theorem parentsEnd_of_lt (h : ∀ me ∈ entries, me.parentId < me.id) : ParentsEnd entries := by
  intro id hcycle
  have hlt (id parent : ℤ) (hparent : Follows entries id parent) : id > parent := by
    obtain ⟨me, hme, rfl, -, rfl, -⟩ := hparent
    exact h me hme
  have hcycle' : TransGen (· > ·) id id := TransGen.mono hlt id id hcycle
  rw [transGen_eq_self] at hcycle'
  exact lt_irrefl id hcycle'

/-- Without a cycle every call comes back, whatever is remembered. -/
theorem ParentsEnd.exists_findWhetherUnderPruned (hids : (entries.map (·.id)).Nodup)
    (h : ParentsEnd entries) (id : ℤ) (cache : PrunedCache) :
    ∃ fuel result cache',
      findWhetherUnderPruned (idToMount entries) fuel id cache = some (result, cache') := by
  induction id using h.wellFounded.induction with
  | _ id ih =>
      cases hknown : cache id with
      | some known =>
          exact ⟨1, known, cache, by rw [findWhetherUnderPruned, hknown]⟩
      | none =>
          cases hmount : idToMount entries id with
          | none => exact ⟨1, false, cache, by rw [findWhetherUnderPruned, hknown, hmount]⟩
          | some me =>
              obtain ⟨hme, hid⟩ := (idToMount_eq_some_iff hids).mp hmount
              by_cases hpruned : me.isPruned = true
              · refine ⟨1, true, cache.emplace id true, ?_⟩
                simp only [findWhetherUnderPruned, hknown, hmount, if_pos hpruned]
              · by_cases hparent : me.parentId = 0
                · refine ⟨1, false, cache.emplace id false, ?_⟩
                  simp only [findWhetherUnderPruned, hknown, hmount, if_neg hpruned,
                    if_neg (not_not.mpr hparent)]
                · rw [Bool.not_eq_true] at hpruned
                  obtain ⟨fuel, result, cache', hfound⟩ :=
                    ih me.parentId ⟨me, hme, hid, hpruned, rfl, hparent⟩
                  refine ⟨fuel + 1, result, cache'.emplace id result, ?_⟩
                  simp only [findWhetherUnderPruned, hknown, hmount, hpruned, Bool.false_eq_true,
                    if_false, ne_eq, hparent, not_false_eq_true, if_true, hfound, Option.map_some]

theorem propagatesPruned_iff (entries : List MountEntry) (hids : (entries.map (·.id)).Nodup) :
    PropagatesPruned entries ↔ ParentsEnd entries ∧ ZeroEnds entries := by
  constructor
  · intro h
    have hanswered (id : ℤ) : ∃ result, Answered entries id result ∧
        (result = true ↔ UnderPruned entries id) := by
      obtain ⟨fuel, result, cache', hfound, hresult⟩ := h _ .empty id
      exact ⟨result, (findWhetherUnderPruned_sound hids cacheRight_empty hfound).1, hresult⟩
    constructor
    · apply parentsEnd_of_acc
      intro me _
      obtain ⟨-, ⟨-, hacc⟩, -⟩ := hanswered me.id
      exact hacc
    · intro me hme hpruned hparent hzero
      obtain ⟨result, ⟨hfound, -⟩, hresult⟩ := hanswered me.id
      have hunder : UnderPruned entries me.id := by
        obtain ⟨above, hreach, hpruned'⟩ := hzero
        exact ⟨above, .head ⟨me, hme, rfl, hparent⟩ hreach, hpruned'⟩
      have hup := (foundPruned_iff_parent hids hme hpruned).mp (hfound.mp (hresult.mpr hunder))
      exact hup.1 hparent
  · rintro ⟨hends, hzero⟩ cache hfilled id
    obtain ⟨fuel, result, cache', hfound⟩ := hends.exists_findWhetherUnderPruned hids id cache
    obtain ⟨⟨hresult, -⟩, -⟩ := findWhetherUnderPruned_sound hids (hfilled.cacheRight hids) hfound
    rw [foundPruned_iff_underPruned hids hzero] at hresult
    exact ⟨fuel, result, cache', hfound, hresult⟩

theorem findWhetherUnderPruned_mono {fuel' : ℕ} (hle : fuel ≤ fuel')
    (h : findWhetherUnderPruned (idToMount entries) fuel id cache = some (result, cache')) :
    findWhetherUnderPruned (idToMount entries) fuel' id cache = some (result, cache') := by
  induction fuel generalizing fuel' id result cache' with
  | zero => cases h
  | succ fuel ih =>
      obtain ⟨fuel', rfl⟩ : ∃ n, fuel' = n + 1 := ⟨fuel' - 1, by omega⟩
      rw [findWhetherUnderPruned] at h ⊢
      split
      · rename_i hknown
        rwa [hknown] at h
      · rename_i hknown
        rw [hknown] at h
        split
        · rename_i hmount
          rwa [hmount] at h
        · rename_i me hmount
          simp only [hmount] at h
          split
          · rename_i hpruned
            rwa [if_pos hpruned] at h
          · rename_i hpruned
            rw [if_neg hpruned] at h
            split
            · rename_i hparent
              rw [if_pos hparent] at h
              obtain ⟨⟨result', cache''⟩, hfound, hpair⟩ := Option.map_eq_some_iff.mp h
              rw [ih (by omega) hfound, Option.map_some, hpair]
            · rename_i hparent
              rwa [if_neg hparent] at h

open Classical in
noncomputable def remaining (entries rest : List MountEntry) : List Mount :=
  (rest.filter fun me => ¬FoundPruned entries me.id).map (·.toMount)

open Classical in
theorem remaining_cons (rest : List MountEntry)
    (hresult : result = true ↔ FoundPruned entries me.id) :
    remaining entries (me :: rest) =
      if result then remaining entries rest else me.toMount :: remaining entries rest := by
  rw [remaining, List.filter_cons]
  cases result with
  | true =>
      rw [if_neg (by rw [decide_eq_true_iff, not_not]; exact hresult.mp rfl), if_pos rfl, remaining]
  | false =>
      have hnot : ¬FoundPruned entries me.id := mt hresult.mpr Bool.false_ne_true
      rw [if_pos (decide_eq_true hnot), if_neg Bool.false_ne_true, List.map_cons, remaining]

theorem mem_remaining {rest : List MountEntry} {mount : Mount} :
    mount ∈ remaining entries rest ↔
      ∃ me ∈ rest, ¬FoundPruned entries me.id ∧ me.toMount = mount := by
  rw [remaining, List.mem_map]
  simp only [List.mem_filter, decide_eq_true_iff, and_assoc]

theorem exists_removePruned (hids : (entries.map (·.id)).Nodup) (hends : ParentsEnd entries)
    (hcache : CacheRight entries cache) (rest : List MountEntry) :
    ∃ fuel, ∀ fuel' ≥ fuel, removePruned (idToMount entries) fuel' rest cache =
      some (remaining entries rest) := by
  induction rest generalizing cache with
  | nil => exact ⟨0, fun _ _ => rfl⟩
  | cons me rest ih =>
      obtain ⟨fuel, result, cache', hfound⟩ :=
        hends.exists_findWhetherUnderPruned hids me.id cache
      obtain ⟨⟨hresult, -⟩, hcache'⟩ := findWhetherUnderPruned_sound hids hcache hfound
      obtain ⟨fuelRest, hrest⟩ := ih hcache'
      refine ⟨max fuel fuelRest, fun fuel' hfuel => ?_⟩
      rw [removePruned, findWhetherUnderPruned_mono (by omega) hfound]
      dsimp only
      rw [hrest fuel' (by omega), Option.map_some, remaining_cons rest hresult]

/-- The loop only comes to its end if the ways upwards do. -/
theorem removePruned_sound (hids : (entries.map (·.id)).Nodup) (hcache : CacheRight entries cache)
    {rest : List MountEntry} {mounts : List Mount}
    (h : removePruned (idToMount entries) fuel rest cache = some mounts) :
    mounts = remaining entries rest ∧
      ∀ me ∈ rest, Acc (fun parent id => Follows entries id parent) me.id := by
  induction rest generalizing cache mounts with
  | nil => exact ⟨(Option.some.inj h).symm, List.forall_mem_nil _⟩
  | cons me rest ih =>
      rw [removePruned] at h
      split at h
      · cases h
      · rename_i toRemove cache' hfound
        obtain ⟨mounts', hrest, rfl⟩ := Option.map_eq_some_iff.mp h
        obtain ⟨⟨hresult, hacc⟩, hcache'⟩ := findWhetherUnderPruned_sound hids hcache hfound
        obtain ⟨rfl, haccs⟩ := ih hcache' hrest
        rw [List.forall_mem_cons, remaining_cons rest hresult]
        exact ⟨rfl, hacc, haccs⟩

/-- What remains are the mounts that are not found to be under a pruned one. -/
theorem readMountEntries_iff (hids : (entries.map (·.id)).Nodup) (mounts : List Mount) :
    (∃ fuel, readMountEntries fuel entries = some mounts) ↔
      ParentsEnd entries ∧ mounts = remaining entries entries := by
  constructor
  · rintro ⟨fuel, h⟩
    obtain ⟨heq, haccs⟩ := removePruned_sound hids cacheRight_empty h
    exact ⟨parentsEnd_of_acc haccs, heq⟩
  · rintro ⟨hends, rfl⟩
    obtain ⟨fuel, h⟩ := exists_removePruned hids hends cacheRight_empty entries
    exact ⟨fuel, h fuel le_rfl⟩

end Tables

section SelfMounts

variable {entries : List Mount} {me other : Mount} {path : Str}

/-- Where the root of a mount is to be seen below the mount point of another one. -/
def Mount.location (me other : Mount) : Option Str :=
  if me.root = other.root then some other.mountPoint
  else if withSlash other.root <+: me.root then
    some (withSlash other.mountPoint ++ me.root.drop (withSlash other.root).length)
  else none

/-- Another mount of the device shows the root of this one at its mount point. -/
def Mount.IsCoveredBy (me other : Mount) : Prop :=
  other.id ≠ me.id ∧ me.sameDevice other = true ∧ me.location other = some me.mountPoint

instance (me other : Mount) : Decidable (me.IsCoveredBy other) :=
  inferInstanceAs (Decidable (_ ∧ _ ∧ _))

/-- The mount shows a directory where another mount of the device shows it, and so does no other
one at another place. -/
def SelfMount (entries : List MountEntry) (me : MountEntry) : Prop :=
  me ∈ entries ∧ (∃ other ∈ entries, me.IsCoveredBy other.toMount) ∧
    ∀ other ∈ entries, me.sameDevice other.toMount = true → ∀ path,
      me.location other.toMount = some path → path = me.mountPoint

/-- `rebuild_bind_mount_paths` comes to its end, and does not put the mount aside. -/
def KeepsMount (entries : List MountEntry) (me : MountEntry) : Prop :=
  ∃ fuel mounts, readMountEntries fuel entries = some mounts ∧
    me.mountPoint ∉ rebuildBindMountPaths mounts

theorem prefix_of_location (h : me.location other = some path) : other.root <+: me.root := by
  unfold Mount.location at h
  split at h
  · rename_i hroot
    rw [hroot]
  · split at h
    · rename_i hwithin
      apply List.IsPrefix.trans _ hwithin
      unfold withSlash
      split
      · exact List.prefix_rfl
      · exact List.prefix_append _ _
    · cases h

/-- Of two mounts of one root at one place, the one with the higher id is put aside. -/
theorem mountPoint_mem_of_root_eq {a b : Mount} (ha : a ∈ entries) (hb : b ∈ entries)
    (hdevice : a.sameDevice b = true) (hroot : a.root = b.root) (hlt : b.id < a.id) :
    a.mountPoint ∈ rebuildBindMountPaths entries := by
  have hbehind : a.isBehind b = true := Mount.isBehind_iff.mpr ⟨hlt.ne', .inr ⟨hroot, hlt⟩⟩
  have hpushed := Mount.isPushed_iff.mpr ⟨b, hb, hdevice, hbehind⟩
  exact mem_rebuildBindMountPaths.mpr ⟨a, ha, hpushed, rfl⟩

theorem mountPoint_mem_of_isCoveredBy (hme : me ∈ entries) (hother : other ∈ entries)
    (h : me.IsCoveredBy other) : me.mountPoint ∈ rebuildBindMountPaths entries := by
  obtain ⟨hid, hdevice, hlocation⟩ := h
  have hwithin := prefix_of_location hlocation
  by_cases hroot : me.root = other.root
  · have hplace : other.mountPoint = me.mountPoint := by
      rw [Mount.location, if_pos hroot] at hlocation
      exact Option.some.inj hlocation
    rcases lt_or_gt_of_ne hid with hlt | hlt
    · exact mountPoint_mem_of_root_eq hme hother hdevice hroot hlt
    · rw [← hplace]
      exact mountPoint_mem_of_root_eq hother hme (Mount.sameDevice_symm hdevice) hroot.symm hlt
  · have hlength : other.root.length < me.root.length := by
      apply lt_of_le_of_ne hwithin.length_le
      intro hlength
      exact hroot (hwithin.eq_of_length hlength).symm
    have hbehind := Mount.isBehind_iff.mpr ⟨hid.symm, .inl ⟨hlength, hwithin⟩⟩
    have hpushed := Mount.isPushed_iff.mpr ⟨other, hother, hdevice, hbehind⟩
    exact mem_rebuildBindMountPaths.mpr ⟨me, hme, hpushed, rfl⟩

theorem nodup_remaining {entries : List MountEntry} (hids : (entries.map (·.id)).Nodup) :
    ((remaining entries entries).map (·.id)).Nodup := by
  rw [remaining, List.map_map]
  exact hids.sublist (List.filter_sublist.map _)

theorem keepsMount_iff {entries : List MountEntry} (hids : (entries.map (·.id)).Nodup)
    {me : MountEntry} : KeepsMount entries me ↔ ParentsEnd entries ∧
      me.mountPoint ∉ rebuildBindMountPaths (remaining entries entries) := by
  constructor
  · rintro ⟨fuel, mounts, hread, hkept⟩
    obtain ⟨hends, rfl⟩ := (readMountEntries_iff hids mounts).mp ⟨fuel, hread⟩
    exact ⟨hends, hkept⟩
  · rintro ⟨hends, hkept⟩
    obtain ⟨fuel, hread⟩ := (readMountEntries_iff hids _).mpr ⟨hends, rfl⟩
    exact ⟨fuel, _, hread, hkept⟩

/-- A mount of a directory on itself is only kept if it, or whatever shows the directory there, has
been taken out before. -/
theorem selfMount_kept_iff (entries : List MountEntry) (hids : (entries.map (·.id)).Nodup)
    (me : MountEntry) (h : SelfMount entries me) :
    (KeepsMount entries me ↔ ParentsEnd entries ∧ ∀ a ∈ remaining entries entries,
      a.mountPoint = me.mountPoint → a.IsFirst (remaining entries entries)) ∧
    (KeepsMount entries me → FoundPruned entries me.id ∨
      ∀ other ∈ entries, me.IsCoveredBy other.toMount → FoundPruned entries other.id) := by
  rw [keepsMount_iff hids]
  constructor
  · rw [notMem_rebuildBindMountPaths_iff (nodup_remaining hids)]
  · rintro ⟨-, hkept⟩
    by_contra hleft
    obtain ⟨hme, hothers⟩ := not_or.mp hleft
    apply hothers
    intro other hother hcovered
    by_contra hfound
    have hmem {a : MountEntry} (ha : a ∈ entries) (hnot : ¬FoundPruned entries a.id) :
        a.toMount ∈ remaining entries entries :=
      mem_remaining.mpr ⟨a, ha, hnot, rfl⟩
    exact hkept (mountPoint_mem_of_isCoveredBy (hmem h.1 hme) (hmem hother hfound) hcovered)

end SelfMounts

section Examples

/-- The root names itself as its parent. -/
def selfParent : List MountEntry :=
  [{ id := 1, devMajor := 8, devMinor := 1, root := ascii "/", mountPoint := ascii "/",
     parentId := 1, prunedDueToFsType := false, prunedDueToPath := false }]

theorem not_propagatesPruned_selfParent :
    (selfParent.map (·.id)).Nodup ∧ ¬PropagatesPruned selfParent := by
  have hids : (selfParent.map (·.id)).Nodup := List.nodup_singleton 1
  have hfollows : Follows selfParent 1 1 := by
    refine ⟨_, List.mem_singleton_self _, rfl, rfl, rfl, ?_⟩
    decide
  refine ⟨hids, fun h => ?_⟩
  obtain ⟨fuel, result, cache', hfound, -⟩ := h _ .empty 1
  obtain ⟨⟨-, hacc⟩, -⟩ := findWhetherUnderPruned_sound hids cacheRight_empty hfound
  exact not_acc_of_self (r := fun parent id => Follows selfParent id parent) hfollows hacc

/-- The parent of the root is not in the table, and `/run` is pruned by its type. -/
def prunedRun : List MountEntry :=
  [{ id := 22, devMajor := 8, devMinor := 1, root := ascii "/", mountPoint := ascii "/",
     parentId := 1, prunedDueToFsType := false, prunedDueToPath := false },
    { id := 25, devMajor := 0, devMinor := 23, root := ascii "/", mountPoint := ascii "/run",
      parentId := 22, prunedDueToFsType := true, prunedDueToPath := false },
    { id := 31, devMajor := 8, devMinor := 2, root := ascii "/", mountPoint := ascii "/run/media",
      parentId := 25, prunedDueToFsType := false, prunedDueToPath := false }]

theorem propagatesPruned_prunedRun : PropagatesPruned prunedRun := by
  apply (propagatesPruned_iff prunedRun (by decide)).mpr
  have hdown : ∀ me ∈ prunedRun, me.parentId < me.id ∧ me.parentId ≠ 0 := by decide
  exact ⟨parentsEnd_of_lt fun me hme => (hdown me hme).1,
    fun me hme _ hparent => absurd hparent (hdown me hme).2⟩

def dataOnItself : List MountEntry :=
  [{ id := 22, devMajor := 8, devMinor := 1, root := ascii "/", mountPoint := ascii "/",
     parentId := 1, prunedDueToFsType := false, prunedDueToPath := false },
    { id := 40, devMajor := 8, devMinor := 1, root := ascii "/data", mountPoint := ascii "/data",
      parentId := 22, prunedDueToFsType := false, prunedDueToPath := false }]

def dataMount : MountEntry :=
  { id := 40, devMajor := 8, devMinor := 1, root := ascii "/data", mountPoint := ascii "/data",
    parentId := 22, prunedDueToFsType := false, prunedDueToPath := false }

theorem selfMount_dataMount : SelfMount dataOnItself dataMount := by
  refine ⟨by decide, by decide, ?_⟩
  intro other hother _ path hlocation
  rw [dataOnItself, List.mem_pair] at hother
  rcases hother with rfl | rfl
  · exact Option.some.inj (hlocation.symm.trans (by decide))
  · exact Option.some.inj (hlocation.symm.trans (by decide))

/-- Nothing is pruned, so that the mount is compared with that of `/` and put aside. -/
theorem not_selfMount_kept : (dataOnItself.map (·.id)).Nodup ∧ ParentsEnd dataOnItself ∧
    SelfMount dataOnItself dataMount ∧ ¬KeepsMount dataOnItself dataMount := by
  have hids : (dataOnItself.map (·.id)).Nodup := by decide
  refine ⟨hids, parentsEnd_of_lt (by decide), selfMount_dataMount, fun hkept => ?_⟩
  obtain ⟨-, hkept⟩ := (keepsMount_iff hids).mp hkept
  have hmem (me : MountEntry) (hme : me ∈ dataOnItself) :
      me.toMount ∈ remaining dataOnItself dataOnItself := by
    refine mem_remaining.mpr ⟨me, hme, ?_, rfl⟩
    rintro ⟨above, -, me', hme', -, hpruned⟩
    exact absurd hpruned ((by decide : ∀ me ∈ dataOnItself, me.isPruned ≠ true) me' hme')
  obtain ⟨hme, ⟨other, hother, hcovered⟩, -⟩ := selfMount_dataMount
  exact hkept (mountPoint_mem_of_isCoveredBy (hmem dataMount hme) (hmem other hother) hcovered)

/-- `mount --bind /tmp /tmp`, where `/tmp` is among the paths that are pruned. -/
def tmpOnItself : List MountEntry :=
  [{ id := 22, devMajor := 8, devMinor := 1, root := ascii "/", mountPoint := ascii "/",
     parentId := 1, prunedDueToFsType := false, prunedDueToPath := false },
    { id := 41, devMajor := 8, devMinor := 1, root := ascii "/tmp", mountPoint := ascii "/tmp",
      parentId := 22, prunedDueToFsType := false, prunedDueToPath := true }]

def tmpMount : MountEntry :=
  { id := 41, devMajor := 8, devMinor := 1, root := ascii "/tmp", mountPoint := ascii "/tmp",
    parentId := 22, prunedDueToFsType := false, prunedDueToPath := true }

theorem selfMount_tmpMount : SelfMount tmpOnItself tmpMount := by
  refine ⟨by decide, by decide, ?_⟩
  intro other hother _ path hlocation
  rw [tmpOnItself, List.mem_pair] at hother
  rcases hother with rfl | rfl
  · exact Option.some.inj (hlocation.symm.trans (by decide))
  · exact Option.some.inj (hlocation.symm.trans (by decide))

theorem selfMount_kept_tmpMount : KeepsMount tmpOnItself tmpMount := by
  apply (selfMount_kept_iff tmpOnItself (by decide) tmpMount selfMount_tmpMount).1.mpr
  refine ⟨parentsEnd_of_lt (by decide), fun a ha hpoint => ?_⟩
  obtain ⟨me, hme, hnot, rfl⟩ := mem_remaining.mp ha
  rw [tmpOnItself, List.mem_pair] at hme
  rcases hme with rfl | rfl
  · exact absurd hpoint (by decide)
  · exact absurd (foundPruned_of_isPruned (by decide) rfl) hnot

end Examples

end Flocate
