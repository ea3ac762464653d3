import Flocate.Lib.Bytes
import Flocate.Lib.Run
import Mathlib.Algebra.Order.Group.Multiset
import Mathlib.Data.List.Lex
import Mathlib.Data.List.Perm.Basic
import Mathlib.Tactic.Abel

/-!
# Checking access to parent directories

`AccessRXCache::check_access` stats a filename asynchronously before it calls `access` on its
parents, and lets other filenames below one of them wait. Callbacks are numbered.
-/

namespace Flocate

open Bytes

namespace AccessRXCache

structure PendingStat where
  filename : Str
  cb : ℕ
deriving DecidableEq

/-- The surroundings of a cache: the outcome of `access`, whether the database asks for checks, and
whether there is an engine that supports asynchronous stats. -/
structure Env where
  access : Str → Bool
  checkVisibility : Bool
  supportsStat : Bool

end AccessRXCache

open AccessRXCache

/-- `stats` are the stats that the engine has not completed, with the callback of each, and
`called` are the calls of callbacks so far. -/
structure AccessRXCache where
  cache : List (Str × Bool) := []
  pendingStats : List (Str × List PendingStat) := []
  stats : List PendingStat := []
  called : List (PendingStat × Bool) := []
deriving DecidableEq

namespace AccessRXCache

/-- The search for the next slash, `front` bytes into the filename. -/
def parentPaths (front : Str) : Str → List Str
  | [] => []
  | c :: s =>
      if c = '/'.toUInt8 then front :: parentPaths (front ++ [c]) s
      else parentPaths (front ++ [c]) s

/-- The search begins at `filename + 1`; there is no empty filename. -/
def parents : Str → List Str
  | [] => []
  | c :: s => parentPaths [c] s

/-- `pending_stats.lower_bound(parent_path)`, and the queueing if that "matches this, or is a
subdirectory". -/
def joinPending (parentPath : Str) (ps : PendingStat) :
    List (Str × List PendingStat) → Option (List (Str × List PendingStat))
  | [] => none
  | e :: pending =>
      if e.1 < parentPath then (joinPending parentPath ps pending).map (e :: ·)
      else if parentPath <+: e.1 then some ((e.1, e.2 ++ [ps]) :: pending)
      else none

def emplace (filename : Str) : List (Str × List PendingStat) → List (Str × List PendingStat)
  | [] => [(filename, [])]
  | e :: pending =>
      if e.1 < filename then e :: emplace filename pending
      else if e.1 = filename then e :: pending
      else (filename, []) :: e :: pending

def call (s : AccessRXCache) (ps : PendingStat) (ok : Bool) : AccessRXCache :=
  { s with called := s.called ++ [(ps, ok)] }

variable (env : Env)

def checkParents (allowAsync : Bool) (ps : PendingStat) : List Str → AccessRXCache → AccessRXCache
  | [], s => s.call ps true
  | parentPath :: rest, s =>
      match s.cache.lookup parentPath with
      | some true => checkParents allowAsync ps rest s
      | some false => s.call ps false
      | none =>
          if allowAsync then
            match joinPending parentPath ps s.pendingStats with
            | some pendingStats => { s with pendingStats := pendingStats }
            | none =>
                { s with
                  pendingStats := emplace ps.filename s.pendingStats
                  stats := s.stats ++ [ps] }
          else
            let ok := env.access parentPath
            let s := { s with cache := (parentPath, ok) :: s.cache }
            if ok then checkParents allowAsync ps rest s else s.call ps false

def checkAccess (allowAsync : Bool) (s : AccessRXCache) (ps : PendingStat) : AccessRXCache :=
  if !env.checkVisibility then s.call ps true
  else checkParents env (allowAsync && env.supportsStat) ps (parents ps.filename) s

def completeStat (s : AccessRXCache) (i : ℕ) : Option AccessRXCache :=
  s.stats[i]?.map fun ps =>
    let s := checkAccess env false { s with stats := s.stats.eraseIdx i } ps
    let pending := (s.pendingStats.lookup ps.filename).getD []
    let s := { s with pendingStats := s.pendingStats.filter (·.1 ≠ ps.filename) }
    pending.foldl (checkAccess env true) s

inductive Event where
  | check (ps : PendingStat)
  | complete (i : ℕ)

def step (s : AccessRXCache) : Event → Option AccessRXCache
  | .check ps => some (checkAccess env true s ps)
  | .complete i => completeStat env s i

section Parents

theorem mem_parentPaths {front s p : Str} :
    p ∈ parentPaths front s ↔ ∃ l r, s = l ++ '/'.toUInt8 :: r ∧ p = front ++ l := by
  induction s generalizing front with
  | nil => simp [parentPaths]
  | cons c s ih =>
      have hrest : p ∈ parentPaths (front ++ [c]) s ↔
          ∃ l r, s = l ++ '/'.toUInt8 :: r ∧ p = front ++ c :: l := by
        rw [ih]
        simp only [List.append_assoc, List.singleton_append]
      have hsplit : (∃ l r, c :: s = l ++ '/'.toUInt8 :: r ∧ p = front ++ l) ↔
          (c = '/'.toUInt8 ∧ p = front) ∨
            ∃ l r, s = l ++ '/'.toUInt8 :: r ∧ p = front ++ c :: l := by
        constructor
        · rintro ⟨l, r, hs, rfl⟩
          cases l with
          | nil => exact Or.inl ⟨(List.cons.inj hs).1, List.append_nil front⟩
          | cons d l =>
              obtain ⟨rfl, rfl⟩ := List.cons.inj hs
              exact Or.inr ⟨l, r, rfl, rfl⟩
        · rintro (⟨rfl, rfl⟩ | ⟨l, r, rfl, rfl⟩)
          · exact ⟨[], s, rfl, (List.append_nil p).symm⟩
          · exact ⟨c :: l, r, rfl, rfl⟩
      rw [hsplit, parentPaths]
      split
      · rename_i hc
        rw [List.mem_cons, hrest]
        simp only [hc, true_and]
      · rename_i hc
        rw [hrest]
        simp only [hc, false_and, false_or]

/-- What the loop goes through are the directories that the filename is in, without the root. -/
theorem mem_parents {filename p : Str} :
    p ∈ parents filename ↔ p ≠ [] ∧ ∃ q, filename = p ++ '/'.toUInt8 :: q := by
  cases filename with
  | nil => simp [parents]
  | cons c s =>
      rw [parents, mem_parentPaths]
      constructor
      · rintro ⟨l, r, rfl, rfl⟩
        exact ⟨List.cons_ne_nil c l, r, rfl⟩
      · rintro ⟨hp, q, hq⟩
        cases p with
        | nil => exact absurd rfl hp
        | cons d p =>
            obtain ⟨rfl, rfl⟩ := List.cons.inj hq
            exact ⟨p, q, rfl, rfl⟩

theorem prefix_of_mem_parents {filename p : Str} (h : p ∈ parents filename) : p <+: filename := by
  obtain ⟨-, q, rfl⟩ := mem_parents.mp h
  exact List.prefix_append p _

end Parents

section Pending

variable {pending : List (Str × List PendingStat)}

/-- Between a string and one that it begins, there are only strings that it begins. -/
theorem prefix_of_not_lt {p k t : Str} (hk : ¬k < p) (ht : ¬p ++ t < k) : p <+: k := by
  induction p generalizing k with
  | nil => exact List.nil_prefix
  | cons a p ih =>
      cases k with
      | nil => exact absurd (List.nil_lt_cons a p) hk
      | cons b k =>
          rw [List.cons_append] at ht
          rw [List.cons_lt_cons_iff, not_or] at hk ht
          obtain rfl : a = b := UInt8.le_antisymm (UInt8.not_lt.mp hk.1) (UInt8.not_lt.mp ht.1)
          exact List.cons_prefix_cons.mpr
            ⟨rfl, ih (fun hlt => hk.2 ⟨rfl, hlt⟩) fun hlt => ht.2 ⟨rfl, hlt⟩⟩

/-- If no stat is joined, none is pending below the directory. -/
theorem not_prefix_of_joinPending {parentPath : Str} {ps : PendingStat}
    (hsorted : pending.Pairwise (·.1 < ·.1)) (h : joinPending parentPath ps pending = none) :
    ∀ e ∈ pending, ¬parentPath <+: e.1 := by
  induction pending with
  | nil => exact List.forall_mem_nil _
  | cons e pending ih =>
      rw [joinPending] at h
      split at h
      · rename_i hlt
        rw [List.forall_mem_cons]
        refine ⟨?_, ih hsorted.tail (Option.map_eq_none_iff.mp h)⟩
        rintro ⟨t, ht⟩
        rw [← ht] at hlt
        exact absurd hlt List.le_append_left
      · rename_i hge
        split at h
        · cases h
        · rename_i hnot
          intro e' he' hprefix
          rcases List.mem_cons.mp he' with rfl | he'
          · exact hnot hprefix
          · obtain ⟨t, ht⟩ := hprefix
            have hlt := List.rel_of_pairwise_cons hsorted he'
            rw [← ht] at hlt
            exact hnot (prefix_of_not_lt hge (List.lt_asymm hlt))

/-- A stat that is joined gets one more request to wait for it. -/
theorem joinPending_spec {parentPath : Str} {ps : PendingStat}
    {pending' : List (Str × List PendingStat)}
    (h : joinPending parentPath ps pending = some pending') :
    pending'.map (·.1) = pending.map (·.1) ∧
      (pending'.flatMap (·.2)).Perm (ps :: pending.flatMap (·.2)) := by
  induction pending generalizing pending' with
  | nil => cases h
  | cons e pending ih =>
      rw [joinPending] at h
      split at h
      · obtain ⟨rest, hrest, rfl⟩ := Option.map_eq_some_iff.mp h
        obtain ⟨hkeys, hperm⟩ := ih hrest
        refine ⟨by rw [List.map_cons, List.map_cons, hkeys], ?_⟩
        rw [List.flatMap_cons, List.flatMap_cons]
        exact (hperm.append_left e.2).trans List.perm_middle
      · split at h
        · obtain rfl := Option.some.inj h
          refine ⟨rfl, ?_⟩
          rw [List.flatMap_cons, List.flatMap_cons, List.append_assoc]
          exact List.perm_middle
        · cases h

theorem emplace_spec {filename : Str} (hsorted : pending.Pairwise (·.1 < ·.1))
    (h : ∀ e ∈ pending, e.1 ≠ filename) :
    (emplace filename pending).Perm ((filename, []) :: pending) ∧
      (emplace filename pending).Pairwise (·.1 < ·.1) := by
  induction pending with
  | nil => exact ⟨List.Perm.refl _, List.pairwise_singleton _ _⟩
  | cons e pending ih =>
      rw [List.forall_mem_cons] at h
      rw [emplace]
      split
      · rename_i hlt
        obtain ⟨hperm, hpair⟩ := ih hsorted.tail h.2
        refine ⟨(hperm.cons e).trans (List.Perm.swap _ _ _), List.pairwise_cons.mpr ⟨?_, hpair⟩⟩
        intro e' he'
        rcases List.mem_cons.mp (hperm.mem_iff.mp he') with rfl | he'
        · exact hlt
        · exact List.rel_of_pairwise_cons hsorted he'
      · rename_i hge
        rw [if_neg h.1]
        have hlt : filename < e.1 := by
          by_contra hnot
          exact h.1 (List.le_antisymm hnot hge)
        refine ⟨List.Perm.refl _, List.pairwise_cons.mpr ⟨?_, hsorted⟩⟩
        rw [List.forall_mem_cons]
        exact ⟨hlt, fun e' he' => List.lt_trans hlt (List.rel_of_pairwise_cons hsorted he')⟩

/-- The requests that wait for a stat are taken out with it. -/
theorem lookup_perm {filename : Str} (hsorted : pending.Pairwise (·.1 < ·.1))
    (h : filename ∈ pending.map (·.1)) : ∃ waiters, pending.lookup filename = some waiters ∧
      pending.Perm ((filename, waiters) :: pending.filter (·.1 ≠ filename)) := by
  induction pending with
  | nil => cases h
  | cons e pending ih =>
      have hrest {e' : Str × List PendingStat} (he' : e' ∈ pending) : e.1 < e'.1 :=
        List.rel_of_pairwise_cons hsorted he'
      by_cases heq : e.1 = filename
      · subst heq
        have hfilter : pending.filter (·.1 ≠ e.1) = pending := by
          rw [List.filter_eq_self]
          intro e' he'
          refine decide_eq_true fun heq => List.lt_irrefl e.1 ?_
          exact heq ▸ hrest he'
        refine ⟨e.2, List.lookup_cons_self, ?_⟩
        rw [List.filter_cons_of_neg (by simp), hfilter]
      · have hmem := (List.mem_cons.mp h).resolve_left (Ne.symm heq)
        obtain ⟨waiters, hlookup, hperm⟩ := ih hsorted.tail hmem
        refine ⟨waiters, ?_, ?_⟩
        · rw [List.lookup_cons, beq_eq_false_iff_ne.mpr (Ne.symm heq)]
          exact hlookup
        · rw [List.filter_cons_of_pos (by simpa using heq)]
          exact (hperm.cons e).trans (List.Perm.swap _ _ _)

end Pending

section Invariant

variable {env : Env} {requests : Multiset PendingStat} {s : AccessRXCache} {ps : PendingStat}

def visible (env : Env) (filename : Str) : Bool :=
  !env.checkVisibility || (parents filename).all env.access

/-- The requests whose callbacks are still owned by a stat, or wait for one. -/
def unanswered (s : AccessRXCache) : Multiset PendingStat :=
  ↑(s.stats ++ s.pendingStats.flatMap (·.2))

/-- Every request has either been answered or has one owner; the pending stats are those that the
engine has not completed. -/
structure Inv (env : Env) (requests : Multiset PendingStat) (s : AccessRXCache) : Prop where
  balance : ↑(s.called.map (·.1)) + unanswered s = requests
  cache : ∀ e ∈ s.cache, e.2 = env.access e.1
  called : ∀ e ∈ s.called, e.2 = visible env e.1.filename
  sorted : s.pendingStats.Pairwise (·.1 < ·.1)
  keys : (s.pendingStats.map (·.1)).Perm (s.stats.map (·.filename))

theorem inv_empty : Inv env 0 {} where
  balance := rfl
  cache := List.forall_mem_nil _
  called := List.forall_mem_nil _
  sorted := List.Pairwise.nil
  keys := List.Perm.refl _

theorem eq_of_lookup {cache : List (Str × Bool)} (h : ∀ e ∈ cache, e.2 = env.access e.1) {p : Str}
    {ok : Bool} (hlookup : cache.lookup p = some ok) : ok = env.access p := by
  induction cache with
  | nil => cases hlookup
  | cons e cache ih =>
      rw [List.forall_mem_cons] at h
      rw [List.lookup_cons] at hlookup
      split at hlookup
      · rename_i heq
        rw [← Option.some.inj hlookup, h.1, ← eq_of_beq heq]
      · exact ih h.2 hlookup

theorem Inv.call (h : Inv env requests s) {ok : Bool} (hok : ok = visible env ps.filename) :
    Inv env (ps ::ₘ requests) (s.call ps ok) where
  balance := by
    rw [← h.balance, ← Multiset.cons_add]
    change ((List.map _ (s.called ++ [(ps, ok)]) : List PendingStat) : Multiset PendingStat) + _ = _
    rw [List.map_append, Multiset.cons_coe]
    congr 1
    exact Multiset.coe_eq_coe.mpr (List.perm_append_singleton _ _)
  cache := h.cache
  called e he := by
    rcases List.mem_append.mp he with he | he
    · exact h.called e he
    · obtain rfl := List.mem_singleton.mp he
      exact hok
  sorted := h.sorted
  keys := h.keys

/-- The requests of a cache whose entries, pending stats and stats change. -/
theorem Inv.update (h : Inv env requests s) {cache : List (Str × Bool)}
    {pendingStats : List (Str × List PendingStat)} {stats : List PendingStat}
    (hunanswered : (stats ++ pendingStats.flatMap (·.2)).Perm
      (ps :: (s.stats ++ s.pendingStats.flatMap (·.2))))
    (hcache : ∀ e ∈ cache, e.2 = env.access e.1) (hsorted : pendingStats.Pairwise (·.1 < ·.1))
    (hkeys : (pendingStats.map (·.1)).Perm (stats.map (·.filename))) :
    Inv env (ps ::ₘ requests)
      { s with cache := cache, pendingStats := pendingStats, stats := stats } where
  balance := by
    rw [← h.balance, ← Multiset.add_cons]
    congr 1
    exact Multiset.coe_eq_coe.mpr hunanswered
  cache := hcache
  called := h.called
  sorted := hsorted
  keys := hkeys

theorem Inv.cacheAccess (h : Inv env requests s) (p : Str) :
    Inv env requests { s with cache := (p, env.access p) :: s.cache } :=
  ⟨h.balance, List.forall_mem_cons.mpr ⟨rfl, h.cache⟩, h.called, h.sorted, h.keys⟩

/-- A check answers the request or finds an owner for it. -/
theorem Inv.checkParents (h : Inv env requests s) (hvisibility : env.checkVisibility = true)
    (allowAsync : Bool) {front rest : List Str} (hparents : parents ps.filename = front ++ rest)
    (hfront : ∀ p ∈ front, env.access p = true) :
    Inv env (ps ::ₘ requests) (checkParents env allowAsync ps rest s) := by
  induction rest generalizing front s with
  | nil =>
      refine h.call ?_
      rw [visible, hparents, List.append_nil, hvisibility, List.all_eq_true.mpr hfront]
      rfl
  | cons p rest ih =>
      have hmem : p ∈ parents ps.filename := hparents ▸ List.mem_append_right _ List.mem_cons_self
      have hnext (hp : env.access p = true) : ∀ q ∈ front ++ [p], env.access q = true := by
        rw [List.forall_mem_append, List.forall_mem_singleton]
        exact ⟨hfront, hp⟩
      have hstep : parents ps.filename = (front ++ [p]) ++ rest := by
        rw [hparents, List.append_assoc, List.singleton_append]
      have hfalse (hp : env.access p = false) : false = visible env ps.filename := by
        rw [visible, hvisibility]
        refine (List.all_eq_false.mpr ⟨p, hmem, ?_⟩).symm
        rw [hp]
        exact Bool.false_ne_true
      rw [AccessRXCache.checkParents]
      split
      · rename_i hlookup
        exact ih h hstep (hnext (eq_of_lookup h.cache hlookup).symm)
      · rename_i hlookup
        exact h.call (hfalse (eq_of_lookup h.cache hlookup).symm)
      · split
        · split
          · rename_i pendingStats hjoin
            obtain ⟨hkeys, hperm⟩ := joinPending_spec hjoin
            refine h.update ?_ h.cache ?_ ?_
            · exact (hperm.append_left _).trans List.perm_middle
            · have hsorted : (s.pendingStats.map (·.1)).Pairwise (· < ·) :=
                List.pairwise_map.mpr h.sorted
              rw [← hkeys] at hsorted
              exact List.pairwise_map.mp hsorted
            · rw [hkeys]
              exact h.keys
          · rename_i hjoin
            have hne (e : Str × List PendingStat) (he : e ∈ s.pendingStats) :
                e.1 ≠ ps.filename := fun heq =>
              not_prefix_of_joinPending h.sorted hjoin e he (heq ▸ prefix_of_mem_parents hmem)
            obtain ⟨hperm, hsorted⟩ := emplace_spec h.sorted hne
            refine h.update ?_ h.cache hsorted ?_
            · rw [List.append_assoc]
              have hwaiters := hperm.flatMap_right (·.2)
              exact ((hwaiters.cons ps).append_left s.stats).trans List.perm_middle
            · rw [List.map_append, List.map_singleton]
              exact (hperm.map _).trans ((h.keys.cons _).trans
                (List.perm_append_singleton _ _).symm)
        · dsimp only
          split
          · rename_i hp
            exact ih (h.cacheAccess p) hstep (hnext hp)
          · rename_i hp
            exact (h.cacheAccess p).call (hfalse (Bool.eq_false_iff.mpr hp))

theorem Inv.checkAccess (h : Inv env requests s) (ps : PendingStat) (allowAsync : Bool) :
    Inv env (ps ::ₘ requests) (checkAccess env allowAsync s ps) := by
  rw [AccessRXCache.checkAccess]
  split
  · rename_i hvisibility
    refine h.call ?_
    rw [visible, hvisibility]
    rfl
  · rename_i hvisibility
    rw [Bool.not_eq_true', Bool.not_eq_false] at hvisibility
    exact h.checkParents hvisibility _ (List.nil_append _).symm (List.forall_mem_nil _)

theorem Inv.foldl_checkAccess (waiters : List PendingStat) (h : Inv env requests s) :
    Inv env (↑waiters + requests) (waiters.foldl (AccessRXCache.checkAccess env true) s) := by
  induction waiters generalizing requests s with
  | nil =>
      rw [Multiset.coe_nil, zero_add]
      exact h
  | cons ps waiters ih =>
      have hrest := ih (h.checkAccess ps true)
      rwa [Multiset.add_cons, ← Multiset.cons_add, Multiset.cons_coe] at hrest

/-- A synchronous check leaves the pending stats alone and calls the callback. -/
theorem checkParents_sync (pendingStats : List (Str × List PendingStat)) (rest : List Str) :
    checkParents env false ps rest { s with pendingStats := pendingStats } =
        { checkParents env false ps rest s with pendingStats := pendingStats } ∧
      (checkParents env false ps rest s).pendingStats = s.pendingStats ∧
      (checkParents env false ps rest s).called.length = s.called.length + 1 := by
  induction rest generalizing s with
  | nil => exact ⟨rfl, rfl, List.length_append⟩
  | cons p rest ih =>
      rw [AccessRXCache.checkParents, AccessRXCache.checkParents]
      dsimp only
      cases s.cache.lookup p with
      | some ok =>
          cases ok with
          | true => exact ih
          | false => exact ⟨rfl, rfl, List.length_append⟩
      | none =>
          rw [if_neg Bool.false_ne_true, if_neg Bool.false_ne_true]
          cases env.access p with
          | true => exact ih (s := { s with cache := (p, true) :: s.cache })
          | false => exact ⟨rfl, rfl, List.length_append⟩

theorem checkAccess_sync (env : Env) (s : AccessRXCache) (ps : PendingStat)
    (pendingStats : List (Str × List PendingStat)) :
    checkAccess env false { s with pendingStats := pendingStats } ps =
        { checkAccess env false s ps with pendingStats := pendingStats } ∧
      (checkAccess env false s ps).pendingStats = s.pendingStats ∧
      (checkAccess env false s ps).called.length = s.called.length + 1 := by
  rw [AccessRXCache.checkAccess, AccessRXCache.checkAccess]
  split
  · exact ⟨rfl, rfl, List.length_append⟩
  · exact checkParents_sync pendingStats _

theorem length_called_checkParents (allowAsync : Bool) (rest : List Str) :
    s.called.length ≤ (checkParents env allowAsync ps rest s).called.length := by
  have hcall (s : AccessRXCache) (ok : Bool) : s.called.length ≤ (s.call ps ok).called.length :=
    (List.prefix_append _ _).length_le
  induction rest generalizing s with
  | nil => exact hcall s true
  | cons p rest ih =>
      rw [AccessRXCache.checkParents]
      split
      · exact ih
      · exact hcall s false
      · split
        · split <;> exact Nat.le_refl _
        · dsimp only
          split
          · exact ih (s := { s with cache := (p, env.access p) :: s.cache })
          · exact hcall { s with cache := (p, env.access p) :: s.cache } false

theorem length_called_checkAccess (allowAsync : Bool) :
    s.called.length ≤ (checkAccess env allowAsync s ps).called.length := by
  rw [AccessRXCache.checkAccess]
  split
  · exact (List.prefix_append _ _).length_le
  · exact length_called_checkParents _ _

theorem length_called_foldl (waiters : List PendingStat) :
    s.called.length ≤ (waiters.foldl (checkAccess env true) s).called.length := by
  induction waiters generalizing s with
  | nil => exact Nat.le_refl _
  | cons ps waiters ih => exact (length_called_checkAccess true).trans ih

/-- A stat that completes answers its owner and hands on the requests that wait for it. -/
theorem Inv.completeStat (h : Inv env requests s) {i : ℕ} {s' : AccessRXCache}
    (hs : completeStat env s i = some s') :
    Inv env requests s' ∧ s.called.length < s'.called.length := by
  obtain ⟨ps, hps, rfl⟩ := Option.map_eq_some_iff.mp hs
  have hstats : s.stats.Perm (ps :: s.stats.eraseIdx i) := by
    obtain ⟨hi, rfl⟩ := List.getElem?_eq_some_iff.mp hps
    exact (List.getElem_cons_eraseIdx_perm hi).symm
  have hkey : ps.filename ∈ s.pendingStats.map (·.1) :=
    h.keys.mem_iff.mpr (List.mem_map_of_mem (List.mem_of_getElem? hps))
  obtain ⟨waiters, hlookup, hpending⟩ := lookup_perm h.sorted hkey
  let rest := s.pendingStats.filter (·.1 ≠ ps.filename)
  let t : AccessRXCache := { s with stats := s.stats.eraseIdx i, pendingStats := rest }
  have ht : Inv env (↑(s.called.map (·.1)) + unanswered t) t := by
    refine ⟨rfl, h.cache, h.called, h.sorted.filter _, ?_⟩
    have hkeys := (hpending.map (·.1)).symm.trans (h.keys.trans (hstats.map _))
    exact (List.perm_cons _).mp hkeys
  have hunanswered : unanswered s = {ps} + (↑waiters + unanswered t) := by
    refine Multiset.coe_eq_coe.mpr ((hstats.append (hpending.flatMap_right (·.2))).trans ?_)
    exact (List.perm_append_comm_assoc (s.stats.eraseIdx i) waiters (rest.flatMap (·.2))).cons ps
  have hrequests : ↑waiters + ({ps} + (↑(s.called.map (·.1)) + unanswered t)) = requests := by
    rw [← h.balance, hunanswered]
    abel
  obtain ⟨hframe, hsame, hlength⟩ :=
    checkAccess_sync env { s with stats := s.stats.eraseIdx i } ps rest
  dsimp only
  rw [hsame, hlookup, Option.getD_some, ← hframe]
  constructor
  · rw [← hrequests, Multiset.singleton_add]
    exact (ht.checkAccess _ false).foldl_checkAccess waiters
  · refine Nat.lt_of_lt_of_le ?_ (length_called_foldl waiters)
    rw [hframe]
    exact Nat.lt_of_lt_of_eq (Nat.lt_succ_self _) hlength.symm

def requested (events : List Event) : List PendingStat :=
  events.filterMap fun event => match event with
    | .check ps => some ps
    | .complete _ => none

def completed (events : List Event) : ℕ :=
  events.countP fun event => match event with
    | .check _ => false
    | .complete _ => true

theorem Inv.run {events : List Event} (h : Inv env requests s) {s' : AccessRXCache}
    (hrun : Run.run (step env) s events = some s') :
    Inv env (↑(requested events) + requests) s' ∧
      s.called.length + completed events ≤ s'.called.length := by
  induction events generalizing requests s with
  | nil =>
      obtain rfl := Option.some.inj hrun
      exact ⟨(zero_add requests).symm ▸ h, Nat.le_refl _⟩
  | cons event events ih =>
      rw [Run.run, Option.bind_eq_some_iff] at hrun
      obtain ⟨s₁, hs₁, hrun⟩ := hrun
      cases event with
      | check ps =>
          obtain rfl := Option.some.inj hs₁
          obtain ⟨hinv, hlength⟩ := ih (h.checkAccess _ true) hrun
          rw [Multiset.add_cons, ← Multiset.cons_add, Multiset.cons_coe] at hinv
          exact ⟨hinv, (Nat.add_le_add_right (length_called_checkAccess true) _).trans hlength⟩
      | complete i =>
          obtain ⟨hinv₁, hlt⟩ := h.completeStat hs₁
          obtain ⟨hinv, hlength⟩ := ih hinv₁ hrun
          refine ⟨hinv, ?_⟩
          have hcount : completed (.complete i :: events) = completed events + 1 :=
            List.countP_cons_of_pos rfl
          omega

end Invariant

/-- However the stats complete, no callback is called more often than it has been passed, and each
is told whether all directories of its filename below the root are accessible. When no stat is
outstanding, all have been called and nothing is pending; and there are no more stats than
requests. -/
theorem checkAccess_answers {env : Env} {events : List Event} {s : AccessRXCache}
    (hrun : Run.run (step env) {} events = some s) :
    (∀ ps, (s.called.map (·.1)).count ps ≤ (requested events).count ps) ∧
      (∀ e ∈ s.called, e.2 = true ↔ (env.checkVisibility = true → ∀ p ≠ [], ∀ q,
        e.1.filename = p ++ '/'.toUInt8 :: q → env.access p = true)) ∧
      (s.stats = [] → (s.called.map (·.1)).Perm (requested events) ∧ s.pendingStats = []) ∧
      completed events ≤ (requested events).length := by
  obtain ⟨hinv, hcompleted⟩ := inv_empty.run hrun
  rw [add_zero] at hinv
  have hbalance := hinv.balance
  refine ⟨fun ps => ?_, fun e he => ?_, fun hstats => ?_, ?_⟩
  · have hcount := congrArg (Multiset.count ps) hbalance
    rw [Multiset.count_add, Multiset.coe_count, Multiset.coe_count] at hcount
    omega
  · rw [hinv.called e he, visible, Bool.or_eq_true, Bool.not_eq_true', List.all_eq_true]
    constructor
    · rintro (hoff | hall) hon p hp q hq
      · rw [hoff] at hon
        cases hon
      · exact hall p (mem_parents.mpr ⟨hp, q, hq⟩)
    · intro h
      cases hon : env.checkVisibility with
      | false => exact Or.inl rfl
      | true =>
          refine Or.inr fun p hp => ?_
          obtain ⟨hne, q, hq⟩ := mem_parents.mp hp
          exact h hon p hne q hq
  · have hkeys := hinv.keys
    rw [hstats, List.map_nil, List.perm_nil, List.map_eq_nil_iff] at hkeys
    rw [unanswered, hstats, hkeys] at hbalance
    exact ⟨Multiset.coe_eq_coe.mp ((add_zero _).symm.trans hbalance), hkeys⟩
  · have hcard := congrArg Multiset.card hbalance
    rw [Multiset.card_add, Multiset.coe_card, Multiset.coe_card, List.length_map] at hcard
    have hzero : ([] : List (PendingStat × Bool)).length + completed events ≤ s.called.length :=
      hcompleted
    rw [List.length_nil] at hzero
    omega

section Examples

/-- Two files of the directory `/a`; the second one waits for the stat of the first. -/
def siblings : List Event :=
  [.check ⟨['/'.toUInt8, 'a'.toUInt8, '/'.toUInt8, 'b'.toUInt8], 0⟩,
    .check ⟨['/'.toUInt8, 'a'.toUInt8, '/'.toUInt8, 'c'.toUInt8], 1⟩, .complete 0]

theorem checkAccess_answers_siblings : ∃ s,
    Run.run (step ⟨fun _ => true, true, true⟩) {} siblings = some s ∧
      (s.called.map (·.1)).Perm (requested siblings) := by
  have hrun : Run.run (step ⟨fun _ => true, true, true⟩) {} siblings = some
      { cache := [(['/'.toUInt8, 'a'.toUInt8], true)]
        called := [(⟨['/'.toUInt8, 'a'.toUInt8, '/'.toUInt8, 'b'.toUInt8], 0⟩, true),
          (⟨['/'.toUInt8, 'a'.toUInt8, '/'.toUInt8, 'c'.toUInt8], 1⟩, true)] } := by
    decide +kernel
  exact ⟨_, hrun, ((checkAccess_answers hrun).2.2.1 rfl).1⟩

def ProperParent (p filename : Str) : Prop :=
  ∃ front q, filename = front ++ '/'.toUInt8 :: q ∧
    p = if front = [] then ['/'.toUInt8] else front

/-- The root itself is not checked. -/
theorem not_checkAccess_root : ∃ s, Run.run (step ⟨(· ≠ ['/'.toUInt8]), true, true⟩) {}
    [.check ⟨['/'.toUInt8, 'a'.toUInt8], 0⟩] = some s ∧ s.stats = [] ∧
      ∃ e ∈ s.called, ¬(e.2 = true ↔
        ∀ p, ProperParent p e.1.filename → (p ≠ ['/'.toUInt8] : Bool) = true) := by
  refine ⟨{ called := [(⟨['/'.toUInt8, 'a'.toUInt8], 0⟩, true)] }, by decide +kernel, rfl, _,
    List.mem_cons_self, fun h => ?_⟩
  have hroot := h.mp rfl ['/'.toUInt8] ⟨[], ['a'.toUInt8], rfl, rfl⟩
  exact absurd rfl (of_decide_eq_true hroot)

end Examples

end AccessRXCache

end Flocate
