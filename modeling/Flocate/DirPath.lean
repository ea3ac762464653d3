import Flocate.Lib.Bytes
import Mathlib.Data.List.Lex
import Mathlib.Data.List.TakeWhile
import Mathlib.Order.Lattice.Nat

/-!
# The order of directory paths

`dir_path_cmp` orders paths by their bytes, with the slash before all other bytes, so that what is
in a directory comes right behind it. A list that is sorted this way is searched with an index that
only moves forward, if the paths that are looked for increase.
-/

namespace Flocate

open Bytes

def dirPathCmp : Str → Str → ℤ
  | [], [] => 0
  | [], _ :: _ => -1
  | _ :: _, [] => 1
  | a :: as, b :: bs =>
      if a = b then dirPathCmp as bs
      else if a = 47 then -1
      else if b = 47 then 1
      else a.toNat - b.toNat

def stringListDirPathSort (list : List Str) : List Str :=
  list.mergeSort fun a b => decide ¬dirPathCmp b a < 0

/-- The loop that moves the index up to the path. -/
def advanceDirPath (list : List Str) (idx : ℕ) (path : Str) : ℕ :=
  idx + ((list.drop idx).takeWhile fun x => dirPathCmp x path < 0).length

/-- Whether the list contains the path, and the index behind it. -/
def stringListContainsDirPath (list : List Str) (idx : ℕ) (path : Str) : Bool × ℕ :=
  let idx := advanceDirPath list idx path
  if list[idx]? = some path then (true, idx + 1) else (false, idx)

def dirByte (b : UInt8) : ℕ := if b = 47 then 0 else b.toNat + 1

def dirKey (path : Str) : List ℕ := path.map dirByte

def DirLt (a b : Str) : Prop := dirPathCmp a b < 0

instance (a b : Str) : Decidable (DirLt a b) := inferInstanceAs (Decidable (_ < _))

section Order

variable {a b c : Str}

theorem dirByte_injective : Function.Injective dirByte := by
  intro a b h
  unfold dirByte at h
  split at h
  · rename_i ha
    split at h
    · rename_i hb
      rw [ha, hb]
    · omega
  · split at h
    · omega
    · exact UInt8.toNat_inj.mp (Nat.succ.inj h)

theorem dirKey_injective : Function.Injective dirKey := List.map_injective_iff.mpr dirByte_injective

theorem dirPathCmp_eq_zero_iff : dirPathCmp a b = 0 ↔ a = b := by
  induction a, b using dirPathCmp.induct with
  | case1 => exact iff_of_true rfl rfl
  | case2 b bs =>
      rw [dirPathCmp]
      exact iff_of_false (by decide) (List.cons_ne_nil _ _).symm
  | case3 a as =>
      rw [dirPathCmp]
      exact iff_of_false (by decide) (List.cons_ne_nil _ _)
  | case4 a as bs ih => rw [dirPathCmp, if_pos rfl, ih, List.cons_inj_right]
  | case5 as b bs h => 
      rw [dirPathCmp, if_neg h, if_pos rfl]
      exact iff_of_false (by decide) fun heq => h (List.cons.inj heq).1
  | case6 a as bs h ha =>
      rw [dirPathCmp, if_neg h, if_neg ha, if_pos rfl]
      exact iff_of_false (by decide) fun heq => h (List.cons.inj heq).1
  | case7 a as b bs h ha hb =>
      rw [dirPathCmp, if_neg h, if_neg ha, if_neg hb]
      refine iff_of_false (fun hsub => h ?_) fun heq => h (List.cons.inj heq).1
      exact UInt8.toNat_inj.mp (by omega)

theorem dirKey_cons_lt (x : UInt8) (y : UInt8) (as bs : Str) : dirKey (x :: as) < dirKey (y :: bs) ↔
    dirByte x < dirByte y ∨ dirByte x = dirByte y ∧ dirKey as < dirKey bs :=
  List.cons_lt_cons_iff

theorem dirKey_cons_lt_of_ne {x y : UInt8} (h : x ≠ y) (as bs : Str) :
    dirKey (x :: as) < dirKey (y :: bs) ↔ dirByte x < dirByte y := by
  rw [dirKey_cons_lt]
  exact or_iff_left fun hand => h (dirByte_injective hand.1)

/-- The comparison is the one of the places of the bytes, from left to right. -/
theorem dirLt_iff : DirLt a b ↔ dirKey a < dirKey b := by
  unfold DirLt
  induction a, b using dirPathCmp.induct with
  | case1 => exact iff_of_false (by decide) (lt_irrefl _)
  | case2 b bs =>
      rw [dirPathCmp]
      exact iff_of_true (by decide) List.Lex.nil
  | case3 a as =>
      rw [dirPathCmp]
      exact iff_of_false (by decide) (fun h => by cases h)
  | case4 a as bs ih =>
      rw [dirPathCmp, if_pos rfl, ih, dirKey_cons_lt]
      exact (or_iff_right (Nat.lt_irrefl _)).trans (and_iff_right rfl) |>.symm
  | case5 as b bs h =>
      rw [dirPathCmp, if_neg h, if_pos rfl, dirKey_cons_lt_of_ne h]
      refine iff_of_true (by decide) ?_
      rw [dirByte, if_pos rfl, dirByte, if_neg (Ne.symm h)]
      exact Nat.succ_pos _
  | case6 a as bs h ha =>
      rw [dirPathCmp, if_neg h, if_neg ha, if_pos rfl, dirKey_cons_lt_of_ne h]
      refine iff_of_false (by decide) ?_
      rw [dirByte, if_neg ha, dirByte, if_pos rfl]
      exact Nat.not_lt_zero _
  | case7 a as b bs h ha hb =>
      rw [dirPathCmp, if_neg h, if_neg ha, if_neg hb, dirKey_cons_lt_of_ne h, dirByte, if_neg ha,
        dirByte, if_neg hb]
      omega

theorem DirLt.trans (hab : DirLt a b) (hbc : DirLt b c) : DirLt a c := by
  rw [dirLt_iff] at *
  exact hab.trans hbc

theorem DirLt.irrefl (a : Str) : ¬DirLt a a := by
  rw [dirLt_iff]
  exact lt_irrefl _

theorem DirLt.asymm (h : DirLt a b) : ¬DirLt b a := fun h' => DirLt.irrefl a (h.trans h')

theorem DirLt.trichotomous (h : ¬DirLt a b) (h' : ¬DirLt b a) : a = b := by
  rw [dirLt_iff] at h h'
  exact dirKey_injective (le_antisymm (not_lt.mp h') (not_lt.mp h))

theorem dirLt_append_left (c : Str) : DirLt (c ++ a) (c ++ b) ↔ DirLt a b := by
  induction c with
  | nil => exact Iff.rfl
  | cons x c ih =>
      rw [← ih, DirLt, DirLt, List.cons_append, List.cons_append, dirPathCmp, if_pos rfl]

/-- What is in a directory comes behind it. -/
theorem dirLt_append (a : Str) (h : b ≠ []) : DirLt a (a ++ b) := by
  obtain ⟨x, bs, rfl⟩ := List.exists_cons_of_ne_nil h
  have hnil : DirLt [] (x :: bs) := by
    rw [DirLt, dirPathCmp]
    exact Int.negSucc_lt_zero 0
  have hlt := (dirLt_append_left a).mpr hnil
  rwa [List.append_nil] at hlt

end Order

section Search

variable {list : List Str} {idx : ℕ} {path : Str}

def DirSorted (list : List Str) : Prop := list.Pairwise DirLt

theorem stringListDirPathSort_perm (list : List Str) : (stringListDirPathSort list).Perm list :=
  List.mergeSort_perm list _

/-- Sorting makes a list without duplicates fit for the search. -/
theorem dirSorted_stringListDirPathSort (h : list.Nodup) :
    DirSorted (stringListDirPathSort list) := by
  have hsorted : (stringListDirPathSort list).Pairwise fun a b => decide ¬dirPathCmp b a < 0 := by
    refine List.pairwise_mergeSort (fun a b c hab hbc => ?_) (fun a b => ?_) list
    · rw [decide_eq_true_eq] at hab hbc ⊢
      intro hca
      by_cases heq : b = c
      · exact hab (heq ▸ hca)
      · have hlt : DirLt b c := by
          apply Classical.byContradiction
          intro hnot
          exact heq (DirLt.trichotomous hnot hbc)
        exact hab (DirLt.trans hlt hca)
    · rw [Bool.or_eq_true, decide_eq_true_eq, decide_eq_true_eq]
      by_cases hba : DirLt b a
      · exact Or.inr hba.asymm
      · exact Or.inl hba
  have hnodup := (stringListDirPathSort_perm list).nodup_iff.mpr h
  refine hsorted.imp₂ (fun a b hab hne => ?_) hnodup
  rw [decide_eq_true_eq] at hab
  apply Classical.byContradiction
  intro hnot
  exact hne (DirLt.trichotomous hnot hab)

/-- What the index has passed is not behind the path. -/
def PassedUpTo (list : List Str) (idx : ℕ) (path : Str) : Prop :=
  ∀ x ∈ list.take idx, ¬DirLt path x

theorem drop_advanceDirPath (list : List Str) (idx : ℕ) (path : Str) :
    list.drop (advanceDirPath list idx path) =
    (list.drop idx).dropWhile fun x => dirPathCmp x path < 0 := by
  have hsplit := List.takeWhile_append_dropWhile (p := fun x => dirPathCmp x path < 0)
    (l := list.drop idx)
  rw [advanceDirPath, ← List.drop_drop]
  exact (congrArg (List.drop _) hsplit.symm).trans List.drop_left

theorem lt_of_mem_take_advanceDirPath (h : ∀ x ∈ list.take idx, DirLt x path) :
    ∀ x ∈ list.take (advanceDirPath list idx path), DirLt x path := by
  intro x hx
  rw [advanceDirPath, List.take_add,
    ← List.prefix_iff_eq_take.mp (List.takeWhile_prefix _)] at hx
  rcases List.mem_append.mp hx with hx | hx
  · exact h x hx
  · have hlt := List.mem_takeWhile_imp hx
    exact of_decide_eq_true hlt

/-- A search from an index that has only passed smaller paths finds what is there. -/
theorem containsDirPath_iff (hsorted : DirSorted list)
    (hpassed : ∀ x ∈ list.take idx, DirLt x path) :
    ((stringListContainsDirPath list idx path).1 = true ↔ path ∈ list) ∧
      PassedUpTo list (stringListContainsDirPath list idx path).2 path := by
  have hbefore := lt_of_mem_take_advanceDirPath hpassed
  have hdrop := drop_advanceDirPath list idx path
  unfold stringListContainsDirPath
  dsimp only
  generalize advanceDirPath list idx path = j at *
  split
  · rename_i hfound
    obtain ⟨hj, hpath⟩ := List.getElem?_eq_some_iff.mp hfound
    refine ⟨iff_of_true rfl (List.mem_of_getElem? hfound), fun x hx => ?_⟩
    rw [List.take_add_one, hfound] at hx
    rcases List.mem_append.mp hx with hx | hx
    · exact (hbefore x hx).asymm
    · obtain rfl := List.mem_singleton.mp hx
      exact DirLt.irrefl _
  · rename_i hmissed
    refine ⟨iff_of_false Bool.false_ne_true fun hmem => ?_, fun x hx => (hbefore x hx).asymm⟩
    rw [← List.take_append_drop j list] at hmem
    rcases List.mem_append.mp hmem with hmem | hmem
    · exact DirLt.irrefl _ (hbefore _ hmem)
    · have hsorted' := List.Pairwise.sublist (List.drop_sublist j list) hsorted
      obtain ⟨y, ys, hcons⟩ := List.exists_cons_of_ne_nil (List.ne_nil_of_mem hmem)
      have hhead : ¬DirLt y path := by
        have hnot := List.head?_dropWhile_not (p := fun x => decide (dirPathCmp x path < 0))
          (list.drop idx)
        rw [← hdrop, hcons] at hnot
        exact of_decide_eq_false hnot
      rw [hcons] at hmem hsorted'
      rw [List.pairwise_cons] at hsorted'
      rcases List.mem_cons.mp hmem with rfl | hmem
      · refine hmissed ?_
        rw [← List.head?_drop, hcons]
        rfl
      · exact hhead (hsorted'.1 path hmem)

end Search

end Flocate
