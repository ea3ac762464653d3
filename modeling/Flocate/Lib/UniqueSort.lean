import Mathlib.Algebra.Order.BigOperators.Group.List
import Mathlib.Algebra.Order.Group.Nat
import Mathlib.Data.List.Basic
import Mathlib.Data.List.Sort
import Mathlib.Tactic.Ring

/-!
# Sorting and dropping repetitions

`unique` keeps the first of every run of equal keys, as `std::unique` does. After sorting by the
key one element of each key is left.
-/

namespace UniqueSort

variable {α κ : Type*} [DecidableEq κ] (key : α → κ)

def unique : List α → List α
  | [] => []
  | [x] => [x]
  | x :: y :: l => if key x = key y then unique (x :: l) else x :: unique (y :: l)
termination_by l => l.length

def uniqueSort (le : α → α → Bool) (l : List α) : List α := unique key (l.mergeSort le)

theorem mem_of_mem_unique {l : List α} {x : α} (h : x ∈ unique key l) : x ∈ l := by
  induction l using unique.induct key with
  | case1 => rwa [unique] at h
  | case2 y => rwa [unique] at h
  | case3 y z l heq ih =>
      rw [unique, if_pos heq] at h
      rcases List.mem_cons.mp (ih h) with rfl | hx
      · exact List.mem_cons_self
      · exact List.mem_cons_of_mem y (List.mem_cons_of_mem z hx)
  | case4 y z l hne ih =>
      rw [unique, if_neg hne] at h
      rcases List.mem_cons.mp h with rfl | hx
      · exact List.mem_cons_self
      · exact List.mem_cons_of_mem y (ih hx)

theorem exists_mem_unique {l : List α} {x : α} (h : x ∈ l) : ∃ y ∈ unique key l, key y = key x := by
  induction l using unique.induct key generalizing x with
  | case1 => cases h
  | case2 y => exact ⟨y, by rw [unique]; exact List.mem_cons_self, by rw [List.mem_singleton.mp h]⟩
  | case3 y z l heq ih =>
      rw [unique, if_pos heq]
      rcases List.mem_cons.mp h with rfl | h
      · exact ih List.mem_cons_self
      · rcases List.mem_cons.mp h with rfl | h
        · obtain ⟨w, hw, hk⟩ := ih (List.mem_cons_self (a := y))
          exact ⟨w, hw, hk.trans heq⟩
        · exact ih (List.mem_cons_of_mem y h)
  | case4 y z l hne ih =>
      rw [unique, if_neg hne]
      rcases List.mem_cons.mp h with rfl | h
      · exact ⟨x, List.mem_cons_self, rfl⟩
      · obtain ⟨w, hw, hk⟩ := ih h
        exact ⟨w, List.mem_cons_of_mem y hw, hk⟩

theorem unique_sublist (l : List α) : List.Sublist (unique key l) l := by
  induction l using unique.induct key with
  | case1 => rw [unique]
  | case2 y => rw [unique]
  | case3 y z l heq ih =>
      rw [unique, if_pos heq]
      exact ih.trans ((List.sublist_cons_self z l).cons_cons y)
  | case4 y z l hne ih =>
      rw [unique, if_neg hne]
      exact ih.cons_cons y

/-- In a sorted list equal keys stand together, so none is left twice. -/
theorem pairwise_unique {r : α → α → Prop} {l : List α}
    (hr : ∀ a b c, r a b → r b c → key a = key c → key a = key b) (h : l.Pairwise r) :
    (unique key l).Pairwise fun a b => key a ≠ key b := by
  induction l using unique.induct key with
  | case1 =>
      rw [unique]
      exact List.Pairwise.nil
  | case2 y =>
      rw [unique]
      exact List.pairwise_singleton _ y
  | case3 y z l heq ih =>
      rw [unique, if_pos heq]
      exact ih (h.sublist ((List.sublist_cons_self z l).cons_cons y))
  | case4 y z l hne ih =>
      rw [unique, if_neg hne, List.pairwise_cons]
      obtain ⟨hy, hz⟩ := List.pairwise_cons.mp h
      refine ⟨fun w hw hkey => ?_, ih hz⟩
      rcases List.mem_cons.mp (mem_of_mem_unique key hw) with rfl | hw
      · exact hne hkey
      · exact hne (hr y z w (hy z List.mem_cons_self) ((List.pairwise_cons.mp hz).1 w hw) hkey)

theorem sum_map_uniqueSort_le (le : α → α → Bool) (f : α → ℕ) (l : List α) :
    ((uniqueSort key le l).map f).sum ≤ (l.map f).sum := by
  rw [← ((List.mergeSort_perm l le).map f).sum_eq]
  exact ((unique_sublist key _).map f).sum_le_sum fun _ _ => Nat.zero_le _

theorem mem_of_mem_uniqueSort {le : α → α → Bool} {l : List α} {x : α}
    (h : x ∈ uniqueSort key le l) : x ∈ l :=
  (List.mergeSort_perm l le).mem_iff.mp (mem_of_mem_unique key h)

theorem exists_mem_uniqueSort (le : α → α → Bool) {l : List α} {x : α} (h : x ∈ l) :
    ∃ y ∈ uniqueSort key le l, key y = key x :=
  exists_mem_unique key ((List.mergeSort_perm l le).mem_iff.mpr h)

section Order

variable {κ : Type*} [LinearOrder κ] (key : α → κ) {le : α → α → Bool}

theorem pairwise_mergeSort (hle : ∀ a b, le a b = true ↔ key a ≤ key b) (l : List α) :
    (l.mergeSort le).Pairwise fun a b => key a ≤ key b := by
  have hsorted : (l.mergeSort le).Pairwise fun a b => le a b = true := by
    refine List.pairwise_mergeSort (fun a b c hab hbc => ?_) (fun a b => ?_) l
    · rw [hle] at hab hbc ⊢
      exact hab.trans hbc
    · rw [Bool.or_eq_true, hle, hle]
      exact le_total _ _
  exact hsorted.imp fun h => (hle _ _).mp h

theorem pairwise_uniqueSort [DecidableEq κ] (hle : ∀ a b, le a b = true ↔ key a ≤ key b)
    (l : List α) : (uniqueSort key le l).Pairwise fun a b => key a ≠ key b := by
  refine pairwise_unique key (fun a b c hab hbc heq => ?_) (pairwise_mergeSort key hle l)
  exact le_antisymm hab (hbc.trans heq.ge)

end Order

end UniqueSort
