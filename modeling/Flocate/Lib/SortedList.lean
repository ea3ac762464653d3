import Mathlib.Data.List.Sort
import Mathlib.Order.Lattice
import Mathlib.Tactic.Common

/-!
# Union and intersection of sorted lists

Merging of strictly increasing lists, as `std::set_union` and `std::set_intersection` do it.
-/

namespace SortedList

theorem flatMap_filter_ne_nil {α β : Type*} {f : α → List β} (l : List α) :
    (l.filter fun x => !(f x).isEmpty).flatMap f = l.flatMap f := by
  induction l with
  | nil => rfl
  | cons x l ih =>
      rw [List.filter_cons, List.flatMap_cons]
      split
      · rw [List.flatMap_cons, ih]
      · rename_i hx
        rw [Bool.not_eq_true, Bool.not_eq_false', List.isEmpty_iff] at hx
        rw [ih, hx, List.nil_append]

variable {α : Type*} [LinearOrder α]

def setUnion : List α → List α → List α
  | [], l₂ => l₂
  | x :: l₁, [] => x :: l₁
  | x :: l₁, y :: l₂ =>
      if x < y then x :: setUnion l₁ (y :: l₂)
      else if y < x then y :: setUnion (x :: l₁) l₂
      else x :: setUnion l₁ l₂
termination_by l₁ l₂ => l₁.length + l₂.length

def setIntersection : List α → List α → List α
  | [], _ => []
  | _ :: _, [] => []
  | x :: l₁, y :: l₂ =>
      if x < y then setIntersection l₁ (y :: l₂)
      else if y < x then setIntersection (x :: l₁) l₂
      else x :: setIntersection l₁ l₂
termination_by l₁ l₂ => l₁.length + l₂.length

theorem mem_setUnion {l₁ l₂ : List α} {z : α} : z ∈ setUnion l₁ l₂ ↔ z ∈ l₁ ∨ z ∈ l₂ := by
  induction l₁, l₂ using setUnion.induct with
  | case1 l₂ => simp [setUnion]
  | case2 x l₁ => simp [setUnion]
  | case3 x l₁ y l₂ h ih =>
      rw [setUnion, if_pos h, List.mem_cons, ih, List.mem_cons (l := l₁), or_assoc]
  | case4 x l₁ y l₂ h h' ih =>
      rw [setUnion, if_neg h, if_pos h', List.mem_cons, ih, List.mem_cons (l := l₂), or_left_comm]
  | case5 x l₁ y l₂ h h' ih =>
      obtain rfl : x = y := le_antisymm (not_lt.mp h') (not_lt.mp h)
      rw [setUnion, if_neg h, if_neg h', List.mem_cons, ih, List.mem_cons, List.mem_cons]
      tauto

theorem pairwise_setUnion {l₁ l₂ : List α} (h₁ : l₁.Pairwise (· < ·)) (h₂ : l₂.Pairwise (· < ·)) :
    (setUnion l₁ l₂).Pairwise (· < ·) := by
  induction l₁, l₂ using setUnion.induct with
  | case1 l₂ => rwa [setUnion]
  | case2 x l₁ => rwa [setUnion]
  | case3 x l₁ y l₂ h ih =>
      rw [List.pairwise_cons] at h₁
      rw [setUnion, if_pos h, List.pairwise_cons]
      refine ⟨fun z hz => ?_, ih h₁.2 h₂⟩
      rcases mem_setUnion.mp hz with hz | hz
      · exact h₁.1 z hz
      · rcases List.mem_cons.mp hz with rfl | hz
        · exact h
        · exact h.trans ((List.pairwise_cons.mp h₂).1 z hz)
  | case4 x l₁ y l₂ h h' ih =>
      rw [List.pairwise_cons] at h₂
      rw [setUnion, if_neg h, if_pos h', List.pairwise_cons]
      refine ⟨fun z hz => ?_, ih h₁ h₂.2⟩
      rcases mem_setUnion.mp hz with hz | hz
      · rcases List.mem_cons.mp hz with rfl | hz
        · exact h'
        · exact h'.trans ((List.pairwise_cons.mp h₁).1 z hz)
      · exact h₂.1 z hz
  | case5 x l₁ y l₂ h h' ih =>
      obtain rfl : x = y := le_antisymm (not_lt.mp h') (not_lt.mp h)
      rw [List.pairwise_cons] at h₁ h₂
      rw [setUnion, if_neg h, if_neg h', List.pairwise_cons]
      refine ⟨fun z hz => ?_, ih h₁.2 h₂.2⟩
      rcases mem_setUnion.mp hz with hz | hz
      · exact h₁.1 z hz
      · exact h₂.1 z hz

theorem mem_setIntersection {l₁ l₂ : List α} (h₁ : l₁.Pairwise (· < ·))
    (h₂ : l₂.Pairwise (· < ·)) {z : α} : z ∈ setIntersection l₁ l₂ ↔ z ∈ l₁ ∧ z ∈ l₂ := by
  induction l₁, l₂ using setIntersection.induct with
  | case1 l₂ => simp [setIntersection]
  | case2 x l₁ => simp [setIntersection]
  | case3 x l₁ y l₂ h ih =>
      have hx : x ∉ y :: l₂ := by
        rw [List.mem_cons, not_or]
        exact ⟨h.ne, fun hx => lt_asymm h ((List.pairwise_cons.mp h₂).1 x hx)⟩
      rw [setIntersection, if_pos h, ih (List.pairwise_cons.mp h₁).2 h₂, List.mem_cons (l := l₁)]
      constructor
      · exact fun ⟨hz₁, hz₂⟩ => ⟨Or.inr hz₁, hz₂⟩
      · rintro ⟨rfl | hz₁, hz₂⟩
        · exact absurd hz₂ hx
        · exact ⟨hz₁, hz₂⟩
  | case4 x l₁ y l₂ h h' ih =>
      have hy : y ∉ x :: l₁ := by
        rw [List.mem_cons, not_or]
        exact ⟨h'.ne, fun hy => lt_asymm h' ((List.pairwise_cons.mp h₁).1 y hy)⟩
      rw [setIntersection, if_neg h, if_pos h', ih h₁ (List.pairwise_cons.mp h₂).2,
        List.mem_cons (l := l₂)]
      constructor
      · exact fun ⟨hz₁, hz₂⟩ => ⟨hz₁, Or.inr hz₂⟩
      · rintro ⟨hz₁, rfl | hz₂⟩
        · exact absurd hz₁ hy
        · exact ⟨hz₁, hz₂⟩
  | case5 x l₁ y l₂ h h' ih =>
      obtain rfl : x = y := le_antisymm (not_lt.mp h') (not_lt.mp h)
      rw [List.pairwise_cons] at h₁ h₂
      rw [setIntersection, if_neg h, if_neg h', List.mem_cons, ih h₁.2 h₂.2, List.mem_cons,
        List.mem_cons]
      constructor
      · rintro (rfl | ⟨hz₁, hz₂⟩)
        · exact ⟨Or.inl rfl, Or.inl rfl⟩
        · exact ⟨Or.inr hz₁, Or.inr hz₂⟩
      · rintro ⟨rfl | hz₁, hz₂⟩
        · exact Or.inl rfl
        · rcases hz₂ with rfl | hz₂
          · exact Or.inl rfl
          · exact Or.inr ⟨hz₁, hz₂⟩

theorem pairwise_setIntersection {l₁ l₂ : List α} (h₁ : l₁.Pairwise (· < ·))
    (h₂ : l₂.Pairwise (· < ·)) : (setIntersection l₁ l₂).Pairwise (· < ·) := by
  induction l₁, l₂ using setIntersection.induct with
  | case1 l₂ => simp [setIntersection]
  | case2 x l₁ => simp [setIntersection]
  | case3 x l₁ y l₂ h ih =>
      rw [setIntersection, if_pos h]
      exact ih (List.pairwise_cons.mp h₁).2 h₂
  | case4 x l₁ y l₂ h h' ih =>
      rw [setIntersection, if_neg h, if_pos h']
      exact ih h₁ (List.pairwise_cons.mp h₂).2
  | case5 x l₁ y l₂ h h' ih =>
      rw [List.pairwise_cons] at h₁ h₂
      rw [setIntersection, if_neg h, if_neg h', List.pairwise_cons]
      exact ⟨fun z hz => h₁.1 z ((mem_setIntersection h₁.2 h₂.2).mp hz).1, ih h₁.2 h₂.2⟩

section Images

variable {β : Type*} {f : α → List β}

/-- Elements that contribute nothing make no difference. -/
theorem flatMap_eq_of_mem_iff {l₁ l₂ : List α} (h₁ : l₁.Pairwise (· < ·))
    (h₂ : l₂.Pairwise (· < ·)) (h : ∀ x, f x ≠ [] → (x ∈ l₁ ↔ x ∈ l₂)) :
    l₁.flatMap f = l₂.flatMap f := by
  have h₁' := h₁.filter fun x => !(f x).isEmpty
  have h₂' := h₂.filter fun x => !(f x).isEmpty
  have hperm : (l₁.filter fun x => !(f x).isEmpty).Perm (l₂.filter fun x => !(f x).isEmpty) := by
    refine (List.perm_ext_iff_of_nodup (h₁'.imp ne_of_lt) (h₂'.imp ne_of_lt)).mpr fun x => ?_
    rw [List.mem_filter, List.mem_filter]
    refine and_congr_left fun hx => h x fun hnil => ?_
    rw [hnil] at hx
    cases hx
  rw [← flatMap_filter_ne_nil l₁, List.Perm.eq_of_pairwise' h₁' h₂' hperm, flatMap_filter_ne_nil]

end Images

end SortedList
