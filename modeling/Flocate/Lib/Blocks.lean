import Mathlib.Data.List.Basic
import Mathlib.Tactic.Common

/-!
# Cutting a list into blocks

All blocks but the last have the given length.
-/

variable {α β : Type*}

def blocksOf (n : ℕ) (l : List α) : List (List α) :=
  if _h : n = 0 ∨ l = [] then [] else l.take n :: blocksOf n (l.drop n)
termination_by l.length
decreasing_by
  rw [not_or] at _h
  have := List.length_pos_iff.mpr _h.2
  rw [List.length_drop]
  omega

theorem blocksOf_nil (n : ℕ) : blocksOf n ([] : List α) = [] := by
  rw [blocksOf, dif_pos (Or.inr rfl)]

theorem blocksOf_append {n : ℕ} (hn : 0 < n) {b : List α} (hb : b.length = n) (l : List α) :
    blocksOf n (b ++ l) = b :: blocksOf n l := by
  have hne : b ++ l ≠ [] := by
    rintro h
    rw [(List.append_eq_nil_iff.mp h).1] at hb
    exact absurd hb.symm (Nat.ne_of_gt hn)
  rw [blocksOf, dif_neg (not_or.mpr ⟨Nat.ne_of_gt hn, hne⟩), List.take_left' hb, List.drop_left' hb]

theorem blocksOf_of_length_lt {n : ℕ} {b : List α} (hb : b.length < n) (hne : b ≠ []) :
    blocksOf n b = [b] := by
  rw [blocksOf, dif_neg (not_or.mpr ⟨by omega, hne⟩), List.take_of_length_le (Nat.le_of_lt hb),
    List.drop_of_length_le (Nat.le_of_lt hb), blocksOf_nil]

theorem flatten_blocksOf {n : ℕ} (hn : 0 < n) (l : List α) : (blocksOf n l).flatten = l := by
  induction l using blocksOf.induct n with
  | case1 l h =>
      rw [blocksOf, dif_pos h, (h.resolve_left (Nat.ne_of_gt hn))]
      rfl
  | case2 l h ih => rw [blocksOf, dif_neg h, List.flatten_cons, ih, List.take_append_drop]

theorem mem_of_mem_blocksOf {n : ℕ} {l b : List α} (hb : b ∈ blocksOf n l) {x : α} (hx : x ∈ b) :
    x ∈ l := by
  induction l using blocksOf.induct n with
  | case1 l h =>
      rw [blocksOf, dif_pos h] at hb
      cases hb
  | case2 l h ih =>
      rw [blocksOf, dif_neg h, List.mem_cons] at hb
      rcases hb with rfl | hb
      · exact List.mem_of_mem_take hx
      · exact List.mem_of_mem_drop (ih hb)

theorem ne_nil_of_mem_blocksOf {n : ℕ} {l b : List α} (hb : b ∈ blocksOf n l) : b ≠ [] := by
  induction l using blocksOf.induct n with
  | case1 l h =>
      rw [blocksOf, dif_pos h] at hb
      cases hb
  | case2 l h ih =>
      rw [blocksOf, dif_neg h, List.mem_cons] at hb
      rcases hb with rfl | hb
      · rw [not_or] at h
        rw [Ne, List.take_eq_nil_iff, not_or]
        exact h
      · exact ih hb

theorem length_le_of_mem_blocksOf {n : ℕ} {l b : List α} (hb : b ∈ blocksOf n l) :
    b.length ≤ n := by
  induction l using blocksOf.induct n with
  | case1 l h =>
      rw [blocksOf, dif_pos h] at hb
      cases hb
  | case2 l h ih =>
      rw [blocksOf, dif_neg h] at hb
      rcases List.mem_cons.mp hb with rfl | hb
      · exact List.length_take_le n l
      · exact ih hb

theorem blocksOf_map (n : ℕ) (f : α → β) (l : List α) :
    blocksOf n (l.map f) = (blocksOf n l).map (List.map f) := by
  induction l using blocksOf.induct n with
  | case1 l h =>
      rw [blocksOf.eq_def n l, dif_pos h, blocksOf, dif_pos (by rwa [List.map_eq_nil_iff])]
      rfl
  | case2 l h ih =>
      rw [blocksOf.eq_def n l, dif_neg h, blocksOf, dif_neg (by rwa [List.map_eq_nil_iff]),
        List.map_cons, ← List.map_take, ← List.map_drop, ih]

theorem length_blocksOf_le (n : ℕ) (l : List α) : (blocksOf n l).length ≤ l.length := by
  induction l using blocksOf.induct n with
  | case1 l h =>
      rw [blocksOf, dif_pos h]
      exact Nat.zero_le _
  | case2 l h ih =>
      have hpos : 0 < l.length := List.length_pos_iff.mpr fun hl => h (Or.inr hl)
      have hn : n ≠ 0 := fun hn => h (Or.inl hn)
      rw [List.length_drop] at ih
      rw [blocksOf, dif_neg h, List.length_cons]
      omega
