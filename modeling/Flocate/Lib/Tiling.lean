import Mathlib.Tactic.Common

/-!
# Pieces that tile an interval

A piece `p` covers `size p` numbers from `start p` on. Pieces that tile an interval have different
starts, so that they are in order however they are scattered.
-/

namespace Tiling

variable {β : Type*} {start size : β → ℕ}

/-- The pieces of the list, none empty, cover the numbers from `a` to `b` one after the other. -/
inductive Tiles (start size : β → ℕ) : ℕ → ℕ → List β → Prop
  | nil (a : ℕ) : Tiles start size a a []
  | cons {a b : ℕ} {p : β} {ps : List β} (hstart : start p = a) (hpos : 0 < size p)
      (h : Tiles start size (a + size p) b ps) : Tiles start size a b (p :: ps)

theorem Tiles.append {a b c : ℕ} {ps qs : List β} (hp : Tiles start size a b ps)
    (hq : Tiles start size b c qs) : Tiles start size a c (ps ++ qs) := by
  induction hp with
  | nil a => exact hq
  | cons hstart hpos _ ih => exact .cons hstart hpos (ih hq)

theorem Tiles.mem {a b : ℕ} {ps : List β} (h : Tiles start size a b ps) {p : β} (hp : p ∈ ps) :
    a ≤ start p ∧ 0 < size p := by
  induction h with
  | nil a => cases hp
  | cons hstart hpos _ ih =>
      rcases List.mem_cons.mp hp with rfl | hp
      · exact ⟨Nat.le_of_eq hstart.symm, hpos⟩
      · exact ⟨Nat.le_trans (Nat.le_add_right _ _) (ih hp).1, (ih hp).2⟩

/-- A piece that starts where the interval does comes first. -/
theorem Tiles.eq_cons {a b : ℕ} {ps : List β} (h : Tiles start size a b ps) {p : β} (hp : p ∈ ps)
    (hstart : start p = a) : ∃ qs, ps = p :: qs ∧ Tiles start size (a + size p) b qs := by
  cases h with
  | nil => cases hp
  | @cons _ _ q qs hq hpos htail =>
      rcases List.mem_cons.mp hp with rfl | hp
      · exact ⟨qs, rfl, htail⟩
      · have hle := (htail.mem hp).1
        omega

/-- A piece that starts where another one ends comes right after it. -/
theorem Tiles.adjacent {a b : ℕ} {ps : List β} (h : Tiles start size a b ps) {p q : β}
    (hp : p ∈ ps) (hq : q ∈ ps) (heq : start p + size p = start q) :
    ∃ l r, ps = l ++ p :: q :: r := by
  induction h with
  | nil a => cases hp
  | @cons a b r rs hstart hpos htail ih =>
      have hq' : q ∈ rs := by
        rcases List.mem_cons.mp hq with rfl | hq
        · have hlt : a ≤ start p ∧ 0 < size p := by
            rcases List.mem_cons.mp hp with rfl | hp
            · exact ⟨Nat.le_of_eq hstart.symm, hpos⟩
            · exact ⟨Nat.le_trans (Nat.le_add_right _ _) (htail.mem hp).1, (htail.mem hp).2⟩
          omega
        · exact hq
      rcases List.mem_cons.mp hp with rfl | hp
      · obtain ⟨qs, rfl, -⟩ := htail.eq_cons hq' (by omega)
        exact ⟨[], qs, rfl⟩
      · obtain ⟨l, r', rfl⟩ := ih hp hq'
        exact ⟨r :: l, r', rfl⟩

/-- Two adjacent pieces can be made one. -/
theorem Tiles.merge {a b : ℕ} {l r : List β} {p q pq : β}
    (h : Tiles start size a b (l ++ p :: q :: r)) (hstart : start pq = start p)
    (hsize : size pq = size p + size q) : Tiles start size a b (l ++ pq :: r) := by
  induction l generalizing a with
  | nil =>
      cases h with
      | cons hp hpos h =>
          cases h with
          | cons _ _ h =>
              refine .cons (hstart.trans hp) (by omega) ?_
              rwa [hsize, ← Nat.add_assoc]
  | cons s l ih =>
      cases h with
      | cons hs hpos h => exact .cons hs hpos (ih h)

/-- Nothing is left to tile if no scattered piece starts where the interval does. -/
theorem Tiles.eq_nil {a b : ℕ} {ps : List β} (h : Tiles start size a b ps)
    (hne : ∀ p ∈ ps, start p ≠ a) : ps = [] ∧ a = b := by
  cases h with
  | nil => exact ⟨rfl, rfl⟩
  | cons hstart => exact absurd hstart (hne _ List.mem_cons_self)

end Tiling
