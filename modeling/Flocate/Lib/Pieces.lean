import Mathlib.Data.List.Basic

/-!
# Pieces of a list

A list that is made of pieces has every piece where the pieces before it end.
-/

namespace Pieces

variable {α : Type} {l before after data xs ys : List α} {offset k : ℕ}

def StandsAt (l : List α) (offset : ℕ) (data : List α) : Prop :=
  ∃ before after, l = before ++ (data ++ after) ∧ before.length = offset

theorem StandsAt.le (h : StandsAt l offset data) : offset + data.length ≤ l.length := by
  obtain ⟨before, after, rfl, rfl⟩ := h
  rw [List.length_append, List.length_append, ← Nat.add_assoc]
  exact Nat.le_add_right _ _

/-- What is read there is the data. -/
theorem StandsAt.slice (h : StandsAt l offset data) : (l.drop offset).take data.length = data := by
  obtain ⟨before, after, rfl, rfl⟩ := h
  rw [List.drop_left, List.take_left]

theorem StandsAt.left (h : StandsAt l offset (xs ++ ys)) : StandsAt l offset xs := by
  obtain ⟨before, after, rfl, hlength⟩ := h
  exact ⟨before, ys ++ after, by rw [List.append_assoc], hlength⟩

theorem StandsAt.right (h : StandsAt l offset (xs ++ ys)) :
    StandsAt l (offset + xs.length) ys := by
  obtain ⟨before, after, rfl, rfl⟩ := h
  refine ⟨before ++ xs, after, ?_, List.length_append⟩
  rw [List.append_assoc, List.append_assoc]

/-- Where a piece stands. -/
theorem StandsAt.piece {pieces : List (List α)} (h : StandsAt l offset pieces.flatten)
    (hk : pieces[k]? = some data) :
    StandsAt l (offset + (pieces.take k).flatten.length) data := by
  obtain ⟨hlt, rfl⟩ := List.getElem?_eq_some_iff.mp hk
  have hsplit : pieces.flatten =
      (pieces.take k).flatten ++ (pieces[k] ++ (pieces.drop (k + 1)).flatten) := by
    rw [← List.flatten_cons, ← List.flatten_append, List.getElem_cons_drop, List.take_append_drop]
  rw [hsplit] at h
  exact h.right.left

/-- Where some pieces in a row stand. -/
theorem StandsAt.pieces {pieces : List (List α)} (h : StandsAt l offset pieces.flatten)
    (k n : ℕ) :
    StandsAt l (offset + (pieces.take k).flatten.length) ((pieces.drop k).take n).flatten := by
  rw [← List.take_append_drop k pieces, List.flatten_append,
    ← List.take_append_drop n (pieces.drop k), List.flatten_append] at h
  exact h.right.left

theorem length_flatten_take {β : Type} {f : β → List α} {size : ℕ} {items : List β}
    (hf : ∀ y, (f y).length = size) (hk : k ≤ items.length) :
    ((items.map f).take k).flatten.length = size * k := by
  rw [← List.map_take, ← List.flatMap_def, List.length_flatMap]
  simp only [hf, List.map_const', List.sum_replicate_nat, List.length_take]
  rw [Nat.min_eq_left hk, Nat.mul_comm]

/-- Pieces that all have the same length. -/
theorem StandsAt.items {β : Type} {f : β → List α} {size : ℕ} {items : List β}
    (h : StandsAt l offset (items.flatMap f)) (hf : ∀ y, (f y).length = size)
    (hk : k ≤ items.length) (n : ℕ) :
    StandsAt l (offset + size * k) (((items.drop k).take n).flatMap f) := by
  rw [List.flatMap_def] at h
  have hpieces := h.pieces k n
  rwa [length_flatten_take hf hk, ← List.map_drop, ← List.map_take, ← List.flatMap_def] at hpieces

theorem StandsAt.item {β : Type} {f : β → List α} {size : ℕ} {items : List β} {x : β}
    (h : StandsAt l offset (items.flatMap f)) (hf : ∀ y, (f y).length = size)
    (hk : items[k]? = some x) : StandsAt l (offset + size * k) (f x) := by
  have hpiece : (items.map f)[k]? = some (f x) := by rw [List.getElem?_map, hk, Option.map_some]
  have hlt := (List.getElem?_eq_some_iff.mp hk).1
  rw [← length_flatten_take hf (Nat.le_of_lt hlt)]
  rw [List.flatMap_def] at h
  exact h.piece hpiece

end Pieces
