import Flocate.Lib.Blocks

/-!
# Feeding blocks from a stream

A function is applied to each whole block of a list, and what does not fill a block is left. To do
so piece by piece, with the rest of a piece in front of the next, gives the same as on the whole
list.
-/

variable {σ α : Type*} {n : ℕ} (f : σ → List α → σ)

def feed (n : ℕ) (s : σ) (p : List α) : σ × List α :=
  if 0 < n ∧ n ≤ p.length then feed n (f s (p.take n)) (p.drop n) else (s, p)
termination_by p.length
decreasing_by
  rw [List.length_drop]
  omega

theorem feed_of_length_lt (s : σ) {p : List α} (h : p.length < n) : feed f n s p = (s, p) := by
  rw [feed, if_neg (by omega)]

theorem feed_of_length_le (hn : 0 < n) (s : σ) {p : List α} (h : n ≤ p.length) :
    feed f n s p = feed f n (f s (p.take n)) (p.drop n) := by
  rw [feed, if_pos ⟨hn, h⟩]

theorem feed_block (hn : 0 < n) (s : σ) {b : List α} (hb : b.length = n) (p : List α) :
    feed f n s (b ++ p) = feed f n (f s b) p := by
  rw [feed_of_length_le f hn s (by rw [List.length_append]; omega), List.take_left' hb,
    List.drop_left' hb]

theorem length_feed (hn : 0 < n) (s : σ) (p : List α) :
    (feed f n s p).2.length = p.length % n := by
  induction s, p using feed.induct f n with
  | case1 s p h ih =>
      rw [feed_of_length_le f hn s h.2, ih, List.length_drop, Nat.mod_eq_sub_mod h.2]
  | case2 s p h =>
      rw [feed, if_neg h]
      exact (Nat.mod_eq_of_lt (Nat.lt_of_not_le fun hle => h ⟨hn, hle⟩)).symm

/-- The rest of one piece goes in front of the next. -/
theorem feed_append (hn : 0 < n) (s : σ) (p q : List α) :
    feed f n s (p ++ q) = feed f n (feed f n s p).1 ((feed f n s p).2 ++ q) := by
  induction s, p using feed.induct f n with
  | case1 s p h ih =>
      have hq : n ≤ (p ++ q).length := by
        rw [List.length_append]
        omega
      rw [feed_of_length_le f hn s hq, feed_of_length_le f hn s h.2,
        List.take_append_of_le_length h.2, List.drop_append_of_le_length h.2]
      exact ih
  | case2 s p h => rw [feed.eq_def f n s p, if_neg h]

/-- Whole blocks are used up, one after the other. -/
theorem feed_eq_foldl_blocksOf (hn : 0 < n) (s : σ) (p : List α) (h : n ∣ p.length) :
    feed f n s p = ((blocksOf n p).foldl f s, []) := by
  induction s, p using feed.induct f n with
  | case1 s p hp ih =>
      have hlength : (p.take n).length = n := List.length_take_of_le hp.2
      have hblocks := blocksOf_append hn hlength (p.drop n)
      rw [List.take_append_drop] at hblocks
      rw [feed_of_length_le f hn s hp.2, ih, hblocks, List.foldl_cons]
      rw [List.length_drop]
      exact Nat.dvd_sub h (Nat.dvd_refl n)
  | case2 s p hp =>
      have hnil : p = [] := by
        apply List.length_eq_zero_iff.mp
        apply Nat.eq_zero_of_dvd_of_lt h
        omega
      rw [feed, if_neg hp, hnil, blocksOf_nil]
      rfl
