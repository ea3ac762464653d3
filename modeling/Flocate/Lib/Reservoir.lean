import Mathlib.Data.List.Basic
import Mathlib.Tactic.Common

/-!
# Reservoir sampling

The first elements of a stream are all kept. Each later one may take the slot of an earlier one, as
its draw says.
-/

namespace Reservoir

variable {α : Type*} (first : ℕ) (slot : ℕ → Option ℕ)

def step (n : ℕ) (kept : List α) (x : α) : List α :=
  if n < first then kept ++ [x]
  else match slot n with
    | none => kept
    | some i => kept.set i x

def run (n : ℕ) (kept : List α) : List α → List α
  | [] => kept
  | x :: xs => run (n + 1) (step first slot n kept x) xs

def sample (xs : List α) : List α := run first slot 0 [] xs

theorem length_step {n : ℕ} {kept : List α} (h : kept.length = min n first) (x : α) :
    (step first slot n kept x).length = min (n + 1) first := by
  rw [step]
  split
  · rw [List.length_append, List.length_singleton, h]
    omega
  · split
    · omega
    · rw [List.length_set]
      omega

theorem length_run {n : ℕ} {kept : List α} (h : kept.length = min n first) (xs : List α) :
    (run first slot n kept xs).length = min (n + xs.length) first := by
  induction xs generalizing n kept with
  | nil => exact h
  | cons x xs ih =>
      rw [run, ih (length_step first slot h x), List.length_cons, Nat.add_assoc, Nat.add_comm 1]

theorem length_sample (xs : List α) : (sample first slot xs).length = min xs.length first := by
  have hstart : ([] : List α).length = min 0 first := (Nat.zero_min first).symm
  have h := length_run first slot hstart xs
  rwa [Nat.zero_add] at h

theorem run_append (n : ℕ) (kept xs ys : List α) : run first slot n kept (xs ++ ys) =
    run first slot (n + xs.length) (run first slot n kept xs) ys := by
  induction xs generalizing n kept with
  | nil => rfl
  | cons x xs ih =>
      rw [List.cons_append, run, ih, run, List.length_cons, Nat.add_assoc, Nat.add_comm 1]

theorem sample_concat (xs : List α) (x : α) : sample first slot (xs ++ [x]) =
    step first slot xs.length (sample first slot xs) x := by
  rw [sample, run_append, Nat.zero_add]
  rfl

theorem mem_of_mem_run {n : ℕ} {kept xs : List α} {x : α} (h : x ∈ run first slot n kept xs) :
    x ∈ kept ∨ x ∈ xs := by
  induction xs generalizing n kept with
  | nil => exact .inl h
  | cons y xs ih =>
      rcases ih h with h | h
      · rw [step] at h
        split at h
        · rcases List.mem_append.mp h with h | h
          · exact .inl h
          · exact .inr (List.mem_singleton.mp h ▸ List.mem_cons_self)
        · split at h
          · exact .inl h
          · rcases List.mem_or_eq_of_mem_set h with h | h
            · exact .inl h
            · exact .inr (h ▸ List.mem_cons_self)
      · exact .inr (List.mem_cons_of_mem y h)

theorem mem_of_mem_sample {xs : List α} {x : α} (h : x ∈ sample first slot xs) : x ∈ xs :=
  (mem_of_mem_run first slot h).resolve_left (List.not_mem_nil)

end Reservoir
