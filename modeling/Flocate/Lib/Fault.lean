import Mathlib.Tactic.Common

/-!
# Runs that can end early

A function of the source whose run may hit undefined behaviour or end the process returns
`Except Fault`. The rules below take a successful run of a sequence apart.
-/

inductive Fault where
  /-- A failed `assert`. -/
  | assertion
  /-- An access outside of an array. -/
  | outOfBounds
  /-- A shift by at least the width of the shifted type. -/
  | shift
  /-- A signed integer that gets too large for its type. -/
  | overflow
  /-- An exception that nothing catches. -/
  | uncaught
  /-- A call of `exit`. -/
  | exit (status : ℕ)
deriving DecidableEq

namespace Fault

universe u

variable {α β : Type u}

theorem bind_eq_ok {x : Except Fault α} {f : α → Except Fault β} {b : β} :
    x >>= f = .ok b ↔ ∃ a, x = .ok a ∧ f a = .ok b := by
  cases x with
  | error e => exact ⟨nofun, nofun⟩
  | ok a =>
      constructor
      · exact fun h => ⟨a, rfl, h⟩
      · rintro ⟨a', ha, h⟩
        obtain rfl := Except.ok.inj ha
        exact h

theorem map_eq_ok {x : Except Fault α} {f : α → β} {b : β} :
    x.map f = .ok b ↔ ∃ a, x = .ok a ∧ f a = b := by
  cases x with
  | error e => exact ⟨nofun, nofun⟩
  | ok a =>
      constructor
      · exact fun h => ⟨a, rfl, Except.ok.inj h⟩
      · rintro ⟨a', ha, rfl⟩
        obtain rfl := Except.ok.inj ha
        rfl

end Fault
