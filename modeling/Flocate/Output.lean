import Flocate.Lib.Bytes
import Mathlib.Tactic.Common

/-!
# Printing matches

The console is the standard output that all processes share, with the limit that a process has
left. A process that reaches the limit exits.
-/

namespace Flocate

open Bytes

/-- A line of the output; how a filename is escaped is left out. -/
inductive Line where
  | filename (s : Str)
  | count (n : ℤ)
deriving DecidableEq

structure OutputOptions where
  onlyCount : Bool
  limit : Option ℕ
  limit_pos : ∀ l ∈ limit, 0 < l

/-- `limit_matches`; without a limit the largest `int64_t`. -/
def OutputOptions.limitMatches (options : OutputOptions) : ℕ := options.limit.getD (2 ^ 63 - 1)

structure Console where
  stdout : List Line
  limitLeft : ℤ
deriving DecidableEq

abbrev Process := ExceptT ℕ (StateM Console)

namespace Process

def putLine (line : Line) : Process Unit :=
  modify fun console => { console with stdout := console.stdout ++ [line] }

variable (options : OutputOptions)

def applyLimit : Process Unit := do
  modify fun console => { console with limitLeft := console.limitLeft - 1 }
  if (← get).limitLeft > 0 then
    return
  if options.onlyCount then
    putLine (.count options.limitMatches)
  throw 0

def print (msg : Str) : Process Unit := do
  if msg ≠ [] then
    if !options.onlyCount then
      putLine (.filename msg)
    applyLimit options

section Apply

variable {α β : Type}

theorem bind_apply (x : Process α) (f : α → Process β) (console : Console) :
    (x >>= f) console = match x console with
      | (.ok a, console) => f a console
      | (.error status, console) => (.error status, console) := by
  rcases h : x console with ⟨_ | _, _⟩
  all_goals
    simp only [bind, ExceptT.bind, ExceptT.mk, StateT.bind, h]
    rfl

theorem pure_apply (a : α) (console : Console) : (pure a : Process α) console = (.ok a, console) :=
  rfl

theorem throw_apply (status : ℕ) (console : Console) :
    (throw status : Process α) console = (.error status, console) :=
  rfl

theorem get_apply (console : Console) : (get : Process Console) console = (.ok console, console) :=
  rfl

theorem modify_apply (f : Console → Console) (console : Console) :
    (modify f : Process Unit) console = (.ok (), f console) :=
  rfl

theorem putLine_apply (line : Line) (console : Console) :
    putLine line console = (.ok (), { console with stdout := console.stdout ++ [line] }) :=
  rfl

attribute [simp] bind_apply pure_apply throw_apply get_apply modify_apply putLine_apply

end Apply

variable {options}

def printed (options : OutputOptions) (filenames : List Str) : List Line :=
  if options.onlyCount then [] else filenames.map .filename

def printedCount (options : OutputOptions) (n : ℤ) : List Line :=
  if options.onlyCount then [.count n] else []

theorem printed_append (xs ys : List Str) :
    printed options (xs ++ ys) = printed options xs ++ printed options ys := by
  cases hc : options.onlyCount <;> simp [printed, hc]

theorem printed_nil : printed options [] = [] := by
  cases hc : options.onlyCount <;> simp [printed, hc]

theorem applyLimit_apply (console : Console) :
    applyLimit options console =
      if 1 < console.limitLeft then (.ok (), { console with limitLeft := console.limitLeft - 1 })
      else (.error 0, ⟨console.stdout ++ printedCount options options.limitMatches,
        console.limitLeft - 1⟩) := by
  have hlt : 1 < console.limitLeft ↔ 0 < console.limitLeft - 1 := by omega
  simp only [applyLimit, bind_apply, modify_apply, get_apply, gt_iff_lt, hlt]
  by_cases hl : 0 < console.limitLeft - 1
  · rw [if_pos hl, if_pos hl, pure_apply]
  · rw [if_neg hl, if_neg hl]
    cases hc : options.onlyCount <;> simp [printedCount, hc]

theorem print_apply {msg : Str} (h : msg ≠ []) (console : Console) :
    print options msg console =
      applyLimit options { console with stdout := console.stdout ++ printed options [msg] } := by
  rw [print, if_pos h]
  cases hc : options.onlyCount <;> simp [printed, hc]

end Process

theorem limitMatches_pos (options : OutputOptions) : 0 < options.limitMatches := by
  rw [OutputOptions.limitMatches]
  cases h : options.limit with
  | none => decide
  | some l => exact options.limit_pos l h

end Flocate
