import Flocate.Lib.Bytes
import Mathlib.Tactic.SplitIfs

/-!
# Quoted words of bash

How bash reads adjacent strings in the quotes `'...'` and `$'...'` as one word. Characters outside
quotes and the escapes that depend on the locale are not read.
-/

namespace ShellWord

open Bytes

inductive Quoting where
  | unquoted
  | single
  | ansiC
deriving DecidableEq

def octalDigit (c : UInt8) : Option ℕ :=
  if '0'.toUInt8 ≤ c ∧ c ≤ '7'.toUInt8 then some (c.toNat - 48) else none

def hexDigit (c : UInt8) : Option ℕ :=
  if '0'.toUInt8 ≤ c ∧ c ≤ '9'.toUInt8 then some (c.toNat - 48)
  else if 'A'.toUInt8 ≤ c ∧ c ≤ 'F'.toUInt8 then some (c.toNat - 55)
  else if 'a'.toUInt8 ≤ c ∧ c ≤ 'f'.toUInt8 then some (c.toNat - 87)
  else none

def digits (digit : UInt8 → Option ℕ) (base : ℕ) : ℕ → ℕ → Str → ℕ × Str
  | 0, value, s => (value, s)
  | _ + 1, value, [] => (value, [])
  | count + 1, value, c :: s =>
      match digit c with
      | none => (value, c :: s)
      | some d => digits digit base count (base * value + d) s

def namedEscape (c : UInt8) : Option UInt8 :=
  if c = 'a'.toUInt8 then some 7
  else if c = 'b'.toUInt8 then some 8
  else if c = 'e'.toUInt8 ∨ c = 'E'.toUInt8 then some 27
  else if c = 'f'.toUInt8 then some 12
  else if c = 'n'.toUInt8 then some 10
  else if c = 'r'.toUInt8 then some 13
  else if c = 't'.toUInt8 then some 9
  else if c = 'v'.toUInt8 then some 11
  else if c = '\\'.toUInt8 ∨ c = '\x27'.toUInt8 ∨ c = '"'.toUInt8 ∨ c = '?'.toUInt8 then
    some c
  else none

/-- One or two hexadecimal digits after `x`, or the escape as it is. -/
def readHex : Str → Str × Str
  | [] => (ascii "\\x", [])
  | c :: s =>
      match hexDigit c with
      | none => (ascii "\\x", c :: s)
      | some d =>
          let (value, rest) := digits hexDigit 16 1 d s
          ([UInt8.ofNat value], rest)

/-- The bytes of the escape that `c` begins after a backslash, and what follows it. -/
def readEscape (c : UInt8) (s : Str) : Option (Str × Str) :=
  match namedEscape c with
  | some b => some ([b], s)
  | none =>
      match octalDigit c with
      | some d =>
          let (value, rest) := digits octalDigit 8 2 d s
          some ([UInt8.ofNat value], rest)
      | none =>
          if c = 'x'.toUInt8 then some (readHex s)
          else if c = 'u'.toUInt8 ∨ c = 'U'.toUInt8 ∨ c = 'c'.toUInt8 then none
          else some (['\\'.toUInt8, c], s)

theorem length_digits_le (digit : UInt8 → Option ℕ) (base count value : ℕ) (s : Str) :
    (digits digit base count value s).2.length ≤ s.length := by
  induction count generalizing value s with
  | zero => exact le_rfl
  | succ count ih =>
      cases s with
      | nil => exact le_rfl
      | cons c s =>
          rw [digits]
          split
          · exact le_rfl
          · exact (ih _ s).trans (Nat.le_succ _)

theorem length_readHex_le (s : Str) : (readHex s).2.length ≤ s.length := by
  cases s with
  | nil => exact le_rfl
  | cons c s =>
      rw [readHex]
      split
      · exact le_rfl
      · exact (length_digits_le _ _ _ _ _).trans (Nat.le_succ _)

theorem length_le_of_readEscape {c : UInt8} {s w rest : Str}
    (h : readEscape c s = some (w, rest)) : rest.length ≤ s.length := by
  rw [readEscape] at h
  split at h
  · obtain ⟨-, rfl⟩ := Prod.mk.inj (Option.some.inj h)
    exact le_rfl
  · split at h
    · obtain ⟨-, rfl⟩ := Prod.mk.inj (Option.some.inj h)
      exact length_digits_le _ _ _ _ _
    · split_ifs at h
      · have hlen := length_readHex_le s
        rw [Option.some.inj h] at hlen
        exact hlen
      · obtain ⟨-, rfl⟩ := Prod.mk.inj (Option.some.inj h)
        exact le_rfl

def readElement (c : UInt8) (s : Str) : Option (Str × Str) :=
  if c = '\\'.toUInt8 then
    match s with
    | [] => none
    | d :: s => readEscape d s
  else some ([c], s)

theorem length_le_of_readElement {c : UInt8} {s w rest : Str}
    (h : readElement c s = some (w, rest)) : rest.length ≤ s.length := by
  unfold readElement at h
  split_ifs at h
  · cases s with
    | nil => exact absurd h (by simp)
    | cons d s => exact (length_le_of_readEscape h).trans (Nat.le_succ _)
  · obtain ⟨-, rfl⟩ := Prod.mk.inj (Option.some.inj h)
    exact le_rfl

/-- The word that the rest of the string is, from within the given quotes on. -/
def read : Quoting → Str → Option Str
  | .unquoted, [] => some []
  | .unquoted, c :: s =>
      if c = '\x27'.toUInt8 then read .single s
      else if c = '$'.toUInt8 ∧ s.head? = some '\x27'.toUInt8 then read .ansiC s.tail
      else none
  | .single, [] => none
  | .single, c :: s =>
      if c = '\x27'.toUInt8 then read .unquoted s else (read .single s).map (c :: ·)
  | .ansiC, [] => none
  | .ansiC, c :: s =>
      if c = '\x27'.toUInt8 then read .unquoted s
      else
        match _ : readElement c s with
        | none => none
        | some (w, rest) => (read .ansiC rest).map (w ++ ·)
termination_by _ s => s.length
decreasing_by
  all_goals simp only [List.length_cons, List.length_tail]
  on_goal 6 =>
    rename_i h
    have hle := length_le_of_readElement h
  all_goals omega

example : read .unquoted (ascii "'a'$'\\n\\0012''b'") = some (ascii "a\n\x012b") := by
  decide +kernel

section Read

theorem read_unquoted_nil : read .unquoted [] = some [] := by
  rw [read]

theorem read_unquoted_quote (s : Str) :
    read .unquoted ('\x27'.toUInt8 :: s) = read .single s := by
  rw [read, if_pos rfl]

theorem read_unquoted_dollar (s : Str) :
    read .unquoted ('$'.toUInt8 :: '\x27'.toUInt8 :: s) = read .ansiC s := by
  rw [read, if_neg (by decide), if_pos ⟨rfl, rfl⟩, List.tail_cons]

theorem read_single_quote (s : Str) : read .single ('\x27'.toUInt8 :: s) = read .unquoted s := by
  rw [read, if_pos rfl]

theorem read_single_append {p : Str} (hp : '\x27'.toUInt8 ∉ p) (s : Str) :
    read .single (p ++ s) = (read .single s).map (p ++ ·) := by
  induction p with
  | nil => exact Option.map_id'.symm
  | cons c p ih =>
      rw [List.mem_cons, not_or] at hp
      rw [List.cons_append, read, if_neg (Ne.symm hp.1), ih hp.2, Option.map_map]
      rfl

theorem read_ansiC_quote (s : Str) : read .ansiC ('\x27'.toUInt8 :: s) = read .unquoted s := by
  rw [read, if_pos rfl]

theorem read_ansiC_escape {c : UInt8} {s w rest : Str} (h : readEscape c s = some (w, rest)) :
    read .ansiC ('\\'.toUInt8 :: c :: s) = (read .ansiC rest).map (w ++ ·) := by
  have helement : readElement '\\'.toUInt8 (c :: s) = some (w, rest) := h
  rw [read, if_neg (by decide)]
  split
  · rename_i hnone
    exact absurd (helement.symm.trans hnone) (by simp)
  · rename_i w' rest' hsome
    obtain ⟨rfl, rfl⟩ := Prod.mk.inj (Option.some.inj (helement.symm.trans hsome))
    rfl

theorem readEscape_named {c b : UInt8} (h : namedEscape c = some b) (s : Str) :
    readEscape c s = some ([b], s) := by
  rw [readEscape, h]

theorem namedEscape_of_octalDigit {c : UInt8} {d : ℕ} (h : octalDigit c = some d) :
    namedEscape c = none := by
  rw [octalDigit] at h
  split_ifs at h with hrange
  have hne {b : UInt8} (hb : b < '0'.toUInt8 ∨ '7'.toUInt8 < b) : c ≠ b := by
    rintro rfl
    rcases hb with hb | hb
    · exact absurd hrange.1 (UInt8.not_le.mpr hb)
    · exact absurd hrange.2 (UInt8.not_le.mpr hb)
  unfold namedEscape
  split_ifs with h1 h2 h3 h4 h5 h6 h7 h8 h9
  · exact absurd h1 (hne (by decide))
  · exact absurd h2 (hne (by decide))
  · exact absurd h3 (not_or.mpr ⟨hne (by decide), hne (by decide)⟩)
  · exact absurd h4 (hne (by decide))
  · exact absurd h5 (hne (by decide))
  · exact absurd h6 (hne (by decide))
  · exact absurd h7 (hne (by decide))
  · exact absurd h8 (hne (by decide))
  · rcases h9 with h9 | h9 | h9 | h9
    all_goals exact absurd h9 (hne (by decide))
  · rfl

/-- Three octal digits are read as one escape whatever follows them. -/
theorem readEscape_octal {a b c : UInt8} {x y z : ℕ} (ha : octalDigit a = some x)
    (hb : octalDigit b = some y) (hc : octalDigit c = some z) (s : Str) :
    readEscape a (b :: c :: s) = some ([UInt8.ofNat (8 * (8 * x + y) + z)], s) := by
  rw [readEscape, namedEscape_of_octalDigit ha]
  dsimp only
  rw [ha]
  simp only [digits, hb, hc]

end Read

end ShellWord
