import Flocate.Db

/-!
# Breaking needles down into trigrams

`read_unigram`, `read_trigram` and the case-sensitive part of `parse_trigrams`.
-/

namespace Flocate

open Bytes

/-- One or more trigrams with an implicit OR between them; the debugging index is left out. -/
structure TrigramDisjunction where
  trigramAlternatives : List UInt32
  readTrigrams : List (Trigram × ℕ) := []
  maxNumDocids : UInt32 := 0
  docids : List UInt32 := []
  remainingTrigramsToRead : ℕ
deriving DecidableEq

def wildcardUnigram : UInt32 := 0xFF000000
def prematureEndUnigram : UInt32 := 0xFF000001

/-- `for (;;)` in a character class, `len` bytes into it. -/
def readClassEnd (len : ℕ) : Str → UInt32 × ℕ
  | [] => (prematureEndUnigram, len)
  | c :: s => if c = ']'.toUInt8 then (wildcardUnigram, len + 1) else readClassEnd (len + 1) s

def readClass (s : Str) : UInt32 × ℕ :=
  let len := 1
  if s = [] then (prematureEndUnigram, len)
  else
    let (len, s) := if s.head? = some '!'.toUInt8 then (len + 1, s.tail) else (len, s)
    if s = [] then (prematureEndUnigram, len)
    else
      let (len, s) := if s.head? = some ']'.toUInt8 then (len + 1, s.tail) else (len, s)
      readClassEnd len s

def readEscaped : Str → UInt32 × ℕ
  | [] => (prematureEndUnigram, 1)
  | c :: _ => (c.toUInt32, 2)

def readUnigram : Str → UInt32 × ℕ
  | [] => (prematureEndUnigram, 0)
  | c :: s =>
      if c = '\\'.toUInt8 then readEscaped s
      else if c = '*'.toUInt8 ∨ c = '?'.toUInt8 then (wildcardUnigram, 1)
      else if c = '['.toUInt8 then readClass s
      else (c.toUInt32, 1)

def readTrigram (s : Str) : UInt32 :=
  let u1 := readUnigram s
  if u1.1 = wildcardUnigram ∨ u1.1 = prematureEndUnigram then u1.1
  else
    let u2 := readUnigram (s.drop u1.2)
    if u2.1 = wildcardUnigram ∨ u2.1 = prematureEndUnigram then u2.1
    else
      let u3 := readUnigram (s.drop (u1.2 + u2.2))
      if u3.1 = wildcardUnigram ∨ u3.1 = prematureEndUnigram then u3.1
      else u1.1 ||| u2.1 <<< 8 ||| u3.1 <<< 16

theorem readClassEnd_pos (len : ℕ) (s : Str) : len ≤ (readClassEnd len s).2 := by
  induction s generalizing len with
  | nil => exact Nat.le_refl len
  | cons c s ih =>
      rw [readClassEnd]
      split
      · exact Nat.le_succ len
      · exact (Nat.le_succ len).trans (ih (len + 1))

theorem readClass_pos (s : Str) : 0 < (readClass s).2 := by
  have hend (len : ℕ) (h : 0 < len) (s : Str) : 0 < (readClassEnd len s).2 :=
    h.trans_le (readClassEnd_pos len s)
  simp only [readClass]
  split_ifs
  all_goals first
    | exact Nat.one_pos
    | exact Nat.two_pos
    | exact hend _ (by omega) _

theorem readUnigram_pos {s : Str} (h : s ≠ []) : 0 < (readUnigram s).2 := by
  cases s with
  | nil => exact absurd rfl h
  | cons c s =>
      rw [readUnigram]
      split
      · cases s with
        | nil => exact Nat.one_pos
        | cons d s => exact Nat.two_pos
      · split
        · exact Nat.one_pos
        · split
          · exact readClass_pos s
          · exact Nat.one_pos

def parseTrigrams (s : Str) : List TrigramDisjunction :=
  if _h : s = [] then []
  else
    let trgm := readTrigram s
    let rest := parseTrigrams (s.drop (readUnigram s).2)
    if trgm = wildcardUnigram ∨ trgm = prematureEndUnigram then rest
    else { trigramAlternatives := [trgm], remainingTrigramsToRead := 1 } :: rest
termination_by s.length
decreasing_by
  have := readUnigram_pos _h
  have := List.length_pos_iff.mpr _h
  rw [List.length_drop]
  omega

end Flocate
