import Flocate.Lib.ShellWord

/-!
# String literals of JSON

Bytes other than quotes and backslashes stand for themselves. A piece of a literal is inert if it
neither ends the literal nor leaves an escape open.
-/

namespace JsonString

open Bytes

def escapedByte (e : UInt8) : Option UInt8 :=
  if e = '"'.toUInt8 ∨ e = '\\'.toUInt8 then some e
  else if e = 'n'.toUInt8 then some 10
  else if e = 'r'.toUInt8 then some 13
  else if e = 't'.toUInt8 then some 9
  else none

/-- The byte of `00XX` after `\u`, and what follows. -/
def readCodeUnit : Str → Option (UInt8 × Str)
  | a :: b :: h :: l :: rest =>
      if a = '0'.toUInt8 ∧ b = '0'.toUInt8 then
        match ShellWord.hexDigit h, ShellWord.hexDigit l with
        | some h, some l => some (UInt8.ofNat (16 * h + l), rest)
        | _, _ => none
      else none
  | _ => none

theorem readCodeUnit_length {s rest : Str} {c : UInt8} (h : readCodeUnit s = some (c, rest)) :
    rest.length < s.length := by
  unfold readCodeUnit at h
  split at h
  · split at h
    · split at h
      · obtain ⟨-, rfl⟩ := Prod.mk.inj (Option.some.inj h)
        simp only [List.length_cons]
        omega
      · cases h
    · cases h
  · cases h

def readBody (s : Str) : Option (Str × Str) :=
  match s with
  | [] => none
  | c :: rest =>
      if c = '"'.toUInt8 then some ([], rest)
      else if c = '\\'.toUInt8 then
        match rest with
        | [] => none
        | e :: rest =>
            if e = 'u'.toUInt8 then
              match _h : readCodeUnit rest with
              | none => none
              | some (c, rest) => (readBody rest).map fun p => (c :: p.1, p.2)
            else
              match escapedByte e with
              | none => none
              | some c => (readBody rest).map fun p => (c :: p.1, p.2)
      else (readBody rest).map fun p => (c :: p.1, p.2)
termination_by s.length
decreasing_by
  · have := readCodeUnit_length _h
    simp only [List.length_cons]
    omega
  · simp only [List.length_cons]
    omega
  · simp only [List.length_cons]
    omega

def read : Str → Option (Str × Str)
  | [] => none
  | c :: rest => if c = '"'.toUInt8 then readBody rest else none

/-- The places of the quotes that no backslash escapes. -/
def unescapedQuotes (i : ℕ) (s : Str) : List ℕ :=
  match s with
  | [] => []
  | c :: rest =>
      if c = '\\'.toUInt8 then
        match rest with
        | [] => []
        | _ :: rest => unescapedQuotes (i + 2) rest
      else if c = '"'.toUInt8 then i :: unescapedQuotes (i + 1) rest
      else unescapedQuotes (i + 1) rest

/-- A text without what is inside of its literals. -/
def skeleton (inside : Bool) (s : Str) : Str :=
  match s with
  | [] => []
  | c :: rest =>
      if inside ∧ c = '\\'.toUInt8 then
        match rest with
        | [] => []
        | _ :: rest => skeleton true rest
      else if c = '"'.toUInt8 then c :: skeleton (!inside) rest
      else if inside then skeleton true rest
      else c :: skeleton false rest

inductive Inert : Str → Prop
  | nil : Inert []
  | plain {c : UInt8} {rest : Str} (hquote : c ≠ '"'.toUInt8) (hslash : c ≠ '\\'.toUInt8)
      (h : Inert rest) : Inert (c :: rest)
  | escaped {e : UInt8} {rest : Str} (h : Inert rest) : Inert ('\\'.toUInt8 :: e :: rest)

theorem Inert.append {s t : Str} (hs : Inert s) (ht : Inert t) : Inert (s ++ t) := by
  induction hs with
  | nil => exact ht
  | plain hquote hslash _ ih => exact .plain hquote hslash ih
  | escaped _ ih => exact .escaped ih

section Equations

variable {c : UInt8} (rest : Str)

theorem unescapedQuotes_plain (i : ℕ) (hquote : c ≠ '"'.toUInt8) (hslash : c ≠ '\\'.toUInt8) :
    unescapedQuotes i (c :: rest) = unescapedQuotes (i + 1) rest := by
  rw [unescapedQuotes.eq_def]
  exact (if_neg hslash).trans (if_neg hquote)

theorem unescapedQuotes_quote (i : ℕ) :
    unescapedQuotes i ('"'.toUInt8 :: rest) = i :: unescapedQuotes (i + 1) rest := by
  rw [unescapedQuotes.eq_def]
  exact (if_neg (by decide)).trans (if_pos rfl)

theorem skeleton_outside (hquote : c ≠ '"'.toUInt8) :
    skeleton false (c :: rest) = c :: skeleton false rest := by
  rw [skeleton.eq_def]
  exact (if_neg fun h => Bool.false_ne_true h.1).trans ((if_neg hquote).trans (if_neg nofun))

theorem skeleton_quote (inside : Bool) :
    skeleton inside ('"'.toUInt8 :: rest) = '"'.toUInt8 :: skeleton (!inside) rest := by
  rw [skeleton.eq_def]
  exact (if_neg fun h => absurd h.2 (by decide)).trans (if_pos rfl)

theorem skeleton_inside (hquote : c ≠ '"'.toUInt8) (hslash : c ≠ '\\'.toUInt8) :
    skeleton true (c :: rest) = skeleton true rest := by
  rw [skeleton.eq_def]
  exact (if_neg fun h => hslash h.2).trans ((if_neg hquote).trans (if_pos rfl))

theorem readBody_quote : readBody ('"'.toUInt8 :: rest) = some ([], rest) := by
  rw [readBody.eq_def]
  exact if_pos rfl

theorem readBody_plain (hquote : c ≠ '"'.toUInt8) (hslash : c ≠ '\\'.toUInt8) :
    readBody (c :: rest) = (readBody rest).map fun p => (c :: p.1, p.2) := by
  rw [readBody.eq_def]
  exact (if_neg hquote).trans (if_neg hslash)

theorem readBody_escaped {e : UInt8} (he : e ≠ 'u'.toUInt8) (hc : escapedByte e = some c) :
    readBody ('\\'.toUInt8 :: e :: rest) = (readBody rest).map fun p => (c :: p.1, p.2) := by
  rw [readBody, if_neg (by decide), if_pos rfl, if_neg he, hc]

theorem readBody_codeUnit {s : Str} (h : readCodeUnit s = some (c, rest)) :
    readBody ('\\'.toUInt8 :: 'u'.toUInt8 :: s) =
      (readBody rest).map fun p => (c :: p.1, p.2) := by
  rw [readBody, if_neg (by decide), if_pos rfl, if_pos rfl]
  split
  · rename_i hnone
    rw [hnone] at h
    cases h
  · rename_i hsome
    rw [hsome] at h
    obtain ⟨rfl, rfl⟩ := Prod.mk.inj (Option.some.inj h)
    rfl

end Equations

section Literals

variable {s : Str} (h : Inert s) (rest : Str)

include h

theorem Inert.unescapedQuotes (i : ℕ) :
    unescapedQuotes i (s ++ rest) = JsonString.unescapedQuotes (i + s.length) rest := by
  induction h generalizing i with
  | nil => rfl
  | plain hquote hslash _ ih =>
      rw [List.cons_append, unescapedQuotes_plain _ i hquote hslash, ih, List.length_cons,
        Nat.add_assoc, Nat.add_comm 1]
  | @escaped e t _ ih =>
      have hplace : i + ('\\'.toUInt8 :: e :: t).length = i + 2 + t.length := by
        rw [List.length_cons, List.length_cons]
        omega
      rw [hplace]
      exact ih (i + 2)

theorem Inert.skeleton : skeleton true (s ++ rest) = JsonString.skeleton true rest := by
  induction h with
  | nil => rfl
  | plain hquote hslash _ ih => rw [List.cons_append, skeleton_inside _ hquote hslash, ih]
  | escaped _ ih => exact ih

/-- A literal leaves its quotes. -/
theorem Inert.skeleton_literal :
    JsonString.skeleton false ('"'.toUInt8 :: (s ++ '"'.toUInt8 :: rest)) =
      '"'.toUInt8 :: '"'.toUInt8 :: JsonString.skeleton false rest := by
  rw [skeleton_quote, Bool.not_false, h.skeleton, skeleton_quote, Bool.not_true]

end Literals

end JsonString
