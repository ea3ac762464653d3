import Flocate.Lib.Fault
import Flocate.Lib.NulJoin
import Flocate.ParseTrigrams
import Mathlib.Data.List.Infix

/-!
# Needles

How `main` makes a needle of an argument of a search without `--regex`, and when a needle matches.
-/

namespace Flocate

open Bytes Fault

inductive NeedleType where
  | strstr
  | glob
deriving DecidableEq

structure Needle where
  type : NeedleType
  str : Str
deriving DecidableEq

/-- `fnmatch` is the function of the C library under the flags of the search. -/
def «matches» (fnmatch : Str → Str → Bool) (needle : Needle) (haystack : Str) : Bool :=
  match needle.type with
  | .strstr => needle.str <:+: haystack
  | .glob => fnmatch needle.str haystack

def anyWildcard (s : Str) : Bool :=
  if _h : s = [] then false
  else if (readUnigram s).1 = wildcardUnigram then true
  else anyWildcard (s.drop (readUnigram s).2)
termination_by s.length
decreasing_by
  have := readUnigram_pos _h
  have := List.length_pos_iff.mpr _h
  rw [List.length_drop]
  omega

def unescapeGlobToPlainString (s : Str) : Except Fault Str :=
  if _h : s = [] then .ok []
  else if (readUnigram s).1 = wildcardUnigram then .error .assertion
  else if (readUnigram s).1 = prematureEndUnigram then .error (.exit 1)
  else (unescapeGlobToPlainString (s.drop (readUnigram s).2)).map ((readUnigram s).1.toUInt8 :: ·)
termination_by s.length
decreasing_by
  have := readUnigram_pos _h
  have := List.length_pos_iff.mpr _h
  rw [List.length_drop]
  omega

def makeNeedle (ignoreCase : Bool) (arg : Str) : Except Fault Needle :=
  if anyWildcard arg then .ok ⟨.glob, arg⟩
  else if ignoreCase then .ok ⟨.glob, '*'.toUInt8 :: arg ++ ['*'.toUInt8]⟩
  else (unescapeGlobToPlainString arg).map (⟨.strstr, ·⟩)

theorem readClassEnd_fst (len : ℕ) (s : Str) : (readClassEnd len s).1 = wildcardUnigram ∨
    (readClassEnd len s).1 = prematureEndUnigram := by
  induction s generalizing len with
  | nil => exact Or.inr rfl
  | cons c s ih =>
      rw [readClassEnd]
      split
      · exact Or.inl rfl
      · exact ih _

theorem readClass_fst (s : Str) : (readClass s).1 = wildcardUnigram ∨
    (readClass s).1 = prematureEndUnigram := by
  simp only [readClass]
  split_ifs
  all_goals first
    | exact Or.inr rfl
    | exact readClassEnd_fst _ _

/-- A unigram is one byte, plain or escaped, unless it is a wildcard or cut short. -/
theorem readUnigram_cases {s : Str} (hw : (readUnigram s).1 ≠ wildcardUnigram)
    (hp : (readUnigram s).1 ≠ prematureEndUnigram) :
    (∃ c rest, s = c :: rest ∧ c ≠ '\\'.toUInt8 ∧ readUnigram s = (c.toUInt32, 1)) ∨
      ∃ c rest, s = '\\'.toUInt8 :: c :: rest ∧ readUnigram s = (c.toUInt32, 2) := by
  cases s with
  | nil => exact absurd rfl hp
  | cons c s =>
      rw [readUnigram] at hw hp ⊢
      split_ifs at hw hp ⊢ with hb hwild hbr
      · cases s with
        | nil => exact absurd rfl hp
        | cons d s => exact Or.inr ⟨d, s, by rw [hb], rfl⟩
      · exact absurd rfl hw
      · exact absurd ((readClass_fst s).resolve_left hw) hp
      · exact Or.inl ⟨c, s, rfl, hb, rfl⟩

theorem makeNeedle_eq_ok {arg : Str} {needle : Needle} (hw : anyWildcard arg = false)
    (h : makeNeedle false arg = .ok needle) :
    needle.type = .strstr ∧ unescapeGlobToPlainString arg = .ok needle.str := by
  rw [makeNeedle, hw] at h
  obtain ⟨str, hstr, rfl⟩ := map_eq_ok.mp h
  exact ⟨rfl, hstr⟩

/-- Unescaping only drops bytes. -/
theorem mem_of_mem_unescape {s str : Str} (h : unescapeGlobToPlainString s = .ok str) {b : UInt8}
    (hb : b ∈ str) : b ∈ s := by
  induction s using unescapeGlobToPlainString.induct generalizing str with
  | case1 =>
      rw [unescapeGlobToPlainString, dif_pos rfl] at h
      obtain rfl := Except.ok.inj h
      cases hb
  | case2 s hs hw =>
      rw [unescapeGlobToPlainString, dif_neg hs, if_pos hw] at h
      cases h
  | case3 s hs hw hp =>
      rw [unescapeGlobToPlainString, dif_neg hs, if_neg hw, if_pos hp] at h
      cases h
  | case4 s hs hw hp ih =>
      rw [unescapeGlobToPlainString, dif_neg hs, if_neg hw, if_neg hp] at h
      obtain ⟨rest, hrest, rfl⟩ := map_eq_ok.mp h
      rcases List.mem_cons.mp hb with rfl | hb
      · rcases readUnigram_cases hw hp with ⟨c, p, rfl, -, hu⟩ | ⟨c, p, rfl, hu⟩
        · rw [hu]
          simp
        · rw [hu]
          simp
      · exact List.mem_of_mem_drop (ih hrest hb)

end Flocate
