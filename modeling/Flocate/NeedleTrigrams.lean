import Flocate.BlockTrigrams
import Flocate.CandidateSoundness
import Flocate.Lib.UniqueSort
import Flocate.Needle

/-!
# The trigrams of a needle

`parse_trigrams` reads a needle as a glob, also where it has been unescaped. The bytes of a trigram
then stand next to each other in the needle, unless its second or third unigram is escaped.
-/

namespace Flocate

open Bytes UniqueSort

inductive UnigramSuffix : Str → Str → Prop
  | refl (s : Str) : UnigramSuffix s s
  | step {s p : Str} (hs : s ≠ []) (h : UnigramSuffix (s.drop (readUnigram s).2) p) :
      UnigramSuffix s p

def IsUnigram (u : UInt32) : Prop := ¬(u = wildcardUnigram ∨ u = prematureEndUnigram)

instance : DecidablePred IsUnigram := fun _ => inferInstanceAs (Decidable (¬_))

/-- The trigram at `p` has a backslash between its first and its last byte. -/
def EscapeInside (p : Str) : Prop :=
  (p.drop (readUnigram p).2).head? = some '\\'.toUInt8 ∨
    (p.drop ((readUnigram p).2 + (readUnigram (p.drop (readUnigram p).2)).2)).head? =
      some '\\'.toUInt8

instance : DecidablePred EscapeInside := fun _ => inferInstanceAs (Decidable (_ ∨ _))

theorem UnigramSuffix.suffix {s p : Str} (h : UnigramSuffix s p) : p <:+ s := by
  induction h with
  | refl s => exact List.suffix_rfl
  | step hs _ ih => exact ih.trans (List.drop_suffix _ _)

theorem mem_parseTrigrams {s : Str} {td : TrigramDisjunction} : td ∈ parseTrigrams s ↔
    ∃ p, UnigramSuffix s p ∧ p ≠ [] ∧ IsUnigram (readTrigram p) ∧
      td = { trigramAlternatives := [readTrigram p], remainingTrigramsToRead := 1 } := by
  induction s using parseTrigrams.induct with
  | case1 =>
      rw [parseTrigrams, dif_pos rfl]
      refine ⟨nofun, ?_⟩
      rintro ⟨p, hp, hne, -, -⟩
      exact absurd (List.suffix_nil.mp hp.suffix) hne
  | case2 s hs trgm hinv ih =>
      rw [parseTrigrams, dif_neg hs]
      rw [if_pos hinv, ih]
      constructor
      · exact fun ⟨p, hp, h⟩ => ⟨p, .step hs hp, h⟩
      · rintro ⟨p, hp, h⟩
        cases hp with
        | refl => exact absurd hinv h.2.1
        | step _ hp => exact ⟨p, hp, h⟩
  | case3 s hs trgm hval ih =>
      rw [parseTrigrams, dif_neg hs]
      rw [if_neg hval, List.mem_cons, ih]
      constructor
      · rintro (rfl | ⟨p, hp, h⟩)
        · exact ⟨s, .refl s, hs, hval, rfl⟩
        · exact ⟨p, .step hs hp, h⟩
      · rintro ⟨p, hp, h⟩
        cases hp with
        | refl => exact Or.inl h.2.2
        | step _ hp => exact Or.inr ⟨p, hp, h⟩

theorem readUnigram_spec {s : Str} (h : IsUnigram (readUnigram s).1) :
    ∃ e c rest, s = e ++ c :: rest ∧ readUnigram s = (c.toUInt32, e.length + 1) ∧
      (s.head? ≠ some '\\'.toUInt8 → e = []) := by
  rw [IsUnigram, not_or] at h
  rcases readUnigram_cases h.1 h.2 with ⟨c, rest, rfl, -, hu⟩ | ⟨c, rest, rfl, hu⟩
  · exact ⟨[], c, rest, rfl, hu, fun _ => rfl⟩
  · exact ⟨['\\'.toUInt8], c, rest, rfl, hu, fun hne => absurd rfl hne⟩

theorem readWindow_eq_or (a b c : UInt8) :
    a.toUInt32 ||| b.toUInt32 <<< 8 ||| c.toUInt32 <<< 16 = readWindow a b c 0 := by
  have ha := a.toNat_lt
  have hb := b.toNat_lt
  have hc := c.toNat_lt
  have h0 : (0 : UInt8).toNat = 0 := rfl
  have hab : a.toNat ||| b.toNat <<< 8 = a.toNat + 256 * b.toNat := by
    rw [Nat.or_comm, Nat.shiftLeft_eq, Nat.mul_comm, ← Nat.two_pow_add_eq_or_of_lt ha, Nat.add_comm]
  have habc : (a.toNat + 256 * b.toNat) ||| c.toNat <<< 16 =
      a.toNat + 256 * b.toNat + 65536 * c.toNat := by
    rw [Nat.or_comm, Nat.shiftLeft_eq, Nat.mul_comm,
      ← Nat.two_pow_add_eq_or_of_lt (by omega), Nat.add_comm]
  rw [← UInt32.toNat_inj, toNat_readWindow, h0, UInt32.toNat_or, UInt32.toNat_or,
    UInt32.toNat_shiftLeft, UInt32.toNat_shiftLeft]
  simp only [UInt8.toNat_toUInt32]
  change a.toNat ||| b.toNat <<< 8 % 2 ^ 32 ||| c.toNat <<< 16 % 2 ^ 32 = _
  rw [Nat.mod_eq_of_lt (by rw [Nat.shiftLeft_eq]; omega),
    Nat.mod_eq_of_lt (by rw [Nat.shiftLeft_eq]; omega), hab, habc]
  omega

theorem readTrigram_spec {p : Str} (h : IsUnigram (readTrigram p)) :
    ∃ a b c, readTrigram p = readWindow a b c 0 ∧ (¬EscapeInside p → [a, b, c] <:+: p) := by
  have h1 : IsUnigram (readUnigram p).1 := fun hn => by
    rw [readTrigram, if_pos hn] at h
    exact h hn
  obtain ⟨e₁, a, rest₁, rfl, hu₁, -⟩ := readUnigram_spec h1
  have hdrop₁ : (e₁ ++ a :: rest₁).drop (e₁.length + 1) = rest₁ := by
    rw [List.drop_append]
    simp
  have h2 : IsUnigram (readUnigram rest₁).1 := fun hn => by
    rw [readTrigram, if_neg h1, hu₁, hdrop₁, if_pos hn] at h
    exact h hn
  obtain ⟨e₂, b, rest₂, rfl, hu₂, he₂⟩ := readUnigram_spec h2
  have hdrop₂ : (e₁ ++ a :: (e₂ ++ b :: rest₂)).drop (e₁.length + 1 + (e₂.length + 1)) = rest₂ := by
    rw [← List.drop_drop, hdrop₁, List.drop_append]
    simp
  have h3 : IsUnigram (readUnigram rest₂).1 := fun hn => by
    rw [readTrigram, if_neg h1, hu₁, hdrop₁, if_neg h2, hu₂, hdrop₂, if_pos hn] at h
    exact h hn
  obtain ⟨e₃, c, rest₃, rfl, hu₃, he₃⟩ := readUnigram_spec h3
  refine ⟨a, b, c, ?_, fun hesc => ?_⟩
  · rw [readTrigram, if_neg h1, hu₁, hdrop₁, if_neg h2, hu₂, hdrop₂, if_neg h3, hu₃]
    exact readWindow_eq_or a b c
  · rw [EscapeInside, hu₁, hdrop₁, hu₂, hdrop₂, not_or] at hesc
    rw [he₂ hesc.1, he₃ hesc.2]
    exact ⟨e₁, rest₃, by simp⟩

/-- The groups that the needles ask for; the debugging index is left out. -/
def trigramGroups (needles : List Needle) : List TrigramDisjunction :=
  uniqueSort (·.trigramAlternatives)
    (fun a b => !decide (b.trigramAlternatives < a.trigramAlternatives))
    (needles.flatMap fun needle => parseTrigrams needle.str)

theorem exists_of_mem_trigramGroups {needles : List Needle} {td : TrigramDisjunction}
    (h : td ∈ trigramGroups needles) :
    ∃ needle ∈ needles, ∃ p, UnigramSuffix needle.str p ∧ IsUnigram (readTrigram p) ∧
      td = { trigramAlternatives := [readTrigram p], remainingTrigramsToRead := 1 } := by
  obtain ⟨needle, hneedle, htd⟩ := List.mem_flatMap.mp (mem_of_mem_uniqueSort _ h)
  obtain ⟨p, hp, -, hval, rfl⟩ := mem_parseTrigrams.mp htd
  exact ⟨needle, hneedle, p, hp, hval, rfl⟩

theorem exists_mem_trigramGroups {needles : List Needle} {needle : Needle}
    (hneedle : needle ∈ needles) {p : Str} (hp : UnigramSuffix needle.str p)
    (hval : IsUnigram (readTrigram p)) :
    ∃ td ∈ trigramGroups needles, td.trigramAlternatives = [readTrigram p] := by
  have hne : p ≠ [] := by
    rintro rfl
    exact absurd hval (by decide)
  have hmem : { trigramAlternatives := [readTrigram p], remainingTrigramsToRead := 1 } ∈
      needles.flatMap fun needle => parseTrigrams needle.str :=
    List.mem_flatMap.mpr ⟨needle, hneedle, mem_parseTrigrams.mpr ⟨p, hp, hne, hval, rfl⟩⟩
  exact exists_mem_uniqueSort TrigramDisjunction.trigramAlternatives _ hmem

theorem trigramGroups_fresh {needles : List Needle} {td : TrigramDisjunction}
    (h : td ∈ trigramGroups needles) : td.Fresh := by
  obtain ⟨-, -, p, -, -, rfl⟩ := exists_of_mem_trigramGroups h
  exact ⟨List.cons_ne_nil _ _, List.nodup_singleton _, rfl, rfl, rfl⟩

end Flocate
