import Flocate.CaseTrigrams
import Flocate.Lib.Utf8

/-!
# The spellings of a needle

A file name that matches a needle in some case has one of the spellings that
`parse_trigrams_ignore_case` goes through, and the trigrams of a spelling are in the file name.
-/

namespace Flocate

open Bytes Fault UniqueSort

section Spelled

/-- The file name has the bytes of the pattern, where brackets are bytes like others. -/
inductive Spelled : Str → Str → Prop
  | nil : Spelled [] []
  | byte {c : UInt8} {p s : Str} (hc : c ≠ '\\'.toUInt8) (h : Spelled p s) :
      Spelled (c :: p) (c :: s)
  | escaped {c : UInt8} {p s : Str} (h : Spelled p s) : Spelled ('\\'.toUInt8 :: c :: p) (c :: s)
  | wildcard {c : UInt8} {p s : Str} (t : Str) (hc : c = '*'.toUInt8 ∨ c = '?'.toUInt8)
      (h : Spelled p s) : Spelled (c :: p) (t ++ s)

theorem Spelled.append {b p s : Str} (hb : '\\'.toUInt8 ∉ b) (h : Spelled p s) :
    Spelled (b ++ p) (b ++ s) := by
  induction b with
  | nil => exact h
  | cons c b ih =>
      rw [List.mem_cons, not_or] at hb
      exact .byte (Ne.symm hb.1) (ih hb.2)

theorem Spelled.tail {c : UInt8} {p s : Str} (hc : c ≠ '\\'.toUInt8) (h : Spelled (c :: p) s) :
    ∃ s', s' <:+ s ∧ Spelled p s' := by
  cases h with
  | byte _ h => exact ⟨_, List.suffix_cons _ _, h⟩
  | escaped _ => exact absurd rfl hc
  | wildcard t _ h => exact ⟨_, List.suffix_append _ _, h⟩

theorem Spelled.after_first {u v s : Str} (h : Spelled (u ++ ']'.toUInt8 :: v) s)
    (hu : ']'.toUInt8 ∉ u) : ∃ s', s' <:+ s ∧ Spelled v s' := by
  generalize hp : u ++ ']'.toUInt8 :: v = p at h
  induction h generalizing u with
  | nil => simp at hp
  | byte hc h ih =>
      cases u with
      | nil =>
          obtain ⟨rfl, rfl⟩ := List.cons.inj hp
          exact ⟨_, List.suffix_cons _ _, h⟩
      | cons d u =>
          obtain ⟨-, hp⟩ := List.cons.inj hp
          obtain ⟨s', hs', h'⟩ := ih (fun hmem => hu (List.mem_cons_of_mem _ hmem)) hp
          exact ⟨s', hs'.trans (List.suffix_cons _ _), h'⟩
  | escaped h ih =>
      cases u with
      | nil =>
          obtain ⟨hbad, -⟩ := List.cons.inj hp
          exact absurd hbad (by decide)
      | cons d u =>
          obtain ⟨-, hp⟩ := List.cons.inj hp
          cases u with
          | nil =>
              obtain ⟨rfl, rfl⟩ := List.cons.inj hp
              exact ⟨_, List.suffix_cons _ _, h⟩
          | cons e u =>
              obtain ⟨-, hp⟩ := List.cons.inj hp
              obtain ⟨s', hs', h'⟩ := ih
                (fun hmem => hu (List.mem_cons_of_mem _ (List.mem_cons_of_mem _ hmem))) hp
              exact ⟨s', hs'.trans (List.suffix_cons _ _), h'⟩
  | wildcard t hc h ih =>
      cases u with
      | nil =>
          obtain ⟨rfl, -⟩ := List.cons.inj hp
          exact absurd hc (by decide)
      | cons d u =>
          obtain ⟨-, hp⟩ := List.cons.inj hp
          obtain ⟨s', hs', h'⟩ := ih (fun hmem => hu (List.mem_cons_of_mem _ hmem)) hp
          exact ⟨s', hs'.trans (List.suffix_append _ _), h'⟩

theorem Spelled.bracketBody {p s : Str} (h : Spelled p s) :
    ∃ s', s' <:+ s ∧ Spelled (Fnmatch.bracketBody p) s' := by
  have hskip {c : UInt8} (hc : c ≠ '\\'.toUInt8) {p s : Str} (h : Spelled p s) :
      ∃ s', s' <:+ s ∧ Spelled (if p.head? = some c then p.tail else p) s' := by
    split_ifs with hhead
    · obtain ⟨q, rfl⟩ := List.head?_eq_some_iff.mp hhead
      exact h.tail hc
    · exact ⟨s, List.suffix_rfl, h⟩
  obtain ⟨s', hs', h'⟩ := hskip (c := '!'.toUInt8) (by decide) h
  obtain ⟨s'', hs'', h''⟩ := hskip (c := ']'.toUInt8) (by decide) h'
  exact ⟨s'', hs''.trans hs', h''⟩

/-- What `read_unigram` skips spells a part of the file name. -/
theorem Spelled.drop_readUnigram {p s : Str} (h : Spelled p s) :
    ∃ s', s' <:+ s ∧ Spelled (p.drop (readUnigram p).2) s' := by
  cases h with
  | nil => exact ⟨[], List.suffix_rfl, .nil⟩
  | @byte c p s hc h =>
      by_cases hbr : c = '['.toUInt8
      · subst hbr
        have hpos := readClass_pos p
        obtain ⟨k, hk⟩ := Nat.exists_eq_succ_of_ne_zero hpos.ne'
        have hend := drop_readClass p
        rw [hk, Nat.succ_sub_one] at hend
        rw [readUnigram_bracket, hk, List.drop_succ_cons]
        rcases hend with ⟨u, v, hbody, hu, hdrop⟩ | ⟨-, hdrop⟩
        · obtain ⟨s', hs', h'⟩ := h.bracketBody
          rw [hbody] at h'
          obtain ⟨s'', hs'', h''⟩ := h'.after_first hu
          rw [hdrop]
          exact ⟨s'', (hs''.trans hs').trans (List.suffix_cons _ _), h''⟩
        · rw [hdrop]
          exact ⟨[], List.nil_suffix, .nil⟩
      · have hone : (readUnigram (c :: p)).2 = 1 := by
          rw [readUnigram, if_neg hc, if_neg hbr]
          split_ifs
          all_goals rfl
        rw [hone]
        exact ⟨s, List.suffix_cons _ _, h⟩
  | escaped h => exact ⟨_, List.suffix_cons _ _, h⟩
  | @wildcard c p s t hc h =>
      have hone : (readUnigram (c :: p)).2 = 1 := by
        rcases hc with rfl | rfl
        all_goals rfl
      rw [hone]
      exact ⟨s, List.suffix_append _ _, h⟩

theorem Spelled.unigramSuffix {p q s : Str} (h : Spelled p s) (hq : UnigramSuffix p q) :
    ∃ s', s' <:+ s ∧ Spelled q s' := by
  induction hq generalizing s with
  | refl p => exact ⟨s, List.suffix_rfl, h⟩
  | step _ _ ih =>
      obtain ⟨s', hs', h'⟩ := h.drop_readUnigram
      obtain ⟨s'', hs'', h''⟩ := ih h'
      exact ⟨s'', hs''.trans hs', h''⟩

theorem Spelled.of_isUnigram {p s : Str} (h : Spelled p s) (hu : IsUnigram (readUnigram p).1) :
    ∃ c n s', readUnigram p = (c.toUInt32, n) ∧ s = c :: s' ∧ Spelled (p.drop n) s' := by
  obtain ⟨hw, hp⟩ := not_or.mp hu
  rcases readUnigram_cases hw hp with ⟨c, rest, rfl, hc, heq⟩ | ⟨c, rest, rfl, heq⟩
  · cases h with
    | byte _ h => exact ⟨c, 1, _, heq, rfl, h⟩
    | escaped _ => exact absurd rfl hc
    | wildcard t hc h =>
        rcases hc with rfl | rfl
        all_goals exact absurd rfl hw
  · cases h with
    | byte hc _ => exact absurd rfl hc
    | escaped h => exact ⟨c, 2, _, heq, rfl, h⟩
    | wildcard t hc _ => exact absurd hc (by decide)

theorem Spelled.trigram {p s : Str} (h : Spelled p s) (ht : IsUnigram (readTrigram p)) :
    trigramBytes (readTrigram p) <:+: s := by
  have h₁ : IsUnigram (readUnigram p).1 := fun hn => by
    rw [readTrigram, if_pos hn] at ht
    exact ht hn
  obtain ⟨a, n₁, s₁, hu₁, rfl, hs₁⟩ := h.of_isUnigram h₁
  have h₂ : IsUnigram (readUnigram (p.drop n₁)).1 := fun hn => by
    rw [readTrigram, if_neg h₁, hu₁, if_pos hn] at ht
    exact ht hn
  obtain ⟨b, n₂, s₂, hu₂, rfl, hs₂⟩ := hs₁.of_isUnigram h₂
  rw [List.drop_drop] at hs₂
  have h₃ : IsUnigram (readUnigram (p.drop (n₁ + n₂))).1 := fun hn => by
    rw [readTrigram, if_neg h₁, hu₁, if_neg h₂, hu₂, if_pos hn] at ht
    exact ht hn
  obtain ⟨c, n₃, s₃, hu₃, rfl, -⟩ := hs₂.of_isUnigram h₃
  have heq : readTrigram p = readWindow a b c 0 := by
    rw [readTrigram, if_neg h₁, hu₁, if_neg h₂, hu₂, if_neg h₃, hu₃]
    exact readWindow_eq_or a b c
  rw [heq, trigramBytes_readWindow]
  exact ⟨[], s₃, rfl⟩

end Spelled

namespace WideCharacters

variable {ω : Type} [DecidableEq ω] (L : WideCharacters ω)

inductive Decodes : Str → List (ω × Str) → Prop
  | nil : Decodes [] []
  | cons {s : Str} {ch : ω} {ret : ℕ} {chars : List (ω × Str)} (hne : s ≠ [])
      (hch : L.mbtowc s = some (ch, ret)) (h : Decodes (s.drop ret) chars) :
      Decodes s ((ch, s.take ret) :: chars)

def IsCaseForm (form : Str) (c : ω × Str) : Prop :=
  form = c.2 ∨ L.towlower c.1 ≠ c.1 ∧ L.wctomb (L.towlower c.1) = some form ∨
    L.towupper c.1 ≠ c.1 ∧ L.wctomb (L.towupper c.1) = some form

/-- The file name matches the characters as a glob without brackets, each literal in some case. -/
inductive Matches : List (ω × Str) → Str → Prop
  | nil : Matches [] []
  | literal {c : ω × Str} {chars : List (ω × Str)} {form s : Str} (hesc : c.2 ≠ ['\\'.toUInt8])
      (hwild : c.2 ≠ ['*'.toUInt8] ∧ c.2 ≠ ['?'.toUInt8]) (hbracket : c.2 ≠ ['['.toUInt8])
      (hform : L.IsCaseForm form c) (h : Matches chars s) : Matches (c :: chars) (form ++ s)
  | escaped {esc c : ω × Str} {chars : List (ω × Str)} {form s : Str}
      (hesc : esc.2 = ['\\'.toUInt8]) (hform : L.IsCaseForm form c) (h : Matches chars s) :
      Matches (esc :: c :: chars) (form ++ s)
  | star {c : ω × Str} {chars : List (ω × Str)} {s : Str} (t : Str) (hc : c.2 = ['*'.toUInt8])
      (h : Matches chars s) : Matches (c :: chars) (t ++ s)
  | any {c : ω × Str} {chars : List (ω × Str)} {one : ω} {t s : Str} (hc : c.2 = ['?'.toUInt8])
      (hone : L.mbtowc (t ++ s) = some (one, t.length)) (h : Matches chars s) :
      Matches (c :: chars) (t ++ s)

/-- Only a backslash has a backslash as one of its forms. -/
def BackslashAlone : Prop :=
  ∀ s ch ret, L.mbtowc s = some (ch, ret) → s.take ret ≠ ['\\'.toUInt8] →
    L.wctomb (L.towlower ch) ≠ some ['\\'.toUInt8] ∧
      L.wctomb (L.towupper ch) ≠ some ['\\'.toUInt8]

/-- The encoding has the forms of the characters. -/
def EncodesForms (chars : List (ω × Str)) : Prop :=
  ∀ c ∈ chars, ∀ form ∈ [L.towlower c.1, L.towupper c.1], form ≠ c.1 → L.wctomb form ≠ none

/-- The loops end, and every group has a trigram of every file name that matches the needle. -/
def TrigramsFound (needle : Str) (chars : List (ω × Str)) : Prop :=
  (∃ fuel groups, L.parseTrigramsIgnoreCase fuel needle = some (.ok groups)) ∧
    ∀ fuel groups, L.parseTrigramsIgnoreCase fuel needle = some (.ok groups) →
      ∀ filename, L.Matches chars filename →
        ∀ td ∈ groups, ∃ t ∈ td.trigramAlternatives, trigramBytes t <:+: filename

/-- The alternatives for a character whose forms the encoding has. -/
def spellings (c : ω × Str) : List Str :=
  c.2 :: ((if L.towlower c.1 ≠ c.1 then (L.wctomb (L.towlower c.1)).toList else []) ++
    if L.towupper c.1 ≠ c.1 ∧ L.towupper c.1 ≠ L.towlower c.1 then
      (L.wctomb (L.towupper c.1)).toList
    else [])

variable {L} {needle form : Str} {chars : List (ω × Str)} {c : ω × Str}

omit [DecidableEq ω] in
theorem encodedIf_eq {p : Prop} [Decidable p] {ch : ω} (h : p → L.wctomb ch ≠ none) :
    L.encodedIf p ch = .ok (if p then (L.wctomb ch).toList else []) := by
  rw [encodedIf]
  split_ifs with hp
  · obtain ⟨bytes, hbytes⟩ := Option.ne_none_iff_exists'.mp (h hp)
    rw [encoded, hbytes]
    rfl
  · rfl

theorem alternatives_eq
    (h : ∀ form ∈ [L.towlower c.1, L.towupper c.1], form ≠ c.1 → L.wctomb form ≠ none) :
    L.alternatives c.2 c.1 = .ok (L.spellings c) := by
  rw [List.forall_mem_cons, List.forall_mem_singleton] at h
  rw [alternatives, encodedIf_eq h.1, encodedIf_eq fun hne => h.2 hne.1]
  rfl

theorem mem_spellings (h : L.IsCaseForm form c) : form ∈ L.spellings c := by
  rw [spellings, List.mem_cons, List.mem_append]
  rcases h with rfl | ⟨hne, hform⟩ | ⟨hne, hform⟩
  · exact Or.inl rfl
  · rw [if_pos hne]
    exact Or.inr (Or.inl (Option.mem_toList.mpr hform))
  · by_cases hsame : L.towupper c.1 = L.towlower c.1
    · rw [hsame] at hne hform
      rw [if_pos hne]
      exact Or.inr (Or.inl (Option.mem_toList.mpr hform))
    · rw [if_pos (show _ ∧ _ from ⟨hne, hsame⟩)]
      exact Or.inr (Or.inr (Option.mem_toList.mpr hform))

theorem alternativesForCp_eq (hneedle : L.Decodes needle chars) (hforms : L.EncodesForms chars) :
    L.alternativesForCp needle = .ok (chars.map L.spellings) := by
  induction hneedle with
  | nil =>
      rw [alternativesForCp, dif_pos rfl]
      rfl
  | @cons s ch ret chars hne hch _ ih =>
      rw [EncodesForms, List.forall_mem_cons] at hforms
      rw [alternativesForCp, dif_neg hne]
      split
      · rename_i heq
        rw [hch] at heq
        cases heq
      · rename_i heq
        rw [hch] at heq
        obtain ⟨rfl, rfl⟩ := Prod.mk.inj (Option.some.inj heq)
        rw [alternatives_eq (c := (ch, s.take ret)) hforms.1, ih hforms.2]
        rfl

theorem fewAlternatives (chars : List (ω × Str)) :
    FewAlternatives (chars.map L.spellings) := by
  have hlength (o : Option Str) : o.toList.length ≤ 1 := by
    cases o
    · exact Nat.zero_le _
    · exact le_rfl
  intro runes hrunes
  obtain ⟨c, -, rfl⟩ := List.mem_map.mp hrunes
  refine ⟨List.cons_ne_nil _ _, ?_⟩
  have hlower := hlength (L.wctomb (L.towlower c.1))
  have hupper := hlength (L.wctomb (L.towupper c.1))
  have hnil : ([] : List Str).length = 0 := rfl
  rw [spellings, List.length_cons, List.length_append]
  split_ifs
  all_goals omega

omit [DecidableEq ω] in
/-- A form of a character has a backslash only if it is a backslash. -/
theorem backslash_of_mem (hneedle : L.Decodes needle chars) (hc : c ∈ chars)
    (hform : L.IsCaseForm form c) (hmem : '\\'.toUInt8 ∈ form) : form = ['\\'.toUInt8] := by
  rcases hform with rfl | ⟨-, hform⟩ | ⟨-, hform⟩
  · induction hneedle with
    | nil => cases hc
    | cons _ hch _ ih =>
        rcases List.mem_cons.mp hc with rfl | hc
        · exact L.mbtowc_backslash hch hmem
        · exact ih hc
  all_goals exact L.wctomb_backslash hform hmem

omit [DecidableEq ω] in
theorem form_ne_backslash (hback : L.BackslashAlone) (hneedle : L.Decodes needle chars)
    (hc : c ∈ chars) (hesc : c.2 ≠ ['\\'.toUInt8]) (hform : L.IsCaseForm form c) :
    form ≠ ['\\'.toUInt8] := by
  induction hneedle with
  | nil => cases hc
  | @cons s ch ret chars _ hch _ ih =>
      rcases List.mem_cons.mp hc with rfl | hc
      · obtain ⟨hlower, hupper⟩ := hback s ch ret hch hesc
        rintro rfl
        rcases hform with heq | ⟨-, hform⟩ | ⟨-, hform⟩
        · exact hesc heq.symm
        · exact hlower hform
        · exact hupper hform
      · exact ih hc

omit [DecidableEq ω] in
theorem form_ne_nil (hneedle : L.Decodes needle chars) (hc : c ∈ chars)
    (hform : L.IsCaseForm form c) : form ≠ [] := by
  rcases hform with rfl | ⟨-, hform⟩ | ⟨-, hform⟩
  · induction hneedle with
    | nil => cases hc
    | @cons s ch ret chars hne hch _ ih =>
        rcases List.mem_cons.mp hc with rfl | hc
        · refine List.ne_nil_of_length_pos ?_
          have hpos := L.mbtowc_pos hch
          have hlen := List.length_pos_iff.mpr hne
          rw [List.length_take]
          omega
        · exact ih hc
  all_goals exact L.wctomb_ne_nil hform

/-- What matches a needle has one of its spellings. -/
theorem exists_spelling (hback : L.BackslashAlone) (hneedle : L.Decodes needle chars)
    {cs : List (ω × Str)} (hcs : ∀ c ∈ cs, c ∈ chars) {s : Str} (h : L.Matches cs s) :
    ∃ spelling, List.Forall₂ (· ∈ ·) spelling (cs.map L.spellings) ∧
      Spelled spelling.flatten s := by
  have hself (c : ω × Str) : c.2 ∈ L.spellings c := mem_spellings (Or.inl rfl)
  induction h with
  | nil => exact ⟨[], .nil, .nil⟩
  | @literal c cs form s hesc _ _ hform _ ih =>
      rw [List.forall_mem_cons] at hcs
      obtain ⟨spelling, hspell, hs⟩ := ih hcs.2
      refine ⟨form :: spelling, .cons (mem_spellings hform) hspell, hs.append fun hmem => ?_⟩
      exact form_ne_backslash hback hneedle hcs.1 hesc hform
        (backslash_of_mem hneedle hcs.1 hform hmem)
  | @escaped esc c cs form s hesc hform _ ih =>
      rw [List.forall_mem_cons, List.forall_mem_cons] at hcs
      obtain ⟨spelling, hspell, hs⟩ := ih hcs.2.2
      refine ⟨esc.2 :: form :: spelling, .cons (hself esc) (.cons (mem_spellings hform) hspell), ?_⟩
      rw [List.flatten_cons, List.flatten_cons, hesc]
      cases hbytes : form with
      | nil => exact absurd hbytes (form_ne_nil hneedle hcs.2.1 hform)
      | cons d b =>
          refine .escaped (hs.append fun hmem => ?_)
          have hmem' : '\\'.toUInt8 ∈ form := hbytes ▸ List.mem_cons_of_mem _ hmem
          rw [backslash_of_mem hneedle hcs.2.1 hform hmem'] at hbytes
          obtain ⟨-, rfl⟩ := List.cons.inj hbytes
          cases hmem
  | @star c cs s t hc _ ih =>
      rw [List.forall_mem_cons] at hcs
      obtain ⟨spelling, hspell, hs⟩ := ih hcs.2
      refine ⟨c.2 :: spelling, .cons (hself c) hspell, ?_⟩
      rw [List.flatten_cons, hc]
      exact .wildcard t (Or.inl rfl) hs
  | @any c cs one t s hc _ _ ih =>
      rw [List.forall_mem_cons] at hcs
      obtain ⟨spelling, hspell, hs⟩ := ih hcs.2
      refine ⟨c.2 :: spelling, .cons (hself c) hspell, ?_⟩
      rw [List.flatten_cons, hc]
      exact .wildcard t (Or.inr rfl) hs

/-- The groups of a needle are those of all its spellings. -/
theorem trigramsFound (hback : L.BackslashAlone) (hneedle : L.Decodes needle chars)
    (hforms : L.EncodesForms chars) : L.TrigramsFound needle chars := by
  have hparse (fuel : ℕ) : L.parseTrigramsIgnoreCase fuel needle =
      generateTrigrams (chars.map L.spellings) fuel [⟨[], 0⟩] [] := by
    rw [parseTrigramsIgnoreCase, alternativesForCp_eq hneedle hforms]
  refine ⟨?_, fun fuel groups h filename hmatch td htd => ?_⟩
  · obtain ⟨groups, hgroups⟩ := exists_generateTrigrams (fewAlternatives chars)
      (List.cons_ne_nil (⟨[], 0⟩ : TrigramState) []) (Nat.lt_succ_self _) []
    exact ⟨_, groups, (hparse _).trans hgroups⟩
  · rw [hparse] at h
    obtain ⟨spelling, hspell, hs⟩ := exists_spelling hback hneedle (fun _ hc => hc) hmatch
    have hstart : (⟨[], 0⟩ : TrigramState).Follows spelling := .refl _
    obtain ⟨p, hp, hval, hmem⟩ := generateTrigrams_hits hspell h ⟨_, List.mem_cons_self, hstart⟩
      (List.forall_mem_nil _) td htd
    obtain ⟨s', hs', hspelled⟩ := hs.unigramSuffix hp
    exact ⟨_, hmem, (hspelled.trigram hval).trans hs'.isInfix⟩

def singleByte (towlower towupper : UInt8 → UInt8) : WideCharacters UInt8 where
  mbtowc s := s.head?.map (·, 1)
  wctomb ch := some [ch]
  towlower := towlower
  towupper := towupper
  mbtowc_pos h := by
    obtain ⟨_, -, heq⟩ := Option.map_eq_some_iff.mp h
    obtain ⟨-, rfl⟩ := Prod.mk.inj heq
    exact Nat.one_pos
  mbtowc_backslash h hmem := by
    obtain ⟨ch, hhead, heq⟩ := Option.map_eq_some_iff.mp h
    obtain ⟨-, rfl⟩ := Prod.mk.inj heq
    obtain ⟨s, rfl⟩ := List.head?_eq_some_iff.mp hhead
    exact congrArg (fun c => [c]) (List.mem_singleton.mp hmem).symm
  wctomb_ne_nil h := by
    obtain rfl := Option.some.inj h
    exact List.cons_ne_nil _ _
  wctomb_backslash h hmem := by
    obtain rfl := Option.some.inj h
    exact congrArg (fun c => [c]) (List.mem_singleton.mp hmem).symm

/-- Every byte string is a needle. -/
theorem decodes_singleByte (towlower towupper : UInt8 → UInt8) (needle : Str) :
    (singleByte towlower towupper).Decodes needle (needle.map fun ch => (ch, [ch])) := by
  induction needle with
  | nil => exact .nil
  | cons ch needle ih =>
      have hfirst : (singleByte towlower towupper).mbtowc (ch :: needle) = some (ch, 1) := rfl
      exact .cons (List.cons_ne_nil ch needle) hfirst ih

theorem utf8_backslash {ch : Char} (h : '\\'.toUInt8 ∈ String.utf8EncodeChar ch) :
    String.utf8EncodeChar ch = ['\\'.toUInt8] := by
  rcases Utf8.utf8EncodeChar_ascii_or ch with ⟨-, hbytes⟩ | ⟨-, hbytes⟩
  · rw [hbytes] at h ⊢
    rw [List.mem_singleton.mp h]
  · exact absurd (hbytes _ h) (by decide)

def utf8 (towlower towupper : Char → Char) : WideCharacters Char where
  mbtowc s := (Utf8.decode s).map fun ch => (ch, ch.utf8Size)
  wctomb ch := some (String.utf8EncodeChar ch)
  towlower := towlower
  towupper := towupper
  mbtowc_pos h := by
    obtain ⟨ch, -, heq⟩ := Option.map_eq_some_iff.mp h
    obtain ⟨-, rfl⟩ := Prod.mk.inj heq
    exact ch.utf8Size_pos
  mbtowc_backslash h hmem := by
    obtain ⟨ch, hdecode, heq⟩ := Option.map_eq_some_iff.mp h
    obtain ⟨-, rfl⟩ := Prod.mk.inj heq
    obtain ⟨t, rfl⟩ := Utf8.eq_append_of_decode hdecode
    rw [List.take_left' (String.length_utf8EncodeChar ch)] at hmem ⊢
    exact utf8_backslash hmem
  wctomb_ne_nil h := by
    obtain rfl := Option.some.inj h
    exact String.utf8EncodeChar_ne_nil
  wctomb_backslash h hmem := by
    obtain rfl := Option.some.inj h
    exact utf8_backslash hmem

/-- The text of some characters is a needle of these. -/
theorem decodes_utf8 (towlower towupper : Char → Char) (chars : List Char) :
    (utf8 towlower towupper).Decodes (Utf8.encode chars)
      (chars.map fun ch => (ch, String.utf8EncodeChar ch)) := by
  induction chars with
  | nil => exact .nil
  | cons ch chars ih =>
      have hdecode : (utf8 towlower towupper).mbtowc (Utf8.encode (ch :: chars)) =
          some (ch, ch.utf8Size) := by
        change (Utf8.decode _).map _ = _
        rw [Utf8.encode_cons, Utf8.decode_append]
        rfl
      have hne : Utf8.encode (ch :: chars) ≠ [] := by
        rw [Utf8.encode_cons]
        exact List.append_ne_nil_of_left_ne_nil String.utf8EncodeChar_ne_nil _
      have htake : (Utf8.encode (ch :: chars)).take ch.utf8Size = String.utf8EncodeChar ch := by
        rw [Utf8.encode_cons, List.take_left' (String.length_utf8EncodeChar ch)]
      have hdrop : (Utf8.encode (ch :: chars)).drop ch.utf8Size = Utf8.encode chars := by
        rw [Utf8.encode_cons, List.drop_left' (String.length_utf8EncodeChar ch)]
      rw [List.map_cons, ← htake]
      exact .cons hne hdecode (hdrop ▸ ih)

theorem utf8_inj {c d : Char} (h : String.utf8EncodeChar c = String.utf8EncodeChar d) : c = d := by
  have heq := Utf8.decode_append c []
  rw [h, Utf8.decode_append] at heq
  exact (Option.some.inj heq).symm

/-- The dotted capital i is one byte longer than its lower-case form. -/
def dottedLower (ch : Char) : Char := if ch = 'İ' then 'i' else ch.toLower

theorem backslashAlone_dotted : (utf8 dottedLower Char.toUpper).BackslashAlone := by
  have hbytes : String.utf8EncodeChar '\\' = ['\\'.toUInt8] := by decide
  intro s ch ret hdecode hch
  have hne : ch ≠ '\\' := by
    rintro rfl
    obtain ⟨ch, hdecode', heq⟩ := Option.map_eq_some_iff.mp hdecode
    obtain ⟨rfl, rfl⟩ := Prod.mk.inj heq
    obtain ⟨t, rfl⟩ := Utf8.eq_append_of_decode hdecode'
    exact hch ((List.take_left' (String.length_utf8EncodeChar '\\')).trans hbytes)
  constructor
  · intro h
    have heq : dottedLower ch = '\\' := utf8_inj ((Option.some.inj h).trans hbytes.symm)
    rw [dottedLower] at heq
    split_ifs at heq with hdot
    · exact absurd heq (by decide)
    · delta Char.toLower at heq
      split at heq
      · rename_i hrange
        have hval : ch.val + ('a'.val - 'A'.val) = '\\'.val := congrArg Char.val heq
        have hch : ch.val = '\\'.val - ('a'.val - 'A'.val) := by
          rw [← hval, UInt32.add_sub_cancel]
        rw [hch] at hrange
        exact absurd hrange (by decide)
      · exact hne heq
  · intro h
    have heq : ch.toUpper = '\\' := utf8_inj ((Option.some.inj h).trans hbytes.symm)
    delta Char.toUpper at heq
    split at heq
    · rename_i hrange
      have hval := congrArg Char.val heq
      dsimp only at hval
      have hch : ch.val = '\\'.val - ('A'.val - 'a'.val) := by
        rw [← hval, UInt32.add_sub_cancel]
      rw [hch] at hrange
      exact absurd hrange (by decide +kernel)
    · exact hne heq

theorem trigramsFound_dotted : (utf8 dottedLower Char.toUpper).TrigramsFound
    (Utf8.encode ['x', 'İ', '*', '\\', '?', 'y'])
    (['x', 'İ', '*', '\\', '?', 'y'].map fun ch => (ch, String.utf8EncodeChar ch)) :=
  trigramsFound backslashAlone_dotted (decodes_utf8 dottedLower Char.toUpper _)
    fun _ _ _ _ _ => Option.some_ne_none _

theorem generateTrigrams_extend {alternativesForCp : List (List Str)}
    {states : List TrigramState} (states' : List TrigramState)
    (h : extendStates alternativesForCp states = some (states', true)) (fuel : ℕ)
    (groups : List TrigramDisjunction) :
    generateTrigrams alternativesForCp (fuel + 1) states groups =
      generateTrigrams alternativesForCp fuel states' groups := by
  rw [generateTrigrams, h]

def backslashLower (ch : UInt8) : UInt8 := if ch = 'X'.toUInt8 then '\\'.toUInt8 else ch

/-- A literal whose lower-case form is a backslash escapes what follows it in the buffer. -/
theorem not_trigramsFound_backslashForm :
    ¬∀ (towlower towupper : UInt8 → UInt8) (needle : Str),
      (singleByte towlower towupper).TrigramsFound needle (needle.map fun ch => (ch, [ch])) := by
  intro h
  let L := singleByte backslashLower id
  let aXb : UInt32 := readWindow 'a'.toUInt8 'X'.toUInt8 'b'.toUInt8 0
  let abc : UInt32 := readWindow 'a'.toUInt8 'b'.toUInt8 'c'.toUInt8 0
  have halts : L.alternativesForCp (ascii "aXbc") =
      .ok [[ascii "a"], [ascii "X", ascii "\\"], [ascii "b"], [ascii "c"]] :=
    alternativesForCp_eq (decodes_singleByte backslashLower id (ascii "aXbc"))
      fun _ _ _ _ _ => Option.some_ne_none _
  have hgroups : L.parseTrigramsIgnoreCase 6 (ascii "aXbc") =
      some (.ok [⟨[aXb, abc], [], 0, [], 2⟩]) := by
    rw [parseTrigramsIgnoreCase, halts]
    dsimp only
    rw [generateTrigrams_extend [⟨ascii "a", 1⟩] (by decide +kernel),
      generateTrigrams_extend [⟨ascii "aX", 2⟩, ⟨ascii "a\\", 2⟩] (by decide +kernel),
      generateTrigrams_extend [⟨ascii "aXb", 3⟩, ⟨ascii "a\\b", 3⟩] (by decide +kernel),
      generateTrigrams_extend [⟨ascii "aXb", 3⟩, ⟨ascii "a\\bc", 4⟩] (by decide +kernel)]
    have hlast : extendStates [[ascii "a"], [ascii "X", ascii "\\"], [ascii "b"], [ascii "c"]]
        [⟨ascii "aXb", 3⟩, ⟨ascii "a\\bc", 4⟩] =
          some ([⟨ascii "aXb", 3⟩, ⟨ascii "a\\bc", 4⟩], false) := by
      decide +kernel
    have hgroup : trigramGroup [⟨ascii "aXb", 3⟩, ⟨ascii "a\\bc", 4⟩] =
        [⟨[aXb, abc], [], 0, [], 2⟩] := by
      have hsort : uniqueSort id (fun a b => decide (a ≤ b)) [aXb, abc] =
          [aXb, abc] := by
        rw [uniqueSort, List.mergeSort_of_pairwise (by decide)]
        decide +kernel
      have htrigrams : [(⟨ascii "aXb", 3⟩ : TrigramState), ⟨ascii "a\\bc", 4⟩].map
          (fun state => readTrigram state.buffered) = [aXb, abc] := by
        decide +kernel
      rw [trigramGroup, htrigrams, hsort]
      rfl
    have hstates : uniqueSort id TrigramState.le
        ([(⟨ascii "aXb", 3⟩ : TrigramState), ⟨ascii "a\\bc", 4⟩].map TrigramState.erase) =
          [⟨ascii "Xb", 3⟩, ⟨ascii "\\bc", 4⟩] := by
      rw [uniqueSort, List.mergeSort_of_pairwise (by decide +kernel)]
      decide +kernel
    rw [generateTrigrams, hlast]
    dsimp only
    rw [if_neg (by decide +kernel), hgroup, hstates, if_neg (by decide)]
    have hend : extendStates [[ascii "a"], [ascii "X", ascii "\\"], [ascii "b"], [ascii "c"]]
        [⟨ascii "Xb", 3⟩, ⟨ascii "\\bc", 4⟩] = none := by
      decide +kernel
    rw [generateTrigrams, hend]
    rfl
  have hlit {ch : UInt8} {form s : Str} {chars : List (UInt8 × Str)}
      (hch : ch ∉ [92, 42, 63, 91]) (hform : L.IsCaseForm form (ch, [ch]))
      (h : L.Matches chars s) : L.Matches ((ch, [ch]) :: chars) (form ++ s) := by
    have hne (d : UInt8) (hd : d ∈ [92, 42, 63, 91]) : [ch] ≠ [d] := by
      intro heq
      obtain ⟨rfl, -⟩ := List.cons.inj heq
      exact hch hd
    exact .literal (hne _ (by decide)) ⟨hne _ (by decide), hne _ (by decide)⟩ (hne _ (by decide))
      hform h
  have hX : L.IsCaseForm (ascii "\\") ('X'.toUInt8, ascii "X") := Or.inr (Or.inl ⟨by decide, rfl⟩)
  have hmatch : L.Matches ((ascii "aXbc").map fun ch => (ch, [ch])) (ascii "a\\bc") :=
    hlit (by decide) (Or.inl rfl) (hlit (by decide) hX
      (hlit (by decide) (Or.inl rfl) (hlit (by decide) (Or.inl rfl) .nil)))
  obtain ⟨t, ht, hin⟩ :=
    (h backslashLower id (ascii "aXbc")).2 6 _ hgroups _ hmatch _ List.mem_cons_self
  rcases List.mem_pair.mp ht with rfl | rfl
  · exact absurd hin (by decide)
  · exact absurd hin (by decide)

end WideCharacters

end Flocate
