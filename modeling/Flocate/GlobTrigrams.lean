import Flocate.Lib.Fnmatch
import Flocate.NeedleTrigrams

/-!
# The trigrams of a glob

`read_unigram` takes a bracket expression to end at the first `]` that may end one. An escaped `]`
and the `]` of a class `[:name:]` do not end it for `fnmatch`; where there is neither, the trigrams
of a pattern are in every file name that it matches.
-/

namespace Flocate

open Bytes Fnmatch

def TrigramsSound (fnmatch : Str → Str → Bool) (pattern : Str) : Prop :=
  ∀ filename, 0 ∉ filename → «matches» fnmatch ⟨.glob, pattern⟩ filename = true →
    ∀ td ∈ parseTrigrams pattern, ∀ t ∈ td.trigramAlternatives, trigramBytes t <:+: filename

/-- Elements with a `]` in them, other than one that stands first. -/
def ClosesEarly : BracketItem → Bool
  | .plain _ => false
  | .escaped c => c = ']'.toUInt8
  | .cls _ => true

/-- No bracket expression has an escaped `]` or a class. -/
def PlainBrackets (ts : List Token) : Prop :=
  ∀ b, .bracket b ∈ ts → ∀ item ∈ b.items, ClosesEarly item = false

theorem readClassEnd_found {u : Str} (hu : ']'.toUInt8 ∉ u) (len : ℕ) (v : Str) :
    readClassEnd len (u ++ ']'.toUInt8 :: v) = (wildcardUnigram, len + u.length + 1) := by
  induction u generalizing len with
  | nil => rfl
  | cons c u ih =>
      rw [List.mem_cons, not_or] at hu
      rw [List.cons_append, readClassEnd, if_neg (Ne.symm hu.1), ih hu.2, List.length_cons]
      congr 1
      omega

theorem readClassEnd_missing {s : Str} (hs : ']'.toUInt8 ∉ s) (len : ℕ) :
    readClassEnd len s = (prematureEndUnigram, len + s.length) := by
  induction s generalizing len with
  | nil => rfl
  | cons c s ih =>
      rw [List.mem_cons, not_or] at hs
      rw [readClassEnd, if_neg (Ne.symm hs.1), ih hs.2, List.length_cons]
      congr 1
      omega

/-- `read_unigram` and `fnmatch` skip the same bytes before they look for the end. -/
theorem readClass_eq (s : Str) : ∃ k, bracketBody s = s.drop k ∧
    readClass s = readClassEnd (1 + k) (s.drop k) := by
  have hfirst (s : Str) (len : ℕ) : ∃ k,
      (if s.head? = some ']'.toUInt8 then s.tail else s) = s.drop k ∧
      (if s = [] then (prematureEndUnigram, len)
        else readClassEnd (if s.head? = some ']'.toUInt8 then (len + 1, s.tail) else (len, s)).1
          (if s.head? = some ']'.toUInt8 then (len + 1, s.tail) else (len, s)).2) =
        readClassEnd (len + k) (s.drop k) := by
    by_cases hs : s = []
    · subst hs
      exact ⟨0, rfl, rfl⟩
    · rw [if_neg hs]
      split_ifs with hhead
      · exact ⟨1, List.drop_one.symm, by rw [List.drop_one]⟩
      · exact ⟨0, rfl, rfl⟩
  by_cases hbang : s.head? = some '!'.toUInt8
  · obtain ⟨k, hbody, hclass⟩ := hfirst s.tail 2
    have hs : s ≠ [] := by
      rintro rfl
      cases hbang
    refine ⟨1 + k, ?_, ?_⟩
    · rw [bracketBody, if_pos hbang, ← List.drop_drop, List.drop_one]
      exact hbody
    · rw [← List.drop_drop, List.drop_one, ← Nat.add_assoc]
      rw [← hclass]
      simp only [readClass, if_neg hs, if_pos hbang]
  · obtain ⟨k, hbody, hclass⟩ := hfirst s 1
    refine ⟨k, ?_, ?_⟩
    · rw [bracketBody, if_neg hbang]
      exact hbody
    · rw [← hclass]
      simp only [readClass, if_neg hbang]
      split_ifs
      all_goals rfl

/-- Where a class ends: after the first `]`, or with the pattern. -/
theorem drop_readClass (s : Str) :
    (∃ u v, bracketBody s = u ++ ']'.toUInt8 :: v ∧ ']'.toUInt8 ∉ u ∧
      s.drop ((readClass s).2 - 1) = v) ∨
    ']'.toUInt8 ∉ bracketBody s ∧ s.drop ((readClass s).2 - 1) = [] := by
  obtain ⟨k, hbody, hclass⟩ := readClass_eq s
  rw [hbody]
  by_cases hmem : ']'.toUInt8 ∈ s.drop k
  · obtain ⟨u, v, huv, hu⟩ := List.eq_append_cons_of_mem hmem
    refine Or.inl ⟨u, v, huv, hu, ?_⟩
    rw [hclass, huv, readClassEnd_found hu]
    have hlen : 1 + k + u.length + 1 - 1 = k + (u.length + 1) := by omega
    rw [hlen, ← List.drop_drop, huv, List.drop_append]
    simp
  · refine Or.inr ⟨hmem, ?_⟩
    rw [hclass, readClassEnd_missing hmem, List.length_drop]
    apply List.drop_eq_nil_of_le
    omega

theorem readUnigram_bracket (s : Str) : readUnigram ('['.toUInt8 :: s) = readClass s := by
  rw [readUnigram, if_neg (by decide), if_neg (by decide), if_pos rfl]

/-- Without escaped `]` and classes a bracket expression ends at its first `]`. -/
theorem bracketItems_first {s rest : Str} {items : List BracketItem}
    (h : bracketItems s = some (items, rest)) (hplain : ∀ item ∈ items, ClosesEarly item = false) :
    ∃ u, s = u ++ ']'.toUInt8 :: rest ∧ ']'.toUInt8 ∉ u := by
  induction items generalizing s with
  | nil =>
      cases s with
      | nil => simp [bracketItems] at h
      | cons c s =>
          rcases bracketItems_cons h with ⟨rfl, -, rfl⟩ | ⟨-, _, _, _, -, -, heq⟩
          · exact ⟨[], rfl, List.not_mem_nil⟩
          · cases heq
  | cons item items ih =>
      cases s with
      | nil => simp [bracketItems] at h
      | cons c s =>
          rcases bracketItems_cons h with ⟨-, heq, -⟩ | ⟨hc, _, _, s', hitem, hitems, heq⟩
          · cases heq
          · obtain ⟨rfl, rfl⟩ := List.cons.inj heq
            obtain ⟨u, rfl, hu⟩ := ih hitems fun item hmem =>
              hplain item (List.mem_cons_of_mem _ hmem)
            have hearly := hplain item List.mem_cons_self
            rcases bracketItem_eq_some hitem with
              ⟨-, d, rfl, rfl⟩ | ⟨-, name, -, rfl⟩ | ⟨-, rfl, rfl⟩
            · refine ⟨c :: d :: u, rfl, ?_⟩
              have hd : d ≠ ']'.toUInt8 := of_decide_eq_false hearly
              rw [List.mem_cons, List.mem_cons, not_or, not_or]
              exact ⟨Ne.symm hc, Ne.symm hd, hu⟩
            · cases hearly
            · refine ⟨c :: u, rfl, ?_⟩
              rw [List.mem_cons, not_or]
              exact ⟨Ne.symm hc, hu⟩

theorem exists_tokens_bracketBody (s : Str) : ∃ ts, tokens s = ts ++ tokens (bracketBody s) := by
  have hbyte (c : UInt8) (h₁ : c ≠ '\\'.toUInt8) (h₂ : c ≠ '['.toUInt8) (t : Str)
      (ht : t.head? = some c) : ∃ ts, tokens t = ts ++ tokens t.tail := by
    obtain ⟨t', rfl⟩ := List.head?_eq_some_iff.mp ht
    obtain ⟨tok, htok⟩ := exists_tokens_cons h₁ h₂ t'
    exact ⟨[tok], htok⟩
  have hfirst (t : Str) :
      ∃ ts, tokens t = ts ++ tokens (if t.head? = some ']'.toUInt8 then t.tail else t) := by
    split_ifs with hhead
    · exact hbyte _ (by decide) (by decide) t hhead
    · exact ⟨[], rfl⟩
  by_cases hbang : s.head? = some '!'.toUInt8
  · obtain ⟨ts, hts⟩ := hbyte _ (by decide) (by decide) s hbang
    obtain ⟨ts', hts'⟩ := hfirst s.tail
    refine ⟨ts ++ ts', ?_⟩
    rw [hts, hts', List.append_assoc, bracketBody, if_pos hbang]
  · rw [bracketBody, if_neg hbang]
    exact hfirst s

/-- Both readers of a bracket expression end it at the same byte. -/
theorem tokens_drop_readClass {s : Str} (hplain : PlainBrackets (tokens ('['.toUInt8 :: s))) :
    ∃ ts, tokens ('['.toUInt8 :: s) = ts ++ tokens (s.drop ((readClass s).2 - 1)) := by
  obtain ⟨negated, first, heq⟩ := bracket_eq s
  cases hitems : bracketItems (bracketBody s) with
  | none =>
      rw [hitems] at heq
      obtain ⟨ts, hts⟩ := exists_tokens_bracketBody s
      rw [tokens_unterminated heq, hts]
      rcases drop_readClass s with ⟨u, v, hbody, hu, hdrop⟩ | ⟨-, hdrop⟩
      · rw [hbody] at hitems
        obtain ⟨ts', hts'⟩ := tokens_of_bracketItems_eq_none hitems hu
        refine ⟨.byte '['.toUInt8 :: (ts ++ ts'), ?_⟩
        rw [hdrop, hbody, hts', List.cons_append, List.append_assoc]
      · refine ⟨.byte '['.toUInt8 :: (ts ++ tokens (bracketBody s)), ?_⟩
        rw [hdrop, tokens, List.append_nil]
  | some p =>
      obtain ⟨items, rest⟩ := p
      rw [hitems] at heq
      have htok := tokens_bracket heq
      rw [htok] at hplain ⊢
      obtain ⟨u, hbody, hu⟩ := bracketItems_first hitems fun item hmem =>
        hplain _ List.mem_cons_self item (List.mem_append_right _ hmem)
      refine ⟨[.bracket ⟨negated, first ++ items⟩], ?_⟩
      rcases drop_readClass s with ⟨u', v, hbody', hu', hdrop⟩ | ⟨hnot, -⟩
      · rw [hdrop, after_first (hbody.symm.trans hbody') hu hu']
        rfl
      · rw [hbody] at hnot
        exact absurd (List.mem_append_right _ List.mem_cons_self) hnot

/-- What `read_unigram` skips is a number of tokens. -/
theorem tokens_drop_readUnigram {s : Str} (hplain : PlainBrackets (tokens s)) :
    ∃ ts, tokens s = ts ++ tokens (s.drop (readUnigram s).2) := by
  cases s with
  | nil => exact ⟨[], rfl⟩
  | cons c s =>
      by_cases hesc : c = '\\'.toUInt8
      · subst hesc
        cases s with
        | nil => exact ⟨[.never], by simp [tokens, readUnigram, readEscaped]⟩
        | cons d s => exact ⟨[.byte d], tokens_escaped d s⟩
      · by_cases hbr : c = '['.toUInt8
        · subst hbr
          obtain ⟨ts, hts⟩ := tokens_drop_readClass hplain
          refine ⟨ts, ?_⟩
          have hpos := readClass_pos s
          obtain ⟨k, hk⟩ := Nat.exists_eq_succ_of_ne_zero hpos.ne'
          rw [hk, Nat.succ_sub_one] at hts
          rw [readUnigram_bracket, hk, List.drop_succ_cons]
          exact hts
        · obtain ⟨t, ht⟩ := exists_tokens_cons hesc hbr s
          refine ⟨[t], ?_⟩
          rw [ht, readUnigram, if_neg hesc, if_neg hbr]
          split_ifs
          all_goals rfl

theorem PlainBrackets.of_append {ts₁ ts₂ : List Token} (h : PlainBrackets (ts₁ ++ ts₂)) :
    PlainBrackets ts₂ := fun b hb => h b (List.mem_append_right _ hb)

/-- Every unigram of the pattern begins where one of its tokens begins. -/
theorem tokens_unigramSuffix {s p : Str} (h : UnigramSuffix s p)
    (hplain : PlainBrackets (tokens s)) : ∃ ts, tokens s = ts ++ tokens p := by
  induction h with
  | refl s => exact ⟨[], rfl⟩
  | step hs _ ih =>
      obtain ⟨ts, hts⟩ := tokens_drop_readUnigram hplain
      rw [hts] at hplain
      obtain ⟨ts', hts'⟩ := ih hplain.of_append
      exact ⟨ts ++ ts', by rw [hts, hts', List.append_assoc]⟩

theorem tokens_of_isUnigram {s : Str} (h : IsUnigram (readUnigram s).1) : ∃ c n,
    readUnigram s = (c.toUInt32, n) ∧ tokens s = .byte c :: tokens (s.drop n) := by
  obtain ⟨hw, hp⟩ := not_or.mp h
  rcases readUnigram_cases hw hp with ⟨c, rest, rfl, hc, hu⟩ | ⟨c, rest, rfl, hu⟩
  · refine ⟨c, 1, hu, ?_⟩
    have hne (d : UInt8) (hd : ¬IsUnigram (readUnigram (d :: rest)).1) : c ≠ d := by
      rintro rfl
      exact hd h
    have hbr : c ≠ '['.toUInt8 := by
      apply hne
      rw [readUnigram_bracket]
      exact fun hn => hn (readClass_fst rest)
    exact tokens_byte hc (hne _ fun hn => hn (Or.inl rfl)) (hne _ fun hn => hn (Or.inl rfl)) hbr
      rest
  · exact ⟨c, 2, hu, tokens_escaped c rest⟩

/-- The three bytes of a trigram are tokens. -/
theorem tokens_of_readTrigram {p : Str} (h : IsUnigram (readTrigram p)) : ∃ a b c rest,
    readTrigram p = readWindow a b c 0 ∧
      tokens p = .byte a :: .byte b :: .byte c :: tokens rest := by
  have h1 : IsUnigram (readUnigram p).1 := fun hn => by
    rw [readTrigram, if_pos hn] at h
    exact h hn
  obtain ⟨a, n₁, hu₁, ht₁⟩ := tokens_of_isUnigram h1
  have h2 : IsUnigram (readUnigram (p.drop n₁)).1 := fun hn => by
    rw [readTrigram, if_neg h1, hu₁, if_pos hn] at h
    exact h hn
  obtain ⟨b, n₂, hu₂, ht₂⟩ := tokens_of_isUnigram h2
  have h3 : IsUnigram (readUnigram (p.drop (n₁ + n₂))).1 := fun hn => by
    rw [readTrigram, if_neg h1, hu₁, if_neg h2, hu₂, if_pos hn] at h
    exact h hn
  obtain ⟨c, n₃, hu₃, ht₃⟩ := tokens_of_isUnigram h3
  refine ⟨a, b, c, (p.drop (n₁ + n₂)).drop n₃, ?_, ?_⟩
  · rw [readTrigram, if_neg h1, hu₁, if_neg h2, hu₂, if_neg h3, hu₃]
    exact readWindow_eq_or a b c
  · rw [← ht₃, ← List.drop_drop, ← ht₂, ht₁]

/-- Without escaped `]` and classes in brackets the trigrams of a pattern are in all it matches. -/
theorem trigramsSound (L : PatternLocale) {pattern : Str}
    (hplain : PlainBrackets (tokens pattern)) : TrigramsSound (fnmatch L) pattern := by
  intro filename _ hmatch td htd t ht
  obtain ⟨p, hp, -, hval, rfl⟩ := mem_parseTrigrams.mp htd
  obtain rfl := List.mem_singleton.mp ht
  obtain ⟨ts, hts⟩ := tokens_unigramSuffix hp hplain
  obtain ⟨a, b, c, rest, htrgm, hbytes⟩ := tokens_of_readTrigram hval
  have hfn : matchTokens L (tokens pattern) filename = true := hmatch
  rw [hts, hbytes] at hfn
  obtain ⟨s₀, hs, hfn₀⟩ := exists_of_matchTokens_append hfn
  obtain ⟨s₁, rfl, hfn₁⟩ := matchTokens_byte hfn₀
  obtain ⟨s₂, rfl, hfn₂⟩ := matchTokens_byte hfn₁
  obtain ⟨s₃, rfl, -⟩ := matchTokens_byte hfn₂
  rw [htrgm, trigramBytes_readWindow]
  have hin : [a, b, c] <:+: a :: b :: c :: s₃ := ⟨[], s₃, rfl⟩
  exact hin.trans hs.isInfix

theorem trigramsSound_digits : TrigramsSound (fnmatch posixLocale) (ascii "*[]0-9]abc") := by
  refine trigramsSound posixLocale fun b hb => ?_
  have htok : tokens (ascii "*[]0-9]abc") = [.star, .bracket ⟨false,
      [.plain ']'.toUInt8, .plain '0'.toUInt8, .plain '-'.toUInt8, .plain '9'.toUInt8]⟩,
      .byte 'a'.toUInt8, .byte 'b'.toUInt8, .byte 'c'.toUInt8] := by
    decide +kernel
  rw [htok] at hb
  simp only [List.mem_cons, reduceCtorEq, Token.bracket.injEq, List.not_mem_nil, or_false,
    false_or] at hb
  subst hb
  decide

/-- The class ends the bracket expression early, its second `]` then counts as a byte. -/
theorem not_trigramsSound_digitClass : ¬∀ pattern,
    makeNeedle false pattern = .ok ⟨.glob, pattern⟩ →
      TrigramsSound (fnmatch posixLocale) pattern := by
  intro h
  have hwild : anyWildcard (ascii "[[:digit:]]abc") = true := by decide +kernel
  have hneedle : makeNeedle false (ascii "[[:digit:]]abc") =
      .ok ⟨.glob, ascii "[[:digit:]]abc"⟩ := by
    rw [makeNeedle, if_pos hwild]
  have hmatch : fnmatch posixLocale (ascii "[[:digit:]]abc") (ascii "1abc") = true := by
    decide +kernel
  have htrgm : (⟨[readWindow ']'.toUInt8 'a'.toUInt8 'b'.toUInt8 0], [], 0, [], 1⟩ :
      TrigramDisjunction) ∈ parseTrigrams (ascii "[[:digit:]]abc") := by
    decide +kernel
  have hin := h _ hneedle (ascii "1abc") (by decide) hmatch _ htrgm _ List.mem_cons_self
  revert hin
  decide

end Flocate
