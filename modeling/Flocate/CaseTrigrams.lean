import Flocate.GlobTrigrams

/-!
# The trigrams of a needle in either case

`parse_trigrams_ignore_case` spells a needle in all the ways that differ in case, three bytes at a
time. Every way of spelling it is followed by one of the states, so every group has a trigram of it.
-/

namespace Flocate

open Bytes Fault UniqueSort

/-- The wide characters of a locale. A backslash byte is a backslash, not a part of a character. -/
structure WideCharacters (ω : Type) where
  mbtowc : Str → Option (ω × ℕ)
  /-- Nothing for a character that the encoding does not have. -/
  wctomb : ω → Option Str
  towlower : ω → ω
  towupper : ω → ω
  mbtowc_pos : ∀ {s ch ret}, mbtowc s = some (ch, ret) → 0 < ret
  mbtowc_backslash : ∀ {s ch ret}, mbtowc s = some (ch, ret) →
    '\\'.toUInt8 ∈ s.take ret → s.take ret = ['\\'.toUInt8]
  wctomb_ne_nil : ∀ {ch bytes}, wctomb ch = some bytes → bytes ≠ []
  wctomb_backslash : ∀ {ch bytes}, wctomb ch = some bytes →
    '\\'.toUInt8 ∈ bytes → bytes = ['\\'.toUInt8]

structure TrigramState where
  buffered : Str
  nextCodepoint : ℕ
deriving DecidableEq

namespace WideCharacters

variable {ω : Type} [DecidableEq ω] (L : WideCharacters ω)

/-- `string(buf, ret)` behind `wctomb`. The `-1` for a character that the encoding does not have
is taken for a length, for which `string` throws. -/
def encoded (ch : ω) : Except Fault Str :=
  match L.wctomb ch with
  | none => .error .uncaught
  | some bytes => .ok bytes

def encodedIf (p : Prop) [Decidable p] (ch : ω) : Except Fault (List Str) :=
  if p then (L.encoded ch).map fun bytes => [bytes] else .ok []

def alternatives (bytes : Str) (ch : ω) : Except Fault (List Str) := do
  let lower ← L.encodedIf (L.towlower ch ≠ ch) (L.towlower ch)
  let upper ← L.encodedIf (L.towupper ch ≠ ch ∧ L.towupper ch ≠ L.towlower ch) (L.towupper ch)
  .ok (bytes :: (lower ++ upper))

def alternativesForCp (s : Str) : Except Fault (List (List Str)) :=
  if _hs : s = [] then .ok []
  else
    match _h : L.mbtowc s with
    | none => .error (.exit 1)
    | some (ch, ret) => do
        let alt ← L.alternatives (s.take ret) ch
        (alternativesForCp (s.drop ret)).map (alt :: ·)
termination_by s.length
decreasing_by
  have := L.mbtowc_pos _h
  have := List.length_pos_iff.mpr _hs
  rw [List.length_drop]
  omega

end WideCharacters

/-- One pass of the inner loop; `none` where there is a state that cannot be extended. -/
def extendStates (alternativesForCp : List (List Str)) :
    List TrigramState → Option (List TrigramState × Bool)
  | [] => some ([], false)
  | state :: states =>
      if readTrigram state.buffered ≠ prematureEndUnigram then
        (extendStates alternativesForCp states).map fun (newStates, needAnotherPass) =>
          (state :: newStates, needAnotherPass)
      else
        match alternativesForCp[state.nextCodepoint]? with
        | none => none
        | some runes =>
            (extendStates alternativesForCp states).map fun (newStates, needAnotherPass) =>
              (runes.map (fun rune => ⟨state.buffered ++ rune, state.nextCodepoint + 1⟩) ++
                newStates, !runes.isEmpty || needAnotherPass)

def TrigramState.erase (state : TrigramState) : TrigramState :=
  { state with buffered := state.buffered.drop (readUnigram state.buffered).2 }

def TrigramState.le (a b : TrigramState) : Bool :=
  a.nextCodepoint < b.nextCodepoint ||
    a.nextCodepoint = b.nextCodepoint && !decide (b.buffered < a.buffered)

/-- The group of the states, unless one of them is at a wildcard. -/
def trigramGroup (states : List TrigramState) : List TrigramDisjunction :=
  let trigrams := states.map fun state => readTrigram state.buffered
  if wildcardUnigram ∈ trigrams then []
  else
    let trigramAlternatives := uniqueSort id (fun a b => decide (a ≤ b)) trigrams
    [{ trigramAlternatives, remainingTrigramsToRead := trigramAlternatives.length }]

def generateTrigrams (alternativesForCp : List (List Str)) :
    ℕ → List TrigramState → List TrigramDisjunction →
      Option (Except Fault (List TrigramDisjunction))
  | 0, _, _ => none
  | fuel + 1, states, groups =>
      match extendStates alternativesForCp states with
      | none => some (.ok groups)
      | some (states, true) => generateTrigrams alternativesForCp fuel states groups
      | some (states, false) =>
          if prematureEndUnigram ∈ states.map fun state => readTrigram state.buffered then
            some (.error .assertion)
          else
            let groups := groups ++ trigramGroup states
            let states := uniqueSort id TrigramState.le (states.map TrigramState.erase)
            if 100 < states.length then some (.ok groups)
            else generateTrigrams alternativesForCp fuel states groups

def WideCharacters.parseTrigramsIgnoreCase {ω : Type} [DecidableEq ω] (L : WideCharacters ω)
    (fuel : ℕ) (needle : Str) : Option (Except Fault (List TrigramDisjunction)) :=
  match L.alternativesForCp needle with
  | .error fault => some (.error fault)
  | .ok alternativesForCp => generateTrigrams alternativesForCp fuel [⟨[], 0⟩] []

section Extension

variable {s : Str}

theorem readClassEnd_append {len : ℕ} (h : (readClassEnd len s).1 ≠ prematureEndUnigram) (t : Str) :
    readClassEnd len (s ++ t) = readClassEnd len s ∧ (readClassEnd len s).2 ≤ len + s.length := by
  induction s generalizing len with
  | nil => exact absurd rfl h
  | cons c s ih =>
      rw [readClassEnd] at h ⊢
      rw [List.cons_append, readClassEnd, List.length_cons]
      split_ifs at h ⊢ with hc
      · exact ⟨rfl, by omega⟩
      · obtain ⟨heq, hle⟩ := ih h
        exact ⟨heq, by omega⟩

theorem bracketBody_append (h : Fnmatch.bracketBody s ≠ []) (t : Str) :
    Fnmatch.bracketBody (s ++ t) = Fnmatch.bracketBody s ++ t := by
  have hfirst {s : Str} (h : (if s.head? = some ']'.toUInt8 then s.tail else s) ≠ []) :
      (if (s ++ t).head? = some ']'.toUInt8 then (s ++ t).tail else s ++ t) =
        (if s.head? = some ']'.toUInt8 then s.tail else s) ++ t := by
    cases s with
    | nil => exact absurd rfl h
    | cons c s =>
        rw [List.cons_append, List.head?_cons, List.head?_cons]
        split_ifs
        all_goals rfl
  cases s with
  | nil => exact absurd rfl h
  | cons c s =>
      by_cases hc : c = '!'.toUInt8
      · subst hc
        exact hfirst h
      · have hbang (r : Str) : Fnmatch.bracketBody (c :: r) =
            if (c :: r).head? = some ']'.toUInt8 then (c :: r).tail else c :: r := by
          rw [Fnmatch.bracketBody, List.head?_cons, if_neg fun heq => hc (Option.some.inj heq)]
          rfl
        rw [hbang] at h
        rw [List.cons_append, hbang, hbang]
        exact hfirst h

theorem readClass_append (h : (readClass s).1 ≠ prematureEndUnigram) (t : Str) :
    readClass (s ++ t) = readClass s ∧ (readClass s).2 ≤ 1 + s.length := by
  obtain ⟨k, hbody, hclass⟩ := readClass_eq s
  obtain ⟨k', hbody', hclass'⟩ := readClass_eq (s ++ t)
  have hne : Fnmatch.bracketBody s ≠ [] := fun hnil => by
    rw [hclass, ← hbody, hnil] at h
    exact h rfl
  rw [bracketBody_append hne, hbody] at hbody'
  have hlen := congrArg List.length hbody'
  rw [hbody] at hne
  have hlt := List.length_pos_iff.mpr hne
  rw [List.length_append, List.length_drop, List.length_drop, List.length_append] at hlen
  rw [List.length_drop] at hlt
  obtain rfl : k' = k := by omega
  rw [hclass] at h ⊢
  rw [hclass', ← hbody']
  obtain ⟨heq, hle⟩ := readClassEnd_append h t
  rw [List.length_drop] at hle
  exact ⟨heq, by omega⟩

/-- More bytes do not change a unigram that has all of its bytes. -/
theorem readUnigram_append (h : (readUnigram s).1 ≠ prematureEndUnigram) (t : Str) :
    readUnigram (s ++ t) = readUnigram s ∧ (readUnigram s).2 ≤ s.length := by
  cases s with
  | nil => exact absurd rfl h
  | cons c s =>
      rw [readUnigram] at h ⊢
      rw [List.cons_append, readUnigram, List.length_cons]
      split_ifs at h ⊢ with hesc hwild hbr
      · cases s with
        | nil => exact absurd rfl h
        | cons d s => exact ⟨rfl, Nat.le_add_left 2 s.length⟩
      · exact ⟨rfl, Nat.le_add_left 1 s.length⟩
      · obtain ⟨heq, hle⟩ := readClass_append h t
        exact ⟨heq, by omega⟩
      · exact ⟨rfl, Nat.le_add_left 1 s.length⟩

theorem readTrigram_append (h : readTrigram s ≠ prematureEndUnigram) (t : Str) :
    readTrigram (s ++ t) = readTrigram s := by
  have hunigram {n : ℕ} (hn : n ≤ s.length)
      (hp : (readUnigram (s.drop n)).1 ≠ prematureEndUnigram) :
      readUnigram ((s ++ t).drop n) = readUnigram (s.drop n) ∧
        n + (readUnigram (s.drop n)).2 ≤ s.length := by
    obtain ⟨heq, hle⟩ := readUnigram_append hp t
    rw [List.length_drop] at hle
    rw [List.drop_append_of_le_length hn]
    exact ⟨heq, by omega⟩
  have h₁ : (readUnigram s).1 ≠ prematureEndUnigram := fun hp => by
    rw [readTrigram, if_pos (Or.inr hp)] at h
    exact h hp
  obtain ⟨heq₁, hle₁⟩ := readUnigram_append h₁ t
  by_cases hw₁ : (readUnigram s).1 = wildcardUnigram
  · rw [readTrigram, readTrigram, heq₁, if_pos (Or.inl hw₁), if_pos (Or.inl hw₁)]
  · have hn₁ := not_or.mpr ⟨hw₁, h₁⟩
    have h₂ : (readUnigram (s.drop (readUnigram s).2)).1 ≠ prematureEndUnigram := fun hp => by
      rw [readTrigram, if_neg hn₁, if_pos (Or.inr hp)] at h
      exact h hp
    obtain ⟨heq₂, hle₂⟩ := hunigram hle₁ h₂
    by_cases hw₂ : (readUnigram (s.drop (readUnigram s).2)).1 = wildcardUnigram
    · rw [readTrigram, readTrigram, heq₁, if_neg hn₁, if_neg hn₁, heq₂, if_pos (Or.inl hw₂),
        if_pos (Or.inl hw₂)]
    · have hn₂ := not_or.mpr ⟨hw₂, h₂⟩
      have h₃ : (readUnigram (s.drop ((readUnigram s).2 +
          (readUnigram (s.drop (readUnigram s).2)).2))).1 ≠ prematureEndUnigram := fun hp => by
        rw [readTrigram, if_neg hn₁, if_neg hn₂, if_pos (Or.inr hp)] at h
        exact h hp
      obtain ⟨heq₃, -⟩ := hunigram hle₂ h₃
      rw [readTrigram, readTrigram, heq₁, if_neg hn₁, if_neg hn₁, heq₂, if_neg hn₂, if_neg hn₂,
        heq₃]

end Extension

section Termination

variable {alternativesForCp : List (List Str)}

/-- More than the bytes that the code points can bring into a buffer. -/
def reach (alternativesForCp : List (List Str)) : ℕ :=
  (alternativesForCp.map fun runes => (runes.map List.length).sum + 1).sum

def TrigramState.weight (alternativesForCp : List (List Str)) (state : TrigramState) : ℕ :=
  4 ^ (state.buffered.length + reach (alternativesForCp.drop state.nextCodepoint))

/-- A pass makes the sum of the weights smaller if it extends a state. -/
def totalWeight (alternativesForCp : List (List Str)) (states : List TrigramState) : ℕ :=
  (states.map (TrigramState.weight alternativesForCp)).sum

theorem totalWeight_append (states states' : List TrigramState) :
    totalWeight alternativesForCp (states ++ states') =
      totalWeight alternativesForCp states + totalWeight alternativesForCp states' := by
  rw [totalWeight, List.map_append, List.sum_append]
  rfl

theorem totalWeight_extend {state : TrigramState} {runes : List Str}
    (h : alternativesForCp[state.nextCodepoint]? = some runes) (hlen : runes.length ≤ 3) :
    totalWeight alternativesForCp
      (runes.map fun rune => ⟨state.buffered ++ rune, state.nextCodepoint + 1⟩) <
        state.weight alternativesForCp := by
  obtain ⟨hlt, hget⟩ := List.getElem?_eq_some_iff.mp h
  have hdrop : alternativesForCp.drop state.nextCodepoint =
      runes :: alternativesForCp.drop (state.nextCodepoint + 1) := by
    rw [List.drop_eq_getElem_cons hlt, hget]
  have hmax {rune : Str} (hrune : rune ∈ runes) :
      rune.length ≤ (runes.map List.length).sum :=
    List.le_sum_of_mem (List.mem_map_of_mem hrune)
  have hbound : ∀ w ∈ (runes.map fun rune =>
      (⟨state.buffered ++ rune, state.nextCodepoint + 1⟩ : TrigramState)).map
        (TrigramState.weight alternativesForCp),
      w ≤ 4 ^ (state.buffered.length + (runes.map List.length).sum +
        reach (alternativesForCp.drop (state.nextCodepoint + 1))) := by
    intro w hw
    rw [List.map_map] at hw
    obtain ⟨rune, hrune, rfl⟩ := List.mem_map.mp hw
    apply Nat.pow_le_pow_right (by omega)
    have hle := hmax hrune
    dsimp only
    rw [List.length_append]
    omega
  have hsum := List.sum_le_card_nsmul _ _ hbound
  rw [List.length_map, List.length_map, nsmul_eq_mul, Nat.cast_id] at hsum
  rw [totalWeight, TrigramState.weight, hdrop, reach, List.map_cons, List.sum_cons]
  refine hsum.trans_lt ?_
  have hpow : 4 ^ (state.buffered.length + ((runes.map List.length).sum + 1 +
      reach (alternativesForCp.drop (state.nextCodepoint + 1)))) =
      4 * 4 ^ (state.buffered.length + (runes.map List.length).sum +
        reach (alternativesForCp.drop (state.nextCodepoint + 1))) := by
    rw [← Nat.pow_succ']
    congr 1
    omega
  refine lt_of_lt_of_eq ?_ hpow.symm
  exact Nat.mul_lt_mul_of_pos_right (by omega) (Nat.pow_pos (by omega))

def FewAlternatives (alternativesForCp : List (List Str)) : Prop :=
  ∀ runes ∈ alternativesForCp, runes ≠ [] ∧ runes.length ≤ 3

theorem extendStates_weight (halts : FewAlternatives alternativesForCp)
    {states states' : List TrigramState} {needAnotherPass : Bool}
    (h : extendStates alternativesForCp states = some (states', needAnotherPass)) :
    totalWeight alternativesForCp states' ≤ totalWeight alternativesForCp states ∧
      (needAnotherPass = true →
        totalWeight alternativesForCp states' < totalWeight alternativesForCp states) := by
  induction states generalizing states' needAnotherPass with
  | nil =>
      obtain ⟨rfl, rfl⟩ := Prod.mk.inj (Option.some.inj h)
      exact ⟨Nat.le_refl _, nofun⟩
  | cons state states ih =>
      have hcons : totalWeight alternativesForCp (state :: states) =
          state.weight alternativesForCp + totalWeight alternativesForCp states := rfl
      rw [extendStates] at h
      split_ifs at h with hfull
      · obtain ⟨⟨newStates, again⟩, hrest, heq⟩ := Option.map_eq_some_iff.mp h
        obtain ⟨rfl, rfl⟩ := Prod.mk.inj heq
        obtain ⟨hle, hlt⟩ := ih hrest
        have hcons' : totalWeight alternativesForCp (state :: newStates) =
            state.weight alternativesForCp + totalWeight alternativesForCp newStates := rfl
        refine ⟨by omega, fun hagain => ?_⟩
        have := hlt hagain
        omega
      · split at h
        · cases h
        · rename_i runes hrunes
          obtain ⟨⟨newStates, again⟩, hrest, heq⟩ := Option.map_eq_some_iff.mp h
          obtain ⟨rfl, rfl⟩ := Prod.mk.inj heq
          obtain ⟨hle, -⟩ := ih hrest
          have hlt := totalWeight_extend hrunes (halts _ (List.mem_of_getElem? hrunes)).2
          rw [totalWeight_append, hcons]
          exact ⟨by omega, fun _ => by omega⟩

theorem extendStates_ne_nil (halts : FewAlternatives alternativesForCp)
    {states states' : List TrigramState} {needAnotherPass : Bool} (hne : states ≠ [])
    (h : extendStates alternativesForCp states = some (states', needAnotherPass)) :
    states' ≠ [] := by
  cases states with
  | nil => exact absurd rfl hne
  | cons state states =>
      rw [extendStates] at h
      split_ifs at h with hfull
      · obtain ⟨⟨newStates, again⟩, -, heq⟩ := Option.map_eq_some_iff.mp h
        obtain ⟨rfl, -⟩ := Prod.mk.inj heq
        exact List.cons_ne_nil _ _
      · split at h
        · cases h
        · rename_i runes hrunes
          obtain ⟨⟨newStates, again⟩, -, heq⟩ := Option.map_eq_some_iff.mp h
          obtain ⟨rfl, -⟩ := Prod.mk.inj heq
          have hrune := (halts _ (List.mem_of_getElem? hrunes)).1
          simp [hrune]

/-- After the last pass every buffer has a trigram or a wildcard at its beginning. -/
theorem extendStates_complete (halts : FewAlternatives alternativesForCp)
    {states states' : List TrigramState}
    (h : extendStates alternativesForCp states = some (states', false)) :
    ∀ state ∈ states', readTrigram state.buffered ≠ prematureEndUnigram := by
  induction states generalizing states' with
  | nil =>
      obtain ⟨rfl, -⟩ := Prod.mk.inj (Option.some.inj h)
      exact List.forall_mem_nil _
  | cons state states ih =>
      rw [extendStates] at h
      split_ifs at h with hfull
      · obtain ⟨⟨newStates, again⟩, hrest, heq⟩ := Option.map_eq_some_iff.mp h
        obtain ⟨rfl, rfl⟩ := Prod.mk.inj heq
        rw [List.forall_mem_cons]
        exact ⟨hfull, ih hrest⟩
      · split at h
        · cases h
        · rename_i runes hrunes
          obtain ⟨⟨newStates, again⟩, -, heq⟩ := Option.map_eq_some_iff.mp h
          obtain ⟨-, hagain⟩ := Prod.mk.inj heq
          have hrune := (halts _ (List.mem_of_getElem? hrunes)).1
          rw [Bool.or_eq_false_iff, Bool.not_eq_false', List.isEmpty_iff] at hagain
          exact absurd hagain.1 hrune

theorem weight_erase_lt {state : TrigramState} (hne : state.buffered ≠ []) :
    state.erase.weight alternativesForCp < state.weight alternativesForCp := by
  have hpos := readUnigram_pos hne
  have hlen := List.length_pos_iff.mpr hne
  apply Nat.pow_lt_pow_right (by omega)
  simp only [TrigramState.erase, List.length_drop]
  omega

theorem totalWeight_erase_lt (alternativesForCp : List (List Str)) {states : List TrigramState}
    (hne : states ≠ [])
    (hfull : ∀ state ∈ states, readTrigram state.buffered ≠ prematureEndUnigram) :
    totalWeight alternativesForCp (states.map TrigramState.erase) <
      totalWeight alternativesForCp states := by
  rw [totalWeight, List.map_map, totalWeight]
  refine List.sum_lt_sum_of_ne_nil hne _ _ fun state hstate => weight_erase_lt fun hnil => ?_
  have := hfull state hstate
  rw [hnil] at this
  exact this rfl

/-- The loops end, and no assertion fails. -/
theorem exists_generateTrigrams (halts : FewAlternatives alternativesForCp) {fuel : ℕ}
    {states : List TrigramState} (hne : states ≠ [])
    (hfuel : totalWeight alternativesForCp states < fuel) (groups : List TrigramDisjunction) :
    ∃ groups', generateTrigrams alternativesForCp fuel states groups = some (.ok groups') := by
  induction fuel generalizing states groups with
  | zero => exact absurd hfuel (Nat.not_lt_zero _)
  | succ fuel ih =>
      rw [generateTrigrams]
      split
      · exact ⟨groups, rfl⟩
      · rename_i states' hextend
        have hlt := (extendStates_weight halts hextend).2 rfl
        exact ih (extendStates_ne_nil halts hne hextend) (by omega) groups
      · rename_i states' hextend
        have hfull := extendStates_complete halts hextend
        have hne' := extendStates_ne_nil halts hne hextend
        have hle := (extendStates_weight halts hextend).1
        rw [if_neg]
        · dsimp only
          split_ifs
          · exact ⟨_, rfl⟩
          · have hsort := sum_map_uniqueSort_le id TrigramState.le
              (TrigramState.weight alternativesForCp) (states'.map TrigramState.erase)
            have hlt := totalWeight_erase_lt alternativesForCp hne' hfull
            refine ih ?_ ?_ _
            · obtain ⟨state, hstate⟩ := List.exists_mem_of_ne_nil _ hne'
              have herase : state.erase ∈ states'.map TrigramState.erase :=
                List.mem_map_of_mem hstate
              obtain ⟨y, hy, -⟩ := exists_mem_uniqueSort id TrigramState.le herase
              exact List.ne_nil_of_mem hy
            · rw [totalWeight] at hlt ⊢
              omega
        · intro hmem
          obtain ⟨state, hstate, hpremature⟩ := List.mem_map.mp hmem
          exact hfull state hstate hpremature

end Termination

section Frontier

variable {alternativesForCp : List (List Str)} {spelling : List Str}

/-- The state has read the spelling up to a unigram. -/
def TrigramState.Follows (spelling : List Str) (state : TrigramState) : Prop :=
  UnigramSuffix spelling.flatten
    (state.buffered ++ (spelling.drop state.nextCodepoint).flatten)

def TrigramDisjunction.Hits (spelling : List Str) (td : TrigramDisjunction) : Prop :=
  ∃ p, UnigramSuffix spelling.flatten p ∧ IsUnigram (readTrigram p) ∧
    readTrigram p ∈ td.trigramAlternatives

theorem extendStates_follows (hspell : List.Forall₂ (· ∈ ·) spelling alternativesForCp)
    {states states' : List TrigramState} {needAnotherPass : Bool}
    (h : extendStates alternativesForCp states = some (states', needAnotherPass))
    (hfollows : ∃ state ∈ states, state.Follows spelling) :
    ∃ state ∈ states', state.Follows spelling := by
  obtain ⟨state, hstate, hfollow⟩ := hfollows
  induction states generalizing states' needAnotherPass with
  | nil => cases hstate
  | cons first states ih =>
      rw [extendStates] at h
      split_ifs at h with hfull
      · obtain ⟨⟨newStates, again⟩, hrest, heq⟩ := Option.map_eq_some_iff.mp h
        obtain ⟨rfl, rfl⟩ := Prod.mk.inj heq
        rcases List.mem_cons.mp hstate with rfl | hstate
        · exact ⟨state, List.mem_cons_self, hfollow⟩
        · obtain ⟨state', hstate', hfollow'⟩ := ih hrest hstate
          exact ⟨state', List.mem_cons_of_mem _ hstate', hfollow'⟩
      · split at h
        · cases h
        · rename_i runes hrunes
          obtain ⟨⟨newStates, again⟩, hrest, heq⟩ := Option.map_eq_some_iff.mp h
          obtain ⟨rfl, rfl⟩ := Prod.mk.inj heq
          rcases List.mem_cons.mp hstate with rfl | hstate
          · obtain ⟨hlt, hget⟩ := List.getElem?_eq_some_iff.mp hrunes
            have hlt' : state.nextCodepoint < spelling.length := hspell.length_eq ▸ hlt
            have hrune : spelling[state.nextCodepoint] ∈ runes := hget ▸ hspell.get hlt' hlt
            refine ⟨_, List.mem_append_left _ (List.mem_map_of_mem hrune), ?_⟩
            rw [TrigramState.Follows, List.append_assoc, ← List.flatten_cons,
              ← List.drop_eq_getElem_cons hlt']
            exact hfollow
          · obtain ⟨state', hstate', hfollow'⟩ := ih hrest hstate
            exact ⟨state', List.mem_append_right _ hstate', hfollow'⟩

theorem UnigramSuffix.drop {s p : Str} (h : UnigramSuffix s p) (hp : p ≠ []) :
    UnigramSuffix s (p.drop (readUnigram p).2) := by
  induction h with
  | refl s => exact .step hp (.refl _)
  | step hs _ ih => exact .step hs (ih hp)

theorem erase_follows {state : TrigramState} (hfollow : state.Follows spelling)
    (hfull : readTrigram state.buffered ≠ prematureEndUnigram) :
    state.erase.Follows spelling := by
  have hunigram : (readUnigram state.buffered).1 ≠ prematureEndUnigram := fun hp => by
    rw [readTrigram, if_pos (Or.inr hp)] at hfull
    exact hfull hp
  have hne : state.buffered ≠ [] := by
    intro hnil
    rw [hnil] at hunigram
    exact hunigram rfl
  obtain ⟨heq, hle⟩ := readUnigram_append hunigram (spelling.drop state.nextCodepoint).flatten
  have hdrop := UnigramSuffix.drop hfollow (List.append_ne_nil_of_left_ne_nil hne _)
  rw [heq, List.drop_append_of_le_length hle] at hdrop
  exact hdrop

theorem trigramGroup_hits {states : List TrigramState}
    (hfull : prematureEndUnigram ∉ states.map fun state => readTrigram state.buffered)
    {state : TrigramState} (hstate : state ∈ states) (hfollow : state.Follows spelling) :
    ∀ td ∈ trigramGroup states, td.Hits spelling := by
  intro td htd
  have hmem : readTrigram state.buffered ∈ states.map fun state => readTrigram state.buffered :=
    List.mem_map_of_mem hstate
  rw [trigramGroup] at htd
  dsimp only at htd
  split_ifs at htd with hwild
  · cases htd
  · obtain rfl := List.mem_singleton.mp htd
    have hne : readTrigram state.buffered ≠ prematureEndUnigram := fun heq => hfull (heq ▸ hmem)
    have happend := readTrigram_append hne (spelling.drop state.nextCodepoint).flatten
    refine ⟨_, hfollow, ?_, ?_⟩
    · rw [happend]
      exact not_or.mpr ⟨fun heq => hwild (heq ▸ hmem), hne⟩
    · rw [happend]
      obtain ⟨t, ht, heq⟩ := exists_mem_uniqueSort id (fun a b => decide (a ≤ b)) hmem
      obtain rfl : t = readTrigram state.buffered := heq
      exact ht

/-- Every group has a trigram of every spelling. -/
theorem generateTrigrams_hits (hspell : List.Forall₂ (· ∈ ·) spelling alternativesForCp)
    {fuel : ℕ} {states : List TrigramState} {groups groups' : List TrigramDisjunction}
    (h : generateTrigrams alternativesForCp fuel states groups = some (.ok groups'))
    (hfollows : ∃ state ∈ states, state.Follows spelling)
    (hhits : ∀ td ∈ groups, td.Hits spelling) : ∀ td ∈ groups', td.Hits spelling := by
  induction fuel generalizing states groups with
  | zero => cases h
  | succ fuel ih =>
      rw [generateTrigrams] at h
      split at h
      · obtain rfl := Except.ok.inj (Option.some.inj h)
        exact hhits
      · rename_i states' hextend
        exact ih h (extendStates_follows hspell hextend hfollows) hhits
      · rename_i states' hextend
        obtain ⟨state, hstate, hfollow⟩ := extendStates_follows hspell hextend hfollows
        by_cases hpremature :
            prematureEndUnigram ∈ states'.map fun state => readTrigram state.buffered
        · rw [if_pos hpremature] at h
          cases h
        · rw [if_neg hpremature] at h
          dsimp only at h
          have hhits' : ∀ td ∈ groups ++ trigramGroup states', td.Hits spelling := by
            rw [List.forall_mem_append]
            exact ⟨hhits, trigramGroup_hits hpremature hstate hfollow⟩
          split_ifs at h
          · obtain rfl := Except.ok.inj (Option.some.inj h)
            exact hhits'
          · refine ih h ?_ hhits'
            have hfull : readTrigram state.buffered ≠ prematureEndUnigram := fun heq =>
              hpremature (heq ▸ List.mem_map_of_mem hstate)
            have herase : state.erase ∈ states'.map TrigramState.erase :=
              List.mem_map_of_mem hstate
            obtain ⟨y, hy, heq⟩ := exists_mem_uniqueSort id TrigramState.le herase
            obtain rfl : y = state.erase := heq
            exact ⟨_, hy, erase_follows hfollow hfull⟩

end Frontier

end Flocate
