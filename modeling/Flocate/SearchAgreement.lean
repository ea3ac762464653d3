import Flocate.FileSearch
import Mathlib.Data.Finset.Card
import Mathlib.Data.List.TakeWhile

/-!
# The search by trigrams and the linear scan

If every trigram that is read off the needles occurs in one of them, no candidate block is lost and
the search reports what the scan over all blocks does. A trigram that no needle contains hides
every filename that is made of the needles and nothing else.
-/

namespace Flocate

open Bytes Fault

section Scan

variable {options : SearchOptions} {needles : List Needle} {corpus : Corpus}
  {blocks : List (List Str)}

theorem scanFileBlock_joinNul {names : List Str} (hne : names ≠ [])
    (hnames : ∀ s ∈ names, IsName s) :
    scanFileBlock options needles (joinNul names) = names.filter (reported options needles) := by
  rw [scanFileBlock, joinNul_append_nul hne,
    splitNul_terminateNul fun s hs => (hnames s hs).nul_free]

theorem mem_scanFileBlock (hexact : corpus.Exact blocks) {i : ℕ} {s : Str} :
    s ∈ (corpus.filenameBlocks[i]?).toList.flatMap (scanFileBlock options needles) ↔
      ∃ names, blocks[i]? = some names ∧ s ∈ names ∧ reported options needles s := by
  rw [hexact.filenameBlocks, List.getElem?_map]
  cases hi : blocks[i]? with
  | none => simp
  | some names =>
      have hmem := List.mem_of_getElem? hi
      simp [scanFileBlock_joinNul (hexact.ne_nil names hmem) (hexact.isName names hmem)]

theorem mem_scanDocids (hexact : corpus.Exact blocks) {docids : List UInt32} {s : Str} :
    s ∈ scanDocids options needles docids corpus ↔ ∃ d ∈ docids, ∃ names,
      blocks[d.toNat]? = some names ∧ s ∈ names ∧ reported options needles s := by
  simp only [scanDocids, List.mem_flatMap (f := fun docid : UInt32 => _), mem_scanFileBlock hexact]

theorem mem_scanAllDocids (hexact : corpus.Exact blocks) {s : Str} :
    s ∈ scanAllDocids options needles corpus ↔ ∃ i : ℕ, ∃ names,
      blocks[i]? = some names ∧ s ∈ names ∧ reported options needles s := by
  rw [scanAllDocids, List.mem_flatMap]
  constructor
  · rintro ⟨block, hblock, hs⟩
    obtain ⟨i, hi⟩ := List.getElem?_of_mem hblock
    exact ⟨i, (mem_scanFileBlock hexact).mp (by simpa [hi] using hs)⟩
  · rintro ⟨i, h⟩
    obtain ⟨block, hblock, hs⟩ := List.mem_flatMap.mp ((mem_scanFileBlock hexact).mpr h)
    exact ⟨block, List.mem_of_getElem? (Option.mem_toList.mp hblock), hs⟩

theorem haystack_suffix (matchBasename : Bool) (filename : Str) :
    haystack matchBasename filename <:+ filename := by
  rw [haystack]
  split
  · have h := List.takeWhile_prefix (l := filename.reverse) (p := (· ≠ '/'.toUInt8))
    rw [← List.reverse_suffix, List.reverse_reverse] at h
    exact h
  · exact List.suffix_rfl

theorem slash_not_mem_haystack {matchBasename : Bool} (h : matchBasename = true) (filename : Str) :
    '/'.toUInt8 ∉ haystack matchBasename filename := by
  rw [haystack, if_pos h, List.mem_reverse]
  intro hin
  have hne := List.mem_takeWhile_imp hin
  rw [decide_eq_true_eq] at hne
  exact hne rfl

/-- A name without a slash is its own basename. -/
theorem haystack_of_not_mem {matchBasename : Bool} {filename : Str}
    (h : matchBasename = true → '/'.toUInt8 ∉ filename) :
    haystack matchBasename filename = filename := by
  rw [haystack]
  split
  · rename_i hb
    rw [List.takeWhile_eq_self_iff.mpr, List.reverse_reverse]
    intro c hc
    exact decide_eq_true fun heq => h hb (heq ▸ List.mem_reverse.mp hc)
  · rfl

end Scan

section Needles

variable {needles : List Needle}

/-- The needles that `main` makes of arguments without wildcards. -/
theorem plain_of_makeNeedle {args : List Str}
    (hargs : ∀ arg ∈ args, 0 ∉ arg ∧ anyWildcard arg = false)
    (h : args.mapM (makeNeedle false) = .ok needles) :
    ∀ needle ∈ needles, needle.type = .strstr ∧ 0 ∉ needle.str := by
  induction args generalizing needles with
  | nil =>
      obtain rfl := Except.ok.inj h
      nofun
  | cons arg args ih =>
      rw [List.forall_mem_cons] at hargs
      rw [List.mapM_cons, bind_eq_ok] at h
      obtain ⟨needle, hneedle, h⟩ := h
      obtain ⟨rest, hrest, h⟩ := bind_eq_ok.mp h
      obtain rfl := Except.ok.inj h
      obtain ⟨htype, hstr⟩ := makeNeedle_eq_ok hargs.1.2 hneedle
      exact List.forall_mem_cons.mpr
        ⟨⟨htype, fun h0 => hargs.1.1 (mem_of_mem_unescape hstr h0)⟩, ih hargs.2 hrest⟩

theorem reported_iff {options : SearchOptions} (hplain : ∀ needle ∈ needles, needle.type = .strstr)
    {s : Str} : reported options needles s = true ↔
      (∀ needle ∈ needles, needle.str <:+: haystack options.matchBasename s) ∧
        options.visible s = true := by
  rw [reported, Bool.and_eq_true, List.all_eq_true]
  refine and_congr_left fun _ => forall₂_congr fun needle hneedle => ?_
  rw [«matches», hplain needle hneedle]
  simp only [decide_eq_true_eq]

/-- Every trigram that is read off the needles occurs in one of them. -/
def TrigramsOccur (needles : List Needle) : Prop :=
  ∀ needle ∈ needles, ∀ p, UnigramSuffix needle.str p → IsUnigram (readTrigram p) →
    ∃ needle' ∈ needles, trigramBytes (readTrigram p) <:+: needle'.str

/-- Every trigram that is read across a backslash occurs in a needle all the same. -/
def EscapedTrigramsOccur (needles : List Needle) : Prop :=
  ∀ needle ∈ needles, ∀ p, UnigramSuffix needle.str p → IsUnigram (readTrigram p) →
    EscapeInside p → ∃ needle' ∈ needles, trigramBytes (readTrigram p) <:+: needle'.str

theorem trigramsOccur_iff : TrigramsOccur needles ↔ EscapedTrigramsOccur needles := by
  constructor
  · exact fun h needle hneedle p hp hval _ => h needle hneedle p hp hval
  · intro h needle hneedle p hp hval
    by_cases hesc : EscapeInside p
    · exact h needle hneedle p hp hval hesc
    · obtain ⟨a, b, c, heq, hin⟩ := readTrigram_spec hval
      refine ⟨needle, hneedle, ?_⟩
      rw [heq, trigramBytes_readWindow]
      exact (hin hesc).trans hp.suffix.isInfix

theorem infix_of_mem_trigramGroups (hocc : TrigramsOccur needles) {td : TrigramDisjunction}
    (htd : td ∈ trigramGroups needles) {t : UInt32} (ht : t ∈ td.trigramAlternatives) :
    t < 0x1000000 ∧ ∃ needle ∈ needles, trigramBytes t <:+: needle.str := by
  obtain ⟨needle, hneedle, p, hp, hval, rfl⟩ := exists_of_mem_trigramGroups htd
  obtain rfl := List.mem_singleton.mp ht
  obtain ⟨a, b, c, heq, -⟩ := readTrigram_spec hval
  exact ⟨heq ▸ readWindow_lt a b c, hocc needle hneedle p hp hval⟩

end Needles

section Sound

variable {options : SearchOptions} {needles : List Needle} {corpus : Corpus}
  {blocks : List (List Str)}

/-- The block of a filename that is to be reported is in the lists of all trigrams. -/
theorem exists_list_of_reported (hexact : corpus.Exact blocks)
    (hplain : ∀ needle ∈ needles, needle.type = .strstr) (hocc : TrigramsOccur needles)
    {d : UInt32} {names : List Str} (hd : blocks[d.toNat]? = some names) {s : Str} (hs : s ∈ names)
    (hrep : reported options needles s = true) {td : TrigramDisjunction}
    (htd : td ∈ trigramGroups needles) {t : UInt32} (ht : t ∈ td.trigramAlternatives) :
    ∃ r, corpus.findTrigram t = some r ∧ d ∈ corpus.decode r := by
  obtain ⟨hlt, needle, hneedle, hin⟩ := infix_of_mem_trigramGroups hocc htd ht
  have hneedle' := ((reported_iff hplain).mp hrep).1 needle hneedle
  have hsuffix := haystack_suffix options.matchBasename s
  exact (hexact.exact t hlt d).mpr
    ⟨names, hd, s, hs, hin.trans (hneedle'.trans hsuffix.isInfix)⟩

theorem mem_of_reported (hexact : corpus.Exact blocks)
    (hplain : ∀ needle ∈ needles, needle.type = .strstr) (hocc : TrigramsOccur needles)
    {outcome : List Str} (h : DoSearchFile options needles corpus outcome) {i : ℕ}
    {names : List Str} (hi : blocks[i]? = some names) {s : Str} (hs : s ∈ names)
    (hrep : reported options needles s = true) : s ∈ outcome := by
  have hlt : i < 2 ^ 32 :=
    Nat.lt_of_lt_of_le (List.getElem?_eq_some_iff.mp hi).1 hexact.length_le
  obtain ⟨d, rfl⟩ : ∃ d : UInt32, d.toNat = i := ⟨UInt32.ofNat i, UInt32.toNat_ofNat_of_lt' hlt⟩
  have hlist {td : TrigramDisjunction} (htd : td ∈ trigramGroups needles) {t : UInt32} :=
    exists_list_of_reported (t := t) hexact hplain hocc hi hs hrep htd
  have hfresh : ∀ td ∈ trigramGroups needles, td.Fresh := fun td => trigramGroups_fresh
  cases h with
  | bruteForce => exact (mem_scanAllDocids hexact).mpr ⟨d.toNat, names, hi, hs, hrep⟩
  | earlyExit hne horder hlook =>
      have hinv := lookUp_inv hexact.trgm (horder.nodup_iff.mpr (List.nodup_dedup _)) hfresh
      obtain ⟨td, htd, hnone⟩ := hinv.stopped hlook
      obtain ⟨t, ht⟩ := List.exists_mem_of_ne_nil _ (hfresh td htd).ne_nil
      obtain ⟨r, hr, -⟩ := hlist htd ht
      rw [hnone t ht] at hr
      cases hr
  | @intersected order groups₁ groups events st hne horder hlook hsort _ hrun hend =>
      have hmem {td' : TrigramDisjunction} (htd' : td' ∈ groups) :=
        exists_of_mem_sorted hexact.trgm hfresh horder hlook hsort htd'
      have hevery : InEveryGroup corpus.decode (groups.map (·.readTrigrams)) d := by
        intro rs hrs
        obtain ⟨td', htd', rfl⟩ := List.mem_map.mp hrs
        obtain ⟨td, rfl, hl, hall, -⟩ := hmem htd'
        obtain ⟨t, ht⟩ := List.exists_mem_of_ne_nil _ hl.ne_nil
        have hseen := List.mem_reverse.mp (hall t ht)
        rw [horder.mem_iff, trigramsToLookup, List.mem_dedup, List.mem_flatMap] at hseen
        obtain ⟨td₀, htd₀, ht₀⟩ := hseen
        obtain ⟨r, hr, hd⟩ := hlist htd₀ ht₀
        have hrt := hexact.trgm t r hr
        exact ⟨r, (hl.mem r).mpr ⟨hrt ▸ ht, hrt ▸ hall t ht, hrt.symm ▸ hr⟩, hd⟩
      have hne' : trigramGroups needles ≠ [] := by
        intro hnil
        rw [hnil] at hne
        exact hne rfl
      have hinv := Run.invariant (fun _ _ _ hi hs => Selection.Inv.step hexact.sorted hi hs)
        (Selection.start_inv fun td' => hmem) hrun
      rcases hinv.state with ⟨-, hcov⟩ | ⟨_, hact⟩
      · exact absurd (hcov d hevery) List.not_mem_nil
      · rw [hact.running, if_neg Bool.false_ne_true]
        rcases hinv.ended (sorted_ne_nil hexact.trgm hne' hfresh horder hlook hsort) hend with
          ⟨-, hnone⟩ | ⟨-, hcov⟩
        · exact absurd hevery (hnone d)
        · exact (mem_scanDocids hexact).mpr ⟨d, hcov d hevery, names, hi, hs, hrep⟩

/-- The trigrams only leave blocks out. -/
theorem mem_scanAllDocids_of_mem (hexact : corpus.Exact blocks) {outcome : List Str}
    (h : DoSearchFile options needles corpus outcome) {s : Str} (hs : s ∈ outcome) :
    s ∈ scanAllDocids options needles corpus := by
  cases h with
  | bruteForce => exact hs
  | earlyExit => cases hs
  | @intersected order groups₁ groups events st =>
      cases hdone : st.done with
      | true =>
          rw [hdone, if_pos rfl] at hs
          cases hs
      | false =>
          rw [hdone, if_neg Bool.false_ne_true, mem_scanDocids hexact] at hs
          obtain ⟨d, -, h⟩ := hs
          exact (mem_scanAllDocids hexact).mpr ⟨d.toNat, h⟩

end Sound

def SearchAgrees (matchBasename : Bool) (fnmatch : Str → Str → Bool) (needles : List Needle) :
    Prop :=
  ∀ (visible : Str → Bool) (corpus : Corpus) (blocks : List (List Str)), corpus.Exact blocks →
    ∀ outcome, DoSearchFile ⟨matchBasename, fnmatch, visible⟩ needles corpus outcome →
      ∀ s, s ∈ outcome ↔ s ∈ scanAllDocids ⟨matchBasename, fnmatch, visible⟩ needles corpus

section Complete

variable {matchBasename : Bool} {fnmatch : Str → Str → Bool} {needles : List Needle}

def oneFile (s : Str) : Corpus where
  filenameBlocks := [s]
  findTrigram t := if trigramBytes t <:+: s then some (⟨t, 1, 0⟩, 1) else none
  decode _ := [0]

theorem oneFile_exact {s : Str} (hs : IsName s) : (oneFile s).Exact [[s]] where
  filenameBlocks := rfl
  isName := by simpa using hs
  ne_nil := by simp
  length_le := by simp
  trgm t r h := by
    obtain ⟨-, h⟩ := Option.ite_none_right_eq_some.mp h
    rw [← Option.some.inj h]
  numDocids t r h := by
    obtain ⟨-, h⟩ := Option.ite_none_right_eq_some.mp h
    rw [← Option.some.inj h]
    rfl
  sorted t r h := List.pairwise_singleton _ _
  exact t ht d := by
    constructor
    · rintro ⟨r, hr, hd⟩
      obtain ⟨hin, -⟩ := Option.ite_none_right_eq_some.mp hr
      rw [List.mem_singleton.mp hd]
      exact ⟨[s], rfl, s, List.mem_singleton_self s, hin⟩
    · rintro ⟨names, hn, s', hs', hin⟩
      obtain ⟨hlt, rfl⟩ := List.getElem?_eq_some_iff.mp hn
      have hd : d = 0 := UInt32.toNat_inj.mp (Nat.lt_one_iff.mp hlt)
      subst hd
      obtain rfl := List.mem_singleton.mp hs'
      exact ⟨_, if_pos hin, List.mem_singleton_self 0⟩

/-- A filename that matches, but lacks a trigram that is read off the needles, is not found. -/
theorem not_searchAgrees {s : Str} (hs : IsName s)
    (hrep : reported ⟨matchBasename, fnmatch, fun _ => true⟩ needles s = true)
    {td : TrigramDisjunction} (htd : td ∈ trigramGroups needles)
    (hnot : ∀ t ∈ td.trigramAlternatives, ¬trigramBytes t <:+: s) :
    ¬SearchAgrees matchBasename fnmatch needles := by
  intro h
  have hexact := oneFile_exact hs
  have hfresh : ∀ td ∈ trigramGroups needles, td.Fresh := fun td => trigramGroups_fresh
  have hscan : s ∈ scanAllDocids ⟨matchBasename, fnmatch, fun _ => true⟩ needles (oneFile s) :=
    (mem_scanAllDocids hexact).mpr ⟨0, [s], rfl, List.mem_singleton_self s, hrep⟩
  have hnodup : (trigramsToLookup (trigramGroups needles)).Nodup := List.nodup_dedup _
  have hinv := lookUp_inv hexact.trgm hnodup hfresh
  have hne : trigramsToLookup (trigramGroups needles) ≠ [] := by
    obtain ⟨t, ht⟩ := List.exists_mem_of_ne_nil _ (hfresh td htd).ne_nil
    exact List.ne_nil_of_mem (mem_of_perm_trigramsToLookup (.refl _) htd ht)
  have hflag : (lookUp (oneFile s).findTrigram (trigramsToLookup (trigramGroups needles))
      (trigramGroups needles)).2 = true := by
    by_contra hfalse
    rw [Bool.not_eq_true] at hfalse
    have hin := List.mem_map_of_mem (f := (·.trigramAlternatives)) htd
    rw [← hinv.alternatives] at hin
    obtain ⟨td', htd', heq⟩ := List.mem_map.mp hin
    have hl := hinv.lookedUp td' htd'
    refine hinv.running hfalse td' htd' ⟨?_, ?_⟩
    · rw [hl.remaining, List.countP_eq_zero]
      intro t ht
      have hmem := mem_of_perm_trigramsToLookup (.refl _) htd (heq ▸ ht)
      simpa using hmem
    · refine List.eq_nil_iff_forall_not_mem.mpr fun r hr => ?_
      obtain ⟨ha, -, hf⟩ := (hl.mem r).mp hr
      exact hnot _ (heq ▸ ha) (Option.ite_none_right_eq_some.mp hf).1
  have hout := h (fun _ => true) _ _ hexact [] (.earlyExit hne (.refl _) hflag) s
  exact List.not_mem_nil (hout.mpr hscan)

/-- A byte that can separate needles. -/
theorem exists_separator (a b c : UInt8) :
    ∃ x : UInt8, x ≠ 0 ∧ x ≠ '/'.toUInt8 ∧ x ∉ [a, b, c] := by
  have hcard : ({a, b, c} : Finset UInt8).card < ({1, 2, 3, 4} : Finset UInt8).card :=
    Nat.lt_of_le_of_lt Finset.card_le_three (by decide +kernel)
  obtain ⟨x, hx, hnot⟩ := Finset.exists_mem_notMem_of_card_lt_card hcard
  have hfour : ∀ x ∈ ({1, 2, 3, 4} : Finset UInt8), x ≠ 0 ∧ x ≠ '/'.toUInt8 := by
    decide +kernel
  exact ⟨x, (hfour x hx).1, (hfour x hx).2, by simpa using hnot⟩

/-- A trigram that no needle contains hides the needles' own concatenation. -/
theorem trigramsOccur_of_searchAgrees
    (hplain : ∀ needle ∈ needles, needle.type = .strstr ∧ 0 ∉ needle.str)
    (hslash : matchBasename = true → ∀ needle ∈ needles, '/'.toUInt8 ∉ needle.str)
    (h : SearchAgrees matchBasename fnmatch needles) : TrigramsOccur needles := by
  intro needle hneedle p hp hval
  by_contra hnot
  obtain ⟨a, b, c, heq, -⟩ := readTrigram_spec hval
  obtain ⟨td, htd, halt⟩ := exists_mem_trigramGroups hneedle hp hval
  have hbytes : trigramBytes (readTrigram p) = [a, b, c] := heq ▸ trigramBytes_readWindow a b c
  obtain ⟨x, h0, hx, hsep⟩ := exists_separator a b c
  let s : Str := (needles.map (·.str)).flatMap (· ++ [x])
  have hmem (y : UInt8) (hy : y ∈ s) : y = x ∨ ∃ needle ∈ needles, y ∈ needle.str := by
    simp only [s, List.mem_flatMap, List.mem_map, List.mem_append, List.mem_singleton] at hy
    obtain ⟨_, ⟨needle, hn, rfl⟩, hy | hy⟩ := hy
    · exact Or.inr ⟨needle, hn, hy⟩
    · exact Or.inl hy
  have hin (needle : Needle) (hn : needle ∈ needles) : needle.str <:+: s := by
    obtain ⟨l, r, hlr⟩ := List.append_of_mem (List.mem_map_of_mem (f := (·.str)) hn)
    refine ⟨l.flatMap (· ++ [x]), [x] ++ r.flatMap (· ++ [x]), ?_⟩
    simp [s, hlr]
  have hs : IsName s := by
    refine ⟨List.ne_nil_of_mem (a := x) ?_, fun hzero => ?_⟩
    · exact List.mem_flatMap.mpr
        ⟨needle.str, List.mem_map_of_mem hneedle, List.mem_append_right _ List.mem_cons_self⟩
    · rcases hmem 0 hzero with h0' | ⟨needle, hn, hzero⟩
      · exact h0 h0'.symm
      · exact (hplain needle hn).2 hzero
  refine not_searchAgrees hs ?_ htd ?_ h
  · rw [reported_iff fun needle hn => (hplain needle hn).1, haystack_of_not_mem]
    · exact ⟨hin, rfl⟩
    · intro hb hsl
      rcases hmem _ hsl with hsl | ⟨needle, hn, hsl⟩
      · exact hx hsl.symm
      · exact hslash hb needle hn hsl
  · intro t ht hinf
    rw [halt, List.mem_singleton] at ht
    rw [ht, hbytes] at hinf
    obtain ⟨_, hs', hinf⟩ := infix_of_infix_flatMap hsep (List.cons_ne_nil _ _) hinf
    obtain ⟨needle', hn, rfl⟩ := List.mem_map.mp hs'
    exact hnot ⟨needle', hn, hbytes ▸ hinf⟩

end Complete

/-- The search by trigrams agrees with the scan of all filenames if and only if every trigram that
is read across a backslash occurs in a needle nevertheless, or no basename can match at all. -/
theorem searchAgrees_iff {matchBasename : Bool} {fnmatch : Str → Str → Bool} {args : List Str}
    (hargs : ∀ arg ∈ args, 0 ∉ arg ∧ anyWildcard arg = false) {needles : List Needle}
    (hneedles : args.mapM (makeNeedle false) = .ok needles) :
    SearchAgrees matchBasename fnmatch needles ↔
      (matchBasename = true ∧ ∃ needle ∈ needles, '/'.toUInt8 ∈ needle.str) ∨
        EscapedTrigramsOccur needles := by
  have hplain := plain_of_makeNeedle hargs hneedles
  have hstrstr : ∀ needle ∈ needles, needle.type = .strstr := fun n hn => (hplain n hn).1
  rw [← trigramsOccur_iff]
  constructor
  · intro h
    by_cases hslash : matchBasename = true ∧ ∃ needle ∈ needles, '/'.toUInt8 ∈ needle.str
    · exact Or.inl hslash
    · refine Or.inr (trigramsOccur_of_searchAgrees hplain (fun hb n hn hin => ?_) h)
      exact hslash ⟨hb, n, hn, hin⟩
  · intro h visible corpus blocks hexact outcome hrun s
    refine ⟨mem_scanAllDocids_of_mem hexact hrun, fun hs => ?_⟩
    obtain ⟨i, names, hi, hmem, hrep⟩ := (mem_scanAllDocids hexact).mp hs
    rcases h with ⟨hb, needle, hneedle, hslash⟩ | hocc
    · have hin := ((reported_iff hstrstr).mp hrep).1 needle hneedle
      exact absurd (hin.subset hslash) (slash_not_mem_haystack hb s)
    · exact mem_of_reported hexact hstrstr hocc hrun hi hmem hrep

/-- The argument `\\abc`, as a glob, stands for a needle of one backslash and three letters. -/
theorem searchAgrees_escaped : SearchAgrees false (fun _ _ => false)
    [⟨.strstr, ['\\'.toUInt8, 'a'.toUInt8, 'b'.toUInt8, 'c'.toUInt8]⟩] := by
  let arg : Str := ['\\'.toUInt8, '\\'.toUInt8, 'a'.toUInt8, 'b'.toUInt8, 'c'.toUInt8]
  have harg : 0 ∉ arg ∧ anyWildcard arg = false := by decide +kernel
  have hneedles : [arg].mapM (makeNeedle false) = .ok
      [⟨.strstr, ['\\'.toUInt8, 'a'.toUInt8, 'b'.toUInt8, 'c'.toUInt8]⟩] := by decide +kernel
  refine (searchAgrees_iff (List.forall_mem_singleton.mpr harg) hneedles).mpr (Or.inr ?_)
  intro needle hneedle p hp hval hesc
  have htails : ∀ p ∈ needle.str.tails, IsUnigram (readTrigram p) → ¬EscapeInside p := by
    rw [List.mem_singleton.mp hneedle]
    decide
  exact absurd hesc (htails p ((List.mem_tails _ _).mpr hp.suffix) hval)

/-- The argument `a\\bcd` stands for the needle `a\bcd`, off which the trigram `abc` is read. -/
theorem not_searchAgrees_backslash :
    let arg : Str :=
      ['a'.toUInt8, '\\'.toUInt8, '\\'.toUInt8, 'b'.toUInt8, 'c'.toUInt8, 'd'.toUInt8]
    let needle : Needle :=
      ⟨.strstr, ['a'.toUInt8, '\\'.toUInt8, 'b'.toUInt8, 'c'.toUInt8, 'd'.toUInt8]⟩
    (0 ∉ arg ∧ anyWildcard arg = false) ∧ [arg].mapM (makeNeedle false) = .ok [needle] ∧
      ¬SearchAgrees false (fun _ _ => false) [needle] := by
  intro arg needle
  refine ⟨by decide +kernel, by decide +kernel, ?_⟩
  have hval : IsUnigram (readTrigram needle.str) := by decide
  obtain ⟨td, htd, halt⟩ := exists_mem_trigramGroups (List.mem_singleton_self needle) (.refl _) hval
  refine not_searchAgrees (s := needle.str) ⟨by decide, by decide⟩ (by decide) htd fun t ht => ?_
  rw [halt, List.mem_singleton] at ht
  rw [ht]
  decide

end Flocate
