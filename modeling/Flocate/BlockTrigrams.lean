import Flocate.EncodingCorpus
import Flocate.Lib.Blocks

/-!
# Which trigrams of a block are indexed

The walk of `flush_block` over a block visits the trigrams of all its filenames, with one
exception: a filename of exactly three bytes at the end of the block is never reached.
-/

namespace Flocate

open Bytes Fault

/-- The three bytes of a trigram in the order in which they stand in a filename. -/
def trigramBytes (t : UInt32) : Str := leBytes 3 t.toNat

def nameTrigrams : Str → List UInt32
  | a :: b :: c :: s => readWindow a b c 0 :: nameTrigrams (b :: c :: s)
  | _ => []

def indexedTrigrams : List Str → List UInt32
  | [] => []
  | [s] => if s.length = 3 then [] else nameTrigrams s
  | s :: t :: ss => nameTrigrams s ++ indexedTrigrams (t :: ss)

theorem toNat_readWindow (a b c d : UInt8) : (readWindow a b c d).toNat =
    a.toNat + 256 * b.toNat + 65536 * c.toNat + 16777216 * d.toNat := by
  have ha := a.toNat_lt
  have hb := b.toNat_lt
  have hc := c.toNat_lt
  have hd := d.toNat_lt
  simp only [readWindow, leNat_cons, leNat_nil, UInt32.toNat_ofNat']
  omega

theorem readWindow_le_iff (a b c d : UInt8) : readWindow a b c d ≤ 0xffffff ↔ d = 0 := by
  have ha := a.toNat_lt
  have hb := b.toNat_lt
  have hc := c.toNat_lt
  rw [UInt32.le_iff_toNat_le, toNat_readWindow, ← UInt8.toNat_inj]
  change _ ≤ 16777215 ↔ d.toNat = 0
  omega

theorem readWindow_and (a b c d : UInt8) :
    readWindow a b c d &&& 0xffffff = readWindow a b c 0 := by
  have ha := a.toNat_lt
  have hb := b.toNat_lt
  have hc := c.toNat_lt
  rw [← UInt32.toNat_inj, UInt32.toNat_and, toNat_readWindow, toNat_readWindow]
  change _ &&& (2 ^ 24 - 1) = _
  rw [Nat.and_two_pow_sub_one_eq_mod]
  change _ = _ + 16777216 * 0
  omega

theorem readWindow_lt (a b c : UInt8) : readWindow a b c 0 < 0x1000000 := by
  have ha := a.toNat_lt
  have hb := b.toNat_lt
  have hc := c.toNat_lt
  rw [UInt32.lt_iff_toNat_lt, toNat_readWindow]
  change _ + 16777216 * 0 < 16777216
  omega

theorem trigramBytes_readWindow (a b c : UInt8) :
    trigramBytes (readWindow a b c 0) = [a, b, c] := by
  have ha := a.toNat_lt
  have hb := b.toNat_lt
  have hc := c.toNat_lt
  have h0 : (0 : UInt8).toNat = 0 := rfl
  rw [trigramBytes, toNat_readWindow, h0]
  simp only [leBytes, List.cons.injEq, and_true]
  refine ⟨?_, ?_, ?_⟩ <;>
  · rw [← UInt8.toNat_inj, UInt8.toNat_ofNat']
    omega

theorem readWindow_of_trigramBytes {t : UInt32} (ht : t < 0x1000000) {a b c : UInt8}
    (h : trigramBytes t = [a, b, c]) : readWindow a b c 0 = t := by
  rw [UInt32.lt_iff_toNat_lt] at ht
  change t.toNat < 16777216 at ht
  simp only [trigramBytes, leBytes, List.cons.injEq, and_true] at h
  obtain ⟨rfl, rfl, rfl⟩ := h
  rw [← UInt32.toNat_inj, toNat_readWindow]
  simp only [UInt8.toNat_ofNat', UInt8.toNat_zero]
  omega

theorem exists_three_le {s : Str} (h : 3 ≤ s.length) : ∃ a b c rest, s = a :: b :: c :: rest := by
  rcases s with _ | ⟨a, _ | ⟨b, _ | ⟨c, rest⟩⟩⟩
  · exact absurd h (by decide)
  · exact absurd h (by simp)
  · exact absurd h (by simp)
  · exact ⟨a, b, c, rest, rfl⟩

theorem mem_nameTrigrams {t : UInt32} (ht : t < 0x1000000) (s : Str) :
    t ∈ nameTrigrams s ↔ trigramBytes t <:+: s := by
  have hlen : (trigramBytes t).length = 3 := length_leBytes 3 _
  induction s using nameTrigrams.induct with
  | case1 a b c s ih =>
      rw [nameTrigrams, List.mem_cons, List.infix_cons_iff]
      refine or_congr ?_ ih
      constructor
      · rintro rfl
        rw [trigramBytes_readWindow]
        exact ⟨s, rfl⟩
      · intro h
        have h3 := List.prefix_iff_eq_take.mp h
        rw [hlen] at h3
        exact (readWindow_of_trigramBytes ht h3).symm
  | case2 s hs =>
      rw [nameTrigrams]
      · refine ⟨fun h => absurd h List.not_mem_nil, fun h => ?_⟩
        have hle := h.length_le
        rw [hlen] at hle
        obtain ⟨a, b, c, rest, rfl⟩ := exists_three_le hle
        exact absurd rfl (hs a b c rest)
      · exact hs

theorem nameTrigrams_of_length_lt {s : Str} (h : s.length < 3) : nameTrigrams s = [] := by
  match s with
  | [] => rfl
  | [_] => rfl
  | [_, _] => rfl
  | _ :: _ :: _ :: _ => simp only [List.length_cons] at h; omega

theorem lt_of_mem_nameTrigrams {t : UInt32} {s : Str} (h : t ∈ nameTrigrams s) : t < 0x1000000 := by
  induction s using nameTrigrams.induct with
  | case1 a b c s ih =>
      rw [nameTrigrams, List.mem_cons] at h
      rcases h with rfl | h
      · exact readWindow_lt a b c
      · exact ih h
  | case2 s hs =>
      rw [nameTrigrams] at h
      · cases h
      · exact hs

theorem filenameTrigrams_name {s : Str} (h0 : 0 ∉ s) (hl : 3 ≤ s.length) (rest : Str) :
    filenameTrigrams (s ++ 0 :: rest) = .ok (nameTrigrams s, rest) := by
  induction s using nameTrigrams.induct with
  | case1 a b c s ih =>
      cases s with
      | nil =>
          simp only [List.cons_append, List.nil_append]
          rw [filenameTrigrams, if_pos ((readWindow_le_iff a b c 0).mpr rfl), readWindow_and]
          rfl
      | cons d s =>
          have hd : ¬readWindow a b c d ≤ 0xffffff := by
            rw [readWindow_le_iff]
            rintro rfl
            exact h0 (by simp)
          have hrest := ih (fun hin => h0 (List.mem_cons_of_mem a hin)) (by simp)
          simp only [List.cons_append] at hrest ⊢
          rw [filenameTrigrams, if_neg hd, hrest, readWindow_and, nameTrigrams]
          rfl
  | case2 s hs =>
      obtain ⟨a, b, c, rest, rfl⟩ := exists_three_le hl
      exact absurd rfl (hs a b c rest)

theorem indexedTrigrams_cons {s : Str} {ss : List Str} (hss : ss ≠ []) :
    indexedTrigrams (s :: ss) = nameTrigrams s ++ indexedTrigrams ss := by
  cases ss with
  | nil => exact absurd rfl hss
  | cons t ss => rfl

theorem length_terminateNul_cons (s : Str) (ss : List Str) :
    (terminateNul (s :: ss)).length = s.length + 1 + (terminateNul ss).length := by
  simp [terminateNul]
  omega

theorem terminateNul_cons (s : Str) (ss : List Str) :
    terminateNul (s :: ss) = s ++ 0 :: terminateNul ss := by
  simp [terminateNul]

theorem blockTrigrams_of_length_le {p : Str} (h : p.length ≤ 4) : blockTrigrams p = .ok [] := by
  rw [blockTrigrams, dif_neg (by omega)]

/-- A filename of one or two bytes contributes nothing, wherever it stands. -/
theorem blockTrigrams_short {s : Str} (hs : IsName s) (hl : s.length < 3) {p : Str}
    {trgms : List UInt32} (hp : blockTrigrams p = .ok trgms) :
    blockTrigrams (s ++ 0 :: p) = .ok trgms := by
  by_cases hlen : 4 < (s ++ 0 :: p).length
  · match s, hs, hl with
    | [], hs, _ => exact absurd rfl hs.ne_nil
    | [a], hs, _ =>
        have ha : a ≠ 0 := fun h => hs.nul_free (by simp [h])
        rw [blockTrigrams, dif_pos hlen]
        simpa [ha] using hp
    | [a, b], hs, _ =>
        have ha : a ≠ 0 := fun h => hs.nul_free (by simp [h])
        have hb : b ≠ 0 := fun h => hs.nul_free (by simp [h])
        rw [blockTrigrams, dif_pos hlen]
        simpa [ha, hb] using hp
  · have hshort : p.length ≤ 4 := by
      rw [List.length_append, List.length_cons] at hlen
      omega
    rw [blockTrigrams_of_length_le hshort] at hp
    rw [blockTrigrams_of_length_le (by omega), ← Except.ok.inj hp]

theorem blockTrigrams_long {s : Str} (hs : IsName s) (hl : 3 ≤ s.length) {p : Str}
    (hlen : 4 < (s ++ 0 :: p).length) {trgms : List UInt32} (hp : blockTrigrams p = .ok trgms) :
    blockTrigrams (s ++ 0 :: p) = .ok (nameTrigrams s ++ trgms) := by
  have hname := filenameTrigrams_name hs.nul_free hl p
  obtain ⟨a, b, c, s, rfl⟩ := exists_three_le hl
  have ha : a ≠ 0 := fun h => hs.nul_free (by simp [h])
  have hb : b ≠ 0 := fun h => hs.nul_free (by simp [h])
  have hc : c ≠ 0 := fun h => hs.nul_free (by simp [h])
  rw [blockTrigrams, dif_pos hlen]
  simp only [List.cons_append, List.getElem_cons_zero, List.getElem_cons_succ, if_neg ha,
    if_neg hb, if_neg hc] at hname ⊢
  split
  · rename_i e he
    rw [hname] at he
    cases he
  · rename_i trgms' rest he
    rw [hname, Except.ok.injEq, Prod.mk.injEq] at he
    rw [← he.1, ← he.2, hp]
    rfl

/-- The walk over a block of filenames. -/
theorem blockTrigrams_terminateNul {ss : List Str} (hss : ∀ s ∈ ss, IsName s) :
    blockTrigrams (terminateNul ss) = .ok (indexedTrigrams ss) := by
  induction ss with
  | nil => exact blockTrigrams_of_length_le (Nat.zero_le _)
  | cons s ss ih =>
      rw [List.forall_mem_cons] at hss
      have hrest := ih hss.2
      rw [terminateNul_cons]
      by_cases hl : s.length < 3
      · rw [blockTrigrams_short hss.1 hl hrest]
        cases ss with
        | nil => simp [indexedTrigrams, nameTrigrams_of_length_lt hl]
        | cons t ss => rw [indexedTrigrams_cons (List.cons_ne_nil t ss),
            nameTrigrams_of_length_lt hl, List.nil_append]
      · cases ss with
        | nil =>
            by_cases h3 : s.length = 3
            · rw [blockTrigrams_of_length_le (by simp [terminateNul, h3]), indexedTrigrams,
                if_pos h3]
            · rw [blockTrigrams_long hss.1 (by omega) (by simp [terminateNul]; omega) hrest]
              simp [indexedTrigrams, h3]
        | cons t ss =>
            have hlen : 4 < (s ++ 0 :: terminateNul (t :: ss)).length := by
              have ht := List.length_pos_iff.mpr (hss.2 t List.mem_cons_self).ne_nil
              rw [List.length_append, List.length_cons, length_terminateNul_cons]
              omega
            rw [blockTrigrams_long hss.1 (by omega) hlen hrest,
              indexedTrigrams_cons (List.cons_ne_nil t ss)]

def Occurs (t : UInt32) (names : List Str) : Prop := ∃ s ∈ names, trigramBytes t <:+: s

/-- If the last filename of the block has three bytes, they occur in another one as well. -/
def LastNameCovered (names : List Str) : Prop :=
  ∀ s, names.getLast? = some s → s.length = 3 → ∃ s' ∈ names.dropLast, s <:+: s'

theorem mem_indexedTrigrams {t : UInt32} (ht : t < 0x1000000) (names : List Str) :
    t ∈ indexedTrigrams names ↔ (∃ s ∈ names.dropLast, trigramBytes t <:+: s) ∨
      ∃ s, names.getLast? = some s ∧ s.length ≠ 3 ∧ trigramBytes t <:+: s := by
  induction names using indexedTrigrams.induct with
  | case1 => simp [indexedTrigrams]
  | case2 s h => simp [indexedTrigrams, h]
  | case3 s h => simp [indexedTrigrams, h, mem_nameTrigrams ht]
  | case4 s s' ss ih =>
      rw [indexedTrigrams, List.mem_append, mem_nameTrigrams ht, ih, List.dropLast_cons_cons,
        List.getLast?_cons_cons, List.exists_mem_cons_iff, or_assoc]

theorem lt_of_mem_indexedTrigrams {t : UInt32} {names : List Str} (h : t ∈ indexedTrigrams names) :
    t < 0x1000000 := by
  induction names using indexedTrigrams.induct with
  | case1 => simp [indexedTrigrams] at h
  | case2 s hs => simp [indexedTrigrams, hs] at h
  | case3 s hs =>
      rw [indexedTrigrams, if_neg hs] at h
      exact lt_of_mem_nameTrigrams h
  | case4 s s' ss ih =>
      rw [indexedTrigrams, List.mem_append] at h
      exact h.elim lt_of_mem_nameTrigrams ih

end Flocate
