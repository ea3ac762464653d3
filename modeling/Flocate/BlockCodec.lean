import Flocate.BitPacking
import Flocate.VarbyteCodec

/-!
# Blocks of deltas

Every block that `encode_pfor_single_block` writes is read back by the decoder, whichever format is
chosen, if the streams that are packed by `BitWriter` fit; otherwise the encoder runs into an
undefined shift.
-/

namespace Flocate

open Bytes Fault PostingListBuilder

section Packed

variable {w : ℕ} (mem : Memory) (out : ℕ)

/-- The region that a `BitWriter` fills. -/
theorem writeAll_ok {vals : List UInt32} (hv : ∀ v ∈ vals, v.toNat < 2 ^ w)
    (hfit : Fits vals.length w) : ∃ mem' bs,
      ({ out := out, bits := w } : BitWriter).writeAll mem vals = .ok mem' ∧
      Emits mem mem' out bs ∧ bs.length = bytesForPackedBits vals.length w ∧
      ∀ m p, HasBytes m p bs → Bytes.Holds (fun b => m (p + b)) w (vals.map (·.toNat)) := by
  obtain ⟨mem', hok, hholds, hkeep⟩ :=
    (BitWriter.at_start out w mem).writeAll hv (by rwa [List.length_nil, Nat.zero_add])
  rw [List.nil_append] at hholds
  refine ⟨mem', region mem' out (bytesForPackedBits vals.length w), hok,
    ⟨hkeep, hasBytes_region _ _ _⟩, length_region _ _ _, fun m p hm => hholds.congr fun b hb => ?_⟩
  have hlt : b < bytesForPackedBits vals.length w := by
    rw [List.length_map] at hb
    rw [bytesForPackedBits, divRoundUp]
    omega
  rw [hm b (by rwa [length_region]), ← hasBytes_region mem' out _ b (by rwa [length_region])]

theorem writeAll_shift {vals : List UInt32} (hfit : ¬Fits vals.length w) :
    ({ out := out, bits := w } : BitWriter).writeAll mem vals = .error .shift := by
  refine BitWriter.writeAll_error (Nat.zero_lt_succ 7) fun h => hfit fun i hi => ?_
  have hi' := h i hi
  dsimp only at hi'
  rwa [Nat.zero_add] at hi'

theorem masked_lt {ds : List UInt32} (hw : w ≤ 32) :
    ∀ v ∈ ds.map (· &&& maskForBits w), v.toNat < 2 ^ w := by
  intro v hv
  obtain ⟨d, -, rfl⟩ := List.mem_map.mp hv
  rw [toNat_and_maskForBits hw]
  exact Nat.mod_lt _ (Nat.two_pow_pos w)

/-- The base values of a block, in one stream or in four. -/
theorem encodeBitmap_ok {ds : List UInt32} {interleaved : Bool} (hw : w ≤ 32)
    (hlen : interleaved = true → ds.length = 128)
    (hfit : interleaved = false → Fits ds.length w) : ∃ mem' bs,
      encodeBitmap ds w interleaved mem out = .ok (mem', out + bs.length) ∧
      Emits mem mem' out bs ∧ bs.length = bytesForPackedBits ds.length w ∧
      ∀ m p, HasBytes m p bs →
        readBitmap interleaved m p ds.length w = ds.map (· &&& maskForBits w) := by
  have hmasked : ∀ v ∈ ds.map (· &&& maskForBits w), v.toNat < 2 ^ w := masked_lt hw
  have hlength : (ds.map (· &&& maskForBits w)).length = ds.length := List.length_map _
  cases interleaved with
  | false =>
      obtain ⟨mem', bs, hok, hemit, hbs, hholds⟩ := writeAll_ok mem out hmasked
        (by rw [hlength]; exact hfit rfl)
      rw [hlength] at hbs
      refine ⟨mem', bs, ?_, hemit, hbs, fun m p hm => ?_⟩
      · rw [encodeBitmap, hbs]
        simp only [hok]
        rfl
      · have hread := BitReader.readMany_eq hw hmasked (by rw [hlength]; exact hfit rfl)
          (hholds m p hm)
        rwa [hlength] at hread
  | true =>
      have h128 := hlen rfl
      have hbytes : bytesForPackedBits ds.length w = 16 * w := by
        rw [bytesForPackedBits, divRoundUp, h128]
        omega
      have hstart : ∀ s < 4, InterleavedBitWriter.At (out + s * 4) w (lane s ([] : List UInt32))
          { out := out + s * 4, bits := w } mem :=
        fun s _ => InterleavedBitWriter.at_start (out + s * 4) w mem
      have hspec := writeInterleaved_spec hw hmasked hstart
      simp only [List.nil_append, List.length_nil] at hspec
      obtain ⟨hholds, hkeep⟩ := hspec
      refine ⟨_, region _ out (16 * w), ?_, ⟨hkeep, hasBytes_region _ _ _⟩, ?_, fun m p hm => ?_⟩
      · simp only [encodeBitmap, if_true, h128]
        rw [length_region, ← hbytes, h128]
      · rw [length_region, hbytes]
      · have hread : ∀ s < 4, Bytes.Holds (fun b => m (streamAddr (p + s * 4) b)) w
            ((lane s (ds.map (· &&& maskForBits w))).map (·.toNat)) := by
          refine fun s hs => (hholds s hs).congr fun b hb => ?_
          have h32 : (128 + 3 - s) / 4 = 32 := by omega
          rw [List.length_map, length_lane hs, hlength, h128, h32] at hb
          have hlt : s * 4 + 16 * (b / 4) + b % 4 < 16 * w := by omega
          have hsame := hm (s * 4 + 16 * (b / 4) + b % 4) (by rwa [length_region])
          rw [← hasBytes_region _ out (16 * w) _ (by rwa [length_region])] at hsame
          simpa only [streamAddr, Nat.add_assoc] using hsame
        have heq := readInterleaved_eq hw hmasked hread
        rwa [hlength] at heq

theorem encodeBitmap_shift {ds : List UInt32} (hfit : ¬Fits ds.length w) :
    encodeBitmap ds w false mem out = .error .shift := by
  rw [encodeBitmap]
  simp only [Bool.false_eq_true, if_false]
  rw [writeAll_shift mem out (by rwa [List.length_map])]
  rfl

end Packed

section Exceptions

variable {w : ℕ}

/-- What does not fit into the base value, as a condition on the value. -/
def IsException (w : ℕ) (d : UInt32) : Bool := d >>> UInt32.ofNat w ≠ 0

theorem exceptions_eq (ds : List UInt32) (w : ℕ) :
    exceptions ds w =
      (ds.zipIdx.filter fun d => IsException w d.1).map fun d => d.1 >>> UInt32.ofNat w := by
  have hfst : ds = ds.zipIdx.map Prod.fst := (List.zipIdx_map_fst 0 ds).symm
  rw [exceptions]
  nth_rewrite 1 [hfst]
  rw [List.map_map, List.filter_map]
  rfl

theorem zip_exceptions (ds : List UInt32) (w : ℕ) :
    (exceptions ds w).zip (exceptionIndexes ds w) =
      (ds.zipIdx.filter fun d => IsException w d.1).map fun d =>
        (d.1 >>> UInt32.ofNat w, d.2) := by
  rw [exceptions_eq, exceptionIndexes]
  exact List.zip_map' ..

theorem length_exceptionIndexes (ds : List UInt32) (w : ℕ) :
    (exceptionIndexes ds w).length = (exceptions ds w).length := by
  rw [exceptions_eq, exceptionIndexes, List.length_map, List.length_map]
  rfl

theorem length_exceptions_le (ds : List UInt32) (w : ℕ) :
    (exceptions ds w).length ≤ ds.length := by
  rw [exceptions]
  exact (List.length_filter_le _ _).trans_eq (List.length_map _)

theorem lt_of_mem_exceptionIndexes {ds : List UInt32} {i : ℕ} (h : i ∈ exceptionIndexes ds w) :
    i < ds.length := by
  obtain ⟨⟨d, j⟩, hd, rfl⟩ := List.mem_map.mp h
  exact List.snd_lt_of_mem_zipIdx (List.mem_of_mem_filter hd)

/-- The set bits of the bitmap are the indexes of the exceptions. -/
theorem readExceptionBitmap_eq (mem : Memory) (p num i : ℕ) (hi : 8 ∣ i) :
    readExceptionBitmap mem num (p + i / 8) i =
      (List.range' i (num - i)).filter fun j => bitAt (fun b => mem (p + b)) j := by
  induction hn : num - i using Nat.strong_induction_on generalizing i with
  | _ n ih =>
      rw [readExceptionBitmap]
      split
      · rename_i hlt
        dsimp only
        have hword (j : ℕ) (hj : j < 64) : (readLe 8 mem (p + i / 8)).testBit j =
            bitAt (fun b => mem (p + b)) (i + j) := by
          rw [testBit_readLe, decide_eq_true (by omega), Bool.true_and, bitAt, bitAt,
            show (i + j) / 8 = i / 8 + j / 8 by omega, show (i + j) % 8 = j % 8 by omega,
            ← Nat.add_assoc]
        have hrest := ih (num - (i + 64)) (by omega) (i + 64) (by omega) rfl
        rw [show p + (i + 64) / 8 = p + i / 8 + 8 by omega] at hrest
        rw [hrest, ← hn]
        by_cases h64 : num - i < 64
        · rw [if_pos h64, show num - (i + 64) = 0 by omega]
          have hsplit : List.range' i 64 =
              List.range' i (num - i) ++ List.range' num (64 - (num - i)) := by
            have h := List.range'_append_1 (s := i) (m := num - i) (n := 64 - (num - i))
            rw [show i + (num - i) = num by omega,
              show num - i + (64 - (num - i)) = 64 by omega] at h
            exact h.symm
          rw [hsplit, List.filter_append]
          have hmask (j : ℕ) : (readLe 8 mem (p + i / 8) &&& (1 <<< (num - i) - 1)).testBit j =
              (decide (j < num - i) && (readLe 8 mem (p + i / 8)).testBit j) := by
            rw [Nat.one_shiftLeft, Nat.and_two_pow_sub_one_eq_mod, Nat.testBit_mod_two_pow]
          have hnone : (List.range' num (64 - (num - i))).filter (fun idx =>
              (readLe 8 mem (p + i / 8) &&& (1 <<< (num - i) - 1)).testBit (idx - i)) = [] := by
            rw [List.filter_eq_nil_iff]
            intro j hj
            rw [List.mem_range'_1] at hj
            rw [hmask, decide_eq_false (by omega)]
            exact Bool.false_ne_true
          rw [hnone, List.append_nil, List.range'_zero, List.filter_nil, List.append_nil]
          refine List.filter_congr fun j hj => ?_
          rw [List.mem_range'_1] at hj
          rw [hmask, decide_eq_true (by omega), Bool.true_and, hword _ (by omega),
            show i + (j - i) = j by omega]
        · rw [if_neg h64]
          have hsplit : List.range' i (num - i) =
              List.range' i 64 ++ List.range' (i + 64) (num - (i + 64)) := by
            have h := List.range'_append_1 (s := i) (m := 64) (n := num - (i + 64))
            rw [show 64 + (num - (i + 64)) = num - i by omega] at h
            exact h.symm
          rw [hsplit, List.filter_append]
          refine congrArg (· ++ _) (List.filter_congr fun j hj => ?_)
          rw [List.mem_range'_1] at hj
          rw [hword _ (by omega), show i + (j - i) = j by omega]
      · rw [← hn, show num - i = 0 by omega]
        rfl

/-- Changing the places of some elements, each place by its element. -/
theorem foldl_modify {α β : Type*} (P : α → Bool) (f : α → β → β) (l : List α) (done rest : List β)
    (h : rest.length = l.length) :
    ((l.zipIdx done.length).filter fun a => P a.1).foldl
        (fun out a => out.modify a.2 (f a.1)) (done ++ rest) =
      done ++ List.zipWith (fun a b => if P a then f a b else b) l rest := by
  induction l generalizing done rest with
  | nil =>
      obtain rfl := List.length_eq_zero_iff.mp h
      rfl
  | cons a l ih =>
      obtain ⟨b, rest, rfl⟩ := List.exists_cons_of_length_eq_add_one h
      have hrest := Nat.succ.inj h
      have hdone (c : β) : done ++ c :: rest = (done ++ [c]) ++ rest := by simp
      have hstep (c : β) := ih (done ++ [c]) rest hrest
      simp only [List.length_append, List.length_singleton] at hstep
      rw [List.zipIdx_cons, List.filter_cons, List.zipWith_cons_cons]
      by_cases hP : P a
      · have hmod : (done ++ b :: rest).modify done.length (f a) = done ++ f a b :: rest := by
          simp [List.modify_eq_take_drop]
        rw [if_pos hP, List.foldl_cons, hmod, hdone, hstep, if_pos hP]
        simp
      · rw [if_neg hP, hdone, hstep, if_neg hP]
        simp

end Exceptions

section Widths

theorem lt_two_pow_numBits (d : UInt32) : d.toNat < 2 ^ numBits d := by
  rw [numBits]
  split
  · rename_i h
    rw [h]
    exact Nat.one_pos
  · exact Nat.lt_log2_self

theorem numBits_le (d : UInt32) : numBits d ≤ 32 := by
  rw [numBits]
  split
  · exact Nat.zero_le _
  · rename_i h
    have hne : d.toNat ≠ 0 := fun h0 => h (UInt32.toNat_inj.mp h0)
    exact (Nat.log2_lt hne).mpr d.toNat_lt

theorem two_pow_le_of_lt_numBits {d : UInt32} {w : ℕ} (h : w < numBits d) : 2 ^ w ≤ d.toNat := by
  rw [numBits] at h
  split at h
  · exact absurd h (Nat.not_lt_zero w)
  · rename_i h0
    have hne : d.toNat ≠ 0 := fun h => h0 (UInt32.toNat_inj.mp h)
    exact (Nat.pow_le_pow_right (by omega) (Nat.le_of_lt_succ h)).trans (Nat.log2_self_le hne)

theorem toNat_shiftRight {w : ℕ} (hw : w < 32) (d : UInt32) :
    (d >>> UInt32.ofNat w).toNat = d.toNat / 2 ^ w := by
  rw [UInt32.toNat_shiftRight, UInt32.toNat_ofNat', Nat.mod_eq_of_lt (by omega : w < 2 ^ 32),
    Nat.mod_eq_of_lt hw, Nat.shiftRight_eq_div_pow]

theorem isException_iff {w : ℕ} (hw : w < 32) {d : UInt32} :
    IsException w d = true ↔ 2 ^ w ≤ d.toNat := by
  rw [IsException, decide_eq_true_iff, ne_eq, ← UInt32.toNat_inj, toNat_shiftRight hw]
  change ¬d.toNat / 2 ^ w = 0 ↔ _
  rw [Nat.div_eq_zero_iff_lt (Nat.two_pow_pos w), Nat.not_lt]

/-- A value is its base value and its exception. -/
theorem shiftLeft_or_mask {w : ℕ} (hw : w < 32) (d : UInt32) :
    (d >>> UInt32.ofNat w) <<< UInt32.ofNat w ||| d &&& maskForBits w = d := by
  refine UInt32.toNat_inj.mp (Nat.eq_of_testBit_eq fun j => ?_)
  rw [UInt32.toNat_or, Nat.testBit_or, testBit_shiftLeft _ hw, testBit_shiftRight _ hw,
    toNat_and_maskForBits hw.le, Nat.testBit_mod_two_pow]
  by_cases hj : j < w
  · rw [decide_eq_false (by omega : ¬w ≤ j), decide_eq_true hj]
    simp
  · rw [decide_eq_true (by omega : w ≤ j), decide_eq_false hj, Bool.true_and, Bool.false_and,
      Bool.or_false, Nat.add_sub_cancel' (Nat.le_of_not_lt hj)]
    by_cases h32 : j < 32
    · rw [decide_eq_true h32, Bool.true_and]
    · rw [decide_eq_false h32, testBit_toNat_of_ge d.toNat_lt (by omega), Bool.false_and]

theorem and_mask_of_lt {w : ℕ} (hw : w ≤ 32) {d : UInt32} (hd : d.toNat < 2 ^ w) :
    d &&& maskForBits w = d :=
  UInt32.toNat_inj.mp ((toNat_and_maskForBits hw d).trans (Nat.mod_eq_of_lt hd))

theorem le_foldl_max (l : List ℕ) (a : ℕ) : a ≤ l.foldl max a ∧ ∀ b ∈ l, b ≤ l.foldl max a := by
  induction l generalizing a with
  | nil => exact ⟨Nat.le_refl a, nofun⟩
  | cons b l ih =>
      obtain ⟨h1, h2⟩ := ih (max a b)
      rw [List.foldl_cons]
      exact ⟨(Nat.le_max_left a b).trans h1,
        List.forall_mem_cons.mpr ⟨(Nat.le_max_right a b).trans h1, h2⟩⟩

theorem foldl_max_mem (l : List ℕ) (a : ℕ) : l.foldl max a = a ∨ l.foldl max a ∈ l := by
  induction l generalizing a with
  | nil => exact Or.inl rfl
  | cons b l ih =>
      rw [List.foldl_cons]
      rcases ih (max a b) with h | h
      · rw [h]
        rcases Nat.le_total a b with hab | hab
        · exact Or.inr (by rw [Nat.max_eq_right hab]; exact List.mem_cons_self)
        · exact Or.inl (Nat.max_eq_left hab)
      · exact Or.inr (List.mem_cons_of_mem b h)

/-- The greatest width is the width of some value, unless there is none. -/
structure MaxBits (ds : List UInt32) (maxBits : ℕ) : Prop where
  le : maxBits ≤ 32
  lt : ∀ d ∈ ds, d.toNat < 2 ^ maxBits
  attained : 0 < maxBits → ∃ d ∈ ds, numBits d = maxBits

theorem maxBits_spec (ds : List UInt32) : MaxBits ds ((ds.map numBits).foldl max 0) := by
  have hmem := foldl_max_mem (ds.map numBits) 0
  have hmax := (le_foldl_max (ds.map numBits) 0).2
  refine ⟨?_, fun d hd => ?_, fun hpos => ?_⟩
  · rcases hmem with h | h
    · omega
    · obtain ⟨d, -, hd⟩ := List.mem_map.mp h
      rw [← hd]
      exact numBits_le d
  · exact (lt_two_pow_numBits d).trans_le
      (Nat.pow_le_pow_right (by omega) (hmax _ (List.mem_map_of_mem hd)))
  · obtain ⟨d, hd, heq⟩ := List.mem_map.mp (hmem.resolve_left (by omega))
    exact ⟨d, hd, heq⟩

theorem tryBitmap_le (ds : List UInt32) (maxBits : ℕ) : (tryBitmap ds maxBits).2.2 ≤ maxBits := by
  unfold tryBitmap
  refine List.foldlRecOn (motive := fun st : ℕ × ℕ × ℕ => st.2.2 ≤ maxBits) _ _ (Nat.le_refl _) ?_
  intro st h x _
  dsimp only
  split
  · exact Nat.sub_le _ _
  · exact h

/-- A varbyte block is chosen at one of the widths that were tried. -/
theorem tryVarbyte_spec (num maxBits : ℕ) (atLeast : ℕ → ℕ) (l : List ℕ) (st : ℕ × ℕ × Bool) :
    let res := tryVarbyte num maxBits atLeast l st
    (res.2.2 = true ∧ res.2.1 ∈ l) ∨ res.2 = st.2 := by
  induction l generalizing st with
  | nil => exact Or.inr rfl
  | cons x l ih =>
      obtain ⟨bestCost, best⟩ := st
      rw [tryVarbyte]
      dsimp only
      split
      · exact Or.inr rfl
      · split
        · rename_i hcost
          rcases ih (_, x, true) with h | h
          · exact Or.inl ⟨h.1, List.mem_cons_of_mem x h.2⟩
          · refine Or.inl ?_
            rw [h]
            exact ⟨rfl, List.mem_cons_self⟩
        · exact (ih (bestCost, best)).imp_left fun h => ⟨h.1, List.mem_cons_of_mem x h.2⟩

/-- What the format that is chosen says about the values. -/
theorem decideBlockType_spec (ds : List UInt32) :
    (decideBlockType ds = (.constant, numBits (ds.headD 0), 0) ∧ ∀ d ∈ ds, d = ds.headD 0) ∨
      (∃ w ≤ 32, decideBlockType ds = (.forBlock, w, 0) ∧ ∀ d ∈ ds, d.toNat < 2 ^ w) ∨
      (∃ w < 32, decideBlockType ds = (.pforVb, w, 0) ∧ exceptions ds w ≠ []) ∨
      ∃ w < 32, ∃ e ≤ 32, decideBlockType ds = (.pforBitmap, w, e) ∧
        ∀ d ∈ exceptions ds w, d.toNat < 2 ^ e := by
  rw [decideBlockType]
  split
  · rename_i hall
    exact Or.inl ⟨rfl, fun d hd => of_decide_eq_true (List.all_eq_true.mp hall d hd)⟩
  · refine Or.inr ?_
    have hmax := maxBits_spec ds
    set maxBits := (ds.map numBits).foldl max 0
    have hle := tryBitmap_le ds maxBits
    have hvar := tryVarbyte_spec ds.length maxBits (fun n => ds.countP (n ≤ numBits ·))
      (List.range maxBits) ((tryBitmap ds maxBits).2.1, (tryBitmap ds maxBits).2.2, false)
    dsimp only at hvar ⊢
    set res := tryVarbyte ds.length maxBits (fun n => ds.countP (n ≤ numBits ·))
      (List.range maxBits) ((tryBitmap ds maxBits).2.1, (tryBitmap ds maxBits).2.2, false)
    have hle32 := hmax.le
    split
    · rename_i hv
      refine Or.inr (Or.inl ⟨res.2.1, ?_⟩)
      have hlt : res.2.1 < maxBits := by
        rcases hvar with h | h
        · exact List.mem_range.mp h.2
        · exact absurd (hv.symm.trans (congrArg Prod.snd h)) Bool.noConfusion
      obtain ⟨d, hd, hbits⟩ := hmax.attained (by omega)
      refine ⟨by omega, rfl, List.ne_nil_of_mem (a := d >>> UInt32.ofNat res.2.1) ?_⟩
      rw [exceptions, List.mem_filter]
      refine ⟨List.mem_map_of_mem hd, ?_⟩
      exact (isException_iff (by omega)).mpr (two_pow_le_of_lt_numBits (by omega))
    · rename_i hv
      have hwidth : res.2.1 = (tryBitmap ds maxBits).2.2 := by
        rcases hvar with h | h
        · exact absurd h.1 hv
        · exact congrArg Prod.fst h
      rw [hwidth]
      split
      · exact Or.inl ⟨maxBits, hle32, rfl, hmax.lt⟩
      · rename_i hne
        refine Or.inr (Or.inr ⟨(tryBitmap ds maxBits).2.2, by omega,
          maxBits - (tryBitmap ds maxBits).2.2, by omega, rfl, fun x hx => ?_⟩)
        obtain ⟨d, hd, rfl⟩ := List.mem_map.mp (List.mem_of_mem_filter hx)
        rw [toNat_shiftRight (by omega), Nat.div_lt_iff_lt_mul (Nat.two_pow_pos _), ← Nat.pow_add,
          Nat.sub_add_cancel hle]
        exact hmax.lt d hd

end Widths

section Formats

variable {ds : List UInt32} {w : ℕ} {interleaved : Bool} (mem : Memory) (out : ℕ)

/-- The header of a block gives the format and the width back. -/
theorem header_spec (blockType : BlockType) {w : ℕ} (hw : w < 64) :
    (UInt8.ofNat (blockType.code <<< 6 ||| w) >>> 6).toNat = blockType.code ∧
      (UInt8.ofNat (blockType.code <<< 6 ||| w) &&& 0x3f).toNat = w := by
  have hcode : blockType.code < 4 := by cases blockType <;> decide
  have hor : blockType.code <<< 6 ||| w = 64 * blockType.code + w := by
    rw [Nat.shiftLeft_eq, Nat.mul_comm]
    exact (Nat.two_pow_add_eq_or_of_lt (i := 6) hw blockType.code).symm
  have htoNat : (UInt8.ofNat (blockType.code <<< 6 ||| w)).toNat = 64 * blockType.code + w := by
    rw [hor, UInt8.toNat_ofNat']
    omega
  constructor
  · rw [UInt8.toNat_shiftRight, htoNat]
    change (64 * blockType.code + w) >>> 6 = _
    rw [Nat.shiftRight_eq_div_pow]
    omega
  · rw [UInt8.toNat_and, htoNat]
    change _ &&& (2 ^ 6 - 1) = w
    rw [Nat.and_two_pow_sub_one_eq_mod]
    omega

theorem decodeFor_encodeFor (hw : w ≤ 32) (hlen : interleaved = true → ds.length = 128)
    (hfit : interleaved = false → Fits ds.length w) (hds : ∀ d ∈ ds, d.toNat < 2 ^ w) :
    ∃ mem' bs, encodeFor ds w interleaved mem out = .ok (mem', out + bs.length) ∧
      Emits mem mem' out bs ∧ ∀ m p prev, HasBytes m (p + 1) bs → (m p &&& 0x3f).toNat = w →
        decodeForBlock interleaved m p ds.length prev =
          .ok (deltaDecode prev ds, p + 1 + bs.length) := by
  obtain ⟨mem', bs, hok, hemit, hbs, hread⟩ := encodeBitmap_ok mem out hw hlen hfit
  refine ⟨mem', bs, hok, hemit, fun m p prev hm hwidth => ?_⟩
  have hmask : ds.map (· &&& maskForBits w) = ds :=
    (List.map_congr_left fun d hd => and_mask_of_lt hw (hds d hd)).trans (List.map_id' ds)
  rw [decodeForBlock]
  simp only [hwidth]
  rw [if_neg (by omega), hread m (p + 1) hm, hmask, hbs]

theorem decodeConstant_of_bytes {val : UInt32} {m : Memory} {p : ℕ}
    (hm : HasBytes m (p + 1) ((leBytes 4 val.toNat).take (divRoundUp (numBits val) 8)))
    (hwidth : (m p &&& 0x3f).toNat = numBits val) (num : ℕ) (prev : UInt32) :
    decodeConstant m p num prev = (deltaDecode prev (List.replicate num val),
      p + 1 + divRoundUp (numBits val) 8) := by
  have hle := numBits_le val
  have hlt := lt_two_pow_numBits val
  have hbits (j : ℕ) (hj : j < numBits val) :
      (readLe 4 m (p + 1)).testBit j = val.toNat.testBit j := by
    have hbyte : j / 8 < divRoundUp (numBits val) 8 := by
      rw [divRoundUp]
      omega
    have h4 : j / 8 < 4 := by omega
    have hmj := hm (j / 8) (by
      rw [List.length_take, length_leBytes]
      exact Nat.lt_min.mpr ⟨hbyte, h4⟩)
    rw [List.getElem_take] at hmj
    have hval : (val.toNat % 256 ^ 4).testBit j = val.toNat.testBit j := by
      rw [Nat.mod_eq_of_lt (lt_of_lt_of_eq val.toNat_lt (by decide))]
    rw [testBit_readLe, decide_eq_true (by omega), Bool.true_and, bitAt, hmj, ← hval,
      ← leNat_leBytes, testBit_leNat, List.getElem?_eq_getElem (by rwa [length_leBytes]),
      Option.getD_some]
  rw [decodeConstant]
  simp only [hwidth]
  have hval : (if numBits val < 32 then
      UInt32.ofNat (readLe 4 m (p + 1)) &&& maskForBits (numBits val)
      else UInt32.ofNat (readLe 4 m (p + 1))) = val := by
    refine UInt32.toNat_inj.mp (Nat.eq_of_testBit_eq fun j => ?_)
    split
    · rw [toNat_and_maskForBits hle, ofNat_readLe, Nat.testBit_mod_two_pow]
      by_cases hj : j < numBits val
      · rw [decide_eq_true hj, Bool.true_and, hbits j hj]
      · rw [decide_eq_false hj, testBit_toNat_of_ge hlt (by omega), Bool.false_and]
    · rw [ofNat_readLe]
      by_cases hj : j < numBits val
      · rw [hbits j hj]
      · rw [testBit_readLe, decide_eq_false (by omega), testBit_toNat_of_ge hlt (by omega),
          Bool.false_and]
  rw [hval]

theorem fits_one (n : ℕ) : Fits n 1 := fun i _ => by omega

/-- The flags of the bitmap are read as the indexes of the exceptions. -/
theorem readExceptionBitmap_flags {m : Memory} {p : ℕ}
    (h : Bytes.Holds (fun b => m (p + b)) 1
      ((ds.map fun d => if d >>> UInt32.ofNat w ≠ 0 then (1 : UInt32) else 0).map (·.toNat))) :
    readExceptionBitmap m ds.length p 0 = exceptionIndexes ds w := by
  have hflag : ∀ d ∈ ds.zipIdx, IsException w d.1 = bitAt (fun b => m (p + b)) d.2 := by
    rintro ⟨d, j⟩ hd
    have hget := List.mk_mem_zipIdx_iff_getElem?.mp hd
    have hbit := h.of_getElem? (i := j)
      (v := (if d >>> UInt32.ofNat w ≠ 0 then (1 : UInt32) else 0).toNat) (by simp [hget]) 0
      Nat.one_pos
    rw [Nat.mul_one, Nat.add_zero] at hbit
    rw [hbit, IsException]
    by_cases hd : d >>> UInt32.ofNat w = 0
    · simp [hd]
    · simp [hd]
  have hread := readExceptionBitmap_eq m p ds.length 0 (Nat.dvd_zero 8)
  rw [Nat.zero_div, Nat.add_zero, Nat.sub_zero] at hread
  rw [hread, exceptionIndexes, ← List.zipIdx_map_snd 0 ds, List.filter_map]
  refine congrArg (List.map Prod.snd) (List.filter_congr fun d hd => ?_)
  exact (hflag d hd).symm

theorem scatter_bitmap :
    ((exceptions ds w).zip (exceptionIndexes ds w)).foldl
        (fun out (val, idx) => out.modify idx fun _ => val) (List.replicate ds.length 0) =
      ds.map (· >>> UInt32.ofNat w) := by
  rw [zip_exceptions, List.foldl_map]
  have hfold := foldl_modify (IsException w) (fun d _ => d >>> UInt32.ofNat w) ds []
    (List.replicate ds.length 0) List.length_replicate
  rw [List.length_nil, List.nil_append, List.nil_append] at hfold
  refine hfold.trans (List.ext_getElem (by simp) fun i h1 h2 => ?_)
  rw [List.length_map] at h2
  simp only [List.getElem_zipWith, List.getElem_replicate, List.getElem_map, IsException]
  by_cases h0 : ds[i] >>> UInt32.ofNat w = 0
  · simp [h0]
  · simp [h0]

theorem decodePforBitmap_encodePforBitmap (hw : w < 32) {e : ℕ} (he : e ≤ 32)
    (hlen : interleaved = true → ds.length = 128)
    (hfit : interleaved = false → Fits ds.length w) (hexc : ∀ d ∈ exceptions ds w, d.toNat < 2 ^ e)
    (hfite : Fits (exceptions ds w).length e) : ∃ mem' bs,
      encodePforBitmap ds w e interleaved mem out = .ok (mem', out + bs.length) ∧
      Emits mem mem' out bs ∧ ∀ m p prev, HasBytes m (p + 1) bs → (m p &&& 0x3f).toNat = w →
        decodePforBitmapBlock interleaved m p ds.length prev =
          .ok (deltaDecode prev ds, p + 1 + bs.length) := by
  have hflags : ∀ v ∈ ds.map fun d => if d >>> UInt32.ofNat w ≠ 0 then (1 : UInt32) else 0,
      v.toNat < 2 ^ 1 := by
    intro v hv
    obtain ⟨d, -, rfl⟩ := List.mem_map.mp hv
    split <;> decide
  obtain ⟨mem₁, bs₁, hok₁, hemit₁, hlen₁, hholds₁⟩ := writeAll_ok
    (writeBytes mem out [UInt8.ofNat e]) (out + 1) hflags (fits_one _)
  rw [List.length_map] at hlen₁
  obtain ⟨mem₂, bs₂, hok₂, hemit₂, hlen₂, hholds₂⟩ := writeAll_ok mem₁
    (out + 1 + bs₁.length) hexc hfite
  obtain ⟨mem₃, bs₃, hok₃, hemit₃, hlen₃, hread⟩ := encodeBitmap_ok mem₂
    (out + 1 + bs₁.length + bs₂.length) hw.le hlen hfit
  have hemit₀ : Emits mem (writeBytes mem out [UInt8.ofNat e]) out [UInt8.ofNat e] :=
    emits_writeBytes mem out [UInt8.ofNat e] []
  refine ⟨mem₃, [UInt8.ofNat e] ++ bs₁ ++ bs₂ ++ bs₃, ?_, ?_, fun m p prev hm hwidth => ?_⟩
  · rw [encodePforBitmap]
    dsimp only
    rw [hok₁, ← hlen₁]
    change (BitWriter.writeAll _ mem₁ _ >>= _) = _
    rw [hok₂, ← hlen₂]
    change encodeBitmap _ _ _ mem₂ _ = _
    rw [hok₃]
    simp only [List.length_append, List.length_singleton, Nat.add_assoc]
  · refine ((hemit₀.trans hemit₁ rfl).trans hemit₂ ?_).trans hemit₃ ?_
    · simp only [List.length_append, List.length_singleton, Nat.add_assoc]
    · simp only [List.length_append, List.length_singleton, Nat.add_assoc]
  · simp only [hasBytes_append, List.length_append, List.length_singleton] at hm
    obtain ⟨⟨⟨hm₀, hm₁⟩, hm₂⟩, hm₃⟩ := hm
    have hewidth : (m (p + 1)).toNat = e := by
      rw [hm₀ 0 Nat.one_pos]
      change (UInt8.ofNat e).toNat = e
      rw [UInt8.toNat_ofNat']
      omega
    have hindexes := readExceptionBitmap_flags (hholds₁ m (p + 1 + 1) hm₁)
    have hvals := BitReader.readMany_eq he hexc hfite (hholds₂ m (p + 1 + 1 + bs₁.length) (by
      rwa [← Nat.add_assoc] at hm₂))
    have hbs₁ : divRoundUp ds.length 8 = bs₁.length := by
      rw [hlen₁, bytesForPackedBits, Nat.mul_one]
    have hexceptions : decodePforBitmapExceptions m (p + 1) ds.length =
        .ok (ds.map (· >>> UInt32.ofNat w), p + 1 + 1 + bs₁.length + bs₂.length) := by
      rw [decodePforBitmapExceptions]
      simp only [hewidth]
      rw [if_neg (by omega), hindexes, hbs₁, length_exceptionIndexes, hvals, scatter_bitmap,
        hlen₂]
    have hbase := hread m (p + 1 + 1 + bs₁.length + bs₂.length) (by
      simpa only [Nat.add_assoc] using hm₃)
    rw [decodePforBitmapBlock, hexceptions]
    simp only [hwidth]
    change (if 32 ≤ w then _ else _) = _
    have hcombine : (ds.map (· >>> UInt32.ofNat w)).zipWith
        (fun e b => e <<< UInt32.ofNat w ||| b) (ds.map (· &&& maskForBits w)) = ds := by
      rw [List.zipWith_map, List.zipWith_self]
      exact (List.map_congr_left fun d _ => shiftLeft_or_mask hw d).trans (List.map_id' ds)
    rw [if_neg (by omega), hbase, hcombine, ← hlen₃]
    simp only [List.length_append, List.length_singleton, Nat.add_assoc]

theorem writeVbs_spec (vals : List UInt32) (mem : Memory) (out : ℕ) :
    Emits mem (writeVbs mem out vals).1 out (vals.flatMap vbBytes) ∧
      (writeVbs mem out vals).2 = out + (vals.flatMap vbBytes).length := by
  induction vals generalizing mem out with
  | nil => exact ⟨emits_nil mem out, rfl⟩
  | cons val vals ih =>
      obtain ⟨hemit, hout⟩ := writeVb_eq val mem out
      obtain ⟨hemits, houts⟩ := ih (writeVb val mem out).1 (writeVb val mem out).2
      rw [writeVbs, List.flatMap_cons, List.length_append]
      exact ⟨hemit.trans hemits hout, by rw [houts, hout, Nat.add_assoc]⟩

theorem readVbs_eq {vals : List UInt32} {m : Memory} {p : ℕ}
    (h : HasBytes m p (vals.flatMap vbBytes)) :
    readVbs m vals.length p = .ok (vals, p + (vals.flatMap vbBytes).length) := by
  induction vals generalizing p with
  | nil => rfl
  | cons val vals ih =>
      rw [List.flatMap_cons, hasBytes_append] at h
      rw [List.length_cons, readVbs, readVb_vbBytes val h.1]
      change (readVbs m vals.length (p + (vbBytes val).length) >>= _) = _
      rw [ih h.2, List.flatMap_cons, List.length_append, ← Nat.add_assoc]
      rfl

/-- No exception begins with the mark of raw exceptions. -/
theorem readVbExceptions_eq {vals : List UInt32} (hne : vals ≠ []) {m : Memory} {p : ℕ}
    (h : HasBytes m p (vals.flatMap vbBytes)) :
    readVbExceptions m p vals.length = .ok (vals, p + (vals.flatMap vbBytes).length) := by
  have hmark : m p ≠ 255 := by
    obtain ⟨val, vals, rfl⟩ := List.exists_cons_of_ne_nil hne
    obtain ⟨b, bs, hb, hb255⟩ := head_vbBytes val
    rw [List.flatMap_cons, hb, List.cons_append, hasBytes_cons] at h
    rwa [h.1]
  rw [readVbExceptions, if_neg hmark, readVbs_eq h]

theorem scatter_varbyte (hw : w < 32) :
    ((exceptions ds w).zip (exceptionIndexes ds w)).foldl
        (fun out (e, idx) => out.modify idx (· ||| e <<< UInt32.ofNat w))
        (ds.map (· &&& maskForBits w)) = ds := by
  rw [zip_exceptions, List.foldl_map]
  have hfold := foldl_modify (IsException w)
    (fun d b => b ||| (d >>> UInt32.ofNat w) <<< UInt32.ofNat w) ds []
    (ds.map (· &&& maskForBits w)) (List.length_map _)
  rw [List.length_nil, List.nil_append, List.nil_append] at hfold
  refine hfold.trans (List.ext_getElem (by simp) fun i h1 h2 => ?_)
  simp only [List.getElem_zipWith, List.getElem_map]
  split
  · rw [UInt32.or_comm, shiftLeft_or_mask hw]
  · rename_i hexc
    rw [isException_iff hw, Nat.not_le] at hexc
    exact and_mask_of_lt hw.le hexc

theorem decodePforVb_encodePforVb (hw : w < 32) (h128 : ds.length ≤ 128)
    (hlen : interleaved = true → ds.length = 128)
    (hfit : interleaved = false → Fits ds.length w) (hne : exceptions ds w ≠ []) :
    ∃ mem' bs, encodePforVb ds w interleaved mem out = .ok (mem', out + bs.length) ∧
      Emits mem mem' out bs ∧ ∀ m p prev, HasBytes m (p + 1) bs → (m p &&& 0x3f).toNat = w →
        decodePforVbBlock interleaved m p ds.length prev =
          .ok (deltaDecode prev ds, p + 1 + bs.length) := by
  have hcount := length_exceptions_le ds w
  set n := (exceptions ds w).length with hn
  set vbs := (exceptions ds w).flatMap vbBytes with hvbs
  set indexes := (exceptionIndexes ds w).map UInt8.ofNat with hindexes
  have hlenidx : indexes.length = n := by
    rw [hindexes, List.length_map, length_exceptionIndexes]
  obtain ⟨mem₁, bs₁, hok₁, hemit₁, hlen₁, hread⟩ := encodeBitmap_ok
    (writeBytes mem out [UInt8.ofNat n]) (out + 1) hw.le hlen hfit
  obtain ⟨hemit₂, hout₂⟩ := writeVbs_spec (exceptions ds w) mem₁ (out + 1 + bs₁.length)
  rw [← hvbs] at hemit₂ hout₂
  have hemit₀ : Emits mem (writeBytes mem out [UInt8.ofNat n]) out [UInt8.ofNat n] :=
    emits_writeBytes mem out [UInt8.ofNat n] []
  have hemit₃ := emits_writeBytes (writeVbs mem₁ (out + 1 + bs₁.length) (exceptions ds w)).1
    (out + 1 + bs₁.length + vbs.length) indexes []
  rw [List.append_nil] at hemit₃
  refine ⟨_, [UInt8.ofNat n] ++ bs₁ ++ vbs ++ indexes, ?_,
    ((hemit₀.trans hemit₁ rfl).trans hemit₂ ?_).trans hemit₃ ?_, fun m p prev hm hwidth => ?_⟩
  · rw [encodePforVb]
    dsimp only
    rw [← hn, hok₁]
    change Except.ok (writeBytes (writeVbs mem₁ (out + 1 + bs₁.length) (exceptions ds w)).1
      (writeVbs mem₁ (out + 1 + bs₁.length) (exceptions ds w)).2 indexes,
      (writeVbs mem₁ (out + 1 + bs₁.length) (exceptions ds w)).2 + indexes.length) = _
    rw [hout₂]
    simp only [List.length_append, List.length_singleton, Nat.add_assoc]
  · simp only [List.length_append, List.length_singleton, Nat.add_assoc]
  · simp only [List.length_append, List.length_singleton, Nat.add_assoc]
  · simp only [hasBytes_append, List.length_append, List.length_singleton] at hm
    obtain ⟨⟨⟨hm₀, hm₁⟩, hm₂⟩, hm₃⟩ := hm
    have hnum : (m (p + 1)).toNat = n := by
      rw [hm₀ 0 Nat.one_pos]
      change (UInt8.ofNat n).toNat = n
      rw [UInt8.toNat_ofNat']
      omega
    have hbase := hread m (p + 2) hm₁
    have hexc := readVbExceptions_eq hne (p := p + 2 + bs₁.length) (by
      rwa [← Nat.add_assoc] at hm₂)
    rw [← hvbs] at hexc
    have hregion : (region m (p + 2 + bs₁.length + vbs.length) n).map (·.toNat) =
        exceptionIndexes ds w := by
      have hbytes : HasBytes m (p + 2 + bs₁.length + vbs.length) indexes := by
        rw [show p + 2 + bs₁.length + vbs.length = p + 1 + (1 + bs₁.length + vbs.length) by omega]
        exact hm₃
      rw [← hlenidx, region_eq hbytes, hindexes, List.map_map]
      refine (List.map_congr_left fun i hi => ?_).trans (List.map_id' _)
      have hlt := lt_of_mem_exceptionIndexes hi
      simp only [Function.comp_apply, UInt8.toNat_ofNat']
      omega
    have hbound : (exceptionIndexes ds w).any (ds.length ≤ ·) = false := by
      rw [List.any_eq_false]
      intro i hi
      have hlt := lt_of_mem_exceptionIndexes hi
      simpa using hlt
    rw [decodePforVbBlock]
    simp only [hwidth, hnum]
    rw [if_neg (by omega), if_neg (by omega), hbase, ← hlen₁, hexc]
    change (if _ then _ else _) = _
    simp only [hregion, hbound, Bool.false_eq_true, if_false, scatter_varbyte hw]
    refine congrArg (fun q => Except.ok (deltaDecode prev ds, q)) ?_
    simp only [List.length_append, List.length_singleton, hlenidx]
    omega

/-- The streams of a block that a `BitWriter` packs fit: the base values, if they are not
interleaved, and the exceptions behind a bitmap. -/
def BlockFits (ds : List UInt32) (interleaved : Bool) : Prop :=
  ((decideBlockType ds).1 ≠ .constant → interleaved = false →
    Fits ds.length (decideBlockType ds).2.1) ∧
  ((decideBlockType ds).1 = .pforBitmap →
    Fits (exceptions ds (decideBlockType ds).2.1).length (decideBlockType ds).2.2)

instance (ds : List UInt32) (interleaved : Bool) : Decidable (BlockFits ds interleaved) :=
  inferInstanceAs (Decidable (_ ∧ _))

theorem decodeBlock_eq (hlen : interleaved = true ↔ ds.length = 128) (m : Memory) (p : ℕ)
    (prev : UInt32) : decodeBlock m true p ds.length prev =
      match (m p >>> 6).toNat with
      | 0 => decodeForBlock interleaved m p ds.length prev
      | 1 => decodePforVbBlock interleaved m p ds.length prev
      | 2 => decodePforBitmapBlock interleaved m p ds.length prev
      | _ => .ok (decodeConstant m p ds.length prev) := by
  rw [decodeBlock]
  cases interleaved with
  | true =>
      have h128 := hlen.mp rfl
      rw [if_pos ⟨rfl, h128⟩, h128]
      rfl
  | false =>
      have h128 : ds.length ≠ 128 := fun h => Bool.false_ne_true (hlen.mpr h)
      rw [if_neg fun h => h128 h.2]
      rfl

/-- A block that fits has its type in front and is decoded to its docids, whatever follows it. -/
theorem encodePforSingleBlock_ok (hne : ds ≠ []) (h128 : ds.length ≤ 128)
    (hlen : interleaved = true ↔ ds.length = 128) (hfit : BlockFits ds interleaved) :
    ∃ mem' bs, encodePforSingleBlock ds interleaved mem out = .ok (mem', out + bs.length) ∧
      Emits mem mem' out bs ∧ ∀ m p prev, HasBytes m p bs →
        (m p >>> 6).toNat = (decideBlockType ds).1.code ∧
        decodeBlock m true p ds.length prev = .ok (deltaDecode prev ds, p + bs.length) := by
  have hshort : ¬(interleaved = true ∧ ds.length ≠ 128) := fun h => h.2 (hlen.mp h.1)
  have hfinish (blockType : BlockType) {w : ℕ} (hw : w ≤ 32) {mem' : Memory} {bs : Str}
      (hemit : Emits (writeBytes mem out [UInt8.ofNat (blockType.code <<< 6 ||| w)]) mem'
        (out + 1) bs)
      (hdecode : ∀ m p prev, HasBytes m (p + 1) bs → (m p >>> 6).toNat = blockType.code →
        (m p &&& 0x3f).toNat = w → decodeBlock m true p ds.length prev =
          .ok (deltaDecode prev ds, p + 1 + bs.length)) :
      Emits mem mem' out (UInt8.ofNat (blockType.code <<< 6 ||| w) :: bs) ∧
        ∀ m p prev, HasBytes m p (UInt8.ofNat (blockType.code <<< 6 ||| w) :: bs) →
          (m p >>> 6).toNat = blockType.code ∧
          decodeBlock m true p ds.length prev =
            .ok (deltaDecode prev ds, p + (bs.length + 1)) := by
    obtain ⟨hcode, hwidth⟩ := header_spec blockType (by omega : w < 64)
    refine ⟨(emits_writeBytes mem out [_] []).trans hemit rfl, fun m p prev hm => ?_⟩
    rw [hasBytes_cons] at hm
    refine ⟨by rw [hm.1, hcode], ?_⟩
    rw [hdecode m p prev hm.2 (by rw [hm.1, hcode]) (by rw [hm.1, hwidth]), Nat.add_assoc,
      Nat.add_comm 1]
  rw [BlockFits] at hfit
  rcases decideBlockType_spec ds with ⟨hd, hall⟩ | ⟨w, hw, hd, hlt⟩ | ⟨w, hw, hd, hexc⟩ |
    ⟨w, hw, e, he, hd, hexc⟩
  · have hle := numBits_le (ds.headD 0)
    have hreplicate : List.replicate ds.length (ds.headD 0) = ds :=
      (List.eq_replicate_of_mem fun d hdmem => hall d hdmem).symm
    have hbytes : divRoundUp (numBits (ds.headD 0)) 8 ≤ 4 := by
      rw [divRoundUp]
      omega
    have hlength : ((leBytes 4 (ds.headD 0).toNat).take
        (divRoundUp (numBits (ds.headD 0)) 8)).length = divRoundUp (numBits (ds.headD 0)) 8 := by
      rw [List.length_take, length_leBytes, Nat.min_eq_left hbytes]
    have hemit : Emits (writeBytes mem out
        [UInt8.ofNat (BlockType.constant.code <<< 6 ||| numBits (ds.headD 0))])
        (writeBytes (writeBytes mem out
          [UInt8.ofNat (BlockType.constant.code <<< 6 ||| numBits (ds.headD 0))]) (out + 1)
          (leBytes 4 (ds.headD 0).toNat)) (out + 1)
        ((leBytes 4 (ds.headD 0).toNat).take (divRoundUp (numBits (ds.headD 0)) 8)) := by
      have h := emits_writeBytes (writeBytes mem out
        [UInt8.ofNat (BlockType.constant.code <<< 6 ||| numBits (ds.headD 0))]) (out + 1)
        ((leBytes 4 (ds.headD 0).toNat).take (divRoundUp (numBits (ds.headD 0)) 8))
        ((leBytes 4 (ds.headD 0).toNat).drop (divRoundUp (numBits (ds.headD 0)) 8))
      rwa [List.take_append_drop] at h
    rw [hd]
    refine ⟨_, _, ?_, hfinish .constant hle hemit fun m p prev hm hcode hwidth => ?_⟩
    · rw [encodePforSingleBlock, if_neg hne, if_neg hshort, hd]
      dsimp only
      rw [List.length_cons, hlength, Nat.add_assoc, Nat.add_comm 1]
    · rw [decodeBlock_eq hlen, hcode]
      change Except.ok (decodeConstant m p ds.length prev) = _
      rw [decodeConstant_of_bytes hm hwidth, hreplicate, hlength]
  · rw [hd] at hfit ⊢
    obtain ⟨mem', bs, hok, hemit, hdecode⟩ := decodeFor_encodeFor
      (writeBytes mem out [UInt8.ofNat (BlockType.forBlock.code <<< 6 ||| w)]) (out + 1) hw hlen.mp
      (hfit.1 BlockType.noConfusion) hlt
    refine ⟨_, _, ?_, hfinish .forBlock hw hemit fun m p prev hm hcode hwidth => ?_⟩
    · rw [encodePforSingleBlock, if_neg hne, if_neg hshort, hd]
      dsimp only
      rw [hok, List.length_cons, Nat.add_assoc, Nat.add_comm 1]
    · rw [decodeBlock_eq hlen, hcode]
      exact hdecode m p prev hm hwidth
  · rw [hd] at hfit ⊢
    obtain ⟨mem', bs, hok, hemit, hdecode⟩ := decodePforVb_encodePforVb
      (writeBytes mem out [UInt8.ofNat (BlockType.pforVb.code <<< 6 ||| w)]) (out + 1) hw h128
      hlen.mp (hfit.1 BlockType.noConfusion) hexc
    refine ⟨_, _, ?_, hfinish .pforVb hw.le hemit fun m p prev hm hcode hwidth => ?_⟩
    · rw [encodePforSingleBlock, if_neg hne, if_neg hshort, hd]
      dsimp only
      rw [hok, List.length_cons, Nat.add_assoc, Nat.add_comm 1]
    · rw [decodeBlock_eq hlen, hcode]
      exact hdecode m p prev hm hwidth
  · rw [hd] at hfit ⊢
    obtain ⟨mem', bs, hok, hemit, hdecode⟩ := decodePforBitmap_encodePforBitmap
      (writeBytes mem out [UInt8.ofNat (BlockType.pforBitmap.code <<< 6 ||| w)]) (out + 1) hw he
      hlen.mp (hfit.1 BlockType.noConfusion) hexc (hfit.2 rfl)
    refine ⟨_, _, ?_, hfinish .pforBitmap hw.le hemit fun m p prev hm hcode hwidth => ?_⟩
    · rw [encodePforSingleBlock, if_neg hne, if_neg hshort, hd]
      dsimp only
      rw [hok, List.length_cons, Nat.add_assoc, Nat.add_comm 1]
    · rw [decodeBlock_eq hlen, hcode]
      exact hdecode m p prev hm hwidth

theorem encodeBitmap_shift_of_not {w : ℕ} (hfit : ¬(interleaved = false → Fits ds.length w)) :
    encodeBitmap ds w interleaved mem out = .error .shift := by
  obtain rfl : interleaved = false := by
    cases interleaved with
    | true => exact absurd nofun hfit
    | false => rfl
  exact encodeBitmap_shift mem out fun h => hfit fun _ => h

/-- A block that does not fit is not encoded. -/
theorem encodePforSingleBlock_shift (hne : ds ≠ []) (hlen : interleaved = true ↔ ds.length = 128)
    (hfit : ¬BlockFits ds interleaved) :
    encodePforSingleBlock ds interleaved mem out = .error .shift := by
  have hshort : ¬(interleaved = true ∧ ds.length ≠ 128) := fun h => h.2 (hlen.mp h.1)
  rw [encodePforSingleBlock, if_neg hne, if_neg hshort]
  rw [BlockFits] at hfit
  rcases decideBlockType_spec ds with ⟨hd, -⟩ | ⟨w, -, hd, -⟩ | ⟨w, -, hd, -⟩ |
    ⟨w, hw, e, he, hd, hexc⟩
  all_goals
    rw [hd] at hfit ⊢
    dsimp only at hfit ⊢
  · exact absurd ⟨fun h => absurd rfl h, BlockType.noConfusion⟩ hfit
  · exact encodeBitmap_shift_of_not _ _ fun h => hfit ⟨fun _ => h, BlockType.noConfusion⟩
  · rw [encodePforVb]
    dsimp only
    rw [encodeBitmap_shift_of_not _ _ fun h => hfit ⟨fun _ => h, BlockType.noConfusion⟩]
    rfl
  · have hflags : ∀ v ∈ ds.map fun d => if d >>> UInt32.ofNat w ≠ 0 then (1 : UInt32) else 0,
        v.toNat < 2 ^ 1 := by
      intro v hv
      obtain ⟨d, -, rfl⟩ := List.mem_map.mp hv
      split <;> decide
    rw [encodePforBitmap]
    dsimp only
    obtain ⟨mem₁, -, hok₁, -⟩ := writeAll_ok (writeBytes (writeBytes mem out
      [UInt8.ofNat (BlockType.pforBitmap.code <<< 6 ||| w)]) (out + 1) [UInt8.ofNat e])
      (out + 1 + 1) hflags (fits_one _)
    rw [hok₁]
    change (BitWriter.writeAll _ mem₁ _ >>= _) = _
    by_cases hfite : Fits (exceptions ds w).length e
    · obtain ⟨mem₂, -, hok₂, -⟩ := writeAll_ok mem₁
        (out + 1 + 1 + bytesForPackedBits ds.length 1) hexc hfite
      rw [hok₂]
      exact encodeBitmap_shift_of_not _ _ fun h => hfit ⟨fun _ => h, fun _ => hfite⟩
    · rw [writeAll_shift _ _ hfite]
      rfl

end Formats

section FullBlocks

def decodeInterleaved (blockType : BlockType) (mem : Memory) (p : ℕ) (prev : UInt32) :
    Except Fault (List UInt32 × ℕ) :=
  match blockType with
  | .forBlock => decodeForInterleaved mem p prev
  | .pforVb => decodePforVbInterleaved mem p prev
  | .pforBitmap => decodePforBitmapInterleaved mem p prev
  | .constant => .ok (decodeConstant mem p 128 prev)

theorem decodeBlock_interleaved {mem : Memory} {p : ℕ} {blockType : BlockType}
    (h : (mem p >>> 6).toNat = blockType.code) (prev : UInt32) :
    decodeBlock mem true p 128 prev = decodeInterleaved blockType mem p prev := by
  rw [decodeBlock, if_pos ⟨rfl, rfl⟩, h]
  cases blockType <;> rfl

theorem length_deltaDecode (prev : UInt32) (deltas : List UInt32) :
    (deltaDecode prev deltas).length = deltas.length := by
  induction deltas generalizing prev with
  | nil => rfl
  | cons delta deltas ih => rw [deltaDecode, List.length_cons, ih, List.length_cons]

/-- The value at a place is the sum of all values up to there, each plus one. -/
theorem getElem?_deltaDecode (prev : UInt32) (deltas : List UInt32) {i : ℕ}
    (hi : i < deltas.length) : (deltaDecode prev deltas)[i]? =
      some ((deltas.take (i + 1)).foldl (fun sum delta => sum + (delta + 1)) prev) := by
  induction deltas generalizing prev i with
  | nil => exact absurd hi (Nat.not_lt_zero i)
  | cons delta deltas ih =>
      have hsum : delta + prev + 1 = prev + (delta + 1) := by
        rw [UInt32.add_comm delta, UInt32.add_assoc]
      rw [deltaDecode, List.take_succ_cons, List.foldl_cons, hsum]
      cases i with
      | zero => rfl
      | succ i =>
          rw [List.getElem?_cons_succ]
          exact ih _ (Nat.lt_of_succ_lt_succ hi)

/-- A full block that needs no bitmap of exceptions is decoded to its docids, from wherever its
bytes are and whatever follows them, and the decoder stops where the encoder did. -/
theorem interleavedBlock_roundTrip (block : List UInt32) (hlen : block.length = 128)
    (htype : (decideBlockType block).1 ≠ .pforBitmap) (mem : Memory) (out : ℕ) :
    ∃ mem' bs, encodePforSingleBlock block true mem out = .ok (mem', out + bs.length) ∧
      HasBytes mem' out bs ∧ ∀ m p prev, HasBytes m p bs → ∃ docids,
        decodeInterleaved (decideBlockType block).1 m p prev = .ok (docids, p + bs.length) ∧
        docids.length = 128 ∧ ∀ i < 128, docids[i]? =
          some ((block.take (i + 1)).foldl (fun sum delta => sum + (delta + 1)) prev) := by
  have hne : block ≠ [] := List.ne_nil_of_length_eq_add_one hlen
  have hfit : BlockFits block true :=
    ⟨fun _ h => absurd h Bool.noConfusion, fun h => absurd h htype⟩
  obtain ⟨mem', bs, hok, hemit, hdecode⟩ := encodePforSingleBlock_ok mem out hne
    (Nat.le_of_eq hlen) (iff_of_true rfl hlen) hfit
  refine ⟨mem', bs, hok, hemit.2, fun m p prev hm => ?_⟩
  obtain ⟨hcode, hblock⟩ := hdecode m p prev hm
  rw [hlen, decodeBlock_interleaved hcode] at hblock
  refine ⟨deltaDecode prev block, hblock, ?_, fun i hi => ?_⟩
  · rw [length_deltaDecode, hlen]
  · exact getElem?_deltaDecode prev block (hlen.symm ▸ hi)

/-- A block with one great value among small ones gets a varbyte exception. -/
theorem interleavedBlock_roundTrip_varbyte :
    (decideBlockType (0xffffffff :: List.replicate 127 3)).1 = .pforVb ∧ ∃ mem' bs,
      encodePforSingleBlock (0xffffffff :: List.replicate 127 3) true (fun _ => 0) 0 =
        .ok (mem', 0 + bs.length) ∧ HasBytes mem' 0 bs := by
  have htype : (decideBlockType (0xffffffff :: List.replicate 127 3)).1 = .pforVb := by
    decide +kernel
  obtain ⟨mem', bs, hok, hbytes, -⟩ := interleavedBlock_roundTrip
    (0xffffffff :: List.replicate 127 3) rfl (htype ▸ nofun) (fun _ => 0) 0
  exact ⟨htype, mem', bs, hok, hbytes⟩

end FullBlocks

end Flocate
