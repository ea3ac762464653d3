import Flocate.BlockCodec
import Flocate.EncoderStores

/-!
# The encoder stays within its buffer

The format that is chosen is never longer than plain FOR: the cost of a bitmap of exceptions is
exact, and that of varbyte exceptions is an upper bound for each value. No writer stores more than
16 bytes behind its end, and the buffer has room for that.
-/

namespace Flocate

open Bytes Fault

def p4nencBound (n : ℕ) : ℕ := (n + 127) / 128 + (n + 32) * 4

section Histogram

variable {ds : List UInt32} {w maxBits : ℕ}

theorem lt_numBits_iff {d : UInt32} : w < numBits d ↔ 2 ^ w ≤ d.toNat := by
  constructor
  · exact two_pow_le_of_lt_numBits
  · intro h
    by_contra hle
    have hpow := Nat.pow_le_pow_right (n := 2) (by decide) (Nat.le_of_not_lt hle)
    have hlt := lt_two_pow_numBits d
    omega

theorem numBits_mono {d d' : UInt32} (h : d ≤ d') : numBits d ≤ numBits d' := by
  by_contra hlt
  have hpow := lt_numBits_iff.mp (Nat.lt_of_not_le hlt)
  have hlt' := lt_two_pow_numBits d'
  have hle := UInt32.le_iff_toNat_le.mp h
  omega

/-- The greatest width is that of the largest value. -/
theorem foldl_max_numBits {largest : UInt32} (hmem : largest ∈ ds) (hmax : ∀ d ∈ ds, d ≤ largest) :
    (ds.map numBits).foldl max 0 = numBits largest := by
  apply Nat.le_antisymm
  · rcases foldl_max_mem (ds.map numBits) 0 with h | h
    · rw [h]
      exact Nat.zero_le _
    · obtain ⟨d, hd, heq⟩ := List.mem_map.mp h
      rw [← heq]
      exact numBits_mono (hmax d hd)
  · exact (le_foldl_max _ 0).2 _ (List.mem_map_of_mem hmem)

/-- The exceptions are the values with more bits than the base values. -/
theorem length_exceptions (hw : w < 32) :
    (exceptions ds w).length = ds.countP (w < numBits ·) := by
  rw [exceptions, List.filter_map, List.length_map, ← List.countP_eq_length_filter]
  apply List.countP_congr
  intro d _
  rw [decide_eq_true_iff, lt_numBits_iff]
  exact isException_iff hw

theorem countP_lt_pred {k : ℕ} (hk : k < maxBits) :
    ds.countP (maxBits - k < numBits ·) + ds.countP (numBits · = maxBits - (k + 1) + 1) =
      ds.countP (maxBits - (k + 1) < numBits ·) := by
  induction ds with
  | nil => rfl
  | cons d ds ih =>
      simp only [List.countP_cons, decide_eq_true_iff] at ih ⊢
      split_ifs <;> omega

end Histogram

section Cost

variable {ds : List UInt32} {w maxBits : ℕ}

def bitmapCost (ds : List UInt32) (maxBits w : ℕ) : ℕ :=
  1 + bytesForPackedBits ds.length 1 + bytesForPackedBits ds.length w +
    bytesForPackedBits (ds.countP (w < numBits ·)) (maxBits - w)

def BitmapBest (ds : List UInt32) (maxBits : ℕ) (best : ℕ × ℕ) : Prop :=
  best = (bytesForPackedBits ds.length maxBits, maxBits) ∨
    best.2 < maxBits ∧ best.1 = bitmapCost ds maxBits best.2 ∧
      best.1 < bytesForPackedBits ds.length maxBits

def bitmapStep (ds : List UInt32) (maxBits : ℕ) (st : ℕ × ℕ × ℕ) (exceptionBitWidth : ℕ) :
    ℕ × ℕ × ℕ :=
  let testBitWidth := maxBits - exceptionBitWidth
  let numExceptions := st.1 + ds.countP (numBits · = testBitWidth + 1)
  let cost := 1 + bytesForPackedBits ds.length 1 + bytesForPackedBits ds.length testBitWidth +
    bytesForPackedBits numExceptions exceptionBitWidth
  if cost < st.2.1 then (numExceptions, cost, testBitWidth) else (numExceptions, st.2)

theorem tryBitmap_eq (ds : List UInt32) (maxBits : ℕ) :
    tryBitmap ds maxBits = (List.range' 1 maxBits).foldl (bitmapStep ds maxBits)
      (0, bytesForPackedBits ds.length maxBits, maxBits) := rfl

theorem bitmapStep_best {k : ℕ} {st : ℕ × ℕ × ℕ} (hk : k < maxBits)
    (hnum : st.1 = ds.countP (maxBits - k < numBits ·)) (hbest : BitmapBest ds maxBits st.2) :
    (bitmapStep ds maxBits st (k + 1)).1 = ds.countP (maxBits - (k + 1) < numBits ·) ∧
      BitmapBest ds maxBits (bitmapStep ds maxBits st (k + 1)).2 := by
  have hwidth : maxBits - (maxBits - (k + 1)) = k + 1 := by omega
  simp only [bitmapStep]
  rw [hnum, countP_lt_pred hk]
  split
  · rename_i hcost
    refine ⟨rfl, .inr ⟨Nat.sub_lt (Nat.zero_lt_of_lt hk) (Nat.succ_pos k), ?_, ?_⟩⟩
    · rw [bitmapCost, hwidth]
    · rcases hbest with hbest | ⟨-, -, hbest⟩
      · rw [hbest] at hcost
        exact hcost
      · exact hcost.trans hbest
  · exact ⟨rfl, hbest⟩

/-- The number of exceptions is exact at each width, so the cost is. -/
theorem tryBitmap_cost (hmax : ∀ d ∈ ds, numBits d ≤ maxBits) :
    BitmapBest ds maxBits (tryBitmap ds maxBits).2 := by
  have hrun : ∀ k ≤ maxBits, ∀ st, st = (List.range' 1 k).foldl (bitmapStep ds maxBits)
      (0, bytesForPackedBits ds.length maxBits, maxBits) →
      st.1 = ds.countP (maxBits - k < numBits ·) ∧ BitmapBest ds maxBits st.2 := by
    intro k
    induction k with
    | zero =>
        rintro - st rfl
        refine ⟨(List.countP_eq_zero.mpr fun d hd => ?_).symm, .inl rfl⟩
        have hd := hmax d hd
        simpa using hd
    | succ k ih =>
        rintro hk st rfl
        obtain ⟨hnum, hbest⟩ := ih (Nat.le_of_lt hk) _ rfl
        rw [List.range'_1_concat, List.foldl_append, List.foldl_cons, List.foldl_nil,
          Nat.add_comm 1 k]
        exact bitmapStep_best hk hnum hbest
  rw [tryBitmap_eq]
  exact (hrun maxBits (Nat.le_refl _) _ rfl).2

/-- A varbyte block is cheaper than what was best before, by the estimate. -/
theorem tryVarbyte_cost (num maxBits : ℕ) (atLeast : ℕ → ℕ) (l : List ℕ) (st : ℕ × ℕ × Bool) :
    tryVarbyte num maxBits atLeast l st = st ∨
      (tryVarbyte num maxBits atLeast l st).1 < st.1 ∧
        (tryVarbyte num maxBits atLeast l st).1 =
          varbyteCost num maxBits atLeast (tryVarbyte num maxBits atLeast l st).2.1 := by
  induction l generalizing st with
  | nil => exact .inl rfl
  | cons x l ih =>
      obtain ⟨bestCost, best⟩ := st
      rw [tryVarbyte]
      dsimp only
      split
      · exact .inl rfl
      split
      · rename_i hcost
        rcases ih (varbyteCost num maxBits atLeast x, x, true) with h | ⟨hlt, heq⟩
        · rw [h]
          exact .inr ⟨hcost, rfl⟩
        · exact .inr ⟨hlt.trans hcost, heq⟩
      · exact ih (bestCost, best)

/-- An exception and its index take no more than the histogram charges for its bits. -/
theorem length_vbBytes_le (hw : w < 32) (d : UInt32) (hd : w < numBits d) :
    (vbBytes (d >>> UInt32.ofNat w)).length + 1 ≤
      2 + (if w + 7 ≤ numBits d then 1 else 0) + (if w + 14 ≤ numBits d then 1 else 0) +
        (if w + 19 ≤ numBits d then 1 else 0) + (if w + 24 ≤ numBits d then 1 else 0) := by
  have hshift := toNat_shiftRight hw d
  have hbits (k : ℕ) (h : 2 ^ k ≤ (d >>> UInt32.ofNat w).toNat) : w + k < numBits d := by
    rw [hshift, Nat.le_div_iff_mul_le (Nat.two_pow_pos w), ← Nat.pow_add, Nat.add_comm] at h
    exact lt_numBits_iff.mpr h
  have h7 := hbits 7
  have h14 := hbits 14
  have h19 := hbits 19
  have h24 := hbits 24
  rw [vbBytes]
  simp only [UInt32.le_iff_toNat_le]
  change ((if _ ≤ 176 then _ else if _ ≤ 16560 then _ else if _ ≤ 540848 then _
    else if _ ≤ 16777215 then _ else _) : Str).length + 1 ≤ _
  split_ifs <;> simp only [List.length_cons, List.length_nil, length_leBytes] <;> omega

/-- The estimate is at least the size of the exceptions with their indexes. -/
theorem varbyteCost_ge (hw : w < 32) (hmax : ∀ d ∈ ds, numBits d ≤ maxBits) :
    1 + bytesForPackedBits ds.length w +
        ((exceptions ds w).map fun val => (vbBytes val).length).sum + (exceptions ds w).length ≤
      varbyteCost ds.length maxBits (fun n => ds.countP (n ≤ numBits ·)) w := by
  have hmore (bits : ℕ) : (if w + bits ≤ maxBits then ds.countP (w + bits ≤ numBits ·) else 0) =
      ds.countP (w + bits ≤ numBits ·) := by
    split
    · rfl
    · rename_i h
      symm
      rw [List.countP_eq_zero]
      intro d hd
      have hd := hmax d hd
      rw [decide_eq_true_iff]
      omega
  have hsum : ((exceptions ds w).map fun val => (vbBytes val).length).sum +
        (exceptions ds w).length ≤
      2 * ds.countP (w + 1 ≤ numBits ·) + ds.countP (w + 7 ≤ numBits ·) +
        ds.countP (w + 14 ≤ numBits ·) + ds.countP (w + 19 ≤ numBits ·) +
        ds.countP (w + 24 ≤ numBits ·) := by
    clear hmore hmax
    induction ds with
    | nil => exact Nat.le_refl 0
    | cons d ds ih =>
        have hcons : exceptions (d :: ds) w =
            (if w < numBits d then [d >>> UInt32.ofNat w] else []) ++ exceptions ds w := by
          rw [exceptions, List.map_cons, List.filter_cons]
          have hiff : decide (d >>> UInt32.ofNat w ≠ 0) = true ↔ w < numBits d :=
            (isException_iff hw).trans lt_numBits_iff.symm
          simp only [hiff]
          split <;> rfl
        rw [hcons, List.map_append, List.sum_append, List.length_append]
        simp only [List.countP_cons, decide_eq_true_iff]
        by_cases hd : w < numBits d
        · have hle := length_vbBytes_le hw d hd
          rw [if_pos hd, List.map_singleton, List.sum_singleton, List.length_singleton,
            if_pos (by omega : w + 1 ≤ _)]
          omega
        · rw [if_neg hd, List.map_nil, List.sum_nil, List.length_nil]
          omega
  simp only [varbyteCost, hmore]
  omega

end Cost

section Writers

variable (overShift : UInt32 → UInt32) {ds : List UInt32} {w e : ℕ} {interleaved : Bool}

theorem bitWriter_writes (vals : List UInt32) (bs : BitWriter) : Writes 4 bs.out
    (bs.stores overShift vals) (bs.out + (bs.bitsUsed + vals.length * bs.bits + 7) / 8) := by
  induction vals generalizing bs with
  | nil => exact ⟨Nat.le_add_right _ _, nofun⟩
  | cons val vals ih =>
      have hrest := ih { bs with
        out := bs.out + (bs.bitsUsed + bs.bits) / 8
        bitsUsed := (bs.bitsUsed + bs.bits) % 8
        curVal := if 32 ≤ (bs.bitsUsed + bs.bits) / 8 * 8 then
            overShift (bs.curVal ||| val <<< UInt32.ofNat bs.bitsUsed)
          else (bs.curVal ||| val <<< UInt32.ofNat bs.bitsUsed) >>>
            UInt32.ofNat ((bs.bitsUsed + bs.bits) / 8 * 8) }
      rw [List.length_cons, Nat.succ_mul]
      dsimp only at hrest
      have hlast : bs.out + (bs.bitsUsed + bs.bits) / 8 +
          ((bs.bitsUsed + bs.bits) % 8 + vals.length * bs.bits + 7) / 8 =
          bs.out + (bs.bitsUsed + (vals.length * bs.bits + bs.bits) + 7) / 8 := by omega
      rw [hlast] at hrest
      refine ⟨by omega, List.forall_mem_cons.mpr ⟨⟨Nat.le_refl _, ?_⟩, fun s hs => ?_⟩⟩
      · rw [length_leBytes]
        dsimp only
        omega
      · obtain ⟨haddr, hend⟩ := hrest.within s hs
        exact ⟨(Nat.le_add_right _ _).trans haddr, hend⟩

/-- Where a stream of four is after `count` values. There are 16 bytes for every 32 bits. -/
structure OnLane (base w s count : ℕ) (bs : InterleavedBitWriter) : Prop where
  bits : bs.bits = w
  start : base + s * 4 ≤ bs.out
  place : 2 * bs.out + bs.bitsUsed = 2 * (base + s * 4) + w * count

theorem OnLane.stores {base s count : ℕ} {bs : InterleavedBitWriter}
    (h : OnLane base w s count bs) (hs : s < 4) (hcount : count < 32) (val : UInt32) :
    OnLane base w s (count + 1) (bs.stores val).1 ∧
      ∀ st ∈ (bs.stores val).2, base ≤ st.addr ∧
        st.addr + st.bytes.length ≤ base + 16 * w + 16 := by
  obtain ⟨hbits, hstart, hplace⟩ := h
  have hle : w * (count + 1) ≤ w * 32 := Nat.mul_le_mul_left w hcount
  rw [Nat.mul_succ] at hle
  rw [InterleavedBitWriter.stores]
  split
  · rename_i hfull
    refine ⟨⟨hbits, hstart.trans (Nat.le_add_right _ _), ?_⟩, ?_⟩
    · dsimp only
      rw [Nat.mul_succ w count]
      omega
    · rw [List.forall_mem_cons, List.forall_mem_singleton, length_leBytes, length_leBytes]
      dsimp only
      omega
  · refine ⟨⟨hbits, hstart, ?_⟩, ?_⟩
    · dsimp only
      rw [Nat.mul_succ w count]
      omega
    · rw [List.forall_mem_singleton, length_leBytes]
      dsimp only
      omega

theorem interleavedStores_within {base : ℕ} (vals : List UInt32) (bs : ℕ → InterleavedBitWriter)
    (i : ℕ) (hlen : i + vals.length ≤ 128)
    (h : ∀ s < 4, OnLane base w s ((i + 3 - s) / 4) (bs s)) :
    ∀ st ∈ interleavedStores bs i vals, base ≤ st.addr ∧
      st.addr + st.bytes.length ≤ base + 16 * w + 16 := by
  induction vals generalizing bs i with
  | nil => nofun
  | cons val vals ih =>
      rw [List.length_cons] at hlen
      have hs : i % 4 < 4 := Nat.mod_lt i (by decide)
      obtain ⟨hlane, hwithin⟩ := (h (i % 4) hs).stores hs (by omega) val
      rw [interleavedStores, List.forall_mem_append]
      refine ⟨hwithin, ih _ (i + 1) (by omega) fun s hs' => ?_⟩
      by_cases hsame : s = i % 4
      · subst hsame
        rw [Function.update_self]
        have hcount : (i + 1 + 3 - i % 4) / 4 = (i + 3 - i % 4) / 4 + 1 := by omega
        rw [hcount]
        exact hlane
      · rw [Function.update_of_ne hsame]
        have hcount : (i + 1 + 3 - s) / 4 = (i + 3 - s) / 4 := by omega
        rw [hcount]
        exact h s hs'

theorem encodeBitmapStores_writes (hfull : interleaved = true → ds.length = 128) (out : ℕ) :
    ∃ stores, encodeBitmapStores overShift ds w interleaved out =
        .ok (stores, out + bytesForPackedBits ds.length w) ∧
      Writes 16 out stores (out + bytesForPackedBits ds.length w) := by
  rw [encodeBitmapStores]
  cases interleaved with
  | false =>
      have hwrites := bitWriter_writes overShift (ds.map (· &&& maskForBits w))
        { out := out, bits := w }
      rw [List.length_map] at hwrites
      dsimp only at hwrites
      rw [Nat.zero_add] at hwrites
      exact ⟨_, rfl, hwrites.mono (by decide)⟩
  | true =>
      have h128 := hfull rfl
      have hbytes : bytesForPackedBits ds.length w = 16 * w := by
        rw [bytesForPackedBits, divRoundUp, h128]
        omega
      rw [if_pos rfl, if_pos (by rw [h128]), hbytes]
      refine ⟨_, rfl, Nat.le_add_right _ _, interleavedStores_within _ _ 0 ?_ fun s hs => ?_⟩
      · rw [List.length_map, h128]
      · refine ⟨rfl, Nat.le_refl _, ?_⟩
        have hcount : (0 + 3 - s) / 4 = 0 := by omega
        rw [hcount, Nat.mul_zero]

theorem vbStore_writes (val : UInt32) (out : ℕ) :
    Writes 1 out [(vbStore val out).1] (vbStore val out).2 ∧
      (vbStore val out).2 = out + (vbBytes val).length := by
  rw [vbStore, vbBytes]
  split_ifs <;> exact ⟨writes_singleton (Nat.le_add_right _ _) (Nat.le_refl _) (by
    simp only [List.length_cons, List.length_nil, length_leBytes]
    omega), rfl⟩

theorem vbStores_writes (vals : List UInt32) (out : ℕ) :
    Writes 1 out (vbStores out vals).1 (vbStores out vals).2 ∧
      (vbStores out vals).2 = out + (vals.map fun val => (vbBytes val).length).sum := by
  induction vals generalizing out with
  | nil => exact ⟨writes_nil 1 out, rfl⟩
  | cons val vals ih =>
      obtain ⟨hfirst, hnext⟩ := vbStore_writes val out
      obtain ⟨hrest, hlast⟩ := ih (vbStore val out).2
      rw [vbStores]
      refine ⟨hfirst.append hrest, ?_⟩
      rw [hlast, hnext, List.map_cons, List.sum_cons, Nat.add_assoc]

theorem encodePforBitmapStores_writes (hfull : interleaved = true → ds.length = 128) (out : ℕ) :
    ∃ stores length, encodePforBitmapStores overShift ds w e interleaved out =
        .ok (stores, out + length) ∧
      length = 1 + bytesForPackedBits ds.length 1 + bytesForPackedBits ds.length w +
        bytesForPackedBits (exceptions ds w).length e ∧
      Writes 16 out stores (out + length) := by
  have hwidth : Writes 16 out [⟨out, [UInt8.ofNat e]⟩] (out + 1) :=
    writes_singleton (Nat.le_add_right _ _) (Nat.le_refl _) (Nat.le_add_right _ _)
  have hpacked (vals : List UInt32) (bits : ℕ) (out : ℕ) : Writes 16 out
      (({ out := out, bits := bits } : BitWriter).stores overShift vals)
      (out + bytesForPackedBits vals.length bits) := by
    have hwrites := bitWriter_writes overShift vals { out := out, bits := bits }
    dsimp only at hwrites
    rw [Nat.zero_add] at hwrites
    exact hwrites.mono (by decide)
  have hbitmap := hpacked (ds.map fun d => if d >>> UInt32.ofNat w ≠ 0 then 1 else 0) 1 (out + 1)
  rw [List.length_map] at hbitmap
  have hrest := hpacked (exceptions ds w) e (out + 1 + bytesForPackedBits ds.length 1)
  obtain ⟨base, hbase, hwrites⟩ := encodeBitmapStores_writes (w := w) overShift hfull
    (out + 1 + bytesForPackedBits ds.length 1 + bytesForPackedBits (exceptions ds w).length e)
  have hall := ((hwidth.append hbitmap).append hrest).append hwrites
  rw [encodePforBitmapStores]
  dsimp only
  rw [hbase]
  have hlast : out + 1 + bytesForPackedBits ds.length 1 +
      bytesForPackedBits (exceptions ds w).length e + bytesForPackedBits ds.length w =
      out + (1 + bytesForPackedBits ds.length 1 + bytesForPackedBits ds.length w +
        bytesForPackedBits (exceptions ds w).length e) := by omega
  rw [hlast] at hall ⊢
  exact ⟨_, _, rfl, rfl, hall⟩

theorem encodePforVbStores_writes (hfull : interleaved = true → ds.length = 128) (out : ℕ) :
    ∃ stores length, encodePforVbStores overShift ds w interleaved out =
        .ok (stores, out + length) ∧
      length = 1 + bytesForPackedBits ds.length w +
        ((exceptions ds w).map fun val => (vbBytes val).length).sum + (exceptions ds w).length ∧
      Writes 16 out stores (out + length) := by
  have hcount : Writes 16 out [⟨out, [UInt8.ofNat (exceptions ds w).length]⟩] (out + 1) :=
    writes_singleton (Nat.le_add_right _ _) (Nat.le_refl _) (Nat.le_add_right _ _)
  obtain ⟨base, hbase, hwrites⟩ := encodeBitmapStores_writes (w := w) overShift hfull (out + 1)
  obtain ⟨hrest, hlast⟩ :=
    vbStores_writes (exceptions ds w) (out + 1 + bytesForPackedBits ds.length w)
  have hlength : ((exceptionIndexes ds w).map UInt8.ofNat).length = (exceptions ds w).length := by
    rw [List.length_map, length_exceptionIndexes]
  set indexes := (exceptionIndexes ds w).map UInt8.ofNat with hindexes
  set mid := (vbStores (out + 1 + bytesForPackedBits ds.length w) (exceptions ds w)).2 with hmid
  have hplaces : Writes 16 mid [⟨mid, indexes⟩] (mid + indexes.length) :=
    writes_singleton (Nat.le_add_right _ _) (Nat.le_refl _) (Nat.le_add_right _ _)
  have hall := ((hcount.append hwrites).append (hrest.mono (by decide))).append hplaces
  rw [encodePforVbStores]
  dsimp only
  rw [hbase]
  change ∃ stores length, Except.ok (_, mid + indexes.length) = Except.ok (stores, out + length) ∧ _
  have hend : mid + indexes.length = out + (1 + bytesForPackedBits ds.length w +
      ((exceptions ds w).map fun val => (vbBytes val).length).sum + (exceptions ds w).length) := by
    rw [hlength, hlast]
    omega
  rw [hend] at hall ⊢
  exact ⟨_, _, rfl, rfl, hall⟩

end Writers

section Block

variable {ds : List UInt32} {w maxBits : ℕ}

theorem bytesForPackedBits_mono {num num' : ℕ} (hnum : num ≤ num') (hw : w ≤ maxBits) :
    bytesForPackedBits num w ≤ bytesForPackedBits num' maxBits := by
  have hmul := Nat.mul_le_mul hnum hw
  rw [bytesForPackedBits, bytesForPackedBits, divRoundUp, divRoundUp]
  omega

/-- What is known of the format that is chosen when the greatest width is `maxBits`. -/
theorem decideBlockType_cost (hmax : (ds.map numBits).foldl max 0 = maxBits) :
    (decideBlockType ds).1 = .constant ∨ decideBlockType ds = (.forBlock, maxBits, 0) ∨
      (∃ w < 32, decideBlockType ds = (.pforVb, w, 0) ∧
        1 + bytesForPackedBits ds.length w +
          ((exceptions ds w).map fun val => (vbBytes val).length).sum +
            (exceptions ds w).length ≤ bytesForPackedBits ds.length maxBits) ∨
      ∃ w < 32, decideBlockType ds = (.pforBitmap, w, maxBits - w) ∧
        1 + bytesForPackedBits ds.length 1 + bytesForPackedBits ds.length w +
          bytesForPackedBits (exceptions ds w).length (maxBits - w) ≤
            bytesForPackedBits ds.length maxBits := by
  have h32 := (maxBits_spec ds).le
  have hle : ∀ d ∈ ds, numBits d ≤ maxBits := fun d hd =>
    hmax ▸ (le_foldl_max _ 0).2 _ (List.mem_map_of_mem hd)
  rw [hmax] at h32
  rw [decideBlockType]
  split
  · exact .inl rfl
  · refine .inr ?_
    have hbitmap := tryBitmap_cost hle
    have hvarbyte := tryVarbyte_cost ds.length maxBits (fun n => ds.countP (n ≤ numBits ·))
      (List.range maxBits) ((tryBitmap ds maxBits).2.1, (tryBitmap ds maxBits).2.2, false)
    have hchosen := tryVarbyte_spec ds.length maxBits (fun n => ds.countP (n ≤ numBits ·))
      (List.range maxBits) ((tryBitmap ds maxBits).2.1, (tryBitmap ds maxBits).2.2, false)
    have hplain : (tryBitmap ds maxBits).2.1 ≤ bytesForPackedBits ds.length maxBits := by
      rcases hbitmap with h | ⟨-, -, h⟩
      · rw [h]
      · exact h.le
    simp only [hmax]
    dsimp only at hchosen hvarbyte ⊢
    set res := tryVarbyte ds.length maxBits (fun n => ds.countP (n ≤ numBits ·))
      (List.range maxBits) ((tryBitmap ds maxBits).2.1, (tryBitmap ds maxBits).2.2, false)
    split
    · rename_i hvb
      have hw : res.2.1 < 32 := by
        rcases hchosen with h | h
        · exact (List.mem_range.mp h.2).trans_le h32
        · exact absurd (hvb.symm.trans (congrArg Prod.snd h)) Bool.noConfusion
      rcases hvarbyte with h | ⟨hlt, hcost⟩
      · exact absurd (hvb.symm.trans (congrArg (fun st : ℕ × ℕ × Bool => st.2.2) h))
          Bool.noConfusion
      · refine .inr (.inl ⟨res.2.1, hw, rfl, ?_⟩)
        rw [hcost] at hlt
        exact ((varbyteCost_ge hw hle).trans hlt.le).trans hplain
    · rename_i hvb
      have hwidth : res.2.1 = (tryBitmap ds maxBits).2.2 := by
        rcases hchosen with h | h
        · exact absurd h.1 hvb
        · exact congrArg Prod.fst h
      rw [hwidth]
      split
      · exact .inl rfl
      · rename_i hne
        rcases hbitmap with h | ⟨hlt, hcost, hless⟩
        · exact absurd (congrArg Prod.snd h) hne
        · have hw : (tryBitmap ds maxBits).2.2 < 32 := hlt.trans_le h32
          refine .inr (.inr ⟨(tryBitmap ds maxBits).2.2, hw, rfl, ?_⟩)
          rw [length_exceptions hw]
          rw [hcost, bitmapCost] at hless
          exact hless.le

variable (overShift : UInt32 → UInt32) {interleaved : Bool} {largest : UInt32}

/-- A block takes no more than its header and plain FOR, and little is stored behind it. -/
theorem encodePforSingleBlockStores_writes (hfull : interleaved = true → ds.length = 128)
    (hmem : largest ∈ ds) (hmax : ∀ d ∈ ds, d ≤ largest) (out : ℕ) :
    ∃ stores length, encodePforSingleBlockStores overShift ds interleaved out =
        .ok (stores, out + length) ∧
      length ≤ 1 + bytesForPackedBits ds.length (numBits largest) ∧
      Writes 16 out stores (out + length) := by
  have hne : ds ≠ [] := List.ne_nil_of_mem hmem
  have hlen : ¬(interleaved = true ∧ ds.length ≠ 128) := fun h => h.2 (hfull h.1)
  have hheader (code : ℕ) : Writes 16 out [⟨out, [UInt8.ofNat code]⟩] (out + 1) :=
    writes_singleton (Nat.le_add_right _ _) (Nat.le_refl _) (Nat.le_add_right _ _)
  have hcost := decideBlockType_cost (foldl_max_numBits hmem hmax)
  rw [encodePforSingleBlockStores, if_neg hne, if_neg hlen]
  generalize decideBlockType ds = chosen at hcost ⊢
  obtain ⟨blockType, w, e⟩ := chosen
  rcases hcost with hcost | hcost | ⟨w', -, hcost, hle⟩ | ⟨w', -, hcost, hle⟩
  · dsimp only at hcost
    subst hcost
    obtain ⟨d, ds, rfl⟩ := List.exists_cons_of_ne_nil hne
    have hbits := numBits_mono (hmax d List.mem_cons_self)
    have h32 := numBits_le d
    have hvalue : Writes 16 (out + 1) [⟨out + 1, leBytes 4 d.toNat⟩]
        (out + 1 + divRoundUp (numBits d) 8) := by
      refine writes_singleton (Nat.le_add_right _ _) (Nat.le_refl (out + 1)) ?_
      rw [length_leBytes]
      dsimp only
      omega
    refine ⟨_, 1 + divRoundUp (numBits d) 8, by rw [← Nat.add_assoc]; rfl, ?_, ?_⟩
    · have hlength : 1 ≤ (d :: ds).length := Nat.succ_le_succ (Nat.zero_le _)
      have hone := bytesForPackedBits_mono hlength hbits
      rw [bytesForPackedBits, Nat.one_mul] at hone
      exact Nat.add_le_add_left hone 1
    · rw [← Nat.add_assoc]
      exact (hheader _).append hvalue
  · obtain ⟨rfl, rfl, rfl⟩ := Prod.mk.inj hcost |>.imp_right Prod.mk.inj
    obtain ⟨stores, hstores, hwrites⟩ :=
      encodeBitmapStores_writes (w := numBits largest) overShift hfull (out + 1)
    dsimp only
    rw [hstores]
    refine ⟨_, 1 + bytesForPackedBits ds.length (numBits largest), by rw [← Nat.add_assoc]; rfl,
      Nat.le_refl _, ?_⟩
    rw [← Nat.add_assoc]
    exact (hheader _).append hwrites
  · obtain ⟨rfl, rfl, rfl⟩ := Prod.mk.inj hcost |>.imp_right Prod.mk.inj
    obtain ⟨stores, length, hstores, hlength, hwrites⟩ :=
      encodePforVbStores_writes (w := w) overShift hfull (out + 1)
    dsimp only
    rw [hstores]
    refine ⟨_, 1 + length, by rw [← Nat.add_assoc]; rfl, ?_, ?_⟩
    · rw [hlength]
      exact Nat.add_le_add_left hle 1
    · rw [← Nat.add_assoc]
      exact (hheader _).append hwrites
  · obtain ⟨rfl, rfl, rfl⟩ := Prod.mk.inj hcost |>.imp_right Prod.mk.inj
    obtain ⟨stores, length, hstores, hlength, hwrites⟩ :=
      encodePforBitmapStores_writes (w := w) (e := numBits largest - w) overShift hfull (out + 1)
    dsimp only
    rw [hstores]
    refine ⟨_, 1 + length, by rw [← Nat.add_assoc]; rfl, ?_, ?_⟩
    · rw [hlength]
      exact Nat.add_le_add_left hle 1
    · rw [← Nat.add_assoc]
      exact (hheader _).append hwrites

theorem bytesForPackedBits_le_128 {num : ℕ} (hnum : num ≤ 128) (d : UInt32) :
    bytesForPackedBits num (numBits d) ≤ 512 :=
  bytesForPackedBits_mono hnum (numBits_le d)

/-- The encoder stays within the buffer and is never longer than plain FOR, whatever an undefined
shift gives. Its run in memory, if it gets to the end, does the same stores. -/
theorem encodePforSingleBlock_within (overShift : UInt32 → UInt32) (ds : List UInt32)
    (interleaved : Bool) (hlen : ds.length ≤ 128) (hfull : interleaved = true → ds.length = 128)
    (largest : UInt32) (hmem : largest ∈ ds) (hmax : ∀ d ∈ ds, d ≤ largest) (out : ℕ) :
    ∃ stores length, encodePforSingleBlockStores overShift ds interleaved out =
        .ok (stores, out + length) ∧
      length ≤ 1 + bytesForPackedBits ds.length (numBits largest) ∧
      (∀ s ∈ stores, out ≤ s.addr ∧ s.addr + s.bytes.length ≤ out + p4nencBound 128) ∧
      ∀ mem mem' last, encodePforSingleBlock ds interleaved mem out = .ok (mem', last) →
        last = out + length ∧ mem' = runStores mem stores := by
  obtain ⟨stores, length, hstores, hlength, hwrites⟩ :=
    encodePforSingleBlockStores_writes overShift hfull hmem hmax out
  refine ⟨stores, length, hstores, hlength, fun s hs => ?_, fun mem mem' last hrun => ?_⟩
  · obtain ⟨haddr, hend⟩ := hwrites.within s hs
    have h512 := bytesForPackedBits_le_128 hlen largest
    have hbound : p4nencBound 128 = 641 := rfl
    exact ⟨haddr, by omega⟩
  · obtain ⟨stores', hstores', hmem'⟩ := encodePforSingleBlock_stores overShift hrun
    obtain ⟨rfl, rfl⟩ := Prod.mk.inj (Except.ok.inj (hstores.symm.trans hstores'))
    exact ⟨rfl, hmem'.symm⟩

/-- Three values of 32 bits, for which a shift is undefined. -/
theorem encodePforSingleBlock_within_wide : ∃ stores length,
    encodePforSingleBlockStores (fun x => x) [0xffffffff, 0x80000000, 0xc0000000] false 0 =
        .ok (stores, 0 + length) ∧ length ≤ 13 ∧
      ∀ s ∈ stores, 0 ≤ s.addr ∧ s.addr + s.bytes.length ≤ 0 + p4nencBound 128 := by
  obtain ⟨stores, length, hstores, hlength, hwithin, -⟩ := encodePforSingleBlock_within
    (fun x => x) [0xffffffff, 0x80000000, 0xc0000000] false (by decide) nofun 0xffffffff
    List.mem_cons_self (fun d _ => UInt32.le_iff_toNat_le.mpr (Nat.le_of_lt_succ d.toNat_lt)) 0
  exact ⟨stores, length, hstores, hlength, hwithin⟩

end Block

end Flocate
