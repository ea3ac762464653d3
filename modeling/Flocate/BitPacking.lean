import Flocate.TurbopforDecode
import Mathlib.Data.List.Induction

/-!
# Packing bits

What `BitWriter` and `InterleavedBitWriter` leave in memory, and that the readers get it back. A
`BitWriter` keeps its values only as long as each fits into 32 bits behind the bits of the byte
that it begins in.
-/

namespace Flocate

open Bytes

section Words

theorem toNat_maskForBits {w : ℕ} (hw : w ≤ 32) : (maskForBits w).toNat = 2 ^ w - 1 := by
  rw [maskForBits]
  split
  · rename_i h
    rw [h]
    rfl
  · rename_i h
    have hlt : w < 32 := by omega
    have hpow : 2 ^ w < 2 ^ 32 := Nat.pow_lt_pow_right (by omega) hlt
    have hone : (1 : UInt32).toNat = 1 := rfl
    have hshift : (1 <<< UInt32.ofNat w : UInt32).toNat = 2 ^ w := by
      rw [UInt32.toNat_shiftLeft, UInt32.toNat_ofNat', hone, Nat.one_shiftLeft,
        Nat.mod_eq_of_lt (by omega : w < 2 ^ 32), Nat.mod_eq_of_lt hlt, Nat.mod_eq_of_lt hpow]
    rw [UInt32.toNat_sub_of_le, hshift, hone]
    rw [UInt32.le_iff_toNat_le, hshift, hone]
    exact Nat.one_le_two_pow

theorem toNat_and_maskForBits {w : ℕ} (hw : w ≤ 32) (x : UInt32) :
    (x &&& maskForBits w).toNat = x.toNat % 2 ^ w := by
  rw [UInt32.toNat_and, toNat_maskForBits hw, Nat.and_two_pow_sub_one_eq_mod]

theorem testBit_shiftLeft (v : UInt32) {o : ℕ} (ho : o < 32) (j : ℕ) :
    (v <<< UInt32.ofNat o).toNat.testBit j =
      (decide (j < 32) && (decide (o ≤ j) && v.toNat.testBit (j - o))) := by
  rw [UInt32.toNat_shiftLeft, UInt32.toNat_ofNat', Nat.mod_eq_of_lt (by omega : o < 2 ^ 32),
    Nat.mod_eq_of_lt ho, Nat.testBit_mod_two_pow, Nat.testBit_shiftLeft]

theorem testBit_shiftRight (v : UInt32) {o : ℕ} (ho : o < 32) (j : ℕ) :
    (v >>> UInt32.ofNat o).toNat.testBit j = v.toNat.testBit (o + j) := by
  rw [UInt32.toNat_shiftRight, UInt32.toNat_ofNat', Nat.mod_eq_of_lt (by omega : o < 2 ^ 32),
    Nat.mod_eq_of_lt ho, Nat.testBit_shiftRight]

theorem testBit_toUInt64_shiftLeft (v : UInt32) {o : ℕ} (ho : o < 64) (j : ℕ) :
    (v.toUInt64 <<< UInt64.ofNat o).toNat.testBit j =
      (decide (j < 64) && (decide (o ≤ j) && v.toNat.testBit (j - o))) := by
  rw [UInt64.toNat_shiftLeft, UInt64.toNat_ofNat', Nat.mod_eq_of_lt (by omega : o < 2 ^ 64),
    Nat.mod_eq_of_lt ho, Nat.testBit_mod_two_pow, Nat.testBit_shiftLeft, UInt32.toNat_toUInt64]

theorem testBit_toNat_of_ge {v : UInt32} {w j : ℕ} (hv : v.toNat < 2 ^ w) (hj : w ≤ j) :
    v.toNat.testBit j = false :=
  Nat.testBit_lt_two_pow (hv.trans_le (Nat.pow_le_pow_right (by omega) hj))

theorem ofNat_readLe (mem : Memory) (p : ℕ) :
    (UInt32.ofNat (readLe 4 mem p)).toNat = readLe 4 mem p := by
  have hlt : readLe 4 mem p < 2 ^ 32 := by
    have h := leNat_lt (region mem p 4)
    rwa [length_region] at h
  exact UInt32.toNat_ofNat_of_lt' hlt

end Words

/-- What is written at byte `q` of a stream, bit by bit. -/
theorem bitAt_writeBytes (mem : Memory) (p q c x : ℕ) :
    bitAt (fun b => writeBytes mem (p + q) (leBytes 4 c) (p + b)) x =
      if 8 * q ≤ x ∧ x < 8 * q + 32 then c.testBit (x - 8 * q)
      else bitAt (fun b => mem (p + b)) x := by
  split
  · rename_i h
    have hb (b : ℕ) (hb : b < 4) : (fun b => writeBytes mem (p + q) (leBytes 4 c) (p + (q + b))) b =
        ((leBytes 4 c)[b]?).getD 0 := by
      have hlen : b < (leBytes 4 c).length := by rwa [length_leBytes]
      have hmem := hasBytes_writeBytes mem (p + q) (leBytes 4 c) b hlen
      rw [List.getElem?_eq_getElem hlen, Option.getD_some, ← hmem]
      dsimp only
      rw [Nat.add_assoc]
    have hx : x = 8 * q + (x - 8 * q) := by omega
    rw [← bitAt_leBytes hb (by omega : x - 8 * q < 8 * 4), bitAt, bitAt]
    congr 1
    · congr 2
      omega
    · omega
  · rename_i h
    rw [bitAt, bitAt]
    congr 2
    rcases Nat.lt_or_ge x (8 * q) with hlt | hge
    · exact writeBytes_of_lt mem _ (by omega)
    · exact writeBytes_of_ge mem _ (by rw [length_leBytes]; omega)

section Sequential

/-- Every value fits behind the bits that its first byte already has. -/
def Fits (n w : ℕ) : Prop := ∀ i < n, i * w % 8 + w < 32

instance (n w : ℕ) : Decidable (Fits n w) := inferInstanceAs (Decidable (∀ i < n, _))

structure BitWriter.At (p w : ℕ) (vs : List UInt32) (bs : BitWriter) (mem : Memory) : Prop where
  bits : bs.bits = w
  le : p ≤ bs.out
  pos : 8 * (bs.out - p) + bs.bitsUsed = vs.length * w
  bitsUsed : bs.bitsUsed < 8
  holds : Bytes.Holds (fun b => mem (p + b)) w (vs.map (·.toNat))
  curVal : ∀ j, bs.curVal.toNat.testBit j =
    (decide (j < bs.bitsUsed) && bitAt (fun b => mem (p + b)) (8 * (bs.out - p) + j))

variable {p w : ℕ} {vs : List UInt32} {bs : BitWriter} {mem : Memory}

theorem BitWriter.at_start (p w : ℕ) (mem : Memory) :
    BitWriter.At p w [] { out := p, bits := w } mem where
  bits := rfl
  le := Nat.le_refl p
  pos := by simp
  bitsUsed := Nat.zero_lt_succ 7
  holds := nofun
  curVal j := by simp

theorem holds_append_singleton {bytes : ℕ → UInt8} {w : ℕ} {vs : List ℕ} {v : ℕ} :
    Bytes.Holds bytes w (vs ++ [v]) ↔
      Bytes.Holds bytes w vs ∧ ∀ k < w, bitAt bytes (vs.length * w + k) = v.testBit k := by
  constructor
  · refine fun h => ⟨fun i hi k hk => ?_, fun k hk => ?_⟩
    · rw [h i (by rw [List.length_append]; omega) k hk, List.getElem_append_left hi]
    · rw [h vs.length (by simp) k hk]
      simp
  · rintro ⟨h, hv⟩ i hi k hk
    by_cases hlt : i < vs.length
    · rw [h i hlt k hk, List.getElem_append_left hlt]
    · obtain rfl : i = vs.length := by
        rw [List.length_append, List.length_singleton] at hi
        omega
      rw [hv k hk]
      simp

theorem BitWriter.At.write (h : BitWriter.At p w vs bs mem) {v : UInt32} (hv : v.toNat < 2 ^ w)
    (hfit : bs.bitsUsed + w < 32) : ∃ bs' mem', bs.write mem v = .ok (bs', mem') ∧
      BitWriter.At p w (vs ++ [v]) bs' mem' ∧ ∀ a < p, mem' a = mem a := by
  obtain ⟨out, bits, o, cur⟩ := bs
  obtain ⟨hbits, hle, hpos, ho, hholds, hcur⟩ := h
  obtain rfl : bits = w := hbits
  obtain ⟨q, rfl⟩ := Nat.exists_eq_add_of_le hle
  simp only [Nat.add_sub_cancel_left] at hpos hcur hfit ho
  have hbit (j : ℕ) : (cur ||| v <<< UInt32.ofNat o).toNat.testBit j =
      (decide (j < o) && bitAt (fun b => mem (p + b)) (8 * q + j) ||
        (decide (j < 32) && (decide (o ≤ j) && v.toNat.testBit (j - o)))) := by
    rw [UInt32.toNat_or, Nat.testBit_or, hcur, testBit_shiftLeft v (by omega)]
  set c := cur ||| v <<< UInt32.ofNat o with hc
  refine ⟨_, _, by rw [BitWriter.write]; exact if_neg (by dsimp only; omega), ?_, fun a ha => ?_⟩
  · have hnew (j : ℕ) (hj : j < 32) : bitAt (fun b =>
        writeBytes mem (p + q) (leBytes 4 c.toNat) (p + b)) (8 * q + j) = c.toNat.testBit j := by
      rw [bitAt_writeBytes, if_pos (by omega), Nat.add_sub_cancel_left]
    refine ⟨rfl, by dsimp only; omega, ?_, Nat.mod_lt _ (by omega), ?_, fun j => ?_⟩
    · rw [List.length_append, List.length_singleton, Nat.add_mul, Nat.one_mul, ← hpos]
      dsimp only
      omega
    · rw [List.map_append, List.map_singleton, holds_append_singleton]
      refine ⟨fun i hi k hk => ?_, fun k hk => ?_⟩
      · rw [← hholds i hi k hk]
        have hx : i * bits + k < vs.length * bits := by
          rw [List.length_map] at hi
          exact Nat.lt_of_lt_of_le (Nat.add_lt_add_left hk _) (by
            rw [← Nat.succ_mul]
            exact Nat.mul_le_mul_right bits hi)
        rcases Nat.lt_or_ge (i * bits + k) (8 * q) with hlt | hge
        · rw [bitAt_writeBytes, if_neg (by omega)]
        · obtain ⟨j, hj⟩ := Nat.exists_eq_add_of_le hge
          rw [hj, hnew j (by omega), hbit, decide_eq_true (by omega : j < o),
            decide_eq_false (by omega : ¬o ≤ j)]
          simp
      · rw [List.length_map, ← hpos, Nat.add_assoc, hnew (o + k) (by omega), hbit,
          decide_eq_false (by omega : ¬o + k < o), decide_eq_true (by omega : o + k < 32),
          decide_eq_true (by omega : o ≤ o + k), Nat.add_sub_cancel_left]
        simp
    · dsimp only
      rw [testBit_shiftRight c (by omega)]
      by_cases hj : j < (o + bits) % 8
      · rw [decide_eq_true hj, Bool.true_and, ← hnew _ (by omega)]
        congr 1
        omega
      · rw [decide_eq_false hj, Bool.false_and, hbit, decide_eq_false (by omega), Bool.false_and,
          Bool.false_or]
        rw [testBit_toNat_of_ge hv (by omega)]
        simp
  · exact writeBytes_of_lt mem _ (by omega)

/-- In a stream that fits, all values arrive. -/
theorem BitWriter.At.writeAll {us : List UInt32} (h : BitWriter.At p w vs bs mem)
    (hus : ∀ v ∈ us, v.toNat < 2 ^ w) (hfit : Fits (vs.length + us.length) w) :
    ∃ mem', bs.writeAll mem us = .ok mem' ∧
      Bytes.Holds (fun b => mem' (p + b)) w ((vs ++ us).map (·.toNat)) ∧
        ∀ a < p, mem' a = mem a := by
  induction us generalizing vs bs mem with
  | nil => exact ⟨mem, rfl, by simpa using h.holds, fun _ _ => rfl⟩
  | cons v us ih =>
      rw [List.forall_mem_cons] at hus
      rw [List.length_cons] at hfit
      have hone : bs.bitsUsed + w < 32 := by
        have := hfit vs.length (by omega)
        have := h.pos
        have := h.bitsUsed
        omega
      obtain ⟨bs', mem', hw, h', hframe⟩ := h.write hus.1 hone
      have hlen : (vs ++ [v]).length + us.length = vs.length + (us.length + 1) := by
        rw [List.length_append, List.length_singleton]
        omega
      obtain ⟨mem'', hall, hholds, hframe'⟩ := ih h' hus.2 (hlen ▸ hfit)
      refine ⟨mem'', ?_, ?_, fun a ha => (hframe' a ha).trans (hframe a ha)⟩
      · rw [BitWriter.writeAll, hw]
        exact hall
      · rwa [List.append_assoc, List.singleton_append] at hholds

/-- The first value that does not fit leads to an undefined shift. -/
theorem BitWriter.writeAll_error {us : List UInt32} (hused : bs.bitsUsed < 8)
    (h : ¬∀ i < us.length, (bs.bitsUsed + i * bs.bits) % 8 + bs.bits < 32) :
    bs.writeAll mem us = .error .shift := by
  induction us generalizing bs mem with
  | nil => exact absurd nofun h
  | cons v us ih =>
      rw [BitWriter.writeAll, BitWriter.write]
      by_cases hone : 32 ≤ (bs.bitsUsed + bs.bits) / 8 * 8
      · rw [if_pos hone]
        rfl
      · rw [if_neg hone]
        refine ih (Nat.mod_lt _ (by omega)) fun hall => h fun i hi => ?_
        cases i with
        | zero =>
            rw [Nat.zero_mul, Nat.add_zero]
            omega
        | succ i =>
            have hi' := hall i (Nat.lt_of_succ_lt_succ hi)
            dsimp only at hi'
            rw [Nat.succ_mul]
            omega

structure BitReader.At (p w n : ℕ) (bs : BitReader) : Prop where
  bits : bs.bits = w
  le : p ≤ bs.pos
  pos : 8 * (bs.pos - p) + bs.bitsUsed = n * w
  bitsUsed : bs.bitsUsed < 8

theorem BitReader.At.read {n : ℕ} {bs : BitReader} (h : BitReader.At p w n bs) {v : UInt32}
    (hw : w ≤ 32) (hv : v.toNat < 2 ^ w) (hfit : n * w % 8 + w < 32)
    (hbits : ∀ k < w, bitAt (fun b => mem (p + b)) (n * w + k) = v.toNat.testBit k) :
    (bs.read mem).1 = v ∧ BitReader.At p w (n + 1) (bs.read mem).2 := by
  obtain ⟨pos, bits, o⟩ := bs
  obtain ⟨hbs, hle, hpos, ho⟩ := h
  obtain rfl : bits = w := hbs
  obtain ⟨q, rfl⟩ := Nat.exists_eq_add_of_le hle
  simp only [Nat.add_sub_cancel_left] at hpos ho
  constructor
  · refine UInt32.toNat_inj.mp (Nat.eq_of_testBit_eq fun k => ?_)
    rw [BitReader.read, toNat_and_maskForBits hw, Nat.testBit_mod_two_pow]
    dsimp only
    rw [testBit_shiftRight _ (by omega), ofNat_readLe, testBit_readLe]
    by_cases hk : k < bits
    · rw [decide_eq_true hk, decide_eq_true (by omega), Bool.true_and, Bool.true_and,
        ← hbits k hk, bitAt, bitAt]
      rw [show (n * bits + k) / 8 = q + (o + k) / 8 by omega, ← Nat.add_assoc]
      congr 1
      omega
    · rw [decide_eq_false hk, testBit_toNat_of_ge hv (by omega), Bool.false_and]
  · refine ⟨rfl, ?_, ?_, Nat.mod_lt _ (by omega)⟩
    · simp only [BitReader.read]
      omega
    · simp only [BitReader.read]
      rw [Nat.add_mul, Nat.one_mul, ← hpos]
      omega

/-- What a stream holds is read back. -/
theorem BitReader.readMany_eq (hw : w ≤ 32) (hvs : ∀ v ∈ vs, v.toNat < 2 ^ w)
    (hfit : Fits vs.length w) (h : Bytes.Holds (fun b => mem (p + b)) w (vs.map (·.toNat))) :
    ({ pos := p, bits := w } : BitReader).readMany mem vs.length = vs := by
  have hrest (done us : List UInt32) (bs : BitReader) (heq : done ++ us = vs)
      (hbs : BitReader.At p w done.length bs) : bs.readMany mem us.length = us := by
    induction us generalizing done bs with
    | nil => rfl
    | cons v us ih =>
        have hlen : done.length < vs.length := by
          rw [← heq, List.length_append, List.length_cons]
          omega
        have hv := h.of_getElem? (i := done.length) (v := v.toNat) (by simp [← heq])
        obtain ⟨hread, hnext⟩ := hbs.read hw (hvs v (by rw [← heq]; simp)) (hfit _ hlen) hv
        rw [List.length_cons, BitReader.readMany, hread]
        congr 1
        refine ih (done ++ [v]) _ (by simpa using heq) ?_
        rwa [List.length_append, List.length_singleton]
  exact hrest [] vs _ rfl ⟨rfl, Nat.le_refl p, by simp, Nat.zero_lt_succ 7⟩

end Sequential

section Interleaved

/-- Byte `b` of one of the four streams; its words are 16 bytes apart. -/
def streamAddr (p b : ℕ) : ℕ := p + 16 * (b / 4) + b % 4

theorem bitAt_writeWord (mem : Memory) (p t c x : ℕ) :
    bitAt (fun b => writeBytes mem (p + 16 * t) (leBytes 4 c) (streamAddr p b)) x =
      if 32 * t ≤ x ∧ x < 32 * t + 32 then c.testBit (x - 32 * t)
      else bitAt (fun b => mem (streamAddr p b)) x := by
  split
  · rename_i h
    have hb (b : ℕ) (hb : b < 4) :
        (fun b => writeBytes mem (p + 16 * t) (leBytes 4 c) (streamAddr p (4 * t + b))) b =
          ((leBytes 4 c)[b]?).getD 0 := by
      have hlen : b < (leBytes 4 c).length := by rwa [length_leBytes]
      have hmem := hasBytes_writeBytes mem (p + 16 * t) (leBytes 4 c) b hlen
      rw [List.getElem?_eq_getElem hlen, Option.getD_some, ← hmem]
      dsimp only
      congr 1
      rw [streamAddr]
      omega
    rw [← bitAt_leBytes hb (by omega : x - 32 * t < 8 * 4), bitAt, bitAt]
    congr 1
    · congr 3
      omega
    · omega
  · rename_i h
    rw [bitAt, bitAt]
    congr 2
    rcases Nat.lt_or_ge x (32 * t) with hlt | hge
    · exact writeBytes_of_lt mem _ (by rw [streamAddr]; omega)
    · exact writeBytes_of_ge mem _ (by rw [length_leBytes, streamAddr]; omega)

structure InterleavedBitWriter.At (p w : ℕ) (vs : List UInt32) (bs : InterleavedBitWriter)
    (mem : Memory) : Prop where
  bits : bs.bits = w
  out : bs.out = p + 16 * (vs.length * w / 32)
  bitsUsed : bs.bitsUsed = vs.length * w % 32
  holds : Bytes.Holds (fun b => mem (streamAddr p b)) w (vs.map (·.toNat))
  curVal : ∀ j, bs.curVal.toNat.testBit j = (decide (j < bs.bitsUsed) &&
    bitAt (fun b => mem (streamAddr p b)) (32 * (vs.length * w / 32) + j))

variable {p w : ℕ} {vs : List UInt32} {bs : InterleavedBitWriter} {mem : Memory}

theorem InterleavedBitWriter.at_start (p w : ℕ) (mem : Memory) :
    InterleavedBitWriter.At p w [] { out := p, bits := w } mem where
  bits := rfl
  out := by simp
  bitsUsed := by simp
  holds := nofun
  curVal j := by simp

/-- A write stays within the words of its own stream. -/
theorem InterleavedBitWriter.write_frame (bs : InterleavedBitWriter) (mem : Memory) (v : UInt32)
    {a : ℕ} (ha : ∀ t < 2, a < bs.out + 16 * t ∨ bs.out + 16 * t + 4 ≤ a) :
    (bs.write mem v).2 a = mem a := by
  have hone (mem : Memory) (t c : ℕ) (ht : t < 2) :
      writeBytes mem (bs.out + 16 * t) (leBytes 4 c) a = mem a := by
    rcases ha t ht with hlt | hge
    · exact writeBytes_of_lt mem _ hlt
    · exact writeBytes_of_ge mem _ (by rwa [length_leBytes])
  have h0 := hone mem 0 (bs.curVal ||| v.toUInt64 <<< UInt64.ofNat bs.bitsUsed).toNat (by omega)
  rw [Nat.mul_zero, Nat.add_zero] at h0
  rw [InterleavedBitWriter.write]
  dsimp only
  split
  · have h1 := hone (writeBytes mem bs.out
      (leBytes 4 (bs.curVal ||| v.toUInt64 <<< UInt64.ofNat bs.bitsUsed).toNat)) 1
      ((bs.curVal ||| v.toUInt64 <<< UInt64.ofNat bs.bitsUsed) >>> 32).toNat (by omega)
    exact h1.trans h0
  · exact h0

theorem InterleavedBitWriter.At.write (h : InterleavedBitWriter.At p w vs bs mem) {v : UInt32}
    (hw : w ≤ 32) (hv : v.toNat < 2 ^ w) :
    InterleavedBitWriter.At p w (vs ++ [v]) (bs.write mem v).1 (bs.write mem v).2 := by
  obtain ⟨out, bits, o, cur⟩ := bs
  obtain ⟨hbits, hout, ho, hholds, hcur⟩ := h
  obtain rfl : bits = w := hbits
  obtain rfl : out = _ := hout
  have hn : (vs ++ [v]).length * bits = vs.length * bits + bits := by
    rw [List.length_append, List.length_singleton, Nat.add_mul, Nat.one_mul]
  dsimp only at ho hcur
  set t := vs.length * bits / 32 with ht
  have hlt : o < 32 := by omega
  have hbit (j : ℕ) : (cur ||| v.toUInt64 <<< UInt64.ofNat o).toNat.testBit j =
      (decide (j < o) && bitAt (fun b => mem (streamAddr p b)) (32 * t + j) ||
        (decide (j < 64) && (decide (o ≤ j) && v.toNat.testBit (j - o)))) := by
    rw [UInt64.toNat_or, Nat.testBit_or, hcur, testBit_toUInt64_shiftLeft v (by omega)]
  set c := cur ||| v.toUInt64 <<< UInt64.ofNat o with hc
  -- what is true of the new memory, with or without a full word
  have hfinish (mem' : Memory)
      (hnew : ∀ j < o + bits, bitAt (fun b => mem' (streamAddr p b)) (32 * t + j) =
        c.toNat.testBit j)
      (hold : ∀ x < 32 * t, bitAt (fun b => mem' (streamAddr p b)) x =
        bitAt (fun b => mem (streamAddr p b)) x) :
      Bytes.Holds (fun b => mem' (streamAddr p b)) bits ((vs ++ [v]).map (·.toNat)) := by
    rw [List.map_append, List.map_singleton, holds_append_singleton]
    refine ⟨fun i hi k hk => ?_, fun k hk => ?_⟩
    · rw [← hholds i hi k hk]
      have hx : i * bits + k < vs.length * bits := by
        rw [List.length_map] at hi
        exact Nat.lt_of_lt_of_le (Nat.add_lt_add_left hk _) (by
          rw [← Nat.succ_mul]
          exact Nat.mul_le_mul_right bits hi)
      rcases Nat.lt_or_ge (i * bits + k) (32 * t) with hlt | hge
      · exact hold _ hlt
      · obtain ⟨j, hj⟩ := Nat.exists_eq_add_of_le hge
        rw [hj, hnew j (by omega), hbit, decide_eq_true (by omega : j < o),
          decide_eq_false (by omega : ¬o ≤ j)]
        simp
    · have hpos : (vs.map (·.toNat)).length * bits + k = 32 * t + (o + k) := by
        rw [List.length_map]
        omega
      rw [hpos, hnew (o + k) (by omega), hbit, decide_eq_false (by omega : ¬o + k < o),
        decide_eq_true (by omega : o + k < 64), decide_eq_true (by omega : o ≤ o + k),
        Nat.add_sub_cancel_left]
      simp
  have hhigh (j : ℕ) (hj : o + bits ≤ j) : c.toNat.testBit j = false := by
    rw [hbit, decide_eq_false (by omega : ¬j < o), testBit_toNat_of_ge hv (by omega)]
    simp
  rw [InterleavedBitWriter.write]
  dsimp only
  split
  · rename_i hfull
    have hbits (j : ℕ) (hj : j < 64) : bitAt (fun b =>
        writeBytes (writeBytes mem (p + 16 * t) (leBytes 4 c.toNat)) (p + 16 * t + 16)
          (leBytes 4 (c >>> 32).toNat) (streamAddr p b)) (32 * t + j) = c.toNat.testBit j := by
      rw [show p + 16 * t + 16 = p + 16 * (t + 1) by omega, bitAt_writeWord]
      by_cases hj' : j < 32
      · rw [if_neg (by omega), bitAt_writeWord, if_pos (by omega), Nat.add_sub_cancel_left]
      · rw [if_pos (by omega), show c >>> 32 = c >>> UInt64.ofNat 32 from rfl,
          UInt64.toNat_shiftRight, Nat.testBit_shiftRight]
        congr 1
        change 32 + _ = _
        omega
    refine ⟨rfl, ?_, ?_, hfinish _ (fun j hj => hbits j (by omega)) fun x hx => ?_, fun j => ?_⟩
    · rw [hn]
      dsimp only
      omega
    · rw [hn]
      dsimp only
      omega
    · rw [show p + 16 * t + 16 = p + 16 * (t + 1) by omega, bitAt_writeWord, if_neg (by omega),
        bitAt_writeWord, if_neg (by omega)]
    · have hshift : (c >>> 32).toNat.testBit j = c.toNat.testBit (32 + j) := by
        rw [show c >>> 32 = c >>> UInt64.ofNat 32 from rfl, UInt64.toNat_shiftRight,
          Nat.testBit_shiftRight]
        rfl
      dsimp only
      rw [hshift]
      by_cases hj : j < o + bits - 32
      · rw [decide_eq_true hj, Bool.true_and, ← hbits _ (by omega)]
        congr 1
        rw [hn]
        omega
      · rw [decide_eq_false hj, Bool.false_and, hhigh _ (by omega)]
  · rename_i hpart
    have hbits (j : ℕ) (hj : j < 32) : bitAt (fun b =>
        writeBytes mem (p + 16 * t) (leBytes 4 c.toNat) (streamAddr p b)) (32 * t + j) =
          c.toNat.testBit j := by
      rw [bitAt_writeWord, if_pos (by omega), Nat.add_sub_cancel_left]
    refine ⟨rfl, ?_, ?_, hfinish _ (fun j hj => hbits j (by omega)) fun x hx => ?_, fun j => ?_⟩
    · rw [hn]
      dsimp only
      omega
    · rw [hn]
      dsimp only
      omega
    · rw [bitAt_writeWord, if_neg (by omega)]
    · dsimp only
      by_cases hj : j < o + bits
      · rw [decide_eq_true hj, Bool.true_and, ← hbits _ (by omega)]
        congr 1
        rw [hn]
        omega
      · rw [decide_eq_false hj, Bool.false_and, hhigh _ (by omega)]

theorem InterleavedBitWriter.At.congr {mem' : Memory} (h : InterleavedBitWriter.At p w vs bs mem)
    (heq : ∀ b, mem' (streamAddr p b) = mem (streamAddr p b)) :
    InterleavedBitWriter.At p w vs bs mem' := by
  have hfun : (fun b => mem' (streamAddr p b)) = fun b => mem (streamAddr p b) := funext heq
  exact ⟨h.bits, h.out, h.bitsUsed, hfun ▸ h.holds, hfun ▸ h.curVal⟩

def lane {α : Type*} (s : ℕ) (vs : List α) : List α :=
  (vs.zipIdx.filter fun v => v.2 % 4 = s).map Prod.fst

theorem lane_append_cons {α : Type*} (s : ℕ) (vs : List α) (v : α) (us : List α) :
    ∃ rest, lane s (vs ++ v :: us) =
      lane s vs ++ (if vs.length % 4 = s then [v] else []) ++ rest := by
  refine ⟨((us.zipIdx (vs.length + 1)).filter fun v => v.2 % 4 = s).map Prod.fst, ?_⟩
  simp only [lane, List.zipIdx_append, List.filter_append, List.map_append, List.zipIdx_cons,
    List.append_assoc, Nat.zero_add]
  congr 1
  rw [List.filter_cons]
  split
  · rename_i h
    rw [if_pos (by simpa using h)]
    rfl
  · rename_i h
    rw [if_neg (by simpa using h)]
    rfl

theorem lane_concat {α : Type*} (s : ℕ) (vs : List α) (v : α) :
    lane s (vs ++ [v]) = lane s vs ++ if vs.length % 4 = s then [v] else [] := by
  simp only [lane, List.zipIdx_append, List.filter_append, List.map_append, Nat.zero_add]
  congr 1
  by_cases h : vs.length % 4 = s
  · simp [h]
  · simp [h]

theorem length_lane {α : Type*} {s : ℕ} (hs : s < 4) (vs : List α) :
    (lane s vs).length = (vs.length + 3 - s) / 4 := by
  induction vs using List.reverseRecOn with
  | nil =>
      rw [List.length_nil]
      exact (Nat.div_eq_of_lt (by omega)).symm
  | append_singleton vs v ih =>
      rw [lane_concat, List.length_append, ih, List.length_append, List.length_singleton]
      split
      · rw [List.length_singleton]
        omega
      · rw [List.length_nil]
        omega

/-- The four writers keep to their own streams. -/
theorem writeInterleaved_spec {p w : ℕ} (hw : w ≤ 32) {vs us : List UInt32}
    (hus : ∀ v ∈ us, v.toNat < 2 ^ w) {bs : ℕ → InterleavedBitWriter} {mem : Memory}
    (h : ∀ s < 4, InterleavedBitWriter.At (p + s * 4) w (lane s vs) (bs s) mem) :
    (∀ s < 4, Bytes.Holds
      (fun b => writeInterleaved bs mem vs.length us (streamAddr (p + s * 4) b)) w
      ((lane s (vs ++ us)).map (·.toNat))) ∧
      ∀ a < p, writeInterleaved bs mem vs.length us a = mem a := by
  induction us generalizing vs bs mem with
  | nil =>
      rw [List.append_nil]
      exact ⟨fun s hs => (h s hs).holds, fun _ _ => rfl⟩
  | cons v us ih =>
      rw [List.forall_mem_cons] at hus
      have hlt : vs.length % 4 < 4 := Nat.mod_lt _ (by omega)
      set s₀ := vs.length % 4 with hs₀
      have hout := (h s₀ hlt).out
      have hstep : ∀ s < 4, InterleavedBitWriter.At (p + s * 4) w (lane s (vs ++ [v]))
          (Function.update bs s₀ ((bs s₀).write mem v).1 s) ((bs s₀).write mem v).2 := by
        intro s hs
        rw [lane_concat]
        by_cases heq : s = s₀
        · rw [heq, Function.update_self, if_pos rfl]
          exact (h s₀ hlt).write hw hus.1
        · rw [Function.update_of_ne heq, if_neg fun h => heq h.symm, List.append_nil]
          refine (h s hs).congr fun b => (bs s₀).write_frame mem v fun t _ => ?_
          rw [hout, streamAddr]
          omega
      have hrest := ih hus.2 hstep
      rw [List.length_append, List.length_singleton, List.append_assoc,
        List.singleton_append] at hrest
      refine ⟨hrest.1, fun a ha => (hrest.2 a ha).trans ?_⟩
      exact (bs s₀).write_frame mem v fun t _ => Or.inl (by rw [hout]; omega)

structure InterleavedBitReader.At (p w n : ℕ) (bs : InterleavedBitReader) : Prop where
  bits : bs.bits = w
  pos : bs.pos = p + 16 * (n * w / 32)
  bitsUsed : bs.bitsUsed = n * w % 32

theorem testBit_readWord (mem : Memory) (p t : ℕ) {j : ℕ} (hj : j < 32) :
    (readLe 4 mem (p + 16 * t)).testBit j =
      bitAt (fun b => mem (streamAddr p b)) (32 * t + j) := by
  rw [testBit_readLe, decide_eq_true (by omega), Bool.true_and, bitAt, bitAt]
  congr 1
  · congr 2
    rw [streamAddr]
    omega
  · omega

theorem InterleavedBitReader.At.read {n : ℕ} {bs : InterleavedBitReader}
    (h : InterleavedBitReader.At p w n bs) {v : UInt32} (hw : w ≤ 32) (hv : v.toNat < 2 ^ w)
    (hbits : ∀ k < w, bitAt (fun b => mem (streamAddr p b)) (n * w + k) = v.toNat.testBit k) :
    (bs.read mem).1 = v ∧ InterleavedBitReader.At p w (n + 1) (bs.read mem).2 := by
  obtain ⟨pos, bits, o⟩ := bs
  obtain ⟨hbs, hpos, ho⟩ := h
  obtain rfl : bits = w := hbs
  obtain rfl : pos = _ := hpos
  dsimp only at ho
  set t := n * bits / 32 with ht
  constructor
  · refine UInt32.toNat_inj.mp (Nat.eq_of_testBit_eq fun k => ?_)
    rw [InterleavedBitReader.read, toNat_and_maskForBits hw, Nat.testBit_mod_two_pow]
    dsimp only
    by_cases hk : k < bits
    · have hlow : (UInt32.ofNat (readLe 4 mem (p + 16 * t)) >>> UInt32.ofNat o).toNat.testBit k =
          (decide (o + k < 32) && v.toNat.testBit k) := by
        rw [testBit_shiftRight _ (by omega), ofNat_readLe]
        by_cases hok : o + k < 32
        · rw [testBit_readWord mem p t hok, ← hbits k hk, decide_eq_true hok, Bool.true_and]
          congr 1
          omega
        · rw [testBit_readLe, decide_eq_false hok, Bool.false_and, Bool.false_and]
      rw [decide_eq_true hk, Bool.true_and]
      split
      · rename_i hsplit
        rw [UInt32.toNat_or, Nat.testBit_or, hlow, testBit_shiftLeft _ (by omega), ofNat_readLe,
          show p + 16 * t + 16 = p + 16 * (t + 1) by omega, decide_eq_true (by omega : k < 32),
          Bool.true_and]
        by_cases hok : o + k < 32
        · rw [decide_eq_true hok, decide_eq_false (by omega : ¬32 - o ≤ k)]
          simp
        · rw [decide_eq_false hok, decide_eq_true (by omega : 32 - o ≤ k),
            testBit_readWord mem p (t + 1) (by omega), ← hbits k hk, Bool.false_and, Bool.false_or,
            Bool.true_and]
          congr 1
          omega
      · rw [hlow, decide_eq_true (by omega), Bool.true_and]
    · rw [decide_eq_false hk, testBit_toNat_of_ge hv (by omega), Bool.false_and]
  · have hn : (n + 1) * bits = n * bits + bits := by rw [Nat.add_mul, Nat.one_mul]
    refine ⟨rfl, ?_, ?_⟩
    · simp only [InterleavedBitReader.read]
      rw [hn]
      omega
    · simp only [InterleavedBitReader.read]
      rw [hn]
      omega

/-- What the four streams hold is read back. -/
theorem readInterleaved_eq (hw : w ≤ 32) (hvs : ∀ v ∈ vs, v.toNat < 2 ^ w)
    (h : ∀ s < 4, Bytes.Holds (fun b => mem (streamAddr (p + s * 4) b)) w
      ((lane s vs).map (·.toNat))) :
    readInterleaved mem vs.length 0 (fun s => { pos := p + s * 4, bits := w }) = vs := by
  have hrest (done us : List UInt32) (bs : ℕ → InterleavedBitReader) (heq : done ++ us = vs)
      (hbs : ∀ s < 4, InterleavedBitReader.At (p + s * 4) w (lane s done).length (bs s)) :
      readInterleaved mem us.length done.length bs = us := by
    induction us generalizing done bs with
    | nil => rfl
    | cons v us ih =>
        have hlt : done.length % 4 < 4 := Nat.mod_lt _ (by omega)
        obtain ⟨rest, hlane⟩ := lane_append_cons (done.length % 4) done v us
        rw [if_pos rfl, heq] at hlane
        have hv := (h _ hlt).of_getElem? (i := (lane (done.length % 4) done).length)
          (v := v.toNat) (by simp [hlane])
        obtain ⟨hread, hnext⟩ := (hbs _ hlt).read hw (hvs v (by rw [← heq]; simp)) hv
        rw [List.length_cons, readInterleaved, hread]
        congr 1
        have hdone := ih (done ++ [v])
          (Function.update bs (done.length % 4) ((bs (done.length % 4)).read mem).2)
          (by simpa using heq) fun s hs => by
            rw [lane_concat, List.length_append]
            by_cases hsame : s = done.length % 4
            · rw [hsame, Function.update_self, if_pos rfl]
              exact hnext
            · rw [Function.update_of_ne hsame, if_neg fun h => hsame h.symm]
              exact hbs s hs
        rwa [List.length_append, List.length_singleton] at hdone
  refine hrest [] vs _ rfl fun s hs => ⟨rfl, ?_, ?_⟩
  · simp [lane]
  · simp [lane]

end Interleaved

end Flocate
