import Flocate.Db
import Mathlib.Data.Finset.Prod
import Mathlib.Data.Nat.Bitwise
import Mathlib.Logic.Function.Iterate

/-!
# Where the hashes of trigrams lie

The steps of the hash are linear and can be taken back. So two trigrams have hashes in one aligned
block of 256 only if the difference of the two is the hash of a trigram, and no hash of a trigram is
that small. An interval of buckets therefore holds few trigrams if the table is large.
-/

namespace Flocate

def crc (trgm : UInt32) : UInt32 := hashTrigramStep^[32] trgm

def unstep (z : ℕ) : ℕ := if z % 2 = 1 then (z ^^^ 0x1edc6f41) / 2 + 2 ^ 31 else z / 2

section Steps

theorem and_topBit_ne_zero_iff (a : UInt32) : a &&& 0x80000000 ≠ 0 ↔ a.toNat.testBit 31 = true := by
  have hand := Nat.and_two_pow a.toNat 31
  rw [ne_eq, ← UInt32.toNat_inj, UInt32.toNat_and]
  change ¬a.toNat &&& 2 ^ 31 = 0 ↔ _
  rw [hand]
  cases a.toNat.testBit 31
  · decide
  · decide

theorem hashTrigramStep_eq (a : UInt32) : hashTrigramStep a =
    a <<< 1 ^^^ if a.toNat.testBit 31 = true then 0x1edc6f41 else 0 := by
  unfold hashTrigramStep
  simp only [and_topBit_ne_zero_iff]
  split
  · rfl
  · rw [UInt32.xor_zero]

theorem hashTrigramStep_xor (a b : UInt32) :
    hashTrigramStep (a ^^^ b) = hashTrigramStep a ^^^ hashTrigramStep b := by
  rw [hashTrigramStep_eq, hashTrigramStep_eq, hashTrigramStep_eq, UInt32.shiftLeft_xor,
    UInt32.toNat_xor, Nat.testBit_xor]
  have hswap (x y u v : UInt32) : x ^^^ y ^^^ (u ^^^ v) = x ^^^ u ^^^ (y ^^^ v) := by ac_rfl
  rw [← hswap]
  congr 1
  cases a.toNat.testBit 31
  · cases b.toNat.testBit 31
    · rfl
    · rfl
  · cases b.toNat.testBit 31
    · rfl
    · rfl

theorem crc_xor (a b : UInt32) : crc (a ^^^ b) = crc a ^^^ crc b := by
  unfold crc
  generalize 32 = n
  induction n generalizing a b with
  | zero => rfl
  | succ n ih => rw [Function.iterate_succ_apply, hashTrigramStep_xor, ih]; rfl

theorem toNat_shiftLeft_one (a : UInt32) : (a <<< 1).toNat = a.toNat * 2 % 2 ^ 32 := by
  rw [UInt32.toNat_shiftLeft]
  change a.toNat <<< 1 % 2 ^ 32 = _
  rw [Nat.shiftLeft_eq, Nat.pow_one]

theorem testBit_top_iff (a : UInt32) : a.toNat.testBit 31 = true ↔ 2 ^ 31 ≤ a.toNat := by
  have hlt := a.toNat_lt
  rw [Nat.testBit_eq_decide_div_mod_eq, decide_eq_true_iff]
  omega

theorem unstep_hashTrigramStep (a : UInt32) : unstep (hashTrigramStep a).toNat = a.toNat := by
  have hlt := a.toNat_lt
  have hshift := toNat_shiftLeft_one a
  rw [hashTrigramStep_eq, UInt32.toNat_xor]
  simp only [testBit_top_iff]
  split
  · rename_i htop
    have hodd : ((a <<< 1).toNat ^^^ 0x1edc6f41) % 2 = 1 := by
      rw [Nat.xor_mod_two_eq_one]
      omega
    change unstep ((a <<< 1).toNat ^^^ 0x1edc6f41) = _
    rw [unstep, if_pos hodd, Nat.xor_assoc, Nat.xor_self, Nat.xor_zero]
    omega
  · rename_i htop
    change unstep ((a <<< 1).toNat ^^^ 0) = _
    rw [Nat.xor_zero, unstep, if_neg (by omega)]
    omega

theorem unstep_crc (a : UInt32) : unstep^[32] (crc a).toNat = a.toNat := by
  unfold crc
  generalize 32 = n
  induction n generalizing a with
  | zero => rfl
  | succ n ih =>
      rw [Function.iterate_succ_apply', Function.iterate_succ_apply, ih, unstep_hashTrigramStep]

end Steps

section Blocks

/-- What is taken back from a small number is not a trigram. -/
theorem two_pow_le_unstep : ∀ z ∈ List.range' 1 255, 2 ^ 24 ≤ unstep^[32] z := by
  decide +kernel

theorem eq_zero_of_crc_lt {a : UInt32} (h24 : a.toNat < 2 ^ 24) (h : (crc a).toNat < 256) :
    a = 0 := by
  have hback := unstep_crc a
  by_cases hzero : (crc a).toNat = 0
  · rw [hzero] at hback
    have hfixed : unstep^[32] 0 = 0 := Function.iterate_fixed rfl 32
    exact UInt32.toNat_inj.mp (hback.symm.trans hfixed)
  · have hle := two_pow_le_unstep (crc a).toNat (List.mem_range'_1.mpr (by omega))
    omega

/-- The hashes of two trigrams lie in different blocks. -/
theorem crc_div_inj {a b : UInt32} (ha : a.toNat < 2 ^ 24) (hb : b.toNat < 2 ^ 24)
    (h : (crc a).toNat / 256 = (crc b).toNat / 256) : a = b := by
  have hxor : (crc (a ^^^ b)).toNat / 2 ^ 8 = 0 := by
    rw [crc_xor, UInt32.toNat_xor, Nat.xor_div_two_pow, Nat.pow_succ]
    change (crc a).toNat / 256 ^^^ (crc b).toNat / 256 = 0
    rw [h, Nat.xor_self]
  have hsmall : (crc (a ^^^ b)).toNat < 256 := by omega
  have h24 : (a ^^^ b).toNat < 2 ^ 24 := by
    rw [UInt32.toNat_xor]
    exact Nat.xor_lt_two_pow ha hb
  exact UInt32.xor_eq_zero_iff.mp (eq_zero_of_crc_lt h24 hsmall)

/-- In a large table a bucket stands for at most 8 values of the hash, so an interval of buckets
meets few blocks, and holds no more trigrams than these. -/
theorem length_le_of_interval {s : UInt32} (hs : 2 ^ 29 < s.toNat) {lo hi : ℕ} {l : List UInt32}
    (hnodup : l.Nodup) (h24 : ∀ t ∈ l, t.toNat < 2 ^ 24)
    (hin : ∀ t ∈ l, lo ≤ (hashTrigram t s).toNat ∧ (hashTrigram t s).toNat ≤ hi) :
    l.length ≤ 8 * ((hi - lo) / 256 + 2) := by
  let start (t : UInt32) : ℕ := s.toNat * ((crc t).toNat / s.toNat) + lo
  let place (t : UInt32) : ℕ × ℕ :=
    ((crc t).toNat / s.toNat, (crc t).toNat / 256 - start t / 256)
  have hstart (t : UInt32) (ht : t ∈ l) :
      start t ≤ (crc t).toNat ∧ (crc t).toNat ≤ start t + (hi - lo) := by
    have hdiv := Nat.div_add_mod (crc t).toNat s.toNat
    have hmod : (hashTrigram t s).toNat = (crc t).toNat % s.toNat := UInt32.toNat_mod _ _
    obtain ⟨hlow, hhigh⟩ := hin t ht
    simp only [start]
    omega
  have hmaps : ∀ t ∈ l.toFinset,
      place t ∈ Finset.range 8 ×ˢ Finset.range ((hi - lo) / 256 + 2) := by
    intro t ht
    obtain ⟨hlow, hhigh⟩ := hstart t (List.mem_toFinset.mp ht)
    have hlt := (crc t).toNat_lt
    rw [Finset.mem_product, Finset.mem_range, Finset.mem_range]
    constructor
    · rw [Nat.div_lt_iff_lt_mul (by omega)]
      omega
    · simp only [place]
      omega
  have hinj : Set.InjOn place l.toFinset := by
    intro t ht u hu heq
    rw [Finset.mem_coe, List.mem_toFinset] at ht hu
    obtain ⟨hround, hblock⟩ := Prod.mk.inj heq
    have hsame : start t = start u := by
      simp only [start]
      rw [hround]
    obtain ⟨hlow, hhigh⟩ := hstart t ht
    obtain ⟨hlow', hhigh'⟩ := hstart u hu
    apply crc_div_inj (h24 t ht) (h24 u hu)
    omega
  have hcard := Finset.card_le_card_of_injOn place hmaps hinj
  rwa [List.toFinset_card_of_nodup hnodup, Finset.card_product, Finset.card_range,
    Finset.card_range] at hcard

end Blocks

end Flocate
