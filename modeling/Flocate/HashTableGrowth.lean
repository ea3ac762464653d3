import Flocate.HashSpread
import Flocate.HashTableOverflow
import Mathlib.Data.Nat.Size
import Mathlib.NumberTheory.Bertrand

/-!
# Growing the hash table

`finish_corpus` tries a size after the other until `create_hashtable` succeeds. A size grows by 5 %,
which is nothing for the sizes below 20 as the product is cut off, and is then rounded up to a
prime. The smallest table that can be too crowded has 19 buckets, and it is tried forever.
-/

namespace Flocate

open Fault

/-- `ceil(sqrt(x))`; the root of a number that is not a square is too far from the next integer for
its rounding to get there. -/
def ceilSqrt (x : ℕ) : ℕ := if x.sqrt * x.sqrt = x then x.sqrt else x.sqrt + 1

def isPrime (x : UInt32) : Bool :=
  if x % 2 = 0 ∨ x % 3 = 0 then false
  else (List.range' 5 (ceilSqrt x.toNat - 4)).all fun factor => x.toNat % factor ≠ 0

/-- A product of doubles in units of `2 ^ -52`, rounded to 53 binary digits, half of a unit to the
even neighbour. -/
def roundDouble (product : ℕ) : ℕ :=
  let unit := 2 ^ (product.size - 53)
  let quot := product / unit
  let rest := product % unit
  if unit < 2 * rest ∨ unit = 2 * rest ∧ quot % 2 = 1 then (quot + 1) * unit else quot * unit

def factor105 : ℕ := 4728779608739021

def growSize (htSize : UInt32) : ℕ := roundDouble (htSize.toNat * factor105) / 2 ^ 52

theorem isPrime_one : isPrime 1 = true := by decide +kernel

theorem toNat_odd {x : UInt32} (h : x % 2 = 1) : x.toNat % 2 = 1 := by
  rw [← UInt32.toNat_inj, UInt32.toNat_mod] at h
  exact h

theorem add_two_odd {x : UInt32} (h : x % 2 = 1) : (x + 2) % 2 = 1 := by
  have hodd := toNat_odd h
  rw [← UInt32.toNat_inj, UInt32.toNat_mod, UInt32.toNat_add]
  simp only [UInt32.reduceToNat]
  omega

/-- The next odd number is nearer to 1, when one goes around. -/
theorem toNat_one_sub_lt {x : UInt32} (hodd : x % 2 = 1) (hne : x ≠ 1) :
    (1 - (x + 2)).toNat < (1 - x).toNat := by
  have hodd' := toNat_odd hodd
  have hlt := x.toNat_lt
  have hne' : x.toNat ≠ 1 := fun h => hne (UInt32.toNat_inj.mp h)
  rw [UInt32.toNat_sub, UInt32.toNat_sub, UInt32.toNat_add]
  simp only [UInt32.reduceToNat]
  omega

/-- The loop of `next_prime`, which meets 1 at the latest when it comes around. -/
def nextOddPrime (x : UInt32) (hodd : x % 2 = 1) : UInt32 :=
  if _ : isPrime x = true then x else nextOddPrime (x + 2) (add_two_odd hodd)
termination_by (1 - x).toNat
decreasing_by
  apply toNat_one_sub_lt hodd
  rintro rfl
  exact absurd isPrime_one (by assumption)

theorem add_one_odd {x : UInt32} (h : x % 2 = 0) : (x + 1) % 2 = 1 := by
  rw [← UInt32.toNat_inj, UInt32.toNat_mod] at h ⊢
  rw [UInt32.toNat_add]
  simp only [UInt32.reduceToNat] at h ⊢
  omega

theorem odd_of_ne_zero {x : UInt32} (h : ¬x % 2 = 0) : x % 2 = 1 := by
  rw [← UInt32.toNat_inj, UInt32.toNat_mod] at h ⊢
  simp only [UInt32.reduceToNat] at h ⊢
  omega

def nextPrime (x : UInt32) : UInt32 :=
  if h : x % 2 = 0 then nextOddPrime (x + 1) (add_one_odd h)
  else nextOddPrime x (odd_of_ne_zero h)

inductive Tried (getPlBuilder : UInt32 → FinishedList) (allTrigrams : List UInt32) : UInt32 → Prop
  | start : Tried getPlBuilder allTrigrams (nextPrime (UInt32.ofNat allTrigrams.length))
  | retry {htSize : UInt32} (htried : Tried getPlBuilder allTrigrams htSize)
      (hfails : createHashtable getPlBuilder htSize numOverflowSlots allTrigrams = .ok none) :
      Tried getPlBuilder allTrigrams (nextPrime (UInt32.ofNat (growSize htSize)))

/-- Behind every size without success a larger one is tried. -/
def MakesProgress (getPlBuilder : UInt32 → FinishedList) (allTrigrams : List UInt32) : Prop :=
  ∀ htSize, Tried getPlBuilder allTrigrams htSize →
    createHashtable getPlBuilder htSize numOverflowSlots allTrigrams = .ok none →
    htSize < nextPrime (UInt32.ofNat (growSize htSize))

section Primes

variable {x : UInt32} {p : ℕ}

theorem ceilSqrt_lt (h : 5 ≤ p) : ceilSqrt p < p := by
  have hlt : p.sqrt < p - 1 := by
    obtain ⟨k, rfl⟩ := Nat.exists_eq_add_of_le h
    have hpred : 5 + k - 1 = 4 + k := by omega
    rw [Nat.sqrt_lt, hpred]
    nlinarith
  unfold ceilSqrt
  split
  · omega
  · omega

theorem minFac_le_ceilSqrt (hp : ¬p.Prime) (h : 0 < p) : p.minFac ≤ ceilSqrt p := by
  have hsqrt : p.minFac ≤ p.sqrt := Nat.le_sqrt.mpr (by
    have hsq := Nat.minFac_sq_le_self h hp
    rwa [pow_two] at hsq)
  unfold ceilSqrt
  split
  · exact hsqrt
  · exact hsqrt.trans (Nat.le_succ _)

/-- Apart from 1, `is_prime` knows the primes from 5 on. -/
theorem isPrime_iff : isPrime x = true ↔ x.toNat = 1 ∨ 5 ≤ x.toNat ∧ x.toNat.Prime := by
  have hmod (d : UInt32) : x % d = 0 ↔ x.toNat % d.toNat = 0 := by
    rw [← UInt32.toNat_inj, UInt32.toNat_mod]
    rfl
  constructor
  · intro h
    unfold isPrime at h
    split at h
    · cases h
    rename_i hsmall
    rw [not_or, hmod, hmod] at hsmall
    rw [List.all_eq_true] at h
    by_cases hone : x.toNat = 1
    · exact .inl hone
    refine .inr ?_
    have hpos : 0 < x.toNat := by
      apply Nat.pos_of_ne_zero
      intro hzero
      rw [hzero] at hsmall
      exact hsmall.1 rfl
    have hfactor {q : ℕ} (hq : q.Prime) (hdvd : q ∣ x.toNat) : 5 ≤ q := by
      have h2 : q ≠ 2 := by
        rintro rfl
        exact hsmall.1 (Nat.mod_eq_zero_of_dvd hdvd)
      have h3 : q ≠ 3 := by
        rintro rfl
        exact hsmall.2 (Nat.mod_eq_zero_of_dvd hdvd)
      have h4 : q ≠ 4 := by
        rintro rfl
        exact absurd hq (by decide)
      have htwo := hq.two_le
      omega
    have hprime : x.toNat.Prime := by
      apply Classical.byContradiction
      intro hnot
      have hfive := hfactor (Nat.minFac_prime hone) (Nat.minFac_dvd _)
      have hle := minFac_le_ceilSqrt hnot hpos
      have hrange : x.toNat.minFac ∈ List.range' 5 (ceilSqrt x.toNat - 4) := by
        rw [List.mem_range'_1]
        omega
      have hrest := of_decide_eq_true (h _ hrange)
      exact hrest (Nat.mod_eq_zero_of_dvd (Nat.minFac_dvd _))
    exact ⟨hfactor hprime (Nat.dvd_refl _), hprime⟩
  · rintro (hone | ⟨h5, hprime⟩)
    · have heq : x = 1 := UInt32.toNat_inj.mp hone
      rw [heq]
      exact isPrime_one
    have hrest {d : ℕ} (hd : 1 < d) (hlt : d < x.toNat) : x.toNat % d ≠ 0 := by
      intro hzero
      rcases (Nat.dvd_prime hprime).mp (Nat.dvd_of_mod_eq_zero hzero) with h | h
      · omega
      · omega
    unfold isPrime
    rw [if_neg]
    · rw [List.all_eq_true]
      intro factor hfactor
      rw [List.mem_range'_1] at hfactor
      have hlt := ceilSqrt_lt h5
      exact decide_eq_true (hrest (by omega) (by omega))
    · rw [not_or, hmod, hmod]
      exact ⟨hrest (d := 2) (by decide) (by omega), hrest (d := 3) (by decide) (by omega)⟩

theorem nextOddPrime_spec (hodd : x % 2 = 1) (hp : p.Prime) (h5 : 5 ≤ p) (h32 : p < 2 ^ 32)
    (hx : x.toNat ≤ p) : x.toNat ≤ (nextOddPrime x hodd).toNat ∧
      (nextOddPrime x hodd).toNat ≤ p ∧ isPrime (nextOddPrime x hodd) = true := by
  induction x, hodd using nextOddPrime.induct with
  | case1 x hodd hprime =>
      rw [nextOddPrime, dif_pos hprime]
      exact ⟨Nat.le_refl _, hx, hprime⟩
  | case2 x hodd hprime ih =>
      have hne : x.toNat ≠ p := by
        intro heq
        exact hprime (isPrime_iff.mpr (.inr ⟨heq ▸ h5, heq ▸ hp⟩))
      have hxodd := toNat_odd hodd
      have hpodd := hp.eq_two_or_odd
      have hadd : (x + 2).toNat = x.toNat + 2 := by
        rw [UInt32.toNat_add]
        exact Nat.mod_eq_of_lt (by change x.toNat + 2 < _; omega)
      obtain ⟨hle, hbound, hresult⟩ := ih (by omega)
      rw [nextOddPrime, dif_neg hprime]
      exact ⟨by omega, hbound, hresult⟩

theorem nextPrime_spec (hp : p.Prime) (h5 : 5 ≤ p) (h32 : p < 2 ^ 32) (hx : x.toNat ≤ p) :
    x.toNat ≤ (nextPrime x).toNat ∧ (nextPrime x).toNat ≤ p ∧ isPrime (nextPrime x) = true := by
  unfold nextPrime
  split
  · rename_i heven
    have heven' : x.toNat % 2 = 0 := by
      rw [← UInt32.toNat_inj, UInt32.toNat_mod] at heven
      exact heven
    have hpodd := hp.eq_two_or_odd
    have hadd : (x + 1).toNat = x.toNat + 1 := by
      rw [UInt32.toNat_add]
      exact Nat.mod_eq_of_lt (by change x.toNat + 1 < _; omega)
    obtain ⟨hle, hbound, hresult⟩ := nextOddPrime_spec (add_one_odd heven) hp h5 h32 (by omega)
    exact ⟨by omega, hbound, hresult⟩
  · exact nextOddPrime_spec _ hp h5 h32 hx

theorem nextPrime_of_isPrime (h : isPrime x = true) : nextPrime x = x := by
  have hodd : ¬x % 2 = 0 := by
    intro heven
    rw [isPrime, if_pos (.inl heven)] at h
    cases h
  rw [nextPrime, dif_neg hodd, nextOddPrime, dif_pos h]

/-- There is a prime before twice the number, so the loop ends there. -/
theorem nextPrime_le (hx : x.toNat < 2 ^ 31) : x.toNat ≤ (nextPrime x).toNat ∧
    (nextPrime x).toNat ≤ 2 * x.toNat + 5 ∧ isPrime (nextPrime x) = true := by
  by_cases h5 : x.toNat < 5
  · obtain ⟨hlow, hhigh, hprime⟩ := nextPrime_spec Nat.prime_five le_rfl (by decide) h5.le
    exact ⟨hlow, by omega, hprime⟩
  · obtain ⟨p, hp, hlt, hle⟩ := Nat.exists_prime_lt_and_le_two_mul x.toNat (by omega)
    obtain ⟨hlow, hhigh, hprime⟩ := nextPrime_spec hp (by omega) (by omega) hlt.le
    exact ⟨hlow, by omega, hprime⟩

end Primes

section Growth

/-- Rounding stays within a unit and does not cross a multiple of it. -/
theorem roundDouble_bounds {product : ℕ} (h : product < 2 ^ 85) :
    ∃ unit, unit ≤ 2 ^ 32 ∧ unit ∣ 2 ^ 52 ∧ product / unit * unit ≤ roundDouble product ∧
      roundDouble product ≤ product + unit := by
  have hsize : product.size - 53 ≤ 32 := by
    have hle := Nat.size_le.mpr h
    omega
  refine ⟨2 ^ (product.size - 53), Nat.pow_le_pow_right (by decide) hsize,
    Nat.pow_dvd_pow 2 (hsize.trans (by decide)), ?_⟩
  have hfloor := Nat.div_mul_le_self product (2 ^ (product.size - 53))
  simp only [roundDouble]
  split
  · rw [Nat.add_mul, Nat.one_mul]
    omega
  · omega

theorem growSize_eq (htSize : UInt32) : growSize htSize = htSize.toNat * 21 / 20 := by
  have hlt := htSize.toNat_lt
  have hproduct : htSize.toNat * factor105 < 2 ^ 85 := by
    unfold factor105
    omega
  obtain ⟨unit, hunit, hdvd, hlow, hhigh⟩ := roundDouble_bounds hproduct
  have hround : htSize.toNat * 21 / 20 * 2 ^ 52 ≤ htSize.toNat * factor105 / unit * unit := by
    obtain ⟨c, hc⟩ := hdvd
    rw [hc, Nat.mul_comm unit c, ← Nat.mul_assoc]
    apply Nat.mul_le_mul_right
    rw [Nat.le_div_iff_mul_le (Nat.pos_of_dvd_of_pos ⟨c, hc⟩ (by decide)), Nat.mul_assoc,
      Nat.mul_comm c unit, ← hc]
    unfold factor105
    omega
  unfold growSize factor105 at *
  apply Nat.div_eq_of_lt_le
  · exact hround.trans hlow
  · omega

theorem toNat_ofNat_growSize {htSize : UInt32} (h : htSize.toNat ≤ 2 ^ 30) :
    (UInt32.ofNat (growSize htSize)).toNat = htSize.toNat * 21 / 20 := by
  rw [growSize_eq, UInt32.toNat_ofNat']
  exact Nat.mod_eq_of_lt (by omega)

/-- From 20 on the next size is larger. -/
theorem lt_nextPrime_growSize {htSize : UInt32} (h20 : 20 ≤ htSize.toNat)
    (h : htSize.toNat ≤ 2 ^ 30) : htSize < nextPrime (UInt32.ofNat (growSize htSize)) := by
  have hgrow := toNat_ofNat_growSize h
  obtain ⟨hlow, -, -⟩ := nextPrime_le (x := UInt32.ofNat (growSize htSize)) (by omega)
  rw [UInt32.lt_iff_toNat_lt]
  omega

end Growth

section Runs

variable {getPlBuilder : UInt32 → FinishedList} {allTrigrams : List UInt32} {htSize : UInt32}

theorem Crowded.length_lt (h : Crowded htSize numOverflowSlots allTrigrams) :
    17 < allTrigrams.length := by
  obtain ⟨lo, hi, hle, hcount⟩ := h
  have hlength : allTrigrams.countP (inBuckets htSize lo hi) ≤ allTrigrams.length :=
    List.countP_le_length
  have h16 : numOverflowSlots.toNat = 16 := rfl
  omega

/-- A large table is never too crowded. -/
theorem Crowded.le (h : Crowded htSize numOverflowSlots allTrigrams) (hnodup : allTrigrams.Nodup)
    (h24 : ∀ t ∈ allTrigrams, t < 0x1000000) : htSize.toNat ≤ 2 ^ 29 := by
  apply not_lt.mp
  intro hlarge
  obtain ⟨lo, hi, hle, hcount⟩ := h
  have hbound := length_le_of_interval hlarge (hnodup.filter (inBuckets htSize lo hi))
    (fun t ht => UInt32.lt_iff_toNat_lt.mp (h24 t (List.mem_of_mem_filter ht)))
    (fun t ht => of_decide_eq_true (List.mem_filter.mp ht).2)
  rw [← List.countP_eq_length_filter] at hbound
  have h16 : numOverflowSlots.toNat = 16 := rfl
  omega

theorem length_le_of_trigrams (hnodup : allTrigrams.Nodup)
    (h24 : ∀ t ∈ allTrigrams, t < 0x1000000) : allTrigrams.length ≤ 2 ^ 24 := by
  have hmaps : ∀ t ∈ allTrigrams.toFinset, t.toNat ∈ Finset.range (2 ^ 24) := by
    intro t ht
    exact Finset.mem_range.mpr (UInt32.lt_iff_toNat_lt.mp (h24 t (List.mem_toFinset.mp ht)))
  have hinj : Set.InjOn UInt32.toNat allTrigrams.toFinset := by
    intro t _ u _ heq
    exact UInt32.toNat_inj.mp heq
  have hcard := Finset.card_le_card_of_injOn UInt32.toNat hmaps hinj
  rwa [List.toFinset_card_of_nodup hnodup, Finset.card_range] at hcard

theorem Tried.spec (hnodup : allTrigrams.Nodup) (h24 : ∀ t ∈ allTrigrams, t < 0x1000000)
    (hne : ∀ t ∈ allTrigrams, (getPlBuilder t).numDocids ≠ 0)
    (h : Tried getPlBuilder allTrigrams htSize) : isPrime htSize = true ∧
      allTrigrams.length ≤ htSize.toNat ∧
      htSize.toNat + numOverflowSlots.toNat + 1 < 2 ^ 32 := by
  have h16 : numOverflowSlots.toNat = 16 := rfl
  induction h with
  | start =>
      have hlength := length_le_of_trigrams hnodup h24
      have hstart : (UInt32.ofNat allTrigrams.length).toNat = allTrigrams.length := by
        rw [UInt32.toNat_ofNat']
        exact Nat.mod_eq_of_lt (by omega)
      obtain ⟨hlow, hhigh, hprime⟩ := nextPrime_le (x := UInt32.ofNat allTrigrams.length) (by omega)
      exact ⟨hprime, by omega, by omega⟩
  | @retry htSize htried hfails ih =>
      obtain ⟨-, hlength, hw⟩ := ih
      have hbound := (crowded_of_fails hw hne hfails).le hnodup h24
      have hgrow := toNat_ofNat_growSize (hbound.trans (by decide))
      obtain ⟨hlow, hhigh, hprime⟩ := nextPrime_le (x := UInt32.ofNat (growSize htSize)) (by omega)
      exact ⟨hprime, by omega, by omega⟩

theorem nextPrime_18 : nextPrime 18 = 19 := by
  have heven : (18 : UInt32) % 2 = 0 := by decide
  have hprime : isPrime (18 + 1) = true := by decide +kernel
  rw [nextPrime, dif_pos heven, nextOddPrime, dif_pos hprime]
  rfl

theorem nextPrime_19 : nextPrime 19 = 19 := nextPrime_of_isPrime (by decide +kernel)

theorem makesProgress_iff (getPlBuilder : UInt32 → FinishedList) (allTrigrams : List UInt32)
    (hsorted : allTrigrams.Pairwise (· < ·)) (h24 : ∀ t ∈ allTrigrams, t < 0x1000000)
    (hne : ∀ t ∈ allTrigrams, (getPlBuilder t).numDocids ≠ 0) :
    MakesProgress getPlBuilder allTrigrams ↔
      ¬(allTrigrams.length ≤ 19 ∧ Crowded 19 numOverflowSlots allTrigrams) := by
  have hnodup : allTrigrams.Nodup := hsorted.imp fun hlt heq => by
    rw [heq] at hlt
    exact absurd hlt (UInt32.lt_irrefl _)
  constructor
  · rintro h ⟨hlength, hcrowded⟩
    have hmany := hcrowded.length_lt
    have hstart : nextPrime (UInt32.ofNat allTrigrams.length) = 19 := by
      obtain hlength | hlength : allTrigrams.length = 18 ∨ allTrigrams.length = 19 := by omega
      · rw [hlength]
        exact nextPrime_18
      · rw [hlength]
        exact nextPrime_19
    have hgrow : UInt32.ofNat (growSize 19) = 19 := by
      rw [growSize_eq]
      rfl
    have hfails := (createHashtable_eq_none_iff (by decide) (by decide) hne).mpr hcrowded
    have hlt := h 19 (hstart ▸ .start) hfails
    rw [hgrow, nextPrime_19] at hlt
    exact absurd hlt (UInt32.lt_irrefl _)
  · intro hcond htSize htried hfails
    obtain ⟨hprime, hlength, hw⟩ := htried.spec hnodup h24 hne
    have hcrowded := crowded_of_fails hw hne hfails
    have hmany := hcrowded.length_lt
    by_cases h20 : 20 ≤ htSize.toNat
    · have hbound := hcrowded.le hnodup h24
      exact lt_nextPrime_growSize h20 (hbound.trans (by decide))
    · exfalso
      have h19 : htSize.toNat = 19 := by
        rcases isPrime_iff.mp hprime with hone | ⟨-, hprime⟩
        · omega
        · have hne18 : htSize.toNat ≠ 18 := by
            intro h18
            rw [h18] at hprime
            exact absurd hprime (by decide)
          omega
      obtain rfl : htSize = 19 := UInt32.toNat_inj.mp h19
      exact hcond ⟨by omega, hcrowded⟩

/-- Where every failure is followed by a larger size, the loop ends. -/
theorem MakesProgress.exists_size (h : MakesProgress getPlBuilder allTrigrams)
    (hnodup : allTrigrams.Nodup) (h24 : ∀ t ∈ allTrigrams, t < 0x1000000)
    (hne : ∀ t ∈ allTrigrams, (getPlBuilder t).numDocids ≠ 0) :
    ∃ htSize, Tried getPlBuilder allTrigrams htSize ∧
      createHashtable getPlBuilder htSize numOverflowSlots allTrigrams ≠ .ok none := by
  apply Classical.byContradiction
  intro hnone
  have hfails {s : UInt32} (hs : Tried getPlBuilder allTrigrams s) :
      createHashtable getPlBuilder s numOverflowSlots allTrigrams = .ok none := by
    apply Classical.byContradiction
    intro hsuccess
    exact hnone ⟨s, hs, hsuccess⟩
  have hlarge (k : ℕ) : ∃ s, Tried getPlBuilder allTrigrams s ∧ k ≤ s.toNat := by
    induction k with
    | zero => exact ⟨_, .start, Nat.zero_le _⟩
    | succ k ih =>
        obtain ⟨s, hs, hle⟩ := ih
        have hlt := UInt32.lt_iff_toNat_lt.mp (h s hs (hfails hs))
        exact ⟨_, .retry hs (hfails hs), hle.trans_lt hlt⟩
  obtain ⟨s, hs, hle⟩ := hlarge (2 ^ 29 + 1)
  have hbound := (crowded_of_fails (hs.spec hnodup h24 hne).2.2 hne (hfails hs)).le hnodup h24
  omega

end Runs

section Examples

/-- Trigrams that all go to bucket 5 of 19. -/
def crowd : List UInt32 :=
  [6381921, 6381937, 6381942, 6381943, 6381958, 6381985, 6381995, 6382000, 6382002, 6382007,
    6382018, 6382022, 6382029, 6382054, 6382112, 6382113, 6382153, 6382159]

def oneDocid (_ : UInt32) : FinishedList := ⟨1, [0]⟩

/-- The size 19 fails, and 19 is what is tried next. -/
theorem crowd_tried_forever : crowd.Pairwise (· < ·) ∧ (∀ t ∈ crowd, t < 0x1000000) ∧
    Tried oneDocid crowd 19 ∧
    createHashtable oneDocid 19 numOverflowSlots crowd = .ok none ∧
    nextPrime (UInt32.ofNat (growSize 19)) = 19 ∧ ¬MakesProgress oneDocid crowd := by
  have hfails : createHashtable oneDocid 19 numOverflowSlots crowd = .ok none := by
    decide +kernel
  have htried : Tried oneDocid crowd 19 := nextPrime_18 ▸ Tried.start
  have hgrow : nextPrime (UInt32.ofNat (growSize 19)) = 19 := by
    rw [growSize_eq]
    exact nextPrime_19
  have h24 : ∀ t ∈ crowd, t < 0x1000000 := by
    have hall : crowd.all (· < 0x1000000) = true := by decide +kernel
    intro t ht
    exact of_decide_eq_true (List.all_eq_true.mp hall t ht)
  refine ⟨by decide +kernel, h24, htried, hfails, hgrow, fun h => ?_⟩
  have hlt := h 19 htried hfails
  rw [hgrow] at hlt
  exact absurd hlt (UInt32.lt_irrefl _)

theorem makesProgress_three : MakesProgress oneDocid [5, 7, 11] := by
  have h24 : ∀ t ∈ [5, 7, 11], t < (0x1000000 : UInt32) := by
    rw [List.forall_mem_cons, List.forall_mem_cons, List.forall_mem_singleton]
    decide
  apply (makesProgress_iff oneDocid [5, 7, 11] (by decide +kernel) h24 ?_).mpr
  · rintro ⟨-, hcrowded⟩
    exact absurd hcrowded.length_lt (by decide)
  · intro t _
    have hone : (1 : UInt32) ≠ 0 := by decide
    exact hone

end Examples

end Flocate
