import Flocate.Lib.Bytes
import Flocate.Lib.Word64

/-!
# The XXH64 function

The published 64-bit xxHash: accumulators over stripes of 32 bytes, convergence, the remaining
lanes of 8, 4 and 1 bytes, and the final mix. Every step on a fixed input is injective in the
accumulator, since the primes are odd and rotations and shifted exclusive ors can be undone.
-/

namespace XXH64

open Bytes Word64

def prime1 : UInt64 := 0x9E3779B185EBCA87
def prime2 : UInt64 := 0xC2B2AE3D27D4EB4F
def prime3 : UInt64 := 0x165667B19E3779F9
def prime4 : UInt64 := 0x85EBCA77C2B2AE63
def prime5 : UInt64 := 0x27D4EB2F165667C5

def lane (n : ℕ) (input : Str) : UInt64 := UInt64.ofNat (leNat (input.take n))

def round (acc lane : UInt64) : UInt64 := rotl (acc + lane * prime2) 31 * prime1

def mergeAccumulator (acc accN : UInt64) : UInt64 := (acc ^^^ round 0 accN) * prime1 + prime4

structure Accumulators where
  acc1 : UInt64
  acc2 : UInt64
  acc3 : UInt64
  acc4 : UInt64

def initial (seed : UInt64) : Accumulators :=
  ⟨seed + prime1 + prime2, seed + prime2, seed + 0, seed - prime1⟩

def Accumulators.stripe (a : Accumulators) (input : Str) : Accumulators :=
  ⟨round a.acc1 (lane 8 input), round a.acc2 (lane 8 (input.drop 8)),
    round a.acc3 (lane 8 (input.drop 16)), round a.acc4 (lane 8 (input.drop 24))⟩

/-- Processes whole stripes and returns the fewer than 32 bytes that remain. -/
def stripes (a : Accumulators) (input : Str) : Accumulators × Str :=
  if 32 ≤ input.length then stripes (a.stripe input) (input.drop 32) else (a, input)
termination_by input.length
decreasing_by simp; omega

def Accumulators.converge (a : Accumulators) : UInt64 :=
  let acc := rotl a.acc1 1 + rotl a.acc2 7 + rotl a.acc3 12 + rotl a.acc4 18
  mergeAccumulator (mergeAccumulator (mergeAccumulator (mergeAccumulator acc
    a.acc1) a.acc2) a.acc3) a.acc4

def remaining8 (acc : UInt64) (input : Str) : UInt64 × Str :=
  if 8 ≤ input.length then
    remaining8 (rotl (acc ^^^ round 0 (lane 8 input)) 27 * prime1 + prime4) (input.drop 8)
  else (acc, input)
termination_by input.length
decreasing_by simp; omega

def remaining4 (acc : UInt64) (input : Str) : UInt64 × Str :=
  if 4 ≤ input.length then
    (rotl (acc ^^^ lane 4 input * prime1) 23 * prime2 + prime3, input.drop 4)
  else (acc, input)

def remaining1 (acc : UInt64) : Str → UInt64
  | [] => acc
  | b :: input => remaining1 (rotl (acc ^^^ UInt64.ofNat b.toNat * prime5) 11 * prime1) input

def finalMix (acc : UInt64) : UInt64 :=
  let acc := acc ^^^ acc >>> 33
  let acc := acc * prime2
  let acc := acc ^^^ acc >>> 29
  let acc := acc * prime3
  acc ^^^ acc >>> 32

def hash (seed : UInt64) (input : Str) : UInt64 :=
  let (a, rest) := stripes (initial seed) input
  let acc := if input.length < 32 then seed + prime5 else a.converge
  let acc := acc + UInt64.ofNat input.length
  let (acc, rest) := remaining8 acc rest
  let (acc, rest) := remaining4 acc rest
  finalMix (remaining1 acc rest)

def canonical (digest : UInt64) : Str := (leBytes 8 digest.toNat).reverse

def finish (acc : UInt64) (input : Str) : UInt64 :=
  let (acc, rest) := remaining4 acc input
  finalMix (remaining1 acc rest)

theorem hash_eq (seed : UInt64) (input : Str) :
    hash seed input =
      let a := stripes (initial seed) input
      let acc := if input.length < 32 then seed + prime5 else a.1.converge
      let r := remaining8 (acc + UInt64.ofNat input.length) a.2
      finish r.1 r.2 := rfl

theorem mul_prime1_injective {x y : UInt64} (h : x * prime1 = y * prime1) : x = y :=
  mul_injective (q := 0x0887493432badb37) (by decide) h

theorem mul_prime2_injective {x y : UInt64} (h : x * prime2 = y * prime2) : x = y :=
  mul_injective (q := 0x0ba79078168d4baf) (by decide) h

theorem mul_prime3_injective {x y : UInt64} (h : x * prime3 = y * prime3) : x = y :=
  mul_injective (q := 0xe9e9f4c41d6df849) (by decide) h

theorem finalMix_injective {x y : UInt64} (h : finalMix x = finalMix y) : x = y := by
  simp only [finalMix] at h
  have h1 := xorShift_injective (k := 32) (by omega) (by omega) h
  have h2 := xorShift_injective (k := 29) (by omega) (by omega) (mul_prime3_injective h1)
  exact xorShift_injective (k := 33) (by omega) (by omega) (mul_prime2_injective h2)

theorem remaining1_injective (input : Str) {x y : UInt64}
    (h : remaining1 x input = remaining1 y input) : x = y := by
  induction input generalizing x y with
  | nil => exact h
  | cons b input ih =>
      have h1 := mul_prime1_injective (ih h)
      exact xor_injective (rotl_injective (by omega) (by omega) h1)

/-- No two accumulators are confused after the last 8-byte lane. -/
theorem finish_injective (input : Str) {x y : UInt64} (h : finish x input = finish y input) :
    x = y := by
  by_cases hl : 4 ≤ input.length
  · have h4 (acc : UInt64) : remaining4 acc input =
        (rotl (acc ^^^ lane 4 input * prime1) 23 * prime2 + prime3, input.drop 4) := if_pos hl
    rw [finish, finish, h4, h4] at h
    have h1 := remaining1_injective _ (finalMix_injective h)
    have h2 := mul_prime2_injective (add_injective h1)
    exact xor_injective (rotl_injective (by omega) (by omega) h2)
  · have h4 (acc : UInt64) : remaining4 acc input = (acc, input) := if_neg hl
    rw [finish, finish, h4, h4] at h
    exact remaining1_injective _ (finalMix_injective h)

theorem stripes_snd_length (a : Accumulators) (input : Str) :
    (stripes a input).2.length = input.length % 32 := by
  induction a, input using stripes.induct with
  | case1 a input hl ih =>
      rw [stripes, if_pos hl, ih, List.length_drop]
      omega
  | case2 a input hl =>
      rw [stripes, if_neg hl, Nat.mod_eq_of_lt (by omega)]

/-- Stripes only look at whole groups of 32 bytes. -/
theorem stripes_append (k : ℕ) (a : Accumulators) (pre rest : Str) (hk : pre.length = 32 * k)
    (hr : rest.length < 32) : stripes a (pre ++ rest) = ((stripes a pre).1, rest) := by
  induction k generalizing a pre with
  | zero =>
      have hn : pre = [] := List.length_eq_zero_iff.mp (by omega)
      subst hn
      rw [List.nil_append, stripes, if_neg (by omega), stripes, if_neg (by simp)]
  | succ k ih =>
      have hd : (pre ++ rest).drop 32 = pre.drop 32 ++ rest :=
        List.drop_append_of_le_length (by omega)
      have hs : a.stripe (pre ++ rest) = a.stripe pre := by
        simp only [Accumulators.stripe, lane]
        rw [List.take_append_of_le_length (by omega), List.drop_append_of_le_length (by omega),
          List.drop_append_of_le_length (by omega), List.drop_append_of_le_length (by omega),
          List.take_append_of_le_length (by rw [List.length_drop]; omega),
          List.take_append_of_le_length (by rw [List.length_drop]; omega),
          List.take_append_of_le_length (by rw [List.length_drop]; omega)]
      rw [stripes, if_pos (by rw [List.length_append]; omega), hd, hs,
        ih _ _ (by rw [List.length_drop]; omega), stripes.eq_def a pre, if_pos (by omega)]

theorem remaining8_of_lt (acc : UInt64) {input : Str} (h : input.length < 8) :
    remaining8 acc input = (acc, input) := by
  rw [remaining8, if_neg (by omega)]

theorem remaining8_lane (acc : UInt64) {l : Str} (hl : l.length = 8) (rest : Str) :
    remaining8 acc (l ++ rest) =
      remaining8 (rotl (acc ^^^ round 0 (lane 8 l)) 27 * prime1 + prime4) rest := by
  have hlane : lane 8 (l ++ rest) = lane 8 l := by
    rw [lane, lane, List.take_append_of_le_length (by omega)]
  rw [remaining8, if_pos (by rw [List.length_append]; omega), hlane, List.drop_left' hl]

theorem canonical_injective {x y : UInt64} (h : canonical x = canonical y) : x = y := by
  have hn := congrArg leNat (List.reverse_injective h)
  have h64 : (256 : ℕ) ^ 8 = 2 ^ 64 := by norm_num
  rw [leNat_leBytes, leNat_leBytes, h64, Nat.mod_eq_of_lt x.toNat_lt,
    Nat.mod_eq_of_lt y.toNat_lt] at hn
  exact UInt64.toNat_inj.mp hn

end XXH64
