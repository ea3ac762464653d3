import Mathlib.Data.Nat.Basic

/-!
# Injective steps on 64-bit words

Multiplication by an odd constant, rotation, xor with a fixed word and the xor-shift
`x ^ (x >> k)` lose no information. A hash that finishes with such steps can only agree on two
inputs if it agreed before them.
-/

namespace Word64

def rotl (value : UInt64) (bits : ℕ) : UInt64 :=
  value <<< UInt64.ofNat bits ||| value >>> UInt64.ofNat (64 - bits)

theorem toBitVec_ofNat_mod {k : ℕ} (h : k < 64) :
    ((UInt64.ofNat k).toBitVec % 64).toNat = k := by
  simp only [BitVec.toNat_umod, UInt64.toNat_toBitVec, UInt64.toNat_ofNat',
    show (64 : BitVec 64).toNat = 64 from rfl]
  omega

theorem rotl_toBitVec (x : UInt64) {k : ℕ} (h0 : 0 < k) (h : k < 64) :
    (rotl x k).toBitVec = x.toBitVec.rotateLeft k := by
  rw [rotl, UInt64.toBitVec_or, UInt64.toBitVec_shiftLeft, UInt64.toBitVec_shiftRight,
    BitVec.rotateLeft_eq_rotateLeftAux_of_lt h, BitVec.rotateLeftAux, BitVec.shiftLeft_eq',
    BitVec.ushiftRight_eq', toBitVec_ofNat_mod h, toBitVec_ofNat_mod (by omega : 64 - k < 64)]

theorem rotl_injective {k : ℕ} (h0 : 0 < k) (h : k < 64) {x y : UInt64}
    (hxy : rotl x k = rotl y k) : x = y := by
  have hb := congrArg UInt64.toBitVec hxy
  rw [rotl_toBitVec x h0 h, rotl_toBitVec y h0 h] at hb
  apply UInt64.toBitVec_inj.mp
  apply BitVec.eq_of_getLsbD_eq
  intro i hi
  -- bit `i` sits at position `(i + k) % 64` after the rotation
  have hc := congrArg (fun v => v.getLsbD ((i + k) % 64)) hb
  simp only [BitVec.getLsbD_rotateLeft_of_le h] at hc
  by_cases hw : i + k < 64
  · rw [Nat.mod_eq_of_lt hw] at hc
    simpa [show ¬ i + k < k by omega, hw] using hc
  · have hm : (i + k) % 64 = i + k - 64 := by omega
    rw [hm] at hc
    simpa [show i + k - 64 < k by omega, show 64 - k + (i + k - 64) = i by omega] using hc

theorem xor_injective {x y m : UInt64} (h : x ^^^ m = y ^^^ m) : x = y := by
  have hc := congrArg (· ^^^ m) h
  simpa only [UInt64.xor_assoc, UInt64.xor_self, UInt64.xor_zero] using hc

theorem mul_injective {p q : UInt64} (hpq : p * q = 1) {x y : UInt64} (h : x * p = y * p) :
    x = y := by
  have hc := congrArg (· * q) h
  simpa only [UInt64.mul_assoc, hpq, UInt64.mul_one] using hc

theorem add_injective {x y c : UInt64} (h : x + c = y + c) : x = y := by
  have hc := congrArg (· - c) h
  simpa only [UInt64.add_sub_cancel] using hc

/-- The top `k` bits of `x ^ (x >> k)` are those of `x`, the next `k` follow from them, and so on
down: two words with the same image agree in every bit. -/
theorem xorShift_injective {k : ℕ} (h0 : 0 < k) (h : k < 64) {x y : UInt64}
    (hxy : x ^^^ x >>> UInt64.ofNat k = y ^^^ y >>> UInt64.ofNat k) : x = y := by
  have hb := congrArg UInt64.toBitVec hxy
  simp only [UInt64.toBitVec_xor, UInt64.toBitVec_shiftRight, BitVec.ushiftRight_eq',
    toBitVec_ofNat_mod h] at hb
  have hbit (i : ℕ) : (x.toBitVec.getLsbD i ^^ x.toBitVec.getLsbD (k + i)) =
      (y.toBitVec.getLsbD i ^^ y.toBitVec.getLsbD (k + i)) := by
    have hc := congrArg (fun v => v.getLsbD i) hb
    simpa only [BitVec.getLsbD_xor, BitVec.getLsbD_ushiftRight] using hc
  have hall (j i : ℕ) (hj : 64 ≤ i + j) : x.toBitVec.getLsbD i = y.toBitVec.getLsbD i := by
    induction j generalizing i with
    | zero => rw [BitVec.getLsbD_of_ge _ _ (by omega), BitVec.getLsbD_of_ge _ _ (by omega)]
    | succ j ih =>
        have hup : x.toBitVec.getLsbD (k + i) = y.toBitVec.getLsbD (k + i) := ih _ (by omega)
        have hi := hbit i
        rw [hup] at hi
        simpa using hi
  apply UInt64.toBitVec_inj.mp
  exact BitVec.eq_of_getLsbD_eq fun i _ => hall 64 i (by omega)

theorem rotl_xor (x y : UInt64) {k : ℕ} (h0 : 0 < k) (h : k < 64) :
    rotl (x ^^^ y) k = rotl x k ^^^ rotl y k := by
  apply UInt64.toBitVec_inj.mp
  simp only [UInt64.toBitVec_xor, rotl_toBitVec _ h0 h]
  apply BitVec.eq_of_getLsbD_eq
  intro i _
  simp only [BitVec.getLsbD_xor, BitVec.getLsbD_rotateLeft_of_le h]
  by_cases hik : i < k
  · simp [hik]
  · simp [hik, Bool.and_xor_distrib_left]

end Word64
