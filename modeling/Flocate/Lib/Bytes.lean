import Mathlib.Data.List.Basic
import Mathlib.Tactic.Ring

/-!
# Byte strings and little-endian numbers

A byte string is a list of bytes. `leNat` reads one as a little-endian number of any length and
`leBytes` writes a number into a given count of bytes. The two are inverse up to the modulus, and
a reader that only needs the first bytes of a longer string may ignore what follows.
-/

namespace Bytes

/-- A string of bytes; nothing is assumed about its encoding. -/
abbrev Str := List UInt8

def leNat : Str → ℕ
  | [] => 0
  | b :: bs => b.toNat + 256 * leNat bs

def leBytes : ℕ → ℕ → Str
  | 0, _ => []
  | n + 1, v => UInt8.ofNat v :: leBytes n (v / 256)

def ascii (s : String) : Str := s.toList.map fun c => UInt8.ofNat c.toNat

@[simp] theorem leNat_nil : leNat [] = 0 := rfl

@[simp] theorem leNat_cons (b : UInt8) (bs : Str) : leNat (b :: bs) = b.toNat + 256 * leNat bs :=
  rfl

@[simp] theorem length_leBytes (n v : ℕ) : (leBytes n v).length = n := by
  induction n generalizing v with
  | zero => rfl
  | succ n ih => simp [leBytes, ih]

theorem leNat_lt (bs : Str) : leNat bs < 256 ^ bs.length := by
  induction bs with
  | nil => simp
  | cons b bs ih =>
      have hb : b.toNat < 256 := b.toNat_lt
      rw [leNat_cons, List.length_cons, pow_succ]
      omega

/-- Writing a number and reading it back loses exactly what does not fit. -/
theorem leNat_leBytes (n v : ℕ) : leNat (leBytes n v) = v % 256 ^ n := by
  induction n generalizing v with
  | zero => simp [leBytes, Nat.mod_one]
  | succ n ih =>
      have hb : (UInt8.ofNat v).toNat = v % 256 := by simp
      rw [leBytes, leNat_cons, ih, hb, pow_succ, Nat.mul_comm (256 ^ n), Nat.mod_mul]

end Bytes
