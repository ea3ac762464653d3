import Flocate.Lib.BitStream

/-!
# Vectors of four 32-bit words

Registers of 128 bits and the SSE2 instructions on them that treat the words alike. A shift by bytes
moves the register as a whole, so that by a multiple of four bytes it moves the words.
-/

open Bytes

/-- The words of a register, the lowest first. -/
@[ext] structure M128i where
  x0 : UInt32
  x1 : UInt32
  x2 : UInt32
  x3 : UInt32
deriving DecidableEq

namespace M128i

def toList (v : M128i) : List UInt32 := [v.x0, v.x1, v.x2, v.x3]

def ofList (l : List UInt32) : M128i := ⟨l.getD 0 0, l.getD 1 0, l.getD 2 0, l.getD 3 0⟩

def loaduSi128 (mem : Memory) (p : ℕ) : M128i :=
  let word (i : ℕ) := UInt32.ofNat (readLe 4 mem (p + i * 4))
  ⟨word 0, word 1, word 2, word 3⟩

def map (f : UInt32 → UInt32) (v : M128i) : M128i := ⟨f v.x0, f v.x1, f v.x2, f v.x3⟩

def zipWith (f : UInt32 → UInt32 → UInt32) (v w : M128i) : M128i :=
  ⟨f v.x0 w.x0, f v.x1 w.x1, f v.x2 w.x2, f v.x3 w.x3⟩

def set1Epi32 (x : UInt32) : M128i := ⟨x, x, x, x⟩
def setEpi32 (x3 x2 x1 x0 : UInt32) : M128i := ⟨x0, x1, x2, x3⟩

def addEpi32 : M128i → M128i → M128i := zipWith (· + ·)
def orSi128 : M128i → M128i → M128i := zipWith (· ||| ·)
def andSi128 : M128i → M128i → M128i := zipWith (· &&& ·)

/-- Shifts of the words, which are empty after a shift by 32 bits or more. -/
def srliEpi32 (v : M128i) (count : ℕ) : M128i :=
  v.map fun x => if count < 32 then x >>> UInt32.ofNat count else 0
def slliEpi32 (v : M128i) (count : ℕ) : M128i :=
  v.map fun x => if count < 32 then x <<< UInt32.ofNat count else 0

def toNat (v : M128i) : ℕ :=
  v.x0.toNat + 2 ^ 32 * v.x1.toNat + 2 ^ 64 * v.x2.toNat + 2 ^ 96 * v.x3.toNat

def ofNat (n : ℕ) : M128i :=
  ⟨.ofNat n, .ofNat (n / 2 ^ 32), .ofNat (n / 2 ^ 64), .ofNat (n / 2 ^ 96)⟩

def slliSi128 (v : M128i) (bytes : ℕ) : M128i := ofNat (v.toNat * 2 ^ (8 * bytes))

/-- `_MM_SHUFFLE(3, 3, 3, 3)`. -/
def shuffleLast (v : M128i) : M128i := set1Epi32 v.x3

theorem slliSi128_four (v : M128i) : v.slliSi128 4 = ⟨0, v.x0, v.x1, v.x2⟩ := by
  have h0 := v.x0.toNat_lt
  have h1 := v.x1.toNat_lt
  have h2 := v.x2.toNat_lt
  ext1
  all_goals
    apply UInt32.toNat_inj.mp
    simp only [slliSi128, ofNat, toNat, UInt32.toNat_ofNat', UInt32.toNat_zero]
    omega

theorem slliSi128_eight (v : M128i) : v.slliSi128 8 = ⟨0, 0, v.x0, v.x1⟩ := by
  have h0 := v.x0.toNat_lt
  have h1 := v.x1.toNat_lt
  ext1
  all_goals
    apply UInt32.toNat_inj.mp
    simp only [slliSi128, ofNat, toNat, UInt32.toNat_ofNat', UInt32.toNat_zero]
    omega

end M128i
