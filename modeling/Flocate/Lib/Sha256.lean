import Flocate.Lib.Blocks
import Flocate.Lib.Bytes

/-!
# The SHA-256 function

SHA-256 as FIPS 180-4 defines it, on messages of whole bytes. The constants are roots of the first
primes, the words of the schedule are given by their recurrence.
-/

namespace SHA256

open Bytes

abbrev Word := BitVec 32

def ch (x y z : Word) : Word := (x &&& y) ^^^ (~~~x &&& z)
def maj (x y z : Word) : Word := (x &&& y) ^^^ (x &&& z) ^^^ (y &&& z)

def bigSigma0 (x : Word) : Word := x.rotateRight 2 ^^^ x.rotateRight 13 ^^^ x.rotateRight 22
def bigSigma1 (x : Word) : Word := x.rotateRight 6 ^^^ x.rotateRight 11 ^^^ x.rotateRight 25

def smallSigma0 (x : Word) : Word := x.rotateRight 7 ^^^ x.rotateRight 18 ^^^ x >>> 3
def smallSigma1 (x : Word) : Word := x.rotateRight 17 ^^^ x.rotateRight 19 ^^^ x >>> 10

/-- The largest `r` below `2 ^ bits` with `r ^ k ≤ x`. -/
def root (k bits x : ℕ) : ℕ :=
  (List.range bits).foldr (fun i r => if (r + 2 ^ i) ^ k ≤ x then r + 2 ^ i else r) 0

/-- The first 32 bits of the fractional part of the `k`-th root of `p`. -/
def rootFraction (k p : ℕ) : Word := BitVec.ofNat 32 (root k 40 (p * 2 ^ (32 * k)))

def primes : List ℕ := [
  2, 3, 5, 7, 11, 13, 17, 19, 23, 29, 31, 37, 41, 43, 47, 53, 59, 61, 67, 71, 73, 79, 83, 89, 97,
  101, 103, 107, 109, 113, 127, 131, 137, 139, 149, 151, 157, 163, 167, 173, 179, 181, 191, 193,
  197, 199, 211, 223, 227, 229, 233, 239, 241, 251, 257, 263, 269, 271, 277, 281, 283, 293, 307,
  311]

def constants : List Word := primes.map (rootFraction 3)

structure State where
  a : Word
  b : Word
  c : Word
  d : Word
  e : Word
  f : Word
  g : Word
  h : Word
deriving DecidableEq

namespace State

def initial : State where
  a := rootFraction 2 2
  b := rootFraction 2 3
  c := rootFraction 2 5
  d := rootFraction 2 7
  e := rootFraction 2 11
  f := rootFraction 2 13
  g := rootFraction 2 17
  h := rootFraction 2 19

def round (s : State) (k w : Word) : State :=
  let t1 := s.h + bigSigma1 s.e + ch s.e s.f s.g + k + w
  let t2 := bigSigma0 s.a + maj s.a s.b s.c
  ⟨t1 + t2, s.a, s.b, s.c, s.d + t1, s.e, s.f, s.g⟩

def add (s t : State) : State :=
  ⟨s.a + t.a, s.b + t.b, s.c + t.c, s.d + t.d, s.e + t.e, s.f + t.f, s.g + t.g, s.h + t.h⟩

def words (s : State) : List Word := [s.a, s.b, s.c, s.d, s.e, s.f, s.g, s.h]

end State

def beNat (p : Str) : ℕ := leNat p.reverse

def beBytes (n v : ℕ) : Str := (leBytes n v).reverse

def messageWord (block : Str) (t : ℕ) : Word :=
  BitVec.ofNat 32 (beNat ((block.drop (4 * t)).take 4))

def scheduleWord (block : Str) (t : ℕ) : Word :=
  if t < 16 then messageWord block t
  else
    smallSigma1 (scheduleWord block (t - 2)) + scheduleWord block (t - 7) +
      smallSigma0 (scheduleWord block (t - 15)) + scheduleWord block (t - 16)

def compress (s : State) (block : Str) : State :=
  ((List.range 64).foldl (fun v t => v.round (constants.getD t 0) (scheduleWord block t)) s).add s

/-- What is added to a message of this many bytes: a one, as many zeros as it takes to be 64 bits
short of a block, and the number of bits. -/
def padding (length : ℕ) : Str :=
  0x80 :: List.replicate ((119 - length % 64) % 64) 0 ++ beBytes 8 (8 * length)

def hash (message : Str) : Str :=
  ((blocksOf 64 (message ++ padding message.length)).foldl compress State.initial).words.flatMap
    fun word => beBytes 4 word.toNat

theorem length_padding (length : ℕ) :
    (padding length).length = 9 + (119 - length % 64) % 64 := by
  rw [padding, beBytes, List.length_append, List.length_cons, List.length_replicate,
    List.length_reverse, length_leBytes]
  omega

theorem dvd_length_append_padding (message : Str) :
    64 ∣ (message ++ padding message.length).length := by
  rw [List.length_append, length_padding]
  omega

end SHA256
