import Flocate.Lib.Bytes

/-!
# Hash table entries of `db.h`

Offsets into the database file are natural numbers, since the size of a file bounds them.
-/

namespace Flocate

open Bytes

structure Trigram where
  trgm : UInt32
  numDocids : UInt32
  offset : ℕ
deriving DecidableEq

def Trigram.toBytes (t : Trigram) : Str :=
  leBytes 4 t.trgm.toNat ++ leBytes 4 t.numDocids.toNat ++ leBytes 8 t.offset

theorem Trigram.length_toBytes (t : Trigram) : t.toBytes.length = 16 := by
  simp [toBytes, length_leBytes]

def hashTrigramStep (crc : UInt32) : UInt32 :=
  if crc &&& 0x80000000 ≠ 0 then crc <<< 1 ^^^ 0x1edc6f41 else crc <<< 1

def hashTrigram (trgm htSize : UInt32) : UInt32 := hashTrigramStep^[32] trgm % htSize

theorem hashTrigram_lt {htSize : UInt32} (h : 0 < htSize) (trgm : UInt32) :
    (hashTrigram trgm htSize).toNat < htSize.toNat := by
  rw [hashTrigram, UInt32.toNat_mod]
  exact Nat.mod_lt _ (UInt32.lt_iff_toNat_lt.mp h)

/-- The part of the header that a lookup reads. -/
structure Header where
  hashtableSize : UInt32
  extraHtSlots : UInt32
  hashTableOffsetBytes : ℕ

end Flocate
