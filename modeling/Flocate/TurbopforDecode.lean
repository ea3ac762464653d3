import Flocate.PostingListBuilder
import Flocate.TurbopforEncode

/-!
# Decoding posting lists

`decode_pfor_delta1` and what it calls, for 32-bit docids and without vector instructions. The
decoder may read a few bytes behind the end of its input.
-/

namespace Flocate

open Bytes PostingListBuilder

def readBaseval (mem : Memory) (p : ℕ) : Except Fault (UInt32 × ℕ) :=
  let b (i : ℕ) : UInt32 := (mem (p + i)).toUInt32
  if mem p < 128 then .ok (b 0, p + 1)
  else if mem p < 192 then .ok ((b 0 <<< 8 ||| b 1) &&& 0x3fff, p + 2)
  else if mem p < 224 then .ok ((b 0 <<< 16 ||| b 2 <<< 8 ||| b 1) &&& 0x1fffff, p + 3)
  else if mem p < 240 then
    .ok ((b 0 <<< 24 ||| b 1 <<< 16 ||| b 2 <<< 8 ||| b 3) &&& 0xfffffff, p + 4)
  else .error .assertion

def readVb (mem : Memory) (p : ℕ) : Except Fault (UInt32 × ℕ) :=
  let b (i : ℕ) : UInt32 := (mem (p + i)).toUInt32
  if mem p ≤ 176 then .ok (b 0, p + 1)
  else if mem p ≤ 240 then .ok (((b 0 - 177) <<< 8 ||| b 1) + 177, p + 2)
  else if mem p ≤ 248 then
    .ok (((b 0 - 241) <<< 16 ||| UInt32.ofNat (readLe 2 mem (p + 1))) + 16561, p + 3)
  else if mem p = 249 then .ok (b 1 ||| b 2 <<< 8 ||| b 3 <<< 16, p + 4)
  else if mem p = 250 then .ok (UInt32.ofNat (readLe 4 mem (p + 1)), p + 5)
  else .error .assertion

/-- `pos` is the pointer `in`. -/
structure BitReader where
  pos : ℕ
  bits : ℕ
  bitsUsed : ℕ := 0

def BitReader.read (bs : BitReader) (mem : Memory) : UInt32 × BitReader :=
  let val := UInt32.ofNat (readLe 4 mem bs.pos) >>> UInt32.ofNat bs.bitsUsed &&&
    maskForBits bs.bits
  let bitsUsed := bs.bitsUsed + bs.bits
  (val, { bs with pos := bs.pos + bitsUsed / 8, bitsUsed := bitsUsed % 8 })

def BitReader.readMany (mem : Memory) : ℕ → BitReader → List UInt32
  | 0, _ => []
  | n + 1, bs =>
      let res := bs.read mem
      res.1 :: readMany mem n res.2

structure InterleavedBitReader where
  pos : ℕ
  bits : ℕ
  bitsUsed : ℕ := 0

def InterleavedBitReader.read (bs : InterleavedBitReader) (mem : Memory) :
    UInt32 × InterleavedBitReader :=
  let low := UInt32.ofNat (readLe 4 mem bs.pos) >>> UInt32.ofNat bs.bitsUsed
  let val :=
    if 32 < bs.bitsUsed + bs.bits then
      low ||| UInt32.ofNat (readLe 4 mem (bs.pos + 16)) <<< UInt32.ofNat (32 - bs.bitsUsed)
    else low
  let bitsUsed := bs.bitsUsed + bs.bits
  (val &&& maskForBits bs.bits,
    { bs with pos := bs.pos + 16 * (bitsUsed / 32), bitsUsed := bitsUsed % 32 })

/-- The loop over `bs0` to `bs3`; value number `i` comes from stream `i % 4`. -/
def readInterleaved (mem : Memory) :
    ℕ → ℕ → (ℕ → InterleavedBitReader) → List UInt32
  | 0, _, _ => []
  | n + 1, i, bs =>
      let res := (bs (i % 4)).read mem
      res.1 :: readInterleaved mem n (i + 1) (Function.update bs (i % 4) res.2)

def readBitmap (interleaved : Bool) (mem : Memory) (p num bitWidth : ℕ) : List UInt32 :=
  if interleaved then
    readInterleaved mem num 0 fun s => { pos := p + s * 4, bits := bitWidth }
  else { pos := p, bits := bitWidth : BitReader }.readMany mem num

def decodeConstant (mem : Memory) (p num : ℕ) (prev : UInt32) : List UInt32 × ℕ :=
  let bitWidth := (mem p &&& 0x3f).toNat
  let val := UInt32.ofNat (readLe 4 mem (p + 1))
  let val := if bitWidth < 32 then val &&& maskForBits bitWidth else val
  (deltaDecode prev (List.replicate num val), p + 1 + divRoundUp bitWidth 8)

/-- `decode_for` and `decode_for_interleaved`. A width of more than 32 bits has no mask. -/
def decodeForBlock (interleaved : Bool) (mem : Memory) (p num : ℕ) (prev : UInt32) :
    Except Fault (List UInt32 × ℕ) :=
  let bitWidth := (mem p &&& 0x3f).toNat
  if 32 < bitWidth then .error .shift
  else .ok (deltaDecode prev (readBitmap interleaved mem (p + 1) num bitWidth),
    p + 1 + bytesForPackedBits num bitWidth)

def decodeFor := decodeForBlock false
def decodeForInterleaved (mem : Memory) (p : ℕ) := decodeForBlock true mem p 128

/-- The loop over the words of the bitmap, from value number `i` on: the indexes of the set bits. -/
def readExceptionBitmap (mem : Memory) (num p i : ℕ) : List ℕ :=
  if i < num then
    let word := readLe 8 mem p
    let word := if num - i < 64 then word &&& (1 <<< (num - i) - 1) else word
    (List.range' i 64).filter (fun idx => word.testBit (idx - i)) ++
      readExceptionBitmap mem num (p + 8) (i + 64)
  else []
termination_by num - i

/-- Returns the exceptions, with zeros in between, and the end. -/
def decodePforBitmapExceptions (mem : Memory) (p num : ℕ) : Except Fault (List UInt32 × ℕ) :=
  let exceptionBitWidth := (mem p).toNat
  if 32 < exceptionBitWidth then .error .shift
  else
    let indexes := readExceptionBitmap mem num (p + 1) 0
    let p := p + 1 + divRoundUp num 8
    let vals := { pos := p, bits := exceptionBitWidth : BitReader }.readMany mem indexes.length
    .ok ((vals.zip indexes).foldl (fun out (val, idx) => out.modify idx fun _ => val)
        (List.replicate num 0),
      p + bytesForPackedBits indexes.length exceptionBitWidth)

def decodePforBitmapBlock (interleaved : Bool) (mem : Memory) (p num : ℕ) (prev : UInt32) :
    Except Fault (List UInt32 × ℕ) := do
  let bitWidth := (mem p &&& 0x3f).toNat
  let (out, p) ← decodePforBitmapExceptions mem (p + 1) num
  if 32 ≤ bitWidth then .error .shift
  else
    let base := readBitmap interleaved mem p num bitWidth
    .ok (deltaDecode prev (out.zipWith (fun e b => e <<< UInt32.ofNat bitWidth ||| b) base),
      p + bytesForPackedBits num bitWidth)

def decodePforBitmap := decodePforBitmapBlock false
def decodePforBitmapInterleaved (mem : Memory) (p : ℕ) := decodePforBitmapBlock true mem p 128

def readVbs (mem : Memory) : ℕ → ℕ → Except Fault (List UInt32 × ℕ)
  | 0, p => .ok ([], p)
  | n + 1, p => do
      let (val, p) ← readVb mem p
      let (vals, p) ← readVbs mem n p
      .ok (val :: vals, p)

/-- The exceptions of a varbyte block, raw after a byte of 255. -/
def readVbExceptions (mem : Memory) (p num : ℕ) : Except Fault (List UInt32 × ℕ) :=
  if mem p = 255 then
    .ok ((List.range num).map fun i => UInt32.ofNat (readLe 4 mem (p + 1 + 4 * i)), p + 1 + 4 * num)
  else readVbs mem num p

/-- `decode_pfor_vb` and `decode_pfor_vb_interleaved`. An index behind the block is out of
bounds. -/
def decodePforVbBlock (interleaved : Bool) (mem : Memory) (p num : ℕ) (prev : UInt32) :
    Except Fault (List UInt32 × ℕ) := do
  let bitWidth := (mem p &&& 0x3f).toNat
  let numExceptions := (mem (p + 1)).toNat
  if 32 < bitWidth ∨ bitWidth = 32 ∧ numExceptions ≠ 0 then .error .shift
  else if 128 < numExceptions then .error .outOfBounds
  else
    let out := readBitmap interleaved mem (p + 2) num bitWidth
    let p := p + 2 + bytesForPackedBits num bitWidth
    let (exceptions, p) ← readVbExceptions mem p numExceptions
    let indexes := (region mem p numExceptions).map (·.toNat)
    if indexes.any (num ≤ ·) then .error .outOfBounds
    else
      .ok (deltaDecode prev ((exceptions.zip indexes).foldl
          (fun out (e, idx) => out.modify idx (· ||| e <<< UInt32.ofNat bitWidth)) out),
        p + numExceptions)

def decodePforVb := decodePforVbBlock false
def decodePforVbInterleaved (mem : Memory) (p : ℕ) := decodePforVbBlock true mem p 128

/-- The body of the loop of `decode_pfor_delta1`; `prev` is `out[-1]`. -/
def decodeBlock (mem : Memory) (interleaved : Bool) (p num : ℕ) (prev : UInt32) :
    Except Fault (List UInt32 × ℕ) :=
  if interleaved ∧ num = 128 then
    match (mem p >>> 6).toNat with
    | 0 => decodeForInterleaved mem p prev
    | 1 => decodePforVbInterleaved mem p prev
    | 2 => decodePforBitmapInterleaved mem p prev
    | _ => .ok (decodeConstant mem p num prev)
  else
    match (mem p >>> 6).toNat with
    | 0 => decodeFor mem p num prev
    | 1 => decodePforVb mem p num prev
    | 2 => decodePforBitmap mem p num prev
    | _ => .ok (decodeConstant mem p num prev)

def decodeBlocks (mem : Memory) (interleaved : Bool) (num p : ℕ) (prev : UInt32) :
    Except Fault (List UInt32 × ℕ) :=
  if _h : num = 0 then .ok ([], p)
  else do
    let (docids, p) ← decodeBlock mem interleaved p (min num 128) prev
    let (rest, p) ← decodeBlocks mem interleaved (num - min num 128) p (docids.getLast?.getD prev)
    .ok (docids ++ rest, p)
termination_by num

def decodePforDelta1 (mem : Memory) (p num : ℕ) (interleaved : Bool) :
    Except Fault (List UInt32 × ℕ) :=
  if num = 0 then .ok ([], p)
  else do
    let (docid, p) ← readBaseval mem p
    let (docids, p) ← decodeBlocks mem interleaved (num - 1) p docid
    .ok (docid :: docids, p)

end Flocate
