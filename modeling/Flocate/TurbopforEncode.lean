import Flocate.Lib.BitStream
import Flocate.Lib.Fault
import Mathlib.Logic.Function.Basic

/-!
# Encoding blocks of deltas

The encoder writes to memory and may clobber a few bytes behind the end that it returns. Counts and
widths are natural numbers, the values keep their machine types.
-/

namespace Flocate

open Bytes

inductive BlockType where
  | forBlock
  | pforVb
  | pforBitmap
  | constant
deriving DecidableEq

def BlockType.code : BlockType → ℕ
  | .forBlock => 0
  | .pforVb => 1
  | .pforBitmap => 2
  | .constant => 3

def divRoundUp (val div : ℕ) : ℕ := (val + div - 1) / div

def bytesForPackedBits (num bitWidth : ℕ) : ℕ := divRoundUp (num * bitWidth) 8

/-- For at most 32 bits. -/
def maskForBits (bitWidth : ℕ) : UInt32 :=
  if bitWidth = 32 then 0xFFFFFFFF else 1 <<< UInt32.ofNat bitWidth - 1

def writeBaseval (docid : UInt32) (mem : Memory) (out : ℕ) : Except Fault (Memory × ℕ) :=
  if docid < 128 then .ok (writeBytes mem out [docid.toUInt8], out + 1)
  else if docid < 0x4000 then
    .ok (writeBytes mem out [(docid >>> 8 ||| 0x80).toUInt8, (docid &&& 0xff).toUInt8], out + 2)
  else if docid < 0x200000 then
    .ok (writeBytes mem out [(docid >>> 16 ||| 0xc0).toUInt8, (docid &&& 0xff).toUInt8,
      (docid >>> 8 &&& 0xff).toUInt8], out + 3)
  else if docid < 0x10000000 then
    .ok (writeBytes mem out [(docid >>> 24 ||| 0xe0).toUInt8, (docid >>> 16 &&& 0xff).toUInt8,
      (docid >>> 8 &&& 0xff).toUInt8, (docid &&& 0xff).toUInt8], out + 4)
  else .error .assertion

/-- A varbyte-encoded exception. The four-byte form writes one byte more than it keeps. -/
def writeVb (val : UInt32) (mem : Memory) (out : ℕ) : Memory × ℕ :=
  if val ≤ 176 then (writeBytes mem out [val.toUInt8], out + 1)
  else if val ≤ 16560 then
    let val := val - 177
    (writeBytes mem out [(val >>> 8 + 177).toUInt8, (val &&& 0xff).toUInt8], out + 2)
  else if val ≤ 540848 then
    let val := val - 16561
    (writeBytes mem out ((val >>> 16 + 241).toUInt8 :: leBytes 2 (val &&& 0xffff).toNat), out + 3)
  else if val ≤ 16777215 then (writeBytes mem out (249 :: leBytes 4 val.toNat), out + 4)
  else (writeBytes mem out (250 :: leBytes 4 val.toNat), out + 5)

def numBits (x : UInt32) : ℕ := if x = 0 then 0 else x.toNat.log2 + 1

structure BitWriter where
  out : ℕ
  bits : ℕ
  bitsUsed : ℕ := 0
  curVal : UInt32 := 0

/-- A shift of `cur_val` by 32 bits or more is undefined. -/
def BitWriter.write (bs : BitWriter) (mem : Memory) (val : UInt32) :
    Except Fault (BitWriter × Memory) :=
  let curVal := bs.curVal ||| val <<< UInt32.ofNat bs.bitsUsed
  let mem := writeBytes mem bs.out (leBytes 4 curVal.toNat)
  let bitsUsed := bs.bitsUsed + bs.bits
  if 32 ≤ bitsUsed / 8 * 8 then .error .shift
  else .ok ({ bs with
    out := bs.out + bitsUsed / 8
    bitsUsed := bitsUsed % 8
    curVal := curVal >>> UInt32.ofNat (bitsUsed / 8 * 8) }, mem)

def BitWriter.writeAll (bs : BitWriter) (mem : Memory) : List UInt32 → Except Fault Memory
  | [] => .ok mem
  | val :: vals => do
      let (bs, mem) ← bs.write mem val
      bs.writeAll mem vals

structure InterleavedBitWriter where
  out : ℕ
  bits : ℕ
  bitsUsed : ℕ := 0
  curVal : UInt64 := 0

/-- One of four streams. -/
def InterleavedBitWriter.write (bs : InterleavedBitWriter) (mem : Memory) (val : UInt32) :
    InterleavedBitWriter × Memory :=
  let curVal := bs.curVal ||| val.toUInt64 <<< UInt64.ofNat bs.bitsUsed
  if 32 ≤ bs.bitsUsed + bs.bits then
    let mem := writeBytes mem bs.out (leBytes 4 curVal.toNat)
    let out := bs.out + 16
    let curVal := curVal >>> 32
    ({ bs with out := out, bitsUsed := bs.bitsUsed + bs.bits - 32, curVal := curVal },
      writeBytes mem out (leBytes 4 curVal.toNat))
  else
    ({ bs with bitsUsed := bs.bitsUsed + bs.bits, curVal := curVal },
      writeBytes mem bs.out (leBytes 4 curVal.toNat))

/-- The loop over `bs0` to `bs3`; value number `i` goes to stream `i % 4`. -/
def writeInterleaved (bs : ℕ → InterleavedBitWriter) (mem : Memory) (i : ℕ) :
    List UInt32 → Memory
  | [] => mem
  | val :: vals =>
      let res := (bs (i % 4)).write mem val
      writeInterleaved (Function.update bs (i % 4) res.1) res.2 (i + 1) vals

def encodeBitmap (ds : List UInt32) (bitWidth : ℕ) (interleaved : Bool) (mem : Memory) (out : ℕ) :
    Except Fault (Memory × ℕ) :=
  let vals := ds.map (· &&& maskForBits bitWidth)
  let last := out + bytesForPackedBits ds.length bitWidth
  if interleaved then
    if ds.length % 4 = 0 then
      .ok (writeInterleaved (fun s => { out := out + s * 4, bits := bitWidth }) mem 0 vals, last)
    else .error .assertion
  else ({ out := out, bits := bitWidth : BitWriter }.writeAll mem vals).map fun mem => (mem, last)

def encodeFor (ds : List UInt32) (bitWidth : ℕ) (interleaved : Bool) (mem : Memory) (out : ℕ) :
    Except Fault (Memory × ℕ) :=
  encodeBitmap ds bitWidth interleaved mem out

/-- What is left of the values that do not fit into `bitWidth` bits. -/
def exceptions (ds : List UInt32) (bitWidth : ℕ) : List UInt32 :=
  (ds.map (· >>> UInt32.ofNat bitWidth)).filter (· ≠ 0)

def encodePforBitmap (ds : List UInt32) (bitWidth exceptionBitWidth : ℕ) (interleaved : Bool)
    (mem : Memory) (out : ℕ) : Except Fault (Memory × ℕ) := do
  let mem := writeBytes mem out [UInt8.ofNat exceptionBitWidth]
  let out := out + 1
  -- the bitmap of exceptions
  let mem ← { out := out, bits := 1 : BitWriter }.writeAll mem
    (ds.map fun d => if d >>> UInt32.ofNat bitWidth ≠ 0 then 1 else 0)
  let out := out + bytesForPackedBits ds.length 1
  -- the exceptions
  let mem ← { out := out, bits := exceptionBitWidth : BitWriter }.writeAll mem
    (exceptions ds bitWidth)
  let out := out + bytesForPackedBits (exceptions ds bitWidth).length exceptionBitWidth
  -- the base values
  encodeBitmap ds bitWidth interleaved mem out

def writeVbs (mem : Memory) (out : ℕ) : List UInt32 → Memory × ℕ
  | [] => (mem, out)
  | val :: vals =>
      let res := writeVb val mem out
      writeVbs res.1 res.2 vals

def exceptionIndexes (ds : List UInt32) (bitWidth : ℕ) : List ℕ :=
  (ds.zipIdx.filter fun d => d.1 >>> UInt32.ofNat bitWidth ≠ 0).map Prod.snd

def encodePforVb (ds : List UInt32) (bitWidth : ℕ) (interleaved : Bool) (mem : Memory) (out : ℕ) :
    Except Fault (Memory × ℕ) := do
  let mem := writeBytes mem out [UInt8.ofNat (exceptions ds bitWidth).length]
  let out := out + 1
  -- the base values
  let (mem, out) ← encodeBitmap ds bitWidth interleaved mem out
  -- the exceptions
  let (mem, out) := writeVbs mem out (exceptions ds bitWidth)
  -- the indexes of the exceptions
  let indexes := (exceptionIndexes ds bitWidth).map UInt8.ofNat
  .ok (writeBytes mem out indexes, out + indexes.length)

/-- The widths that are tried for the base values of a block with a bitmap of exceptions. The state
is the number of exceptions, the best cost and the best width. -/
def tryBitmap (ds : List UInt32) (maxBits : ℕ) : ℕ × ℕ × ℕ :=
  (List.range' 1 maxBits).foldl (fun (numExceptions, bestCost, bestBitWidth) exceptionBitWidth =>
    let testBitWidth := maxBits - exceptionBitWidth
    let numExceptions := numExceptions + ds.countP (numBits · = testBitWidth + 1)
    let cost := 1 + bytesForPackedBits ds.length 1 + bytesForPackedBits ds.length testBitWidth +
      bytesForPackedBits numExceptions exceptionBitWidth
    if cost < bestCost then (numExceptions, cost, testBitWidth)
    else (numExceptions, bestCost, bestBitWidth))
    (0, bytesForPackedBits ds.length maxBits, maxBits)

/-- The estimated cost of a varbyte block; `atLeast n` is the cumulative histogram. -/
def varbyteCost (num maxBits : ℕ) (atLeast : ℕ → ℕ) (testBitWidth : ℕ) : ℕ :=
  let more (bits : ℕ) :=
    if testBitWidth + bits ≤ maxBits then atLeast (testBitWidth + bits) else 0
  1 + bytesForPackedBits num testBitWidth + 2 * more 1 + more 7 + more 14 + more 19 + more 24

/-- The rest of the loop over the widths for varbyte exceptions. The state is the best cost, the
best width, and whether this is a varbyte block. -/
def tryVarbyte (num maxBits : ℕ) (atLeast : ℕ → ℕ) : List ℕ → ℕ × ℕ × Bool → ℕ × ℕ × Bool
  | [], best => best
  | testBitWidth :: rest, (bestCost, best) =>
      if bestCost ≤ 1 + bytesForPackedBits num testBitWidth then (bestCost, best)
      else
        let cost := varbyteCost num maxBits atLeast testBitWidth
        if cost < bestCost then tryVarbyte num maxBits atLeast rest (cost, testBitWidth, true)
        else tryVarbyte num maxBits atLeast rest (bestCost, best)

/-- Returns the type, the width of the base values and that of the exceptions. -/
def decideBlockType (ds : List UInt32) : BlockType × ℕ × ℕ :=
  if ds.all (· = ds.headD 0) then (.constant, numBits (ds.headD 0), 0)
  else
    let maxBits := (ds.map numBits).foldl max 0
    let (_, bestCost, bestBitWidth) := tryBitmap ds maxBits
    let (_, bestBitWidth, bestIsVarbyte) := tryVarbyte ds.length maxBits
      (fun n => ds.countP (n ≤ numBits ·)) (List.range maxBits) (bestCost, bestBitWidth, false)
    if bestIsVarbyte then (.pforVb, bestBitWidth, 0)
    else if bestBitWidth = maxBits then (.forBlock, maxBits, 0)
    else (.pforBitmap, bestBitWidth, maxBits - bestBitWidth)

/-- Blocks have up to 128 values. -/
def encodePforSingleBlock (ds : List UInt32) (interleaved : Bool) (mem : Memory) (out : ℕ) :
    Except Fault (Memory × ℕ) :=
  if ds = [] then .error .assertion
  else if interleaved ∧ ds.length ≠ 128 then .error .assertion
  else
    let (blockType, bitWidth, exceptionBitWidth) := decideBlockType ds
    let mem := writeBytes mem out [UInt8.ofNat (blockType.code <<< 6 ||| bitWidth)]
    let out := out + 1
    match blockType with
    | .constant => .ok (writeBytes mem out (leBytes 4 (ds.headD 0).toNat),
        out + divRoundUp (numBits (ds.headD 0)) 8)
    | .forBlock => encodeFor ds bitWidth interleaved mem out
    | .pforBitmap => encodePforBitmap ds bitWidth exceptionBitWidth interleaved mem out
    | .pforVb => encodePforVb ds bitWidth interleaved mem out

end Flocate
