import Flocate.Lib.Word64
import Flocate.Metadata

/-!
# The streaming digests of `metadata_hash.cpp`

`XxHash64State` and `Sha256State` keep the bytes that do not fill a stripe or a block yet in
`memory` and `buffer`; the source's `memsize` and `buffer_len` are the lengths of these lists.
Words are read in host order, which is little-endian here.
-/

namespace Flocate

open Bytes Word64

def read64 (ptr : Str) : UInt64 := UInt64.ofNat (leNat (ptr.take 8))

def read32 (ptr : Str) : UInt32 := UInt32.ofNat (leNat (ptr.take 4))

structure XxHash64State where
  totalLen : UInt64
  v1 : UInt64
  v2 : UInt64
  v3 : UInt64
  v4 : UInt64
  memory : Str
deriving DecidableEq

namespace XxHash64State

def prime1 : UInt64 := 11400714785074694791
def prime2 : UInt64 := 14029467366897019727
def prime3 : UInt64 := 1609587929392839161
def prime4 : UInt64 := 9650029242287828579
def prime5 : UInt64 := 2870177450012600261

def xxhashRound (acc input : UInt64) : UInt64 := rotl (acc + input * prime2) 31 * prime1

def xxhashMergeRound (acc val : UInt64) : UInt64 :=
  (acc ^^^ xxhashRound 0 val) * prime1 + prime4

def reset (seed : UInt64) : XxHash64State where
  totalLen := 0
  v1 := seed + prime1 + prime2
  v2 := seed + prime2
  v3 := seed
  v4 := seed - prime1
  memory := []

def rounds (s : XxHash64State) (p : Str) : XxHash64State :=
  { s with
    v1 := xxhashRound s.v1 (read64 p)
    v2 := xxhashRound s.v2 (read64 (p.drop 8))
    v3 := xxhashRound s.v3 (read64 (p.drop 16))
    v4 := xxhashRound s.v4 (read64 (p.drop 24)) }

/-- `while (p <= limit)`: the state after all whole stripes of `p`, and what is left of `p`. -/
def consumeStripes (s : XxHash64State) (p : Str) : XxHash64State × Str :=
  if 32 ≤ p.length then consumeStripes (s.rounds p) (p.drop 32) else (s, p)
termination_by p.length
decreasing_by simp; omega

def consume (s : XxHash64State) (data : Str) : XxHash64State :=
  let s := { s with totalLen := s.totalLen + UInt64.ofNat data.length }
  if s.memory.length + data.length < 32 then { s with memory := s.memory ++ data }
  else
    let fill := 32 - s.memory.length
    let (s, p) := if s.memory.length > 0 then
        (s.rounds (s.memory ++ data.take fill), data.drop fill)
      else (s, data)
    let (s, p) := consumeStripes s p
    { s with memory := p }

def digestWords (hash : UInt64) (p : Str) : UInt64 × Str :=
  if 8 ≤ p.length then
    let hash := hash ^^^ rotl (read64 p * prime2) 31 * prime1
    digestWords (hash * prime1 + prime4) (p.drop 8)
  else (hash, p)
termination_by p.length
decreasing_by simp; omega

/-- `if (p + 4 <= end)`. -/
def digestHalf (hash : UInt64) (p : Str) : UInt64 × Str :=
  if 4 ≤ p.length then
    (rotl (hash ^^^ (read32 p).toUInt64 * prime1) 23 * prime2 + prime3, p.drop 4)
  else (hash, p)

def digestBytes (hash : UInt64) : Str → UInt64
  | [] => hash
  | b :: p => digestBytes (rotl (hash ^^^ b.toUInt64 * prime5) 11 * prime1) p

def avalanche (hash : UInt64) : UInt64 :=
  let hash := (hash ^^^ hash >>> 33) * prime2
  let hash := (hash ^^^ hash >>> 29) * prime3
  hash ^^^ hash >>> 32

def digestStart (s : XxHash64State) : UInt64 :=
  if s.totalLen ≥ 32 then
    let hash := rotl s.v1 1 + rotl s.v2 7 + rotl s.v3 12 + rotl s.v4 18
    let hash := xxhashMergeRound hash s.v1
    let hash := xxhashMergeRound hash s.v2
    let hash := xxhashMergeRound hash s.v3
    xxhashMergeRound hash s.v4
  else prime5

def digest (s : XxHash64State) : UInt64 :=
  let (hash, p) := digestWords (s.digestStart + s.totalLen) s.memory
  let (hash, p) := digestHalf hash p
  avalanche (digestBytes hash p)

end XxHash64State

def rotr32 (value bits : UInt32) : UInt32 := value >>> bits ||| value <<< (32 - bits)

structure Sha256State where
  h : Vector UInt32 8
  totalLen : UInt64
  buffer : Str
deriving DecidableEq

namespace Sha256State

def sha256K : List UInt32 := [
  0x428a2f98, 0x71374491, 0xb5c0fbcf, 0xe9b5dba5,
  0x3956c25b, 0x59f111f1, 0x923f82a4, 0xab1c5ed5,
  0xd807aa98, 0x12835b01, 0x243185be, 0x550c7dc3,
  0x72be5d74, 0x80deb1fe, 0x9bdc06a7, 0xc19bf174,
  0xe49b69c1, 0xefbe4786, 0x0fc19dc6, 0x240ca1cc,
  0x2de92c6f, 0x4a7484aa, 0x5cb0a9dc, 0x76f988da,
  0x983e5152, 0xa831c66d, 0xb00327c8, 0xbf597fc7,
  0xc6e00bf3, 0xd5a79147, 0x06ca6351, 0x14292967,
  0x27b70a85, 0x2e1b2138, 0x4d2c6dfc, 0x53380d13,
  0x650a7354, 0x766a0abb, 0x81c2c92e, 0x92722c85,
  0xa2bfe8a1, 0xa81a664b, 0xc24b8b70, 0xc76c51a3,
  0xd192e819, 0xd6990624, 0xf40e3585, 0x106aa070,
  0x19a4c116, 0x1e376c08, 0x2748774c, 0x34b0bcb5,
  0x391c0cb3, 0x4ed8aa4a, 0x5b9cca4f, 0x682e6ff3,
  0x748f82ee, 0x78a5636f, 0x84c87814, 0x8cc70208,
  0x90befffa, 0xa4506ceb, 0xbef9a3f7, 0xc67178f2]

def reset : Sha256State where
  h := #v[0x6a09e667, 0xbb67ae85, 0x3c6ef372, 0xa54ff53a,
    0x510e527f, 0x9b05688c, 0x1f83d9ab, 0x5be0cd19]
  totalLen := 0
  buffer := []

def blockWord (block : Str) (i : ℕ) : UInt32 :=
  (block.getD (i * 4) 0).toUInt32 <<< 24 ||| (block.getD (i * 4 + 1) 0).toUInt32 <<< 16 |||
    (block.getD (i * 4 + 2) 0).toUInt32 <<< 8 ||| (block.getD (i * 4 + 3) 0).toUInt32

/-- Appends `w[i]` for `i = w.length`. -/
def scheduleWord (w : List UInt32) : List UInt32 :=
  let i := w.length
  let w15 := w.getD (i - 15) 0
  let w2 := w.getD (i - 2) 0
  let s0 := rotr32 w15 7 ^^^ rotr32 w15 18 ^^^ w15 >>> 3
  let s1 := rotr32 w2 17 ^^^ rotr32 w2 19 ^^^ w2 >>> 10
  w ++ [w.getD (i - 16) 0 + s0 + w.getD (i - 7) 0 + s1]

def schedule (block : Str) : List UInt32 :=
  scheduleWord^[48] ((List.range 16).map (blockWord block))

/-- One of the 64 rounds on the working variables `a` to `h`. -/
def processRound (v : Vector UInt32 8) (k w : UInt32) : Vector UInt32 8 :=
  let s1 := rotr32 v[4] 6 ^^^ rotr32 v[4] 11 ^^^ rotr32 v[4] 25
  let ch := (v[4] &&& v[5]) ^^^ (~~~v[4] &&& v[6])
  let temp1 := v[7] + s1 + ch + k + w
  let s0 := rotr32 v[0] 2 ^^^ rotr32 v[0] 13 ^^^ rotr32 v[0] 22
  let maj := (v[0] &&& v[1]) ^^^ (v[0] &&& v[2]) ^^^ (v[1] &&& v[2])
  let temp2 := s0 + maj
  #v[temp1 + temp2, v[0], v[1], v[2], v[3] + temp1, v[4], v[5], v[6]]

def processBlock (s : Sha256State) (block : Str) : Sha256State :=
  let v := (sha256K.zip (schedule block)).foldl (fun v p => processRound v p.1 p.2) s.h
  { s with h := Vector.zipWith (· + ·) s.h v }

/-- `while (len >= 64)`. -/
def consumeBlocks (s : Sha256State) (p : Str) : Sha256State × Str :=
  if 64 ≤ p.length then consumeBlocks (s.processBlock p) (p.drop 64) else (s, p)
termination_by p.length
decreasing_by simp; omega

def consume (s : Sha256State) (data : Str) : Sha256State :=
  let s := { s with totalLen := s.totalLen + UInt64.ofNat data.length }
  let (s, p) := if s.buffer.length > 0 then
      let fill := min (64 - s.buffer.length) data.length
      let s := { s with buffer := s.buffer ++ data.take fill }
      let s := if s.buffer.length = 64 then { s.processBlock s.buffer with buffer := [] } else s
      (s, data.drop fill)
    else (s, data)
  let (s, p) := consumeBlocks s p
  if p.length > 0 then { s with buffer := p } else s

def bigEndian32 (v : UInt32) : Str :=
  [(v >>> 24).toUInt8, (v >>> 16).toUInt8, (v >>> 8).toUInt8, v.toUInt8]

def finalize (s : Sha256State) : Str :=
  let bitLen := s.totalLen * 8
  let s := { s with buffer := s.buffer ++ [0x80] }
  let s := if s.buffer.length > 56 then
      { s.processBlock (s.buffer ++ List.replicate (64 - s.buffer.length) 0) with buffer := [] }
    else s
  let buffer := s.buffer ++ List.replicate (56 - s.buffer.length) 0
  let lengthBytes := (List.range 8).map fun i => (bitLen >>> UInt64.ofNat ((7 - i) * 8)).toUInt8
  (s.processBlock (buffer ++ lengthBytes)).h.toList.flatMap bigEndian32

end Sha256State

structure MetadataHashBuilder where
  kind : MetadataHashKind
  finished : Bool := false
  xxhState : XxHash64State
  shaState : Sha256State

namespace MetadataHashBuilder

def new (kind : MetadataHashKind) : MetadataHashBuilder where
  kind := kind
  xxhState := XxHash64State.reset 0
  shaState := Sha256State.reset

def update (b : MetadataHashBuilder) (data : Str) : MetadataHashBuilder :=
  if b.finished || b.kind = .none || data.length = 0 then b
  else if b.kind = .xxHash64 then { b with xxhState := b.xxhState.consume data }
  else if b.kind = .sha256 then { b with shaState := b.shaState.consume data }
  else b

def bigEndian64 (value : UInt64) : Str :=
  (List.range 8).map fun i => (value >>> UInt64.ofNat (56 - 8 * i)).toUInt8

def finalizeXxh64 (b : MetadataHashBuilder) : MetadataHash :=
  .ofDigest .xxHash64 (bigEndian64 b.xxhState.digest)

def finalizeSha256 (b : MetadataHashBuilder) : MetadataHash :=
  .ofDigest .sha256 b.shaState.finalize

def finalize (b : MetadataHashBuilder) : MetadataHash :=
  if b.kind = .xxHash64 then b.finalizeXxh64
  else if b.kind = .sha256 then b.finalizeSha256
  else {}

end MetadataHashBuilder

end Flocate
