import Flocate.Lib.StoreTrace
import Flocate.TurbopforEncode

/-!
# The stores of the encoder

The encoder once more, this time with all its stores. A shift by the width of the shifted type gives
some value here, and none of the stores is missed; where the run in memory gets to its end, it does
these stores. Stores next to each other that go together are one.
-/

namespace Flocate

open Bytes Fault

section Stores

variable (overShift : UInt32 → UInt32)

def vbStore (val : UInt32) (out : ℕ) : Store × ℕ :=
  if val ≤ 176 then (⟨out, [val.toUInt8]⟩, out + 1)
  else if val ≤ 16560 then
    let val := val - 177
    (⟨out, [(val >>> 8 + 177).toUInt8, (val &&& 0xff).toUInt8]⟩, out + 2)
  else if val ≤ 540848 then
    let val := val - 16561
    (⟨out, (val >>> 16 + 241).toUInt8 :: leBytes 2 (val &&& 0xffff).toNat⟩, out + 3)
  else if val ≤ 16777215 then (⟨out, 249 :: leBytes 4 val.toNat⟩, out + 4)
  else (⟨out, 250 :: leBytes 4 val.toNat⟩, out + 5)

def vbStores (out : ℕ) : List UInt32 → List Store × ℕ
  | [] => ([], out)
  | val :: vals =>
      let res := vbStores (vbStore val out).2 vals
      ((vbStore val out).1 :: res.1, res.2)

/-- `overShift` is what a shift by 32 bits or more gives. -/
def BitWriter.stores (bs : BitWriter) : List UInt32 → List Store
  | [] => []
  | val :: vals =>
      let curVal := bs.curVal ||| val <<< UInt32.ofNat bs.bitsUsed
      let bitsUsed := bs.bitsUsed + bs.bits
      ⟨bs.out, leBytes 4 curVal.toNat⟩ :: BitWriter.stores { bs with
        out := bs.out + bitsUsed / 8
        bitsUsed := bitsUsed % 8
        curVal := if 32 ≤ bitsUsed / 8 * 8 then overShift curVal
          else curVal >>> UInt32.ofNat (bitsUsed / 8 * 8) } vals

def InterleavedBitWriter.stores (bs : InterleavedBitWriter) (val : UInt32) :
    InterleavedBitWriter × List Store :=
  let curVal := bs.curVal ||| val.toUInt64 <<< UInt64.ofNat bs.bitsUsed
  if 32 ≤ bs.bitsUsed + bs.bits then
    let out := bs.out + 16
    let next := curVal >>> 32
    ({ bs with out := out, bitsUsed := bs.bitsUsed + bs.bits - 32, curVal := next },
      [⟨bs.out, leBytes 4 curVal.toNat⟩, ⟨out, leBytes 4 next.toNat⟩])
  else
    ({ bs with bitsUsed := bs.bitsUsed + bs.bits, curVal := curVal },
      [⟨bs.out, leBytes 4 curVal.toNat⟩])

def interleavedStores (bs : ℕ → InterleavedBitWriter) (i : ℕ) : List UInt32 → List Store
  | [] => []
  | val :: vals =>
      let res := (bs (i % 4)).stores val
      res.2 ++ interleavedStores (Function.update bs (i % 4) res.1) (i + 1) vals

def encodeBitmapStores (ds : List UInt32) (bitWidth : ℕ) (interleaved : Bool) (out : ℕ) :
    Except Fault (List Store × ℕ) :=
  let vals := ds.map (· &&& maskForBits bitWidth)
  let last := out + bytesForPackedBits ds.length bitWidth
  if interleaved then
    if ds.length % 4 = 0 then
      .ok (interleavedStores (fun s => { out := out + s * 4, bits := bitWidth }) 0 vals, last)
    else .error .assertion
  else .ok (({ out := out, bits := bitWidth } : BitWriter).stores overShift vals, last)

def encodePforBitmapStores (ds : List UInt32) (bitWidth exceptionBitWidth : ℕ)
    (interleaved : Bool) (out : ℕ) : Except Fault (List Store × ℕ) := do
  let width : Store := ⟨out, [UInt8.ofNat exceptionBitWidth]⟩
  let out := out + 1
  -- the bitmap of exceptions
  let bitmap := ({ out := out, bits := 1 } : BitWriter).stores overShift
    (ds.map fun d => if d >>> UInt32.ofNat bitWidth ≠ 0 then 1 else 0)
  let out := out + bytesForPackedBits ds.length 1
  -- the exceptions
  let rest := ({ out := out, bits := exceptionBitWidth } : BitWriter).stores overShift
    (exceptions ds bitWidth)
  let out := out + bytesForPackedBits (exceptions ds bitWidth).length exceptionBitWidth
  -- the base values
  let (base, out) ← encodeBitmapStores overShift ds bitWidth interleaved out
  .ok ([width] ++ bitmap ++ rest ++ base, out)

def encodePforVbStores (ds : List UInt32) (bitWidth : ℕ) (interleaved : Bool) (out : ℕ) :
    Except Fault (List Store × ℕ) := do
  let count : Store := ⟨out, [UInt8.ofNat (exceptions ds bitWidth).length]⟩
  let out := out + 1
  -- the base values
  let (base, out) ← encodeBitmapStores overShift ds bitWidth interleaved out
  -- the exceptions
  let (rest, out) := vbStores out (exceptions ds bitWidth)
  -- the indexes of the exceptions
  let indexes := (exceptionIndexes ds bitWidth).map UInt8.ofNat
  .ok ([count] ++ base ++ rest ++ [⟨out, indexes⟩], out + indexes.length)

def encodePforSingleBlockStores (ds : List UInt32) (interleaved : Bool) (out : ℕ) :
    Except Fault (List Store × ℕ) :=
  if ds = [] then .error .assertion
  else if interleaved ∧ ds.length ≠ 128 then .error .assertion
  else
    let (blockType, bitWidth, exceptionBitWidth) := decideBlockType ds
    let header : Store := ⟨out, [UInt8.ofNat (blockType.code <<< 6 ||| bitWidth)]⟩
    let out := out + 1
    match blockType with
    | .constant => .ok ([header, ⟨out, leBytes 4 (ds.headD 0).toNat⟩],
        out + divRoundUp (numBits (ds.headD 0)) 8)
    | .forBlock => (encodeBitmapStores overShift ds bitWidth interleaved out).map
        fun (stores, last) => (header :: stores, last)
    | .pforBitmap =>
        (encodePforBitmapStores overShift ds bitWidth exceptionBitWidth interleaved out).map
          fun (stores, last) => (header :: stores, last)
    | .pforVb => (encodePforVbStores overShift ds bitWidth interleaved out).map
        fun (stores, last) => (header :: stores, last)

end Stores

section Memory

variable (overShift : UInt32 → UInt32) {ds : List UInt32} {w e : ℕ} {interleaved : Bool}
  {mem mem' : Memory} {out last : ℕ}

theorem writeVb_eq_vbStore (val : UInt32) (mem : Memory) (out : ℕ) :
    writeVb val mem out = (writeBytes mem (vbStore val out).1.addr (vbStore val out).1.bytes,
      (vbStore val out).2) := by
  rw [writeVb, vbStore]
  split_ifs <;> rfl

theorem writeVbs_eq (vals : List UInt32) (mem : Memory) (out : ℕ) :
    writeVbs mem out vals = (runStores mem (vbStores out vals).1, (vbStores out vals).2) := by
  induction vals generalizing mem out with
  | nil => rfl
  | cons val vals ih => rw [writeVbs, writeVb_eq_vbStore, ih, vbStores, runStores_cons]

theorem BitWriter.writeAll_eq_stores {bs : BitWriter} {vals : List UInt32}
    (h : bs.writeAll mem vals = .ok mem') : runStores mem (bs.stores overShift vals) = mem' := by
  induction vals generalizing bs mem with
  | nil => exact Except.ok.inj h
  | cons val vals ih =>
      rw [BitWriter.writeAll, bind_eq_ok] at h
      obtain ⟨⟨next, mid⟩, hstep, h⟩ := h
      rw [BitWriter.write] at hstep
      split at hstep
      · cases hstep
      · rename_i hshift
        obtain ⟨rfl, rfl⟩ := Prod.mk.inj (Except.ok.inj hstep)
        rw [BitWriter.stores, runStores_cons, if_neg hshift]
        exact ih h

theorem writeInterleaved_eq (vals : List UInt32) (bs : ℕ → InterleavedBitWriter) (mem : Memory)
    (i : ℕ) : writeInterleaved bs mem i vals = runStores mem (interleavedStores bs i vals) := by
  induction vals generalizing bs mem i with
  | nil => rfl
  | cons val vals ih =>
      have hstep : (bs (i % 4)).write mem val =
          (((bs (i % 4)).stores val).1, runStores mem ((bs (i % 4)).stores val).2) := by
        rw [InterleavedBitWriter.write, InterleavedBitWriter.stores]
        split <;> rfl
      rw [writeInterleaved, hstep, ih, interleavedStores, runStores_append]

theorem encodeBitmap_stores (h : encodeBitmap ds w interleaved mem out = .ok (mem', last)) :
    ∃ stores, encodeBitmapStores overShift ds w interleaved out = .ok (stores, last) ∧
      runStores mem stores = mem' := by
  rw [encodeBitmap] at h
  rw [encodeBitmapStores]
  cases interleaved with
  | true =>
      simp only [if_true] at h ⊢
      split at h
      · rename_i hlen
        obtain ⟨rfl, rfl⟩ := Prod.mk.inj (Except.ok.inj h)
        rw [if_pos hlen]
        exact ⟨_, rfl, (writeInterleaved_eq _ _ _ _).symm⟩
      · cases h
  | false =>
      simp only [Bool.false_eq_true, if_false] at h ⊢
      rw [map_eq_ok] at h
      obtain ⟨written, hall, h⟩ := h
      obtain ⟨rfl, rfl⟩ := Prod.mk.inj h
      exact ⟨_, rfl, BitWriter.writeAll_eq_stores overShift hall⟩

theorem encodePforBitmap_stores
    (h : encodePforBitmap ds w e interleaved mem out = .ok (mem', last)) :
    ∃ stores, encodePforBitmapStores overShift ds w e interleaved out = .ok (stores, last) ∧
      runStores mem stores = mem' := by
  rw [encodePforBitmap] at h
  dsimp only at h
  rw [bind_eq_ok] at h
  obtain ⟨mem₁, hbitmap, h⟩ := h
  rw [bind_eq_ok] at h
  obtain ⟨mem₂, hrest, h⟩ := h
  obtain ⟨base, hbase, hmem⟩ := encodeBitmap_stores overShift h
  rw [encodePforBitmapStores]
  dsimp only
  rw [hbase]
  refine ⟨_, rfl, ?_⟩
  simp only [runStores_append, runStores_cons, runStores_nil]
  rw [BitWriter.writeAll_eq_stores overShift hbitmap, BitWriter.writeAll_eq_stores overShift hrest,
    hmem]

theorem encodePforVb_stores (h : encodePforVb ds w interleaved mem out = .ok (mem', last)) :
    ∃ stores, encodePforVbStores overShift ds w interleaved out = .ok (stores, last) ∧
      runStores mem stores = mem' := by
  rw [encodePforVb] at h
  dsimp only at h
  rw [bind_eq_ok] at h
  obtain ⟨⟨mem₁, mid⟩, hbitmap, h⟩ := h
  obtain ⟨base, hbase, rfl⟩ := encodeBitmap_stores overShift hbitmap
  dsimp only at h
  rw [writeVbs_eq] at h
  obtain ⟨rfl, rfl⟩ := Prod.mk.inj (Except.ok.inj h)
  rw [encodePforVbStores]
  dsimp only
  rw [hbase]
  refine ⟨_, rfl, ?_⟩
  simp only [runStores_append, runStores_cons, runStores_nil]

/-- A run in memory that gets to its end does the stores, and nothing else. -/
theorem encodePforSingleBlock_stores
    (h : encodePforSingleBlock ds interleaved mem out = .ok (mem', last)) :
    ∃ stores, encodePforSingleBlockStores overShift ds interleaved out = .ok (stores, last) ∧
      runStores mem stores = mem' := by
  rw [encodePforSingleBlock] at h
  rw [encodePforSingleBlockStores]
  split at h
  · cases h
  rename_i hne
  split at h
  · cases h
  rename_i hlen
  rw [if_neg hne, if_neg hlen]
  generalize decideBlockType ds = chosen at h ⊢
  obtain ⟨blockType, w, e⟩ := chosen
  dsimp only at h ⊢
  cases blockType with
  | constant =>
      obtain ⟨rfl, rfl⟩ := Prod.mk.inj (Except.ok.inj h)
      exact ⟨_, rfl, rfl⟩
  | forBlock =>
      obtain ⟨stores, hstores, hmem⟩ := encodeBitmap_stores overShift h
      dsimp only
      rw [hstores]
      exact ⟨_, rfl, hmem⟩
  | pforBitmap =>
      obtain ⟨stores, hstores, hmem⟩ := encodePforBitmap_stores overShift h
      dsimp only
      rw [hstores]
      exact ⟨_, rfl, hmem⟩
  | pforVb =>
      obtain ⟨stores, hstores, hmem⟩ := encodePforVb_stores overShift h
      dsimp only
      rw [hstores]
      exact ⟨_, rfl, hmem⟩

end Memory

end Flocate
