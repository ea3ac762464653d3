import Flocate.Lib.Sse2
import Flocate.TurbopforDecode
import Mathlib.Tactic.Ring

/-!
# Decoding full blocks with SSE2

The versions of the interleaved decoders with vector instructions, which read four streams at once
and sum four deltas at once. They decode every input, not only what the encoder writes, to what the
portable versions do.
-/

namespace Flocate

open Bytes PostingListBuilder

structure InterleavedBitReaderSSE2 where
  pos : ℕ
  bits : ℕ
  bitsUsed : ℕ := 0

def InterleavedBitReaderSSE2.read (bs : InterleavedBitReaderSSE2) (mem : Memory) :
    M128i × InterleavedBitReaderSSE2 :=
  let val := (M128i.loaduSi128 mem bs.pos).srliEpi32 bs.bitsUsed
  let val :=
    if 32 < bs.bitsUsed + bs.bits then
      val.orSi128 ((M128i.loaduSi128 mem (bs.pos + 16)).slliEpi32 (32 - bs.bitsUsed))
    else val
  let val := val.andSi128 (.set1Epi32 (maskForBits bs.bits))
  let bitsUsed := bs.bitsUsed + bs.bits
  (val, { bs with pos := bs.pos + 16 * (bitsUsed / 32), bitsUsed := bitsUsed % 32 })

structure DeltaDecoderSSE2 where
  prevVal : M128i

namespace DeltaDecoderSSE2

def new (prevVal : UInt32) : DeltaDecoderSSE2 := ⟨.set1Epi32 prevVal⟩

def decode (delta : DeltaDecoderSSE2) (val : M128i) : M128i × DeltaDecoderSSE2 :=
  let val := val.addEpi32 (val.slliSi128 4)
  let val := val.addEpi32 (val.slliSi128 8)
  let val := val.addEpi32 (delta.prevVal.addEpi32 (.setEpi32 4 3 2 1))
  (val, ⟨val.shuffleLast⟩)

end DeltaDecoderSSE2

def deltaDecodeVectors : ℕ → DeltaDecoderSSE2 → List UInt32 → List UInt32
  | 0, _, _ => []
  | n + 1, delta, out =>
      let (val, delta) := delta.decode (.ofList out)
      val.toList ++ deltaDecodeVectors n delta (out.drop 4)

def deltaDecodeSse2 (out : List UInt32) (prev : UInt32) : List UInt32 :=
  deltaDecodeVectors 32 (.new prev) out

section DecodeBitmap

variable (orWithExisting deltaDecode : Bool) (mem : Memory)

def decodeBitmapVectors :
    ℕ → InterleavedBitReaderSSE2 → DeltaDecoderSSE2 → List UInt32 → List UInt32
  | 0, _, _, _ => []
  | n + 1, bs, delta, out =>
      let (val, bs) := bs.read mem
      let val :=
        if orWithExisting then val.orSi128 ((M128i.ofList out).slliEpi32 bs.bits) else val
      let (val, delta) := if deltaDecode then delta.decode val else (val, delta)
      val.toList ++ decodeBitmapVectors n bs delta (out.drop 4)

/-- `out` is what is in the output before. -/
def decodeBitmapSse2 (p bitWidth : ℕ) (out : List UInt32) (prev : UInt32) :
    Except Fault (List UInt32 × ℕ) :=
  if bitWidth ≤ 32 then
    .ok (decodeBitmapVectors orWithExisting deltaDecode mem 32 { pos := p, bits := bitWidth }
      (.new prev) out, p + bytesForPackedBits 128 bitWidth)
  else .error .assertion

end DecodeBitmap

def decodeForInterleavedSse2 (mem : Memory) (p : ℕ) (out : List UInt32) (prev : UInt32) :
    Except Fault (List UInt32 × ℕ) :=
  decodeBitmapSse2 false true mem (p + 1) (mem p &&& 0x3f).toNat out prev

def decodePforBitmapInterleavedSse2 (mem : Memory) (p : ℕ) (prev : UInt32) :
    Except Fault (List UInt32 × ℕ) := do
  let bitWidth := (mem p &&& 0x3f).toNat
  let (out, p) ← decodePforBitmapExceptions mem (p + 1) 128
  decodeBitmapSse2 true true mem p bitWidth out prev

def decodePforVbInterleavedSse2 (mem : Memory) (p : ℕ) (out : List UInt32) (prev : UInt32) :
    Except Fault (List UInt32 × ℕ) := do
  let bitWidth := (mem p &&& 0x3f).toNat
  let numExceptions := (mem (p + 1)).toNat
  let (out, p) ← decodeBitmapSse2 false false mem (p + 2) bitWidth out prev
  if 32 ≤ bitWidth ∧ numExceptions ≠ 0 then .error .shift
  else if 128 < numExceptions then .error .outOfBounds
  else
    let (exceptions, p) ← readVbExceptions mem p numExceptions
    let indexes := (region mem p numExceptions).map (·.toNat)
    if indexes.any (128 ≤ ·) then .error .outOfBounds
    else
      .ok (deltaDecodeSse2 ((exceptions.zip indexes).foldl
          (fun out (e, idx) => out.modify idx (· ||| e <<< UInt32.ofNat bitWidth)) out) prev,
        p + numExceptions)

section Delta

variable (prev : UInt32) (val : M128i)

/-- The sums of four words, the last two of which come through both shifts. -/
theorem decode_new_eq : ((DeltaDecoderSSE2.new prev).decode val).1 =
    ⟨val.x0 + prev + 1, val.x1 + (val.x0 + prev + 1) + 1,
      val.x2 + (val.x1 + (val.x0 + prev + 1) + 1) + 1,
      val.x3 + (val.x2 + (val.x1 + (val.x0 + prev + 1) + 1) + 1) + 1⟩ := by
  simp only [DeltaDecoderSSE2.decode, DeltaDecoderSSE2.new, M128i.slliSi128_four,
    M128i.slliSi128_eight, M128i.addEpi32, M128i.zipWith, M128i.set1Epi32, M128i.setEpi32]
  ext1
  all_goals
    dsimp only
    grind

theorem decode_new_snd : ((DeltaDecoderSSE2.new prev).decode val).2 =
    .new ((DeltaDecoderSSE2.new prev).decode val).1.x3 := rfl

/-- Four deltas are decoded at once. -/
theorem deltaDecode_toList_append (rest : List UInt32) :
    deltaDecode prev (val.toList ++ rest) =
      ((DeltaDecoderSSE2.new prev).decode val).1.toList ++
        deltaDecode ((DeltaDecoderSSE2.new prev).decode val).1.x3 rest := by
  rw [decode_new_eq]
  rfl

theorem toList_ofList_append {n : ℕ} {out : List UInt32} (h : out.length = 4 * (n + 1)) :
    (M128i.ofList out).toList ++ out.drop 4 = out := by
  match out, h with
  | _ :: _ :: _ :: _ :: _, _ => rfl

theorem deltaDecodeVectors_eq (n : ℕ) (out : List UInt32) (h : out.length = 4 * n) :
    deltaDecodeVectors n (.new prev) out = deltaDecode prev out := by
  induction n generalizing prev out with
  | zero =>
      rw [List.length_eq_zero_iff.mp h]
      rfl
  | succ n ih =>
      have hrest : (out.drop 4).length = 4 * n := by
        rw [List.length_drop, h]
        omega
      have hsplit := deltaDecode_toList_append prev (M128i.ofList out) (out.drop 4)
      rw [toList_ofList_append h] at hsplit
      rw [deltaDecodeVectors, hsplit]
      dsimp only
      rw [decode_new_snd, ih _ _ hrest]

end Delta

section Readers

variable {mem : Memory} {bs : InterleavedBitReaderSSE2}

def InterleavedBitReaderSSE2.lane (bs : InterleavedBitReaderSSE2) (s : ℕ) : InterleavedBitReader :=
  { pos := bs.pos + s * 4, bits := bs.bits, bitsUsed := bs.bitsUsed }

theorem lane_read (s : ℕ) : (bs.read mem).2.lane s = ((bs.lane s).read mem).2 := by
  simp only [InterleavedBitReaderSSE2.read, InterleavedBitReaderSSE2.lane,
    InterleavedBitReader.read, Nat.add_right_comm]

/-- The words of a vector are those that the four readers return. -/
theorem read_eq (hused : bs.bitsUsed < 32) (hbits : bs.bits ≤ 32) :
    (bs.read mem).1 = ⟨((bs.lane 0).read mem).1, ((bs.lane 1).read mem).1,
      ((bs.lane 2).read mem).1, ((bs.lane 3).read mem).1⟩ := by
  by_cases hsplit : 32 < bs.bitsUsed + bs.bits
  · have hrest : 32 - bs.bitsUsed < 32 := by omega
    simp only [InterleavedBitReaderSSE2.read, InterleavedBitReaderSSE2.lane,
      InterleavedBitReader.read, hsplit, if_true, M128i.srliEpi32, M128i.slliEpi32, M128i.map,
      if_pos hused, if_pos hrest, M128i.orSi128, M128i.andSi128, M128i.zipWith, M128i.set1Epi32,
      M128i.loaduSi128, Nat.add_right_comm]
  · simp only [InterleavedBitReaderSSE2.read, InterleavedBitReaderSSE2.lane,
      InterleavedBitReader.read, hsplit, if_false, M128i.srliEpi32, M128i.map, if_pos hused,
      M128i.andSi128, M128i.zipWith, M128i.set1Epi32, M128i.loaduSi128]

theorem readInterleaved_congr (n i : ℕ) {r r' : ℕ → InterleavedBitReader}
    (h : ∀ s < 4, r s = r' s) : readInterleaved mem n i r = readInterleaved mem n i r' := by
  induction n generalizing i r r' with
  | zero => rfl
  | succ n ih =>
      have hi := h (i % 4) (Nat.mod_lt _ (by decide))
      rw [readInterleaved, readInterleaved, hi]
      refine congrArg _ (ih (i + 1) fun s hs => ?_)
      by_cases heq : s = i % 4
      · rw [heq, Function.update_self, Function.update_self]
      · rw [Function.update_of_ne heq, Function.update_of_ne heq, h s hs]

/-- Four values are read at once. -/
theorem readInterleaved_four (hused : bs.bitsUsed < 32) (hbits : bs.bits ≤ 32) (n i : ℕ)
    (hi : i % 4 = 0) : readInterleaved mem (n + 4) i bs.lane =
      (bs.read mem).1.toList ++ readInterleaved mem n (i + 4) (bs.read mem).2.lane := by
  have h1 : (i + 1) % 4 = 1 := by omega
  have h2 : (i + 1 + 1) % 4 = 2 := by omega
  have h3 : (i + 1 + 1 + 1) % 4 = 3 := by omega
  rw [read_eq hused hbits]
  simp only [readInterleaved, hi, h1, h2, h3, M128i.toList, List.cons_append, List.nil_append]
  simp (disch := decide) only [Function.update_of_ne]
  refine congrArg (_ :: _ :: _ :: _ :: ·) (readInterleaved_congr n (i + 4) fun s hs => ?_)
  rw [lane_read]
  obtain rfl | rfl | rfl | rfl : s = 0 ∨ s = 1 ∨ s = 2 ∨ s = 3 := by omega
  all_goals simp (disch := decide) only [Function.update_of_ne, Function.update_self]

end Readers

section Bitmap

variable {mem : Memory}

theorem length_readInterleaved (n i : ℕ) (r : ℕ → InterleavedBitReader) :
    (readInterleaved mem n i r).length = n := by
  induction n generalizing i r with
  | zero => rfl
  | succ n ih => rw [readInterleaved, List.length_cons, ih]

/-- The base values, put under the exceptions if there are any in the output. -/
def baseValues (orWithExisting : Bool) (bits : ℕ) (out base : List UInt32) : List UInt32 :=
  if orWithExisting then out.zipWith (fun e b => e <<< UInt32.ofNat bits ||| b) base else base

theorem baseValues_append {orWithExisting : Bool} {bits n : ℕ}
    (hbits : orWithExisting = true → bits < 32) {out : List UInt32}
    (hout : orWithExisting = true → out.length = 4 * (n + 1)) (val : M128i) (base : List UInt32) :
    baseValues orWithExisting bits out (val.toList ++ base) =
      (if orWithExisting then val.orSi128 ((M128i.ofList out).slliEpi32 bits) else val).toList ++
        baseValues orWithExisting bits (out.drop 4) base := by
  cases orWithExisting with
  | false => rfl
  | true =>
      have hlt := hbits rfl
      have hsplit := toList_ofList_append (hout rfl)
      simp only [baseValues, if_true]
      nth_rewrite 1 [← hsplit]
      simp only [M128i.toList, M128i.orSi128, M128i.slliEpi32, M128i.zipWith, M128i.map, if_pos hlt,
        List.cons_append, List.nil_append, List.zipWith_cons_cons, UInt32.or_comm]

/-- The vector loop reads the four streams and decodes the deltas if it is to. -/
theorem decodeBitmapVectors_eq (mem : Memory) (orWithExisting delta : Bool) (n : ℕ) {i : ℕ}
    (hi : i % 4 = 0) (bs : InterleavedBitReaderSSE2) (hused : bs.bitsUsed < 32)
    (hbits : bs.bits ≤ 32)
    (hor : orWithExisting = true → bs.bits < 32) {out : List UInt32}
    (hout : orWithExisting = true → out.length = 4 * n) (prev : UInt32) :
    decodeBitmapVectors orWithExisting delta mem n bs (.new prev) out =
      let vals := baseValues orWithExisting bs.bits out
        (readInterleaved mem (4 * n) i bs.lane)
      if delta then deltaDecode prev vals else vals := by
  induction n generalizing i bs out prev with
  | zero =>
      have hnil : baseValues orWithExisting bs.bits out [] = [] := by
        cases orWithExisting with
        | false => rfl
        | true => exact List.zipWith_nil_right
      rw [Nat.mul_zero, readInterleaved, decodeBitmapVectors, hnil]
      cases delta <;> rfl
  | succ n ih =>
      have hi' : (i + 4) % 4 = 0 := by rw [Nat.add_mod_right, hi]
      have hused' : (bs.read mem).2.bitsUsed < 32 := Nat.mod_lt _ (by decide)
      have hout' : orWithExisting = true → (out.drop 4).length = 4 * n := by
        intro h
        rw [List.length_drop, hout h]
        omega
      have hrest (prev : UInt32) := ih hi' (bs.read mem).2 hused' hbits hor hout' prev
      rw [Nat.mul_succ, readInterleaved_four hused hbits _ _ hi, baseValues_append hor hout,
        decodeBitmapVectors]
      dsimp only at hrest ⊢
      cases delta with
      | false =>
          simp only [Bool.false_eq_true, if_false] at hrest ⊢
          rw [hrest]
          rfl
      | true =>
          simp only [if_true] at hrest ⊢
          rw [deltaDecode_toList_append, decode_new_snd, hrest]
          rfl

/-- A whole block. -/
theorem decodeBitmapSse2_eq (mem : Memory) (orWithExisting delta : Bool) (p : ℕ) {bitWidth : ℕ}
    (hbits : bitWidth ≤ 32) (hor : orWithExisting = true → bitWidth < 32) (out : List UInt32)
    (hout : orWithExisting = true → out.length = 128) (prev : UInt32) :
    decodeBitmapSse2 orWithExisting delta mem p bitWidth out prev =
      let vals := baseValues orWithExisting bitWidth out (readBitmap true mem p 128 bitWidth)
      .ok (if delta then deltaDecode prev vals else vals,
        p + bytesForPackedBits 128 bitWidth) := by
  have heq := decodeBitmapVectors_eq mem orWithExisting delta 32 (i := 0) rfl
    { pos := p, bits := bitWidth } (Nat.zero_lt_succ 31) hbits hor hout prev
  rw [decodeBitmapSse2, if_pos hbits, heq]
  rfl

end Bitmap

section Blocks

variable {mem : Memory} {p : ℕ}

theorem decodeForInterleavedSse2_eq (h : (mem p &&& 0x3f).toNat ≤ 32) (out : List UInt32)
    (prev : UInt32) :
    decodeForInterleavedSse2 mem p out prev = decodeForInterleaved mem p prev := by
  have heq := decodeBitmapSse2_eq mem false true (p + 1) h nofun out nofun prev
  rw [decodeForInterleavedSse2, heq, decodeForInterleaved, decodeForBlock]
  dsimp only
  rw [if_neg (Nat.not_lt.mpr h)]
  rfl

/-- The exceptions behind a bitmap fill a block. -/
theorem length_decodePforBitmapExceptions {num q : ℕ} {out : List UInt32}
    (h : decodePforBitmapExceptions mem p num = .ok (out, q)) : out.length = num := by
  rw [decodePforBitmapExceptions] at h
  dsimp only at h
  split at h
  · cases h
  · obtain ⟨rfl, -⟩ := Prod.mk.inj (Except.ok.inj h)
    have hlength (l : List (UInt32 × ℕ)) (out : List UInt32) :
        (l.foldl (fun out (val, idx) => out.modify idx fun _ => val) out).length =
          out.length := by
      induction l generalizing out with
      | nil => rfl
      | cons a l ih => rw [List.foldl_cons, ih, List.length_modify]
    rw [hlength, List.length_replicate]

theorem decodePforBitmapInterleavedSse2_eq (h : (mem p &&& 0x3f).toNat < 32) (prev : UInt32) :
    decodePforBitmapInterleavedSse2 mem p prev = decodePforBitmapInterleaved mem p prev := by
  rw [decodePforBitmapInterleavedSse2, decodePforBitmapInterleaved, decodePforBitmapBlock]
  dsimp only
  cases hexceptions : decodePforBitmapExceptions mem (p + 1) 128 with
  | error fault => rfl
  | ok res =>
      obtain ⟨out, q⟩ := res
      have hout := length_decodePforBitmapExceptions hexceptions
      change decodeBitmapSse2 true true mem q _ out prev = if _ then _ else _
      rw [decodeBitmapSse2_eq mem true true q (Nat.le_of_lt h) (fun _ => h) out fun _ => hout,
        if_neg (Nat.not_le.mpr h)]
      rfl

/-- The exceptions of a varbyte block change the values in place. -/
theorem length_foldl_modify_or (w : UInt32) (l : List (UInt32 × ℕ)) (out : List UInt32) :
    (l.foldl (fun out (e, idx) => out.modify idx (· ||| e <<< w)) out).length = out.length := by
  induction l generalizing out with
  | nil => rfl
  | cons a l ih => rw [List.foldl_cons, ih, List.length_modify]

theorem decodePforVbInterleavedSse2_eq (h : (mem p &&& 0x3f).toNat < 32) (out : List UInt32)
    (prev : UInt32) :
    decodePforVbInterleavedSse2 mem p out prev = decodePforVbInterleaved mem p prev := by
  have hbase := decodeBitmapSse2_eq mem false false (p + 2) (Nat.le_of_lt h) nofun out
    nofun prev
  have hshift : ¬(32 < (mem p &&& 0x3f).toNat ∨
      (mem p &&& 0x3f).toNat = 32 ∧ (mem (p + 1)).toNat ≠ 0) := by omega
  have hshift' : ¬(32 ≤ (mem p &&& 0x3f).toNat ∧ (mem (p + 1)).toNat ≠ 0) := by omega
  rw [decodePforVbInterleavedSse2, hbase, decodePforVbInterleaved, decodePforVbBlock]
  dsimp only
  rw [if_neg hshift]
  change (if _ then _ else _) = _
  rw [if_neg hshift']
  split
  · rfl
  · change (readVbExceptions mem (p + 2 + _) _ >>= _) = (readVbExceptions mem (p + 2 + _) _ >>= _)
    cases readVbExceptions mem (p + 2 + bytesForPackedBits 128 (mem p &&& 0x3f).toNat)
        (mem (p + 1)).toNat with
    | error fault => rfl
    | ok res =>
        obtain ⟨exceptions, q⟩ := res
        change (if _ then _ else _) = if _ then _ else _
        split
        · rfl
        · refine congrArg (fun docids => Except.ok (docids, _)) ?_
          apply deltaDecodeVectors_eq
          rw [length_foldl_modify_or]
          exact length_readInterleaved 128 0 _

/-- The vector versions decode every input to the words and the end of the portable versions. -/
theorem sse2_eq_generic (mem : Memory) (p : ℕ) (out : List UInt32) (prev : UInt32) :
    ((mem p &&& 0x3f).toNat ≤ 32 →
      decodeForInterleavedSse2 mem p out prev = decodeForInterleaved mem p prev) ∧
    ((mem p &&& 0x3f).toNat ≤ 31 →
      decodePforBitmapInterleavedSse2 mem p prev = decodePforBitmapInterleaved mem p prev ∧
      decodePforVbInterleavedSse2 mem p out prev = decodePforVbInterleaved mem p prev) :=
  ⟨fun h => decodeForInterleavedSse2_eq h out prev, fun h =>
    ⟨decodePforBitmapInterleavedSse2_eq (Nat.lt_succ_of_le h) prev,
      decodePforVbInterleavedSse2_eq (Nat.lt_succ_of_le h) out prev⟩⟩

/-- A block of values of five bits with two exceptions, of two bytes and of one. -/
def mixedBytes : Memory
  | 0 => 5
  | 1 => 2
  | 82 => 180
  | 83 => 7
  | 84 => 9
  | 85 => 127
  | 86 => 3
  | a => UInt8.ofNat (37 * a + 5)

theorem sse2_eq_generic_mixedBytes :
    (decodeForInterleavedSse2 mixedBytes 0 [] 7 = decodeForInterleaved mixedBytes 0 7 ∧
      decodePforBitmapInterleavedSse2 mixedBytes 0 7 = decodePforBitmapInterleaved mixedBytes 0 7 ∧
      decodePforVbInterleavedSse2 mixedBytes 0 [] 7 = decodePforVbInterleaved mixedBytes 0 7) ∧
    ((decodeForInterleaved mixedBytes 0 7).isOk ∧
      (decodePforBitmapInterleaved mixedBytes 0 7).isOk ∧
      (decodePforVbInterleaved mixedBytes 0 7).isOk) :=
  ⟨⟨(sse2_eq_generic mixedBytes 0 [] 7).1 (by decide),
    (sse2_eq_generic mixedBytes 0 [] 7).2 (by decide)⟩, by decide +kernel⟩

end Blocks

end Flocate
