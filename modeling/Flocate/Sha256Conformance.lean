import Flocate.DigestConformance
import Flocate.Lib.BlockStream
import Flocate.Lib.Sha256
import Mathlib.Data.List.GetD

/-!
# The digest of `Sha256State` is SHA-256

The state of the builder is the hash value after the whole blocks of what it has been given, and the
bytes behind them. Each call of `consume` keeps this, however the message is cut, and `finalize`
adds the padding in the buffer, which makes one block or two.
-/

namespace Flocate

open Bytes

namespace Sha256State

theorem toBitVec_rotr32 (value bits : UInt32) (h0 : 0 < bits.toNat) (h : bits.toNat < 32) :
    (rotr32 value bits).toBitVec = value.toBitVec.rotateRight bits.toNat := by
  have hbits : (bits.toBitVec % 32).toNat = bits.toNat := by
    rw [BitVec.toNat_umod]
    exact Nat.mod_eq_of_lt h
  have hrest : ((32 - bits).toBitVec % 32).toNat = 32 - bits.toNat := by
    have hle : bits ≤ 32 := UInt32.le_iff_toNat_le.mpr (Nat.le_of_lt h)
    rw [BitVec.toNat_umod, UInt32.toNat_toBitVec, UInt32.toNat_sub_of_le _ _ hle]
    exact Nat.mod_eq_of_lt (Nat.sub_lt (by decide) h0)
  rw [rotr32, UInt32.toBitVec_or, UInt32.toBitVec_shiftLeft, UInt32.toBitVec_shiftRight,
    BitVec.rotateRight_def, Nat.mod_eq_of_lt h, BitVec.shiftLeft_eq', BitVec.ushiftRight_eq', hbits,
    hrest]

def words (h : Vector UInt32 8) : SHA256.State where
  a := (h.get 0).toBitVec
  b := (h.get 1).toBitVec
  c := (h.get 2).toBitVec
  d := (h.get 3).toBitVec
  e := (h.get 4).toBitVec
  f := (h.get 5).toBitVec
  g := (h.get 6).toBitVec
  h := (h.get 7).toBitVec

theorem words_reset : words reset.h = SHA256.State.initial := by
  decide +kernel

theorem map_sha256K : sha256K.map UInt32.toBitVec = SHA256.constants := by
  decide +kernel

theorem toBitVec_smallSigma0 (x : UInt32) :
    (rotr32 x 7 ^^^ rotr32 x 18 ^^^ x >>> 3).toBitVec = SHA256.smallSigma0 x.toBitVec := by
  simp (disch := decide) only [UInt32.toBitVec_xor, toBitVec_rotr32, UInt32.reduceToNat]
  rfl

theorem toBitVec_smallSigma1 (x : UInt32) :
    (rotr32 x 17 ^^^ rotr32 x 19 ^^^ x >>> 10).toBitVec = SHA256.smallSigma1 x.toBitVec := by
  simp (disch := decide) only [UInt32.toBitVec_xor, toBitVec_rotr32, UInt32.reduceToNat]
  rfl

theorem toBitVec_bigSigma0 (x : UInt32) :
    (rotr32 x 2 ^^^ rotr32 x 13 ^^^ rotr32 x 22).toBitVec = SHA256.bigSigma0 x.toBitVec := by
  simp (disch := decide) only [UInt32.toBitVec_xor, toBitVec_rotr32, UInt32.reduceToNat]
  rfl

theorem toBitVec_bigSigma1 (x : UInt32) :
    (rotr32 x 6 ^^^ rotr32 x 11 ^^^ rotr32 x 25).toBitVec = SHA256.bigSigma1 x.toBitVec := by
  simp (disch := decide) only [UInt32.toBitVec_xor, toBitVec_rotr32, UInt32.reduceToNat]
  rfl

theorem words_processRound (v : Vector UInt32 8) (k w : UInt32) :
    words (processRound v k w) = (words v).round k.toBitVec w.toBitVec := by
  rw [SHA256.State.round, words, words, ← toBitVec_bigSigma0, ← toBitVec_bigSigma1]
  rfl

theorem words_zipWith_add (v w : Vector UInt32 8) :
    words (Vector.zipWith (· + ·) v w) = (words w).add (words v) := by
  have hget (i : Fin 8) :
      ((Vector.zipWith (· + ·) v w).get i).toBitVec = (w.get i).toBitVec + (v.get i).toBitVec := by
    have hsum : (Vector.zipWith (· + ·) v w).get i = v.get i + w.get i :=
      Vector.getElem_zipWith i.isLt
    rw [hsum, UInt32.toBitVec_add, BitVec.add_comm]
  simp only [words, hget, SHA256.State.add]

/-- The four bytes of a word, most significant first. -/
theorem toBitVec_bigEndian (a b c d : UInt8) :
    (a.toUInt32 <<< 24 ||| b.toUInt32 <<< 16 ||| c.toUInt32 <<< 8 ||| d.toUInt32).toBitVec =
      BitVec.ofNat 32 (SHA256.beNat [a, b, c, d]) := by
  have ha := a.toNat_lt
  have hb := b.toNat_lt
  have hc := c.toNat_lt
  have hd := d.toNat_lt
  have hor {x y k : ℕ} (hy : y < 2 ^ k) : x * 2 ^ k ||| y = x * 2 ^ k + y := by
    rw [← Nat.shiftLeft_eq, Nat.shiftLeft_add_eq_or_of_lt hy]
  have hshift {x : UInt8} {k : UInt32} (hk : k.toNat ≤ 24) :
      (x.toUInt32 <<< k).toNat = x.toNat * 2 ^ k.toNat := by
    rw [UInt32.toNat_shiftLeft, UInt8.toNat_toUInt32, Nat.shiftLeft_eq,
      Nat.mod_eq_of_lt (Nat.lt_of_le_of_lt hk (by decide))]
    apply Nat.mod_eq_of_lt
    calc x.toNat * 2 ^ k.toNat < 2 ^ 8 * 2 ^ k.toNat :=
          Nat.mul_lt_mul_of_pos_right x.toNat_lt (Nat.two_pow_pos _)
      _ ≤ 2 ^ 8 * 2 ^ 24 := Nat.mul_le_mul_left _ (Nat.pow_le_pow_right (by decide) hk)
  apply BitVec.eq_of_toNat_eq
  simp (disch := decide) only [UInt32.toNat_toBitVec, UInt32.toNat_or, hshift, UInt32.reduceToNat,
    UInt8.toNat_toUInt32]
  rw [Nat.or_assoc, Nat.or_assoc, hor hd, hor (k := 16) (by omega), hor (k := 24) (by omega)]
  simp only [SHA256.beNat, List.reverse_cons, List.reverse_nil, List.nil_append, List.cons_append,
    leNat_cons, leNat_nil, BitVec.toNat_ofNat]
  omega

theorem toBitVec_blockWord {block : Str} (h : 64 ≤ block.length) {t : ℕ} (ht : t < 16) :
    (blockWord block t).toBitVec = SHA256.messageWord (block.take 64) t := by
  have hbytes : ((block.take 64).drop (4 * t)).take 4 = [block.getD (t * 4) 0,
      block.getD (t * 4 + 1) 0, block.getD (t * 4 + 2) 0, block.getD (t * 4 + 3) 0] := by
    apply List.ext_getElem
    · simp only [List.length_take, List.length_drop, List.length_cons, List.length_nil]
      omega
    · intro i hi hi'
      rw [List.getElem_take, List.getElem_drop, List.getElem_take]
      have hget (k : ℕ) (hk : k < 4) : block.getD (t * 4 + k) 0 = block.getD (4 * t + k) 0 := by
        rw [Nat.mul_comm]
      obtain rfl | rfl | rfl | rfl : i = 0 ∨ i = 1 ∨ i = 2 ∨ i = 3 := by
        simp only [List.length_cons, List.length_nil] at hi'
        omega
      all_goals simp only [List.getElem_cons_zero, List.getElem_cons_succ, Nat.mul_comm t 4]
      all_goals exact (List.getD_eq_getElem _ _ _).symm
  rw [blockWord, toBitVec_bigEndian, SHA256.messageWord, hbytes]

theorem toBitVec_getD {w : List UInt32} {n : ℕ} {f : ℕ → SHA256.Word}
    (h : w.map UInt32.toBitVec = (List.range n).map f) {i : ℕ} (hi : i < n) :
    (w.getD i 0).toBitVec = f i := by
  have hget : (w.map UInt32.toBitVec)[i]? = some (f i) := by
    rw [h, List.getElem?_map, List.getElem?_range hi]
    rfl
  rw [List.getElem?_map] at hget
  obtain ⟨x, hx, hfx⟩ := Option.map_eq_some_iff.mp hget
  rw [List.getD_eq_getElem?_getD, hx]
  exact hfx

/-- One word more of the schedule. -/
theorem map_scheduleWord {block : Str} {w : List UInt32} {n : ℕ} (hn : 16 ≤ n)
    (h : w.map UInt32.toBitVec = (List.range n).map (SHA256.scheduleWord block)) :
    (scheduleWord w).map UInt32.toBitVec =
      (List.range (n + 1)).map (SHA256.scheduleWord block) := by
  have hlength : w.length = n := by
    have hlength := congrArg List.length h
    rwa [List.length_map, List.length_map, List.length_range] at hlength
  have hword : SHA256.scheduleWord block n =
      SHA256.smallSigma1 (SHA256.scheduleWord block (n - 2)) +
        SHA256.scheduleWord block (n - 7) +
        SHA256.smallSigma0 (SHA256.scheduleWord block (n - 15)) +
        SHA256.scheduleWord block (n - 16) := by
    rw [SHA256.scheduleWord, if_neg (Nat.not_lt.mpr hn)]
  rw [scheduleWord, List.map_append, h, List.range_succ, List.map_append, List.map_singleton,
    List.map_singleton, hword, hlength]
  rw [UInt32.toBitVec_add, UInt32.toBitVec_add, UInt32.toBitVec_add, toBitVec_smallSigma0,
    toBitVec_smallSigma1]
  rw [toBitVec_getD h (i := n - 16) (by omega), toBitVec_getD h (i := n - 15) (by omega),
    toBitVec_getD h (i := n - 7) (by omega), toBitVec_getD h (i := n - 2) (by omega)]
  ac_rfl

theorem map_schedule {block : Str} (h : 64 ≤ block.length) :
    (schedule block).map UInt32.toBitVec =
      (List.range 64).map (SHA256.scheduleWord (block.take 64)) := by
  have hiterate (k : ℕ) : (scheduleWord^[k] ((List.range 16).map (blockWord block))).map
      UInt32.toBitVec = (List.range (16 + k)).map (SHA256.scheduleWord (block.take 64)) := by
    induction k with
    | zero =>
        rw [Function.iterate_zero, id, List.map_map]
        apply List.map_congr_left
        intro t ht
        rw [Function.comp, toBitVec_blockWord h (List.mem_range.mp ht), SHA256.scheduleWord,
          if_pos (List.mem_range.mp ht)]
    | succ k ih =>
        rw [Function.iterate_succ_apply']
        exact map_scheduleWord (Nat.le_add_right 16 k) ih
  exact hiterate 48

theorem words_processBlock (s : Sha256State) {block : Str} (h : 64 ≤ block.length) :
    words (s.processBlock block).h = SHA256.compress (words s.h) (block.take 64) := by
  have hconstants : SHA256.constants = (List.range 64).map fun t => SHA256.constants.getD t 0 := by
    refine List.ext_getElem ?_ fun i hi hi' => ?_
    · rfl
    · rw [List.getElem_map, List.getElem_range, List.getD_eq_getElem _ _ hi]
  have hzip : (sha256K.zip (schedule block)).map (Prod.map UInt32.toBitVec UInt32.toBitVec) =
      (List.range 64).map fun t =>
        (SHA256.constants.getD t 0, SHA256.scheduleWord (block.take 64) t) := by
    rw [← List.zip_map, map_sha256K, map_schedule h]
    nth_rewrite 1 [hconstants]
    exact List.zip_map'
  have hrounds : words ((sha256K.zip (schedule block)).foldl
      (fun v p => processRound v p.1 p.2) s.h) =
      ((sha256K.zip (schedule block)).map (Prod.map UInt32.toBitVec UInt32.toBitVec)).foldl
        (fun v p => v.round p.1 p.2) (words s.h) := by
    rw [List.foldl_map]
    exact (List.foldl_hom words fun v p => (words_processRound v p.1 p.2).symm).symm
  rw [processBlock, words_zipWith_add, hrounds, hzip, List.foldl_map, SHA256.compress]

theorem consumeBlocks_spec (s : Sha256State) (p : Str) :
    feed SHA256.compress 64 (words s.h) p =
        (words (s.consumeBlocks p).1.h, (s.consumeBlocks p).2) ∧
      (s.consumeBlocks p).1.totalLen = s.totalLen ∧
      (s.consumeBlocks p).1.buffer = s.buffer := by
  induction s, p using consumeBlocks.induct with
  | case1 s p h ih =>
      rw [feed_of_length_le _ (by decide) _ h, ← words_processBlock s h, consumeBlocks, if_pos h]
      exact ih
  | case2 s p h =>
      rw [feed_of_length_lt _ _ (Nat.lt_of_not_le h), consumeBlocks, if_neg h]
      exact ⟨rfl, rfl, rfl⟩

/-- The state after a message: its whole blocks are in the hash value and the rest is buffered. -/
structure Holds (s : Sha256State) (message : Str) : Prop where
  fed : feed SHA256.compress 64 SHA256.State.initial message = (words s.h, s.buffer)
  totalLen : s.totalLen = UInt64.ofNat message.length

theorem Holds.reset : Holds reset [] where
  fed := by
    rw [feed_of_length_lt _ _ (by decide), words_reset]
    rfl
  totalLen := rfl

theorem Holds.length_buffer {s : Sha256State} {message : Str} (h : Holds s message) :
    s.buffer.length = message.length % 64 := by
  have hlength := length_feed SHA256.compress (n := 64) (by decide) SHA256.State.initial message
  rwa [h.fed] at hlength

def fillBuffer (s : Sha256State) (data : Str) : Sha256State × Str :=
  if s.buffer.length > 0 then
    let fill := min (64 - s.buffer.length) data.length
    let s := { s with buffer := s.buffer ++ data.take fill }
    let s := if s.buffer.length = 64 then { s.processBlock s.buffer with buffer := [] } else s
    (s, data.drop fill)
  else (s, data)

theorem consume_eq (s : Sha256State) (data : Str) :
    s.consume data =
      let r := fillBuffer { s with totalLen := s.totalLen + UInt64.ofNat data.length } data
      let r := r.1.consumeBlocks r.2
      if r.2.length > 0 then { r.1 with buffer := r.2 } else r.1 := rfl

theorem fillBuffer_full {s : Sha256State} {data : Str} (h : 0 < s.buffer.length)
    (hs : s.buffer.length < 64) (hfull : 64 - s.buffer.length ≤ data.length) :
    (s.buffer ++ data.take (64 - s.buffer.length)).length = 64 ∧
      fillBuffer s data =
        ({ s.processBlock (s.buffer ++ data.take (64 - s.buffer.length)) with buffer := [] },
          data.drop (64 - s.buffer.length)) := by
  have hlength : (s.buffer ++ data.take (64 - s.buffer.length)).length = 64 := by
    rw [List.length_append, List.length_take]
    omega
  refine ⟨hlength, ?_⟩
  unfold fillBuffer
  dsimp only
  rw [if_pos h, Nat.min_eq_left hfull, if_pos hlength]
  rfl

theorem fillBuffer_part {s : Sha256State} {data : Str} (h : 0 < s.buffer.length)
    (hpart : s.buffer.length + data.length < 64) :
    fillBuffer s data = ({ s with buffer := s.buffer ++ data }, []) := by
  unfold fillBuffer
  dsimp only
  rw [if_pos h, Nat.min_eq_right (by omega), List.take_length, List.drop_length, if_neg]
  rw [List.length_append]
  exact Nat.ne_of_lt hpart

theorem fillBuffer_spec {s : Sha256State} (h : s.buffer.length < 64) (data : Str) :
    feed SHA256.compress 64 (words s.h) (s.buffer ++ data) =
        feed SHA256.compress 64 (words (fillBuffer s data).1.h)
          ((fillBuffer s data).1.buffer ++ (fillBuffer s data).2) ∧
      ((fillBuffer s data).1.buffer = [] ∨
        (fillBuffer s data).1.buffer.length < 64 ∧ (fillBuffer s data).2 = []) ∧
      (fillBuffer s data).1.totalLen = s.totalLen := by
  rcases Nat.eq_zero_or_pos s.buffer.length with hempty | hpos
  · rw [fillBuffer, if_neg (by omega)]
    exact ⟨rfl, Or.inl (List.length_eq_zero_iff.mp hempty), rfl⟩
  · rcases Nat.lt_or_ge (s.buffer.length + data.length) 64 with hpart | hfull
    · rw [fillBuffer_part hpos hpart, List.append_nil]
      refine ⟨rfl, Or.inr ⟨?_, rfl⟩, rfl⟩
      rw [List.length_append]
      exact hpart
    · obtain ⟨hlength, heq⟩ := fillBuffer_full hpos h (by omega : _ ≤ data.length)
      have hblock := words_processBlock s (Nat.le_of_eq hlength.symm)
      rw [List.take_of_length_le (Nat.le_of_eq hlength)] at hblock
      have hdata : s.buffer ++ data =
          s.buffer ++ data.take (64 - s.buffer.length) ++ data.drop (64 - s.buffer.length) := by
        rw [List.append_assoc, List.take_append_drop]
      rw [heq]
      refine ⟨?_, Or.inl rfl, rfl⟩
      rw [hdata, feed_block _ (by decide) _ hlength, ← hblock]
      rfl

theorem Holds.consume {s : Sha256State} {message : Str} (h : Holds s message) (data : Str) :
    Holds (s.consume data) (message ++ data) := by
  have hbuffer : s.buffer.length < 64 := h.length_buffer ▸ Nat.mod_lt _ (by decide)
  let s₁ : Sha256State := { s with totalLen := s.totalLen + UInt64.ofNat data.length }
  have hfed : feed SHA256.compress 64 SHA256.State.initial (message ++ data) =
      feed SHA256.compress 64 (words s₁.h) (s₁.buffer ++ data) := by
    rw [feed_append _ (by decide), h.fed]
  have hlen : s₁.totalLen = UInt64.ofNat (message ++ data).length := by
    rw [List.length_append, UInt64.ofNat_add, ← h.totalLen]
  obtain ⟨hfill, hrest, htotal⟩ := fillBuffer_spec (s := s₁) hbuffer data
  rw [hfill] at hfed
  rw [consume_eq]
  dsimp only
  change Holds (if ((fillBuffer s₁ data).1.consumeBlocks (fillBuffer s₁ data).2).2.length > 0 then _
    else _) _
  generalize fillBuffer s₁ data = r at *
  obtain ⟨hblocks, htotal', hbuffer'⟩ := consumeBlocks_spec r.1 r.2
  rw [hlen] at htotal
  rcases hrest with hnil | ⟨hshort, hnil⟩
  · rw [hnil, List.nil_append, hblocks] at hfed
    split
    · exact ⟨hfed, htotal'.trans htotal⟩
    · rename_i hempty
      have hq : (r.1.consumeBlocks r.2).2 = [] := List.length_eq_zero_iff.mp (by omega)
      refine ⟨?_, htotal'.trans htotal⟩
      rw [hfed, hq, hbuffer', hnil]
  · have hq : r.1.consumeBlocks r.2 = (r.1, []) := by
      rw [hnil, consumeBlocks, if_neg (by decide)]
    rw [hnil, List.append_nil, feed_of_length_lt _ _ hshort] at hfed
    rw [hq]
    dsimp only
    rw [List.length_nil, if_neg (Nat.lt_irrefl 0)]
    exact ⟨hfed, htotal⟩

/-- The bytes of a word, most significant first. -/
theorem bigEndian32_eq (v : UInt32) : bigEndian32 v = SHA256.beBytes 4 v.toNat := by
  have hbyte (k : UInt32) (hk : k.toNat < 32) :
      (v >>> k).toUInt8 = UInt8.ofNat (v.toNat / 2 ^ k.toNat) := by
    apply UInt8.toNat_inj.mp
    rw [UInt32.toNat_toUInt8, UInt32.toNat_shiftRight, UInt8.toNat_ofNat',
      Nat.shiftRight_eq_div_pow, Nat.mod_eq_of_lt hk]
  have hlast : v.toUInt8 = UInt8.ofNat v.toNat := by
    apply UInt8.toNat_inj.mp
    rw [UInt32.toNat_toUInt8, UInt8.toNat_ofNat']
  rw [bigEndian32, hbyte 24 (by decide), hbyte 16 (by decide), hbyte 8 (by decide), hlast]
  simp only [SHA256.beBytes, leBytes, List.reverse_cons, List.reverse_nil, List.nil_append,
    List.cons_append, Nat.div_div_eq_div_mul]
  rfl

theorem words_toList (h : Vector UInt32 8) :
    (words h).words = h.toList.map UInt32.toBitVec := by
  apply List.ext_getElem
  · rw [List.length_map, Vector.length_toList]
    rfl
  · intro i hi hi'
    rw [List.getElem_map, Vector.getElem_toList]
    obtain rfl | rfl | rfl | rfl | rfl | rfl | rfl | rfl : i = 0 ∨ i = 1 ∨ i = 2 ∨ i = 3 ∨ i = 4 ∨
        i = 5 ∨ i = 6 ∨ i = 7 := by
      change i < 8 at hi
      omega
    all_goals rfl

/-- The length that `finalize` appends. -/
theorem lengthBytes_eq {totalLen : UInt64} {length : ℕ} (h : totalLen = UInt64.ofNat length)
    (hlength : length < 2 ^ 61) :
    ((List.range 8).map fun i => ((totalLen * 8) >>> UInt64.ofNat ((7 - i) * 8)).toUInt8) =
      SHA256.beBytes 8 (8 * length) := by
  have hbits : (totalLen * 8).toNat = 8 * length := by
    rw [h, UInt64.toNat_mul, UInt64.toNat_ofNat_of_lt' (Nat.lt_trans hlength (by decide))]
    change length * 8 % 2 ^ 64 = 8 * length
    omega
  calc (List.range 8).map (fun i => ((totalLen * 8) >>> UInt64.ofNat ((7 - i) * 8)).toUInt8)
      = MetadataHashBuilder.bigEndian64 (totalLen * 8) := by
        apply List.map_congr_left
        intro i hi
        have hi := List.mem_range.mp hi
        rw [show (7 - i) * 8 = 56 - 8 * i by omega]
    _ = SHA256.beBytes 8 (totalLen * 8).toNat := MetadataHashBuilder.bigEndian64_eq _
    _ = SHA256.beBytes 8 (8 * length) := by rw [hbits]

/-- `finalize` where the padding fits in the block that the buffer is the beginning of. -/
theorem finalize_of_lt {s : Sha256State} {lengthBytes : Str} (h : s.buffer.length < 56)
    (hbytes : ((List.range 8).map fun i =>
      ((s.totalLen * 8) >>> UInt64.ofNat ((7 - i) * 8)).toUInt8) = lengthBytes) :
    s.finalize = (s.processBlock (s.buffer ++ [0x80] ++
      List.replicate (56 - (s.buffer.length + 1)) 0 ++ lengthBytes)).h.toList.flatMap
        bigEndian32 := by
  have hle : ¬(s.buffer ++ [0x80]).length > 56 := by
    rw [List.length_append]
    exact Nat.not_lt.mpr h
  unfold finalize
  dsimp only
  rw [if_neg hle, ← hbytes, List.length_append]
  rfl

/-- `finalize` where it takes a block more. -/
theorem finalize_of_le {s : Sha256State} {lengthBytes : Str} (h : 56 ≤ s.buffer.length)
    (hbytes : ((List.range 8).map fun i =>
      ((s.totalLen * 8) >>> UInt64.ofNat ((7 - i) * 8)).toUInt8) = lengthBytes) :
    s.finalize = ((s.processBlock (s.buffer ++ [0x80] ++
      List.replicate (64 - (s.buffer.length + 1)) 0)).processBlock
        (List.replicate 56 0 ++ lengthBytes)).h.toList.flatMap bigEndian32 := by
  have hlt : (s.buffer ++ [0x80]).length > 56 := by
    rw [List.length_append]
    exact Nat.lt_succ_of_le h
  unfold finalize
  dsimp only
  rw [if_pos hlt, ← hbytes, List.length_append]
  rfl

theorem feed_processBlock (s : Sha256State) {block : Str} (h : block.length = 64) (p : Str) :
    feed SHA256.compress 64 (words s.h) (block ++ p) =
      feed SHA256.compress 64 (words (s.processBlock block).h) p := by
  rw [feed_block _ (by decide) _ h, words_processBlock s (Nat.le_of_eq h.symm),
    List.take_of_length_le (Nat.le_of_eq h)]

/-- The last blocks are those of the padding. -/
theorem finalize_spec {s : Sha256State} {length : ℕ} (hbuffer : s.buffer.length = length % 64)
    (htotal : s.totalLen = UInt64.ofNat length) (hlength : length < 2 ^ 61) :
    ∃ t : Sha256State, s.finalize = t.h.toList.flatMap bigEndian32 ∧
      feed SHA256.compress 64 (words s.h) (s.buffer ++ SHA256.padding length) =
        (words t.h, []) := by
  have hbytes := lengthBytes_eq htotal hlength
  have hlt : length % 64 < 64 := Nat.mod_lt _ (by decide)
  have hlast (t : Sha256State) : feed SHA256.compress 64 (words t.h) [] = (words t.h, []) :=
    feed_of_length_lt _ _ (by decide)
  have height : (SHA256.beBytes 8 (8 * length)).length = 8 := by
    rw [SHA256.beBytes, List.length_reverse, length_leBytes]
  rcases Nat.lt_or_ge s.buffer.length 56 with hshort | hlong
  · have hzeros : (119 - length % 64) % 64 = 56 - (s.buffer.length + 1) := by omega
    have hblock : s.buffer ++ SHA256.padding length = s.buffer ++ [0x80] ++
        List.replicate (56 - (s.buffer.length + 1)) 0 ++ SHA256.beBytes 8 (8 * length) ++ [] := by
      rw [SHA256.padding, hzeros]
      simp only [List.append_assoc, List.cons_append, List.nil_append, List.append_nil]
    refine ⟨_, finalize_of_lt hshort hbytes, ?_⟩
    rw [hblock, feed_processBlock, hlast]
    simp only [List.length_append, List.length_replicate, List.length_singleton, height]
    omega
  · have hzeros : (119 - length % 64) % 64 = 64 - (s.buffer.length + 1) + 56 := by omega
    have hblock : s.buffer ++ SHA256.padding length = s.buffer ++ [0x80] ++
        List.replicate (64 - (s.buffer.length + 1)) 0 ++
          (List.replicate 56 0 ++ SHA256.beBytes 8 (8 * length) ++ []) := by
      rw [SHA256.padding, hzeros, List.replicate_add]
      simp only [List.append_assoc, List.cons_append, List.nil_append, List.append_nil]
    refine ⟨_, finalize_of_le hlong hbytes, ?_⟩
    rw [hblock, feed_processBlock, feed_processBlock, hlast]
    · rw [List.length_append, List.length_replicate, height]
    · simp only [List.length_append, List.length_replicate, List.length_singleton]
      omega

theorem Holds.finalize {s : Sha256State} {message : Str} (h : Holds s message)
    (hlength : message.length < 2 ^ 61) : s.finalize = SHA256.hash message := by
  obtain ⟨t, ht, hfed⟩ := finalize_spec h.length_buffer h.totalLen hlength
  have hblocks : (blocksOf 64 (message ++ SHA256.padding message.length)).foldl SHA256.compress
      SHA256.State.initial = words t.h := by
    have hfeed := feed_append SHA256.compress (n := 64) (by decide) SHA256.State.initial message
      (SHA256.padding message.length)
    rw [h.fed, hfed, feed_eq_foldl_blocksOf _ (by decide) _ _
      (SHA256.dvd_length_append_padding message)] at hfeed
    exact congrArg Prod.fst hfeed
  rw [ht, SHA256.hash, hblocks, words_toList, List.flatMap_map]
  congr 1
  funext v
  rw [bigEndian32_eq, UInt32.toNat_toBitVec]

end Sha256State

end Flocate
