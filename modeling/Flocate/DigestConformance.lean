import Flocate.Lib.Xxh64
import Flocate.MetadataHash

/-!
# Where the digest of `XxHash64State` is XXH64

The streaming state agrees with XXH64 on stripes, short lanes and final mix. Its step for a
remaining 8-byte lane leaves the rotation by 27 out, so the two agree on all inputs of a length
exactly when no such lane remains.
-/

namespace Flocate

open Bytes Word64

namespace XxHash64State

theorem prime1_eq : prime1 = XXH64.prime1 := by decide
theorem prime2_eq : prime2 = XXH64.prime2 := by decide
theorem prime3_eq : prime3 = XXH64.prime3 := by decide
theorem prime4_eq : prime4 = XXH64.prime4 := by decide
theorem prime5_eq : prime5 = XXH64.prime5 := by decide

theorem xxhashRound_eq (acc input : UInt64) : xxhashRound acc input = XXH64.round acc input := by
  rw [xxhashRound, XXH64.round, prime1_eq, prime2_eq]

theorem xxhashMergeRound_eq (acc val : UInt64) :
    xxhashMergeRound acc val = XXH64.mergeAccumulator acc val := by
  rw [xxhashMergeRound, XXH64.mergeAccumulator, xxhashRound_eq, prime1_eq, prime4_eq]

theorem avalanche_eq (hash : UInt64) : avalanche hash = XXH64.finalMix hash := by
  rw [avalanche, XXH64.finalMix, prime2_eq, prime3_eq]

theorem read64_eq (p : Str) : read64 p = XXH64.lane 8 p := rfl

def accumulators (s : XxHash64State) : XXH64.Accumulators := ⟨s.v1, s.v2, s.v3, s.v4⟩

theorem accumulators_reset (n : UInt64) :
    accumulators { reset 0 with totalLen := n } = XXH64.initial 0 := by
  simp only [accumulators, reset, XXH64.initial, prime1_eq, prime2_eq, UInt64.add_zero]

theorem accumulators_rounds (s : XxHash64State) (p : Str) :
    (s.rounds p).accumulators = s.accumulators.stripe p := by
  simp only [accumulators, rounds, XXH64.Accumulators.stripe, xxhashRound_eq, read64_eq]

theorem totalLen_mk (n v1 v2 v3 v4 : UInt64) (m : Str) :
    (XxHash64State.mk n v1 v2 v3 v4 m).totalLen = n := rfl

-- `rfl` on the whole statement would compare the lanes first and unfold products of words
theorem totalLen_rounds (s : XxHash64State) (p : Str) : (s.rounds p).totalLen = s.totalLen := by
  rw [rounds, totalLen_mk]

theorem consumeStripes_eq (s : XxHash64State) (p : Str) :
    (consumeStripes s p).1.accumulators = (XXH64.stripes s.accumulators p).1 ∧
      (consumeStripes s p).2 = (XXH64.stripes s.accumulators p).2 ∧
      (consumeStripes s p).1.totalLen = s.totalLen := by
  induction s, p using consumeStripes.induct with
  | case1 s p hl ih =>
      obtain ⟨ha, hp, ht⟩ := ih
      rw [consumeStripes, if_pos hl, XXH64.stripes, if_pos hl, ← accumulators_rounds]
      exact ⟨ha, hp, ht.trans (totalLen_rounds s p)⟩
  | case2 s p hl =>
      rw [consumeStripes, if_neg hl, XXH64.stripes, if_neg hl]
      exact ⟨rfl, rfl, rfl⟩

theorem digestStart_eq (s : XxHash64State) :
    s.digestStart = if s.totalLen ≥ 32 then s.accumulators.converge else XXH64.prime5 := by
  simp only [digestStart, xxhashMergeRound_eq, prime5_eq, XXH64.Accumulators.converge,
    accumulators]

theorem digestBytes_eq (hash : UInt64) (p : Str) :
    digestBytes hash p = XXH64.remaining1 hash p := by
  induction p generalizing hash with
  | nil => rfl
  | cons b p ih =>
      have hb : b.toUInt64 = UInt64.ofNat b.toNat := (UInt64.ofNat_uInt8ToNat b).symm
      rw [digestBytes, XXH64.remaining1, ih, prime1_eq, prime5_eq, hb]

theorem toUInt64_read32 (p : Str) : (read32 p).toUInt64 = XXH64.lane 4 p := by
  have hb : leNat (p.take 4) < 2 ^ 32 := by
    calc leNat (p.take 4) < 256 ^ (p.take 4).length := leNat_lt _
      _ ≤ 256 ^ 4 := Nat.pow_le_pow_right (by omega) (by rw [List.length_take]; omega)
      _ = 2 ^ 32 := by norm_num
  apply UInt64.toNat_inj.mp
  simp only [read32, XXH64.lane, UInt32.toNat_toUInt64, UInt32.toNat_ofNat', UInt64.toNat_ofNat']
  omega

theorem digestHalf_eq (hash : UInt64) (p : Str) : digestHalf hash p = XXH64.remaining4 hash p := by
  rw [digestHalf, XXH64.remaining4, toUInt64_read32, prime1_eq, prime2_eq, prime3_eq]

theorem digest_eq (s : XxHash64State) :
    s.digest =
      let r := digestWords (s.digestStart + s.totalLen) s.memory
      XXH64.finish r.1 r.2 := by
  simp only [digest, XXH64.finish, digestHalf_eq, digestBytes_eq, avalanche_eq]

theorem digest_congr {s : XxHash64State} {a : XXH64.Accumulators} {n : UInt64} {m : Str}
    (ha : s.accumulators = a) (hn : s.totalLen = n) (hm : s.memory = m) :
    s.digest =
      let acc := if n ≥ 32 then a.converge else XXH64.prime5
      let r := digestWords (acc + n) m
      XXH64.finish r.1 r.2 := by
  subst ha hn hm
  rw [digest_eq, digestStart_eq]

/-- The digest in the specification's terms; only `digestWords` is the source's own. -/
theorem digest_consume (data : Str) (h : data.length < 2 ^ 64) :
    ((reset 0).consume data).digest =
      let a := XXH64.stripes (XXH64.initial 0) data
      let acc := if data.length < 32 then 0 + XXH64.prime5 else a.1.converge
      let r := digestWords (acc + UInt64.ofNat data.length) a.2
      XXH64.finish r.1 r.2 := by
  have hlen : (UInt64.ofNat data.length).toNat = data.length := UInt64.toNat_ofNat_of_lt' h
  have hge : UInt64.ofNat data.length ≥ 32 ↔ 32 ≤ data.length := by
    rw [ge_iff_le, UInt64.le_iff_toNat_le, hlen]
    exact Iff.rfl
  let s₀ : XxHash64State := { reset 0 with totalLen := UInt64.ofNat data.length }
  have h₀ : s₀.accumulators = XXH64.initial 0 := accumulators_reset _
  by_cases hl : data.length < 32
  · have hs : (reset 0).consume data = { s₀ with memory := data } := by
      simp [consume, reset, hl, s₀]
    have hn : ¬ UInt64.ofNat data.length ≥ 32 := fun hc => absurd (hge.mp hc) (Nat.not_le.mpr hl)
    rw [hs, digest_congr (s := { s₀ with memory := data }) (n := UInt64.ofNat data.length)
      (m := data) h₀ rfl rfl, XXH64.stripes, if_neg (Nat.not_le.mpr hl)]
    simp only [if_neg hn, if_pos hl, UInt64.zero_add]
  · have hs : (reset 0).consume data =
        { (consumeStripes s₀ data).1 with memory := (consumeStripes s₀ data).2 } := by
      simp [consume, reset, hl, s₀]
    obtain ⟨ha, hp, ht⟩ := consumeStripes_eq s₀ data
    rw [h₀] at ha hp
    have hn : UInt64.ofNat data.length ≥ 32 := hge.mpr (Nat.not_lt.mp hl)
    rw [hs, digest_congr (s := { (consumeStripes s₀ data).1 with
      memory := (consumeStripes s₀ data).2 }) ha ht hp]
    simp only [s₀, if_pos hn, if_neg hl]

theorem digestWords_of_lt (hash : UInt64) {p : Str} (h : p.length < 8) :
    digestWords hash p = (hash, p) := by
  rw [digestWords, if_neg (by omega)]

theorem digestWords_lane (hash : UInt64) {l : Str} (hl : l.length = 8) (rest : Str) :
    digestWords hash (l ++ rest) =
      digestWords ((hash ^^^ XXH64.round 0 (XXH64.lane 8 l)) * XXH64.prime1 + XXH64.prime4)
        rest := by
  have hread : read64 (l ++ rest) = XXH64.lane 8 l := by
    rw [read64, XXH64.lane, List.take_append_of_le_length (by omega)]
  rw [digestWords, if_pos (by rw [List.length_append]; omega), hread, List.drop_left' hl,
    prime1_eq, prime2_eq, prime4_eq, XXH64.round, UInt64.zero_add]

theorem digest_eq_hash_of_mod_lt {data : Str} (h : data.length < 2 ^ 64)
    (hm : data.length % 32 < 8) : ((reset 0).consume data).digest = XXH64.hash 0 data := by
  have hr := XXH64.stripes_snd_length (XXH64.initial 0) data
  rw [digest_consume data h, XXH64.hash_eq]
  simp only [digestWords_of_lt _ (hr ▸ hm), XXH64.remaining8_of_lt _ (hr ▸ hm)]

def smallLane (b : UInt8) : Str := b :: List.replicate 7 0

/-- Without the rotation the two steps cannot agree on both of these lanes: the first would force
one accumulator to be the rotation of the other, and the lane `1` is not its own rotation. -/
theorem lane_step_ne (x y : UInt64) : ∃ b,
    (x ^^^ XXH64.round 0 (XXH64.lane 8 (smallLane b))) * XXH64.prime1 + XXH64.prime4 ≠
      rotl (y ^^^ XXH64.round 0 (XXH64.lane 8 (smallLane b))) 27 * XXH64.prime1 + XXH64.prime4 := by
  by_contra! hall
  have h0 := XXH64.mul_prime1_injective (add_injective (hall 0))
  have h1 := XXH64.mul_prime1_injective (add_injective (hall 1))
  have hz : XXH64.round 0 (XXH64.lane 8 (smallLane 0)) = 0 := by decide
  rw [hz, UInt64.xor_zero, UInt64.xor_zero] at h0
  rw [rotl_xor y _ (by omega) (by omega), ← h0] at h1
  have h2 := congrArg (x ^^^ ·) h1
  simp only [← UInt64.xor_assoc, UInt64.xor_self, UInt64.zero_xor] at h2
  exact absurd h2 (by decide)

/-- Lanes before the last one only move the two accumulators. -/
theorem digestWords_ne_remaining8 (k : ℕ) (x y : UInt64) (rest : Str) (hr : rest.length < 8) :
    ∃ l : Str, l.length = 8 * (k + 1) ∧ ∃ u v : UInt64, u ≠ v ∧
      digestWords x (l ++ rest) = (u, rest) ∧ XXH64.remaining8 y (l ++ rest) = (v, rest) := by
  induction k generalizing x y with
  | zero =>
      obtain ⟨b, hb⟩ := lane_step_ne x y
      refine ⟨smallLane b, rfl, _, _, hb, ?_, ?_⟩
      · rw [digestWords_lane _ rfl, digestWords_of_lt _ hr]
      · rw [XXH64.remaining8_lane _ rfl, XXH64.remaining8_of_lt _ hr]
  | succ k ih =>
      obtain ⟨l, hl, u, v, huv, hu, hv⟩ := ih
        ((x ^^^ XXH64.round 0 (XXH64.lane 8 (smallLane 0))) * XXH64.prime1 + XXH64.prime4)
        (rotl (y ^^^ XXH64.round 0 (XXH64.lane 8 (smallLane 0))) 27 * XXH64.prime1 + XXH64.prime4)
      have hlen : (smallLane 0).length = 8 := rfl
      refine ⟨smallLane 0 ++ l, by rw [List.length_append, hlen, hl]; omega, u, v, huv, ?_, ?_⟩
      · rw [List.append_assoc, digestWords_lane _ hlen, hu]
      · rw [List.append_assoc, XXH64.remaining8_lane _ hlen, hv]

/-- Every length that leaves an 8-byte lane has an input on which the digests differ. -/
theorem exists_digest_ne_hash {n : ℕ} (h : n < 2 ^ 64) (hm : 8 ≤ n % 32) :
    ∃ data : Str, data.length = n ∧ ((reset 0).consume data).digest ≠ XXH64.hash 0 data := by
  let pre : Str := List.replicate (32 * (n / 32)) 0
  let a := (XXH64.stripes (XXH64.initial 0) pre).1
  let acc := (if n < 32 then 0 + XXH64.prime5 else a.converge) + UInt64.ofNat n
  obtain ⟨l, hl, u, v, huv, hu, hv⟩ := digestWords_ne_remaining8 (n % 32 / 8 - 1) acc acc
    (List.replicate (n % 8) 0) (by rw [List.length_replicate]; omega)
  let tail := l ++ List.replicate (n % 8) 0
  have ht : tail.length = n % 32 := by
    rw [List.length_append, hl, List.length_replicate]
    omega
  have hlen : (pre ++ tail).length = n := by
    rw [List.length_append, ht, List.length_replicate]
    omega
  have hs : XXH64.stripes (XXH64.initial 0) (pre ++ tail) = (a, tail) :=
    XXH64.stripes_append (n / 32) _ _ _ List.length_replicate (by rw [ht]; omega)
  refine ⟨pre ++ tail, hlen, fun heq => huv ?_⟩
  rw [digest_consume _ (hlen.symm ▸ h), XXH64.hash_eq] at heq
  simp only [hs, hlen] at heq
  change XXH64.finish (digestWords acc tail).1 (digestWords acc tail).2 =
    XXH64.finish (XXH64.remaining8 acc tail).1 (XXH64.remaining8 acc tail).2 at heq
  rw [hu, hv] at heq
  exact XXH64.finish_injective _ heq

end XxHash64State

namespace MetadataHashBuilder

theorem bigEndian64_eq (value : UInt64) : bigEndian64 value = XXH64.canonical value := by
  have hbyte (k : ℕ) (hk : k < 8) : (value >>> UInt64.ofNat (8 * k)).toUInt8 =
      UInt8.ofNat (value.toNat / 256 ^ k) := by
    apply UInt8.toNat_inj.mp
    rw [UInt64.toNat_toUInt8, UInt64.toNat_shiftRight, UInt64.toNat_ofNat', UInt8.toNat_ofNat',
      Nat.shiftRight_eq_div_pow, show (256 : ℕ) = 2 ^ 8 from rfl, ← Nat.pow_mul]
    congr 2
    rw [Nat.mod_mod_of_dvd _ (by decide), Nat.mod_eq_of_lt (by omega)]
  simp only [bigEndian64, XXH64.canonical, leBytes, List.range, List.range.loop, List.map_cons,
    List.map_nil, List.reverse_cons, List.reverse_nil, List.nil_append, List.cons_append,
    Nat.div_div_eq_div_mul]
  simp only [List.cons.injEq, and_true]
  exact ⟨hbyte 7 (by omega), hbyte 6 (by omega), hbyte 5 (by omega), hbyte 4 (by omega),
    hbyte 3 (by omega), hbyte 2 (by omega), hbyte 1 (by omega), by simp⟩

/-- `update` skips an empty string, on which `consume` would do nothing either. -/
theorem finalize_update_xxHash64 (data : Str) :
    ((new .xxHash64).update data).finalize =
      .ofDigest .xxHash64 (bigEndian64 ((XxHash64State.reset 0).consume data).digest) := by
  by_cases h : data = []
  · subst h
    have hc : (XxHash64State.reset 0).consume [] = XxHash64State.reset 0 := by
      simp [XxHash64State.consume, XxHash64State.reset]
    rw [hc]
    rfl
  · have hl : data.length ≠ 0 := fun hz => h (List.length_eq_zero_iff.mp hz)
    simp [new, update, finalize, finalizeXxh64, hl]

end MetadataHashBuilder

/-- A single `update` conforms to XXH64 on every string of a given length, a `size_t`, exactly when
that length leaves no 8-byte lane after the last stripe. -/
theorem finalize_xxHash64_conforms_iff (n : ℕ) (h : n < 2 ^ 64) :
    (∀ data : Str, data.length = n →
      ((MetadataHashBuilder.new .xxHash64).update data).finalize =
        .ofDigest .xxHash64 (XXH64.canonical (XXH64.hash 0 data))) ↔ n % 32 < 8 := by
  constructor
  · intro hall
    by_contra hm
    obtain ⟨data, hl, hne⟩ := XxHash64State.exists_digest_ne_hash h (Nat.not_lt.mp hm)
    have heq := congrArg MetadataHash.digest (hall data hl)
    rw [MetadataHashBuilder.finalize_update_xxHash64, MetadataHashBuilder.bigEndian64_eq,
      MetadataHash.digest_ofDigest _ _ (by simp [XXH64.canonical]),
      MetadataHash.digest_ofDigest _ _ (by simp [XXH64.canonical])] at heq
    exact hne (XXH64.canonical_injective heq)
  · rintro hm data rfl
    rw [MetadataHashBuilder.finalize_update_xxHash64, MetadataHashBuilder.bigEndian64_eq,
      XxHash64State.digest_eq_hash_of_mod_lt h hm]

theorem finalize_xxHash64_conforms_three : 3 % 32 < 8 ∧ ∀ data : Str, data.length = 3 →
    ((MetadataHashBuilder.new .xxHash64).update data).finalize =
      .ofDigest .xxHash64 (XXH64.canonical (XXH64.hash 0 data)) :=
  ⟨by decide, (finalize_xxHash64_conforms_iff 3 (by decide)).mpr (by decide)⟩

/-- The text `12345678` is one 8-byte lane. -/
theorem finalize_xxHash64_not_conforms :
    ((MetadataHashBuilder.new .xxHash64).update [49, 50, 51, 52, 53, 54, 55, 56]).finalize ≠
      .ofDigest .xxHash64 (XXH64.canonical (XXH64.hash 0 [49, 50, 51, 52, 53, 54, 55, 56])) := by
  intro h
  have heq := congrArg MetadataHash.digest h
  rw [MetadataHashBuilder.finalize_update_xxHash64, MetadataHashBuilder.bigEndian64_eq,
    MetadataHash.digest_ofDigest _ _ (by simp [XXH64.canonical]),
    MetadataHash.digest_ofDigest _ _ (by simp [XXH64.canonical])] at heq
  have hd := XXH64.canonical_injective heq
  have hs : XXH64.stripes (XXH64.initial 0) [49, 50, 51, 52, 53, 54, 55, 56] =
      (XXH64.initial 0, [49, 50, 51, 52, 53, 54, 55, 56] ++ []) := by
    rw [XXH64.stripes, if_neg (by decide), List.append_nil]
  rw [XxHash64State.digest_consume _ (by decide), XXH64.hash_eq] at hd
  simp only [hs] at hd
  rw [XxHash64State.digestWords_lane _ rfl, XxHash64State.digestWords_of_lt _ (by decide),
    XXH64.remaining8_lane _ rfl, XXH64.remaining8_of_lt _ (by decide)] at hd
  exact absurd (XXH64.finish_injective _ hd) (by decide)

end Flocate
