import Flocate.Sha256Conformance

/-!
# Digests of a message in pieces

Either digest depends on the bytes that have come and not on how they were cut, since the state
after a message is given by its whole blocks and the rest.
-/

namespace Flocate

open Bytes Word64

namespace Sha256State

theorem words_injective {v w : Vector UInt32 8} (h : words v = words w) : v = w := by
  have hlist := congrArg SHA256.State.words h
  rw [words_toList, words_toList] at hlist
  apply Vector.toList_inj.mp
  exact List.map_injective_iff.mpr (fun _ _ => UInt32.toBitVec_inj.mp) hlist

theorem Holds.unique {s t : Sha256State} {message : Str} (hs : Holds s message)
    (ht : Holds t message) : s = t := by
  obtain ⟨hwords, hbuffer⟩ := Prod.mk.injEq .. ▸ hs.fed.symm.trans ht.fed
  have hh := words_injective hwords
  have htotal := hs.totalLen.trans ht.totalLen.symm
  cases s
  cases t
  congr

end Sha256State

namespace XxHash64State

theorem stripe_take (a : XXH64.Accumulators) (p : Str) : a.stripe (p.take 32) = a.stripe p := by
  have hlane (k : ℕ) (hk : k + 8 ≤ 32) :
      XXH64.lane 8 ((p.take 32).drop k) = XXH64.lane 8 (p.drop k) := by
    rw [XXH64.lane, XXH64.lane, List.drop_take, List.take_take, Nat.min_eq_left (by omega)]
  have hzero := hlane 0 (by omega)
  rw [List.drop_zero, List.drop_zero] at hzero
  simp only [XXH64.Accumulators.stripe, hzero, hlane 8 (by omega), hlane 16 (by omega),
    hlane 24 (by omega)]

theorem feed_consumeStripes (s : XxHash64State) (p : Str) :
    feed XXH64.Accumulators.stripe 32 s.accumulators p =
      ((consumeStripes s p).1.accumulators, (consumeStripes s p).2) := by
  induction s, p using consumeStripes.induct with
  | case1 s p h ih =>
      rw [feed_of_length_le _ (by decide) _ h, stripe_take, ← accumulators_rounds, consumeStripes,
        if_pos h]
      exact ih
  | case2 s p h =>
      rw [feed_of_length_lt _ _ (Nat.lt_of_not_le h), consumeStripes, if_neg h]

structure Holds (s : XxHash64State) (message : Str) : Prop where
  fed : feed XXH64.Accumulators.stripe 32 (XXH64.initial 0) message = (s.accumulators, s.memory)
  totalLen : s.totalLen = UInt64.ofNat message.length

theorem Holds.reset : Holds (reset 0) [] where
  fed := by
    rw [feed_of_length_lt _ _ (by decide)]
    exact Prod.ext (accumulators_reset 0).symm rfl
  totalLen := rfl

theorem Holds.length_memory {s : XxHash64State} {message : Str} (h : Holds s message) :
    s.memory.length = message.length % 32 := by
  have hlength := length_feed XXH64.Accumulators.stripe (n := 32) (by decide) (XXH64.initial 0)
    message
  rwa [h.fed] at hlength

theorem Holds.unique {s t : XxHash64State} {message : Str} (hs : Holds s message)
    (ht : Holds t message) : s = t := by
  obtain ⟨haccumulators, hmemory⟩ := Prod.mk.injEq .. ▸ hs.fed.symm.trans ht.fed
  have htotal := hs.totalLen.trans ht.totalLen.symm
  cases s
  cases t
  cases haccumulators
  congr

theorem Holds.consume {s : XxHash64State} {message : Str} (h : Holds s message) (data : Str) :
    Holds (s.consume data) (message ++ data) := by
  have hmemory : s.memory.length < 32 := h.length_memory ▸ Nat.mod_lt _ (by decide)
  let s₁ : XxHash64State := { s with totalLen := s.totalLen + UInt64.ofNat data.length }
  have hfed : feed XXH64.Accumulators.stripe 32 (XXH64.initial 0) (message ++ data) =
      feed XXH64.Accumulators.stripe 32 s₁.accumulators (s.memory ++ data) := by
    rw [feed_append _ (by decide), h.fed]
    rfl
  have hlen : s₁.totalLen = UInt64.ofNat (message ++ data).length := by
    rw [List.length_append, UInt64.ofNat_add, ← h.totalLen]
  by_cases hshort : s.memory.length + data.length < 32
  · have hconsume : s.consume data = { s₁ with memory := s.memory ++ data } := if_pos hshort
    rw [hconsume]
    have hrest := feed_of_length_lt XXH64.Accumulators.stripe s₁.accumulators (n := 32)
      (p := s.memory ++ data) (by rwa [List.length_append])
    exact ⟨hfed.trans hrest, hlen⟩
  · have hstart : ∃ s₂ p, s.consume data =
        { (consumeStripes s₂ p).1 with memory := (consumeStripes s₂ p).2 } ∧
        feed XXH64.Accumulators.stripe 32 s₁.accumulators (s.memory ++ data) =
          feed XXH64.Accumulators.stripe 32 s₂.accumulators p ∧ s₂.totalLen = s₁.totalLen := by
      rcases Nat.eq_zero_or_pos s.memory.length with hempty | hpos
      · refine ⟨s₁, data, ?_, ?_, rfl⟩
        · rw [XxHash64State.consume]
          dsimp only
          rw [if_neg hshort, if_neg (by omega)]
        · rw [List.length_eq_zero_iff.mp hempty]
          rfl
      · let fill := 32 - s.memory.length
        have hlength : (s.memory ++ data.take fill).length = 32 := by
          rw [List.length_append, List.length_take]
          omega
        refine ⟨s₁.rounds (s.memory ++ data.take fill), data.drop fill, ?_, ?_,
          totalLen_rounds _ _⟩
        · rw [XxHash64State.consume]
          dsimp only
          rw [if_neg hshort, if_pos hpos]
        · rw [accumulators_rounds, ← feed_block _ (by decide) _ hlength, List.append_assoc,
            List.take_append_drop]
    obtain ⟨s₂, p, hconsume, hfeed, htotal⟩ := hstart
    rw [hfeed, feed_consumeStripes] at hfed
    rw [hconsume]
    exact ⟨hfed, (consumeStripes_eq s₂ p).2.2.trans (htotal.trans hlen)⟩

end XxHash64State

namespace MetadataHashBuilder

structure Holds (b : MetadataHashBuilder) (message : Str) : Prop where
  unfinished : b.finished = false
  sha256 : b.kind = .sha256 → b.shaState.Holds message
  xxHash64 : b.kind = .xxHash64 → b.xxhState.Holds message

theorem Holds.new (kind : MetadataHashKind) : Holds (.new kind) [] :=
  ⟨rfl, fun _ => .reset, fun _ => .reset⟩

theorem kind_update (b : MetadataHashBuilder) (data : Str) : (b.update data).kind = b.kind := by
  unfold update
  split
  · rfl
  · split
    · rfl
    · split <;> rfl

theorem Holds.update {b : MetadataHashBuilder} {message : Str} (h : b.Holds message) (data : Str) :
    (b.update data).Holds (message ++ data) := by
  rcases Nat.eq_zero_or_pos data.length with hempty | hpos
  · have hupdate : b.update data = b := by
      rw [MetadataHashBuilder.update, if_pos]
      simp only [hempty, decide_true, Bool.or_true]
    rw [hupdate, List.length_eq_zero_iff.mp hempty, List.append_nil]
    exact h
  · have hne : data.length ≠ 0 := Nat.ne_of_gt hpos
    refine ⟨?_, fun hkind => ?_, fun hkind => ?_⟩
    · unfold MetadataHashBuilder.update
      split
      · exact h.unfinished
      · split
        · exact h.unfinished
        · split <;> exact h.unfinished
    · rw [kind_update] at hkind
      have hupdate : b.update data = { b with shaState := b.shaState.consume data } := by
        simp [MetadataHashBuilder.update, hkind, h.unfinished, hne]
      rw [hupdate]
      exact (h.sha256 hkind).consume data
    · rw [kind_update] at hkind
      have hupdate : b.update data = { b with xxhState := b.xxhState.consume data } := by
        simp [MetadataHashBuilder.update, hkind, h.unfinished, hne]
      rw [hupdate]
      exact (h.xxHash64 hkind).consume data

theorem Holds.foldl_update (chunks : List Str) {b : MetadataHashBuilder} {message : Str}
    (h : b.Holds message) :
    (chunks.foldl MetadataHashBuilder.update b).kind = b.kind ∧
      (chunks.foldl MetadataHashBuilder.update b).Holds (message ++ chunks.flatten) := by
  induction chunks generalizing b message with
  | nil =>
      rw [List.flatten_nil, List.append_nil]
      exact ⟨rfl, h⟩
  | cons chunk chunks ih =>
      rw [List.foldl_cons, List.flatten_cons, ← List.append_assoc, ← kind_update b chunk]
      exact ih (h.update chunk)

/-- The digest is the same however the message is cut. -/
theorem finalize_foldl_update (kind : MetadataHashKind) (chunks : List Str) :
    (chunks.foldl update (.new kind)).finalize =
      ((new kind).update chunks.flatten).finalize := by
  obtain ⟨hkind, hholds⟩ := (Holds.new kind).foldl_update chunks
  have hwhole := (Holds.new kind).update chunks.flatten
  have hkind' := kind_update (new kind) chunks.flatten
  rw [List.nil_append] at hholds hwhole
  unfold finalize
  rw [hkind, hkind']
  split
  · rename_i hxx
    rw [finalizeXxh64, finalizeXxh64,
      (hholds.xxHash64 (hkind.trans hxx)).unique (hwhole.xxHash64 (hkind'.trans hxx))]
  · split
    · rename_i hsha
      rw [finalizeSha256, finalizeSha256,
        (hholds.sha256 (hkind.trans hsha)).unique (hwhole.sha256 (hkind'.trans hsha))]
    · rfl

end MetadataHashBuilder

/-- A file has one XXH64 digest, however `read` splits it. -/
theorem finalize_xxHash64_foldl_update (chunks : List Str) :
    (chunks.foldl MetadataHashBuilder.update (.new .xxHash64)).finalize =
      ((MetadataHashBuilder.new .xxHash64).update chunks.flatten).finalize :=
  MetadataHashBuilder.finalize_foldl_update .xxHash64 chunks

/-- However a message is cut, the builder returns its SHA-256 digest. -/
theorem finalize_sha256_conforms (chunks : List Str) (h : chunks.flatten.length < 2 ^ 61) :
    (chunks.foldl MetadataHashBuilder.update (.new .sha256)).finalize =
      .ofDigest .sha256 (SHA256.hash chunks.flatten) := by
  obtain ⟨hkind, hholds⟩ := (MetadataHashBuilder.Holds.new .sha256).foldl_update chunks
  change _ = MetadataHashKind.sha256 at hkind
  rw [List.nil_append] at hholds
  rw [MetadataHashBuilder.finalize, hkind, if_neg (by decide), if_pos rfl,
    MetadataHashBuilder.finalizeSha256, (hholds.sha256 hkind).finalize h]

theorem finalize_sha256_conforms_abc :
    ([[0x61], [], [0x62, 0x63]].foldl MetadataHashBuilder.update (.new .sha256)).finalize =
      .ofDigest .sha256 (SHA256.hash [0x61, 0x62, 0x63]) :=
  finalize_sha256_conforms [[0x61], [], [0x62, 0x63]] (by decide)

example : ((MetadataHashBuilder.new .sha256).update (ascii "abc")).finalize.digest =
    [0xba, 0x78, 0x16, 0xbf, 0x8f, 0x01, 0xcf, 0xea, 0x41, 0x41, 0x40, 0xde, 0x5d, 0xae, 0x22,
      0x23, 0xb0, 0x03, 0x61, 0xa3, 0x96, 0x17, 0x7a, 0x9c, 0xb4, 0x10, 0xff, 0x61, 0xf2, 0x00,
      0x15, 0xad] := by
  decide +kernel

end Flocate
