import Flocate.TurbopforDecode

/-!
# Single values of variable length

The base value at the beginning of a posting list and the exceptions of a varbyte block are read
back as they were written.
-/

namespace Flocate

open Bytes

theorem toNat_or_add {x y : UInt32} (i : ℕ) (hx : 2 ^ i ∣ x.toNat) (hy : y.toNat < 2 ^ i) :
    (x ||| y).toNat = x.toNat + y.toNat := by
  obtain ⟨k, hk⟩ := hx
  rw [UInt32.toNat_or, hk, ← Nat.two_pow_add_eq_or_of_lt hy]

theorem toNat_shiftLeft_lit {x k : UInt32} (hk : k.toNat < 32)
    (hx : x.toNat * 2 ^ k.toNat < 2 ^ 32) : (x <<< k).toNat = x.toNat * 2 ^ k.toNat := by
  rw [UInt32.toNat_shiftLeft, Nat.mod_eq_of_lt hk, Nat.shiftLeft_eq, Nat.mod_eq_of_lt hx]

theorem toNat_shiftRight_lit (x : UInt32) {k : UInt32} (hk : k.toNat < 32) :
    (x >>> k).toNat = x.toNat / 2 ^ k.toNat := by
  rw [UInt32.toNat_shiftRight, Nat.mod_eq_of_lt hk, Nat.shiftRight_eq_div_pow]

theorem toNat_and_255 (x : UInt32) : (x &&& 0xff).toNat = x.toNat % 256 := by
  rw [UInt32.toNat_and]
  exact Nat.and_two_pow_sub_one_eq_mod _ 8

theorem toNat_toUInt8 {x : UInt32} (h : x.toNat < 256) : x.toUInt8.toNat = x.toNat := by
  rw [UInt32.toNat_toUInt8, Nat.mod_eq_of_lt h]

/-- Values are compared as numbers. -/
theorem ok_of_toNat {x y : UInt32} {p : ℕ} (h : x.toNat = y.toNat) :
    (.ok (x, p) : Except Fault (UInt32 × ℕ)) = .ok (y, p) := by
  rw [UInt32.toNat_inj.mp h]

section Varbyte

def vbBytes (val : UInt32) : Str :=
  if val ≤ 176 then [val.toUInt8]
  else if val ≤ 16560 then
    [((val - 177) >>> 8 + 177).toUInt8, ((val - 177) &&& 0xff).toUInt8]
  else if val ≤ 540848 then
    ((val - 16561) >>> 16 + 241).toUInt8 :: leBytes 2 ((val - 16561) &&& 0xffff).toNat
  else if val ≤ 16777215 then 249 :: leBytes 3 val.toNat
  else 250 :: leBytes 4 val.toNat

theorem writeVb_eq (val : UInt32) (mem : Memory) (out : ℕ) :
    Emits mem (writeVb val mem out).1 out (vbBytes val) ∧
      (writeVb val mem out).2 = out + (vbBytes val).length := by
  rw [writeVb, vbBytes]
  split_ifs
  · exact ⟨emits_writeBytes mem out [val.toUInt8] [], rfl⟩
  · exact ⟨emits_writeBytes mem out [_, _] [], rfl⟩
  · exact ⟨emits_writeBytes mem out [_, _, _] [], rfl⟩
  · exact ⟨emits_writeBytes mem out [_, _, _, _] [_], rfl⟩
  · exact ⟨emits_writeBytes mem out [_, _, _, _, _] [], rfl⟩

theorem toNat_vbHead2 {val : UInt32} (h1 : 177 ≤ val.toNat) (h2 : val.toNat ≤ 16560) :
    ((val - 177) >>> 8 + 177).toUInt8.toNat = (val.toNat - 177) / 256 + 177 := by
  have hsub : (val - 177).toNat = val.toNat - 177 :=
    UInt32.toNat_sub_of_le _ _ (UInt32.le_iff_toNat_le.mpr h1)
  have hshift : ((val - 177) >>> 8).toNat = (val.toNat - 177) / 256 := by
    rw [toNat_shiftRight_lit _ (by decide), hsub]
    rfl
  rw [UInt32.toNat_toUInt8, UInt32.toNat_add, hshift]
  change ((val.toNat - 177) / 256 + 177) % 2 ^ 32 % 2 ^ 8 = _
  omega

theorem toNat_vbHead3 {val : UInt32} (h1 : 16561 ≤ val.toNat) (h2 : val.toNat ≤ 540848) :
    ((val - 16561) >>> 16 + 241).toUInt8.toNat = (val.toNat - 16561) / 65536 + 241 := by
  have hsub : (val - 16561).toNat = val.toNat - 16561 :=
    UInt32.toNat_sub_of_le _ _ (UInt32.le_iff_toNat_le.mpr h1)
  have hshift : ((val - 16561) >>> 16).toNat = (val.toNat - 16561) / 65536 := by
    rw [toNat_shiftRight_lit _ (by decide), hsub]
    rfl
  rw [UInt32.toNat_toUInt8, UInt32.toNat_add, hshift]
  change ((val.toNat - 16561) / 65536 + 241) % 2 ^ 32 % 2 ^ 8 = _
  omega

theorem head_vbBytes (val : UInt32) : ∃ b bs, vbBytes val = b :: bs ∧ b ≠ 255 := by
  have hne {b : UInt8} (h : b.toNat < 255) : b ≠ 255 := fun heq => by
    rw [heq] at h
    exact absurd h (by decide)
  rw [vbBytes]
  split_ifs with h1 h2 h3 h4
  all_goals simp only [UInt32.le_iff_toNat_le] at *
  · change _ ≤ 176 at h1
    exact ⟨_, _, rfl, hne (by rw [toNat_toUInt8 (by omega)]; omega)⟩
  · change ¬_ ≤ 176 at h1
    change _ ≤ 16560 at h2
    exact ⟨_, _, rfl, hne (by rw [toNat_vbHead2 (by omega) h2]; omega)⟩
  · change ¬_ ≤ 16560 at h2
    change _ ≤ 540848 at h3
    exact ⟨_, _, rfl, hne (by rw [toNat_vbHead3 (by omega) h3]; omega)⟩
  · exact ⟨_, _, rfl, by decide⟩
  · exact ⟨_, _, rfl, by decide⟩

/-- The byte in front of `k`, scaled. -/
theorem toNat_shiftLeft_sub {b : UInt8} {c k : UInt32} (hk : k.toNat ≤ 16)
    (hc : c.toNat ≤ b.toNat) :
    ((b.toUInt32 - c) <<< k).toNat = (b.toNat - c.toNat) * 2 ^ k.toNat := by
  have hb : b.toUInt32.toNat = b.toNat := UInt8.toNat_toUInt32 b
  have hsub : (b.toUInt32 - c).toNat = b.toNat - c.toNat := by
    rw [UInt32.toNat_sub_of_le _ _ (UInt32.le_iff_toNat_le.mpr (hb.symm ▸ hc)), hb]
  have hlt := b.toNat_lt
  have hpow : 2 ^ k.toNat ≤ 2 ^ 16 := Nat.pow_le_pow_right (by omega) hk
  rw [toNat_shiftLeft_lit (by omega), hsub]
  rw [hsub]
  calc (b.toNat - c.toNat) * 2 ^ k.toNat ≤ 255 * 2 ^ 16 := Nat.mul_le_mul (by omega) hpow
    _ < 2 ^ 32 := by decide

theorem readVb_vbBytes (val : UInt32) {m : Memory} {p : ℕ} (h : HasBytes m p (vbBytes val)) :
    readVb m p = .ok (val, p + (vbBytes val).length) := by
  rw [vbBytes] at h ⊢
  split_ifs at h ⊢ with h1 h2 h3 h4
  all_goals simp only [UInt32.le_iff_toNat_le] at h1
  · change _ ≤ 176 at h1
    have hb : (m p).toNat = val.toNat := by
      rw [← toNat_toUInt8 (by omega : val.toNat < 256)]
      exact congrArg UInt8.toNat (h 0 Nat.one_pos)
    have hle : m p ≤ 176 := UInt8.le_iff_toNat_le.mpr (hb ▸ h1)
    simp only [readVb, if_pos hle]
    refine ok_of_toNat ?_
    rw [UInt8.toNat_toUInt32]
    exact hb
  · change ¬_ ≤ 176 at h1
    replace h2 : val.toNat ≤ 16560 := UInt32.le_iff_toNat_le.mp h2
    have hb0 : (m p).toNat = (val.toNat - 177) / 256 + 177 := by
      rw [← toNat_vbHead2 (by omega) h2]
      exact congrArg UInt8.toNat (h 0 Nat.two_pos)
    have hb1 : (m (p + 1)).toNat = (val.toNat - 177) % 256 := by
      have hsub : (val - 177).toNat = val.toNat - 177 :=
        UInt32.toNat_sub_of_le _ _ (UInt32.le_iff_toNat_le.mpr (by change 177 ≤ _; omega))
      rw [← hsub, ← toNat_and_255, ← toNat_toUInt8 (by rw [toNat_and_255]; omega)]
      exact congrArg UInt8.toNat (h 1 Nat.one_lt_two)
    have hle1 : ¬m p ≤ 176 := by
      rw [UInt8.le_iff_toNat_le, hb0]
      change ¬_ ≤ 176
      omega
    have hle2 : m p ≤ 240 := by
      rw [UInt8.le_iff_toNat_le, hb0]
      change _ ≤ 240
      omega
    simp only [readVb, if_neg hle1, if_pos hle2]
    refine ok_of_toNat ?_
    have hshift : (((m (p + 0)).toUInt32 - 177) <<< 8).toNat = (val.toNat - 177) / 256 * 256 := by
      rw [toNat_shiftLeft_sub (by decide) (by change 177 ≤ (m p).toNat; omega)]
      change ((m p).toNat - 177) * 256 = _
      rw [hb0, Nat.add_sub_cancel]
    rw [UInt32.toNat_add, toNat_or_add 8, hshift, UInt8.toNat_toUInt32, hb1]
    · change (_ + 177) % 2 ^ 32 = _
      omega
    · rw [hshift]
      exact Nat.dvd_mul_left _ _
    · rw [UInt8.toNat_toUInt32]
      exact (m (p + 1)).toNat_lt
  · replace h2 : ¬val.toNat ≤ 16560 := fun hle => h2 (UInt32.le_iff_toNat_le.mpr hle)
    replace h3 : val.toNat ≤ 540848 := UInt32.le_iff_toNat_le.mp h3
    have hsub : (val - 16561).toNat = val.toNat - 16561 :=
      UInt32.toNat_sub_of_le _ _ (UInt32.le_iff_toNat_le.mpr (by change 16561 ≤ _; omega))
    rw [hasBytes_cons] at h
    have hb0 : (m p).toNat = (val.toNat - 16561) / 65536 + 241 := by
      rw [← toNat_vbHead3 (by omega) h3, h.1]
    have hb1 : readLe 2 m (p + 1) = (val.toNat - 16561) % 65536 := by
      have hle := readLe_eq h.2
      rw [length_leBytes, leNat_leBytes, UInt32.toNat_and, hsub] at hle
      have hmod : (val.toNat - 16561) &&& (0xffff : UInt32).toNat = (val.toNat - 16561) % 65536 :=
        Nat.and_two_pow_sub_one_eq_mod _ 16
      rw [hmod] at hle
      omega
    have hle1 : ¬m p ≤ 176 := by
      rw [UInt8.le_iff_toNat_le, hb0]
      change ¬_ ≤ 176
      omega
    have hle2 : ¬m p ≤ 240 := by
      rw [UInt8.le_iff_toNat_le, hb0]
      change ¬_ ≤ 240
      omega
    have hle3 : m p ≤ 248 := by
      rw [UInt8.le_iff_toNat_le, hb0]
      change _ ≤ 248
      omega
    simp only [readVb, if_neg hle1, if_neg hle2, if_pos hle3]
    refine ok_of_toNat ?_
    have hshift : (((m (p + 0)).toUInt32 - 241) <<< 16).toNat =
        (val.toNat - 16561) / 65536 * 65536 := by
      rw [toNat_shiftLeft_sub (by decide) (by change 241 ≤ (m p).toNat; omega)]
      change ((m p).toNat - 241) * 65536 = _
      rw [hb0, Nat.add_sub_cancel]
    have hlow : (UInt32.ofNat (readLe 2 m (p + 1))).toNat = (val.toNat - 16561) % 65536 := by
      rw [hb1, UInt32.toNat_ofNat']
      omega
    rw [UInt32.toNat_add, toNat_or_add 16, hshift, hlow]
    · change (_ + 16561) % 2 ^ 32 = _
      omega
    · rw [hshift]
      exact Nat.dvd_mul_left _ _
    · rw [hlow]
      exact Nat.mod_lt _ (by decide)
  · replace h4 : val.toNat ≤ 16777215 := UInt32.le_iff_toNat_le.mp h4
    have hb0 : m p = 249 := (hasBytes_cons.mp h).1
    simp only [readVb, hb0]
    rw [if_neg (by decide), if_neg (by decide), if_neg (by decide), if_pos (by decide)]
    refine ok_of_toNat ?_
    have hb1 : (m (p + 1)).toNat = val.toNat % 256 := by rw [h 1 (by simp)]; simp [leBytes]
    have hb2 : (m (p + 2)).toNat = val.toNat / 256 % 256 := by rw [h 2 (by simp)]; simp [leBytes]
    have hb3 : (m (p + 3)).toNat = val.toNat / 256 / 256 % 256 := by
      rw [h 3 (by simp)]
      simp [leBytes]
    have hs2 : ((m (p + 2)).toUInt32 <<< 8).toNat = val.toNat / 256 % 256 * 256 := by
      rw [toNat_shiftLeft_lit (by decide), UInt8.toNat_toUInt32, hb2]
      · rfl
      · rw [UInt8.toNat_toUInt32, hb2]
        change _ * 256 < _
        omega
    have hs3 : ((m (p + 3)).toUInt32 <<< 16).toNat = val.toNat / 256 / 256 % 256 * 65536 := by
      rw [toNat_shiftLeft_lit (by decide), UInt8.toNat_toUInt32, hb3]
      · rfl
      · rw [UInt8.toNat_toUInt32, hb3]
        change _ * 65536 < _
        omega
    have hs1 : ((m (p + 1)).toUInt32 ||| (m (p + 2)).toUInt32 <<< 8).toNat = val.toNat % 65536 := by
      rw [UInt32.or_comm, toNat_or_add 8, hs2, UInt8.toNat_toUInt32, hb1]
      · omega
      · rw [hs2]
        exact Nat.dvd_mul_left _ _
      · rw [UInt8.toNat_toUInt32]
        exact (m (p + 1)).toNat_lt
    rw [UInt32.or_comm, toNat_or_add 16, hs3, hs1]
    · omega
    · rw [hs3]
      exact Nat.dvd_mul_left _ _
    · rw [hs1]
      exact Nat.mod_lt _ (by decide)
  · have hb0 := hasBytes_cons.mp h
    simp only [readVb, hb0.1]
    rw [if_neg (by decide), if_neg (by decide), if_neg (by decide), if_neg (by decide),
      if_pos (by decide)]
    refine ok_of_toNat ?_
    have hle := readLe_eq hb0.2
    rw [length_leBytes, leNat_leBytes] at hle
    have hlt := val.toNat_lt
    rw [hle, UInt32.toNat_ofNat']
    change _ % 2 ^ 32 % 2 ^ 32 = _
    omega

end Varbyte

section Baseval

theorem toNat_byte_shiftLeft (b : UInt8) {k : UInt32} (hk : k.toNat ≤ 24) :
    (b.toUInt32 <<< k).toNat = b.toNat * 2 ^ k.toNat := by
  have hlt := b.toNat_lt
  have hpow : 2 ^ k.toNat ≤ 2 ^ 24 := Nat.pow_le_pow_right (by omega) hk
  rw [toNat_shiftLeft_lit (by omega), UInt8.toNat_toUInt32]
  rw [UInt8.toNat_toUInt32]
  calc b.toNat * 2 ^ k.toNat ≤ 255 * 2 ^ 24 := Nat.mul_le_mul (by omega) hpow
    _ < 2 ^ 32 := by decide

/-- The first byte of a base value: the high bits of the docid below a mark. -/
theorem toNat_baseHead {docid k mark : UInt32} (hk : k.toNat < 32) (i : ℕ)
    (hmark : 2 ^ i ∣ mark.toNat) (hlt : docid.toNat / 2 ^ k.toNat < 2 ^ i)
    (hbyte : mark.toNat + 2 ^ i ≤ 256) :
    (docid >>> k ||| mark).toUInt8.toNat = docid.toNat / 2 ^ k.toNat + mark.toNat := by
  have hshift := toNat_shiftRight_lit docid hk
  have hor : (docid >>> k ||| mark).toNat = docid.toNat / 2 ^ k.toNat + mark.toNat := by
    rw [UInt32.or_comm, toNat_or_add i hmark (hshift ▸ hlt), hshift, Nat.add_comm]
  rw [toNat_toUInt8 (by omega), hor]

theorem toNat_lowByte (x : UInt32) : (x &&& 0xff).toUInt8.toNat = x.toNat % 256 := by
  rw [toNat_toUInt8 (by rw [toNat_and_255]; omega), toNat_and_255]

theorem toNat_or_bytes {x : UInt32} (hx : 2 ^ 16 ∣ x.toNat) (b c : UInt8) :
    (x ||| b.toUInt32 <<< 8 ||| c.toUInt32).toNat = x.toNat + b.toNat * 256 + c.toNat := by
  have hb : (b.toUInt32 <<< 8).toNat = b.toNat * 256 := toNat_byte_shiftLeft b (by decide)
  have hlt := b.toNat_lt
  have hxb : (x ||| b.toUInt32 <<< 8).toNat = x.toNat + b.toNat * 256 := by
    rw [toNat_or_add 16 hx (by rw [hb]; omega), hb]
  rw [toNat_or_add 8 _ (by rw [UInt8.toNat_toUInt32]; exact c.toNat_lt), hxb, UInt8.toNat_toUInt32]
  rw [hxb]
  exact Nat.dvd_add (Nat.dvd_trans (by decide) hx) (Nat.dvd_mul_left _ _)

theorem toNat_midByte (x : UInt32) {k : UInt32} (hk : k.toNat < 32) :
    (x >>> k &&& 0xff).toUInt8.toNat = x.toNat / 2 ^ k.toNat % 256 := by
  rw [toNat_lowByte, toNat_shiftRight_lit x hk]

/-- A docid in the range of `write_baseval` and what `read_baseval` makes of it. -/
theorem writeBaseval_ok {docid : UInt32} (h : docid < 0x10000000) (mem : Memory) (out : ℕ) :
    ∃ mem' bs, writeBaseval docid mem out = .ok (mem', out + bs.length) ∧
      Emits mem mem' out bs ∧
      ∀ m p, HasBytes m p bs → readBaseval m p = .ok (docid, p + bs.length) := by
  replace h : docid.toNat < 268435456 := UInt32.lt_iff_toNat_lt.mp h
  rw [writeBaseval]
  split_ifs with h1 h2 h3 h4
  all_goals simp only [UInt32.lt_iff_toNat_lt] at *
  · change _ < 128 at h1
    refine ⟨_, _, rfl, emits_writeBytes mem out [docid.toUInt8] [], fun m p hm => ?_⟩
    have hb : (m p).toNat = docid.toNat := by
      rw [← toNat_toUInt8 (by omega : docid.toNat < 256)]
      exact congrArg UInt8.toNat (hm 0 Nat.one_pos)
    have hlt : m p < 128 := UInt8.lt_iff_toNat_lt.mpr (hb ▸ h1)
    simp only [readBaseval, if_pos hlt]
    refine ok_of_toNat ?_
    rw [UInt8.toNat_toUInt32]
    exact hb
  · change ¬_ < 128 at h1
    change _ < 16384 at h2
    refine ⟨_, _, rfl, emits_writeBytes mem out [_, _] [], fun m p hm => ?_⟩
    have hb0 : (m p).toNat = docid.toNat / 256 + 128 :=
      (congrArg UInt8.toNat (hm 0 Nat.two_pos)).trans (toNat_baseHead (by decide) 7 (by decide)
        (by change _ / 256 < 128; omega) (by decide))
    have hb1 : (m (p + 1)).toNat = docid.toNat % 256 :=
      (congrArg UInt8.toNat (hm 1 Nat.one_lt_two)).trans (toNat_lowByte docid)
    have hlt1 : ¬m p < 128 := by
      rw [UInt8.lt_iff_toNat_lt, hb0]
      change ¬_ < 128
      omega
    have hlt2 : m p < 192 := by
      rw [UInt8.lt_iff_toNat_lt, hb0]
      change _ < 192
      omega
    simp only [readBaseval, if_neg hlt1, if_pos hlt2]
    refine ok_of_toNat ?_
    have hshift : ((m (p + 0)).toUInt32 <<< 8).toNat = (m p).toNat * 256 :=
      toNat_byte_shiftLeft _ (by decide)
    rw [UInt32.toNat_and, toNat_or_add 8, hshift, UInt8.toNat_toUInt32, hb0, hb1]
    · change _ &&& (2 ^ 14 - 1) = _
      rw [Nat.and_two_pow_sub_one_eq_mod]
      omega
    · rw [hshift]
      exact Nat.dvd_mul_left _ _
    · rw [UInt8.toNat_toUInt32]
      exact (m (p + 1)).toNat_lt
  · change ¬_ < 16384 at h2
    change _ < 2097152 at h3
    refine ⟨_, _, rfl, emits_writeBytes mem out [_, _, _] [], fun m p hm => ?_⟩
    have hb0 : (m p).toNat = docid.toNat / 65536 + 192 :=
      (congrArg UInt8.toNat (hm 0 (by simp))).trans (toNat_baseHead (by decide) 6 (by decide)
        (by change _ / 65536 < 64; omega) (by decide))
    have hb1 : (m (p + 1)).toNat = docid.toNat % 256 :=
      (congrArg UInt8.toNat (hm 1 (by simp))).trans (toNat_lowByte docid)
    have hb2 : (m (p + 2)).toNat = docid.toNat / 256 % 256 :=
      (congrArg UInt8.toNat (hm 2 (by simp))).trans (toNat_midByte docid (by decide))
    have hlt1 : ¬m p < 128 := by
      rw [UInt8.lt_iff_toNat_lt, hb0]
      change ¬_ < 128
      omega
    have hlt2 : ¬m p < 192 := by
      rw [UInt8.lt_iff_toNat_lt, hb0]
      change ¬_ < 192
      omega
    have hlt3 : m p < 224 := by
      rw [UInt8.lt_iff_toNat_lt, hb0]
      change _ < 224
      omega
    simp only [readBaseval, if_neg hlt1, if_neg hlt2, if_pos hlt3]
    refine ok_of_toNat ?_
    have hshift : ((m (p + 0)).toUInt32 <<< 16).toNat = (m p).toNat * 65536 :=
      toNat_byte_shiftLeft _ (by decide)
    rw [UInt32.toNat_and, toNat_or_bytes (by rw [hshift]; exact Nat.dvd_mul_left _ _), hshift, hb0,
      hb1, hb2]
    change _ &&& (2 ^ 21 - 1) = _
    rw [Nat.and_two_pow_sub_one_eq_mod]
    omega
  · change ¬_ < 2097152 at h3
    refine ⟨_, _, rfl, emits_writeBytes mem out [_, _, _, _] [], fun m p hm => ?_⟩
    have hb0 : (m p).toNat = docid.toNat / 16777216 + 224 :=
      (congrArg UInt8.toNat (hm 0 (by simp))).trans (toNat_baseHead (by decide) 5 (by decide)
        (by change _ / 16777216 < 32; omega) (by decide))
    have hb1 : (m (p + 1)).toNat = docid.toNat / 65536 % 256 :=
      (congrArg UInt8.toNat (hm 1 (by simp))).trans (toNat_midByte docid (by decide))
    have hb2 : (m (p + 2)).toNat = docid.toNat / 256 % 256 :=
      (congrArg UInt8.toNat (hm 2 (by simp))).trans (toNat_midByte docid (by decide))
    have hb3 : (m (p + 3)).toNat = docid.toNat % 256 :=
      (congrArg UInt8.toNat (hm 3 (by simp))).trans (toNat_lowByte docid)
    have hlt1 : ¬m p < 128 := by
      rw [UInt8.lt_iff_toNat_lt, hb0]
      change ¬_ < 128
      omega
    have hlt2 : ¬m p < 192 := by
      rw [UInt8.lt_iff_toNat_lt, hb0]
      change ¬_ < 192
      omega
    have hlt3 : ¬m p < 224 := by
      rw [UInt8.lt_iff_toNat_lt, hb0]
      change ¬_ < 224
      omega
    have hlt4 : m p < 240 := by
      rw [UInt8.lt_iff_toNat_lt, hb0]
      change _ < 240
      omega
    simp only [readBaseval, if_neg hlt1, if_neg hlt2, if_neg hlt3, if_pos hlt4]
    refine ok_of_toNat ?_
    have hshift0 : ((m (p + 0)).toUInt32 <<< 24).toNat = (m p).toNat * 16777216 :=
      toNat_byte_shiftLeft _ (by decide)
    have hshift1 : ((m (p + 1)).toUInt32 <<< 16).toNat = (m (p + 1)).toNat * 65536 :=
      toNat_byte_shiftLeft _ (by decide)
    have hhigh : ((m (p + 0)).toUInt32 <<< 24 ||| (m (p + 1)).toUInt32 <<< 16).toNat =
        (m p).toNat * 16777216 + (m (p + 1)).toNat * 65536 := by
      rw [toNat_or_add 24, hshift0, hshift1]
      · rw [hshift0]
        exact Nat.dvd_mul_left _ _
      · have := (m (p + 1)).toNat_lt
        rw [hshift1]
        omega
    rw [UInt32.toNat_and, toNat_or_bytes _, hhigh, hb0, hb1, hb2, hb3]
    · change _ &&& (2 ^ 28 - 1) = _
      rw [Nat.and_two_pow_sub_one_eq_mod]
      omega
    · rw [hhigh]
      omega
  · exact absurd h h4

end Baseval

end Flocate
