import Flocate.Lib.Bytes
import Mathlib.Tactic.SplitIfs

/-!
# UTF-8 text

The bytes of a list of characters, and the character that a byte string begins with.
-/

namespace Utf8

open Bytes

def encode (chars : List Char) : Str := chars.flatMap String.utf8EncodeChar

/-- The character whose encoding the string begins with. -/
def decode (s : Str) : Option Char := s.toByteArray.utf8DecodeChar? 0

def Valid (s : Str) : Prop := ∃ chars, s = encode chars

section Encode

@[simp] theorem encode_nil : encode [] = [] := rfl

@[simp] theorem encode_cons (ch : Char) (chars : List Char) :
    encode (ch :: chars) = String.utf8EncodeChar ch ++ encode chars := List.flatMap_cons

@[simp] theorem encode_append (xs ys : List Char) :
    encode (xs ++ ys) = encode xs ++ encode ys := List.flatMap_append

@[simp] theorem decode_nil : decode [] = none := rfl

@[simp] theorem decode_append (ch : Char) (s : Str) :
    decode (String.utf8EncodeChar ch ++ s) = some ch := by
  rw [decode, List.toByteArray_append, ByteArray.utf8DecodeChar?_utf8EncodeChar_append]

theorem eq_append_of_decode {s : Str} {ch : Char} (h : decode s = some ch) :
    ∃ t, s = String.utf8EncodeChar ch ++ t := by
  obtain ⟨t, ht⟩ := ByteArray.exists_of_utf8DecodeChar?_eq_some h
  refine ⟨t.data.toList, ?_⟩
  have hlist := congrArg (fun b : ByteArray => b.data.toList) ht
  simpa using hlist

end Encode

section Ascii

/-- The bytes of a character are its own byte, or none of them is ASCII. -/
theorem utf8EncodeChar_ascii_or (ch : Char) :
    (ch.toNat < 128 ∧ String.utf8EncodeChar ch = [ch.toUInt8]) ∨
      (128 ≤ ch.toNat ∧ ∀ c ∈ String.utf8EncodeChar ch, 128 ≤ c.toNat) := by
  have hlater {n : ℕ} (hn : 128 ≤ n) (hlt : n < 256) : 128 ≤ (UInt8.ofNat n).toNat := by
    rw [UInt8.toNat_ofNat', Nat.mod_eq_of_lt hlt]
    exact hn
  have hval : ch.val.toNat < 0x110000 := by
    rcases ch.valid with h | h
    all_goals omega
  unfold String.utf8EncodeChar
  dsimp only
  split_ifs with h1 h2 h3
  · exact .inl ⟨Nat.lt_succ_of_le h1, rfl⟩
  all_goals
    right
    refine ⟨Nat.lt_of_not_le h1, fun c hc => ?_⟩
    simp only [List.mem_cons, List.not_mem_nil, or_false] at hc
  · rcases hc with rfl | rfl
    all_goals exact hlater (by omega) (by omega)
  · rcases hc with rfl | rfl | rfl
    all_goals exact hlater (by omega) (by omega)
  · rcases hc with rfl | rfl | rfl | rfl
    all_goals exact hlater (by omega) (by omega)

/-- The first byte tells an ASCII character, and that any other is none. -/
theorem headD_append_ascii_or (ch : Char) (s : Str) :
    (ch.toNat < 128 ∧ (String.utf8EncodeChar ch ++ s).headD 0 = ch.toUInt8) ∨
      (128 ≤ ch.toNat ∧ 128 ≤ ((String.utf8EncodeChar ch ++ s).headD 0).toNat) := by
  rcases utf8EncodeChar_ascii_or ch with ⟨hlt, hbytes⟩ | ⟨hle, hbytes⟩
  · rw [hbytes]
    exact .inl ⟨hlt, rfl⟩
  · cases h : String.utf8EncodeChar ch with
    | nil => exact absurd h String.utf8EncodeChar_ne_nil
    | cons c t =>
        rw [h] at hbytes
        exact .inr ⟨hle, hbytes c List.mem_cons_self⟩

theorem toNat_toUInt8 {ch : Char} (h : ch.toNat < 128) : ch.toUInt8.toNat = ch.toNat := by
  have hmod : ch.toUInt8.toNat = ch.toNat % 256 := UInt32.toNat_toUInt8 ch.val
  rw [hmod, Nat.mod_eq_of_lt (by omega)]

theorem eq_encode_of_ascii {s : Str} (h : ∀ c ∈ s, c.toNat < 128) :
    s = encode (s.map fun c => Char.ofNat c.toNat) := by
  induction s with
  | nil => rfl
  | cons c s ih =>
      have hc := h c List.mem_cons_self
      have hch : (Char.ofNat c.toNat).toNat = c.toNat := by
        rw [Char.ofNat, dif_pos (.inl (by omega))]
        rfl
      rw [List.map_cons, encode_cons, ← ih fun d hd => h d (List.mem_cons_of_mem _ hd)]
      rcases utf8EncodeChar_ascii_or (Char.ofNat c.toNat) with ⟨hlt, hbytes⟩ | ⟨hle, -⟩
      · have hbyte : (Char.ofNat c.toNat).toUInt8 = c :=
          UInt8.toNat_inj.mp ((toNat_toUInt8 hlt).trans hch)
        rw [hbytes, List.singleton_append, hbyte]
      · omega

end Ascii

end Utf8
