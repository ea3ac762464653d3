import Flocate.Lib.Utf8

/-!
# The conversion to wide characters

`mbtowc` of a C library in a UTF-8 locale. It takes sequences of up to six bytes, and after a
sequence that the end of the string cuts short it goes on with the bytes it has seen.
-/

namespace Utf8

open Bytes

/-- The length of the sequence that a byte begins, zero where it begins none. -/
def sequenceLength (c : UInt8) : ℕ :=
  if c.toNat < 0x80 then 1
  else if c.toNat < 0xc2 then 0
  else if c.toNat < 0xe0 then 2
  else if c.toNat < 0xf0 then 3
  else if c.toNat < 0xf8 then 4
  else if c.toNat < 0xfc then 5
  else if c.toNat < 0xfe then 6
  else 0

def IsContinuation (c : UInt8) : Prop := 0x80 ≤ c.toNat ∧ c.toNat < 0xc0

instance (c : UInt8) : Decidable (IsContinuation c) := inferInstanceAs (Decidable (_ ∧ _))

def sequenceValue (seq : Str) : ℕ :=
  seq.tail.foldl (fun v c => 64 * v + c.toNat % 64)
    ((seq.headD 0).toNat % if seq.length = 1 then 128 else 2 ^ (7 - seq.length))

/-- A shorter sequence has the value, or it is half of a surrogate pair. -/
def IsRefused (length value : ℕ) : Prop :=
  2 < length ∧ value < 2 ^ (5 * length - 4) ∨ 0xd800 ≤ value ∧ value < 0xe000

instance (length value : ℕ) : Decidable (IsRefused length value) :=
  inferInstanceAs (Decidable (_ ∨ _))

/-- The bytes of a sequence that has not ended. -/
structure Mbstate where
  pending : Str
  incomplete : pending.length < sequenceLength (pending.headD 0)

def Mbstate.initial : Mbstate where
  pending := []
  incomplete := by decide

inductive Mbtowc where
  | malformed
  | null
  | wide (pwc ret : ℕ)
deriving DecidableEq

def mbtowc (state : Mbstate) (s : Str) : Mbtowc × Mbstate :=
  if s.headD 0 = 0 then (.null, state)
  else
    let input := state.pending ++ s
    let length := sequenceLength (input.headD 0)
    let seq := input.take length
    if length = 0 ∨ ∃ c ∈ seq.tail, ¬ IsContinuation c then (.malformed, .initial)
    else if h : input.length < length then (.malformed, ⟨input, h⟩)
    else if IsRefused length (sequenceValue seq) then (.malformed, .initial)
    else (.wide (sequenceValue seq) (length - state.pending.length), .initial)

section Wide

/-- The sequence that ends with the bytes taken, without a look at its value. -/
structure Takes (state : Mbstate) (s : Str) (ret : ℕ) : Prop where
  pos : 0 < ret
  le : ret ≤ s.length
  length_eq : (state.pending ++ s.take ret).length =
    sequenceLength ((state.pending ++ s.take ret).headD 0)
  continuation : ∀ c ∈ (state.pending ++ s.take ret).tail, IsContinuation c

theorem Mbstate.length_pending_lt (state : Mbstate) (s : Str)
    (h : sequenceLength ((state.pending ++ s).headD 0) ≠ 0) :
    state.pending.length < sequenceLength ((state.pending ++ s).headD 0) := by
  have hlt := state.incomplete
  revert h hlt
  cases state.pending with
  | nil => exact fun h _ => Nat.pos_of_ne_zero h
  | cons c t => exact fun _ hlt => hlt

theorem takes_of_mbtowc {state state' : Mbstate} {s : Str} {pwc ret : ℕ}
    (h : mbtowc state s = (.wide pwc ret, state')) : Takes state s ret ∧ state' = .initial := by
  unfold mbtowc at h
  dsimp only at h
  split_ifs at h with hnul hmalformed hshort hrefused
  · exact absurd (congrArg Prod.fst h) (by simp)
  · exact absurd (congrArg Prod.fst h) (by simp)
  · exact absurd (congrArg Prod.fst h) (by simp)
  · exact absurd (congrArg Prod.fst h) (by simp)
  · rw [not_or, not_exists] at hmalformed
    obtain ⟨hwide, rfl⟩ := Prod.mk.inj h
    obtain ⟨-, rfl⟩ := Mbtowc.wide.inj hwide
    have hlt := state.length_pending_lt s hmalformed.1
    rw [List.length_append] at hshort
    have htake : (state.pending ++ s).take (sequenceLength ((state.pending ++ s).headD 0)) =
        state.pending ++ s.take
          (sequenceLength ((state.pending ++ s).headD 0) - state.pending.length) := by
      rw [List.take_append, List.take_of_length_le hlt.le]
    have hhead : ((state.pending ++ s).take
        (sequenceLength ((state.pending ++ s).headD 0))).headD 0 =
        (state.pending ++ s).headD 0 := by
      cases hn : sequenceLength ((state.pending ++ s).headD 0) with
      | zero => exact absurd hn hmalformed.1
      | succ n =>
          cases state.pending ++ s with
          | nil => rfl
          | cons c t => rfl
    refine ⟨⟨Nat.sub_pos_of_lt hlt, by omega, ?_, ?_⟩, rfl⟩
    · rw [← htake, hhead, List.length_take, List.length_append]
      omega
    · rw [← htake]
      exact fun c hc => not_not.mp fun hnot => hmalformed.2 c ⟨hc, hnot⟩

theorem length_drop_lt_of_mbtowc {state state' : Mbstate} {s : Str} {pwc ret : ℕ}
    (h : mbtowc state s = (.wide pwc ret, state')) : (s.drop ret).length < s.length := by
  have htakes := (takes_of_mbtowc h).1
  have hpos := htakes.pos
  have hle := htakes.le
  rw [List.length_drop]
  omega

theorem length_drop_one_lt_of_mbtowc {state state' : Mbstate} {s : Str}
    (h : mbtowc state s = (.malformed, state')) : (s.drop 1).length < s.length := by
  cases s with
  | nil => exact absurd (congrArg Prod.fst h) (by simp [mbtowc])
  | cons c s => exact Nat.lt_succ_self _

theorem mbtowc_null (state : Mbstate) {s : Str} (h : s.headD 0 = 0) :
    mbtowc state s = (.null, state) := if_pos h

theorem headD_of_mbtowc_null {state state' : Mbstate} {s : Str}
    (h : mbtowc state s = (.null, state')) : s.headD 0 = 0 := by
  unfold mbtowc at h
  dsimp only at h
  split_ifs at h with hnul
  · exact hnul
  all_goals exact absurd (congrArg Prod.fst h) (by simp)

/-- What holds at the end of the string, and is kept when a malformed byte or the bytes of a wide
character are put in front, with the state that `mbtowc` leaves. -/
@[elab_as_elim]
theorem mbtowc_induction {motive : Mbstate → Str → Prop}
    (null : ∀ state s, s.headD 0 = 0 → motive state s)
    (malformed : ∀ state s state', mbtowc state s = (.malformed, state') →
      motive state' (s.drop 1) → motive state s)
    (wide : ∀ state s pwc ret, mbtowc state s = (.wide pwc ret, .initial) →
      Takes state s ret → motive .initial (s.drop ret) → motive state s)
    (state : Mbstate) (s : Str) : motive state s := by
  induction hn : s.length using Nat.strongRecOn generalizing state s with
  | ind n ih =>
      subst hn
      rcases hm : mbtowc state s with ⟨_ | _ | ⟨pwc, ret⟩, state'⟩
      · exact malformed state s state' hm (ih _ (length_drop_one_lt_of_mbtowc hm) _ _ rfl)
      · exact null state s (headD_of_mbtowc_null hm)
      · obtain ⟨htakes, rfl⟩ := takes_of_mbtowc hm
        exact wide state s pwc ret hm htakes (ih _ (length_drop_lt_of_mbtowc hm) _ _ rfl)

end Wide

section Encoded

theorem toNat_ofNat {n : ℕ} (h : n < 256) : (UInt8.ofNat n).toNat = n :=
  UInt8.toNat_ofNat_of_lt' h

theorem isContinuation_ofNat (n : ℕ) : IsContinuation (UInt8.ofNat (n % 64 + 128)) := by
  rw [IsContinuation, toNat_ofNat (by omega)]
  omega

theorem toNat_continuation_mod (n : ℕ) : (UInt8.ofNat (n % 64 + 128)).toNat % 64 = n % 64 := by
  rw [toNat_ofNat (by omega)]
  omega

/-- An encoded character is a sequence of the length that its first byte tells. -/
theorem sequence_utf8EncodeChar (ch : Char) :
    sequenceLength ((String.utf8EncodeChar ch).headD 0) = (String.utf8EncodeChar ch).length ∧
      (∀ c ∈ (String.utf8EncodeChar ch).tail, IsContinuation c) ∧
      sequenceValue (String.utf8EncodeChar ch) = ch.toNat ∧
      ¬ IsRefused (String.utf8EncodeChar ch).length ch.toNat := by
  have hval : ch.toNat < 0xd800 ∨ 0xdfff < ch.toNat ∧ ch.toNat < 0x110000 := ch.valid
  unfold String.utf8EncodeChar
  change _ ∧ _ ∧ _ = ch.val.toNat ∧ ¬ IsRefused _ ch.val.toNat
  change ch.val.toNat < 0xd800 ∨ 0xdfff < ch.val.toNat ∧ ch.val.toNat < 0x110000 at hval
  generalize ch.val.toNat = v at hval
  dsimp only
  -- One case for each length of an encoding; the lead byte tells them apart.
  split_ifs with h1 h2 h3
  · refine ⟨?_, fun c hc => absurd hc List.not_mem_nil, ?_, ?_⟩
    · rw [sequenceLength, List.headD_cons, toNat_ofNat (by omega), if_pos (by omega)]
      rfl
    · change (UInt8.ofNat v).toNat % 128 = v
      rw [toNat_ofNat (by omega)]
      omega
    · simp only [IsRefused, List.length_cons, List.length_nil]
      omega
  · have hlead : (UInt8.ofNat (v / 64 % 32 + 192)).toNat = v / 64 % 32 + 192 :=
      toNat_ofNat (by omega)
    refine ⟨?_, ?_, ?_, ?_⟩
    · rw [sequenceLength, List.headD_cons, hlead, if_neg (by omega), if_neg (by omega),
        if_pos (by omega)]
      rfl
    · simp only [List.tail_cons, List.forall_mem_cons]
      exact ⟨isContinuation_ofNat v, List.forall_mem_nil _⟩
    · change 64 * ((UInt8.ofNat (v / 64 % 32 + 192)).toNat % 32) + _ = v
      rw [hlead, toNat_continuation_mod]
      omega
    · simp only [IsRefused, List.length_cons, List.length_nil]
      omega
  · have hlead : (UInt8.ofNat (v / 4096 % 16 + 224)).toNat = v / 4096 % 16 + 224 :=
      toNat_ofNat (by omega)
    refine ⟨?_, ?_, ?_, ?_⟩
    · rw [sequenceLength, List.headD_cons, hlead, if_neg (by omega), if_neg (by omega),
        if_neg (by omega), if_pos (by omega)]
      rfl
    · simp only [List.tail_cons, List.forall_mem_cons]
      exact ⟨isContinuation_ofNat _, isContinuation_ofNat v, List.forall_mem_nil _⟩
    · change 64 * (64 * ((UInt8.ofNat (v / 4096 % 16 + 224)).toNat % 16) + _) + _ = v
      rw [hlead, toNat_continuation_mod, toNat_continuation_mod]
      omega
    · simp only [IsRefused, List.length_cons, List.length_nil]
      omega
  · have hlead : (UInt8.ofNat (v / 262144 % 8 + 240)).toNat = v / 262144 % 8 + 240 :=
      toNat_ofNat (by omega)
    refine ⟨?_, ?_, ?_, ?_⟩
    · rw [sequenceLength, List.headD_cons, hlead, if_neg (by omega), if_neg (by omega),
        if_neg (by omega), if_neg (by omega), if_pos (by omega)]
      rfl
    · simp only [List.tail_cons, List.forall_mem_cons]
      exact ⟨isContinuation_ofNat _, isContinuation_ofNat _, isContinuation_ofNat v,
        List.forall_mem_nil _⟩
    · change 64 * (64 * (64 * ((UInt8.ofNat (v / 262144 % 8 + 240)).toNat % 8) + _) + _) + _ = v
      rw [hlead, toNat_continuation_mod, toNat_continuation_mod, toNat_continuation_mod]
      omega
    · simp only [IsRefused, List.length_cons, List.length_nil]
      omega

theorem headD_utf8EncodeChar_append (ch : Char) (s : Str) :
    (String.utf8EncodeChar ch ++ s).headD 0 = (String.utf8EncodeChar ch).headD 0 := by
  cases h : String.utf8EncodeChar ch with
  | nil => exact absurd h String.utf8EncodeChar_ne_nil
  | cons c t => rfl

theorem sequenceLength_headD (ch : Char) (s : Str) :
    sequenceLength ((String.utf8EncodeChar ch ++ s).headD 0) = ch.utf8Size := by
  rw [headD_utf8EncodeChar_append, (sequence_utf8EncodeChar ch).1, String.length_utf8EncodeChar]

theorem take_utf8Size (ch : Char) (s : Str) :
    (String.utf8EncodeChar ch ++ s).take ch.utf8Size = String.utf8EncodeChar ch := by
  rw [← String.length_utf8EncodeChar, List.take_left]

theorem drop_utf8Size (ch : Char) (s : Str) :
    (String.utf8EncodeChar ch ++ s).drop ch.utf8Size = s := by
  rw [← String.length_utf8EncodeChar, List.drop_left]

theorem headD_ne_zero {ch : Char} (h : ch ≠ '\x00') (s : Str) :
    (String.utf8EncodeChar ch ++ s).headD 0 ≠ 0 := by
  intro hzero
  rcases headD_append_ascii_or ch s with ⟨hlt, hhead⟩ | ⟨-, hhead⟩
  · rw [hhead] at hzero
    have hnat := toNat_toUInt8 hlt
    rw [hzero] at hnat
    exact h (Char.toNat_inj.mp hnat.symm)
  · rw [hzero] at hhead
    exact absurd hhead (by decide)

theorem mbtowc_char {ch : Char} (h : ch ≠ '\x00') (s : Str) :
    mbtowc .initial (String.utf8EncodeChar ch ++ s) =
      (.wide ch.toNat ch.utf8Size, .initial) := by
  obtain ⟨-, hcontinuation, hvalue, hrefused⟩ := sequence_utf8EncodeChar ch
  have hpos := ch.utf8Size_pos
  rw [String.length_utf8EncodeChar] at hrefused
  simp only [mbtowc, Mbstate.initial, List.nil_append, sequenceLength_headD, take_utf8Size, hvalue]
  rw [if_neg (headD_ne_zero h s), if_neg, dif_neg, if_neg hrefused]
  · rfl
  · rw [List.length_append, String.length_utf8EncodeChar]
    omega
  · rintro (hzero | ⟨c, hc, hnot⟩)
    · omega
    · exact hnot (hcontinuation c hc)

theorem sequenceLength_continuation {c : UInt8} (h : IsContinuation c) : sequenceLength c = 0 := by
  obtain ⟨hle, hlt⟩ := h
  rw [sequenceLength, if_neg (by omega), if_pos (by omega)]

section Takes

variable {state : Mbstate} {s : Str} {ret : ℕ} (h : Takes state s ret)

include h

theorem Takes.take_eq_cons : ∃ t, s.take ret = s.headD 0 :: t := by
  have hpos := h.pos
  have hle := h.le
  cases s with
  | nil => exact absurd hle (by simp only [List.length_nil]; omega)
  | cons c s =>
      obtain ⟨n, rfl⟩ := Nat.exists_eq_add_of_le' hpos
      exact ⟨s.take n, List.take_succ_cons⟩

theorem Takes.initial_or : state.pending = [] ∧ ret = sequenceLength (s.headD 0) ∨
    IsContinuation (s.headD 0) := by
  obtain ⟨t, ht⟩ := h.take_eq_cons
  have hlength := h.length_eq
  have hcontinuation := h.continuation
  rw [ht] at hlength hcontinuation
  cases hpending : state.pending with
  | nil =>
      rw [hpending, List.nil_append, List.headD_cons] at hlength
      rw [← hlength, ← ht, List.length_take, Nat.min_eq_left h.le]
      exact .inl ⟨rfl, rfl⟩
  | cons c front =>
      rw [hpending] at hcontinuation
      exact .inr (hcontinuation _ (List.mem_append_right front List.mem_cons_self))

/-- The bytes of one wide character are one character of the text, or not text at all. -/
theorem Takes.eq_utf8EncodeChar {t : Str} {ch : Char}
    (hdecode : decode (s.take ret ++ t) = some ch) : s.take ret = String.utf8EncodeChar ch := by
  obtain ⟨u, hu⟩ := eq_append_of_decode hdecode
  obtain ⟨front, hfront⟩ := h.take_eq_cons
  have hhead := sequenceLength_headD ch u
  rw [← hu, hfront, List.cons_append, List.headD_cons] at hhead
  rcases h.initial_or with ⟨-, hret⟩ | hcontinuation
  · have hlength : (s.take ret).length = (String.utf8EncodeChar ch).length := by
      rw [List.length_take, Nat.min_eq_left h.le, String.length_utf8EncodeChar, hret, hhead]
    exact (List.append_inj hu hlength).1
  · have hpos := ch.utf8Size_pos
    rw [sequenceLength_continuation hcontinuation] at hhead
    omega

/-- An ASCII byte is a character of its own, and no sequence is pending before it. -/
theorem Takes.exists_ascii (hlt : (s.headD 0).toNat < 128) :
    ∃ ch : Char, ch.toNat = (s.headD 0).toNat ∧ state = .initial ∧
      s.take ret = String.utf8EncodeChar ch := by
  rcases h.initial_or with ⟨hpending, hret⟩ | hcontinuation
  · obtain ⟨t, ht⟩ := h.take_eq_cons
    have hlength := congrArg List.length ht
    rw [List.length_take, Nat.min_eq_left h.le, hret, sequenceLength, if_pos hlt,
      List.length_cons] at hlength
    obtain rfl : t = [] := List.eq_nil_of_length_eq_zero (by omega)
    have hencode : [s.headD 0] = encode [Char.ofNat (s.headD 0).toNat] :=
      eq_encode_of_ascii fun c hc => List.mem_singleton.mp hc ▸ hlt
    refine ⟨Char.ofNat (s.headD 0).toNat, ?_, ?_, ?_⟩
    · rw [Char.ofNat, dif_pos (.inl (by omega))]
      rfl
    · cases state
      cases hpending
      rfl
    · rw [ht, hencode, encode_cons, encode_nil, List.append_nil]
  · exact absurd hcontinuation.1 (by omega)

end Takes

end Encoded

end Utf8
