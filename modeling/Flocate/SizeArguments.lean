import Flocate.UpdatedbConf
import Mathlib.Data.List.DropRight

/-!
# Sizes as arguments

`parse_size` turns down a string that starts with a minus sign. `strtoull` skips white space before
it looks for the sign, so that a negative number behind white space gets through and comes around
modulo `2 ^ 64`.
-/

namespace Flocate

open Bytes

/-- `parse_size` with what is in `*dest` before. -/
def parseSizeInto (dest : UInt64) (str : Str) : Bool × UInt64 :=
  match parseSize str with
  | none => (false, dest)
  | some size => (true, UInt64.ofNat size)

def digitsValue (digits : Str) : ℕ := Nat.ofDigits 10 (digits.reverse.map fun c => c.toNat - 48)

/-- The suffixes with the powers of 1024 that they stand for. -/
def sizeSuffixes : List (Str × ℕ) :=
  [([], 0), (ascii "K", 1), (ascii "k", 1), (ascii "M", 2), (ascii "m", 2), (ascii "G", 3),
    (ascii "g", 3), (ascii "T", 4), (ascii "t", 4)]

/-- White space, the sign, digits and a suffix, and nothing else. -/
def Spells (str sign : Str) (value power : ℕ) : Prop :=
  ∃ ws digits suffix, str = ws ++ (sign ++ (digits ++ suffix)) ∧ (∀ c ∈ ws, isspace c = true) ∧
    digits ≠ [] ∧ (∀ c ∈ digits, isdigit c = true) ∧ value = digitsValue digits ∧
    (suffix, power) ∈ sizeSuffixes

def Denotes (str : Str) (size : ℕ) : Prop :=
  ∃ sign value power, (sign = [] ∨ sign = [43]) ∧ Spells str sign value power ∧
    size = value * 1024 ^ power ∧ size < 2 ^ 64

/-- What stands for a number of bytes is accepted with this number, and nothing else is. -/
def ReadsSize (str : Str) : Prop :=
  ∀ dest, (∀ size, Denotes str size →
      (parseSizeInto dest str).1 = true ∧ (parseSizeInto dest str).2.toNat = size) ∧
    ((¬∃ size, Denotes str size) → parseSizeInto dest str = (false, dest))

/-- A negative number behind white space that is a size again when it has come around. -/
def ComesAround (str : Str) : Prop :=
  str.head? ≠ some 45 ∧ ∃ value power, Spells str [45] value power ∧ value < 2 ^ 64 ∧
    (2 ^ 64 - value) % 2 ^ 64 * 1024 ^ power < 2 ^ 64

section Digits

variable {ws sign digits suffix str rest : Str} {value power shift : ℕ}

theorem foldl_digits (digits : Str) :
    digits.foldl (fun value c => 10 * value + (c.toNat - 48)) 0 = digitsValue digits := by
  rw [digitsValue, Nat.ofDigits_eq_foldr, List.foldr_map, List.foldr_reverse]
  simp only [Nat.cast_id, Nat.add_comm]

theorem toupper_eq_iff {c u : UInt8} (hu : 65 ≤ u.toNat ∧ u.toNat ≤ 90) :
    toupper c = u ↔ c = u ∨ c = u + 32 := by
  have hc := c.toNat_lt
  unfold toupper
  simp only [Bool.and_eq_true, decide_eq_true_eq, UInt8.le_iff_toNat_le, ← UInt8.toNat_inj,
    UInt8.toNat_add, UInt8.reduceToNat]
  split
  · rw [UInt8.toNat_sub]
    simp only [UInt8.reduceToNat]
    omega
  · omega

theorem isspace_of_isdigit {c : UInt8} (h : isdigit c = true) : isspace c = false := by
  simp only [isdigit, isspace, Bool.and_eq_true, decide_eq_true_eq, UInt8.le_iff_toNat_le,
    Bool.or_eq_false_iff, Bool.and_eq_false_iff, decide_eq_false_iff_not, ← UInt8.toNat_inj,
    UInt8.reduceToNat] at h ⊢
  omega

/-- Only one letter may follow. -/
theorem sizeShift_eq_some_iff :
    sizeShift rest = some shift ↔ ∃ power, (rest, power) ∈ sizeSuffixes ∧ shift = 10 * power := by
  constructor
  · intro h
    cases rest with
    | nil =>
        obtain rfl := Option.some.inj h
        exact ⟨0, by simp [sizeSuffixes], rfl⟩
    | cons c rest =>
        rw [sizeShift] at h
        split_ifs at h with hrest hk hm hg ht
        all_goals
          obtain rfl := Option.some.inj h
          rw [not_not] at hrest
          subst hrest
        · rw [toupper_eq_iff (by decide)] at hk
          exact ⟨1, by rcases hk with rfl | rfl <;> decide, rfl⟩
        · rw [toupper_eq_iff (by decide)] at hm
          exact ⟨2, by rcases hm with rfl | rfl <;> decide, rfl⟩
        · rw [toupper_eq_iff (by decide)] at hg
          exact ⟨3, by rcases hg with rfl | rfl <;> decide, rfl⟩
        · rw [toupper_eq_iff (by decide)] at ht
          exact ⟨4, by rcases ht with rfl | rfl <;> decide, rfl⟩
  · rintro ⟨power, hmem, rfl⟩
    simp only [sizeSuffixes, List.mem_cons, Prod.mk.injEq, List.not_mem_nil, or_false] at hmem
    rcases hmem with ⟨rfl, rfl⟩ | ⟨rfl, rfl⟩ | ⟨rfl, rfl⟩ | ⟨rfl, rfl⟩ | ⟨rfl, rfl⟩ | ⟨rfl, rfl⟩ |
      ⟨rfl, rfl⟩ | ⟨rfl, rfl⟩ | ⟨rfl, rfl⟩
    all_goals decide

theorem sizeSuffixes_not_digit {power : ℕ} (h : (suffix, power) ∈ sizeSuffixes) :
    suffix.dropWhile isdigit = suffix ∧ power ≤ 4 := by
  simp only [sizeSuffixes, List.mem_cons, Prod.mk.injEq, List.not_mem_nil, or_false] at h
  rcases h with ⟨rfl, rfl⟩ | ⟨rfl, rfl⟩ | ⟨rfl, rfl⟩ | ⟨rfl, rfl⟩ | ⟨rfl, rfl⟩ | ⟨rfl, rfl⟩ |
    ⟨rfl, rfl⟩ | ⟨rfl, rfl⟩ | ⟨rfl, rfl⟩
  all_goals decide

/-- The test before the shift is the one for a size of 64 bits. -/
theorem shift_fits_iff {value power : ℕ} (hvalue : value < 2 ^ 64) :
    ¬(10 * power ≠ 0 ∧ (2 ^ 64 - 1) >>> (10 * power) < value) ↔ value * 1024 ^ power < 2 ^ 64 := by
  have hpow : 2 ^ (10 * power) = 1024 ^ power := Nat.pow_mul 2 10 power
  rw [Nat.shiftRight_eq_div_pow, hpow, not_and_or, not_not, not_lt,
    Nat.le_div_iff_mul_le (Nat.pow_pos (by decide))]
  constructor
  · rintro (hzero | hle)
    · obtain rfl : power = 0 := by omega
      rwa [Nat.pow_zero, Nat.mul_one]
    · omega
  · intro hlt
    exact .inr (by omega)

end Digits

section Conversion

variable {ws sign digits suffix str rest : Str} {value power size : ℕ} {erange : Bool}

def IsSign (sign : Str) : Prop := sign = [] ∨ sign = [43] ∨ sign = [45]

/-- The number that `strtoull` makes of a number behind a sign. -/
def signedValue (sign : Str) (value : ℕ) : ℕ :=
  if sign = [45] then (2 ^ 64 - value) % 2 ^ 64 else value

theorem readSign_append (hsign : IsSign sign) (hne : digits ≠ [])
    (hdigits : ∀ c ∈ digits, isdigit c = true) :
    readSign (sign ++ (digits ++ suffix)) = (decide (sign = [45]), digits ++ suffix) := by
  rcases hsign with rfl | rfl | rfl
  · cases digits with
    | nil => exact absurd rfl hne
    | cons c digits =>
        have hc := (List.forall_mem_cons.mp hdigits).1
        have hother {d : UInt8} (hd : isdigit d = false) : c ≠ d := by
          rintro rfl
          rw [hc] at hd
          cases hd
        have h43 : c ≠ 43 := hother (by decide)
        have h45 : c ≠ 45 := hother (by decide)
        rw [List.nil_append, List.cons_append, readSign]
        · rfl
        · exact fun rest h => h45 (List.cons.inj h).1
        · exact fun rest h => h43 (List.cons.inj h).1
  · rfl
  · rfl

theorem dropWhile_isspace (hws : ∀ c ∈ ws, isspace c = true) (hsign : IsSign sign)
    (hne : digits ≠ []) (hdigits : ∀ c ∈ digits, isdigit c = true) :
    (ws ++ (sign ++ (digits ++ suffix))).dropWhile isspace = sign ++ (digits ++ suffix) := by
  rw [List.dropWhile_append_of_pos hws]
  rcases hsign with rfl | rfl | rfl
  · cases digits with
    | nil => exact absurd rfl hne
    | cons c digits =>
        have hc := isspace_of_isdigit (List.forall_mem_cons.mp hdigits).1
        exact List.dropWhile_cons_of_neg (by rw [hc]; exact Bool.false_ne_true)
  · rfl
  · rfl

/-- A number is converted up to its last digit. -/
theorem strtoull_spelled (hws : ∀ c ∈ ws, isspace c = true) (hsign : IsSign sign)
    (hne : digits ≠ []) (hdigits : ∀ c ∈ digits, isdigit c = true)
    (hsuffix : suffix.dropWhile isdigit = suffix) :
    strtoull (ws ++ (sign ++ (digits ++ suffix))) =
      if 2 ^ 64 ≤ digitsValue digits then (2 ^ 64 - 1, suffix, true)
      else (signedValue sign (digitsValue digits), suffix, false) := by
  have htake : (digits ++ suffix).takeWhile isdigit = digits := by
    rw [List.takeWhile_append_of_pos hdigits]
    have hnil : suffix.takeWhile isdigit = [] := by
      have hsplit := List.takeWhile_append_dropWhile (p := isdigit) (l := suffix)
      rw [hsuffix] at hsplit
      exact List.append_left_eq_self.mp hsplit
    rw [hnil, List.append_nil]
  have hdrop : (digits ++ suffix).dropWhile isdigit = suffix := by
    rw [List.dropWhile_append_of_pos hdigits, hsuffix]
  rw [strtoull, dropWhile_isspace hws hsign hne hdigits, readSign_append hsign hne hdigits]
  simp only [htake, hdrop, if_neg hne, foldl_digits, decide_eq_true_eq, signedValue]
  split_ifs
  · rfl
  · rfl
  · rfl

theorem exists_sign (str : Str) : ∃ sign, IsSign sign ∧ str = sign ++ (readSign str).2 := by
  unfold readSign
  split
  · exact ⟨[45], .inr (.inr rfl), rfl⟩
  · exact ⟨[43], .inr (.inl rfl), rfl⟩
  · exact ⟨[], .inl rfl, rfl⟩

/-- What has been converted is a number in front of the rest. -/
theorem strtoull_inv (h : strtoull str = (value, rest, erange)) (hrest : rest ≠ str) :
    ∃ ws sign digits, str = ws ++ (sign ++ (digits ++ rest)) ∧ (∀ c ∈ ws, isspace c = true) ∧
      IsSign sign ∧ digits ≠ [] ∧ (∀ c ∈ digits, isdigit c = true) ∧
      rest.dropWhile isdigit = rest := by
  obtain ⟨sign, hsign, hsplit⟩ := exists_sign (str.dropWhile isspace)
  have hdigits := List.takeWhile_append_dropWhile (p := isdigit)
    (l := (readSign (str.dropWhile isspace)).2)
  have hws := List.takeWhile_append_dropWhile (p := isspace) (l := str)
  rw [strtoull] at h
  generalize readSign (str.dropWhile isspace) = read at h hsplit hdigits
  obtain ⟨negative, digits⟩ := read
  simp only at h hsplit hdigits
  have hrest' : digits.takeWhile isdigit ≠ [] ∧ rest = digits.dropWhile isdigit := by
    split_ifs at h with hnil hlarge hneg
    · exact absurd (Prod.mk.inj (Prod.mk.inj h).2).1.symm hrest
    · exact ⟨hnil, (Prod.mk.inj (Prod.mk.inj h).2).1.symm⟩
    · exact ⟨hnil, (Prod.mk.inj (Prod.mk.inj h).2).1.symm⟩
    · exact ⟨hnil, (Prod.mk.inj (Prod.mk.inj h).2).1.symm⟩
  obtain ⟨hne, rfl⟩ := hrest'
  refine ⟨str.takeWhile isspace, sign, digits.takeWhile isdigit, ?_,
    fun c hc => List.mem_takeWhile_imp hc, hsign, hne, fun c hc => List.mem_takeWhile_imp hc,
    List.dropWhile_idempotent _ _⟩
  rw [hdigits, ← hsplit, hws]

theorem signedValue_lt (sign : Str) (h : value < 2 ^ 64) : signedValue sign value < 2 ^ 64 := by
  unfold signedValue
  split
  · omega
  · exact h

theorem parseSize_of_spells (h : Spells str sign value power) (hsign : IsSign sign)
    (hhead : str.head? ≠ some 45) (hvalue : value < 2 ^ 64)
    (hfits : signedValue sign value * 1024 ^ power < 2 ^ 64) :
    parseSize str = some (signedValue sign value * 1024 ^ power) := by
  obtain ⟨ws, digits, suffix, rfl, hws, hne, hdigits, rfl, hmem⟩ := h
  have hconvert := strtoull_spelled hws hsign hne hdigits (sizeSuffixes_not_digit hmem).1
  rw [if_neg (not_le.mpr hvalue)] at hconvert
  have hlonger : suffix ≠ ws ++ (sign ++ (digits ++ suffix)) := by
    intro heq
    have hlength := congrArg List.length heq
    have hpos := List.length_pos_iff.mpr hne
    simp only [List.length_append] at hlength
    omega
  have hnil : ws ++ (sign ++ (digits ++ suffix)) ≠ [] := by
    intro hnil
    have hlength := congrArg List.length hnil
    have hpos := List.length_pos_iff.mpr hne
    simp only [List.length_append, List.length_nil] at hlength
    omega
  rw [parseSize, if_neg (not_or.mpr ⟨hnil, hhead⟩), hconvert]
  simp only [Bool.false_eq_true, false_or, if_neg hlonger]
  rw [sizeShift_eq_some_iff.mpr ⟨power, hmem, rfl⟩, Option.bind_some,
    if_neg ((shift_fits_iff (signedValue_lt sign hvalue)).mpr hfits), Nat.shiftLeft_eq,
    Nat.pow_mul]

theorem parseSize_inv (h : parseSize str = some size) :
    str.head? ≠ some 45 ∧ size < 2 ^ 64 ∧ ∃ sign value power, IsSign sign ∧
      Spells str sign value power ∧ value < 2 ^ 64 ∧
      size = signedValue sign value * 1024 ^ power := by
  unfold parseSize at h
  split at h
  · cases h
  rename_i hfirst
  rw [not_or] at hfirst
  cases hconvert : strtoull str with
  | mk value₀ converted =>
      obtain ⟨rest, erange⟩ := converted
      rw [hconvert] at h
      simp only at h
      split at h
      · cases h
      rename_i hconverted
      rw [not_or] at hconverted
      obtain ⟨shift, hshift, hsize⟩ := Option.bind_eq_some_iff.mp h
      obtain ⟨power, hmem, rfl⟩ := sizeShift_eq_some_iff.mp hshift
      obtain ⟨ws, sign, digits, rfl, hws, hsign, hne, hdigits, hrest⟩ :=
        strtoull_inv hconvert hconverted.2
      rw [strtoull_spelled hws hsign hne hdigits hrest] at hconvert
      split at hconvert
      · rw [(Prod.mk.inj (Prod.mk.inj hconvert).2).2] at hconverted
        exact absurd rfl hconverted.1
      rename_i hvalue
      rw [not_le] at hvalue
      obtain rfl := (Prod.mk.inj hconvert).1
      split at hsize
      · cases hsize
      rename_i hfits
      rw [shift_fits_iff (signedValue_lt sign hvalue)] at hfits
      obtain rfl := Option.some.inj hsize
      rw [Nat.shiftLeft_eq, Nat.pow_mul]
      exact ⟨hfirst.2, hfits, sign, digitsValue digits, power, hsign,
        ⟨ws, digits, rest, rfl, hws, hne, hdigits, rfl, hmem⟩, hvalue, rfl⟩

end Conversion

section Sizes

variable {sign str : Str} {value power : ℕ}

theorem Spells.head?_ne (h : Spells str sign value power) (hsign : sign = [] ∨ sign = [43]) :
    str.head? ≠ some 45 := by
  obtain ⟨ws, digits, suffix, rfl, hws, hne, hdigits, -, -⟩ := h
  intro hhead
  cases ws with
  | cons c ws =>
      obtain rfl := Option.some.inj hhead
      exact absurd (hws 45 List.mem_cons_self) (by decide)
  | nil =>
      rcases hsign with rfl | rfl
      · cases digits with
        | nil => exact hne rfl
        | cons c digits =>
            obtain rfl := Option.some.inj hhead
            exact absurd (hdigits 45 List.mem_cons_self) (by decide)
      · exact absurd hhead (by simp)

/-- There is a minus sign behind the white space, or there is none. -/
theorem Spells.not_negative {value' power' : ℕ} (h : Spells str [45] value power)
    (hsign : sign = [] ∨ sign = [43]) : ¬Spells str sign value' power' := by
  obtain ⟨ws, digits, suffix, hstr, hws, hne, hdigits, -, -⟩ := h
  rintro ⟨ws', digits', suffix', hstr', hws', hne', hdigits', -, -⟩
  have hsign' : IsSign sign := hsign.imp_right .inl
  have hminus : str.dropWhile isspace = [45] ++ (digits ++ suffix) := by
    rw [hstr]
    exact dropWhile_isspace hws (.inr (.inr rfl)) hne hdigits
  have hother : str.dropWhile isspace = sign ++ (digits' ++ suffix') := by
    rw [hstr']
    exact dropWhile_isspace hws' hsign' hne' hdigits'
  rw [hminus] at hother
  rcases hsign with rfl | rfl
  · cases digits' with
    | nil => exact hne' rfl
    | cons c digits' =>
        obtain ⟨rfl, -⟩ := List.cons.inj hother
        exact absurd (hdigits' 45 List.mem_cons_self) (by decide)
  · exact absurd (List.cons.inj hother).1 (by decide)

theorem Denotes.parseSize_eq {size : ℕ} (h : Denotes str size) : parseSize str = some size := by
  obtain ⟨sign, value, power, hsign, hspells, rfl, hlt⟩ := h
  have hvalue : value < 2 ^ 64 :=
    (Nat.le_mul_of_pos_right value (Nat.pow_pos (by decide))).trans_lt hlt
  have hplain : signedValue sign value = value := by
    rcases hsign with rfl | rfl
    · rfl
    · rfl
  have hparse := parseSize_of_spells hspells (hsign.imp_right .inl) (hspells.head?_ne hsign) hvalue
    (by rwa [hplain])
  rwa [hplain] at hparse

theorem ComesAround.exists_parseSize (h : ComesAround str) : ∃ size, parseSize str = some size := by
  obtain ⟨hhead, value, power, hspells, hvalue, hfits⟩ := h
  exact ⟨_, parseSize_of_spells hspells (.inr (.inr rfl)) hhead hvalue hfits⟩

/-- Sizes are read right exactly where no negative number gets through. -/
theorem readsSize_iff (str : Str) : ReadsSize str ↔ ¬ComesAround str := by
  constructor
  · intro h haround
    have hnot : ¬∃ size, Denotes str size := by
      rintro ⟨size, sign, value, power, hsign, hspells, -⟩
      obtain ⟨-, value', power', hnegative, -⟩ := haround
      exact hnegative.not_negative hsign hspells
    have hread := (h 0).2 hnot
    obtain ⟨size, hsize⟩ := haround.exists_parseSize
    rw [parseSizeInto, hsize] at hread
    cases hread
  · intro haround dest
    constructor
    · intro size hdenotes
      obtain ⟨sign, value, power, -, -, -, hlt⟩ := id hdenotes
      rw [parseSizeInto, hdenotes.parseSize_eq]
      exact ⟨rfl, (UInt64.toNat_ofNat').trans (Nat.mod_eq_of_lt hlt)⟩
    · intro hnot
      cases hparse : parseSize str with
      | none => rw [parseSizeInto, hparse]
      | some size =>
          exfalso
          obtain ⟨hhead, hlt, sign, value, power, hsign, hspells, hvalue, rfl⟩ :=
            parseSize_inv hparse
          rcases hsign with rfl | rfl | rfl
          · exact hnot ⟨_, [], value, power, .inl rfl, hspells, rfl, hlt⟩
          · exact hnot ⟨_, [43], value, power, .inr rfl, hspells, rfl, hlt⟩
          · exact haround ⟨hhead, value, power, hspells, hvalue, hlt⟩

/-- A space before `-1` is enough for the largest size there is. -/
theorem negative_size_accepted :
    parseSizeInto 0 (ascii " -1") = (true, 18446744073709551615) ∧ ¬ReadsSize (ascii " -1") := by
  refine ⟨by decide +kernel, fun h => ?_⟩
  have hnot : ¬∃ size, Denotes (ascii " -1") size := by
    rintro ⟨size, sign, value, power, hsign, hspells, -⟩
    have hnegative : Spells (ascii " -1") [45] 1 0 :=
      ⟨[32], [49], [], rfl, List.forall_mem_singleton.mpr rfl, List.cons_ne_nil _ _,
        List.forall_mem_singleton.mpr rfl, rfl, List.mem_cons_self⟩
    exact hnegative.not_negative hsign hspells
  have hread := (h 0).2 hnot
  have haccepted : (parseSizeInto 0 (ascii " -1")).1 = true := by decide +kernel
  rw [hread] at haccepted
  cases haccepted

end Sizes

end Flocate
