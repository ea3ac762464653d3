import Flocate.Lib.Bytes

/-!
# Memory and streams of bits

Memory is a function from addresses to bytes. A sequence of bytes is also a stream of bits, lowest
bit first, and `Holds` says that it begins with given values of a fixed width.
-/

namespace Bytes

abbrev Memory := ℕ → UInt8

def writeBytes (mem : Memory) (p : ℕ) (bs : Str) : Memory := fun a =>
  if p ≤ a then (bs[a - p]?).getD (mem a) else mem a

def readLe (n : ℕ) (mem : Memory) (p : ℕ) : ℕ := leNat ((List.range n).map fun i => mem (p + i))

def HasBytes (mem : Memory) (p : ℕ) (bs : Str) : Prop :=
  ∀ i (h : i < bs.length), mem (p + i) = bs[i]

theorem writeBytes_of_lt (mem : Memory) {p a : ℕ} (bs : Str) (h : a < p) :
    writeBytes mem p bs a = mem a :=
  if_neg (Nat.not_le.mpr h)

theorem writeBytes_of_ge (mem : Memory) {p a : ℕ} (bs : Str) (h : p + bs.length ≤ a) :
    writeBytes mem p bs a = mem a := by
  rw [writeBytes, if_pos (by omega), List.getElem?_eq_none (by omega), Option.getD_none]

theorem hasBytes_writeBytes (mem : Memory) (p : ℕ) (bs : Str) :
    HasBytes (writeBytes mem p bs) p bs := by
  intro i h
  rw [writeBytes, if_pos (Nat.le_add_right p i), Nat.add_sub_cancel_left,
    List.getElem?_eq_getElem h, Option.getD_some]

theorem hasBytes_append {mem : Memory} {p : ℕ} {bs cs : Str} :
    HasBytes mem p (bs ++ cs) ↔ HasBytes mem p bs ∧ HasBytes mem (p + bs.length) cs := by
  constructor
  · refine fun h => ⟨fun i hi => ?_, fun i hi => ?_⟩
    · rw [h i (by rw [List.length_append]; omega), List.getElem_append_left hi]
    · rw [Nat.add_assoc, h (bs.length + i) (by rw [List.length_append]; omega),
        List.getElem_append_right (Nat.le_add_right _ _)]
      simp only [Nat.add_sub_cancel_left]
  · rintro ⟨hb, hc⟩ i hi
    by_cases hlt : i < bs.length
    · rw [hb i hlt, List.getElem_append_left hlt]
    · rw [List.length_append] at hi
      have hc' := hc (i - bs.length) (by omega)
      rw [List.getElem_append_right (by omega), ← hc']
      congr 1
      omega

theorem hasBytes_cons {mem : Memory} {p : ℕ} {b : UInt8} {bs : Str} :
    HasBytes mem p (b :: bs) ↔ mem p = b ∧ HasBytes mem (p + 1) bs := by
  rw [← List.singleton_append, hasBytes_append]
  refine and_congr_left fun _ => ⟨fun h => h 0 Nat.one_pos, fun h i hi => ?_⟩
  obtain rfl : i = 0 := Nat.lt_one_iff.mp hi
  exact h

/-- A region that memory keeps stays as it was. -/
theorem HasBytes.congr {mem mem' : Memory} {p : ℕ} {bs : Str} (h : HasBytes mem p bs)
    (heq : ∀ a, p ≤ a → a < p + bs.length → mem' a = mem a) : HasBytes mem' p bs := fun i hi =>
  (heq (p + i) (Nat.le_add_right p i) (by omega)).trans (h i hi)

def region (mem : Memory) (p n : ℕ) : Str := (List.range n).map fun i => mem (p + i)

@[simp] theorem length_region (mem : Memory) (p n : ℕ) : (region mem p n).length = n := by
  rw [region, List.length_map, List.length_range]

theorem hasBytes_region (mem : Memory) (p n : ℕ) : HasBytes mem p (region mem p n) := by
  intro i hi
  simp [region]

theorem region_eq {mem : Memory} {p : ℕ} {bs : Str} (h : HasBytes mem p bs) :
    region mem p bs.length = bs := by
  refine List.ext_getElem (length_region mem p _) fun i hi hi' => ?_
  rw [← h i hi', ← hasBytes_region mem p bs.length i hi]

theorem readLe_eq {mem : Memory} {p : ℕ} {bs : Str} (h : HasBytes mem p bs) :
    readLe bs.length mem p = leNat bs := congrArg leNat (region_eq h)

/-- A writer has put `bs` at `out` and kept what stands before. -/
structure Emits (mem mem' : Memory) (out : ℕ) (bs : Str) : Prop where
  keeps : ∀ a < out, mem' a = mem a
  bytes : HasBytes mem' out bs

theorem Emits.trans {mem mem' mem'' : Memory} {out mid : ℕ} {bs cs : Str}
    (h : Emits mem mem' out bs) (h' : Emits mem' mem'' mid cs) (hmid : mid = out + bs.length) :
    Emits mem mem'' out (bs ++ cs) := by
  subst hmid
  refine ⟨fun a ha => (h'.keeps a (by omega)).trans (h.keeps a ha),
    hasBytes_append.mpr ⟨?_, h'.bytes⟩⟩
  exact h.bytes.congr fun a _ ha => h'.keeps a ha

theorem emits_nil (mem : Memory) (out : ℕ) : Emits mem mem out [] := ⟨fun _ _ => rfl, nofun⟩

/-- Only the first bytes are kept. -/
theorem emits_writeBytes (mem : Memory) (out : ℕ) (bs cs : Str) :
    Emits mem (writeBytes mem out (bs ++ cs)) out bs :=
  ⟨fun _ ha => writeBytes_of_lt mem _ ha,
    (hasBytes_append.mp (hasBytes_writeBytes mem out (bs ++ cs))).1⟩

section Bits

def bitAt (bytes : ℕ → UInt8) (j : ℕ) : Bool := (bytes (j / 8)).toNat.testBit (j % 8)

/-- The stream begins with the low `w` bits of each value. -/
def Holds (bytes : ℕ → UInt8) (w : ℕ) (vs : List ℕ) : Prop :=
  ∀ i (h : i < vs.length), ∀ k < w, bitAt bytes (i * w + k) = vs[i].testBit k

theorem testBit_leNat (bs : Str) (j : ℕ) :
    (leNat bs).testBit j = ((bs[j / 8]?).getD 0).toNat.testBit (j % 8) := by
  induction bs generalizing j with
  | nil => simp
  | cons b bs ih =>
      rw [leNat_cons, Nat.add_comm, show 256 = 2 ^ 8 from rfl,
        Nat.testBit_two_pow_mul_add _ b.toNat_lt]
      by_cases hj : j < 8
      · rw [if_pos hj, Nat.div_eq_of_lt hj, Nat.mod_eq_of_lt hj]
        rfl
      · rw [if_neg hj, ih]
        obtain ⟨k, rfl⟩ := Nat.exists_eq_add_of_le (Nat.le_of_not_lt hj)
        rw [Nat.add_sub_cancel_left, Nat.add_mod_left, Nat.add_div_left _ (by omega),
          List.getElem?_cons_succ]

theorem testBit_readLe (n : ℕ) (mem : Memory) (p j : ℕ) :
    (readLe n mem p).testBit j = (decide (j < 8 * n) && bitAt (fun b => mem (p + b)) j) := by
  rw [readLe, testBit_leNat, List.getElem?_map, bitAt]
  by_cases hj : j < 8 * n
  · rw [List.getElem?_range (by omega), decide_eq_true hj, Bool.true_and]
    rfl
  · rw [List.getElem?_eq_none (by rw [List.length_range]; omega), decide_eq_false hj]
    simp

/-- The bits of a number that has been written to memory. -/
theorem bitAt_leBytes {bytes : ℕ → UInt8} {n v : ℕ}
    (h : ∀ b < n, bytes b = ((leBytes n v)[b]?).getD 0) {j : ℕ} (hj : j < 8 * n) :
    bitAt bytes j = v.testBit j := by
  have hv : (v % 2 ^ (8 * n)).testBit j = v.testBit j := by
    rw [Nat.testBit_mod_two_pow, decide_eq_true hj, Bool.true_and]
  rw [bitAt, h _ (by omega), ← testBit_leNat, leNat_leBytes, ← hv, Nat.pow_mul]

theorem Holds.of_getElem? {bytes : ℕ → UInt8} {w : ℕ} {vs : List ℕ} (h : Holds bytes w vs)
    {i v : ℕ} (hi : vs[i]? = some v) : ∀ k < w, bitAt bytes (i * w + k) = v.testBit k := by
  obtain ⟨hlt, rfl⟩ := List.getElem?_eq_some_iff.mp hi
  exact h i hlt

theorem Holds.congr {bytes bytes' : ℕ → UInt8} {w : ℕ} {vs : List ℕ} (h : Holds bytes w vs)
    (heq : ∀ b, 8 * b < vs.length * w → bytes' b = bytes b) : Holds bytes' w vs := by
  intro i hi k hk
  have hlt : i * w + k < vs.length * w :=
    Nat.lt_of_lt_of_le (Nat.add_lt_add_left hk _) (by
      rw [← Nat.succ_mul]
      exact Nat.mul_le_mul_right w hi)
  rw [← h i hi k hk, bitAt, heq _ (by omega), bitAt]

end Bits

end Bytes
