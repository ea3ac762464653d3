import Flocate.HashTableLookup

/-!
# When the hash table is too crowded

`create_hashtable` gives up at an entry that would lie too far behind its bucket. All slots between
the two are taken then, by trigrams whose buckets are near.
-/

namespace Flocate

open Fault

variable {getPlBuilder : UInt32 → FinishedList} {htSize ovSlots : UInt32}

/-- As long as no 32-bit sum wraps around, the null pointer is an overflow of the walk. -/
theorem overflows_of_insertFrom {slots : List Trigram} {bucket distance : UInt32}
    {held : Trigram} (hov : ovSlots.toNat + 1 < 2 ^ 32)
    (hp : RobinHood.Placed (home htSize) Free ovSlots.toNat bucket.toNat slots)
    (hb : bucket.toNat + slots.length < 2 ^ 32) (hd : distance.toNat ≤ ovSlots.toNat)
    (h : insertFrom htSize ovSlots slots bucket distance held = .ok none) :
    RobinHood.Overflows (home htSize) Free ovSlots.toNat slots bucket.toNat distance.toNat
      held := by
  induction slots generalizing bucket distance held with
  | nil => cases h
  | cons slot slots ih =>
      by_cases hf : Free slot
      · rw [insertFrom, if_pos (show slot.numDocids = 0 from hf)] at h
        cases h
      · rw [List.length_cons] at hb
        have hbucket : (bucket + 1).toNat = bucket.toNat + 1 := toNat_add_one (by omega)
        obtain ⟨kept, carried, next, hround, hrec⟩ :=
          insertFrom_of_not_free slots held hov hf (hp.1 hf) hd
        rw [hrec] at h
        have hover : ovSlots.toNat < next.toNat ∨ RobinHood.Overflows (home htSize) Free
            ovSlots.toNat slots (bucket.toNat + 1) next.toNat carried := by
          by_cases ho : ovSlots.toNat < next.toNat
          · exact .inl ho
          · rw [if_neg ho, map_eq_ok] at h
            obtain ⟨rest, hrest, hmap⟩ := h
            rw [Option.map_eq_none_iff] at hmap
            subst hmap
            rw [← hbucket]
            exact .inr (ih (hbucket ▸ hp.2) (by omega) (Nat.le_of_not_lt ho) hrest)
        refine ⟨hf, ?_⟩
        split_ifs at hround ⊢
        · obtain ⟨rfl, rfl, hnext⟩ := hround
          rwa [← hnext]
        · obtain ⟨rfl, rfl, hnext⟩ := hround
          rwa [← hnext]

section Tables

variable {ht ht' : List Trigram} {trgm : UInt32} {trgms : List UInt32}

theorem insertTrigram_ascending (hov : ovSlots.toNat + 1 < 2 ^ 32) (hlen : ht.length < 2 ^ 32)
    (hp : RobinHood.Placed (home htSize) Free ovSlots.toNat 0 ht)
    (ha : RobinHood.Ascending (home htSize) Free 0 0 ht)
    (hne : (getPlBuilder trgm).numDocids ≠ 0)
    (h : insertTrigram getPlBuilder htSize ovSlots ht trgm = .ok (some ht')) :
    RobinHood.Ascending (home htSize) Free 0 0 ht' := by
  obtain ⟨slots', htake, rfl, hbefore, hfrom, hins⟩ := insertTrigram_inv hov hlen hp h
  rw [← List.take_append_drop (hashTrigram trgm htSize).toNat ht, RobinHood.ascending_append, htake,
    Nat.zero_add] at ha
  have hlow := RobinHood.lowAfter_le (Nat.le_refl 0) hbefore
  rw [htake, Nat.zero_add] at hlow
  have hhome : home htSize (toInsert getPlBuilder trgm) = (hashTrigram trgm htSize).toNat := rfl
  have hnew : ¬Free (toInsert getPlBuilder trgm) := hne
  rw [RobinHood.ascending_append, htake, Nat.zero_add]
  refine ⟨ha.1, RobinHood.insertFrom_ascending hfrom ha.2 ?_ ?_ hnew hins⟩
  · rwa [hhome]
  · rw [hhome, Nat.add_zero]

/-- Where an insertion fails, the entries of an interval of buckets leave no slot for a new one. -/
theorem insertTrigram_eq_none (hov : ovSlots.toNat + 1 < 2 ^ 32) (hlen : ht.length < 2 ^ 32)
    (hp : RobinHood.Placed (home htSize) Free ovSlots.toNat 0 ht)
    (ha : RobinHood.Ascending (home htSize) Free 0 0 ht)
    (h : insertTrigram getPlBuilder htSize ovSlots ht trgm = .ok none) :
    ∃ lo hi, hi + ovSlots.toNat < ht.length ∧ lo ≤ (hashTrigram trgm htSize).toNat ∧
      (hashTrigram trgm htSize).toNat ≤ hi ∧
      ∀ j (hj : j < ht.length), lo ≤ j → j ≤ hi + ovSlots.toNat →
        ¬Free ht[j] ∧ lo ≤ home htSize ht[j] ∧ home htSize ht[j] ≤ hi := by
  rw [insertTrigram, map_eq_ok] at h
  obtain ⟨slots', hslots', hmap⟩ := h
  rw [Option.map_eq_none_iff] at hmap
  subst hmap
  by_cases hb : ht.length ≤ (hashTrigram trgm htSize).toNat
  · rw [List.drop_eq_nil_of_le hb] at hslots'
    cases hslots'
  · have hle := Nat.le_of_not_le hb
    have hfrom := hp
    rw [← List.take_append_drop (hashTrigram trgm htSize).toNat ht, RobinHood.placed_append,
      List.length_take_of_le hle, Nat.zero_add] at hfrom
    have hover := overflows_of_insertFrom hov hfrom.2 (by rw [List.length_drop]; omega)
      (Nat.zero_le _) hslots'
    have hhome : home htSize (toInsert getPlBuilder trgm) = (hashTrigram trgm htSize).toNat := rfl
    rw [← hhome] at hover hle ⊢
    exact hover.exists_crowd hle hp ha

/-- The table without success is the one of the trigrams before. -/
theorem insertTrigrams_eq_none
    (h : insertTrigrams getPlBuilder htSize ovSlots ht trgms = .ok none) :
    ∃ done trgm rest ht', trgms = done ++ trgm :: rest ∧
      insertTrigrams getPlBuilder htSize ovSlots ht done = .ok (some ht') ∧
      insertTrigram getPlBuilder htSize ovSlots ht' trgm = .ok none := by
  induction trgms generalizing ht with
  | nil => cases h
  | cons trgm trgms ih =>
      rw [insertTrigrams, bind_eq_ok] at h
      obtain ⟨_ | ht₁, h₁, h⟩ := h
      · exact ⟨[], trgm, trgms, ht, rfl, rfl, h₁⟩
      · obtain ⟨done, t, rest, ht', rfl, hdone, ht⟩ := ih h
        refine ⟨trgm :: done, t, rest, ht', rfl, ?_, ht⟩
        rw [insertTrigrams, h₁]
        exact hdone

theorem insertTrigrams_ascending (hov : ovSlots.toNat + 1 < 2 ^ 32) (hlen : ht.length < 2 ^ 32)
    (hp : RobinHood.Placed (home htSize) Free ovSlots.toNat 0 ht)
    (ha : RobinHood.Ascending (home htSize) Free 0 0 ht)
    (hne : ∀ t ∈ trgms, (getPlBuilder t).numDocids ≠ 0)
    (h : insertTrigrams getPlBuilder htSize ovSlots ht trgms = .ok (some ht')) :
    RobinHood.Ascending (home htSize) Free 0 0 ht' := by
  induction trgms generalizing ht with
  | nil =>
      obtain rfl := Option.some.inj (Except.ok.inj h)
      exact ha
  | cons trgm trgms ih =>
      rw [List.forall_mem_cons] at hne
      rw [insertTrigrams, bind_eq_ok] at h
      obtain ⟨_ | ht₁, h₁, h⟩ := h
      · cases h
      · obtain ⟨hp₁, e, -, hperm⟩ := insertTrigram_eq_ok hov hlen hp h₁
        have hlen₁ : ht₁.length = ht.length := Nat.succ.inj hperm.length_eq
        exact ih (hlen₁ ▸ hlen) hp₁ (insertTrigram_ascending hov hlen hp ha hne.1 h₁) hne.2 h

/-- Every walk ends inside of the table. -/
theorem exists_insertFrom_eq_ok {slots : List Trigram} {bucket distance : UInt32} {held : Trigram}
    (hov : ovSlots.toNat + 1 < 2 ^ 32)
    (hp : RobinHood.Placed (home htSize) Free ovSlots.toNat bucket.toNat slots)
    (hb : bucket.toNat + slots.length < 2 ^ 32) (hd : distance.toNat ≤ ovSlots.toNat)
    (hheld : home htSize held + distance.toNat = bucket.toNat)
    (hend : ∀ slot : Trigram, home htSize slot + ovSlots.toNat < bucket.toNat + slots.length) :
    ∃ r, insertFrom htSize ovSlots slots bucket distance held = .ok r := by
  induction slots generalizing bucket distance held with
  | nil =>
      have hlt := hend held
      rw [List.length_nil] at hlt
      omega
  | cons slot slots ih =>
      by_cases hf : Free slot
      · rw [insertFrom, if_pos (show slot.numDocids = 0 from hf)]
        exact ⟨_, rfl⟩
      · rw [List.length_cons] at hb hend
        have hslot := hp.1 hf
        have hbucket : (bucket + 1).toNat = bucket.toNat + 1 := toNat_add_one (by omega)
        obtain ⟨kept, carried, next, hround, hrec⟩ :=
          insertFrom_of_not_free slots held hov hf hslot hd
        have hcarried : home htSize carried + next.toNat = (bucket + 1).toNat := by
          split_ifs at hround
          · obtain ⟨rfl, rfl, hnext⟩ := hround
            omega
          · obtain ⟨rfl, rfl, hnext⟩ := hround
            omega
        have hend' : ∀ slot : Trigram,
            home htSize slot + ovSlots.toNat < (bucket + 1).toNat + slots.length := by
          intro other
          have hlt := hend other
          omega
        rw [hrec]
        split
        · exact ⟨_, rfl⟩
        · rename_i ho
          obtain ⟨r, hr⟩ :=
            ih (hbucket ▸ hp.2) (by omega) (Nat.le_of_not_lt ho) hcarried hend'
          rw [hr]
          exact ⟨_, rfl⟩

theorem exists_insertTrigram_eq_ok (h0 : 0 < htSize) (hov : ovSlots.toNat + 1 < 2 ^ 32)
    (hlen : ht.length < 2 ^ 32)
    (hsize : ht.length = htSize.toNat + ovSlots.toNat + 1)
    (hp : RobinHood.Placed (home htSize) Free ovSlots.toNat 0 ht) (trgm : UInt32) :
    ∃ r, insertTrigram getPlBuilder htSize ovSlots ht trgm = .ok r := by
  have hbucket := hashTrigram_lt h0 trgm
  have hle : (hashTrigram trgm htSize).toNat ≤ ht.length := by omega
  rw [← List.take_append_drop (hashTrigram trgm htSize).toNat ht, RobinHood.placed_append,
    List.length_take_of_le hle, Nat.zero_add] at hp
  have hlength : (hashTrigram trgm htSize).toNat +
      (ht.drop (hashTrigram trgm htSize).toNat).length = ht.length := by
    rw [List.length_drop]
    omega
  have hhome : home htSize (toInsert getPlBuilder trgm) + (0 : UInt32).toNat =
      (hashTrigram trgm htSize).toNat := rfl
  obtain ⟨r, hr⟩ := exists_insertFrom_eq_ok hov hp.2 (by omega) (Nat.zero_le _) hhome fun slot => by
    have hlt : home htSize slot < htSize.toNat := hashTrigram_lt h0 slot.trgm
    omega
  rw [insertTrigram, hr]
  exact ⟨_, rfl⟩

theorem exists_insertTrigrams_eq_ok (h0 : 0 < htSize) (hov : ovSlots.toNat + 1 < 2 ^ 32)
    (hlen : ht.length < 2 ^ 32) (hsize : ht.length = htSize.toNat + ovSlots.toNat + 1)
    (hp : RobinHood.Placed (home htSize) Free ovSlots.toNat 0 ht) (trgms : List UInt32) :
    ∃ r, insertTrigrams getPlBuilder htSize ovSlots ht trgms = .ok r := by
  induction trgms generalizing ht with
  | nil => exact ⟨_, rfl⟩
  | cons trgm trgms ih =>
      obtain ⟨r, hr⟩ := @exists_insertTrigram_eq_ok getPlBuilder _ _ _ h0 hov hlen hsize hp trgm
      rw [insertTrigrams, hr]
      cases r with
      | none => exact ⟨none, rfl⟩
      | some ht₁ =>
          obtain ⟨hp₁, e, -, hperm⟩ := insertTrigram_eq_ok hov hlen hp hr
          have hlen₁ : ht₁.length = ht.length := Nat.succ.inj hperm.length_eq
          exact ih (hlen₁ ▸ hlen) (hlen₁.trans hsize) hp₁

end Tables

def inBuckets (htSize : UInt32) (lo hi : ℕ) (trgm : UInt32) : Bool :=
  lo ≤ (hashTrigram trgm htSize).toNat ∧ (hashTrigram trgm htSize).toNat ≤ hi

/-- The trigrams of an interval of buckets are more than the slots from it on up to its reach. -/
def Crowded (htSize ovSlots : UInt32) (allTrigrams : List UInt32) : Prop :=
  ∃ lo hi, lo ≤ hi ∧
    hi + ovSlots.toNat + 1 - lo < allTrigrams.countP (inBuckets htSize lo hi)

section Crowds

variable {allTrigrams : List UInt32}

theorem free_of_mem_emptyTable :
    ∀ slot ∈ List.replicate (tableSize htSize ovSlots).toNat emptySlot, Free slot := by
  intro slot hslot
  rw [(List.mem_replicate.mp hslot).2]
  rfl

/-- The entries of an interval of buckets in a table of trigrams. -/
theorem countP_of_perm {ht : List Trigram} {done : List UInt32} {k : ℕ}
    (hne : ∀ t ∈ done, (getPlBuilder t).numDocids ≠ 0)
    (hperm : ht.Perm (done.map (toInsert getPlBuilder) ++ List.replicate k emptySlot)) (lo hi : ℕ) :
    ht.countP (fun x => decide (¬Free x ∧ lo ≤ home htSize x ∧ home htSize x ≤ hi)) =
      done.countP (inBuckets htSize lo hi) := by
  have hrest : (List.replicate k emptySlot).countP
      (fun x => decide (¬Free x ∧ lo ≤ home htSize x ∧ home htSize x ≤ hi)) = 0 := by
    rw [List.countP_eq_zero]
    intro x hx hmem
    rw [(List.mem_replicate.mp hx).2] at hmem
    exact (of_decide_eq_true hmem).1 rfl
  rw [hperm.countP_eq, List.countP_append, hrest, Nat.add_zero, List.countP_map]
  refine List.countP_congr fun t ht => ?_
  have hf : ¬Free (toInsert getPlBuilder t) := hne t ht
  rw [Function.comp_apply, inBuckets, decide_eq_true_iff, decide_eq_true_iff]
  exact ⟨fun h => h.2, fun h => ⟨hf, h⟩⟩

theorem crowded_of_fails (hw : htSize.toNat + ovSlots.toNat + 1 < 2 ^ 32)
    (hne : ∀ t ∈ allTrigrams, (getPlBuilder t).numDocids ≠ 0)
    (h : createHashtable getPlBuilder htSize ovSlots allTrigrams = .ok none) :
    Crowded htSize ovSlots allTrigrams := by
  obtain ⟨done, trgm, rest, ht, rfl, hdone, hfails⟩ := insertTrigrams_eq_none h
  rw [List.forall_mem_append] at hne
  have hov : ovSlots.toNat + 1 < 2 ^ 32 := by omega
  have hsize := toNat_tableSize hw
  have hempty : (List.replicate (tableSize htSize ovSlots).toNat emptySlot).length < 2 ^ 32 := by
    rw [List.length_replicate, hsize]
    exact hw
  have hplaced : RobinHood.Placed (home htSize) Free ovSlots.toNat 0
      (List.replicate (tableSize htSize ovSlots).toNat emptySlot) :=
    RobinHood.placed_of_forall_free free_of_mem_emptyTable 0
  obtain ⟨hp, hlen, k, hperm⟩ := insertTrigrams_eq_ok [] hov hempty hne.1 hplaced (.refl _) hdone
  have ha := insertTrigrams_ascending hov hempty hplaced
    (RobinHood.ascending_of_forall_free free_of_mem_emptyTable 0 0) hne.1 hdone
  obtain ⟨lo, hi, hhi, hlow, hhigh, hfull⟩ := insertTrigram_eq_none hov (by omega) hp ha hfails
  have hwindow : ((ht.drop lo).take (hi + ovSlots.toNat + 1 - lo)).length =
      hi + ovSlots.toNat + 1 - lo := by
    rw [List.length_take, List.length_drop]
    omega
  have hall : ∀ x ∈ (ht.drop lo).take (hi + ovSlots.toNat + 1 - lo),
      decide (¬Free x ∧ lo ≤ home htSize x ∧ home htSize x ≤ hi) = true := by
    intro x hx
    obtain ⟨i, hi, rfl⟩ := List.getElem_of_mem hx
    rw [hwindow] at hi
    simp only [List.getElem_take, List.getElem_drop]
    exact decide_eq_true (hfull (lo + i) (by omega) (by omega) (by omega))
  have hle : hi + ovSlots.toNat + 1 - lo ≤
      ht.countP fun x => decide (¬Free x ∧ lo ≤ home htSize x ∧ home htSize x ≤ hi) := by
    rw [← hwindow, ← List.countP_eq_length.mpr hall]
    exact ((List.take_sublist _ _).trans (List.drop_sublist _ _)).countP_le
  rw [List.nil_append] at hperm
  rw [countP_of_perm hne.1 hperm] at hle
  refine ⟨lo, hi, hlow.trans hhigh, ?_⟩
  have hin : inBuckets htSize lo hi trgm = true := decide_eq_true ⟨hlow, hhigh⟩
  rw [List.countP_append, List.countP_cons_of_pos hin]
  omega

/-- The table cannot be created exactly if an interval of its buckets is too crowded. -/
theorem createHashtable_eq_none_iff (hw : htSize.toNat + ovSlots.toNat + 1 < 2 ^ 32)
    (h0 : 0 < htSize) (hne : ∀ t ∈ allTrigrams, (getPlBuilder t).numDocids ≠ 0) :
    createHashtable getPlBuilder htSize ovSlots allTrigrams = .ok none ↔
      Crowded htSize ovSlots allTrigrams := by
  refine ⟨crowded_of_fails hw hne, ?_⟩
  rintro ⟨lo, hi, -, hcount⟩
  have hsize := toNat_tableSize hw
  have hplaced : RobinHood.Placed (home htSize) Free ovSlots.toNat 0
      (List.replicate (tableSize htSize ovSlots).toNat emptySlot) :=
    RobinHood.placed_of_forall_free free_of_mem_emptyTable 0
  obtain ⟨r, hr⟩ := @exists_insertTrigrams_eq_ok getPlBuilder _ _ _ h0 (by omega)
    (by rw [List.length_replicate, hsize]; exact hw) (by rw [List.length_replicate, hsize]) hplaced
    allTrigrams
  cases r with
  | none => exact hr
  | some ht =>
      obtain ⟨hp, -, k, hperm⟩ := createHashtable_eq_ok hw hne hr
      have hle := hp.countP_le lo hi
      rw [countP_of_perm hne hperm] at hle
      omega

end Crowds

end Flocate
