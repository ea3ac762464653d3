import Flocate.HashTable

/-!
# Lookups agree with the written hash table

A table that `create_hashtable` returns is a permutation of the entries of all trigrams and empty
slots, each entry within reach of its bucket. Offsets grow slot by slot by the lists written, so
the difference of two neighbouring offsets is the length of the list in between.
-/

namespace Flocate

open Bytes Fault

variable {getPlBuilder : UInt32 → FinishedList} {htSize ovSlots : UInt32}

def home (htSize : UInt32) (slot : Trigram) : ℕ := (hashTrigram slot.trgm htSize).toNat

def Free (slot : Trigram) : Prop := slot.numDocids = 0

instance : DecidablePred Free := fun slot => inferInstanceAs (Decidable (slot.numDocids = 0))

theorem toNat_add_one {d : UInt32} (h : d.toNat + 1 < 2 ^ 32) : (d + 1).toNat = d.toNat + 1 := by
  rw [UInt32.toNat_add]
  exact Nat.mod_eq_of_lt h

/-- One round of the walk over a taken slot, as long as no 32-bit sum wraps around: one of the two
entries stays, and the other one is carried on. -/
theorem insertFrom_of_not_free {slot : Trigram} (slots : List Trigram) {bucket distance : UInt32}
    (held : Trigram) (hov : ovSlots.toNat + 1 < 2 ^ 32) (hf : ¬Free slot)
    (hslot : home htSize slot ≤ bucket.toNat ∧
      bucket.toNat ≤ home htSize slot + ovSlots.toNat)
    (hd : distance.toNat ≤ ovSlots.toNat) :
    ∃ kept carried, ∃ next : UInt32,
      (if bucket.toNat - home htSize slot < distance.toNat then
        kept = held ∧ carried = slot ∧ next.toNat = bucket.toNat - home htSize slot + 1
      else kept = slot ∧ carried = held ∧ next.toNat = distance.toNat + 1) ∧
      insertFrom htSize ovSlots (slot :: slots) bucket distance held =
        if ovSlots.toNat < next.toNat then .ok none
        else
          (insertFrom htSize ovSlots slots (bucket + 1) next carried).map (.map (kept :: ·)) := by
  have hother : (bucket - hashTrigram slot.trgm htSize).toNat =
      bucket.toNat - home htSize slot := UInt32.toNat_sub_of_le _ _ hslot.1
  rw [insertFrom, if_neg (show ¬slot.numDocids = 0 from hf), ← hother]
  simp only [gt_iff_lt, UInt32.lt_iff_toNat_lt]
  by_cases hlt : (bucket - hashTrigram slot.trgm htSize).toNat < distance.toNat
  · refine ⟨held, slot, bucket - hashTrigram slot.trgm htSize + 1, ?_, ?_⟩
    · rw [if_pos hlt]
      exact ⟨rfl, rfl, toNat_add_one (by omega)⟩
    · rw [if_pos hlt]
  · refine ⟨slot, held, distance + 1, ?_, ?_⟩
    · rw [if_neg hlt]
      exact ⟨rfl, rfl, toNat_add_one (by omega)⟩
    · rw [if_neg hlt]

/-- As long as no 32-bit sum wraps around, the loop is Robin Hood insertion. -/
theorem robinHood_of_insertFrom {slots slots' : List Trigram} {bucket distance : UInt32}
    {held : Trigram} (hov : ovSlots.toNat + 1 < 2 ^ 32)
    (hp : RobinHood.Placed (home htSize) Free ovSlots.toNat bucket.toNat slots)
    (hb : bucket.toNat + slots.length < 2 ^ 32) (hd : distance.toNat ≤ ovSlots.toNat)
    (h : insertFrom htSize ovSlots slots bucket distance held = .ok (some slots')) :
    RobinHood.insertFrom (home htSize) Free ovSlots.toNat slots bucket.toNat distance.toNat held =
      some slots' := by
  induction slots generalizing slots' bucket distance held with
  | nil => cases h
  | cons slot slots ih =>
      rw [RobinHood.insertFrom]
      by_cases hf : Free slot
      · rw [insertFrom, if_pos (show slot.numDocids = 0 from hf)] at h
        rw [if_pos hf, Option.some.inj (Except.ok.inj h)]
      · rw [List.length_cons] at hb
        have hbucket : (bucket + 1).toNat = bucket.toNat + 1 := toNat_add_one (by omega)
        obtain ⟨kept, carried, next, hround, hrec⟩ :=
          insertFrom_of_not_free slots held hov hf (hp.1 hf) hd
        rw [hrec] at h
        rw [if_neg hf]
        by_cases ho : ovSlots.toNat < next.toNat
        · rw [if_pos ho] at h
          cases h
        · rw [if_neg ho, map_eq_ok] at h
          obtain ⟨rest, hrest, hmap⟩ := h
          obtain ⟨rest, rfl, rfl⟩ := Option.map_eq_some_iff.mp hmap
          have hins := ih (hbucket ▸ hp.2) (by omega) (Nat.le_of_not_lt ho) hrest
          rw [hbucket] at hins
          split_ifs at hround with hlt
          · obtain ⟨rfl, rfl, hnext⟩ := hround
            rw [if_pos hlt, ← hnext, if_neg ho, hins]
            rfl
          · obtain ⟨rfl, rfl, hnext⟩ := hround
            rw [if_neg hlt, ← hnext, if_neg ho, hins]
            rfl

/-- An insertion with success walks over the slots from the bucket on. -/
theorem insertTrigram_inv {ht ht' : List Trigram} {trgm : UInt32}
    (hov : ovSlots.toNat + 1 < 2 ^ 32) (hlen : ht.length < 2 ^ 32)
    (hp : RobinHood.Placed (home htSize) Free ovSlots.toNat 0 ht)
    (h : insertTrigram getPlBuilder htSize ovSlots ht trgm = .ok (some ht')) :
    let bucket := (hashTrigram trgm htSize).toNat
    ∃ slots', (ht.take bucket).length = bucket ∧ ht' = ht.take bucket ++ slots' ∧
      RobinHood.Placed (home htSize) Free ovSlots.toNat 0 (ht.take bucket) ∧
      RobinHood.Placed (home htSize) Free ovSlots.toNat bucket (ht.drop bucket) ∧
      RobinHood.insertFrom (home htSize) Free ovSlots.toNat (ht.drop bucket) bucket 0
        (toInsert getPlBuilder trgm) = some slots' := by
  intro bucket
  rw [insertTrigram, map_eq_ok] at h
  obtain ⟨slots', hslots', hmap⟩ := h
  obtain ⟨slots', rfl, rfl⟩ := Option.map_eq_some_iff.mp hmap
  by_cases hb : ht.length ≤ bucket
  · rw [List.drop_eq_nil_of_le hb] at hslots'
    cases hslots'
  · have htake : (ht.take bucket).length = bucket :=
      List.length_take_of_le (Nat.le_of_not_le hb)
    rw [← List.take_append_drop bucket ht, RobinHood.placed_append, htake, Nat.zero_add] at hp
    have hins := robinHood_of_insertFrom hov hp.2 (by rw [List.length_drop]; omega)
      (Nat.zero_le _) hslots'
    exact ⟨slots', htake, rfl, hp.1, hp.2, hins⟩

/-- One insertion exchanges a free slot for the new entry. -/
theorem insertTrigram_eq_ok {ht ht' : List Trigram} {trgm : UInt32}
    (hov : ovSlots.toNat + 1 < 2 ^ 32) (hlen : ht.length < 2 ^ 32)
    (hp : RobinHood.Placed (home htSize) Free ovSlots.toNat 0 ht)
    (h : insertTrigram getPlBuilder htSize ovSlots ht trgm = .ok (some ht')) :
    RobinHood.Placed (home htSize) Free ovSlots.toNat 0 ht' ∧
      ∃ e, Free e ∧ (e :: ht').Perm (toInsert getPlBuilder trgm :: ht) := by
  obtain ⟨slots', htake, rfl, hbefore, hfrom, hins⟩ := insertTrigram_inv hov hlen hp h
  obtain ⟨e, he, hperm⟩ := RobinHood.insertFrom_perm hins
  constructor
  · rw [RobinHood.placed_append, htake, Nat.zero_add]
    exact ⟨hbefore, RobinHood.insertFrom_placed hfrom rfl (Nat.zero_le _) hins⟩
  · let bucket := (hashTrigram trgm htSize).toNat
    refine ⟨e, he, ?_⟩
    calc (e :: (ht.take bucket ++ slots')).Perm (ht.take bucket ++ e :: slots') :=
          List.perm_middle.symm
      _ |>.Perm (ht.take bucket ++ toInsert getPlBuilder trgm :: ht.drop bucket) :=
          hperm.append_left _
      _ |>.Perm (toInsert getPlBuilder trgm :: (ht.take bucket ++ ht.drop bucket)) :=
          List.perm_middle
      _ |>.Perm (toInsert getPlBuilder trgm :: ht) := by rw [List.take_append_drop]

theorem insertTrigrams_eq_ok (inserted : List UInt32) {ht ht' : List Trigram}
    {trgms : List UInt32} {k : ℕ}
    (hov : ovSlots.toNat + 1 < 2 ^ 32) (hlen : ht.length < 2 ^ 32)
    (hne : ∀ t ∈ inserted ++ trgms, (getPlBuilder t).numDocids ≠ 0)
    (hp : RobinHood.Placed (home htSize) Free ovSlots.toNat 0 ht)
    (hperm : ht.Perm (inserted.map (toInsert getPlBuilder) ++ List.replicate k emptySlot))
    (h : insertTrigrams getPlBuilder htSize ovSlots ht trgms = .ok (some ht')) :
    RobinHood.Placed (home htSize) Free ovSlots.toNat 0 ht' ∧ ht'.length = ht.length ∧
      ∃ k, ht'.Perm
        ((inserted ++ trgms).map (toInsert getPlBuilder) ++ List.replicate k emptySlot) := by
  induction trgms generalizing inserted ht k with
  | nil =>
      obtain rfl := Option.some.inj (Except.ok.inj h)
      exact ⟨hp, rfl, k, by rwa [List.append_nil]⟩
  | cons trgm trgms ih =>
      rw [insertTrigrams, bind_eq_ok] at h
      obtain ⟨_ | ht₁, h₁, h⟩ := h
      · cases h
      · obtain ⟨hp₁, e, he, hperm₁⟩ := insertTrigram_eq_ok hov hlen hp h₁
        have hall := hperm₁.trans (hperm.cons (toInsert getPlBuilder trgm))
        have hmem : e ∈ List.replicate k emptySlot := by
          have hin := hall.mem_iff.mp List.mem_cons_self
          rw [← List.cons_append, ← List.map_cons, List.mem_append, List.mem_map] at hin
          rcases hin with ⟨t, ht, rfl⟩ | hin
          · refine absurd he (hne t ?_)
            rcases List.mem_cons.mp ht with rfl | ht
            · exact List.mem_append_right _ List.mem_cons_self
            · exact List.mem_append_left _ ht
          · exact hin
        obtain ⟨hk, rfl⟩ := List.mem_replicate.mp hmem
        obtain ⟨k, rfl⟩ := Nat.exists_eq_succ_of_ne_zero hk
        have hlen₁ : ht₁.length = ht.length := Nat.succ.inj hperm₁.length_eq
        have hnext : ht₁.Perm
            ((inserted ++ [trgm]).map (toInsert getPlBuilder) ++ List.replicate k emptySlot) := by
          rw [List.replicate_succ, ← List.cons_append] at hall
          have hcancel := (hall.trans List.perm_middle).cons_inv
          rw [List.map_append, List.append_assoc]
          exact hcancel.trans List.perm_middle.symm
        have hstep :=
          ih (inserted ++ [trgm]) (hlen₁ ▸ hlen) (by rwa [List.append_assoc]) hp₁ hnext h
        rwa [List.append_assoc, List.singleton_append, hlen₁] at hstep

theorem toNat_tableSize (hw : htSize.toNat + ovSlots.toNat + 1 < 2 ^ 32) :
    (tableSize htSize ovSlots).toNat = htSize.toNat + ovSlots.toNat + 1 := by
  rw [tableSize, UInt32.toNat_add, UInt32.toNat_add, Nat.mod_eq_of_lt (a := htSize.toNat + _)]
  · exact Nat.mod_eq_of_lt hw
  · omega

theorem createHashtable_eq_ok {ht : List Trigram} {allTrigrams : List UInt32}
    (hw : htSize.toNat + ovSlots.toNat + 1 < 2 ^ 32)
    (hne : ∀ t ∈ allTrigrams, (getPlBuilder t).numDocids ≠ 0)
    (h : createHashtable getPlBuilder htSize ovSlots allTrigrams = .ok (some ht)) :
    RobinHood.Placed (home htSize) Free ovSlots.toNat 0 ht ∧
      ht.length = htSize.toNat + ovSlots.toNat + 1 ∧
      ∃ k, ht.Perm (allTrigrams.map (toInsert getPlBuilder) ++ List.replicate k emptySlot) := by
  have hfree : ∀ slot ∈ List.replicate (tableSize htSize ovSlots).toNat emptySlot, Free slot := by
    intro slot hslot
    rw [(List.mem_replicate.mp hslot).2]
    rfl
  have hspec := insertTrigrams_eq_ok [] (by omega)
    (by rw [List.length_replicate, toNat_tableSize hw]; exact hw) hne
    (RobinHood.placed_of_forall_free hfree 0) (List.Perm.refl _) h
  rwa [List.length_replicate, toNat_tableSize hw] at hspec

section Offsets

theorem length_assignOffsets (offset : ℕ) (ht : List Trigram) :
    (assignOffsets getPlBuilder offset ht).length = ht.length := by
  induction ht generalizing offset with
  | nil => rfl
  | cons slot ht ih => rw [assignOffsets, List.length_cons, ih, List.length_cons]

theorem getElem_assignOffsets {offset : ℕ} {ht : List Trigram} {i : ℕ}
    (hi : i < (assignOffsets getPlBuilder offset ht).length) (hi' : i < ht.length) :
    (assignOffsets getPlBuilder offset ht)[i] =
      { ht[i] with
        offset := offset + ((ht.take i).flatMap (slotList getPlBuilder)).length } := by
  induction ht generalizing offset i with
  | nil => cases hi'
  | cons slot ht ih =>
      cases i with
      | zero => rfl
      | succ i =>
          rw [List.length_cons, Nat.succ_lt_succ_iff] at hi'
          simp only [assignOffsets, List.getElem_cons_succ, List.take_succ_cons,
            List.flatMap_cons, List.length_append, ← Nat.add_assoc]
          exact ih _ hi'

theorem flatMap_assignOffsets (offset : ℕ) (ht : List Trigram) :
    (assignOffsets getPlBuilder offset ht).flatMap (slotList getPlBuilder) =
      ht.flatMap (slotList getPlBuilder) := by
  induction ht generalizing offset with
  | nil => rfl
  | cons slot ht ih =>
      rw [assignOffsets, List.flatMap_cons, ih, List.flatMap_cons]
      rfl

theorem length_flatMap_toBytes (ht : List Trigram) :
    (ht.flatMap Trigram.toBytes).length = ht.length * 16 := by
  induction ht with
  | nil => rfl
  | cons slot ht ih =>
      rw [List.flatMap_cons, List.length_append, ih, Trigram.length_toBytes, List.length_cons]
      omega

end Offsets

section Scan

theorem scanSlots_eq_some {trgm : UInt32} {l : List Trigram} {e : Trigram} {len : ℕ}
    (h : scanSlots trgm l = some (e, len)) :
    ∃ i, ∃ hi : i + 1 < l.length,
      l[i] = e ∧ e.trgm = trgm ∧ len = l[i + 1].offset - e.offset := by
  induction l using scanSlots.induct trgm with
  | case1 slot next slots ht =>
      rw [scanSlots, if_pos ht, Option.some.injEq, Prod.mk.injEq] at h
      obtain ⟨rfl, rfl⟩ := h
      exact ⟨0, by simp, rfl, ht, rfl⟩
  | case2 slot next slots ht ih =>
      rw [scanSlots, if_neg ht] at h
      obtain ⟨i, hi, hrest⟩ := ih h
      exact ⟨i + 1, Nat.succ_lt_succ hi, hrest⟩
  | case3 l hl =>
      rw [scanSlots] at h
      · cases h
      · exact hl

theorem scanSlots_eq_none {trgm : UInt32} {l : List Trigram} (h : scanSlots trgm l = none)
    {i : ℕ} (hi : i + 1 < l.length) : l[i].trgm ≠ trgm := by
  induction l using scanSlots.induct trgm generalizing i with
  | case1 slot next slots ht =>
      rw [scanSlots, if_pos ht] at h
      cases h
  | case2 slot next slots ht ih =>
      rw [scanSlots, if_neg ht] at h
      cases i with
      | zero => exact ht
      | succ i => exact ih h (Nat.lt_of_succ_lt_succ hi)
  | case3 l hl =>
      match l, hi with
      | slot :: next :: slots, _ => exact absurd rfl (hl slot next slots)

end Scan

section Lookup

theorem drop_take_flatMap {α : Type*} (f : α → Str) (l : List α) {i : ℕ} (hi : i < l.length) :
    ((l.flatMap f).drop ((l.take i).flatMap f).length).take (f l[i]).length = f l[i] := by
  have hsplit : l.flatMap f =
      (l.take i).flatMap f ++ (f l[i] ++ (l.drop (i + 1)).flatMap f) := by
    rw [← List.flatMap_cons, ← List.drop_eq_getElem_cons hi, ← List.flatMap_append,
      List.take_append_drop]
  rw [hsplit, List.drop_left, List.take_left]

theorem length_flatMap_take_succ {α : Type*} (f : α → Str) (l : List α) {i : ℕ}
    (hi : i < l.length) :
    ((l.take (i + 1)).flatMap f).length = ((l.take i).flatMap f).length + (f l[i]).length := by
  rw [List.take_succ_eq_append_getElem hi, List.flatMap_append, List.length_append,
    List.flatMap_singleton]

theorem length_flatMap_take_mono {α : Type*} (f : α → Str) (l : List α) {i j : ℕ} (h : i ≤ j) :
    ((l.take i).flatMap f).length ≤ ((l.take j).flatMap f).length := by
  rw [← List.take_append_drop i (l.take j), List.take_take, Nat.min_eq_left h,
    List.flatMap_append, List.length_append]
  exact Nat.le_add_right _ _

variable {written : Str} {ht : List Trigram} {allTrigrams : List UInt32}

def listsEnd (getPlBuilder : UInt32 → FinishedList) (written : Str) (ht : List Trigram) (i : ℕ) :
    ℕ :=
  written.length + ht.length * 16 + ((ht.take i).flatMap (slotList getPlBuilder)).length

theorem length_hashtable (written : Str) (ht : List Trigram) :
    (writeHashtable getPlBuilder htSize ovSlots written ht).hashtable.length = ht.length :=
  length_assignOffsets _ ht

theorem getElem_hashtable (hsize : (tableSize htSize ovSlots).toNat = ht.length) {i : ℕ}
    (hi : i < (writeHashtable getPlBuilder htSize ovSlots written ht).hashtable.length)
    (hi' : i < ht.length) :
    (writeHashtable getPlBuilder htSize ovSlots written ht).hashtable[i] =
      { ht[i] with offset := listsEnd getPlBuilder written ht i } := by
  rw [listsEnd, ← hsize]
  exact getElem_assignOffsets hi hi'

/-- Between the offsets of two neighbouring slots lies the list of the first one. -/
theorem bytes_of_slot (getPlBuilder : UInt32 → FinishedList) (htSize ovSlots : UInt32)
    (written : Str) {i : ℕ} (hi : i < ht.length) :
    let corpus := writeHashtable getPlBuilder htSize ovSlots written ht
    let start := listsEnd getPlBuilder written ht i
    let len := listsEnd getPlBuilder written ht (i + 1) - start
    start + len ≤ corpus.bytes.length ∧
      (corpus.bytes.drop start).take len = slotList getPlBuilder ht[i] := by
  intro corpus start len
  have hlen : len = (slotList getPlBuilder ht[i]).length := by
    have hsucc := length_flatMap_take_succ (slotList getPlBuilder) ht hi
    simp only [len, start, listsEnd, hsucc]
    omega
  let table :=
    assignOffsets getPlBuilder (written.length + (tableSize htSize ovSlots).toNat * 16) ht
  have hbytes : corpus.bytes =
      (written ++ table.flatMap Trigram.toBytes) ++ ht.flatMap (slotList getPlBuilder) := by
    rw [← flatMap_assignOffsets (written.length + (tableSize htSize ovSlots).toNat * 16) ht]
    rfl
  have hpre : (written ++ table.flatMap Trigram.toBytes).length =
      written.length + ht.length * 16 := by
    rw [List.length_append, length_flatMap_toBytes, length_assignOffsets]
  constructor
  · have hmono := length_flatMap_take_mono (slotList getPlBuilder) ht (Nat.succ_le_of_lt hi)
    rw [List.take_length, length_flatMap_take_succ _ _ hi] at hmono
    rw [hbytes, List.length_append, hpre, hlen]
    simp only [start, listsEnd]
    omega
  · rw [hbytes, hlen]
    simp only [start, listsEnd, ← hpre]
    rw [← List.drop_drop, List.drop_left, drop_take_flatMap _ _ hi]

theorem findTrigram_eq (written : Str) (ht : List Trigram) (trgm : UInt32) :
    let corpus := writeHashtable getPlBuilder htSize ovSlots written ht
    let bucket := (hashTrigram trgm htSize).toNat
    findTrigram corpus trgm =
      if bucket + (ovSlots.toNat + 2) ≤ corpus.hashtable.length then
        .ok (scanSlots trgm ((corpus.hashtable.drop bucket).take (ovSlots.toNat + 2)))
      else .error .outOfBounds := rfl

/-- What a successful lookup has read: a slot that holds the trigram, and the next one. -/
theorem findTrigram_eq_some (hsize : (tableSize htSize ovSlots).toNat = ht.length)
    {trgm : UInt32} {e : Trigram} {len : ℕ}
    (h : findTrigram (writeHashtable getPlBuilder htSize ovSlots written ht) trgm =
      .ok (some (e, len))) :
    ∃ i, ∃ hi : i + 1 < ht.length, ht[i].trgm = trgm ∧ e.trgm = trgm ∧
      e.numDocids = ht[i].numDocids ∧ e.offset = listsEnd getPlBuilder written ht i ∧
      len = listsEnd getPlBuilder written ht (i + 1) - e.offset := by
  rw [findTrigram_eq] at h
  split at h
  · obtain ⟨j, hj, he, hte, hlen⟩ := scanSlots_eq_some (Except.ok.inj h)
    rw [List.length_take, List.length_drop, length_hashtable] at hj
    have hi : (hashTrigram trgm htSize).toNat + j + 1 < ht.length := by
      omega
    rw [List.getElem_take, List.getElem_drop,
      getElem_hashtable hsize _ (Nat.lt_of_succ_lt hi)] at he
    simp only [List.getElem_take, List.getElem_drop, ← Nat.add_assoc] at hlen
    rw [getElem_hashtable hsize _ hi] at hlen
    exact ⟨_, hi, (congrArg Trigram.trgm he).trans hte, hte, (congrArg Trigram.numDocids he).symm,
      (congrArg Trigram.offset he).symm, hlen⟩
  · cases h

/-- A 24-bit trigram is only found where its own entry was inserted. -/
theorem slot_of_trgm {k : ℕ} {slot : Trigram}
    (hperm : ht.Perm (allTrigrams.map (toInsert getPlBuilder) ++ List.replicate k emptySlot))
    (hslot : slot ∈ ht) (h24 : slot.trgm < 0x1000000) :
    slot.trgm ∈ allTrigrams ∧ slot = toInsert getPlBuilder slot.trgm := by
  rcases List.mem_append.mp (hperm.mem_iff.mp hslot) with hin | hin
  · obtain ⟨t, ht, rfl⟩ := List.mem_map.mp hin
    exact ⟨ht, rfl⟩
  · rw [(List.mem_replicate.mp hin).2] at h24
    exact absurd h24 (by decide)

theorem bucket_add_le (getPlBuilder : UInt32 → FinishedList) (written : Str) (h0 : 0 < htSize)
    (hlen : ht.length = htSize.toNat + ovSlots.toNat + 1) (trgm : UInt32) :
    (hashTrigram trgm htSize).toNat + (ovSlots.toNat + 2) ≤
      (writeHashtable getPlBuilder htSize ovSlots written ht).hashtable.length := by
  have hlt := hashTrigram_lt h0 trgm
  rw [length_hashtable, hlen]
  omega

theorem findTrigram_of_mem (written : Str) (h0 : 0 < htSize)
    (hlen : ht.length = htSize.toNat + ovSlots.toNat + 1)
    (hsize : (tableSize htSize ovSlots).toNat = ht.length)
    (hp : RobinHood.Placed (home htSize) Free ovSlots.toNat 0 ht) {slot : Trigram}
    (hslot : slot ∈ ht) (hf : ¬Free slot) :
    ∃ e len, findTrigram (writeHashtable getPlBuilder htSize ovSlots written ht) slot.trgm =
      .ok (some (e, len)) := by
  obtain ⟨i, hi, rfl⟩ := List.getElem_of_mem hslot
  obtain ⟨hlo, hhi⟩ := RobinHood.placed_getElem hp hi hf
  rw [Nat.zero_add] at hlo hhi
  have hin := bucket_add_le getPlBuilder written h0
    hlen ht[i].trgm
  let corpus := writeHashtable getPlBuilder htSize ovSlots written ht
  let window := (corpus.hashtable.drop (home htSize ht[i])).take (ovSlots.toNat + 2)
  have hread : findTrigram corpus ht[i].trgm = .ok (scanSlots ht[i].trgm window) := if_pos hin
  rw [hread]
  cases hs : scanSlots ht[i].trgm window with
  | some p => exact ⟨p.1, p.2, rfl⟩
  | none =>
      have hw : window.length = ovSlots.toNat + 2 := by
        have hlt := hashTrigram_lt h0 ht[i].trgm
        rw [List.length_take, List.length_drop, length_hashtable, hlen]
        change min _ (_ - (hashTrigram ht[i].trgm htSize).toNat) = _
        omega
      have hj : i - home htSize ht[i] + 1 < window.length := by omega
      have hne := scanSlots_eq_none hs hj
      simp only [window, List.getElem_take, List.getElem_drop, Nat.add_sub_cancel' hlo] at hne
      rw [getElem_hashtable hsize _ hi] at hne
      exact absurd rfl hne

end Lookup

/-- Lookups in a table that `create_hashtable` returned, with the offsets of `finish_corpus`. -/
theorem findTrigram_writeHashtable (getPlBuilder : UInt32 → FinishedList) (htSize ovSlots : UInt32)
    (h0 : 0 < htSize) (hw : htSize.toNat + ovSlots.toNat + 1 < 2 ^ 32)
    (allTrigrams : List UInt32) (h24 : ∀ t ∈ allTrigrams, t < 0x1000000)
    (hne : ∀ t ∈ allTrigrams, (getPlBuilder t).numDocids ≠ 0) (ht : List Trigram)
    (h : createHashtable getPlBuilder htSize ovSlots allTrigrams = .ok (some ht)) (written : Str) :
    let corpus := writeHashtable getPlBuilder htSize ovSlots written ht
    (∀ t ∈ allTrigrams, ∃ e len, findTrigram corpus t = .ok (some (e, len)) ∧ e.trgm = t ∧
      e.numDocids = (getPlBuilder t).numDocids ∧ e.offset + len ≤ corpus.bytes.length ∧
      (corpus.bytes.drop e.offset).take len = (getPlBuilder t).encoded) ∧
    (∀ t₁ ∈ allTrigrams, ∀ t₂ ∈ allTrigrams, t₁ ≠ t₂ → ∀ e₁ len₁ e₂ len₂,
      findTrigram corpus t₁ = .ok (some (e₁, len₁)) →
      findTrigram corpus t₂ = .ok (some (e₂, len₂)) →
      e₁.offset + len₁ ≤ e₂.offset ∨ e₂.offset + len₂ ≤ e₁.offset) ∧
    (∀ t < 0x1000000, t ∉ allTrigrams → findTrigram corpus t = .ok none) ∧
    ∀ t, (hashTrigram t htSize).toNat + (corpus.hdr.extraHtSlots.toNat + 2) ≤
      corpus.hashtable.length := by
  obtain ⟨hp, hlen, k, hperm⟩ := createHashtable_eq_ok hw hne h
  have hsize : (tableSize htSize ovSlots).toNat = ht.length := (toNat_tableSize hw).trans hlen.symm
  refine ⟨fun t htm => ?_, fun t₁ ht₁ t₂ ht₂ hne₁₂ e₁ len₁ e₂ len₂ h₁ h₂ => ?_,
    fun t h24t htm => ?_, bucket_add_le getPlBuilder written h0 hlen⟩
  · have hslot : toInsert getPlBuilder t ∈ ht :=
      hperm.mem_iff.mpr (List.mem_append_left _ (List.mem_map_of_mem htm))
    obtain ⟨e, len, hfind⟩ := findTrigram_of_mem written h0 hlen hsize hp hslot (hne t htm)
    obtain ⟨i, hi, hti, hte, hnum, hoff, hl⟩ := findTrigram_eq_some hsize hfind
    change ht[i].trgm = t at hti
    have hi' := Nat.lt_of_succ_lt hi
    have hslot_eq : ht[i] = toInsert getPlBuilder t :=
      (slot_of_trgm hperm (List.getElem_mem hi') (hti ▸ h24 t htm)).2.trans (congrArg _ hti)
    obtain ⟨hle, hbytes⟩ := bytes_of_slot getPlBuilder htSize ovSlots written hi'
    rw [← hoff, ← hl] at hle hbytes
    refine ⟨e, len, hfind, hte, ?_, hle, ?_⟩
    · rw [hnum, hslot_eq]
      rfl
    · rw [hbytes, hslot_eq]
      exact if_neg (hne t htm)
  · obtain ⟨i, hi, hti, -, -, hoffi, hli⟩ := findTrigram_eq_some hsize h₁
    obtain ⟨j, hj, htj, -, -, hoffj, hlj⟩ := findTrigram_eq_some hsize h₂
    have hstep (m : ℕ) : listsEnd getPlBuilder written ht m ≤
        listsEnd getPlBuilder written ht (m + 1) :=
      Nat.add_le_add_left (length_flatMap_take_mono _ ht (Nat.le_succ m)) _
    have hbelow {a b : ℕ} (hab : a < b) : listsEnd getPlBuilder written ht (a + 1) ≤
        listsEnd getPlBuilder written ht b :=
      Nat.add_le_add_left (length_flatMap_take_mono _ ht hab) _
    rcases Nat.lt_trichotomy i j with hij | rfl | hij
    · left
      have := hstep i
      have := hbelow hij
      omega
    · exact absurd (hti.symm.trans htj) hne₁₂
    · right
      have := hstep j
      have := hbelow hij
      omega
  · have hin := bucket_add_le getPlBuilder written h0
      hlen t
    cases hr : findTrigram (writeHashtable getPlBuilder htSize ovSlots written ht) t with
    | error f =>
        have hread := hr.symm.trans (if_pos hin)
        cases hread
    | ok r =>
        cases r with
        | none => rfl
        | some p =>
            obtain ⟨i, hi, hti, -⟩ := findTrigram_eq_some hsize hr
            have hmem := slot_of_trgm hperm (List.getElem_mem (Nat.lt_of_succ_lt hi))
              (hti ▸ h24t)
            exact absurd (hti ▸ hmem.1) htm

theorem findTrigram_writeHashtable_two :
    findTrigram (writeHashtable (fun _ => ⟨1, [0]⟩) 3 numOverflowSlots []
      (emptySlot :: ⟨5, 1, 0⟩ :: ⟨7, 1, 0⟩ :: List.replicate 17 emptySlot)) 8 = .ok none := by
  have h24 : ∀ t ∈ [5, 7], t < (0x1000000 : UInt32) :=
    List.forall_mem_cons.mpr ⟨by decide, List.forall_mem_singleton.mpr (by decide)⟩
  have hne : ∀ t ∈ ([5, 7] : List UInt32), (⟨1, [0]⟩ : FinishedList).numDocids ≠ 0 := by simp
  exact (findTrigram_writeHashtable (fun _ => ⟨1, [0]⟩) 3 numOverflowSlots (by decide +kernel)
    (by decide +kernel) [5, 7] h24 hne _ (by decide +kernel) []).2.2.1 8 (by decide) (by decide)

/-- With `2 ^ 32 - 1` buckets the 32-bit table size wraps around to 16, and already the read for
the trigram 0, whose bucket is 0, leaves the table. -/
theorem findTrigram_outOfBounds_of_wrap :
    ∃ ht, createHashtable (fun _ => ⟨1, [0]⟩) 0xffffffff numOverflowSlots [0] = .ok (some ht) ∧
      findTrigram (writeHashtable (fun _ => ⟨1, [0]⟩) 0xffffffff numOverflowSlots [] ht) 0 =
        .error .outOfBounds :=
  ⟨⟨0, 1, 0⟩ :: List.replicate 15 emptySlot, by decide +kernel, by decide +kernel⟩

end Flocate
