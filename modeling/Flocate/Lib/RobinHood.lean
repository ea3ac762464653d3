import Mathlib.Data.List.Perm.Basic
import Mathlib.Data.Nat.Find
import Mathlib.Tactic.Common

/-!
# Robin Hood insertion without wrap-around

A table is a list of slots, some of them `free`. Every entry has a `home`, and it may lie at most
`reach` slots behind it. Insertion walks over the slots from the home of the new entry and swaps
the entry in hand with any that lies nearer to its own home. It only ever exchanges a free slot
for the new entry, every entry stays within reach, and in a run of entries the homes ascend. So an
insertion only fails where an interval of homes has more entries than slots up to its reach.
-/

namespace RobinHood

variable {α : Type*} (home : α → ℕ) (free : α → Prop) [DecidablePred free] (reach : ℕ)

/-- `slots` are the slots from number `i` on, `distance` tells how far `i` is from the home of the
entry in hand. -/
def insertFrom : List α → ℕ → ℕ → α → Option (List α)
  | [], _, _, _ => none
  | slot :: slots, i, distance, held =>
      if free slot then some (held :: slots)
      else if i - home slot < distance then
        if reach < i - home slot + 1 then none
        else (insertFrom slots (i + 1) (i - home slot + 1) slot).map (held :: ·)
      else
        if reach < distance + 1 then none
        else (insertFrom slots (i + 1) (distance + 1) held).map (slot :: ·)

def Placed : ℕ → List α → Prop
  | _, [] => True
  | i, slot :: slots =>
      (¬free slot → home slot ≤ i ∧ i ≤ home slot + reach) ∧ Placed (i + 1) slots

variable {home free reach}

omit [DecidablePred free] in
theorem placed_append (i : ℕ) (l₁ l₂ : List α) : Placed home free reach i (l₁ ++ l₂) ↔
    Placed home free reach i l₁ ∧ Placed home free reach (i + l₁.length) l₂ := by
  induction l₁ generalizing i with
  | nil => simp [Placed]
  | cons slot l₁ ih =>
      rw [List.cons_append, Placed, Placed, ih, and_assoc, List.length_cons,
        Nat.add_right_comm, Nat.add_assoc]

omit [DecidablePred free] in
theorem placed_getElem {i : ℕ} {l : List α} (h : Placed home free reach i l) {k : ℕ}
    (hk : k < l.length) (hf : ¬free l[k]) :
    home l[k] ≤ i + k ∧ i + k ≤ home l[k] + reach := by
  rw [← List.take_append_drop k l, placed_append, List.drop_eq_getElem_cons hk, Placed,
    List.length_take_of_le (Nat.le_of_lt hk)] at h
  exact h.2.1 hf

omit [DecidablePred free] in
theorem placed_of_forall_free {l : List α} (h : ∀ slot ∈ l, free slot) (i : ℕ) :
    Placed home free reach i l := by
  induction l generalizing i with
  | nil => trivial
  | cons slot l ih =>
      rw [List.forall_mem_cons] at h
      exact ⟨fun hf => absurd h.1 hf, ih h.2 (i + 1)⟩

theorem insertFrom_perm {slots slots' : List α} {i distance : ℕ} {held : α}
    (h : insertFrom home free reach slots i distance held = some slots') :
    ∃ e, free e ∧ (e :: slots').Perm (held :: slots) := by
  induction slots generalizing slots' i distance held with
  | nil => cases h
  | cons slot slots ih =>
      rw [insertFrom] at h
      by_cases hf : free slot
      · rw [if_pos hf] at h
        obtain rfl := Option.some.inj h
        exact ⟨slot, hf, List.Perm.swap held slot slots⟩
      · rw [if_neg hf] at h
        by_cases hd : i - home slot < distance
        · rw [if_pos hd] at h
          by_cases hr : reach < i - home slot + 1
          · rw [if_pos hr] at h
            cases h
          · rw [if_neg hr, Option.map_eq_some_iff] at h
            obtain ⟨rest, hrest, rfl⟩ := h
            obtain ⟨e, he, hp⟩ := ih hrest
            exact ⟨e, he, (List.Perm.swap held e rest).trans (hp.cons held)⟩
        · rw [if_neg hd] at h
          by_cases hr : reach < distance + 1
          · rw [if_pos hr] at h
            cases h
          · rw [if_neg hr, Option.map_eq_some_iff] at h
            obtain ⟨rest, hrest, rfl⟩ := h
            obtain ⟨e, he, hp⟩ := ih hrest
            exact ⟨e, he, ((List.Perm.swap slot e rest).trans (hp.cons slot)).trans
              (List.Perm.swap held slot slots)⟩

theorem insertFrom_placed {slots slots' : List α} {i distance : ℕ} {held : α}
    (hp : Placed home free reach i slots) (hi : home held + distance = i)
    (hr : distance ≤ reach) (h : insertFrom home free reach slots i distance held = some slots') :
    Placed home free reach i slots' := by
  induction slots generalizing slots' i distance held with
  | nil => cases h
  | cons slot slots ih =>
      have hheld : home held ≤ i ∧ i ≤ home held + reach := ⟨by omega, by omega⟩
      rw [insertFrom] at h
      by_cases hf : free slot
      · rw [if_pos hf] at h
        obtain rfl := Option.some.inj h
        exact ⟨fun _ => hheld, hp.2⟩
      · rw [if_neg hf] at h
        have hslot := hp.1 hf
        by_cases hd : i - home slot < distance
        · rw [if_pos hd] at h
          by_cases ho : reach < i - home slot + 1
          · rw [if_pos ho] at h
            cases h
          · rw [if_neg ho, Option.map_eq_some_iff] at h
            obtain ⟨rest, hrest, rfl⟩ := h
            exact ⟨fun _ => hheld, ih hp.2 (by omega) (by omega) hrest⟩
        · rw [if_neg hd] at h
          by_cases ho : reach < distance + 1
          · rw [if_pos ho] at h
            cases h
          · rw [if_neg ho, Option.map_eq_some_iff] at h
            obtain ⟨rest, hrest, rfl⟩ := h
            exact ⟨fun _ => hslot, ih hp.2 (by omega) (by omega) hrest⟩

section Overflow

variable (home free reach)

/-- The walk comes to an entry that would leave its reach. -/
def Overflows : List α → ℕ → ℕ → α → Prop
  | [], _, _, _ => False
  | slot :: slots, i, distance, held =>
      ¬free slot ∧
        if i - home slot < distance then
          reach < i - home slot + 1 ∨ Overflows slots (i + 1) (i - home slot + 1) slot
        else reach < distance + 1 ∨ Overflows slots (i + 1) (distance + 1) held

/-- In a run of entries from slot number `i` on the homes ascend, and none lies before the run;
`low` is what the next one must not lie below. -/
def Ascending : ℕ → ℕ → List α → Prop
  | _, _, [] => True
  | low, i, slot :: slots =>
      if free slot then Ascending (i + 1) (i + 1) slots
      else low ≤ home slot ∧ Ascending (home slot) (i + 1) slots

def lowAfter : ℕ → ℕ → List α → ℕ
  | low, _, [] => low
  | _, i, slot :: slots =>
      if free slot then lowAfter (i + 1) (i + 1) slots else lowAfter (home slot) (i + 1) slots

variable {home free reach}

theorem ascending_of_forall_free {l : List α} (h : ∀ slot ∈ l, free slot) (low i : ℕ) :
    Ascending home free low i l := by
  induction l generalizing low i with
  | nil => trivial
  | cons slot l ih =>
      rw [List.forall_mem_cons] at h
      rw [Ascending, if_pos h.1]
      exact ih h.2 _ _

theorem Ascending.mono {l : List α} {low low' i : ℕ} (h : Ascending home free low i l)
    (hle : low' ≤ low) : Ascending home free low' i l := by
  cases l with
  | nil => trivial
  | cons slot l =>
      rw [Ascending] at h ⊢
      split
      · rename_i hf
        rwa [if_pos hf] at h
      · rename_i hf
        rw [if_neg hf] at h
        exact ⟨Nat.le_trans hle h.1, h.2⟩

theorem ascending_append (l₁ l₂ : List α) (low i : ℕ) :
    Ascending home free low i (l₁ ++ l₂) ↔ Ascending home free low i l₁ ∧
      Ascending home free (lowAfter home free low i l₁) (i + l₁.length) l₂ := by
  induction l₁ generalizing low i with
  | nil => simp [Ascending, lowAfter]
  | cons slot l₁ ih =>
      rw [List.cons_append, Ascending, Ascending, lowAfter, List.length_cons,
        ← Nat.add_assoc, Nat.add_right_comm]
      split
      · exact ih _ _
      · rw [ih, and_assoc]

theorem lowAfter_le {low i : ℕ} (h : low ≤ i) {l : List α} (hp : Placed home free reach i l) :
    lowAfter home free low i l ≤ i + l.length := by
  induction l generalizing low i with
  | nil => exact h
  | cons slot l ih =>
      rw [lowAfter, List.length_cons, ← Nat.add_assoc, Nat.add_right_comm]
      split
      · exact ih (Nat.le_refl _) hp.2
      · rename_i hf
        exact ih (Nat.le_succ_of_le (hp.1 hf).1) hp.2

theorem Ascending.low_le {l : List α} {low i : ℕ} (h : Ascending home free low i l)
    (hp : Placed home free reach i l) (hi : low ≤ i) {k : ℕ} (hk : k < l.length) (hf : ¬free l[k]) :
    low ≤ home l[k] := by
  induction l generalizing low i k with
  | nil => cases hk
  | cons slot l ih =>
      rw [Ascending] at h
      cases k with
      | zero =>
          rw [List.getElem_cons_zero] at hf
          rw [if_neg hf] at h
          exact h.1
      | succ k =>
          rw [List.getElem_cons_succ] at hf
          have hk' := Nat.lt_of_succ_lt_succ hk
          split at h
          · exact Nat.le_trans (Nat.le_succ_of_le hi) (ih h hp.2 (Nat.le_refl _) hk' hf)
          · rename_i hslot
            exact Nat.le_trans h.1 (ih h.2 hp.2 (Nat.le_succ_of_le (hp.1 hslot).1) hk' hf)

/-- Between the home of an entry and its slot there is no free one, and no entry whose home lies
behind that home. -/
theorem Ascending.taken {l : List α} {low i : ℕ} (h : Ascending home free low i l)
    (hp : Placed home free reach i l) {j k : ℕ} (hj : j < l.length) (hk : k < l.length)
    (hjk : j ≤ k) (hf : ¬free l[k]) (hhome : home l[k] ≤ i + j) :
    ¬free l[j] ∧ home l[j] ≤ home l[k] := by
  induction l generalizing low i j k with
  | nil => cases hk
  | cons slot l ih =>
      cases k with
      | zero =>
          obtain rfl := Nat.le_zero.mp hjk
          exact ⟨hf, Nat.le_refl _⟩
      | succ k =>
          rw [List.getElem_cons_succ] at hf hhome
          rw [Ascending] at h
          have hk' := Nat.lt_of_succ_lt_succ hk
          cases j with
          | zero =>
              rw [List.getElem_cons_zero, List.getElem_cons_succ]
              split at h
              · have hle := h.low_le hp.2 (Nat.le_refl _) hk' hf
                omega
              · rename_i hslot
                exact ⟨hslot, h.2.low_le hp.2 (Nat.le_succ_of_le (hp.1 hslot).1) hk' hf⟩
          | succ j =>
              rw [List.getElem_cons_succ]
              have hhome' : home l[k] ≤ i + 1 + j := by omega
              have hj' := Nat.lt_of_succ_lt_succ hj
              split at h
              · exact ih h hp.2 hj' hk' (Nat.le_of_succ_le_succ hjk) hf hhome'
              · exact ih h.2 hp.2 hj' hk' (Nat.le_of_succ_le_succ hjk) hf hhome'

theorem insertFrom_ascending {slots slots' : List α} {low i distance : ℕ} {held : α}
    (hp : Placed home free reach i slots) (ha : Ascending home free low i slots)
    (hheld : low ≤ home held) (hi : home held + distance = i) (hnew : ¬free held)
    (h : insertFrom home free reach slots i distance held = some slots') :
    Ascending home free low i slots' := by
  induction slots generalizing slots' low i distance held with
  | nil => cases h
  | cons slot slots ih =>
      rw [insertFrom] at h
      rw [Ascending] at ha
      by_cases hf : free slot
      · rw [if_pos hf] at h ha
        obtain rfl := Option.some.inj h
        rw [Ascending, if_neg hnew]
        exact ⟨hheld, ha.mono (by omega)⟩
      · rw [if_neg hf] at h ha
        obtain ⟨hlow, hhigh⟩ := hp.1 hf
        by_cases hd : i - home slot < distance
        · rw [if_pos hd] at h
          by_cases hr : reach < i - home slot + 1
          · rw [if_pos hr] at h
            cases h
          · rw [if_neg hr, Option.map_eq_some_iff] at h
            obtain ⟨rest, hrest, rfl⟩ := h
            rw [Ascending, if_neg hnew]
            have hle : home held ≤ home slot := by omega
            exact ⟨hheld, ih hp.2 (ha.2.mono hle) hle (by omega) hf hrest⟩
        · rw [if_neg hd] at h
          by_cases hr : reach < distance + 1
          · rw [if_pos hr] at h
            cases h
          · rw [if_neg hr, Option.map_eq_some_iff] at h
            obtain ⟨rest, hrest, rfl⟩ := h
            rw [Ascending, if_neg hf]
            exact ⟨ha.1, ih hp.2 ha.2 (by omega) (by omega) hnew hrest⟩

omit [DecidablePred free] in
/-- The slots up to the one where a walk ends without success are all taken, and no home of them
lies behind that of the entry that is left over. -/
theorem Overflows.exists_run {slots : List α} {i distance : ℕ} {held : α}
    (hp : Placed home free reach i slots) (hi : home held + distance = i) (hr : distance ≤ reach)
    (h : Overflows home free reach slots i distance held) :
    ∃ m < slots.length, ∃ e ∈ held :: slots.take (m + 1), home e + reach = i + m ∧
      home held ≤ home e ∧
      ∀ k (hk : k < slots.length), k ≤ m → ¬free slots[k] ∧ home slots[k] ≤ home e := by
  induction slots generalizing i distance held with
  | nil => cases h
  | cons slot slots ih =>
      obtain ⟨hf, h⟩ := h
      obtain ⟨hlow, hhigh⟩ := hp.1 hf
      have hlater {m : ℕ} {e : α} (hslot : home slot ≤ home e)
          (hrun : ∀ k (hk : k < slots.length), k ≤ m → ¬free slots[k] ∧ home slots[k] ≤ home e) :
          ∀ k (hk : k < (slot :: slots).length), k ≤ m + 1 →
            ¬free (slot :: slots)[k] ∧ home (slot :: slots)[k] ≤ home e := by
        intro k hk hkm
        cases k with
        | zero => exact ⟨hf, hslot⟩
        | succ k => exact hrun k (Nat.lt_of_succ_lt_succ hk) (Nat.le_of_succ_le_succ hkm)
      split at h
      · rename_i hd
        rcases h with h | h
        · omega
        · obtain ⟨m, hm, e, he, hhome, hle, hrun⟩ := ih hp.2 (by omega) (by omega) h
          exact ⟨m + 1, Nat.succ_lt_succ hm, e, List.mem_cons_of_mem _ he, by omega, by omega,
            hlater hle hrun⟩
      · by_cases hleft : reach < distance + 1
        · refine ⟨0, Nat.succ_pos _, held, List.mem_cons_self, by omega, Nat.le_refl _, ?_⟩
          intro k hk hk0
          obtain rfl := Nat.le_zero.mp hk0
          exact ⟨hf, by rw [List.getElem_cons_zero]; omega⟩
        · obtain ⟨m, hm, e, he, hhome, hle, hrun⟩ :=
            ih hp.2 (by omega) (by omega) (h.resolve_left hleft)
          refine ⟨m + 1, Nat.succ_lt_succ hm, e, ?_, by omega, hle, hlater (by omega) hrun⟩
          rcases List.mem_cons.mp he with rfl | he
          · exact List.mem_cons_self
          · exact List.mem_cons_of_mem _ (List.mem_cons_of_mem _ he)

/-- An insertion fails only where the entries of an interval of homes fill the slots from it on up
to its reach, and the new one belongs there as well. -/
theorem Overflows.exists_crowd {table : List α} {held : α} (hbucket : home held ≤ table.length)
    (hp : Placed home free reach 0 table) (ha : Ascending home free 0 0 table)
    (h : Overflows home free reach (table.drop (home held)) (home held) 0 held) :
    ∃ lo hi, hi + reach < table.length ∧ lo ≤ home held ∧ home held ≤ hi ∧
      ∀ j (hj : j < table.length), lo ≤ j → j ≤ hi + reach →
        ¬free table[j] ∧ lo ≤ home table[j] ∧ home table[j] ≤ hi := by
  classical
  have hdrop : Placed home free reach (home held) (table.drop (home held)) := by
    rw [← List.take_append_drop (home held) table, placed_append, List.length_take_of_le hbucket,
      Nat.zero_add] at hp
    exact hp.2
  obtain ⟨m, hm, e, -, hhome, hle, hrun⟩ := h.exists_run hdrop rfl (Nat.zero_le _)
  rw [List.length_drop] at hm
  have hbehind {j : ℕ} (hj : j < table.length) (hlo : home held ≤ j) (hhi : j ≤ home e + reach) :
      ¬free table[j] ∧ home table[j] ≤ home e := by
    have hslot := hrun (j - home held) (by rw [List.length_drop]; omega) (by omega)
    simp only [List.getElem_drop, Nat.add_sub_cancel' hlo] at hslot
    exact hslot
  have hexists : ∃ lo, ∀ j (hj : j < table.length), lo ≤ j → j ≤ home e + reach → ¬free table[j] :=
    ⟨home held, fun j hj hlo hhi => (hbehind hj hlo hhi).1⟩
  have hfull := Nat.find_spec hexists
  have hlo : Nat.find hexists ≤ home held :=
    Nat.find_le fun j hj hlo hhi => (hbehind hj hlo hhi).1
  refine ⟨Nat.find hexists, home e, by omega, hlo, hle, fun j hj hloj hhi => ?_⟩
  have hf := hfull j hj hloj hhi
  have hplaced := placed_getElem hp hj hf
  refine ⟨hf, ?_, ?_⟩
  · apply Nat.le_of_not_lt
    intro hlt
    -- The slot before the run would be taken, too.
    apply Nat.find_min hexists (Nat.sub_lt (Nat.zero_lt_of_lt hlt) Nat.one_pos)
    intro k hk hlok hhik
    by_cases heq : k = Nat.find hexists - 1
    · subst heq
      exact (ha.taken hp hk hj (by omega) hf (by omega)).1
    · exact hfull k hk (by omega) hhik
  · by_cases hjb : home held ≤ j
    · exact (hbehind hj hjb hhi).2
    · omega

omit [DecidablePred free] in
theorem Placed.home_bounds {l : List α} {i : ℕ} (h : Placed home free reach i l) {x : α}
    (hx : x ∈ l) (hf : ¬free x) : home x < i + l.length ∧ i ≤ home x + reach := by
  obtain ⟨k, hk, rfl⟩ := List.getElem_of_mem hx
  have hplaced := placed_getElem h hk hf
  omega

/-- The entries of an interval of homes have their slots in the interval and the reach behind it. -/
theorem Placed.countP_le {table : List α} (hp : Placed home free reach 0 table) (lo hi : ℕ) :
    table.countP (fun x => decide (¬free x ∧ lo ≤ home x ∧ home x ≤ hi)) ≤ hi + reach + 1 - lo := by
  have hsplit : table = table.take lo ++ ((table.drop lo).take (hi + reach + 1 - lo) ++
      (table.drop lo).drop (hi + reach + 1 - lo)) := by
    rw [List.take_append_drop, List.take_append_drop]
  rw [hsplit, placed_append, placed_append] at hp
  obtain ⟨hbefore, -, hbehind⟩ := hp
  have hnone {l : List α} (h : ∀ x ∈ l, ¬free x → home x < lo ∨ hi < home x) :
      l.countP (fun x => decide (¬free x ∧ lo ≤ home x ∧ home x ≤ hi)) = 0 := by
    rw [List.countP_eq_zero]
    intro x hx hmem
    obtain ⟨hf, hlo, hhi⟩ := of_decide_eq_true hmem
    rcases h x hx hf with hlt | hlt
    · omega
    · omega
  have hfirst := hnone fun x hx hf => .inl (by
    have hbounds := (hbefore.home_bounds hx hf).1
    rw [List.length_take] at hbounds
    omega)
  have hlast := hnone fun x hx hf => .inr (by
    have hbounds := (hbehind.home_bounds hx hf).2
    have hlength := List.length_pos_of_mem hx
    rw [List.length_drop, List.length_drop] at hlength
    rw [List.length_take, List.length_take, List.length_drop] at hbounds
    omega)
  rw [hsplit, List.countP_append, List.countP_append, hfirst, hlast, Nat.zero_add, Nat.add_zero]
  exact Nat.le_trans List.countP_le_length (List.length_take_le _ _)

end Overflow

end RobinHood
