import Flocate.CandidateSelection
import Mathlib.Algebra.BigOperators.Group.List.Basic

/-!
# The end of the candidate selection

Whatever order the reads complete in, the submission loop is never stuck and ends after a bounded
number of steps.
-/

namespace Flocate

namespace Selection

variable {ignoreCase : Bool} {decode : Trigram × ℕ → List UInt32} {s s' : Selection}
  {e : SelectionEvent}

def groupsWork (groups : List TrigramDisjunction) : ℕ :=
  (groups.map fun td => 1 + 3 * td.readTrigrams.length).sum

/-- The steps that are left. A read is reached, perhaps held back, submitted and completed. -/
def work (s : Selection) : ℕ :=
  groupsWork s.next + 3 * s.reads.length + 2 * s.waiting.toList.length + s.pending.length

theorem groupsWork_nil : groupsWork [] = 0 := rfl

theorem groupsWork_cons (td : TrigramDisjunction) (groups : List TrigramDisjunction) :
    groupsWork (td :: groups) = 1 + 3 * td.readTrigrams.length + groupsWork groups := by
  rw [groupsWork, List.map_cons, List.sum_cons]
  rfl

/-- A callback leaves the loop where it is. -/
theorem work_readCallback (r : Trigram × ℕ) :
    (readCallback ignoreCase decode s r).work = s.work := by
  rw [readCallback]
  split <;> rfl

theorem work_advance_lt (h : s.advance = some s') : s'.work < s.work := by
  obtain ⟨groups, next, reads, waiting, submitted, pending, curCandidates, done⟩ := s
  unfold advance at h
  split at h
  · rename_i r _ _ hwaiting
    dsimp only at hwaiting h
    subst hwaiting
    split_ifs at h with hpending hdone
    all_goals
      obtain rfl := Option.some.inj h
      simp only [work, Option.toList_none, Option.toList_some, List.length_nil,
        List.length_singleton]
      omega
  · rename_i r reads' _ hwaiting hreads
    dsimp only at hwaiting hreads h
    subst hwaiting hreads
    split_ifs at h
    all_goals
      obtain rfl := Option.some.inj h
      simp only [work, Option.toList_none, Option.toList_some, List.length_nil, List.length_cons,
        List.length_append]
      omega
  · rename_i td next' hwaiting hreads hnext
    dsimp only at hwaiting hreads hnext h
    subst hwaiting hreads hnext
    split_ifs at h
    all_goals
      obtain rfl := Option.some.inj h
      simp only [work, groupsWork_cons, groupsWork_nil, Option.toList_none, List.length_nil]
      omega
  · cases h

/-- Every step leaves less to do. -/
theorem work_step_lt (h : s.step ignoreCase decode e = some s') : s'.work < s.work := by
  cases e with
  | advance => exact work_advance_lt h
  | complete i =>
      obtain ⟨r, hr, rfl⟩ := Option.map_eq_some_iff.mp h
      obtain ⟨hi, -⟩ := List.getElem?_eq_some_iff.mp hr
      rw [work_readCallback]
      simp only [work, List.length_eraseIdx_of_lt hi]
      omega

/-- Until the last `finish` has returned, a read completes or the loop goes on. -/
theorem exists_step (h : ¬s.Ended) : ∃ e s', s.step ignoreCase decode e = some s' := by
  by_cases hpending : s.pending = []
  · suffices hsome : s.advance ≠ none by
      obtain ⟨s', hs'⟩ := Option.ne_none_iff_exists'.mp hsome
      exact ⟨.advance, s', hs'⟩
    obtain ⟨groups, next, reads, waiting, submitted, pending, curCandidates, done⟩ := s
    dsimp only at hpending
    subst hpending
    unfold advance
    split
    · rw [if_neg (not_not_intro rfl)]
      split <;> exact Option.some_ne_none _
    · split_ifs <;> exact Option.some_ne_none _
    · split <;> exact Option.some_ne_none _
    · rename_i hwaiting hreads hnext
      exact absurd ⟨hwaiting, hreads, hnext, rfl⟩ h
  · refine ⟨.complete 0, readCallback ignoreCase decode { s with pending := s.pending.eraseIdx 0 }
      (s.pending.head hpending), ?_⟩
    rw [step, ← List.head?_eq_getElem?, List.head?_eq_some_head hpending, Option.map_some]

theorem Ended.step_eq_none (h : s.Ended) : s.step ignoreCase decode e = none := by
  obtain ⟨hwaiting, hreads, hnext, hpending⟩ := h
  cases e with
  | advance => rw [step, advance, hwaiting, hreads, hnext]
  | complete i => rw [step, hpending, List.getElem?_nil, Option.map_none]

/-- The reads can complete in such an order that the loop ends. -/
theorem exists_ended (ignoreCase : Bool) (decode : Trigram × ℕ → List UInt32) (s : Selection) :
    ∃ events s', Run.run (step ignoreCase decode) s events = some s' ∧ s'.Ended := by
  refine Run.exists_ended work (fun s hs => ?_) s
  obtain ⟨e, s', hstep⟩ := exists_step hs
  exact ⟨e, s', hstep, work_step_lt hstep⟩

end Selection

/-- The submission loop goes on until it has ended, and it ends: for each group there is a step that
reaches it and up to three for each of its reads. -/
theorem selection_ends (ignoreCase : Bool) (decode : Trigram × ℕ → List UInt32)
    (groups : List TrigramDisjunction) {events : List SelectionEvent} {s : Selection}
    (hrun : Run.run (Selection.step ignoreCase decode) (.start groups) events = some s) :
    events.length ≤ (groups.map fun td => 1 + 3 * td.readTrigrams.length).sum ∧
      (s.Ended ↔ ∀ e, s.step ignoreCase decode e = none) := by
  refine ⟨?_, fun h e => h.step_eq_none, fun h => ?_⟩
  · have hstep (s : Selection) (e : SelectionEvent) (s' : Selection) (_ : True)
        (h : s.step ignoreCase decode e = some s') : True ∧ s'.work < s.work :=
      ⟨trivial, Selection.work_step_lt h⟩
    have hlength := Run.length_le Selection.work hstep trivial hrun
    exact (Nat.le_add_right _ _).trans hlength
  · by_contra hend
    obtain ⟨e, s', hstep⟩ := Selection.exists_step hend
    rw [h e] at hstep
    cases hstep

/-- The sixth of six reads is held back, and the loop only goes on when the others complete. -/
theorem selection_ends_sixReads :
    let reads : List (Trigram × ℕ) := (List.range 6).map fun k => (⟨UInt32.ofNat k, 1, 0⟩, 1)
    let td : TrigramDisjunction := ⟨(reads.map (·.1.trgm)), reads, 6, [], 6⟩
    let advances : List SelectionEvent := List.replicate 7 .advance
    ∃ s : Selection, Run.run (Selection.step false fun r => [r.1.trgm]) (.start [td]) advances =
        some s ∧ s.advance = none ∧ advances.length ≤ 19 ∧
      (s.Ended ↔ ∀ e, s.step false (fun r => [r.1.trgm]) e = none) := by
  intro reads td advances
  have hrun : ∃ s : Selection, Run.run (Selection.step false fun r => [r.1.trgm]) (.start [td])
      advances = some s ∧ s.advance = none := ⟨_, rfl, by decide +kernel⟩
  obtain ⟨s, hrun, hstuck⟩ := hrun
  obtain ⟨hlength, hended⟩ := selection_ends false (fun r => [r.1.trgm]) [td] hrun
  exact ⟨s, hrun, hstuck, hlength, hended⟩

end Flocate
