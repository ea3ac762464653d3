import Flocate.CandidateSoundness

/-!
# Empty intersections

The candidates are empty before the first group is complete and when nothing is left. An empty
intersection is reported only if case is ignored, and never when it is the first group that has no
block; then a later group starts over.
-/

namespace Flocate

open SortedList

/-- The calls of `new_posting_list_read` for one list: the groups, and the candidates then. -/
def postingListReads (ignoreCase : Bool) (trgm : UInt32) (decoded : List UInt32) :
    List TrigramDisjunction → List UInt32 → List (TrigramDisjunction × List UInt32)
  | [], _ => []
  | td :: tds, curCandidates =>
      if trgm ∈ td.trigramAlternatives then
        let res := newPostingListRead ignoreCase td decoded curCandidates
        (td, curCandidates) ::
          if res.2.2 then [] else postingListReads ignoreCase trgm decoded tds res.2.1
      else postingListReads ignoreCase trgm decoded tds curCandidates

/-- The call completes a group that leaves nothing, and takes a branch that does not say so. No
candidates stand for all blocks here. -/
def Silent (ignoreCase : Bool) (decoded : List UInt32)
    (call : TrigramDisjunction × List UInt32) : Prop :=
  call.1.remainingTrigramsToRead ≤ 1 ∧ (ignoreCase = false ∨ call.2 = []) ∧
    ∀ d, call.2 = [] ∨ d ∈ call.2 → d ∉ decoded ∧ d ∉ call.1.docids

namespace Selection

def Speaks (ignoreCase : Bool) (decode : Trigram × ℕ → List UInt32) (s : Selection) :
    SelectionEvent → Prop
  | .advance => True
  | .complete i => s.done = false → ∀ r, s.pending[i]? = some r →
      ∀ call ∈ postingListReads ignoreCase r.1.trgm (decode r) s.groups s.curCandidates,
        ¬Silent ignoreCase (decode r) call

/-- Groups are complete, and no block is in the unions of all of them. -/
def NothingLeft (decode : Trigram × ℕ → List UInt32) (s : Selection) : Prop :=
  (∃ td ∈ s.groups, td.remainingTrigramsToRead = 0) ∧
    ∀ d, ¬∀ td ∈ s.groups, td.remainingTrigramsToRead = 0 → ∃ r ∈ td.readTrigrams, d ∈ decode r

/-- The docids whose blocks are decompressed if the search ends here. -/
def docidsToScan (s : Selection) : List UInt32 := if s.done then [] else s.curCandidates

def EndsSearch (decode : Trigram × ℕ → List UInt32) (s : Selection) : Prop :=
  NothingLeft decode s → s.done = true ∧ s.curCandidates = [] ∧ s.docidsToScan = []

end Selection

section Call

variable {ignoreCase : Bool} {td : TrigramDisjunction} {decoded cur : List UInt32}

theorem united_eq_nil_iff : td.united decoded = [] ↔ ∀ d, d ∉ decoded ∧ d ∉ td.docids := by
  rw [List.eq_nil_iff_forall_not_mem]
  exact forall_congr' fun d => by rw [TrigramDisjunction.mem_united, not_or]

theorem setIntersection_united_eq_nil_iff (hsorted : cur.Pairwise (· < ·))
    (hunited : (td.united decoded).Pairwise (· < ·)) :
    setIntersection cur (td.united decoded) = [] ↔
      ∀ d ∈ cur, d ∉ decoded ∧ d ∉ td.docids := by
  rw [List.eq_nil_iff_forall_not_mem]
  refine forall_congr' fun d => ?_
  rw [mem_setIntersection hsorted hunited, TrigramDisjunction.mem_united, not_and, not_or]

/-- A call that completes a group reports an empty result exactly if it is not silent. -/
theorem newPostingListRead_reports_iff (hlast : td.remainingTrigramsToRead ≤ 1)
    (hsorted : cur.Pairwise (· < ·)) (hunited : (td.united decoded).Pairwise (· < ·)) :
    ((newPostingListRead ignoreCase td decoded cur).2.1 = [] →
        (newPostingListRead ignoreCase td decoded cur).2.2 = true) ↔
      ¬Silent ignoreCase decoded (td, cur) := by
  by_cases hcur : cur = []
  · rw [newPostingListRead_first hlast hcur]
    simp only [Silent, hlast, hcur, Bool.false_eq_true, imp_false, true_and, or_true, true_or,
      true_imp_iff, united_eq_nil_iff]
  · rw [newPostingListRead_intersected hlast hcur]
    simp only [Silent, hlast, hcur, or_false, false_or, true_and,
      ← setIntersection_united_eq_nil_iff hsorted hunited, Bool.and_eq_true, List.isEmpty_iff]
    cases ignoreCase <;> simp

end Call

section Deliver

variable {find : UInt32 → Option (Trigram × ℕ)} {decode : Trigram × ℕ → List UInt32}
  {completed : List UInt32} {ignoreCase : Bool}

/-- The candidates are blocks of each complete group, and there are some if a group is complete. -/
structure ExactCandidates (decode : Trigram × ℕ → List UInt32) (groups : List TrigramDisjunction)
    (curCandidates : List UInt32) : Prop where
  sorted : curCandidates.Pairwise (· < ·)
  inAll : ∀ d ∈ curCandidates, ∀ td ∈ groups, td.remainingTrigramsToRead = 0 →
    ∃ r ∈ td.readTrigrams, d ∈ decode r
  ne_nil : (∃ td ∈ groups, td.remainingTrigramsToRead = 0) → curCandidates ≠ []

theorem ExactCandidates.perm {groups groups' : List TrigramDisjunction} {cur : List UInt32}
    (h : ExactCandidates decode groups cur) (hperm : groups.Perm groups') :
    ExactCandidates decode groups' cur :=
  ⟨h.sorted, fun d hd td htd => h.inAll d hd td (hperm.mem_iff.mpr htd),
    fun ⟨td, htd, h0⟩ => h.ne_nil ⟨td, hperm.mem_iff.mpr htd, h0⟩⟩

/-- One call keeps the candidates exact, or reports that nothing is left. -/
theorem newPostingListRead_exact {td : TrigramDisjunction} {others : List TrigramDisjunction}
    {cur : List UInt32} {r : Trigram × ℕ} (h : GroupInv find decode completed td)
    (hr : find r.1.trgm = some r) (ht : r.1.trgm ∉ completed)
    (hmem : r.1.trgm ∈ td.trigramAlternatives) (hdec : (decode r).Pairwise (· < ·))
    (hexact : ExactCandidates decode (td :: others) cur)
    (hspeaks : ¬Silent ignoreCase (decode r) (td, cur)) :
    let res := newPostingListRead ignoreCase td (decode r) cur
    (res.2.2 = true → res.2.1 = []) ∧
      (res.2.2 = false → ExactCandidates decode (res.1 :: others) res.2.1) := by
  have hread := h.read hr ht hmem hdec
  by_cases hlast : td.remainingTrigramsToRead ≤ 1
  · have hreports := (newPostingListRead_reports_iff hlast hexact.sorted hread.sorted).mpr hspeaks
    have hunion (d : UInt32) (hd : d ∈ td.united (decode r)) :
        ∃ r' ∈ td.readTrigrams, d ∈ decode r' := by
      obtain ⟨r', hr', -, hd⟩ := (hread.mem d).mp hd
      exact ⟨r', hr', hd⟩
    by_cases hcur : cur = []
    · -- no group has been complete, since then there would be candidates
      have hnone (td' : TrigramDisjunction) (htd' : td' ∈ others) :
          td'.remainingTrigramsToRead ≠ 0 := fun h0 =>
        hexact.ne_nil ⟨td', List.mem_cons_of_mem td htd', h0⟩ hcur
      rw [newPostingListRead_first hlast hcur] at hreports ⊢
      refine ⟨nofun, fun _ => ⟨hread.sorted, fun d hd => ?_, fun _ hnil => ?_⟩⟩
      · rw [List.forall_mem_cons]
        exact ⟨fun _ => hunion d hd, fun td' htd' h0 => absurd h0 (hnone td' htd')⟩
      · exact Bool.false_ne_true (hreports hnil)
    · rw [newPostingListRead_intersected hlast hcur] at hreports ⊢
      refine ⟨fun hdone => ?_, fun hdone => ⟨?_, fun d hd => ?_, fun _ hnil => ?_⟩⟩
      · rw [Bool.and_eq_true, List.isEmpty_iff] at hdone
        exact hdone.2
      · exact pairwise_setIntersection hexact.sorted hread.sorted
      · obtain ⟨hd, hd'⟩ := (mem_setIntersection hexact.sorted hread.sorted).mp hd
        rw [List.forall_mem_cons]
        exact ⟨fun _ => hunion d hd', fun td' htd' =>
          hexact.inAll d hd td' (List.mem_cons_of_mem td htd')⟩
      · exact Bool.false_ne_true (hdone.symm.trans (hreports hnil))
  · have hmore := Nat.lt_of_not_le hlast
    have hleft : td.remainingTrigramsToRead - 1 ≠ 0 := Nat.sub_ne_zero_of_lt hmore
    rw [newPostingListRead_waiting hmore]
    refine ⟨nofun, fun _ => ⟨hexact.sorted, fun d hd => ?_, ?_⟩⟩
    · rw [List.forall_mem_cons]
      exact ⟨fun h0 => absurd h0 hleft, fun td' htd' =>
        hexact.inAll d hd td' (List.mem_cons_of_mem td htd')⟩
    · rintro ⟨td', htd', h0⟩
      rcases List.mem_cons.mp htd' with rfl | htd'
      · exact absurd h0 hleft
      · exact hexact.ne_nil ⟨td', List.mem_cons_of_mem td htd', h0⟩

/-- All calls for one list keep the candidates exact, or one of them reports that nothing is
left. `front` are the groups that the loop has passed. -/
theorem deliver_exact {r : Trigram × ℕ} (hr : find r.1.trgm = some r)
    (ht : r.1.trgm ∉ completed) (hdec : (decode r).Pairwise (· < ·))
    {tds front : List TrigramDisjunction} {cur : List UInt32}
    (htds : ∀ td ∈ tds, GroupInv find decode completed td)
    (hexact : ExactCandidates decode (front ++ tds) cur)
    (hspeaks : ∀ call ∈ postingListReads ignoreCase r.1.trgm (decode r) tds cur,
      ¬Silent ignoreCase (decode r) call) :
    let res := deliver ignoreCase r.1.trgm (decode r) tds cur
    (res.2.2 = true → res.2.1 = []) ∧
      (res.2.2 = false → ExactCandidates decode (front ++ res.1) res.2.1) := by
  induction tds generalizing front cur with
  | nil => exact ⟨fun h => absurd h Bool.false_ne_true, fun _ => hexact⟩
  | cons td tds ih =>
      rw [List.forall_mem_cons] at htds
      obtain ⟨hinv, htds⟩ := htds
      have hjoin (td : TrigramDisjunction) (tds : List TrigramDisjunction) :
          front ++ td :: tds = (front ++ [td]) ++ tds := by
        rw [List.append_assoc, List.singleton_append]
      by_cases hmem : r.1.trgm ∈ td.trigramAlternatives
      · rw [postingListReads, if_pos hmem, List.forall_mem_cons] at hspeaks
        have hone := newPostingListRead_exact hinv hr ht hmem hdec
          (hexact.perm List.perm_middle) hspeaks.1
        rw [deliver, if_pos hmem]
        rcases hres : newPostingListRead ignoreCase td (decode r) cur with ⟨td', cur', done⟩
        rw [hres] at hone hspeaks
        cases done with
        | true => exact ⟨fun _ => hone.1 rfl, fun h => absurd h.symm Bool.false_ne_true⟩
        | false =>
            have hexact' : ExactCandidates decode ((front ++ [td']) ++ tds) cur' := by
              rw [← hjoin]
              exact (hone.2 rfl).perm List.perm_middle.symm
            have hrest := ih htds hexact' hspeaks.2
            simp only [Bool.false_eq_true, if_false]
            rcases hres' : deliver ignoreCase r.1.trgm (decode r) tds cur' with ⟨tds', cur'', done'⟩
            rw [hres'] at hrest
            dsimp only at hrest
            rwa [← hjoin] at hrest
      · rw [postingListReads, if_neg hmem] at hspeaks
        rw [hjoin] at hexact
        have hrest := ih htds hexact hspeaks
        rw [deliver, if_neg hmem]
        rcases hres : deliver ignoreCase r.1.trgm (decode r) tds cur with ⟨tds', cur', done⟩
        rw [hres] at hrest
        dsimp only at hrest
        rwa [← hjoin] at hrest

end Deliver

namespace Selection

variable {find : UInt32 → Option (Trigram × ℕ)} {decode : Trigram × ℕ → List UInt32}
  {gs : List TrigramDisjunction} {s s' : Selection} {ignoreCase : Bool}

structure ReportedInv (find : UInt32 → Option (Trigram × ℕ)) (decode : Trigram × ℕ → List UInt32)
    (gs : List TrigramDisjunction) (s : Selection) : Prop where
  inv : Inv find decode gs s
  done : s.done = true → s.curCandidates = []
  running : s.done = false → ExactCandidates decode s.groups s.curCandidates

theorem advance_same (h : s.advance = some s') :
    s'.groups = s.groups ∧ s'.curCandidates = s.curCandidates ∧ s'.done = s.done := by
  rw [advance] at h
  split at h
  · split_ifs at h <;> obtain rfl := Option.some.inj h <;> exact ⟨rfl, rfl, rfl⟩
  · split_ifs at h
    · obtain rfl := Option.some.inj h
      exact ⟨rfl, rfl, rfl⟩
    · dsimp only at h
      split_ifs at h <;> obtain rfl := Option.some.inj h <;> exact ⟨rfl, rfl, rfl⟩
  · split_ifs at h <;> obtain rfl := Option.some.inj h <;> exact ⟨rfl, rfl, rfl⟩
  · cases h

theorem ReportedInv.step (hdec : ∀ t r, find t = some r → (decode r).Pairwise (· < ·))
    {e : SelectionEvent} (h : ReportedInv find decode gs s) (hspeaks : s.Speaks ignoreCase decode e)
    (hs : Selection.step ignoreCase decode s e = some s') : ReportedInv find decode gs s' := by
  have hinv := h.inv.step hdec hs
  cases e with
  | advance =>
      obtain ⟨hgroups, hcur, hdone⟩ := advance_same hs
      refine ⟨hinv, ?_, ?_⟩
      · rw [hdone, hcur]
        exact h.done
      · rw [hdone, hcur, hgroups]
        exact h.running
  | complete i =>
      obtain ⟨r, hi, rfl⟩ := Option.map_eq_some_iff.mp hs
      rw [readCallback] at hinv ⊢
      rcases h.inv.state with ⟨hdone, -⟩ | ⟨completed, hactive⟩
      · rw [if_pos hdone] at hinv ⊢
        exact ⟨hinv, h.done, h.running⟩
      · obtain ⟨hfound, -, -, ht⟩ := hactive.pending_fresh hi
        have hfront : ExactCandidates decode ([] ++ s.groups) s.curCandidates :=
          h.running hactive.running
        have hexact := deliver_exact hfound ht (hdec _ _ hfound) hactive.groups hfront
          (hspeaks hactive.running r hi)
        have hnot : ¬s.done = true := by
          rw [hactive.running]
          exact Bool.false_ne_true
        rw [if_neg hnot] at hinv ⊢
        exact ⟨hinv, hexact.1, hexact.2⟩

theorem ReportedInv.endsSearch (h : ReportedInv find decode gs s) : s.EndsSearch decode := by
  rintro ⟨hsome, hnone⟩
  cases hdone : s.done with
  | true => exact ⟨rfl, h.done hdone, if_pos hdone⟩
  | false =>
      have hexact := h.running hdone
      obtain ⟨d, hd⟩ := List.exists_mem_of_ne_nil _ (hexact.ne_nil hsome)
      exact absurd (hexact.inAll d hd) (hnone d)

theorem reported_start {seen : List UInt32} (h : ∀ td' ∈ gs, ∃ td : TrigramDisjunction,
      td.reset = td' ∧ LookedUp find seen td ∧ (∀ t ∈ td.trigramAlternatives, t ∈ seen) ∧
        td.readTrigrams ≠ []) :
    ReportedInv find decode gs (start gs) := by
  refine ⟨start_inv h, nofun, fun _ => ⟨List.Pairwise.nil, nofun, ?_⟩⟩
  rintro ⟨td', htd', h0⟩
  obtain ⟨td, rfl, -, -, hne⟩ := h td' htd'
  exact absurd (List.length_eq_zero_iff.mp h0) hne

end Selection

/-- In a run without silent calls, an empty intersection ends the search. -/
theorem emptyIntersection_endsSearch {find : UInt32 → Option (Trigram × ℕ)}
    (hfind : ∀ t r, find t = some r → r.1.trgm = t) {decode : Trigram × ℕ → List UInt32}
    (hdec : ∀ t r, find t = some r → (decode r).Pairwise (· < ·))
    {groups₀ groups₁ groups : List TrigramDisjunction} (hfresh : ∀ td ∈ groups₀, td.Fresh)
    {order : List UInt32} (horder : order.Perm (trigramsToLookup groups₀))
    (hlook : lookUp find order groups₀ = (groups₁, false))
    (hsort : groups.Perm (groups₁.map .reset)) {ignoreCase : Bool} {events : List SelectionEvent}
    (hspeaks : Run.Meets (Selection.step ignoreCase decode)
      (fun s e => s.Speaks ignoreCase decode e) (.start groups) events) {s : Selection}
    (hrun : Run.run (Selection.step ignoreCase decode) (.start groups) events = some s) :
    s.EndsSearch decode := by
  have hstart : Selection.ReportedInv find decode groups (.start groups) :=
    Selection.reported_start fun td' htd' =>
      exists_of_mem_sorted hfind hfresh horder hlook hsort htd'
  have hinv := Run.invariant_of_meets
    (fun _ _ _ hi hp hs => Selection.ReportedInv.step hdec hi hp hs) hstart hspeaks hrun
  exact hinv.endsSearch

def oneBlockEach (r : Trigram × ℕ) : List UInt32 := [r.1.trgm]

/-- Two groups without a common block, and case is ignored. -/
theorem emptyIntersection_endsSearch_twoGroups : ∃ s : Selection,
    Run.run (Selection.step true oneBlockEach)
        (.start [⟨[1], [(⟨1, 1, 0⟩, 1)], 1, [], 1⟩, ⟨[2], [(⟨2, 1, 0⟩, 1)], 1, [], 1⟩])
        [.advance, .advance, .advance, .advance, .complete 0, .complete 0] = some s ∧
      s.EndsSearch oneBlockEach := by
  let find : UInt32 → Option (Trigram × ℕ) := fun t =>
    if t = 1 ∨ t = 2 then some (⟨t, 1, 0⟩, 1) else none
  have hfind : ∀ t r, find t = some r → r.1.trgm = t := by
    intro t r h
    by_cases ht : t = 1 ∨ t = 2
    · rw [show find t = some (⟨t, 1, 0⟩, 1) from if_pos ht] at h
      rw [← Option.some.inj h]
    · rw [show find t = none from if_neg ht] at h
      cases h
  have hfresh : ∀ td ∈ [(⟨[1], [], 0, [], 1⟩ : TrigramDisjunction), ⟨[2], [], 0, [], 1⟩],
      td.Fresh := by
    intro td htd
    rcases List.mem_pair.mp htd with rfl | rfl
    · exact ⟨by decide, by decide, rfl, rfl, rfl⟩
    · exact ⟨by decide, by decide, rfl, rfl, rfl⟩
  have hlook : lookUp find [1, 2] [⟨[1], [], 0, [], 1⟩, ⟨[2], [], 0, [], 1⟩] =
      ([⟨[1], [(⟨1, 1, 0⟩, 1)], 1, [], 0⟩, ⟨[2], [(⟨2, 1, 0⟩, 1)], 1, [], 0⟩], false) := by
    decide +kernel
  have hrun : Run.run (Selection.step true oneBlockEach)
      (.start [⟨[1], [(⟨1, 1, 0⟩, 1)], 1, [], 1⟩, ⟨[2], [(⟨2, 1, 0⟩, 1)], 1, [], 1⟩])
      [.advance, .advance, .advance, .advance, .complete 0, .complete 0] =
      some ⟨[⟨[1], [(⟨1, 1, 0⟩, 1)], 1, [], 0⟩, ⟨[2], [(⟨2, 1, 0⟩, 1)], 1, [2], 0⟩], [], [], none,
        [2, 1], [], [], true⟩ := by
    decide +kernel
  refine ⟨_, hrun, emptyIntersection_endsSearch hfind (fun _ _ _ => List.pairwise_singleton _ _)
    hfresh (List.Perm.refl [1, 2]) hlook (List.Perm.refl _) ?_ hrun⟩
  refine (Run.meets_cons rfl).mpr ⟨trivial, (Run.meets_cons rfl).mpr ⟨trivial,
    (Run.meets_cons rfl).mpr ⟨trivial, (Run.meets_cons rfl).mpr ⟨trivial,
    (Run.meets_cons rfl).mpr ⟨?_, (Run.meets_cons rfl).mpr ⟨?_, trivial⟩⟩⟩⟩⟩⟩
  · rintro - r hr call hcall ⟨-, -, hnone⟩
    obtain rfl := Option.some.inj hr
    have hcalls : postingListReads true 1 [1] [⟨[1], [(⟨1, 1, 0⟩, 1)], 1, [], 1⟩,
        ⟨[2], [(⟨2, 1, 0⟩, 1)], 1, [], 1⟩] [] =
        [(⟨[1], [(⟨1, 1, 0⟩, 1)], 1, [], 1⟩, [])] := by decide +kernel
    obtain rfl := List.mem_singleton.mp (hcalls ▸ hcall)
    exact (hnone 1 (.inl rfl)).1 List.mem_cons_self
  · rintro - r hr call hcall ⟨-, hsilent, -⟩
    obtain rfl := Option.some.inj hr
    have hcalls : postingListReads true 2 [2] [⟨[1], [(⟨1, 1, 0⟩, 1)], 1, [], 0⟩,
        ⟨[2], [(⟨2, 1, 0⟩, 1)], 1, [], 1⟩] [1] =
        [(⟨[2], [(⟨2, 1, 0⟩, 1)], 1, [], 1⟩, [1])] := by decide +kernel
    obtain rfl := List.mem_singleton.mp (hcalls ▸ hcall)
    exact absurd hsilent (by decide)

/-- Three groups without a common block. The third one starts over. -/
theorem not_endsSearch_caseSensitive : ∃ s : Selection,
    Run.run (Selection.step false oneBlockEach)
        (.start [⟨[1], [(⟨1, 1, 0⟩, 1)], 1, [], 1⟩, ⟨[2], [(⟨2, 1, 0⟩, 1)], 1, [], 1⟩,
          ⟨[3], [(⟨3, 1, 0⟩, 1)], 1, [], 1⟩])
        [.advance, .advance, .advance, .advance, .advance, .advance, .complete 0, .complete 0,
          .complete 0] = some s ∧
      s.Ended ∧ ¬s.EndsSearch oneBlockEach ∧ s.docidsToScan = [3] := by
  have hrun : Run.run (Selection.step false oneBlockEach)
      (.start [⟨[1], [(⟨1, 1, 0⟩, 1)], 1, [], 1⟩, ⟨[2], [(⟨2, 1, 0⟩, 1)], 1, [], 1⟩,
        ⟨[3], [(⟨3, 1, 0⟩, 1)], 1, [], 1⟩])
      [.advance, .advance, .advance, .advance, .advance, .advance, .complete 0, .complete 0,
        .complete 0] =
      some ⟨[⟨[1], [(⟨1, 1, 0⟩, 1)], 1, [], 0⟩, ⟨[2], [(⟨2, 1, 0⟩, 1)], 1, [2], 0⟩,
        ⟨[3], [(⟨3, 1, 0⟩, 1)], 1, [], 0⟩], [], [], none, [3, 2, 1], [], [3], false⟩ := by
    decide +kernel
  refine ⟨_, hrun, ⟨rfl, rfl, rfl, rfl⟩, fun h => ?_, rfl⟩
  refine Bool.false_ne_true (h ⟨⟨_, List.mem_cons_self, rfl⟩, fun d hall => ?_⟩).1
  obtain ⟨r, hr, hd⟩ := hall _ List.mem_cons_self rfl
  obtain ⟨r', hr', hd'⟩ := hall _ (List.mem_cons_of_mem _ List.mem_cons_self) rfl
  obtain rfl := List.mem_singleton.mp hr
  obtain rfl := List.mem_singleton.mp hr'
  obtain rfl := List.mem_singleton.mp hd
  exact absurd (List.mem_singleton.mp hd') (by decide)

end Flocate
