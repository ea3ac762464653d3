import Flocate.CandidateSelection
import Mathlib.Data.List.Perm.Basic

/-!
# Candidate selection keeps every block that all groups allow

A group that still waits for lists holds the union of those it has received. Once some group is
complete, or the candidates are not empty, they contain every block that lies in a list of each
group. That an empty list of candidates stands for two things does no harm: when the intersection
was empty, there is nothing left to lose.
-/

namespace Flocate

open SortedList

section Lookup

variable {find : UInt32 → Option (Trigram × ℕ)}

structure TrigramDisjunction.Fresh (td : TrigramDisjunction) : Prop where
  ne_nil : td.trigramAlternatives ≠ []
  nodup : td.trigramAlternatives.Nodup
  readTrigrams : td.readTrigrams = []
  docids : td.docids = []
  remaining : td.remainingTrigramsToRead = td.trigramAlternatives.length

/-- A group after the lookups of the trigrams in `seen`. -/
structure LookedUp (find : UInt32 → Option (Trigram × ℕ)) (seen : List UInt32)
    (td : TrigramDisjunction) : Prop where
  ne_nil : td.trigramAlternatives ≠ []
  alternatives_nodup : td.trigramAlternatives.Nodup
  docids : td.docids = []
  mem : ∀ r, r ∈ td.readTrigrams ↔
    r.1.trgm ∈ td.trigramAlternatives ∧ r.1.trgm ∈ seen ∧ find r.1.trgm = some r
  nodup : (td.readTrigrams.map (·.1.trgm)).Nodup
  remaining : td.remainingTrigramsToRead = td.trigramAlternatives.countP (· ∉ seen)

theorem TrigramDisjunction.Fresh.lookedUp {td : TrigramDisjunction} (h : td.Fresh) :
    LookedUp find [] td where
  ne_nil := h.ne_nil
  alternatives_nodup := h.nodup
  docids := h.docids
  mem r := by simp [h.readTrigrams]
  nodup := by simp [h.readTrigrams]
  remaining := by simp [h.remaining]

theorem countP_not_mem_cons {l seen : List UInt32} (hl : l.Nodup) {t : UInt32} (ht : t ∉ seen) :
    l.countP (· ∉ seen) = l.countP (· ∉ t :: seen) + if t ∈ l then 1 else 0 := by
  induction l with
  | nil => rfl
  | cons x l ih =>
      rw [List.nodup_cons] at hl
      rw [List.countP_cons, List.countP_cons, ih hl.2]
      by_cases hx : x = t
      · subst hx
        simp [hl.1, ht]
      · have hx' : ¬t = x := fun h => hx h.symm
        simp only [List.mem_cons, hx, hx', false_or]
        omega

variable (hfind : ∀ t r, find t = some r → r.1.trgm = t)

include hfind in
theorem LookedUp.step {seen : List UInt32} {td : TrigramDisjunction} (h : LookedUp find seen td)
    {t : UInt32} (ht : t ∉ seen) :
    LookedUp find (t :: seen)
      (if t ∈ td.trigramAlternatives then td.lookedUp (find t) else td) := by
  have hcount := countP_not_mem_cons h.alternatives_nodup ht
  rw [← h.remaining] at hcount
  by_cases hmem : t ∈ td.trigramAlternatives
  · rw [if_pos hmem] at hcount ⊢
    have hrem : td.remainingTrigramsToRead - 1 =
        td.trigramAlternatives.countP (· ∉ t :: seen) := by omega
    cases hf : find t with
    | none =>
        refine ⟨h.ne_nil, h.alternatives_nodup, h.docids, fun r => ?_, h.nodup, hrem⟩
        change r ∈ td.readTrigrams ↔ _
        rw [h.mem, List.mem_cons]
        constructor
        · exact fun ⟨ha, hs, hr⟩ => ⟨ha, Or.inr hs, hr⟩
        · rintro ⟨ha, hs | hs, hr⟩
          · rw [hs, hf] at hr
            cases hr
          · exact ⟨ha, hs, hr⟩
    | some r' =>
        have hr' := hfind t r' hf
        refine ⟨h.ne_nil, h.alternatives_nodup, h.docids, fun r => ?_, ?_, hrem⟩
        · change r ∈ td.readTrigrams ++ [r'] ↔ _
          rw [List.mem_append, h.mem, List.mem_singleton, List.mem_cons]
          constructor
          · rintro (⟨ha, hs, hr⟩ | rfl)
            · exact ⟨ha, Or.inr hs, hr⟩
            · exact ⟨hr' ▸ hmem, Or.inl hr', hr' ▸ hf⟩
          · rintro ⟨ha, hs | hs, hr⟩
            · rw [hs, hf] at hr
              exact Or.inr (Option.some.inj hr).symm
            · exact Or.inl ⟨ha, hs, hr⟩
        · change ((td.readTrigrams ++ [r']).map (·.1.trgm)).Nodup
          rw [List.map_append, List.map_singleton, List.nodup_append]
          refine ⟨h.nodup, List.nodup_singleton _, fun a ha b hb => ?_⟩
          obtain ⟨r, hr, rfl⟩ := List.mem_map.mp ha
          rw [List.mem_singleton.mp hb, hr']
          exact fun heq => ht (heq ▸ ((h.mem r).mp hr).2.1)
  · rw [if_neg hmem] at hcount ⊢
    refine ⟨h.ne_nil, h.alternatives_nodup, h.docids, fun r => ?_, h.nodup, by omega⟩
    rw [h.mem, List.mem_cons]
    constructor
    · exact fun ⟨ha, hs, hr⟩ => ⟨ha, Or.inr hs, hr⟩
    · rintro ⟨ha, hs | hs, hr⟩
      · exact absurd (hs ▸ ha) hmem
      · exact ⟨ha, hs, hr⟩

/-- Until the early exit no group is without hope. -/
theorem lookupCallback_not_hopeless {s : List TrigramDisjunction × Bool} {t : UInt32}
    (h : s.2 = false → ∀ td ∈ s.1, ¬td.Hopeless) :
    (lookupCallback find s t).2 = false → ∀ td ∈ (lookupCallback find s t).1, ¬td.Hopeless := by
  intro hflag td' htd'
  simp only [lookupCallback, Bool.or_eq_false_iff] at hflag
  obtain ⟨td, htd, rfl⟩ := List.mem_map.mp htd'
  have hold := h hflag.1 td htd
  by_cases hmem : t ∈ td.trigramAlternatives
  · rw [if_pos hmem]
    cases hf : find t with
    | none =>
        have hany := hflag.2
        rw [hf, Option.isNone_none, Bool.true_and, List.any_eq_false] at hany
        have hnot := hany _ (List.mem_map_of_mem htd)
        rw [if_pos hmem] at hnot
        exact fun hh => hnot (decide_eq_true ⟨hmem, hh⟩)
    | some r =>
        exact fun hh =>
          List.append_ne_nil_of_right_ne_nil td.readTrigrams (List.cons_ne_nil r []) hh.2
  · rwa [if_neg hmem]

include hfind in
/-- A group without hope has no trigram in the hash table. -/
theorem LookedUp.not_found {seen : List UInt32} {td : TrigramDisjunction}
    (h : LookedUp find seen td) (hh : td.Hopeless) {t : UInt32} (ht : t ∈ td.trigramAlternatives) :
    find t = none := by
  have hcount := h.remaining.symm.trans hh.1
  have hseen : t ∈ seen := by simpa using List.countP_eq_zero.mp hcount t ht
  cases hf : find t with
  | none => rfl
  | some r =>
      have hr := hfind t r hf
      have hmem : r ∈ td.readTrigrams := (h.mem r).mpr ⟨hr ▸ ht, hr ▸ hseen, hr.symm ▸ hf⟩
      rw [hh.2] at hmem
      cases hmem

structure LookupInv (find : UInt32 → Option (Trigram × ℕ)) (groups₀ : List TrigramDisjunction)
    (seen : List UInt32) (s : List TrigramDisjunction × Bool) : Prop where
  lookedUp : ∀ td ∈ s.1, LookedUp find seen td
  alternatives : s.1.map (·.trigramAlternatives) = groups₀.map (·.trigramAlternatives)
  running : s.2 = false → ∀ td ∈ s.1, ¬td.Hopeless
  stopped : s.2 = true → ∃ td ∈ groups₀, ∀ t ∈ td.trigramAlternatives, find t = none

include hfind in
theorem LookupInv.step {groups₀ : List TrigramDisjunction} {seen : List UInt32}
    {s : List TrigramDisjunction × Bool} (h : LookupInv find groups₀ seen s) {t : UInt32}
    (ht : t ∉ seen) : LookupInv find groups₀ (t :: seen) (lookupCallback find s t) := by
  have hlooked : ∀ td ∈ (lookupCallback find s t).1, LookedUp find (t :: seen) td := by
    intro td' htd'
    obtain ⟨td, htd, rfl⟩ := List.mem_map.mp htd'
    exact (h.lookedUp td htd).step hfind ht
  have hmap : (lookupCallback find s t).1.map (·.trigramAlternatives) =
      groups₀.map (·.trigramAlternatives) := by
    refine Eq.trans ?_ h.alternatives
    rw [lookupCallback, List.map_map]
    refine List.map_congr_left fun td _ => ?_
    simp only [Function.comp_apply]
    split
    · cases find t <;> rfl
    · rfl
  refine ⟨hlooked, hmap, lookupCallback_not_hopeless h.running, fun hflag => ?_⟩
  rcases Bool.or_eq_true_iff.mp hflag with hold | hnew
  · exact h.stopped hold
  · rw [Bool.and_eq_true, List.any_eq_true] at hnew
    obtain ⟨td, htd, hhope⟩ := hnew.2
    have hin : td.trigramAlternatives ∈ groups₀.map (·.trigramAlternatives) :=
      hmap ▸ List.mem_map_of_mem htd
    obtain ⟨td₀, htd₀, heq⟩ := List.mem_map.mp hin
    refine ⟨td₀, htd₀, fun t' ht' => ?_⟩
    exact (hlooked td htd).not_found hfind (of_decide_eq_true hhope).2 (heq ▸ ht')

include hfind in
theorem lookUp_inv {order : List UInt32} {groups : List TrigramDisjunction}
    (horder : order.Nodup) (hfresh : ∀ td ∈ groups, td.Fresh) :
    LookupInv find groups order.reverse (lookUp find order groups) := by
  have hfold (rest seen : List UInt32) (s : List TrigramDisjunction × Bool)
      (hnd : (seen ++ rest).Nodup) (hs : LookupInv find groups seen s) :
      LookupInv find groups (rest.reverse ++ seen) (rest.foldl (lookupCallback find) s) := by
    induction rest generalizing seen s with
    | nil => exact hs
    | cons t rest ih =>
        have ht : t ∉ seen := by
          rw [List.nodup_append] at hnd
          exact fun hin => hnd.2.2 t hin t List.mem_cons_self rfl
        have hnd' : ((t :: seen) ++ rest).Nodup := List.perm_middle.nodup_iff.mp hnd
        rw [List.reverse_cons, List.append_assoc]
        exact ih (t :: seen) (lookupCallback find s t) hnd' (hs.step hfind ht)
  have hstart : LookupInv find groups [] (groups, false) := by
    refine ⟨fun td htd => (hfresh td htd).lookedUp, rfl, fun _ td htd hh => ?_, nofun⟩
    rw [TrigramDisjunction.Hopeless, (hfresh td htd).remaining] at hh
    exact (hfresh td htd).ne_nil (List.length_eq_zero_iff.mp hh.1)
  have hend := hfold order [] (groups, false) horder hstart
  rwa [List.append_nil] at hend

end Lookup

section Reads

variable {find : UInt32 → Option (Trigram × ℕ)} {decode : Trigram × ℕ → List UInt32}

/-- A block in a list of every group; `reads` are the groups' reads. -/
def InEveryGroup (decode : Trigram × ℕ → List UInt32) (reads : List (List (Trigram × ℕ)))
    (d : UInt32) : Prop :=
  ∀ rs ∈ reads, ∃ r ∈ rs, d ∈ decode r

def Covers (decode : Trigram × ℕ → List UInt32) (reads : List (List (Trigram × ℕ)))
    (curCandidates : List UInt32) : Prop :=
  ∀ d, InEveryGroup decode reads d → d ∈ curCandidates

/-- The reads of a group are its alternatives that the hash table has. -/
structure Readable (find : UInt32 → Option (Trigram × ℕ)) (td : TrigramDisjunction) : Prop where
  mem : ∀ r, r ∈ td.readTrigrams ↔
    r.1.trgm ∈ td.trigramAlternatives ∧ find r.1.trgm = some r
  nodup : (td.readTrigrams.map (·.1.trgm)).Nodup

/-- A group after the reads of the trigrams in `completed`. -/
structure GroupInv (find : UInt32 → Option (Trigram × ℕ)) (decode : Trigram × ℕ → List UInt32)
    (completed : List UInt32) (td : TrigramDisjunction) : Prop where
  readable : Readable find td
  remaining : td.remainingTrigramsToRead = td.readTrigrams.countP (·.1.trgm ∉ completed)
  sorted : td.remainingTrigramsToRead ≠ 0 → td.docids.Pairwise (· < ·)
  docids : td.remainingTrigramsToRead ≠ 0 →
    ∀ d, d ∈ td.docids ↔ ∃ r ∈ td.readTrigrams, r.1.trgm ∈ completed ∧ d ∈ decode r

/-- What the candidates promise while reads arrive. -/
structure CandidatesInv (decode : Trigram × ℕ → List UInt32)
    (reads : List (List (Trigram × ℕ))) (groups : List TrigramDisjunction)
    (curCandidates : List UInt32) : Prop where
  sorted : curCandidates.Pairwise (· < ·)
  covers_of_ne_nil : curCandidates ≠ [] → Covers decode reads curCandidates
  covers_of_complete : (∃ td ∈ groups, td.remainingTrigramsToRead = 0) →
    Covers decode reads curCandidates

def TrigramDisjunction.lookups (td : TrigramDisjunction) : List UInt32 × List (Trigram × ℕ) :=
  (td.trigramAlternatives, td.readTrigrams)

theorem readable_congr {td td' : TrigramDisjunction} (h : td'.lookups = td.lookups)
    (hr : Readable find td) : Readable find td' := by
  obtain ⟨halt, hread⟩ := Prod.mk.inj h
  exact ⟨by rw [halt, hread]; exact hr.mem, by rw [hread]; exact hr.nodup⟩

theorem countP_completed {rs : List (Trigram × ℕ)} (hrs : (rs.map (·.1.trgm)).Nodup)
    {completed : List UInt32} {t : UInt32} (ht : t ∉ completed) :
    rs.countP (·.1.trgm ∉ completed) =
      rs.countP (·.1.trgm ∉ t :: completed) + if t ∈ rs.map (·.1.trgm) then 1 else 0 := by
  have h := countP_not_mem_cons hrs ht
  rw [List.countP_map, List.countP_map] at h
  exact h

theorem GroupInv.untouched {completed : List UInt32} {td : TrigramDisjunction}
    (h : GroupInv find decode completed td) {t : UInt32} (ht : t ∉ completed)
    (hmem : t ∉ td.trigramAlternatives) : GroupInv find decode (t :: completed) td := by
  have hnot (r : Trigram × ℕ) (hr : r ∈ td.readTrigrams) : r.1.trgm ≠ t :=
    fun heq => hmem (heq ▸ ((h.readable.mem r).mp hr).1)
  have hcount := countP_completed h.readable.nodup ht
  rw [if_neg (by
    rw [List.mem_map]
    exact fun ⟨r, hr, heq⟩ => hnot r hr heq), Nat.add_zero] at hcount
  refine ⟨h.readable, h.remaining.trans hcount, h.sorted, fun hrem d => ?_⟩
  rw [h.docids hrem]
  constructor
  · exact fun ⟨r, hr, hc, hd⟩ => ⟨r, hr, List.mem_cons_of_mem t hc, hd⟩
  · rintro ⟨r, hr, hc, hd⟩
    exact ⟨r, hr, (List.mem_cons.mp hc).resolve_left (hnot r hr), hd⟩

variable {reads : List (List (Trigram × ℕ))} {completed : List UInt32}

def TrigramDisjunction.united (td : TrigramDisjunction) (decoded : List UInt32) : List UInt32 :=
  if td.docids = [] then decoded else setUnion decoded td.docids

theorem TrigramDisjunction.mem_united {td : TrigramDisjunction} {decoded : List UInt32}
    {d : UInt32} : d ∈ td.united decoded ↔ d ∈ decoded ∨ d ∈ td.docids := by
  rw [united]
  split
  · rename_i hd
    rw [hd]
    simp only [List.not_mem_nil, or_false]
  · exact mem_setUnion

section Equations

variable {ignoreCase : Bool} {td : TrigramDisjunction} {decoded cur : List UInt32}

theorem newPostingListRead_waiting (h : 1 < td.remainingTrigramsToRead) :
    newPostingListRead ignoreCase td decoded cur =
      ({ td with
        docids := td.united decoded, remainingTrigramsToRead := td.remainingTrigramsToRead - 1 },
        cur, false) := by
  have hleft : td.remainingTrigramsToRead - 1 > 0 := Nat.sub_pos_of_lt h
  simp only [newPostingListRead, if_pos hleft, TrigramDisjunction.united]

theorem newPostingListRead_first (h : td.remainingTrigramsToRead ≤ 1) (hcur : cur = []) :
    newPostingListRead ignoreCase td decoded cur =
      ({ td with docids := [], remainingTrigramsToRead := td.remainingTrigramsToRead - 1 },
        td.united decoded, false) := by
  have hlast : ¬td.remainingTrigramsToRead - 1 > 0 := by omega
  simp only [newPostingListRead, if_neg hlast, if_pos hcur, TrigramDisjunction.united]

theorem newPostingListRead_intersected (h : td.remainingTrigramsToRead ≤ 1) (hcur : cur ≠ []) :
    newPostingListRead ignoreCase td decoded cur =
      ({ td with
        docids := td.united decoded, remainingTrigramsToRead := td.remainingTrigramsToRead - 1 },
        setIntersection cur (td.united decoded),
        ignoreCase && (setIntersection cur (td.united decoded)).isEmpty) := by
  have hlast : ¬td.remainingTrigramsToRead - 1 > 0 := by omega
  simp only [newPostingListRead, if_neg hlast, if_neg hcur, TrigramDisjunction.united]

end Equations

structure GroupInv.Read (find : UInt32 → Option (Trigram × ℕ))
    (decode : Trigram × ℕ → List UInt32) (completed : List UInt32) (td : TrigramDisjunction)
    (r : Trigram × ℕ) : Prop where
  pending : td.remainingTrigramsToRead ≠ 0
  sorted : (td.united (decode r)).Pairwise (· < ·)
  mem : ∀ d, d ∈ td.united (decode r) ↔
    ∃ r' ∈ td.readTrigrams, r'.1.trgm ∈ r.1.trgm :: completed ∧ d ∈ decode r'
  all : td.remainingTrigramsToRead ≤ 1 → ∀ r' ∈ td.readTrigrams, r'.1.trgm ∈ r.1.trgm :: completed
  next : ∀ docids, (1 < td.remainingTrigramsToRead → docids = td.united (decode r)) →
    GroupInv find decode (r.1.trgm :: completed)
      { td with docids := docids, remainingTrigramsToRead := td.remainingTrigramsToRead - 1 }

theorem GroupInv.read {td : TrigramDisjunction} (h : GroupInv find decode completed td)
    {r : Trigram × ℕ} (hr : find r.1.trgm = some r) (ht : r.1.trgm ∉ completed)
    (hmem : r.1.trgm ∈ td.trigramAlternatives) (hdec : (decode r).Pairwise (· < ·)) :
    GroupInv.Read find decode completed td r := by
  have hin : r ∈ td.readTrigrams := (h.readable.mem r).mpr ⟨hmem, hr⟩
  have hcount := countP_completed h.readable.nodup ht
  rw [if_pos (List.mem_map_of_mem hin), ← h.remaining] at hcount
  have hrem : td.remainingTrigramsToRead ≠ 0 := by omega
  have hunited (d : UInt32) : d ∈ td.united (decode r) ↔
      ∃ r' ∈ td.readTrigrams, r'.1.trgm ∈ r.1.trgm :: completed ∧ d ∈ decode r' := by
    rw [TrigramDisjunction.mem_united, h.docids hrem]
    constructor
    · rintro (hd | ⟨r', hr', hc, hd⟩)
      · exact ⟨r, hin, List.mem_cons_self, hd⟩
      · exact ⟨r', hr', List.mem_cons_of_mem _ hc, hd⟩
    · rintro ⟨r', hr', hc, hd⟩
      rcases List.mem_cons.mp hc with heq | hc
      · have hr'' := ((h.readable.mem r').mp hr').2
        rw [heq, hr] at hr''
        exact Or.inl (Option.some.inj hr'' ▸ hd)
      · exact Or.inr ⟨r', hr', hc, hd⟩
  have hsorted : (td.united (decode r)).Pairwise (· < ·) := by
    rw [TrigramDisjunction.united]
    split
    · exact hdec
    · exact pairwise_setUnion hdec (h.sorted hrem)
  refine ⟨hrem, hsorted, hunited, fun hlast r' hr' => ?_, fun docids hdocids => ?_⟩
  · have hzero : td.readTrigrams.countP (·.1.trgm ∉ r.1.trgm :: completed) = 0 := by omega
    have := List.countP_eq_zero.mp hzero r' hr'
    simpa only [decide_not, Bool.not_eq_true', decide_eq_false_iff_not, not_not] using this
  · have hleft : td.remainingTrigramsToRead - 1 =
        td.readTrigrams.countP (·.1.trgm ∉ r.1.trgm :: completed) := by omega
    refine ⟨⟨h.readable.mem, h.readable.nodup⟩, hleft, fun h0 => ?_, fun h0 => ?_⟩
    · rw [hdocids (by dsimp only at h0; omega)]
      exact hsorted
    · rw [hdocids (by dsimp only at h0; omega)]
      exact hunited

/-- One list arrives at one group that uses it. -/
theorem newPostingListRead_spec (ignoreCase : Bool) {td : TrigramDisjunction}
    (h : GroupInv find decode completed td) (htd : td.readTrigrams ∈ reads) {r : Trigram × ℕ}
    (hr : find r.1.trgm = some r) (ht : r.1.trgm ∉ completed)
    (hmem : r.1.trgm ∈ td.trigramAlternatives) (hdec : (decode r).Pairwise (· < ·))
    {cur : List UInt32} (hsorted : cur.Pairwise (· < ·))
    (hne : cur ≠ [] → Covers decode reads cur) :
    let res := newPostingListRead ignoreCase td (decode r) cur
    res.1.lookups = td.lookups ∧ GroupInv find decode (r.1.trgm :: completed) res.1 ∧
      res.2.1.Pairwise (· < ·) ∧ (res.2.1 ≠ [] → Covers decode reads res.2.1) ∧
      (res.1.remainingTrigramsToRead = 0 → Covers decode reads res.2.1) ∧
      (Covers decode reads cur → Covers decode reads res.2.1) ∧
      (res.2.2 = true → Covers decode reads []) := by
  have hread := h.read hr ht hmem hdec
  by_cases hlast : td.remainingTrigramsToRead ≤ 1
  · -- the group is complete, so its union has every block of its lists
    have hcov (d : UInt32) (hd : InEveryGroup decode reads d) : d ∈ td.united (decode r) := by
      obtain ⟨r', hr', hd'⟩ := hd _ htd
      exact (hread.mem d).mpr ⟨r', hr', hread.all hlast r' hr', hd'⟩
    have hinv (docids : List UInt32) := hread.next docids fun hmore => absurd hlast hmore.not_ge
    by_cases hcur : cur = []
    · rw [newPostingListRead_first hlast hcur]
      exact ⟨rfl, hinv [], hread.sorted, fun _ => hcov, fun _ => hcov, fun _ => hcov, nofun⟩
    · have hboth : Covers decode reads (setIntersection cur (td.united (decode r))) := fun d hd =>
        (mem_setIntersection hsorted hread.sorted).mpr ⟨hne hcur d hd, hcov d hd⟩
      rw [newPostingListRead_intersected hlast hcur]
      refine ⟨rfl, hinv _, pairwise_setIntersection hsorted hread.sorted, fun _ => hboth,
        fun _ => hboth, fun _ => hboth, fun hdone => ?_⟩
      rw [Bool.and_eq_true, List.isEmpty_iff] at hdone
      exact hdone.2 ▸ hboth
  · have hmore := Nat.lt_of_not_le hlast
    rw [newPostingListRead_waiting hmore]
    exact ⟨rfl, hread.next _ fun _ => rfl, hsorted, hne,
      fun h0 => absurd h0 (Nat.sub_ne_zero_of_lt hmore), id, nofun⟩

/-- One list arrives at all groups that use it. -/
theorem deliver_spec (ignoreCase : Bool) {r : Trigram × ℕ} (hr : find r.1.trgm = some r)
    (ht : r.1.trgm ∉ completed) (hdec : (decode r).Pairwise (· < ·))
    {tds : List TrigramDisjunction} {cur : List UInt32}
    (htds : ∀ td ∈ tds, GroupInv find decode completed td ∧ td.readTrigrams ∈ reads)
    (hcur : CandidatesInv decode reads tds cur) :
    let res := deliver ignoreCase r.1.trgm (decode r) tds cur
    res.1.map TrigramDisjunction.lookups = tds.map TrigramDisjunction.lookups ∧
      (res.2.2 = true → Covers decode reads []) ∧
      (res.2.2 = false → (∀ td ∈ res.1, GroupInv find decode (r.1.trgm :: completed) td) ∧
        CandidatesInv decode reads res.1 res.2.1 ∧
        (Covers decode reads cur → Covers decode reads res.2.1)) := by
  induction tds generalizing cur with
  | nil => exact ⟨rfl, nofun, fun _ => ⟨nofun, hcur, id⟩⟩
  | cons td tds ih =>
      rw [List.forall_mem_cons] at htds
      obtain ⟨⟨hinv, hreads⟩, htds⟩ := htds
      by_cases hmem : r.1.trgm ∈ td.trigramAlternatives
      · rw [deliver, if_pos hmem]
        have hone := newPostingListRead_spec ignoreCase hinv hreads hr ht hmem hdec hcur.sorted
          hcur.covers_of_ne_nil
        rcases hres : newPostingListRead ignoreCase td (decode r) cur with ⟨td', cur', done⟩
        rw [hres] at hone
        obtain ⟨hl, hinv', hsorted, hne, hzero, hmono, hdone⟩ := hone
        cases done with
        | true => exact ⟨congrArg (· :: _) hl, fun _ => hdone rfl, nofun⟩
        | false =>
            have hcur' : CandidatesInv decode reads tds cur' :=
              ⟨hsorted, hne, fun ⟨td₁, h₁, h0⟩ =>
                hmono (hcur.covers_of_complete ⟨td₁, List.mem_cons_of_mem td h₁, h0⟩)⟩
            have hrest := ih htds hcur'
            simp only [Bool.false_eq_true, if_false]
            rcases hres' : deliver ignoreCase r.1.trgm (decode r) tds cur' with ⟨tds', cur'', done'⟩
            rw [hres'] at hrest
            obtain ⟨hmap, habort, hgo⟩ := hrest
            refine ⟨congrArg₂ (· :: ·) hl hmap, habort, fun hf => ?_⟩
            obtain ⟨hall, hcand, hmono'⟩ := hgo hf
            refine ⟨List.forall_mem_cons.mpr ⟨hinv', hall⟩,
              ⟨hcand.sorted, hcand.covers_of_ne_nil, ?_⟩, fun hc => hmono' (hmono hc)⟩
            rintro ⟨td₁, h₁, h0⟩
            rcases List.mem_cons.mp h₁ with rfl | h₁
            · exact hmono' (hzero h0)
            · exact hcand.covers_of_complete ⟨td₁, h₁, h0⟩
      · rw [deliver, if_neg hmem]
        have hrest := ih htds ⟨hcur.sorted, hcur.covers_of_ne_nil, fun ⟨td₁, h₁, h0⟩ =>
          hcur.covers_of_complete ⟨td₁, List.mem_cons_of_mem td h₁, h0⟩⟩
        rcases hres : deliver ignoreCase r.1.trgm (decode r) tds cur with ⟨tds', cur', done⟩
        rw [hres] at hrest
        obtain ⟨hmap, habort, hgo⟩ := hrest
        refine ⟨congrArg (td.lookups :: ·) hmap, habort, fun hf => ?_⟩
        obtain ⟨hall, hcand, hmono⟩ := hgo hf
        refine ⟨List.forall_mem_cons.mpr ⟨hinv.untouched ht hmem, hall⟩,
          ⟨hcand.sorted, hcand.covers_of_ne_nil, ?_⟩, hmono⟩
        rintro ⟨td₁, h₁, h0⟩
        rcases List.mem_cons.mp h₁ with rfl | h₁
        · exact hmono (hcur.covers_of_complete ⟨_, List.mem_cons_self, h0⟩)
        · exact hcand.covers_of_complete ⟨td₁, h₁, h0⟩

end Reads

namespace Selection

variable {find : UInt32 → Option (Trigram × ℕ)} {decode : Trigram × ℕ → List UInt32}

def inFlight (s : Selection) : List (Trigram × ℕ) := s.waiting.toList ++ s.pending

/-- A search that is not aborted. `completed` are the trigrams whose lists have been delivered,
`gs` the groups that the loop started with. -/
structure Active (find : UInt32 → Option (Trigram × ℕ)) (decode : Trigram × ℕ → List UInt32)
    (gs : List TrigramDisjunction) (s : Selection) (completed : List UInt32) : Prop where
  running : s.done = false
  groups : ∀ td ∈ s.groups, GroupInv find decode completed td
  candidates : CandidatesInv decode (gs.map (·.readTrigrams)) s.groups s.curCandidates
  nodup : (completed ++ s.inFlight.map (·.1.trgm)).Nodup
  submitted : ∀ t, t ∈ s.submitted ↔ t ∈ completed ∨ t ∈ s.inFlight.map (·.1.trgm)
  found : ∀ r, r ∈ s.inFlight ∨ r ∈ s.reads → find r.1.trgm = some r
  next : ∀ td ∈ s.next, td ∈ gs
  /-- Until the loop has started, or the candidates are complete, one group's reads are on the
  way. -/
  progress : s.next = gs ∨ Covers decode (gs.map (·.readTrigrams)) s.curCandidates ∨
    ∃ td ∈ gs, ∀ r ∈ td.readTrigrams, r.1.trgm ∈ s.submitted ∨ r ∈ s.reads

structure Inv (find : UInt32 → Option (Trigram × ℕ)) (decode : Trigram × ℕ → List UInt32)
    (gs : List TrigramDisjunction) (s : Selection) : Prop where
  lookups : s.groups.map TrigramDisjunction.lookups = gs.map TrigramDisjunction.lookups
  state : (s.done = true ∧ Covers decode (gs.map (·.readTrigrams)) []) ∨
    ∃ completed, Active find decode gs s completed

variable {gs : List TrigramDisjunction} {s s' : Selection} {completed : List UInt32}

theorem map_readTrigrams {tds tds' : List TrigramDisjunction}
    (h : tds.map TrigramDisjunction.lookups = tds'.map TrigramDisjunction.lookups) :
    tds.map (·.readTrigrams) = tds'.map (·.readTrigrams) := by
  have h2 := congrArg (List.map Prod.snd) h
  rwa [List.map_map, List.map_map] at h2

/-- A read that completes is of a trigram whose list has not been delivered. -/
theorem Active.pending_fresh (h : Active find decode gs s completed) {i : ℕ} {r : Trigram × ℕ}
    (hi : s.pending[i]? = some r) : find r.1.trgm = some r ∧
      s.inFlight.Perm (r :: (s.waiting.toList ++ s.pending.eraseIdx i)) ∧
      ((r.1.trgm :: completed) ++
        (s.waiting.toList ++ s.pending.eraseIdx i).map (·.1.trgm)).Nodup ∧
      r.1.trgm ∉ completed := by
  obtain ⟨hlt, rfl⟩ := List.getElem?_eq_some_iff.mp hi
  have hperm : s.inFlight.Perm (s.pending[i] :: (s.waiting.toList ++ s.pending.eraseIdx i)) :=
    ((List.getElem_cons_eraseIdx_perm hlt).symm.append_left _).trans List.perm_middle
  have hnodup : ((s.pending[i].1.trgm :: completed) ++
      (s.waiting.toList ++ s.pending.eraseIdx i).map (·.1.trgm)).Nodup :=
    (((hperm.map _).append_left completed).trans List.perm_middle).nodup_iff.mp h.nodup
  refine ⟨h.found _ (Or.inl (hperm.mem_iff.mpr List.mem_cons_self)), hperm, hnodup, fun hc => ?_⟩
  exact (List.nodup_cons.mp hnodup).1 (List.mem_append_left _ hc)

theorem Active.complete (h : Active find decode gs s completed)
    (hl : s.groups.map TrigramDisjunction.lookups = gs.map TrigramDisjunction.lookups)
    (hdec : ∀ t r, find t = some r → (decode r).Pairwise (· < ·)) {ignoreCase : Bool} {i : ℕ}
    {r : Trigram × ℕ} (hi : s.pending[i]? = some r) :
    Inv find decode gs
      (readCallback ignoreCase decode { s with pending := s.pending.eraseIdx i } r) := by
  obtain ⟨hfound, hperm, hnodup, ht⟩ := h.pending_fresh hi
  have hreads := map_readTrigrams hl
  have hspec := deliver_spec ignoreCase hfound ht (hdec _ _ hfound)
    (fun td htd => ⟨h.groups td htd, hreads ▸ List.mem_map_of_mem htd⟩) h.candidates
  rw [readCallback, if_neg (by rw [h.running]; exact Bool.false_ne_true)]
  change Inv find decode gs { s with
    pending := s.pending.eraseIdx i
    groups := (deliver ignoreCase r.1.trgm (decode r) s.groups s.curCandidates).1
    curCandidates := (deliver ignoreCase r.1.trgm (decode r) s.groups s.curCandidates).2.1
    done := (deliver ignoreCase r.1.trgm (decode r) s.groups s.curCandidates).2.2 }
  rcases hres : deliver ignoreCase r.1.trgm (decode r) s.groups s.curCandidates with
    ⟨groups', cur', done'⟩
  rw [hres] at hspec
  obtain ⟨hmap, habort, hgo⟩ := hspec
  refine ⟨hmap.trans hl, ?_⟩
  cases done' with
  | true => exact Or.inl ⟨rfl, habort rfl⟩
  | false =>
      obtain ⟨hgroups, hcand, hmono⟩ := hgo rfl
      refine Or.inr ⟨r.1.trgm :: completed, rfl, hgroups, hcand, hnodup, fun t => ?_,
        fun r' hr' => h.found r' ?_, h.next, ?_⟩
      · rw [h.submitted, (hperm.map (·.1.trgm)).mem_iff, List.map_cons, List.mem_cons,
          List.mem_cons, or_left_comm, or_assoc]
        rfl
      · exact hr'.imp_left fun hin' => hperm.mem_iff.mpr (List.mem_cons_of_mem _ hin')
      · exact h.progress.imp_right (Or.imp_left hmono)

theorem Active.finishWaiting (h : Active find decode gs s completed) {r : Trigram × ℕ}
    (hw : s.waiting = some r) (hp : s.pending = []) :
    Active find decode gs { s with waiting := none, pending := [r] } completed := by
  have hsame : s.inFlight = [r] := by rw [inFlight, hw, hp]; rfl
  have hnodup := h.nodup
  have hsub := h.submitted
  have hfound := h.found
  rw [hsame] at hnodup hsub hfound
  exact ⟨h.running, h.groups, h.candidates, hnodup, hsub, hfound, h.next, h.progress⟩

theorem Active.skip (h : Active find decode gs s completed) {r : Trigram × ℕ}
    {reads : List (Trigram × ℕ)} (hr : s.reads = r :: reads) (hs : r.1.trgm ∈ s.submitted) :
    Active find decode gs { s with reads := reads } completed := by
  refine ⟨h.running, h.groups, h.candidates, h.nodup, h.submitted, fun r' hr' => h.found r' ?_,
    h.next, h.progress.imp_right (Or.imp_right ?_)⟩
  · exact hr'.imp_right fun hin => hr ▸ List.mem_cons_of_mem r hin
  · rintro ⟨td, htd, hall⟩
    refine ⟨td, htd, fun r' hr' => ?_⟩
    rcases hall r' hr' with hin | hin
    · exact Or.inl hin
    · rw [hr, List.mem_cons] at hin
      rcases hin with rfl | hin
      · exact Or.inl hs
      · exact Or.inr hin

/-- The read `r` goes into flight, at once or after `engine.finish()`. -/
theorem Active.submit (h : Active find decode gs s completed) {r : Trigram × ℕ}
    {reads : List (Trigram × ℕ)} (hr : s.reads = r :: reads) (hs : r.1.trgm ∉ s.submitted)
    (hsame : s'.done = s.done ∧ s'.groups = s.groups ∧ s'.curCandidates = s.curCandidates ∧
      s'.next = s.next) (hreads : s'.reads = reads)
    (hsub : s'.submitted = r.1.trgm :: s.submitted)
    (hflight : s'.inFlight.Perm (r :: s.inFlight)) : Active find decode gs s' completed := by
  obtain ⟨hdone, hgroups, hcur, hnext⟩ := hsame
  have hnot := hs
  rw [h.submitted, not_or] at hnot
  refine ⟨hdone.trans h.running, hgroups ▸ h.groups, by rw [hgroups, hcur]; exact h.candidates,
    ?_, fun t => ?_, fun r' hr' => h.found r' ?_, hnext ▸ h.next, ?_⟩
  · have hperm : (completed ++ s'.inFlight.map (·.1.trgm)).Perm
        (r.1.trgm :: (completed ++ s.inFlight.map (·.1.trgm))) :=
      ((hflight.map _).append_left completed).trans List.perm_middle
    rw [hperm.nodup_iff, List.nodup_cons, List.mem_append, not_or]
    exact ⟨hnot, h.nodup⟩
  · rw [hsub, List.mem_cons, h.submitted, (hflight.map (·.1.trgm)).mem_iff, List.map_cons,
      List.mem_cons, or_left_comm]
  · rw [hflight.mem_iff, List.mem_cons, hreads] at hr'
    rw [hr, List.mem_cons]
    tauto
  · rw [hnext, hcur]
    refine h.progress.imp_right (Or.imp_right ?_)
    rintro ⟨td, htd, hall⟩
    refine ⟨td, htd, fun r' hr' => ?_⟩
    rw [hsub, hreads, List.mem_cons]
    rcases hall r' hr' with hin | hin
    · exact Or.inl (Or.inr hin)
    · rw [hr, List.mem_cons] at hin
      exact hin.imp_left fun heq => Or.inl (congrArg (·.1.trgm) heq)

theorem Active.ignoreRest (h : Active find decode gs s completed) (hc : s.curCandidates ≠ []) :
    Active find decode gs { s with next := [] } completed :=
  ⟨h.running, h.groups, h.candidates, h.nodup, h.submitted, h.found, nofun,
    Or.inr (Or.inl (h.candidates.covers_of_ne_nil hc))⟩

theorem Active.nextGroup (h : Active find decode gs s completed)
    (hl : s.groups.map TrigramDisjunction.lookups = gs.map TrigramDisjunction.lookups)
    {td : TrigramDisjunction} {next : List TrigramDisjunction} (hn : s.next = td :: next) :
    Active find decode gs { s with reads := td.readTrigrams, next := next } completed := by
  have htd : td ∈ gs := h.next td (hn ▸ List.mem_cons_self)
  have hmem : td.lookups ∈ s.groups.map TrigramDisjunction.lookups :=
    hl ▸ List.mem_map_of_mem htd
  obtain ⟨td', htd', heq⟩ := List.mem_map.mp hmem
  have hreadable := readable_congr heq.symm (h.groups td' htd').readable
  refine ⟨h.running, h.groups, h.candidates, h.nodup, h.submitted, fun r hr => ?_,
    fun td₁ h₁ => h.next td₁ (hn ▸ List.mem_cons_of_mem td h₁),
    Or.inr (Or.inr ⟨td, htd, fun r hr => Or.inr hr⟩)⟩
  rcases hr with hr | hr
  · exact h.found r (Or.inl hr)
  · exact ((hreadable.mem r).mp hr).2

theorem Inv.step (hdec : ∀ t r, find t = some r → (decode r).Pairwise (· < ·))
    {ignoreCase : Bool} {e : SelectionEvent} (h : Inv find decode gs s)
    (hs : step ignoreCase decode s e = some s') : Inv find decode gs s' := by
  obtain ⟨hl, hstate⟩ := h
  cases e with
  | complete i =>
      obtain ⟨r, hr, rfl⟩ := Option.map_eq_some_iff.mp hs
      rcases hstate with ⟨hdone, hcov⟩ | ⟨completed, hact⟩
      · rw [readCallback, if_pos hdone]
        exact ⟨hl, Or.inl ⟨hdone, hcov⟩⟩
      · exact hact.complete hl hdec hr
  | advance =>
      change s.advance = some s' at hs
      rw [advance] at hs
      split at hs
      · rename_i r hw
        split_ifs at hs with hp hdone
        · obtain rfl := Option.some.inj hs
          rcases hstate with hd | ⟨completed, hact⟩
          · exact ⟨hl, Or.inl hd⟩
          · exact absurd (hact.running.symm.trans hdone) Bool.false_ne_true
        · obtain rfl := Option.some.inj hs
          rw [not_not] at hp
          exact ⟨hl, hstate.imp_right fun ⟨completed, hact⟩ =>
            ⟨completed, hact.finishWaiting hw hp⟩⟩
      · rename_i r reads hw hr
        by_cases hsub : r.1.trgm ∈ s.submitted
        · rw [if_pos hsub] at hs
          obtain rfl := Option.some.inj hs
          exact ⟨hl, hstate.imp_right fun ⟨completed, hact⟩ => ⟨completed, hact.skip hr hsub⟩⟩
        · rw [if_neg hsub] at hs
          by_cases hfull : 5 ≤ s.pending.length
          · obtain rfl := Option.some.inj ((if_pos hfull).symm.trans hs)
            refine ⟨hl, hstate.imp_right fun ⟨completed, hact⟩ =>
              ⟨completed, hact.submit hr hsub ⟨rfl, rfl, rfl, rfl⟩ rfl rfl ?_⟩⟩
            simp only [inFlight, hw]
            exact List.Perm.refl _
          · obtain rfl := Option.some.inj ((if_neg hfull).symm.trans hs)
            refine ⟨hl, hstate.imp_right fun ⟨completed, hact⟩ =>
              ⟨completed, hact.submit hr hsub ⟨rfl, rfl, rfl, rfl⟩ rfl rfl ?_⟩⟩
            simp only [inFlight, hw]
            exact List.perm_append_singleton r s.pending
      · rename_i td next hw hr hn
        split_ifs at hs with hmany
        · obtain rfl := Option.some.inj hs
          exact ⟨hl, hstate.imp_right fun ⟨completed, hact⟩ =>
            ⟨completed, hact.ignoreRest hmany.1⟩⟩
        · obtain rfl := Option.some.inj hs
          exact ⟨hl, hstate.imp_right fun ⟨completed, hact⟩ =>
            ⟨completed, hact.nextGroup hl hn⟩⟩
      · cases hs

/-- The groups that the loop starts with: after all lookups, none without a list. -/
theorem start_inv {seen : List UInt32} (h : ∀ td' ∈ gs, ∃ td : TrigramDisjunction,
      td.reset = td' ∧ LookedUp find seen td ∧ (∀ t ∈ td.trigramAlternatives, t ∈ seen) ∧
        td.readTrigrams ≠ []) :
    Inv find decode gs (start gs) := by
  refine ⟨rfl, Or.inr ⟨[], rfl, ?_, ⟨List.Pairwise.nil, fun hc => absurd rfl hc, ?_⟩,
    List.nodup_nil, fun t => by simp [start, inFlight], fun r hr => by simp [start, inFlight] at hr,
    fun td htd => htd, Or.inl rfl⟩⟩
  · intro td' htd'
    obtain ⟨td, rfl, hl, hseen, -⟩ := h td' htd'
    refine ⟨⟨fun r => ?_, hl.nodup⟩, ?_, fun _ => ?_, fun _ d => ?_⟩
    · change r ∈ td.readTrigrams ↔ r.1.trgm ∈ td.trigramAlternatives ∧ _
      rw [hl.mem]
      exact ⟨fun ⟨ha, _, hf⟩ => ⟨ha, hf⟩, fun ⟨ha, hf⟩ => ⟨ha, hseen _ ha, hf⟩⟩
    · simp [TrigramDisjunction.reset]
    · simp [TrigramDisjunction.reset, hl.docids]
    · simp [TrigramDisjunction.reset, hl.docids]
  · rintro ⟨td', htd', h0⟩
    obtain ⟨td, rfl, -, -, hne⟩ := h td' htd'
    exact absurd (List.length_eq_zero_iff.mp h0) hne

theorem Inv.ended {gs : List TrigramDisjunction} (hne : gs ≠ []) (h : Inv find decode gs s)
    (hend : s.Ended) :
    (s.done = true ∧ ∀ d, ¬InEveryGroup decode (gs.map (·.readTrigrams)) d) ∨
      (s.curCandidates.Pairwise (· < ·) ∧
        Covers decode (gs.map (·.readTrigrams)) s.curCandidates) := by
  obtain ⟨hw, hr, hn, hp⟩ := hend
  rcases h.state with ⟨hdone, hcov⟩ | ⟨completed, hact⟩
  · exact Or.inl ⟨hdone, fun d hd => List.not_mem_nil (hcov d hd)⟩
  · refine Or.inr ⟨hact.candidates.sorted, ?_⟩
    rcases hact.progress with hstart | hcov | ⟨td, htd, hall⟩
    · exact absurd (hstart.symm.trans hn) hne
    · exact hcov
    · have hmem : td.lookups ∈ s.groups.map TrigramDisjunction.lookups :=
        h.lookups ▸ List.mem_map_of_mem htd
      obtain ⟨td', htd', heq⟩ := List.mem_map.mp hmem
      have hreads : td'.readTrigrams = td.readTrigrams := (Prod.mk.inj heq).2
      refine hact.candidates.covers_of_complete ⟨td', htd', ?_⟩
      rw [(hact.groups td' htd').remaining, hreads, List.countP_eq_zero]
      intro r hr'
      have hsub := (hall r hr').resolve_right (by rw [hr]; exact List.not_mem_nil)
      rw [hact.submitted, inFlight, hw, hp] at hsub
      simpa using hsub

end Selection

section AfterLookups

variable {find : UInt32 → Option (Trigram × ℕ)} {groups₀ groups₁ groups : List TrigramDisjunction}
  {order : List UInt32}

theorem mem_of_perm_trigramsToLookup (horder : order.Perm (trigramsToLookup groups₀))
    {td : TrigramDisjunction} (htd : td ∈ groups₀) {t : UInt32} (ht : t ∈ td.trigramAlternatives) :
    t ∈ order := by
  rw [horder.mem_iff, trigramsToLookup, List.mem_dedup, List.mem_flatMap]
  exact ⟨td, htd, ht⟩

/-- The groups that are left after all lookups, reset and sorted. -/
theorem exists_of_mem_sorted (hfind : ∀ t r, find t = some r → r.1.trgm = t)
    (hfresh : ∀ td ∈ groups₀, td.Fresh) (horder : order.Perm (trigramsToLookup groups₀))
    (hlook : lookUp find order groups₀ = (groups₁, false))
    (hsort : groups.Perm (groups₁.map .reset)) {td' : TrigramDisjunction} (htd' : td' ∈ groups) :
    ∃ td : TrigramDisjunction, td.reset = td' ∧ LookedUp find order.reverse td ∧
      (∀ t ∈ td.trigramAlternatives, t ∈ order.reverse) ∧ td.readTrigrams ≠ [] := by
  have hinv := lookUp_inv hfind (horder.nodup_iff.mpr (List.nodup_dedup _)) hfresh
  rw [hlook] at hinv
  obtain ⟨td, htd, rfl⟩ := List.mem_map.mp (hsort.mem_iff.mp htd')
  have hl := hinv.lookedUp td htd
  have hin : td.trigramAlternatives ∈ groups₀.map (·.trigramAlternatives) :=
    hinv.alternatives ▸ List.mem_map_of_mem htd
  obtain ⟨td₀, htd₀, heq⟩ := List.mem_map.mp hin
  have hall : ∀ t ∈ td.trigramAlternatives, t ∈ order.reverse := fun t ht =>
    List.mem_reverse.mpr (mem_of_perm_trigramsToLookup horder htd₀ (heq ▸ ht))
  refine ⟨td, rfl, hl, hall, fun hnil => hinv.running rfl td htd ⟨?_, hnil⟩⟩
  rw [hl.remaining, List.countP_eq_zero]
  exact fun t ht => by simpa using hall t ht

theorem sorted_ne_nil (hfind : ∀ t r, find t = some r → r.1.trgm = t) (hne : groups₀ ≠ [])
    (hfresh : ∀ td ∈ groups₀, td.Fresh) (horder : order.Perm (trigramsToLookup groups₀))
    (hlook : lookUp find order groups₀ = (groups₁, false))
    (hsort : groups.Perm (groups₁.map .reset)) : groups ≠ [] := by
  have hinv := lookUp_inv hfind (horder.nodup_iff.mpr (List.nodup_dedup _)) hfresh
  rw [hlook] at hinv
  have hlen := congrArg List.length hinv.alternatives
  have hsorted := hsort.length_eq
  rw [List.length_map] at hsorted
  rw [List.length_map, List.length_map, ← hsorted] at hlen
  rintro rfl
  exact hne (List.length_eq_zero_iff.mp hlen.symm)

end AfterLookups

/-- When the intersection phase ends, either the search was aborted and no block lies in a list of
every group, or the candidates contain all such blocks. -/
theorem selection_keeps_matches {find : UInt32 → Option (Trigram × ℕ)}
    (hfind : ∀ t r, find t = some r → r.1.trgm = t) {decode : Trigram × ℕ → List UInt32}
    (hdec : ∀ t r, find t = some r → (decode r).Pairwise (· < ·))
    {groups₀ groups₁ groups : List TrigramDisjunction} (hne : groups₀ ≠ [])
    (hfresh : ∀ td ∈ groups₀, td.Fresh) {order : List UInt32}
    (horder : order.Perm (trigramsToLookup groups₀))
    (hlook : lookUp find order groups₀ = (groups₁, false))
    (hsort : groups.Perm (groups₁.map .reset)) {ignoreCase : Bool} {events : List SelectionEvent}
    {s : Selection}
    (hrun : Run.run (Selection.step ignoreCase decode) (.start groups) events = some s)
    (hend : s.Ended) :
    (s.done = true ∧ ∀ d, ¬InEveryGroup decode (groups.map (·.readTrigrams)) d) ∨
      (s.curCandidates.Pairwise (· < ·) ∧
        ∀ d, InEveryGroup decode (groups.map (·.readTrigrams)) d → d ∈ s.curCandidates) := by
  have hstart : Selection.Inv find decode groups (.start groups) :=
    Selection.start_inv fun td' htd' =>
      exists_of_mem_sorted hfind hfresh horder hlook hsort htd'
  have hinv := Run.invariant (fun _ _ _ hi hs => Selection.Inv.step hdec hi hs) hstart hrun
  exact hinv.ended (sorted_ne_nil hfind hne hfresh horder hlook hsort) hend

/-- Two groups share a list, whose read completes last. -/
theorem selection_keeps_matches_shared :
    ∃ s, Run.run (Selection.step false fun r => if r.1.trgm = 1 then [3, 5] else [5, 7])
        (.start [⟨[1], [(⟨1, 2, 0⟩, 1)], 2, [], 1⟩,
          ⟨[1, 2, 9], [(⟨1, 2, 0⟩, 1), (⟨2, 2, 0⟩, 1)], 4, [], 2⟩])
        [.advance, .advance, .advance, .advance, .advance, .complete 1, .complete 0] = some s ∧
      ((s.done = true ∧ ∀ d, ¬InEveryGroup (fun r => if r.1.trgm = 1 then [3, 5] else [5, 7])
          [[(⟨1, 2, 0⟩, 1)], [(⟨1, 2, 0⟩, 1), (⟨2, 2, 0⟩, 1)]] d) ∨
        (s.curCandidates.Pairwise (· < ·) ∧
          ∀ d, InEveryGroup (fun r => if r.1.trgm = 1 then [3, 5] else [5, 7])
            [[(⟨1, 2, 0⟩, 1)], [(⟨1, 2, 0⟩, 1), (⟨2, 2, 0⟩, 1)]] d → d ∈ s.curCandidates)) := by
  let find : UInt32 → Option (Trigram × ℕ) := fun t =>
    if t = 1 ∨ t = 2 then some (⟨t, 2, 0⟩, 1) else none
  have hfind : ∀ t r, find t = some r → r.1.trgm = t := by
    intro t r h
    by_cases ht : t = 1 ∨ t = 2
    · rw [show find t = some (⟨t, 2, 0⟩, 1) from if_pos ht] at h
      rw [← Option.some.inj h]
    · rw [show find t = none from if_neg ht] at h
      cases h
  have hdec (r : Trigram × ℕ) :
      (if r.1.trgm = 1 then [3, 5] else [5, 7] : List UInt32).Pairwise (· < ·) := by
    split <;> decide
  have hfresh : ∀ td ∈ [(⟨[1], [], 0, [], 1⟩ : TrigramDisjunction), ⟨[1, 2, 9], [], 0, [], 3⟩],
      td.Fresh := by
    intro td htd
    rcases List.mem_pair.mp htd with rfl | rfl
    · exact ⟨by decide, by decide, rfl, rfl, rfl⟩
    · exact ⟨by decide, by decide, rfl, rfl, rfl⟩
  have hlook : lookUp find [1, 2, 9] [⟨[1], [], 0, [], 1⟩, ⟨[1, 2, 9], [], 0, [], 3⟩] =
      ([⟨[1], [(⟨1, 2, 0⟩, 1)], 2, [], 0⟩,
        ⟨[1, 2, 9], [(⟨1, 2, 0⟩, 1), (⟨2, 2, 0⟩, 1)], 4, [], 0⟩], false) := by
    decide +kernel
  have hrun : Run.run (Selection.step false fun r => if r.1.trgm = 1 then [3, 5] else [5, 7])
      (.start [⟨[1], [(⟨1, 2, 0⟩, 1)], 2, [], 1⟩,
        ⟨[1, 2, 9], [(⟨1, 2, 0⟩, 1), (⟨2, 2, 0⟩, 1)], 4, [], 2⟩])
      [.advance, .advance, .advance, .advance, .advance, .complete 1, .complete 0] =
      some ⟨[⟨[1], [(⟨1, 2, 0⟩, 1)], 2, [], 0⟩,
        ⟨[1, 2, 9], [(⟨1, 2, 0⟩, 1), (⟨2, 2, 0⟩, 1)], 4, [3, 5, 7], 0⟩], [], [], none, [2, 1], [],
        [3, 5], false⟩ := by
    decide +kernel
  exact ⟨_, hrun, selection_keeps_matches hfind (fun _ r _ => hdec r) (List.cons_ne_nil _ _)
    hfresh (by decide) hlook (List.Perm.refl _) hrun ⟨rfl, rfl, rfl, rfl⟩⟩

end Flocate
