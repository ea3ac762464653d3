import Flocate.IOUringEngine
import Mathlib.Algebra.Order.BigOperators.Group.List

/-!
# The I/O engine loses and duplicates nothing

Every request is queued, prepared, with the kernel, completed or answered, and no more than
`queue_depth` requests are between preparation and answer. What is prepared sets
`anything_to_submit`, and requests are only queued while the ring is full.
-/

namespace Flocate

open Bytes

namespace IOUringEngine

variable {file : ℕ → ℕ → UInt8} {submitted : Multiset Request} {s s' : IOUringEngine}
  {r : Request}

section Entries

theorem slice_add (fd offset m n : ℕ) :
    slice file fd offset (m + n) = slice file fd offset m ++ slice file fd (offset + m) n := by
  rw [slice, List.range_add, List.map_append, List.map_map]
  congr 1
  refine List.map_congr_left fun i _ => ?_
  rw [Function.comp_apply, Nat.add_assoc]

theorem length_slice (fd offset n : ℕ) : (slice file fd offset n).length = n := by
  rw [slice, List.length_map, List.length_range]

/-- An entry that the kernel has not completed has been read from the file up to where it goes
on. -/
def Partial (file : ℕ → ℕ → UInt8) (p : PendingRead) : Prop :=
  match p.request with
  | .read fd len offset _ => ∃ done, p.buf = slice file fd offset done ∧ done + p.iovLen = len ∧
      p.offset = offset + done
  | .stat _ _ => True

/-- The last `res` bytes of a completed entry are new. -/
def Completed (file : ℕ → ℕ → UInt8) (p : PendingRead) (res : ℤ) : Prop :=
  match p.request with
  | .read fd len offset _ => ∃ done n, res = ((n + 1 : ℕ) : ℤ) ∧ n + 1 ≤ p.iovLen ∧
      p.buf = slice file fd offset (done + (n + 1)) ∧ done + p.iovLen = len ∧
      p.offset = offset + done
  | .stat _ _ => True

def Answered (file : ℕ → ℕ → UInt8) (r : Request) (answer : Answer) : Prop :=
  match r with
  | .read fd len offset _ => answer = .data (slice file fd offset len)
  | .stat _ _ => ∃ ok, answer = .ok ok

theorem partial_pending (r : Request) : Partial file r.pending := by
  cases r with
  | read fd len offset cb => exact ⟨0, rfl, Nat.zero_add len, rfl⟩
  | stat pathname cb => trivial

theorem pending_request (r : Request) : r.pending.request = r := by
  cases r <;> rfl

end Entries

section Invariant

def outstanding (s : IOUringEngine) : Multiset Request :=
  ↑s.queuedReads + ↑s.queuedStats + ↑(s.sqes.map (·.request)) + ↑(s.inflight.map (·.request)) +
    ↑(s.cqes.map (·.1.request))

structure Balanced (file : ℕ → ℕ → UInt8) (submitted : Multiset Request) (s : IOUringEngine) :
    Prop where
  status : s.status = none
  count : s.pendingReads = s.sqes.length + s.inflight.length + s.cqes.length
  depth : s.pendingReads ≤ queueDepth
  balance : ↑(s.called.map (·.1)) + outstanding s = submitted
  sqes : ∀ p ∈ s.sqes, Partial file p
  inflight : ∀ p ∈ s.inflight, Partial file p
  cqes : ∀ c ∈ s.cqes, Completed file c.1 c.2
  called : ∀ c ∈ s.called, Answered file c.1 c.2

def Full (s : IOUringEngine) : Prop :=
  s.queuedReads ≠ [] ∨ s.queuedStats ≠ [] → s.pendingReads = queueDepth

/-- What is prepared will be submitted before the engine blocks. -/
def Flagged (s : IOUringEngine) : Prop := s.sqes ≠ [] → s.anythingToSubmit = true

def AtPc (s : IOUringEngine) : Prop :=
  match s.pc with
  | .idle => Full s
  | .loop => Full s ∧ Flagged s
  | .waiting => s.sqes = [] ∧ 0 < s.pendingReads
  | .firstCqe => Flagged s ∧ s.cqes ≠ []
  | .nextCqe => Flagged s
  | .callback oldPendingReads => oldPendingReads ≤ s.pendingReads ∧
      (s.sqes ≠ [] → s.anythingToSubmit = true ∨ oldPendingReads < s.pendingReads)
  | .queuedStats => Flagged s
  | .queuedReads => Flagged s ∧ (s.queuedStats ≠ [] → s.pendingReads = queueDepth)

structure Inv (file : ℕ → ℕ → UInt8) (submitted : Multiset Request) (s : IOUringEngine) :
    Prop extends Balanced file submitted s where
  atPc : AtPc s

theorem inv_start : Inv file 0 {} where
  status := rfl
  count := rfl
  depth := Nat.zero_le _
  balance := rfl
  sqes := List.forall_mem_nil _
  inflight := List.forall_mem_nil _
  cqes := List.forall_mem_nil _
  called := List.forall_mem_nil _
  atPc h := by rcases h with h | h <;> exact absurd rfl h

theorem Balanced.goto (h : Balanced file submitted s) (pc : Pc) (anythingToSubmit : Bool) :
    Balanced file submitted { s with pc := pc, anythingToSubmit := anythingToSubmit } :=
  ⟨h.status, h.count, h.depth, h.balance, h.sqes, h.inflight, h.cqes, h.called⟩

theorem prepare_of_lt (h : s.sqes.length < queueDepth) (p : PendingRead) :
    s.prepare p = { s with sqes := s.sqes ++ [p] } := if_pos h

theorem submitInternal_of_lt (h : Balanced file submitted s) (hlt : s.pendingReads < queueDepth)
    (r : Request) : s.submitInternal r =
      { s with sqes := s.sqes ++ [r.pending], pendingReads := s.pendingReads + 1 } := by
  have hcount := h.count
  rw [submitInternal, prepare_of_lt (by omega)]

theorem Balanced.submitInternal (h : Balanced file submitted s)
    (hlt : s.pendingReads < queueDepth) (r : Request) :
    Balanced file (r ::ₘ submitted) (s.submitInternal r) := by
  rw [submitInternal_of_lt h hlt]
  refine ⟨h.status, ?_, hlt, ?_, ?_, h.inflight, h.cqes, h.called⟩
  · have hcount := h.count
    rw [List.length_append, List.length_singleton]
    dsimp only
    omega
  · rw [← h.balance, outstanding, outstanding]
    dsimp only
    rw [List.map_append, List.map_singleton, pending_request, ← Multiset.coe_add,
      ← Multiset.singleton_add, Multiset.coe_singleton]
    abel
  · rw [List.forall_mem_append, List.forall_mem_singleton]
    exact ⟨h.sqes, partial_pending r⟩

/-- A call from outside or from a callback is prepared or queued. -/
theorem Inv.submit (h : Inv file submitted s) (houtside : s.pc.outside = true) (r : Request) :
    Inv file (r ::ₘ submitted) (s.submit r) := by
  have hatPc := h.atPc
  unfold AtPc at hatPc
  unfold IOUringEngine.submit
  by_cases hlt : s.pendingReads < queueDepth
  · rw [if_pos hlt]
    refine ⟨h.toBalanced.submitInternal hlt r, ?_⟩
    rw [submitInternal_of_lt h.toBalanced hlt]
    unfold AtPc
    cases hpc : s.pc with
    | idle =>
        rw [hpc] at hatPc
        exact fun hqueued => absurd (hatPc hqueued) (Nat.ne_of_lt hlt)
    | callback oldPendingReads =>
        rw [hpc] at hatPc
        exact ⟨hatPc.1.trans (Nat.le_succ _), fun _ => Or.inr (Nat.lt_succ_of_le hatPc.1)⟩
    | _ =>
        rw [hpc] at houtside
        cases houtside
  · rw [if_neg hlt]
    have hfull : s.pendingReads = queueDepth := Nat.le_antisymm h.depth (Nat.not_lt.mp hlt)
    have hqueue {queuedReads queuedStats : List Request}
        (hperm : (queuedReads ++ queuedStats).Perm (r :: (s.queuedReads ++ s.queuedStats))) :
        Inv file (r ::ₘ submitted)
          { s with queuedReads := queuedReads, queuedStats := queuedStats } := by
      refine ⟨⟨h.status, h.count, h.depth, ?_, h.sqes, h.inflight, h.cqes, h.called⟩, ?_⟩
      · have hqueued := Multiset.coe_eq_coe.mpr hperm
        rw [← Multiset.cons_coe, ← Multiset.coe_add, ← Multiset.coe_add] at hqueued
        rw [← h.balance, outstanding, outstanding]
        dsimp only
        rw [hqueued, ← Multiset.singleton_add, ← Multiset.singleton_add]
        abel
      · unfold AtPc
        cases hpc : s.pc with
        | idle => exact fun _ => hfull
        | callback oldPendingReads =>
            rw [hpc] at hatPc
            exact hatPc
        | _ =>
            rw [hpc] at houtside
            cases houtside
    cases r with
    | read fd len offset cb =>
        refine hqueue ?_
        rw [List.append_assoc]
        exact List.perm_middle
    | stat pathname cb =>
        refine hqueue ?_
        rw [← List.append_assoc]
        exact List.perm_append_singleton _ _

theorem eraseIdx_perm {i : ℕ} {p : PendingRead} (hp : s.inflight[i]? = some p) :
    s.inflight.Perm (p :: s.inflight.eraseIdx i) := by
  obtain ⟨hi, rfl⟩ := List.getElem?_eq_some_iff.mp hp
  exact (List.getElem_cons_eraseIdx_perm hi).symm

/-- An entry moves from the kernel to the completion queue. -/
theorem Inv.completed (h : Inv file submitted s) {i : ℕ} {p p' : PendingRead} {res : ℤ}
    (hp : s.inflight[i]? = some p) (hrequest : p'.request = p.request)
    (hcompleted : Completed file p' res) :
    Inv file submitted
      { s with inflight := s.inflight.eraseIdx i, cqes := s.cqes ++ [(p', res)] } := by
  have hperm := eraseIdx_perm hp
  have hlength := hperm.length_eq
  refine ⟨⟨h.status, ?_, h.depth, ?_, h.sqes, fun q hq => ?_, ?_, h.called⟩, ?_⟩
  · have hcount := h.count
    rw [List.length_cons] at hlength
    rw [List.length_append, List.length_singleton]
    dsimp only
    omega
  · have hinflight := Multiset.coe_eq_coe.mpr (hperm.map (·.request))
    rw [List.map_cons, ← Multiset.cons_coe] at hinflight
    rw [← h.balance, outstanding, outstanding, hinflight]
    dsimp only
    rw [List.map_append, List.map_singleton, ← Multiset.coe_add, ← Multiset.singleton_add,
      hrequest, Multiset.coe_singleton]
    abel
  · exact h.inflight q (List.mem_of_mem_eraseIdx hq)
  · rw [List.forall_mem_append, List.forall_mem_singleton]
    exact ⟨h.cqes, hcompleted⟩
  · have hatPc := h.atPc
    unfold AtPc at hatPc ⊢
    dsimp only
    split at hatPc
    all_goals first
      | exact hatPc
      | exact ⟨hatPc.1, List.append_ne_nil_of_left_ne_nil hatPc.2 _⟩

theorem Inv.complete (h : Inv file submitted s) {i : ℕ} {res : ℤ}
    (hs : complete file s i res = some s') : Inv file submitted s' := by
  rw [IOUringEngine.complete] at hs
  cases hp : s.inflight[i]? with
  | none =>
      rw [hp] at hs
      cases hs
  | some p =>
      have hpartial := h.inflight p (List.mem_of_getElem? hp)
      rw [hp] at hs
      dsimp only at hs
      unfold Partial at hpartial
      split at hs
      · rename_i pathname cb hrequest
        obtain rfl := Option.some.inj hs
        refine h.completed hp rfl ?_
        unfold Completed
        rw [hrequest]
        trivial
      · rename_i fd len offset cb hrequest
        split at hs
        · rename_i hres
          obtain rfl := Option.some.inj hs
          rw [hrequest] at hpartial
          obtain ⟨done, hbuf, hlen, hoffset⟩ := hpartial
          refine h.completed hp rfl ?_
          unfold Completed
          rw [hrequest]
          have hn : res.toNat - 1 + 1 = res.toNat := by omega
          have hle : res.toNat ≤ p.iovLen := by omega
          refine ⟨done, res.toNat - 1, by omega, hn ▸ hle, ?_, hlen, hoffset⟩
          dsimp only
          rw [hbuf, hoffset, ← slice_add, hn]
        · cases hs

/-- A completed entry is answered, or prepared again for the rest of its bytes. -/
theorem Balanced.handleCqe (h : Balanced file submitted s) (hflagged : Flagged s)
    (hcqes : s.cqes ≠ []) : Inv file submitted s.handleCqe := by
  obtain ⟨⟨p, res⟩, cqes, hs⟩ := List.exists_cons_of_ne_nil hcqes
  have hcount := h.count
  have hdepth := h.depth
  have hcqes' := h.cqes
  rw [hs, List.length_cons] at hcount
  rw [hs, List.forall_mem_cons] at hcqes'
  obtain ⟨hcompleted, hcqes'⟩ := hcqes'
  unfold Completed at hcompleted
  have hbegin {answer : Answer} (hanswer : Answered file p.request answer) :
      Inv file submitted (beginCallback { s with cqes := cqes } p.request answer) := by
    refine ⟨⟨h.status, ?_, ?_, ?_, h.sqes, h.inflight, hcqes', ?_⟩, ?_, ?_⟩
    · change s.pendingReads - 1 = s.sqes.length + s.inflight.length + cqes.length
      omega
    · exact (Nat.sub_le _ _).trans hdepth
    · rw [← h.balance, outstanding, outstanding, hs]
      simp only [beginCallback, List.map_append, List.map_cons, List.map_nil,
        ← Multiset.coe_add, ← Multiset.cons_coe, Multiset.coe_nil, ← Multiset.singleton_add]
      abel
    · change ∀ c ∈ s.called ++ [(p.request, answer)], Answered file c.1 c.2
      rw [List.forall_mem_append, List.forall_mem_singleton]
      exact ⟨h.called, hanswer⟩
    · exact Nat.le_refl _
    · exact fun hne => Or.inl (hflagged hne)
  rw [IOUringEngine.handleCqe, hs]
  dsimp only
  split
  · rename_i pathname cb hrequest
    refine hbegin ?_
    unfold Answered
    rw [hrequest]
    exact ⟨_, rfl⟩
  · rename_i fd len offset cb hrequest
    rw [hrequest] at hcompleted
    obtain ⟨done, n, rfl, hn, hbuf, hlen, hoffset⟩ := hcompleted
    dsimp only at hn hbuf hlen hoffset
    rw [if_neg (by omega)]
    split
    · rename_i hshort
      have hlt : s.sqes.length < queueDepth := by omega
      rw [prepare_of_lt (by exact hlt)]
      refine ⟨⟨h.status, ?_, hdepth, ?_, ?_, h.inflight, hcqes', h.called⟩, fun _ => rfl⟩
      · rw [List.length_append, List.length_singleton]
        dsimp only
        omega
      · rw [← h.balance, outstanding, outstanding, hs]
        simp only [List.map_append, List.map_cons, List.map_nil, ← Multiset.coe_add,
          ← Multiset.cons_coe, Multiset.coe_nil, ← Multiset.singleton_add]
        abel
      · dsimp only
        rw [List.forall_mem_append, List.forall_mem_singleton]
        refine ⟨h.sqes, ?_⟩
        unfold Partial
        dsimp only
        rw [hrequest]
        exact ⟨done + (n + 1), hbuf, by omega, by rw [hoffset]; omega⟩
    · rename_i hfull
      refine hbegin ?_
      unfold Answered
      rw [hrequest]
      have hdone : done + (n + 1) = len := by omega
      dsimp only
      rw [hbuf, hdone, List.take_of_length_le (length_slice fd offset len).le]

/-- A queued request is prepared. -/
theorem Balanced.dequeue {queuedReads queuedStats : List Request} (h : Balanced file submitted s)
    (hlt : s.pendingReads < queueDepth)
    (hperm : (s.queuedReads ++ s.queuedStats).Perm (r :: (queuedReads ++ queuedStats))) :
    Balanced file submitted (IOUringEngine.submitInternal
      { s with queuedReads := queuedReads, queuedStats := queuedStats } r) ∧
      IOUringEngine.submitInternal
        { s with queuedReads := queuedReads, queuedStats := queuedStats } r =
        { s with
          queuedReads := queuedReads
          queuedStats := queuedStats
          sqes := s.sqes ++ [r.pending]
          pendingReads := s.pendingReads + 1 } := by
  let t : IOUringEngine := { s with queuedReads := queuedReads, queuedStats := queuedStats }
  have ht : Balanced file (↑(s.called.map (·.1)) + outstanding t) t :=
    ⟨h.status, h.count, h.depth, rfl, h.sqes, h.inflight, h.cqes, h.called⟩
  have hsubmitted : r ::ₘ (↑(s.called.map (·.1)) + outstanding t) = submitted := by
    have hqueued := Multiset.coe_eq_coe.mpr hperm
    rw [← Multiset.cons_coe, ← Multiset.coe_add, ← Multiset.coe_add] at hqueued
    rw [← h.balance, outstanding, outstanding, hqueued, ← Multiset.singleton_add,
      ← Multiset.singleton_add]
    abel
  exact ⟨hsubmitted ▸ ht.submitInternal hlt r, submitInternal_of_lt ht hlt r⟩

theorem Inv.advance (h : Inv file submitted s) (hs : s.advance = some s') :
    Inv file submitted s' := by
  have hatPc := h.atPc
  unfold AtPc at hatPc
  rw [IOUringEngine.advance] at hs
  cases hpc : s.pc with
  | idle =>
      rw [hpc] at hs
      cases hs
  | loop =>
      rw [hpc] at hs hatPc
      dsimp only at hs hatPc
      obtain ⟨hfull, hflagged⟩ := hatPc
      split at hs
      · obtain rfl := Option.some.inj hs
        exact ⟨h.toBalanced.goto _ _, hfull⟩
      · rename_i hpending
        split at hs
        · rename_i hcqes
          obtain rfl := Option.some.inj hs
          exact ⟨h.toBalanced.goto _ _, hflagged, hcqes⟩
        · split at hs
          · obtain rfl := Option.some.inj hs
            refine ⟨⟨h.status, ?_, h.depth, ?_, List.forall_mem_nil _, ?_, h.cqes, h.called⟩, rfl,
              Nat.pos_of_ne_zero hpending⟩
            · have hcount := h.count
              rw [List.length_nil, List.length_append]
              dsimp only
              omega
            · rw [← h.balance, outstanding, outstanding]
              dsimp only
              rw [List.map_append, ← Multiset.coe_add, List.map_nil, Multiset.coe_nil]
              abel
            · rw [List.forall_mem_append]
              exact ⟨h.inflight, h.sqes⟩
          · rename_i hsubmit
            obtain rfl := Option.some.inj hs
            refine ⟨h.toBalanced.goto _ _, ?_, Nat.pos_of_ne_zero hpending⟩
            by_contra hne
            exact hsubmit (hflagged hne)
  | waiting =>
      rw [hpc] at hs hatPc
      dsimp only at hs hatPc
      split at hs
      · rename_i hcqes
        obtain rfl := Option.some.inj hs
        exact ⟨h.toBalanced.goto _ _, fun hne => absurd hatPc.1 hne, hcqes⟩
      · cases hs
  | firstCqe =>
      rw [hpc] at hs hatPc
      obtain rfl := Option.some.inj hs
      exact h.toBalanced.handleCqe hatPc.1 hatPc.2
  | nextCqe =>
      rw [hpc] at hs hatPc
      obtain rfl := Option.some.inj hs
      by_cases hcqes : s.cqes = []
      · rw [handleCqe, hcqes]
        have hgoto := h.toBalanced.goto .queuedStats s.anythingToSubmit
        rw [hcqes] at hgoto
        exact ⟨hgoto, hatPc⟩
      · exact h.toBalanced.handleCqe hatPc hcqes
  | callback oldPendingReads =>
      rw [hpc] at hs hatPc
      obtain rfl := Option.some.inj hs
      refine ⟨h.toBalanced.goto _ _, fun hne => ?_⟩
      rcases hatPc.2 hne with hsubmit | hlt
      · exact Bool.or_eq_true_iff.mpr (Or.inl hsubmit)
      · exact Bool.or_eq_true_iff.mpr (Or.inr (decide_eq_true (Nat.ne_of_gt hlt)))
  | queuedStats =>
      rw [hpc] at hs hatPc
      dsimp only at hs hatPc
      cases hq : s.queuedStats with
      | nil =>
          rw [hq] at hs
          obtain rfl := Option.some.inj hs
          have hgoto := h.toBalanced.goto .queuedReads s.anythingToSubmit
          rw [hq] at hgoto
          exact ⟨hgoto, hatPc, fun hne => absurd rfl hne⟩
      | cons r queuedStats =>
          rw [hq] at hs
          dsimp only at hs
          split at hs
          · rename_i hlt
            obtain rfl := Option.some.inj hs
            have hperm : (s.queuedReads ++ s.queuedStats).Perm
                (r :: (s.queuedReads ++ queuedStats)) := by
              rw [hq]
              exact List.perm_middle
            obtain ⟨hbalanced, heq⟩ := h.toBalanced.dequeue hlt hperm
            rw [hpc] at hbalanced heq
            refine ⟨hbalanced.goto _ _, ?_⟩
            rw [heq]
            exact fun _ => rfl
          · rename_i hlt
            obtain rfl := Option.some.inj hs
            have hgoto := h.toBalanced.goto .queuedReads s.anythingToSubmit
            rw [hq] at hgoto
            exact ⟨hgoto, hatPc, fun _ => Nat.le_antisymm h.depth (Nat.not_lt.mp hlt)⟩
  | queuedReads =>
      rw [hpc] at hs hatPc
      dsimp only at hs hatPc
      obtain ⟨hflagged, hstats⟩ := hatPc
      cases hq : s.queuedReads with
      | nil =>
          rw [hq] at hs
          obtain rfl := Option.some.inj hs
          have hgoto := h.toBalanced.goto .loop s.anythingToSubmit
          rw [hq] at hgoto
          refine ⟨hgoto, fun hne => ?_, hflagged⟩
          exact hstats (hne.resolve_left fun hne => hne rfl)
      | cons r queuedReads =>
          rw [hq] at hs
          dsimp only at hs
          split at hs
          · rename_i hlt
            obtain rfl := Option.some.inj hs
            have hperm : (s.queuedReads ++ s.queuedStats).Perm
                (r :: (queuedReads ++ s.queuedStats)) := by
              rw [hq]
              rfl
            obtain ⟨hbalanced, heq⟩ := h.toBalanced.dequeue hlt hperm
            rw [hpc] at hbalanced heq
            refine ⟨hbalanced.goto _ _, ?_⟩
            rw [heq]
            exact ⟨fun _ => rfl, fun hne => absurd (hstats hne) (Nat.ne_of_lt hlt)⟩
          · rename_i hlt
            obtain rfl := Option.some.inj hs
            have hgoto := h.toBalanced.goto .loop s.anythingToSubmit
            rw [hq] at hgoto
            exact ⟨hgoto, fun _ => Nat.le_antisymm h.depth (Nat.not_lt.mp hlt), hflagged⟩

def Event.requests : Event → List Request
  | .submit r => [r]
  | .finish => []
  | .advance => []
  | .complete _ _ => []

theorem Inv.step {event : Event} (h : Inv file submitted s)
    (hs : step file s event = some s') : Inv file (↑event.requests + submitted) s' := by
  unfold IOUringEngine.step at hs
  rw [if_neg (not_not.mpr h.status)] at hs
  cases event with
  | submit r =>
      dsimp only at hs
      split at hs
      · rename_i houtside
        obtain rfl := Option.some.inj hs
        exact h.submit houtside r
      · cases hs
  | finish =>
      dsimp only at hs
      split at hs
      · rename_i hpc
        obtain rfl := Option.some.inj hs
        have hatPc := h.atPc
        unfold AtPc at hatPc
        rw [hpc] at hatPc
        rw [Event.requests, Multiset.coe_nil, Multiset.zero_add]
        exact ⟨h.toBalanced.goto _ _, hatPc, fun _ => rfl⟩
      · cases hs
  | advance =>
      rw [Event.requests, Multiset.coe_nil, Multiset.zero_add]
      exact h.advance hs
  | complete i res =>
      rw [Event.requests, Multiset.coe_nil, Multiset.zero_add]
      exact h.complete hs

theorem Inv.run {events : List Event} (h : Inv file submitted s)
    (hs : Run.run (IOUringEngine.step file) s events = some s') :
    Inv file (↑(events.flatMap Event.requests) + submitted) s' := by
  induction events generalizing s submitted with
  | nil =>
      obtain rfl := Option.some.inj hs
      rw [List.flatMap_nil, Multiset.coe_nil, Multiset.zero_add]
      exact h
  | cons event events ih =>
      rw [Run.run, Option.bind_eq_some_iff] at hs
      obtain ⟨s₁, hs₁, hs⟩ := hs
      have hinv := ih (h.step hs₁) hs
      rw [List.flatMap_cons, ← Multiset.coe_add, add_right_comm, add_comm]
      exact hinv

end Invariant

section Progress

def entryWork (p : PendingRead) (place : ℕ) : ℕ := 12 * (4 * p.iovLen + place)

def Pc.rank : Pc → ℕ
  | .idle => 0
  | .loop => 6
  | .waiting => 5
  | .firstCqe => 4
  | .nextCqe => 9
  | .callback _ => 10
  | .queuedStats => 8
  | .queuedReads => 7

def queueWork (rs : List Request) : ℕ := (rs.map fun r => entryWork r.pending 4).sum

def work (s : IOUringEngine) : ℕ :=
  queueWork s.queuedReads + queueWork s.queuedStats +
    (s.sqes.map fun p => entryWork p 3).sum + (s.inflight.map fun p => entryWork p 2).sum +
    (s.cqes.map fun c => entryWork c.1 1).sum + s.pc.rank

def Event.turn : Event → ℕ
  | .submit _ => 0
  | .finish => 0
  | .advance => 1
  | .complete _ _ => 1

/-- The steps that a call makes necessary, at most. -/
def Event.credit : Event → ℕ
  | .submit r => entryWork r.pending 4
  | .finish => 6
  | .advance => 0
  | .complete _ _ => 0

theorem queueWork_append_singleton (rs : List Request) (r : Request) :
    queueWork (rs ++ [r]) = queueWork rs + entryWork r.pending 4 := by
  rw [queueWork, List.map_append, List.sum_append, List.map_singleton, List.sum_singleton,
    queueWork]

theorem work_submit (h : Balanced file submitted s) (r : Request) :
    work (s.submit r) ≤ work s + entryWork r.pending 4 := by
  unfold IOUringEngine.submit
  split
  · rename_i hlt
    rw [submitInternal_of_lt h hlt, work, work]
    dsimp only
    rw [List.map_append, List.sum_append, List.map_singleton, List.sum_singleton]
    unfold entryWork
    omega
  · cases r with
    | read fd len offset cb =>
        simp only [work, queueWork_append_singleton]
        omega
    | stat pathname cb =>
        simp only [work, queueWork_append_singleton]
        omega

theorem work_beginCallback (r : Request) (answer : Answer) :
    work (s.beginCallback r answer) + s.pc.rank = work s + 10 := by
  unfold work beginCallback
  dsimp only [Pc.rank]
  omega

theorem work_handleCqe (h : Balanced file submitted s) (hcqes : s.cqes ≠ []) :
    work s.handleCqe + 1 ≤ work s := by
  obtain ⟨⟨p, res⟩, cqes, hs⟩ := List.exists_cons_of_ne_nil hcqes
  have hcompleted := h.cqes _ (hs ▸ List.mem_cons_self)
  have hcount := h.count
  have hdepth := h.depth
  rw [hs, List.length_cons] at hcount
  have hwork : work { s with cqes := cqes } + entryWork p 1 = work s := by
    rw [work, work, hs, List.map_cons, List.sum_cons]
    dsimp only
    omega
  have hbegin (answer : Answer) :
      work (beginCallback { s with cqes := cqes } p.request answer) + 1 ≤ work s := by
    have hbegin := work_beginCallback (s := { s with cqes := cqes }) p.request answer
    unfold entryWork at hwork
    omega
  unfold Completed at hcompleted
  rw [handleCqe, hs]
  dsimp only
  split
  · exact hbegin _
  · rename_i fd len offset cb hrequest
    rw [hrequest] at hcompleted
    obtain ⟨done, n, rfl, hn, -, -, -⟩ := hcompleted
    dsimp only at hn
    rw [if_neg (by omega)]
    split
    · have hlt : s.sqes.length < queueDepth := by omega
      rw [prepare_of_lt (by exact hlt)]
      rw [← hwork, work, work]
      dsimp only
      rw [List.map_append, List.sum_append, List.map_singleton, List.sum_singleton]
      simp only [entryWork, Pc.rank]
      omega
    · exact hbegin _

theorem queueWork_perm {queuedReads queuedStats : List Request}
    (hperm : (s.queuedReads ++ s.queuedStats).Perm (r :: (queuedReads ++ queuedStats))) :
    queueWork s.queuedReads + queueWork s.queuedStats =
      entryWork r.pending 4 + (queueWork queuedReads + queueWork queuedStats) := by
  have hsum := (hperm.map fun r => entryWork r.pending 4).sum_eq
  rwa [List.map_append, List.sum_append, List.map_cons, List.sum_cons, List.map_append,
    List.sum_append] at hsum

theorem work_dequeue {queuedReads queuedStats : List Request} (h : Balanced file submitted s)
    (hlt : s.pendingReads < queueDepth)
    (hperm : (s.queuedReads ++ s.queuedStats).Perm (r :: (queuedReads ++ queuedStats))) :
    work { IOUringEngine.submitInternal
      { s with queuedReads := queuedReads, queuedStats := queuedStats } r with
        anythingToSubmit := true } + 1 ≤ work s := by
  have hqueue := queueWork_perm hperm
  rw [(h.dequeue hlt hperm).2, work, work]
  dsimp only
  rw [List.map_append, List.sum_append, List.map_singleton, List.sum_singleton]
  unfold entryWork at hqueue ⊢
  omega

/-- A turn of the engine is made from what is left to do. -/
theorem work_advance (h : Inv file submitted s) (hs : s.advance = some s') :
    work s' + 1 ≤ work s := by
  have hatPc := h.atPc
  unfold AtPc at hatPc
  rw [advance] at hs
  cases hpc : s.pc with
  | idle =>
      rw [hpc] at hs
      cases hs
  | loop =>
      simp only [hpc] at hs
      split at hs
      · obtain rfl := Option.some.inj hs
        unfold work
        rw [hpc]
        dsimp only [Pc.rank]
        omega
      · split at hs
        · obtain rfl := Option.some.inj hs
          unfold work
          rw [hpc]
          dsimp only [Pc.rank]
          omega
        · split at hs
          · obtain rfl := Option.some.inj hs
            have hsqes : (s.sqes.map fun p => entryWork p 2).sum ≤
                (s.sqes.map fun p => entryWork p 3).sum := by
              refine List.sum_le_sum fun p _ => ?_
              unfold entryWork
              omega
            unfold work
            rw [hpc]
            dsimp only [Pc.rank]
            rw [List.map_append, List.sum_append, List.map_nil, List.sum_nil]
            omega
          · obtain rfl := Option.some.inj hs
            unfold work
            rw [hpc]
            dsimp only [Pc.rank]
            omega
  | waiting =>
      simp only [hpc] at hs
      split at hs
      · obtain rfl := Option.some.inj hs
        unfold work
        rw [hpc]
        dsimp only [Pc.rank]
        omega
      · cases hs
  | firstCqe =>
      rw [hpc] at hs hatPc
      obtain rfl := Option.some.inj hs
      exact work_handleCqe h.toBalanced hatPc.2
  | nextCqe =>
      rw [hpc] at hs
      obtain rfl := Option.some.inj hs
      by_cases hcqes : s.cqes = []
      · unfold work handleCqe
        rw [hcqes, hpc]
        dsimp only [Pc.rank]
        omega
      · exact work_handleCqe h.toBalanced hcqes
  | callback oldPendingReads =>
      rw [hpc] at hs
      obtain rfl := Option.some.inj hs
      unfold work
      rw [hpc]
      dsimp only [Pc.rank]
      omega
  | queuedStats =>
      simp only [hpc] at hs
      cases hq : s.queuedStats with
      | nil =>
          rw [hq] at hs
          obtain rfl := Option.some.inj hs
          unfold work
          rw [hpc, hq]
          dsimp only [Pc.rank]
          omega
      | cons r queuedStats =>
          rw [hq] at hs
          dsimp only at hs
          split at hs
          · rename_i hlt
            obtain rfl := Option.some.inj hs
            have hperm : (s.queuedReads ++ s.queuedStats).Perm
                (r :: (s.queuedReads ++ queuedStats)) := by
              rw [hq]
              exact List.perm_middle
            have hwork := work_dequeue h.toBalanced hlt hperm
            rwa [hpc] at hwork
          · obtain rfl := Option.some.inj hs
            unfold work
            rw [hpc, hq]
            dsimp only [Pc.rank]
            omega
  | queuedReads =>
      simp only [hpc] at hs
      cases hq : s.queuedReads with
      | nil =>
          rw [hq] at hs
          obtain rfl := Option.some.inj hs
          unfold work
          rw [hpc, hq]
          dsimp only [Pc.rank]
          omega
      | cons r queuedReads =>
          rw [hq] at hs
          dsimp only at hs
          split at hs
          · rename_i hlt
            obtain rfl := Option.some.inj hs
            have hperm : (s.queuedReads ++ s.queuedStats).Perm
                (r :: (queuedReads ++ s.queuedStats)) := by
              rw [hq]
              exact List.Perm.refl _
            have hwork := work_dequeue h.toBalanced hlt hperm
            rwa [hpc] at hwork
          · obtain rfl := Option.some.inj hs
            unfold work
            rw [hpc, hq]
            dsimp only [Pc.rank]
            omega

theorem work_completed {i : ℕ} {p p' : PendingRead} {res : ℤ} (hp : s.inflight[i]? = some p)
    (hiovLen : p'.iovLen = p.iovLen) :
    work { s with inflight := s.inflight.eraseIdx i, cqes := s.cqes ++ [(p', res)] } + 1 ≤
      work s := by
  have hsum := ((eraseIdx_perm hp).map fun p => entryWork p 2).sum_eq
  rw [List.map_cons, List.sum_cons] at hsum
  rw [work, work, hsum]
  dsimp only
  rw [List.map_append, List.sum_append, List.map_singleton, List.sum_singleton]
  unfold entryWork
  rw [hiovLen]
  omega

theorem work_complete {i : ℕ} {res : ℤ} (hs : complete file s i res = some s') :
    work s' + 1 ≤ work s := by
  rw [complete] at hs
  cases hp : s.inflight[i]? with
  | none =>
      rw [hp] at hs
      cases hs
  | some p =>
      rw [hp] at hs
      dsimp only at hs
      split at hs
      · obtain rfl := Option.some.inj hs
        exact work_completed hp rfl
      · split at hs
        · obtain rfl := Option.some.inj hs
          exact work_completed hp rfl
        · cases hs

theorem work_step {event : Event} (h : Inv file submitted s)
    (hs : step file s event = some s') : event.turn + work s' ≤ work s + event.credit := by
  unfold step at hs
  rw [if_neg (not_not.mpr h.status)] at hs
  cases event with
  | submit r =>
      dsimp only at hs
      split at hs
      · obtain rfl := Option.some.inj hs
        have hle := work_submit h.toBalanced r
        rw [Event.turn, Event.credit]
        omega
      · cases hs
  | finish =>
      dsimp only at hs
      split at hs
      · rename_i hpc
        obtain rfl := Option.some.inj hs
        unfold work
        rw [hpc]
        dsimp only [Pc.rank, Event.turn, Event.credit]
        omega
      · cases hs
  | advance =>
      have hle := work_advance h hs
      rw [Event.turn, Event.credit]
      omega
  | complete i res =>
      have hle := work_complete hs
      rw [Event.turn, Event.credit]
      omega

end Progress

section Runs

theorem handleCqe_pc (hidle : s.handleCqe.pc = .idle) : s.pc = .idle := by
  rw [handleCqe] at hidle
  split at hidle
  · cases hidle
  · dsimp only at hidle
    split at hidle
    · cases hidle
    · split at hidle
      · exact hidle
      · split at hidle
        · cases hidle
        · cases hidle

theorem submitInternal_pc (r : Request) : (s.submitInternal r).pc = s.pc := by
  rw [submitInternal, prepare]
  split <;> rfl

/-- `finish()` only returns at the test of its loop. -/
theorem advance_idle (hs : s.advance = some s') (hidle : s'.pc = .idle) :
    s.pc = .loop ∧ s.pendingReads = 0 ∧ s' = { s with pc := .idle } := by
  rw [advance] at hs
  cases hpc : s.pc with
  | idle =>
      rw [hpc] at hs
      cases hs
  | loop =>
      simp only [hpc] at hs
      split at hs
      · rename_i hpending
        exact ⟨rfl, hpending, (Option.some.inj hs).symm⟩
      · split at hs
        · obtain rfl := Option.some.inj hs
          cases hidle
        · split at hs <;> obtain rfl := Option.some.inj hs <;> cases hidle
  | waiting =>
      simp only [hpc] at hs
      split at hs
      · obtain rfl := Option.some.inj hs
        cases hidle
      · cases hs
  | firstCqe =>
      rw [hpc] at hs
      obtain rfl := Option.some.inj hs
      cases hpc.symm.trans (handleCqe_pc hidle)
  | nextCqe =>
      rw [hpc] at hs
      obtain rfl := Option.some.inj hs
      cases hpc.symm.trans (handleCqe_pc hidle)
  | callback oldPendingReads =>
      rw [hpc] at hs
      obtain rfl := Option.some.inj hs
      cases hidle
  | queuedStats =>
      simp only [hpc] at hs
      split at hs
      · obtain rfl := Option.some.inj hs
        cases hidle
      · split at hs
        · obtain rfl := Option.some.inj hs
          dsimp only at hidle
          rw [submitInternal_pc] at hidle
          cases hidle
        · obtain rfl := Option.some.inj hs
          cases hidle
  | queuedReads =>
      simp only [hpc] at hs
      split at hs
      · obtain rfl := Option.some.inj hs
        cases hidle
      · split at hs
        · obtain rfl := Option.some.inj hs
          dsimp only at hidle
          rw [submitInternal_pc] at hidle
          cases hidle
        · obtain rfl := Option.some.inj hs
          cases hidle

def Quiet (s : IOUringEngine) : Prop :=
  s.pendingReads = 0 ∧ s.queuedReads = [] ∧ s.queuedStats = [] ∧ s.sqes = [] ∧ s.inflight = [] ∧
    s.cqes = []

theorem Inv.quiet (h : Inv file submitted s) (hpc : s.pc = .loop) (hpending : s.pendingReads = 0) :
    Quiet s := by
  have hatPc := h.atPc
  have hcount := h.count
  unfold AtPc at hatPc
  rw [hpc] at hatPc
  have hqueued : ¬(s.queuedReads ≠ [] ∨ s.queuedStats ≠ []) := by
    intro hqueued
    have hfull := hatPc.1 hqueued
    rw [hpending] at hfull
    cases hfull
  rw [not_or, not_not, not_not] at hqueued
  exact ⟨hpending, hqueued.1, hqueued.2, List.length_eq_zero_iff.mp (by omega),
    List.length_eq_zero_iff.mp (by omega), List.length_eq_zero_iff.mp (by omega)⟩

theorem Quiet.outstanding (h : Quiet s) : s.outstanding = 0 := by
  obtain ⟨-, hreads, hstats, hsqes, hinflight, hcqes⟩ := h
  rw [IOUringEngine.outstanding, hreads, hstats, hsqes, hinflight, hcqes]
  rfl

/-- When `finish()` blocks, everything prepared has been submitted and something can complete. -/
theorem Inv.waiting (h : Inv file submitted s) (hpc : s.pc = .waiting) :
    s.sqes = [] ∧ (s.cqes ≠ [] ∨ s.inflight ≠ []) := by
  have hatPc := h.atPc
  have hcount := h.count
  unfold AtPc at hatPc
  rw [hpc] at hatPc
  obtain ⟨hsqes, hpending⟩ := hatPc
  refine ⟨hsqes, ?_⟩
  by_contra hnone
  rw [not_or, not_not, not_not] at hnone
  rw [hsqes, hnone.1, hnone.2] at hcount
  exact absurd hcount (Nat.ne_of_gt hpending)

/-- A short read that is resubmitted, and a stat that its callback asks for. -/
def resubmission : List Event :=
  [.submit (.read 3 4 10 0), .finish, .advance, .complete 0 3, .advance, .advance, .advance,
    .advance, .advance, .advance, .complete 0 1, .advance, .advance, .submit (.stat [] 1)]

end Runs

end IOUringEngine

end Flocate
