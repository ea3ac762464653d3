import Flocate.Lib.Tiling
import Flocate.Output
import Mathlib.Algebra.Order.Group.Multiset
import Mathlib.Data.List.Sort

/-!
# Printing in order of sequence numbers

`Serializer` holds prints back until all earlier sequence numbers are done. If the prints that are
still to come tile the numbers up to the last one, whatever their order, it prints their messages
in order and holds nothing back in the end.
-/

namespace Flocate

open Bytes Tiling

/-- A print of `msg`, or of nothing, that is all there is for the `skip` numbers from `seq` on.
Worker threads and the serializer store the same. -/
structure Result where
  seq : ℕ
  skip : ℕ
  msg : Str
deriving DecidableEq

/-- The priority queue `pending` is in order of sequence numbers. -/
structure Serializer where
  nextSeq : ℕ := 0
  pending : List Result := []
deriving DecidableEq

namespace Serializer

variable (options : OutputOptions)

/-- "See if any delayed prints can now be dealt with." -/
def release (nextSeq : ℕ) : List Result → Process Serializer
  | [] => return ⟨nextSeq, []⟩
  | top :: pending =>
      if top.seq = nextSeq then do
        Process.print options top.msg
        release (nextSeq + top.skip) pending
      else return ⟨nextSeq, top :: pending⟩

def print (s : Serializer) (r : Result) : Process Serializer :=
  if options.onlyCount then do
    Process.print options r.msg
    return s
  else if s.nextSeq ≠ r.seq then
    return { s with pending := s.pending.orderedInsert (·.seq ≤ ·.seq) r }
  else do
    Process.print options r.msg
    release options (s.nextSeq + r.skip) s.pending

def messages (rs : List Result) : List Str := (rs.map (·.msg)).filter (· ≠ [])

theorem messages_append (rs ts : List Result) :
    messages (rs ++ ts) = messages rs ++ messages ts := by
  rw [messages, List.map_append, List.filter_append]
  rfl

/-- The console after `printed` has been printed, below the limit. -/
structure Printing (printed : List Str) (console : Console) : Prop where
  stdout : console.stdout = printed.map .filename
  limitLeft : console.limitLeft = options.limitMatches - printed.length
  below : printed.length < options.limitMatches

/-- The console after the limit has been reached. -/
structure LimitReached (expected : List Str) (console : Console) : Prop where
  stdout : console.stdout = (expected.take options.limitMatches).map .filename
  le : options.limitMatches ≤ expected.length

/-- What is held back and the prints that are still to come, together and in order, continue the
output to `expected` at the sequence number `b`. -/
def Streaming (b : ℕ) (expected : List Str) (others : Multiset Result) (s : Serializer)
    (console : Console) : Prop :=
  ∃ (chain : List Result) (printed : List Str), (chain : Multiset Result) = s.pending + others ∧
    Tiles Result.seq Result.skip s.nextSeq b chain ∧ printed ++ messages chain = expected ∧
    Printing options printed console

/-- Nothing is held back that could be printed. -/
structure Settled (s : Serializer) : Prop where
  sorted : s.pending.Pairwise (·.seq ≤ ·.seq)
  waiting : ∀ r ∈ s.pending, r.seq ≠ s.nextSeq

/-- The outcomes of a print. -/
def Keeps (b : ℕ) (expected : List Str) (others : Multiset Result) :
    Except ℕ Serializer × Console → Prop
  | (.ok s, console) => Streaming options b expected others s console ∧ s.Settled
  | (.error status, console) => status = 0 ∧ LimitReached options expected console

variable {options} {b : ℕ} {expected : List Str}

theorem print_message (honly : options.onlyCount = false) {printed : List Str} {r : Result}
    {chain : List Result} {console : Console} (hconsole : Printing options printed console)
    (hexpected : printed ++ messages (r :: chain) = expected) :
    (∃ printed' console', Process.print options r.msg console = (.ok (), console') ∧
        Printing options printed' console' ∧ printed' ++ messages chain = expected) ∨
      ∃ console', Process.print options r.msg console = (.error 0, console') ∧
        LimitReached options expected console' := by
  obtain ⟨hstdout, hleft, hbelow⟩ := hconsole
  by_cases hmsg : r.msg = []
  · refine Or.inl ⟨printed, console, ?_, ⟨hstdout, hleft, hbelow⟩, ?_⟩
    · rw [hmsg]
      rfl
    · rw [← hexpected, messages, messages, List.map_cons,
        List.filter_cons_of_neg (by simpa using hmsg)]
  · have hcons : messages (r :: chain) = r.msg :: messages chain := by
      rw [messages, List.map_cons, List.filter_cons_of_pos (by simpa using hmsg)]
      rfl
    rw [Process.print_apply hmsg, Process.applyLimit_apply, hleft]
    simp only [Process.printed, Process.printedCount, honly, Bool.false_eq_true, if_false, hstdout,
      List.append_nil]
    rw [hcons, List.append_cons] at hexpected
    by_cases hlast : printed.length + 1 < options.limitMatches
    · rw [if_pos (by omega)]
      refine Or.inl ⟨printed ++ [r.msg], _, rfl, ⟨?_, ?_, ?_⟩, hexpected⟩
      · rw [List.map_append, List.map_singleton]
      · rw [List.length_append, List.length_singleton]
        dsimp only
        omega
      · rwa [List.length_append, List.length_singleton]
    · rw [if_neg (by omega)]
      have hlen : (printed ++ [r.msg]).length = options.limitMatches := by
        rw [List.length_append, List.length_singleton]
        omega
      refine Or.inr ⟨_, rfl, ?_, ?_⟩
      · rw [← hexpected, List.take_left' hlen, List.map_append, List.map_singleton]
      · rw [← hexpected, List.length_append, hlen]
        exact Nat.le_add_right _ _

/-- The first of the prints to come is dealt with. -/
theorem print_next (honly : options.onlyCount = false) {others : Multiset Result}
    {console : Console} {r : Result} {nextSeq : ℕ} {pending : List Result}
    (h : ∃ (chain : List Result) (printed : List Str),
      (chain : Multiset Result) = r ::ₘ (pending + others) ∧
      Tiles Result.seq Result.skip nextSeq b chain ∧ printed ++ messages chain = expected ∧
      Printing options printed console)
    (hseq : r.seq = nextSeq) :
    (∃ console', Process.print options r.msg console = (.ok (), console') ∧
        Streaming options b expected others ⟨nextSeq + r.skip, pending⟩ console') ∨
      ∃ console', Process.print options r.msg console = (.error 0, console') ∧
        LimitReached options expected console' := by
  obtain ⟨chain, printed, hchain, htiles, hexpected, hconsole⟩ := h
  have hmem : r ∈ (chain : Multiset Result) := hchain ▸ Multiset.mem_cons_self r _
  obtain ⟨rest, rfl, hrest⟩ := htiles.eq_cons (Multiset.mem_coe.mp hmem) hseq
  rw [← Multiset.cons_coe] at hchain
  rcases print_message honly hconsole hexpected with
    ⟨printed', console', hprint, hconsole', hexpected'⟩ | hlimit
  · exact Or.inl ⟨console', hprint, rest, printed', (Multiset.cons_inj_right r).mp hchain, hrest,
      hexpected', hconsole'⟩
  · exact Or.inr hlimit

theorem release_keeps (honly : options.onlyCount = false) {others : Multiset Result}
    {pending : List Result} (hsorted : pending.Pairwise (·.seq ≤ ·.seq)) {nextSeq : ℕ}
    {console : Console} (h : Streaming options b expected others ⟨nextSeq, pending⟩ console) :
    Keeps options b expected others (release options nextSeq pending console) := by
  induction pending generalizing nextSeq console with
  | nil => exact ⟨h, List.Pairwise.nil, fun r hr => absurd hr List.not_mem_nil⟩
  | cons top pending ih =>
      rw [release]
      by_cases hseq : top.seq = nextSeq
      · rw [if_pos hseq, Process.bind_apply]
        obtain ⟨chain, printed, hchain, hrest⟩ := h
        rw [← Multiset.cons_coe, Multiset.cons_add] at hchain
        rcases print_next honly ⟨chain, printed, hchain, hrest⟩
            hseq with ⟨console', hprint, hnext⟩ | ⟨console', hprint, hlimit⟩
        · rw [hprint]
          exact ih hsorted.tail hnext
        · rw [hprint]
          exact ⟨rfl, hlimit⟩
      · rw [if_neg hseq]
        refine ⟨h, hsorted, fun r hr heq => hseq ?_⟩
        obtain ⟨chain, -, hchain, htiles, -⟩ := h
        have htop : top ∈ (chain : Multiset Result) := by
          rw [hchain]
          exact Multiset.mem_add.mpr (Or.inl (Multiset.mem_coe.mpr List.mem_cons_self))
        have hle : top.seq ≤ r.seq := by
          rcases List.mem_cons.mp hr with rfl | hr
          · exact Nat.le_refl _
          · exact List.rel_of_pairwise_cons hsorted hr
        exact Nat.le_antisymm (hle.trans heq.le) (htiles.mem (Multiset.mem_coe.mp htop)).1

/-- A print keeps the output in order, or reaches the limit. -/
theorem print_keeps (honly : options.onlyCount = false) {others : Multiset Result}
    {s : Serializer} (hs : s.Settled) {r : Result} {console : Console}
    (h : Streaming options b expected (r ::ₘ others) s console) :
    Keeps options b expected others (s.print options r console) := by
  obtain ⟨chain, printed, hchain, hrest⟩ := h
  rw [Multiset.add_cons] at hchain
  rw [print, if_neg (by simp [honly])]
  by_cases hseq : s.nextSeq = r.seq
  · rw [if_neg (not_not.mpr hseq), Process.bind_apply]
    rcases print_next honly ⟨chain, printed, hchain, hrest⟩ hseq.symm with
      ⟨console', hprint, hnext⟩ | ⟨console', hprint, hlimit⟩
    · rw [hprint]
      exact release_keeps honly hs.sorted hnext
    · rw [hprint]
      exact ⟨rfl, hlimit⟩
  · rw [if_pos hseq]
    have hperm := List.perm_orderedInsert (·.seq ≤ ·.seq) r s.pending
    refine ⟨⟨chain, printed, ?_, hrest⟩, ?_, fun t ht => ?_⟩
    · rw [hchain]
      change _ = ((s.pending.orderedInsert (·.seq ≤ ·.seq) r : List Result) : Multiset Result) + _
      rw [Multiset.coe_eq_coe.mpr hperm, ← Multiset.cons_coe, Multiset.cons_add]
    · have htotal : Std.Total fun a b : Result => a.seq ≤ b.seq := ⟨fun a b => Nat.le_total _ _⟩
      have htrans : IsTrans Result fun a b => a.seq ≤ b.seq := ⟨fun _ _ _ => Nat.le_trans⟩
      exact hs.sorted.orderedInsert r
    · rcases List.mem_cons.mp (hperm.mem_iff.mp ht) with rfl | ht
      · exact Ne.symm hseq
      · exact hs.waiting t ht

/-- A print of nothing right after another print can be made one with it. -/
theorem Streaming.coalesce {others : Multiset Result} {s : Serializer} {console : Console}
    {p q : Result} (h : Streaming options b expected (p ::ₘ q ::ₘ others) s console)
    (hmsg : q.msg = []) (hseq : p.seq + p.skip = q.seq) :
    Streaming options b expected ({ p with skip := p.skip + q.skip } ::ₘ others) s console := by
  obtain ⟨chain, printed, hchain, htiles, hexpected, hconsole⟩ := h
  have hmem (r : Result) (hr : r ∈ p ::ₘ q ::ₘ others) : r ∈ chain :=
    Multiset.mem_coe.mp (hchain ▸ Multiset.mem_add.mpr (Or.inr hr))
  obtain ⟨l, r, rfl⟩ := htiles.adjacent (hmem p (by simp)) (hmem q (by simp)) hseq
  have hsplit (rs : List Result) : ((l ++ rs : List Result) : Multiset Result) = ↑rs + ↑l := by
    rw [← Multiset.coe_add, add_comm]
  have hrest : (r : Multiset Result) + ↑l = s.pending + others := by
    rw [hsplit, ← Multiset.cons_coe, ← Multiset.cons_coe, Multiset.cons_add, Multiset.cons_add,
      Multiset.add_cons, Multiset.add_cons] at hchain
    exact (Multiset.cons_inj_right q).mp ((Multiset.cons_inj_right p).mp hchain)
  refine ⟨l ++ { p with skip := p.skip + q.skip } :: r, printed, ?_, htiles.merge rfl rfl, ?_,
    hconsole⟩
  · rw [hsplit, ← Multiset.cons_coe, Multiset.cons_add, Multiset.add_cons, hrest]
  · rw [← hexpected, messages_append, messages_append, messages, messages, messages]
    simp only [List.map_cons, hmsg, List.filter_cons, ne_eq, not_true_eq_false, decide_false,
      Bool.false_eq_true, if_false]

/-- When no print is to come, all is printed and nothing is held back. -/
theorem Streaming.eq_nil {s : Serializer} {console : Console} (hs : s.Settled)
    (h : Streaming options b expected 0 s console) :
    s.pending = [] ∧ Printing options expected console := by
  obtain ⟨chain, printed, hchain, htiles, hexpected, hconsole⟩ := h
  rw [Multiset.add_zero, Multiset.coe_eq_coe] at hchain
  obtain ⟨rfl, -⟩ := htiles.eq_nil fun r hr => hs.waiting r (hchain.mem_iff.mp hr)
  rw [← hexpected, messages, List.map_nil, List.filter_nil, List.append_nil]
  exact ⟨List.nil_perm.mp hchain, hconsole⟩

end Serializer

end Flocate
