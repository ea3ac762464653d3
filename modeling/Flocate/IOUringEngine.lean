import Flocate.Lib.Bytes
import Flocate.Lib.Run
import Mathlib.Algebra.Order.Group.Multiset
import Mathlib.Tactic.Abel

/-!
# The I/O engine

`IOUringEngine` on the io_uring path. The kernel completes submitted entries in any order at any
time and reads at least one byte; callbacks may submit anything. A turn of the engine is one round
of one of its loops, or the return of a callback.
-/

namespace Flocate

open Bytes

namespace IOUringEngine

inductive Request where
  | read (fd len offset cb : ℕ)
  | stat (pathname : Str) (cb : ℕ)
deriving DecidableEq

inductive Answer where
  | data (s : Str)
  | ok (ok : Bool)
deriving DecidableEq

/-- `buf` is what has been read so far, and `iovLen` bytes from `offset` on are left to read. -/
structure PendingRead where
  request : Request
  buf : Str := []
  iovLen : ℕ := 0
  offset : ℕ := 0
deriving DecidableEq

/-- Where the engine is: not in `finish()`; before the test of its loop; in one of the two calls
that block; at the first completion or after one; in a callback, with `old_pending_reads`; or in
one of the loops over the queues. -/
inductive Pc where
  | idle
  | loop
  | waiting
  | firstCqe
  | nextCqe
  | callback (oldPendingReads : ℕ)
  | queuedStats
  | queuedReads
deriving DecidableEq

def queueDepth : ℕ := 256

end IOUringEngine

open IOUringEngine

/-- `sqes` are the entries that are prepared and not submitted, `inflight` those that the kernel
works on and `cqes` those that have completed; `status` is set when the process exits. -/
structure IOUringEngine where
  pc : Pc := .idle
  pendingReads : ℕ := 0
  queuedReads : List Request := []
  queuedStats : List Request := []
  sqes : List PendingRead := []
  inflight : List PendingRead := []
  cqes : List (PendingRead × ℤ) := []
  anythingToSubmit : Bool := false
  called : List (Request × Answer) := []
  status : Option ℕ := none
deriving DecidableEq

namespace IOUringEngine

/-- `submit_read_internal` and `submit_stat_internal` up to the preparation. -/
def Request.pending (r : Request) : PendingRead :=
  match r with
  | .read _ len offset _ => { request := r, iovLen := len, offset := offset }
  | .stat _ _ => { request := r }

/-- `io_uring_get_sqe` and the preparation of the entry; there may be no free entry. -/
def prepare (s : IOUringEngine) (p : PendingRead) : IOUringEngine :=
  if s.sqes.length < queueDepth then { s with sqes := s.sqes ++ [p] }
  else { s with status := some 1 }

def submitInternal (s : IOUringEngine) (r : Request) : IOUringEngine :=
  let s := s.prepare r.pending
  { s with pendingReads := s.pendingReads + 1 }

def submit (s : IOUringEngine) (r : Request) : IOUringEngine :=
  if s.pendingReads < queueDepth then s.submitInternal r
  else
    match r with
    | .read _ _ _ _ => { s with queuedReads := s.queuedReads ++ [r] }
    | .stat _ _ => { s with queuedStats := s.queuedStats ++ [r] }

def beginCallback (s : IOUringEngine) (r : Request) (answer : Answer) : IOUringEngine :=
  { s with
    pendingReads := s.pendingReads - 1
    called := s.called ++ [(r, answer)]
    pc := .callback (s.pendingReads - 1) }

def handleCqe (s : IOUringEngine) : IOUringEngine :=
  match s.cqes with
  | [] => { s with pc := .queuedStats }
  | (p, res) :: cqes =>
      let s := { s with cqes := cqes }
      match p.request with
      | .stat _ _ => s.beginCallback p.request (.ok (res = 0))
      | .read _ len _ _ =>
          if res ≤ 0 then { s with status := some 1 }
          else if res < p.iovLen then
            let p := { p with
              iovLen := p.iovLen - res.toNat
              offset := p.offset + res.toNat }
            { s.prepare p with anythingToSubmit := true, pc := .nextCqe }
          else s.beginCallback p.request (.data (p.buf.take len))

/-- The engine goes on; it cannot while it waits for a completion. -/
def advance (s : IOUringEngine) : Option IOUringEngine :=
  match s.pc with
  | .idle => none
  | .loop =>
      if s.pendingReads = 0 then some { s with pc := .idle }
      else if s.cqes ≠ [] then some { s with pc := .firstCqe }
      else if s.anythingToSubmit then
        some { s with
          sqes := []
          inflight := s.inflight ++ s.sqes
          anythingToSubmit := false
          pc := .waiting }
      else some { s with pc := .waiting }
  | .waiting => if s.cqes ≠ [] then some { s with pc := .firstCqe } else none
  | .firstCqe => some s.handleCqe
  | .nextCqe => some s.handleCqe
  | .callback oldPendingReads =>
      some { s with
        anythingToSubmit := s.anythingToSubmit || s.pendingReads ≠ oldPendingReads
        pc := .nextCqe }
  | .queuedStats =>
      match s.queuedStats with
      | [] => some { s with pc := .queuedReads }
      | r :: queuedStats =>
          if s.pendingReads < queueDepth then
            some { submitInternal { s with queuedStats := queuedStats } r with
              anythingToSubmit := true }
          else some { s with pc := .queuedReads }
  | .queuedReads =>
      match s.queuedReads with
      | [] => some { s with pc := .loop }
      | r :: queuedReads =>
          if s.pendingReads < queueDepth then
            some { submitInternal { s with queuedReads := queuedReads } r with
              anythingToSubmit := true }
          else some { s with pc := .loop }

def slice (file : ℕ → ℕ → UInt8) (fd offset n : ℕ) : Str :=
  (List.range n).map fun i => file fd (offset + i)

def complete (file : ℕ → ℕ → UInt8) (s : IOUringEngine) (i : ℕ) (res : ℤ) :
    Option IOUringEngine :=
  match s.inflight[i]? with
  | none => none
  | some p =>
      match p.request with
      | .stat _ _ => some { s with
          inflight := s.inflight.eraseIdx i
          cqes := s.cqes ++ [(p, res)] }
      | .read fd _ _ _ =>
          if 0 < res ∧ res ≤ p.iovLen then
            some { s with
              inflight := s.inflight.eraseIdx i
              cqes := s.cqes ++
                [({ p with buf := p.buf ++ slice file fd p.offset res.toNat }, res)] }
          else none

/-- What can happen: a call from outside of the engine or from a callback, a turn of the engine, or
a completion by the kernel. -/
inductive Event where
  | submit (r : Request)
  | finish
  | advance
  | complete (i : ℕ) (res : ℤ)

def Pc.outside : Pc → Bool
  | .idle => true
  | .callback _ => true
  | _ => false

def step (file : ℕ → ℕ → UInt8) (s : IOUringEngine) (event : Event) : Option IOUringEngine :=
  if s.status ≠ none then none
  else
    match event with
    | .submit r => if s.pc.outside then some (s.submit r) else none
    | .finish =>
        if s.pc = .idle then some { s with pc := .loop, anythingToSubmit := true } else none
    | .advance => s.advance
    | .complete i res => complete file s i res

end IOUringEngine

end Flocate
