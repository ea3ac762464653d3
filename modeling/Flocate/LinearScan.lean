import Flocate.Lib.NulJoin
import Flocate.Lib.Run
import Flocate.Serializer

/-!
# The linear scan

`scan_all_docids` hands chunks of 32 filename blocks to worker threads. A worker stores the prints
of its blocks, which the main thread fetches from time to time and passes to the serializer. A
turn is a step of one thread between two of its locks.
-/

namespace Flocate

open Bytes

/-- Whether all needles match a filename, and whether it is accessible and exists as asked for. -/
structure Matcher where
  found : Str → Bool
  visible : Str → Bool

namespace LinearScan

section Block

variable (matcher : Matcher) (seq : ℕ)

def testCandidate (filename : Str) (localSeq nextSeq : ℕ) : Result where
  seq := localSeq
  skip := nextSeq - localSeq
  msg := if matcher.visible filename then filename else []

/-- The loop of `scan_file_block`, which "always buffer[s] one candidate". -/
def scanFilenames (pendingCandidate : Option Str) (localSeq : ℕ) : List Str → List Result
  | [] =>
      match pendingCandidate with
      | none => [⟨seq * 2 ^ 32, 2 ^ 32, []⟩]
      | some candidate => [testCandidate matcher candidate localSeq ((seq + 1) * 2 ^ 32)]
  | filename :: filenames =>
      if matcher.found filename then
        match pendingCandidate with
        | none => scanFilenames (some filename) localSeq filenames
        | some candidate => testCandidate matcher candidate localSeq (localSeq + 1) ::
            scanFilenames (some filename) (localSeq + 1) filenames
      else scanFilenames pendingCandidate localSeq filenames

/-- The prints of `scan_file_block` without an engine, so that all checks are synchronous. -/
def scanFileBlock (block : Str) : List Result :=
  scanFilenames matcher seq none (seq * 2 ^ 32) (splitNul (block ++ [0]))

def scanFileBlocks (blocks : List Str) : List (List Result) :=
  blocks.zipIdx.map fun block => scanFileBlock matcher block.2 block.1

def matchingFilenames (blocks : List Str) : List Str :=
  blocks.flatMap fun block =>
    (splitNul (block ++ [0])).filter fun s => matcher.found s && matcher.visible s

end Block

/-- `todo` are the rest of the prints of the worker's chunk. -/
structure Worker where
  todo : List Result := []
  results : List Result := []
  exited : Bool := false
deriving DecidableEq

def Worker.print (w : Worker) (r : Result) : Worker :=
  match w.results.getLast? with
  | none => { w with results := [r] }
  | some back =>
      if r.msg = [] ∧ back.seq + back.skip = r.seq then
        { w with results := w.results.dropLast ++ [{ back with skip := back.skip + r.skip }] }
      else { w with results := w.results ++ [r] }

/-- Where the main thread is: before it queues the chunk at `docid`, before it fetches results
after that, or before it joins thread `i`. -/
inductive MainThread where
  | reading (docid : ℕ)
  | picking (docid : ℕ)
  | joining (i : ℕ)
deriving DecidableEq

end LinearScan

open LinearScan

/-- `delivering` are the results that the main thread has fetched and not printed yet, and
`status` is set when the process has exited. -/
structure LinearScan where
  mainThread : MainThread := .reading 0
  delivering : List Result := []
  workQueue : List (ℕ × ℕ) := []
  done : Bool := false
  workers : List Worker
  serializer : Serializer := {}
  console : Console
  status : Option ℕ := none
deriving DecidableEq

namespace LinearScan

inductive Turn where
  | main
  | worker (i : ℕ)

def start (options : OutputOptions) (numThreads : ℕ) : LinearScan where
  workers := List.replicate numThreads {}
  console := ⟨[], options.limitMatches⟩

def fetchResults (s : LinearScan) (i : ℕ) : LinearScan :=
  match s.workers[i]? with
  | none => s
  | some w => { s with
      delivering := w.results
      workers := s.workers.set i { w with results := [] } }

variable (options : OutputOptions) (scanned : List (List Result))

def chunkPrints (chunk : ℕ × ℕ) : List Result :=
  ((scanned.drop chunk.1).take (chunk.2 - chunk.1)).flatten

def stepMain (s : LinearScan) : Option LinearScan :=
  match s.delivering with
  | r :: delivering =>
      match s.serializer.print options r s.console with
      | (.ok serializer, console) =>
          some { s with delivering := delivering, serializer := serializer, console := console }
      | (.error status, console) =>
          some { s with delivering := delivering, console := console, status := some status }
  | [] =>
      match s.mainThread with
      | .reading docid =>
          if docid < scanned.length then
            if s.workQueue.length < 256 then
              some { s with
                workQueue := s.workQueue ++ [(docid, min ((docid + 32) % 2 ^ 32) scanned.length)]
                mainThread := .picking docid }
            else none
          else some { s with done := true, mainThread := .joining 0 }
      | .picking docid =>
          some (fetchResults { s with mainThread := .reading ((docid + 32) % 2 ^ 32) }
            (docid / 32 % s.workers.length))
      | .joining i =>
          match s.workers[i]? with
          | none => none
          | some w =>
              if w.exited then some (fetchResults { s with mainThread := .joining (i + 1) } i)
              else none

def stepWorker (s : LinearScan) (i : ℕ) : Option LinearScan :=
  match s.workers[i]? with
  | none => none
  | some w =>
      match w.todo, s.workQueue with
      | r :: todo, _ =>
          some { s with workers := s.workers.set i (Worker.print { w with todo := todo } r) }
      | [], chunk :: workQueue =>
          if w.exited then none
          else some { s with
            workQueue := workQueue
            workers := s.workers.set i { w with todo := chunkPrints scanned chunk } }
      | [], [] =>
          if w.exited || !s.done then none
          else some { s with workers := s.workers.set i { w with exited := true } }

def step (s : LinearScan) (turn : Turn) : Option LinearScan :=
  if s.status ≠ none then none
  else
    match turn with
    | .main => stepMain options scanned s
    | .worker i => stepWorker scanned s i

inductive Step (s : LinearScan) : LinearScan → Prop
  | print {r : Result} {delivering : List Result} {serializer : Serializer} {console : Console}
      (hdelivering : s.delivering = r :: delivering)
      (hprint : s.serializer.print options r s.console = (.ok serializer, console)) :
      Step s { s with delivering := delivering, serializer := serializer, console := console }
  | stop {r : Result} {delivering : List Result} {status : ℕ} {console : Console}
      (hdelivering : s.delivering = r :: delivering)
      (hprint : s.serializer.print options r s.console = (.error status, console)) :
      Step s { s with delivering := delivering, console := console, status := some status }
  | enqueue {docid : ℕ} (hdelivering : s.delivering = []) (hmain : s.mainThread = .reading docid)
      (hlt : docid < scanned.length) (hqueue : s.workQueue.length < 256) :
      Step s { s with
        workQueue := s.workQueue ++ [(docid, min ((docid + 32) % 2 ^ 32) scanned.length)]
        mainThread := .picking docid }
  | finish {docid : ℕ} (hdelivering : s.delivering = []) (hmain : s.mainThread = .reading docid)
      (hle : scanned.length ≤ docid) :
      Step s { s with done := true, mainThread := .joining 0 }
  | pick {docid : ℕ} (hdelivering : s.delivering = []) (hmain : s.mainThread = .picking docid) :
      Step s (fetchResults { s with mainThread := .reading ((docid + 32) % 2 ^ 32) }
        (docid / 32 % s.workers.length))
  | join {i : ℕ} {w : Worker} (hdelivering : s.delivering = []) (hmain : s.mainThread = .joining i)
      (hw : s.workers[i]? = some w) (hexited : w.exited = true) :
      Step s (fetchResults { s with mainThread := .joining (i + 1) } i)
  | receive {i : ℕ} {w : Worker} {r : Result} {todo : List Result} (hw : s.workers[i]? = some w)
      (htodo : w.todo = r :: todo) :
      Step s { s with workers := s.workers.set i (Worker.print { w with todo := todo } r) }
  | pop {i : ℕ} {w : Worker} {chunk : ℕ × ℕ} {workQueue : List (ℕ × ℕ)}
      (hw : s.workers[i]? = some w) (htodo : w.todo = [])
      (hqueue : s.workQueue = chunk :: workQueue) (hexited : w.exited = false) :
      Step s { s with
        workQueue := workQueue
        workers := s.workers.set i { w with todo := chunkPrints scanned chunk } }
  | exit {i : ℕ} {w : Worker} (hw : s.workers[i]? = some w) (htodo : w.todo = [])
      (hqueue : s.workQueue = []) (hdone : s.done = true) (hexited : w.exited = false) :
      Step s { s with workers := s.workers.set i { w with exited := true } }

variable {options scanned}

theorem stepMain_cases {s s' : LinearScan} (h : stepMain options scanned s = some s') :
    Step options scanned s s' := by
  cases hd : s.delivering with
  | cons r delivering =>
      simp only [stepMain, hd] at h
      rcases hp : s.serializer.print options r s.console with ⟨status | serializer, console⟩
      · rw [hp] at h
        obtain rfl := Option.some.inj h
        exact .stop hd hp
      · rw [hp] at h
        obtain rfl := Option.some.inj h
        exact .print hd hp
  | nil =>
      cases hm : s.mainThread with
      | reading docid =>
          simp only [stepMain, hd, hm] at h
          split at h
          · rename_i hlt
            split at h
            · rename_i hqueue
              obtain rfl := Option.some.inj h
              exact hd ▸ .enqueue hd hm hlt hqueue
            · cases h
          · rename_i hle
            obtain rfl := Option.some.inj h
            exact hd ▸ .finish hd hm (Nat.not_lt.mp hle)
      | picking docid =>
          simp only [stepMain, hd, hm] at h
          obtain rfl := Option.some.inj h
          have hstep : Step options scanned s _ := .pick hd hm
          rwa [hd] at hstep
      | joining i =>
          simp only [stepMain, hd, hm] at h
          cases hw : s.workers[i]? with
          | none =>
              rw [hw] at h
              cases h
          | some w =>
              rw [hw] at h
              dsimp only at h
              split at h
              · rename_i hexited
                obtain rfl := Option.some.inj h
                have hstep : Step options scanned s _ := .join hd hm hw hexited
                rwa [hd] at hstep
              · cases h

theorem stepWorker_cases {s s' : LinearScan} {i : ℕ} (h : stepWorker scanned s i = some s') :
    Step options scanned s s' := by
  cases hw : s.workers[i]? with
  | none =>
      rw [stepWorker, hw] at h
      cases h
  | some w =>
      rw [stepWorker, hw] at h
      dsimp only at h
      cases htodo : w.todo with
      | cons r todo =>
          rw [htodo] at h
          obtain rfl := Option.some.inj h
          exact .receive hw htodo
      | nil =>
          rw [htodo] at h
          cases hqueue : s.workQueue with
          | cons chunk workQueue =>
              rw [hqueue] at h
              dsimp only at h
              split at h
              · cases h
              · rename_i hexited
                obtain rfl := Option.some.inj h
                exact .pop hw htodo hqueue (Bool.eq_false_iff.mpr hexited)
          | nil =>
              rw [hqueue] at h
              dsimp only at h
              split at h
              · cases h
              · rename_i hexited
                rw [Bool.or_eq_true, not_or, Bool.not_eq_true', Bool.not_eq_false] at hexited
                obtain rfl := Option.some.inj h
                have hstep : Step options scanned s _ :=
                  .exit hw htodo hqueue hexited.2 (Bool.eq_false_iff.mpr hexited.1)
                rwa [htodo, hqueue] at hstep

theorem step_cases {s s' : LinearScan} {turn : Turn} (h : step options scanned s turn = some s') :
    s.status = none ∧ Step options scanned s s' := by
  unfold step at h
  split at h
  · cases h
  · rename_i hstatus
    refine ⟨not_not.mp hstatus, ?_⟩
    cases turn with
    | main => exact stepMain_cases h
    | worker i => exact stepWorker_cases h

end LinearScan

end Flocate
