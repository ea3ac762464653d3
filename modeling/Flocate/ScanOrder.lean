import Flocate.DatabaseSearch
import Flocate.LinearScan
import Mathlib.Algebra.BigOperators.Group.List.Basic
import Mathlib.Tactic.Abel

/-!
# The linear scan prints in order

The prints of all blocks tile the sequence numbers. Wherever the threads have carried them, what is
not printed yet continues the output, so that the order of turns does not matter.
-/

namespace Flocate

open Bytes Tiling Serializer

namespace LinearScan

section Block

variable {matcher : Matcher} {seq : ℕ}

theorem testCandidate_tiles {filename : Str} {localSeq nextSeq b : ℕ} {rest : List Result}
    (hlt : localSeq < nextSeq) (h : Tiles Result.seq Result.skip nextSeq b rest) :
    Tiles Result.seq Result.skip localSeq b
      (testCandidate matcher filename localSeq nextSeq :: rest) := by
  have hskip : localSeq + (nextSeq - localSeq) = nextSeq := Nat.add_sub_cancel' (Nat.le_of_lt hlt)
  refine .cons rfl (Nat.sub_pos_of_lt hlt) ?_
  change Tiles Result.seq Result.skip (localSeq + (nextSeq - localSeq)) b rest
  rwa [hskip]

theorem scanFilenames_some_tiles {candidate : Str} {localSeq : ℕ} {filenames : List Str}
    (h : localSeq + filenames.countP matcher.found < (seq + 1) * 2 ^ 32) :
    Tiles Result.seq Result.skip localSeq ((seq + 1) * 2 ^ 32)
      (scanFilenames matcher seq (some candidate) localSeq filenames) := by
  induction filenames generalizing candidate localSeq with
  | nil => exact testCandidate_tiles (by simpa using h) (.nil _)
  | cons filename filenames ih =>
      rw [scanFilenames]
      rw [List.countP_cons] at h
      by_cases hfound : matcher.found filename = true
      · rw [if_pos hfound] at h ⊢
        exact testCandidate_tiles (Nat.lt_succ_self _) (ih (by omega))
      · rw [if_neg hfound] at h ⊢
        exact ih h

/-- The prints of a block tile its numbers if there are enough of them. -/
theorem scanFilenames_none_tiles {filenames : List Str}
    (h : filenames.countP matcher.found ≤ 2 ^ 32) :
    Tiles Result.seq Result.skip (seq * 2 ^ 32) ((seq + 1) * 2 ^ 32)
      (scanFilenames matcher seq none (seq * 2 ^ 32) filenames) := by
  induction filenames with
  | nil =>
      refine .cons rfl (Nat.two_pow_pos 32) ?_
      change Tiles Result.seq Result.skip (seq * 2 ^ 32 + 2 ^ 32) _ []
      rw [← Nat.succ_mul]
      exact .nil _
  | cons filename filenames ih =>
      rw [scanFilenames]
      rw [List.countP_cons] at h
      by_cases hfound : matcher.found filename = true
      · rw [if_pos hfound] at h ⊢
        exact scanFilenames_some_tiles (by omega)
      · rw [if_neg hfound] at h ⊢
        exact ih h

theorem messages_cons (r : Result) (rs : List Result) :
    messages (r :: rs) = (if r.msg = [] then [] else [r.msg]) ++ messages rs := by
  rw [messages, List.map_cons, List.filter_cons]
  by_cases h : r.msg = []
  · rw [if_pos h, if_neg (by simpa using h)]
    rfl
  · rw [if_neg h, if_pos (by simpa using h)]
    rfl

theorem messages_testCandidate {filename : Str} (h : filename ≠ []) (localSeq nextSeq : ℕ)
    (rs : List Result) :
    messages (testCandidate matcher filename localSeq nextSeq :: rs) =
      [filename].filter matcher.visible ++ messages rs := by
  rw [messages_cons, testCandidate]
  by_cases hv : matcher.visible filename = true
  · rw [if_pos hv, if_neg h, List.filter_cons_of_pos hv]
    rfl
  · rw [if_neg hv, if_pos rfl, List.filter_cons_of_neg hv]
    rfl

theorem messages_scanFilenames {pendingCandidate : Option Str} {localSeq : ℕ}
    {filenames : List Str} (hpending : ∀ s ∈ pendingCandidate, s ≠ [])
    (hnames : ∀ s ∈ filenames, s ≠ []) :
    messages (scanFilenames matcher seq pendingCandidate localSeq filenames) =
      (pendingCandidate.toList ++ filenames.filter matcher.found).filter matcher.visible := by
  induction filenames generalizing pendingCandidate localSeq with
  | nil =>
      cases pendingCandidate with
      | none => rfl
      | some candidate =>
          simp only [scanFilenames]
          rw [messages_testCandidate (hpending candidate rfl)]
          simp [messages]
  | cons filename filenames ih =>
      rw [List.forall_mem_cons] at hnames
      have hnext : ∀ s ∈ some filename, s ≠ [] := fun s hs => Option.some.inj hs ▸ hnames.1
      by_cases hfound : matcher.found filename = true
      · rw [List.filter_cons_of_pos hfound]
        cases pendingCandidate with
        | none =>
            rw [scanFilenames, if_pos hfound]
            exact ih hnext hnames.2
        | some candidate =>
            rw [scanFilenames, if_pos hfound, messages_testCandidate (hpending candidate rfl),
              ih hnext hnames.2, ← List.filter_append]
            rfl
      · rw [List.filter_cons_of_neg hfound, scanFilenames.eq_def]
        dsimp only
        rw [if_neg hfound]
        exact ih hpending hnames.2

end Block

section Blocks

variable {matcher : Matcher} {blocks : List Str}

/-- No filename of the blocks is empty, and no block has more matches than it has numbers. -/
structure Numbered (matcher : Matcher) (blocks : List Str) : Prop where
  nonempty : ∀ block ∈ blocks, [] ∉ splitNul (block ++ [0])
  countP_le : ∀ block ∈ blocks, (splitNul (block ++ [0])).countP matcher.found ≤ 2 ^ 32

theorem scanFileBlocks_tiles (h : Numbered matcher blocks) :
    Tiles Result.seq Result.skip 0 (blocks.length * 2 ^ 32)
      (scanFileBlocks matcher blocks).flatten := by
  have hfrom (k : ℕ) : Tiles Result.seq Result.skip (k * 2 ^ 32) ((k + blocks.length) * 2 ^ 32)
      ((blocks.zipIdx k).map fun block => scanFileBlock matcher block.2 block.1).flatten := by
    obtain ⟨-, hcount⟩ := h
    induction blocks generalizing k with
    | nil => exact .nil _
    | cons block blocks ih =>
        rw [List.forall_mem_cons] at hcount
        rw [List.zipIdx_cons, List.map_cons, List.flatten_cons, List.length_cons,
          Nat.add_comm blocks.length, ← Nat.add_assoc]
        exact (scanFilenames_none_tiles hcount.1).append (ih (k + 1) hcount.2)
  have h0 := hfrom 0
  rwa [Nat.zero_mul, Nat.zero_add] at h0

theorem messages_scanFileBlocks (h : Numbered matcher blocks) :
    messages (scanFileBlocks matcher blocks).flatten = matchingFilenames matcher blocks := by
  have hfrom (k : ℕ) : messages ((blocks.zipIdx k).map fun block =>
      scanFileBlock matcher block.2 block.1).flatten = matchingFilenames matcher blocks := by
    obtain ⟨hnames, -⟩ := h
    induction blocks generalizing k with
    | nil => rfl
    | cons block blocks ih =>
        rw [List.forall_mem_cons] at hnames
        have hblock : ∀ s ∈ splitNul (block ++ [0]), s ≠ [] := fun s hs heq => hnames.1 (heq ▸ hs)
        have hcons : matchingFilenames matcher (block :: blocks) =
            ((splitNul (block ++ [0])).filter fun s => matcher.found s && matcher.visible s) ++
              matchingFilenames matcher blocks := List.flatMap_cons
        rw [List.zipIdx_cons, List.map_cons, List.flatten_cons, messages_append,
          ih (k + 1) hnames.2, hcons, scanFileBlock,
          messages_scanFilenames (fun s hs => by cases hs) hblock]
        simp only [Option.toList_none, List.nil_append, List.filter_filter, Bool.and_comm]
  exact hfrom 0

end Blocks

section Control

variable {options : OutputOptions} {scanned : List (List Result)} {n : ℕ} {s s' : LinearScan}

/-- Which threads are done with what. -/
structure Control (scanned : List (List Result)) (n : ℕ) (s : LinearScan) : Prop where
  numThreads : s.workers.length = n
  picking : ∀ docid, s.mainThread = .picking docid → docid < scanned.length
  done : s.done = true → ∃ i, s.mainThread = .joining i
  exited : ∀ w ∈ s.workers, w.exited = true → w.todo = [] ∧ s.workQueue = [] ∧ s.done = true
  joining : ∀ i, s.mainThread = .joining i → s.done = true
  joined : ∀ i, s.mainThread = .joining i → ∀ j < i, ∃ w, s.workers[j]? = some w ∧
    w.exited = true ∧ w.results = []

theorem start_control : Control scanned n (start options n) where
  numThreads := List.length_replicate
  picking docid h := by cases h
  done h := by cases h
  exited w hw h := by
    rw [List.eq_of_mem_replicate hw] at h
    cases h
  joining i h := by cases h
  joined i h := by cases h

theorem workers_fetchResults (s : LinearScan) (i j : ℕ) :
    (fetchResults s i).workers[j]? =
      if j = i then s.workers[j]?.map fun w => { w with results := [] } else s.workers[j]? := by
  rw [fetchResults]
  by_cases hj : j = i
  · rw [if_pos hj, ← hj]
    cases hw : s.workers[j]? with
    | none => exact hw
    | some w => simp [(List.getElem?_eq_some_iff.mp hw).1]
  · rw [if_neg hj]
    cases hw : s.workers[i]? with
    | none => rfl
    | some w => rw [List.getElem?_set_ne (Ne.symm hj)]

theorem fetchResults_frame (s : LinearScan) (i : ℕ) :
    (fetchResults s i).mainThread = s.mainThread ∧ (fetchResults s i).workQueue = s.workQueue ∧
      (fetchResults s i).done = s.done ∧ (fetchResults s i).workers.length = s.workers.length ∧
      (fetchResults s i).serializer = s.serializer ∧ (fetchResults s i).console = s.console ∧
      (fetchResults s i).status = s.status := by
  rw [fetchResults]
  cases s.workers[i]? with
  | none => exact ⟨rfl, rfl, rfl, rfl, rfl, rfl, rfl⟩
  | some w => exact ⟨rfl, rfl, rfl, List.length_set, rfl, rfl, rfl⟩

/-- A worker that fetching leaves behind is as it was but for its results. -/
theorem exists_of_mem_fetchResults {i : ℕ} {w : Worker} (h : w ∈ (fetchResults s i).workers) :
    ∃ w₀ ∈ s.workers, w.exited = w₀.exited ∧ w.todo = w₀.todo := by
  obtain ⟨j, hj⟩ := List.getElem?_of_mem h
  rw [workers_fetchResults] at hj
  split at hj
  · obtain ⟨w₀, hw₀, rfl⟩ := Option.map_eq_some_iff.mp hj
    exact ⟨w₀, List.mem_of_getElem? hw₀, rfl, rfl⟩
  · exact ⟨w, List.mem_of_getElem? hj, rfl, rfl⟩

theorem Worker.print_frame (w : Worker) (r : Result) :
    (w.print r).todo = w.todo ∧ (w.print r).exited = w.exited := by
  rw [Worker.print]
  split
  · exact ⟨rfl, rfl⟩
  · split <;> exact ⟨rfl, rfl⟩

theorem Control.set_worker (h : Control scanned n s) {i : ℕ} {w w' : Worker}
    {workQueue : List (ℕ × ℕ)} (hw : s.workers[i]? = some w)
    (hexited : w'.exited = true → w'.todo = [] ∧ workQueue = [] ∧ s.done = true)
    (hqueue : s.workQueue = [] → workQueue = [])
    (hkeep : w.exited = true → w' = w) :
    Control scanned n { s with workQueue := workQueue, workers := s.workers.set i w' } where
  numThreads := List.length_set.trans h.numThreads
  picking := h.picking
  done := h.done
  exited v hv hv' := by
    rcases List.mem_or_eq_of_mem_set hv with hv | rfl
    · obtain ⟨htodo, hempty, hdone⟩ := h.exited v hv hv'
      exact ⟨htodo, hqueue hempty, hdone⟩
    · exact hexited hv'
  joining := h.joining
  joined k hk j hj := by
    obtain ⟨v, hv, hexited', hresults⟩ := h.joined k hk j hj
    refine ⟨v, ?_, hexited', hresults⟩
    change (s.workers.set i w')[j]? = some v
    by_cases hij : i = j
    · subst hij
      rw [hw] at hv
      obtain rfl := Option.some.inj hv
      rw [hkeep hexited', List.getElem?_set_self (List.getElem?_eq_some_iff.mp hw).1]
    · rwa [List.getElem?_set_ne hij]

theorem Control.step (h : Control scanned n s) (hstep : Step options scanned s s') :
    Control scanned n s' := by
  cases hstep with
  | print => exact ⟨h.numThreads, h.picking, h.done, h.exited, h.joining, h.joined⟩
  | stop => exact ⟨h.numThreads, h.picking, h.done, h.exited, h.joining, h.joined⟩
  | @enqueue docid _ hmain hlt _ =>
      have hdone : s.done ≠ true := by
        intro hdone
        obtain ⟨i, hi⟩ := h.done hdone
        rw [hmain] at hi
        cases hi
      refine ⟨h.numThreads, fun d hd => ?_, fun hd => absurd hd hdone, fun w hw hexited => ?_,
        fun i hi => ?_, fun i hi => ?_⟩
      · cases hd
        exact hlt
      · exact absurd (h.exited w hw hexited).2.2 hdone
      · cases hi
      · cases hi
  | finish =>
      refine ⟨h.numThreads, fun d hd => ?_, fun _ => ⟨0, rfl⟩, fun w hw hexited => ?_,
        fun i hi => rfl, fun i hi j hj => ?_⟩
      · cases hd
      · obtain ⟨htodo, hempty, -⟩ := h.exited w hw hexited
        exact ⟨htodo, hempty, rfl⟩
      · cases hi
        exact absurd hj (Nat.not_lt_zero j)
  | @pick docid _ hmain =>
      obtain ⟨hthread, hqueue, hdone, hnum, -⟩ := fetchResults_frame
        { s with mainThread := .reading ((docid + 32) % 2 ^ 32) } (docid / 32 % s.workers.length)
      refine ⟨hnum.trans h.numThreads, fun d hd => ?_, fun hd => ?_, fun w hw hexited => ?_,
        fun i hi => ?_, fun i hi => ?_⟩
      · rw [hthread] at hd
        cases hd
      · rw [hdone] at hd
        obtain ⟨i, hi⟩ := h.done hd
        rw [hmain] at hi
        cases hi
      · obtain ⟨w₀, hw₀, hsame, htodo⟩ := exists_of_mem_fetchResults hw
        rw [htodo, hqueue, hdone]
        exact h.exited w₀ hw₀ (hsame ▸ hexited)
      · rw [hthread] at hi
        cases hi
      · rw [hthread] at hi
        cases hi
  | @join i w _ hmain hw hexited =>
      obtain ⟨hthread, hqueue, hdone, hnum, -⟩ := fetchResults_frame
        { s with mainThread := .joining (i + 1) } i
      refine ⟨hnum.trans h.numThreads, fun d hd => ?_, fun _ => ⟨_, hthread⟩,
        fun v hv hexited => ?_, fun _ _ => ?_, fun k hk j hj => ?_⟩
      · rw [hthread] at hd
        cases hd
      · obtain ⟨w₀, hw₀, hsame, htodo⟩ := exists_of_mem_fetchResults hv
        rw [htodo, hqueue, hdone]
        exact h.exited w₀ hw₀ (hsame ▸ hexited)
      · exact hdone.trans (h.joining i hmain)
      · rw [hthread] at hk
        obtain rfl := MainThread.joining.inj hk
        rw [workers_fetchResults]
        by_cases hji : j = i
        · subst hji
          rw [if_pos rfl]
          exact ⟨{ w with results := [] }, by rw [hw]; rfl, hexited, rfl⟩
        · rw [if_neg hji]
          exact h.joined i hmain j (by omega)
  | @receive i w r todo hw htodo =>
      have hnot : w.exited ≠ true := by
        intro hexited
        have hnil := (h.exited w (List.mem_of_getElem? hw) hexited).1
        rw [htodo] at hnil
        cases hnil
      refine h.set_worker hw (fun hexited => ?_) id fun hexited => absurd hexited hnot
      rw [(Worker.print_frame _ r).2] at hexited
      exact absurd hexited hnot
  | pop hw _ hqueue hexited =>
      refine h.set_worker hw (fun hexited' => ?_) (fun hempty => ?_) fun hexited' => ?_
      · rw [hexited] at hexited'
        cases hexited'
      · rw [hqueue] at hempty
        cases hempty
      · rw [hexited] at hexited'
        cases hexited'
  | exit hw htodo hqueue hdone hexited =>
      refine h.set_worker hw (fun _ => ⟨htodo, hqueue, hdone⟩) id fun hexited' => ?_
      rw [hexited] at hexited'
      cases hexited'

end Control

section Sum

variable {M : Type*} [AddCommMonoid M] {α : Type*}

theorem exists_sum_set (f : α → M) {l : List α} {i : ℕ} {a : α} (h : l[i]? = some a) :
    ∃ rest, (l.map f).sum = f a + rest ∧ ∀ b, ((l.set i b).map f).sum = f b + rest := by
  induction l generalizing i with
  | nil => cases h
  | cons c l ih =>
      cases i with
      | zero =>
          obtain rfl := Option.some.inj h
          exact ⟨(l.map f).sum, List.sum_cons, fun b => List.sum_cons⟩
      | succ i =>
          obtain ⟨rest, hsum, hset⟩ := ih h
          refine ⟨f c + rest, ?_, fun b => ?_⟩
          · rw [List.map_cons, List.sum_cons, hsum]
            abel
          · rw [List.set_cons_succ, List.map_cons, List.sum_cons, hset]
            abel

end Sum

section Output

variable (options : OutputOptions) (scanned : List (List Result))

/-- The first block that the main thread has not queued yet. -/
def MainThread.next : MainThread → ℕ
  | .reading docid => docid
  | .picking docid => docid + 32
  | .joining _ => scanned.length

def Worker.held (w : Worker) : Multiset Result := ↑(w.results ++ w.todo)

def outstanding (s : LinearScan) : Multiset Result :=
  ↑s.delivering + (s.workers.map Worker.held).sum +
    ↑(s.workQueue.flatMap (chunkPrints scanned)) +
    ↑(scanned.drop (s.mainThread.next scanned)).flatten

structure Output (b : ℕ) (expected : List Str) (s : LinearScan) : Prop where
  running : s.status = none → s.serializer.Settled ∧
    Streaming options b expected (outstanding scanned s) s.serializer s.console
  stopped : ∀ status, s.status = some status →
    status = 0 ∧ LimitReached options expected s.console

variable {options scanned} {b : ℕ} {expected : List Str} {s s' : LinearScan}

theorem outstanding_fetchResults (h : s.delivering = []) (i : ℕ) :
    outstanding scanned (fetchResults s i) = outstanding scanned s := by
  rw [fetchResults]
  cases hw : s.workers[i]? with
  | none => rfl
  | some w =>
      obtain ⟨rest, hsum, hset⟩ := exists_sum_set Worker.held hw
      unfold outstanding
      dsimp only
      rw [hset, hsum, h, Worker.held, Worker.held, List.nil_append, ← Multiset.coe_add,
        Multiset.coe_nil]
      abel

theorem outstanding_set_worker (scanned : List (List Result)) {i : ℕ} {w : Worker} (w' : Worker)
    (hw : s.workers[i]? = some w) :
    ∃ rest, outstanding scanned s = w.held + rest ∧
      outstanding scanned { s with workers := s.workers.set i w' } = w'.held + rest := by
  obtain ⟨rest, hsum, hset⟩ := exists_sum_set Worker.held hw
  refine ⟨↑s.delivering + rest + ↑(s.workQueue.flatMap (chunkPrints scanned)) +
    ↑(scanned.drop (s.mainThread.next scanned)).flatten, ?_, ?_⟩
  · rw [outstanding, hsum]
    abel
  · unfold outstanding
    dsimp only
    rw [hset]
    abel

/-- The next chunk and what comes behind it. -/
theorem drop_eq_chunk {docid : ℕ} (hlt : docid < scanned.length)
    (hlength : scanned.length + 32 ≤ 2 ^ 32) :
    (scanned.drop docid).flatten =
      chunkPrints scanned (docid, min ((docid + 32) % 2 ^ 32) scanned.length) ++
        (scanned.drop (docid + 32)).flatten := by
  have hmod : (docid + 32) % 2 ^ 32 = docid + 32 := Nat.mod_eq_of_lt (by omega)
  have htake : (scanned.drop docid).take (min (docid + 32) scanned.length - docid) =
      (scanned.drop docid).take 32 := by
    rw [List.take_eq_take_iff, List.length_drop]
    omega
  rw [chunkPrints, hmod]
  dsimp only
  rw [htake, ← List.flatten_append, ← List.drop_drop, List.take_append_drop]

/-- A worker stores a print as it is, or makes it one with the last one that it has stored. -/
theorem Worker.held_print (w : Worker) (r : Result) {todo : List Result}
    (h : w.todo = r :: todo) :
    (Worker.print { w with todo := todo } r).held = w.held ∨
      ∃ p others, r.msg = [] ∧ p.seq + p.skip = r.seq ∧ w.held = p ::ₘ r ::ₘ others ∧
        (Worker.print { w with todo := todo } r).held =
          { p with skip := p.skip + r.skip } ::ₘ others := by
  rw [Worker.print]
  dsimp only
  have hstore : ((w.results ++ [r] ++ todo : List Result) : Multiset Result) = w.held := by
    rw [Worker.held, h, List.append_assoc]
    rfl
  split
  · rename_i hlast
    rw [List.getLast?_eq_none_iff] at hlast
    rw [hlast] at hstore
    exact Or.inl hstore
  · rename_i back hlast
    obtain ⟨init, hinit⟩ := List.getLast?_eq_some_iff.mp hlast
    by_cases hmerge : r.msg = [] ∧ back.seq + back.skip = r.seq
    · rw [if_pos hmerge]
      refine Or.inr ⟨back, ↑(init ++ todo), hmerge.1, hmerge.2, ?_, ?_⟩
      · rw [← hstore, hinit, Multiset.cons_coe, Multiset.cons_coe, Multiset.coe_eq_coe,
          List.append_assoc, List.append_assoc]
        exact List.perm_middle.trans (List.perm_middle.cons back)
      · change ((w.results.dropLast ++ [_] ++ todo : List Result) : Multiset Result) = _
        rw [hinit, List.dropLast_concat, Multiset.cons_coe, Multiset.coe_eq_coe, List.append_assoc]
        exact List.perm_middle
    · rw [if_neg hmerge]
      exact Or.inl hstore

theorem Output.of_outstanding_eq (h : Output options scanned b expected s)
    (hout : outstanding scanned s' = outstanding scanned s) (hser : s'.serializer = s.serializer)
    (hcon : s'.console = s.console) (hstatus : s'.status = s.status) :
    Output options scanned b expected s' := by
  refine ⟨fun hnone => ?_, fun status hsome => ?_⟩
  · rw [hout, hser, hcon]
    exact h.running (hstatus ▸ hnone)
  · rw [hcon]
    exact h.stopped status (hstatus ▸ hsome)

theorem Output.step {n : ℕ} (honly : options.onlyCount = false)
    (hlength : scanned.length + 32 ≤ 2 ^ 32) (hcontrol : Control scanned n s)
    (h : Output options scanned b expected s) (hrunning : s.status = none)
    (hstep : Step options scanned s s') : Output options scanned b expected s' := by
  obtain ⟨hsettled, hstreaming⟩ := h.running hrunning
  have hprints {r : Result} {delivering : List Result} (hd : s.delivering = r :: delivering) :
      Keeps options b expected (outstanding scanned { s with delivering := delivering })
        (s.serializer.print options r s.console) := by
    apply print_keeps honly hsettled
    convert hstreaming using 1
    rw [outstanding, outstanding, hd, ← Multiset.cons_coe]
    simp only [Multiset.cons_add]
  cases hstep with
  | print hdelivering hprint =>
      have hkeeps := hprints hdelivering
      rw [hprint] at hkeeps
      refine ⟨fun _ => ⟨hkeeps.2, hkeeps.1⟩, fun status hsome => ?_⟩
      rw [hrunning] at hsome
      cases hsome
  | stop hdelivering hprint =>
      have hkeeps := hprints hdelivering
      rw [hprint] at hkeeps
      refine ⟨fun hnone => ?_, fun status hsome => ?_⟩
      · cases hnone
      · obtain rfl := Option.some.inj hsome
        exact hkeeps
  | @enqueue docid _ hmain hlt _ =>
      refine h.of_outstanding_eq ?_ rfl rfl rfl
      unfold outstanding
      rw [hmain]
      simp only [MainThread.next, List.flatMap_append, List.flatMap_singleton]
      rw [drop_eq_chunk hlt hlength, ← Multiset.coe_add, ← Multiset.coe_add]
      abel
  | finish _ hmain hle =>
      refine h.of_outstanding_eq ?_ rfl rfl rfl
      unfold outstanding
      rw [hmain]
      simp only [MainThread.next, List.drop_length, List.drop_of_length_le hle]
  | @pick docid hdelivering hmain =>
      have hlt := hcontrol.picking docid hmain
      have hmod : (docid + 32) % 2 ^ 32 = docid + 32 := Nat.mod_eq_of_lt (by omega)
      obtain ⟨-, -, -, -, hser, hcon, hstatus⟩ := fetchResults_frame
        { s with mainThread := .reading ((docid + 32) % 2 ^ 32) } (docid / 32 % s.workers.length)
      refine h.of_outstanding_eq ?_ hser hcon hstatus
      refine (outstanding_fetchResults (by exact hdelivering) _).trans ?_
      unfold outstanding
      rw [hmain]
      dsimp only [MainThread.next]
      rw [hmod]
  | @join i _ hdelivering hmain =>
      obtain ⟨-, -, -, -, hser, hcon, hstatus⟩ := fetchResults_frame
        { s with mainThread := .joining (i + 1) } i
      refine h.of_outstanding_eq ?_ hser hcon hstatus
      refine (outstanding_fetchResults (by exact hdelivering) _).trans ?_
      unfold outstanding
      rw [hmain]
      rfl
  | @receive i w r todo hw htodo =>
      obtain ⟨rest, hout, hset⟩ := outstanding_set_worker scanned
        (Worker.print { w with todo := todo } r) hw
      rcases w.held_print r htodo with hheld | ⟨p, others, hmsg, hseq, hheld, hmerged⟩
      · refine h.of_outstanding_eq ?_ rfl rfl rfl
        rw [hset, hout, hheld]
      · refine ⟨fun _ => ⟨hsettled, ?_⟩, h.stopped⟩
        rw [hset, hmerged, Multiset.cons_add]
        rw [hout, hheld, Multiset.cons_add, Multiset.cons_add] at hstreaming
        exact hstreaming.coalesce hmsg hseq
  | @pop i w chunk workQueue hw htodo hqueue _ =>
      refine h.of_outstanding_eq ?_ rfl rfl rfl
      obtain ⟨rest, hsum, hset⟩ := exists_sum_set Worker.held hw
      unfold outstanding
      dsimp only
      rw [hset, hsum, hqueue, Worker.held, Worker.held, htodo, List.flatMap_cons, List.append_nil,
        ← Multiset.coe_add, ← Multiset.coe_add]
      abel
  | @exit i w hw =>
      refine h.of_outstanding_eq ?_ rfl rfl rfl
      obtain ⟨rest, hout, hset⟩ := outstanding_set_worker scanned
        { w with exited := true } hw
      rw [hset, hout]
      rfl

theorem start_output (options : OutputOptions) (n : ℕ)
    (htiles : Tiles Result.seq Result.skip 0 b scanned.flatten)
    (hexpected : messages scanned.flatten = expected) :
    Output options scanned b expected (start options n) := by
  have hidle : ((List.replicate n ({} : Worker)).map Worker.held).sum = 0 := by
    rw [List.map_replicate, List.sum_replicate]
    exact nsmul_zero n
  refine ⟨fun _ => ⟨⟨List.Pairwise.nil, fun r hr => absurd hr List.not_mem_nil⟩, ?_⟩, fun _ h => ?_⟩
  swap
  · cases h
  refine ⟨scanned.flatten, [], ?_, htiles, hexpected, rfl, (Int.sub_zero _).symm,
    limitMatches_pos options⟩
  change _ = (0 : Multiset Result) + (0 + ((List.replicate n ({} : Worker)).map Worker.held).sum +
    0 + ↑scanned.flatten)
  rw [hidle]
  simp only [zero_add]

end Output

section Progress

variable {options : OutputOptions} {scanned : List (List Result)} {n : ℕ} {s s' : LinearScan}

def Worker.work (w : Worker) : ℕ :=
  w.results.length + 2 * w.todo.length + if w.exited then 0 else 1

def MainThread.work (scanned : List (List Result)) (n : ℕ) : MainThread → ℕ
  | .reading docid =>
      4 * (scanned.length - docid) + 2 * (scanned.drop docid).flatten.length + n + 1
  | .picking docid =>
      4 * (scanned.length - docid - 1) + 2 * (scanned.drop (docid + 32)).flatten.length + n + 3
  | .joining i => n - i

def work (scanned : List (List Result)) (n : ℕ) (s : LinearScan) : ℕ :=
  s.delivering.length + (s.workers.map Worker.work).sum +
    (s.workQueue.map fun chunk => 1 + 2 * (chunkPrints scanned chunk).length).sum +
    s.mainThread.work scanned n

theorem work_fetchResults (h : s.delivering = []) (i : ℕ) :
    work scanned n (fetchResults s i) = work scanned n s := by
  rw [fetchResults]
  cases hw : s.workers[i]? with
  | none => rfl
  | some w =>
      obtain ⟨rest, hsum, hset⟩ := exists_sum_set Worker.work hw
      unfold work
      dsimp only
      rw [hset, hsum, h]
      simp only [Worker.work, List.length_nil]
      omega

theorem Worker.work_print (w : Worker) (r : Result) {todo : List Result} (h : w.todo = r :: todo) :
    (Worker.print { w with todo := todo } r).work < w.work := by
  have hresults :
      (Worker.print { w with todo := todo } r).results.length ≤ w.results.length + 1 := by
    rw [Worker.print]
    dsimp only
    split
    · exact Nat.le_add_left 1 _
    · split
      · rw [List.length_append, List.length_dropLast]
        change w.results.length - 1 + 1 ≤ _
        omega
      · rw [List.length_append]
        exact Nat.le_refl _
  obtain ⟨htodo, hexited⟩ := Worker.print_frame { w with todo := todo } r
  rw [Worker.work, Worker.work, htodo, hexited, h, List.length_cons]
  dsimp only
  omega

/-- Every turn leaves fewer turns to come. -/
theorem work_lt (hlength : scanned.length + 32 ≤ 2 ^ 32) (hcontrol : Control scanned n s)
    (hstep : Step options scanned s s') : work scanned n s' < work scanned n s := by
  have hset {i : ℕ} {w : Worker} (w' : Worker) (hw : s.workers[i]? = some w) :
      ((s.workers.set i w').map Worker.work).sum + w.work =
        (s.workers.map Worker.work).sum + w'.work := by
    obtain ⟨rest, hsum, hset⟩ := exists_sum_set Worker.work hw
    rw [hset, hsum]
    omega
  cases hstep with
  | print hdelivering =>
      unfold work
      rw [hdelivering, List.length_cons]
      dsimp only
      omega
  | stop hdelivering =>
      unfold work
      rw [hdelivering, List.length_cons]
      dsimp only
      omega
  | @enqueue docid _ hmain hlt _ =>
      unfold work
      rw [hmain]
      simp only [MainThread.work, List.map_append, List.sum_append, List.map_singleton,
        List.sum_singleton]
      rw [drop_eq_chunk hlt hlength, List.length_append]
      omega
  | finish _ hmain =>
      unfold work
      rw [hmain]
      simp only [MainThread.work]
      omega
  | @pick docid hdelivering hmain =>
      have hlt := hcontrol.picking docid hmain
      have hmod : (docid + 32) % 2 ^ 32 = docid + 32 := Nat.mod_eq_of_lt (by omega)
      refine (work_fetchResults (by exact hdelivering) _).trans_lt ?_
      unfold work
      rw [hmain, hmod]
      simp only [MainThread.work]
      omega
  | @join i w hdelivering hmain hw =>
      have hlt : i < n := hcontrol.numThreads ▸ (List.getElem?_eq_some_iff.mp hw).1
      refine (work_fetchResults (by exact hdelivering) _).trans_lt ?_
      unfold work
      rw [hmain]
      simp only [MainThread.work]
      omega
  | @receive i w r todo hw htodo =>
      have hsum := hset (Worker.print { w with todo := todo } r) hw
      have hlt := w.work_print r htodo
      unfold work
      dsimp only
      omega
  | @pop i w chunk workQueue hw htodo hqueue _ =>
      have hsum := hset { w with todo := chunkPrints scanned chunk } hw
      simp only [Worker.work, htodo, List.length_nil] at hsum
      unfold work
      rw [hqueue, List.map_cons, List.sum_cons]
      dsimp only
      omega
  | @exit i w hw htodo _ _ hexited =>
      have hsum := hset { w with exited := true } hw
      simp only [Worker.work, hexited, if_true, Bool.false_eq_true, if_false] at hsum
      unfold work
      dsimp only
      omega

/-- A worker that cannot take a turn has exited, or waits for the main thread. -/
theorem exited_of_stuck {i : ℕ} {w : Worker} (hw : s.workers[i]? = some w)
    (h : stepWorker scanned s i = none) :
    w.todo = [] ∧ (s.workQueue ≠ [] ∨ s.done = true → w.exited = true) := by
  rw [stepWorker, hw] at h
  dsimp only at h
  cases htodo : w.todo with
  | cons r todo =>
      rw [htodo] at h
      cases h
  | nil =>
      refine ⟨rfl, fun hwork => ?_⟩
      rw [htodo] at h
      by_contra hexited
      rw [Bool.not_eq_true] at hexited
      cases hqueue : s.workQueue with
      | cons chunk workQueue =>
          rw [hqueue, hexited] at h
          cases h
      | nil =>
          have hdone := hwork.resolve_left (fun hne => hne hqueue)
          rw [hqueue, hexited, hdone] at h
          cases h

/-- If no thread can take a turn, the main thread has joined all workers and printed all. -/
theorem outstanding_of_stuck (hn : 0 < n) (hcontrol : Control scanned n s)
    (hstatus : s.status = none) (hstuck : ∀ turn, step options scanned s turn = none) :
    outstanding scanned s = 0 := by
  have hmain : stepMain options scanned s = none := by
    have h := hstuck .main
    unfold step at h
    rwa [if_neg (not_not.mpr hstatus)] at h
  have hworker (i : ℕ) : stepWorker scanned s i = none := by
    have h := hstuck (.worker i)
    unfold step at h
    rwa [if_neg (not_not.mpr hstatus)] at h
  have hfirst : ∃ w, s.workers[0]? = some w :=
    ⟨_, List.getElem?_eq_getElem (hcontrol.numThreads.symm ▸ hn)⟩
  obtain ⟨w₀, hw₀⟩ := hfirst
  have hmem₀ := List.mem_of_getElem? hw₀
  have hdelivering : s.delivering = [] := by
    cases hd : s.delivering with
    | nil => rfl
    | cons r delivering =>
        simp only [stepMain, hd] at hmain
        split at hmain <;> cases hmain
  have hqueue : s.workQueue = [] := by
    by_contra hne
    have hexited := (exited_of_stuck hw₀ (hworker 0)).2 (Or.inl hne)
    exact hne (hcontrol.exited w₀ hmem₀ hexited).2.1
  have hjoined : ∃ i, s.mainThread = .joining i ∧ n ≤ i := by
    cases hm : s.mainThread with
    | reading docid =>
        simp only [stepMain, hdelivering, hm, hqueue, List.length_nil] at hmain
        split at hmain
        · cases hmain
        · cases hmain
    | picking docid =>
        simp only [stepMain, hdelivering, hm] at hmain
        cases hmain
    | joining i =>
        refine ⟨i, rfl, ?_⟩
        by_contra hlt
        have hlen : i < s.workers.length := hcontrol.numThreads.symm ▸ Nat.not_le.mp hlt
        obtain ⟨w, hw⟩ : ∃ w, s.workers[i]? = some w := ⟨_, List.getElem?_eq_getElem hlen⟩
        have hexited := (exited_of_stuck hw (hworker i)).2 (Or.inr (hcontrol.joining i hm))
        simp only [stepMain, hdelivering, hm, hw, hexited, if_true] at hmain
        cases hmain
  obtain ⟨i, hi, hle⟩ := hjoined
  have hheld : (s.workers.map Worker.held).sum = 0 := by
    refine List.sum_eq_zero fun held hheld => ?_
    obtain ⟨w, hw, rfl⟩ := List.mem_map.mp hheld
    obtain ⟨j, hj⟩ := List.getElem?_of_mem hw
    have hlt : j < i :=
      (hcontrol.numThreads ▸ (List.getElem?_eq_some_iff.mp hj).1 : j < n).trans_le hle
    obtain ⟨w', hw', -, hresults⟩ := hcontrol.joined i hi j hlt
    rw [hj] at hw'
    obtain rfl := Option.some.inj hw'
    rw [Worker.held, hresults, (exited_of_stuck hj (hworker j)).1]
    rfl
  unfold outstanding
  rw [hdelivering, hheld, hqueue, hi]
  simp [MainThread.next]

end Progress

section Runs

variable {options : OutputOptions} {matcher : Matcher} {blocks : List Str} {n : ℕ}

theorem length_scanFileBlocks (matcher : Matcher) (blocks : List Str) :
    (scanFileBlocks matcher blocks).length = blocks.length := by
  rw [scanFileBlocks, List.length_map, List.length_zipIdx]

/-- What the linear scan prints is the result of the scan of `do_search_file`. -/
theorem matchingFilenames_eq_scanAllDocids {query : Query} {corpus : Corpus}
    (h : ∀ s, query.reported s = (matcher.found s && matcher.visible s)) :
    matchingFilenames matcher corpus.filenameBlocks = query.scanAllDocids corpus := by
  have hreported : query.reported = fun s => matcher.found s && matcher.visible s := funext h
  rw [Query.scanAllDocids, matchingFilenames]
  unfold Query.scanFileBlock
  rw [hreported]

/-- Whatever the threads do, they can only do so much of it, and when they are done the matches up
to the limit have been printed in order; below the limit nothing is held back. -/
theorem output_inOrder (honly : options.onlyCount = false) (hnumbered : Numbered matcher blocks)
    (hblocks : blocks.length + 32 ≤ 2 ^ 32) (hn : 0 < n) {turns : List Turn} {s : LinearScan}
    (hrun : Run.run (step options (scanFileBlocks matcher blocks)) (start options n) turns =
      some s) :
    turns.length ≤ work (scanFileBlocks matcher blocks) n (start options n) ∧
      ((∀ turn, step options (scanFileBlocks matcher blocks) s turn = none) →
        s.console.stdout =
          ((matchingFilenames matcher blocks).take options.limitMatches).map .filename ∧
        ((matchingFilenames matcher blocks).length < options.limitMatches →
          s.serializer.pending = [])) := by
  have hlength : (scanFileBlocks matcher blocks).length + 32 ≤ 2 ^ 32 := by
    rwa [length_scanFileBlocks]
  have hcontrol₀ : Control (scanFileBlocks matcher blocks) n (start options n) := start_control
  have houtput₀ := start_output options n (scanFileBlocks_tiles hnumbered)
    (messages_scanFileBlocks hnumbered)
  constructor
  · have hle := Run.length_le (work (scanFileBlocks matcher blocks) n)
      (fun s e s' (hs : Control (scanFileBlocks matcher blocks) n s) hstep =>
        ⟨hs.step (step_cases hstep).2, work_lt hlength hs (step_cases hstep).2⟩) hcontrol₀ hrun
    omega
  · intro hstuck
    obtain ⟨hcontrol, houtput⟩ := Run.invariant
      (fun s e s' (hs : Control (scanFileBlocks matcher blocks) n s ∧
          Output options (scanFileBlocks matcher blocks) _ _ s) hstep =>
        ⟨hs.1.step (step_cases hstep).2,
          hs.2.step honly hlength hs.1 (step_cases hstep).1 (step_cases hstep).2⟩)
      ⟨hcontrol₀, houtput₀⟩ hrun
    cases hstatus : s.status with
    | none =>
        obtain ⟨hsettled, hstreaming⟩ := houtput.running hstatus
        rw [outstanding_of_stuck hn hcontrol hstatus hstuck] at hstreaming
        obtain ⟨hpending, hprinting⟩ := hstreaming.eq_nil hsettled
        refine ⟨?_, fun _ => hpending⟩
        rw [hprinting.stdout, List.take_of_length_le (Nat.le_of_lt hprinting.below)]
    | some status =>
        obtain ⟨-, hlimit⟩ := houtput.stopped status hstatus
        exact ⟨hlimit.stdout, fun hlt => absurd hlimit.le (Nat.not_le.mpr hlt)⟩

end Runs

section Examples

def matchAll : Matcher := ⟨fun _ => true, fun _ => true⟩

def noLimit : OutputOptions := ⟨false, none, fun _ h => by cases h⟩

def oneChunk : List Turn :=
  [.main, .worker 0, .main, .worker 0, .main, .worker 0, .main, .main]

def oneChunkEnd (stdout : List Line) (limitLeft : ℤ) : LinearScan where
  mainThread := .joining 1
  done := true
  workers := [{ exited := true }]
  serializer := { nextSeq := 2 ^ 32 }
  console := ⟨stdout, limitLeft⟩

theorem scanFileBlocks_single {s : Str} (h : 0 ∉ s) :
    scanFileBlocks matchAll [s] = [[⟨0, 2 ^ 32, s⟩]] := by
  rw [scanFileBlocks, List.zipIdx_singleton, List.map_singleton, scanFileBlock,
    splitNul_append_nul h]
  simp [scanFilenames, testCandidate, matchAll]

theorem matchingFilenames_single {s : Str} (h : 0 ∉ s) : matchingFilenames matchAll [s] = [s] := by
  rw [matchingFilenames, List.flatMap_singleton, splitNul_append_nul h]
  rfl

theorem step_oneChunkEnd (scanned : List (List Result)) (stdout : List Line) (limitLeft : ℤ)
    (turn : Turn) : step noLimit scanned (oneChunkEnd stdout limitLeft) turn = none := by
  rcases turn with _ | _ | i
  · rfl
  · rfl
  · rfl

/-- The filenames of 33 blocks; the last is a chunk of its own. -/
def secondChunk : List Str := List.replicate 32 (ascii "a") ++ [ascii "b"]

theorem scanFileBlocks_secondChunk :
    scanFileBlocks matchAll secondChunk =
      secondChunk.zipIdx.map fun block => [⟨block.2 * 2 ^ 32, 2 ^ 32, block.1⟩] := by
  refine List.map_congr_left fun block hmem => ?_
  have hname : block.1 = ascii "a" ∨ block.1 = ascii "b" := by
    have h := List.fst_mem_of_mem_zipIdx hmem
    rw [secondChunk, List.mem_append, List.mem_singleton] at h
    exact h.imp_left List.eq_of_mem_replicate
  rcases hname with h | h
  all_goals
    rw [scanFileBlock, h, splitNul_append_nul (by decide)]
    simp only [scanFilenames, testCandidate, matchAll, if_true]
    rw [Nat.succ_mul, Nat.add_sub_cancel_left]

/-- The second worker has printed its block, and the main thread fetched it, before the first
prints any. -/
def lateChunk : List Turn :=
  [.main, .worker 0, .main, .main, .worker 1, .worker 1, .main, .main, .main] ++
    List.replicate 33 (.worker 0) ++ List.replicate 33 .main ++ [.worker 1, .main]

def lateChunkEnd : LinearScan where
  mainThread := .joining 2
  done := true
  workers := [{ exited := true }, { exited := true }]
  serializer := { nextSeq := 33 * 2 ^ 32 }
  console := ⟨secondChunk.map .filename, 2 ^ 63 - 34⟩

theorem step_lateChunkEnd (scanned : List (List Result)) (turn : Turn) :
    step noLimit scanned lateChunkEnd turn = none := by
  rcases turn with _ | _ | _ | i
  all_goals rfl

theorem output_inOrder_lateChunk :
    lateChunkEnd.console.stdout =
      ((matchingFilenames matchAll secondChunk).take noLimit.limitMatches).map .filename := by
  have hnumbered : Numbered matchAll secondChunk := by
    have hsplit : ∀ s ∈ secondChunk, splitNul (s ++ [0]) = [s] := by
      intro s hs
      refine splitNul_append_nul ?_
      revert s
      decide
    refine ⟨fun s hs => ?_, fun s hs => ?_⟩
    all_goals
      rw [hsplit s hs]
      revert s
      decide
  have hrun : Run.run (step noLimit (scanFileBlocks matchAll secondChunk)) (start noLimit 2)
      lateChunk = some lateChunkEnd := by
    rw [scanFileBlocks_secondChunk]
    decide +kernel
  have hblocks : secondChunk.length + 32 ≤ 2 ^ 32 := by decide
  obtain ⟨-, hend⟩ := output_inOrder rfl hnumbered hblocks Nat.two_pos hrun
  exact (hend (step_lateChunkEnd _)).1

/-- An empty filename is taken for no match. -/
theorem not_output_inOrder_emptyFilename : ∃ s,
    Run.run (step noLimit (scanFileBlocks matchAll [[]])) (start noLimit 1) oneChunk = some s ∧
      (∀ turn, step noLimit (scanFileBlocks matchAll [[]]) s turn = none) ∧
      s.console.stdout ≠
        ((matchingFilenames matchAll [[]]).take noLimit.limitMatches).map .filename := by
  have hname : (0 : UInt8) ∉ ([] : Str) := List.not_mem_nil
  rw [scanFileBlocks_single hname, matchingFilenames_single hname]
  exact ⟨oneChunkEnd [] (2 ^ 63 - 1), by decide +kernel, step_oneChunkEnd _ _ _, by decide⟩

end Examples

end LinearScan

end Flocate
