import Flocate.DatabaseSearch
import Flocate.Output

/-!
# Searching several databases

The loop of `main` over the databases: all but the last are searched in forked children, which
report their count through a pipe. `Serializer` prints the matches of a database in order.
-/

namespace Flocate

open Bytes

namespace Process

variable (options : OutputOptions)

/-- `do_search_file` from the end of its lookups on. -/
def doSearchFile (inForkedChild : Bool) : SearchResult → Process ℕ
  | .missingGroup => do
      if inForkedChild then
        return 0
      if options.onlyCount then
        putLine (.count 0)
      throw 1
  | .found filenames => do
      forM filenames (print options)
      return filenames.length

/-- The parent waits for the child and then reads the count. A child that has exited has not
written it, which the parent calls a short read. -/
def doSearchFileInChild (result : SearchResult) : Process ℕ := fun console =>
  let (ended, child) := doSearchFile options true result console
  let console := { console with stdout := child.stdout }
  match ended with
  | .ok matched => (.ok matched, console)
  | .error status => (.error (if status ≠ 0 then status else 1), console)

/-- The loop over the databases; `matched` are the matches so far. -/
def searchDatabases (matched : ℕ) : List SearchResult → Process ℕ
  | [] => return matched
  | result :: results => do
      let thisMatched ←
        (if results ≠ [] then doSearchFileInChild options result
          else doSearchFile options false result)
      modify fun console => { console with limitLeft := console.limitLeft - thisMatched }
      searchDatabases (matched + thisMatched) results

end Process

def allFilenames (results : List SearchResult) : List Str := results.flatMap (·.filenames)

structure Exit where
  stdout : List Line
  status : ℕ
deriving DecidableEq

/-- `main` from its loop on, by what the databases' searches find. -/
def flocate (options : OutputOptions) (results : List SearchResult) : Exit :=
  match Process.searchDatabases options 0 results ⟨[], options.limitMatches⟩ with
  | (.error status, console) => ⟨console.stdout, status⟩
  | (.ok matched, console) =>
      ⟨console.stdout ++ if options.onlyCount then [.count matched] else [],
        if matched = 0 then 1 else 0⟩

namespace Process

variable {options : OutputOptions}

/-- The matches are printed until the limit ends the process. -/
theorem forM_print_apply {filenames : List Str} (hne : ∀ s ∈ filenames, s ≠ []) {l : ℕ} (hl : 0 < l)
    (out : List Line) :
    forM filenames (print options) ⟨out, l⟩ =
      if filenames.length < l then
        (.ok (), ⟨out ++ printed options filenames, (l - filenames.length : ℕ)⟩)
      else (.error 0, ⟨out ++ printed options (filenames.take l) ++
        printedCount options options.limitMatches, 0⟩) := by
  induction filenames generalizing l out with
  | nil =>
      rw [List.length_nil, if_pos hl, printed_nil, List.append_nil]
      rfl
  | cons s filenames ih =>
      rw [List.forall_mem_cons] at hne
      rw [List.forM_cons, bind_apply, print_apply hne.1, applyLimit_apply]
      obtain ⟨l, rfl⟩ := Nat.exists_eq_add_of_lt hl
      rw [Nat.zero_add]
      by_cases hlast : l = 0
      · subst hlast
        rw [if_neg (by simp), if_neg (by simp)]
        rfl
      · have hlimit : ((l + 1 : ℕ) : ℤ) - 1 = l := by omega
        have hsplit (xs : List Str) : printed options [s] ++ printed options xs =
            printed options (s :: xs) := (printed_append [s] xs).symm
        rw [if_pos (by simp; omega), hlimit]
        simp only [ih hne.2 (Nat.pos_of_ne_zero hlast), List.length_cons, Nat.add_lt_add_iff_right,
          List.take_succ_cons, List.append_assoc, Nat.add_sub_add_right, ← hsplit filenames,
          ← hsplit (filenames.take l)]

theorem doSearchFile_found {filenames : List Str} (hne : ∀ s ∈ filenames, s ≠ []) {l : ℕ}
    (hl : 0 < l) (out : List Line) (inForkedChild : Bool) :
    doSearchFile options inForkedChild (.found filenames) ⟨out, l⟩ =
      if filenames.length < l then
        (.ok filenames.length, ⟨out ++ printed options filenames, (l - filenames.length : ℕ)⟩)
      else (.error 0, ⟨out ++ printed options (filenames.take l) ++
        printedCount options options.limitMatches, 0⟩) := by
  rw [doSearchFile, bind_apply, forM_print_apply hne hl]
  split_ifs <;> rfl

/-- A child whose matches exhaust the limit costs the parent its exit status. -/
theorem doSearchFileInChild_apply {result : SearchResult} (hne : ∀ s ∈ result.filenames, s ≠ [])
    {l : ℕ} (hl : 0 < l) (out : List Line) :
    doSearchFileInChild options result ⟨out, l⟩ =
      if result.filenames.length < l then
        (.ok result.filenames.length, ⟨out ++ printed options result.filenames, l⟩)
      else (.error 1, ⟨out ++ printed options (result.filenames.take l) ++
        printedCount options options.limitMatches, l⟩) := by
  cases result with
  | missingGroup =>
      rw [SearchResult.filenames, List.length_nil, if_pos hl, printed_nil, List.append_nil]
      rfl
  | found filenames =>
      rw [SearchResult.filenames] at hne ⊢
      rw [doSearchFileInChild, doSearchFile_found hne hl]
      split_ifs <;> rfl

/-- The databases before the last one. -/
theorem searchDatabases_append {results : List SearchResult} (last : SearchResult)
    (hne : ∀ s ∈ allFilenames results, s ≠ []) {l : ℕ} (hl : 0 < l) (matched : ℕ)
    (out : List Line) :
    (¬(allFilenames results).length < l → ∃ console,
      searchDatabases options matched (results ++ [last]) ⟨out, l⟩ = (.error 1, console)) ∧
    ((allFilenames results).length < l →
      searchDatabases options matched (results ++ [last]) ⟨out, l⟩ =
        searchDatabases options (matched + (allFilenames results).length) [last]
          ⟨out ++ printed options (allFilenames results),
            (l - (allFilenames results).length : ℕ)⟩) := by
  induction results generalizing matched out l with
  | nil =>
      refine ⟨fun h => absurd hl h, fun _ => ?_⟩
      rw [allFilenames, List.flatMap_nil, printed_nil, List.append_nil]
      rfl
  | cons result results ih =>
      have hcons : allFilenames (result :: results) = result.filenames ++ allFilenames results :=
        List.flatMap_cons
      rw [hcons] at hne ⊢
      rw [List.forall_mem_append] at hne
      have happend : results ++ [last] ≠ [] := List.append_ne_nil_of_right_ne_nil _ (by simp)
      rw [List.cons_append, searchDatabases, bind_apply, if_pos happend,
        doSearchFileInChild_apply hne.1 hl, List.length_append, printed_append]
      by_cases hlt : result.filenames.length < l
      · have hleft : (l : ℤ) - result.filenames.length =
            ((l - result.filenames.length : ℕ) : ℤ) := by omega
        obtain ⟨ihFull, ihLeft⟩ := ih hne.2 (l := l - result.filenames.length) (by omega)
          (matched + result.filenames.length) (out ++ printed options result.filenames)
        rw [if_pos hlt]
        simp only [bind_apply, modify_apply, hleft]
        constructor
        · exact fun h => ihFull (by omega)
        · intro h
          rw [ihLeft (by omega), Nat.add_assoc, List.append_assoc, Nat.sub_sub]
      · rw [if_neg hlt]
        exact ⟨fun _ => ⟨_, rfl⟩, fun h => absurd h (by omega)⟩

theorem searchDatabases_found (options : OutputOptions) {filenames : List Str}
    (hne : ∀ s ∈ filenames, s ≠ []) {l : ℕ} (hl : 0 < l) (matched : ℕ) (out : List Line) :
    ∃ left, searchDatabases options matched [.found filenames] ⟨out, l⟩ =
      if filenames.length < l then
        (.ok (matched + filenames.length), ⟨out ++ printed options filenames, left⟩)
      else (.error 0, ⟨out ++ printed options (filenames.take l) ++
        printedCount options options.limitMatches, left⟩) := by
  rw [searchDatabases, bind_apply, if_neg (by simp), doSearchFile_found hne hl]
  split_ifs
  · exact ⟨_, rfl⟩
  · exact ⟨_, rfl⟩

theorem searchDatabases_missingGroup (matched : ℕ) (console : Console) :
    searchDatabases options matched [.missingGroup] console =
      (.error 1, { console with stdout := console.stdout ++ printedCount options 0 }) := by
  rw [searchDatabases, bind_apply, if_neg (by simp), doSearchFile]
  cases hc : options.onlyCount <;> simp [printedCount, hc]

end Process

section Compose

open Process

variable {options : OutputOptions}

def OutputOptions.firstMatches (options : OutputOptions) (filenames : List Str) : List Str :=
  match options.limit with
  | none => filenames
  | some l => filenames.take l

/-- The search of several databases prints what is found in them one after the other. -/
structure Composes (options : OutputOptions) (filenames : List Str) (exit : Exit) : Prop where
  lines : options.onlyCount = false →
    exit.stdout = (options.firstMatches filenames).map .filename
  count : options.onlyCount = true →
    exit.stdout = [.count (options.firstMatches filenames).length]
  status : exit.status = if filenames = [] then 1 else 0

theorem composes_iff_eq {filenames : List Str} {exit : Exit} :
    Composes options filenames exit ↔
      exit.stdout = printed options (options.firstMatches filenames) ++
        printedCount options (options.firstMatches filenames).length ∧
      exit.status = if filenames = [] then 1 else 0 := by
  constructor
  · rintro ⟨hlines, hcount, hstatus⟩
    refine ⟨?_, hstatus⟩
    cases hc : options.onlyCount with
    | false => simp [printed, printedCount, hc, hlines hc]
    | true => simp [printed, printedCount, hc, hcount hc]
  · rintro ⟨hstdout, hstatus⟩
    refine ⟨fun hc => ?_, fun hc => ?_, hstatus⟩
    all_goals simpa [printed, printedCount, hc] using hstdout

/-- Without a limit the counter of matches stands in for it. -/
def FitsCounter (options : OutputOptions) (filenames : List Str) : Prop :=
  options.limit = none → filenames.length < 2 ^ 63

theorem firstMatches_of_lt {filenames : List Str} (h : filenames.length < options.limitMatches) :
    options.firstMatches filenames = filenames := by
  rw [OutputOptions.limitMatches] at h
  rw [OutputOptions.firstMatches]
  cases hl : options.limit with
  | none => rfl
  | some l =>
      rw [hl] at h
      exact List.take_of_length_le (Nat.le_of_lt h)

theorem fitsCounter_of_lt {filenames : List Str} (h : filenames.length < options.limitMatches) :
    FitsCounter options filenames := by
  intro hnone
  rw [OutputOptions.limitMatches, hnone] at h
  exact h.trans (by decide)

theorem firstMatches_eq_take_iff {filenames : List Str} :
    options.firstMatches filenames = filenames.take options.limitMatches ↔
      FitsCounter options filenames := by
  rw [OutputOptions.firstMatches, OutputOptions.limitMatches, FitsCounter]
  cases options.limit with
  | some l => simp
  | none =>
      rw [Option.getD_none]
      constructor
      · intro h _
        have hlen := congrArg List.length h
        rw [List.length_take] at hlen
        exact Nat.lt_of_le_of_lt (hlen.le.trans (Nat.min_le_left _ _)) (by decide)
      · exact fun h => (List.take_of_length_le (Nat.le_sub_one_of_lt (h rfl))).symm

theorem fitsCounter_of_length {filenames : List Str}
    (h : (options.firstMatches filenames).length = options.limitMatches) :
    FitsCounter options filenames := by
  intro hnone
  rw [OutputOptions.firstMatches, OutputOptions.limitMatches, hnone] at h
  change filenames.length = 2 ^ 63 - 1 at h
  omega

/-- The run that the limit ends in the last database. -/
theorem composes_limit_iff {filenames : List Str} (h : options.limitMatches ≤ filenames.length) :
    Composes options filenames ⟨printed options (filenames.take options.limitMatches) ++
      printedCount options options.limitMatches, 0⟩ ↔ FitsCounter options filenames := by
  have hne : filenames ≠ [] := by
    rintro rfl
    exact absurd (limitMatches_pos options) (Nat.not_lt.mpr h)
  rw [composes_iff_eq, if_neg hne]
  constructor
  · rintro ⟨hstdout, -⟩
    cases hc : options.onlyCount with
    | false =>
        simp only [printed, printedCount, hc, Bool.false_eq_true, if_false,
          List.append_nil] at hstdout
        have hinj : Function.Injective Line.filename := fun _ _ => Line.filename.inj
        exact firstMatches_eq_take_iff.mp (hinj.list_map hstdout).symm
    | true =>
        simp only [printed, printedCount, hc, if_true, List.nil_append, List.cons.injEq,
          Line.count.injEq, and_true] at hstdout
        exact fitsCounter_of_length (Int.ofNat_inj.mp hstdout.symm)
  · intro hcount
    rw [firstMatches_eq_take_iff.mpr hcount, List.length_take_of_le h]
    exact ⟨rfl, rfl⟩

variable {results : List SearchResult}

theorem flocate_before_exhausted {last : SearchResult}
    (hne : ∀ s ∈ allFilenames results, s ≠ [])
    (h : ¬(allFilenames results).length < options.limitMatches) :
    (flocate options (results ++ [last])).status = 1 := by
  obtain ⟨console, heq⟩ :=
    (searchDatabases_append last hne (limitMatches_pos options) 0 []).1 h
  rw [flocate, heq]

theorem flocate_missingGroup (hne : ∀ s ∈ allFilenames results, s ≠ [])
    (h : (allFilenames results).length < options.limitMatches) :
    flocate options (results ++ [.missingGroup]) =
      ⟨printed options (allFilenames results) ++ printedCount options 0, 1⟩ := by
  rw [flocate, (searchDatabases_append _ hne (limitMatches_pos options) 0 []).2 h,
    searchDatabases_missingGroup]
  rfl

theorem flocate_found {filenames : List Str}
    (hne : ∀ s ∈ allFilenames (results ++ [.found filenames]), s ≠ [])
    (h : (allFilenames results).length < options.limitMatches) :
    flocate options (results ++ [.found filenames]) =
      let all := allFilenames (results ++ [.found filenames])
      if all.length < options.limitMatches then
        ⟨printed options all ++ printedCount options all.length, if all = [] then 1 else 0⟩
      else ⟨printed options (all.take options.limitMatches) ++
        printedCount options options.limitMatches, 0⟩ := by
  have hall : allFilenames (results ++ [.found filenames]) =
      allFilenames results ++ filenames := by
    rw [allFilenames, List.flatMap_append, List.flatMap_singleton]
    rfl
  rw [hall] at hne ⊢
  rw [List.forall_mem_append] at hne
  obtain ⟨left, hlast⟩ := searchDatabases_found options hne.2 (Nat.sub_pos_of_lt h)
    (0 + (allFilenames results).length)
    ([] ++ printed options (allFilenames results))
  rw [flocate, (searchDatabases_append _ hne.1 (limitMatches_pos options) 0 []).2 h, hlast]
  have hlt : filenames.length < options.limitMatches - (allFilenames results).length ↔
      (allFilenames results ++ filenames).length < options.limitMatches := by
    rw [List.length_append]
    omega
  by_cases hfull : (allFilenames results ++ filenames).length < options.limitMatches
  · have hlen : 0 + (allFilenames results).length + filenames.length =
        (allFilenames results ++ filenames).length := by
      rw [Nat.zero_add, List.length_append]
    rw [if_pos (hlt.mpr hfull)]
    dsimp only
    rw [if_pos hfull, hlen, printed_append, List.nil_append]
    simp only [List.length_eq_zero_iff]
    rfl
  · have htake : (allFilenames results ++ filenames).take options.limitMatches =
        allFilenames results ++
          filenames.take (options.limitMatches - (allFilenames results).length) := by
      rw [List.take_append, List.take_of_length_le (Nat.le_of_lt h)]
    rw [if_neg (fun hlt' => hfull (hlt.mp hlt'))]
    dsimp only
    rw [if_neg hfull, htake, printed_append, List.nil_append]

variable {query : Query} {rootAccessible : Bool} {databases : List Corpus}

theorem allFilenames_ne_nil (hwf : ∀ corpus ∈ databases, corpus.WellFormed)
    (h : List.Forall₂ (query.Search rootAccessible) databases results) :
    ∀ s ∈ allFilenames results, s ≠ [] := by
  induction h with
  | nil => exact fun s hs => absurd hs List.not_mem_nil
  | cons hsearch _ ih =>
      rw [List.forall_mem_cons] at hwf
      intro s hs
      rw [allFilenames, List.flatMap_cons] at hs
      rcases List.mem_append.mp hs with hs | hs
      · exact hsearch.ne_nil hwf.1 s hs
      · exact ih hwf.2 s hs

/-- Searching several databases composes if and only if the limit is not reached before the last
database, and nothing is found before it if it lacks a whole group of trigrams. -/
theorem composes_iff {last : Corpus} (hwf : ∀ corpus ∈ databases ++ [last], corpus.WellFormed)
    {lastResult : SearchResult}
    (hdatabases : List.Forall₂ (query.Search rootAccessible) databases results)
    (hlast : query.Search rootAccessible last lastResult) :
    Composes options (allFilenames (results ++ [lastResult]))
        (flocate options (results ++ [lastResult])) ↔
      (allFilenames results).length < options.limitMatches ∧
        (allFilenames results = [] ∨ ¬(rootAccessible = true ∧ query.MissesGroup last)) ∧
        FitsCounter options (allFilenames (results ++ [lastResult])) := by
  rw [List.forall_mem_append, List.forall_mem_singleton] at hwf
  have hall : allFilenames (results ++ [lastResult]) =
      allFilenames results ++ lastResult.filenames := by
    rw [allFilenames, List.flatMap_append, List.flatMap_singleton]
    rfl
  have hne := allFilenames_ne_nil hwf.1 hdatabases
  have hmiss := hlast.eq_missingGroup_iff hwf.2
  by_cases hleft : (allFilenames results).length < options.limitMatches
  · rw [and_iff_right hleft, ← hmiss]
    cases lastResult with
    | missingGroup =>
        rw [hall, SearchResult.filenames, List.append_nil, flocate_missingGroup hne hleft,
          composes_iff_eq]
        by_cases hnil : allFilenames results = []
        · rw [firstMatches_of_lt hleft, hnil]
          exact ⟨fun _ => ⟨Or.inl rfl, hnil ▸ fitsCounter_of_lt hleft⟩, fun _ => ⟨rfl, rfl⟩⟩
        · rw [if_neg hnil]
          constructor
          · rintro ⟨-, hstatus⟩
            cases hstatus
          · rintro ⟨h | h, -⟩
            · exact absurd h hnil
            · exact absurd rfl h
    | found filenames =>
        have hne' : ∀ s ∈ allFilenames (results ++ [.found filenames]), s ≠ [] := by
          rw [hall, List.forall_mem_append]
          exact ⟨hne, hlast.ne_nil hwf.2⟩
        rw [flocate_found hne' hleft, and_iff_right (Or.inr (by simp))]
        dsimp only
        split
        · rename_i hfull
          rw [composes_iff_eq, firstMatches_of_lt hfull]
          exact ⟨fun _ => fitsCounter_of_lt hfull, fun _ => ⟨rfl, rfl⟩⟩
        · rename_i hfull
          exact composes_limit_iff (Nat.not_lt.mp hfull)
  · have hlen := limitMatches_pos options
    have hnil : allFilenames (results ++ [lastResult]) ≠ [] := by
      rw [← List.length_pos_iff, hall, List.length_append]
      omega
    refine ⟨fun h => ?_, fun h => absurd h.1 hleft⟩
    have hstatus := h.status
    rw [flocate_before_exhausted hne hleft, if_neg hnil] at hstatus
    exact absurd hstatus Nat.one_ne_zero

end Compose

def singleName : Corpus := ⟨[['/'.toUInt8, 'a'.toUInt8]], fun _ => none, fun _ => []⟩

def everything : Query := ⟨false, [], fun _ h => absurd h List.not_mem_nil, fun _ => true⟩

def withLimit (l : ℕ) (h : 0 < l) : OutputOptions where
  onlyCount := false
  limit := some l
  limit_pos _ hl := Option.some.inj hl ▸ h

theorem splitNul_singleName : splitNul (['/'.toUInt8, 'a'.toUInt8] ++ [0]) =
    [['/'.toUInt8, 'a'.toUInt8]] :=
  splitNul_append_nul (by decide)

theorem singleName_wellFormed : singleName.WellFormed where
  trgm _ _ h := by cases h
  nonempty block hblock := by
    rw [List.mem_singleton.mp hblock, splitNul_singleName]
    decide

theorem search_singleName :
    everything.Search true singleName (.found [['/'.toUInt8, 'a'.toUInt8]]) := by
  have hscan : everything.scanAllDocids singleName = [['/'.toUInt8, 'a'.toUInt8]] := by
    rw [Query.scanAllDocids, singleName, List.flatMap_singleton, Query.scanFileBlock,
      splitNul_singleName]
    rfl
  exact hscan ▸ .bruteForce rfl rfl

theorem composes_twoDatabases : Composes (withLimit 2 Nat.two_pos)
    (allFilenames [.found [['/'.toUInt8, 'a'.toUInt8]], .found [['/'.toUInt8, 'a'.toUInt8]]])
    (flocate (withLimit 2 Nat.two_pos)
      [.found [['/'.toUInt8, 'a'.toUInt8]], .found [['/'.toUInt8, 'a'.toUInt8]]]) := by
  have hwf : ∀ corpus ∈ [singleName] ++ [singleName], corpus.WellFormed := by
    simpa using singleName_wellFormed
  refine (composes_iff hwf (.cons search_singleName .nil) search_singleName).mpr ⟨?_, ?_, ?_⟩
  · decide
  · exact Or.inr (by decide)
  · exact fun h => by cases h

/-- A limit of one match that the first of two databases has exhausts it in a child. -/
theorem not_composes_limit : ∃ results last,
    List.Forall₂ (everything.Search true) [singleName] results ∧
      everything.Search true singleName last ∧
      ¬Composes (withLimit 1 Nat.one_pos) (allFilenames (results ++ [last]))
        (flocate (withLimit 1 Nat.one_pos) (results ++ [last])) := by
  refine ⟨_, _, .cons search_singleName .nil, search_singleName, fun h => ?_⟩
  exact absurd h.status (by decide)

end Flocate
