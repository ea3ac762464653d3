import Flocate.ConfBlock

/-!
# Reading the configuration block

`flocate-showdiff` takes the pruning settings of a database from its configuration block, where an
empty string ends a list of values. A path of the command line may be empty, and then it ends the
list that it is in.
-/

namespace Flocate

open Bytes

structure PruneConfig where
  pruneBindMounts : Bool := false
  prunefs : List Str := []
  prunenames : List Str := []
  prunepaths : List Str := []
deriving DecidableEq

namespace ParseConfBlock

def strnlen (p : Str) : ℕ := (p.takeWhile (· ≠ 0)).length

def next (p : Str) : Option (Str × Str) :=
  if p = [] then none
  else if p.length ≤ strnlen p then none
  else some (p.take (strnlen p), p.drop (strnlen p + 1))

theorem length_lt_of_next {p s rest : Str} (h : next p = some (s, rest)) :
    rest.length < p.length := by
  rw [next] at h
  split_ifs at h with hnil hlen
  obtain ⟨-, rfl⟩ := Prod.mk.inj (Option.some.inj h)
  rw [List.length_drop]
  omega

/-- The values up to an empty one, and what is behind it. -/
def readValues (p : Str) : List Str × Str :=
  match _ : next p with
  | none => ([], p)
  | some (value, rest) =>
      if value = [] then ([], rest)
      else (value :: (readValues rest).1, (readValues rest).2)
termination_by p.length
decreasing_by all_goals exact length_lt_of_next (by assumption)

theorem readValues_none {p : Str} (h : next p = none) : readValues p = ([], p) := by
  rw [readValues]
  split
  · rfl
  · rename_i h'
    exact absurd (h.symm.trans h') (by simp)

theorem readValues_next {p value rest : Str} (h : next p = some (value, rest)) :
    readValues p = if value = [] then ([], rest)
      else (value :: (readValues rest).1, (readValues rest).2) := by
  rw [readValues]
  split
  · rename_i h'
    exact absurd (h.symm.trans h') (by simp)
  · rename_i h'
    obtain ⟨rfl, rfl⟩ := Prod.mk.inj (Option.some.inj (h.symm.trans h'))
    rfl

theorem length_readValues_le (p : Str) : (readValues p).2.length ≤ p.length := by
  induction p using readValues.induct with
  | case1 p h => rw [readValues_none h]
  | case2 p rest h =>
      rw [readValues_next h, if_pos rfl]
      exact (length_lt_of_next h).le
  | case3 p value rest h hne ih =>
      rw [readValues_next h, if_neg hne]
      exact ih.trans (length_lt_of_next h).le

end ParseConfBlock

/-- What `parse_conf_block` does with a key; others are skipped. -/
def PruneConfig.set (prune : PruneConfig) (key : Str) (values : List Str) : PruneConfig :=
  if key = ascii "prune_bind_mounts" then
    { prune with pruneBindMounts := values.head? = some (ascii "1") }
  else if key = ascii "prunefs" then { prune with prunefs := values.map (·.map toupper) }
  else if key = ascii "prunenames" then { prune with prunenames := values }
  else if key = ascii "prunepaths" then { prune with prunepaths := values }
  else prune

open ParseConfBlock in
def parseConfBlock (p : Str) (prune : PruneConfig) : PruneConfig :=
  match _ : next p with
  | none => prune
  | some (key, rest) =>
      parseConfBlock (readValues rest).2 (prune.set key (readValues rest).1)
termination_by p.length
decreasing_by exact (length_readValues_le rest).trans_lt (length_lt_of_next (by assumption))

def Conf.pruneConfig (conf : Conf) : PruneConfig where
  pruneBindMounts := conf.pruneBindMounts
  prunefs := conf.prunefs
  prunenames := conf.prunenames
  prunepaths := conf.prunepaths

section Terminated

open ParseConfBlock

variable {s : Str} {ss vs : List Str}

theorem next_terminateNul (hs : 0 ∉ s) :
    next (terminateNul (s :: ss)) = some (s, terminateNul ss) := by
  have hcons : terminateNul (s :: ss) = s ++ 0 :: terminateNul ss := by simp [terminateNul]
  have hlen : strnlen (s ++ 0 :: terminateNul ss) = s.length := by
    rw [strnlen, takeWhile_append_nul hs]
  rw [hcons, next, if_neg (by simp), hlen, if_neg (by simp), List.take_left]
  simp

/-- Values that are not empty are read up to the empty string behind them. -/
theorem readValues_terminateNul (hvs : ∀ v ∈ vs, IsName v) :
    readValues (terminateNul (vs ++ [] :: ss)) = (vs, terminateNul ss) := by
  induction vs with
  | nil => rw [List.nil_append, readValues_next (next_terminateNul List.not_mem_nil), if_pos rfl]
  | cons v vs ih =>
      rw [List.forall_mem_cons] at hvs
      rw [List.cons_append, readValues_next (next_terminateNul hvs.1.nul_free),
        if_neg hvs.1.ne_nil, ih hvs.2]

theorem parseConfBlock_nil (prune : PruneConfig) : parseConfBlock [] prune = prune := by
  rw [parseConfBlock]
  rfl

theorem parseConfBlock_next {p key rest : Str} (h : next p = some (key, rest))
    (prune : PruneConfig) :
    parseConfBlock p prune =
      parseConfBlock (readValues rest).2 (prune.set key (readValues rest).1) := by
  rw [parseConfBlock]
  split
  · rename_i h'
    exact absurd (h.symm.trans h') (by simp)
  · rename_i h'
    obtain ⟨rfl, rfl⟩ := Prod.mk.inj (Option.some.inj (h.symm.trans h'))
    rfl

/-- One key with its values. -/
theorem parseConfBlock_cons {key : Str} (hkey : 0 ∉ key) (hvs : ∀ v ∈ vs, IsName v)
    (prune : PruneConfig) :
    parseConfBlock (terminateNul (key :: (vs ++ [] :: ss))) prune =
      parseConfBlock (terminateNul ss) (prune.set key vs) := by
  rw [parseConfBlock_next (next_terminateNul hkey), readValues_terminateNul hvs]

/-- One key with its only value. -/
theorem parseConfBlock_single {key v : Str} (hkey : 0 ∉ key) (hv : IsName v)
    (prune : PruneConfig) :
    parseConfBlock (terminateNul (key :: v :: [] :: ss)) prune =
      parseConfBlock (terminateNul ss) (prune.set key [v]) :=
  parseConfBlock_cons hkey (List.forall_mem_singleton.mpr hv) prune

theorem nil_not_mem_readValues (p : Str) : [] ∉ (readValues p).1 := by
  induction p using readValues.induct with
  | case1 p h =>
      rw [readValues_none h]
      exact List.not_mem_nil
  | case2 p rest h =>
      rw [readValues_next h, if_pos rfl]
      exact List.not_mem_nil
  | case3 p value rest h hne ih =>
      rw [readValues_next h, if_neg hne, List.mem_cons, not_or]
      exact ⟨Ne.symm hne, ih⟩

/-- No path that is read is empty. -/
theorem nil_not_mem_parseConfBlock (p : Str) (prune : PruneConfig) (h : [] ∉ prune.prunepaths) :
    [] ∉ (parseConfBlock p prune).prunepaths := by
  induction p, prune using parseConfBlock.induct with
  | case1 p prune hnext =>
      rw [parseConfBlock]
      split
      · exact h
      · rename_i h'
        exact absurd (hnext.symm.trans h') (by simp)
  | case2 p prune key rest hnext ih =>
      rw [parseConfBlock_next hnext]
      refine ih ?_
      unfold PruneConfig.set
      split_ifs
      · exact h
      · exact h
      · exact h
      · exact nil_not_mem_readValues rest
      · exact h

end Terminated

section Prepared

theorem toupper_toupper (c : UInt8) : toupper (toupper c) = toupper c := by
  by_cases hlower : (97 ≤ c && c ≤ 122) = true
  · have hupper : toupper c = c - 32 := if_pos hlower
    have hnot : ¬(97 ≤ c - 32 && c - 32 ≤ 122) = true := by
      simp only [Bool.and_eq_true, decide_eq_true_eq, UInt8.le_iff_toNat_le] at hlower ⊢
      have hle : (32 : UInt8) ≤ c := UInt8.le_iff_toNat_le.mpr (Nat.le_trans (by decide) hlower.1)
      rw [UInt8.toNat_sub_of_le _ _ hle]
      have h97 : (97 : UInt8).toNat = 97 := rfl
      have h122 : (122 : UInt8).toNat = 122 := rfl
      have h32 : (32 : UInt8).toNat = 32 := rfl
      omega
    rw [hupper, toupper, if_neg hnot]
  · have hsame : toupper c = c := if_neg hlower
    rw [hsame, hsame]

/-- File systems are in upper case after `conf_prepare`. -/
theorem Conf.map_toupper_finish (conf : Conf) :
    conf.finish.prunefs.map (·.map toupper) = conf.finish.prunefs := by
  refine (List.map_congr_left fun s hs => ?_).trans (List.map_id _)
  obtain ⟨name, -, rfl⟩ := List.mem_map.mp (UniqueSort.mem_of_mem_uniqueSort id hs)
  rw [List.map_map]
  exact List.map_congr_left fun c _ => toupper_toupper c

theorem decimal_ne_nil (n : ℕ) : decimal n ≠ [] := by
  intro h
  have hvalue := ofDigits_decimal (n := n)
  rw [h, List.reverse_nil, List.map_nil, Nat.ofDigits_nil] at hvalue
  rw [← hvalue] at h
  exact absurd h (by decide)

theorem metadataHashKindToString_ne_nil (kind : MetadataHashKind) :
    metadataHashKindToString kind ≠ [] := by
  cases kind
  all_goals exact List.cons_ne_nil _ _

/-- A configuration without an empty path is read as it was written. -/
theorem Conf.Wf.parseConfBlock_genConfBlock {conf : Conf} (hwf : conf.Wf)
    (hupper : conf.prunefs.map (·.map toupper) = conf.prunefs) (hpaths : [] ∉ conf.prunepaths) :
    parseConfBlock conf.genConfBlock {} = conf.pruneConfig := by
  have hflag : IsName [if conf.pruneBindMounts then (49 : UInt8) else 48] := by
    refine ⟨List.cons_ne_nil _ _, ?_⟩
    split
    all_goals decide
  have hnames : ∀ s ∈ conf.prunepaths, IsName s := fun s hs =>
    ⟨fun hnil => hpaths (hnil ▸ hs), hwf.prunepaths s hs⟩
  have hkind : IsName (metadataHashKindToString conf.metadataHashKind) :=
    ⟨metadataHashKindToString_ne_nil _, zero_not_mem_metadataHashKindToString _⟩
  have hdepth : IsName (decimal conf.historyDepth) :=
    ⟨decimal_ne_nil _, zero_not_mem_decimal _⟩
  have hnil (prune : PruneConfig) : parseConfBlock (terminateNul []) prune = prune :=
    parseConfBlock_nil prune
  rw [Conf.genConfBlock_eq, Conf.blockStrings, parseConfBlock_single (by decide) hflag,
    parseConfBlock_cons (by decide) hwf.prunefs, parseConfBlock_cons (by decide) hwf.prunenames,
    parseConfBlock_cons (by decide) hnames, parseConfBlock_single (by decide) hkind,
    parseConfBlock_single (by decide) hdepth, hnil]
  have hset : ((((({} : PruneConfig).set (ascii "prune_bind_mounts")
      [[if conf.pruneBindMounts then 49 else 48]]).set (ascii "prunefs") conf.prunefs).set
        (ascii "prunenames") conf.prunenames).set (ascii "prunepaths") conf.prunepaths) =
      { pruneBindMounts := [[if conf.pruneBindMounts then (49 : UInt8) else 48]].head? =
          some (ascii "1")
        prunefs := conf.prunefs.map (·.map toupper)
        prunenames := conf.prunenames
        prunepaths := conf.prunepaths } := rfl
  have hother (prune : PruneConfig) (kind depth : List Str) :
      (prune.set (ascii "metadata_hash") kind).set (ascii "history_depth") depth = prune := rfl
  rw [hother, hset, hupper, Conf.pruneConfig]
  cases conf.pruneBindMounts
  all_goals rfl

end Prepared

section EmptyPath

def ConfOption.AddsEmpty (opt : ConfOption) : Prop :=
  ∃ optarg, opt = .addSinglePrunepath optarg ∧ optarg.val = []

theorem nil_not_mem_varAddValues (val : CStr) : [] ∉ varAddValues val.val := fun h =>
  (isName_of_mem_varAddValues val.nul_free h).ne_nil rfl

theorem nil_not_mem_parseUpdatedbConf {assignments : List (ConfVariable × Str)}
    {had : List ConfVariable} {conf conf' : Conf} (hnil : [] ∉ conf.prunepaths)
    (h : Conf.parseUpdatedbConf assignments had conf = some conf') : [] ∉ conf'.prunepaths := by
  induction assignments generalizing had conf with
  | nil =>
      cases h
      exact hnil
  | cons assignment assignments ih =>
      obtain ⟨var, quoted⟩ := assignment
      unfold Conf.parseUpdatedbConf at h
      obtain ⟨-, h⟩ := Option.ite_none_left_eq_some.mp h
      obtain ⟨next, hnext, h⟩ := Option.bind_eq_some_iff.mp h
      refine ih ?_ h
      cases var with
      | pruneBindMounts =>
          obtain ⟨flag, -, rfl⟩ := Option.map_eq_some_iff.mp hnext
          exact hnil
      | prunefs =>
          cases hnext
          exact hnil
      | prunenames =>
          cases hnext
          exact hnil
      | prunepaths =>
          cases hnext
          rw [List.mem_append, not_or]
          exact ⟨hnil, nil_not_mem_varAddValues _⟩
      | metadataHash =>
          obtain ⟨kind, -, rfl⟩ := Option.map_eq_some_iff.mp hnext
          exact hnil
      | historyDepth =>
          obtain ⟨depth, -, rfl⟩ := Option.map_eq_some_iff.mp hnext
          exact hnil

/-- An empty path has come from the command line. -/
def ArgumentState.EmptyChanged (s : ArgumentState) : Prop :=
  [] ∈ s.conf.prunepaths → s.prunepathsChanged = true

theorem ArgumentState.parseOption_nil_mem {realpath : Str → Option CStr} {s s' : ArgumentState}
    {opt : ConfOption} (hs : s.EmptyChanged) (h : s.parseOption realpath opt = some s') :
    s'.EmptyChanged ∧
      ([] ∈ s'.conf.prunepaths ↔ [] ∈ s.conf.prunepaths ∨ opt.AddsEmpty) := by
  have hsame (hne : ∀ optarg, opt ≠ .addSinglePrunepath optarg) :
      [] ∈ s.conf.prunepaths ↔ [] ∈ s.conf.prunepaths ∨ opt.AddsEmpty :=
    (or_iff_left fun ⟨optarg, heq, _⟩ => hne optarg heq).symm
  cases opt with
  | addPrunefs optarg =>
      cases h
      exact ⟨hs, hsame nofun⟩
  | addPrunenames optarg =>
      cases h
      exact ⟨hs, hsame nofun⟩
  | addPrunepaths optarg =>
      cases h
      refine ⟨fun _ => rfl, ?_⟩
      rw [← hsame nofun, List.mem_append]
      exact or_iff_left (nil_not_mem_varAddValues optarg)
  | addSinglePrunepath optarg =>
      cases h
      refine ⟨fun _ => rfl, ?_⟩
      rw [List.mem_append, List.mem_singleton]
      refine or_congr_right ⟨fun heq => ⟨optarg, rfl, heq.symm⟩, ?_⟩
      rintro ⟨_, ⟨⟩, heq⟩
      exact heq.symm
  | databaseRoot optarg =>
      obtain ⟨-, h⟩ := Option.ite_none_left_eq_some.mp h
      obtain ⟨root, -, rfl⟩ := Option.map_eq_some_iff.mp h
      exact ⟨hs, hsame nofun⟩
  | pruneBindMounts optarg =>
      obtain ⟨-, h⟩ := Option.ite_none_left_eq_some.mp h
      obtain ⟨flag, -, rfl⟩ := Option.map_eq_some_iff.mp h
      exact ⟨hs, hsame nofun⟩
  | prunefs optarg =>
      obtain ⟨-, ⟨⟩⟩ := Option.ite_none_left_eq_some.mp h
      exact ⟨hs, hsame nofun⟩
  | prunenames optarg =>
      obtain ⟨-, ⟨⟩⟩ := Option.ite_none_left_eq_some.mp h
      exact ⟨hs, hsame nofun⟩
  | prunepaths optarg =>
      obtain ⟨hchanged, ⟨⟩⟩ := Option.ite_none_left_eq_some.mp h
      refine ⟨fun _ => rfl, ?_⟩
      rw [← hsame nofun]
      exact iff_of_false (nil_not_mem_varAddValues optarg) fun hmem => hchanged (hs hmem)
  | requireVisibility optarg =>
      obtain ⟨-, h⟩ := Option.ite_none_left_eq_some.mp h
      obtain ⟨flag, -, rfl⟩ := Option.map_eq_some_iff.mp h
      exact ⟨hs, hsame nofun⟩
  | metadataHash optarg =>
      obtain ⟨kind, -, rfl⟩ := Option.map_eq_some_iff.mp h
      exact ⟨hs, hsame nofun⟩
  | historyDepth optarg =>
      obtain ⟨depth, -, rfl⟩ := Option.map_eq_some_iff.mp h
      exact ⟨hs, hsame nofun⟩

theorem parseArguments_nil_mem {realpath : Str → Option CStr} {options : List ConfOption}
    {s s' : ArgumentState} (hs : s.EmptyChanged)
    (h : options.foldlM (ArgumentState.parseOption realpath) s = some s') :
    [] ∈ s'.conf.prunepaths ↔
      [] ∈ s.conf.prunepaths ∨ ∃ opt ∈ options, opt.AddsEmpty := by
  induction options generalizing s with
  | nil =>
      cases h
      simp
  | cons opt options ih =>
      obtain ⟨next, hnext, h⟩ := Option.bind_eq_some_iff.mp h
      obtain ⟨hchanged, hiff⟩ := ArgumentState.parseOption_nil_mem hs hnext
      rw [ih hchanged h, hiff, or_assoc, List.exists_mem_cons_iff]

theorem Invocation.nil_mem_prunepaths_iff {inv : Invocation} {conf : Conf}
    (h : inv.confPrepare = some conf) :
    [] ∈ conf.prunepaths ↔ ∃ opt ∈ inv.options, opt.AddsEmpty := by
  obtain ⟨base, hbase, h⟩ := Option.bind_eq_some_iff.mp h
  obtain ⟨s, hs, h⟩ := Option.bind_eq_some_iff.mp h
  cases h
  have hnil : [] ∉ base.prunepaths := nil_not_mem_parseUpdatedbConf List.not_mem_nil hbase
  have hiff := parseArguments_nil_mem (fun hmem => absurd hmem hnil) hs
  rw [or_iff_right hnil] at hiff
  rw [← hiff]
  constructor
  · exact UniqueSort.mem_of_mem_uniqueSort id
  · intro hmem
    obtain ⟨y, hy, rfl⟩ := UniqueSort.exists_mem_uniqueSort id (fun a b => decide ¬b < a) hmem
    exact hy

/-- The block decodes to the configuration that it was built from, exactly if no empty path is
added on the command line. -/
theorem parseConfBlock_genConfBlock_iff (inv : Invocation) (conf : Conf)
    (h : inv.confPrepare = some conf) :
    parseConfBlock conf.genConfBlock {} = conf.pruneConfig ↔
      ¬ ∃ opt ∈ inv.options, opt.AddsEmpty := by
  rw [← inv.nil_mem_prunepaths_iff h]
  constructor
  · intro heq hmem
    have hread := nil_not_mem_parseConfBlock conf.genConfBlock {} List.not_mem_nil
    rw [heq] at hread
    exact hread hmem
  · intro hpaths
    refine (inv.wf_of_confPrepare h).parseConfBlock_genConfBlock ?_ hpaths
    obtain ⟨base, -, h⟩ := Option.bind_eq_some_iff.mp h
    obtain ⟨s, -, h⟩ := Option.bind_eq_some_iff.mp h
    cases h
    exact s.conf.map_toupper_finish

def singlePrunepath (path : CStr) : Invocation where
  assignments := []
  options := [.addSinglePrunepath path]
  realpath _ := none

theorem parseConfBlock_genConfBlock_iff_single : ∃ conf,
    (singlePrunepath (cStr (ascii "/a b"))).confPrepare = some conf ∧
      (parseConfBlock conf.genConfBlock {} = conf.pruneConfig ↔
        ¬ ∃ opt ∈ (singlePrunepath (cStr (ascii "/a b"))).options, opt.AddsEmpty) :=
  ⟨_, rfl, parseConfBlock_genConfBlock_iff _ _ rfl⟩

theorem not_parseConfBlock_genConfBlock_empty :
    ¬ ∀ (inv : Invocation) (conf : Conf), inv.confPrepare = some conf →
      parseConfBlock conf.genConfBlock {} = conf.pruneConfig := by
  intro hall
  obtain ⟨conf, hconf⟩ : ∃ conf, (singlePrunepath (cStr [])).confPrepare = some conf := ⟨_, rfl⟩
  have hmem : [] ∈ conf.prunepaths :=
    (Invocation.nil_mem_prunepaths_iff hconf).mpr ⟨_, List.mem_singleton_self _, _, rfl, rfl⟩
  have hread := nil_not_mem_parseConfBlock conf.genConfBlock {} List.not_mem_nil
  rw [hall _ conf hconf] at hread
  exact hread hmem

end EmptyPath

end Flocate
