import Flocate.Conf

/-!
# The configuration block identifies the settings in it

The block is a sequence of strings, each with a zero byte behind it. None of the file systems and
directory names is empty, so their lists end at the first empty string; the paths may be empty, but
only a fixed number of strings follows their list.
-/

namespace Flocate

open Bytes

/-- What the options make sure of: the strings come from C strings, and the words are not empty. -/
structure Conf.Wf (conf : Conf) : Prop where
  prunefs : ∀ s ∈ conf.prunefs, IsName s
  prunenames : ∀ s ∈ conf.prunenames, IsName s
  prunepaths : ∀ s ∈ conf.prunepaths, 0 ∉ s
  metadataHashKind : ∀ v h, conf.metadataHashKind ≠ .other v h

theorem isName_of_mem_varAddValues {val : Str} (hval : 0 ∉ val) {s : Str}
    (hs : s ∈ varAddValues val) : IsName s := by
  induction val using varAddValues.induct with
  | case1 val h =>
      rw [varAddValues, dif_pos h] at hs
      cases hs
  | case2 val h start ih =>
      rw [varAddValues, dif_neg h] at hs
      have hstart : start <:+ val := List.dropWhile_suffix _
      rcases List.mem_cons.mp hs with rfl | hs
      · refine ⟨?_, fun h0 => hval (hstart.subset ((List.takeWhile_prefix _).subset h0))⟩
        intro hnil
        have hhead := List.head_dropWhile_not isspace h
        rw [List.takeWhile_eq_nil_iff] at hnil
        have hpos : 0 < start.length := List.length_pos_iff.mpr h
        refine hnil hpos ?_
        rw [List.get_eq_getElem, ← List.head_eq_getElem h, hhead]
        rfl
      · exact ih (fun h0 => hval (hstart.subset ((List.dropWhile_suffix _).subset h0))) hs

theorem parseMetadataHashKind_ne_other {value : Str} {kind : MetadataHashKind}
    (h : parseMetadataHashKind value = some kind) (v : UInt8) (hv : 2 < v) :
    kind ≠ .other v hv := by
  rintro rfl
  unfold parseMetadataHashKind at h
  dsimp only at h
  split at h
  · cases h
  · split at h
    · cases h
    · split at h
      · cases h
      · cases h

namespace Conf

theorem Wf.assign {conf conf' : Conf} (hwf : conf.Wf) {var : ConfVariable} {quoted : Str}
    (h : conf.assign var quoted = some conf') : conf'.Wf := by
  have hwords : ∀ s ∈ varAddValues (cStr quoted).val, IsName s := fun s =>
    isName_of_mem_varAddValues (cStr quoted).nul_free
  cases var with
  | pruneBindMounts =>
      obtain ⟨flag, -, rfl⟩ := Option.map_eq_some_iff.mp h
      exact { hwf with }
  | prunefs =>
      cases h
      exact { hwf with prunefs := List.forall_mem_append.mpr ⟨hwf.prunefs, hwords⟩ }
  | prunenames =>
      cases h
      exact { hwf with prunenames := List.forall_mem_append.mpr ⟨hwf.prunenames, hwords⟩ }
  | prunepaths =>
      cases h
      exact { hwf with
        prunepaths := List.forall_mem_append.mpr
          ⟨hwf.prunepaths, fun s hs => (hwords s hs).nul_free⟩ }
  | metadataHash =>
      obtain ⟨kind, hkind, rfl⟩ := Option.map_eq_some_iff.mp h
      exact { hwf with metadataHashKind := parseMetadataHashKind_ne_other hkind }
  | historyDepth =>
      obtain ⟨depth, -, rfl⟩ := Option.map_eq_some_iff.mp h
      exact { hwf with }

theorem Wf.parseUpdatedbConf {assignments : List (ConfVariable × Str)} {had : List ConfVariable}
    {conf conf' : Conf} (hwf : conf.Wf)
    (h : Conf.parseUpdatedbConf assignments had conf = some conf') : conf'.Wf := by
  induction assignments generalizing had conf with
  | nil =>
      cases h
      exact hwf
  | cons assignment assignments ih =>
      obtain ⟨var, quoted⟩ := assignment
      unfold Conf.parseUpdatedbConf at h
      obtain ⟨-, h⟩ := Option.ite_none_left_eq_some.mp h
      obtain ⟨next, hnext, h⟩ := Option.bind_eq_some_iff.mp h
      exact ih (hwf.assign hnext) h

theorem Wf.parseOption {realpath : Str → Option CStr} {s s' : ArgumentState} {opt : ConfOption}
    (hwf : s.conf.Wf) (h : s.parseOption realpath opt = some s') : s'.conf.Wf := by
  have hwords (optarg : CStr) : ∀ s ∈ varAddValues optarg.val, IsName s := fun s =>
    isName_of_mem_varAddValues optarg.nul_free
  have hpaths (optarg : CStr) : ∀ s ∈ varAddValues optarg.val, 0 ∉ s := fun s hs =>
    (hwords optarg s hs).nul_free
  cases opt with
  | addPrunefs optarg =>
      cases h
      exact { hwf with prunefs := List.forall_mem_append.mpr ⟨hwf.prunefs, hwords optarg⟩ }
  | addPrunenames optarg =>
      cases h
      exact { hwf with prunenames := List.forall_mem_append.mpr ⟨hwf.prunenames, hwords optarg⟩ }
  | addPrunepaths optarg =>
      cases h
      exact { hwf with prunepaths := List.forall_mem_append.mpr ⟨hwf.prunepaths, hpaths optarg⟩ }
  | addSinglePrunepath optarg =>
      cases h
      exact { hwf with
        prunepaths := List.forall_mem_append.mpr
          ⟨hwf.prunepaths, List.forall_mem_singleton.mpr optarg.nul_free⟩ }
  | databaseRoot optarg =>
      obtain ⟨-, h⟩ := Option.ite_none_left_eq_some.mp h
      obtain ⟨root, -, rfl⟩ := Option.map_eq_some_iff.mp h
      exact { hwf with }
  | pruneBindMounts optarg =>
      obtain ⟨-, h⟩ := Option.ite_none_left_eq_some.mp h
      obtain ⟨flag, -, rfl⟩ := Option.map_eq_some_iff.mp h
      exact { hwf with }
  | prunefs optarg =>
      obtain ⟨-, ⟨⟩⟩ := Option.ite_none_left_eq_some.mp h
      exact { hwf with prunefs := hwords optarg }
  | prunenames optarg =>
      obtain ⟨-, ⟨⟩⟩ := Option.ite_none_left_eq_some.mp h
      exact { hwf with prunenames := hwords optarg }
  | prunepaths optarg =>
      obtain ⟨-, ⟨⟩⟩ := Option.ite_none_left_eq_some.mp h
      exact { hwf with prunepaths := hpaths optarg }
  | requireVisibility optarg =>
      obtain ⟨-, h⟩ := Option.ite_none_left_eq_some.mp h
      obtain ⟨flag, -, rfl⟩ := Option.map_eq_some_iff.mp h
      exact { hwf with }
  | metadataHash optarg =>
      obtain ⟨kind, hkind, rfl⟩ := Option.map_eq_some_iff.mp h
      exact { hwf with metadataHashKind := parseMetadataHashKind_ne_other hkind }
  | historyDepth optarg =>
      obtain ⟨depth, -, rfl⟩ := Option.map_eq_some_iff.mp h
      exact { hwf with }

theorem Wf.parseArguments {realpath : Str → Option CStr} {options : List ConfOption}
    {s s' : ArgumentState} (hwf : s.conf.Wf)
    (h : options.foldlM (ArgumentState.parseOption realpath) s = some s') : s'.conf.Wf := by
  induction options generalizing s with
  | nil =>
      cases h
      exact hwf
  | cons opt options ih =>
      obtain ⟨next, hnext, h⟩ := Option.bind_eq_some_iff.mp h
      exact ih (hwf.parseOption hnext) h

theorem toupper_eq_zero {c : UInt8} (h : toupper c = 0) : c = 0 := by
  unfold toupper at h
  split at h
  · rename_i hlower
    simp only [Bool.and_eq_true, decide_eq_true_eq, UInt8.le_iff_toNat_le] at hlower
    have hle : (32 : UInt8) ≤ c := UInt8.le_iff_toNat_le.mpr (Nat.le_trans (by decide) hlower.1)
    have hsub := congrArg UInt8.toNat h
    rw [UInt8.toNat_sub_of_le _ _ hle] at hsub
    have h97 : (97 : UInt8).toNat = 97 := rfl
    have h32 : (32 : UInt8).toNat = 32 := rfl
    have h0 : (0 : UInt8).toNat = 0 := rfl
    omega
  · exact h

theorem Wf.finish {conf : Conf} (hwf : conf.Wf) : conf.finish.Wf where
  prunefs s hs := by
    obtain ⟨name, hname, rfl⟩ :=
      List.mem_map.mp (UniqueSort.mem_of_mem_uniqueSort id hs)
    refine ⟨List.map_eq_nil_iff.not.mpr (hwf.prunefs name hname).ne_nil, fun h0 => ?_⟩
    obtain ⟨c, hc, hzero⟩ := List.mem_map.mp h0
    exact (hwf.prunefs name hname).nul_free (toupper_eq_zero hzero ▸ hc)
  prunenames s hs := hwf.prunenames s (UniqueSort.mem_of_mem_uniqueSort id hs)
  prunepaths s hs := hwf.prunepaths s (UniqueSort.mem_of_mem_uniqueSort id hs)
  metadataHashKind := hwf.metadataHashKind

end Conf

theorem Invocation.wf_of_confPrepare {inv : Invocation} {conf : Conf}
    (h : inv.confPrepare = some conf) : conf.Wf := by
  have hdefault : ({} : Conf).Wf := ⟨nofun, nofun, nofun, nofun⟩
  obtain ⟨base, hbase, h⟩ := Option.bind_eq_some_iff.mp h
  obtain ⟨s, hs, h⟩ := Option.bind_eq_some_iff.mp h
  cases h
  have hwf : ({ conf := base } : ArgumentState).conf.Wf := hdefault.parseUpdatedbConf hbase
  exact (hwf.parseArguments hs).finish

section Decimal

theorem digit_toNat {d : ℕ} (h : d < 10) : (UInt8.ofNat (48 + d)).toNat = 48 + d := by
  rw [UInt8.toNat_ofNat']
  omega

theorem decimal_of_ne_zero {n : ℕ} (h : n ≠ 0) :
    (decimal n).reverse = (Nat.digits 10 n).map fun d => UInt8.ofNat (48 + d) := by
  unfold decimal
  rw [if_neg h, List.map_reverse, List.reverse_reverse]

theorem zero_not_mem_decimal (n : ℕ) : 0 ∉ decimal n := by
  by_cases h : n = 0
  · rw [h]
    decide
  · intro h0
    rw [← List.mem_reverse, decimal_of_ne_zero h] at h0
    obtain ⟨d, hd, heq⟩ := List.mem_map.mp h0
    have hlt := digit_toNat (Nat.digits_lt_base (by decide) hd)
    rw [heq, UInt8.toNat_zero] at hlt
    omega

theorem ofDigits_decimal {n : ℕ} :
    Nat.ofDigits 10 ((decimal n).reverse.map fun c => c.toNat - 48) = n := by
  by_cases h : n = 0
  · rw [h]
    rfl
  · have hmap : ((Nat.digits 10 n).map fun d => UInt8.ofNat (48 + d)).map (fun c => c.toNat - 48) =
        Nat.digits 10 n := by
      rw [List.map_map]
      refine (List.map_congr_left fun d hd => ?_).trans (List.map_id _)
      change (UInt8.ofNat (48 + d)).toNat - 48 = d
      rw [digit_toNat (Nat.digits_lt_base (by decide) hd), Nat.add_sub_cancel_left]
    rw [decimal_of_ne_zero h, hmap, Nat.ofDigits_digits]

theorem decimal_injective : Function.Injective decimal := by
  intro m n h
  rw [← ofDigits_decimal (n := m), ← ofDigits_decimal (n := n), h]

end Decimal

namespace Conf

variable {a b conf : Conf}

/-- What `gen_conf_block` puts into the block. -/
structure SameBlock (a b : Conf) : Prop where
  pruneBindMounts : a.pruneBindMounts = b.pruneBindMounts
  prunefs : a.prunefs = b.prunefs
  prunenames : a.prunenames = b.prunenames
  prunepaths : a.prunepaths = b.prunepaths
  metadataHashKind : a.metadataHashKind = b.metadataHashKind
  historyDepth : a.historyDepth = b.historyDepth

/-- The strings in the block that have a zero byte behind them. -/
def blockStrings (conf : Conf) : List Str :=
  ascii "prune_bind_mounts" :: [if conf.pruneBindMounts then 49 else 48] :: [] ::
    ascii "prunefs" :: (conf.prunefs ++ [] ::
    ascii "prunenames" :: (conf.prunenames ++ [] ::
    ascii "prunepaths" :: (conf.prunepaths ++ [[],
    ascii "metadata_hash", metadataHashKindToString conf.metadataHashKind, [],
    ascii "history_depth", decimal conf.historyDepth, []])))

theorem genConfBlock_eq (conf : Conf) : conf.genConfBlock = terminateNul conf.blockStrings := by
  unfold genConfBlock genConfBlockStringList terminateNul blockStrings
  cases conf.pruneBindMounts <;>
    simp only [if_true, if_false, Bool.false_eq_true, List.flatMap_cons, List.flatMap_append,
      List.flatMap_nil, List.append_assoc, List.cons_append, List.nil_append]

theorem metadataHashKindToString_injective {k l : MetadataHashKind} (hk : ∀ v h, k ≠ .other v h)
    (h : metadataHashKindToString k = metadataHashKindToString l) : k = l := by
  cases k with
  | other v hv => exact absurd rfl (hk v hv)
  | none => cases l <;> first | rfl | cases h
  | sha256 => cases l <;> first | rfl | cases h
  | xxHash64 => cases l <;> first | rfl | cases h

theorem zero_not_mem_metadataHashKindToString (k : MetadataHashKind) :
    0 ∉ metadataHashKindToString k := by
  have hunknown : 0 ∉ ascii "unknown" := by decide
  cases k with
  | none => decide
  | sha256 => decide
  | xxHash64 => decide
  | other v hv => exact hunknown

theorem Wf.nul_free (h : conf.Wf) : ∀ s ∈ conf.blockStrings, 0 ∉ s := by
  unfold blockStrings
  simp only [List.forall_mem_cons, List.forall_mem_append]
  refine ⟨by decide, by split <;> decide, by decide, by decide, ?_, by decide, by decide, ?_,
    by decide, by decide, h.prunepaths, by decide, by decide, ?_, by decide, by decide, ?_,
    by decide, nofun⟩
  · exact fun s hs => (h.prunefs s hs).nul_free
  · exact fun s hs => (h.prunenames s hs).nul_free
  · exact zero_not_mem_metadataHashKindToString _
  · exact zero_not_mem_decimal _

theorem genConfBlock_eq_iff (ha : a.Wf) (hb : b.Wf) :
    a.genConfBlock = b.genConfBlock ↔ SameBlock a b := by
  constructor
  · intro h
    rw [genConfBlock_eq, genConfBlock_eq] at h
    have hstrings := congrArg splitNul h
    rw [splitNul_terminateNul ha.nul_free, splitNul_terminateNul hb.nul_free] at hstrings
    unfold blockStrings at hstrings
    simp only [List.cons.injEq, true_and] at hstrings
    obtain ⟨hflag, hrest⟩ := hstrings
    obtain ⟨hfs, hrest⟩ := append_cons_inj_of_first (fun h => (ha.prunefs [] h).ne_nil rfl)
      (fun h => (hb.prunefs [] h).ne_nil rfl) hrest
    obtain ⟨hnames, hrest⟩ := append_cons_inj_of_first (fun h => (ha.prunenames [] h).ne_nil rfl)
      (fun h => (hb.prunenames [] h).ne_nil rfl) (List.cons.inj hrest).2
    obtain ⟨hpaths, hrest⟩ := List.append_inj' (List.cons.inj hrest).2 rfl
    simp only [List.cons.injEq, true_and, and_true] at hrest
    refine ⟨?_, hfs, hnames, hpaths, ?_, decimal_injective hrest.2⟩
    · cases ha : a.pruneBindMounts <;> cases hb : b.pruneBindMounts <;> simp_all
    · exact metadataHashKindToString_injective ha.metadataHashKind hrest.1
  · rintro ⟨hflag, hfs, hnames, hpaths, hkind, hdepth⟩
    unfold genConfBlock
    rw [hflag, hfs, hnames, hpaths, hkind, hdepth]

end Conf

end Flocate
