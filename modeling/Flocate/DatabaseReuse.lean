import Flocate.ConfBlock
import Flocate.DatabaseFile

/-!
# Which databases are reused

The constructor of `ExistingDB` takes a database if its configuration block is the one at hand.
That settles everything in the block, but the root of the scan is neither in the block nor in the
header.
-/

namespace Flocate

open Bytes

def tryCompletePread (file : Str) (len offset : ℕ) : Option Str :=
  if len = 0 then some []
  else if offset + len ≤ file.length then some ((file.drop offset).take len)
  else none

/-- The constructor of `ExistingDB`; nothing if it ends with `error` set. -/
def ExistingDB.openDatabase (confBlock : Str) (file : Option Str) : Option DatabaseHeader := do
  let file ← file
  let hdr := DatabaseHeader.ofBytes (← tryCompletePread file DatabaseHeader.size 0)
  if hdr.magic ≠ magicBytes then none
  else if (hdr.version ≠ 1 ∧ hdr.version ≠ 2) ∨ hdr.maxVersion < 2 then none
  else if hdr.confBlockLengthBytes.toNat ≠ confBlock.length then none
  else
    let str ← tryCompletePread file hdr.confBlockLengthBytes.toNat hdr.confBlockOffsetBytes.toNat
    if str ≠ confBlock then none
    else
      let _ ← tryCompletePread file hdr.zstdDictionaryLengthBytes.toNat
        hdr.zstdDictionaryOffsetBytes.toNat
      if hdr.metadataLengthBytes ≠ 0 ∧
          hdr.metadataFlags &&& DatabaseHeader.metadataFlagPosixV2 = 0 then none
      else some hdr

def FinishedCorpus.configured (d : FinishedCorpus) (conf : Conf) : FinishedCorpus :=
  { d with confBlock := conf.genConfBlock, checkVisibility := conf.checkVisibility }

theorem tryCompletePread_of_le {file : Str} {len offset : ℕ} (h : offset + len ≤ file.length) :
    tryCompletePread file len offset = some ((file.drop offset).take len) := by
  unfold tryCompletePread
  split
  · rename_i hlen
    rw [hlen, List.take_zero]
  · rfl

/-- A complete database is taken for the configuration block that is in it, and for no other. -/
theorem openDatabase_file (d : FinishedCorpus) (hconf : d.confBlock ≠ [])
    (hsize : d.file.length < 2 ^ 63) (confBlock : Str) :
    ExistingDB.openDatabase confBlock (some d.file) ≠ none ↔ confBlock = d.confBlock := by
  obtain ⟨hdr, body, hfile, hversion, hreadable, hoffset, hlength⟩ := d.file_eq hconf
  have hlen : d.file.length = DatabaseHeader.size + body.length + d.confBlock.length := by
    rw [hfile, List.length_append, List.length_append, DatabaseBuilder.length_toBytes]
  have hheader : tryCompletePread d.file DatabaseHeader.size 0 = some hdr.toBytes := by
    rw [tryCompletePread_of_le (by omega), List.drop_zero, hfile, List.append_assoc,
      List.take_left' (DatabaseBuilder.length_toBytes hdr)]
  have hofBytes : DatabaseHeader.ofBytes hdr.toBytes = hdr := by
    rw [← List.append_nil hdr.toBytes]
    exact DatabaseBuilder.ofBytes_toBytes hdr []
  have hlengthNat : hdr.confBlockLengthBytes.toNat = d.confBlock.length := by
    rw [hlength, UInt64.toNat_ofNat', Nat.mod_eq_of_lt (by omega)]
  have hoffsetNat : hdr.confBlockOffsetBytes.toNat = DatabaseHeader.size + body.length := by
    rw [hoffset, UInt64.toNat_ofNat', Nat.mod_eq_of_lt (by omega)]
    omega
  have hread : tryCompletePread d.file hdr.confBlockLengthBytes.toNat
      hdr.confBlockOffsetBytes.toNat = some d.confBlock := by
    rw [hlengthNat, hoffsetNat, tryCompletePread_of_le (by omega), hfile,
      List.drop_left' (by rw [List.length_append, DatabaseBuilder.length_toBytes]),
      List.take_length]
  have hdictionary := tryCompletePread_of_le hreadable.dictionary
  have hmetadata : ¬(hdr.metadataLengthBytes ≠ 0 ∧
      hdr.metadataFlags &&& DatabaseHeader.metadataFlagPosixV2 = 0) := by
    rintro ⟨hne, hflag⟩
    rcases hreadable.metadata with hzero | hflags
    · exact hne hzero
    · rw [hflags] at hflag
      cases hflag
  have hopen : ExistingDB.openDatabase confBlock (some d.file) =
      if d.confBlock.length ≠ confBlock.length then none
      else if d.confBlock ≠ confBlock then none
      else some hdr := by
    have hversion' : ¬((hdr.version ≠ 1 ∧ hdr.version ≠ 2) ∨ hdr.maxVersion < 2) := by
      rw [hversion, hreadable.maxVersion]
      decide
    unfold ExistingDB.openDatabase
    simp only [Option.bind_eq_bind, Option.bind_some, hheader, hofBytes, hreadable.magic,
      not_true_eq_false, ne_eq, if_false]
    rw [if_neg hversion', hread, hdictionary, hlengthNat]
    simp only [Option.bind_some, if_neg hmetadata]
  rw [hopen]
  constructor
  · intro h
    by_contra hne
    refine h ?_
    split
    · rfl
    · rw [if_pos fun heq => hne heq.symm]
  · rintro rfl
    rw [if_neg (not_not_intro rfl), if_neg (not_not_intro rfl)]
    nofun

structure SameSettings (a b : Conf) : Prop where
  scanRoot : a.scanRoot = b.scanRoot
  pruneBindMounts : a.pruneBindMounts = b.pruneBindMounts
  prunefs : a.prunefs = b.prunefs
  prunenames : a.prunenames = b.prunenames
  prunepaths : a.prunepaths = b.prunepaths
  metadataHashKind : a.metadataHashKind = b.metadataHashKind

theorem genConfBlock_ne_nil (conf : Conf) : conf.genConfBlock ≠ [] := by
  rw [Conf.genConfBlock_eq]
  exact List.cons_ne_nil _ _

/-- That the database of one run is taken by another one tells that the settings are the same,
unless the roots of the scans are different and everything in the block is the same. -/
theorem reuse_sameSettings_iff {A B : Invocation} {a b : Conf} (ha : A.confPrepare = some a)
    (hb : B.confPrepare = some b) {d : FinishedCorpus}
    (hsize : (d.configured a).file.length < 2 ^ 63) :
    (ExistingDB.openDatabase b.genConfBlock (some (d.configured a).file) ≠ none →
        SameSettings a b) ↔
      (a.scanRoot = b.scanRoot ∨ ¬Conf.SameBlock a b) := by
  have hopen := openDatabase_file (d.configured a) (genConfBlock_ne_nil a) hsize b.genConfBlock
  have hblock : b.genConfBlock = a.genConfBlock ↔ Conf.SameBlock a b := by
    rw [eq_comm]
    exact Conf.genConfBlock_eq_iff (Invocation.wf_of_confPrepare ha)
      (Invocation.wf_of_confPrepare hb)
  rw [hopen, show (d.configured a).confBlock = a.genConfBlock from rfl, hblock]
  constructor
  · intro h
    by_cases hsame : Conf.SameBlock a b
    · exact Or.inl (h hsame).scanRoot
    · exact Or.inr hsame
  · rintro (hroot | hdiffer) hsame
    · exact ⟨hroot, hsame.pruneBindMounts, hsame.prunefs, hsame.prunenames, hsame.prunepaths,
        hsame.metadataHashKind⟩
    · exact absurd hsame hdiffer

def invocationAt (root : CStr) : Invocation where
  assignments := []
  options := [.databaseRoot root]
  realpath _ := some root

theorem confPrepare_invocationAt (root : CStr) :
    (invocationAt root).confPrepare = some { scanRoot := some root.val } := by
  have hfinish : varFinish [] = [] := by
    simp [varFinish, UniqueSort.uniqueSort, UniqueSort.unique]
  change some (Conf.finish { scanRoot := some root.val }) = _
  unfold Conf.finish
  simp only [List.map_nil, hfinish, Option.getD_some]

def rootA : CStr := ⟨ascii "/a", by decide⟩
def rootB : CStr := ⟨ascii "/b", by decide⟩

theorem length_smallCorpus_file :
    (smallCorpus.configured { scanRoot := some rootA.val }).file.length < 2 ^ 63 := by
  decide +kernel

theorem reuse_sameSettings_otherRoot :
    (ExistingDB.openDatabase (Conf.genConfBlock { scanRoot := some rootB.val })
        (some (smallCorpus.configured { scanRoot := some rootA.val }).file) ≠ none →
      SameSettings { scanRoot := some rootA.val } { scanRoot := some rootB.val }) ↔
      (some rootA.val = some rootB.val ∨
        ¬Conf.SameBlock { scanRoot := some rootA.val } { scanRoot := some rootB.val }) :=
  reuse_sameSettings_iff (confPrepare_invocationAt rootA) (confPrepare_invocationAt rootB)
    length_smallCorpus_file

/-- A database of `/a` is taken by a run that scans `/b`. -/
theorem not_reuse_sameSettings : ∃ A B : Invocation, ∃ a b : Conf, A.confPrepare = some a ∧
    B.confPrepare = some b ∧ ExistingDB.openDatabase b.genConfBlock
      (some (smallCorpus.configured a).file) ≠ none ∧ ¬SameSettings a b := by
  have hA := confPrepare_invocationAt rootA
  have hB := confPrepare_invocationAt rootB
  have hblock := (Conf.genConfBlock_eq_iff (Invocation.wf_of_confPrepare hB)
    (Invocation.wf_of_confPrepare hA)).mpr ⟨rfl, rfl, rfl, rfl, rfl, rfl⟩
  have hopen := openDatabase_file (smallCorpus.configured { scanRoot := some rootA.val })
    (genConfBlock_ne_nil { scanRoot := some rootA.val }) length_smallCorpus_file
    (Conf.genConfBlock { scanRoot := some rootB.val })
  exact ⟨invocationAt rootA, invocationAt rootB, _, _, hA, hB, hopen.mpr hblock,
    fun h => absurd h.scanRoot (by decide)⟩

end Flocate
