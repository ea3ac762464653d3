import Flocate.Scan
import Flocate.StreamedDigests

/-!
# Reused digests

A run takes the previous digest of a file if its size and its time stamps have not moved. They do
not move either when the file is written again within one tick of the clock behind the time stamps,
after a run has seen it: for files there is no counterpart to `time_is_current`, which keeps
directories from being taken for unchanged so early.
-/

namespace Flocate

open Bytes

structure Write where
  time : ℕ
  content : Str

def timestamp (granularity time : ℕ) : DirTime :=
  let tick := time / granularity * granularity
  ⟨Int64.ofNat (tick / 10 ^ 9), Int32.ofNat (tick % 10 ^ 9)⟩

def Write.stat (granularity : ℕ) (file : Write) : FileMetadata where
  enabled := true
  mode := 0x81a4
  size := UInt64.ofNat file.content.length
  mtime := timestamp granularity file.time
  ctime := timestamp granularity file.time

/-- A run of `updatedb`, with what is particular to the file in it. -/
structure HashingRun where
  time : ℕ
  hashMaxSize : UInt64 := 0
  hashAllowed : Bool := true
  /-- The file cannot be read. -/
  fails : Bool := false
  /-- The writes between the `stat` and the end of the hashing. -/
  during : List Write := []
  /-- What the hashing reads if there are any. -/
  torn : Str := []

inductive FileEvent where
  | write (w : Write)
  | run (r : HashingRun)

def FileEvent.times : FileEvent → List ℕ
  | write w => [w.time]
  | run r => r.time :: r.during.map Write.time

structure HashedFile where
  file : Write
  previous : FileMetadata := {}
  /-- There has been a write since the last `stat`. -/
  rewritten : Bool := false
  /-- What has been hashed last. -/
  hashed : Str := []

/-- `compute_file_hash_at`, which reads a file into a buffer of `1 << 20` bytes. -/
def computeFileHashAt (kind : MetadataHashKind) (content : Str) : MetadataHash :=
  ((blocksOf (2 ^ 20) content).foldl MetadataHashBuilder.update (.new kind)).finalize

def contentDigest (kind : MetadataHashKind) (content : Str) : MetadataHash :=
  ((MetadataHashBuilder.new kind).update content).finalize

def HashingRun.read (r : HashingRun) (content : Str) : Str :=
  if r.during = [] then content else r.torn

def HashingRun.env (r : HashingRun) (kind : MetadataHashKind) (content : Str) : ScanEnv where
  conf := { metadataHashKind := kind }
  hashMaxSize := r.hashMaxSize
  cache _ _ := unknownDirTime
  computeFileHash _ := if r.fails then none else some (computeFileHashAt kind (r.read content))

namespace HashedFile

variable (granularity : ℕ) (kind : MetadataHashKind)

def write (s : HashedFile) (w : Write) : HashedFile := { s with file := w, rewritten := true }

def run (s : HashedFile) (r : HashingRun) : HashedFile :=
  let metadata := s.file.stat granularity
  let env := r.env kind s.file.content
  { file := r.during.getLast?.getD s.file
    previous := { metadata with hash := fileHash env [] r.hashAllowed s.previous metadata }
    rewritten := decide (r.during ≠ [])
    hashed :=
      if reusePreviousHash env s.previous metadata then s.hashed else r.read s.file.content }

/-- Something holds of every run of a history and the state that it starts from. -/
def Throughout (P : HashedFile → HashingRun → Prop) (s : HashedFile) : List FileEvent → Prop
  | [] => True
  | .write w :: history => Throughout P (s.write w) history
  | .run r :: history => P s r ∧ Throughout P (s.run granularity kind r) history

/-- If no write falls into the run, a digest that it stores is that of the content. -/
def StoresCurrent (s : HashedFile) (r : HashingRun) : Prop :=
  r.during = [] → (s.run granularity kind r).previous.hash.length ≠ 0 →
    (s.run granularity kind r).previous.hash = contentDigest kind s.file.content

/-- The file has been written since its last `stat`, and neither its size nor its time stamps show
it. -/
def Unnoticed (s : HashedFile) : Prop :=
  s.rewritten = true ∧ s.previous.hash.length ≠ 0 ∧
    s.previous.size = (s.file.stat granularity).size ∧
    s.previous.mtime = (s.file.stat granularity).mtime ∧
    s.previous.ctime = (s.file.stat granularity).ctime

/-- A run into which no write falls does not miss one before it, unless that has restored what was
hashed. -/
def MissesNoWrite (s : HashedFile) (r : HashingRun) : Prop :=
  r.during = [] → s.Unnoticed granularity →
    contentDigest kind s.hashed = contentDigest kind s.file.content

end HashedFile

section Runs

variable {granularity : ℕ} {kind : MetadataHashKind} {s : HashedFile} {r : HashingRun}

theorem computeFileHashAt_eq (kind : MetadataHashKind) (content : Str) :
    computeFileHashAt kind content = contentDigest kind content := by
  rw [computeFileHashAt, MetadataHashBuilder.finalize_foldl_update,
    flatten_blocksOf (Nat.two_pow_pos 20), contentDigest]

theorem kind_contentDigest {content : Str} (h : (contentDigest kind content).length ≠ 0) :
    (contentDigest kind content).kind = kind ∧ kind ≠ .none := by
  have hkind : ((MetadataHashBuilder.new kind).update content).kind = kind :=
    MetadataHashBuilder.kind_update _ _
  unfold contentDigest MetadataHashBuilder.finalize at h ⊢
  rw [hkind] at h ⊢
  split
  · rename_i hxx
    rw [hxx]
    exact ⟨rfl, nofun⟩
  · rename_i hxx
    rw [if_neg hxx] at h
    split
    · rename_i hsha
      rw [hsha]
      exact ⟨rfl, nofun⟩
    · rename_i hsha
      rw [if_neg hsha] at h
      exact absurd rfl h

structure HashedFile.Valid (kind : MetadataHashKind) (s : HashedFile) : Prop where
  enabled : s.previous.hash.length ≠ 0 → s.previous.enabled = true
  hash : s.previous.hash.length ≠ 0 → s.previous.hash = contentDigest kind s.hashed
  current : s.rewritten = false → s.previous.hash.length ≠ 0 →
    contentDigest kind s.hashed = contentDigest kind s.file.content

/-- The digest that a run stores, if it stores one. -/
theorem fileHash_run (h : (s.run granularity kind r).previous.hash.length ≠ 0) :
    (reusePreviousHash (r.env kind s.file.content) s.previous (s.file.stat granularity) = true ∧
        (s.run granularity kind r).previous.hash = s.previous.hash) ∨
      (reusePreviousHash (r.env kind s.file.content) s.previous (s.file.stat granularity) = false ∧
        (s.run granularity kind r).previous.hash =
          contentDigest kind (r.read s.file.content)) := by
  have hrun : (s.run granularity kind r).previous.hash = fileHash (r.env kind s.file.content) []
      r.hashAllowed s.previous (s.file.stat granularity) := rfl
  rw [hrun] at h ⊢
  unfold fileHash at h ⊢
  dsimp only at h ⊢
  split at h
  · rename_i houter
    rw [if_pos houter]
    cases hreuse : reusePreviousHash (r.env kind s.file.content) s.previous
        (s.file.stat granularity) with
    | true => exact Or.inl ⟨rfl, if_pos rfl⟩
    | false =>
        rw [hreuse, if_neg Bool.false_ne_true] at h
        refine Or.inr ⟨rfl, ?_⟩
        rw [if_neg Bool.false_ne_true]
        split at h
        · rename_i hallowed
          rw [if_pos hallowed]
          cases hfails : r.fails with
          | true =>
              simp only [HashingRun.env, hfails, if_true, Option.getD_none] at h
              exact absurd rfl h
          | false =>
              simp only [HashingRun.env, hfails, Bool.false_eq_true, if_false, Option.getD_some]
              exact computeFileHashAt_eq kind _
        · exact absurd rfl h
  · exact absurd rfl h

theorem reusePreviousHash_iff (hkind : s.previous.hash.kind = kind)
    (henabled : s.previous.enabled = true) :
    reusePreviousHash (r.env kind s.file.content) s.previous (s.file.stat granularity) = true ↔
      s.previous.hash.length ≠ 0 ∧ s.previous.size = (s.file.stat granularity).size ∧
        s.previous.mtime = (s.file.stat granularity).mtime ∧
        s.previous.ctime = (s.file.stat granularity).ctime := by
  have htime (a b : DirTime) : dirTimeEquals a b = true ↔ a = b := by
    rw [dirTimeEquals, decide_eq_true_eq, DirTime.mk.injEq]
  simp [reusePreviousHash, HashingRun.env, hkind, henabled, htime, and_assoc]

theorem run_of_reuse (hkind : kind ≠ .none)
    (h : reusePreviousHash (r.env kind s.file.content) s.previous (s.file.stat granularity) =
      true) :
    (s.run granularity kind r).previous.hash = s.previous.hash := by
  change fileHash _ _ _ _ _ = _
  unfold fileHash
  have hreg : (s.file.stat granularity).isReg = true := by
    change decide ((0x81a4 : UInt32) &&& 0xF000 = 0x8000) = true
    decide
  rw [if_pos ⟨hkind, hreg⟩]
  exact if_pos h

namespace HashedFile

theorem Valid.kind_eq (h : s.Valid kind) (hlength : s.previous.hash.length ≠ 0) :
    s.previous.hash.kind = kind ∧ kind ≠ .none := by
  have hhash := h.hash hlength
  rw [hhash] at hlength ⊢
  exact kind_contentDigest hlength

/-- A run stores a current digest exactly if it does not miss a write. -/
theorem Valid.storesCurrent_iff (h : s.Valid kind) :
    s.StoresCurrent granularity kind r ↔ s.MissesNoWrite granularity kind r := by
  constructor
  · rintro hstores hquiet ⟨-, hlength, hstat⟩
    obtain ⟨hkind, hne⟩ := h.kind_eq hlength
    have hreuse := (reusePreviousHash_iff (r := r) hkind (h.enabled hlength)).mpr ⟨hlength, hstat⟩
    have hrun := run_of_reuse hne hreuse
    have hcurrent := hstores hquiet (hrun ▸ hlength)
    rw [← hcurrent, hrun, h.hash hlength]
  · intro hmisses hquiet hlength
    rcases fileHash_run hlength with ⟨hreuse, hhash⟩ | ⟨-, hhash⟩
    · rw [hhash] at hlength ⊢
      rw [reusePreviousHash_iff (h.kind_eq hlength).1 (h.enabled hlength)] at hreuse
      rw [h.hash hlength]
      cases hrewritten : s.rewritten with
      | false => exact h.current hrewritten hlength
      | true => exact hmisses hquiet ⟨hrewritten, hreuse⟩
    · rw [hhash, HashingRun.read, if_pos hquiet]

theorem Valid.run (h : s.Valid kind) (hr : s.StoresCurrent granularity kind r) :
    (s.run granularity kind r).Valid kind := by
  have hhash (hlength : (s.run granularity kind r).previous.hash.length ≠ 0) :
      (s.run granularity kind r).previous.hash =
        contentDigest kind (s.run granularity kind r).hashed := by
    have hhashed : (s.run granularity kind r).hashed =
        if reusePreviousHash (r.env kind s.file.content) s.previous (s.file.stat granularity) = true
        then s.hashed else r.read s.file.content := rfl
    rcases fileHash_run hlength with ⟨hreuse, hrun⟩ | ⟨hreuse, hrun⟩
    · rw [hrun] at hlength
      rw [hrun, hhashed, if_pos hreuse, h.hash hlength]
    · rw [hrun, hhashed, hreuse, if_neg Bool.false_ne_true]
  refine ⟨fun _ => rfl, hhash, fun hquiet hlength => ?_⟩
  have hduring : r.during = [] := by
    by_contra hne
    exact absurd hne (of_decide_eq_false hquiet)
  have hfile : (s.run granularity kind r).file = s.file := by
    change r.during.getLast?.getD s.file = s.file
    rw [hduring]
    rfl
  rw [← hhash hlength, hfile, hr hduring hlength]

theorem Valid.write (h : s.Valid kind) (w : Write) : (s.write w).Valid kind where
  enabled := h.enabled
  hash := h.hash
  current := nofun

theorem Valid.throughout_iff (h : s.Valid kind) (history : List FileEvent) :
    Throughout granularity kind (StoresCurrent granularity kind) s history ↔
      Throughout granularity kind (MissesNoWrite granularity kind) s history := by
  induction history generalizing s with
  | nil => exact Iff.rfl
  | cons event history ih =>
      cases event with
      | write w => exact ih (h.write w)
      | run r =>
          rw [Throughout, Throughout, ← h.storesCurrent_iff]
          exact and_congr_right fun hr => ih (h.run hr)

end HashedFile

/-- Over any history of a new file, the digests are current exactly if no run misses a write. -/
theorem history_storesCurrent_iff (granularity : ℕ) (kind : MetadataHashKind) (file : Write)
    (history : List FileEvent) :
    HashedFile.Throughout granularity kind (HashedFile.StoresCurrent granularity kind)
        { file := file } history ↔
      HashedFile.Throughout granularity kind (HashedFile.MissesNoWrite granularity kind)
        { file := file } history := by
  apply HashedFile.Valid.throughout_iff
  exact ⟨fun h => absurd rfl h, fun h => absurd rfl h, fun _ h => absurd rfl h⟩

/-- A file that is written again half a second after a run, with as many bytes. -/
def halfSecondHistory : List FileEvent := [
  .run { time := 10 ^ 10 + 10 ^ 8 },
  .write ⟨10 ^ 10 + 6 * 10 ^ 8, ascii "b"⟩,
  .run { time := 10 ^ 11 }]

/-- On a file system with time stamps of two seconds, the second run takes the digest of the content
that is gone. -/
theorem not_storesCurrent_halfSecondHistory :
    (10 ^ 10 :: halfSecondHistory.flatMap FileEvent.times).Pairwise (· < ·) ∧
      ¬HashedFile.Throughout (2 * 10 ^ 9) .sha256
        (HashedFile.StoresCurrent (2 * 10 ^ 9) .sha256) { file := ⟨10 ^ 10, ascii "a"⟩ }
        halfSecondHistory := by
  refine ⟨by decide, fun h => ?_⟩
  obtain ⟨-, hsecond, -⟩ := h
  exact absurd (hsecond rfl (by decide +kernel)) (by decide +kernel)

end Runs

end Flocate
