import Flocate.ExistingDB
import Flocate.Lib.Fault
import Flocate.Lib.WordOrder
import Mathlib.Data.List.Lex

/-!
# Snapshots of a database

`load_snapshot` decodes the paths and the metadata of a whole database and sorts them by path. The
configuration that it parses as well belongs to the comparison with a live tree.
-/

namespace Flocate

open Bytes Fault

structure Snapshot where
  paths : List Str
  metadata : List FileMetadata
  hashKind : MetadataHashKind
  scanRoot : Str
deriving DecidableEq

variable {σ : Type} (zstd : Zstd σ)

/-- `decompress_stream`. The outer `none` says that there were not enough rounds, the inner one
that the decoder failed. -/
def decompressStream : ℕ → σ → Str → Option (Option Str)
  | 0, _, _ => none
  | fuel + 1, ctx, input =>
      if input = [] then some (some [])
      else
        match zstd.stream.call ctx input 8192 with
        | none => some none
        | some (consumed, out, ctx) =>
            (decompressStream fuel ctx (input.drop consumed)).map (Option.map (out ++ ·))

theorem decodeMetadataRecord_length {p rest : Str} {m : FileMetadata}
    (h : decodeMetadataRecord p = some (m, rest)) : rest.length < p.length := by
  have hpos : ∀ n, n ≠ 0 → metadataRecordSize p ≠ 0 → (p.drop n).length < p.length := by
    intro n hn hsize
    have hne : p ≠ [] := fun hp => hsize (by rw [hp, metadataRecordSize, if_pos rfl])
    have hlength := List.length_pos_iff.mpr hne
    rw [List.length_drop]
    omega
  rw [decodeMetadataRecord] at h
  split at h
  · cases h
  · rename_i hsize
    split at h
    · obtain ⟨-, rfl⟩ := Prod.mk.inj (Option.some.inj h)
      exact hpos 1 Nat.one_ne_zero hsize
    · obtain ⟨-, rfl⟩ := Prod.mk.inj (Option.some.inj h)
      exact hpos _ hsize hsize

/-- The loop over the metadata stream; a truncated record ends it. -/
def decodeMetadataStream (p : Str) : List FileMetadata :=
  match _h : decodeMetadataRecord p with
  | none => []
  | some (m, rest) => m :: decodeMetadataStream rest
termination_by p.length
decreasing_by exact decodeMetadataRecord_length _h

def decompressBlock (compressed : Str) : Option Str := do
  let contentSize ← zstd.contentSize compressed
  if 1 <<< 30 < contentSize then none
  else zstd.decompress compressed contentSize

/-- The last path of a block has no zero byte behind it. -/
def extractPathsFromBlock (p : Str) : List Str :=
  if _h : p = [] then []
  else
    let path := p.takeWhile (· ≠ 0)
    (if path ≠ [] then [path] else []) ++ extractPathsFromBlock (p.drop (path.length + 1))
termination_by p.length
decreasing_by
  have := List.length_pos_iff.mpr _h
  rw [List.length_drop]
  omega

def commonPrefixLength : Str → Str → ℕ
  | a :: as, b :: bs => if a = b then commonPrefixLength as bs + 1 else 0
  | _, _ => 0

def rfindSlash (s : Str) (pos : ℕ) : Option ℕ :=
  ((List.range s.length).filter fun i => i ≤ pos ∧ s[i]? = some 47).getLast?

def scanRootFromPaths (sortedPaths : List Str) : Str :=
  match sortedPaths.head?, sortedPaths.getLast? with
  | some a, some b =>
      match rfindSlash a (commonPrefixLength a b - 1) with
      | none => [47]
      | some slash => if slash = 0 then [47] else a.take slash
  | _, _ => [47]

def resize {α : Type} (xs : List α) (n : ℕ) (x : α) : List α :=
  (xs ++ List.replicate (n - xs.length) x).take n

def indexOrder (paths : List Str) : List UInt32 :=
  ((List.range paths.length).map UInt32.ofNat).mergeSort fun a b =>
    decide ¬paths.getD b.toNat [] < paths.getD a.toNat []

/-- Sorts through an index permutation. `iota` counts in an `int`, and once more behind the last
index. -/
def sortedOrder (paths : List Str) : Except Fault (List UInt32) :=
  if 2 ^ 31 ≤ paths.length then .error .overflow else .ok (indexOrder paths)

/-- The paths and the metadata in an order, the metadata being as many as the paths. -/
def orderedSnapshot (paths : List Str) (metadata : List FileMetadata) (order : List UInt32) :
    Snapshot :=
  let kinds := (metadata.map (·.hash.kind)).filter (· ≠ .none)
  let metadata :=
    if paths.length ≠ metadata.length then resize metadata paths.length {} else metadata
  let sortedPaths := order.map fun i => paths.getD i.toNat []
  { paths := sortedPaths
    metadata := order.map fun i => metadata.getD i.toNat {}
    hashKind := kinds.headD .none
    scanRoot := scanRootFromPaths sortedPaths }

/-- The end of `load_snapshot`, from the comparison of the counts on. -/
def assembleSnapshot (paths : List Str) (metadata : List FileMetadata) : Except Fault Snapshot :=
  (sortedOrder paths).map (orderedSnapshot paths metadata)

def loadSnapshot (db : Database) (fuel : ℕ) : Option (Except Fault (Option Snapshot)) :=
  if db.metadata = [] then some (.ok none)
  else
    (decompressStream zstd fuel zstd.stream.init db.metadata).map fun
      | none => .ok none
      | some stream =>
          if db.filenameBlocks.length < db.numDocids.toNat then .ok none
          else
            match (db.filenameBlocks.take db.numDocids.toNat).mapM (decompressBlock zstd) with
            | none => .ok none
            | some blocks => (assembleSnapshot (blocks.flatMap extractPathsFromBlock)
                (decodeMetadataStream stream)).map some

end Flocate
