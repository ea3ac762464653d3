import Flocate.Lib.Bytes

/-!
# File metadata, database records and history events

The structures of `metadata.h`. Both enumerations have the underlying type `uint8_t`, and the
decoders cast raw bytes to them, so each has a constructor for the bytes that no enumerator names.
-/

namespace Flocate

open Bytes

structure DirTime where
  sec : Int64
  nsec : Int32
deriving DecidableEq, Inhabited

namespace DirTime

/-- `dir_time::operator<`: seconds first, then nanoseconds. -/
def lt (a b : DirTime) : Bool :=
  if a.sec ≠ b.sec then a.sec < b.sec else a.nsec < b.nsec

end DirTime

def unknownDirTime : DirTime := ⟨0, 0⟩

def notADir : DirTime := ⟨-1, 0⟩

inductive MetadataHashKind where
  | none
  | sha256
  | xxHash64
  | other (v : UInt8) (h : 2 < v)
deriving DecidableEq

namespace MetadataHashKind

def toByte : MetadataHashKind → UInt8
  | none => 0
  | sha256 => 1
  | xxHash64 => 2
  | other v _ => v

def ofByte (v : UInt8) : MetadataHashKind :=
  if h : 2 < v then other v h
  else if v = 0 then none
  else if v = 1 then sha256
  else xxHash64

theorem ofByte_toByte (k : MetadataHashKind) : ofByte k.toByte = k := by
  cases k with
  | none => rfl
  | sha256 => rfl
  | xxHash64 => rfl
  | other v h => simp [toByte, ofByte, h]

end MetadataHashKind

structure MetadataHash where
  kind : MetadataHashKind := .none
  value : Vector UInt8 32 := Vector.replicate 32 0
  length : ℕ := 0
deriving DecidableEq

namespace MetadataHash

def digest (h : MetadataHash) : Str := h.value.toList.take h.length

/-- A zero-initialised hash of which only the first bytes are then written. -/
def ofDigest (kind : MetadataHashKind) (bytes : Str) : MetadataHash where
  kind := kind
  value := Vector.ofFn fun i => bytes.getD i 0
  length := bytes.length

theorem digest_ofDigest (kind : MetadataHashKind) (bytes : Str) (h : bytes.length ≤ 32) :
    (ofDigest kind bytes).digest = bytes := by
  apply List.ext_getElem
  · simpa [digest, ofDigest] using h
  · intro i h1 h2
    simp [digest, ofDigest, h2]

end MetadataHash

structure FileMetadata where
  enabled : Bool := false
  mode : UInt32 := 0
  uid : UInt32 := 0
  gid : UInt32 := 0
  size : UInt64 := 0
  mtime : DirTime := unknownDirTime
  ctime : DirTime := unknownDirTime
  atime : DirTime := unknownDirTime
  hash : MetadataHash := {}
deriving DecidableEq

structure FileRecord where
  path : Str
  dirTimestamp : DirTime := unknownDirTime
  metadata : FileMetadata := {}
deriving DecidableEq

inductive HistoryEventKind where
  | added
  | removed
  | modified
  | runMarker
  | other (v : UInt8) (h : 3 < v)
deriving DecidableEq

structure HistoryEvent where
  kind : HistoryEventKind := .added
  path : Str := []
  eventTime : DirTime := unknownDirTime
  oldMetadata : FileMetadata := {}
  newMetadata : FileMetadata := {}
deriving DecidableEq

def dirTimeEquals (a b : DirTime) : Bool := a.sec = b.sec ∧ a.nsec = b.nsec

def hashEquals (a b : MetadataHash) : Bool :=
  a.kind = b.kind ∧ a.length = b.length ∧
    a.value.toList.take a.length = b.value.toList.take a.length

/-- The access time counts only when `compareAtime` asks for it. -/
def metadataEquals (a b : FileMetadata) (compareAtime : Bool) : Bool :=
  if a.enabled ≠ b.enabled then false
  else if !a.enabled then true
  else if compareAtime && !dirTimeEquals a.atime b.atime then false
  else a.mode = b.mode ∧ a.uid = b.uid ∧ a.gid = b.gid ∧ a.size = b.size ∧
    dirTimeEquals a.mtime b.mtime ∧ dirTimeEquals a.ctime b.ctime ∧ hashEquals a.hash b.hash

def addField (out : Str) (name : String) : Str :=
  (if out = [] then [] else out ++ [44]) ++ ascii name

def metadataDiffFields (a b : FileMetadata) : Str :=
  if a.enabled ≠ b.enabled then
    addField [] (if a.enabled then "metadata-lost" else "metadata-gained")
  else if !a.enabled then []
  else
    [("mode", decide (a.mode ≠ b.mode)), ("uid", decide (a.uid ≠ b.uid)),
      ("gid", decide (a.gid ≠ b.gid)), ("size", decide (a.size ≠ b.size)),
      ("mtime", !dirTimeEquals a.mtime b.mtime), ("ctime", !dirTimeEquals a.ctime b.ctime),
      ("atime", !dirTimeEquals a.atime b.atime), ("hash", !hashEquals a.hash b.hash)].foldl
      (fun out field => if field.2 then addField out field.1 else out) []

theorem dirTimeEquals_iff (a b : DirTime) : dirTimeEquals a b = true ↔ a = b := by
  cases a; cases b; simp [dirTimeEquals]

end Flocate
