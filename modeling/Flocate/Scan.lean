import Flocate.Conf
import Flocate.DirPath

/-!
# Walking the file system

`scan` lists a directory, adds its entries to the database and then goes through its subdirectories.
An unchanged directory is listed from the previous database, which is read in step with the walk. A
directory tree is what the calls of the walk return; how `fstat` of an open directory fails and the
limit of open files are left out, since both end the run.
-/

namespace Flocate

open Bytes

/-- `S_ISDIR` and `S_ISREG`. -/
def FileMetadata.isDir (metadata : FileMetadata) : Bool := metadata.mode &&& 0xF000 = 0x4000
def FileMetadata.isReg (metadata : FileMetadata) : Bool := metadata.mode &&& 0xF000 = 0x8000

/-- What there is at a name: its `stat`, its device, and which calls on it do not work. -/
structure Node where
  metadata : FileMetadata
  dev : ℕ := 0
  statFails : Bool := false
  /-- `readdir` gives no type. -/
  typeUnknown : Bool := false
  openFails : Bool := false
  /-- `fdopendir` fails. -/
  listFails : Bool := false

/-- A directory as `readdir` lists it, each entry with what is in it if it is a directory. -/
inductive Dir where
  | nil
  | cons (name : Str) (node : Node) (content rest : Dir)

def timeIsCurrent (cache t : DirTime) : Bool := !t.lt cache

def getDirtimeFromStat (cache : DirTime) (metadata : FileMetadata) : DirTime :=
  let dt := if metadata.ctime.lt metadata.mtime then metadata.mtime else metadata.ctime
  if timeIsCurrent cache dt then unknownDirTime else dt

/-- What a run depends on besides the tree. The clock is given by the earliest time that is too
current when the metadata of a path is read, before it is opened or after that. -/
structure ScanEnv where
  conf : Conf
  rehashAll : Bool := false
  hashMaxSize : UInt64 := 0
  compareAtime : Bool := false
  /-- `history_events` is not null. -/
  recordHistory : Bool := false
  cache : Str → Bool → DirTime
  realtime : Str → DirTime := fun _ => unknownDirTime
  isBindMount : Str → Bool := fun _ => false
  filesystemIsExcluded : Str → Bool := fun _ => false
  hashAllowedOnFs : Str → Bool := fun _ => true
  computeFileHash : Str → Option MetadataHash := fun _ => none

/-- The records of the previous database that are still to be read. -/
structure OldDatabase where
  records : List FileRecord := []
  /-- There is an error behind the last record. -/
  broken : Bool := false
  error : Bool := false

structure Entry where
  name : Str
  isDirectory : Bool
  /-- There is a file descriptor. -/
  opened : Bool := false
  dt : DirTime := unknownDirTime
  dbModified : DirTime := unknownDirTime
  dev : ℕ := 0
  metadata : FileMetadata := {}
  previousMetadata : FileMetadata := {}
  existedBefore : Bool := false
  matchedInNewScan : Bool := false
  hashAllowed : Bool := true

/-- What a run changes. `checked` are the calls of `string_list_contains_dir_path` for the pruned
paths, with their results. -/
structure ScanState where
  existing : OldDatabase := {}
  prunepathsIndex : ℕ := 0
  checked : List (Str × Bool) := []
  corpus : List FileRecord := []
  history : List HistoryEvent := []

structure ScanArgs where
  path : Str
  dev : ℕ
  modified : DirTime
  dbModified : DirTime
  hashAllowed : Bool
  listFails : Bool

def ScanArgs.pathPlusSlash (args : ScanArgs) : Str :=
  if args.path.getLast? = some 47 then args.path else args.path ++ [47]

/-- An entry of a directory, with the call of `scan` for it. -/
structure Found where
  name : Str
  node : Node
  scan : ScanArgs → ScanState → ScanState

namespace OldDatabase

/-- The first loop of `scan`: what comes before the directory is skipped. Returns whether it got to
the end. -/
def skipRecords (path : Str) : List FileRecord → List FileRecord × Bool
  | [] => ([], true)
  | record :: records =>
      if record.path = [] then (records, false)
      else if dirPathCmp path record.path ≤ 0 then (record :: records, false)
      else skipRecords path records

/-- The second loop: what is in the directory is taken. -/
def takeEntries (pathPlusSlash : Str) : List FileRecord → List Entry × List FileRecord × Bool
  | [] => ([], [], true)
  | record :: records =>
      if record.path = [] then ([], records, false)
      else if ¬pathPlusSlash <+: record.path then ([], record :: records, false)
      else if 47 ∈ record.path.drop pathPlusSlash.length then ([], record :: records, false)
      else
        let (entries, rest, atEnd) := takeEntries pathPlusSlash records
        ({
          name := record.path.drop pathPlusSlash.length
          isDirectory := 0 ≤ record.dirTimestamp.sec
          dbModified := record.dirTimestamp
          previousMetadata := record.metadata
          existedBefore := true } :: entries, rest, atEnd)

def skipBefore (old : OldDatabase) (path : Str) : OldDatabase :=
  let (records, atEnd) := skipRecords path old.records
  { old with records := records, error := old.error || (atEnd && old.broken) }

def readDirectory (old : OldDatabase) (pathPlusSlash : Str) : List Entry × OldDatabase :=
  let (entries, records, atEnd) := takeEntries pathPlusSlash old.records
  (entries, { old with records := records, error := old.error || (atEnd && old.broken) })

end OldDatabase

def Found.entry (f : Found) : Entry where
  name := f.name
  isDirectory :=
    if f.node.typeUnknown then !f.node.statFails && f.node.metadata.isDir
    else f.node.metadata.isDir

def sortEntries (entries : List Entry) : List Entry :=
  entries.mergeSort fun a b => decide ¬b.name < a.name

/-- Loads what the old database says about the entries, and marks what is still there. -/
def mergeOld : List Entry → List Entry → List Entry × List Entry
  | [], olds => ([], olds)
  | entries, [] => (entries, [])
  | e :: entries, old :: olds =>
      if e.name < old.name then
        let (entries, olds) := mergeOld entries (old :: olds)
        (e :: entries, olds)
      else if e.name = old.name then
        let (entries, olds) := mergeOld entries ({ old with matchedInNewScan := true } :: olds)
        ({ e with
          dbModified := old.dbModified
          previousMetadata := old.previousMetadata
          existedBefore := true } :: entries, olds)
      else
        let (entries, olds) := mergeOld (e :: entries) olds
        (entries, old :: olds)
termination_by entries olds => entries.length + olds.length

section Scan

variable (env : ScanEnv) (args : ScanArgs) (listing : List Found)

def lookup (name : Str) : Option Found := listing.find? fun f => f.name = name

def reusePreviousHash (prev metadata : FileMetadata) : Bool :=
  !env.rehashAll && prev.enabled && prev.hash.kind = env.conf.metadataHashKind &&
    prev.hash.length ≠ 0 && prev.size = metadata.size && dirTimeEquals prev.mtime metadata.mtime &&
    dirTimeEquals prev.ctime metadata.ctime

/-- The digest that is stored for a file with this `stat`. -/
def fileHash (path : Str) (hashAllowed : Bool) (prev metadata : FileMetadata) : MetadataHash :=
  if env.conf.metadataHashKind ≠ .none ∧ metadata.isReg = true then
    let tooLarge := env.hashMaxSize ≠ 0 ∧ env.hashMaxSize < metadata.size
    if reusePreviousHash env prev metadata then prev.hash
    else if hashAllowed ∧ ¬tooLarge then (env.computeFileHash path).getD {}
    else metadata.hash
  else metadata.hash

def statEntry (e : Entry) : Entry :=
  match lookup listing e.name with
  | none => e
  | some f =>
      if f.node.statFails then e
      else
        let path := args.pathPlusSlash ++ e.name
        { e with
          dt :=
            if f.node.metadata.isDir then getDirtimeFromStat (env.cache path false) f.node.metadata
            else notADir
          metadata := { f.node.metadata with
            hash := fileHash env path args.hashAllowed e.previousMetadata f.node.metadata } }

def makeTimedEvent (kind : HistoryEventKind) (path : Str)
    (oldMetadata newMetadata : FileMetadata) : HistoryEvent where
  kind := kind
  path := path
  eventTime := env.realtime path
  oldMetadata := oldMetadata
  newMetadata := newMetadata

/-- The event for an entry, unless its `stat` fails. -/
def statEvent (e : Entry) : Option HistoryEvent :=
  match lookup listing e.name with
  | none => none
  | some f =>
      let path := args.pathPlusSlash ++ e.name
      let metadata := (statEntry env args listing e).metadata
      if f.node.statFails then none
      else if !e.existedBefore then some (makeTimedEvent env .added path {} metadata)
      else if !metadataEquals metadata e.previousMetadata env.compareAtime then
        some (makeTimedEvent env .modified path e.previousMetadata metadata)
      else none

/-- Opens a directory to find the time that is stored for it. -/
def openEntry (e : Entry) : Entry :=
  if !e.isDirectory then { e with dt := notADir }
  else if e.name ∈ env.conf.prunenames then e
  else
    match lookup listing e.name with
    | none => e
    | some f =>
        let path := args.pathPlusSlash ++ e.name
        if f.node.openFails || !f.node.metadata.isDir then e
        else if f.node.dev ≠ args.dev ∧ env.filesystemIsExcluded path = true then
          { e with dev := f.node.dev, hashAllowed := args.hashAllowed }
        else
          { e with
            opened := true
            dev := f.node.dev
            hashAllowed :=
              if f.node.dev ≠ args.dev ∧ args.hashAllowed = true ∧
                  env.conf.metadataHashKind ≠ .none then env.hashAllowedOnFs path
              else args.hashAllowed
            dt := getDirtimeFromStat (env.cache path true) f.node.metadata }

def removedEvent (old : Entry) : Option HistoryEvent :=
  if old.matchedInNewScan then none
  else some (makeTimedEvent env .removed (args.pathPlusSlash ++ old.name) old.previousMetadata {})

def Entry.record (e : Entry) : FileRecord where
  path := args.pathPlusSlash ++ e.name
  dirTimestamp := e.dt
  metadata := e.metadata

def scanEntry (s : ScanState) (e : Entry) : ScanState :=
  match lookup listing e.name with
  | none => s
  | some f =>
      if e.isDirectory && e.opened then
        f.scan {
          path := args.pathPlusSlash ++ e.name
          dev := e.dev
          modified := e.dt
          dbModified := e.dbModified
          hashAllowed := e.hashAllowed
          listFails := f.node.listFails } s
      else s

/-- `scan` from where the entries are known; `olds` are those of the previous database, unless they
are the entries. -/
def scanEntries (entries olds : List Entry) (s : ScanState) : ScanState :=
  let events := entries.filterMap (statEvent env args listing) ++
    olds.filterMap (removedEvent env args)
  let entries := entries.map fun e => openEntry env args listing (statEntry env args listing e)
  entries.foldl (scanEntry args listing) { s with
    corpus := s.corpus ++ entries.map (Entry.record args)
    history := if env.recordHistory then s.history ++ events else s.history }

def isUnchanged (existing : OldDatabase) : Bool :=
  !existing.error && 0 < args.dbModified.sec && dirTimeEquals args.modified args.dbModified

def scanDirectory (s : ScanState) : ScanState :=
  let (pruned, idx) :=
    stringListContainsDirPath env.conf.prunepaths s.prunepathsIndex args.path
  let s := { s with
    prunepathsIndex := idx
    checked := s.checked ++ [(args.path, pruned)] }
  if pruned then s
  else if env.conf.pruneBindMounts && env.isBindMount args.path then s
  else
    let (olds, existing) := (s.existing.skipBefore args.path).readDirectory args.pathPlusSlash
    let s := { s with existing := existing }
    if isUnchanged args existing then scanEntries env args listing olds [] s
    else if args.listFails then s
    else
      let (entries, olds) := mergeOld (sortEntries (listing.map Found.entry)) olds
      scanEntries env args listing entries olds s

end Scan

namespace Dir

def found (env : ScanEnv) : Dir → List Found
  | nil => []
  | cons name node content rest =>
      ⟨name, node, fun args => scanDirectory env args (content.found env)⟩ :: rest.found env

end Dir

def scan (env : ScanEnv) (content : Dir) (args : ScanArgs) (s : ScanState) : ScanState :=
  scanDirectory env args (content.found env) s

def scanRoot (env : ScanEnv) (root : Str) (node : Node) (content : Dir) (existing : OldDatabase) :
    ScanState :=
  scan env content {
    path := root
    dev := node.dev
    modified := getDirtimeFromStat (env.cache root true) node.metadata
    dbModified := unknownDirTime
    hashAllowed := env.conf.metadataHashKind = .none || env.hashAllowedOnFs root
    listFails := node.listFails } { existing := existing }

end Flocate
