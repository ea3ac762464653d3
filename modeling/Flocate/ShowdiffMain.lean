import Flocate.LiveDiff
import Flocate.ShowdiffJson
import Flocate.SizeArguments
import Flocate.SnapshotFile

/-!
# `flocate-showdiff` as a program

From its arguments to its output and its exit status. It prints the recorded history of a database,
the difference of two databases, or that of a database and a live tree.
-/

namespace Flocate

open Bytes

structure EventFilter where
  showAdded : Bool := true
  showRemoved : Bool := true
  showModified : Bool := true
  filterSpecified : Bool := false

namespace EventFilter

/-- The first kind that is asked for turns off all the others. -/
def enable (filter : EventFilter) (kind : HistoryEventKind) : EventFilter :=
  let filter := if filter.filterSpecified then filter else ⟨false, false, false, true⟩
  match kind with
  | .added => { filter with showAdded := true }
  | .removed => { filter with showRemoved := true }
  | .modified => { filter with showModified := true }
  | _ => filter

def accepts (filter : EventFilter) : HistoryEventKind → Bool
  | .added => filter.showAdded
  | .removed => filter.showRemoved
  | .modified => filter.showModified
  | _ => true

end EventFilter

structure ShowdiffOptions where
  historyMode : Bool := false
  liveRoot : Option Str := none
  filter : EventFilter := {}
  compareAtime : Bool := false
  hashMaxSize : UInt64 := 0
  jsonOutput : Bool := false
  dbs : List Str := []

/-- Why the program ends before it opens a file. -/
inductive ShowdiffUsage where
  | help
  | version
  | misused
deriving DecidableEq

namespace ShowdiffOptions

def flag (options : ShowdiffOptions) (arg : Str) : Option ShowdiffOptions :=
  if arg = ascii "--history" then some { options with historyMode := true }
  else if arg = ascii "--added-only" then
    some { options with filter := options.filter.enable .added }
  else if arg = ascii "--removed-only" then
    some { options with filter := options.filter.enable .removed }
  else if arg = ascii "--modified-only" then
    some { options with filter := options.filter.enable .modified }
  else if arg = ascii "--compare-atime" then some { options with compareAtime := true }
  else if arg = ascii "--json" then some { options with jsonOutput := true }
  else if arg.head? = some 45 ∧ 1 < arg.length then none
  else some { options with dbs := options.dbs ++ [arg] }

def parse : List Str → ShowdiffOptions → Except ShowdiffUsage ShowdiffOptions
  | [], options => .ok options
  | arg :: args, options =>
      if arg = ascii "--live" then
        match args with
        | [] => .error .misused
        | root :: args => parse args { options with liveRoot := some root }
      else if arg = ascii "--help" then .error .help
      else if arg = ascii "--version" ∨ arg = ascii "-V" then .error .version
      else if arg = ascii "--hash-max-size" then
        match args with
        | [] => .error .misused
        | size :: args =>
            let (ok, hashMaxSize) := parseSizeInto options.hashMaxSize size
            if ok then parse args { options with hashMaxSize := hashMaxSize }
            else .error .misused
      else
        match options.flag arg with
        | none => .error .misused
        | some options => parse args options

end ShowdiffOptions

/-- What surrounds the program: the files, the trees that are at a path, what a live comparison
asks the system for, and the texts that are not its own. -/
structure ShowdiffEnv where
  files : Str → Option OpenFile
  trees : Str → Tree
  live : LiveEnv
  localtime : Int64 → Option Str := fun _ => none
  versionText : Str := []

/-- The standard output and whether the exit status is that of a success. -/
structure ShowdiffExit where
  stdout : Str
  success : Bool

section Print

def formatMetadata (metadata : FileMetadata) : Str :=
  if metadata.enabled then
    ascii "mode=" ++ octal metadata.mode.toNat ++ ascii " uid=" ++ decimal metadata.uid.toNat ++
      ascii " gid=" ++ decimal metadata.gid.toNat ++ ascii " size=" ++
      decimal metadata.size.toNat ++ ascii " mtime=" ++ formatTime metadata.mtime ++
      ascii " ctime=" ++ formatTime metadata.ctime ++ ascii " atime=" ++
      formatTime metadata.atime ++
      (if metadata.hash.kind ≠ .none ∧ metadata.hash.length ≠ 0 then
        ascii " hash=" ++ hashKindName metadata.hash.kind ++ ascii ":" ++ hashHex metadata.hash
      else [])
  else ascii "(none)"

/-- `print_run_marker` without `--json`. -/
def textRunMarker (localtime : Int64 → Option Str) (event : HistoryEvent) : Str :=
  let sec := event.eventTime.sec
  let «when» :=
      if sec = 0 then ascii "unknown time" else (localtime sec).getD (ascii "unknown time")
  ascii "=== run " ++ «when» ++
    (if event.path = ascii "baseline" then ascii " (baseline: full scan, no per-file events)"
    else []) ++ ascii " ===\n"

/-- `print_event` without `--json`. A path is printed as a C string. -/
def textEvent (localtime : Int64 → Option Str) (event : HistoryEvent) : Str :=
  let old := ascii "  old: " ++ formatMetadata event.oldMetadata ++ ascii "\n"
  let new := ascii "  new: " ++ formatMetadata event.newMetadata ++ ascii "\n"
  let first := ascii "[" ++ kindName event.kind ++ ascii "] " ++ event.path.takeWhile (· ≠ 0) ++
    ascii "\n"
  match event.kind with
  | .runMarker => textRunMarker localtime event
  | .added => first ++ new
  | .removed => first ++ old
  | _ => first ++ old ++ new ++ ascii "  changed: " ++
      metadataDiffFields event.oldMetadata event.newMetadata ++ ascii "\n"

variable (env : ShowdiffEnv) (options : ShowdiffOptions)

def shownEvents (events : List HistoryEvent) : List HistoryEvent :=
  events.filter fun event => options.filter.accepts event.kind

def showEvent (event : HistoryEvent) : Str :=
  if options.jsonOutput then printEvent event else textEvent env.localtime event

def printEvents (events : List HistoryEvent) : Str :=
  (shownEvents options events).flatMap (showEvent env options)

def countPrinted (events : List HistoryEvent) : ℕ :=
  (shownEvents options events).countP fun event => event.kind ≠ .runMarker

/-- The events, and a line if there is none to print. -/
def printDifferences (nothing : Str) (events : List HistoryEvent) : ShowdiffExit :=
  ⟨printEvents env options events ++
    if countPrinted options events = 0 ∧ options.jsonOutput = false then nothing else [], true⟩

end Print

section Modes

variable {σ : Type} (stream : StreamDecoder σ) (advancing : stream.Advancing)
  (zstd : Str → Zstd σ) (transfer : ℕ → ℕ → Option ℕ) (env : ShowdiffEnv)
  (options : ShowdiffOptions)

/-- `load_snapshot` from `open` on. -/
def openSnapshot (name : Str) : Except Fault (Option LoadedSnapshot) :=
  match env.files name with
  | none => .ok none
  | some file =>
      match (readHeader transfer file).result with
      | none => .ok none
      | some hdr =>
          match (loadSnapshotFile stream advancing zstd transfer file hdr).result with
          | none => .ok none
          | some snap => snap.map some

/-- `load_history_events` from `open` on. -/
def openHistory (name : Str) : Option (List HistoryEvent) := do
  let file ← env.files name
  let hdr ← (readHeader transfer file).result
  (loadHistoryEvents stream advancing transfer file hdr).result

def failed : ShowdiffExit := ⟨[], false⟩

def runHistoryMode (db : Str) : ShowdiffExit :=
  match openHistory stream advancing transfer env db with
  | none => failed
  | some [] =>
      ⟨if options.jsonOutput then []
        else ascii "No history events recorded in " ++ db ++ ascii ".\n", true⟩
  | some events => ⟨printEvents env options events, true⟩

def runDiffMode (oldDb newDb : Str) : Except Fault ShowdiffExit := do
  match ← openSnapshot stream advancing zstd transfer env oldDb with
  | none => .ok failed
  | some oldSnap =>
      match ← openSnapshot stream advancing zstd transfer env newDb with
      | none => .ok failed
      | some newSnap =>
          .ok (printDifferences env options
            (ascii "No differences between " ++ oldDb ++ ascii " and " ++ newDb ++ ascii ".\n")
            (diffSnapshots options.compareAtime oldSnap.toSnapshot newSnap.toSnapshot))

/-- What the comparison with a live tree depends on. -/
def liveEnv (snap : LoadedSnapshot) : LiveEnv :=
  { env.live with
    prune := snap.prune
    compareAtime := options.compareAtime
    hashMaxSize := options.hashMaxSize }

def runLiveMode (db root : Str) : Except Fault ShowdiffExit := do
  match ← openSnapshot stream advancing zstd transfer env db with
  | none => .ok failed
  | some snap =>
      match diffWithLive (liveEnv env options snap) snap.toSnapshot root
          (env.trees (normalizeRoot root ++ snap.scanRoot)) with
      | none => .ok failed
      | some events =>
          .ok (printDifferences env options
            (ascii "No differences between " ++ db ++ ascii " and live filesystem rooted at " ++
              root ++ ascii ".\n") events)

def runMode : Except Fault ShowdiffExit :=
  match options.liveRoot, options.dbs with
  | some root, [db] =>
      if options.historyMode then .ok failed
      else runLiveMode stream advancing zstd transfer env options db root
  | none, [db] => .ok (runHistoryMode stream advancing transfer env options db)
  | none, [oldDb, newDb] =>
      if options.historyMode then .ok failed
      else runDiffMode stream advancing zstd transfer env options oldDb newDb
  | _, _ => .ok failed

/-- `main`. The usage is printed to the standard error. -/
def showdiff (args : List Str) : Except Fault ShowdiffExit :=
  match ShowdiffOptions.parse args {} with
  | .error .help => .ok ⟨[], true⟩
  | .error .version => .ok ⟨env.versionText, true⟩
  | .error .misused => .ok failed
  | .ok options => runMode stream advancing zstd transfer env options

end Modes

end Flocate
