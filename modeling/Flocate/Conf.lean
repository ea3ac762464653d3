import Flocate.Lib.NulJoin
import Flocate.Lib.UniqueSort
import Flocate.Metadata
import Mathlib.Data.List.Lex
import Mathlib.Data.List.TakeWhile
import Mathlib.Data.Nat.Digits.Defs

/-!
# The configuration of updatedb

`conf_prepare` reads `updatedb.conf`, then the command line, and puts the settings that a database
depends on into one string. Settings that only matter to the run at hand are left out.
-/

namespace Flocate

open Bytes

def isspace (c : UInt8) : Bool := c = 32 || (9 ≤ c && c ≤ 13)
def isdigit (c : UInt8) : Bool := 48 ≤ c && c ≤ 57
def toupper (c : UInt8) : UInt8 := if 97 ≤ c && c ≤ 122 then c - 32 else c
def tolower (c : UInt8) : UInt8 := if 65 ≤ c && c ≤ 90 then c + 32 else c

structure CStr where
  val : Str
  nul_free : 0 ∉ val

/-- What `c_str` makes of a string that may have zero bytes. -/
def cStr (s : Str) : CStr where
  val := s.takeWhile (· ≠ 0)
  nul_free h := by
    have hzero := List.mem_takeWhile_imp h
    exact of_decide_eq_true hzero rfl

structure Conf where
  pruneBindMounts : Bool := false
  prunefs : List Str := []
  prunenames : List Str := []
  prunepaths : List Str := []
  metadataHashKind : MetadataHashKind := .none
  historyDepth : ℕ := 1
  checkVisibility : Bool := true
  /-- The null pointer if no root has been given. -/
  scanRoot : Option Str := none

def parseBool (str : Str) : Option Bool :=
  if str = ascii "0" ∨ str = ascii "no" then some false
  else if str = ascii "1" ∨ str = ascii "yes" then some true
  else none

def readSign : Str → Bool × Str
  | 45 :: digits => (true, digits)
  | 43 :: digits => (false, digits)
  | digits => (false, digits)

def intMax : ℕ := 2 ^ 31 - 1

/-- A conversion by `strtol` that takes all of the string. -/
def parseInt (str : Str) : Option ℕ :=
  if str = [] then none
  else
    let (negative, digits) := readSign (str.dropWhile isspace)
    if digits = [] ∨ ¬digits.all isdigit then none
    else
      let value := digits.foldl (fun value c => 10 * value + (c.toNat - 48)) 0
      if negative ∧ value ≠ 0 ∨ intMax < value then none else some value

def parseMetadataHashKind (value : Str) : Option MetadataHashKind :=
  let lower := value.map tolower
  if lower = ascii "none" then some .none
  else if lower = ascii "xxh64" ∨ lower = ascii "xxhash64" ∨ lower = ascii "fast" then
    some .xxHash64
  else if lower = ascii "sha256" then some .sha256
  else none

def metadataHashKindToString : MetadataHashKind → Str
  | .none => ascii "none"
  | .xxHash64 => ascii "xxh64"
  | .sha256 => ascii "sha256"
  | .other _ _ => ascii "unknown"

theorem length_dropWhile_not_lt {p : UInt8 → Bool} {start : Str} (h : start ≠ [])
    (hhead : p (start.head h) = false) : (start.dropWhile (!p ·)).length < start.length := by
  cases start with
  | nil => exact absurd rfl h
  | cons c start =>
      rw [List.head_cons] at hhead
      rw [List.dropWhile_cons_of_pos (by rw [hhead]; rfl), List.length_cons]
      exact Nat.lt_succ_of_le (List.dropWhile_suffix _).length_le

def varAddValues (val : Str) : List Str :=
  if _h : val.dropWhile isspace = [] then []
  else
    let start := val.dropWhile isspace
    start.takeWhile (!isspace ·) :: varAddValues (start.dropWhile (!isspace ·))
termination_by val.length
decreasing_by
  exact Nat.lt_of_lt_of_le (length_dropWhile_not_lt _h (List.head_dropWhile_not isspace _h))
    (List.dropWhile_suffix _).length_le

def varFinish (list : List Str) : List Str :=
  UniqueSort.uniqueSort id (fun a b => decide ¬b < a) list

inductive ConfVariable where
  | pruneBindMounts
  | prunefs
  | prunenames
  | prunepaths
  | metadataHash
  | historyDepth
deriving DecidableEq

namespace Conf

def assign (conf : Conf) (var : ConfVariable) (quoted : Str) : Option Conf :=
  let val := (cStr quoted).val
  match var with
  | .pruneBindMounts => (parseBool val).map fun flag => { conf with pruneBindMounts := flag }
  | .prunefs => some { conf with prunefs := conf.prunefs ++ varAddValues val }
  | .prunenames => some { conf with prunenames := conf.prunenames ++ varAddValues val }
  | .prunepaths => some { conf with prunepaths := conf.prunepaths ++ varAddValues val }
  | .metadataHash => (parseMetadataHashKind quoted).map fun kind =>
      { conf with metadataHashKind := kind }
  | .historyDepth => (parseInt val).map fun depth => { conf with historyDepth := depth }

/-- The loop of `parse_updatedb_conf` over the assignments; `had` are the variables before. -/
def parseUpdatedbConf : List (ConfVariable × Str) → List ConfVariable → Conf → Option Conf
  | [], _, conf => some conf
  | (var, quoted) :: assignments, had, conf =>
      if var ∈ had then none
      else (conf.assign var quoted).bind (parseUpdatedbConf assignments (var :: had))

end Conf

/-- The options that bear on the configuration, with their arguments. -/
inductive ConfOption where
  | addPrunefs (optarg : CStr)
  | addPrunenames (optarg : CStr)
  | addPrunepaths (optarg : CStr)
  | addSinglePrunepath (optarg : CStr)
  | databaseRoot (optarg : CStr)
  | pruneBindMounts (optarg : CStr)
  | prunefs (optarg : CStr)
  | prunenames (optarg : CStr)
  | prunepaths (optarg : CStr)
  | requireVisibility (optarg : CStr)
  | metadataHash (optarg : CStr)
  | historyDepth (optarg : CStr)

structure ArgumentState where
  conf : Conf
  prunefsChanged : Bool := false
  prunenamesChanged : Bool := false
  prunepathsChanged : Bool := false
  gotPruneBindMounts : Bool := false
  gotVisibility : Bool := false

namespace ArgumentState

variable (realpath : Str → Option CStr)

def parseOption (s : ArgumentState) : ConfOption → Option ArgumentState
  | .pruneBindMounts optarg =>
      if s.gotPruneBindMounts then none
      else (parseBool optarg.val).map fun flag =>
        { s with gotPruneBindMounts := true, conf := { s.conf with pruneBindMounts := flag } }
  | .prunefs optarg =>
      if s.prunefsChanged then none
      else some { s with
        prunefsChanged := true
        conf := { s.conf with prunefs := varAddValues optarg.val } }
  | .prunenames optarg =>
      if s.prunenamesChanged then none
      else some { s with
        prunenamesChanged := true
        conf := { s.conf with prunenames := varAddValues optarg.val } }
  | .prunepaths optarg =>
      if s.prunepathsChanged then none
      else some { s with
        prunepathsChanged := true
        conf := { s.conf with prunepaths := varAddValues optarg.val } }
  | .databaseRoot optarg =>
      if s.conf.scanRoot ≠ none then none
      else (realpath optarg.val).map fun root =>
        { s with conf := { s.conf with scanRoot := some root.val } }
  | .addPrunepaths optarg => some { s with
      prunepathsChanged := true
      conf := { s.conf with prunepaths := s.conf.prunepaths ++ varAddValues optarg.val } }
  | .addSinglePrunepath optarg => some { s with
      prunepathsChanged := true
      conf := { s.conf with prunepaths := s.conf.prunepaths ++ [optarg.val] } }
  | .metadataHash optarg =>
      (parseMetadataHashKind optarg.val).map fun kind =>
        { s with conf := { s.conf with metadataHashKind := kind } }
  | .historyDepth optarg =>
      (parseInt optarg.val).map fun depth =>
        { s with conf := { s.conf with historyDepth := depth } }
  | .addPrunefs optarg => some { s with
      prunefsChanged := true
      conf := { s.conf with prunefs := s.conf.prunefs ++ varAddValues optarg.val } }
  | .requireVisibility optarg =>
      if s.gotVisibility then none
      else (parseBool optarg.val).map fun flag =>
        { s with gotVisibility := true, conf := { s.conf with checkVisibility := flag } }
  | .addPrunenames optarg => some { s with
      prunenamesChanged := true
      conf := { s.conf with prunenames := s.conf.prunenames ++ varAddValues optarg.val } }

end ArgumentState

/-- A run of updatedb: what it finds in `updatedb.conf` and on its command line. -/
structure Invocation where
  assignments : List (ConfVariable × Str)
  options : List ConfOption
  realpath : Str → Option CStr

/-- What `conf_prepare` does behind the options up to `gen_conf_block`, with the default root. -/
def Conf.finish (conf : Conf) : Conf :=
  { conf with
    prunefs := varFinish (conf.prunefs.map (·.map toupper))
    prunenames := varFinish conf.prunenames
    prunepaths := varFinish conf.prunepaths
    scanRoot := some (conf.scanRoot.getD (ascii "/")) }

/-- `conf_prepare`; nothing if the program ends with an error. -/
def Invocation.confPrepare (inv : Invocation) : Option Conf := do
  let conf ← Conf.parseUpdatedbConf inv.assignments [] {}
  let s ← inv.options.foldlM (ArgumentState.parseOption inv.realpath) { conf := conf }
  some s.conf.finish

def decimal (n : ℕ) : Str :=
  if n = 0 then [48] else (Nat.digits 10 n).reverse.map fun d => UInt8.ofNat (48 + d)

namespace Conf

def genConfBlockStringList (strings : List Str) : Str := strings.flatMap (· ++ [0]) ++ [0]

def genConfBlock (conf : Conf) : Str :=
  ascii "prune_bind_mounts" ++ [0] ++ (if conf.pruneBindMounts then [49, 0, 0] else [48, 0, 0]) ++
    ascii "prunefs" ++ [0] ++ genConfBlockStringList conf.prunefs ++
    ascii "prunenames" ++ [0] ++ genConfBlockStringList conf.prunenames ++
    ascii "prunepaths" ++ [0] ++ genConfBlockStringList conf.prunepaths ++
    ascii "metadata_hash" ++ [0] ++ metadataHashKindToString conf.metadataHashKind ++ [0, 0] ++
    ascii "history_depth" ++ [0] ++ decimal conf.historyDepth ++ [0, 0]

end Conf

end Flocate
