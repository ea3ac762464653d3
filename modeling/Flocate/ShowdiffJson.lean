import Flocate.ConfBlock
import Flocate.Lib.JsonString

/-!
# The JSON output of `flocate-showdiff`

One object a line for each event. The path of an event is the only text in it that comes from
outside, and its literal keeps all of it inside.
-/

namespace Flocate

open Bytes JsonString

section Model

def hexChar (d : UInt8) : UInt8 := if d < 10 then '0'.toUInt8 + d else 'a'.toUInt8 + (d - 10)

def hexByte (c : UInt8) : Str := [hexChar (c >>> 4), hexChar (c &&& 0xf)]

def jsonEscape (c : UInt8) : Str :=
  if c = '"'.toUInt8 then ascii "\\\""
  else if c = '\\'.toUInt8 then ascii "\\\\"
  else if c = '\n'.toUInt8 then ascii "\\n"
  else if c = '\r'.toUInt8 then ascii "\\r"
  else if c = '\t'.toUInt8 then ascii "\\t"
  else if c < 0x20 then ascii "\\u00" ++ hexByte c
  else [c]

def jsonString (s : Str) : Str := '"'.toUInt8 :: (s.flatMap jsonEscape ++ ['"'.toUInt8])

def hashKindName : MetadataHashKind → Str
  | .none => ascii "none"
  | .sha256 => ascii "sha256"
  | .xxHash64 => ascii "xxh64"
  | .other _ _ => ascii "unknown"

def hashHex (hash : MetadataHash) : Str := hash.digest.flatMap hexByte

def octal (n : ℕ) : Str :=
  if n = 0 then ['0'.toUInt8] else (Nat.digits 8 n).reverse.map fun d => UInt8.ofNat (48 + d)

def signedDecimal (n : ℤ) : Str :=
  if n < 0 then '-'.toUInt8 :: decimal n.natAbs else decimal n.natAbs

def paddedDecimal (n : ℤ) : Str :=
  let digits := decimal n.natAbs
  if n < 0 then '-'.toUInt8 :: (List.replicate (8 - digits.length) '0'.toUInt8 ++ digits)
  else List.replicate (9 - digits.length) '0'.toUInt8 ++ digits

def formatTime (t : DirTime) : Str :=
  signedDecimal t.sec.toInt ++ ascii "." ++ paddedDecimal t.nsec.toInt

def jsonMetadata (metadata : FileMetadata) : Str :=
  if metadata.enabled then
    ascii "\x7b\"mode\":\"" ++ octal metadata.mode.toNat ++ ascii "\",\"uid\":" ++
      decimal metadata.uid.toNat ++ ascii ",\"gid\":" ++ decimal metadata.gid.toNat ++
      ascii ",\"size\":" ++ decimal metadata.size.toNat ++ ascii "," ++
      ascii "\"mtime\":\"" ++ formatTime metadata.mtime ++ ascii "\"," ++
      ascii "\"ctime\":\"" ++ formatTime metadata.ctime ++ ascii "\"," ++
      ascii "\"atime\":\"" ++ formatTime metadata.atime ++ ascii "\"," ++
      (if metadata.hash.kind ≠ .none ∧ metadata.hash.length ≠ 0 then
        ascii "\"hash\":\x7b\"kind\":\"" ++ hashKindName metadata.hash.kind ++
          ascii "\",\"hex\":\"" ++ hashHex metadata.hash ++ ascii "\"\x7d"
      else ascii "\"hash\":null") ++
      ascii "\x7d"
  else ascii "null"

def jsonChangedFields (oldMetadata newMetadata : FileMetadata) : Str :=
  let fields := metadataDiffFields oldMetadata newMetadata
  ascii "[" ++
    (if fields = [] then []
    else (ascii ",").intercalate ((fields.splitOn ','.toUInt8).map jsonString)) ++
    ascii "]"

def kindName : HistoryEventKind → Str
  | .added => ascii "ADDED"
  | .removed => ascii "REMOVED"
  | .modified => ascii "MODIFIED"
  | .runMarker => ascii "RUN"
  | .other _ _ => ascii "UNKNOWN"

def jsonRunMarker (event : HistoryEvent) : Str :=
  ascii "\x7b\"kind\":\"RUN\",\"time\":\"" ++ formatTime event.eventTime ++
    ascii "\",\"baseline\":" ++
    (if event.path = ascii "baseline" then ascii "true" else ascii "false") ++ ascii "\x7d"

def jsonEvent (event : HistoryEvent) : Str :=
  ascii "\x7b\"kind\":\"" ++ kindName event.kind ++ ascii "\",\"path\":" ++
    jsonString event.path ++ ascii ",\"time\":\"" ++ formatTime event.eventTime ++
    ascii "\",\"old\":" ++ jsonMetadata event.oldMetadata ++ ascii ",\"new\":" ++
    jsonMetadata event.newMetadata ++ ascii ",\"changed\":" ++
    (if event.kind = .modified then jsonChangedFields event.oldMetadata event.newMetadata
    else ascii "[]") ++ ascii "\x7d"

def printEvent (event : HistoryEvent) : Str :=
  (if event.kind = .runMarker then jsonRunMarker event else jsonEvent event) ++ ascii "\n"

end Model

section Escapes

theorem forall_byte {P : UInt8 → Prop} (h : ∀ n < 256, P (UInt8.ofNat n)) (c : UInt8) : P c :=
  UInt8.ofNat_toNat (x := c) ▸ h c.toNat c.toNat_lt

theorem readCodeUnit_hexByte (c : UInt8) (rest : Str) :
    readCodeUnit (ascii "00" ++ hexByte c ++ rest) = some (c, rest) := by
  have hdigits : ∀ c : UInt8, ShellWord.hexDigit (hexChar (c >>> 4)) = some (c.toNat / 16) ∧
      ShellWord.hexDigit (hexChar (c &&& 0xf)) = some (c.toNat % 16) :=
    forall_byte (by decide +kernel)
  obtain ⟨hhigh, hlow⟩ := hdigits c
  have hvalue : UInt8.ofNat (16 * (c.toNat / 16) + c.toNat % 16) = c := by
    rw [Nat.div_add_mod, UInt8.ofNat_toNat]
  have hpieces : ascii "00" ++ hexByte c ++ rest =
      '0'.toUInt8 :: '0'.toUInt8 :: hexChar (c >>> 4) :: hexChar (c &&& 0xf) :: rest := rfl
  rw [hpieces, readCodeUnit, if_pos ⟨rfl, rfl⟩, hhigh, hlow]
  exact congrArg (fun c => some (c, rest)) hvalue

/-- What is written for a byte is read as this byte, whatever follows. -/
theorem readBody_jsonEscape (c : UInt8) (rest : Str) :
    readBody (jsonEscape c ++ rest) = (readBody rest).map fun p => (c :: p.1, p.2) := by
  rw [jsonEscape]
  split_ifs with hquote hslash hn hr ht hctrl
  · subst hquote
    exact readBody_escaped _ (by decide) rfl
  · subst hslash
    exact readBody_escaped _ (by decide) rfl
  · subst hn
    exact readBody_escaped _ (by decide) rfl
  · subst hr
    exact readBody_escaped _ (by decide) rfl
  · subst ht
    exact readBody_escaped _ (by decide) rfl
  · exact readBody_codeUnit _ (readCodeUnit_hexByte c rest)
  · exact readBody_plain _ hquote hslash

/-- Letters and digits are printed as they are. -/
theorem hexByte_plain (c : UInt8) : ∀ d ∈ hexByte c,
    0x20 ≤ d ∧ d ≠ '"'.toUInt8 ∧ d ≠ '\\'.toUInt8 := by
  have hdigits : ∀ c : UInt8, ((hexByte c).all fun d =>
      0x20 ≤ d ∧ d ≠ '"'.toUInt8 ∧ d ≠ '\\'.toUInt8) = true :=
    forall_byte (by decide +kernel)
  exact fun d hd => of_decide_eq_true (List.all_eq_true.mp (hdigits c) d hd)

theorem inert_of_plain {s : Str} (h : ∀ c ∈ s, c ≠ '"'.toUInt8 ∧ c ≠ '\\'.toUInt8) : Inert s := by
  induction s with
  | nil => exact .nil
  | cons c s ih =>
      rw [List.forall_mem_cons] at h
      exact .plain h.1.1 h.1.2 (ih h.2)

theorem inert_jsonEscape (c : UInt8) : Inert (jsonEscape c) := by
  rw [jsonEscape]
  split_ifs with hquote hslash hn hr ht hctrl
  · exact .escaped .nil
  · exact .escaped .nil
  · exact .escaped .nil
  · exact .escaped .nil
  · exact .escaped .nil
  · have hdigits := inert_of_plain fun d hd => (hexByte_plain c d hd).2
    exact .escaped (.plain (by decide) (by decide) (.plain (by decide) (by decide) hdigits))
  · exact .plain hquote hslash .nil

end Escapes

section Strings

variable (s : Str)

theorem inert_flatMap_jsonEscape : Inert (s.flatMap jsonEscape) := by
  induction s with
  | nil => exact .nil
  | cons c s ih =>
      rw [List.flatMap_cons]
      exact (inert_jsonEscape c).append ih

theorem read_jsonString (rest : Str) : read (jsonString s ++ rest) = some (s, rest) := by
  change (if '"'.toUInt8 = '"'.toUInt8 then
    readBody (s.flatMap jsonEscape ++ ['"'.toUInt8] ++ rest) else none) = _
  rw [if_pos rfl, List.append_assoc, List.singleton_append]
  induction s with
  | nil => exact readBody_quote rest
  | cons c s ih =>
      rw [List.flatMap_cons, List.append_assoc, readBody_jsonEscape, ih]
      rfl

theorem jsonString_injective : Function.Injective jsonString := by
  intro s t h
  have hs := read_jsonString s []
  rw [h, read_jsonString] at hs
  exact (Prod.mk.inj (Option.some.inj hs)).1.symm

theorem unescapedQuotes_jsonString :
    unescapedQuotes 0 (jsonString s) = [0, (jsonString s).length - 1] := by
  have hlast : (jsonString s).length - 1 = 0 + 1 + (s.flatMap jsonEscape).length := by
    rw [jsonString, List.length_cons, List.length_append, List.length_singleton]
    omega
  rw [hlast, jsonString, unescapedQuotes_quote, (inert_flatMap_jsonEscape s).unescapedQuotes,
    unescapedQuotes_quote]
  rfl

theorem skeleton_jsonString (rest : Str) : skeleton false (jsonString s ++ rest) =
    '"'.toUInt8 :: '"'.toUInt8 :: skeleton false rest := by
  rw [jsonString, List.cons_append, List.append_assoc, List.singleton_append]
  exact (inert_flatMap_jsonEscape s).skeleton_literal rest

end Strings

section Lines

def NoControl (s : Str) : Prop := ∀ c ∈ s, 0x20 ≤ c

variable {s t : Str}

theorem noControl_iff_all : (s.all fun c => 0x20 ≤ c) = true ↔ NoControl s := by
  rw [List.all_eq_true]
  exact forall₂_congr fun _ _ => decide_eq_true_iff

instance : DecidablePred NoControl := fun _ => decidable_of_iff _ noControl_iff_all

theorem noControl_append : NoControl (s ++ t) ↔ NoControl s ∧ NoControl t :=
  List.forall_mem_append

theorem noControl_flatMap {α : Type*} {l : List α} {f : α → Str} (h : ∀ a ∈ l, NoControl (f a)) :
    NoControl (l.flatMap f) := by
  intro c hc
  obtain ⟨a, ha, hc⟩ := List.mem_flatMap.mp hc
  exact h a ha c hc

theorem noControl_hexByte (c : UInt8) : NoControl (hexByte c) := fun d hd =>
  (hexByte_plain c d hd).1

theorem noControl_jsonEscape (c : UInt8) : NoControl (jsonEscape c) := by
  rw [jsonEscape]
  split_ifs with hquote hslash hn hr ht hctrl
  · decide
  · decide
  · decide
  · decide
  · decide
  · exact noControl_append.mpr ⟨by decide, noControl_hexByte c⟩
  · exact List.forall_mem_singleton.mpr (UInt8.not_lt.mp hctrl)

theorem noControl_jsonString (s : Str) : NoControl (jsonString s) :=
  List.forall_mem_cons.mpr ⟨by decide, noControl_append.mpr
    ⟨noControl_flatMap fun c _ => noControl_jsonEscape c, by decide⟩⟩

theorem noControl_digits {base : ℕ} (hbase : base ≤ 10) (hpos : 1 < base) (n : ℕ) :
    NoControl ((Nat.digits base n).reverse.map fun d => UInt8.ofNat (48 + d)) := by
  intro c hc
  obtain ⟨d, hd, rfl⟩ := List.mem_map.mp hc
  have hlt := Nat.digits_lt_base hpos (List.mem_reverse.mp hd)
  rw [UInt8.le_iff_toNat_le, digit_toNat (by omega)]
  exact Nat.le_add_right_of_le (by decide)

theorem noControl_decimal (n : ℕ) : NoControl (decimal n) := by
  rw [decimal]
  split
  · decide
  · exact noControl_digits (Nat.le_refl _) (by decide) n

theorem noControl_octal (n : ℕ) : NoControl (octal n) := by
  rw [octal]
  split
  · decide
  · exact noControl_digits (by decide) (by decide) n

theorem noControl_replicate (n : ℕ) : NoControl (List.replicate n '0'.toUInt8) := by
  intro c hc
  rw [List.eq_of_mem_replicate hc]
  decide

theorem noControl_formatTime (time : DirTime) : NoControl (formatTime time) := by
  have hminus {s : Str} (h : NoControl s) : NoControl ('-'.toUInt8 :: s) :=
    List.forall_mem_cons.mpr ⟨by decide, h⟩
  have hsec : NoControl (signedDecimal time.sec.toInt) := by
    rw [signedDecimal]
    split
    · exact hminus (noControl_decimal _)
    · exact noControl_decimal _
  have hnsec : NoControl (paddedDecimal time.nsec.toInt) := by
    have hpadded (n : ℕ) (m : ℕ) : NoControl (List.replicate n '0'.toUInt8 ++ decimal m) :=
      noControl_append.mpr ⟨noControl_replicate n, noControl_decimal m⟩
    rw [paddedDecimal]
    split
    · exact hminus (hpadded _ _)
    · exact hpadded _ _
  simp only [formatTime, noControl_append, hsec, hnsec, and_true, true_and]
  decide

theorem noControl_hashKindName (kind : MetadataHashKind) : NoControl (hashKindName kind) := by
  cases kind <;> simp only [hashKindName] <;> decide

theorem noControl_kindName (kind : HistoryEventKind) : NoControl (kindName kind) := by
  cases kind <;> simp only [kindName] <;> decide

theorem noControl_hashHex (hash : MetadataHash) : NoControl (hashHex hash) :=
  noControl_flatMap fun c _ => noControl_hexByte c

theorem noControl_jsonMetadata (metadata : FileMetadata) : NoControl (jsonMetadata metadata) := by
  have hhash : NoControl (if metadata.hash.kind ≠ .none ∧ metadata.hash.length ≠ 0 then
      ascii "\"hash\":\x7b\"kind\":\"" ++ hashKindName metadata.hash.kind ++
        ascii "\",\"hex\":\"" ++ hashHex metadata.hash ++ ascii "\"\x7d"
      else ascii "\"hash\":null") := by
    split
    · simp only [noControl_append, noControl_hashKindName, noControl_hashHex, and_true]
      decide
    · decide
  rw [jsonMetadata]
  split
  · simp only [noControl_append, noControl_octal, noControl_decimal, noControl_formatTime, hhash,
      and_true]
    decide
  · decide

theorem noControl_intercalate {l : List Str} (h : ∀ s ∈ l, NoControl s) :
    NoControl ((ascii ",").intercalate l) := by
  induction l with
  | nil => exact List.forall_mem_nil _
  | cons s l ih =>
      rw [List.forall_mem_cons] at h
      cases l with
      | nil =>
          rw [List.intercalate_singleton]
          exact h.1
      | cons t l =>
          rw [List.intercalate_cons_cons, noControl_append, noControl_append]
          exact ⟨⟨h.1, by decide⟩, ih h.2⟩

theorem noControl_jsonChangedFields (oldMetadata newMetadata : FileMetadata) :
    NoControl (jsonChangedFields oldMetadata newMetadata) := by
  have hfields : NoControl (if metadataDiffFields oldMetadata newMetadata = [] then [] else
      (ascii ",").intercalate
        (((metadataDiffFields oldMetadata newMetadata).splitOn ','.toUInt8).map jsonString)) := by
    split
    · exact List.forall_mem_nil _
    · apply noControl_intercalate
      intro s hs
      obtain ⟨field, -, rfl⟩ := List.mem_map.mp hs
      exact noControl_jsonString field
  simp only [jsonChangedFields, noControl_append, hfields, and_true]
  decide

theorem noControl_jsonRunMarker (event : HistoryEvent) : NoControl (jsonRunMarker event) := by
  have hbaseline : NoControl
      (if event.path = ascii "baseline" then ascii "true" else ascii "false") := by
    split <;> decide
  simp only [jsonRunMarker, noControl_append, noControl_formatTime, hbaseline, and_true]
  decide

/-- What `jsonEvent` prints before the path, and behind it. -/
def beforePath (event : HistoryEvent) : Str :=
  ascii "\x7b\"kind\":\"" ++ kindName event.kind ++ ascii "\",\"path\":"

def behindPath (event : HistoryEvent) : Str :=
  ascii ",\"time\":\"" ++ formatTime event.eventTime ++
    ascii "\",\"old\":" ++ jsonMetadata event.oldMetadata ++ ascii ",\"new\":" ++
    jsonMetadata event.newMetadata ++ ascii ",\"changed\":" ++
    (if event.kind = .modified then jsonChangedFields event.oldMetadata event.newMetadata
    else ascii "[]") ++ ascii "\x7d"

theorem jsonEvent_eq (event : HistoryEvent) :
    jsonEvent event = beforePath event ++ (jsonString event.path ++ behindPath event) := by
  simp only [jsonEvent, beforePath, behindPath, List.append_assoc]

theorem noControl_beforePath (event : HistoryEvent) : NoControl (beforePath event) := by
  simp only [beforePath, noControl_append, noControl_kindName, and_true]
  decide

theorem noControl_behindPath (event : HistoryEvent) : NoControl (behindPath event) := by
  have hchanged : NoControl (if event.kind = .modified then
      jsonChangedFields event.oldMetadata event.newMetadata else ascii "[]") := by
    split
    · exact noControl_jsonChangedFields _ _
    · decide
  simp only [behindPath, noControl_append, noControl_formatTime, noControl_jsonMetadata, hchanged,
    and_true]
  decide

theorem noControl_jsonEvent (event : HistoryEvent) : NoControl (jsonEvent event) := by
  rw [jsonEvent_eq, noControl_append, noControl_append]
  exact ⟨noControl_beforePath event, noControl_jsonString event.path, noControl_behindPath event⟩

/-- Every event is one line. -/
theorem printEvent_line (event : HistoryEvent) : ∃ line, printEvent event = line ++ ascii "\n" ∧
    NoControl line := by
  refine ⟨_, rfl, ?_⟩
  split
  · exact noControl_jsonRunMarker event
  · exact noControl_jsonEvent event

end Lines

section Objects

variable (event : HistoryEvent) (s : Str)

theorem inert_of_all {s : Str}
    (h : (s.all fun c => c ≠ '"'.toUInt8 ∧ c ≠ '\\'.toUInt8) = true) : Inert s :=
  inert_of_plain fun c hc => of_decide_eq_true (List.all_eq_true.mp h c hc)

theorem inert_kindName (kind : HistoryEventKind) : Inert (kindName kind) := by
  cases kind <;> apply inert_of_all <;> simp only [kindName] <;> decide

/-- Before the path, all literals are closed. -/
theorem skeleton_beforePath (rest : Str) : skeleton false (beforePath event ++ rest) =
    ascii "\x7b\"\":\"\",\"\":" ++ skeleton false rest := by
  have hpieces : beforePath event ++ rest = '\x7b'.toUInt8 :: '"'.toUInt8 ::
      (ascii "kind" ++ '"'.toUInt8 :: ':'.toUInt8 :: '"'.toUInt8 ::
        (kindName event.kind ++ '"'.toUInt8 :: ','.toUInt8 :: '"'.toUInt8 ::
          (ascii "path" ++ '"'.toUInt8 :: ':'.toUInt8 :: rest))) := by
    rw [beforePath, List.append_assoc, List.append_assoc]
    rfl
  have hkind : Inert (ascii "kind") := inert_of_all (by decide)
  have hpath : Inert (ascii "path") := inert_of_all (by decide)
  rw [hpieces, skeleton_outside _ (by decide), hkind.skeleton_literal,
    skeleton_outside _ (by decide), (inert_kindName event.kind).skeleton_literal,
    skeleton_outside _ (by decide), hpath.skeleton_literal, skeleton_outside _ (by decide)]
  rfl

/-- The path has no influence on what is outside of the literals. -/
theorem skeleton_jsonEvent : skeleton false (jsonEvent { event with path := s }) =
    skeleton false (jsonEvent { event with path := [] }) := by
  rw [jsonEvent_eq, jsonEvent_eq, skeleton_beforePath, skeleton_beforePath, skeleton_jsonString,
    skeleton_jsonString]
  rfl

/-- The literal behind the front of a line is read as the path. -/
theorem jsonEvent_path_injective {s t : Str}
    (h : jsonEvent { event with path := t } = jsonEvent { event with path := s }) : t = s := by
  rw [jsonEvent_eq, jsonEvent_eq] at h
  have hrest := List.append_cancel_left h
  have hread := read_jsonString t (behindPath { event with path := t })
  rw [hrest, read_jsonString] at hread
  exact (Prod.mk.inj (Option.some.inj hread)).1.symm

/-- JSON strings are lossless and stay on one line, and a path stays in its string. -/
theorem jsonString_lossless :
    NoControl (jsonString s) ∧
    unescapedQuotes 0 (jsonString s) = [0, (jsonString s).length - 1] ∧
    (∀ rest, read (jsonString s ++ rest) = some (s, rest)) ∧
    (∀ t, jsonString t = jsonString s → t = s) ∧
    (∃ line, printEvent { event with path := s } = line ++ ascii "\n" ∧ NoControl line) ∧
    skeleton false (jsonEvent { event with path := s }) =
      skeleton false (jsonEvent { event with path := [] }) ∧
    ∀ t, jsonEvent { event with path := t } = jsonEvent { event with path := s } → t = s :=
  ⟨noControl_jsonString s, unescapedQuotes_jsonString s, read_jsonString s,
    fun _ h => jsonString_injective h, printEvent_line _, skeleton_jsonEvent event s,
    fun _ h => jsonEvent_path_injective event h⟩

/-- A path that tries to close its literal and to begin another line. -/
example : jsonString (ascii "a\",\"path\":\"b\n\\u0041") =
    ascii "\"a\\\",\\\"path\\\":\\\"b\\n\\\\u0041\"" := by
  decide

end Objects

end Flocate
