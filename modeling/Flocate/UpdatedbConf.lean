import Flocate.Conf

/-!
# The lexer of updatedb.conf

`uc_lex` takes one token at a time from the file, and the loop of `parse_updatedb_conf` takes one
line of it in a round. What is left of the file, the current line and the line of the last token are
the state of both.
-/

namespace Flocate

open Bytes

def isalpha (c : UInt8) : Bool := (65 ≤ c && c ≤ 90) || (97 ≤ c && c ≤ 122)

def isalnum (c : UInt8) : Bool := isalpha c || isdigit c

/-- A conversion by `strtoull`: value, what is left of the string, and whether `errno` is set. -/
def strtoull (str : Str) : ℕ × Str × Bool :=
  let (negative, digits) := readSign (str.dropWhile isspace)
  let rest := digits.dropWhile isdigit
  if digits.takeWhile isdigit = [] then (0, str, false)
  else
    let value := (digits.takeWhile isdigit).foldl (fun value c => 10 * value + (c.toNat - 48)) 0
    if 2 ^ 64 ≤ value then (2 ^ 64 - 1, rest, true)
    else if negative then ((2 ^ 64 - value) % 2 ^ 64, rest, false)
    else (value, rest, false)

/-- The shift of what is behind the digits. -/
def sizeShift : Str → Option ℕ
  | [] => some 0
  | c :: rest =>
    if rest ≠ [] then none
    else if toupper c = 75 then some 10
    else if toupper c = 77 then some 20
    else if toupper c = 71 then some 30
    else if toupper c = 84 then some 40
    else none

def parseSize (str : Str) : Option ℕ :=
  if str = [] ∨ str.head? = some 45 then none
  else
    let (value, rest, erange) := strtoull str
    if erange ∨ rest = str then none
    else (sizeShift rest).bind fun shift =>
      if shift ≠ 0 ∧ (2 ^ 64 - 1) >>> shift < value then none else some (value <<< shift)

structure UpdatedbConf extends Conf where
  compareAtime : Bool := false
  hashMaxSize : ℕ := 0

/-- The keywords, with those that do not bear on the configuration block. -/
inductive UpdatedbVariable where
  | setting (var : ConfVariable)
  | compareAtime
  | hashMaxSize
deriving DecidableEq

def UpdatedbVariable.name : UpdatedbVariable → Str
  | .setting .pruneBindMounts => ascii "PRUNE_BIND_MOUNTS"
  | .setting .prunefs => ascii "PRUNEFS"
  | .setting .prunenames => ascii "PRUNENAMES"
  | .setting .prunepaths => ascii "PRUNEPATHS"
  | .setting .metadataHash => ascii "METADATA_HASH"
  | .setting .historyDepth => ascii "HISTORY_DEPTH"
  | .compareAtime => ascii "COMPARE_ATIME"
  | .hashMaxSize => ascii "HASH_MAX_SIZE"

inductive Token where
  | eof
  | eol
  | identifier (buf : Str)
  | equal
  | quoted (buf : Str)
  | other
  | keyword (var : UpdatedbVariable)
deriving DecidableEq

structure ConfError where
  line : ℕ
  message : Str

/-- What is left of the file, the line there and the line at the start of the last token. -/
structure LexState where
  rest : Str
  currentLine : ℕ := 1
  line : ℕ := 1

def isBlank (c : UInt8) : Bool := c ≠ 10 && isspace c

def isNameChar (c : UInt8) : Bool := isalnum c || c = 95

def skipComment : Str → Option Str
  | [] => none
  | c :: rest => if c = 10 then some rest else skipComment rest

def readQuoted : Str → Option (Str × Str)
  | [] => none
  | c :: rest =>
    if c = 34 then some ([], rest)
    else if c = 10 then none
    else (readQuoted rest).map fun quoted => (c :: quoted.1, quoted.2)

def keyword (buf : Str) : Token :=
  if buf = ascii "PRUNE_BIND_MOUNTS" then .keyword (.setting .pruneBindMounts)
  else if buf = ascii "PRUNEFS" then .keyword (.setting .prunefs)
  else if buf = ascii "PRUNENAMES" then .keyword (.setting .prunenames)
  else if buf = ascii "PRUNEPATHS" then .keyword (.setting .prunepaths)
  else if buf = ascii "METADATA_HASH" then .keyword (.setting .metadataHash)
  else if buf = ascii "HISTORY_DEPTH" then .keyword (.setting .historyDepth)
  else if buf = ascii "COMPARE_ATIME" then .keyword .compareAtime
  else if buf = ascii "HASH_MAX_SIZE" then .keyword .hashMaxSize
  else .identifier buf

/-- The switch of `uc_lex` over the first character that is not skipped. -/
def lexToken (line currentLine : ℕ) : Str → Except ConfError (Token × LexState)
  | [] => .ok (.eof, ⟨[], currentLine, line⟩)
  | c :: rest =>
    if c = 35 then
      match skipComment rest with
      | none => .ok (.eof, ⟨[], currentLine, line⟩)
      | some rest => .ok (.eol, ⟨rest, currentLine + 1, line⟩)
    else if c = 10 then .ok (.eol, ⟨rest, currentLine + 1, line⟩)
    else if c = 61 then .ok (.equal, ⟨rest, currentLine, line⟩)
    else if c = 34 then
      match readQuoted rest with
      | none => .error ⟨line, ascii "missing closing \x60\x22'"⟩
      | some (buf, rest) => .ok (.quoted buf, ⟨rest, currentLine, line⟩)
    else if ¬isalpha c ∧ c ≠ 95 then .ok (.other, ⟨rest, currentLine, line⟩)
    else .ok (keyword (c :: rest.takeWhile isNameChar),
      ⟨rest.dropWhile isNameChar, currentLine, line⟩)

def ucLex (s : LexState) : Except ConfError (Token × LexState) :=
  lexToken s.currentLine s.currentLine (s.rest.dropWhile isBlank)

/-- What a definition does to the configuration, with the string between the quotes. -/
def UpdatedbConf.assign (conf : UpdatedbConf) (var : UpdatedbVariable) (quoted : Str) :
    Option UpdatedbConf :=
  let val := (cStr quoted).val
  match var with
  | .setting var => (conf.toConf.assign var quoted).map fun settings =>
      { conf with toConf := settings }
  | .compareAtime => (parseBool val).map fun flag => { conf with compareAtime := flag }
  | .hashMaxSize => (parseSize val).map fun size => { conf with hashMaxSize := size }

/-- The loop of `parse_updatedb_conf` before a line; `had` are the variables before. -/
structure ConfState where
  lex : LexState
  had : List UpdatedbVariable := []
  conf : UpdatedbConf := {}

/-- What comes behind the name of a variable, up to the value. -/
def lexValue (s : LexState) : Except ConfError (Str × LexState) :=
  match ucLex s with
  | .error e => .error e
  | .ok (.equal, s) =>
    match ucLex s with
    | .error e => .error e
    | .ok (.quoted buf, s) => .ok (buf, s)
    | .ok (_, s) => .error ⟨s.line, ascii "value in quotes expected after \x60='"⟩
  | .ok (_, s) => .error ⟨s.line, ascii "\x60=' expected after variable name"⟩

/-- What comes behind the value; whether the file goes on. -/
def lexEndOfLine (s : LexState) : Except ConfError (Bool × LexState) :=
  match ucLex s with
  | .error e => .error e
  | .ok (.eol, s) => .ok (true, s)
  | .ok (.eof, s) => .ok (false, s)
  | .ok (_, s) => .error ⟨s.line, ascii "unexpected data after variable value"⟩

/-- The definition of a variable behind its name; whether the file goes on. -/
def parseDefinition (s : ConfState) (var : UpdatedbVariable) :
    Except ConfError (Bool × ConfState) :=
  if var ∈ s.had then
    .error ⟨s.lex.line, ascii "variable \x60" ++ var.name ++ ascii "' was already defined"⟩
  else
    match lexValue s.lex with
    | .error e => .error e
    | .ok (buf, lex) =>
      match s.conf.assign var buf with
      | none => .error ⟨lex.line,
          ascii "invalid value \x60" ++ (cStr buf).val ++ ascii "' of " ++ var.name⟩
      | some conf =>
        match lexEndOfLine lex with
        | .error e => .error e
        | .ok (more, lex) => .ok (more, ⟨lex, var :: s.had, conf⟩)

/-- One round of the loop; whether there is another one. -/
def parseLine (s : ConfState) : Except ConfError (Bool × ConfState) :=
  match ucLex s.lex with
  | .error e => .error e
  | .ok (.eof, lex) => .ok (false, { s with lex := lex })
  | .ok (.eol, lex) => .ok (true, { s with lex := lex })
  | .ok (.keyword var, lex) => parseDefinition { s with lex := lex } var
  | .ok (.identifier buf, lex) =>
      .error ⟨lex.line, ascii "unknown variable: \x60" ++ (cStr buf).val ++ ascii "'"⟩
  | .ok (_, lex) => .error ⟨lex.line, ascii "variable name expected"⟩

section Lexer

variable {ws text rest buf : Str} {s s' : LexState} {token : Token} {var : UpdatedbVariable}

def Trailing (text : Str) : Prop :=
  ∃ ws comment, text = ws ++ comment ∧ (∀ c ∈ ws, isBlank c = true) ∧
    (comment = [] ∨ comment.head? = some 35) ∧ 10 ∉ comment

/-- The tokens of a file without errors and what is left behind them. -/
inductive Lexes : Str → Token → Str → Prop
  | eof {text : Str} (h : Trailing text) : Lexes text .eof []
  | eol {text rest : Str} (h : Trailing text) : Lexes (text ++ 10 :: rest) .eol rest
  | equal {ws rest : Str} (hws : ∀ c ∈ ws, isBlank c = true) : Lexes (ws ++ 61 :: rest) .equal rest
  | quoted {ws buf rest : Str} (hws : ∀ c ∈ ws, isBlank c = true) (hquote : 34 ∉ buf)
      (hline : 10 ∉ buf) : Lexes (ws ++ 34 :: (buf ++ 34 :: rest)) (.quoted buf) rest
  | keyword {ws rest : Str} {var : UpdatedbVariable} (hws : ∀ c ∈ ws, isBlank c = true)
      (hrest : ∀ c ∈ rest.head?, isNameChar c = false) :
      Lexes (ws ++ (var.name ++ rest)) (.keyword var) rest

theorem skipComment_eq_none_iff : skipComment text = none ↔ 10 ∉ text := by
  induction text with
  | nil => simp [skipComment]
  | cons c text ih =>
      rw [skipComment, List.mem_cons, not_or, ← ih]
      by_cases hc : c = 10
      · simp [hc]
      · simp [hc, Ne.symm hc]

theorem skipComment_eq_some_iff : skipComment text = some rest ↔
    ∃ comment, text = comment ++ 10 :: rest ∧ 10 ∉ comment := by
  induction text with
  | nil => simp [skipComment]
  | cons c text ih =>
      rw [skipComment]
      split
      · rename_i hc
        subst hc
        constructor
        · intro h
          exact ⟨[], by rw [Option.some.inj h]; rfl, List.not_mem_nil⟩
        · rintro ⟨comment, h, hcomment⟩
          cases comment with
          | nil => rw [(List.cons.inj h).2]
          | cons c' comment =>
              rw [(List.cons.inj h).1] at hcomment
              exact absurd List.mem_cons_self hcomment
      · rename_i hc
        rw [ih]
        constructor
        · rintro ⟨comment, rfl, hcomment⟩
          exact ⟨c :: comment, rfl, List.not_mem_cons_of_ne_of_not_mem (Ne.symm hc) hcomment⟩
        · rintro ⟨comment, h, hcomment⟩
          cases comment with
          | nil => exact absurd (List.cons.inj h).1 hc
          | cons c' comment =>
              exact ⟨comment, (List.cons.inj h).2, List.not_mem_of_not_mem_cons hcomment⟩

theorem readQuoted_eq_some_iff : readQuoted text = some (buf, rest) ↔
    text = buf ++ 34 :: rest ∧ 34 ∉ buf ∧ 10 ∉ buf := by
  induction text generalizing buf with
  | nil => simp [readQuoted]
  | cons c text ih =>
      rw [readQuoted]
      split
      · rename_i hc
        subst hc
        constructor
        · intro h
          obtain ⟨rfl, rfl⟩ := Prod.mk.inj (Option.some.inj h)
          exact ⟨rfl, List.not_mem_nil, List.not_mem_nil⟩
        · rintro ⟨h, hquote, -⟩
          cases buf with
          | nil => rw [(List.cons.inj h).2]
          | cons c' buf =>
              rw [(List.cons.inj h).1] at hquote
              exact absurd List.mem_cons_self hquote
      · rename_i hc
        split
        · rename_i hline
          subst hline
          constructor
          · intro h
            cases h
          · rintro ⟨h, -, hbuf⟩
            cases buf with
            | nil => exact absurd (List.cons.inj h).1 hc
            | cons c' buf =>
                rw [(List.cons.inj h).1] at hbuf
                exact absurd List.mem_cons_self hbuf
        · rename_i hline
          constructor
          · intro h
            obtain ⟨⟨buf', rest'⟩, hread, hpair⟩ := Option.map_eq_some_iff.mp h
            obtain ⟨rfl, rfl⟩ := Prod.mk.inj hpair
            obtain ⟨rfl, hquote, hbuf⟩ := ih.mp hread
            exact ⟨rfl, List.not_mem_cons_of_ne_of_not_mem (Ne.symm hc) hquote,
              List.not_mem_cons_of_ne_of_not_mem (Ne.symm hline) hbuf⟩
          · rintro ⟨h, hquote, hbuf⟩
            cases buf with
            | nil => exact absurd (List.cons.inj h).1 hc
            | cons c' buf =>
                obtain ⟨rfl, rfl⟩ := List.cons.inj h
                rw [ih.mpr ⟨rfl, List.not_mem_of_not_mem_cons hquote,
                  List.not_mem_of_not_mem_cons hbuf⟩]
                rfl

theorem keyword_name (var : UpdatedbVariable) : keyword var.name = .keyword var := by
  cases var with
  | setting var =>
      cases var
      all_goals decide
  | compareAtime => decide
  | hashMaxSize => decide

theorem eq_name_of_keyword (h : keyword buf = .keyword var) : buf = var.name := by
  unfold keyword at h
  split_ifs at h
  all_goals
    obtain rfl := Token.keyword.inj h
    assumption

theorem Trailing.nil : Trailing [] :=
  ⟨[], [], rfl, List.forall_mem_nil _, .inl rfl, List.not_mem_nil⟩

theorem Trailing.append_blank (h : Trailing text) (hws : ∀ c ∈ ws, isBlank c = true) :
    Trailing (ws ++ text) := by
  obtain ⟨ws', comment, rfl, hws', hcomment⟩ := h
  exact ⟨ws ++ ws', comment, (List.append_assoc _ _ _).symm,
    List.forall_mem_append.mpr ⟨hws, hws'⟩, hcomment⟩

theorem Trailing.newline_free (h : Trailing text) : 10 ∉ text := by
  obtain ⟨ws, comment, rfl, hws, -, hcomment⟩ := h
  rw [List.mem_append, not_or]
  refine ⟨fun hmem => ?_, hcomment⟩
  exact absurd (hws 10 hmem) (by decide)

theorem Trailing.comment (h : 10 ∉ text) : Trailing (35 :: text) :=
  ⟨[], 35 :: text, rfl, List.forall_mem_nil _, .inr rfl,
    List.not_mem_cons_of_ne_of_not_mem (by decide) h⟩

/-- What is left behind white space is what the lexer looks at. -/
theorem Lexes.append_blank (h : Lexes text token rest) (hws : ∀ c ∈ ws, isBlank c = true) :
    Lexes (ws ++ text) token rest := by
  cases h with
  | eof h => exact .eof (h.append_blank hws)
  | eol h =>
      rw [← List.append_assoc]
      exact .eol (h.append_blank hws)
  | equal hws' =>
      rw [← List.append_assoc]
      exact .equal (List.forall_mem_append.mpr ⟨hws, hws'⟩)
  | quoted hws' hquote hline =>
      rw [← List.append_assoc]
      exact .quoted (List.forall_mem_append.mpr ⟨hws, hws'⟩) hquote hline
  | keyword hws' hrest =>
      rw [← List.append_assoc]
      exact .keyword (List.forall_mem_append.mpr ⟨hws, hws'⟩) hrest

theorem lexes_of_lexToken {line currentLine : ℕ}
    (h : lexToken line currentLine text = .ok (token, s')) (hother : token ≠ .other)
    (hname : ∀ buf, token ≠ .identifier buf) : Lexes text token s'.rest := by
  have hblank : ∀ c ∈ ([] : Str), isBlank c = true := List.forall_mem_nil _
  cases text with
  | nil =>
      obtain ⟨rfl, rfl⟩ := Prod.mk.inj (Except.ok.inj h)
      exact .eof .nil
  | cons c text =>
      rw [lexToken] at h
      split at h
      · rename_i hc
        subst hc
        split at h
        · rename_i hskip
          obtain ⟨rfl, rfl⟩ := Prod.mk.inj (Except.ok.inj h)
          exact .eof (.comment (skipComment_eq_none_iff.mp hskip))
        · rename_i rest hskip
          obtain ⟨rfl, rfl⟩ := Prod.mk.inj (Except.ok.inj h)
          obtain ⟨comment, rfl, hcomment⟩ := skipComment_eq_some_iff.mp hskip
          exact .eol (.comment hcomment)
      split at h
      · rename_i hc
        subst hc
        obtain ⟨rfl, rfl⟩ := Prod.mk.inj (Except.ok.inj h)
        exact .eol .nil
      split at h
      · rename_i hc
        subst hc
        obtain ⟨rfl, rfl⟩ := Prod.mk.inj (Except.ok.inj h)
        exact .equal hblank
      split at h
      · rename_i hc
        subst hc
        split at h
        · cases h
        · rename_i buf rest hread
          obtain ⟨rfl, rfl⟩ := Prod.mk.inj (Except.ok.inj h)
          obtain ⟨rfl, hquote, hline⟩ := readQuoted_eq_some_iff.mp hread
          exact .quoted hblank hquote hline
      split at h
      · obtain ⟨rfl, rfl⟩ := Prod.mk.inj (Except.ok.inj h)
        exact absurd rfl hother
      · obtain ⟨htoken, rfl⟩ := Prod.mk.inj (Except.ok.inj h)
        have hhead : ∀ c ∈ (text.dropWhile isNameChar).head?, isNameChar c = false := by
          intro c hc
          have hnot := List.head?_dropWhile_not isNameChar text
          rw [Option.mem_def.mp hc] at hnot
          exact hnot
        have hvar : ∃ var, keyword (c :: text.takeWhile isNameChar) = .keyword var := by
          unfold keyword at htoken ⊢
          split_ifs at htoken ⊢
          case neg => exact absurd htoken.symm (hname _)
          all_goals exact ⟨_, rfl⟩
        obtain ⟨var, hvar⟩ := hvar
        rw [hvar] at htoken
        have hsplit : c :: text = var.name ++ text.dropWhile isNameChar := by
          rw [← eq_name_of_keyword hvar, List.cons_append, List.takeWhile_append_dropWhile]
        rw [← htoken, hsplit]
        exact .keyword hblank hhead

theorem lexes_of_ucLex (h : ucLex s = .ok (token, s')) (hother : token ≠ .other)
    (hname : ∀ buf, token ≠ .identifier buf) : Lexes s.rest token s'.rest := by
  have hlexes := lexes_of_lexToken h hother hname
  rw [← List.takeWhile_append_dropWhile (p := isBlank) (l := s.rest)]
  exact hlexes.append_blank fun c hc => List.mem_takeWhile_imp hc

theorem dropWhile_blank {c : UInt8} (hws : ∀ c ∈ ws, isBlank c = true) (hc : isBlank c = false) :
    (ws ++ c :: rest).dropWhile isBlank = c :: rest := by
  rw [List.dropWhile_append_of_pos hws, List.dropWhile_cons_of_neg]
  rw [hc]
  exact Bool.false_ne_true

theorem isNameChar_of_mem_name (var : UpdatedbVariable) : ∀ c ∈ var.name, isNameChar c = true := by
  apply List.all_eq_true.mp
  cases var with
  | setting var =>
      cases var
      all_goals decide
  | compareAtime => decide
  | hashMaxSize => decide

/-- A name starts with a letter. -/
theorem exists_name_eq_cons (var : UpdatedbVariable) :
    ∃ c name, var.name = c :: name ∧ isalpha c = true := by
  have h : (var.name.head?.map isalpha) = some true := by
    cases var with
    | setting var =>
        cases var
        all_goals decide
    | compareAtime => decide
    | hashMaxSize => decide
  cases hname : var.name with
  | nil =>
      rw [hname] at h
      cases h
  | cons c name =>
      rw [hname] at h
      exact ⟨c, name, rfl, Option.some.inj h⟩

theorem isBlank_of_isalpha {c : UInt8} (h : isalpha c = true) : isBlank c = false := by
  simp only [isalpha, isBlank, isspace, Bool.or_eq_true, Bool.and_eq_true, decide_eq_true_eq,
    UInt8.le_iff_toNat_le, Bool.and_eq_false_iff, Bool.or_eq_false_iff, decide_eq_false_iff_not,
    ← UInt8.toNat_inj, UInt8.reduceToNat] at h ⊢
  omega

theorem lexToken_name {line currentLine : ℕ} (var : UpdatedbVariable)
    (hrest : ∀ c ∈ rest.head?, isNameChar c = false) :
    lexToken line currentLine (var.name ++ rest) =
      .ok (.keyword var, ⟨rest, currentLine, line⟩) := by
  obtain ⟨c, name, hname, hc⟩ := exists_name_eq_cons var
  have hchars := isNameChar_of_mem_name var
  rw [hname, List.forall_mem_cons] at hchars
  have htake : (name ++ rest).takeWhile isNameChar = name := by
    rw [List.takeWhile_append_of_pos hchars.2]
    cases rest with
    | nil => simp
    | cons d rest => rw [List.takeWhile_cons_of_neg (by simp [hrest d rfl]), List.append_nil]
  have hdrop : (name ++ rest).dropWhile isNameChar = rest := by
    rw [List.dropWhile_append_of_pos hchars.2]
    cases rest with
    | nil => rfl
    | cons d rest => rw [List.dropWhile_cons_of_neg (by simp [hrest d rfl])]
  have hother {d : UInt8} (hd : isalpha d = false) : c ≠ d := by
    rintro rfl
    rw [hc] at hd
    cases hd
  have h35 : c ≠ 35 := hother (by decide)
  have h10 : c ≠ 10 := hother (by decide)
  have h61 : c ≠ 61 := hother (by decide)
  have h34 : c ≠ 34 := hother (by decide)
  rw [hname, List.cons_append, lexToken, if_neg h35, if_neg h10, if_neg h61, if_neg h34,
    if_neg (by simp [hc]), htake, hdrop, ← hname, keyword_name]

theorem lexToken_last_comment {line currentLine : ℕ} {comment : Str} (h : 10 ∉ comment) :
    lexToken line currentLine (35 :: comment) = .ok (.eof, ⟨[], currentLine, line⟩) := by
  rw [lexToken, if_pos rfl, skipComment_eq_none_iff.mpr h]

theorem lexToken_comment {line currentLine : ℕ} {comment : Str} (h : 10 ∉ comment) :
    lexToken line currentLine (35 :: (comment ++ 10 :: rest)) =
      .ok (.eol, ⟨rest, currentLine + 1, line⟩) := by
  rw [lexToken, if_pos rfl, skipComment_eq_some_iff.mpr ⟨comment, rfl, h⟩]

/-- The lexer finds every token that is there. -/
theorem ucLex_of_lexes (h : Lexes s.rest token rest) :
    ∃ s', ucLex s = .ok (token, s') ∧ s'.rest = rest := by
  unfold ucLex
  generalize s.currentLine = line
  generalize s.rest = text at h
  cases h with
  | eof h =>
      obtain ⟨ws, comment, rfl, hws, hcomment, hline⟩ := h
      cases comment with
      | nil =>
          rw [List.append_nil, List.dropWhile_eq_nil_iff.mpr hws]
          exact ⟨_, rfl, rfl⟩
      | cons c comment =>
          obtain rfl := Option.some.inj (hcomment.resolve_left (List.cons_ne_nil _ _))
          rw [dropWhile_blank hws (by decide),
            lexToken_last_comment (List.not_mem_of_not_mem_cons hline)]
          exact ⟨_, rfl, rfl⟩
  | eol h =>
      obtain ⟨ws, comment, rfl, hws, hcomment, hline⟩ := h
      rw [List.append_assoc]
      cases comment with
      | nil =>
          rw [List.nil_append, dropWhile_blank hws (by decide)]
          exact ⟨_, rfl, rfl⟩
      | cons c comment =>
          obtain rfl := Option.some.inj (hcomment.resolve_left (List.cons_ne_nil _ _))
          rw [List.cons_append, dropWhile_blank hws (by decide),
            lexToken_comment (List.not_mem_of_not_mem_cons hline)]
          exact ⟨_, rfl, rfl⟩
  | equal hws =>
      rw [dropWhile_blank hws (by decide)]
      exact ⟨_, rfl, rfl⟩
  | quoted hws hquote hline =>
      rw [dropWhile_blank hws (by decide), lexToken, if_neg (by decide), if_neg (by decide),
        if_neg (by decide), if_pos rfl, readQuoted_eq_some_iff.mpr ⟨rfl, hquote, hline⟩]
      exact ⟨_, rfl, rfl⟩
  | keyword hws hrest =>
      rename_i ws var
      obtain ⟨c, name, hname, hc⟩ := exists_name_eq_cons var
      have hdrop : (ws ++ (var.name ++ rest)).dropWhile isBlank = var.name ++ rest := by
        rw [hname, List.cons_append]
        exact dropWhile_blank hws (isBlank_of_isalpha hc)
      rw [hdrop, lexToken_name var hrest]
      exact ⟨_, rfl, rfl⟩

end Lexer

end Flocate
