import Flocate.UpdatedbConf

/-!
# The grammar of updatedb.conf

A round of the loop of `parse_updatedb_conf` takes one line and does what the line says. So a file
is accepted exactly if its lines are white space, comments and definitions of different variables,
and the order of these does not matter.
-/

namespace Flocate

open Bytes

section Lines

variable {text line val : Str} {s s' : ConfState} {var : UpdatedbVariable} {more : Bool}
  {lex lex' : LexState} {buf : Str}

def Assigns (line : Str) (var : UpdatedbVariable) (val : Str) : Prop :=
  ∃ w₁ w₂ w₃ trailer,
    line = w₁ ++ (var.name ++ (w₂ ++ 61 :: (w₃ ++ 34 :: (val ++ 34 :: trailer)))) ∧
    (∀ c ∈ w₁, isBlank c = true) ∧ (∀ c ∈ w₂, isBlank c = true) ∧ (∀ c ∈ w₃, isBlank c = true) ∧
    34 ∉ val ∧ 10 ∉ val ∧ Trailing trailer

inductive LineStep : Str → List UpdatedbVariable → UpdatedbConf → List UpdatedbVariable →
    UpdatedbConf → Prop
  | skip {line : Str} {had : List UpdatedbVariable} {conf : UpdatedbConf} (h : Trailing line) :
      LineStep line had conf had conf
  | define {line val : Str} {had : List UpdatedbVariable} {conf conf' : UpdatedbConf}
      {var : UpdatedbVariable} (h : Assigns line var val) (hhad : var ∉ had)
      (hassign : conf.assign var val = some conf') : LineStep line had conf (var :: had) conf'

def behindLine (more : Bool) (rest : Str) : Str := if more then 10 :: rest else []

theorem Lexes.eof_inv {rest : Str} (h : Lexes text .eof rest) : Trailing text ∧ rest = [] := by
  cases h with
  | eof h => exact ⟨h, rfl⟩

theorem Lexes.eol_inv {rest : Str} (h : Lexes text .eol rest) :
    ∃ trailer, text = trailer ++ 10 :: rest ∧ Trailing trailer := by
  cases h with
  | eol h => exact ⟨_, rfl, h⟩

theorem Lexes.equal_inv {rest : Str} (h : Lexes text .equal rest) :
    ∃ ws, text = ws ++ 61 :: rest ∧ ∀ c ∈ ws, isBlank c = true := by
  cases h with
  | equal hws => exact ⟨_, rfl, hws⟩

theorem Lexes.quoted_inv {rest : Str} (h : Lexes text (.quoted buf) rest) :
    ∃ ws, text = ws ++ 34 :: (buf ++ 34 :: rest) ∧ (∀ c ∈ ws, isBlank c = true) ∧ 34 ∉ buf ∧
      10 ∉ buf := by
  cases h with
  | quoted hws hquote hline => exact ⟨_, rfl, hws, hquote, hline⟩

theorem Lexes.keyword_inv {rest : Str} (h : Lexes text (.keyword var) rest) :
    ∃ ws, text = ws ++ (var.name ++ rest) ∧ ∀ c ∈ ws, isBlank c = true := by
  cases h with
  | keyword hws _ => exact ⟨_, rfl, hws⟩

theorem lexEndOfLine_inv (h : lexEndOfLine lex = .ok (more, lex')) :
    ∃ trailer, lex.rest = trailer ++ behindLine more lex'.rest ∧ Trailing trailer := by
  unfold lexEndOfLine at h
  split at h
  · cases h
  · rename_i hlex
    obtain ⟨rfl, rfl⟩ := Prod.mk.inj (Except.ok.inj h)
    exact (lexes_of_ucLex hlex (by simp) (by simp)).eol_inv
  · rename_i hlex
    obtain ⟨rfl, rfl⟩ := Prod.mk.inj (Except.ok.inj h)
    have htrailing := (lexes_of_ucLex hlex (by simp) (by simp)).eof_inv.1
    exact ⟨lex.rest, (List.append_nil _).symm, htrailing⟩
  · cases h

theorem lexEndOfLine_eq_ok {trailer rest : Str} (htrailing : Trailing trailer)
    (h : lex.rest = trailer ++ behindLine more rest) :
    ∃ lex', lexEndOfLine lex = .ok (more, lex') ∧ (more = true → lex'.rest = rest) := by
  cases more with
  | true =>
      have hlexes : Lexes lex.rest .eol rest := by
        rw [h]
        exact .eol htrailing
      obtain ⟨lex', hlex, hrest⟩ := ucLex_of_lexes hlexes
      exact ⟨lex', by rw [lexEndOfLine, hlex], fun _ => hrest⟩
  | false =>
      have hlexes : Lexes lex.rest .eof [] := by
        rw [h, behindLine, if_neg Bool.false_ne_true, List.append_nil]
        exact .eof htrailing
      obtain ⟨lex', hlex, -⟩ := ucLex_of_lexes hlexes
      exact ⟨lex', by rw [lexEndOfLine, hlex], fun h => absurd h Bool.false_ne_true⟩

theorem lexValue_inv (h : lexValue lex = .ok (buf, lex')) :
    ∃ w₂ w₃, lex.rest = w₂ ++ 61 :: (w₃ ++ 34 :: (buf ++ 34 :: lex'.rest)) ∧
      (∀ c ∈ w₂, isBlank c = true) ∧ (∀ c ∈ w₃, isBlank c = true) ∧ 34 ∉ buf ∧ 10 ∉ buf := by
  unfold lexValue at h
  split at h
  · cases h
  · rename_i lex₁ hequal
    obtain ⟨w₂, hrest, hw₂⟩ := (lexes_of_ucLex hequal (by simp) (by simp)).equal_inv
    split at h
    · cases h
    · rename_i hquoted
      obtain ⟨rfl, rfl⟩ := Prod.mk.inj (Except.ok.inj h)
      obtain ⟨w₃, hrest', hw₃, hbuf⟩ :=
        (lexes_of_ucLex hquoted (by simp) (by simp)).quoted_inv
      exact ⟨w₂, w₃, by rw [hrest, hrest'], hw₂, hw₃, hbuf⟩
    · cases h
  · cases h

theorem lexValue_eq_ok {w₂ w₃ rest : Str} (hw₂ : ∀ c ∈ w₂, isBlank c = true)
    (hw₃ : ∀ c ∈ w₃, isBlank c = true) (hquote : 34 ∉ buf) (hline : 10 ∉ buf)
    (h : lex.rest = w₂ ++ 61 :: (w₃ ++ 34 :: (buf ++ 34 :: rest))) :
    ∃ lex', lexValue lex = .ok (buf, lex') ∧ lex'.rest = rest := by
  obtain ⟨lex₁, hequal, hrest⟩ := ucLex_of_lexes (h ▸ Lexes.equal hw₂)
  obtain ⟨lex₂, hquoted, hrest'⟩ := ucLex_of_lexes (hrest ▸ Lexes.quoted hw₃ hquote hline)
  exact ⟨lex₂, by rw [lexValue, hequal]; simp only [hquoted], hrest'⟩

theorem isNameChar_of_isBlank {c : UInt8} (h : isBlank c = true) : isNameChar c = false := by
  rw [isNameChar, isalnum, Bool.or_eq_false_iff, Bool.or_eq_false_iff]
  have halpha : isalpha c = false := by
    rw [Bool.eq_false_iff]
    intro halpha
    rw [isBlank_of_isalpha halpha] at h
    cases h
  refine ⟨⟨halpha, ?_⟩, ?_⟩
  all_goals
    simp only [isBlank, isspace, isdigit, Bool.or_eq_true, Bool.and_eq_true, decide_eq_true_eq,
      UInt8.le_iff_toNat_le, Bool.and_eq_false_iff, decide_eq_false_iff_not, ← UInt8.toNat_inj,
      UInt8.reduceToNat] at h ⊢
    omega

theorem newline_free_of_isBlank {ws : Str} (h : ∀ c ∈ ws, isBlank c = true) : 10 ∉ ws := by
  intro hmem
  exact absurd (h 10 hmem) (by decide)

theorem Assigns.newline_free (h : Assigns line var val) : 10 ∉ line := by
  obtain ⟨w₁, w₂, w₃, trailer, rfl, hw₁, hw₂, hw₃, -, hval, htrailing⟩ := h
  have hname : 10 ∉ var.name := by
    intro hmem
    exact absurd (isNameChar_of_mem_name var 10 hmem) (by decide)
  simp only [List.mem_append, List.mem_cons, not_or]
  exact ⟨newline_free_of_isBlank hw₁, hname, newline_free_of_isBlank hw₂, by decide,
    newline_free_of_isBlank hw₃, by decide, hval, by decide, htrailing.newline_free⟩

theorem LineStep.newline_free {had had' : List UpdatedbVariable} {conf conf' : UpdatedbConf}
    (h : LineStep line had conf had' conf') : 10 ∉ line := by
  cases h with
  | skip h => exact h.newline_free
  | define h _ _ => exact h.newline_free

/-- The name, and what the lexer has before it then. -/
theorem Assigns.ucLex {rest : Str} (h : Assigns line var val) (hrest : lex.rest = line ++ rest) :
    ∃ lex₁ w₂ w₃ trailer, Flocate.ucLex lex = .ok (.keyword var, lex₁) ∧
      lex₁.rest = w₂ ++ 61 :: (w₃ ++ 34 :: (val ++ 34 :: (trailer ++ rest))) ∧
      (∀ c ∈ w₂, isBlank c = true) ∧ (∀ c ∈ w₃, isBlank c = true) ∧ 34 ∉ val ∧ 10 ∉ val ∧
      Trailing trailer := by
  obtain ⟨w₁, w₂, w₃, trailer, rfl, hw₁, hw₂, hw₃, hquote, hline, htrailing⟩ := h
  have hlexes : Lexes lex.rest (.keyword var)
      (w₂ ++ 61 :: (w₃ ++ 34 :: (val ++ 34 :: (trailer ++ rest)))) := by
    rw [hrest]
    simp only [List.append_assoc, List.cons_append]
    refine .keyword hw₁ fun c hc => ?_
    cases w₂ with
    | nil =>
        obtain rfl := Option.some.inj hc
        decide
    | cons c' w₂ =>
        obtain rfl := Option.some.inj hc
        exact isNameChar_of_isBlank (hw₂ _ List.mem_cons_self)
  obtain ⟨lex₁, hlex, hrest'⟩ := ucLex_of_lexes hlexes
  exact ⟨lex₁, w₂, w₃, trailer, hlex, hrest', hw₂, hw₃, hquote, hline, htrailing⟩

theorem Assigns.lexValue {rest : Str} (h : Assigns line var val) (hrest : lex.rest = line ++ rest) :
    ∃ lex₁ lex₂ trailer, Flocate.ucLex lex = .ok (.keyword var, lex₁) ∧
      Flocate.lexValue lex₁ = .ok (val, lex₂) ∧ lex₂.rest = trailer ++ rest ∧ Trailing trailer := by
  obtain ⟨lex₁, w₂, w₃, trailer, hlex, hrest', hw₂, hw₃, hquote, hline, htrailing⟩ := h.ucLex hrest
  obtain ⟨lex₂, hvalue, hrest''⟩ := lexValue_eq_ok hw₂ hw₃ hquote hline hrest'
  exact ⟨lex₁, lex₂, trailer, hlex, hvalue, hrest'', htrailing⟩

/-- A line defines one variable with one value. -/
theorem Assigns.unique {var' : UpdatedbVariable} {val' : Str} (h : Assigns line var val)
    (h' : Assigns line var' val') : var = var' ∧ val = val' := by
  have hrest : (⟨line, 1, 1⟩ : LexState).rest = line ++ [] := (List.append_nil _).symm
  obtain ⟨lex₁, lex₂, -, hlex, hvalue, -, -⟩ := h.lexValue hrest
  obtain ⟨lex₁', lex₂', -, hlex', hvalue', -, -⟩ := h'.lexValue hrest
  rw [hlex'] at hlex
  obtain ⟨htoken, rfl⟩ := Prod.mk.inj (Except.ok.inj hlex)
  rw [hvalue'] at hvalue
  exact ⟨(Token.keyword.inj htoken).symm, (Prod.mk.inj (Except.ok.inj hvalue)).1.symm⟩

/-- A line that defines a variable is not blank and no comment. -/
theorem Assigns.not_trailing (h : Assigns line var val) : ¬Trailing line := by
  intro htrailing
  have hrest : (⟨line, 1, 1⟩ : LexState).rest = line ++ [] := (List.append_nil _).symm
  obtain ⟨lex₁, lex₂, -, hlex, -, -, -⟩ := h.lexValue hrest
  obtain ⟨lex', hlex', -⟩ := ucLex_of_lexes (s := ⟨line, 1, 1⟩) (.eof htrailing)
  rw [hlex'] at hlex
  obtain ⟨htoken, -⟩ := Prod.mk.inj (Except.ok.inj hlex)
  cases htoken

/-- A round of the loop takes one line, and does what the line says. -/
theorem parseLine_inv (h : parseLine s = .ok (more, s')) :
    ∃ line, s.lex.rest = line ++ behindLine more s'.lex.rest ∧
      LineStep line s.had s.conf s'.had s'.conf := by
  unfold parseLine at h
  split at h
  · cases h
  · rename_i hlex
    obtain ⟨rfl, rfl⟩ := Prod.mk.inj (Except.ok.inj h)
    have htrailing := (lexes_of_ucLex hlex (by simp) (by simp)).eof_inv.1
    exact ⟨s.lex.rest, (List.append_nil _).symm, .skip htrailing⟩
  · rename_i hlex
    obtain ⟨rfl, rfl⟩ := Prod.mk.inj (Except.ok.inj h)
    obtain ⟨trailer, hrest, htrailing⟩ := (lexes_of_ucLex hlex (by simp) (by simp)).eol_inv
    exact ⟨trailer, hrest, .skip htrailing⟩
  · rename_i var lex hlex
    obtain ⟨w₁, hrest, hw₁⟩ := (lexes_of_ucLex hlex (by simp) (by simp)).keyword_inv
    unfold parseDefinition at h
    split at h
    · cases h
    rename_i hhad
    split at h
    · cases h
    rename_i buf lex₁ hvalue
    obtain ⟨w₂, w₃, hrest', hw₂, hw₃, hquote, hline⟩ := lexValue_inv hvalue
    split at h
    · cases h
    rename_i conf hassign
    split at h
    · cases h
    rename_i more' lex₂ hend
    obtain ⟨rfl, rfl⟩ := Prod.mk.inj (Except.ok.inj h)
    obtain ⟨trailer, hrest'', htrailing⟩ := lexEndOfLine_inv hend
    refine ⟨w₁ ++ (var.name ++ (w₂ ++ 61 :: (w₃ ++ 34 :: (buf ++ 34 :: trailer)))), ?_,
      .define ⟨w₁, w₂, w₃, trailer, rfl, hw₁, hw₂, hw₃, hquote, hline, htrailing⟩ hhad hassign⟩
    simp only at hrest'
    rw [hrest, hrest', hrest'']
    simp only [List.append_assoc, List.cons_append]
  · cases h
  · cases h

/-- A line that can be taken is taken, whatever comes behind it. -/
theorem parseLine_eq_ok (more : Bool) (rest : Str) {had' : List UpdatedbVariable}
    {conf' : UpdatedbConf} (hstep : LineStep line s.had s.conf had' conf')
    (h : s.lex.rest = line ++ behindLine more rest) :
    ∃ lex', parseLine s = .ok (more, ⟨lex', had', conf'⟩) ∧ (more = true → lex'.rest = rest) := by
  cases hstep with
  | skip htrailing =>
      cases more with
      | true =>
          obtain ⟨lex', hlex, hrest⟩ := ucLex_of_lexes (h ▸ Lexes.eol htrailing)
          exact ⟨lex', by rw [parseLine, hlex], fun _ => hrest⟩
      | false =>
          rw [behindLine, if_neg Bool.false_ne_true, List.append_nil] at h
          obtain ⟨lex', hlex, -⟩ := ucLex_of_lexes (h ▸ Lexes.eof htrailing)
          exact ⟨lex', by rw [parseLine, hlex], fun h => absurd h Bool.false_ne_true⟩
  | define hassigns hhad hassign =>
      obtain ⟨lex₁, lex₂, trailer, hlex, hvalue, hrest, htrailing⟩ := hassigns.lexValue h
      obtain ⟨lex', hend, hrest'⟩ := lexEndOfLine_eq_ok htrailing hrest
      refine ⟨lex', ?_, hrest'⟩
      simp only [parseLine, hlex, parseDefinition, if_neg hhad, hvalue, hassign, hend]

end Lines

section Loop

theorem length_lt_of_parseLine {s s' : ConfState} (h : parseLine s = .ok (true, s')) :
    s'.lex.rest.length < s.lex.rest.length := by
  obtain ⟨line, hrest, -⟩ := parseLine_inv h
  rw [hrest, behindLine, if_pos rfl, List.length_append, List.length_cons]
  omega

def parseLines (s : ConfState) : Except ConfError UpdatedbConf :=
  match _ : parseLine s with
  | .error e => .error e
  | .ok (false, s') => .ok s'.conf
  | .ok (true, s') => parseLines s'
termination_by s.lex.rest.length
decreasing_by exact length_lt_of_parseLine (by assumption)

/-- `parse_updatedb_conf`; nothing is read if there is no file. -/
def parseUpdatedbConf : Option Str → Except ConfError UpdatedbConf
  | none => .ok {}
  | some text => parseLines { lex := { rest := text } }

inductive LinesStep : List Str → List UpdatedbVariable → UpdatedbConf → UpdatedbConf → Prop
  | nil {had : List UpdatedbVariable} {conf : UpdatedbConf} : LinesStep [] had conf conf
  | cons {line : Str} {lines : List Str} {had had' : List UpdatedbVariable}
      {conf conf' result : UpdatedbConf} (hline : LineStep line had conf had' conf')
      (hlines : LinesStep lines had' conf' result) : LinesStep (line :: lines) had conf result

variable {s s' : ConfState} {conf : UpdatedbConf}

theorem parseLines_stop (h : parseLine s = .ok (false, s')) : parseLines s = .ok s'.conf := by
  rw [parseLines]
  split
  · rename_i h'
    rw [h] at h'
    cases h'
  · rename_i h'
    rw [h] at h'
    obtain ⟨-, rfl⟩ := Prod.mk.inj (Except.ok.inj h')
    rfl
  · rename_i h'
    rw [h] at h'
    cases h'

theorem parseLines_again (h : parseLine s = .ok (true, s')) : parseLines s = parseLines s' := by
  rw [parseLines]
  split
  · rename_i h'
    rw [h] at h'
    cases h'
  · rename_i h'
    rw [h] at h'
    cases h'
  · rename_i h'
    rw [h] at h'
    obtain ⟨-, rfl⟩ := Prod.mk.inj (Except.ok.inj h')
    rfl

theorem linesStep_of_parseLines (h : parseLines s = .ok conf) :
    LinesStep (s.lex.rest.splitOn 10) s.had s.conf conf := by
  induction s using parseLines.induct with
  | case1 s e hline =>
      rw [parseLines] at h
      split at h
      · cases h
      · rename_i h'
        rw [hline] at h'
        cases h'
      · rename_i h'
        rw [hline] at h'
        cases h'
  | case2 s s' hline =>
      rw [parseLines_stop hline] at h
      obtain rfl := Except.ok.inj h
      obtain ⟨line, hrest, hstep⟩ := parseLine_inv hline
      rw [behindLine, if_neg Bool.false_ne_true, List.append_nil] at hrest
      rw [hrest, List.splitOn_eq_singleton hstep.newline_free]
      exact .cons hstep .nil
  | case3 s s' hline ih =>
      rw [parseLines_again hline] at h
      obtain ⟨line, hrest, hstep⟩ := parseLine_inv hline
      rw [behindLine, if_pos rfl] at hrest
      rw [hrest, List.splitOn_append_cons_self_of_not_mem hstep.newline_free]
      exact .cons hstep (ih h)

theorem parseLines_of_linesStep {lines : List Str} {had : List UpdatedbVariable}
    {start : UpdatedbConf} (h : LinesStep lines had start conf) (lex : LexState)
    (hlines : lex.rest.splitOn 10 = lines) : parseLines ⟨lex, had, start⟩ = .ok conf := by
  induction h generalizing lex with
  | nil => exact absurd hlines (List.splitOn_ne_nil _ _)
  | cons hstep hrest ih =>
      by_cases hmem : 10 ∈ lex.rest
      · obtain ⟨line, rest, hsplit, hline⟩ := List.eq_append_cons_of_mem hmem
        rw [hsplit, List.splitOn_append_cons_self_of_not_mem hline] at hlines
        obtain ⟨hfirst, hlater⟩ := List.cons.inj hlines
        subst hfirst
        obtain ⟨lex', hparse, hlex⟩ := parseLine_eq_ok (s := ⟨lex, _, _⟩) true rest hstep hsplit
        rw [parseLines_again hparse]
        exact ih lex' ((congrArg _ (hlex rfl)).trans hlater)
      · rw [List.splitOn_eq_singleton hmem] at hlines
        obtain ⟨rfl, rfl⟩ := List.cons.inj hlines
        obtain ⟨lex', hparse, -⟩ := parseLine_eq_ok (s := ⟨lex, _, _⟩) false [] hstep
          (List.append_nil _).symm
        rw [parseLines_stop hparse]
        cases hrest
        rfl

theorem parseUpdatedbConf_eq_ok_iff {text : Str} : parseUpdatedbConf (some text) = .ok conf ↔
    LinesStep (text.splitOn 10) [] {} conf :=
  ⟨linesStep_of_parseLines, fun h => parseLines_of_linesStep h { rest := text } rfl⟩

end Loop

inductive ConfValue where
  | flag (flag : Bool)
  | list (words : List Str)
  | hash (kind : MetadataHashKind)
  | number (n : ℕ)

def UpdatedbConf.get (conf : UpdatedbConf) : UpdatedbVariable → ConfValue
  | .setting .pruneBindMounts => .flag conf.pruneBindMounts
  | .setting .prunefs => .list conf.prunefs
  | .setting .prunenames => .list conf.prunenames
  | .setting .prunepaths => .list conf.prunepaths
  | .setting .metadataHash => .hash conf.metadataHashKind
  | .setting .historyDepth => .number conf.historyDepth
  | .compareAtime => .flag conf.compareAtime
  | .hashMaxSize => .number conf.hashMaxSize

def UpdatedbVariable.read : UpdatedbVariable → Str → Option ConfValue
  | .setting .pruneBindMounts, val => (parseBool val).map .flag
  | .setting .prunefs, val => some (.list (varAddValues val))
  | .setting .prunenames, val => some (.list (varAddValues val))
  | .setting .prunepaths, val => some (.list (varAddValues val))
  | .setting .metadataHash, val => (parseMetadataHashKind val).map .hash
  | .setting .historyDepth, val => (parseInt val).map .number
  | .compareAtime, val => (parseBool val).map .flag
  | .hashMaxSize, val => (parseSize val).map .number

/-- The strings that a variable takes: a word for yes or no, any list of words, the name of a hash
in upper or lower case, a number or a size. -/
def UpdatedbVariable.Valid : UpdatedbVariable → Str → Prop
  | .setting .pruneBindMounts, val => val ∈ [ascii "0", ascii "no", ascii "1", ascii "yes"]
  | .setting .prunefs, _ => True
  | .setting .prunenames, _ => True
  | .setting .prunepaths, _ => True
  | .setting .metadataHash, val => val.map tolower ∈
      [ascii "none", ascii "xxh64", ascii "xxhash64", ascii "fast", ascii "sha256"]
  | .setting .historyDepth, val => ∃ n, parseInt val = some n
  | .compareAtime, val => val ∈ [ascii "0", ascii "no", ascii "1", ascii "yes"]
  | .hashMaxSize, val => ∃ n, parseSize val = some n

/-- Every line is white space, a comment or a definition, and no variable is defined twice. -/
structure FollowsGrammar (lines : List Str) : Prop where
  line : ∀ line ∈ lines, Trailing line ∨ ∃ var val, Assigns line var val ∧ var.Valid val
  once : lines.Pairwise fun a b => ∀ var val val', Assigns a var val → ¬Assigns b var val'

/-- Every variable holds the value of its line, or its default if it has none. -/
structure Configures (lines : List Str) (conf : UpdatedbConf) : Prop where
  defined : ∀ line ∈ lines, ∀ var val, Assigns line var val → var.read val = some (conf.get var)
  default : ∀ var, (∀ line ∈ lines, ∀ val, ¬Assigns line var val) →
    conf.get var = ({} : UpdatedbConf).get var

def unlines (lines : List Str) : Str := lines.flatMap (· ++ [10])

section Values

variable {val : Str} {var var' : UpdatedbVariable} {conf conf' : UpdatedbConf} {lines : List Str}

theorem exists_parseBool_iff : (∃ flag, parseBool val = some flag) ↔
    val ∈ [ascii "0", ascii "no", ascii "1", ascii "yes"] := by
  unfold parseBool
  simp only [List.mem_cons, List.not_mem_nil, or_false]
  split_ifs with h₀ h₁
  · simp [h₀, ← or_assoc]
  · simp [h₁]
  · simp [h₀, h₁]

theorem exists_parseMetadataHashKind_iff : (∃ kind, parseMetadataHashKind val = some kind) ↔
    val.map tolower ∈
      [ascii "none", ascii "xxh64", ascii "xxhash64", ascii "fast", ascii "sha256"] := by
  unfold parseMetadataHashKind
  simp only [List.mem_cons, List.not_mem_nil, or_false]
  split_ifs with h₀ h₁ h₂
  · simp [h₀]
  · simp [h₁, ← or_assoc]
  · simp [h₂]
  · simp [h₀, h₂, h₁]

theorem exists_map_eq_some_iff {α β : Type} {f : α → β} {o : Option α} :
    (∃ b, o.map f = some b) ↔ ∃ a, o = some a := by
  cases o with
  | none => simp
  | some a => simp

theorem UpdatedbVariable.valid_iff : var.Valid val ↔ ∃ value, var.read val = some value := by
  have hlist {words : List Str} : True ↔ ∃ value, some (ConfValue.list words) = some value :=
    iff_of_true trivial ⟨_, rfl⟩
  cases var with
  | setting var =>
      cases var with
      | pruneBindMounts => exact exists_parseBool_iff.symm.trans exists_map_eq_some_iff.symm
      | prunefs => exact hlist
      | prunenames => exact hlist
      | prunepaths => exact hlist
      | metadataHash =>
          exact exists_parseMetadataHashKind_iff.symm.trans exists_map_eq_some_iff.symm
      | historyDepth => exact exists_map_eq_some_iff.symm
  | compareAtime => exact exists_parseBool_iff.symm.trans exists_map_eq_some_iff.symm
  | hashMaxSize => exact exists_map_eq_some_iff.symm

theorem cStr_val (h : 0 ∉ val) : (cStr val).val = val := by
  apply List.takeWhile_eq_self_iff.mpr
  intro c hc
  rw [decide_eq_true_iff]
  rintro rfl
  exact h hc

/-- What only the command line sets. -/
def UpdatedbConf.SameRest (conf conf' : UpdatedbConf) : Prop :=
  conf'.checkVisibility = conf.checkVisibility ∧ conf'.scanRoot = conf.scanRoot

theorem UpdatedbConf.eq_of_get (hrest : conf.SameRest conf')
    (h : ∀ var, conf'.get var = conf.get var) : conf' = conf := by
  obtain ⟨hvisibility, hroot⟩ := hrest
  have hprune := ConfValue.flag.inj (h (.setting .pruneBindMounts))
  have hfs := ConfValue.list.inj (h (.setting .prunefs))
  have hnames := ConfValue.list.inj (h (.setting .prunenames))
  have hpaths := ConfValue.list.inj (h (.setting .prunepaths))
  have hkind := ConfValue.hash.inj (h (.setting .metadataHash))
  have hdepth := ConfValue.number.inj (h (.setting .historyDepth))
  have hatime := ConfValue.flag.inj (h .compareAtime)
  have hsize := ConfValue.number.inj (h .hashMaxSize)
  obtain ⟨⟨_, _, _, _, _, _, _, _⟩, _, _⟩ := conf
  obtain ⟨⟨_, _, _, _, _, _, _, _⟩, _, _⟩ := conf'
  simp only at hvisibility hroot hprune hfs hnames hpaths hkind hdepth hatime hsize
  subst hvisibility hroot hprune hfs hnames hpaths hkind hdepth hatime hsize
  rfl

/-- A definition leaves the other variables. -/
theorem UpdatedbConf.get_of_assign_of_ne (h : conf.assign var val = some conf')
    (hne : var' ≠ var) : conf'.get var' = conf.get var' := by
  cases var with
  | setting var =>
      obtain ⟨settings, hset, rfl⟩ := Option.map_eq_some_iff.mp h
      cases var with
      | pruneBindMounts | metadataHash | historyDepth =>
          obtain ⟨value, -, rfl⟩ := Option.map_eq_some_iff.mp hset
          rcases var' with (_ | _ | _ | _ | _ | _) | _ | _
          all_goals first | rfl | exact absurd rfl hne
      | prunefs | prunenames | prunepaths =>
          obtain rfl := Option.some.inj hset
          rcases var' with (_ | _ | _ | _ | _ | _) | _ | _
          all_goals first | rfl | exact absurd rfl hne
  | compareAtime | hashMaxSize =>
      obtain ⟨value, -, rfl⟩ := Option.map_eq_some_iff.mp h
      rcases var' with (_ | _ | _ | _ | _ | _) | _ | _
      all_goals first | rfl | exact absurd rfl hne

theorem UpdatedbConf.sameRest_of_assign (h : conf.assign var val = some conf') :
    conf.SameRest conf' := by
  cases var with
  | setting var =>
      obtain ⟨settings, hset, rfl⟩ := Option.map_eq_some_iff.mp h
      cases var with
      | pruneBindMounts | metadataHash | historyDepth =>
          obtain ⟨value, -, rfl⟩ := Option.map_eq_some_iff.mp hset
          exact ⟨rfl, rfl⟩
      | prunefs | prunenames | prunepaths =>
          obtain rfl := Option.some.inj hset
          exact ⟨rfl, rfl⟩
  | compareAtime | hashMaxSize =>
      obtain ⟨value, -, rfl⟩ := Option.map_eq_some_iff.mp h
      exact ⟨rfl, rfl⟩

/-- The words of a list come behind those that are there, and before there are none. -/
theorem UpdatedbConf.read_of_assign (hval : 0 ∉ val) (h : conf.assign var val = some conf')
    (hdefault : conf.get var = ({} : UpdatedbConf).get var) :
    var.read val = some (conf'.get var) := by
  have hlist {words : List Str} (hnil : ConfValue.list words = .list []) :
      some (ConfValue.list (varAddValues val)) =
        some (.list (words ++ varAddValues (cStr val).val)) := by
    rw [ConfValue.list.inj hnil, List.nil_append, cStr_val hval]
  cases var with
  | setting var =>
      obtain ⟨settings, hset, rfl⟩ := Option.map_eq_some_iff.mp h
      cases var with
      | pruneBindMounts | historyDepth =>
          obtain ⟨value, hvalue, rfl⟩ := Option.map_eq_some_iff.mp hset
          rw [cStr_val hval] at hvalue
          rw [UpdatedbVariable.read, hvalue]
          rfl
      | metadataHash =>
          obtain ⟨kind, hkind, rfl⟩ := Option.map_eq_some_iff.mp hset
          rw [UpdatedbVariable.read, hkind]
          rfl
      | prunefs | prunenames | prunepaths =>
          obtain rfl := Option.some.inj hset
          exact hlist hdefault
  | compareAtime | hashMaxSize =>
      obtain ⟨value, hvalue, rfl⟩ := Option.map_eq_some_iff.mp h
      rw [cStr_val hval] at hvalue
      rw [UpdatedbVariable.read, hvalue]
      rfl

theorem UpdatedbConf.exists_assign_iff (hval : 0 ∉ val) :
    (∃ conf', conf.assign var val = some conf') ↔ var.Valid val := by
  rw [UpdatedbVariable.valid_iff]
  cases var with
  | setting var =>
      refine exists_map_eq_some_iff.trans ?_
      cases var with
      | pruneBindMounts =>
          rw [Conf.assign, cStr_val hval]
          exact exists_map_eq_some_iff.trans exists_map_eq_some_iff.symm
      | metadataHash => exact exists_map_eq_some_iff.trans exists_map_eq_some_iff.symm
      | historyDepth =>
          rw [Conf.assign, cStr_val hval]
          exact exists_map_eq_some_iff.trans exists_map_eq_some_iff.symm
      | prunefs => exact iff_of_true ⟨_, rfl⟩ ⟨_, rfl⟩
      | prunenames => exact iff_of_true ⟨_, rfl⟩ ⟨_, rfl⟩
      | prunepaths => exact iff_of_true ⟨_, rfl⟩ ⟨_, rfl⟩
  | compareAtime =>
      rw [assign, cStr_val hval]
      exact exists_map_eq_some_iff.trans exists_map_eq_some_iff.symm
  | hashMaxSize =>
      rw [assign, cStr_val hval]
      exact exists_map_eq_some_iff.trans exists_map_eq_some_iff.symm

end Values

section Grammar

variable {line : Str} {lines lines' : List Str} {had : List UpdatedbVariable}
  {conf conf' : UpdatedbConf}

theorem Assigns.nul_free {var : UpdatedbVariable} {val : Str} (h : Assigns line var val)
    (hnul : 0 ∉ line) : 0 ∉ val := by
  obtain ⟨w₁, w₂, w₃, trailer, rfl, -⟩ := h
  intro hmem
  apply hnul
  simp [hmem]

theorem FollowsGrammar.tail (h : FollowsGrammar (line :: lines)) : FollowsGrammar lines :=
  ⟨(List.forall_mem_cons.mp h.line).2, (List.pairwise_cons.mp h.once).2⟩

/-- Lines follow the grammar, define none of the variables before them, and set just what they
define. -/
theorem LinesStep.grammar (h : LinesStep lines had conf conf') (hnul : ∀ line ∈ lines, 0 ∉ line)
    (hdefault : ∀ var ∉ had, conf.get var = ({} : UpdatedbConf).get var) :
    FollowsGrammar lines ∧
      (∀ line ∈ lines, ∀ var val, Assigns line var val →
        var ∉ had ∧ var.read val = some (conf'.get var)) ∧
      (∀ var, (∀ line ∈ lines, ∀ val, ¬Assigns line var val) → conf'.get var = conf.get var) ∧
      conf.SameRest conf' := by
  induction h with
  | nil =>
      exact ⟨⟨List.forall_mem_nil _, .nil⟩, List.forall_mem_nil _, fun _ _ => rfl, rfl, rfl⟩
  | cons hline hlines ih =>
      rw [List.forall_mem_cons] at hnul
      cases hline with
      | skip htrailing =>
          obtain ⟨hgrammar, hdefined, hothers, hrest⟩ := ih hnul.2 hdefault
          refine ⟨⟨List.forall_mem_cons.mpr ⟨.inl htrailing, hgrammar.line⟩,
            List.pairwise_cons.mpr ⟨?_, hgrammar.once⟩⟩,
            List.forall_mem_cons.mpr ⟨?_, hdefined⟩, ?_, hrest⟩
          · intro b _ var val val' hassigns
            exact absurd htrailing hassigns.not_trailing
          · intro var val hassigns
            exact absurd htrailing hassigns.not_trailing
          · intro var hnone
            exact hothers var (List.forall_mem_cons.mp hnone).2
      | define hassigns hhad hassign =>
          rename_i val var
          have hread := UpdatedbConf.read_of_assign (hassigns.nul_free hnul.1) hassign
            (hdefault var hhad)
          have hrest := UpdatedbConf.sameRest_of_assign hassign
          obtain ⟨hgrammar, hdefined, hothers, hrest'⟩ := ih hnul.2 fun var' hvar' => by
            rw [List.mem_cons, not_or] at hvar'
            rw [UpdatedbConf.get_of_assign_of_ne hassign hvar'.1, hdefault var' hvar'.2]
          have hlater : ∀ b ∈ _, ∀ val', ¬Assigns b var val' := fun b hb val' hb' =>
            (hdefined b hb var val' hb').1 List.mem_cons_self
          refine ⟨⟨List.forall_mem_cons.mpr ⟨.inr ⟨var, val, hassigns, ?_⟩, hgrammar.line⟩,
            List.pairwise_cons.mpr ⟨?_, hgrammar.once⟩⟩,
            List.forall_mem_cons.mpr ⟨?_, ?_⟩, ?_, ?_⟩
          · exact UpdatedbVariable.valid_iff.mpr ⟨_, hread⟩
          · intro b hb var' val' val'' hassigns'
            obtain ⟨rfl, -⟩ := hassigns.unique hassigns'
            exact hlater b hb val''
          · intro var' val' hassigns'
            obtain ⟨rfl, rfl⟩ := hassigns.unique hassigns'
            exact ⟨hhad, by rw [hread, hothers var hlater]⟩
          · intro b hb var' val' hb'
            obtain ⟨hvar', hread'⟩ := hdefined b hb var' val' hb'
            exact ⟨List.not_mem_of_not_mem_cons hvar', hread'⟩
          · intro var' hnone
            rw [List.forall_mem_cons] at hnone
            rw [hothers var' hnone.2]
            apply UpdatedbConf.get_of_assign_of_ne hassign
            rintro rfl
            exact hnone.1 val hassigns
          · exact ⟨hrest'.1.trans hrest.1, hrest'.2.trans hrest.2⟩

/-- Lines that follow the grammar can be taken. -/
theorem exists_linesStep (hnul : ∀ line ∈ lines, 0 ∉ line) (h : FollowsGrammar lines)
    (hhad : ∀ line ∈ lines, ∀ var val, Assigns line var val → var ∉ had) :
    ∃ conf', LinesStep lines had conf conf' := by
  induction lines generalizing had conf with
  | nil => exact ⟨conf, .nil⟩
  | cons line lines ih =>
      rw [List.forall_mem_cons] at hnul hhad
      rcases (List.forall_mem_cons.mp h.line).1 with htrailing | ⟨var, val, hassigns, hvalid⟩
      · obtain ⟨conf', hlines⟩ := ih hnul.2 h.tail hhad.2
        exact ⟨conf', .cons (.skip htrailing) hlines⟩
      · obtain ⟨conf₁, hassign⟩ :=
          (UpdatedbConf.exists_assign_iff (hassigns.nul_free hnul.1)).mpr hvalid
        have hhad' : ∀ l ∈ lines, ∀ var' val', Assigns l var' val' → var' ∉ var :: had := by
          intro l hl var' val' hl'
          apply List.not_mem_cons_of_ne_of_not_mem
          · rintro rfl
            exact (List.pairwise_cons.mp h.once).1 l hl _ _ _ hassigns hl'
          · exact hhad.2 l hl var' val' hl'
        obtain ⟨conf', hlines⟩ := ih hnul.2 h.tail hhad'
        exact ⟨conf', .cons (.define hassigns (hhad.1 var val hassigns) hassign) hlines⟩

theorem mem_of_mem_splitOn {text : Str} {c : UInt8} (hline : line ∈ text.splitOn 10)
    (hc : c ∈ line) : c ∈ text := by
  induction text generalizing line with
  | nil =>
      rw [List.splitOn_nil, List.mem_singleton] at hline
      rwa [hline] at hc
  | cons d text ih =>
      rw [List.splitOn_cons_eq_if_modifyHead] at hline
      split at hline
      · rcases List.mem_cons.mp hline with rfl | hline
        · cases hc
        · exact List.mem_cons_of_mem d (ih hline hc)
      · cases hsplit : text.splitOn 10 with
        | nil => exact absurd hsplit (List.splitOn_ne_nil _ _)
        | cons first later =>
            rw [hsplit, List.modifyHead_cons] at hline
            rcases List.mem_cons.mp hline with rfl | hline
            · rcases List.mem_cons.mp hc with rfl | hc
              · exact List.mem_cons_self
              · exact List.mem_cons_of_mem d (ih (hsplit ▸ List.mem_cons_self) hc)
            · exact List.mem_cons_of_mem d (ih (hsplit ▸ List.mem_cons_of_mem _ hline) hc)

theorem nul_free_of_mem_splitOn {text : Str} (h : 0 ∉ text) :
    ∀ line ∈ text.splitOn 10, 0 ∉ line :=
  fun _ hline hmem => h (mem_of_mem_splitOn hline hmem)

theorem splitOn_unlines (h : ∀ line ∈ lines, 10 ∉ line) :
    (unlines lines).splitOn 10 = lines ++ [[]] := by
  induction lines with
  | nil => rfl
  | cons line lines ih =>
      rw [List.forall_mem_cons] at h
      have hcons : unlines (line :: lines) = line ++ 10 :: unlines lines := by
        simp [unlines]
      rw [hcons, List.splitOn_append_cons_self_of_not_mem h.1, ih h.2, List.cons_append]

theorem FollowsGrammar.perm (h : FollowsGrammar lines) (hperm : lines.Perm lines') :
    FollowsGrammar lines' := by
  refine ⟨fun line hline => h.line line (hperm.mem_iff.mpr hline), ?_⟩
  refine (hperm.pairwise_iff ?_).mp h.once
  intro a b hab var val val' hb ha
  exact hab var val' val ha hb

/-- The configuration of lines that are taken, and what it holds then. -/
theorem configures_of_parseUpdatedbConf {text : Str} (htext : 0 ∉ text)
    (h : parseUpdatedbConf (some text) = .ok conf) : FollowsGrammar (text.splitOn 10) ∧
      Configures (text.splitOn 10) conf ∧ ({} : UpdatedbConf).SameRest conf := by
  obtain ⟨hgrammar, hdefined, hothers, hrest⟩ := (parseUpdatedbConf_eq_ok_iff.mp h).grammar
    (nul_free_of_mem_splitOn htext) fun _ _ => rfl
  exact ⟨hgrammar, ⟨fun line hline var val hassigns => (hdefined line hline var val hassigns).2,
    hothers⟩, hrest⟩

theorem parseUpdatedbConf_ok_iff {text : Str} (htext : 0 ∉ text) :
    (∃ conf, parseUpdatedbConf (some text) = .ok conf) ↔ FollowsGrammar (text.splitOn 10) := by
  constructor
  · rintro ⟨conf, h⟩
    exact (configures_of_parseUpdatedbConf htext h).1
  · intro h
    obtain ⟨conf, hlines⟩ := exists_linesStep (nul_free_of_mem_splitOn htext) h
      fun _ _ _ _ _ => List.not_mem_nil
    exact ⟨conf, parseUpdatedbConf_eq_ok_iff.mpr hlines⟩

/-- Lines and their values determine the configuration. -/
theorem Configures.eq_of_perm (h : Configures lines conf) (h' : Configures lines' conf')
    (hperm : lines.Perm lines') (hrest : ({} : UpdatedbConf).SameRest conf)
    (hrest' : ({} : UpdatedbConf).SameRest conf') : conf' = conf := by
  refine UpdatedbConf.eq_of_get ⟨hrest'.1.trans hrest.1.symm, hrest'.2.trans hrest.2.symm⟩ ?_
  intro var
  by_cases hsome : ∃ line ∈ lines, ∃ val, Assigns line var val
  · obtain ⟨line, hline, val, hassigns⟩ := hsome
    have hread := h.defined line hline var val hassigns
    rw [h'.defined line (hperm.mem_iff.mp hline) var val hassigns] at hread
    exact Option.some.inj hread
  · have hnone : ∀ line ∈ lines, ∀ val, ¬Assigns line var val := by
      intro line hline val hassigns
      exact hsome ⟨line, hline, val, hassigns⟩
    rw [h.default var hnone, h'.default var fun line hline => hnone line (hperm.mem_iff.mpr hline)]

theorem parseUpdatedbConf_grammar (text : Str) (htext : 0 ∉ text) :
    ((∃ conf, parseUpdatedbConf (some text) = .ok conf) ↔ FollowsGrammar (text.splitOn 10)) ∧
    (∀ conf, parseUpdatedbConf (some text) = .ok conf → Configures (text.splitOn 10) conf) ∧
    ∀ lines lines' conf, text = unlines lines → (∀ line ∈ lines, 10 ∉ line) →
      lines.Perm lines' → parseUpdatedbConf (some text) = .ok conf →
      parseUpdatedbConf (some (unlines lines')) = .ok conf := by
  refine ⟨parseUpdatedbConf_ok_iff htext,
    fun conf h => (configures_of_parseUpdatedbConf htext h).2.1, ?_⟩
  rintro lines lines' conf rfl hlines hperm h
  obtain ⟨hgrammar, hconfigures, hrest⟩ := configures_of_parseUpdatedbConf htext h
  have htext' : 0 ∉ unlines lines' := fun hmem => htext ((hperm.flatMap_right _).mem_iff.mpr hmem)
  have hlines' : ∀ line ∈ lines', 10 ∉ line := fun line hline =>
    hlines line (hperm.mem_iff.mpr hline)
  have hsplit : ((unlines lines).splitOn 10).Perm ((unlines lines').splitOn 10) := by
    rw [splitOn_unlines hlines, splitOn_unlines hlines']
    exact hperm.append_right _
  obtain ⟨conf', h'⟩ := (parseUpdatedbConf_ok_iff htext').mpr (hgrammar.perm hsplit)
  obtain ⟨-, hconfigures', hrest'⟩ := configures_of_parseUpdatedbConf htext' h'
  rw [h', hconfigures.eq_of_perm hconfigures' hsplit hrest hrest']

/-- The settings are those of the definitions of a file, in their order. -/
theorem LinesStep.exists_assignments (h : LinesStep lines had conf conf')
    (settings : List ConfVariable) (hsettings : ∀ var ∈ settings, .setting var ∈ had) :
    ∃ assignments : List (ConfVariable × Str),
      Conf.parseUpdatedbConf assignments settings conf.toConf = some conf'.toConf ∧
      ∀ a ∈ assignments, ∃ line ∈ lines, Assigns line (.setting a.1) a.2 := by
  induction h generalizing settings with
  | nil => exact ⟨[], rfl, List.forall_mem_nil _⟩
  | @cons line lines had had' conf conf₁ conf' hline hlines ih =>
      have hlater {a : ConfVariable × Str} (h : ∃ l ∈ lines, Assigns l (.setting a.1) a.2) :
          ∃ l ∈ line :: lines, Assigns l (.setting a.1) a.2 := by
        obtain ⟨l, hl, hassigns⟩ := h
        exact ⟨l, List.mem_cons_of_mem _ hl, hassigns⟩
      cases hline with
      | skip _ =>
          obtain ⟨assignments, hparse, hmem⟩ := ih settings hsettings
          exact ⟨assignments, hparse, fun a ha => hlater (hmem a ha)⟩
      | define hassigns hhad hassign =>
          rename_i val var
          cases var with
          | setting var =>
              obtain ⟨next, hnext, rfl⟩ := Option.map_eq_some_iff.mp hassign
              have hvar : var ∉ settings := fun hmem => hhad (hsettings var hmem)
              obtain ⟨assignments, hparse, hmem⟩ := ih (var :: settings)
                (List.forall_mem_cons.mpr ⟨List.mem_cons_self,
                  fun v hv => List.mem_cons_of_mem _ (hsettings v hv)⟩)
              refine ⟨(var, val) :: assignments, ?_, List.forall_mem_cons.mpr
                ⟨⟨line, List.mem_cons_self, hassigns⟩, fun a ha => hlater (hmem a ha)⟩⟩
              rw [Conf.parseUpdatedbConf, if_neg hvar, hnext]
              exact hparse
          | compareAtime =>
              obtain ⟨flag, -, rfl⟩ := Option.map_eq_some_iff.mp hassign
              obtain ⟨assignments, hparse, hmem⟩ := ih settings
                fun v hv => List.mem_cons_of_mem _ (hsettings v hv)
              exact ⟨assignments, hparse, fun a ha => hlater (hmem a ha)⟩
          | hashMaxSize =>
              obtain ⟨size, -, rfl⟩ := Option.map_eq_some_iff.mp hassign
              obtain ⟨assignments, hparse, hmem⟩ := ih settings
                fun v hv => List.mem_cons_of_mem _ (hsettings v hv)
              exact ⟨assignments, hparse, fun a ha => hlater (hmem a ha)⟩

/-- The run of updatedb with a file has the settings of its definitions. -/
theorem exists_assignments_of_parseUpdatedbConf {text : Str}
    (h : parseUpdatedbConf (some text) = .ok conf) : ∃ assignments : List (ConfVariable × Str),
      Conf.parseUpdatedbConf assignments [] {} = some conf.toConf ∧
      ∀ a ∈ assignments, ∃ line ∈ text.splitOn 10, Assigns line (.setting a.1) a.2 :=
  (parseUpdatedbConf_eq_ok_iff.mp h).exists_assignments [] (List.forall_mem_nil _)

end Grammar

section Examples

def twoDefinitions : Str :=
  ascii "PRUNEFS = \x22NFS proc\x22 # network\n# none\n HISTORY_DEPTH=\x223\x22"

theorem exists_parse_twoDefinitions :
    ∃ conf, parseUpdatedbConf (some twoDefinitions) = .ok conf := by
  have hok : (parseUpdatedbConf (some twoDefinitions)).isOk = true := by decide +kernel
  cases h : parseUpdatedbConf (some twoDefinitions) with
  | error e =>
      rw [h] at hok
      cases hok
  | ok conf => exact ⟨conf, rfl⟩

theorem configures_twoDefinitions : ∃ conf, parseUpdatedbConf (some twoDefinitions) = .ok conf ∧
    Configures (twoDefinitions.splitOn 10) conf := by
  obtain ⟨conf, h⟩ := exists_parse_twoDefinitions
  exact ⟨conf, h, (parseUpdatedbConf_grammar twoDefinitions (by decide)).2.1 conf h⟩

/-- What `conf_prepare` starts from. -/
example : ∃ assignments : List (ConfVariable × Str),
    (Conf.parseUpdatedbConf assignments [] {}).isSome ∧
      ∀ a ∈ assignments, ∃ line ∈ twoDefinitions.splitOn 10, Assigns line (.setting a.1) a.2 := by
  obtain ⟨conf, h⟩ := exists_parse_twoDefinitions
  obtain ⟨assignments, hparse, hmem⟩ := exists_assignments_of_parseUpdatedbConf h
  exact ⟨assignments, by rw [hparse]; rfl, hmem⟩

end Examples

end Flocate
