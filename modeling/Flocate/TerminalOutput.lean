import Flocate.Lib.WideChar
import Mathlib.Data.List.TakeWhile

/-!
# Printing a file name on a terminal

`print_possibly_escaped` in a UTF-8 locale. A terminal gets the file name as it is when all its
characters are safe, and in the quotes of a shell otherwise.
-/

namespace Flocate

open Bytes Utf8

section AllSafe

/-- The loop that looks for a character that needs quotes. -/
def allSafe (state : Mbstate) (s : Str) : Bool :=
  match _ : mbtowc state s with
  | (.malformed, _) => false
  | (.null, _) => true
  | (.wide pwc ret, state') =>
      if pwc < 32 ∨ pwc = '\x27'.toNat ∨ pwc = '"'.toNat ∨ pwc = '\\'.toNat then false
      else if pwc = '\x60'.toNat then false
      else if (s.drop ret).headD 0 = 0 then true
      else allSafe state' (s.drop ret)
termination_by s.length
decreasing_by exact length_drop_lt_of_mbtowc (by assumption)

end AllSafe

section Quoted

/-- `printf("\\%03o")` of a byte below 512. -/
def octalEscape (c : UInt8) : Str :=
  '\\'.toUInt8 :: [c / 64 % 8, c / 8 % 8, c % 8].map (· + '0'.toUInt8)

/-- The escapes of bash, octal for what has none. -/
def escape (c : UInt8) : Str :=
  if c = '\x07'.toUInt8 then ascii "\\a"
  else if c = '\x08'.toUInt8 then ascii "\\b"
  else if c = '\x0c'.toUInt8 then ascii "\\f"
  else if c = '\n'.toUInt8 then ascii "\\n"
  else if c = '\r'.toUInt8 then ascii "\\r"
  else if c = '\t'.toUInt8 then ascii "\\t"
  else if c = '\x0b'.toUInt8 then ascii "\\v"
  else if c = '\\'.toUInt8 then ascii "\\\\"
  else if c = '\x27'.toUInt8 then ascii "\\'"
  else if c = '"'.toUInt8 then ascii "\\\""
  else octalEscape c

def isSpecial (c : UInt8) : Bool :=
  c < 32 || c = '\x27'.toUInt8 || c = '"'.toUInt8 || c = '\\'.toUInt8

/-- The loop that prints in quotes, with the quote that ends the output. A malformed byte is
passed over, and what `mbtowc` keeps of it stays for the bytes behind it. -/
def printQuoted (inEscapedMode : Bool) (state : Mbstate) (s : Str) : Str :=
  if s.headD 0 = 0 then ascii "'\n"
  else
    match _ : mbtowc state s with
    | (.malformed, state') => ascii "?" ++ printQuoted inEscapedMode state' (s.drop 1)
    | (.null, _) => ascii "'\n"
    | (.wide _ ret, state') =>
        if isSpecial (s.headD 0) then
          (if inEscapedMode then [] else ascii "'$'") ++ escape (s.headD 0) ++
            printQuoted true state' (s.drop ret)
        else
          (if inEscapedMode then ascii "''" else []) ++ s.take ret ++
            printQuoted false state' (s.drop ret)
termination_by s.length
decreasing_by
  · exact length_drop_one_lt_of_mbtowc (by assumption)
  all_goals exact length_drop_lt_of_mbtowc (by assumption)

end Quoted

/-- `print_possibly_escaped`; `printf("%s")` stops at a NUL. -/
def printPossiblyEscaped (printNul literalPrinting stdoutIsTty : Bool) (str : Str) : Str :=
  if printNul then str.takeWhile (· ≠ 0) ++ [0]
  else if literalPrinting || !stdoutIsTty then str.takeWhile (· ≠ 0) ++ ascii "\n"
  else if allSafe .initial str then str.takeWhile (· ≠ 0) ++ ascii "\n"
  else ascii "'" ++ printQuoted false .initial str

example : printPossiblyEscaped false false true (ascii "a\nb\x01") =
    ascii "'a'$'\\n''b'$'\\001'\n" := by
  decide +kernel

section Characters

def NeedsEscape (ch : Char) : Prop :=
  ch.toNat < 32 ∨ ch = '\x27' ∨ ch = '"' ∨ ch = '\\'

instance (ch : Char) : Decidable (NeedsEscape ch) :=
  inferInstanceAs (Decidable (_ ∨ _ ∨ _ ∨ _))

/-- The test of the first byte and the test of the character agree. -/
theorem isSpecial_headD (ch : Char) (s : Str) :
    isSpecial ((String.utf8EncodeChar ch ++ s).headD 0) = true ↔ NeedsEscape ch := by
  have hnat (c : UInt8) : isSpecial c = true ↔
      c.toNat < 32 ∨ c.toNat = 39 ∨ c.toNat = 34 ∨ c.toNat = 92 := by
    have hquote : '\x27'.toUInt8.toNat = 39 := rfl
    have hdouble : '"'.toUInt8.toNat = 34 := rfl
    have hback : '\\'.toUInt8.toNat = 92 := rfl
    simp [isSpecial, UInt8.lt_iff_toNat_lt, ← UInt8.toNat_inj, or_assoc, hquote, hdouble, hback]
  have hchar : NeedsEscape ch ↔
      ch.toNat < 32 ∨ ch.toNat = 39 ∨ ch.toNat = 34 ∨ ch.toNat = 92 := by
    simp [NeedsEscape, ← Char.toNat_inj]
  rw [hnat, hchar]
  rcases Utf8.headD_append_ascii_or ch s with ⟨hlt, hhead⟩ | ⟨hle, hhead⟩
  · rw [hhead, Utf8.toNat_toUInt8 hlt]
  · omega

theorem headD_of_needsEscape {ch : Char} (h : NeedsEscape ch) (s : Str) :
    (String.utf8EncodeChar ch ++ s).headD 0 = ch.toUInt8 ∧
      String.utf8EncodeChar ch = [ch.toUInt8] := by
  have hlt : ch.toNat < 128 := by
    rcases h with h | rfl | rfl | rfl
    · omega
    all_goals decide
  rcases Utf8.utf8EncodeChar_ascii_or ch with ⟨-, hbytes⟩ | ⟨hle, -⟩
  · rw [hbytes]
    exact ⟨rfl, rfl⟩
  · omega

end Characters

section Equations

theorem allSafe_malformed {state state' : Mbstate} {s : Str}
    (h : mbtowc state s = (.malformed, state')) : allSafe state s = false := by
  rw [allSafe]
  split
  · rfl
  all_goals
    rename_i h'
    exact absurd (h.symm.trans h') (by simp)

theorem allSafe_null {state : Mbstate} {s : Str} (h : s.headD 0 = 0) : allSafe state s = true := by
  have hm := mbtowc_null state h
  rw [allSafe]
  split
  · rename_i h'
    exact absurd (hm.symm.trans h') (by simp)
  · rfl
  · rename_i h'
    exact absurd (hm.symm.trans h') (by simp)

theorem allSafe_wide {state state' : Mbstate} {s : Str} {pwc ret : ℕ}
    (h : mbtowc state s = (.wide pwc ret, state')) :
    allSafe state s = true ↔
      ¬ (pwc < 32 ∨ pwc = '\x27'.toNat ∨ pwc = '"'.toNat ∨ pwc = '\\'.toNat) ∧
        pwc ≠ '\x60'.toNat ∧ allSafe state' (s.drop ret) = true := by
  rw [allSafe]
  split
  · rename_i h'
    exact absurd (h.symm.trans h') (by simp)
  · rename_i h'
    exact absurd (h.symm.trans h') (by simp)
  · rename_i h'
    obtain ⟨hwide, rfl⟩ := Prod.mk.inj (h.symm.trans h')
    obtain ⟨rfl, rfl⟩ := Mbtowc.wide.inj hwide
    split_ifs with hesc hback hzero
    · exact iff_of_false not_false fun hand => hand.1 hesc
    · exact iff_of_false not_false fun hand => hand.2.1 hback
    · exact iff_of_true rfl ⟨hesc, hback, allSafe_null hzero⟩
    · rw [and_iff_right hesc, and_iff_right hback]

theorem printQuoted_nil (mode : Bool) (state : Mbstate) :
    printQuoted mode state [] = ascii "'\n" := by
  rw [printQuoted]
  rfl

theorem printQuoted_malformed (mode : Bool) {state state' : Mbstate} {s : Str}
    (h : mbtowc state s = (.malformed, state')) :
    printQuoted mode state s = ascii "?" ++ printQuoted mode state' (s.drop 1) := by
  have hnul : s.headD 0 ≠ 0 := fun hzero =>
    absurd (h.symm.trans (mbtowc_null state hzero)) (by simp)
  rw [printQuoted, if_neg hnul]
  split
  · rename_i h'
    rw [(Prod.mk.inj (h.symm.trans h')).2]
  all_goals
    rename_i h'
    exact absurd (h.symm.trans h') (by simp)

theorem printQuoted_wide (mode : Bool) {state state' : Mbstate} {s : Str} {pwc ret : ℕ}
    (h : mbtowc state s = (.wide pwc ret, state')) :
    printQuoted mode state s =
      if isSpecial (s.headD 0) then
        (if mode then [] else ascii "'$'") ++ escape (s.headD 0) ++
          printQuoted true state' (s.drop ret)
      else
        (if mode then ascii "''" else []) ++ s.take ret ++
          printQuoted false state' (s.drop ret) := by
  have hnul : s.headD 0 ≠ 0 := fun hzero =>
    absurd (h.symm.trans (mbtowc_null state hzero)) (by simp)
  rw [printQuoted, if_neg hnul]
  split
  · rename_i h'
    exact absurd (h.symm.trans h') (by simp)
  · rename_i h'
    exact absurd (h.symm.trans h') (by simp)
  · rename_i h'
    obtain ⟨hwide, rfl⟩ := Prod.mk.inj (h.symm.trans h')
    obtain ⟨-, rfl⟩ := Mbtowc.wide.inj hwide
    rfl

theorem printQuoted_char (mode : Bool) {ch : Char} (h : ch ≠ '\x00') (s : Str) :
    (NeedsEscape ch → printQuoted mode .initial (String.utf8EncodeChar ch ++ s) =
      (if mode then [] else ascii "'$'") ++ escape ch.toUInt8 ++
        printQuoted true .initial s) ∧
    (¬ NeedsEscape ch → printQuoted mode .initial (String.utf8EncodeChar ch ++ s) =
      (if mode then ascii "''" else []) ++ String.utf8EncodeChar ch ++
        printQuoted false .initial s) := by
  have hprint := printQuoted_wide mode (mbtowc_char h s)
  rw [drop_utf8Size, take_utf8Size] at hprint
  constructor
  · intro hesc
    rw [hprint, if_pos ((isSpecial_headD ch s).mpr hesc), (headD_of_needsEscape hesc s).1]
  · intro hesc
    rw [hprint, if_neg fun hspecial => hesc ((isSpecial_headD ch s).mp hspecial)]

end Equations

section Controls

def IsControl (ch : Char) : Prop := ch.toNat < 32 ∨ 127 ≤ ch.toNat ∧ ch.toNat < 160

/-- One line of text without control characters. -/
def TerminalSafe (out : Str) : Prop :=
  ∃ chars, out = Utf8.encode chars ++ ascii "\n" ∧ ∀ ch ∈ chars, ¬ IsControl ch

/-- The characters that `mbtowc` takes, as their bytes; a malformed byte is passed over. -/
def pieces (state : Mbstate) (s : Str) : List Str :=
  match _ : mbtowc state s with
  | (.malformed, state') => pieces state' (s.drop 1)
  | (.null, _) => []
  | (.wide _ ret, state') => s.take ret :: pieces state' (s.drop ret)
termination_by s.length
decreasing_by
  · exact length_drop_one_lt_of_mbtowc (by assumption)
  · exact length_drop_lt_of_mbtowc (by assumption)

/-- The bytes are a character, and not one of the control characters from U+007F on. -/
def SafePiece (piece : Str) : Prop :=
  ∃ ch, piece = String.utf8EncodeChar ch ∧ ¬ (127 ≤ ch.toNat ∧ ch.toNat < 160)

theorem pieces_nil (state : Mbstate) : pieces state [] = [] := by
  rw [pieces]
  rfl

theorem pieces_malformed {state state' : Mbstate} {s : Str}
    (h : mbtowc state s = (.malformed, state')) : pieces state s = pieces state' (s.drop 1) := by
  rw [pieces]
  split
  · rename_i h'
    rw [(Prod.mk.inj (h.symm.trans h')).2]
  all_goals
    rename_i h'
    exact absurd (h.symm.trans h') (by simp)

theorem pieces_wide {state state' : Mbstate} {s : Str} {pwc ret : ℕ}
    (h : mbtowc state s = (.wide pwc ret, state')) :
    pieces state s = s.take ret :: pieces state' (s.drop ret) := by
  rw [pieces]
  split
  · rename_i h'
    exact absurd (h.symm.trans h') (by simp)
  · rename_i h'
    exact absurd (h.symm.trans h') (by simp)
  · rename_i h'
    obtain ⟨hwide, rfl⟩ := Prod.mk.inj (h.symm.trans h')
    obtain ⟨-, rfl⟩ := Mbtowc.wide.inj hwide
    rfl

theorem terminalSafe_char_append {ch : Char} (h : ch ≠ '\n') (out : Str) :
    TerminalSafe (String.utf8EncodeChar ch ++ out) ↔ ¬ IsControl ch ∧ TerminalSafe out := by
  constructor
  · rintro ⟨chars, heq, hsafe⟩
    cases chars with
    | nil =>
        have hfirst := congrArg decode heq
        rw [decode_append] at hfirst
        exact absurd (Option.some.inj hfirst) h
    | cons first chars =>
        have hfirst := congrArg decode heq
        rw [encode_cons, List.append_assoc, decode_append, decode_append] at hfirst
        obtain rfl := Option.some.inj hfirst
        rw [encode_cons, List.append_assoc] at heq
        obtain ⟨hch, hrest⟩ := List.forall_mem_cons.mp hsafe
        exact ⟨hch, chars, List.append_cancel_left heq, hrest⟩
  · rintro ⟨hch, chars, rfl, hsafe⟩
    exact ⟨ch :: chars, by rw [encode_cons, List.append_assoc],
      List.forall_mem_cons.mpr ⟨hch, hsafe⟩⟩

theorem TerminalSafe.exists_decode {out : Str} (h : TerminalSafe out) :
    ∃ ch, decode out = some ch := by
  obtain ⟨chars, rfl, -⟩ := h
  cases chars with
  | nil => exact ⟨'\n', by decide⟩
  | cons ch chars => exact ⟨ch, by rw [encode_cons, List.append_assoc, decode_append]⟩

def Printable (s : Str) : Prop := ∀ c ∈ s, 32 ≤ c.toNat ∧ c.toNat < 127

theorem Printable.append {s t : Str} (hs : Printable s) (ht : Printable t) :
    Printable (s ++ t) := fun c hc =>
  (List.mem_append.mp hc).elim (hs c) (ht c)

theorem printable_ascii {p : String} (h : (ascii p).all fun c => 32 ≤ c.toNat && c.toNat < 127) :
    Printable (ascii p) := fun c hc => by
  simpa using List.all_eq_true.mp h c hc

theorem Printable.terminalSafe_append {p : Str} (h : Printable p) (out : Str) :
    TerminalSafe (p ++ out) ↔ TerminalSafe out := by
  induction p with
  | nil => rfl
  | cons c p ih =>
      obtain ⟨⟨hle, hlt⟩, hp⟩ := List.forall_mem_cons.mp h
      have hencode : [c] = encode [Char.ofNat c.toNat] :=
        eq_encode_of_ascii fun d hd => List.mem_singleton.mp hd ▸ (by omega)
      have hnat : (Char.ofNat c.toNat).toNat = c.toNat := by
        rw [Char.ofNat, dif_pos (.inl (by omega))]
        rfl
      have hnewline : Char.ofNat c.toNat ≠ '\n' := by
        intro heq
        rw [heq] at hnat
        have hten : '\n'.toNat = 10 := rfl
        omega
      rw [← List.singleton_append, hencode, encode_cons, encode_nil, List.append_nil,
        List.append_assoc, terminalSafe_char_append hnewline, ih hp, and_iff_right]
      rw [IsControl, hnat]
      omega

theorem printable_octalEscape (c : UInt8) : Printable (octalEscape c) := by
  have hdigit (d : UInt8) :
      32 ≤ (d % 8 + '0'.toUInt8).toNat ∧ (d % 8 + '0'.toUInt8).toNat < 127 := by
    have hzero : '0'.toUInt8.toNat = 48 := rfl
    rw [UInt8.toNat_add, UInt8.toNat_mod, hzero]
    have hmod : d.toNat % (8 : UInt8).toNat < 8 := Nat.mod_lt _ (by decide)
    omega
  intro d hd
  rw [octalEscape, List.mem_cons] at hd
  rcases hd with rfl | hd
  · decide
  · simp only [List.map_cons, List.map_nil, List.mem_cons, List.not_mem_nil, or_false] at hd
    rcases hd with rfl | rfl | rfl
    all_goals exact hdigit _

theorem printable_escape (c : UInt8) : Printable (escape c) := by
  unfold escape
  split_ifs
  all_goals first
    | exact printable_octalEscape c
    | exact printable_ascii (by decide)

theorem safePiece_char_iff (ch : Char) :
    SafePiece (String.utf8EncodeChar ch) ↔ ¬ (127 ≤ ch.toNat ∧ ch.toNat < 160) := by
  constructor
  · rintro ⟨ch', heq, hch⟩
    have hdecode := congrArg decode (congrArg (· ++ []) heq)
    rw [decode_append, decode_append] at hdecode
    rwa [Option.some.inj hdecode]
  · exact fun hch => ⟨ch, rfl, hch⟩

theorem lt_of_isSpecial {c : UInt8} (h : isSpecial c = true) : c.toNat < 127 := by
  simp only [isSpecial, Bool.or_eq_true, decide_eq_true_eq, UInt8.lt_iff_toNat_lt] at h
  rcases h with ((h | rfl) | rfl) | rfl
  · exact h.trans (by decide)
  all_goals decide

section Step

variable {state : Mbstate} {s : Str} {ret : ℕ} (h : Takes state s ret)

include h

theorem safePiece_of_isSpecial (hspecial : isSpecial (s.headD 0) = true) :
    SafePiece (s.take ret) := by
  have hlt := lt_of_isSpecial hspecial
  obtain ⟨ch, hch, -, hpiece⟩ := h.exists_ascii (hlt.trans (by decide))
  rw [hpiece, safePiece_char_iff]
  omega

theorem terminalSafe_piece_append (hspecial : ¬ isSpecial (s.headD 0) = true) (out : Str) :
    TerminalSafe (s.take ret ++ out) ↔ SafePiece (s.take ret) ∧ TerminalSafe out := by
  by_cases hpiece : ∃ ch, s.take ret = String.utf8EncodeChar ch
  · obtain ⟨ch, hch⟩ := hpiece
    have hneeds : ¬ NeedsEscape ch := by
      obtain ⟨t, ht⟩ := h.take_eq_cons
      rw [← isSpecial_headD ch [], List.append_nil, ← hch, ht]
      exact hspecial
    have hcontrol : ¬ IsControl ch ↔ ¬ (127 ≤ ch.toNat ∧ ch.toNat < 160) := by
      have hle : ¬ ch.toNat < 32 := fun hlt => hneeds (.inl hlt)
      rw [IsControl, or_iff_right hle]
    have hnewline : ch ≠ '\n' := by
      rintro rfl
      exact hneeds (by decide)
    rw [hch, terminalSafe_char_append hnewline, safePiece_char_iff, hcontrol]
  · refine iff_of_false (fun hsafe => ?_) fun ⟨⟨ch, hch, _⟩, _⟩ => hpiece ⟨ch, hch⟩
    obtain ⟨ch, hdecode⟩ := hsafe.exists_decode
    exact hpiece ⟨ch, h.eq_utf8EncodeChar hdecode⟩

end Step

theorem eq_nil_of_headD {s : Str} (hnul : 0 ∉ s) (h : s.headD 0 = 0) : s = [] := by
  cases s with
  | nil => rfl
  | cons c s => exact absurd (h ▸ List.mem_cons_self) hnul

theorem terminalSafe_newline : TerminalSafe (ascii "\n") :=
  ⟨[], rfl, List.forall_mem_nil _⟩

theorem terminalSafe_printQuoted_iff (mode : Bool) (state : Mbstate) {s : Str} (hnul : 0 ∉ s) :
    TerminalSafe (printQuoted mode state s) ↔ ∀ piece ∈ pieces state s, SafePiece piece := by
  induction state, s using mbtowc_induction generalizing mode with
  | null state s hzero =>
      obtain rfl := eq_nil_of_headD hnul hzero
      rw [printQuoted_nil, pieces_nil]
      refine iff_of_true ?_ (List.forall_mem_nil _)
      exact ((printable_ascii (p := "'") (by decide)).terminalSafe_append _).mpr
        terminalSafe_newline
  | malformed state s state' hm ih =>
      rw [printQuoted_malformed mode hm, pieces_malformed hm,
        (printable_ascii (p := "?") (by decide)).terminalSafe_append]
      exact ih mode fun hmem => hnul (List.mem_of_mem_drop hmem)
  | wide state s pwc ret hm htakes ih =>
      have hrest : 0 ∉ s.drop ret := fun hmem => hnul (List.mem_of_mem_drop hmem)
      rw [printQuoted_wide mode hm, pieces_wide hm, List.forall_mem_cons]
      by_cases hspecial : isSpecial (s.headD 0) = true
      · have hquotes : Printable (if mode then [] else ascii "'$'") := by
          cases mode with
          | false => exact printable_ascii (by decide)
          | true => exact List.forall_mem_nil _
        rw [if_pos hspecial, (hquotes.append (printable_escape _)).terminalSafe_append,
          ih true hrest]
        exact (and_iff_right (safePiece_of_isSpecial htakes hspecial)).symm
      · have hquotes : Printable (if mode then ascii "''" else []) := by
          cases mode with
          | false => exact List.forall_mem_nil _
          | true => exact printable_ascii (by decide)
        rw [if_neg hspecial, List.append_assoc, hquotes.terminalSafe_append,
          terminalSafe_piece_append htakes hspecial, ih false hrest]

/-- What the first loop passes has nothing that the second would escape. -/
theorem not_isSpecial_of_allSafe {state state' : Mbstate} {s : Str} {pwc ret : ℕ}
    (hm : mbtowc state s = (.wide pwc ret, state'))
    (h : ¬ (pwc < 32 ∨ pwc = '\x27'.toNat ∨ pwc = '"'.toNat ∨ pwc = '\\'.toNat)) :
    ¬ isSpecial (s.headD 0) = true := by
  intro hspecial
  have htakes := (takes_of_mbtowc hm).1
  obtain ⟨ch, -, rfl, hpiece⟩ :=
    htakes.exists_ascii ((lt_of_isSpecial hspecial).trans (by decide))
  have hs : s = String.utf8EncodeChar ch ++ s.drop ret := by rw [← hpiece, List.take_append_drop]
  rw [hs] at hm hspecial
  have hneeds := (isSpecial_headD ch _).mp hspecial
  have hne : ch ≠ '\x00' := by
    rintro rfl
    rw [mbtowc_null _ rfl] at hm
    exact absurd hm (by simp)
  rw [mbtowc_char hne] at hm
  obtain ⟨rfl, -⟩ := Mbtowc.wide.inj (Prod.mk.inj hm).1
  refine h (hneeds.imp_right (Or.imp (congrArg _) (Or.imp (congrArg _) (congrArg _))))

theorem terminalSafe_of_allSafe_iff (state : Mbstate) {s : Str} (hnul : 0 ∉ s)
    (hsafe : allSafe state s = true) :
    TerminalSafe (s ++ ascii "\n") ↔ ∀ piece ∈ pieces state s, SafePiece piece := by
  induction state, s using mbtowc_induction with
  | null state s hzero =>
      obtain rfl := eq_nil_of_headD hnul hzero
      rw [pieces_nil]
      exact iff_of_true terminalSafe_newline (List.forall_mem_nil _)
  | malformed state s state' hm _ =>
      rw [allSafe_malformed hm] at hsafe
      exact absurd hsafe (by decide)
  | wide state s pwc ret hm htakes ih =>
      obtain ⟨hpwc, -, hrest⟩ := (allSafe_wide hm).mp hsafe
      have hs : s ++ ascii "\n" = s.take ret ++ (s.drop ret ++ ascii "\n") := by
        rw [← List.append_assoc, List.take_append_drop]
      rw [hs, pieces_wide hm, List.forall_mem_cons,
        terminalSafe_piece_append htakes (not_isSpecial_of_allSafe hm hpwc),
        ih (fun hmem => hnul (List.mem_of_mem_drop hmem)) hrest]

/-- `print_possibly_escaped` has no case for the control characters from U+007F on, nor for what
`mbtowc` takes and is no character. -/
theorem terminalSafe_printPossiblyEscaped_iff (str : Str) (h : 0 ∉ str) :
    TerminalSafe (printPossiblyEscaped false false true str) ↔
      ∀ piece ∈ pieces .initial str, SafePiece piece := by
  have htake : str.takeWhile (· ≠ 0) = str :=
    List.takeWhile_eq_self_iff.mpr fun c hc => decide_eq_true fun heq => h (heq ▸ hc)
  rw [printPossiblyEscaped, if_neg (by decide), if_neg (by decide)]
  split_ifs with hsafe
  · rw [htake, terminalSafe_of_allSafe_iff .initial h hsafe]
  · rw [(printable_ascii (p := "'") (by decide)).terminalSafe_append,
      terminalSafe_printQuoted_iff false .initial h]

theorem terminalSafe_printPossiblyEscaped_newline :
    (0 : UInt8) ∉ ascii "a\n" ++ [0xe2, 0x82] ∧
      (TerminalSafe (printPossiblyEscaped false false true (ascii "a\n" ++ [0xe2, 0x82])) ↔
        ∀ piece ∈ pieces .initial (ascii "a\n" ++ [0xe2, 0x82]), SafePiece piece) :=
  ⟨by decide, terminalSafe_printPossiblyEscaped_iff (ascii "a\n" ++ [0xe2, 0x82]) (by decide)⟩

theorem not_terminalSafe_delete :
    ¬ ∀ str : Str, 0 ∉ str → TerminalSafe (printPossiblyEscaped false false true str) := by
  intro hall
  have hprint : printPossiblyEscaped false false true (ascii "\x7f") =
      ascii "\x7f" ++ ascii "\n" := by decide +kernel
  have hpieces : pieces .initial (ascii "\x7f") = [String.utf8EncodeChar '\x7f'] := by
    decide +kernel
  have hsafe := hall (ascii "\x7f") (by decide)
  rw [hprint, terminalSafe_of_allSafe_iff .initial (by decide) (by decide +kernel),
    hpieces, List.forall_mem_singleton, safePiece_char_iff] at hsafe
  exact hsafe (by decide)

/-- The last byte follows the two that `mbtowc` has kept, and is printed without them. -/
example : printPossiblyEscaped false false true [0xe2, 0x82] =
    ascii "'?" ++ [0x82] ++ ascii "'\n" := by
  decide +kernel

end Controls

end Flocate
