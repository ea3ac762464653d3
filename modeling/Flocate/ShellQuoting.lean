import Flocate.Lib.ShellWord
import Flocate.TerminalOutput

/-!
# What a shell reads back

The quoted output of `print_possibly_escaped` is one word of bash, and the word is the file name.
-/

namespace Flocate

open Bytes ShellWord

section Escape

theorem octalDigit_mod (d : UInt8) :
    octalDigit (d % 8 + '0'.toUInt8) = some (d.toNat % 8) := by
  have hmod : d.toNat % 8 < 8 := Nat.mod_lt _ (by decide)
  have hnat : (d % 8 + '0'.toUInt8).toNat = d.toNat % 8 + 48 := by
    have hzero : '0'.toUInt8.toNat = 48 := rfl
    have height : (8 : UInt8).toNat = 8 := rfl
    rw [UInt8.toNat_add, UInt8.toNat_mod, hzero, height]
    omega
  have hrange : '0'.toUInt8 ≤ d % 8 + '0'.toUInt8 ∧ d % 8 + '0'.toUInt8 ≤ '7'.toUInt8 := by
    rw [UInt8.le_iff_toNat_le, UInt8.le_iff_toNat_le, hnat]
    have hzero : '0'.toUInt8.toNat = 48 := rfl
    have hseven : '7'.toUInt8.toNat = 55 := rfl
    omega
  rw [octalDigit, if_pos hrange, hnat, Nat.add_sub_cancel]

theorem read_octalEscape (c : UInt8) (s : Str) :
    read .ansiC (octalEscape c ++ s) = (read .ansiC s).map (c :: ·) := by
  have hvalue : UInt8.ofNat (8 * (8 * ((c / 64).toNat % 8) + (c / 8).toNat % 8) + c.toNat % 8) =
      c := by
    have hlt := c.toNat_lt
    have h64 : (c / 64).toNat = c.toNat / 64 := UInt8.toNat_div c 64
    have h8 : (c / 8).toNat = c.toNat / 8 := UInt8.toNat_div c 8
    rw [← UInt8.toNat_inj, UInt8.toNat_ofNat', h64, h8]
    omega
  have hread := readEscape_octal (octalDigit_mod (c / 64)) (octalDigit_mod (c / 8))
    (octalDigit_mod c) s
  rw [hvalue] at hread
  exact read_ansiC_escape hread

/-- What follows an escape does not change how it is read. -/
theorem read_escape (c : UInt8) (s : Str) :
    read .ansiC (escape c ++ s) = (read .ansiC s).map (c :: ·) := by
  have hnamed {d : UInt8} (h : namedEscape d = some c) :
      read .ansiC ('\\'.toUInt8 :: d :: s) = (read .ansiC s).map (c :: ·) :=
    read_ansiC_escape (readEscape_named h s)
  unfold escape
  split_ifs with h1 h2 h3 h4 h5 h6 h7 h8 h9 h10
  · exact hnamed (d := 'a'.toUInt8) (by rw [h1]; decide)
  · exact hnamed (d := 'b'.toUInt8) (by rw [h2]; decide)
  · exact hnamed (d := 'f'.toUInt8) (by rw [h3]; decide)
  · exact hnamed (d := 'n'.toUInt8) (by rw [h4]; decide)
  · exact hnamed (d := 'r'.toUInt8) (by rw [h5]; decide)
  · exact hnamed (d := 't'.toUInt8) (by rw [h6]; decide)
  · exact hnamed (d := 'v'.toUInt8) (by rw [h7]; decide)
  · exact hnamed (d := '\\'.toUInt8) (by rw [h8]; decide)
  · exact hnamed (d := '\x27'.toUInt8) (by rw [h9]; decide)
  · exact hnamed (d := '"'.toUInt8) (by rw [h10]; decide)
  · exact read_octalEscape c s

theorem quote_not_mem {ch : Char} (h : ¬ NeedsEscape ch) :
    '\x27'.toUInt8 ∉ String.utf8EncodeChar ch := by
  intro hmem
  rcases Utf8.utf8EncodeChar_ascii_or ch with ⟨hlt, hbytes⟩ | ⟨-, hbytes⟩
  · rw [hbytes, List.mem_singleton] at hmem
    have hnat := Utf8.toNat_toUInt8 hlt
    rw [← hmem] at hnat
    exact h (.inr (.inl (Char.toNat_inj.mp hnat.symm)))
  · exact absurd (hbytes _ hmem) (by decide)

end Escape

section Word

/-- The quotes that are open in the two modes of the printer. -/
def quotingOf (inEscapedMode : Bool) : Quoting := if inEscapedMode then .ansiC else .single

/-- The open quotes followed by `body` read as the file name. -/
def ReadsBack (inEscapedMode : Bool) (chars : List Char) : Prop :=
  ∃ body, printQuoted inEscapedMode .initial (Utf8.encode chars) = body ++ ascii "\n" ∧
    read (quotingOf inEscapedMode) body = some (Utf8.encode chars)

theorem ReadsBack.nil (mode : Bool) : ReadsBack mode [] := by
  refine ⟨ascii "'", printQuoted_nil mode .initial, ?_⟩
  cases mode with
  | false => exact (read_single_quote []).trans read_unquoted_nil
  | true => exact (read_ansiC_quote []).trans read_unquoted_nil

theorem ReadsBack.escaped (mode : Bool) {ch : Char} {chars : List Char} (hne : ch ≠ '\x00')
    (hesc : NeedsEscape ch) (h : ReadsBack true chars) : ReadsBack mode (ch :: chars) := by
  obtain ⟨body, hprint, hread⟩ := h
  have hescape : read .ansiC (escape ch.toUInt8 ++ body) = some (Utf8.encode (ch :: chars)) := by
    have hbody : read .ansiC body = some (Utf8.encode chars) := hread
    rw [read_escape, hbody, Utf8.encode_cons, (headD_of_needsEscape hesc []).2]
    rfl
  refine ⟨(if mode then [] else ascii "'$'") ++ escape ch.toUInt8 ++ body, ?_, ?_⟩
  · rw [Utf8.encode_cons, (printQuoted_char mode hne _).1 hesc, hprint]
    simp only [List.append_assoc]
  · cases mode with
    | false =>
        refine (read_single_quote _).trans ((read_unquoted_dollar _).trans ?_)
        exact hescape
    | true => exact hescape

theorem ReadsBack.char (mode : Bool) {ch : Char} {chars : List Char} (hne : ch ≠ '\x00')
    (hesc : ¬ NeedsEscape ch) (h : ReadsBack false chars) : ReadsBack mode (ch :: chars) := by
  obtain ⟨body, hprint, hread⟩ := h
  have hchar : read .single (String.utf8EncodeChar ch ++ body) =
      some (Utf8.encode (ch :: chars)) := by
    have hbody : read .single body = some (Utf8.encode chars) := hread
    rw [read_single_append (quote_not_mem hesc), hbody, Utf8.encode_cons]
    rfl
  refine ⟨(if mode then ascii "''" else []) ++ String.utf8EncodeChar ch ++ body, ?_, ?_⟩
  · rw [Utf8.encode_cons, (printQuoted_char mode hne _).2 hesc, hprint]
    simp only [List.append_assoc]
  · cases mode with
    | false => exact hchar
    | true =>
        refine (read_ansiC_quote _).trans ((read_unquoted_quote _).trans ?_)
        exact hchar

theorem readsBack (mode : Bool) {chars : List Char} (h : '\x00' ∉ chars) :
    ReadsBack mode chars := by
  induction chars generalizing mode with
  | nil => exact .nil mode
  | cons ch chars ih =>
      rw [List.mem_cons, not_or] at h
      by_cases hesc : NeedsEscape ch
      · exact .escaped mode (Ne.symm h.1) hesc (ih true h.2)
      · exact .char mode (Ne.symm h.1) hesc (ih false h.2)

/-- A file name in quotes reads as the file name. -/
theorem read_printPossiblyEscaped (str : Str) (hvalid : Utf8.Valid str) (hnul : 0 ∉ str)
    (hsafe : allSafe .initial str = false) :
    ∃ line, printPossiblyEscaped false false true str = line ++ ascii "\n" ∧
      read .unquoted line = some str := by
  obtain ⟨chars, rfl⟩ := hvalid
  have hchars : '\x00' ∉ chars := by
    intro hmem
    exact hnul (List.mem_flatMap.mpr ⟨_, hmem, by decide⟩)
  obtain ⟨body, hprint, hread⟩ := readsBack false hchars
  refine ⟨ascii "'" ++ body, ?_, ?_⟩
  · rw [printPossiblyEscaped, if_neg (by decide), if_neg (by decide), hsafe, if_neg (by decide),
      hprint, List.append_assoc]
  · exact (read_unquoted_quote body).trans hread

theorem read_printPossiblyEscaped_newline : Utf8.Valid (ascii "a\n1") ∧ 0 ∉ ascii "a\n1" ∧
    allSafe .initial (ascii "a\n1") = false ∧
    ∃ line, printPossiblyEscaped false false true (ascii "a\n1") = line ++ ascii "\n" ∧
      read .unquoted line = some (ascii "a\n1") :=
  have hvalid : Utf8.Valid (ascii "a\n1") := ⟨['a', '\n', '1'], by decide⟩
  have hsafe : allSafe .initial (ascii "a\n1") = false := by decide +kernel
  ⟨hvalid, by decide, hsafe, read_printPossiblyEscaped _ hvalid (by decide) hsafe⟩

end Word

end Flocate
