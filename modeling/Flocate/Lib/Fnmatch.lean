import Flocate.Lib.Bytes

/-!
# Pattern matching

The patterns of POSIX with `*`, `?`, backslash escapes and bracket expressions. What a bracket
expression holds depends on the locale, where it ends does not.
-/

namespace Fnmatch

open Bytes

inductive BracketItem where
  | plain (c : UInt8)
  | escaped (c : UInt8)
  | cls (name : Str)
deriving DecidableEq

structure Bracket where
  negated : Bool
  items : List BracketItem
deriving DecidableEq

/-- `never` is a backslash at the end of a pattern. -/
inductive Token where
  | byte (c : UInt8)
  | any
  | star
  | bracket (b : Bracket)
  | never
deriving DecidableEq

/-- The characters and what bracket expressions hold of them. -/
structure PatternLocale where
  isCharacter : Str → Bool
  holds : List BracketItem → Str → Bool

section Parse

def isLower (c : UInt8) : Bool := 'a'.toUInt8 ≤ c && c ≤ 'z'.toUInt8

def className (s : Str) : Option (Str × Str) :=
  if s.head? = some ':'.toUInt8 then
    match s.tail.dropWhile isLower with
    | c :: d :: rest =>
        if c = ':'.toUInt8 ∧ d = ']'.toUInt8 then some (s.tail.takeWhile isLower, rest) else none
    | _ => none
  else none

def bracketItem (c : UInt8) (s : Str) : Option (BracketItem × Str) :=
  if c = '\\'.toUInt8 then
    match s with
    | [] => none
    | d :: s => some (.escaped d, s)
  else
    match if c = '['.toUInt8 then className s else none with
    | some (name, rest) => some (.cls name, rest)
    | none => some (.plain c, s)

theorem className_eq_some {s name rest : Str} (h : className s = some (name, rest)) :
    s = ':'.toUInt8 :: (name ++ ':'.toUInt8 :: ']'.toUInt8 :: rest) ∧
      ∀ c ∈ name, isLower c = true := by
  rw [className] at h
  split at h
  · rename_i hs
    split at h
    · rename_i c d r heq
      split at h
      · rename_i hcd
        obtain ⟨rfl, rfl⟩ := Prod.mk.inj (Option.some.inj h)
        refine ⟨?_, List.all_eq_true.mp List.all_takeWhile⟩
        have hhead := List.cons_head?_tail hs
        rw [← List.takeWhile_append_dropWhile (p := isLower) (l := s.tail), heq, hcd.1, hcd.2]
          at hhead
        exact hhead.symm
      · cases h
    · cases h
  · cases h

theorem bracketItem_eq_some {c : UInt8} {s rest : Str} {item : BracketItem}
    (h : bracketItem c s = some (item, rest)) :
    (c = '\\'.toUInt8 ∧ ∃ d, s = d :: rest ∧ item = .escaped d) ∨
      (c = '['.toUInt8 ∧ ∃ name, className s = some (name, rest) ∧ item = .cls name) ∨
      c ≠ '\\'.toUInt8 ∧ s = rest ∧ item = .plain c := by
  unfold bracketItem at h
  split_ifs at h with hc hb
  · cases s with
    | nil => cases h
    | cons d s =>
        obtain ⟨rfl, rfl⟩ := Prod.mk.inj (Option.some.inj h)
        exact Or.inl ⟨hc, d, rfl, rfl⟩
  · cases hname : className s with
    | none =>
        rw [hname] at h
        obtain ⟨rfl, rfl⟩ := Prod.mk.inj (Option.some.inj h)
        exact Or.inr (Or.inr ⟨hc, rfl, rfl⟩)
    | some p =>
        rw [hname] at h
        obtain ⟨rfl, rfl⟩ := Prod.mk.inj (Option.some.inj h)
        exact Or.inr (Or.inl ⟨hb, p.1, rfl, rfl⟩)
  · obtain ⟨rfl, rfl⟩ := Prod.mk.inj (Option.some.inj h)
    exact Or.inr (Or.inr ⟨hc, rfl, rfl⟩)

theorem bracketItem_length {c : UInt8} {s rest : Str} {item : BracketItem}
    (h : bracketItem c s = some (item, rest)) : rest.length ≤ s.length := by
  rcases bracketItem_eq_some h with ⟨-, d, rfl, -⟩ | ⟨-, name, hname, -⟩ | ⟨-, rfl, -⟩
  · exact Nat.le_succ _
  · rw [(className_eq_some hname).1]
    simp only [List.length_cons, List.length_append]
    omega
  · exact Nat.le_refl _

def bracketItems : Str → Option (List BracketItem × Str)
  | [] => none
  | c :: s =>
      if c = ']'.toUInt8 then some ([], s)
      else
        match _h : bracketItem c s with
        | none => none
        | some (item, rest) =>
            (bracketItems rest).map fun (items, rest) => (item :: items, rest)
termination_by s => s.length
decreasing_by
  have := bracketItem_length _h
  rw [List.length_cons]
  omega

theorem bracketItems_cons {c : UInt8} {s rest : Str} {items : List BracketItem}
    (h : bracketItems (c :: s) = some (items, rest)) :
    (c = ']'.toUInt8 ∧ items = [] ∧ rest = s) ∨
      c ≠ ']'.toUInt8 ∧ ∃ item items' rest', bracketItem c s = some (item, rest') ∧
        bracketItems rest' = some (items', rest) ∧ items = item :: items' := by
  rw [bracketItems] at h
  split at h
  · rename_i hc
    obtain ⟨rfl, rfl⟩ := Prod.mk.inj (Option.some.inj h)
    exact Or.inl ⟨hc, rfl, rfl⟩
  · rename_i hc
    split at h
    · cases h
    · rename_i item rest' hitem
      obtain ⟨⟨items', r⟩, hitems, heq⟩ := Option.map_eq_some_iff.mp h
      obtain ⟨rfl, rfl⟩ := Prod.mk.inj heq
      exact Or.inr ⟨hc, item, items', rest', hitem, hitems, rfl⟩

theorem bracketItems_length {s rest : Str} {items : List BracketItem}
    (h : bracketItems s = some (items, rest)) : rest.length < s.length := by
  induction items generalizing s with
  | nil =>
      cases s with
      | nil => simp [bracketItems] at h
      | cons c s =>
          rcases bracketItems_cons h with ⟨-, -, rfl⟩ | ⟨-, _, _, _, -, -, heq⟩
          · exact Nat.lt_succ_self _
          · cases heq
  | cons item items ih =>
      cases s with
      | nil => simp [bracketItems] at h
      | cons c s =>
          rcases bracketItems_cons h with ⟨-, heq, -⟩ | ⟨-, _, _, _, hitem, hitems, heq⟩
          · cases heq
          · obtain ⟨rfl, rfl⟩ := List.cons.inj heq
            have hlt := ih hitems
            have hle := bracketItem_length hitem
            rw [List.length_cons]
            omega

def bracket (s : Str) : Option (Bracket × Str) :=
  let (negated, s) := if s.head? = some '!'.toUInt8 then (true, s.tail) else (false, s)
  let (first, s) :=
    if s.head? = some ']'.toUInt8 then ([BracketItem.plain ']'.toUInt8], s.tail) else ([], s)
  (bracketItems s).map fun (items, rest) => (⟨negated, first ++ items⟩, rest)

theorem bracket_length {s rest : Str} {b : Bracket} (h : bracket s = some (b, rest)) :
    rest.length < s.length := by
  simp only [bracket] at h
  obtain ⟨⟨items, r⟩, hitems, heq⟩ := Option.map_eq_some_iff.mp h
  obtain ⟨-, rfl⟩ := Prod.mk.inj heq
  refine (bracketItems_length hitems).trans_le ?_
  split_ifs
  all_goals simp only [List.length_tail]
  all_goals omega

/-- A `[` that begins no bracket expression stands for itself. -/
def tokens : Str → List Token
  | [] => []
  | c :: s =>
      if c = '\\'.toUInt8 then
        match s with
        | [] => [.never]
        | d :: s => .byte d :: tokens s
      else if c = '*'.toUInt8 then .star :: tokens s
      else if c = '?'.toUInt8 then .any :: tokens s
      else if c = '['.toUInt8 then
        match _h : bracket s with
        | some (b, rest) => .bracket b :: tokens rest
        | none => .byte c :: tokens s
      else .byte c :: tokens s
termination_by s => s.length
decreasing_by
  all_goals simp only [List.length_cons]
  all_goals first
    | omega
    | exact (bracket_length _h).trans (Nat.lt_succ_self _)

/-- What `bracket` looks for its end in. -/
def bracketBody (s : Str) : Str :=
  let s := if s.head? = some '!'.toUInt8 then s.tail else s
  if s.head? = some ']'.toUInt8 then s.tail else s

theorem bracket_eq (s : Str) : ∃ negated first, bracket s =
    (bracketItems (bracketBody s)).map fun (items, rest) => (⟨negated, first ++ items⟩, rest) := by
  simp only [bracket, bracketBody]
  split_ifs
  all_goals exact ⟨_, _, rfl⟩

theorem tokens_byte {c : UInt8} (h₁ : c ≠ '\\'.toUInt8) (h₂ : c ≠ '*'.toUInt8)
    (h₃ : c ≠ '?'.toUInt8) (h₄ : c ≠ '['.toUInt8) (s : Str) :
    tokens (c :: s) = .byte c :: tokens s := by
  rw [tokens.eq_def]
  simp only [if_neg h₁, if_neg h₂, if_neg h₃, if_neg h₄]

theorem tokens_escaped (d : UInt8) (s : Str) :
    tokens ('\\'.toUInt8 :: d :: s) = .byte d :: tokens s := by
  rw [tokens.eq_def]
  rfl

theorem tokens_unterminated {s : Str} (h : bracket s = none) :
    tokens ('['.toUInt8 :: s) = .byte '['.toUInt8 :: tokens s := by
  rw [tokens.eq_def]
  dsimp only
  rw [if_neg (by decide), if_neg (by decide), if_neg (by decide), if_pos rfl]
  split
  · rename_i heq
    rw [h] at heq
    cases heq
  · rfl

theorem tokens_bracket {s rest : Str} {b : Bracket} (h : bracket s = some (b, rest)) :
    tokens ('['.toUInt8 :: s) = .bracket b :: tokens rest := by
  rw [tokens.eq_def]
  dsimp only
  rw [if_neg (by decide), if_neg (by decide), if_neg (by decide), if_pos rfl]
  split
  · rename_i heq
    rw [h] at heq
    obtain ⟨rfl, rfl⟩ := Prod.mk.inj (Option.some.inj heq)
    rfl
  · rename_i heq
    rw [h] at heq
    cases heq

theorem bracketItems_eq_none {c : UInt8} {s : Str} (h : bracketItems (c :: s) = none) :
    c ≠ ']'.toUInt8 ∧ ∀ item rest, bracketItem c s = some (item, rest) →
      bracketItems rest = none := by
  rw [bracketItems] at h
  split at h
  · cases h
  · rename_i hc
    refine ⟨hc, fun item rest hitem => ?_⟩
    split at h
    · rename_i heq
      rw [hitem] at heq
      cases heq
    · rename_i heq
      rw [hitem] at heq
      obtain ⟨rfl, rfl⟩ := Prod.mk.inj (Option.some.inj heq)
      exact Option.map_eq_none_iff.mp h

theorem bracketItem_plain {c : UInt8} (h₁ : c ≠ '\\'.toUInt8) (h₂ : c ≠ '['.toUInt8) (s : Str) :
    bracketItem c s = some (.plain c, s) := by
  unfold bracketItem
  rw [if_neg h₁, if_neg h₂]

theorem bracketItems_plain {c : UInt8} (h₁ : c ≠ '\\'.toUInt8) (h₂ : c ≠ '['.toUInt8)
    (h₃ : c ≠ ']'.toUInt8) (s : Str) : bracketItems (c :: s) =
      (bracketItems s).map fun (items, rest) => (.plain c :: items, rest) := by
  rw [bracketItems, if_neg h₃]
  split
  · rename_i heq
    rw [bracketItem_plain h₁ h₂] at heq
    cases heq
  · rename_i heq
    rw [bracketItem_plain h₁ h₂] at heq
    obtain ⟨rfl, rfl⟩ := Prod.mk.inj (Option.some.inj heq)
    rfl

theorem bracket_eq_none_of_bracketItems {s : Str} (h : bracketItems s = none) :
    bracket s = none := by
  obtain ⟨negated, first, heq⟩ := bracket_eq s
  rw [heq, Option.map_eq_none_iff]
  have hne (t : Str) (ht : bracketItems t = none) : t.head? ≠ some ']'.toUInt8 := by
    cases t with
    | nil => nofun
    | cons c t => exact fun hc => (bracketItems_eq_none ht).1 (Option.some.inj hc)
  simp only [bracketBody]
  split_ifs with hbang hfirst hfirst
  · cases s with
    | nil => cases hbang
    | cons c s =>
        obtain rfl := Option.some.inj hbang
        exact absurd hfirst (hne s ((bracketItems_eq_none h).2 _ _ (bracketItem_plain (by decide)
          (by decide) s)))
  · cases s with
    | nil => cases hbang
    | cons c s =>
        obtain rfl := Option.some.inj hbang
        exact (bracketItems_eq_none h).2 _ _ (bracketItem_plain (by decide) (by decide) s)
  · exact absurd hfirst (hne s h)
  · exact h

/-- A class outside a bracket expression is a bracket expression of its own. -/
theorem tokens_className {s name rest : Str} (h : className s = some (name, rest)) :
    ∃ b, tokens ('['.toUInt8 :: s) = .bracket b :: tokens rest := by
  obtain ⟨rfl, hname⟩ := className_eq_some h
  have hitems (t : Str) (ht : ∀ c ∈ t, isLower c = true) : ∃ items,
      bracketItems (t ++ ':'.toUInt8 :: ']'.toUInt8 :: rest) = some (items, rest) := by
    induction t with
    | nil =>
        refine ⟨[.plain ':'.toUInt8], ?_⟩
        rw [List.nil_append, bracketItems_plain (by decide) (by decide) (by decide), bracketItems,
          if_pos rfl]
        rfl
    | cons c t ih =>
        obtain ⟨items, hitems⟩ := ih fun c hc => ht c (List.mem_cons_of_mem _ hc)
        have hlow := ht c List.mem_cons_self
        have hne (d : UInt8) (hd : isLower d = false) : c ≠ d := by
          rintro rfl
          rw [hlow] at hd
          cases hd
        refine ⟨.plain c :: items, ?_⟩
        rw [List.cons_append, bracketItems_plain (hne _ (by decide)) (hne _ (by decide))
          (hne _ (by decide)), hitems]
        rfl
  obtain ⟨items, hitems⟩ := hitems name hname
  obtain ⟨negated, first, heq⟩ :=
    bracket_eq (':'.toUInt8 :: (name ++ ':'.toUInt8 :: ']'.toUInt8 :: rest))
  have hbody : bracketBody (':'.toUInt8 :: (name ++ ':'.toUInt8 :: ']'.toUInt8 :: rest)) =
      ':'.toUInt8 :: (name ++ ':'.toUInt8 :: ']'.toUInt8 :: rest) := rfl
  rw [hbody, bracketItems_plain (by decide) (by decide) (by decide), hitems] at heq
  exact ⟨_, tokens_bracket heq⟩

/-- A byte that neither escapes nor may begin a bracket expression is a token. -/
theorem exists_tokens_cons {c : UInt8} (h₁ : c ≠ '\\'.toUInt8) (h₂ : c ≠ '['.toUInt8) (s : Str) :
    ∃ t, tokens (c :: s) = t :: tokens s := by
  rw [tokens.eq_def]
  dsimp only
  rw [if_neg h₁, if_neg h₂]
  split_ifs
  all_goals exact ⟨_, rfl⟩

theorem after_first {x : UInt8} {a b c d : Str} (h : a ++ x :: b = c ++ x :: d) (ha : x ∉ a)
    (hc : x ∉ c) : b = d := by
  rcases List.append_eq_append_iff.mp h with ⟨t, rfl, ht⟩ | ⟨t, rfl, ht⟩
  · cases t with
    | nil => exact (List.cons.inj ht).2
    | cons y t =>
        obtain ⟨rfl, -⟩ := List.cons.inj ht
        exact absurd (List.mem_append_right _ List.mem_cons_self) hc
  · cases t with
    | nil => exact (List.cons.inj ht).2.symm
    | cons y t =>
        obtain ⟨rfl, -⟩ := List.cons.inj ht
        exact absurd (List.mem_append_right _ List.mem_cons_self) ha

/-- The first `]` after a `[` that begins no bracket expression ends a token. -/
theorem tokens_of_bracketItems_eq_none {u v : Str}
    (h : bracketItems (u ++ ']'.toUInt8 :: v) = none) (hu : ']'.toUInt8 ∉ u) :
    ∃ ts, tokens (u ++ ']'.toUInt8 :: v) = ts ++ tokens v := by
  induction hn : u.length using Nat.strong_induction_on generalizing u with
  | h n ih =>
      cases u with
      | nil => exact absurd rfl (bracketItems_eq_none h).1
      | cons c u =>
          rw [List.cons_append] at h ⊢
          rw [List.length_cons] at hn
          rw [List.mem_cons, not_or] at hu
          obtain ⟨-, hrest⟩ := bracketItems_eq_none h
          by_cases hesc : c = '\\'.toUInt8
          · subst hesc
            cases u with
            | nil => exact ⟨[.byte ']'.toUInt8], tokens_escaped _ v⟩
            | cons d u =>
                rw [List.cons_append] at hrest ⊢
                rw [List.mem_cons, not_or] at hu
                rw [List.length_cons] at hn
                obtain ⟨ts, hts⟩ := ih u.length (by omega) (hrest (.escaped d) _ rfl) hu.2.2 rfl
                exact ⟨.byte d :: ts, by rw [tokens_escaped, hts, List.cons_append]⟩
          · by_cases hbr : c = '['.toUInt8
            · subst hbr
              cases hname : className (u ++ ']'.toUInt8 :: v) with
              | some p =>
                  obtain ⟨b, hb⟩ := tokens_className hname
                  obtain ⟨heq, hlow⟩ := className_eq_some hname
                  have hnot : ']'.toUInt8 ∉ ':'.toUInt8 :: (p.1 ++ [':'.toUInt8]) := by
                    intro hmem
                    rcases List.mem_cons.mp hmem with hmem | hmem
                    · cases hmem
                    · rcases List.mem_append.mp hmem with hmem | hmem
                      · exact absurd (hlow _ hmem) (by decide)
                      · cases List.mem_singleton.mp hmem
                  have hsplit : u ++ ']'.toUInt8 :: v =
                      (':'.toUInt8 :: (p.1 ++ [':'.toUInt8])) ++ ']'.toUInt8 :: p.2 := by
                    rw [heq, List.cons_append, List.append_assoc]
                    rfl
                  rw [hb, after_first hsplit hu.2 hnot]
                  exact ⟨[.bracket b], rfl⟩
              | none =>
                  have hitem : bracketItem '['.toUInt8 (u ++ ']'.toUInt8 :: v) =
                      some (.plain '['.toUInt8, u ++ ']'.toUInt8 :: v) := by
                    unfold bracketItem
                    rw [if_neg hesc, if_pos rfl, hname]
                  have hnone := hrest _ _ hitem
                  obtain ⟨ts, hts⟩ := ih u.length (by omega) hnone hu.2 rfl
                  refine ⟨.byte '['.toUInt8 :: ts, ?_⟩
                  rw [tokens_unterminated (bracket_eq_none_of_bracketItems hnone), hts,
                    List.cons_append]
            · obtain ⟨ts, hts⟩ :=
                ih u.length (by omega) (hrest _ _ (bracketItem_plain hesc hbr _)) hu.2 rfl
              obtain ⟨t, ht⟩ := exists_tokens_cons hesc hbr (u ++ ']'.toUInt8 :: v)
              exact ⟨t :: ts, by rw [ht, hts, List.cons_append]⟩

end Parse

section Match

variable (L : PatternLocale)

/-- Some beginning of `s` is taken by `p`, the rest by `q`. -/
def splits (p q : Str → Bool) (s : Str) : Bool :=
  (List.range (s.length + 1)).any fun n => p (s.take n) && q (s.drop n)

def Bracket.matches (b : Bracket) (s : Str) : Bool :=
  L.isCharacter s && (L.holds b.items s != b.negated)

def matchTokens : List Token → Str → Bool
  | [], s => s.isEmpty
  | .byte c :: ts, s => s.head? = some c && matchTokens ts s.tail
  | .any :: ts, s => splits L.isCharacter (matchTokens ts) s
  | .star :: ts, s => splits (fun _ => true) (matchTokens ts) s
  | .bracket b :: ts, s => splits (b.matches L) (matchTokens ts) s
  | .never :: _, _ => false

def fnmatch (pattern s : Str) : Bool := matchTokens L (tokens pattern) s

variable {L}

theorem splits_eq_true {p q : Str → Bool} {s : Str} :
    splits p q s = true ↔ ∃ s₁ s₂, s = s₁ ++ s₂ ∧ p s₁ = true ∧ q s₂ = true := by
  rw [splits, List.any_eq_true]
  constructor
  · rintro ⟨n, -, h⟩
    obtain ⟨hp, hq⟩ := Bool.and_eq_true_iff.mp h
    exact ⟨s.take n, s.drop n, (List.take_append_drop n s).symm, hp, hq⟩
  · rintro ⟨s₁, s₂, rfl, hp, hq⟩
    refine ⟨s₁.length, List.mem_range.mpr ?_, ?_⟩
    · rw [List.length_append]
      omega
    · rw [List.take_left, List.drop_left, hp, hq]
      rfl

theorem matchTokens_byte {c : UInt8} {ts : List Token} {s : Str}
    (h : matchTokens L (.byte c :: ts) s = true) :
    ∃ s', s = c :: s' ∧ matchTokens L ts s' = true := by
  rw [matchTokens] at h
  obtain ⟨hc, h⟩ := Bool.and_eq_true_iff.mp h
  exact ⟨s.tail, (List.cons_head?_tail (of_decide_eq_true hc)).symm, h⟩

/-- What the later tokens match is the end of what all match. -/
theorem exists_of_matchTokens_append {ts₁ ts₂ : List Token} {s : Str}
    (h : matchTokens L (ts₁ ++ ts₂) s = true) : ∃ s', s' <:+ s ∧ matchTokens L ts₂ s' = true := by
  have hsplit (p : Str → Bool) (t₁ : List Token) (s : Str)
      (ih : ∀ {s}, matchTokens L (t₁ ++ ts₂) s = true →
        ∃ s', s' <:+ s ∧ matchTokens L ts₂ s' = true)
      (h : splits p (matchTokens L (t₁ ++ ts₂)) s = true) :
      ∃ s', s' <:+ s ∧ matchTokens L ts₂ s' = true := by
    obtain ⟨s₁, s₂, rfl, -, h⟩ := splits_eq_true.mp h
    obtain ⟨s', hs', hm⟩ := ih h
    exact ⟨s', hs'.trans (List.suffix_append _ _), hm⟩
  induction ts₁ generalizing s with
  | nil => exact ⟨s, List.suffix_rfl, h⟩
  | cons t ts₁ ih =>
      cases t with
      | byte c =>
          obtain ⟨s', rfl, hrest⟩ := matchTokens_byte h
          obtain ⟨s'', hs'', hm⟩ := ih hrest
          exact ⟨s'', hs''.trans (List.suffix_cons _ _), hm⟩
      | any => exact hsplit _ _ _ ih h
      | star => exact hsplit _ _ _ ih h
      | bracket b => exact hsplit _ _ _ ih h
      | never => cases h

end Match

section PosixLocale

def isUpper (c : UInt8) : Bool := 'A'.toUInt8 ≤ c && c ≤ 'Z'.toUInt8
def isAlpha (c : UInt8) : Bool := isUpper c || isLower c
def isDigit (c : UInt8) : Bool := '0'.toUInt8 ≤ c && c ≤ '9'.toUInt8
def isBlank (c : UInt8) : Bool := c = 9 || c = 32
def isGraph (c : UInt8) : Bool := 33 ≤ c && c ≤ 126

/-- The character classes of the POSIX locale. -/
def isctype (name : Str) (c : UInt8) : Bool :=
  if name = ascii "upper" then isUpper c
  else if name = ascii "lower" then isLower c
  else if name = ascii "alpha" then isAlpha c
  else if name = ascii "digit" then isDigit c
  else if name = ascii "xdigit" then
    isDigit c || ('A'.toUInt8 ≤ c && c ≤ 'F'.toUInt8) || ('a'.toUInt8 ≤ c && c ≤ 'f'.toUInt8)
  else if name = ascii "alnum" then isAlpha c || isDigit c
  else if name = ascii "blank" then isBlank c
  else if name = ascii "space" then isBlank c || (10 ≤ c && c ≤ 13)
  else if name = ascii "graph" then isGraph c
  else if name = ascii "print" then isGraph c || c = 32
  else if name = ascii "punct" then isGraph c && !isAlpha c && !isDigit c
  else if name = ascii "cntrl" then c < 32 || c = 127
  else false

def BracketItem.byte : BracketItem → Option UInt8
  | .plain c => some c
  | .escaped c => some c
  | .cls _ => none

def BracketItem.holds (c : UInt8) : BracketItem → Bool
  | .plain a => a = c
  | .escaped a => a = c
  | .cls name => isctype name c

/-- Ranges are in the order of the bytes; a `-` that is escaped, first or last stands for itself. -/
def holdsByte (c : UInt8) : List BracketItem → Bool
  | [] => false
  | a :: .plain d :: b :: items =>
      match a.byte, b.byte with
      | some x, some y =>
          if d = '-'.toUInt8 then (x ≤ c && c ≤ y) || holdsByte c items
          else a.holds c || holdsByte c (.plain d :: b :: items)
      | _, _ => a.holds c || holdsByte c (.plain d :: b :: items)
  | a :: items => a.holds c || holdsByte c items

def posixLocale : PatternLocale where
  isCharacter s := s.length = 1
  holds items s := s.any (holdsByte · items)

end PosixLocale

end Fnmatch
