import Aetheris.Js.Lexer
import Aetheris.Js.JsonRoundTrip

/-!
# Printed tokens are lexed again

Tokens are printed with a space between them.  All that can go wrong is a slash: where the lexer
expects a value it takes the slash of a division for the beginning of a regular expression, if it
finds an end of it, and elsewhere it takes a regular expression for a division.

A printed token is lexed exactly if the rule for a slash is right for it, and the space behind it
ends it whatever follows.  By induction a list of tokens is lexed again exactly if the rule is right
for all of them.
-/

namespace Aetheris.Js

/-! ## Printing -/

/-- The text of a token. -/
def Token.print : Token → Bytes
  | .endOfInput => []
  | .number text _ => text
  | .string text => jsonEscape text
  | .identifier text => text
  | .keyword text => text
  | .punctuator text => text
  | .regex text flags => chr '/' :: (text ++ chr '/' :: flags)

/-- What stands behind a token: the others, with a space before each of them. -/
def behind (tokens : List Token) : Bytes := tokens.flatMap fun token => chr ' ' :: token.print

/-- The tokens, separated by single spaces. -/
def printTokens : List Token → Bytes
  | [] => []
  | token :: tokens => token.print ++ behind tokens

section

variable (strtod : Bytes → Number × ℕ)

/-- A token as the lexer makes them: a number is what its scan goes over, with the value of it; an
identifier is not a keyword; a regular expression ends where its scan ends, and does not look like
a comment. -/
def Token.WellFormed : Token → Prop
  | .endOfInput => False
  | .number text value =>
    (∃ c rest, text = c :: rest ∧ (isDigit c = true ∨ c = chr '.' ∧ rest.head?.any isDigit = true)) ∧
      numberRun false text = (text, []) ∧ value = (strtod text).1
  | .string _ => True
  | .identifier text =>
    (∃ c rest, text = c :: rest ∧ isIdentifierStart c = true) ∧
      text.all isIdentifierPart = true ∧ text ∉ keywords
  | .keyword text => text ∈ keywords
  | .punctuator text => text ∈ punctuators
  | .regex text flags =>
    (∃ c rest, text = c :: rest ∧ c ≠ chr '*') ∧
      regexBody false (text ++ [chr '/']) = some (text, []) ∧ flags.all isAlpha = true

end

/-- The rule for a slash is right for this token: no regular expression begins at a slash that is
an operator, and one may begin where there is one. -/
def SlashRead (previous : Option Token) (token : Token) (after : Bytes) : Prop :=
  match token with
  | .punctuator text =>
    text.head? = some (chr '/') → valueExpected previous = true →
      regexBody false (text.tail ++ after) = none
  | .regex _ _ => valueExpected previous = true
  | _ => True

/-- The rule for a slash is right for all of the tokens. -/
def SlashesRead : Option Token → List Token → Prop
  | _, [] => True
  | previous, token :: tokens =>
    SlashRead previous token (behind tokens) ∧ SlashesRead (some token) tokens

/-! ## The scans of printed tokens -/

/-- What stands behind a printed token begins with a space, if there is anything. -/
def Spaced (after : Bytes) : Prop := ∀ c ∈ after.head?, c = chr ' '

theorem spaced_behind (tokens : List Token) : Spaced (behind tokens) := by
  cases tokens with
  | nil => exact fun c hc => nomatch hc
  | cons token tokens =>
    intro c hc
    exact (Option.some.inj hc).symm

theorem numberRun_append {after : Bytes} (hafter : Spaced after) :
    ∀ {text : Bytes} {afterE : Bool}, numberRun afterE text = (text, []) →
      numberRun afterE (text ++ after) = (text, after)
  | [], afterE, _ => by
    cases after with
    | nil => rfl
    | cons c rest =>
      rw [hafter c rfl]
      rfl
  | c :: rest, afterE, h => by
    rw [numberRun] at h
    rw [List.cons_append, numberRun]
    split at h
    · cases (Prod.mk.inj h).1
    next hpart =>
      rw [if_neg hpart]
      split at h
      · cases (Prod.mk.inj h).1
      next hsign =>
        obtain ⟨htext, hrest⟩ := Prod.mk.inj h
        have hih := numberRun_append hafter (Prod.ext (List.cons.inj htext).2 hrest)
        rw [if_neg hsign, hih]

theorem quoted_escapeChar (c d : Byte) (rest : Bytes) :
    quoted (chr '"') (escapeChar c ++ d :: rest) =
      (c :: (quoted (chr '"') (d :: rest)).1, (quoted (chr '"') (d :: rest)).2) := by
  rcases escapeChar_cases c with ⟨hplain, hquote, hslash⟩ | ⟨e, -, hescape, hback⟩
  · rw [hplain, List.singleton_append, quoted, if_neg hquote, if_neg hslash]
  · have hescaped : escaped e = c := hback
    rw [hescape, List.cons_append, List.singleton_append, quoted, if_neg (by decide), if_pos rfl,
      hescaped]

/-- The scan of a string undoes the escapes. -/
theorem quoted_escape (value after : Bytes) :
    quoted (chr '"') (value.flatMap escapeChar ++ chr '"' :: after) = (value, after) := by
  induction value with
  | nil =>
    cases after with
    | nil => rw [List.flatMap_nil, List.nil_append, quoted, if_pos rfl]
    | cons d rest => rw [List.flatMap_nil, List.nil_append, quoted, if_pos rfl]
  | cons c value ih =>
    obtain ⟨d, tail, htail⟩ : ∃ d tail,
        value.flatMap escapeChar ++ chr '"' :: after = d :: tail :=
      List.exists_cons_of_ne_nil (by simp)
    rw [List.flatMap_cons, List.append_assoc, htail, quoted_escapeChar, ← htail, ih]

/-- One character of a regular expression that is not a backslash. -/
theorem regexBody_cons {c : Byte} (hc : c ≠ chr '\\') (inClass : Bool) (rest : Bytes) :
    regexBody inClass (c :: rest) =
      if c = chr '/' ∧ inClass = false then some ([], rest)
      else
        (regexBody (if c = chr '[' then true else if c = chr ']' then false else inClass)
          rest).map fun p => (c :: p.1, p.2) := by
  have hopen : chr '[' ≠ chr '/' := by decide
  have hclose : chr ']' ≠ chr '/' := by decide
  cases rest with
  | nil =>
    rw [regexBody]
    rfl
  | cons d rest =>
    rw [regexBody, if_neg hc]
    by_cases h1 : c = chr '['
    · rw [if_pos h1, if_neg fun h => hopen (h1.symm.trans h.1), if_pos h1]
    · rw [if_neg h1]
      by_cases h2 : c = chr ']'
      · rw [if_pos h2, if_neg fun h => hclose (h2.symm.trans h.1), if_neg h1, if_pos h2]
      · rw [if_neg h2, if_neg h1, if_neg h2]

/-- A regular expression ends where it ends, whatever follows. -/
theorem regexBody_append (after : Bytes) :
    ∀ {inClass : Bool} {source text left : Bytes}, regexBody inClass source = some (text, left) →
      regexBody inClass (source ++ after) = some (text, left ++ after)
  | _, [], _, _, h => by cases h
  | inClass, c :: rest, text, left, h => by
    by_cases hc : c = chr '\\'
    · subst hc
      cases rest with
      | nil =>
        rw [regexBody, if_neg (fun h => by cases h.1)] at h
        cases h
      | cons d rest =>
        rw [regexBody, if_pos rfl] at h
        obtain ⟨p, hp, heq⟩ := Option.map_eq_some_iff.mp h
        rw [List.cons_append, List.cons_append, regexBody, if_pos rfl, regexBody_append after hp]
        rw [Option.map_some, ← (Prod.mk.inj heq).1, ← (Prod.mk.inj heq).2]
    · rw [regexBody_cons hc] at h
      rw [List.cons_append, regexBody_cons hc]
      split at h
      next hend =>
        obtain ⟨rfl, rfl⟩ := Prod.mk.inj (Option.some.inj h)
        rw [if_pos hend]
      next hend =>
        obtain ⟨p, hp, heq⟩ := Option.map_eq_some_iff.mp h
        rw [if_neg hend, regexBody_append after hp, Option.map_some, ← (Prod.mk.inj heq).1,
          ← (Prod.mk.inj heq).2]

/-! ## Rounds of the lexer -/

section Rounds

variable {strtod : Bytes → Number × ℕ} {previous : Option Token}

theorem not_begins {c : Byte} (hdigit : isDigit c = false) (hpoint : c ≠ chr '.')
    (next : Option Byte) : ¬ (isDigit c || (c == chr '.' && next.any isDigit)) = true := by
  rw [hdigit, beq_eq_false_iff_ne.mpr hpoint]
  exact Bool.false_ne_true

/-- A round that is about neither a space nor a slash. -/
theorem lexToken_of_ne {c : Byte} (hspace : isSpace c = false) (hslash : c ≠ chr '/')
    (rest : Bytes) :
    lexToken strtod previous c rest =
      if isDigit c || (c == chr '.' && rest.head?.any isDigit) then
        (some (.number (numberRun false (c :: rest)).1
          (strtod (numberRun false (c :: rest)).1).1), (numberRun false (c :: rest)).2)
      else if c = chr '"' ∨ c = 0x27 then
        (some (.string (quoted c rest).1), (quoted c rest).2)
      else if isIdentifierStart c then
        (some (if (c :: rest).takeWhile isIdentifierPart ∈ keywords then
            .keyword ((c :: rest).takeWhile isIdentifierPart)
          else .identifier ((c :: rest).takeWhile isIdentifierPart)),
          (c :: rest).dropWhile isIdentifierPart)
      else
        match punctuators.find? (·.isPrefixOf (c :: rest)) with
        | some text => (some (.punctuator text), (c :: rest).drop text.length)
        | none => (none, rest) := by
  rewrite [lexToken, hspace, if_neg Bool.false_ne_true, if_neg fun h => hslash h.1,
    if_neg fun h => hslash h.1, opensRegex, if_neg fun h => hslash h.1]
  rfl

theorem plain_of_begins :
    ∀ c : Byte, isDigit c = true ∨ c = chr '.' → isSpace c = false ∧ c ≠ chr '/' :=
  forall_byte (by decide)

theorem plain_of_start : ∀ c : Byte, isIdentifierStart c = true →
    isSpace c = false ∧ c ≠ chr '/' ∧ isDigit c = false ∧ c ≠ chr '.' ∧ c ≠ chr '"' ∧ c ≠ 0x27 :=
  forall_byte (by decide)

theorem lexToken_number {c : Byte} {rest after : Bytes} (hafter : Spaced after)
    (hbegins : isDigit c = true ∨ c = chr '.' ∧ rest.head?.any isDigit = true)
    (hrun : numberRun false (c :: rest) = (c :: rest, [])) :
    lexToken strtod previous c (rest ++ after) =
      (some (.number (c :: rest) (strtod (c :: rest)).1), after) := by
  obtain ⟨hspace, hslash⟩ := plain_of_begins c (hbegins.imp_right And.left)
  have hcond : (isDigit c || (c == chr '.' && (rest ++ after).head?.any isDigit)) = true := by
    rcases hbegins with hdigit | ⟨rfl, hnext⟩
    · rw [hdigit]
      rfl
    · cases rest with
      | nil => cases hnext
      | cons d rest => exact Bool.or_eq_true_iff.mpr (Or.inr hnext)
  rw [lexToken_of_ne hspace hslash, if_pos hcond, ← List.cons_append,
    numberRun_append hafter hrun]

theorem lexToken_string (value after : Bytes) :
    lexToken strtod previous (chr '"') (value.flatMap escapeChar ++ chr '"' :: after) =
      (some (.string value), after) := by
  rw [lexToken_of_ne (by decide) (by decide), if_neg (not_begins (by decide) (by decide) _),
    if_pos (Or.inl rfl), quoted_escape]

theorem isIdentifierPart_space : isIdentifierPart (chr ' ') = false := by decide

theorem takeWhile_word {p : Byte → Bool} (hp : p (chr ' ') = false) {text after : Bytes}
    (htext : text.all p = true) (hafter : Spaced after) :
    (text ++ after).takeWhile p = text ∧ (text ++ after).dropWhile p = after := by
  have hall : ∀ c ∈ text, p c = true := List.all_eq_true.mp htext
  rw [List.takeWhile_append_of_pos hall, List.dropWhile_append_of_pos hall]
  cases after with
  | nil => exact ⟨List.append_nil text, rfl⟩
  | cons d rest =>
    have hd : p d ≠ true := by
      rw [hafter d rfl, hp]
      exact Bool.false_ne_true
    rw [List.takeWhile_cons_of_neg hd, List.dropWhile_cons_of_neg hd, List.append_nil]
    exact ⟨rfl, rfl⟩

theorem lexToken_word {c : Byte} {rest after : Bytes} (hafter : Spaced after)
    (hstart : isIdentifierStart c = true) (hparts : (c :: rest).all isIdentifierPart = true) :
    lexToken strtod previous c (rest ++ after) =
      (some (if c :: rest ∈ keywords then .keyword (c :: rest) else .identifier (c :: rest)),
        after) := by
  obtain ⟨hspace, hslash, hdigit, hpoint, hquote, hquote'⟩ := plain_of_start c hstart
  obtain ⟨htake, hdrop⟩ := takeWhile_word isIdentifierPart_space hparts hafter
  rw [lexToken_of_ne hspace hslash, if_neg (not_begins hdigit hpoint _),
    if_neg (not_or.mpr ⟨hquote, hquote'⟩), if_pos hstart, ← List.cons_append, htake, hdrop]

/-- The round at a slash that begins neither a comment nor a regular expression: it is an operator,
for no other punctuators begin like this. -/
theorem lexToken_slash {rest : Bytes}
    (hcomment : ∀ c ∈ rest.head?, c ≠ chr '/' ∧ c ≠ chr '*')
    (hregex : opensRegex previous (chr '/') rest = none) :
    lexToken strtod previous (chr '/') rest =
      match punctuators.find? (·.isPrefixOf (chr '/' :: rest)) with
      | some text => (some (.punctuator text), (chr '/' :: rest).drop text.length)
      | none => (none, rest) := by
  rw [lexToken, if_neg (by decide), if_neg fun h => (hcomment _ h.2).1 rfl,
    if_neg fun h => (hcomment _ h.2).2 rfl, hregex]
  dsimp only
  rewrite [lexWord, if_neg (not_begins (by decide) (by decide) _), if_neg (by decide),
    if_neg (by decide)]
  rfl

/-- A text without spaces begins what it begins, whatever follows behind a space. -/
theorem isPrefixOf_append_spaced {after : Bytes} (hafter : Spaced after) :
    ∀ {word text : Bytes}, chr ' ' ∉ word →
      word.isPrefixOf (text ++ after) = word.isPrefixOf text
  | [], _, _ => rfl
  | c :: word, [], hword => by
    cases after with
    | nil => rfl
    | cons d rest =>
      have hne : (c == d) = false := by
        rw [hafter d rfl]
        exact beq_eq_false_iff_ne.mpr fun h => hword (h ▸ List.mem_cons_self)
      show (c == d && word.isPrefixOf rest) = false
      rw [hne, Bool.false_and]
  | c :: word, d :: text, hword => by
    show (c == d && word.isPrefixOf (text ++ after)) = (c == d && word.isPrefixOf text)
    rw [isPrefixOf_append_spaced hafter fun h => hword (List.mem_cons_of_mem c h)]

/-- Behind a space, the longest match of a punctuator is the punctuator. -/
theorem find?_punctuators {text after : Bytes} (h : text ∈ punctuators) (hafter : Spaced after) :
    punctuators.find? (·.isPrefixOf (text ++ after)) = some text := by
  have hspaces : ∀ word ∈ punctuators, chr ' ' ∉ word := by decide
  have hself : ∀ text ∈ punctuators,
      punctuators.find? (·.isPrefixOf text) = some text := by decide
  rw [List.find?_congr fun word hword => isPrefixOf_append_spaced hafter (hspaces word hword),
    hself text h]

/-- What the first character of a punctuator is not. -/
theorem plain_of_mem_punctuators {c : Byte} {rest : Bytes} (h : c :: rest ∈ punctuators) :
    isSpace c = false ∧ isDigit c = false ∧ (c = chr '.' → rest = []) ∧ c ≠ chr '"' ∧ c ≠ 0x27 ∧
      isIdentifierStart c = false ∧ (c = chr '/' → rest = [] ∨ rest = [chr '=']) := by
  have hall : ∀ text ∈ punctuators,
      isSpace (text.headD 0) = false ∧ isDigit (text.headD 0) = false ∧
        (text.headD 0 = chr '.' → text.tail = []) ∧ text.headD 0 ≠ chr '"' ∧
        text.headD 0 ≠ 0x27 ∧ isIdentifierStart (text.headD 0) = false ∧
        (text.headD 0 = chr '/' → text.tail = [] ∨ text.tail = [chr '=']) := by
    decide
  exact hall (c :: rest) h

theorem lexToken_punctuator {c : Byte} {rest after : Bytes} (h : c :: rest ∈ punctuators)
    (hafter : Spaced after) (hread : SlashRead previous (.punctuator (c :: rest)) after) :
    lexToken strtod previous c (rest ++ after) = (some (.punctuator (c :: rest)), after) := by
  obtain ⟨hspace, hdigit, hpoint, hquote, hquote', hstart, hslash⟩ := plain_of_mem_punctuators h
  have hfind : punctuators.find? (·.isPrefixOf (c :: (rest ++ after))) = some (c :: rest) :=
    find?_punctuators h hafter
  have hdrop : (c :: (rest ++ after)).drop (c :: rest).length = after := by
    rw [← List.cons_append, List.drop_left]
  by_cases hc : c = chr '/'
  · subst hc
    have hcomment : ∀ d ∈ (rest ++ after).head?, d ≠ chr '/' ∧ d ≠ chr '*' := by
      intro d hd
      rcases hslash rfl with rfl | rfl
      · rw [hafter d hd]
        decide
      · obtain rfl := Option.some.inj hd
        decide
    have hregex : opensRegex previous (chr '/') (rest ++ after) = none := by
      unfold opensRegex
      split
      next hvalue => exact hread rfl hvalue.2
      next => rfl
    rw [lexToken_slash hcomment hregex, hfind]
    dsimp only
    rw [hdrop]
  · have hnumber : ¬ (isDigit c || (c == chr '.' && (rest ++ after).head?.any isDigit)) = true := by
      by_cases hp : c = chr '.'
      · rw [hdigit, hpoint hp, List.nil_append]
        cases after with
        | nil => simp
        | cons d tail =>
          rw [hafter d rfl, List.head?_cons, Option.any_some, show isDigit (chr ' ') = false by decide]
          simp
      · exact not_begins hdigit hp _
    rw [lexToken_of_ne hspace hc, if_neg hnumber, if_neg (not_or.mpr ⟨hquote, hquote'⟩), hstart,
      if_neg Bool.false_ne_true, hfind]
    dsimp only
    rw [hdrop]

theorem lexToken_regex {c : Byte} {rest flags after : Bytes} (hc : c ≠ chr '*')
    (hbody : regexBody false (c :: rest ++ [chr '/']) = some (c :: rest, []))
    (hflags : flags.all isAlpha = true) (hafter : Spaced after)
    (hvalue : valueExpected previous = true) :
    lexToken strtod previous (chr '/') (c :: rest ++ chr '/' :: flags ++ after) =
      (some (.regex (c :: rest) flags), after) := by
  have hne : c ≠ chr '/' := by
    rintro rfl
    rw [List.cons_append, regexBody_cons (by decide), if_pos ⟨rfl, rfl⟩] at hbody
    exact nomatch (Prod.mk.inj (Option.some.inj hbody)).1
  have hwhole : regexBody false (c :: rest ++ chr '/' :: flags ++ after) =
      some (c :: rest, flags ++ after) := by
    have happend := regexBody_append (flags ++ after) hbody
    rw [List.append_assoc, List.singleton_append, List.nil_append] at happend
    rw [List.append_assoc, List.cons_append]
    exact happend
  obtain ⟨htake, hdrop⟩ := takeWhile_word (by decide) hflags hafter
  rw [lexToken, if_neg (by decide), if_neg fun h => hne (Option.some.inj h.2),
    if_neg fun h => hc (Option.some.inj h.2), opensRegex, if_pos ⟨rfl, hvalue⟩, hwhole]
  dsimp only
  rw [htake, hdrop]

/-- **A printed token is lexed**, if the rule for a slash is right for it. -/
theorem tokenizeFrom_print {token : Token} (h : token.WellFormed strtod) {after : Bytes}
    (hafter : Spaced after) (hread : SlashRead previous token after) :
    tokenizeFrom strtod previous (token.print ++ after) =
      token :: tokenizeFrom strtod (some token) after := by
  cases token with
  | endOfInput => exact h.elim
  | number text value =>
    obtain ⟨⟨c, rest, rfl, hbegins⟩, hrun, rfl⟩ := h
    exact tokenizeFrom_of_some (lexToken_number hafter hbegins hrun)
  | string text =>
    rw [Token.print, jsonEscape, List.cons_append, List.append_assoc, List.singleton_append]
    exact tokenizeFrom_of_some (lexToken_string text after)
  | identifier text =>
    obtain ⟨⟨c, rest, rfl, hstart⟩, hparts, hkeyword⟩ := h
    have hround : lexToken strtod previous c (rest ++ after) = _ :=
      lexToken_word hafter hstart hparts
    rw [if_neg hkeyword] at hround
    exact tokenizeFrom_of_some hround
  | keyword text =>
    have hwords : ∀ text ∈ keywords, isIdentifierStart (text.headD 0) = true ∧
        text.all isIdentifierPart = true := by decide
    cases text with
    | nil => exact absurd (hwords [] h).1 (by decide)
    | cons c rest =>
      have hmem : c :: rest ∈ keywords := h
      have hstart : isIdentifierStart c = true := (hwords _ hmem).1
      have hround : lexToken strtod previous c (rest ++ after) = _ :=
        lexToken_word hafter hstart (hwords _ hmem).2
      rw [if_pos hmem] at hround
      exact tokenizeFrom_of_some hround
  | punctuator text =>
    cases text with
    | nil =>
      have hempty : [] ∉ punctuators := by decide
      exact absurd h hempty
    | cons c rest => exact tokenizeFrom_of_some (lexToken_punctuator h hafter hread)
  | regex text flags =>
    obtain ⟨⟨c, rest, rfl, hc⟩, hbody, hflags⟩ := h
    rw [Token.print, List.cons_append]
    exact tokenizeFrom_of_some (lexToken_regex hc hbody hflags hafter hread)

/-- **A printed token is not lexed**, if the rule for a slash is wrong for it. -/
theorem tokenizeFrom_print_ne {token : Token} (h : token.WellFormed strtod) {after : Bytes}
    (hafter : Spaced after) (hread : ¬ SlashRead previous token after) :
    (tokenizeFrom strtod previous (token.print ++ after)).head? ≠ some token := by
  cases token with
  | punctuator text =>
    -- The slash of an operator opens a regular expression.
    simp only [SlashRead, Classical.not_imp] at hread
    obtain ⟨hslash, hvalue, hbody⟩ := hread
    cases text with
    | nil => cases hslash
    | cons c rest =>
      obtain rfl := Option.some.inj hslash
      obtain ⟨p, hp⟩ := Option.ne_none_iff_exists'.mp hbody
      have hsecond : ∀ d ∈ (rest ++ after).head?, d ≠ chr '/' ∧ d ≠ chr '*' := by
        intro d hd
        rcases (plain_of_mem_punctuators h).2.2.2.2.2.2 rfl with rfl | rfl
        · rw [hafter d hd]
          decide
        · obtain rfl := Option.some.inj hd
          decide
      have hround : lexToken strtod previous (chr '/') (rest ++ after) =
          (some (.regex p.1 (p.2.takeWhile isAlpha)), p.2.dropWhile isAlpha) := by
        rw [lexToken, if_neg (by decide), if_neg fun h => (hsecond _ h.2).1 rfl,
          if_neg fun h => (hsecond _ h.2).2 rfl, opensRegex, if_pos ⟨rfl, hvalue⟩]
        rw [List.tail_cons] at hp
        rw [hp]
      rw [Token.print, List.cons_append, tokenizeFrom_of_some hround]
      exact fun h => by cases Option.some.inj h
  | regex text flags =>
    -- The slash of a regular expression is an operator.
    obtain ⟨⟨c, rest, rfl, hc⟩, hbody, -⟩ := h
    have hne : c ≠ chr '/' := by
      rintro rfl
      rw [List.cons_append, regexBody_cons (by decide), if_pos ⟨rfl, rfl⟩] at hbody
      cases (Prod.mk.inj (Option.some.inj hbody)).1
    have hcomment : ∀ d ∈ (c :: rest ++ chr '/' :: flags ++ after).head?,
        d ≠ chr '/' ∧ d ≠ chr '*' := by
      intro d hd
      obtain rfl := Option.some.inj hd
      exact ⟨hne, hc⟩
    have hregex : opensRegex previous (chr '/') (c :: rest ++ chr '/' :: flags ++ after) = none :=
      if_neg fun h => hread h.2
    have hround : lexToken strtod previous _ _ = _ := lexToken_slash hcomment hregex
    have hfound : (punctuators.find?
        (·.isPrefixOf (chr '/' :: (c :: rest ++ chr '/' :: flags ++ after)))).isSome := by
      rw [List.find?_isSome]
      exact ⟨[chr '/'], by decide, rfl⟩
    obtain ⟨p, hp⟩ := Option.isSome_iff_exists.mp hfound
    rw [hp] at hround
    rw [Token.print, List.cons_append, tokenizeFrom_of_some hround]
    exact fun h => by cases Option.some.inj h
  | _ => exact absurd trivial hread

/-! ## Whole token lists -/

theorem tokenizeFrom_behind (tokens : List Token) :
    tokenizeFrom strtod previous (behind tokens) =
      tokenizeFrom strtod previous (printTokens tokens) := by
  cases tokens with
  | nil => rfl
  | cons token tokens => exact tokenizeFrom_space

/-- Printed tokens are lexed behind a token, by induction on the tokens. -/
theorem tokenizeFrom_printTokens_iff :
    ∀ {tokens : List Token} {previous : Option Token}, (∀ t ∈ tokens, t.WellFormed strtod) →
      (tokenizeFrom strtod previous (printTokens tokens) = tokens ++ [.endOfInput] ↔
        SlashesRead previous tokens)
  | [], previous, _ => by
    rw [printTokens, tokenizeFrom]
    exact iff_of_true rfl trivial
  | token :: tokens, previous, h => by
    obtain ⟨htoken, htokens⟩ := List.forall_mem_cons.mp h
    rw [printTokens, SlashesRead]
    by_cases hread : SlashRead previous token (behind tokens)
    · rw [tokenizeFrom_print htoken (spaced_behind tokens) hread, tokenizeFrom_behind,
        List.cons_append, List.cons.injEq, tokenizeFrom_printTokens_iff htokens]
      exact ⟨fun h => ⟨hread, h.2⟩, fun h => ⟨rfl, h.2⟩⟩
    · refine iff_of_false (fun heq => ?_) fun h => hread h.1
      have hne := tokenizeFrom_print_ne htoken (spaced_behind tokens) hread
      rw [heq] at hne
      exact hne rfl

end Rounds

/-! ## All tokens of the lexer -/

section Tokens

variable {strtod : Bytes → Number × ℕ}

theorem numberRun_fst : ∀ {text : Bytes} {afterE : Bool},
    numberRun afterE (numberRun afterE text).1 = ((numberRun afterE text).1, [])
  | [], _ => rfl
  | c :: rest, afterE => by
    rw [numberRun]
    by_cases hpart : (!isNumberPart c) = true
    · rw [if_pos hpart, numberRun]
    · rw [if_neg hpart]
      by_cases hsign : ((c == chr '+' || c == chr '-') && !afterE) = true
      · rw [if_pos hsign, numberRun]
      · rw [if_neg hsign]
        dsimp only
        rw [numberRun, if_neg hpart, if_neg hsign, numberRun_fst]

/-- The scan of a regular expression is over the text that it gives. -/
theorem regexBody_text : ∀ {inClass : Bool} {source text left : Bytes},
    regexBody inClass source = some (text, left) →
      regexBody inClass (text ++ [chr '/']) = some (text, []) ∧
        (text = [] → source.head? = some (chr '/')) ∧ (text ≠ [] → text.head? = source.head?)
  | _, [], _, _, h => by cases h
  | inClass, c :: rest, text, left, h => by
    by_cases hc : c = chr '\\'
    · subst hc
      cases rest with
      | nil =>
        rw [regexBody, if_neg (fun h => by cases h.1)] at h
        cases h
      | cons d rest =>
        rw [regexBody, if_pos rfl] at h
        obtain ⟨p, hp, heq⟩ := Option.map_eq_some_iff.mp h
        obtain ⟨rfl, rfl⟩ := Prod.mk.inj heq
        refine ⟨?_, (by rintro ⟨⟩), fun _ => rfl⟩
        rw [List.cons_append, List.cons_append, regexBody, if_pos rfl, (regexBody_text hp).1,
          Option.map_some]
    · rw [regexBody_cons hc] at h
      split at h
      next hend =>
        obtain ⟨rfl, rfl⟩ := Prod.mk.inj (Option.some.inj h)
        refine ⟨?_, fun _ => congrArg some hend.1, fun h => absurd rfl h⟩
        rw [List.nil_append, regexBody_cons (by decide), if_pos ⟨rfl, hend.2⟩]
      next hend =>
        obtain ⟨p, hp, heq⟩ := Option.map_eq_some_iff.mp h
        obtain ⟨rfl, rfl⟩ := Prod.mk.inj heq
        refine ⟨?_, (by rintro ⟨⟩), fun _ => rfl⟩
        rw [List.cons_append, regexBody_cons hc, if_neg hend, (regexBody_text hp).1,
          Option.map_some]

/-- A round makes well-formed tokens. -/
theorem wellFormed_of_lexToken {previous : Option Token} {c : Byte} {rest after : Bytes}
    {token : Token} (h : lexToken strtod previous c rest = (some token, after)) :
    token.WellFormed strtod := by
  unfold lexToken at h
  split at h
  · cases (Prod.mk.inj h).1
  split at h
  · cases (Prod.mk.inj h).1
  next hline =>
  split at h
  · cases (Prod.mk.inj h).1
  next hblock =>
  split at h
  next text left hregex =>
    obtain ⟨htoken, -⟩ := Prod.mk.inj h
    obtain rfl := Option.some.inj htoken
    rw [opensRegex] at hregex
    split at hregex
    next hopen =>
      obtain ⟨hbody, hempty, hhead⟩ := regexBody_text hregex
      refine ⟨?_, hbody, List.all_takeWhile⟩
      cases text with
      | nil => exact absurd ⟨hopen.1, hempty rfl⟩ hline
      | cons d text =>
        refine ⟨d, text, rfl, ?_⟩
        rintro rfl
        exact hblock ⟨hopen.1, (hhead (List.cons_ne_nil _ _)).symm⟩
    next => cases hregex
  next =>
  unfold lexWord at h
  split at h
  next hnumber =>
    simp only [Bool.or_eq_true, Bool.and_eq_true, beq_iff_eq] at hnumber
    have hfst := @numberRun_fst (c :: rest) false
    have hcons := numberRun_cons (hnumber.imp_right And.left) false rest
    rcases hrun : numberRun false (c :: rest) with ⟨text, left⟩
    rw [hrun] at h hfst hcons
    obtain ⟨htoken, -⟩ := Prod.mk.inj h
    obtain rfl := Option.some.inj htoken
    refine ⟨⟨c, _, (Prod.mk.inj hcons).1, hnumber.imp_right fun hpoint => ⟨hpoint.1, ?_⟩⟩, hfst, rfl⟩
    cases rest with
    | nil => cases hpoint.2
    | cons d rest =>
      have hdigit : isDigit d = true := hpoint.2
      rw [numberRun_cons (Or.inl hdigit)]
      exact hdigit
  next =>
  split at h
  · obtain ⟨htoken, -⟩ := Prod.mk.inj h
    obtain rfl := Option.some.inj htoken
    exact trivial
  split at h
  next hstart =>
    obtain ⟨htoken, -⟩ := Prod.mk.inj h
    have hparts : ((c :: rest).takeWhile isIdentifierPart).all isIdentifierPart = true :=
      List.all_takeWhile
    have hcons := List.takeWhile_cons_of_pos (l := rest) (isIdentifierPart_of_start c hstart)
    split at htoken
    next hkeyword =>
      obtain rfl := Option.some.inj htoken
      exact hkeyword
    next hkeyword =>
      obtain rfl := Option.some.inj htoken
      exact ⟨⟨c, _, hcons, hstart⟩, hparts, hkeyword⟩
  next =>
  split at h
  next text htext =>
    obtain ⟨htoken, -⟩ := Prod.mk.inj h
    obtain rfl := Option.some.inj htoken
    exact List.mem_of_find?_eq_some htext
  · cases (Prod.mk.inj h).1

/-- The tokens of a text, in front of the end of the input. -/
theorem exists_tokenizeFrom_eq (previous : Option Token) (source : Bytes) :
    ∃ tokens, tokenizeFrom strtod previous source = tokens ++ [.endOfInput] ∧
      ∀ token ∈ tokens, token.WellFormed strtod := by
  induction previous, source using tokenizeFrom.induct strtod with
  | case1 previous => exact ⟨[], by rw [tokenizeFrom]; rfl, nofun⟩
  | case2 previous c rest round made hmade ih =>
    obtain ⟨tokens, heq, htokens⟩ := ih
    have hround : round = (some made, round.2) := Prod.ext hmade rfl
    refine ⟨made :: tokens, ?_, List.forall_mem_cons.mpr ⟨wellFormed_of_lexToken hround, htokens⟩⟩
    rw [tokenizeFrom_of_some hround, heq, List.cons_append]
  | case3 previous c rest round hmade ih =>
    rwa [tokenizeFrom_of_none (Prod.ext hmade rfl : round = (none, round.2))]

end Tokens

/-! ## The round trip -/

/-- **Printed tokens are lexed again exactly where the rule for a slash is right for all of them.**
The tokens are any that there are, in any order. -/
theorem tokenize_printTokens_iff (strtod : Bytes → Number × ℕ) (tokens : List Token)
    (h : ∀ token ∈ tokens, token.WellFormed strtod) :
    tokenize strtod (printTokens tokens) = tokens ++ [.endOfInput] ↔ SlashesRead none tokens :=
  tokenizeFrom_printTokens_iff h

/-- The tokens of `true / 2 / 3`. -/
def trueDivided : List Token :=
  [.keyword (lit "true"), .punctuator (lit "/"), .number (lit "2") (.finite 2),
    .punctuator (lit "/"), .number (lit "3") (.finite 3)]

/-- `true / 2 / 3` is lexed as `true`, the regular expression `/ 2 /` and `3`. -/
theorem not_forall_tokenize_printTokens :
    (∀ token ∈ trueDivided, token.WellFormed readInteger) ∧
      tokenize readInteger (printTokens trueDivided) =
        [.keyword (lit "true"), .regex (lit " 2 ") [], .number (lit "3") (.finite 3),
          .endOfInput] ∧
      tokenize readInteger (printTokens trueDivided) ≠ trueDivided ++ [.endOfInput] := by
  have hprint : printTokens trueDivided = chr 't' :: lit "rue / 2 / 3" := by decide
  have htrue : lexToken readInteger none (chr 't') (lit "rue / 2 / 3") =
      (some (.keyword (lit "true")), chr ' ' :: chr '/' :: lit " 2 / 3") := by decide
  have hregex : lexToken readInteger (some (.keyword (lit "true"))) (chr '/') (lit " 2 / 3") =
      (some (.regex (lit " 2 ") []), [chr ' ', chr '3']) := by decide
  have hthree : lexToken readInteger (some (.regex (lit " 2 ") [])) (chr '3') [] =
      (some (.number (lit "3") (.finite 3)), []) := by decide
  have htokens : tokenize readInteger (printTokens trueDivided) =
      [.keyword (lit "true"), .regex (lit " 2 ") [], .number (lit "3") (.finite 3),
        .endOfInput] := by
    rw [tokenize, hprint, tokenizeFrom_of_some htrue, tokenizeFrom_space,
      tokenizeFrom_of_some hregex, tokenizeFrom_space, tokenizeFrom_of_some hthree, tokenizeFrom]
  refine ⟨?_, htokens, ?_⟩
  · have hslash : lit "/" ∈ punctuators := by decide
    simp only [trueDivided, List.forall_mem_cons]
    refine ⟨?_, hslash, ?_, hslash, ?_, List.forall_mem_nil _⟩
    · show lit "true" ∈ keywords
      decide
    · exact ⟨⟨chr '2', [], by decide, Or.inl (by decide)⟩, by decide, by decide⟩
    · exact ⟨⟨chr '3', [], by decide, Or.inl (by decide)⟩, by decide, by decide⟩
  · rw [htokens]
    decide

/-- A division behind a word is lexed again, and so is a regular expression behind a bracket. -/
theorem tokenize_printTokens_literal :
    tokenize readInteger (printTokens
      [.identifier (lit "f"), .punctuator (lit "("), .regex (lit "[/]") (lit "g"),
        .punctuator (lit ")"), .punctuator (lit "/"), .number (lit "2") (.finite 2)]) =
      [.identifier (lit "f"), .punctuator (lit "("), .regex (lit "[/]") (lit "g"),
        .punctuator (lit ")"), .punctuator (lit "/"), .number (lit "2") (.finite 2),
        .endOfInput] := by
  refine (tokenize_printTokens_iff readInteger
    [.identifier (lit "f"), .punctuator (lit "("), .regex (lit "[/]") (lit "g"),
      .punctuator (lit ")"), .punctuator (lit "/"), .number (lit "2") (.finite 2)] ?_).mpr ?_
  · simp only [List.forall_mem_cons]
    refine ⟨?_, ?_, ?_, ?_, ?_, ?_, List.forall_mem_nil _⟩
    · exact ⟨⟨chr 'f', [], by decide, by decide⟩, by decide, by decide⟩
    · show lit "(" ∈ punctuators
      decide
    · exact ⟨⟨chr '[', lit "/]", by decide, by decide⟩, by decide, by decide⟩
    · show lit ")" ∈ punctuators
      decide
    · show lit "/" ∈ punctuators
      decide
    · exact ⟨⟨chr '2', [], by decide, Or.inl (by decide)⟩, by decide, by decide⟩
  · exact ⟨trivial, (nofun), rfl, (nofun), (nofun), trivial, trivial⟩

/-- **The tokens of a script are printed and lexed again**, whatever the script is, exactly where the
rule for a slash is right for all of them. -/
theorem tokenize_printTokens_tokenize_iff (strtod : Bytes → Number × ℕ) (source : Bytes) :
    tokenize strtod (printTokens (tokenize strtod source).dropLast) = tokenize strtod source ↔
      SlashesRead none (tokenize strtod source).dropLast := by
  obtain ⟨tokens, heq, htokens⟩ := @exists_tokenizeFrom_eq strtod none source
  have hsource : tokenize strtod source = tokens ++ [.endOfInput] := heq
  rw [hsource, List.dropLast_concat]
  exact tokenizeFrom_printTokens_iff htokens

end Aetheris.Js
