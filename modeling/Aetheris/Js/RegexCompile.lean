import Aetheris.Js.Regex

/-!
# Compiling regular expressions

`Parser` and `Regex::compile` of `regex.cpp`.  A NUL in a pattern keeps the loop of
`parse_concatenation` going for ever, and a count above `INT_MAX` overflows an `int`: neither has a
result, which is `none`.  Apart from that, a part that is not well formed sets a flag, and the
pattern is rejected at the end.
-/

namespace Aetheris.Js

/-- `Parser`, without the pattern that it reads. -/
structure Parser where
  position : ℕ := 0
  ok : Bool := true
  deriving DecidableEq, Repr

namespace Parser

/-- `position += count`. -/
def advance (parser : Parser) (count : ℕ) : Parser :=
  { parser with position := parser.position + count }

/-- `ok = false`, unless a condition holds. -/
def require (parser : Parser) (condition : Bool) : Parser :=
  { parser with ok := parser.ok && condition }

@[simp] theorem position_advance (parser : Parser) (count : ℕ) :
    (parser.advance count).position = parser.position + count := rfl

end Parser

/-- `INT_MAX`. -/
def intMax : ℕ := 2147483647

section

variable (pattern : Bytes)

namespace Parser

/-- `peek`; `at_end` is written out where it is asked. -/
def peek (parser : Parser) : Byte := pattern.getD parser.position 0

/-- `consume`: what is left when the character was there. -/
def consume (parser : Parser) (c : Byte) : Bool × Parser :=
  if parser.peek pattern = c then (true, parser.advance 1) else (false, parser)

/-- `parse_int`. -/
def parseInt (parser : Parser) : Option (ℕ × Parser) :=
  match (pattern.drop parser.position).takeWhile isDigit with
  | [] => none
  | digits =>
    some (digits.foldl (fun value c => value * 10 + (c.toNat - 0x30)) 0,
      parser.advance digits.length)

theorem lt_length_of_peek {parser : Parser} {c : Byte} (h : parser.peek pattern = c)
    (hc : c ≠ 0) : parser.position < pattern.length := by
  by_contra hlt
  rw [peek, List.getD_eq_getElem?_getD, List.getElem?_eq_none (Nat.not_lt.mp hlt),
    Option.getD_none] at h
  exact hc h.symm

end Parser

/-- A quantifier: the least and the greatest count, and what is left. -/
structure Quantifier where
  minimum : ℕ
  maximum : Option ℕ
  rest : Parser

/-- The counts in braces; `none` when the place is set back to the brace. -/
def parseBraces (parser : Parser) : Option Quantifier :=
  match (parser.advance 1).parseInt pattern with
  | none => none
  | some (minimum, next) =>
    let (comma, next) := next.consume pattern (chr ',')
    let (maximum, next) :=
      if comma then
        match next.parseInt pattern with
        | some (maximum, next) => (some maximum, next)
        | none => (none, next)
      else (some minimum, next)
    let (closed, next) := next.consume pattern (chr '}')
    if closed then some { minimum := minimum, maximum := maximum, rest := next } else none

/-- One round of the loop of `parse_repetition`, up to the quantifier's question mark. -/
def parseQuantifier (parser : Parser) : Option Quantifier :=
  let c := parser.peek pattern
  if c = chr '*' then some { minimum := 0, maximum := none, rest := parser.advance 1 }
  else if c = chr '+' then some { minimum := 1, maximum := none, rest := parser.advance 1 }
  else if c = chr '?' then some { minimum := 0, maximum := some 1, rest := parser.advance 1 }
  else if c = chr '{' then parseBraces pattern parser
  else none

/-- The counts fit into an `int`. -/
def Quantifier.fits (quantifier : Quantifier) : Bool :=
  quantifier.minimum ≤ intMax && quantifier.maximum.all (· ≤ intMax)

/-- The loop of `parse_repetition`, with the atom read so far. -/
def quantifierLoop (atom : Node) (parser : Parser) : Option (Node × Parser) :=
  if _ : parser.position < pattern.length then
    match parseQuantifier pattern parser with
    | none => some (atom, parser)
    | some quantifier =>
      if quantifier.fits then
        let (lazily, next) := quantifier.rest.consume pattern (chr '?')
        -- holds whenever it is asked: a quantifier has at least one character
        if _ : parser.position < next.position then
          quantifierLoop (.repetition atom quantifier.minimum quantifier.maximum !lazily) next
        else none
      else none
  else some (atom, parser)
termination_by pattern.length - parser.position

/-- The ranges of `\d`, `\w` and `\s`. -/
def digitRanges : List (Byte × Byte) := [(chr '0', chr '9')]

def wordRanges : List (Byte × Byte) :=
  [(chr 'a', chr 'z'), (chr 'A', chr 'Z'), (chr '0', chr '9'), (chr '_', chr '_')]

def spaceRanges : List (Byte × Byte) :=
  [(chr ' ', chr ' '), (chr '\t', chr '\t'), (chr '\n', chr '\n'), (chr '\r', chr '\r'),
    (0x0c, 0x0c), (0x0b, 0x0b)]

/-- `\n`, `\t` and `\r`; any other character stands for itself. -/
def escapedLiteral (escaped : Byte) : Byte :=
  if escaped = chr 'n' then chr '\n'
  else if escaped = chr 't' then chr '\t'
  else if escaped = chr 'r' then chr '\r'
  else escaped

/-- `class_for_escape`. -/
def classForEscape (escaped : Byte) : Node :=
  if escaped = chr 'd' then .charClass false digitRanges
  else if escaped = chr 'D' then .charClass true digitRanges
  else if escaped = chr 'w' then .charClass false wordRanges
  else if escaped = chr 'W' then .charClass true wordRanges
  else if escaped = chr 's' then .charClass false spaceRanges
  else if escaped = chr 'S' then .charClass true spaceRanges
  else .literal (escapedLiteral escaped)

/-- The second half of a round of the loop of `parse_class`: the range that begins with `low`. -/
def classRange (low : Byte) (parser : Parser) : (Byte × Byte) × Parser :=
  if parser.peek pattern = chr '-' ∧ parser.position + 1 < pattern.length ∧
      pattern[parser.position + 1]? ≠ some (chr ']') then
    let high := (parser.advance 1).peek pattern
    let next := parser.advance 2
    if high = chr '\\' then ((low, next.peek pattern), next.advance 1) else ((low, high), next)
  else ((low, low), parser)

/-- One round of the loop of `parse_class`. -/
def classStep (parser : Parser) : List (Byte × Byte) × Parser :=
  let low := parser.peek pattern
  let next := parser.advance 1
  if low = chr '\\' then
    let escaped := next.peek pattern
    let next := next.advance 1
    if escaped = chr 'd' then (digitRanges, next)
    else if escaped = chr 'w' then (wordRanges, next)
    -- two of the six ranges of `\s`
    else if escaped = chr 's' then ([(chr ' ', chr ' '), (chr '\t', chr '\t')], next)
    else
      let (range, next) := classRange pattern (escapedLiteral escaped) next
      ([range], next)
  else
    let (range, next) := classRange pattern low next
    ([range], next)

theorem le_position_classRange (low : Byte) (parser : Parser) :
    parser.position ≤ (classRange pattern low parser).2.position := by
  simp only [classRange]
  split
  · split
    · simp only [Parser.position_advance]
      omega
    · simp only [Parser.position_advance]
      omega
  · exact Nat.le_refl _

theorem lt_position_classStep (parser : Parser) :
    parser.position < (classStep pattern parser).2.position := by
  have hrange := fun low next => le_position_classRange pattern low next
  have hone : parser.position < (parser.advance 1).position := Nat.lt_succ_self _
  have htwo : parser.position < ((parser.advance 1).advance 1).position :=
    hone.trans (Nat.lt_succ_self _)
  simp only [classStep]
  split
  · split
    · exact htwo
    · split
      · exact htwo
      · split
        · exact htwo
        · exact Nat.lt_of_lt_of_le htwo (hrange _ _)
  · exact Nat.lt_of_lt_of_le hone (hrange _ _)

/-- The loop of `parse_class`. -/
def classLoop (parser : Parser) : List (Byte × Byte) × Parser :=
  if _h : parser.position < pattern.length ∧ parser.peek pattern ≠ chr ']' then
    let round := classStep pattern parser
    let (ranges, next) := classLoop round.2
    (round.1 ++ ranges, next)
  else ([], parser)
termination_by pattern.length - parser.position
decreasing_by
  have := lt_position_classStep pattern parser
  omega

/-- `parse_class`, at its opening bracket. -/
def parseClass (parser : Parser) : Node × Parser :=
  let (negated, next) := (parser.advance 1).consume pattern (chr '^')
  let (ranges, next) := classLoop pattern next
  let (closed, next) := next.consume pattern (chr ']')
  (.charClass negated ranges, next.require closed)

mutual

/-- `parse_alternation`. -/
def parseAlternation (parser : Parser) : Option (Node × Parser) :=
  match alternationLoop parser with
  | none => none
  | some ([branch], next) => some (branch, next)
  | some (branches, next) => some (.alt branches, next)
termination_by 6 * (pattern.length - parser.position) + 5

/-- The branches of `parse_alternation`. -/
def alternationLoop (parser : Parser) : Option (List Node × Parser) :=
  match parseConcatenation parser with
  | none => none
  | some (branch, next) =>
    if _ : next.peek pattern = chr '|' then
      -- holds whenever it is asked: a concatenation does not go back
      if _ : parser.position ≤ next.position then
        match alternationLoop (next.advance 1) with
        | none => none
        | some (branches, last) => some (branch :: branches, last)
      else none
    else some ([branch], next)
termination_by 6 * (pattern.length - parser.position) + 4
decreasing_by
  · omega
  · have := Parser.lt_length_of_peek pattern ‹next.peek pattern = chr '|'› (by decide)
    rw [Parser.position_advance]
    omega

/-- `parse_concatenation`. -/
def parseConcatenation (parser : Parser) : Option (Node × Parser) :=
  match concatenationLoop parser with
  | none => none
  | some ([part], next) => some (part, next)
  | some (parts, next) => some (.concat parts, next)
termination_by 6 * (pattern.length - parser.position) + 3

/-- The parts of `parse_concatenation`. -/
def concatenationLoop (parser : Parser) : Option (List Node × Parser) :=
  if _ : parser.position < pattern.length ∧ parser.peek pattern ≠ chr '|' ∧
      parser.peek pattern ≠ chr ')' then
    match parseRepetition parser with
    | none => none
    | some (part, next) =>
      -- holds whenever it is asked: an atom has at least one character
      if _ : parser.position < next.position then
        match concatenationLoop next with
        | none => none
        | some (parts, last) => some (part :: parts, last)
      else none
  else some ([], parser)
termination_by 6 * (pattern.length - parser.position) + 2

/-- `parse_repetition`. -/
def parseRepetition (parser : Parser) : Option (Node × Parser) :=
  match parseAtom parser with
  | none => none
  | some (atom, next) => quantifierLoop pattern atom next
termination_by 6 * (pattern.length - parser.position) + 1

/-- `parse_atom`.  At a NUL it does not move, and its caller calls it again for ever. -/
def parseAtom (parser : Parser) : Option (Node × Parser) :=
  let c := parser.peek pattern
  if _ : c = chr '(' then
    match parseAlternation (parser.advance 1) with
    | none => none
    | some (inner, next) =>
      let (closed, next) := next.consume pattern (chr ')')
      some (.group inner, next.require closed)
  else if c = chr '[' then some (parseClass pattern parser)
  else if c = chr '.' then some (.any, parser.advance 1)
  else if c = chr '^' then some (.lineStart, parser.advance 1)
  else if c = chr '$' then some (.lineEnd, parser.advance 1)
  else if c = chr '\\' then
    some (classForEscape ((parser.advance 1).peek pattern), parser.advance 2)
  else if c = 0 then none
  else some (.literal c, parser.advance 1)
termination_by 6 * (pattern.length - parser.position) + 0
decreasing_by
  have := Parser.lt_length_of_peek pattern ‹c = chr '('› (by decide)
  rw [Parser.position_advance]
  omega

end

/-! The parser gets on, so that its loops end. -/

end

/-- `Regex::compile`: a regular expression, or the text of the error. -/
def Regex.compile (pattern flags : Bytes) : Option (Except Bytes Regex) :=
  if flags.all [chr 'g', chr 'i', chr 'm'].contains then
    match parseAlternation pattern {} with
    | none => none
    | some (root, parser) =>
      -- trailing characters, e.g. an unmatched closing parenthesis
      let trailing := parser.position ≠ pattern.length ∧ parser.peek pattern = chr ')'
      if parser.ok ∧ ¬ trailing then
        some (.ok
          { source := pattern, flags := flags, global := flags.contains (chr 'g'),
            ignoreCase := flags.contains (chr 'i'), root := root })
      else some (.error (lit "invalid regular expression"))
  else some (.error (lit "invalid regular expression flag"))

end Aetheris.Js
