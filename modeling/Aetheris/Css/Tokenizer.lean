import Aetheris.Bytes

/-!
# The CSS tokenizer

`CssTokenizer` of `rendering/css_tokenizer.cpp`.  The line and the column of a token are left out:
nothing reads them.  What is left of the text takes the place of the position.  A round of the loop
is `nextToken`, and it takes at least one character (`nextToken_suffix`), which is why `tokenize`
ends.
-/

namespace Aetheris.Css

/-- `CssTokenType`. -/
inductive CssTokenType
  | identifier
  | string
  | number
  | colon
  | semicolon
  | comma
  | openBrace
  | closeBrace
  | openParen
  | closeParen
  | childCombinator
  | universalSelector
  | delimiter
  | whitespace
  | endOfFile
  deriving DecidableEq, Repr

/-- `CssToken`. -/
structure CssToken where
  type : CssTokenType := .endOfFile
  value : Bytes := []
  deriving DecidableEq, Repr

/-- `is_whitespace`. -/
def isWhitespace (c : Byte) : Bool :=
  c == 0x20 || c == 0x09 || c == 0x0a || c == 0x0d || c == 0x0c

/-- `is_identifier_start`. -/
def isIdentifierStart (c : Byte) : Bool :=
  isLower c || isUpper c || c == chr '_' || c == chr '-' || c == chr '#' || c == chr '.'

/-- `is_identifier_char`. -/
def isIdentifierChar (c : Byte) : Bool := isIdentifierStart c || isDigit c

/-- The characters of a number behind its sign. -/
def isNumberChar (c : Byte) : Bool := isDigit c || c == chr '.'

/-- What is behind a comment, from the inside of the comment on. -/
def skipComment : Bytes → Bytes
  | [] => []
  | c :: rest =>
    if c = chr '*' ∧ rest.head? = some (chr '/') then rest.tail else skipComment rest

/-- A sign and a digit, or a sign and a dot. -/
def isSigned (c : Byte) (rest : Bytes) : Bool :=
  (c == chr '+' || c == chr '-') && (rest.head?.elim false isNumberChar)

/-- `consume_number`: the text of the number, and what is behind it. -/
def takeNumber (c : Byte) (rest : Bytes) : Bytes × Bytes :=
  if c = chr '+' ∨ c = chr '-' then (c :: rest.takeWhile isNumberChar, rest.dropWhile isNumberChar)
  else ((c :: rest).takeWhile isNumberChar, (c :: rest).dropWhile isNumberChar)

/-- `consume_string` behind the quote: the text of the string without its escapes, and what is
behind its end. -/
def takeString (quote : Byte) : Bytes → Bytes × Bytes
  | [] => ([], [])
  | [c] => if c = quote then ([], []) else ([c], [])
  | c :: d :: rest =>
    if c = quote then ([], d :: rest)
    else if c = 0x5c ∧ d ≠ 0 then
      let (value, behind) := takeString quote rest
      (d :: value, behind)
    else
      let (value, behind) := takeString quote (d :: rest)
      (c :: value, behind)

/-- The type of a token of one character. -/
def delimiterType (c : Byte) : CssTokenType :=
  if c = chr ':' then .colon
  else if c = chr ';' then .semicolon
  else if c = chr ',' then .comma
  else if c = chr '{' then .openBrace
  else if c = chr '}' then .closeBrace
  else if c = chr '(' then .openParen
  else if c = chr ')' then .closeParen
  else if c = chr '>' then .childCombinator
  else if c = chr '*' then .universalSelector
  else .delimiter

/-- One round of the loop in `tokenize` on a text that begins with `c`: the token, unless it is a
comment, and what is behind it. -/
def nextToken (c : Byte) (rest : Bytes) : Option CssToken × Bytes :=
  if c = chr '/' ∧ rest.head? = some (chr '*') then (none, skipComment rest.tail)
  else if isWhitespace c then
    (some ⟨.whitespace, c :: rest.takeWhile isWhitespace⟩, rest.dropWhile isWhitespace)
  else if isIdentifierStart c then
    (some ⟨.identifier, c :: rest.takeWhile isIdentifierChar⟩, rest.dropWhile isIdentifierChar)
  else if isDigit c || isSigned c rest then
    (some ⟨.number, (takeNumber c rest).1⟩, (takeNumber c rest).2)
  else if c = 0x22 ∨ c = 0x27 then
    (some ⟨.string, (takeString c rest).1⟩, (takeString c rest).2)
  else (some ⟨delimiterType c, [c]⟩, rest)

/-! ## The loop goes on -/

theorem skipComment_suffix (text : Bytes) : skipComment text <:+ text := by
  induction text with
  | nil => exact List.suffix_rfl
  | cons c rest ih =>
    rw [skipComment]
    split
    · exact (List.tail_suffix rest).trans (List.suffix_cons c rest)
    · exact ih.trans (List.suffix_cons c rest)

theorem takeString_suffix (quote : Byte) (text : Bytes) : (takeString quote text).2 <:+ text := by
  induction text using takeString.induct quote with
  | case1 => exact List.suffix_rfl
  | case2 => simp [takeString]
  | case3 c hc => simp [takeString, hc]
  | case4 d rest => simp [takeString]
  | case5 c d rest hc hescape _ _ _ ih =>
    rw [takeString, if_neg hc, if_pos hescape]
    exact ih.trans ((List.suffix_cons d rest).trans (List.suffix_cons c _))
  | case6 c d rest hc hescape _ _ _ ih =>
    rw [takeString, if_neg hc, if_neg hescape]
    exact ih.trans (List.suffix_cons c _)

/-- A number without a sign begins with a digit. -/
theorem isNumberChar_of_number {c : Byte} {rest : Bytes} (h : isDigit c || isSigned c rest)
    (hsign : ¬ (c = chr '+' ∨ c = chr '-')) : isNumberChar c := by
  rcases Bool.or_eq_true_iff.mp h with hc | hc
  · exact Bool.or_eq_true_iff.mpr (Or.inl hc)
  · refine absurd ?_ hsign
    simpa [isSigned] using (Bool.and_eq_true_iff.mp hc).1

theorem takeNumber_suffix {c : Byte} {rest : Bytes} (h : isDigit c || isSigned c rest) :
    (takeNumber c rest).2 <:+ rest := by
  rw [takeNumber]
  split
  · exact List.dropWhile_suffix isNumberChar
  · rename_i hsign
    rw [List.dropWhile_cons_of_pos (isNumberChar_of_number h hsign)]
    exact List.dropWhile_suffix isNumberChar

/-- **Every round reads a character.** -/
theorem nextToken_suffix (c : Byte) (rest : Bytes) : (nextToken c rest).2 <:+ rest := by
  rw [nextToken]
  split
  · exact (skipComment_suffix _).trans (List.tail_suffix rest)
  · split
    · exact List.dropWhile_suffix isWhitespace
    · split
      · exact List.dropWhile_suffix isIdentifierChar
      · split
        · exact takeNumber_suffix ‹_›
        · split
          · exact takeString_suffix _ _
          · exact List.suffix_rfl

theorem length_nextToken_lt (c : Byte) (rest : Bytes) :
    (nextToken c rest).2.length < (c :: rest).length :=
  Nat.lt_succ_of_le (nextToken_suffix c rest).length_le

/-- `tokenize` without the token at the end of the file. -/
def tokenizeText (text : Bytes) : List CssToken :=
  match text with
  | [] => []
  | c :: rest =>
    match (nextToken c rest).1 with
    | none => tokenizeText (nextToken c rest).2
    | some token => token :: tokenizeText (nextToken c rest).2
termination_by text.length
decreasing_by
  all_goals exact length_nextToken_lt c rest

/-- `tokenize`. -/
def tokenize (text : Bytes) : List CssToken := tokenizeText text ++ [⟨.endOfFile, []⟩]

end Aetheris.Css
