import Aetheris.Js.Json

/-!
# The lexer of scripts

`Lexer::tokenize` of `js.cpp`.  One round of its loop looks at the text that is left and at the
token before, which says whether a slash may open a regular expression.  A round takes something off
the text, which is why the loop ends.
-/

namespace Aetheris.Js

/-- `Token`: its text, and the value of a number and the flags of a regular expression. -/
inductive Token
  | endOfInput
  | number (text : Bytes) (value : Number)
  | string (text : Bytes)
  | identifier (text : Bytes)
  | keyword (text : Bytes)
  | punctuator (text : Bytes)
  | regex (text flags : Bytes)
  deriving DecidableEq, Repr

/-- `is_identifier_start` -/
def isIdentifierStart (c : Byte) : Bool := isAlpha c || c == chr '_' || c == chr '$'

/-- `is_identifier_part` -/
def isIdentifierPart (c : Byte) : Bool := isAlnum c || c == chr '_' || c == chr '$'

/-- The table of `is_keyword`. -/
def keywords : List Bytes :=
  [lit "var", lit "let", lit "const", lit "function", lit "return", lit "if", lit "else",
    lit "while", lit "for", lit "break", lit "continue", lit "true", lit "false", lit "null",
    lit "undefined", lit "new", lit "typeof", lit "else", lit "instanceof", lit "class",
    lit "switch", lit "case", lit "default", lit "of", lit "async", lit "await"]

/-- The table of punctuators, the longest ones first. -/
def punctuators : List Bytes :=
  [lit "===", lit "!==", lit "==", lit "!=", lit "<=", lit ">=", lit "&&", lit "||", lit "++",
    lit "--", lit "+=", lit "-=", lit "*=", lit "/=", lit "%=", lit "=", lit "+", lit "-", lit "*",
    lit "/", lit "%", lit "<", lit ">", lit "!", lit "(", lit ")", lit "\x7b", lit "\x7d",
    lit "[", lit "]", lit ",", lit ";", lit ":", lit ".", lit "?"]

/-! ## The scans -/

/-- A character that the scan of a number goes over. -/
def isNumberPart (c : Byte) : Bool :=
  isDigit c || c == chr '.' || c == chr 'e' || c == chr 'E' || c == chr '+' || c == chr '-'

/-- The scan of a number: what it goes over, and what is left.  A sign ends it, unless the
character before it, which the scan has gone over, is an `e`. -/
def numberRun (afterE : Bool) : Bytes → Bytes × Bytes
  | [] => ([], [])
  | c :: rest =>
    if !isNumberPart c then ([], c :: rest)
    else if (c == chr '+' || c == chr '-') && !afterE then ([], c :: rest)
    else
      let (text, after) := numberRun (c == chr 'e' || c == chr 'E') rest
      (c :: text, after)

/-- The `switch` over the character behind a backslash. -/
def escaped (c : Byte) : Byte :=
  if c = chr 'n' then chr '\n'
  else if c = chr 't' then chr '\t'
  else if c = chr 'r' then chr '\r'
  else c

/-- The scan of a string, behind its opening quote: the string, and what is left behind the
closing quote. -/
def quoted (quote : Byte) : Bytes → Bytes × Bytes
  | [] => ([], [])
  | [c] => if c = quote then ([], []) else ([c], [])
  | c :: d :: rest =>
    if c = quote then ([], d :: rest)
    else if c = chr '\\' then
      let (value, after) := quoted quote rest
      (escaped d :: value, after)
    else
      let (value, after) := quoted quote (d :: rest)
      (c :: value, after)

/-- The scan of a regular expression, behind its opening slash: its text, and what is left behind
the closing slash, if there is one. -/
def regexBody (inClass : Bool) : Bytes → Option (Bytes × Bytes)
  | [] => none
  | [c] => if c = chr '/' ∧ inClass = false then some ([], []) else none
  | c :: d :: rest =>
    if c = chr '\\' then (regexBody inClass rest).map fun p => (c :: d :: p.1, p.2)
    else if c = chr '[' then (regexBody true (d :: rest)).map fun p => (c :: p.1, p.2)
    else if c = chr ']' then (regexBody false (d :: rest)).map fun p => (c :: p.1, p.2)
    else if c = chr '/' ∧ inClass = false then some ([], d :: rest)
    else (regexBody inClass (d :: rest)).map fun p => (c :: p.1, p.2)

/-- The scan of a comment, behind its opening: what is left behind its end. -/
def blockEnd : Bytes → Bytes
  | [] => []
  | [_] => []
  | c :: d :: rest => if c = chr '*' ∧ d = chr '/' then rest else blockEnd (d :: rest)

/-! ## The loop -/

/-- A slash behind this token may open a regular expression. -/
def valueExpected : Option Token → Bool
  | some (.identifier _) | some (.number _ _) | some (.string _) | some (.regex _ _) => false
  | some (.punctuator text) => !(text == lit ")" || text == lit "]" || text == lit "\x7d")
  | _ => true

/-- The regular expression that a slash opens. -/
def opensRegex (previous : Option Token) (c : Byte) (rest : Bytes) : Option (Bytes × Bytes) :=
  if c = chr '/' ∧ valueExpected previous then regexBody false rest else none

/-- What a number, a string, a name or a punctuator gives. -/
def lexWord (strtod : Bytes → Number × ℕ) (c : Byte) (rest : Bytes) : Option Token × Bytes :=
  if isDigit c || (c == chr '.' && rest.head?.any isDigit) then
    let (text, after) := numberRun false (c :: rest)
    (some (.number text (strtod text).1), after)
  else if c = chr '"' ∨ c = 0x27 then
    let (value, after) := quoted c rest
    (some (.string value), after)
  else if isIdentifierStart c then
    let text := (c :: rest).takeWhile isIdentifierPart
    (some (if text ∈ keywords then .keyword text else .identifier text),
      (c :: rest).dropWhile isIdentifierPart)
  else
    match punctuators.find? (·.isPrefixOf (c :: rest)) with
    | some text => (some (.punctuator text), (c :: rest).drop text.length)
    | none => (none, rest)

/-- One round of the loop, at the character `c`: the token that it adds, if any, and what is left
of the text. -/
def lexToken (strtod : Bytes → Number × ℕ) (previous : Option Token) (c : Byte) (rest : Bytes) :
    Option Token × Bytes :=
  if isSpace c then (none, rest)
  else if c = chr '/' ∧ rest.head? = some (chr '/') then (none, rest.dropWhile (· ≠ chr '\n'))
  else if c = chr '/' ∧ rest.head? = some (chr '*') then (none, blockEnd rest.tail)
  else
    match opensRegex previous c rest with
    | some (text, after) =>
      (some (.regex text (after.takeWhile isAlpha)), after.dropWhile isAlpha)
    | none => lexWord strtod c rest

/-! ## The loop goes on -/

theorem length_numberRun (afterE : Bool) (text : Bytes) :
    (numberRun afterE text).2.length ≤ text.length := by
  induction text generalizing afterE with
  | nil => exact Nat.le_refl _
  | cons c rest ih =>
    rw [numberRun]
    split
    · exact Nat.le_refl _
    · split
      · exact Nat.le_refl _
      · exact Nat.le_succ_of_le (ih _)

theorem length_quoted (quote : Byte) :
    ∀ text : Bytes, (quoted quote text).2.length ≤ text.length
  | [] => Nat.le_refl _
  | [c] => by
    rw [quoted]
    split <;> exact Nat.zero_le _
  | c :: d :: rest => by
    have hskip := length_quoted quote rest
    have hnext := length_quoted quote (d :: rest)
    rw [quoted]
    simp only [List.length_cons] at hnext ⊢
    split
    · exact Nat.le_succ _
    · split
      · exact hskip.trans (by omega)
      · exact hnext.trans (by omega)

theorem length_regexBody :
    ∀ {inClass : Bool} {text : Bytes} {p : Bytes × Bytes},
      regexBody inClass text = some p → p.2.length ≤ text.length
  | _, [], _, h => nomatch h
  | _, [c], p, h => by
    rw [regexBody] at h
    split at h
    · obtain rfl := Option.some.inj h
      exact Nat.zero_le _
    · cases h
  | inClass, c :: d :: rest, p, h => by
    rw [regexBody] at h
    simp only [List.length_cons]
    split at h
    · obtain ⟨q, hq, rfl⟩ := Option.map_eq_some_iff.mp h
      exact (length_regexBody hq).trans (by omega)
    · split at h
      · obtain ⟨q, hq, rfl⟩ := Option.map_eq_some_iff.mp h
        exact (length_regexBody hq).trans (Nat.le_succ _)
      · split at h
        · obtain ⟨q, hq, rfl⟩ := Option.map_eq_some_iff.mp h
          exact (length_regexBody hq).trans (Nat.le_succ _)
        · split at h
          · obtain rfl := Option.some.inj h
            exact Nat.le_succ _
          · obtain ⟨q, hq, rfl⟩ := Option.map_eq_some_iff.mp h
            exact (length_regexBody hq).trans (Nat.le_succ _)

theorem length_blockEnd : ∀ text : Bytes, (blockEnd text).length ≤ text.length
  | [] => Nat.le_refl _
  | [_] => Nat.zero_le _
  | c :: d :: rest => by
    have hnext := length_blockEnd (d :: rest)
    rw [blockEnd]
    simp only [List.length_cons] at hnext ⊢
    split
    · omega
    · omega

theorem isNumberPart_of_begins :
    ∀ c : Byte, isDigit c = true ∨ c = chr '.' →
      isNumberPart c = true ∧ (c == chr '+' || c == chr '-') = false :=
  forall_byte (by decide)

/-- A number that begins takes its first character. -/
theorem numberRun_cons {c : Byte} (h : isDigit c = true ∨ c = chr '.') (afterE : Bool)
    (rest : Bytes) :
    numberRun afterE (c :: rest) =
      (c :: (numberRun (c == chr 'e' || c == chr 'E') rest).1,
        (numberRun (c == chr 'e' || c == chr 'E') rest).2) := by
  obtain ⟨hpart, hsign⟩ := isNumberPart_of_begins c h
  rw [numberRun, hpart, hsign]
  rfl

theorem isIdentifierPart_of_start :
    ∀ c : Byte, isIdentifierStart c = true → isIdentifierPart c = true :=
  forall_byte (by decide)

theorem length_pos_of_mem_punctuators : ∀ text ∈ punctuators, 0 < text.length := by
  decide

theorem length_dropWhile_le (p : Byte → Bool) (text : Bytes) :
    (text.dropWhile p).length ≤ text.length :=
  (List.dropWhile_sublist p).length_le

theorem length_lexWord_le (strtod : Bytes → Number × ℕ) (c : Byte) (rest : Bytes) :
    (lexWord strtod c rest).2.length ≤ rest.length := by
  unfold lexWord
  split
  next hnumber =>
    have hbegins : isDigit c = true ∨ c = chr '.' := by
      simp only [Bool.or_eq_true, Bool.and_eq_true, beq_iff_eq] at hnumber
      exact hnumber.imp_right And.left
    rw [numberRun_cons hbegins]
    exact length_numberRun _ rest
  next =>
    split
    · exact length_quoted c rest
    · split
      next hstart =>
        dsimp only
        rw [List.dropWhile_cons_of_pos (isIdentifierPart_of_start c hstart)]
        exact length_dropWhile_le _ _
      next =>
        split
        next text htext =>
          have hpos := length_pos_of_mem_punctuators text (List.mem_of_find?_eq_some htext)
          rw [List.length_drop, List.length_cons]
          omega
        next => exact Nat.le_refl _

/-- A round takes something off the text. -/
theorem length_lexToken_lt (strtod : Bytes → Number × ℕ) (previous : Option Token) (c : Byte)
    (rest : Bytes) : (lexToken strtod previous c rest).2.length < (c :: rest).length := by
  rw [List.length_cons, Nat.lt_succ_iff]
  unfold lexToken
  split
  · exact Nat.le_refl _
  · split
    · exact length_dropWhile_le _ _
    · split
      · exact (length_blockEnd _).trans (by simp)
      · split
        next text after hregex =>
          rw [opensRegex] at hregex
          split at hregex
          · exact (length_dropWhile_le _ _).trans (length_regexBody hregex)
          · cases hregex
        next => exact length_lexWord_le strtod c rest

section

variable (strtod : Bytes → Number × ℕ)

/-- The loop of `tokenize`; `previous` is the last of the tokens so far. -/
def tokenizeFrom (previous : Option Token) : Bytes → List Token
  | [] => [.endOfInput]
  | c :: rest =>
    let round := lexToken strtod previous c rest
    match round.1 with
    | some token => token :: tokenizeFrom (some token) round.2
    | none => tokenizeFrom previous round.2
termination_by text => text.length
decreasing_by
  all_goals exact length_lexToken_lt strtod previous c rest

/-- `tokenize` -/
def tokenize (source : Bytes) : List Token := tokenizeFrom strtod none source

variable {strtod} {previous : Option Token} {c : Byte} {rest after : Bytes}

theorem tokenizeFrom_of_some {token : Token}
    (h : lexToken strtod previous c rest = (some token, after)) :
    tokenizeFrom strtod previous (c :: rest) = token :: tokenizeFrom strtod (some token) after := by
  rw [tokenizeFrom, h]

theorem tokenizeFrom_of_none (h : lexToken strtod previous c rest = (none, after)) :
    tokenizeFrom strtod previous (c :: rest) = tokenizeFrom strtod previous after := by
  rw [tokenizeFrom, h]

/-- A space is skipped. -/
theorem tokenizeFrom_space :
    tokenizeFrom strtod previous (chr ' ' :: rest) = tokenizeFrom strtod previous rest :=
  tokenizeFrom_of_none (if_pos (by decide))

end

end Aetheris.Js
