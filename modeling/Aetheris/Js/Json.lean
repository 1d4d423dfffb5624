import Aetheris.Js.Value

/-!
# JSON

`JSON.stringify` and `JSON.parse` of `js.cpp`.  The parser keeps its place in the text and a flag
that says whether all went well so far; a failure deep inside does not stop the loops around it, and
the native function looks at the flag but not at what is left of the text.
-/

namespace Aetheris.Js

/-! ## Writing -/

/-- `json_escape` for one character. -/
def escapeChar (c : Byte) : Bytes :=
  if c = chr '"' then [chr '\\', chr '"']
  else if c = chr '\\' then [chr '\\', chr '\\']
  else if c = chr '\n' then [chr '\\', chr 'n']
  else if c = chr '\t' then [chr '\\', chr 't']
  else if c = chr '\r' then [chr '\\', chr 'r']
  else [c]

/-- `json_escape`. -/
def jsonEscape (value : Bytes) : Bytes :=
  chr '"' :: (value.flatMap escapeChar ++ [chr '"'])

mutual

/-- `json_write`. -/
def jsonWrite : ValueTree → Bytes
  | .undefined => lit "null"
  | .null => lit "null"
  | .boolean value => if value then lit "true" else lit "false"
  | .number value => numberToString value
  | .string value => jsonEscape value
  | .function => lit "null"
  | .array elements => chr '[' :: (writeElements true elements ++ [chr ']'])
  | .object properties => chr '{' :: (writeProperties true properties ++ [chr '}'])

/-- The loop of `json_write` over the elements; `first` is its `i == 0`. -/
def writeElements (first : Bool) : List ValueTree → Bytes
  | [] => []
  | element :: rest =>
    (if first then [] else [chr ',']) ++ jsonWrite element ++ writeElements false rest

/-- The loop of `json_write` over the properties. -/
def writeProperties (first : Bool) : List (Bytes × ValueTree) → Bytes
  | [] => []
  | (key, property) :: rest =>
    if property.isFunction then writeProperties first rest
    else
      (if first then [] else [chr ',']) ++ jsonEscape key ++ chr ':' :: jsonWrite property ++
        writeProperties false rest

end

/-! ## Parsing -/

/-- `JsonParser`, without the text that it reads. -/
structure JsonParser where
  pos : ℕ := 0
  ok : Bool := true
  deriving DecidableEq, Repr

namespace JsonParser

/-- `ok = false`. -/
def fail (parser : JsonParser) : JsonParser := { parser with ok := false }

/-- `pos += count`. -/
def advance (parser : JsonParser) (count : ℕ) : JsonParser :=
  { parser with pos := parser.pos + count }

@[simp] theorem pos_fail (parser : JsonParser) : parser.fail.pos = parser.pos := rfl

@[simp] theorem pos_advance (parser : JsonParser) (count : ℕ) :
    (parser.advance count).pos = parser.pos + count := rfl

@[simp] theorem advance_zero (parser : JsonParser) : parser.advance 0 = parser := rfl

@[simp] theorem advance_advance (parser : JsonParser) (m n : ℕ) :
    (parser.advance m).advance n = parser.advance (m + n) := by
  simp [advance, Nat.add_assoc]

end JsonParser

/-- `object->properties[key] = value`, in the order of `std::map`. -/
def setProperty (key : Bytes) (value : ValueTree) :
    List (Bytes × ValueTree) → List (Bytes × ValueTree)
  | [] => [(key, value)]
  | (other, property) :: rest =>
    if key < other then (key, value) :: (other, property) :: rest
    else if other < key then (other, property) :: setProperty key value rest
    else (other, value) :: rest

/-- The `switch` of `parse_string` over the character behind a backslash. -/
def unescape (c : Byte) : Byte :=
  if c = chr 'n' then chr '\n'
  else if c = chr 't' then chr '\t'
  else if c = chr 'r' then chr '\r'
  else c

/-- The loop of `parse_string` over what stands behind the opening quote: the string, and how
many characters it takes. -/
def stringBody : Bytes → Bytes × ℕ
  | [] => ([], 0)
  | [c] => if c = chr '"' then ([], 0) else ([c], 1)
  | c :: d :: rest =>
    if c = chr '"' then ([], 0)
    else if c = chr '\\' then
      let (result, count) := stringBody rest
      (unescape d :: result, count + 2)
    else
      let (result, count) := stringBody (d :: rest)
      (c :: result, count + 1)

section

variable (strtod : Bytes → Number × ℕ) (text : Bytes)

/-- `skip`. -/
def JsonParser.skip (parser : JsonParser) : JsonParser :=
  parser.advance ((text.drop parser.pos).takeWhile isSpace).length

/-- `parse_string`.  Without a closing quote the place is one behind the end of the text. -/
def parseString (parser : JsonParser) : Bytes × JsonParser :=
  let (result, count) := stringBody (text.drop (parser.pos + 1))
  (result, parser.advance (count + 2))

/-- The comparison of `parse` with one of the three words. -/
def parseWord (word : Bytes) (value : ValueTree) (parser : JsonParser) : ValueTree × JsonParser :=
  if (text.drop parser.pos).take word.length = word then (value, parser.advance word.length)
  else (.undefined, parser.fail)

/-- The end of `parse`: what `strtod` makes of the text, and how far it reads. -/
def parseNumber (parser : JsonParser) : ValueTree × JsonParser :=
  let (number, count) := strtod (text.drop parser.pos)
  if count = 0 then (.undefined, parser.fail) else (.number number, parser.advance count)

@[simp] theorem le_pos_skip (parser : JsonParser) : parser.pos ≤ (parser.skip text).pos :=
  Nat.le_add_right _ _

theorem lt_pos_parseString (parser : JsonParser) :
    parser.pos < (parseString text parser).2.pos := by
  simp only [parseString, JsonParser.pos_advance]
  omega

/-- The colon of a property stands behind the place where its key is looked for. -/
theorem le_pos_colon (parser : JsonParser) :
    parser.pos ≤ ((parseString text (parser.skip text)).2.skip text).pos :=
  (le_pos_skip text parser).trans
    ((lt_pos_parseString text _).le.trans (le_pos_skip text _))

omit strtod in
/-- One character less is left behind a place further on. -/
theorem length_sub_lt {a b : ℕ} (ha : a < text.length) (hab : a ≤ b) :
    text.length - (b + 1) < text.length - a := by
  omega

omit text in
theorem measure_lt {m n k l : ℕ} (hk : k < 4) (h : m < n) : 4 * m + k < 4 * n + l := by
  omega

mutual

/-- `parse`. -/
def parse (parser : JsonParser) : ValueTree × JsonParser :=
  let start := parser.skip text
  if h : start.pos < text.length then
    let c := text[start.pos]
    if c = chr '{' then parseObject start h
    else if c = chr '[' then parseArray start h
    else if c = chr '"' then
      let (value, next) := parseString text start
      (.string value, next)
    else if c = chr 't' then parseWord text (lit "true") (.boolean true) start
    else if c = chr 'f' then parseWord text (lit "false") (.boolean false) start
    else if c = chr 'n' then parseWord text (lit "null") .null start
    else parseNumber strtod text start
  else (.undefined, start.fail)
termination_by 4 * (text.length - parser.pos) + 2
decreasing_by
  all_goals
    have := le_pos_skip text parser
    omega

/-- `parse_object`, at its opening brace. -/
def parseObject (parser : JsonParser) (_h : parser.pos < text.length) : ValueTree × JsonParser :=
  let start := (parser.advance 1).skip text
  if text[start.pos]? = some (chr '}') then (.object [], start.advance 1)
  else
    let (properties, next) := objectLoop [] start
    (.object properties, next)
termination_by 4 * (text.length - parser.pos) + 1
decreasing_by
  have := le_pos_skip text (parser.advance 1)
  simp_all
  omega

/-- The loop of `parse_object`. -/
def objectLoop (properties : List (Bytes × ValueTree)) (parser : JsonParser) :
    List (Bytes × ValueTree) × JsonParser :=
  if parser.pos < text.length then
    let start := parser.skip text
    if text[start.pos]? = some (chr '"') then
      let quoted := parseString text start
      let colon := quoted.2.skip text
      if text[colon.pos]? = some (chr ':') then
        let inner := parse (colon.advance 1)
        -- holds whenever it is asked: `parse` never goes back (`le_pos_parse`)
        if colon.pos < inner.2.pos then
          let found := setProperty quoted.1 inner.1 properties
          let next := inner.2.skip text
          if text[next.pos]? = some (chr ',') then objectLoop found (next.advance 1)
          else if text[next.pos]? = some (chr '}') then (found, next.advance 1)
          else (found, next.fail)
        else (properties, colon)
      else (properties, colon.fail)
    else (properties, start.fail)
  else (properties, parser)
termination_by 4 * (text.length - parser.pos) + 0
decreasing_by
  · exact measure_lt (by decide) (length_sub_lt text ‹_› (le_pos_colon text parser))
  · exact measure_lt (by decide) (length_sub_lt text ‹_› ((le_pos_colon text parser).trans
      ((Nat.le_of_lt ‹_›).trans (le_pos_skip text _))))

/-- `parse_array`, at its opening bracket. -/
def parseArray (parser : JsonParser) (_h : parser.pos < text.length) : ValueTree × JsonParser :=
  let start := (parser.advance 1).skip text
  if text[start.pos]? = some (chr ']') then (.array [], start.advance 1)
  else
    let (elements, next) := arrayLoop start
    (.array elements, next)
termination_by 4 * (text.length - parser.pos) + 1
decreasing_by
  have := le_pos_skip text (parser.advance 1)
  simp_all
  omega

/-- The loop of `parse_array`. -/
def arrayLoop (parser : JsonParser) : List ValueTree × JsonParser :=
  if parser.pos < text.length then
    let inner := parse parser
    -- holds whenever it is asked: `parse` never goes back (`le_pos_parse`)
    if parser.pos ≤ inner.2.pos then
      let next := inner.2.skip text
      if text[next.pos]? = some (chr ',') then
        let (elements, last) := arrayLoop (next.advance 1)
        (inner.1 :: elements, last)
      else if text[next.pos]? = some (chr ']') then ([inner.1], next.advance 1)
      else ([inner.1], next.fail)
    else ([], parser)
  else ([], parser)
termination_by 4 * (text.length - parser.pos) + 3
decreasing_by
  · exact Nat.lt_succ_self _
  · exact measure_lt (by decide) (length_sub_lt text ‹_› (Nat.le_trans ‹_› (le_pos_skip text _)))

end

/-! The parser never goes back. -/

omit strtod in
theorem le_pos_parseWord (word : Bytes) (value : ValueTree) (parser : JsonParser) :
    parser.pos ≤ (parseWord text word value parser).2.pos := by
  unfold parseWord
  split
  · simp
  · simp

theorem le_pos_parseNumber (parser : JsonParser) :
    parser.pos ≤ (parseNumber strtod text parser).2.pos := by
  simp only [parseNumber]
  split
  · simp
  · simp

theorem le_pos_objectLoop (properties : List (Bytes × ValueTree)) (parser : JsonParser) :
    parser.pos ≤ (objectLoop strtod text properties parser).2.pos := by
  have hstart := le_pos_skip text parser
  have hcolon := le_pos_colon text parser
  rw [objectLoop]
  simp only
  split
  next hpos =>
    split
    · split
      · split
        next hinner =>
          have hnext := le_pos_skip text
            (parse strtod text
              (((parseString text (parser.skip text)).2.skip text).advance 1)).2
          split
          · refine le_trans ?_ (le_pos_objectLoop _ _)
            rw [JsonParser.pos_advance]
            omega
          · split
            · rw [JsonParser.pos_advance]
              omega
            · rw [JsonParser.pos_fail]
              omega
        next => exact hcolon
      · exact hcolon
    · exact hstart
  next => exact le_refl _
termination_by text.length - parser.pos
decreasing_by
  exact length_sub_lt text ‹_› (by omega)

theorem le_pos_arrayLoop (parser : JsonParser) :
    parser.pos ≤ (arrayLoop strtod text parser).2.pos := by
  rw [arrayLoop]
  simp only
  split
  next hpos =>
    split
    next hinner =>
      have hnext := le_pos_skip text (parse strtod text parser).2
      split
      · refine le_trans ?_ (le_pos_arrayLoop _)
        rw [JsonParser.pos_advance]
        omega
      · split
        · rw [JsonParser.pos_advance]
          omega
        · rw [JsonParser.pos_fail]
          omega
    next => exact le_refl _
  next => exact le_refl _
termination_by text.length - parser.pos
decreasing_by
  exact length_sub_lt text ‹_› (by omega)

theorem le_pos_parseObject (parser : JsonParser) (h : parser.pos < text.length) :
    parser.pos ≤ (parseObject strtod text parser h).2.pos := by
  have hstart := le_pos_skip text (parser.advance 1)
  rw [JsonParser.pos_advance] at hstart
  rw [parseObject]
  simp only
  split
  · rw [JsonParser.pos_advance]
    omega
  · exact (Nat.le_of_succ_le hstart).trans (le_pos_objectLoop strtod text [] _)

theorem le_pos_parseArray (parser : JsonParser) (h : parser.pos < text.length) :
    parser.pos ≤ (parseArray strtod text parser h).2.pos := by
  have hstart := le_pos_skip text (parser.advance 1)
  rw [JsonParser.pos_advance] at hstart
  rw [parseArray]
  simp only
  split
  · rw [JsonParser.pos_advance]
    omega
  · exact (Nat.le_of_succ_le hstart).trans (le_pos_arrayLoop strtod text _)

/-- The check in the two loops always succeeds. -/
theorem le_pos_parse (parser : JsonParser) :
    parser.pos ≤ (parse strtod text parser).2.pos := by
  have hstart := le_pos_skip text parser
  rw [parse]
  simp only
  split
  next h =>
    split
    · exact hstart.trans (le_pos_parseObject strtod text (parser.skip text) h)
    · split
      · exact hstart.trans (le_pos_parseArray strtod text (parser.skip text) h)
      · split
        · exact hstart.trans (lt_pos_parseString text (parser.skip text)).le
        · split
          · exact hstart.trans (le_pos_parseWord text _ _ _)
          · split
            · exact hstart.trans (le_pos_parseWord text _ _ _)
            · split
              · exact hstart.trans (le_pos_parseWord text _ _ _)
              · exact hstart.trans (le_pos_parseNumber strtod text _)
  next => exact hstart

end

/-! ## The native functions -/

/-- `JSON.stringify`. -/
def jsonStringify (args : List ValueTree) : ValueTree :=
  .string (jsonWrite (args.headD .undefined))

/-- `JSON.parse`. -/
def jsonParse (strtod : Bytes → Number × ℕ) : List ValueTree → ValueTree
  | [] => .undefined
  | argument :: _ =>
    let (value, parser) := parse strtod argument.toText {}
    if parser.ok then value else .undefined

end Aetheris.Js
