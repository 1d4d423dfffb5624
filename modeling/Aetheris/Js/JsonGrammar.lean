import Aetheris.Js.JsonRoundTrip

/-!
# The grammar of JSON

RFC 8259 next to the wider grammar that `JsonParser` reads.  Both have the same rules for arrays and
objects; they differ in what a space, a number and a string is, in whether an array or an object may
be cut off by the end of the text, and in what may stand behind the value.  So the rules are stated
once, over a `Lexis` with what the two differ in.
-/

namespace Aetheris.Js

/-! ## The rules -/

/-- A value as it is written: its strings are not decoded. -/
inductive Raw
  | null
  | boolean (value : Bool)
  | number (value : Number)
  | string (body : Bytes)
  | array (elements : List Raw)
  | object (members : List (Bytes × Raw))

namespace Raw

variable (decode : Bytes → Bytes)

mutual

/-- The value that is denoted, where strings are decoded in this way. -/
def value : Raw → ValueTree
  | null => .null
  | boolean value => .boolean value
  | number value => .number value
  | string body => .string (decode body)
  | array elements => .array (values elements)
  | object members => .object (properties [] members)

/-- The values of the elements. -/
def values : List Raw → List ValueTree
  | [] => []
  | x :: xs => x.value :: values xs

/-- The properties of an object, on top of those found so far: of several members of one name the
last one counts. -/
def properties (found : List (Bytes × ValueTree)) :
    List (Bytes × Raw) → List (Bytes × ValueTree)
  | [] => found
  | (key, x) :: members => properties (setProperty (decode key) x.value found) members

end

theorem value_ne_undefined (x : Raw) : x.value decode ≠ .undefined := by
  cases x <;> exact nofun

end Raw

/-- What a grammar says about the characters: the spaces, the numbers and the strings (behind their
opening quote) at the beginning of a text, with what they leave of it; whether an array or an object
may be cut off; and what may stand behind a value. -/
structure Lexis where
  space : Byte → Bool
  number : Bytes → Number → Bytes → Prop
  string : Bytes → Bytes → Bytes → Prop
  cut : Prop
  behind : Bytes → Prop

namespace Lexis

variable (L : Lexis)

/-- The spaces at the beginning are left out. -/
def skip (s : Bytes) : Bytes := s.dropWhile L.space

mutual

/-- A value stands at the beginning of a text, and leaves the rest of it. -/
inductive Value : Bytes → Raw → Bytes → Prop
  | null (rest : Bytes) : Value (lit "null" ++ rest) .null rest
  | boolean_true (rest : Bytes) : Value (lit "true" ++ rest) (.boolean true) rest
  | boolean_false (rest : Bytes) : Value (lit "false" ++ rest) (.boolean false) rest
  | number {s rest : Bytes} {n : Number} (h : L.number s n rest) : Value s (.number n) rest
  | string {s body rest : Bytes} (h : L.string s body rest) :
    Value (chr '"' :: s) (.string body) rest
  | array_empty {s rest : Bytes} (h : L.skip s = chr ']' :: rest) :
    Value (chr '[' :: s) (.array []) rest
  | array_cut {s : Bytes} (hcut : L.cut) (h : L.skip s = []) : Value (chr '[' :: s) (.array []) []
  | array {s rest : Bytes} {xs : List Raw} (hopen : (L.skip s).head? ≠ some (chr ']'))
    (h : Elements (L.skip s) xs rest) : Value (chr '[' :: s) (.array xs) rest
  | object_empty {s rest : Bytes} (h : L.skip s = chr '}' :: rest) :
    Value (chr '{' :: s) (.object []) rest
  | object_cut {s : Bytes} (hcut : L.cut) (h : L.skip s = []) :
    Value (chr '{' :: s) (.object []) []
  | object {s rest : Bytes} {xs : List (Bytes × Raw)} (h : Members (L.skip s) xs rest) :
    Value (chr '{' :: s) (.object xs) rest

/-- The elements of an array, up to its closing bracket. -/
inductive Elements : Bytes → List Raw → Bytes → Prop
  | last {s s' rest : Bytes} {x : Raw} (hx : Value (L.skip s) x s')
    (h : L.skip s' = chr ']' :: rest) : Elements s [x] rest
  | cut {s s' : Bytes} {x : Raw} (hcut : L.cut) (hx : Value (L.skip s) x s')
    (h : L.skip s' = [chr ',']) : Elements s [x] []
  | cons {s s' t rest : Bytes} {x : Raw} {xs : List Raw} (hx : Value (L.skip s) x s')
    (h : L.skip s' = chr ',' :: t) (hxs : Elements t xs rest) : Elements s (x :: xs) rest

/-- One member of an object. -/
inductive Member : Bytes → Bytes × Raw → Bytes → Prop
  | mk {s t key t' u rest : Bytes} {x : Raw} (hquote : L.skip s = chr '"' :: t)
    (hkey : L.string t key t') (hcolon : L.skip t' = chr ':' :: u)
    (hx : Value (L.skip u) x rest) : Member s (key, x) rest

/-- The members of an object, up to its closing brace. -/
inductive Members : Bytes → List (Bytes × Raw) → Bytes → Prop
  | last {s s' rest : Bytes} {p : Bytes × Raw} (hp : Member s p s')
    (h : L.skip s' = chr '}' :: rest) : Members s [p] rest
  | cut {s s' : Bytes} {p : Bytes × Raw} (hcut : L.cut) (hp : Member s p s')
    (h : L.skip s' = [chr ',']) : Members s [p] []
  | cons {s s' t rest : Bytes} {p : Bytes × Raw} {ps : List (Bytes × Raw)} (hp : Member s p s')
    (h : L.skip s' = chr ',' :: t) (hps : Members t ps rest) : Members s (p :: ps) rest

end

/-- The text is this value, with spaces before it. -/
def Text (text : Bytes) (x : Raw) : Prop :=
  ∃ rest, L.Value (L.skip text) x rest ∧ L.behind rest

end Lexis

/-! ## RFC 8259 -/

/-- `ws` -/
def isJsonSpace (c : Byte) : Bool := c == 0x20 || c == 0x09 || c == 0x0a || c == 0x0d

/-- `number = [ minus ] int [ frac ] [ exp ]`; the sign of an exponent is empty, `+` or `-`. -/
structure JsonNumber where
  negative : Bool
  int : Bytes
  frac : Option Bytes
  exp : Option (Byte × Bytes × Bytes)
  int_ne_nil : int ≠ []
  int_digits : ∀ c ∈ int, isDigit c = true
  int_zero : int.head? = some (chr '0') → int = [chr '0']
  frac_digits : ∀ digits ∈ frac, digits ≠ [] ∧ ∀ c ∈ digits, isDigit c = true
  exp_digits : ∀ e ∈ exp, (e.1 = chr 'e' ∨ e.1 = chr 'E') ∧ e.2.1 ∈ [[], lit "+", lit "-"] ∧
    e.2.2 ≠ [] ∧ ∀ c ∈ e.2.2, isDigit c = true

namespace JsonNumber

variable (n : JsonNumber)

/-- The fraction, as it is written. -/
def fracText : Bytes :=
  match n.frac with
  | none => []
  | some digits => chr '.' :: digits

/-- The exponent, as it is written. -/
def expText : Bytes :=
  match n.exp with
  | none => []
  | some (e, sign, digits) => e :: (sign ++ digits)

/-- The number, as it is written. -/
def text : Bytes := (if n.negative then [chr '-'] else []) ++ (n.int ++ (n.fracText ++ n.expText))

end JsonNumber

/-- The number that these parts of it denote. -/
def decimalValue (negative : Bool) (int frac : Bytes) (negativeExp : Bool) (exp : Bytes) : ℚ :=
  (if negative then -1 else 1) * (ofDigits int + ofDigits frac / 10 ^ frac.length) *
    10 ^ (if negativeExp then -(ofDigits exp : ℤ) else ofDigits exp)

/-- The number that is denoted. -/
def JsonNumber.value (n : JsonNumber) : ℚ :=
  decimalValue n.negative n.int (n.frac.getD [])
    ((n.exp.map fun e => e.2.1).getD [] == lit "-") ((n.exp.map fun e => e.2.2).getD [])

/-- `HEXDIG`, and its value. -/
def hexDigit (c : Byte) : Option ℕ :=
  if isDigit c then some (c.toNat - 0x30)
  else if 0x41 ≤ c && c ≤ 0x46 then some (c.toNat - 0x41 + 10)
  else if 0x61 ≤ c && c ≤ 0x66 then some (c.toNat - 0x61 + 10)
  else none

/-- `4HEXDIG`, and its value. -/
def hexValue (a b c d : Byte) : Option ℕ := do
  return ((← hexDigit a) * 16 + (← hexDigit b)) * 256 + ((← hexDigit c) * 16 + (← hexDigit d))

/-- The bytes of a code point in UTF-8.  A surrogate without its partner, which has none, is
encoded in the same way. -/
def utf8 (n : ℕ) : Bytes :=
  if n < 0x80 then [UInt8.ofNat n]
  else if n < 0x800 then [UInt8.ofNat (0xc0 + n / 0x40), UInt8.ofNat (0x80 + n % 0x40)]
  else if n < 0x10000 then
    [UInt8.ofNat (0xe0 + n / 0x1000), UInt8.ofNat (0x80 + n / 0x40 % 0x40),
      UInt8.ofNat (0x80 + n % 0x40)]
  else
    [UInt8.ofNat (0xf0 + n / 0x40000), UInt8.ofNat (0x80 + n / 0x1000 % 0x40),
      UInt8.ofNat (0x80 + n / 0x40 % 0x40), UInt8.ofNat (0x80 + n % 0x40)]

/-- `*char`: what stands between the quotes of a string, in UTF-8. -/
inductive JsonBody : Bytes → Prop
  | nil : JsonBody []
  | unescaped {rest : Bytes} (c : Char) (hcontrol : 0x20 ≤ c.toNat) (hquote : c ≠ '"')
    (hslash : c ≠ '\\') (h : JsonBody rest) : JsonBody (utf8 c.toNat ++ rest)
  | escape {rest : Bytes} {c : Byte} (hc : c ∈ lit "\"\\/bfnrt") (h : JsonBody rest) :
    JsonBody (chr '\\' :: c :: rest)
  | unicode {rest : Bytes} {a b c d : Byte} (hhex : (hexValue a b c d).isSome)
    (h : JsonBody rest) : JsonBody (chr '\\' :: chr 'u' :: a :: b :: c :: d :: rest)

/-- The character that an escape of one character stands for. -/
def simpleEscape (c : Byte) : Byte :=
  if c = chr 'b' then 0x08
  else if c = chr 'f' then 0x0c
  else if c = chr 'n' then 0x0a
  else if c = chr 'r' then 0x0d
  else if c = chr 't' then 0x09
  else c

/-- The string that is denoted, in UTF-8; two escapes of a surrogate pair are one character. -/
def decode : Bytes → Bytes
  | 0x5c :: 0x75 :: a :: b :: c :: d :: 0x5c :: 0x75 :: a' :: b' :: c' :: d' :: rest =>
    let high := (hexValue a b c d).getD 0
    let low := (hexValue a' b' c' d').getD 0
    if 0xd800 ≤ high ∧ high < 0xdc00 ∧ 0xdc00 ≤ low ∧ low < 0xe000 then
      utf8 (0x10000 + (high - 0xd800) * 0x400 + (low - 0xdc00)) ++ decode rest
    else utf8 high ++ decode (0x5c :: 0x75 :: a' :: b' :: c' :: d' :: rest)
  | 0x5c :: 0x75 :: a :: b :: c :: d :: rest => utf8 ((hexValue a b c d).getD 0) ++ decode rest
  | 0x5c :: c :: rest => simpleEscape c :: decode rest
  | c :: rest => c :: decode rest
  | [] => []

/-- What may stand behind a number. -/
def Follows (rest : Bytes) : Prop :=
  ∀ c ∈ rest.head?, isJsonSpace c = true ∨ c ∈ lit ",]\x7d"

/-- JSON, where `round` gives the `double` of a number. -/
def rfc8259 (round : ℚ → Number) : Lexis where
  space := isJsonSpace
  number s n rest := ∃ j : JsonNumber, s = j.text ++ rest ∧ Follows rest ∧ n = round j.value
  string s body rest := JsonBody body ∧ s = body ++ chr '"' :: rest
  cut := False
  behind rest := rest.dropWhile isJsonSpace = []

/-- The value of a text that is JSON. -/
def IsJson (round : ℚ → Number) (text : Bytes) (value : ValueTree) : Prop :=
  ∃ x, (rfc8259 round).Text text x ∧ x.value decode = value

/-! ## The grammar of the parser -/

/-- There is no quote but behind a backslash, and no single backslash at the end. -/
inductive Unquoted : Bytes → Prop
  | nil : Unquoted []
  | escape {rest : Bytes} (c : Byte) (h : Unquoted rest) : Unquoted (chr '\\' :: c :: rest)
  | plain {rest : Bytes} {c : Byte} (hquote : c ≠ chr '"') (hslash : c ≠ chr '\\')
    (h : Unquoted rest) : Unquoted (c :: rest)

/-- A string without its backslashes: what stands behind one is `n`, `t` or `r`, or else means
itself. -/
def dropBackslashes : Bytes → Bytes
  | [] => []
  | [c] => [c]
  | c :: d :: rest =>
    if c = chr '\\' then unescape d :: dropBackslashes rest else c :: dropBackslashes (d :: rest)

/-- The grammar of the parser: white space is that of `isspace`, a number is what `strtod` takes, a
string is anything up to a quote or to the end of the text, arrays and objects may end behind a
bracket or a comma where the text ends, and anything may stand behind the value. -/
def lenient (strtod : Bytes → Number × ℕ) : Lexis where
  space := isSpace
  number s n rest := (∃ c ∈ s.head?, c ∉ lit "\x7b[\"tfn") ∧
    ∃ count, strtod s = (n, count) ∧ count ≠ 0 ∧ rest = s.drop count
  string s body rest :=
    (Unquoted body ∧ s = body ++ chr '"' :: rest) ∨
      (s = body ∧ rest = [] ∧
        (Unquoted body ∨ ∃ front, Unquoted front ∧ body = front ++ [chr '\\']))
  cut := True
  behind _ := True

end Aetheris.Js
