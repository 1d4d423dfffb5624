import Aetheris.FromChars

/-!
# Lengths

The code computes lengths with `float`.  Its definitions are written once, over a type with the
operations they use and with no law but `0 ≤ 0`, so that what is shown holds of `float` with its
rounding, its infinities and its NaN; the rational numbers are one such type, and `std::strtof` is
written for them.
-/

namespace Aetheris.Layout

/-- The operations on lengths.  `ofRat` is the `float` nearest to a number, and `strtof` the number
at the start of a text and what follows it, or nothing if there is no number. -/
class Length (F : Type) extends Zero F, Neg F, Add F, Sub F, Mul F, Div F, LT F, LE F where
  decidableLT : DecidableLT F
  decidableLE : DecidableLE F
  zero_le_zero : (0 : F) ≤ 0
  ofRat : ℚ → F
  round : F → F
  strtof : Bytes → Option (F × Bytes)

section Operations

variable {F : Type} [Length F]

instance instDecidableLT : DecidableLT F := Length.decidableLT

instance instDecidableLE : DecidableLE F := Length.decidableLE

/-- `std::max`. -/
def fmax (a b : F) : F := if a < b then b else a

/-- `std::min`. -/
def fmin (a b : F) : F := if b < a then b else a

/-- `std::clamp`; when the bounds are crossed, the upper one wins over what lies above it. -/
def clamp (value low high : F) : F :=
  if value < low then low else if high < value then high else value

/-- `number` of the painter and `num` of the font: the number in front of a text. -/
def numberOr (value : Option Bytes) (fallback : F) : F :=
  match value with
  | none => fallback
  | some value => (Length.strtof value).elim fallback Prod.fst

end Operations

/-! ## Rational lengths -/

/-- A sign, and what follows it. -/
def readSign (text : Bytes) : Bool × Bytes :=
  if text.head? = some (chr '-') then (true, text.tail)
  else (false, if text.head? = some (chr '+') then text.tail else text)

/-- Digits with a point among them: their value, and what follows them. -/
def readMantissa (base : ℕ) (text : Bytes) : Option (ℚ × Bytes) :=
  let whole := leadingDigits base text
  let rest := text.drop whole.length
  if rest.head? = some (chr '.') then
    let fraction := leadingDigits base rest.tail
    if whole = [] ∧ fraction = [] then none
    else some (numberOf base (whole ++ fraction) / base ^ fraction.length,
      rest.tail.drop fraction.length)
  else if whole = [] then none
  else some (numberOf base whole, rest)

/-- An exponent, if there is one, of the given scale. -/
def readExponent (mark : Char) (scale : ℕ) (number : ℚ × Bytes) : ℚ × Bytes :=
  if number.2.head?.map toLower = some (chr mark) then
    let (negative, rest) := readSign number.2.tail
    let digits := leadingDigits 10 rest
    if digits = [] then number
    else
      let power := (scale : ℚ) ^ numberOf 10 digits
      (if negative then number.1 / power else number.1 * power, rest.drop digits.length)
  else number

/-- `std::strtof` for rational numbers: there is no infinity and no NaN to be read. -/
def strtofRat (text : Bytes) : Option (ℚ × Bytes) :=
  let (negative, rest) := readSign (text.dropWhile isSpace)
  let hexadecimal :=
    if (rest.take 2).map toLower = lit "0x" then
      (readMantissa 16 (rest.drop 2)).map (readExponent 'p' 2)
    else none
  let number := hexadecimal.or ((readMantissa 10 rest).map (readExponent 'e' 10))
  number.map fun number => (if negative then -number.1 else number.1, number.2)

/-- Rounding to an integer, halves away from zero. -/
def roundRat (value : ℚ) : ℚ := if value < 0 then -⌊-value + 1 / 2⌋ else ⌊value + 1 / 2⌋

instance : Length ℚ where
  decidableLT := inferInstance
  decidableLE := inferInstance
  zero_le_zero := le_refl (0 : ℚ)
  ofRat := id
  round := roundRat
  strtof := strtofRat

theorem ofRat_rat (a : ℚ) : (Length.ofRat a : ℚ) = a := rfl

theorem fmax_rat (a b : ℚ) : fmax a b = max a b := by
  rw [fmax, max_def_lt]

theorem fmin_rat (a b : ℚ) : fmin a b = min a b := by
  rw [fmin, min_comm, min_def_lt]

example : strtofRat (lit " -1.25e1px") = some (-25 / 2, lit "px") := by decide +kernel

end Aetheris.Layout
