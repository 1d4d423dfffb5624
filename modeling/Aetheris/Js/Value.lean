import Aetheris.Bytes

/-!
# Script values

`Value` of `js.hpp` as far as it is a tree: objects are shared through pointers there, and a value
that a script has built without sharing and without cycles is one of these.  A number is printed in
one of the two formats of `std::ostringstream` that the engine uses, the digits of an integer or
those of `%g`.
-/

namespace Aetheris.Js

/-! ## Numbers -/

/-- A `double`: not a number, an infinity or a finite value.  The sign of a zero, which `==` does
not see and `number_to_string` does not print, is left out. -/
inductive Number
  | nan
  | infinity (negative : Bool)
  | finite (value : ℚ)
  deriving DecidableEq, Repr

/-- The character of a decimal digit. -/
def digitChar (d : ℕ) : Byte := UInt8.ofNat (0x30 + d)

/-- The decimal digits of a natural number, the first one first. -/
def natDecimal (n : ℕ) : Bytes :=
  if n < 10 then [digitChar n]
  else natDecimal (n / 10) ++ [digitChar (n % 10)]
termination_by n
decreasing_by omega

/-- `stream << static_cast<long long>(value)`. -/
def decimal (n : ℤ) : Bytes :=
  if n < 0 then chr '-' :: natDecimal n.natAbs else natDecimal n.natAbs

/-- The exponent of the first significant digit of a positive number. -/
def decimalExponent (value : ℚ) : ℤ :=
  if 1 ≤ value then Nat.log 10 ⌊value⌋₊ else -(Nat.clog 10 ⌈value⁻¹⌉₊ : ℤ)

/-- The nearest natural number, the even one of two that are equally near. -/
def roundHalfEven (value : ℚ) : ℕ :=
  let below := ⌊value⌋₊
  let rest := value - below
  if rest < 1 / 2 then below
  else if 1 / 2 < rest then below + 1
  else if below % 2 = 0 then below else below + 1

/-- The fifteen significant digits of a positive number, read as one number, and the exponent of
the first of them. -/
def significantDigits (value : ℚ) : ℕ × ℤ :=
  let exponent := decimalExponent value
  let digits := roundHalfEven (value * 10 ^ (14 - exponent))
  if digits = 10 ^ 15 then (10 ^ 14, exponent + 1) else (digits, exponent)

/-- The digits behind the point, without the zeros at their end and without the point when none
is left. -/
def fractionPart (digits : Bytes) : Bytes :=
  match (digits.reverse.dropWhile (· == chr '0')).reverse with
  | [] => []
  | kept => chr '.' :: kept

/-- `stream.precision(15); stream << value` for a positive number: fixed notation when the
exponent is from `-4` to `14`, else the scientific one. -/
def formatGeneral (value : ℚ) : Bytes :=
  let (number, exponent) := significantDigits value
  let digits := natDecimal number
  if exponent < -4 ∨ 15 ≤ exponent then
    let magnitude := natDecimal exponent.natAbs
    digits.take 1 ++ fractionPart (digits.drop 1) ++ chr 'e' ::
      (if exponent < 0 then chr '-' else chr '+') ::
      (if magnitude.length < 2 then chr '0' :: magnitude else magnitude)
  else if exponent < 0 then
    chr '0' :: fractionPart (List.replicate (exponent.natAbs - 1) (chr '0') ++ digits)
  else
    digits.take (exponent.toNat + 1) ++ fractionPart (digits.drop (exponent.toNat + 1))

/-- `number_to_string`. -/
def numberToString : Number → Bytes
  | .nan => lit "NaN"
  | .infinity negative => if negative then lit "-Infinity" else lit "Infinity"
  | .finite value =>
    if value = 0 then lit "0"
    else if value = ⌊value⌋ ∧ |value| < 10 ^ 15 then decimal ⌊value⌋
    else if value < 0 then chr '-' :: formatGeneral (-value)
    else formatGeneral value

/-- What is printed of an integer below `10 ^ 15`. -/
theorem numberToString_int {n : ℤ} (hn : |n| < 10 ^ 15) :
    numberToString (.finite n) = decimal n := by
  have hcast : |(n : ℚ)| < 10 ^ 15 := by exact_mod_cast hn
  by_cases hzero : n = 0
  · subst hzero
    have hdecimal : decimal 0 = lit "0" := by decide +kernel
    simp [numberToString, hdecimal]
  · have hne : (n : ℚ) ≠ 0 := by exact_mod_cast hzero
    have hfloor : ⌊(n : ℚ)⌋ = n := Int.floor_intCast n
    simp only [numberToString]
    rw [if_neg hne, if_pos ⟨by rw [hfloor], hcast⟩, hfloor]

/-! ## Digits -/

/-- A digit's character is one for `std::isdigit`. -/
theorem isDigit_digitChar {d : ℕ} (h : d < 10) : isDigit (digitChar d) = true := by
  have hall : ∀ d < 10, isDigit (digitChar d) = true := by decide
  exact hall d h

/-- A digit is read back from its character. -/
theorem toNat_digitChar {d : ℕ} (h : d < 10) : (digitChar d).toNat - 0x30 = d := by
  have hall : ∀ d < 10, (digitChar d).toNat - 0x30 = d := by decide
  exact hall d h

/-- `natDecimal` writes digits only. -/
theorem isDigit_of_mem_natDecimal {c : Byte} (n : ℕ) (hc : c ∈ natDecimal n) :
    isDigit c = true := by
  rw [natDecimal] at hc
  split at hc
  next h =>
    rw [List.mem_singleton] at hc
    rw [hc]
    exact isDigit_digitChar h
  next h =>
    rcases List.mem_append.mp hc with hc | hc
    · exact isDigit_of_mem_natDecimal (n / 10) hc
    · rw [List.mem_singleton] at hc
      rw [hc]
      exact isDigit_digitChar (Nat.mod_lt n (by decide))
termination_by n
decreasing_by omega

/-- `natDecimal` writes at least one digit. -/
theorem natDecimal_ne_nil (n : ℕ) : natDecimal n ≠ [] := by
  rw [natDecimal]
  split
  · simp
  · simp

/-- A printed integer begins with a sign or with a digit. -/
theorem decimal_eq_cons (n : ℤ) :
    ∃ c rest, decimal n = c :: rest ∧ (c = chr '-' ∨ isDigit c = true) := by
  unfold decimal
  split
  · exact ⟨_, _, rfl, Or.inl rfl⟩
  · obtain ⟨c, rest, hdigits⟩ := List.exists_cons_of_ne_nil (natDecimal_ne_nil n.natAbs)
    refine ⟨c, rest, hdigits, Or.inr (isDigit_of_mem_natDecimal n.natAbs ?_)⟩
    simp [hdigits]

/-! ## Values -/

/-- `Value`, with its object unfolded: an array has its `elements`, a plain object its
`properties` in the order of `std::map`; of a function nothing is ever printed. -/
inductive ValueTree
  | undefined
  | null
  | boolean (value : Bool)
  | number (value : Number)
  | string (value : Bytes)
  | function
  | array (elements : List ValueTree)
  | object (properties : List (Bytes × ValueTree))

namespace ValueTree

/-- `property.is_object() && property.object && property.object->is_function`. -/
def isFunction : ValueTree → Bool
  | function => true
  | _ => false

/-- `is_undefined`. -/
def isUndefined : ValueTree → Bool
  | undefined => true
  | _ => false

mutual

/-- `to_string`. -/
def toText : ValueTree → Bytes
  | undefined => lit "undefined"
  | null => lit "null"
  | boolean value => if value then lit "true" else lit "false"
  | number value => numberToString value
  | string value => value
  | function => lit "function"
  | array elements => chr '[' :: (elementsToText true elements ++ [chr ']'])
  | object _ => lit "[object Object]"

/-- The loop of `to_string` over the elements; `first` is its `i == 0`. -/
def elementsToText (first : Bool) : List ValueTree → Bytes
  | [] => []
  | element :: rest =>
    (if first then [] else [chr ',']) ++ (if element.isUndefined then [] else element.toText) ++
      elementsToText false rest

end

end ValueTree

end Aetheris.Js
