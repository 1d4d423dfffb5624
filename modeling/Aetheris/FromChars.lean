import Aetheris.Bytes

/-!
# Numbers in byte strings

`std::from_chars` reads the longest run of digits at the start of a text.  It has an error if there
is none, or if the number does not fit into the result; there is no sign in front of an unsigned
number, no white space, and no `0x`.

There is one reader for the unsigned types and one for `int`, and a number is read whatever stands
behind it, as long as that is no digit (`fromChars_append`).
-/

namespace Aetheris

/-- The value of a digit. -/
def digitValue (base : ℕ) (c : Byte) : Option ℕ :=
  let value :=
    if isDigit c then c.toNat - 0x30
    else if isLower c then c.toNat - 0x61 + 10
    else if isUpper c then c.toNat - 0x41 + 10
    else base
  if value < base then some value else none

/-- The values of the digits at the start. -/
def leadingDigits (base : ℕ) : Bytes → List ℕ
  | [] => []
  | c :: rest =>
    match digitValue base c with
    | some value => value :: leadingDigits base rest
    | none => []

/-- The number with the given digits. -/
def numberOf (base : ℕ) (digits : List ℕ) : ℕ := digits.foldl (fun n d => n * base + d) 0

/-- `std::from_chars` into an unsigned type with the values below `limit`. -/
def fromChars (base limit : ℕ) (text : Bytes) : Option ℕ :=
  let digits := leadingDigits base text
  if digits = [] then none
  else if numberOf base digits < limit then some (numberOf base digits)
  else none

/-- `std::from_chars` into an `int`. -/
def fromCharsSigned (text : Bytes) : Option ℤ :=
  match text with
  | [] => none
  | c :: rest =>
    if c = chr '-' then (fromChars 10 (2 ^ 31 + 1) rest).map fun n => -(n : ℤ)
    else (fromChars 10 (2 ^ 31) text).map fun n => (n : ℤ)

theorem leadingDigits_eq_nil {base : ℕ} {text : Bytes}
    (h : ∀ c ∈ text.head?, digitValue base c = none) : leadingDigits base text = [] := by
  cases text with
  | nil => rfl
  | cons c rest => rw [leadingDigits, h c rfl]

theorem leadingDigits_append {base : ℕ} {digits rest : Bytes}
    (hdigits : ∀ c ∈ digits, (digitValue base c).isSome)
    (hrest : ∀ c ∈ rest.head?, digitValue base c = none) :
    leadingDigits base (digits ++ rest) = leadingDigits base digits := by
  induction digits with
  | nil => exact leadingDigits_eq_nil hrest
  | cons c digits ih =>
    rw [List.cons_append, leadingDigits, leadingDigits,
      ih fun d hd => hdigits d (List.mem_cons_of_mem _ hd)]

theorem leadingDigits_ne_nil {base : ℕ} {text : Bytes} (hne : text ≠ [])
    (hdigits : ∀ c ∈ text, (digitValue base c).isSome) : leadingDigits base text ≠ [] := by
  cases text with
  | nil => exact absurd rfl hne
  | cons c rest =>
    obtain ⟨value, hvalue⟩ := Option.isSome_iff_exists.mp (hdigits c List.mem_cons_self)
    rw [leadingDigits, hvalue]
    exact List.cons_ne_nil _ _

/-- A number that fits is read up to the first byte that is no digit. -/
theorem fromChars_append {base limit : ℕ} {digits rest : Bytes} (hne : digits ≠ [])
    (hdigits : ∀ c ∈ digits, (digitValue base c).isSome)
    (hrest : ∀ c ∈ rest.head?, digitValue base c = none)
    (hlimit : numberOf base (leadingDigits base digits) < limit) :
    fromChars base limit (digits ++ rest) = some (numberOf base (leadingDigits base digits)) := by
  rw [fromChars, leadingDigits_append hdigits hrest]
  rw [if_neg (leadingDigits_ne_nil hne hdigits), if_pos hlimit]

end Aetheris
