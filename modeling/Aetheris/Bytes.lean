import Mathlib

/-!
# Byte strings

The engine's `std::string`s are byte strings, and none of its scanners decode them: every test is on
a single `char`.  They are modelled by lists of `UInt8`, and the literals of the source text are
`lit` and `chr`.

The classes of `<cctype>` are those of the C locale, to which no byte from `0x80` on belongs.  A
fact about the classes is a fact about 256 bytes, and `forall_byte` has them checked one by one.
The searches of `std::string` are `find` and `rfind`.
-/

namespace Aetheris

/-- A `char`, read as the `unsigned char` the classification functions take. -/
abbrev Byte := UInt8

/-- A `std::string`. -/
abbrev Bytes := List Byte

/-- A character literal of the source. -/
def chr (c : Char) : Byte := UInt8.ofNat c.toNat

/-- A string literal of the source. -/
def lit (s : String) : Bytes := s.toList.map chr

/-- `std::isspace`: space, `\t`, `\n`, `\v`, `\f` and `\r`. -/
def isSpace (c : Byte) : Bool := c == 0x20 || (0x09 ≤ c && c ≤ 0x0d)

/-- `std::isdigit`. -/
def isDigit (c : Byte) : Bool := 0x30 ≤ c && c ≤ 0x39

/-- `std::isupper`. -/
def isUpper (c : Byte) : Bool := 0x41 ≤ c && c ≤ 0x5a

/-- `std::islower`. -/
def isLower (c : Byte) : Bool := 0x61 ≤ c && c ≤ 0x7a

/-- `std::isalpha`. -/
def isAlpha (c : Byte) : Bool := isUpper c || isLower c

/-- `std::isalnum`. -/
def isAlnum (c : Byte) : Bool := isAlpha c || isDigit c

/-- `std::tolower`. -/
def toLower (c : Byte) : Byte := if isUpper c then c + 0x20 else c

/-- `std::toupper`. -/
def toUpper (c : Byte) : Byte := if isLower c then c - 0x20 else c

/-- What is said of all bytes of a text is decided along the text. -/
instance (priority := 1100) decidableForallMem (P : Byte → Prop) [DecidablePred P] (text : Bytes) :
    Decidable (∀ c ∈ text, P c) := List.decidableBAll P text

/-- The same for one byte that may be there. -/
instance (priority := 1100) decidableForallMemOption (P : Byte → Prop) [DecidablePred P]
    (c : Option Byte) : Decidable (∀ b ∈ c, P b) := Option.decidableForallMem c

/-- Whether a text is one of some texts. -/
instance (priority := 1100) decidableMemTexts (text : Bytes) (texts : List Bytes) :
    Decidable (text ∈ texts) := inferInstance

/-- The empty text is blank. -/
theorem blank_nil : ∀ c ∈ ([] : Bytes), isSpace c = true := by decide

/-- So is a space. -/
theorem blank_space : ∀ c ∈ lit " ", isSpace c = true := by decide

theorem space_ne_nil : lit " " ≠ [] := by decide

/-- `text.find(needle)`. -/
def find (text needle : Bytes) : Option ℕ :=
  if text.take needle.length = needle then some 0
  else
    match text with
    | [] => none
    | _ :: rest => (find rest needle).map (· + 1)

/-- `text.rfind(c)`. -/
def rfind (text : Bytes) (c : Byte) : Option ℕ :=
  match text with
  | [] => none
  | d :: rest =>
    match rfind rest c with
    | some i => some (i + 1)
    | none => if d = c then some 0 else none

/-- What holds of each of the 256 bytes. -/
theorem forall_byte {P : Byte → Prop} [DecidablePred P]
    (h : ∀ a < 16, ∀ b < 16, decide (P (UInt8.ofNat (16 * a + b))) = true) (c : Byte) : P c := by
  have hhigh : c.toNat / 16 < 16 := Nat.div_lt_of_lt_mul c.toNat_lt
  have hlow : c.toNat % 16 < 16 := Nat.mod_lt _ (Nat.succ_pos 15)
  have hc := of_decide_eq_true (h (c.toNat / 16) hhigh (c.toNat % 16) hlow)
  rwa [Nat.div_add_mod, UInt8.ofNat_toNat] at hc

end Aetheris
