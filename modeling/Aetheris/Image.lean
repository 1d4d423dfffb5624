import Aetheris.Bytes

/-!
# Images

What the decoders of image files give, when an image has all its pixels (`Image.Valid`), and what a
decoder should do to its output (`AllOrNothing`).
-/

namespace Aetheris

/-- `Color`. -/
structure Color where
  red : Byte := 0
  green : Byte := 0
  blue : Byte := 0
  alpha : Byte := 255
  deriving DecidableEq, Repr

/-- `Image`. -/
structure Image where
  width : ℤ := 0
  height : ℤ := 0
  pixels : List Color := []
  deriving DecidableEq, Repr

/-- An image that is not empty and has as many pixels as it has places. -/
def Image.Valid (image : Image) : Prop :=
  0 < image.width ∧ 0 < image.height ∧ (image.pixels.length : ℤ) = image.width * image.height

/-- All or nothing: a valid image, or `out` as it was. -/
def AllOrNothing (out : Image) (result : Bool × Image) : Prop :=
  result = (false, out) ∨ result.1 = true ∧ result.2.Valid

end Aetheris
