import Aetheris.Image
import Aetheris.Library.Meets
import Aetheris.Png.Inflate

/-!
# PNG files

`decode_png` of `rendering/png.cpp`, behind the inflater.  An `int` has 32 bits; a result that does
not fit stops the decoder, and so does an access outside a `std::vector`.  The chunks of a file are
read into its `Parts`; the header is checked, the data are inflated and unfiltered line by line and
pass by pass, and the samples become pixels.
-/

namespace Aetheris.Png

/-- Why the decoder stops. -/
inductive Stop
  /-- `false` is returned. -/
  | failed
  /-- An `int` overflows. -/
  | overflow
  /-- An access outside a `std::vector`. -/
  | outOfBounds
  deriving DecidableEq, Repr

/-- What a call ends with. -/
abbrev Checked (α : Type) := Except Stop α

/-- The result of an operation on `int`s. -/
def int (value : ℤ) : Checked ℤ :=
  if -2147483648 ≤ value ∧ value ≤ 2147483647 then .ok value else .error .overflow

/-- An element of a `std::vector`. -/
def item {α : Type} (xs : List α) (i : ℕ) : Checked α :=
  match xs[i]? with
  | some a => .ok a
  | none => .error .outOfBounds

/-- Elements that are read one after the other. -/
def slice (xs : Bytes) (i length : ℕ) : Checked Bytes :=
  if i + length ≤ xs.length then .ok ((xs.drop i).take length) else .error .outOfBounds

/-- `memcpy` into a `std::vector`. -/
def copyTo (xs : Bytes) (i : ℕ) (source : Bytes) : Checked Bytes :=
  if i + source.length ≤ xs.length then
    .ok (xs.take i ++ source ++ xs.drop (i + source.length))
  else .error .outOfBounds

/-! ## Chunks -/

/-- `read_u32`. -/
def readU32 (data : Bytes) (i : ℕ) : ℕ :=
  (data.getD i 0).toNat <<< 24 ||| (data.getD (i + 1) 0).toNat <<< 16 |||
    (data.getD (i + 2) 0).toNat <<< 8 ||| (data.getD (i + 3) 0).toNat

/-- What the chunks of a file hold. -/
structure Parts where
  width : ℤ := 0
  height : ℤ := 0
  bitDepth : ℕ := 0
  colorType : ℕ := 0
  interlace : ℕ := 0
  palette : Bytes := []
  paletteAlpha : Bytes := []
  idat : Bytes := []
  /-- They are `int`s. -/
  size_lt : width < 2147483648 ∧ height < 2147483648 := by decide

theorem bmod_lt (n : ℕ) : Int.bmod n (2 ^ 32) < 2147483648 := by
  have h := Int.bmod_lt (x := n) (m := 2 ^ 32) (by decide)
  omega

/-- One more chunk. -/
def Parts.add (parts : Parts) (type data : Bytes) : Parts :=
  if type = lit "IHDR" ∧ 13 ≤ data.length then
    { parts with
      width := Int.bmod (readU32 data 0) (2 ^ 32)
      height := Int.bmod (readU32 data 4) (2 ^ 32)
      bitDepth := (data.getD 8 0).toNat
      colorType := (data.getD 9 0).toNat
      interlace := (data.getD 12 0).toNat
      size_lt := ⟨bmod_lt _, bmod_lt _⟩ }
  else if type = lit "PLTE" then { parts with palette := data }
  else if type = lit "tRNS" then { parts with paletteAlpha := data }
  else if type = lit "IDAT" then { parts with idat := parts.idat ++ data }
  else parts

/-- The loop over the chunks, at the rest of the bytes. -/
def readChunks (parts : Parts) (rest : Bytes) : Option Parts :=
  if rest.length < 8 then some parts
  else
    let length := readU32 rest 0
    let type := (rest.drop 4).take 4
    if rest.length < 8 + length + 4 then none
    else if type = lit "IEND" then some parts
    else
      readChunks (parts.add type ((rest.drop 8).take length)) (rest.drop (8 + length + 4))
termination_by rest.length
decreasing_by
  rw [List.length_drop]
  omega

/-- The checks of the header: `channels`. -/
def Parts.channels (parts : Parts) : Option ℕ :=
  if parts.width ≤ 0 ∨ parts.height ≤ 0 then none
  else if parts.interlace ≠ 0 ∧ parts.bitDepth < 8 then none
  else if parts.bitDepth ≠ 8 ∧ parts.bitDepth ≠ 16 ∧
      ¬(parts.colorType = 3 ∧ (parts.bitDepth = 1 ∨ parts.bitDepth = 2 ∨ parts.bitDepth = 4)) then
    none
  else
    match parts.colorType with
    | 0 => some 1
    | 2 => some 3
    | 3 => some 1
    | 4 => some 2
    | 6 => some 4
    | _ => none

/-- `raw`. -/
def Parts.raw (parts : Parts) : Checked Bytes :=
  if parts.idat = [] then .ok []
  else if parts.idat.length < 2 then .error .failed
  else
    match inflateCodes {} (parts.idat.drop 2) with
    | .ok final => .ok final.out
    | .error (.returned _) => .error .failed
    | .error .outOfBounds => .error .outOfBounds

/-! ## Filters -/

/-- `paeth`. -/
def paeth (a b c : ℤ) : ℤ :=
  let p := a + b - c
  let pa := if p > a then p - a else a - p
  let pb := if p > b then p - b else b - p
  let pc := if p > c then p - c else c - p
  if pa ≤ pb ∧ pa ≤ pc then a else if pb ≤ pc then b else c

/-- What a filter adds to a byte. -/
def predicted (filter : Byte) (left up upLeft : Byte) : Option ℤ :=
  match filter.toNat with
  | 0 => some 0
  | 1 => some left.toNat
  | 2 => some up.toNat
  | 3 => some ((left.toNat + up.toNat) / 2)
  | 4 => some (paeth left.toNat up.toNat upLeft.toNat)
  | _ => none

/-- The byte of the pixel in front, or 0. -/
def inFront (xs : Bytes) (filterBpp i : ℕ) : Checked Byte :=
  if filterBpp ≤ i then item xs (i - filterBpp) else pure 0

/-- The loop over the bytes of a line, with the line as far as it is written. -/
def unfilterLine (filter : Byte) (filterBpp : ℕ) (previous line : Bytes) : Bytes → Checked Bytes
  | [] => .ok line
  | value :: src => do
    let i := line.length
    let left ← inFront line filterBpp i
    let up ← item previous i
    let upLeft ← inFront previous filterBpp i
    match predicted filter left up upLeft with
    | none => .error .failed
    | some p => unfilterLine filter filterBpp previous (line ++ [UInt8.ofInt (value.toNat + p)]) src

/-! ## Passes -/

/-- `bits_per_pixel`, `filter_bpp` and `full_stride`. -/
structure Strides where
  bitsPerPixel : ℕ
  fullStride : ℕ

/-- `filter_bpp`. -/
def Strides.filterBpp (strides : Strides) : ℕ := (strides.bitsPerPixel + 7) / 8

/-- `bytes_per_pixel`. -/
def Strides.bytesPerPixel (strides : Strides) : ℕ := strides.bitsPerPixel / 8

/-- How many bytes a line has. -/
def stride (bitsPerPixel : ℕ) (width : ℤ) : Checked ℕ := do
  let product ← int (width * bitsPerPixel)
  let sum ← int (product + 7)
  return (sum / 8).toNat

/-- Where the pixels of a pass are. -/
structure Pass where
  xStart : ℕ
  yStart : ℕ
  xStep : ℕ
  yStep : ℕ
  deriving DecidableEq, Repr

/-- What the lines of a pass change: the bytes that are left of `raw`, `previous`, and
`image_data`. -/
structure Lines where
  raw : Bytes
  previous : Bytes
  imageData : Bytes

/-- A line of a pass goes to its place. -/
def scatter (strides : Strides) (pass : Pass) (passWidth : ℕ) (line imageData : Bytes) (py : ℕ) :
    Checked Bytes := do
  let y ← int (pass.yStart + py * pass.yStep)
  let target := y.toNat * strides.fullStride
  if pass.xStep = 1 then copyTo imageData target line
  else if 0 < strides.bytesPerPixel then
    (List.range passWidth).foldlM (fun imageData (px : ℕ) => do
      let x ← int (pass.xStart + px * pass.xStep)
      let pixel ← slice line (px * strides.bytesPerPixel) strides.bytesPerPixel
      copyTo imageData (target + x.toNat * strides.bytesPerPixel) pixel) imageData
  else return imageData

/-- The body of the loop over the lines of a pass. -/
def passLine (strides : Strides) (pass : Pass) (passWidth passStride : ℕ) (s : Lines) (py : ℕ) :
    Checked Lines := do
  let filter ← item s.raw 0
  let src ← slice s.raw 1 passStride
  let line ← unfilterLine filter strides.filterBpp s.previous [] src
  let imageData ← scatter strides pass passWidth line s.imageData py
  return { raw := s.raw.drop (1 + passStride), previous := line, imageData := imageData }

/-- `unfilter_pass`, with the bytes that are left of `raw` and `image_data`. -/
def unfilterPass (strides : Strides) (passWidth passHeight : ℤ) (pass : Pass) (s : Bytes × Bytes) :
    Checked (Bytes × Bytes) :=
  if passWidth ≤ 0 ∨ passHeight ≤ 0 then .ok s
  else do
    let passStride ← stride strides.bitsPerPixel passWidth
    if s.1.length < passHeight.toNat * (passStride + 1) then .error .failed
    else
      let lines ← (List.range passHeight.toNat).foldlM
        (passLine strides pass passWidth.toNat passStride)
        { raw := s.1, previous := List.replicate passStride 0, imageData := s.2 }
      return (lines.raw, lines.imageData)

/-- `x_starts`, `y_starts`, `x_steps` and `y_steps`. -/
def passes : List Pass :=
  [⟨0, 0, 8, 8⟩, ⟨4, 0, 8, 8⟩, ⟨0, 4, 4, 8⟩, ⟨2, 0, 4, 4⟩, ⟨0, 2, 2, 4⟩, ⟨1, 0, 2, 2⟩, ⟨0, 1, 1, 2⟩]

/-- `pass_width`, and in the same way `pass_height`. -/
def passSize (size : ℤ) (start step : ℕ) : Checked ℤ := do
  let a ← int (size - start)
  let b ← int (a + step)
  let c ← int (b - 1)
  return c.tdiv step

/-- The body of the loop over the passes. -/
def adam7Pass (strides : Strides) (width height : ℤ) (s : Bytes × Bytes) (pass : Pass) :
    Checked (Bytes × Bytes) := do
  let passWidth ← passSize width pass.xStart pass.xStep
  let passHeight ← passSize height pass.yStart pass.yStep
  unfilterPass strides passWidth passHeight pass s

/-- The passes of an image, or the one pass of an image that is not interlaced. -/
def allPasses (strides : Strides) (parts : Parts) (s : Bytes × Bytes) : Checked (Bytes × Bytes) :=
  if parts.interlace = 1 then passes.foldlM (adam7Pass strides parts.width parts.height) s
  else unfilterPass strides parts.width parts.height ⟨0, 0, 1, 1⟩ s

/-- `image_data`. -/
def imageData (strides : Strides) (parts : Parts) (raw : Bytes) : Checked Bytes := do
  let s ← allPasses strides parts
    (raw, List.replicate (parts.height.toNat * strides.fullStride) 0)
  return s.2

/-! ## Pixels -/

/-- `sample`. -/
def sample (strides : Strides) (bitDepth : ℕ) (imageData : Bytes) (x y channel : ℕ) :
    Checked Byte := do
  let bitIndex := y * strides.fullStride * 8 + x * strides.bitsPerPixel + channel * bitDepth
  let byte ← item imageData (bitIndex / 8)
  if bitDepth = 8 then return byte
  else if bitDepth = 16 then return byte
  else
    return UInt8.ofNat
      (byte.toNat >>> (8 - bitDepth - bitIndex % 8) &&& ((1 <<< bitDepth) - 1))

/-- The color of a pixel; there is none where its index is not in the palette. -/
def color (strides : Strides) (parts : Parts) (imageData : Bytes) (x y : ℕ) :
    Checked (Option Color) := do
  let sample := sample strides parts.bitDepth imageData x y
  if parts.colorType = 0 then
    let grey ← sample 0
    return some ⟨grey, grey, grey, 255⟩
  else if parts.colorType = 2 then
    return some ⟨← sample 0, ← sample 1, ← sample 2, 255⟩
  else if parts.colorType = 3 then
    let index ← sample 0
    let base := index.toNat * 3
    if parts.palette.length ≤ base + 2 then return none
    else
      let alpha := parts.paletteAlpha.getD index.toNat 255
      return some ⟨← item parts.palette base, ← item parts.palette (base + 1),
        ← item parts.palette (base + 2), alpha⟩
  else if parts.colorType = 4 then
    let grey ← sample 0
    return some ⟨grey, grey, grey, ← sample 1⟩
  else
    return some ⟨← sample 0, ← sample 1, ← sample 2, ← sample 3⟩

/-- The loop over the pixels, with those that are written: the result of the decoder, and
`out.pixels` behind it. -/
def pixelLoop (colorAt : ℕ → ℕ → Checked (Option Color)) (width : ℕ) (pixels : List Color) :
    List (ℕ × ℕ) → Checked (Bool × List Color)
  | [] => .ok (true, pixels)
  | (x, y) :: places => do
    match ← colorAt x y with
    | none => return (false, pixels)
    | some color =>
      if y * width + x < pixels.length then
        pixelLoop colorAt width (pixels.set (y * width + x) color) places
      else .error .outOfBounds

/-- What `decode_png` does behind the inflater: the result, and `out` behind it. -/
def decodeParts (parts : Parts) (channels : ℕ) (raw : Bytes) : Checked (Bool × Image) := do
  let bitsPerPixel := channels * parts.bitDepth
  let strides : Strides := ⟨bitsPerPixel, ← stride bitsPerPixel parts.width⟩
  let data ← imageData strides parts raw
  let width := parts.width.toNat
  let height := parts.height.toNat
  let (result, pixels) ← pixelLoop (color strides parts data) width
    (List.replicate (width * height) {})
    ((List.range height).flatMap fun y => (List.range width).map fun x => (x, y))
  return (result, { width := parts.width, height := parts.height, pixels := pixels })

/-- `is_png`. -/
def isPng (bytes : Bytes) : Bool :=
  decide (8 ≤ bytes.length ∧ bytes.take 8 = [0x89, 0x50, 0x4E, 0x47, 0x0D, 0x0A, 0x1A, 0x0A])

/-- What is decoded, if `false` is not returned before `out` is assigned. -/
def decodeFile (bytes : Bytes) : Checked (Bool × Image) :=
  if ¬isPng bytes then .error .failed
  else
    match readChunks {} (bytes.drop 8) with
    | none => .error .failed
    | some parts =>
      match parts.channels with
      | none => .error .failed
      | some channels => do
        let raw ← parts.raw
        decodeParts parts channels raw

/-- `decode_png`: the result, and `out` behind it. -/
def decodePng (bytes : Bytes) (out : Image) : Checked (Bool × Image) :=
  match decodeFile bytes with
  | .error .failed => .ok (false, out)
  | result => result

end Aetheris.Png
