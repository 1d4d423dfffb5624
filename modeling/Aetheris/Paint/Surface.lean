import Aetheris.Library.Raster
import Aetheris.Paint.BitmapFont
import Aetheris.Paint.Blending
import Aetheris.Paint.Clipping

/-!
# The software surface

`SoftwareSurface` of `rendering/software_surface.cpp`.  Every function that draws comes down to
calls of `blend_pixel`, and what it draws can be said by the list of these calls alone:
`pixel_paint` reads off the list what becomes of a pixel, and `times` counts how often a pixel is
blended.  So each function is modelled by its list of calls, and what is proved about it is proved
by counting.

Lengths are rational numbers.  Two things keep the numbers of the machine in the model.  A bound is
rounded and cast to `int` before it is clamped to the surface, so a bound that is no `int` is not
clamped but lost: `castInt` gives what x86 makes of it, and `BoundsFit` says that it does not
happen.  And the quotients by which images are scaled and tiles are counted are quotients of
`float`s; they are a parameter, `quotient`, of which only those results assume something that need
it.
-/

namespace Aetheris.Paint

open Layout Raster

/-! ## Numbers -/

/-- `std::lround`. -/
def lround (value : ℚ) : ℤ := if value < 0 then -⌊-value + 1 / 2⌋ else ⌊value + 1 / 2⌋

/-- `std::clamp` of an `int`. -/
def clampInt (value low high : ℤ) : ℤ :=
  if value < low then low else if high < value then high else value

/-! ## Pixels -/

/-- The place of a pixel. -/
abbrev Pixel := ℤ × ℤ

/-- A call of `blend_pixel`. -/
abbrev Blend := Pixel × Color

/-- `Image::valid`. -/
def validImage (image : Image) : Bool :=
  0 < image.width ∧ 0 < image.height ∧
    image.pixels.length = image.width.toNat * image.height.toNat

/-- `Image::pixel`. -/
def imagePixel (image : Image) (x y : ℤ) : Color :=
  if x < 0 ∨ y < 0 ∨ image.width ≤ x ∨ image.height ≤ y then {}
  else image.pixels.getD (y.toNat * image.width.toNat + x.toNat) {}

/-- `SoftwareSurface`, with its pixels row by row. -/
structure SoftwareSurface where
  width : ℕ
  height : ℕ
  pixels : List Color
  size : pixels.length = width * height

namespace SoftwareSurface

/-- The constructor of `SoftwareSurface`. -/
def create (width height : ℤ) (clearColor : Color) : SoftwareSurface where
  width := (max width 0).toNat
  height := (max height 0).toNat
  pixels := List.replicate ((max width 0).toNat * (max height 0).toNat) clearColor
  size := List.length_replicate

variable (surface : SoftwareSurface)

/-- `SoftwareSurface::contains`. -/
def contains (p : Pixel) : Bool :=
  0 ≤ p.1 ∧ 0 ≤ p.2 ∧ p.1 < surface.width ∧ p.2 < surface.height

/-- The place of a pixel in the memory of the surface. -/
def index (p : Pixel) : ℕ := p.2.toNat * surface.width + p.1.toNat

/-- `SoftwareSurface::pixel`. -/
def pixel (p : Pixel) : Color :=
  if surface.contains p then surface.pixels.getD (surface.index p) {} else {}

/-- `SoftwareSurface::blend_pixel`. -/
def blendPixel (call : Blend) : SoftwareSurface :=
  if surface.contains call.1 then
    { surface with
      pixels := surface.pixels.set (surface.index call.1)
        (blendOver call.2 (surface.pixels.getD (surface.index call.1) {}))
      size := List.length_set.trans surface.size }
  else surface

/-- Calls of `blend_pixel`, one after the other. -/
def paint (calls : List Blend) : SoftwareSurface := calls.foldl blendPixel surface

/-- `SoftwareSurface::accepts`. -/
def accepts (p : Pixel) (clip : Option (RoundedRect ℚ)) : Bool :=
  clip.elim true fun clip => clip.contains (p.1 + 1 / 2) (p.2 + 1 / 2)

/-- `SoftwareSurface::clipped`. -/
def clipped (rect : LayoutRect ℚ) (clip : Option (RoundedRect ℚ)) : Option (LayoutRect ℚ) :=
  match clip with
  | none => some rect
  | some clip =>
    let result := intersectRect rect clip.rect
    if result.width ≤ 0 ∨ result.height ≤ 0 then none else some result

/-! ## Areas and borders -/

/-- The pixels that a rectangle meets.  Its bounds are cast before they are clamped. -/
def touched (rect : LayoutRect ℚ) : List Pixel :=
  area (clampInt (castInt ⌊rect.x⌋) 0 surface.width) (clampInt (castInt ⌊rect.y⌋) 0 surface.height)
    (clampInt (castInt ⌈rect.x + rect.width⌉) 0 surface.width)
    (clampInt (castInt ⌈rect.y + rect.height⌉) 0 surface.height)

/-- The casts of the bounds of a rectangle are defined. -/
structure BoundsFit (rect : LayoutRect ℚ) : Prop where
  left : FitsInt ⌊rect.x⌋
  top : FitsInt ⌊rect.y⌋
  right : FitsInt ⌈rect.x + rect.width⌉
  bottom : FitsInt ⌈rect.y + rect.height⌉

/-- `SoftwareSurface::fill_rect`. -/
def fillRect (sourceRect : LayoutRect ℚ) (color : Color) (clip : Option (RoundedRect ℚ)) :
    List Blend :=
  match clipped sourceRect clip with
  | none => []
  | some rect => ((surface.touched rect).filter fun p => accepts p clip).map fun p => (p, color)

/-- `SoftwareSurface::fill_rounded_rect`. -/
def fillRoundedRect (rect : LayoutRect ℚ) (radius : ℚ) (color : Color)
    (clip : Option (RoundedRect ℚ)) : List Blend :=
  match clipped rect clip with
  | none => []
  | some bounds =>
    ((surface.touched bounds).filter fun p =>
      (RoundedRect.mk rect radius).contains (p.1 + 1 / 2) (p.2 + 1 / 2) && accepts p clip).map
        fun p => (p, color)

/-- The `paint` lambda of `stroke_rect`. -/
def strokePiece (style : Bytes) (color : Color) (clip : Option (RoundedRect ℚ))
    (piece : LayoutRect ℚ) (offset : ℤ) : List Blend :=
  if style = lit "dashed" ∨ style = lit "dotted" then
    let step : ℤ := if style = lit "dashed" then 6 else 3
    ((area (castInt piece.x) (castInt piece.y) (castInt (piece.x + piece.width))
      (castInt (piece.y + piece.height))).filter fun p =>
        ((wrapInt (p.1 + p.2 + offset)).tdiv step).tmod 2 = 0 && accepts p clip).map
          fun p => (p, color)
  else surface.fillRect piece color clip

/-- `SoftwareSurface::stroke_rect`. -/
def strokeRect (rect : LayoutRect ℚ) (edges : BoxEdges ℚ) (color : Color)
    (clip : Option (RoundedRect ℚ)) (style : Bytes) : List Blend :=
  let paint := surface.strokePiece style color clip
  (if 0 < edges.top then paint ⟨rect.x, rect.y, rect.width, edges.top⟩ 0 else []) ++
  (if 0 < edges.bottom then
    paint ⟨rect.x, rect.y + rect.height - edges.bottom, rect.width, edges.bottom⟩ 1 else []) ++
  (if 0 < edges.left then paint ⟨rect.x, rect.y, edges.left, rect.height⟩ 2 else []) ++
  (if 0 < edges.right then
    paint ⟨rect.x + rect.width - edges.right, rect.y, edges.right, rect.height⟩ 3 else [])

/-- `SoftwareSurface::stroke_rounded_rect`. -/
def strokeRoundedRect (rect : LayoutRect ℚ) (radius : ℚ) (edges : BoxEdges ℚ) (color : Color)
    (clip : Option (RoundedRect ℚ)) (style : Bytes) : List Blend :=
  let width := fmax (fmax (fmax edges.top edges.right) edges.bottom) edges.left
  if width ≤ 0 then []
  else
    let outer : RoundedRect ℚ := ⟨rect, radius⟩
    let innerRect : LayoutRect ℚ :=
      ⟨rect.x + width, rect.y + width, fmax 0 (rect.width - 2 * width),
        fmax 0 (rect.height - 2 * width)⟩
    let inner : RoundedRect ℚ := ⟨innerRect, fmax 0 (radius - width)⟩
    let step : ℤ := if style = lit "dashed" then 6 else 3
    ((surface.touched rect).filter fun p =>
      (style = lit "solid" || ((wrapInt (p.1 + p.2)).tdiv step).tmod 2 = 0) &&
        outer.contains (p.1 + 1 / 2) (p.2 + 1 / 2) &&
        !inner.contains (p.1 + 1 / 2) (p.2 + 1 / 2) && accepts p clip).map fun p => (p, color)

/-! ## Text -/

/-- The width of a cell. -/
def cellWidth (fontSize : ℚ) : ℤ := max 1 (wrapInt (lround (bitmapAdvance fontSize)))

/-- The height of a cell. -/
def cellHeight (fontSize : ℚ) : ℤ := max 1 (wrapInt (lround (bitmapCellHeight fontSize)))

/-- The characters of a text, each with the place of the pen when it is drawn. -/
def pens (cellWidth : ℤ) : ℤ → Bytes → List (ℤ × Byte)
  | _, [] => []
  | penX, character :: text => (penX, character) :: pens cellWidth (wrapInt (penX + cellWidth)) text

/-- How many of the sixteen samples of a pixel of a cell are set. -/
def hits (glyph : BitmapGlyph) (cellWidth cellHeight dx dy : ℤ) : ℕ :=
  (List.range 4).foldl (fun hits (sy : ℕ) =>
    let row := min 7 (((dy * 4 + sy) * 8).tdiv (cellHeight * 4))
    let bits := (glyph.getD row.toNat 0).toNat
    (List.range 4).foldl (fun hits (sx : ℕ) =>
      let column := min 7 (((dx * 4 + sx) * 8).tdiv (cellWidth * 4))
      if bits &&& (0x80 >>> column.toNat) ≠ 0 then hits + 1 else hits) hits) 0

/-- The loops over the pixels of a cell. -/
def drawGlyph (glyph : BitmapGlyph) (penX penY cellWidth cellHeight : ℤ) (color : Color)
    (clip : Option (RoundedRect ℚ)) : List Blend :=
  (area 0 0 cellWidth cellHeight).flatMap fun d =>
    let p : Pixel := (penX + d.1, penY + d.2)
    let hits := hits glyph cellWidth cellHeight d.1 d.2
    if hits = 0 ∨ accepts p clip = false then []
    else [(p, { color with alpha := UInt8.ofNat (color.alpha.toNat * hits / 16) })]

/-- The places of the pen in `draw_text`. -/
def drawnPens (rect : LayoutRect ℚ) (text : Bytes) (fontSize : ℚ) : List (ℤ × Byte) :=
  if text = [] ∨ fontSize ≤ 0 then [] else pens (cellWidth fontSize) (wrapInt (lround rect.x)) text

/-- `SoftwareSurface::draw_text`. -/
def drawText (rect : LayoutRect ℚ) (text : Bytes) (fontSize : ℚ) (color : Color)
    (clip : Option (RoundedRect ℚ)) : List Blend :=
  (drawnPens rect text fontSize).flatMap fun pen =>
    drawGlyph (bitmapGlyphFor pen.2) pen.1 (wrapInt (lround rect.y)) (cellWidth fontSize)
      (cellHeight fontSize) color clip

/-- `SoftwareSurface::draw_text_decoration`. -/
def drawTextDecoration (rect : LayoutRect ℚ) (decoration : Bytes) (color : Color)
    (clip : Option (RoundedRect ℚ)) : List Blend :=
  if decoration = lit "none" ∨ decoration = [] then []
  else
    let y :=
      if decoration = lit "overline" then rect.y
      else if decoration = lit "line-through" then rect.y + rect.height * (1 / 2)
      else rect.y + rect.height - 1
    surface.fillRect ⟨rect.x, y, rect.width, 1⟩ color clip

/-! ## Images -/

/-- The pixels of a rectangle that are on the surface. -/
def visible (rect : LayoutRect ℚ) : List Pixel :=
  area (max 0 (castInt ⌊rect.x⌋)) (max 0 (castInt ⌊rect.y⌋))
    (min surface.width (castInt ⌈rect.x + rect.width⌉))
    (min surface.height (castInt ⌈rect.y + rect.height⌉))

variable (quotient : ℚ → ℚ → ℚ)

/-- The colour that an image stretched to a rectangle has at a pixel. -/
def sample (rect : LayoutRect ℚ) (image : Image) (p : Pixel) : Color :=
  imagePixel image
    (clampInt (castInt (quotient ((p.1 - rect.x) * image.width) rect.width)) 0 (image.width - 1))
    (clampInt (castInt (quotient ((p.2 - rect.y) * image.height) rect.height)) 0
      (image.height - 1))

/-- The loops over the pixels of an image that is stretched to a rectangle. -/
def drawStretched (rect : LayoutRect ℚ) (image : Image) (clip : Option (RoundedRect ℚ)) :
    List Blend :=
  ((surface.visible rect).filter fun p => accepts p clip).map fun p =>
    (p, sample quotient rect image p)

/-- The rectangle to which an image is stretched. -/
def fitted (rect : LayoutRect ℚ) (image : Image) (objectFit : Bytes) : LayoutRect ℚ :=
  if objectFit = lit "contain" ∨ objectFit = lit "cover" then
    let scale :=
      if objectFit = lit "contain" then
        fmin (quotient rect.width image.width) (quotient rect.height image.height)
      else fmax (quotient rect.width image.width) (quotient rect.height image.height)
    let width := image.width * scale
    let height := image.height * scale
    ⟨rect.x + (rect.width - width) / 2, rect.y + (rect.height - height) / 2, width, height⟩
  else rect

/-- `SoftwareSurface::draw_image`, the overload with `object_fit`. -/
def drawImage (rect : LayoutRect ℚ) (image : Image) (objectFit : Bytes)
    (clip : Option (RoundedRect ℚ)) : List Blend :=
  if validImage image = false ∨ rect.width ≤ 0 ∨ rect.height ≤ 0 then []
  else surface.drawStretched quotient (fitted quotient rect image objectFit) image clip

/-- The width and the height of a tile. -/
def tileSize (rect : LayoutRect ℚ) (image : Image) (size : Bytes) : ℚ × ℚ :=
  if size = lit "cover" ∨ size = lit "contain" then
    let scale :=
      if size = lit "cover" then
        fmax (quotient rect.width image.width) (quotient rect.height image.height)
      else fmin (quotient rect.width image.width) (quotient rect.height image.height)
    (image.width * scale, image.height * scale)
  else if size = lit "100% 100%" then (rect.width, rect.height)
  else (image.width, image.height)

/-- Where the first tile begins. -/
def tileOrigin (rect : LayoutRect ℚ) (tile : ℚ × ℚ) (position : Bytes) : ℚ × ℚ :=
  if (find position (lit "center")).isSome then
    (rect.x + (rect.width - tile.1) / 2, rect.y + (rect.height - tile.2) / 2)
  else if (find position (lit "right")).isSome then (rect.x + (rect.width - tile.1), rect.y)
  else if (find position (lit "bottom")).isSome then (rect.x, rect.y + (rect.height - tile.2))
  else (rect.x, rect.y)

/-- The number of tiles next to each other, and below each other. -/
def tileCounts (rect : LayoutRect ℚ) (tile : ℚ × ℚ) (repeats : Bytes) : ℤ × ℤ :=
  if repeats = lit "no-repeat" then (1, 1)
  else
    (if repeats = lit "repeat" ∨ repeats = lit "repeat-x" then
        wrapInt (castInt ⌈quotient rect.width tile.1⌉ + 2)
      else 1,
      if repeats = lit "repeat" ∨ repeats = lit "repeat-y" then
        wrapInt (castInt ⌈quotient rect.height tile.2⌉ + 2)
      else 1)

/-- `SoftwareSurface::draw_background_image`. -/
def drawBackgroundImage (rect : LayoutRect ℚ) (image : Image) (repeats position size : Bytes)
    (clip : Option (RoundedRect ℚ)) : List Blend :=
  if validImage image = false ∨ rect.width ≤ 0 ∨ rect.height ≤ 0 then []
  else
    let tile := tileSize quotient rect image size
    let origin := tileOrigin rect tile position
    let counts := tileCounts quotient rect tile repeats
    let effectiveClip := clip.getD ⟨rect, 0⟩
    (Int.range 0 counts.2).flatMap fun yi : ℤ => (Int.range 0 counts.1).flatMap fun xi : ℤ =>
      surface.drawImage quotient
        ⟨origin.1 + xi * tile.1, origin.2 + yi * tile.2, tile.1, tile.2⟩ image (lit "fill")
        (some effectiveClip)

/-! ## Shadows -/

/-- `SoftwareSurface::draw_shadow`. -/
def drawShadow (rect : LayoutRect ℚ) (offsetX offsetY blur : ℚ) (color : Color)
    (clip : Option (RoundedRect ℚ)) : List Blend :=
  let spread := max 0 (castInt ⌈blur⌉)
  surface.fillRect
    ⟨rect.x + offsetX - spread, rect.y + offsetY - spread, rect.width + wrapInt (2 * spread),
      rect.height + wrapInt (2 * spread)⟩
    { color with alpha := UInt8.ofNat (color.alpha.toNat / (max 1 (wrapInt (spread + 1))).toNat) }
    clip

/-! ## What becomes of a pixel -/

variable {surface quotient}

theorem contains_iff {p : Pixel} :
    surface.contains p = true ↔
      (0 ≤ p.1 ∧ p.1 < surface.width) ∧ 0 ≤ p.2 ∧ p.2 < surface.height := by
  rw [SoftwareSurface.contains, decide_eq_true_iff]
  tauto

theorem index_lt {p : Pixel} (hp : surface.contains p = true) :
    surface.index p < surface.pixels.length := by
  obtain ⟨⟨hx, hx'⟩, hy, hy'⟩ := contains_iff.mp hp
  have hcolumn : p.1.toNat + 1 ≤ surface.width := by omega
  have hrow : p.2.toNat + 1 ≤ surface.height := by omega
  have hmemory : (p.2.toNat + 1) * surface.width ≤ surface.height * surface.width :=
    Nat.mul_le_mul_right _ hrow
  rw [surface.size, index, Nat.mul_comm surface.width]
  rw [Nat.succ_mul] at hmemory
  omega

/-- Different pixels are at different places. -/
theorem index_inj {p q : Pixel} (hp : surface.contains p = true) (hq : surface.contains q = true)
    (h : surface.index p = surface.index q) : p = q := by
  obtain ⟨⟨hx, hx'⟩, hy, -⟩ := contains_iff.mp hp
  obtain ⟨⟨hu, hu'⟩, hv, -⟩ := contains_iff.mp hq
  have hp' : p.1.toNat < surface.width := by omega
  have hq' : q.1.toNat < surface.width := by omega
  rw [index, index, Nat.mul_comm, Nat.mul_comm q.2.toNat] at h
  have hrow : p.2.toNat = q.2.toNat := by
    have hdiv := congrArg (· / surface.width) h
    simpa only [Nat.mul_add_div (Nat.zero_lt_of_lt hp'), Nat.div_eq_of_lt hp',
      Nat.div_eq_of_lt hq', Nat.add_zero] using hdiv
  rw [hrow, Nat.add_left_cancel_iff] at h
  refine Prod.ext ?_ ?_
  · omega
  · omega

theorem width_blendPixel (call : Blend) : (surface.blendPixel call).width = surface.width := by
  rw [blendPixel]
  split
  · rfl
  · rfl

theorem height_blendPixel (call : Blend) : (surface.blendPixel call).height = surface.height := by
  rw [blendPixel]
  split
  · rfl
  · rfl

theorem pixels_blendPixel (call : Blend) :
    (surface.blendPixel call).pixels =
      if surface.contains call.1 then
        surface.pixels.set (surface.index call.1)
          (blendOver call.2 (surface.pixels.getD (surface.index call.1) {}))
      else surface.pixels := by
  rw [blendPixel]
  split
  · rfl
  · rfl

/-- One call. -/
theorem pixel_blendPixel (call : Blend) {p : Pixel} (hp : surface.contains p = true) :
    (surface.blendPixel call).contains p = true ∧
      (surface.blendPixel call).pixel p =
        if call.1 = p then blendOver call.2 (surface.pixel p) else surface.pixel p := by
  have hcontains : (surface.blendPixel call).contains p = true := by
    rw [SoftwareSurface.contains, width_blendPixel, height_blendPixel]
    exact hp
  have hindex : (surface.blendPixel call).index p = surface.index p := by
    rw [index, width_blendPixel]
    rfl
  refine ⟨hcontains, ?_⟩
  rw [pixel, if_pos hcontains, pixel, if_pos hp, hindex, pixels_blendPixel]
  by_cases heq : call.1 = p
  · rw [if_pos heq, heq, if_pos hp, List.getD_eq_getElem?_getD]
    exact congrArg (Option.getD · _) (List.getElem?_set_self (index_lt hp))
  · rw [if_neg heq]
    split
    next hcall =>
      rw [List.getD_eq_getElem?_getD, List.getD_eq_getElem?_getD]
      exact congrArg (Option.getD · _)
        (List.getElem?_set_ne fun h => heq (index_inj hcall hp h))
    next => rfl

/-- **A pixel of the surface after some calls**: the colours of the calls for it, blended over it in
order. -/
theorem pixel_paint (calls : List Blend) {p : Pixel} (hp : surface.contains p = true) :
    (surface.paint calls).pixel p =
      (valuesAt p calls).foldl (fun old color => blendOver color old) (surface.pixel p) :=
  foldl_write (fun surface : SoftwareSurface => surface.pixel p)
    (fun surface : SoftwareSurface => surface.contains p = true)
    (fun _ call hcontains => pixel_blendPixel call hcontains) calls hp

/-! ## How often a pixel is blended -/

/-- The number of calls for a pixel. -/
def times (calls : List Blend) (p : Pixel) : ℕ := (calls.map Prod.fst).count p

theorem times_append (as bs : List Blend) (p : Pixel) :
    times (as ++ bs) p = times as p + times bs p := by
  rw [times, List.map_append, List.count_append]
  rfl

theorem times_flatMap {β : Type} (l : List β) (f : β → List Blend) (p : Pixel) :
    times (l.flatMap f) p = (l.map fun b => times (f b) p).sum := by
  rw [times, List.map_flatMap, List.count_flatMap]
  rfl

theorem times_nil (p : Pixel) : times [] p = 0 := rfl

/-- A rectangle at integer coordinates. -/
def intRect (x y width height : ℤ) : LayoutRect ℚ := ⟨x, y, width, height⟩

theorem le_half {a b : ℤ} : (a : ℚ) ≤ b + 1 / 2 ↔ a ≤ b := by
  constructor
  · intro h
    have h' : (a : ℚ) < (b + 1 : ℤ) := by
      push_cast
      linarith
    exact Int.lt_add_one_iff.mp (Int.cast_lt.mp h')
  · intro h
    have h' : (a : ℚ) ≤ b := Int.cast_le.mpr h
    linarith

theorem half_lt {a b : ℤ} : (b : ℚ) + 1 / 2 < a ↔ b < a := by
  rw [← not_le, le_half, not_le]

/-- The centres of the pixels of a rectangle at integer coordinates. -/
theorem inRect_intRect {x y width height : ℤ} {p : Pixel} :
    inRect (intRect x y width height) (p.1 + 1 / 2) (p.2 + 1 / 2) = true ↔
      (x ≤ p.1 ∧ p.1 < x + width) ∧ y ≤ p.2 ∧ p.2 < y + height := by
  rw [inRect_iff, intRect, ← Int.cast_add, ← Int.cast_add, le_half, le_half, half_lt, half_lt]
  tauto

/-- A rounded rectangle is inside of its rectangle. -/
theorem inRect_of_contains {shape : RoundedRect ℚ} {x y : ℚ} (h : shape.contains x y = true) :
    inRect shape.rect x y = true := by
  have hrect : shape.normalized.rect = shape.rect := rfl
  rw [RoundedRect.contains, hrect] at h
  by_cases hout : x < shape.rect.x ∨ y < shape.rect.y ∨ shape.rect.x + shape.rect.width ≤ x ∨
      shape.rect.y + shape.rect.height ≤ y
  · rw [if_pos hout] at h
    exact absurd h Bool.false_ne_true
  · rw [not_or, not_or, not_or, not_lt, not_lt, not_le, not_le] at hout
    exact inRect_iff.mpr hout

/-- What a clip accepts is inside its rectangle. -/
theorem inRect_of_accepts {clip : RoundedRect ℚ} {p : Pixel} (h : accepts p (some clip) = true) :
    inRect clip.rect (p.1 + 1 / 2) (p.2 + 1 / 2) = true := inRect_of_contains h

/-- Of one kind of calls, for the pixels of an area that pass a test. -/
theorem times_map (color : Pixel → Color) (test : Pixel → Bool) (left top right bottom : ℤ)
    (p : Pixel) :
    times (((area left top right bottom).filter test).map fun p => (p, color p)) p =
      if ((left ≤ p.1 ∧ p.1 < right) ∧ top ≤ p.2 ∧ p.2 < bottom) ∧ test p = true then 1 else 0 := by
  have hfst : (fun p : Pixel => (p, color p).1) = id := rfl
  rw [times, List.map_map, Function.comp_def, hfst, List.map_id, count_filter_area]

theorem clampInt_iff {low high value : ℤ} {bound : ℕ} :
    clampInt low 0 bound ≤ value ∧ value < clampInt high 0 bound ↔
      (low ≤ value ∧ value < high) ∧ 0 ≤ value ∧ value < bound := by
  rw [clampInt, clampInt]
  split_ifs <;> omega

/-- A pixel of an area that is filled. -/
theorem times_touched {rect : LayoutRect ℚ} (hfits : BoundsFit rect) (color : Color)
    (clip : Option (RoundedRect ℚ)) (p : Pixel) :
    times (((surface.touched rect).filter fun p => accepts p clip).map fun p => (p, color)) p =
      if surface.contains p = true ∧ accepts p clip = true ∧
        (⌊rect.x⌋ ≤ p.1 ∧ p.1 < ⌈rect.x + rect.width⌉) ∧
          ⌊rect.y⌋ ≤ p.2 ∧ p.2 < ⌈rect.y + rect.height⌉ then 1 else 0 := by
  rw [touched, castInt_intCast hfits.left, castInt_intCast hfits.top, castInt_intCast hfits.right,
    castInt_intCast hfits.bottom, times_map fun _ => color]
  refine if_congr ?_ rfl rfl
  rw [clampInt_iff, clampInt_iff, contains_iff]
  tauto

/-- What is left of a rectangle inside a clip. -/
theorem intersectRect_le {a b : LayoutRect ℚ}
    (hpos : ¬((intersectRect a b).width ≤ 0 ∨ (intersectRect a b).height ≤ 0)) :
    (a.x ≤ (intersectRect a b).x ∧
        (intersectRect a b).x + (intersectRect a b).width ≤ a.x + a.width) ∧
      a.y ≤ (intersectRect a b).y ∧
        (intersectRect a b).y + (intersectRect a b).height ≤ a.y + a.height := by
  by_cases hempty : fmin (a.x + a.width) (b.x + b.width) ≤ fmax a.x b.x ∨
      fmin (a.y + a.height) (b.y + b.height) ≤ fmax a.y b.y
  · rw [intersectRect, if_pos hempty] at hpos
    exact absurd (Or.inl le_rfl) hpos
  · rw [intersectRect, if_neg hempty]
    simp only [fmax_rat, fmin_rat, add_sub_cancel]
    exact ⟨⟨le_max_left _ _, min_le_left _ _⟩, le_max_left _ _, min_le_left _ _⟩

/-- The pixels whose centres are in a rectangle meet it. -/
theorem meets_of_inRect {rect : LayoutRect ℚ} {p : Pixel}
    (h : inRect rect (p.1 + 1 / 2) (p.2 + 1 / 2) = true) :
    (⌊rect.x⌋ ≤ p.1 ∧ p.1 < ⌈rect.x + rect.width⌉) ∧
      ⌊rect.y⌋ ≤ p.2 ∧ p.2 < ⌈rect.y + rect.height⌉ := by
  obtain ⟨hx, hy, hx', hy'⟩ := inRect_iff.mp h
  exact ⟨⟨le_half.mp ((Int.floor_le _).trans hx), half_lt.mp (hx'.trans_le (Int.le_ceil _))⟩,
    le_half.mp ((Int.floor_le _).trans hy), half_lt.mp (hy'.trans_le (Int.le_ceil _))⟩

/-- **The pixels of a rectangle at integer coordinates that the clip accepts are filled once.** -/
theorem times_fillRect {x y width height : ℤ} {clip : Option (RoundedRect ℚ)}
    (hfits : ∀ rect ∈ clipped (intRect x y width height) clip, BoundsFit rect) (color : Color)
    (p : Pixel) :
    times (surface.fillRect (intRect x y width height) color clip) p =
      if surface.contains p = true ∧ accepts p clip = true ∧
        (x ≤ p.1 ∧ p.1 < x + width) ∧ y ≤ p.2 ∧ p.2 < y + height then 1 else 0 := by
  cases clip with
  | none =>
    rw [fillRect]
    refine (times_touched (hfits _ rfl) color none p).trans ?_
    rw [intRect, ← Int.cast_add, ← Int.cast_add, Int.floor_intCast, Int.floor_intCast,
      Int.ceil_intCast, Int.ceil_intCast]
  | some clip =>
    have hcentre (haccepts : accepts p (some clip) = true)
        (hin : (x ≤ p.1 ∧ p.1 < x + width) ∧ y ≤ p.2 ∧ p.2 < y + height) :
        inRect (intersectRect (intRect x y width height) clip.rect) (p.1 + 1 / 2) (p.2 + 1 / 2) =
          true :=
      inRect_intersectRect.mpr ⟨inRect_intRect.mpr hin, inRect_of_accepts haccepts⟩
    rw [clipped] at hfits
    rw [fillRect, clipped]
    by_cases hempty : (intersectRect (intRect x y width height) clip.rect).width ≤ 0 ∨
        (intersectRect (intRect x y width height) clip.rect).height ≤ 0
    · simp only [if_pos hempty]
      rw [times_nil, if_neg]
      rintro ⟨-, haccepts, hin⟩
      obtain ⟨hx, hy, hx', hy'⟩ := inRect_iff.mp (hcentre haccepts hin)
      rcases hempty with hempty | hempty
      · linarith
      · linarith
    · obtain ⟨⟨hx, hx'⟩, hy, hy'⟩ := intersectRect_le hempty
      simp only [if_neg hempty] at hfits ⊢
      rw [times_touched (hfits _ rfl)]
      refine if_congr (and_congr_right fun _ => and_congr_right fun haccepts =>
        ⟨?_, fun hin => meets_of_inRect (hcentre haccepts hin)⟩) rfl rfl
      rintro ⟨⟨hleft, hright⟩, htop, hbottom⟩
      refine ⟨⟨?_, ?_⟩, ?_, ?_⟩
      · exact (Int.le_floor.mpr hx).trans hleft
      · refine hright.trans_le (Int.ceil_le.mpr (hx'.trans_eq ?_))
        rw [intRect, Int.cast_add]
      · exact (Int.le_floor.mpr hy).trans htop
      · refine hbottom.trans_le (Int.ceil_le.mpr (hy'.trans_eq ?_))
        rw [intRect, Int.cast_add]

/-- **The pixels that an image is stretched over are blended once, if the clip accepts them.** -/
theorem times_drawStretched (quotient : ℚ → ℚ → ℚ) (surface : SoftwareSurface)
    {rect : LayoutRect ℚ} (hfits : BoundsFit rect) (image : Image) (clip : Option (RoundedRect ℚ)) (p : Pixel) :
    times (surface.drawStretched quotient rect image clip) p =
      if surface.contains p = true ∧ accepts p clip = true ∧
        (⌊rect.x⌋ ≤ p.1 ∧ p.1 < ⌈rect.x + rect.width⌉) ∧
          ⌊rect.y⌋ ≤ p.2 ∧ p.2 < ⌈rect.y + rect.height⌉ then 1 else 0 := by
  rw [drawStretched, visible, castInt_intCast hfits.left, castInt_intCast hfits.top,
    castInt_intCast hfits.right, castInt_intCast hfits.bottom,
    times_map (sample quotient rect image)]
  refine if_congr ?_ rfl rfl
  rw [max_le_iff, lt_min_iff, max_le_iff, lt_min_iff, contains_iff]
  tauto

end SoftwareSurface

end Aetheris.Paint
