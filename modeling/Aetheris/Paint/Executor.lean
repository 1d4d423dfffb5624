import Aetheris.Paint.Tiles

/-!
# The executor

`PaintExecutor` of `rendering/paint_executor.cpp`: which function of the surface is called for which
command.  Backgrounds and the contents of `img` elements are both `DrawImage` commands, and they are
told apart by three values for backgrounds, whose defaults are legitimate values of a background.  A
background with these values is taken for the content of an `img` and stretched to its box.

`SameAsBackground` compares the two ways to paint pixel by pixel.  They are the same if the shortcut
is not taken, and if the box has the size of the image.  Otherwise the box and the image at its
natural size meet different pixels, and a surface and a clip that show one of these tell the two
apart (`sameAsBackground_iff`).
-/

namespace Aetheris.Paint

open Layout Raster SoftwareSurface

/-! ## Colours -/

/-- `hex_byte`. -/
def hexByte (value : Bytes) : Option Byte :=
  if value.length = 2 ∧ (leadingDigits 16 value).length = 2 then
    some (UInt8.ofNat (numberOf 16 (leadingDigits 16 value)))
  else none

/-- `named_colors`. -/
def namedColors : List (Bytes × Color) :=
  [(lit "black", ⟨0, 0, 0, 255⟩), (lit "white", ⟨255, 255, 255, 255⟩), (lit "red", ⟨255, 0, 0, 255⟩),
    (lit "green", ⟨0, 128, 0, 255⟩), (lit "blue", ⟨0, 0, 255, 255⟩),
    (lit "yellow", ⟨255, 255, 0, 255⟩), (lit "gray", ⟨128, 128, 128, 255⟩),
    (lit "grey", ⟨128, 128, 128, 255⟩)]

/-- `value.substr(start, count)`. -/
def substr (value : Bytes) (start count : ℕ) : Bytes := (value.drop start).take count

/-- `Color::parse`. -/
def parseColor (value : Bytes) : Option Color :=
  let short : Option Color :=
    if value.length = 4 ∧ value.head? = some (chr '#') then do
      let r ← hexByte (substr value 1 1 ++ substr value 1 1)
      let g ← hexByte (substr value 2 1 ++ substr value 2 1)
      let b ← hexByte (substr value 3 1 ++ substr value 3 1)
      some ⟨r, g, b, 255⟩
    else none
  let long : Option Color :=
    if (value.length = 7 ∨ value.length = 9) ∧ value.head? = some (chr '#') then do
      let r ← hexByte (substr value 1 2)
      let g ← hexByte (substr value 3 2)
      let b ← hexByte (substr value 5 2)
      let a ← if value.length = 9 then hexByte (substr value 7 2) else some 255
      some ⟨r, g, b, a⟩
    else none
  if value = lit "transparent" then some ⟨0, 0, 0, 0⟩
  else
    ((namedColors.find? fun named => value = named.1).map Prod.snd).or (short.or long)

/-- `command_color`. -/
def commandColor (command : PaintCommand ℚ) : Color :=
  let color := (parseColor command.color).getD ⟨0, 0, 0, 255⟩
  { color with
    alpha := UInt8.ofNat (truncate (color.alpha.toNat * clamp command.opacity 0 1)).toNat }

/-! ## The commands -/

/-- The values that `DrawImage` is dispatched by. -/
def Shortcut (repeats position size : Bytes) : Prop :=
  repeats = lit "no-repeat" ∧ size = lit "auto" ∧ position = lit "0 0"

instance (repeats position size : Bytes) : Decidable (Shortcut repeats position size) :=
  inferInstanceAs (Decidable (_ ∧ _))

/-- The `switch` of `PaintExecutor::execute`. -/
def paintCommand (quotient : ℚ → ℚ → ℚ) (surface : SoftwareSurface) (command : PaintCommand ℚ)
    (clip : Option (RoundedRect ℚ)) : List Blend :=
  let color := commandColor command
  match command.type with
  | .fillRect => surface.fillRect command.rect color clip
  | .fillRoundedRect => surface.fillRoundedRect command.rect command.radius color clip
  | .strokeRect => surface.strokeRect command.rect command.edges color clip command.borderStyle
  | .strokeRoundedRect =>
    surface.strokeRoundedRect command.rect command.radius command.edges color clip
      command.borderStyle
  | .drawText => drawText command.rect command.text command.fontSize color clip
  | .drawTextDecoration =>
    surface.drawTextDecoration command.rect command.textDecoration color clip
  | .drawImage =>
    match command.image with
    | none => []
    | some image =>
      if Shortcut command.backgroundRepeat command.backgroundPosition command.backgroundSize then
        surface.drawImage quotient command.rect image command.imageFit clip
      else
        surface.drawBackgroundImage quotient command.rect image command.backgroundRepeat
          command.backgroundPosition command.backgroundSize clip
  | .drawShadow =>
    surface.drawShadow command.rect command.shadowOffsetX command.shadowOffsetY command.shadowBlur
      color clip
  | .drawOutline => surface.strokeRect command.rect command.edges color clip command.borderStyle
  | .pushStackingContext => []
  | .popStackingContext => []

/-- The command that `emit` appends for a background image. -/
def backgroundCommand (rect : LayoutRect ℚ) (image : Image) (repeats position size : Bytes)
    (opacity : ℚ) : PaintCommand ℚ :=
  { type := .drawImage, rect := rect, image := some image, imageFit := lit "fill",
    backgroundRepeat := repeats, backgroundPosition := position, backgroundSize := size,
    opacity := opacity }

variable (quotient : ℚ → ℚ → ℚ) (surface : SoftwareSurface) (rect : LayoutRect ℚ) (image : Image)
  (repeats position size : Bytes) (opacity : ℚ) (clip : Option (RoundedRect ℚ)) (p : Pixel)

/-- **A background is painted as one**: every pixel gets the colours of `draw_background_image`. -/
def SameAsBackground : Prop :=
  ∀ p, valuesAt p (paintCommand quotient surface
      (backgroundCommand rect image repeats position size opacity) clip) =
    valuesAt p (surface.drawBackgroundImage quotient rect image repeats position size clip)

/-- The shortcut is not taken, or nothing is drawn, or the rectangle is at integer coordinates and has
the size of the image. -/
def NotStretched : Prop :=
  Shortcut repeats position size → validImage image = true → 0 < rect.width → 0 < rect.height →
    ∃ x y : ℤ, rect = intRect x y image.width image.height

/-! ## The two ways to paint -/

/-- The image at its own size, in the corner of a rectangle. -/
def natural : LayoutRect ℚ := ⟨rect.x, rect.y, image.width, image.height⟩

variable {quotient surface rect image repeats position size opacity clip p}

/-- A picture that is drawn once, at its own size. -/
theorem drawBackgroundImage_of_shortcut (hvalid : validImage image = true) (hwidth : 0 < rect.width)
    (hheight : 0 < rect.height) (hshortcut : Shortcut repeats position size) :
    surface.drawBackgroundImage quotient rect image repeats position size clip =
      surface.drawStretched quotient (natural rect image) image (some (clip.getD ⟨rect, 0⟩)) := by
  obtain ⟨rfl, rfl, rfl⟩ := hshortcut
  have hauto : tileSize quotient rect image (lit "auto") =
      ((image.width : ℚ), (image.height : ℚ)) := by
    rw [tileSize, if_neg (by decide), if_neg (by decide)]
  have horigin (tile : ℚ × ℚ) : tileOrigin rect tile (lit "0 0") = (rect.x, rect.y) := by
    rw [tileOrigin, if_neg (by decide), if_neg (by decide), if_neg (by decide)]
  have hcounts (tile : ℚ × ℚ) : tileCounts quotient rect tile (lit "no-repeat") = (1, 1) :=
    if_pos rfl
  have hone : Int.range 0 1 = [0] := rfl
  have hpicture : surface.drawImage quotient (natural rect image) image (lit "fill")
      (some (clip.getD ⟨rect, 0⟩)) =
        surface.drawStretched quotient (natural rect image) image (some (clip.getD ⟨rect, 0⟩)) := by
    have hpixels := hvalid
    rw [validImage, decide_eq_true_iff] at hpixels
    rw [drawImage, if_neg, fitted, if_neg (by decide)]
    rintro (h | h | h)
    · exact Bool.false_ne_true (h.symm.trans hvalid)
    · exact (Int.cast_pos.mpr hpixels.1).not_ge h
    · exact (Int.cast_pos.mpr hpixels.2.1).not_ge h
  rw [drawBackgroundImage, if_neg (by simp [hvalid, hwidth, hheight])]
  simp only [hauto, horigin, hcounts, hone, List.flatMap_singleton, Int.cast_zero, zero_mul,
    add_zero]
  exact hpicture

/-- The shortcut draws the image stretched to the rectangle. -/
theorem paintCommand_of_shortcut (hvalid : validImage image = true) (hwidth : 0 < rect.width)
    (hheight : 0 < rect.height) (hshortcut : Shortcut repeats position size) :
    paintCommand quotient surface (backgroundCommand rect image repeats position size opacity)
        clip = surface.drawStretched quotient rect image clip := by
  have hcommand : paintCommand quotient surface
      (backgroundCommand rect image repeats position size opacity) clip =
        surface.drawImage quotient rect image (lit "fill") clip := if_pos hshortcut
  rw [hcommand, drawImage, if_neg (by simp [hvalid, hwidth, hheight]), fitted,
    if_neg (by decide)]

/-- The pixels that an image is drawn on are in its rectangle, which need not fit. -/
theorem inArea_of_mem_visible {x y width height : ℤ} (hwidth : 0 < width) (hheight : 0 < height)
    (h : p ∈ surface.visible (intRect x y width height)) : InArea (intRect x y width height) p := by
  have hcast {n : ℤ} (hn : 0 ≤ castInt n) : castInt n = n := by
    rw [castInt, truncate_intCast] at hn ⊢
    split
    · rfl
    next hno =>
      rw [if_neg hno] at hn
      exact absurd hn (by decide)
  have hedge {start length i : ℤ} {bound : ℕ} (hlength : 0 < length)
      (hi : max 0 (castInt start) ≤ i ∧ i < min (bound : ℤ) (castInt (start + length : ℤ))) :
      start ≤ i ∧ i < start + length := by
    have hend := hcast (n := start + length) (by omega)
    refine ⟨?_, by omega⟩
    by_cases hstart : FitsInt start
    · rw [castInt_intCast hstart] at hi
      omega
    · have hfits : FitsInt (start + length) := by
        by_contra hno
        rw [castInt, truncate_intCast, if_neg hno] at hend
        exact hno (hend ▸ ⟨le_rfl, by decide⟩)
      rw [FitsInt] at hstart hfits
      omega
  rw [visible, mem_area, intRect, Int.floor_intCast, Int.floor_intCast, ← Int.cast_add,
    ← Int.cast_add, Int.ceil_intCast, Int.ceil_intCast] at h
  exact inRect_intRect.mpr ⟨hedge hwidth h.1, hedge hheight h.2⟩

/-- A rectangle that has the size of the image. -/
theorem sameAsBackground_of_natural (h : NotStretched rect image repeats position size)
    (surface : SoftwareSurface) (clip : Option (RoundedRect ℚ)) :
    SameAsBackground quotient surface rect image repeats position size opacity clip := by
  by_cases hshortcut : Shortcut repeats position size
  · by_cases hempty : validImage image = false ∨ rect.width ≤ 0 ∨ rect.height ≤ 0
    · have hcommand : paintCommand quotient surface
          (backgroundCommand rect image repeats position size opacity) clip =
            surface.drawImage quotient rect image (lit "fill") clip := if_pos hshortcut
      intro p
      rw [hcommand, drawImage, if_pos hempty, drawBackgroundImage, if_pos hempty]
    · rw [not_or, not_or, Bool.not_eq_false, not_le, not_le] at hempty
      obtain ⟨hvalid, hwidth, hheight⟩ := hempty
      obtain ⟨x, y, hrect⟩ := h hshortcut hvalid hwidth hheight
      have hnatural : natural rect image = rect := by rw [hrect, natural, intRect]
      intro p
      rw [paintCommand_of_shortcut hvalid hwidth hheight hshortcut,
        drawBackgroundImage_of_shortcut hvalid hwidth hheight hshortcut, hnatural]
      cases clip with
      | some clip => rfl
      | none =>
        -- the rectangle as a clip accepts what is drawn
        rw [validImage, decide_eq_true_iff] at hvalid
        rw [drawStretched, drawStretched]
        refine congrArg (fun pixels => valuesAt p (List.map _ pixels))
          (List.filter_congr fun q hq => ?_)
        rw [hrect] at hq ⊢
        have hsame : accepts q (some (Option.getD none ⟨intRect x y image.width image.height, 0⟩)) =
            accepts q none := accepts_effective (inArea_of_mem_visible hvalid.1 hvalid.2.1 hq)
        exact hsame.symm
  · exact fun p => congrArg (valuesAt p) (if_neg hshortcut)

/-- The same calls for every pixel make the same picture. -/
theorem SameAsBackground.pixel_paint
    (h : SameAsBackground quotient surface rect image repeats position size opacity clip)
    (hp : surface.contains p = true) :
    (surface.paint (paintCommand quotient surface
        (backgroundCommand rect image repeats position size opacity) clip)).pixel p =
      (surface.paint (surface.drawBackgroundImage quotient rect image repeats position size
        clip)).pixel p := by
  rw [SoftwareSurface.pixel_paint _ hp, SoftwareSurface.pixel_paint _ hp, h p]

/-! ## Boxes of another size -/

/-- The pixels that get a colour, if the bounds of the rectangle are `int`s. -/
theorem valuesAt_drawStretched_ne_nil (quotient : ℚ → ℚ → ℚ) (surface : SoftwareSurface)
    (image : Image) (clip : Option (RoundedRect ℚ)) (p : Pixel) {x y width height : ℤ}
    (hfits : BoundsFit (intRect x y width height)) :
    valuesAt p (surface.drawStretched quotient (intRect x y width height) image clip) ≠ [] ↔
      surface.contains p = true ∧ accepts p clip = true ∧
        (x ≤ p.1 ∧ p.1 < x + width) ∧ y ≤ p.2 ∧ p.2 < y + height := by
  have htimes := times_drawStretched quotient surface hfits image clip p
  have hlength : (valuesAt p (surface.drawStretched quotient (intRect x y width height) image
      clip)).length = times (surface.drawStretched quotient (intRect x y width height) image clip)
        p := by
    rw [valuesAt, List.length_map, times, List.count_eq_countP, List.countP_map,
      List.countP_eq_length_filter]
    refine congrArg List.length (List.filter_congr fun call _ => ?_)
    rw [Function.comp_apply, beq_eq_decide]
  rw [intRect, Int.floor_intCast, Int.floor_intCast, ← Int.cast_add, ← Int.cast_add,
    Int.ceil_intCast, Int.ceil_intCast] at htimes
  rw [← List.length_pos_iff, hlength, intRect, htimes]
  split
  next h => exact iff_of_true one_pos h
  next h => exact iff_of_false (lt_irrefl 0) h

/-- A box in which the pixels of the image at its natural size are not all of its pixels: a surface and
a clip that have them show the difference. -/
theorem exists_not_sameAsBackground (quotient : ℚ → ℚ → ℚ) (opacity : ℚ) {x y width height : ℤ}
    (hx : 0 ≤ x) (hy : 0 ≤ y) (hright : x + max width image.width < 2 ^ 31)
    (hbottom : y + max height image.height < 2 ^ 31)
    (hvalid : validImage image = true) (hwidth : 0 < width) (hheight : 0 < height)
    (hshortcut : Shortcut repeats position size)
    (hsize : width ≠ image.width ∨ height ≠ image.height) :
    ∃ surface clip, ¬SameAsBackground quotient surface (intRect x y width height) image repeats
      position size opacity clip := by
  have hpixels := hvalid
  rw [validImage, decide_eq_true_iff] at hpixels
  obtain ⟨himage, himage', -⟩ := hpixels
  have hfits {width' height' : ℤ} (h : 0 < width') (h' : 0 < height')
      (hle : width' ≤ max width image.width) (hle' : height' ≤ max height image.height) :
      BoundsFit (intRect x y width' height') := by
    constructor <;> rw [intRect, FitsInt] <;>
      simp only [← Int.cast_add, Int.floor_intCast, Int.ceil_intCast] <;> omega
  -- a pixel that one of the two rectangles has and the other has not
  obtain ⟨p, hp, hdiffer⟩ : ∃ p : Pixel,
      ((0 ≤ p.1 ∧ p.1 < x + max width image.width) ∧
        0 ≤ p.2 ∧ p.2 < y + max height image.height) ∧
      ¬(((x ≤ p.1 ∧ p.1 < x + width) ∧ y ≤ p.2 ∧ p.2 < y + height) ↔
        (x ≤ p.1 ∧ p.1 < x + image.width) ∧ y ≤ p.2 ∧ p.2 < y + image.height) := by
    rcases hsize with hsize | hsize
    · exact ⟨(x + min width image.width, y), by simp only []; omega, by simp only []; omega⟩
    · exact ⟨(x, y + min height image.height), by simp only []; omega, by simp only []; omega⟩
  let surface := create (x + max width image.width) (y + max height image.height) {}
  let clip : RoundedRect ℚ := ⟨intRect 0 0 (2 ^ 31) (2 ^ 31), 0⟩
  have hcontains : surface.contains p = true := by
    refine contains_iff.mpr ⟨⟨hp.1.1, ?_⟩, hp.2.1, ?_⟩
    · show p.1 < ((max (x + max width image.width) 0).toNat : ℤ)
      omega
    · show p.2 < ((max (y + max height image.height) 0).toNat : ℤ)
      omega
  have haccepts : accepts p (some clip) = true := by
    have hplain : clip.contains (p.1 + 1 / 2) (p.2 + 1 / 2) =
        inRect clip.rect (p.1 + 1 / 2) (p.2 + 1 / 2) := contains_of_nonpos le_rfl
    refine hplain.trans (inRect_intRect.mpr ?_)
    omega
  refine ⟨surface, some clip, fun h => hdiffer ?_⟩
  have hcolours := h p
  rw [paintCommand_of_shortcut hvalid (Int.cast_pos.mpr hwidth) (Int.cast_pos.mpr hheight) hshortcut,
    drawBackgroundImage_of_shortcut hvalid (Int.cast_pos.mpr hwidth) (Int.cast_pos.mpr hheight)
      hshortcut] at hcolours
  have hbox := valuesAt_drawStretched_ne_nil quotient surface image (some clip) p
    (hfits hwidth hheight (le_max_left _ _) (le_max_left _ _))
  have hnatural := valuesAt_drawStretched_ne_nil quotient surface image (some clip) p
    (hfits himage himage' (le_max_right _ _) (le_max_right _ _))
  rw [hcolours] at hbox
  have hsame := hbox.symm.trans hnatural
  simpa only [hcontains, haccepts, true_and] using hsame

end Aetheris.Paint
