import Aetheris.Paint.Surface

/-!
# Solid borders

`SoftwareSurface::stroke_rect` puts a border together from four strips.  The upper and the lower
strip are as wide as the rectangle, and the other two as high, so that they meet in the corners.

A pixel is in a horizontal strip, in a vertical one, in both or in none, and since opposite strips
do not overlap, `times_strokeRect` counts it once for each of the two kinds.  The border is the
union of the strips, so what is painted twice are the corners, and `strokedOnce_iff` says that
nothing else goes wrong, as long as `fill_rect` can cast the bounds of a strip.
-/

namespace Aetheris.Paint

open Layout SoftwareSurface

/-- A rectangle and the widths of its border.  A side whose width is not positive is missing; the
widths of opposite sides do not exceed the size. -/
structure Border where
  x : ℤ
  y : ℤ
  width : ℤ
  height : ℤ
  top : ℤ
  right : ℤ
  bottom : ℤ
  left : ℤ
  heights_le : max 0 top + max 0 bottom ≤ height
  widths_le : max 0 left + max 0 right ≤ width

namespace Border

/-- The rectangle. -/
def outer (border : Border) : LayoutRect ℚ :=
  intRect border.x border.y border.width border.height

/-- The rectangle without the border. -/
def inner (border : Border) : LayoutRect ℚ :=
  intRect (border.x + border.left) (border.y + border.top)
    (border.width - border.left - border.right) (border.height - border.top - border.bottom)

/-- The strips that are not missing. -/
def strips (border : Border) : List (LayoutRect ℚ) :=
  (if 0 < border.top then [intRect border.x border.y border.width border.top] else []) ++
  (if 0 < border.bottom then
    [intRect border.x (border.y + border.height - border.bottom) border.width border.bottom]
    else []) ++
  (if 0 < border.left then [intRect border.x border.y border.left border.height] else []) ++
  (if 0 < border.right then
    [intRect (border.x + border.width - border.right) border.y border.right border.height] else [])

/-- The widths. -/
def edges (border : Border) : BoxEdges ℚ := ⟨border.top, border.right, border.bottom, border.left⟩

end Border

variable (surface : SoftwareSurface) (border : Border) (color : Color)
  (clip : Option (RoundedRect ℚ)) (p : Pixel)

/-- The centre of the pixel is in the rectangle, but not in the inner one. -/
def InBorder : Prop :=
  inRect border.outer (p.1 + 1 / 2) (p.2 + 1 / 2) = true ∧
    ¬inRect border.inner (p.1 + 1 / 2) (p.2 + 1 / 2) = true

instance : Decidable (InBorder border p) := inferInstanceAs (Decidable (_ ∧ _))

/-- The bounds of the strips, as far as they are in the clip, are `int`s. -/
def StripsFit : Prop :=
  ∀ strip ∈ border.strips, ∀ rect ∈ clipped strip clip, BoundsFit rect

/-- **Every pixel of the border that is on the surface and that the clip accepts is blended once,
and no other pixel is blended.**  Where a cast is not defined nothing is said about the pixels. -/
structure StrokedOnce : Prop where
  defined : StripsFit border clip
  once : ∀ p, times (surface.strokeRect border.outer border.edges color clip (lit "solid")) p =
    if (surface.contains p = true ∧ accepts p clip = true) ∧ InBorder border p then 1 else 0

/-- The pixel is above the inner rectangle, or below it. -/
def InHorizontal : Prop :=
  ((border.x ≤ p.1 ∧ p.1 < border.x + border.width) ∧
      border.y ≤ p.2 ∧ p.2 < border.y + border.height) ∧
    (p.2 < border.y + border.top ∨ border.y + border.height - border.bottom ≤ p.2)

/-- The pixel is on the left of the inner rectangle, or on its right. -/
def InVertical : Prop :=
  ((border.x ≤ p.1 ∧ p.1 < border.x + border.width) ∧
      border.y ≤ p.2 ∧ p.2 < border.y + border.height) ∧
    (p.1 < border.x + border.left ∨ border.x + border.width - border.right ≤ p.1)

instance : Decidable (InHorizontal border p) := inferInstanceAs (Decidable (_ ∧ _))

instance : Decidable (InVertical border p) := inferInstanceAs (Decidable (_ ∧ _))

variable {surface border color clip p}

/-- The strips cover the border. -/
theorem inBorder_iff : InBorder border p ↔ InHorizontal border p ∨ InVertical border p := by
  rw [InBorder, Border.outer, Border.inner, inRect_intRect, inRect_intRect, InHorizontal, InVertical]
  constructor
  · rintro ⟨hrect, hinner⟩
    by_contra hout
    rw [not_or, not_and_or, not_and_or] at hout
    omega
  · rintro (⟨hrect, h⟩ | ⟨hrect, h⟩)
    · exact ⟨hrect, by omega⟩
    · exact ⟨hrect, by omega⟩

/-- One strip, which is missing if it is empty. -/
theorem times_strip {size x y width height : ℤ} (hsize : size = width ∨ size = height)
    (hfits : 0 < size → ∀ rect ∈ clipped (intRect x y width height) clip, BoundsFit rect) :
    times (if 0 < (size : ℚ) then surface.fillRect (intRect x y width height) color clip else []) p =
      if (surface.contains p = true ∧ accepts p clip = true) ∧
        (x ≤ p.1 ∧ p.1 < x + width) ∧ y ≤ p.2 ∧ p.2 < y + height then 1 else 0 := by
  by_cases hpos : 0 < size
  · rw [if_pos (Int.cast_pos.mpr hpos), times_fillRect (hfits hpos)]
    exact if_congr and_assoc.symm rfl rfl
  · rw [if_neg (mt Int.cast_pos.mp hpos), times_nil, if_neg]
    rintro ⟨-, ⟨hx, hx'⟩, hy, hy'⟩
    omega

/-- A solid border is four rectangles. -/
theorem strokeRect_solid (surface : SoftwareSurface) (border : Border) (color : Color)
    (clip : Option (RoundedRect ℚ)) :
    surface.strokeRect border.outer border.edges color clip (lit "solid") =
      (if 0 < (border.top : ℚ) then
        surface.fillRect (intRect border.x border.y border.width border.top) color clip else []) ++
      (if 0 < (border.bottom : ℚ) then
        surface.fillRect (intRect border.x (border.y + border.height - border.bottom) border.width
          border.bottom) color clip else []) ++
      (if 0 < (border.left : ℚ) then
        surface.fillRect (intRect border.x border.y border.left border.height) color clip else []) ++
      (if 0 < (border.right : ℚ) then
        surface.fillRect (intRect (border.x + border.width - border.right) border.y border.right
          border.height) color clip else []) := by
  have hsolid : ¬(lit "solid" = lit "dashed" ∨ lit "solid" = lit "dotted") := by decide
  have hfar (start size edge : ℤ) : ((start + size - edge : ℤ) : ℚ) = start + size - edge := by
    push_cast
    rfl
  rw [strokeRect]
  simp only [strokePiece, if_neg hsolid, Border.outer, Border.edges, intRect, hfar]

/-- At most one of two cases. -/
theorem ite_add_ite {a b : Prop} [Decidable a] [Decidable b] (h : ¬(a ∧ b)) :
    ((if a then 1 else 0) + if b then 1 else 0 : ℕ) = if a ∨ b then 1 else 0 := by
  by_cases ha : a
  · rw [if_pos ha, if_pos (Or.inl ha), if_neg fun hb => h ⟨ha, hb⟩]
  · rw [if_neg ha, zero_add]
    exact if_congr (or_iff_right ha).symm rfl rfl

/-- **How often a pixel is blended**: once for the strips above and below, and once for those on the
left and on the right. -/
theorem times_strokeRect (surface : SoftwareSurface) {border : Border} (color : Color)
    {clip : Option (RoundedRect ℚ)} (hfits : StripsFit border clip) (p : Pixel) :
    times (surface.strokeRect border.outer border.edges color clip (lit "solid")) p =
      (if (surface.contains p = true ∧ accepts p clip = true) ∧ InHorizontal border p then 1 else 0) +
        if (surface.contains p = true ∧ accepts p clip = true) ∧ InVertical border p then 1 else 0 := by
  have hheights := border.heights_le
  have hwidths := border.widths_le
  rw [StripsFit, Border.strips, List.forall_mem_append, List.forall_mem_append,
    List.forall_mem_append] at hfits
  obtain ⟨⟨⟨htop, hbottom⟩, hleft⟩, hright⟩ := hfits
  rw [strokeRect_solid, times_append, times_append, times_append,
    times_strip (.inr rfl) fun hpos => htop _ (by rw [if_pos hpos]; exact List.mem_singleton_self _),
    times_strip (.inr rfl) fun hpos =>
      hbottom _ (by rw [if_pos hpos]; exact List.mem_singleton_self _),
    times_strip (.inl rfl) fun hpos =>
      hleft _ (by rw [if_pos hpos]; exact List.mem_singleton_self _),
    times_strip (.inl rfl) fun hpos =>
      hright _ (by rw [if_pos hpos]; exact List.mem_singleton_self _),
    add_assoc, ite_add_ite (by omega), ite_add_ite (by omega)]
  refine congrArg₂ _ (if_congr (and_or_left.symm.trans (and_congr_right fun _ => ?_)) rfl rfl)
    (if_congr (and_or_left.symm.trans (and_congr_right fun _ => ?_)) rfl rfl)
  · rw [InHorizontal]
    omega
  · rw [InVertical]
    omega

end Aetheris.Paint
