import Aetheris.Paint.Surface

/-!
# Tiled backgrounds

`SoftwareSurface::draw_background_image` draws tiles from an origin on that depends on the position.
Nothing is drawn in front of the origin, and only without a clip are the tiles clipped to the
rectangle.

A pixel is blended once for every tile that it meets (`times_drawBackgroundImage`), and the tiles
that it meets are those of its column times those of its row, so everything is decided along each
axis by itself.  Along an axis there are `count` tiles of one size behind an offset.  The offset is
half of an integer if the rectangle and the tiles have integer sizes, and a `TileRow` holds twice
the offset, as the position says it, and the number of tiles, as the repetition says it.  What can
go wrong is then seen in integers: a pixel of the rectangle lies in front of the first tile or
behind the last one; or two tiles meet inside it, half a pixel from its border; or a tile that the
clip does not hide leaves the rectangle.

The numbers of the tiles and the bounds of each tile are cast to `int`, and where such a cast is not
defined a background is not taken to be drawn.
-/

namespace Aetheris.Paint

open Layout Raster SoftwareSurface

variable (quotient : ℚ → ℚ → ℚ) (surface : SoftwareSurface) (rect : LayoutRect ℚ) (image : Image)
  (repeats position size : Bytes) (clip : Option (RoundedRect ℚ)) (p : Pixel)

/-- The centre of a pixel is in a rectangle. -/
def InArea : Prop := inRect rect (p.1 + 1 / 2) (p.2 + 1 / 2) = true

instance : Decidable (InArea rect p) := inferInstanceAs (Decidable (_ = true))

/-! ## The tiles -/

/-- Tiles next to each other and below each other. -/
structure TileGrid where
  origin : ℚ × ℚ
  tile : ℚ × ℚ
  counts : ℤ × ℤ

/-- The tiles of a background. -/
def tileGrid : TileGrid where
  origin := tileOrigin rect (tileSize quotient rect image size) position
  tile := tileSize quotient rect image size
  counts := tileCounts quotient rect (tileSize quotient rect image size) repeats

variable (grid : TileGrid)

/-- One of the tiles. -/
def TileGrid.tileAt (xi yi : ℤ) : LayoutRect ℚ :=
  ⟨grid.origin.1 + xi * grid.tile.1, grid.origin.2 + yi * grid.tile.2, grid.tile.1, grid.tile.2⟩

/-- The bounds of all tiles are `int`s. -/
def TileGrid.Fits : Prop :=
  ∀ xi ∈ Int.range 0 grid.counts.1, ∀ yi ∈ Int.range 0 grid.counts.2,
    BoundsFit (grid.tileAt xi yi)

/-- How many tiles the pixel meets. -/
def TileGrid.tilesAt : ℕ :=
  Raster.tilesAt grid.origin.1 grid.tile.1 grid.counts.1 p.1 *
    Raster.tilesAt grid.origin.2 grid.tile.2 grid.counts.2 p.2

/-- The casts for a background are defined: those of the numbers of tiles, which are added to, and
those of the bounds of each tile. -/
structure TilesDefined : Prop where
  columns : repeats = lit "repeat" ∨ repeats = lit "repeat-x" →
    FitsInt ⌈quotient rect.width (tileSize quotient rect image size).1⌉ ∧
      FitsInt (⌈quotient rect.width (tileSize quotient rect image size).1⌉ + 2)
  rows : repeats = lit "repeat" ∨ repeats = lit "repeat-y" →
    FitsInt ⌈quotient rect.height (tileSize quotient rect image size).2⌉ ∧
      FitsInt (⌈quotient rect.height (tileSize quotient rect image size).2⌉ + 2)
  tiles : (tileGrid quotient rect image repeats position size).Fits

/-- **With `repeat` every pixel in the rectangle that the clip accepts is blended once, and never a
pixel outside of the rectangle.** -/
structure TiledExactly : Prop where
  defined : validImage image = true → 0 < rect.width → 0 < rect.height →
    TilesDefined quotient rect image repeats position size
  covered : repeats = lit "repeat" → ∀ p,
    times (surface.drawBackgroundImage quotient rect image repeats position size clip) p =
      if (surface.contains p = true ∧ accepts p clip = true) ∧ InArea rect p then 1 else 0
  inside : ∀ p, ¬InArea rect p →
    times (surface.drawBackgroundImage quotient rect image repeats position size clip) p = 0

/-! ## Along an axis -/

/-- Tiles along one axis: so many of one size, the first of which begins half of `twiceOffset` behind
the start of the rectangle. -/
structure TileRow where
  start : ℤ
  length : ℤ
  size : ℤ
  twiceOffset : ℤ
  count : ℤ

namespace TileRow

variable (row : TileRow) (i : ℤ)

/-- The bounds and the number of the tiles are `int`s. -/
structure Fits : Prop where
  first : -2 ^ 32 ≤ 2 * row.start + row.twiceOffset
  last : 2 * row.start + row.twiceOffset + 2 * (row.count * row.size) ≤ 2 ^ 32 - 2
  count : row.count < 2 ^ 31

/-- The rectangle has the place `i`. -/
def Has : Prop := row.start ≤ i ∧ i < row.start + row.length

/-- The place is neither in front of the first tile nor behind the last one. -/
def Meets : Prop :=
  row.twiceOffset ≤ 2 * (i - row.start) + 1 ∧
    2 * (i - row.start) < row.twiceOffset + 2 * (row.count * row.size)

/-- Two tiles meet each other in the middle of the place. -/
def Seam : Prop :=
  ∃ k, 0 < k ∧ k < row.count ∧ 2 * (i - row.start) + 1 = row.twiceOffset + 2 * (k * row.size)

end TileRow

/-- A word of the position is found in it. -/
def Mentions (position word : Bytes) : Prop := (find position word).isSome = true

instance (position word : Bytes) : Decidable (Mentions position word) :=
  inferInstanceAs (Decidable (_ = true))

/-- The columns of tiles: in the middle for `center`, at the end for `right`, else at the start; and
two more than fill the rectangle if they are repeated. -/
def tileColumns (x width tileWidth : ℤ) : TileRow where
  start := x
  length := width
  size := tileWidth
  twiceOffset :=
    if Mentions position (lit "center") then width - tileWidth
    else if Mentions position (lit "right") then 2 * (width - tileWidth)
    else 0
  count :=
    if repeats = lit "repeat" ∨ repeats = lit "repeat-x" then ⌈quotient width tileWidth⌉ + 2 else 1

/-- The rows of tiles; `bottom` is heeded only if `right` is not there. -/
def tileRows (y height tileHeight : ℤ) : TileRow where
  start := y
  length := height
  size := tileHeight
  twiceOffset :=
    if Mentions position (lit "center") then height - tileHeight
    else if ¬Mentions position (lit "right") ∧ Mentions position (lit "bottom") then
      2 * (height - tileHeight)
    else 0
  count :=
    if repeats = lit "repeat" ∨ repeats = lit "repeat-y" then ⌈quotient height tileHeight⌉ + 2 else 1

namespace TileRow

variable {row : TileRow} {i : ℤ}

/-- Where the tiles begin. -/
def origin (row : TileRow) : ℚ := row.start + row.twiceOffset / 2

theorem covered_iff : Covered row.origin row.size row.count i ↔ row.Meets i := by
  rw [Covered, Meets, origin]
  refine and_congr ?_ ?_
  · constructor
    · intro h
      have h' : 2 * (row.start : ℚ) + row.twiceOffset < 2 * i + 2 := by linarith
      have h'' : 2 * row.start + row.twiceOffset < 2 * i + 2 := by exact_mod_cast h'
      omega
    · intro h
      have h' : (row.twiceOffset : ℚ) ≤ 2 * (i - row.start) + 1 := by exact_mod_cast h
      linarith
  · constructor
    · intro h
      have h' : 2 * ((i : ℚ) - row.start) < row.twiceOffset + 2 * (row.count * row.size) := by
        linarith
      exact_mod_cast h'
    · intro h
      have h' : 2 * ((i : ℚ) - row.start) < row.twiceOffset + 2 * (row.count * row.size) := by
        exact_mod_cast h
      linarith

theorem split_iff : Split row.origin row.size row.count i ↔ row.Seam i := by
  rw [Split, Seam, origin]
  refine exists_congr fun k => and_congr_right fun _ => and_congr_right fun _ => ?_
  constructor
  · rintro ⟨hlow, hhigh⟩
    have hlow' : 2 * ((i : ℚ) - row.start) < row.twiceOffset + 2 * (k * row.size) := by linarith
    have hhigh' : row.twiceOffset + 2 * (k * (row.size : ℚ)) < 2 * (i - row.start) + 2 := by linarith
    have hlow'' : 2 * (i - row.start) < row.twiceOffset + 2 * (k * row.size) := by
      exact_mod_cast hlow'
    have hhigh'' : row.twiceOffset + 2 * (k * row.size) < 2 * (i - row.start) + 2 := by
      exact_mod_cast hhigh'
    omega
  · intro h
    have h' : 2 * ((i : ℚ) - row.start) + 1 = row.twiceOffset + 2 * (k * row.size) := by
      exact_mod_cast h
    exact ⟨by linarith, by linarith⟩

/-- The tiles that meet a place. -/
theorem tilesAt_ne_zero (hsize : 0 < row.size) (hcount : 0 < row.count) :
    Raster.tilesAt row.origin row.size row.count i ≠ 0 ↔ row.Meets i := by
  rw [tilesAt_ne_zero_iff (Int.cast_pos.mpr hsize) hcount, covered_iff]

theorem tilesAt_eq_one (hsize : 0 < row.size) (hcount : 0 < row.count) :
    Raster.tilesAt row.origin row.size row.count i = 1 ↔ row.Meets i ∧ ¬row.Seam i := by
  rw [tilesAt_eq_one_iff (Int.cast_pos.mpr hsize) hcount, covered_iff, split_iff]

theorem floor_half (m : ℤ) : ⌊(m : ℚ) / 2⌋ = m / 2 := by
  have h := Int.ediv_mul_le m (b := 2) (by decide)
  have h' := Int.lt_ediv_add_one_mul_self m (b := 2) (by decide)
  have hq : ((m / 2 : ℤ) : ℚ) * 2 ≤ m := by exact_mod_cast h
  have hq' : (m : ℚ) < ((m / 2 : ℤ) + 1) * 2 := by exact_mod_cast h'
  exact Int.floor_eq_iff.mpr ⟨by linarith, by linarith⟩

theorem ceil_half (m : ℤ) : ⌈(m : ℚ) / 2⌉ = -(-m / 2) := by
  rw [← neg_neg ⌈(m : ℚ) / 2⌉, ← Int.floor_neg, ← neg_div, ← Int.cast_neg, floor_half]

/-- **The bounds of all tiles are `int`s** if the first and the last one are. -/
theorem fits_iff (hsize : 0 < row.size) (hcount : 0 < row.count) :
    (∀ k ∈ Int.range 0 row.count, FitsInt ⌊row.origin + k * row.size⌋ ∧
        FitsInt ⌈row.origin + k * row.size + row.size⌉) ↔
      -2 ^ 32 ≤ 2 * row.start + row.twiceOffset ∧
        2 * row.start + row.twiceOffset + 2 * (row.count * row.size) ≤ 2 ^ 32 - 2 := by
  have hleft (k : ℤ) : row.origin + k * row.size =
      ((2 * row.start + row.twiceOffset + 2 * (k * row.size) : ℤ) : ℚ) / 2 := by
    rw [origin]
    push_cast
    ring
  have hright (k : ℤ) : row.origin + k * row.size + row.size =
      ((2 * row.start + row.twiceOffset + 2 * ((k + 1) * row.size) : ℤ) : ℚ) / 2 := by
    rw [origin]
    push_cast
    ring
  simp only [hright]
  simp only [hleft, floor_half, ceil_half, FitsInt, Int.mem_range_iff]
  constructor
  · intro h
    have hfirst := (h 0 ⟨le_rfl, hcount⟩).1.1
    have hlast := (h (row.count - 1) ⟨by omega, by omega⟩).2.2
    rw [sub_add_cancel] at hlast
    omega
  · rintro ⟨hfirst, hlast⟩ k ⟨hk, hk'⟩
    -- the tiles are between the first and the last one
    have hlow : 0 ≤ k * row.size := by positivity
    have hhigh : (k + 1) * row.size ≤ row.count * row.size :=
      Int.mul_le_mul_of_nonneg_right (by omega) hsize.le
    rw [add_one_mul] at hhigh ⊢
    omega

/-- The bounds of tiles that lie along both axes. -/
theorem grid_fits_iff {columns rows : TileRow} (hcolumns : 0 < columns.size)
    (hcolumns' : 0 < columns.count) (hrows : 0 < rows.size) (hrows' : 0 < rows.count) :
    TileGrid.Fits ⟨(columns.origin, rows.origin), (columns.size, rows.size),
        (columns.count, rows.count)⟩ ↔
      (-2 ^ 32 ≤ 2 * columns.start + columns.twiceOffset ∧
          2 * columns.start + columns.twiceOffset + 2 * (columns.count * columns.size) ≤
            2 ^ 32 - 2) ∧
        -2 ^ 32 ≤ 2 * rows.start + rows.twiceOffset ∧
          2 * rows.start + rows.twiceOffset + 2 * (rows.count * rows.size) ≤ 2 ^ 32 - 2 := by
  rw [← fits_iff hcolumns hcolumns', ← fits_iff hrows hrows']
  constructor
  · intro h
    exact ⟨fun xi hxi => ⟨(h xi hxi 0 (Int.mem_range_iff.mpr ⟨le_rfl, hrows'⟩)).left,
        (h xi hxi 0 (Int.mem_range_iff.mpr ⟨le_rfl, hrows'⟩)).right⟩,
      fun yi hyi => ⟨(h 0 (Int.mem_range_iff.mpr ⟨le_rfl, hcolumns'⟩) yi hyi).top,
        (h 0 (Int.mem_range_iff.mpr ⟨le_rfl, hcolumns'⟩) yi hyi).bottom⟩⟩
  · rintro ⟨hx, hy⟩ xi hxi yi hyi
    exact ⟨(hx xi hxi).1, (hy yi hyi).1, (hx xi hxi).2, (hy yi hyi).2⟩

end TileRow

/-! ## How often a pixel is blended -/

variable {quotient surface rect image repeats position size clip p grid}

/-- **How often a pixel is blended**: once for every tile that it meets, if the clip accepts it, or
without a clip if it is in the rectangle. -/
theorem times_drawBackgroundImage (surface : SoftwareSurface) {repeats position size : Bytes}
    (clip : Option (RoundedRect ℚ)) (hvalid : validImage image = true) (hwidth : 0 < rect.width)
    (hheight : 0 < rect.height) (htile : 0 < (tileSize quotient rect image size).1)
    (htile' : 0 < (tileSize quotient rect image size).2)
    (hfits : (tileGrid quotient rect image repeats position size).Fits) (p : Pixel) :
    times (surface.drawBackgroundImage quotient rect image repeats position size clip) p =
      if surface.contains p = true ∧ accepts p (some (clip.getD ⟨rect, 0⟩)) = true then
        (tileGrid quotient rect image repeats position size).tilesAt p else 0 := by
  have hdraws (x y : ℚ) : surface.drawImage quotient ⟨x, y, (tileSize quotient rect image size).1,
      (tileSize quotient rect image size).2⟩ image (lit "fill") (some (clip.getD ⟨rect, 0⟩)) =
        surface.drawStretched quotient ⟨x, y, (tileSize quotient rect image size).1,
          (tileSize quotient rect image size).2⟩ image (some (clip.getD ⟨rect, 0⟩)) := by
    rw [drawImage, if_neg, fitted, if_neg (by decide)]
    rintro (h | h | h)
    · exact Bool.false_ne_true (h.symm.trans hvalid)
    · exact htile.not_ge h
    · exact htile'.not_ge h
  rw [drawBackgroundImage, if_neg (by simp [hvalid, hwidth, hheight])]
  simp only [hdraws, times_flatMap]
  generalize hgrid : tileGrid quotient rect image repeats position size = grid at hfits
  have horigin : tileOrigin rect (tileSize quotient rect image size) position = grid.origin := by
    rw [← hgrid]
    rfl
  have hcounts : tileCounts quotient rect (tileSize quotient rect image size) repeats =
      grid.counts := by
    rw [← hgrid]
    rfl
  have hsize : tileSize quotient rect image size = grid.tile := by
    rw [← hgrid]
    rfl
  rw [horigin, hcounts, hsize]
  have hterm (yi : ℤ) (hyi : yi ∈ Int.range 0 grid.counts.2) (xi : ℤ)
      (hxi : xi ∈ Int.range 0 grid.counts.1) :=
    times_drawStretched quotient surface (hfits xi hxi yi hyi) image
      (some (clip.getD ⟨rect, 0⟩)) p
  simp only [TileGrid.tileAt] at hterm
  rw [List.map_congr_left fun yi hyi => congrArg List.sum (List.map_congr_left (hterm yi hyi))]
  by_cases hvisible : surface.contains p = true ∧ accepts p (some (clip.getD ⟨rect, 0⟩)) = true
  · -- the tiles of a row that meets the pixel are counted, and then the rows
    simp only [hvisible, true_and, and_self, if_true]
    have hrow (columns rows : ℤ → Prop) [DecidablePred columns] [DecidablePred rows] (n m : ℤ) :
        ((Int.range 0 m).map fun yi => ((Int.range 0 n).map fun xi =>
          if columns xi ∧ rows yi then 1 else 0).sum).sum =
            (Int.range 0 n).countP columns * (Int.range 0 m).countP rows := by
      rw [Nat.mul_comm, ← sum_map_ite]
      refine congrArg List.sum (List.map_congr_left fun yi _ => ?_)
      by_cases hyi : rows yi
      · simp only [hyi, and_true, if_true, sum_map_ite, Nat.mul_one]
      · simp only [hyi, and_false, if_false, List.map_const', List.sum_replicate, smul_zero]
    exact hrow _ _ _ _
  · simp only [← and_assoc, hvisible, false_and, if_false, List.map_const', List.sum_replicate,
      smul_zero]

/-! ## The rectangle -/

/-- Inside of the rectangle the clip decides. -/
theorem accepts_effective (harea : InArea rect p) :
    accepts p (some (clip.getD ⟨rect, 0⟩)) = accepts p clip := by
  cases clip with
  | none => exact (contains_of_nonpos le_rfl).trans harea
  | some clip => rfl

/-- Outside of it everything depends on there being a clip. -/
theorem accepts_effective_outside (harea : ¬InArea rect p) :
    accepts p (some (clip.getD ⟨rect, 0⟩)) = true ↔ clip ≠ none ∧ accepts p clip = true := by
  cases clip with
  | none =>
    refine iff_of_false (fun h => harea ?_) fun h => h.1 rfl
    have hplain : (RoundedRect.mk rect 0).contains (p.1 + 1 / 2 : ℚ) (p.2 + 1 / 2) =
        inRect rect (p.1 + 1 / 2) (p.2 + 1 / 2) := contains_of_nonpos le_rfl
    exact hplain.symm.trans h
  | some clip => exact (and_iff_right (Option.some_ne_none clip)).symm

/-- Without a picture or without a rectangle nothing is drawn. -/
theorem times_drawBackgroundImage_of_empty (quotient : ℚ → ℚ → ℚ) (surface : SoftwareSurface)
    {rect : LayoutRect ℚ} {image : Image} (repeats position size : Bytes) (clip : Option (RoundedRect ℚ))
    (hempty : validImage image = false ∨ rect.width ≤ 0 ∨ rect.height ≤ 0) (p : Pixel) :
    times (surface.drawBackgroundImage quotient rect image repeats position size clip) p = 0 := by
  rw [drawBackgroundImage, if_pos hempty, times_nil]

theorem pos_of_inArea (harea : InArea rect p) : 0 < rect.width ∧ 0 < rect.height := by
  obtain ⟨hx, hy, hx', hy'⟩ := inRect_iff.mp harea
  exact ⟨by linarith, by linarith⟩

/-! ## The condition -/

/-- The condition for a background: the casts along both axes are defined; if there is a clip, no
pixel outside of the rectangle that is on the surface and that the clip accepts meets a tile; and
with `repeat` every such pixel of the rectangle meets a tile, and is not shared by two. -/
structure TilesFill (surface : SoftwareSurface) (columns rows : TileRow) (valid : Bool)
    (repeats : Bytes) (clip : Option (RoundedRect ℚ)) : Prop where
  fits : valid = true → 0 < columns.length → 0 < rows.length → columns.Fits ∧ rows.Fits
  outside : clip ≠ none → valid = true → 0 < columns.length → 0 < rows.length → ∀ p : Pixel,
    surface.contains p = true → accepts p clip = true → ¬(columns.Has p.1 ∧ rows.Has p.2) →
      ¬(columns.Meets p.1 ∧ rows.Meets p.2)
  inside : repeats = lit "repeat" → ∀ p : Pixel, surface.contains p = true →
    accepts p clip = true → columns.Has p.1 → rows.Has p.2 →
      valid = true ∧ (columns.Meets p.1 ∧ ¬columns.Seam p.1) ∧ rows.Meets p.2 ∧ ¬rows.Seam p.2

/-- The centres of the pixels of the rectangle, along both axes. -/
theorem inArea_iff {x y width height a b : ℤ} :
    InArea (intRect x y width height) p ↔
      (tileColumns quotient repeats position x width a).Has p.1 ∧
        (tileRows quotient repeats position y height b).Has p.2 := inRect_intRect

/-- Where nothing is drawn, the rectangle must not be seen. -/
theorem tiledExactly_iff_of_empty {x y width height : ℤ} (a b : ℤ)
    (hempty : validImage image = false ∨ width ≤ 0 ∨ height ≤ 0) :
    TiledExactly quotient surface (intRect x y width height) image repeats position size clip ↔
      TilesFill surface (tileColumns quotient repeats position x width a)
        (tileRows quotient repeats position y height b) (validImage image) repeats clip := by
  have hnothing : ¬(validImage image = true ∧ 0 < width ∧ 0 < height) := by
    rintro ⟨hvalid, hwidth, hheight⟩
    rcases hempty with h | h | h
    · exact Bool.false_ne_true (h.symm.trans hvalid)
    · omega
    · omega
  have hempty' : validImage image = false ∨ (intRect x y width height).width ≤ 0 ∨
      (intRect x y width height).height ≤ 0 := by
    rwa [intRect, Int.cast_nonpos, Int.cast_nonpos]
  have hzero :=
    times_drawBackgroundImage_of_empty quotient surface repeats position size clip hempty'
  constructor
  · intro h
    refine ⟨fun hvalid hw hh => absurd ⟨hvalid, hw, hh⟩ hnothing,
      fun _ hvalid hw hh => absurd ⟨hvalid, hw, hh⟩ hnothing,
      fun hrepeat p hcontains haccepts hx hy => ?_⟩
    have hone := h.covered hrepeat p
    rw [hzero, if_pos ⟨⟨hcontains, haccepts⟩, inArea_iff.mpr ⟨hx, hy⟩⟩] at hone
    exact absurd hone.symm one_ne_zero
  · intro h
    refine ⟨fun hvalid hw hh => absurd ⟨hvalid, Int.cast_pos.mp hw, Int.cast_pos.mp hh⟩ hnothing,
      fun hrepeat p => ?_, fun p _ => hzero p⟩
    rw [hzero, if_neg]
    rintro ⟨⟨hcontains, haccepts⟩, harea⟩
    obtain ⟨hw, hh⟩ := pos_of_inArea harea
    obtain ⟨hx, hy⟩ := inArea_iff.mp harea
    exact hnothing ⟨(h.inside hrepeat p hcontains haccepts hx hy).1, Int.cast_pos.mp hw,
      Int.cast_pos.mp hh⟩

/-! ## Integer sizes -/

section Integers

variable (hquotient : ∀ v d : ℤ, 0 < v → 0 < d → 0 < quotient v d) {x y width height : ℤ}
  {tile : ℤ × ℤ} (hvalid : validImage image = true) (hwidth : 0 < width) (hheight : 0 < height)
  (htile : tileSize quotient (intRect x y width height) image size = ((tile.1 : ℚ), (tile.2 : ℚ)))

include hquotient hvalid hwidth hheight htile

/-- Tiles have a size. -/
theorem tile_pos : 0 < tile.1 ∧ 0 < tile.2 := by
  rw [validImage, decide_eq_true_iff] at hvalid
  have hx := hquotient width image.width hwidth hvalid.1
  have hy := hquotient height image.height hheight hvalid.2.1
  have himage : (0 : ℚ) < image.width := Int.cast_pos.mpr hvalid.1
  have himage' : (0 : ℚ) < image.height := Int.cast_pos.mpr hvalid.2.1
  have hpos : (0 : ℚ) < (tileSize quotient (intRect x y width height) image size).1 ∧
      (0 : ℚ) < (tileSize quotient (intRect x y width height) image size).2 := by
    have hscaled {scale : ℚ} (hscale : 0 < scale) :
        0 < image.width * scale ∧ 0 < image.height * scale :=
      ⟨mul_pos himage hscale, mul_pos himage' hscale⟩
    rw [tileSize]
    simp only [fmax_rat, fmin_rat, intRect]
    split
    · split
      · exact hscaled (lt_max_of_lt_left hx)
      · exact hscaled (lt_min hx hy)
    · split
      · exact ⟨Int.cast_pos.mpr hwidth, Int.cast_pos.mpr hheight⟩
      · exact ⟨himage, himage'⟩
  rw [htile] at hpos
  exact ⟨Int.cast_pos.mp hpos.1, Int.cast_pos.mp hpos.2⟩

/-- There is at least one tile. -/
theorem count_pos (repeats position : Bytes) :
    0 < (tileColumns quotient repeats position x width tile.1).count ∧
      0 < (tileRows quotient repeats position y height tile.2).count := by
  obtain ⟨htile₁, htile₂⟩ := tile_pos hquotient hvalid hwidth hheight htile
  have hcolumns := Int.ceil_pos.mpr (hquotient width tile.1 hwidth htile₁)
  have hrows := Int.ceil_pos.mpr (hquotient height tile.2 hheight htile₂)
  rw [tileColumns, tileRows]
  refine ⟨?_, ?_⟩
  · dsimp only
    split
    · omega
    · exact zero_lt_one
  · dsimp only
    split
    · omega
    · exact zero_lt_one

omit hquotient hvalid hwidth hheight in
/-- The tiles of a background, as they lie along the axes, if their numbers are `int`s. -/
theorem tileGrid_eq
    (hcolumns : repeats = lit "repeat" ∨ repeats = lit "repeat-x" →
      FitsInt ⌈quotient width tile.1⌉ ∧ FitsInt (⌈quotient width tile.1⌉ + 2))
    (hrows : repeats = lit "repeat" ∨ repeats = lit "repeat-y" →
      FitsInt ⌈quotient height tile.2⌉ ∧ FitsInt (⌈quotient height tile.2⌉ + 2)) :
    tileGrid quotient (intRect x y width height) image repeats position size =
      ⟨((tileColumns quotient repeats position x width tile.1).origin,
          (tileRows quotient repeats position y height tile.2).origin), (tile.1, tile.2),
        ((tileColumns quotient repeats position x width tile.1).count,
          (tileRows quotient repeats position y height tile.2).count)⟩ := by
  have horigin : tileOrigin (intRect x y width height) ((tile.1 : ℚ), (tile.2 : ℚ)) position =
      ((tileColumns quotient repeats position x width tile.1).origin,
        (tileRows quotient repeats position y height tile.2).origin) := by
    simp only [tileOrigin, TileRow.origin, tileColumns, tileRows, intRect, Mentions]
    by_cases hcenter : (find position (lit "center")).isSome = true
    · simp [hcenter]
    · by_cases hright : (find position (lit "right")).isSome = true
      · simp [hcenter, hright]
      · by_cases hbottom : (find position (lit "bottom")).isSome = true
        · simp [hcenter, hright, hbottom]
        · simp [hcenter, hright, hbottom]
  have hcounts : tileCounts quotient (intRect x y width height) ((tile.1 : ℚ), (tile.2 : ℚ))
      repeats = ((tileColumns quotient repeats position x width tile.1).count,
        (tileRows quotient repeats position y height tile.2).count) := by
    have hcount {v d : ℚ} (h : FitsInt ⌈quotient v d⌉ ∧ FitsInt (⌈quotient v d⌉ + 2)) :
        wrapInt (castInt ⌈quotient v d⌉ + 2) = ⌈quotient v d⌉ + 2 := by
      rw [castInt_intCast h.1, wrapInt_of_fits h.2]
    simp only [tileCounts, tileColumns, tileRows, intRect]
    by_cases hnone : repeats = lit "no-repeat"
    · subst hnone
      rfl
    · rw [if_neg hnone]
      refine Prod.ext ?_ ?_
      · dsimp only
        split
        next hx => exact hcount (hcolumns hx)
        next => rfl
      · dsimp only
        split
        next hy => exact hcount (hrows hy)
        next => rfl
  rw [tileGrid, htile, horigin, hcounts]

/-- The casts are defined exactly if those along both axes are. -/
theorem tilesDefined_iff (repeats position : Bytes) :
    TilesDefined quotient (intRect x y width height) image repeats position size ↔
      (tileColumns quotient repeats position x width tile.1).Fits ∧
        (tileRows quotient repeats position y height tile.2).Fits := by
  obtain ⟨htile₁, htile₂⟩ := tile_pos hquotient hvalid hwidth hheight htile
  obtain ⟨hcount₁, hcount₂⟩ := count_pos hquotient hvalid hwidth hheight htile repeats position
  have hcolumns := Int.ceil_pos.mpr (hquotient width tile.1 hwidth htile₁)
  have hrows := Int.ceil_pos.mpr (hquotient height tile.2 hheight htile₂)
  -- the number of tiles is an `int` if its parts are
  have hnumber {again : Prop} [Decidable again] {n : ℤ} (hn : 0 < n) :
      (again → FitsInt n ∧ FitsInt (n + 2)) ↔ (if again then n + 2 else 1) < 2 ^ 31 := by
    by_cases hagain : again
    · rw [if_pos hagain, forall_prop_of_true hagain, FitsInt, FitsInt]
      omega
    · rw [if_neg hagain, forall_prop_of_false hagain]
      exact iff_of_true trivial (by decide)
  constructor
  · rintro ⟨hcolumns', hrows', htiles⟩
    rw [htile] at hcolumns' hrows'
    rw [tileGrid_eq htile hcolumns' hrows'] at htiles
    obtain ⟨⟨hfirst, hlast⟩, hfirst', hlast'⟩ :=
      (TileRow.grid_fits_iff htile₁ hcount₁ htile₂ hcount₂).mp htiles
    exact ⟨⟨hfirst, hlast, (hnumber hcolumns).mp hcolumns'⟩,
      ⟨hfirst', hlast', (hnumber hrows).mp hrows'⟩⟩
  · rintro ⟨⟨hfirst, hlast, hnumber₁⟩, ⟨hfirst', hlast', hnumber₂⟩⟩
    have hcolumns' := (hnumber hcolumns).mpr hnumber₁
    have hrows' := (hnumber hrows).mpr hnumber₂
    refine ⟨?_, ?_, ?_⟩
    · rwa [htile]
    · rwa [htile]
    · rw [tileGrid_eq htile hcolumns' hrows']
      exact (TileRow.grid_fits_iff htile₁ hcount₁ htile₂ hcount₂).mpr
        ⟨⟨hfirst, hlast⟩, hfirst', hlast'⟩

/-- **How often a pixel is blended**, by the tiles of its column and those of its row. -/
theorem times_tiles (surface : SoftwareSurface) (clip : Option (RoundedRect ℚ))
    (hcolumns : (tileColumns quotient repeats position x width tile.1).Fits)
    (hrows : (tileRows quotient repeats position y height tile.2).Fits) (p : Pixel) :
    times (surface.drawBackgroundImage quotient (intRect x y width height) image repeats position
        size clip) p =
      if surface.contains p = true ∧
          accepts p (some (clip.getD ⟨intRect x y width height, 0⟩)) = true then
        Raster.tilesAt (tileColumns quotient repeats position x width tile.1).origin tile.1
            (tileColumns quotient repeats position x width tile.1).count p.1 *
          Raster.tilesAt (tileRows quotient repeats position y height tile.2).origin tile.2
            (tileRows quotient repeats position y height tile.2).count p.2
      else 0 := by
  obtain ⟨htile₁, htile₂⟩ := tile_pos hquotient hvalid hwidth hheight htile
  obtain ⟨hcolumns', hrows', htiles⟩ :=
    (tilesDefined_iff hquotient hvalid hwidth hheight htile repeats position).mpr ⟨hcolumns, hrows⟩
  rw [times_drawBackgroundImage surface clip hvalid (Int.cast_pos.mpr hwidth)
    (Int.cast_pos.mpr hheight) (by rw [htile]; exact Int.cast_pos.mpr htile₁)
    (by rw [htile]; exact Int.cast_pos.mpr htile₂) htiles]
  rw [htile] at hcolumns' hrows'
  rw [tileGrid_eq htile hcolumns' hrows']
  rfl

/-- If the rectangle is covered once and nothing else, the tiles lie as they should. -/
theorem tilesFill_of_tiledExactly (h : TiledExactly quotient surface (intRect x y width height) image
      repeats position size clip) :
    TilesFill surface (tileColumns quotient repeats position x width tile.1)
      (tileRows quotient repeats position y height tile.2) (validImage image) repeats clip := by
  obtain ⟨htile₁, htile₂⟩ := tile_pos hquotient hvalid hwidth hheight htile
  obtain ⟨hcount₁, hcount₂⟩ := count_pos hquotient hvalid hwidth hheight htile repeats position
  obtain ⟨hcolumns, hrows⟩ :=
    (tilesDefined_iff hquotient hvalid hwidth hheight htile repeats position).mp
      (h.defined hvalid (Int.cast_pos.mpr hwidth) (Int.cast_pos.mpr hheight))
  have htimes := times_tiles hquotient hvalid hwidth hheight htile surface clip hcolumns hrows
  refine ⟨fun _ _ _ => ⟨hcolumns, hrows⟩,
    fun hclip _ _ _ p hcontains haccepts harea hmeets => ?_,
    fun hrepeat p hcontains haccepts hx hy => ⟨hvalid, ?_⟩⟩
  · have hnone := h.inside p (mt inArea_iff.mp harea)
    rw [htimes, if_pos ⟨hcontains, (accepts_effective_outside (mt inArea_iff.mp harea)).mpr
      ⟨hclip, haccepts⟩⟩] at hnone
    exact mul_ne_zero ((TileRow.tilesAt_ne_zero htile₁ hcount₁).mpr hmeets.1)
      ((TileRow.tilesAt_ne_zero htile₂ hcount₂).mpr hmeets.2) hnone
  · have harea : InArea (intRect x y width height) p := inArea_iff.mpr ⟨hx, hy⟩
    have hone := h.covered hrepeat p
    rw [htimes, accepts_effective harea, if_pos ⟨hcontains, haccepts⟩,
      if_pos ⟨⟨hcontains, haccepts⟩, harea⟩] at hone
    exact ⟨(TileRow.tilesAt_eq_one htile₁ hcount₁).mp (Nat.eq_one_of_mul_eq_one_right hone),
      (TileRow.tilesAt_eq_one htile₂ hcount₂).mp (Nat.eq_one_of_mul_eq_one_left hone)⟩

/-- If the tiles lie as they should, the rectangle is covered once and nothing else. -/
theorem tiledExactly_of_tilesFill
    (h : TilesFill surface (tileColumns quotient repeats position x width tile.1)
      (tileRows quotient repeats position y height tile.2) (validImage image) repeats clip) :
    TiledExactly quotient surface (intRect x y width height) image repeats position size clip := by
  obtain ⟨htile₁, htile₂⟩ := tile_pos hquotient hvalid hwidth hheight htile
  obtain ⟨hcount₁, hcount₂⟩ := count_pos hquotient hvalid hwidth hheight htile repeats position
  obtain ⟨hcolumns, hrows⟩ := h.fits hvalid hwidth hheight
  have htimes := times_tiles hquotient hvalid hwidth hheight htile surface clip hcolumns hrows
  have hinside (p : Pixel) (harea : ¬InArea (intRect x y width height) p) :
      times (surface.drawBackgroundImage quotient (intRect x y width height) image repeats position
        size clip) p = 0 := by
    rw [htimes]
    split
    next hvisible =>
      obtain ⟨hclip, haccepts⟩ := (accepts_effective_outside harea).mp hvisible.2
      by_contra hne
      obtain ⟨hne₁, hne₂⟩ := mul_ne_zero_iff.mp hne
      exact h.outside hclip hvalid hwidth hheight p hvisible.1 haccepts (mt inArea_iff.mpr harea)
        ⟨(TileRow.tilesAt_ne_zero htile₁ hcount₁).mp hne₁,
          (TileRow.tilesAt_ne_zero htile₂ hcount₂).mp hne₂⟩
    next => rfl
  refine ⟨fun _ _ _ => (tilesDefined_iff hquotient hvalid hwidth hheight htile repeats position).mpr
    ⟨hcolumns, hrows⟩, fun hrepeat p => ?_, hinside⟩
  by_cases harea : InArea (intRect x y width height) p
  · rw [htimes, accepts_effective harea]
    by_cases hvisible : surface.contains p = true ∧ accepts p clip = true
    · obtain ⟨hx, hy⟩ := inArea_iff.mp harea
      obtain ⟨-, hcolumn, hrow⟩ := h.inside hrepeat p hvisible.1 hvisible.2 hx hy
      rw [if_pos hvisible, if_pos ⟨hvisible, harea⟩]
      exact mul_eq_one.mpr ⟨(TileRow.tilesAt_eq_one htile₁ hcount₁).mpr hcolumn,
        (TileRow.tilesAt_eq_one htile₂ hcount₂).mpr hrow⟩
    · rw [if_neg hvisible, if_neg fun h => hvisible h.1]
  · rw [hinside p harea, if_neg fun h => harea h.2]

end Integers

end Aetheris.Paint
