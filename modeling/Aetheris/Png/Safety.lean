import Aetheris.Png.Decoder

/-!
# The sizes of a PNG

What `decode_png` computes of the width and the height, and where it reads and writes.  Where the
sizes fit, no `int` overflows on the way, every pass stays in the image, and all accesses are in the
vectors; where they do not, the decoder stops in the first computation that overflows.  So `out` has
a valid image at the end, or what was there.
-/

namespace Aetheris.Png

open Aetheris.Computation

/-- The only way to stop is to return `false`. -/
def Failed (e : Stop) : Prop := e = .failed

/-! ## Accesses -/

theorem int_eq {value : ℤ} (hlow : -2 ^ 31 ≤ value) (hhigh : value < 2 ^ 31) :
    int value = .ok value := if_pos ⟨by omega, by omega⟩

theorem int_natCast {n : ℕ} (h : n < 2 ^ 31) : int n = .ok (n : ℤ) :=
  int_eq (by omega) (by omega)

theorem int_eq_error {value : ℤ} (h : 2 ^ 31 ≤ value) : int value = .error .overflow :=
  if_neg fun hfits => absurd hfits.2 (by omega)

/-- A row or a column of a pass. -/
theorem int_place {start i step : ℕ} (h : start + i * step < 2 ^ 31) :
    int ((start : ℤ) + i * step) = .ok ((start + i * step : ℕ) : ℤ) := by
  rw [← int_natCast h]
  push_cast
  rfl

section

variable {allowed : Stop → Prop} {i : ℕ}

theorem meets_item {α : Type} {xs : List α} (h : i < xs.length) :
    Meets allowed (item xs i) fun _ => True := by
  rw [item, List.getElem?_eq_getElem h]
  exact meets_ok trivial

theorem meets_slice {xs : Bytes} {length : ℕ} (h : i + length ≤ xs.length) :
    Meets allowed (slice xs i length) fun ys => ys.length = length := by
  refine meets_ite (fun _ => meets_ok ?_) fun hnot => absurd h hnot
  rw [List.length_take, List.length_drop]
  omega

theorem meets_copyTo {xs source : Bytes} (h : i + source.length ≤ xs.length) :
    Meets allowed (copyTo xs i source) fun ys => ys.length = xs.length := by
  refine meets_ite (fun _ => meets_ok ?_) fun hnot => absurd h hnot
  simp only [List.length_append, List.length_take, List.length_drop]
  omega

end

/-! ## Sizes -/

/-- How many bytes a line has, where that does not overflow. -/
def lineSize (bitsPerPixel width : ℕ) : ℕ := (width * bitsPerPixel + 7) / 8

/-- How many bytes the pixels of a line take. -/
theorem mul_bytesPerPixel_le (bitsPerPixel width : ℕ) :
    width * (bitsPerPixel / 8) ≤ lineSize bitsPerPixel width := by
  rw [lineSize, Nat.le_div_iff_mul_le (by decide), Nat.mul_assoc]
  exact (Nat.mul_le_mul_left width (Nat.div_mul_le_self bitsPerPixel 8)).trans (Nat.le_add_right _ _)

/-- A cell in a line. -/
theorem cell_le {x width : ℕ} (size : ℕ) (h : x < width) : x * size + size ≤ width * size := by
  rw [← Nat.succ_mul]
  exact Nat.mul_le_mul_right size h

/-- `stride`, where it does not overflow. -/
theorem stride_eq {bitsPerPixel width : ℕ} (h : width * bitsPerPixel + 7 < 2 ^ 31) :
    stride bitsPerPixel width = .ok (lineSize bitsPerPixel width) := by
  have hsum : ((width * bitsPerPixel : ℕ) : ℤ) + 7 = (width * bitsPerPixel + 7 : ℕ) := by
    push_cast
    rfl
  rw [stride, ← Nat.cast_mul, int_natCast (by omega), bind_of_ok, hsum, int_natCast h, bind_of_ok]
  rfl

theorem stride_eq_error {bitsPerPixel width : ℕ} (h : 2 ^ 31 ≤ width * bitsPerPixel + 7) :
    stride bitsPerPixel width = .error .overflow := by
  rw [stride, ← Nat.cast_mul]
  generalize width * bitsPerPixel = product at h
  rcases Nat.lt_or_ge product (2 ^ 31) with hlt | hge
  · rw [int_natCast hlt, bind_of_ok, int_eq_error (by omega), bind_of_error]
  · rw [int_eq_error (by omega), bind_of_error]

/-- `pass_width` and `pass_height`, where they do not overflow. -/
theorem passSize_eq {size start step : ℕ} (hstart : start ≤ size + step - 1) (hstep : 0 < step)
    (hfits : size + step < 2 ^ 31) (hlow : start < 2 ^ 31) :
    passSize size start step = .ok ((size + step - 1 - start) / step : ℕ) := by
  have hsum : ((size : ℤ) - start + step - 1) = (size + step - 1 - start : ℕ) := by omega
  rw [passSize, int_eq (by omega) (by omega), bind_of_ok, int_eq (by omega) (by omega), bind_of_ok,
    int_eq (by omega) (by omega), bind_of_ok, hsum]
  rfl

/-- The pixels of a pass are those up to the end of the line. -/
theorem lt_passSize_iff {size start step i : ℕ} (hstep : 0 < step) :
    i < (size + step - 1 - start) / step ↔ start + i * step < size := by
  rw [← Nat.succ_le_iff, Nat.le_div_iff_mul_le hstep, Nat.succ_mul]
  omega

/-! ## Lines -/

theorem meets_inFront {allowed : Stop → Prop} {xs : Bytes} {filterBpp i : ℕ} (hpos : 0 < filterBpp)
    (hi : i ≤ xs.length) : Meets allowed (inFront xs filterBpp i) fun _ => True :=
  meets_ite (fun _ => meets_item (by omega)) fun _ => meets_pure trivial

/-- A line gets as many bytes as the line before it has. -/
theorem meets_unfilterLine {filter : Byte} {filterBpp : ℕ} (hpos : 0 < filterBpp)
    {previous line src : Bytes} (hlength : line.length + src.length = previous.length) :
    Meets Failed (unfilterLine filter filterBpp previous line src) fun result =>
      result.length = previous.length := by
  induction src generalizing line with
  | nil => exact meets_ok hlength
  | cons value src ih =>
    rw [List.length_cons] at hlength
    rw [unfilterLine]
    refine (meets_inFront hpos (by omega)).bind fun left _ => ?_
    refine (meets_item (by omega)).bind fun up _ => ?_
    refine (meets_inFront hpos (by omega)).bind fun upLeft _ => ?_
    split
    · exact meets_error rfl
    · refine ih ?_
      rw [List.length_append, List.length_singleton]
      omega

/-- A pass that stays in an image of a width and a height. -/
structure Inside (pass : Pass) (width height passWidth passHeight : ℕ) : Prop where
  column_lt : ∀ px < passWidth, pass.xStart + px * pass.xStep < width
  row_lt : ∀ py < passHeight, pass.yStart + py * pass.yStep < height
  /-- Lines that are copied as a whole are whole lines. -/
  whole : pass.xStep = 1 → passWidth = width

/-- The strides of an image. -/
def stridesOf (bitsPerPixel width : ℕ) : Strides := ⟨bitsPerPixel, lineSize bitsPerPixel width⟩

section

variable {bitsPerPixel width height : ℕ} {pass : Pass} {passWidth passHeight : ℕ}
  (hin : Inside pass width height passWidth passHeight)

include hin

/-- A line of a pass goes to a place in the image. -/
theorem meets_scatter (hwidth : width < 2 ^ 31) (hheight : height < 2 ^ 31)
    {line imageData : Bytes} (hline : line.length = lineSize bitsPerPixel passWidth)
    (hdata : imageData.length = height * lineSize bitsPerPixel width) {py : ℕ}
    (hpy : py < passHeight) :
    Meets Failed (scatter (stridesOf bitsPerPixel width) pass passWidth line imageData py)
      fun result => result.length = imageData.length := by
  have hrow := hin.row_lt py hpy
  have hend := cell_le (lineSize bitsPerPixel width) hrow
  rw [scatter, int_place (by omega), bind_of_ok]
  simp only [Int.toNat_natCast, stridesOf, Strides.bytesPerPixel]
  refine meets_ite (fun hone => meets_copyTo ?_) fun _ => meets_ite (fun _ => ?_) fun _ =>
    meets_pure rfl
  · rw [hline, hin.whole hone, hdata]
    exact hend
  · refine Meets.foldlM (fun data px hpx hlength => ?_) rfl
    have hlt := List.mem_range.mp hpx
    have hcolumn := hin.column_lt px hlt
    have hcell := (cell_le _ hcolumn).trans (mul_bytesPerPixel_le bitsPerPixel width)
    rw [int_place (by omega), bind_of_ok, Int.toNat_natCast]
    refine (meets_slice (((cell_le _ hlt).trans (mul_bytesPerPixel_le _ _)).trans hline.ge)).bind
      fun pixel hpixel => (meets_copyTo ?_).mono fun _ h => h.trans hlength
    rw [hpixel, hlength, hdata]
    omega

/-- What is known of the lines of a pass behind some of them. -/
structure LinesFit (bitsPerPixel width height passWidth passHeight : ℕ) (s : Lines) (py : ℕ) :
    Prop where
  raw_le : (passHeight - py) * (lineSize bitsPerPixel passWidth + 1) ≤ s.raw.length
  previous_eq : s.previous.length = lineSize bitsPerPixel passWidth
  data_eq : s.imageData.length = height * lineSize bitsPerPixel width

theorem meets_passLine (hbits : 0 < bitsPerPixel) (hwidth : width < 2 ^ 31)
    (hheight : height < 2 ^ 31) {s : Lines} {py : ℕ} (hpy : py < passHeight)
    (hs : LinesFit bitsPerPixel width height passWidth passHeight s py) :
    Meets Failed (passLine (stridesOf bitsPerPixel width) pass passWidth
        (lineSize bitsPerPixel passWidth) s py) fun t =>
      LinesFit bitsPerPixel width height passWidth passHeight t (py + 1) := by
  obtain ⟨hraw, hprevious, hdata⟩ := hs
  have hsplit : (passHeight - py) * (lineSize bitsPerPixel passWidth + 1) =
      (passHeight - (py + 1)) * (lineSize bitsPerPixel passWidth + 1) +
        (lineSize bitsPerPixel passWidth + 1) := by
    rw [← Nat.succ_mul]
    congr 1
    omega
  have hfilterBpp : 0 < (stridesOf bitsPerPixel width).filterBpp := by
    simp only [Strides.filterBpp, stridesOf]
    omega
  rw [passLine]
  refine (meets_item (by omega)).bind fun filter _ => (meets_slice (by omega)).bind fun src hsrc => ?_
  have hlengths : ([] : Bytes).length + src.length = s.previous.length := by
    rw [hsrc, hprevious, List.length_nil, Nat.zero_add]
  refine (meets_unfilterLine hfilterBpp hlengths).bind fun line hline => ?_
  refine (meets_scatter hin hwidth hheight (hline.trans hprevious) hdata hpy).bind
    fun data hlength => meets_pure ⟨?_, hline.trans hprevious, hlength.trans hdata⟩
  rw [List.length_drop]
  omega

/-- **A pass that stays in the image is read and written in the vectors.** -/
theorem meets_unfilterPass (hbits : 0 < bitsPerPixel) (hfits : width * bitsPerPixel + 7 < 2 ^ 31)
    (hheight : height < 2 ^ 31) (hle : passWidth ≤ width) {s : Bytes × Bytes}
    (hdata : s.2.length = height * lineSize bitsPerPixel width) :
    Meets Failed (unfilterPass (stridesOf bitsPerPixel width) passWidth passHeight pass s)
      fun t => t.2.length = height * lineSize bitsPerPixel width := by
  have hwidth : width ≤ width * bitsPerPixel := Nat.le_mul_of_pos_right width hbits
  have hproduct : passWidth * bitsPerPixel ≤ width * bitsPerPixel :=
    Nat.mul_le_mul_right bitsPerPixel hle
  have hfits' : passWidth * bitsPerPixel + 7 < 2 ^ 31 := by omega
  have hstride : stride (stridesOf bitsPerPixel width).bitsPerPixel passWidth =
      .ok (lineSize bitsPerPixel passWidth) := stride_eq hfits'
  rw [unfilterPass, hstride, bind_of_ok, Int.toNat_natCast, Int.toNat_natCast]
  refine meets_ite (fun _ => meets_ok hdata) fun _ =>
    meets_ite (fun _ => meets_error rfl) fun hraw => ?_
  exact (Meets.foldlM_range (I := fun py t =>
    LinesFit bitsPerPixel width height passWidth passHeight t py) (fun t py hpy ht =>
      meets_passLine hin hbits (by omega) hheight hpy ht)
    ⟨not_lt.mp hraw, List.length_replicate, hdata⟩).bind fun t ht => meets_pure ht.data_eq

end

/-! ## Passes -/

/-- A pass of interlacing is read and written in the vectors. -/
theorem meets_adam7Pass {bitsPerPixel width height : ℕ} (hbits : 8 ≤ bitsPerPixel)
    (hwidth : 0 < width) (hheight : 0 < height) (hfits : width * bitsPerPixel + 7 < 2 ^ 31)
    (hrows : height + 8 < 2 ^ 31) {s : Bytes × Bytes} {pass : Pass} (hpass : pass ∈ passes)
    (hdata : s.2.length = height * lineSize bitsPerPixel width) :
    Meets Failed (adam7Pass (stridesOf bitsPerPixel width) width height s pass)
      fun t => t.2.length = height * lineSize bitsPerPixel width := by
  have hsteps : ∀ p ∈ passes, 0 < p.xStep ∧ 0 < p.yStep ∧ p.xStep ≤ 8 ∧ p.yStep ≤ 8 ∧
      p.xStart ≤ p.xStep ∧ p.yStart ≤ p.yStep ∧ (p.xStep = 1 → p.xStart = 0) := by decide
  obtain ⟨hx, hy, hx8, hy8, hxs, hys, hone⟩ := hsteps pass hpass
  have hin : Inside pass width height ((width + pass.xStep - 1 - pass.xStart) / pass.xStep)
      ((height + pass.yStep - 1 - pass.yStart) / pass.yStep) := by
    refine ⟨fun px h => (lt_passSize_iff hx).mp h, fun py h => (lt_passSize_iff hy).mp h,
      fun hstep => ?_⟩
    rw [hstep, hone hstep, Nat.div_one]
    omega
  have hcolumns : width * 8 ≤ width * bitsPerPixel := Nat.mul_le_mul_left width hbits
  have hle : (width + pass.xStep - 1 - pass.xStart) / pass.xStep ≤ width :=
    Nat.le_of_not_lt fun hlt => absurd (hin.column_lt _ hlt)
      (not_lt.mpr ((Nat.le_mul_of_pos_right width hx).trans (Nat.le_add_left _ _)))
  rw [adam7Pass, passSize_eq (by omega) hx (by omega) (by omega), bind_of_ok,
    passSize_eq (by omega) hy (by omega) (by omega), bind_of_ok]
  exact meets_unfilterPass hin (by omega) hfits (by omega) hle hdata

/-! ## The image -/

/-- What the checks of the header leave. -/
structure Header (parts : Parts) (channels width height : ℕ) : Prop where
  width_eq : parts.width = width
  height_eq : parts.height = height
  width_pos : 0 < width
  height_pos : 0 < height
  depth : parts.bitDepth = 8 ∨ parts.bitDepth = 16 ∨
    parts.colorType = 3 ∧ (parts.bitDepth = 1 ∨ parts.bitDepth = 2 ∨ parts.bitDepth = 4)
  interlaced : parts.interlace ≠ 0 → 8 ≤ parts.bitDepth
  colorType_mem : (parts.colorType, channels) ∈ [(0, 1), (2, 3), (3, 1), (4, 2), (6, 4)]

theorem header_of_channels {parts : Parts} {channels : ℕ} (h : parts.channels = some channels) :
    Header parts channels parts.width.toNat parts.height.toNat := by
  rw [Parts.channels] at h
  split at h
  · cases h
  · rename_i hsize
    split at h
    · cases h
    · rename_i hinterlace
      split at h
      · cases h
      · rename_i hdepth
        refine ⟨by omega, by omega, by omega, by omega, by omega, by omega, ?_⟩
        split at h <;> cases h <;> simp [*]

/-- The sizes for which no `int` overflows. -/
def Fits (parts : Parts) (channels : ℕ) : Prop :=
  parts.width * (channels * parts.bitDepth : ℕ) + 7 < 2 ^ 31 ∧
    (parts.interlace = 1 → parts.height + 8 < 2 ^ 31)

section

variable {parts : Parts} {channels width height : ℕ} (header : Header parts channels width height)

include header

theorem Header.bits_pos : 0 < channels * parts.bitDepth := by
  have hchannels : 0 < channels := by
    have h := header.colorType_mem
    simp only [List.mem_cons, Prod.mk.injEq, List.not_mem_nil, or_false] at h
    omega
  have hdepth := header.depth
  exact Nat.mul_pos hchannels (by omega)

/-- A picture that is interlaced has whole bytes. -/
theorem Header.eight_le (h : parts.interlace = 1) : 8 ≤ channels * parts.bitDepth :=
  (header.interlaced (by omega)).trans
    (Nat.le_mul_of_pos_left _ (Nat.pos_of_mul_pos_right header.bits_pos))

/-- The sizes that fit. -/
theorem Header.fits_iff : Fits parts channels ↔
    width * (channels * parts.bitDepth) + 7 < 2 ^ 31 ∧
      (parts.interlace = 1 → height + 8 < 2 ^ 31) := by
  rw [Fits, header.width_eq, header.height_eq]
  norm_cast

theorem Header.meets_imageData (hfits : Fits parts channels) (raw : Bytes) :
    Meets Failed (imageData (stridesOf (channels * parts.bitDepth) width) parts raw)
      fun data => data.length = height * lineSize (channels * parts.bitDepth) width := by
  have hbits := header.bits_pos
  obtain ⟨hwidth, hrows⟩ := header.fits_iff.mp hfits
  have hheight := parts.size_lt.2
  rw [header.height_eq] at hheight
  rw [imageData, allPasses, header.width_eq, header.height_eq, Int.toNat_natCast]
  refine (meets_ite (fun hinterlace => ?_) fun _ => ?_).bind fun t ht => meets_pure ht
  · exact Meets.foldlM (fun t pass hpass ht => meets_adam7Pass (header.eight_le hinterlace)
      header.width_pos header.height_pos hwidth (hrows hinterlace) hpass ht) List.length_replicate
  · have hin : Inside ⟨0, 0, 1, 1⟩ width height width height :=
      ⟨fun px h => by simpa using h, fun py h => by simpa using h, fun _ => rfl⟩
    exact meets_unfilterPass hin hbits hwidth (by omega) le_rfl List.length_replicate

/-! ## Pixels -/

variable {data : Bytes} (hdata : data.length = height * lineSize (channels * parts.bitDepth) width)
  {x y : ℕ} (hx : x < width) (hy : y < height)

include hdata hx hy

/-- A sample of a pixel is in the image. -/
theorem Header.meets_sample {channel : ℕ} (hchannel : channel < channels) :
    Meets Failed (sample (stridesOf (channels * parts.bitDepth) width) parts.bitDepth
      data x y channel) fun _ => True := by
  have hdepth : 0 < parts.bitDepth := Nat.pos_of_mul_pos_left header.bits_pos
  have hpixel := cell_le (channels * parts.bitDepth) hx
  have hsample := cell_le parts.bitDepth hchannel
  have hrow := cell_le (lineSize (channels * parts.bitDepth) width) hy
  rw [← hdata] at hrow
  rw [sample]
  simp only [stridesOf]
  refine (meets_item ?_).bind fun byte _ => meets_ite (fun _ => meets_pure trivial) fun _ =>
    meets_ite (fun _ => meets_pure trivial) fun _ => meets_pure trivial
  rw [Nat.div_lt_iff_lt_mul (by decide)]
  rw [lineSize] at hrow ⊢
  generalize width * (channels * parts.bitDepth) = total at *
  generalize y * ((total + 7) / 8) = front at *
  omega

/-- A pixel has a color, or its index is not in the palette. -/
theorem Header.meets_color :
    Meets Failed (color (stridesOf (channels * parts.bitDepth) width) parts data x y)
      fun result => result = none → parts.colorType = 3 := by
  have hcolor := header.colorType_mem
  simp only [List.mem_cons, Prod.mk.injEq, List.not_mem_nil, or_false] at hcolor
  have hsample : ∀ channel < channels, Meets Failed (sample
      (stridesOf (channels * parts.bitDepth) width) parts.bitDepth data x y channel)
        fun _ => True := fun channel hchannel => header.meets_sample hdata hx hy hchannel
  rw [color]
  refine meets_ite (fun h0 => ?_) fun h0 => meets_ite (fun h2 => ?_) fun h2 =>
    meets_ite (fun h3 => ?_) fun h3 => meets_ite (fun h4 => ?_) fun h4 => ?_
  · exact (hsample 0 (by omega)).bind fun grey _ => meets_pure nofun
  · exact (hsample 0 (by omega)).bind fun r _ => (hsample 1 (by omega)).bind fun g _ =>
      (hsample 2 (by omega)).bind fun b _ => meets_pure nofun
  · refine (hsample 0 (by omega)).bind fun index _ => meets_ite (fun _ => meets_pure fun _ => h3)
      fun hpalette => ?_
    exact (meets_item (by omega)).bind fun r _ => (meets_item (by omega)).bind fun g _ =>
      (meets_item (by omega)).bind fun b _ => meets_pure nofun
  · exact (hsample 0 (by omega)).bind fun grey _ => (hsample 1 (by omega)).bind fun a _ =>
      meets_pure nofun
  · exact (hsample 0 (by omega)).bind fun r _ => (hsample 1 (by omega)).bind fun g _ =>
      (hsample 2 (by omega)).bind fun b _ => (hsample 3 (by omega)).bind fun a _ =>
        meets_pure nofun

end

/-- The loop over the pixels keeps their number, and has only one way to give up. -/
theorem meets_pixelLoop {colorAt : ℕ → ℕ → Checked (Option Color)} {width : ℕ} {reason : Prop}
    {places : List (ℕ × ℕ)} {pixels : List Color}
    (hcolor : ∀ p ∈ places, Meets Failed (colorAt p.1 p.2) fun result => result = none → reason)
    (hplaces : ∀ p ∈ places, p.2 * width + p.1 < pixels.length) :
    Meets Failed (pixelLoop colorAt width pixels places) fun result =>
      result.2.length = pixels.length ∧ (result.1 = false → reason) := by
  induction places generalizing pixels with
  | nil => exact meets_ok ⟨rfl, nofun⟩
  | cons p places ih =>
    obtain ⟨x, y⟩ := p
    rw [pixelLoop]
    refine (hcolor (x, y) List.mem_cons_self).bind fun result hresult => ?_
    cases result with
    | none => exact meets_pure ⟨rfl, fun _ => hresult rfl⟩
    | some color =>
      refine meets_ite (fun hlt => ?_) fun hnot =>
        absurd (hplaces (x, y) List.mem_cons_self) hnot
      refine (ih (fun p hp => hcolor p (List.mem_cons_of_mem _ hp)) fun p hp => ?_).mono
        fun result hresult => ⟨hresult.1.trans List.length_set, hresult.2⟩
      rw [List.length_set]
      exact hplaces p (List.mem_cons_of_mem _ hp)

/-! ## The decoder -/

section

variable {parts : Parts} {channels width height : ℕ} (header : Header parts channels width height)

include header

/-- **Where the sizes fit, no `int` overflows and no vector is left**, and what is assigned to `out`
is a valid image. -/
theorem Header.meets_decodeParts (hfits : Fits parts channels) (raw : Bytes) :
    Meets Failed (decodeParts parts channels raw) fun result =>
      result.2.Valid ∧ (result.1 = false → parts.colorType = 3) := by
  have hstride := stride_eq (header.fits_iff.mp hfits).1
  rw [decodeParts, header.width_eq, hstride, bind_of_ok]
  refine (header.meets_imageData hfits raw).bind fun data hdata => ?_
  rw [header.height_eq, Int.toNat_natCast, Int.toNat_natCast]
  refine (meets_pixelLoop (fun p hp => ?_) fun p hp => ?_).bind fun result hresult =>
    meets_pure ⟨⟨?_, ?_, ?_⟩, hresult.2⟩
  · obtain ⟨y, hy, hp⟩ := List.mem_flatMap.mp hp
    obtain ⟨x, hx, rfl⟩ := List.mem_map.mp hp
    exact header.meets_color hdata (List.mem_range.mp hx) (List.mem_range.mp hy)
  · obtain ⟨y, hy, hp⟩ := List.mem_flatMap.mp hp
    obtain ⟨x, hx, rfl⟩ := List.mem_map.mp hp
    have hcell := cell_le width (List.mem_range.mp hy)
    have hxlt := List.mem_range.mp hx
    rw [List.length_replicate, Nat.mul_comm width]
    dsimp only
    omega
  · exact Int.natCast_pos.mpr header.width_pos
  · exact Int.natCast_pos.mpr header.height_pos
  · dsimp only
    rw [hresult.1, List.length_replicate, Nat.cast_mul]

/-- Where the width does not fit, the stride overflows; where the height does not, that of the first
pass does. -/
theorem Header.decodeParts_of_not_fits (hnot : ¬Fits parts channels) (raw : Bytes) :
    decodeParts parts channels raw = .error .overflow := by
  rw [header.fits_iff] at hnot
  by_cases hfits : width * (channels * parts.bitDepth) + 7 < 2 ^ 31
  · obtain ⟨hinterlace, hheight⟩ := Classical.not_imp.mp (not_and.mp hnot hfits)
    have hcolumns : width * 8 ≤ width * (channels * parts.bitDepth) :=
      Nat.mul_le_mul_left _ (header.eight_le hinterlace)
    have hfirst : ∀ strides s, adam7Pass strides width height s ⟨0, 0, 8, 8⟩ =
        .error .overflow := by
      intro strides s
      have hcolumn := @passSize_eq width 0 8 (by omega) (by omega) (by omega) (by omega)
      have hrow : passSize height 0 8 = .error .overflow := by
        have hlt := parts.size_lt.2
        rw [header.height_eq] at hlt
        rw [passSize, int_eq (by omega) (by omega), bind_of_ok, int_eq_error (by omega),
          bind_of_error]
      rw [adam7Pass, hcolumn, bind_of_ok, hrow, bind_of_error]
    have hpasses : ∀ strides s, allPasses strides parts s = .error .overflow := by
      intro strides s
      rw [allPasses, if_pos hinterlace, passes, List.foldlM_cons, header.width_eq, header.height_eq,
        hfirst, bind_of_error]
    rw [decodeParts, header.width_eq, stride_eq hfits, bind_of_ok]
    simp only [imageData, hpasses, bind_of_error]
  · rw [decodeParts, header.width_eq, stride_eq_error (not_lt.mp hfits), bind_of_error]

end

/-- **Behind the inflater an `int` overflows or a vector is left exactly when the sizes do not
fit**, whatever has been inflated. -/
theorem decodeParts_stops_iff {parts : Parts} {channels : ℕ} (h : parts.channels = some channels)
    (raw : Bytes) :
    (∃ e, e ≠ .failed ∧ decodeParts parts channels raw = .error e) ↔ ¬Fits parts channels := by
  have header := header_of_channels h
  constructor
  · rintro ⟨e, hne, he⟩ hfits
    exact hne ((header.meets_decodeParts hfits raw).of_eq_error he)
  · intro hnot
    exact ⟨.overflow, nofun, header.decodeParts_of_not_fits hnot raw⟩

/-- A picture that is interlaced and has too many lines. -/
theorem decodeParts_stops_iff_tall :
    (∃ e, e ≠ .failed ∧ decodeParts
        { width := 1, height := 2147483640, bitDepth := 8, interlace := 1 } 1 [] = .error e) ↔
      ¬Fits { width := 1, height := 2147483640, bitDepth := 8, interlace := 1 } 1 :=
  decodeParts_stops_iff (by decide) []

/-- `decode_png` gets past inflation with these parts, channels and bytes. -/
structure Inflated (bytes : Bytes) (parts : Parts) (channels : ℕ) (raw : Bytes) : Prop where
  isPng : isPng bytes
  parts_eq : readChunks {} (bytes.drop 8) = some parts
  channels_eq : parts.channels = some channels
  raw_eq : parts.raw = .ok raw

/-- Whenever `decode_png` gets past inflation, no `int` overflows and no vector is left. -/
def InRange (bytes : Bytes) : Prop :=
  ∀ parts channels raw, Inflated bytes parts channels raw →
    ∀ out, ∃ result, decodePng bytes out = .ok result

theorem Inflated.decodePng_eq_ok_iff {bytes : Bytes} {parts : Parts} {channels : ℕ} {raw : Bytes}
    (h : Inflated bytes parts channels raw) (out : Image) :
    (∃ result, decodePng bytes out = .ok result) ↔ Fits parts channels := by
  have header := header_of_channels h.channels_eq
  have hfile : decodeFile bytes = decodeParts parts channels raw := by
    rw [decodeFile, if_neg (not_not_intro h.isPng), h.parts_eq]
    simp only [h.channels_eq, h.raw_eq, bind_of_ok]
  rw [decodePng, hfile]
  constructor
  · rintro ⟨result, hresult⟩
    by_contra hnot
    rw [header.decodeParts_of_not_fits hnot] at hresult
    cases hresult
  · intro hfits
    have hmeets := header.meets_decodeParts hfits raw
    cases hdecode : decodeParts parts channels raw with
    | ok result => exact ⟨result, rfl⟩
    | error e =>
      obtain rfl : e = .failed := hmeets.of_eq_error hdecode
      exact ⟨_, rfl⟩

/-- **The sizes of a PNG.** Behind inflation no `int` overflows and no vector is left, exactly if the
sizes that the file says fit. -/
theorem inRange_iff (bytes : Bytes) : InRange bytes ↔
    ∀ parts channels raw, Inflated bytes parts channels raw → Fits parts channels := by
  constructor
  · intro h parts channels raw hinflated
    exact (hinflated.decodePng_eq_ok_iff {}).mp (h parts channels raw hinflated {})
  · intro h parts channels raw hinflated out
    exact (hinflated.decodePng_eq_ok_iff out).mpr (h parts channels raw hinflated)

/-- One line of `2 ^ 28` pixels of four bytes, with no data. -/
def wideFile : Bytes :=
  [0x89, 0x50, 0x4E, 0x47, 0x0D, 0x0A, 0x1A, 0x0A] ++
    ([0, 0, 0, 13] ++ lit "IHDR" ++ [0x10, 0, 0, 0, 0, 0, 0, 1, 8, 6, 0, 0, 0] ++ [0, 0, 0, 0]) ++
    ([0, 0, 0, 7] ++ lit "IDAT" ++ [0x78, 1, 1, 0, 0, 0xFF, 0xFF] ++ [0, 0, 0, 0])

/-- The bits of a line overflow. -/
theorem not_inRange_wideFile : ¬∀ bytes, InRange bytes := by
  intro h
  have hinflated : (readChunks {} (wideFile.drop 8)).any (fun parts =>
      parts.channels = some 4 ∧ parts.raw.toOption.isSome) = true := by decide +kernel
  have hstop : (decodePng wideFile {}).toOption = none := by decide +kernel
  obtain ⟨parts, hparts, hrest⟩ := (Option.any_eq_true _ _).mp hinflated
  obtain ⟨hchannels, hraw⟩ := of_decide_eq_true hrest
  cases hdata : parts.raw with
  | ok raw =>
    obtain ⟨result, hresult⟩ := h wideFile parts 4 raw ⟨by decide, hparts, hchannels, hdata⟩ {}
    rw [hresult] at hstop
    cases hstop
  | error e =>
    rw [hdata] at hraw
    cases hraw

/-- **What `decode_png` leaves in `out`**: a valid image, or what was there; or a valid image that is
not finished, where an index is not in the palette. -/
theorem decodePng_result (bytes : Bytes) (out : Image) :
    Meets (fun e => e ≠ .failed) (decodePng bytes out) fun result =>
      AllOrNothing out result ∨ result.1 = false ∧ result.2.Valid ∧
        ∃ parts, readChunks {} (bytes.drop 8) = some parts ∧ parts.colorType = 3 := by
  have hfile : Meets (fun _ => True) (decodeFile bytes) fun result =>
      result.2.Valid ∧ (result.1 = false →
        ∃ parts, readChunks {} (bytes.drop 8) = some parts ∧ parts.colorType = 3) := by
    rw [decodeFile]
    refine meets_ite (fun _ => meets_error trivial) fun _ => ?_
    cases hparts : readChunks {} (bytes.drop 8) with
    | none => exact meets_error trivial
    | some parts =>
      dsimp only
      cases hchannels : parts.channels with
      | none => exact meets_error trivial
      | some channels =>
        dsimp only
        refine (meets_true _).bind fun raw _ => ?_
        have header := header_of_channels hchannels
        by_cases hfits : Fits parts channels
        · refine ((header.meets_decodeParts hfits raw).imp fun _ _ => trivial).mono
            fun result hresult => ⟨hresult.1, fun hfalse => ⟨parts, rfl, hresult.2 hfalse⟩⟩
        · rw [header.decodeParts_of_not_fits hfits]
          exact meets_error trivial
  rw [decodePng]
  cases hdecode : decodeFile bytes with
  | error e =>
    cases e with
    | failed => exact meets_ok (Or.inl (Or.inl rfl))
    | overflow => exact meets_error nofun
    | outOfBounds => exact meets_error nofun
  | ok result =>
    obtain ⟨hvalid, hfalse⟩ := hfile.of_eq_ok hdecode
    refine meets_ok ?_
    cases hresult : result.1 with
    | true => exact Or.inl (Or.inr ⟨hresult, hvalid⟩)
    | false => exact Or.inr ⟨rfl, hvalid, hfalse hresult⟩

end Aetheris.Png
