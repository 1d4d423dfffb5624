import Aetheris.Svg.Geometry

/-!
# Strokes

The points of a shape go through the transform, into which the supersampling factor is folded.  The
stroke width is multiplied by `RenderState::supersample` instead, which is 1: it is a width on the
canvas, whatever the scale.

So the quadrilateral that is filled for a segment is compared with the one that the transform makes
of the quadrilateral before it, for one uniform transform and then for all that are around a segment
in a picture.
-/

namespace Aetheris.Svg

/-! ## The code -/

section

variable (sqrt : ℚ → ℚ)

/-- Below this length a segment is passed over. -/
def shortest : ℚ := 1 / 10 ^ 9

/-- `length` of `stroke_segment` -/
def segmentLength (a b : Point) : ℚ :=
  sqrt ((b.x - a.x) * (b.x - a.x) + (b.y - a.y) * (b.y - a.y))

/-- `quad` of `stroke_segment` -/
def quad (a b : Point) (nx ny : ℚ) : Polygon :=
  [⟨a.x + nx, a.y + ny⟩, ⟨b.x + nx, b.y + ny⟩, ⟨b.x - nx, b.y - ny⟩, ⟨a.x - nx, a.y - ny⟩]

/-- `stroke_segment`: the polygons that it fills. -/
def strokeSegment (a b : Point) (width : ℚ) : List Polygon :=
  if width ≤ 0 then []
  else
    let dx := b.x - a.x
    let dy := b.y - a.y
    let length := segmentLength sqrt a b
    if length < shortest then []
    else [quad a b (-dy / length * (width / 2)) (dx / length * (width / 2))]

/-- `stroke_polygon` -/
def strokePolygon (polygon : Polygon) (closed : Bool) (width : ℚ) : List Polygon :=
  ((polygon.zip polygon.tail).flatMap fun segment => strokeSegment sqrt segment.1 segment.2 width) ++
    if closed ∧ 3 ≤ polygon.length then
      (polygon.getLast?.bind fun last => polygon.head?.map fun first =>
        strokeSegment sqrt last first width).getD []
    else []

/-- `RenderState::supersample`, as `render_svg` sets it. -/
def supersample : ℚ := 1

/-- A point of a shape on the canvas. -/
def canvasPoint (transform : Matrix) (point : Point) : Point :=
  ⟨(transform.apply point).x * supersample, (transform.apply point).y * supersample⟩

/-- The polygons that `render_shape` fills for the stroke of a polygon. -/
def strokes (transform : Matrix) (polygon : Polygon) (closed : Bool) (strokeWidth : ℚ) :
    List Polygon :=
  strokePolygon sqrt (polygon.map (canvasPoint transform)) closed (strokeWidth * supersample)

/-! ## What is expected -/

/-- **The stroke of a segment scales with it**: what is filled for the transformed segment is the
transformed quadrilateral of the segment with its stroke width. -/
def StrokeScales (transform : Matrix) (a b : Point) (strokeWidth : ℚ) : Prop :=
  strokes sqrt transform [a, b] false strokeWidth =
    (strokeSegment sqrt a b strokeWidth).map (List.map (canvasPoint transform))

end

/-! ## One transform -/

theorem canvasPoint_uniform {transform : Matrix} (h : transform.Uniform) (p : Point) :
    canvasPoint transform p =
      ⟨transform.a * p.x + transform.e, transform.a * p.y + transform.f⟩ := by
  simp only [canvasPoint, Matrix.apply, supersample, h.b_eq, h.c_eq, h.d_eq, zero_mul, add_zero,
    zero_add, mul_one]

theorem strokes_segment (sqrt : ℚ → ℚ) (transform : Matrix) (a b : Point) (strokeWidth : ℚ) :
    strokes sqrt transform [a, b] false strokeWidth =
      strokeSegment sqrt (canvasPoint transform a) (canvasPoint transform b) strokeWidth := by
  simp only [strokes, strokePolygon, supersample, mul_one, List.map_cons, List.map_nil,
    List.tail_cons, List.zip_cons_cons, List.zip_nil_right, List.flatMap_cons, List.flatMap_nil,
    Bool.false_eq_true, false_and, if_false, List.append_nil]

theorem quad_inj {a b : Point} {nx ny nx' ny' : ℚ} :
    quad a b nx ny = quad a b nx' ny' ↔ nx = nx' ∧ ny = ny' := by
  constructor
  · intro h
    have hfirst := Point.mk.inj (List.cons.inj h).1
    exact ⟨add_left_cancel hfirst.1, add_left_cancel hfirst.2⟩
  · rintro ⟨rfl, rfl⟩
    rfl

/-- The transformed quadrilateral of a segment. -/
theorem map_quad {transform : Matrix} (h : transform.Uniform) (a b : Point) (nx ny : ℚ) :
    (quad a b nx ny).map (canvasPoint transform) =
      quad (canvasPoint transform a) (canvasPoint transform b) (transform.a * nx)
        (transform.a * ny) := by
  simp only [quad, List.map_cons, List.map_nil, canvasPoint_uniform h]
  congr 1
  · congr 1 <;> ring
  · congr 1
    · congr 1 <;> ring
    · congr 1
      · congr 1 <;> ring
      · congr 2 <;> ring

section

variable {sqrt : ℚ → ℚ} (hsqrt : ∀ x, 0 ≤ x → sqrt (x * x) = x) {a b : Point}

include hsqrt

/-- The length of a segment that is parallel to an axis. -/
theorem segmentLength_axis (haxis : a.x = b.x ∨ a.y = b.y) :
    segmentLength sqrt a b = |b.x - a.x| + |b.y - a.y| := by
  rw [segmentLength]
  rcases haxis with h | h
  · rw [h, sub_self, zero_mul, zero_add, abs_zero, zero_add, ← abs_mul_abs_self,
      hsqrt _ (abs_nonneg _)]
  · rw [h, sub_self, zero_mul, add_zero, abs_zero, add_zero, ← abs_mul_abs_self,
      hsqrt _ (abs_nonneg _)]

/-- A uniform transform multiplies lengths. -/
theorem segmentLength_canvas {transform : Matrix} (h : transform.Uniform)
    (haxis : a.x = b.x ∨ a.y = b.y) :
    segmentLength sqrt (canvasPoint transform a) (canvasPoint transform b) =
      transform.a * segmentLength sqrt a b := by
  rw [canvasPoint_uniform h, canvasPoint_uniform h, segmentLength_axis hsqrt haxis,
    segmentLength_axis hsqrt]
  · have hx : transform.a * b.x + transform.e - (transform.a * a.x + transform.e) =
        transform.a * (b.x - a.x) := by ring
    have hy : transform.a * b.y + transform.f - (transform.a * a.y + transform.f) =
        transform.a * (b.y - a.y) := by ring
    rw [hx, hy, abs_mul, abs_mul, abs_of_pos h.pos, mul_add]
  · rcases haxis with heq | heq
    · exact Or.inl (by rw [heq])
    · exact Or.inr (by rw [heq])

/-- **When the stroke of a segment goes through a uniform transform**: the scale is 1, or the segment
is too short with the transform and without it. -/
theorem strokeScales_uniform_iff {transform : Matrix} (h : transform.Uniform)
    (haxis : a.x = b.x ∨ a.y = b.y) {strokeWidth : ℚ} (hwidth : 0 < strokeWidth) :
    StrokeScales sqrt transform a b strokeWidth ↔
      transform.a = 1 ∨ segmentLength sqrt a b < shortest ∧
        transform.a * segmentLength sqrt a b < shortest := by
  have hlength := segmentLength_canvas hsqrt h haxis
  have hx : (canvasPoint transform b).x - (canvasPoint transform a).x =
      transform.a * (b.x - a.x) := by
    rw [canvasPoint_uniform h, canvasPoint_uniform h]
    ring
  have hy : (canvasPoint transform b).y - (canvasPoint transform a).y =
      transform.a * (b.y - a.y) := by
    rw [canvasPoint_uniform h, canvasPoint_uniform h]
    ring
  have hk := h.pos
  rw [StrokeScales, strokes_segment]
  simp only [strokeSegment, not_le.mpr hwidth, if_false, hlength, hx, hy]
  by_cases hshort : segmentLength sqrt a b < shortest
  · rw [if_pos hshort]
    by_cases hshort' : transform.a * segmentLength sqrt a b < shortest
    · rw [if_pos hshort']
      exact iff_of_true rfl (Or.inr ⟨hshort, hshort'⟩)
    · rw [if_neg hshort']
      refine iff_of_false (fun heq => by cases heq) ?_
      rintro (hone | ⟨-, hlt⟩)
      · rw [hone, one_mul] at hshort'
        exact hshort' hshort
      · exact hshort' hlt
  · rw [if_neg hshort]
    have hlen : segmentLength sqrt a b ≠ 0 := fun hzero => by
      rw [hzero] at hshort
      exact hshort (by norm_num [shortest])
    by_cases hshort' : transform.a * segmentLength sqrt a b < shortest
    · rw [if_pos hshort']
      refine iff_of_false (fun heq => by cases heq) ?_
      rintro (hone | ⟨hlt, -⟩)
      · rw [hone, one_mul] at hshort'
        exact hshort hshort'
      · exact hshort hlt
    · rw [if_neg hshort', List.map_singleton, map_quad h, List.singleton_inj, quad_inj]
      have hcancel : ∀ d : ℚ, transform.a * d / (transform.a * segmentLength sqrt a b) =
          d / segmentLength sqrt a b := fun d => mul_div_mul_left d _ hk.ne'
      rw [hcancel, ← mul_neg, hcancel]
      -- one of the two components of the normal is not zero
      have hone_of : ∀ d : ℚ, d ≠ 0 → d / segmentLength sqrt a b * (strokeWidth / 2) =
          transform.a * (d / segmentLength sqrt a b * (strokeWidth / 2)) → transform.a = 1 := by
        intro d hd heq
        have hne : d / segmentLength sqrt a b * (strokeWidth / 2) ≠ 0 :=
          mul_ne_zero (div_ne_zero hd hlen) (by positivity)
        exact (mul_right_cancel₀ hne ((one_mul _).trans heq)).symm
      constructor
      · rintro ⟨hnx, hny⟩
        by_cases hdy : b.y - a.y = 0
        · refine Or.inl (hone_of (b.x - a.x) (fun hdx => hlen ?_) hny)
          rw [segmentLength_axis hsqrt haxis, hdx, hdy, abs_zero, add_zero]
        · exact Or.inl (hone_of _ (neg_ne_zero.mpr hdy) hnx)
      · rintro (hone | ⟨hlt, -⟩)
        · rw [hone, one_mul, one_mul]
          exact ⟨rfl, rfl⟩
        · exact absurd hlt hshort

/-! ## A picture -/

/-- **When the stroke of a segment in a picture scales with it.**  The scale of the `viewBox`, the
supersampling factor and the scales of all `transform` attributes around the segment make 1; or the
segment is too short, on the canvas and before. -/
theorem strokeScales_iff (haxis : a.x = b.x ∨ a.y = b.y) {strokeWidth : ℚ}
    (hwidth : 0 < strokeWidth) {pixelWidth pixelHeight : ℕ} (hpixelWidth : 0 < pixelWidth)
    (hpixelHeight : 0 < pixelHeight) (viewBox : Option ViewBox)
    {attributes : List (List TransformFunction)}
    (hattributes : ∀ functions ∈ attributes, UniformFunctions functions) :
    StrokeScales sqrt
        (nodeTransform (supersampled (baseTransform pixelWidth pixelHeight viewBox))
          (attributes.map transformOf)) a b strokeWidth ↔
      viewScale pixelWidth pixelHeight viewBox * superFactor *
          (attributes.map attributeScale).prod = 1 ∨
        segmentLength sqrt a b < shortest ∧
          viewScale pixelWidth pixelHeight viewBox * superFactor *
            (attributes.map attributeScale).prod * segmentLength sqrt a b < shortest := by
  obtain ⟨hbase, hscale⟩ := uniform_supersampled hpixelWidth hpixelHeight viewBox
  have huniform : ∀ m ∈ attributes.map transformOf, m.Uniform := by
    intro m hm
    obtain ⟨functions, hmem, rfl⟩ := List.mem_map.mp hm
    exact (uniform_transformOf (hattributes functions hmem)).1
  have hattribute : (attributes.map transformOf).map Matrix.a = attributes.map attributeScale := by
    rw [List.map_map]
    exact List.map_congr_left fun functions hmem =>
      (uniform_transformOf (hattributes functions hmem)).2
  obtain ⟨hnode, ha⟩ := uniform_nodeTransform hbase huniform
  rw [hscale, hattribute] at ha
  rw [strokeScales_uniform_iff hsqrt hnode haxis hwidth, ha]

end

/-- A horizontal segment in a group with `transform="scale(0.5)"`: the scale makes up for the
supersampling. -/
theorem strokeScales_iff_half :
    StrokeScales Rat.sqrt
        (nodeTransform (supersampled (baseTransform 4 4 none))
          ([[⟨lit "scale", [1 / 2]⟩]].map transformOf)) ⟨0, 1⟩ ⟨3, 1⟩ 1 ↔
      viewScale 4 4 none * superFactor *
          ([[⟨lit "scale", [1 / 2]⟩]].map attributeScale).prod = 1 ∨
        segmentLength Rat.sqrt ⟨0, 1⟩ ⟨3, 1⟩ < shortest ∧
          viewScale 4 4 none * superFactor *
            ([[⟨lit "scale", [1 / 2]⟩]].map attributeScale).prod *
              segmentLength Rat.sqrt ⟨0, 1⟩ ⟨3, 1⟩ < shortest := by
  have hsqrt : ∀ x : ℚ, 0 ≤ x → Rat.sqrt (x * x) = x := fun x hx => by
    rw [Rat.sqrt_eq, abs_of_nonneg hx]
  have huniform : ∀ functions ∈ [[(⟨lit "scale", [1 / 2]⟩ : TransformFunction)]],
      UniformFunctions functions := by
    intro functions hfunctions m hm
    rw [List.mem_singleton.mp hfunctions] at hm
    have hm' : m = { a := 1 / 2, d := 1 / 2 } := by
      have hlist : [(⟨lit "scale", [1 / 2]⟩ : TransformFunction)].filterMap functionMatrix =
          [{ a := 1 / 2, d := 1 / 2 }] := by decide +kernel
      rw [hlist] at hm
      exact List.mem_singleton.mp hm
    rw [hm']
    exact ⟨rfl, rfl, rfl, by norm_num⟩
  exact @strokeScales_iff Rat.sqrt hsqrt ⟨0, 1⟩ ⟨3, 1⟩ (Or.inr rfl) 1 one_pos 4 4 (by decide)
    (by decide) none [[⟨lit "scale", [1 / 2]⟩]] huniform

/-- A line without any `transform` or `viewBox`: on the canvas, which is twice as large, the stroke
is as wide as in the picture. -/
theorem not_forall_strokeScales :
    ¬∀ (sqrt : ℚ → ℚ) (_ : ∀ x, 0 ≤ x → sqrt (x * x) = x) (a b : Point)
      (_ : a.x = b.x ∨ a.y = b.y) (strokeWidth : ℚ) (_ : 0 < strokeWidth)
      (pixelWidth pixelHeight : ℕ) (_ : 0 < pixelWidth) (_ : 0 < pixelHeight)
      (viewBox : Option ViewBox) (attributes : List (List TransformFunction))
      (_ : ∀ functions ∈ attributes, UniformFunctions functions),
      StrokeScales sqrt
        (nodeTransform (supersampled (baseTransform pixelWidth pixelHeight viewBox))
          (attributes.map transformOf)) a b strokeWidth := by
  intro h
  have hscales := h Rat.sqrt (fun x hx => by rw [Rat.sqrt_eq, abs_of_nonneg hx]) ⟨0, 1⟩ ⟨3, 1⟩
    (Or.inr rfl) 1 one_pos 4 4 (by decide) (by decide) none []
    fun functions hfunctions => absurd hfunctions List.not_mem_nil
  unfold StrokeScales at hscales
  exact absurd hscales (by decide +kernel)

end Aetheris.Svg
