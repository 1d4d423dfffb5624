import Aetheris.Find

/-!
# Points and transforms of pictures

The geometry of `svg.cpp`, with coordinates that are rational numbers.  An affine map takes the
points of a shape from its own coordinates through the `transform` attributes around it to the
pixels of the canvas; a map is uniform if it is a translation and one positive scale.
-/

namespace Aetheris.Svg

/-! ## Points and matrices -/

/-- `Point` -/
structure Point where
  x : ℚ
  y : ℚ
  deriving DecidableEq, Repr

/-- `Polygon` -/
abbrev Polygon := List Point

/-- `Matrix` -/
structure Matrix where
  a : ℚ := 1
  b : ℚ := 0
  c : ℚ := 0
  d : ℚ := 1
  e : ℚ := 0
  f : ℚ := 0
  deriving DecidableEq, Repr

/-- `Matrix::apply` -/
def Matrix.apply (m : Matrix) (p : Point) : Point :=
  ⟨m.a * p.x + m.c * p.y + m.e, m.b * p.x + m.d * p.y + m.f⟩

/-- `multiply` -/
def multiply (m n : Matrix) : Matrix where
  a := m.a * n.a + m.c * n.b
  b := m.b * n.a + m.d * n.b
  c := m.a * n.c + m.c * n.d
  d := m.b * n.c + m.d * n.d
  e := m.a * n.e + m.c * n.f + m.e
  f := m.b * n.e + m.d * n.f + m.f

/-! ## The attribute -/

/-- A function in a `transform` attribute: its name, in lower case, and its arguments. -/
structure TransformFunction where
  name : Bytes
  args : List ℚ

/-- `name.find(word) != std::string::npos` -/
def TransformFunction.names (function : TransformFunction) (word : Bytes) : Bool :=
  (find function.name word).isSome

/-- The matrix of a function; `none` where the function is passed over. -/
def functionMatrix (function : TransformFunction) : Option Matrix :=
  if function.names (lit "translate") && 1 ≤ function.args.length then
    some { e := function.args.getD 0 0, f := function.args.getD 1 0 }
  else if function.names (lit "scale") && 1 ≤ function.args.length then
    some { a := function.args.getD 0 0, d := function.args.getD 1 (function.args.getD 0 0) }
  else if function.names (lit "matrix") && 6 ≤ function.args.length then
    some {
      a := function.args.getD 0 0
      b := function.args.getD 1 0
      c := function.args.getD 2 0
      d := function.args.getD 3 0
      e := function.args.getD 4 0
      f := function.args.getD 5 0 }
  else none

/-- `parse_transform`, from the functions that the text has. -/
def transformOf (functions : List TransformFunction) : Matrix :=
  (functions.filterMap functionMatrix).foldl multiply {}

/-! ## From user units to pixels -/

/-- A `viewBox` that is used: neither side is empty. -/
structure ViewBox where
  x : ℚ
  y : ℚ
  width : ℚ
  height : ℚ
  width_pos : 0 < width
  height_pos : 0 < height

/-- The scale that fits a `viewBox` into the picture. -/
def ViewBox.scale (viewBox : ViewBox) (pixelWidth pixelHeight : ℕ) : ℚ :=
  min (pixelWidth / viewBox.width) (pixelHeight / viewBox.height)

/-- `base` of `render_svg` -/
def baseTransform (pixelWidth pixelHeight : ℕ) : Option ViewBox → Matrix
  | none => {}
  | some viewBox =>
    let scale := viewBox.scale pixelWidth pixelHeight
    { a := scale
      d := scale
      e := -viewBox.x * scale + (pixelWidth - viewBox.width * scale) / 2
      f := -viewBox.y * scale + (pixelHeight - viewBox.height * scale) / 2 }

/-- `kSuper` -/
def superFactor : ℚ := 2

/-- `supersampled` of `render_svg` -/
def supersampled (base : Matrix) : Matrix :=
  { base with
    a := base.a * superFactor
    d := base.d * superFactor
    e := base.e * superFactor
    f := base.f * superFactor }

/-- `local` of `render_node`: the transforms of the elements around an element, the outermost one
first, and its own. -/
def nodeTransform (start : Matrix) (transforms : List Matrix) : Matrix :=
  transforms.foldl multiply start

/-! ## Uniform transforms -/

/-- A translation and one positive scale. -/
structure Matrix.Uniform (m : Matrix) : Prop where
  b_eq : m.b = 0
  c_eq : m.c = 0
  d_eq : m.d = m.a
  pos : 0 < m.a

theorem Matrix.Uniform.multiply {m n : Matrix} (hm : m.Uniform) (hn : n.Uniform) :
    (multiply m n).Uniform := by
  refine ⟨?_, ?_, ?_, ?_⟩
  · simp only [Svg.multiply, hm.b_eq, hn.b_eq, zero_mul, mul_zero, add_zero]
  · simp only [Svg.multiply, hm.c_eq, hn.c_eq, zero_mul, mul_zero, add_zero]
  · simp only [Svg.multiply, hm.b_eq, hm.c_eq, hm.d_eq, hn.d_eq, zero_mul, zero_add, add_zero]
  · simp only [Svg.multiply, hm.c_eq, zero_mul, add_zero]
    exact mul_pos hm.pos hn.pos

/-- The scales of uniform transforms are multiplied. -/
theorem a_multiply {m n : Matrix} (hm : m.Uniform) : (multiply m n).a = m.a * n.a := by
  simp only [multiply, hm.c_eq, zero_mul, add_zero]

theorem uniform_nodeTransform {start : Matrix} (hstart : start.Uniform) :
    ∀ {transforms : List Matrix}, (∀ m ∈ transforms, m.Uniform) →
      (nodeTransform start transforms).Uniform ∧
        (nodeTransform start transforms).a = start.a * (transforms.map Matrix.a).prod := by
  intro transforms
  induction transforms generalizing start with
  | nil =>
    intro _
    exact ⟨hstart, (mul_one start.a).symm⟩
  | cons m transforms ih =>
    intro h
    rw [List.forall_mem_cons] at h
    obtain ⟨huniform, ha⟩ := ih (hstart.multiply h.1) h.2
    refine ⟨huniform, ?_⟩
    show (nodeTransform (multiply start m) transforms).a = _
    rw [ha, a_multiply hstart, List.map_cons, List.prod_cons, mul_assoc]

/-- The scale of the base transform. -/
def viewScale (pixelWidth pixelHeight : ℕ) : Option ViewBox → ℚ
  | none => 1
  | some viewBox => viewBox.scale pixelWidth pixelHeight

theorem viewScale_pos {pixelWidth pixelHeight : ℕ} (hwidth : 0 < pixelWidth)
    (hheight : 0 < pixelHeight) (viewBox : Option ViewBox) :
    0 < viewScale pixelWidth pixelHeight viewBox := by
  cases viewBox with
  | none => exact one_pos
  | some viewBox =>
    exact lt_min (div_pos (Nat.cast_pos.mpr hwidth) viewBox.width_pos)
      (div_pos (Nat.cast_pos.mpr hheight) viewBox.height_pos)

theorem uniform_supersampled {pixelWidth pixelHeight : ℕ} (hwidth : 0 < pixelWidth)
    (hheight : 0 < pixelHeight) (viewBox : Option ViewBox) :
    (supersampled (baseTransform pixelWidth pixelHeight viewBox)).Uniform ∧
      (supersampled (baseTransform pixelWidth pixelHeight viewBox)).a =
        viewScale pixelWidth pixelHeight viewBox * superFactor := by
  have hpos := mul_pos (viewScale_pos hwidth hheight viewBox) (two_pos : (0 : ℚ) < superFactor)
  cases viewBox with
  | none => exact ⟨⟨rfl, rfl, rfl, hpos⟩, rfl⟩
  | some viewBox => exact ⟨⟨rfl, rfl, rfl, hpos⟩, rfl⟩

theorem uniform_one : ({} : Matrix).Uniform := ⟨rfl, rfl, rfl, one_pos⟩

/-- Translations and uniform positive scales only. -/
def UniformFunctions (functions : List TransformFunction) : Prop :=
  ∀ m ∈ functions.filterMap functionMatrix, m.Uniform

/-- The product of the scales in an attribute. -/
def attributeScale (functions : List TransformFunction) : ℚ :=
  ((functions.filterMap functionMatrix).map Matrix.a).prod

theorem uniform_transformOf {functions : List TransformFunction} (h : UniformFunctions functions) :
    (transformOf functions).Uniform ∧ (transformOf functions).a = attributeScale functions := by
  obtain ⟨huniform, ha⟩ := uniform_nodeTransform uniform_one h
  exact ⟨huniform, ha.trans (one_mul _)⟩

end Aetheris.Svg
