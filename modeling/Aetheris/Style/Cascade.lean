import Aetheris.Library.LastWrite
import Aetheris.Library.StableSort
import Aetheris.Style.Resolver

/-!
# The cascade of the edges

Which declarations set the margin, the padding or the border of a side, and what the style of a node
keeps of them.  All declarations for a node have places, and they are applied in the order of these
places, so the property of a side is the last write to it.
-/

namespace Aetheris.Style

open Css Dom

/-! ## Sides -/

inductive Side where
  | top
  | right
  | bottom
  | left
  deriving DecidableEq, Repr

instance : Fintype Side := ⟨{.top, .right, .bottom, .left}, fun side => by cases side <;> decide⟩

/-- The name of a side in a property. -/
def Side.name : Side → Bytes
  | .top => lit "top"
  | .right => lit "right"
  | .bottom => lit "bottom"
  | .left => lit "left"

/-- The property of a side, such as `margin-top`. -/
def edgeKey (base : Bytes) (side : Side) : Bytes := base ++ lit "-" ++ side.name

/-- The property of the width of a border, such as `border-top-width`. -/
def widthKey (side : Side) : Bytes := lit "border-" ++ side.name ++ lit "-width"

/-- The word for a side in a value of one to four words. -/
def sideWord (side : Side) (value : Bytes) : Option Bytes :=
  match side, words value with
  | _, [] => none
  | _, [word] => some word
  | .top, top :: _ => some top
  | .right, _ :: right :: _ => some right
  | .bottom, [vertical, _] => some vertical
  | .bottom, _ :: _ :: bottom :: _ => some bottom
  | .left, _ :: _ :: _ :: left :: _ => some left
  | .left, _ :: horizontal :: _ => some horizontal

/-- The last word of a `border` value that is a width. -/
def borderWidthWord (value : Bytes) : Option Bytes :=
  lastWrite (fun word : Bytes =>
    if word.head?.elim false fun c => isDigit c || c == chr '.' then some word else none)
    (words value)

/-! ## Declarations for a side -/

/-- What a declaration gives a side by a shorthand for the four sides, or by the property of the
side. -/
def setsSide (shorthand base : Bytes) (side : Side) (d : CssDeclaration) : Option Bytes :=
  if d.property = shorthand then sideWord side d.value
  else if d.property = edgeKey base side then some d.value
  else none

/-- What a declaration gives the border of a side by `border`, or by the property of its width. -/
def setsWidth (side : Side) (d : CssDeclaration) : Option Bytes :=
  if d.property = lit "border" then borderWidthWord d.value
  else if d.property = widthKey side then some d.value
  else none

/-- The shorthands for four sides, with what is put in front of the sides. -/
def shorthands : List (Bytes × Bytes) :=
  [(lit "margin", lit "margin"), (lit "padding", lit "padding"), (lit "border-width", lit "border")]

/-! ## Four sides -/

theorem edgeKey_inj {base : Bytes} {a b : Side} : edgeKey base a = edgeKey base b ↔ a = b := by
  rw [edgeKey, edgeKey, List.append_right_inj]
  revert a b
  have h : ∀ a b : Side, a.name = b.name ↔ a = b := by
    intro a b
    cases a <;> cases b <;> decide
  exact fun {a b} => h a b

theorem applyFourSides_eq (s : StyleProperties) (base value : Bytes) :
    applyFourSides s base value =
      match words value with
      | [] => s
      | top :: values =>
        (((s.set (edgeKey base .top) top).set (edgeKey base .right) (values.getD 0 top)).set
          (edgeKey base .bottom) (values.getD 1 top)).set (edgeKey base .left)
            (values.getD 2 (values.getD 0 top)) := by
  have hkey (text : Bytes) : base ++ (lit "-" ++ text) = base ++ lit "-" ++ text :=
    (List.append_assoc _ _ _).symm
  rw [applyFourSides]
  cases words value with
  | nil => rfl
  | cons top values =>
    simp only [edgeKey, Side.name, ← hkey]
    rfl

/-- A side is given its word. -/
theorem get_applyFourSides (s : StyleProperties) (base value : Bytes) (side : Side) :
    (applyFourSides s base value).get (edgeKey base side) =
      (sideWord side value).or (s.get (edgeKey base side)) := by
  rw [applyFourSides_eq, sideWord.eq_def]
  rcases words value with _ | ⟨a, _ | ⟨b, _ | ⟨c, _ | ⟨d, l⟩⟩⟩⟩ <;>
    cases side <;> simp [edgeKey_inj]

theorem get_applyFourSides_of_ne (s : StyleProperties) (base value : Bytes) {key : Bytes}
    (hkey : ∀ side, key ≠ edgeKey base side) :
    (applyFourSides s base value).get key = s.get key := by
  rw [applyFourSides_eq]
  cases words value with
  | nil => rfl
  | cons top values =>
    simp only [StyleProperties.get_set, hkey, if_false]

/-! ## Borders -/

theorem sides_eq : sides = [Side.top, .right, .bottom, .left].map Side.name := rfl

theorem mem_sides {name : Bytes} : name ∈ sides ↔ ∃ side : Side, name = side.name := by
  rw [sides_eq, List.mem_map]
  constructor
  · rintro ⟨side, -, rfl⟩
    exact ⟨side, rfl⟩
  · rintro ⟨side, rfl⟩
    refine ⟨side, ?_, rfl⟩
    cases side <;> decide

theorem widthKey_inj {a b : Side} : widthKey a = widthKey b ↔ a = b := by
  cases a <;> cases b <;> decide

/-- The widths of the sides are copied from the sides. -/
theorem get_applyBorderWidth_width (s : StyleProperties) (value : Bytes) (side : Side) :
    (applyBorderWidth s value).get (widthKey side) =
      ((applyFourSides s (lit "border") value).get (edgeKey (lit "border") side)).or
        (s.get (widthKey side)) := by
  have hwidth : ∀ side' : Side, widthKey side ≠ edgeKey (lit "border") side' := by
    cases side <;> intro side' <;> cases side' <;> decide
  rw [← get_applyFourSides_of_ne s (lit "border") value hwidth, applyBorderWidth]
  generalize applyFourSides s (lit "border") value = widths
  rw [sides_eq, List.foldl_map]
  have hloop {step : StyleProperties → Side → StyleProperties}
      (hstep : ∀ s side', (step s side').get (widthKey side) =
        (if side = side' then widths.get (edgeKey (lit "border") side') else none).or
          (s.get (widthKey side))) :=
    foldl_lastWrite (fun s : StyleProperties => s.get (widthKey side))
      (fun s side' (_ : side' ∈ [Side.top, .right, .bottom, .left]) => hstep s side') widths
  refine (hloop fun s side' => ?_).trans (congrArg (Option.or · _) ?_)
  · change StyleProperties.get _ (widthKey side) =
      (if side = side' then widths.get (lit "border-" ++ side'.name) else none).or _
    cases widths.get (lit "border-" ++ side'.name) with
    | none => rw [ite_self, Option.none_or]
    | some width =>
      rw [StyleProperties.get_set]
      change (if widthKey side = widthKey side' then some width else s.get (widthKey side)) = _
      by_cases h : side = side'
      · rw [if_pos (widthKey_inj.mpr h), if_pos h, Option.some_or]
      · rw [if_neg (mt widthKey_inj.mp h), if_neg h, Option.none_or]
  · cases side <;> simp [lastWrite]

/-- The sides are not changed when their widths are set. -/
theorem get_applyBorderWidth_edge (s : StyleProperties) (value : Bytes) (side : Side) :
    (applyBorderWidth s value).get (edgeKey (lit "border") side) =
      (applyFourSides s (lit "border") value).get (edgeKey (lit "border") side) := by
  have hne : ∀ a b : Side, edgeKey (lit "border") a ≠ widthKey b := by decide
  rw [applyBorderWidth, sides_eq, List.foldl_map]
  generalize applyFourSides s (lit "border") value = widths
  refine List.foldlRecOn (motive := fun t : StyleProperties =>
    t.get (edgeKey (lit "border") side) = widths.get (edgeKey (lit "border") side)) _ _
    rfl fun t ht side' _ => ?_
  split
  · rw [StyleProperties.get_set]
    exact (if_neg (hne side side')).trans ht
  · exact ht

theorem get_applyBorderWidth_of_ne (s : StyleProperties) (value : Bytes) {key : Bytes}
    (hedge : ∀ side, key ≠ edgeKey (lit "border") side) (hwidth : ∀ side, key ≠ widthKey side) :
    (applyBorderWidth s value).get key = s.get key := by
  rw [← get_applyFourSides_of_ne s (lit "border") value hedge, applyBorderWidth]
  generalize applyFourSides s (lit "border") value = widths
  refine List.foldlRecOn (motive := fun s : StyleProperties => s.get key = widths.get key) sides _
    rfl fun s hs name hname => ?_
  obtain ⟨side, rfl⟩ := mem_sides.mp hname
  split
  · rw [StyleProperties.get_set]
    exact (if_neg (hwidth side)).trans hs
  · exact hs

/-- A `border` declaration gives all sides its last width. -/
theorem get_applyBorder_width (s : StyleProperties) (value : Bytes) (side : Side) :
    ((words value).foldl applyBorderWord s).get (widthKey side) =
      (borderWidthWord value).or (s.get (widthKey side)) := by
  refine foldl_lastWrite (fun s : StyleProperties => s.get (widthKey side))
    (fun s word _ => ?_) s
  have hstyle : widthKey side ≠ lit "border-style" ∧ widthKey side ≠ lit "border-color" := by
    cases side <;> decide
  rw [applyBorderWord]
  by_cases hword : word ∈ [lit "solid", lit "dashed", lit "dotted", lit "none"]
  · -- no word for a style starts with a digit
    have hdigit : ∀ word ∈ [lit "solid", lit "dashed", lit "dotted", lit "none"],
        word.head?.elim false (fun c => isDigit c || c == chr '.') = false := by decide
    rw [if_pos hword, hdigit word hword, StyleProperties.get_set, if_neg hstyle.1]
    rfl
  · rw [if_neg hword]
    split
    · rw [Option.some_or]
      cases side <;> rfl
    · rw [StyleProperties.get_set, if_neg hstyle.2, Option.none_or]

theorem get_applyBorder_of_ne (s : StyleProperties) (value : Bytes) {key : Bytes}
    (hstyle : key ≠ lit "border-style") (hcolor : key ≠ lit "border-color")
    (hwidth : ∀ side, key ≠ widthKey side) :
    ((words value).foldl applyBorderWord s).get key = s.get key := by
  refine List.foldlRecOn (motive := fun t : StyleProperties => t.get key = s.get key) _ _
    rfl fun t ht word _ => ?_
  rw [applyBorderWord]
  split
  · rw [StyleProperties.get_set, if_neg hstyle, ht]
  · split
    · rw [sides_eq, List.foldl_map]
      refine List.foldlRecOn (motive := fun t : StyleProperties => t.get key = s.get key) _ _
        ht fun t ht side _ => ?_
      rw [StyleProperties.get_set]
      exact (if_neg (hwidth side)).trans ht
    · rw [StyleProperties.get_set, if_neg hcolor, ht]

theorem get_applyBackground_of_ne (s : StyleProperties) (value : Bytes) {key : Bytes}
    (himage : key ≠ lit "background-image") (hcolor : key ≠ lit "background-color") :
    (applyBackground s value).get key = s.get key := by
  rw [applyBackground]
  cases find value (lit "url(") with
  | none =>
    dsimp only
    split
    · rw [StyleProperties.get_set, if_neg hcolor]
    · rfl
  | some begin =>
    dsimp only
    split
    · rw [StyleProperties.get_set, if_neg hcolor, StyleProperties.get_set, if_neg himage]
    · rw [StyleProperties.get_set, if_neg himage]

/-! ## One declaration -/

/-- The properties that `apply_declaration` does not store as they are, and those it stores them
under besides the edges. -/
def expanded : List Bytes :=
  [lit "margin", lit "padding", lit "border-width", lit "border-radius", lit "border",
    lit "background", lit "border-style", lit "border-color", lit "background-image",
    lit "background-color"]

/-- What `apply_declaration` does. -/
theorem applyDeclaration_cases (s : StyleProperties) (d : CssDeclaration) :
    (d.property ∈ [lit "margin", lit "padding"] ∧
      applyDeclaration s d = applyFourSides s d.property d.value) ∨
    (d.property = lit "border-width" ∧ applyDeclaration s d = applyBorderWidth s d.value) ∨
    (d.property = lit "border-radius" ∧ ∀ key, key ≠ lit "border-radius" →
      (applyDeclaration s d).get key = s.get key) ∨
    (d.property = lit "border" ∧
      applyDeclaration s d = (words d.value).foldl applyBorderWord s) ∨
    (d.property = lit "background" ∧ applyDeclaration s d = applyBackground s d.value) ∨
    (d.property ∉ [lit "margin", lit "padding", lit "border-width", lit "border"] ∧
      applyDeclaration s d = s.set d.property d.value) := by
  rw [applyDeclaration]
  by_cases hfour : d.property = lit "margin" ∨ d.property = lit "padding"
  · rw [if_pos hfour]
    exact Or.inl ⟨by simpa using hfour, rfl⟩
  rw [if_neg hfour]
  by_cases hwidth : d.property = lit "border-width"
  · rw [if_pos hwidth]
    exact Or.inr (Or.inl ⟨hwidth, rfl⟩)
  rw [if_neg hwidth]
  by_cases hradius : d.property = lit "border-radius"
  · rw [if_pos hradius]
    refine Or.inr (Or.inr (Or.inl ⟨hradius, fun key hkey => ?_⟩))
    cases words d.value with
    | nil => rfl
    | cons first values => exact if_neg hkey
  rw [if_neg hradius]
  by_cases hborder : d.property = lit "border"
  · rw [if_pos hborder]
    exact Or.inr (Or.inr (Or.inr (Or.inl ⟨hborder, rfl⟩)))
  rw [if_neg hborder]
  by_cases hbackground : d.property = lit "background"
  · rw [if_pos hbackground]
    exact Or.inr (Or.inr (Or.inr (Or.inr (Or.inl ⟨hbackground, rfl⟩))))
  rw [if_neg hbackground]
  refine Or.inr (Or.inr (Or.inr (Or.inr (Or.inr ⟨?_, rfl⟩))))
  simp only [List.mem_cons, List.not_mem_nil, or_false, not_or]
  exact ⟨(not_or.mp hfour).1, (not_or.mp hfour).2, hwidth, hborder⟩

theorem edgeKey_notMem_expanded :
    ∀ pair ∈ shorthands, ∀ side : Side, edgeKey pair.2 side ∉ expanded := by decide

theorem notMem_shorthands : ∀ name ∈ [lit "border-radius", lit "border", lit "background"],
    name ∉ shorthands.map Prod.fst := by decide

theorem edgeKey_ne_widthKey :
    ∀ pair ∈ shorthands, ∀ a b : Side, edgeKey pair.2 a ≠ widthKey b := by decide

theorem edgeKey_ne_edgeKey :
    ∀ pair ∈ shorthands, ∀ base ∈ [lit "margin", lit "padding", lit "border"], base ≠ pair.2 →
      ∀ a b : Side, edgeKey pair.2 a ≠ edgeKey base b := by decide

theorem widthKey_notMem_expanded : ∀ side : Side, widthKey side ∉ expanded := by decide

theorem setsSide_eq_none {shorthand base : Bytes} {side : Side} {d : CssDeclaration}
    (hshorthand : d.property ≠ shorthand) (hkey : d.property ≠ edgeKey base side) :
    setsSide shorthand base side d = none := by
  rw [setsSide, if_neg hshorthand, if_neg hkey]

/-- **One declaration** and the property of a side. -/
theorem get_applyDeclaration_edge {shorthand base : Bytes} (hmem : (shorthand, base) ∈ shorthands)
    (side : Side) (s : StyleProperties) (d : CssDeclaration) :
    (applyDeclaration s d).get (edgeKey base side) =
      (setsSide shorthand base side d).or (s.get (edgeKey base side)) := by
  have hexpanded (name : Bytes) (hname : name ∈ expanded) : name ≠ edgeKey base side :=
    fun h => edgeKey_notMem_expanded _ hmem side (h ▸ hname)
  have hshorthands (name : Bytes)
      (hname : name ∈ [lit "border-radius", lit "border", lit "background"]) : name ≠ shorthand :=
    fun h => notMem_shorthands name hname (h ▸ List.mem_map_of_mem hmem)
  have hwidth (side' : Side) : edgeKey base side ≠ widthKey side' :=
    edgeKey_ne_widthKey _ hmem side side'
  have hedge (other : Bytes) (hother : other ∈ [lit "margin", lit "padding", lit "border"])
      (hne : other ≠ base) (side' : Side) : edgeKey base side ≠ edgeKey other side' :=
    edgeKey_ne_edgeKey _ hmem other hother hne side side'
  -- a declaration under the name of another shorthand does not set the side
  have hother (name : Bytes) (hname : name ∈ expanded) (hne : name ≠ shorthand)
      (hd : d.property = name) : setsSide shorthand base side d = none :=
    setsSide_eq_none (hd ▸ hne) (hd ▸ hexpanded name hname)
  have hthree : (shorthand = base ∧ base ∈ [lit "margin", lit "padding"]) ∨
      (shorthand = lit "border-width" ∧ base = lit "border") := by
    revert hmem
    simp only [shorthands, List.mem_cons, Prod.mk.injEq, List.not_mem_nil, or_false]
    rintro (⟨rfl, rfl⟩ | ⟨rfl, rfl⟩ | ⟨rfl, rfl⟩) <;> decide
  rcases applyDeclaration_cases s d with ⟨hd, happly⟩ | ⟨hd, happly⟩ | ⟨hd, happly⟩ |
    ⟨hd, happly⟩ | ⟨hd, happly⟩ | ⟨hd, happly⟩
  · rw [happly]
    by_cases hbase : d.property = base
    · have hshorthand : d.property = shorthand := by
        rcases hthree with ⟨rfl, -⟩ | ⟨-, rfl⟩
        · exact hbase
        · exact absurd (hbase ▸ hd) (by decide)
      rw [hbase, get_applyFourSides, setsSide, if_pos hshorthand]
    · have hshorthand : d.property ≠ shorthand := by
        rcases hthree with ⟨rfl, -⟩ | ⟨rfl, -⟩
        · exact hbase
        · exact fun h => absurd (h ▸ hd) (by decide)
      have hname : d.property ∈ expanded :=
        (show [lit "margin", lit "padding"] ⊆ expanded by decide) hd
      have hbases : d.property ∈ [lit "margin", lit "padding", lit "border"] :=
        (show [lit "margin", lit "padding"] ⊆ [lit "margin", lit "padding", lit "border"] by
          decide) hd
      rw [get_applyFourSides_of_ne _ _ _ (hedge _ hbases hbase), hother _ hname hshorthand rfl,
        Option.none_or]
  · rw [happly]
    rcases hthree with ⟨rfl, hbase⟩ | ⟨rfl, rfl⟩
    · have hne : ∀ base ∈ [lit "margin", lit "padding"],
          lit "border" ≠ base ∧ lit "border-width" ≠ base := by decide
      rw [get_applyBorderWidth_of_ne _ _ (hedge _ (by decide) (hne _ hbase).1) hwidth,
        hother _ (by decide) (hne _ hbase).2 hd, Option.none_or]
    · rw [get_applyBorderWidth_edge, get_applyFourSides, setsSide, if_pos hd]
  · rw [happly _ (hexpanded _ (by decide)).symm, hother _ (by decide)
      (hshorthands _ (by decide)) hd, Option.none_or]
  · rw [happly, get_applyBorder_of_ne _ _ (hexpanded _ (by decide)).symm
      (hexpanded _ (by decide)).symm hwidth, hother _ (by decide)
      (hshorthands _ (by decide)) hd, Option.none_or]
  · rw [happly, get_applyBackground_of_ne _ _ (hexpanded _ (by decide)).symm
      (hexpanded _ (by decide)).symm, hother _ (by decide)
      (hshorthands _ (by decide)) hd, Option.none_or]
  · have hshorthand : d.property ≠ shorthand := by
      intro h
      refine hd (h ▸ ?_)
      rcases hthree with ⟨rfl, hbase⟩ | ⟨rfl, -⟩
      · exact (show [lit "margin", lit "padding"] ⊆
          [lit "margin", lit "padding", lit "border-width", lit "border"] by decide) hbase
      · decide
    rw [happly, StyleProperties.get_set, setsSide, if_neg hshorthand]
    by_cases hkey : d.property = edgeKey base side
    · rw [if_pos hkey.symm, if_pos hkey, Option.some_or]
    · rw [if_neg (Ne.symm hkey), if_neg hkey, Option.none_or]

/-- One declaration and the width of a border, where the property of its side is not set. -/
theorem get_applyDeclaration_width (side : Side) {s : StyleProperties} {d : CssDeclaration}
    (hs : s.get (edgeKey (lit "border") side) = none)
    (hd : setsSide (lit "border-width") (lit "border") side d = none) :
    (applyDeclaration s d).get (widthKey side) = (setsWidth side d).or (s.get (widthKey side)) := by
  have hexpanded (name : Bytes) (hname : name ∈ expanded) : name ≠ widthKey side :=
    fun h => widthKey_notMem_expanded side (h ▸ hname)
  have hedge (pair : Bytes × Bytes) (hpair : pair ∈ shorthands) (side' : Side) :
      widthKey side ≠ edgeKey pair.2 side' := (edgeKey_ne_widthKey pair hpair side' side).symm
  have hother (name : Bytes) (hname : name ∈ expanded) (hne : name ≠ lit "border")
      (hproperty : d.property = name) : setsWidth side d = none := by
    rw [setsWidth, if_neg (hproperty ▸ hne), if_neg (hproperty ▸ hexpanded name hname)]
  rcases applyDeclaration_cases s d with ⟨hproperty, happly⟩ | ⟨hproperty, happly⟩ |
    ⟨hproperty, happly⟩ | ⟨hproperty, happly⟩ | ⟨hproperty, happly⟩ | ⟨hproperty, happly⟩
  · have hbase : (d.property, d.property) ∈ shorthands := by
      revert hproperty
      generalize d.property = property
      intro hproperty
      rcases List.mem_pair.mp hproperty with rfl | rfl <;> decide
    rw [happly, get_applyFourSides_of_ne _ _ _ (hedge _ hbase), hother d.property ?_ ?_ rfl,
      Option.none_or]
    · exact (show [lit "margin", lit "padding"] ⊆ expanded by decide) hproperty
    · exact fun h => absurd (h ▸ hproperty) (by decide)
  · -- a value without words: the width is copied from the side only if the side is set
    have hword : sideWord side d.value = none := by rwa [setsSide, if_pos hproperty] at hd
    rw [happly, get_applyBorderWidth_width, get_applyFourSides, hword, hs,
      hother _ (by decide) (by decide) hproperty]
    rfl
  · rw [happly _ (hexpanded _ (by decide)).symm, hother _ (by decide) (by decide) hproperty,
      Option.none_or]
  · rw [happly, get_applyBorder_width, setsWidth, if_pos hproperty]
  · rw [happly, get_applyBackground_of_ne _ _ (hexpanded _ (by decide)).symm
      (hexpanded _ (by decide)).symm, hother _ (by decide) (by decide) hproperty, Option.none_or]
  · have hborder : d.property ≠ lit "border" := fun h => hproperty (by rw [h]; decide)
    rw [happly, StyleProperties.get_set, setsWidth, if_neg hborder]
    by_cases hkey : d.property = widthKey side
    · rw [if_pos hkey.symm, if_pos hkey, Option.some_or]
    · rw [if_neg (Ne.symm hkey), if_neg hkey, Option.none_or]

/-! ## All declarations -/

/-- The place of a declaration in the cascade: whether it is of the `style` attribute, the
specificity of its selector, the source order of its rule, and its position. -/
abbrev CascadePlace := Bool ×ₗ ℕ ×ₗ ℕ ×ₗ ℕ

/-- The place of a matching declaration. -/
def sheetPlace (m : Match) (position : ℕ) : CascadePlace :=
  toLex (false, toLex (m.specificity, toLex (m.sourceOrder, position)))

/-- The place of a declaration of the `style` attribute. -/
def inlinePlace (position : ℕ) : CascadePlace := toLex (true, toLex (0, toLex (0, position)))

/-- The declarations of the `style` attribute of a node. -/
def styleDeclarations (node : DomNode) : List CssDeclaration :=
  ((if node.type = .element then node.attributeValue (lit "style") else none).map
    inlineDeclarations).getD []

/-- The declarations for a node, with their places. -/
def cascade (dom : DomTree) (sheet : CssStyleSheet) (interaction : Option VisualInteractionState)
    (id : NodeId) (node : DomNode) : List (CascadePlace × CssDeclaration) :=
  (matchingDeclarations dom sheet interaction id).zipIdx.map
      (fun e => (sheetPlace e.1 e.2, e.1.declaration)) ++
    (styleDeclarations node).zipIdx.map fun e => (inlinePlace e.2, e.1)

/-- What the matching declarations are sorted by. -/
def Match.key (m : Match) : ℕ ×ₗ ℕ := toLex (m.specificity, m.sourceOrder)

theorem Match.le_iff (a b : Match) : Match.le a b = true ↔ a.key ≤ b.key := by
  rw [Match.le, Match.key, Match.key, Prod.Lex.toLex_le_toLex]
  by_cases h : a.specificity = b.specificity
  · simp [h]
  · simp [h]

/-- The declarations in the order in which they are applied. -/
def applied (dom : DomTree) (sheet : CssStyleSheet) (interaction : Option VisualInteractionState)
    (id : NodeId) (node : DomNode) : List (CascadePlace × CssDeclaration) :=
  (sortOn (fun e => e.1.key) (matchingDeclarations dom sheet interaction id).zipIdx).map
      (fun e => (sheetPlace e.1 e.2, e.1.declaration)) ++
    (styleDeclarations node).zipIdx.map fun e => (inlinePlace e.2, e.1)

section Applied

variable (dom : DomTree) (sheet : CssStyleSheet) (interaction : Option VisualInteractionState)
  (id : NodeId) (node : DomNode)

theorem mem_applied (entry : CascadePlace × CssDeclaration) :
    entry ∈ applied dom sheet interaction id node ↔ entry ∈ cascade dom sheet interaction id node := by
  simp only [applied, cascade, List.mem_append, List.mem_map, mem_sortOn]

theorem pairwise_zipIdx {α : Type*} (l : List α) : l.zipIdx.Pairwise fun x y => x.2 < y.2 := by
  have h : (l.zipIdx.map Prod.snd).Pairwise (· < ·) := by
    rw [List.zipIdx_map_snd]
    exact List.pairwise_lt_range' _
  exact List.pairwise_map.mp h

theorem sheetPlace_lt {a b : Match × ℕ}
    (h : KeyThen (fun e : Match × ℕ => e.1.key) (fun x y => x.2 < y.2) a b) :
    sheetPlace a.1 a.2 < sheetPlace b.1 b.2 := by
  rw [KeyThen, Match.key, Match.key, Prod.Lex.toLex_lt_toLex] at h
  rw [sheetPlace, sheetPlace]
  simp only [Prod.Lex.toLex_lt_toLex, lt_irrefl, true_and, false_or]
  rcases h with (h | h) | ⟨h, hposition⟩
  · exact Or.inl h
  · exact Or.inr ⟨h.1, Or.inl h.2⟩
  · obtain ⟨hspecificity, horder⟩ := Prod.mk.inj (toLex.injective h)
    exact Or.inr ⟨hspecificity, Or.inr ⟨horder, hposition⟩⟩

/-- The declarations are applied in the order of their places. -/
theorem pairwise_applied :
    (applied dom sheet interaction id node).Pairwise fun x y => x.1 < y.1 := by
  refine List.pairwise_append.mpr ⟨?_, ?_, ?_⟩
  · exact List.pairwise_map.mpr
      ((pairwise_sortOn _ (pairwise_zipIdx _)).imp fun h => sheetPlace_lt h)
  · refine List.pairwise_map.mpr ((pairwise_zipIdx _).imp fun h => ?_)
    simpa only [inlinePlace, Prod.Lex.toLex_lt_toLex, lt_irrefl, true_and, false_or] using h
  · intro x hx y hy
    obtain ⟨a, -, rfl⟩ := List.mem_map.mp hx
    obtain ⟨b, -, rfl⟩ := List.mem_map.mp hy
    exact Prod.Lex.toLex_lt_toLex.mpr (Or.inl Bool.false_lt_true)

/-- **They are the declarations that `resolve` applies.** -/
theorem declaredStyle_eq :
    declaredStyle dom sheet interaction id node =
      ((applied dom sheet interaction id node).map Prod.snd).foldl applyDeclaration {} := by
  have hsorted : (matchingDeclarations dom sheet interaction id).insertionSort (Match.le · ·) =
      (sortOn (fun e => e.1.key) (matchingDeclarations dom sheet interaction id).zipIdx).map
        Prod.fst := by
    have hmap := List.map_insertionSort (fun a b : Match × ℕ => a.1.key ≤ b.1.key)
      (Match.le · ·) Prod.fst (matchingDeclarations dom sheet interaction id).zipIdx
      fun a _ b _ => (Match.le_iff a.1 b.1).symm
    rw [List.zipIdx_map_fst] at hmap
    exact hmap.symm
  have hinline : ((styleDeclarations node).zipIdx.map fun e => (inlinePlace e.2, e.1)).map
      Prod.snd = styleDeclarations node := by
    rw [List.map_map]
    exact List.zipIdx_map_fst 0 (styleDeclarations node)
  rw [declaredStyle, hsorted, applied, List.map_append, hinline, List.foldl_append,
    List.map_map, List.foldl_map, List.foldl_map, styleDeclarations]
  dsimp only [Function.comp]
  cases (if node.type = .element then node.attributeValue (lit "style") else none) with
  | none => rfl
  | some text => rfl

variable {dom sheet interaction id node}

/-- The declaration that prevails is the last one applied. -/
theorem prevails_cascade_iff {f : CssDeclaration → Option Bytes} {initial value : Option Bytes} :
    Prevails f initial (cascade dom sheet interaction id node) value ↔
      value = (lastWrite f ((applied dom sheet interaction id node).map Prod.snd)).or initial := by
  have hmem := mem_applied dom sheet interaction id node
  rw [← prevails_iff (pairwise_applied dom sheet interaction id node)]
  exact ⟨Prevails.congr fun entry => (hmem entry).symm, Prevails.congr hmem⟩

/-- Some declaration gives the value. -/
theorem lastWrite_applied_ne_none_iff {f : CssDeclaration → Option Bytes} :
    lastWrite f ((applied dom sheet interaction id node).map Prod.snd) ≠ none ↔
      ∃ entry ∈ cascade dom sheet interaction id node, (f entry.2).isSome := by
  rw [Ne, lastWrite_eq_none_iff, List.forall_mem_map]
  push Not
  simp only [mem_applied, Option.isSome_iff_ne_none]

end Applied

/-! ## The computed style -/

/-- A property that is not inherited and has no initial value of its own. -/
theorem get_resolve_of_notMem {key : Bytes} (hinherited : key ∉ StyleProperties.inherited)
    (hdisplay : key ≠ lit "display") (hinitial : key ∉ initialValues.map Prod.fst)
    (hform : key ∉ formValues.map Prod.fst) (dom : DomTree) (sheet : CssStyleSheet)
    (parentStyle : Option StyleProperties) (interaction : Option VisualInteractionState)
    (id : NodeId) (node : DomNode) :
    (resolve dom sheet parentStyle interaction id node).get key =
      (declaredStyle dom sheet interaction id node).get key := by
  have hparent (s : StyleProperties) : (parentStyle.elim s s.inheritFrom).get key = s.get key := by
    cases parentStyle with
    | none => rfl
    | some parent =>
      rw [Option.elim_some]
      exact get_inheritFrom s parent hinherited
  rw [resolve, applyInitialValues]
  split
  · rw [get_foldl_setDefault _ _ hform, get_foldl_setDefault _ _ hinitial,
      StyleProperties.get_setDefault_of_ne _ _ _ hdisplay, hparent]
  · rw [get_foldl_setDefault _ _ hinitial, StyleProperties.get_setDefault_of_ne _ _ _ hdisplay,
      hparent]

section Resolve

variable (dom : DomTree) (sheet : CssStyleSheet) (parentStyle : Option StyleProperties)
  (interaction : Option VisualInteractionState) (id : NodeId) (node : DomNode)

/-- **The property of a side is the last write to it.** -/
theorem get_resolve_edge {shorthand base : Bytes} (hmem : (shorthand, base) ∈ shorthands)
    (side : Side) :
    (resolve dom sheet parentStyle interaction id node).get (edgeKey base side) =
      lastWrite (setsSide shorthand base side)
        ((applied dom sheet interaction id node).map Prod.snd) := by
  have hkey : ∀ pair ∈ shorthands, ∀ side : Side,
      edgeKey pair.2 side ∉ StyleProperties.inherited ∧ edgeKey pair.2 side ≠ lit "display" ∧
        edgeKey pair.2 side ∉ initialValues.map Prod.fst ∧
        edgeKey pair.2 side ∉ formValues.map Prod.fst := by decide
  obtain ⟨hinherited, hdisplay, hinitial, hform⟩ := hkey _ hmem side
  rw [get_resolve_of_notMem hinherited hdisplay hinitial hform, declaredStyle_eq]
  generalize (applied dom sheet interaction id node).map Prod.snd = l
  have hloop := foldl_lastWrite (l := l) (fun s : StyleProperties => s.get (edgeKey base side))
    (fun s d _ => get_applyDeclaration_edge hmem side s d) {}
  exact hloop.trans Option.or_none

/-- The property of the width of a border is the last write to it, if the side is not set. -/
theorem get_resolve_width {side : Side}
    (hside : lastWrite (setsSide (lit "border-width") (lit "border") side)
      ((applied dom sheet interaction id node).map Prod.snd) = none) :
    (resolve dom sheet parentStyle interaction id node).get (widthKey side) =
      lastWrite (setsWidth side) ((applied dom sheet interaction id node).map Prod.snd) := by
  have hkey : ∀ side : Side, widthKey side ∉ StyleProperties.inherited ∧
      widthKey side ≠ lit "display" ∧ widthKey side ∉ initialValues.map Prod.fst ∧
      widthKey side ∉ formValues.map Prod.fst := by decide
  obtain ⟨hinherited, hdisplay, hinitial, hform⟩ := hkey side
  rw [get_resolve_of_notMem hinherited hdisplay hinitial hform, declaredStyle_eq]
  generalize (applied dom sheet interaction id node).map Prod.snd = l at hside ⊢
  have hnone := lastWrite_eq_none_iff.mp hside
  have hmem : (lit "border-width", lit "border") ∈ shorthands := by decide
  have hkept (s : StyleProperties) (hs : s.get (edgeKey (lit "border") side) = none)
      (d : CssDeclaration) (hd : d ∈ l) :
      (applyDeclaration s d).get (edgeKey (lit "border") side) = none := by
    rw [get_applyDeclaration_edge hmem, hnone d hd, hs]
    rfl
  have hstep (s : StyleProperties) (hs : s.get (edgeKey (lit "border") side) = none)
      (d : CssDeclaration) (hd : d ∈ l) :
      (applyDeclaration s d).get (widthKey side) =
        (setsWidth side d).or (s.get (widthKey side)) :=
    get_applyDeclaration_width side hs (hnone d hd)
  have hloop := foldl_lastWrite_of_invariant (fun s : StyleProperties => s.get (widthKey side))
    (fun s => s.get (edgeKey (lit "border") side) = none) hkept hstep (s := {}) rfl
  exact hloop.trans Option.or_none

end Resolve

end Aetheris.Style
