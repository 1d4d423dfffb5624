import Aetheris.Layout.Engine
import Aetheris.Style.Cascade

/-!
# Used edges

The margins, the paddings and the borders that the layout takes from a style, and the declarations
they come from.  Every edge should be given by the last declaration for it in the order of the
cascade.  For a border the code asks two properties one after the other, whichever was declared
last, and it gives form controls edges that no declaration asks for.
-/

namespace Aetheris.Layout

open Css Dom Style Length

/-! ## Sides -/

section Sides

variable {F : Type}

/-- The edge of a side. -/
def BoxEdges.side (edges : BoxEdges F) : Side → F
  | .top => edges.top
  | .right => edges.right
  | .bottom => edges.bottom
  | .left => edges.left

variable [Length F]

theorem side_resolveEdges (style : StyleProperties) (base : Bytes) (width : F) (side : Side) :
    (resolveEdges style base width).side side = resolveSide style base side.name width := by
  cases side <;> rfl

/-- A side that is not of a border is read from its property. -/
theorem resolveSide_of_ne (style : StyleProperties) {base : Bytes} (hbase : base ≠ lit "border")
    (side : Side) (width : F) :
    resolveSide style base side.name width = parseLength (style.get (edgeKey base side)) 0 width := by
  rw [resolveSide, edgeKey]
  cases style.get (base ++ lit "-" ++ side.name) with
  | none => exact if_neg hbase
  | some value => rfl

/-- The property of the side comes before the property of its width. -/
theorem resolveSide_border (style : StyleProperties) (side : Side) (width : F) :
    resolveSide style (lit "border") side.name width =
      parseLength ((style.get (edgeKey (lit "border") side)).or (style.get (widthKey side))) 0
        width := by
  rw [resolveSide, edgeKey, widthKey, if_pos rfl]
  cases style.get (lit "border" ++ lit "-" ++ side.name) with
  | some value => rfl
  | none =>
    rw [Option.none_or]
    cases style.get (lit "border-" ++ side.name ++ lit "-width") with
    | some value => rfl
    | none => rfl

end Sides

/-! ## Declarations for edges -/

/-- What a declaration gives the border of a side: by `border-width` or the property of the side,
or by `border` or the property of the width. -/
def setsBorder (side : Side) (d : CssDeclaration) : Option Bytes :=
  (setsSide (lit "border-width") (lit "border") side d).or (setsWidth side d)

/-- The initial padding of a node. -/
def initialPadding (node : DomNode) : Option Bytes :=
  if isFormControl node then some (lit "4px") else none

/-- The initial border of a node. -/
def initialBorder (node : DomNode) : Option Bytes :=
  if isFormControl node then some (lit "1px") else none

/-- The edges are those that the last declarations for them give, or the initial ones. -/
def EdgesPrevail (setsEdge : Side → CssDeclaration → Option Bytes) (initial : Option Bytes)
    (entries : List (CascadePlace × CssDeclaration)) (width : ℚ) (edges : BoxEdges ℚ) : Prop :=
  ∀ side, ∃ value, Prevails (setsEdge side) initial entries value ∧
    edges.side side = parseLength value 0 width

/-- **The edges of a node are those that the cascade gives it.** -/
structure UsedEdges (dom : DomTree) (sheet : CssStyleSheet) (parentStyle : Option StyleProperties)
    (interaction : Option VisualInteractionState) (id : NodeId) (node : DomNode) (width : ℚ) :
    Prop where
  margin : EdgesPrevail (setsSide (lit "margin") (lit "margin")) none
    (cascade dom sheet interaction id node) width
    (resolveEdges (resolve dom sheet parentStyle interaction id node) (lit "margin") width)
  padding : EdgesPrevail (setsSide (lit "padding") (lit "padding")) (initialPadding node)
    (cascade dom sheet interaction id node) width
    (resolveEdges (resolve dom sheet parentStyle interaction id node) (lit "padding") width)
  border : EdgesPrevail setsBorder (initialBorder node) (cascade dom sheet interaction id node)
    width (resolveEdges (resolve dom sheet parentStyle interaction id node) (lit "border") width)

/-! ## What the layout reads -/

section Read

variable (dom : DomTree) (sheet : CssStyleSheet) (parentStyle : Option StyleProperties)
  (interaction : Option VisualInteractionState) (id : NodeId) (node : DomNode) (width : ℚ)

theorem exists_prevails_iff {f : CssDeclaration → Option Bytes} {initial : Option Bytes}
    {P : Option Bytes → Prop} :
    (∃ value, Prevails f initial (cascade dom sheet interaction id node) value ∧ P value) ↔
      P ((lastWrite f ((applied dom sheet interaction id node).map Prod.snd)).or initial) := by
  simp only [prevails_cascade_iff, exists_eq_left]

/-- A margin, or a padding, is read from the last declaration for it. -/
theorem side_resolve {base : Bytes} (hmem : (base, base) ∈ shorthands)
    (hbase : base ≠ lit "border") (side : Side) :
    (resolveEdges (resolve dom sheet parentStyle interaction id node) base width).side side =
      parseLength (lastWrite (setsSide base base side)
        ((applied dom sheet interaction id node).map Prod.snd)) 0 width := by
  rw [side_resolveEdges, resolveSide_of_ne _ hbase, get_resolve_edge _ _ _ _ _ _ hmem]

/-- A border is read from the last of some of the declarations for it; only if there are none of
these, from the last of the others. -/
theorem side_resolve_border (side : Side) :
    (resolveEdges (resolve dom sheet parentStyle interaction id node) (lit "border") width).side
        side =
      parseLength ((lastWrite (setsSide (lit "border-width") (lit "border") side)
          ((applied dom sheet interaction id node).map Prod.snd)).or
        (lastWrite (setsWidth side) ((applied dom sheet interaction id node).map Prod.snd))) 0
        width := by
  have hmem : (lit "border-width", lit "border") ∈ shorthands := by decide
  rw [side_resolveEdges, resolveSide_border, get_resolve_edge _ _ _ _ _ _ hmem]
  cases hside : lastWrite (setsSide (lit "border-width") (lit "border") side)
      ((applied dom sheet interaction id node).map Prod.snd) with
  | some value => rfl
  | none => rw [get_resolve_width _ _ _ _ _ _ hside]

/-- The initial value is not read, so that it makes a difference if no declaration gives one. -/
theorem parseLength_or_initial_iff (value : Option Bytes) {initial : Bytes}
    (hinitial : parseLength (some initial) 0 width ≠ 0) (isControl : Bool) :
    parseLength value 0 width =
        parseLength (value.or (if isControl then some initial else none)) 0 width ↔
      (isControl = true → value ≠ none) := by
  cases value with
  | some value => simp
  | none =>
    rw [Option.none_or]
    cases isControl with
    | false => simp
    | true => simpa [parseLength] using hinitial.symm

theorem margin_prevails :
    EdgesPrevail (setsSide (lit "margin") (lit "margin")) none
      (cascade dom sheet interaction id node) width
      (resolveEdges (resolve dom sheet parentStyle interaction id node) (lit "margin") width) := by
  intro side
  rw [exists_prevails_iff, side_resolve _ _ _ _ _ _ _ (by decide) (by decide), Option.or_none]

theorem padding_prevails_iff :
    EdgesPrevail (setsSide (lit "padding") (lit "padding")) (initialPadding node)
        (cascade dom sheet interaction id node) width
        (resolveEdges (resolve dom sheet parentStyle interaction id node) (lit "padding") width) ↔
      ∀ side, isFormControl node = true → ∃ entry ∈ cascade dom sheet interaction id node,
        (setsSide (lit "padding") (lit "padding") side entry.2).isSome := by
  refine forall_congr' fun side => ?_
  have hinitial : parseLength (some (lit "4px")) 0 width ≠ 0 := by
    rw [show parseLength (some (lit "4px")) 0 width = 4 from rfl]
    norm_num
  rw [exists_prevails_iff, side_resolve _ _ _ _ _ _ _ (by decide) (by decide), initialPadding,
    parseLength_or_initial_iff _ _ hinitial, lastWrite_applied_ne_none_iff]

theorem border_prevails_iff :
    EdgesPrevail setsBorder (initialBorder node) (cascade dom sheet interaction id node) width
        (resolveEdges (resolve dom sheet parentStyle interaction id node) (lit "border") width) ↔
      ∀ side,
        (isFormControl node = true → ∃ entry ∈ cascade dom sheet interaction id node,
          (setsBorder side entry.2).isSome) ∧
        ∀ value last,
          Prevails (setsSide (lit "border-width") (lit "border") side) none
            (cascade dom sheet interaction id node) (some value) →
          Prevails (setsBorder side) none (cascade dom sheet interaction id node) (some last) →
          parseLength (some value) 0 width = parseLength (some last) 0 width := by
  refine forall_congr' fun side => ?_
  have hinitial : parseLength (some (lit "1px")) 0 width ≠ 0 := by
    rw [show parseLength (some (lit "1px")) 0 width = 1 from rfl]
    norm_num
  rw [exists_prevails_iff, side_resolve_border, initialBorder, ← lastWrite_applied_ne_none_iff]
  simp only [prevails_cascade_iff, Option.or_none]
  generalize (applied dom sheet interaction id node).map Prod.snd = l
  cases hside : lastWrite (setsSide (lit "border-width") (lit "border") side) l with
  | none =>
    have hborder : lastWrite (setsBorder side) l = lastWrite (setsWidth side) l :=
      lastWrite_or_of_none hside
    rw [Option.none_or, hborder, parseLength_or_initial_iff _ _ hinitial]
    exact (and_iff_left fun value last h => absurd h (Option.some_ne_none value)).symm
  | some value =>
    obtain ⟨last, hborder⟩ : ∃ last, lastWrite (setsBorder side) l = some last :=
      lastWrite_or_isSome hside
    rw [hborder, Option.some_or, Option.some_or]
    constructor
    · rintro h
      refine ⟨fun _ => Option.some_ne_none last, ?_⟩
      rintro _ _ ⟨⟩ ⟨⟩
      exact h
    · exact fun h => h.2 value last rfl rfl

/-- **Exactly when the used edges are those of the cascade.**  The margins always are.  The
paddings and the borders of a form control must be declared, and a border must be declared last by
`border-width` or by the property of its side if there is such a declaration at all, or be given
the same length by the last of these. -/
theorem used_edges_iff :
    UsedEdges dom sheet parentStyle interaction id node width ↔
      (isFormControl node = true → ∀ side,
        (∃ entry ∈ cascade dom sheet interaction id node,
          (setsSide (lit "padding") (lit "padding") side entry.2).isSome) ∧
        ∃ entry ∈ cascade dom sheet interaction id node, (setsBorder side entry.2).isSome) ∧
      ∀ side value last,
        Prevails (setsSide (lit "border-width") (lit "border") side) none
          (cascade dom sheet interaction id node) (some value) →
        Prevails (setsBorder side) none (cascade dom sheet interaction id node) (some last) →
        parseLength (some value) 0 width = parseLength (some last) 0 width := by
  constructor
  · rintro ⟨-, hpadding, hborder⟩
    have hpadding := (padding_prevails_iff dom sheet parentStyle interaction id node width).mp hpadding
    have hborder := (border_prevails_iff dom sheet parentStyle interaction id node width).mp hborder
    exact ⟨fun hform side => ⟨hpadding side hform, (hborder side).1 hform⟩,
      fun side => (hborder side).2⟩
  · rintro ⟨hform, hlast⟩
    refine ⟨margin_prevails dom sheet parentStyle interaction id node width, ?_, ?_⟩
    · exact (padding_prevails_iff dom sheet parentStyle interaction id node width).mpr
        fun side h => (hform h side).1
    · exact (border_prevails_iff dom sheet parentStyle interaction id node width).mpr
        fun side => ⟨fun h => (hform h side).2, hlast side⟩

end Read

/-- An `input` by itself. -/
def soleInput : DomNode := { type := .element, name := lit "input" }

def soleInputDom : DomTree where
  heap :=
    { nodes := fun id => if id = 0 then some soleInput else none
      next := 1 }
  fresh id h := if_neg (Nat.ne_of_gt h)
  wf := Heap.wf_of_lt fun a b h => by
    match b, h with
    | 0, h => cases h
    | _ + 1, h => cases h

/-- An `input` for which nothing is declared has no padding. -/
theorem not_forall_usedEdges :
    ¬∀ (dom : DomTree) (sheet : CssStyleSheet) (parentStyle : Option StyleProperties)
      (interaction : Option VisualInteractionState) (id : NodeId) (node : DomNode) (width : ℚ),
      UsedEdges dom sheet parentStyle interaction id node width := by
  intro h
  have hpadding := (padding_prevails_iff soleInputDom {} none none 0 soleInput 100).mp
    (h soleInputDom {} none none 0 soleInput 100).padding
  obtain ⟨entry, hentry, -⟩ := hpadding .top rfl
  exact absurd hentry List.not_mem_nil

end Aetheris.Layout
