import Aetheris.Layout.Engine

/-!
# Nodes that lay out their children

`layout_node` has four ends: a node that is not displayed, an image, a text, and any other node,
which alone lays out its children.  Here the four ends are told apart once, so that what follows
need not go through the branches again: `layoutLeaf` is what becomes of the first three, and
`layoutNode_eq` says what becomes of the last one.  What a layout does not change of a node decides
which end it comes to.
-/

namespace Aetheris.Layout

open Dom Style Length

section Kinds

variable {F : Type}

/-- The node lays out its children: it has a box, and is no image and no text. -/
def hasContents (node : LayoutFields F) : Bool :=
  node.display != .none && !(node.dom.type == .element && node.dom.name == lit "img") &&
    node.dom.type != .text

theorem passedOver_eq_false_iff {child : LayoutFields F} :
    passedOver child = false ↔ isPositioned child = false ∧ child.display ≠ .none := by
  rw [passedOver, Bool.or_eq_false_iff, and_comm, beq_eq_false_iff_ne]

theorem hasContents_iff {node : LayoutFields F} :
    hasContents node = true ↔ node.display ≠ .none ∧
      ¬ (node.dom.type = .element ∧ node.dom.name = lit "img") ∧ node.dom.type ≠ .text := by
  rw [hasContents, Bool.and_eq_true, Bool.and_eq_true, bne_iff_ne, bne_iff_ne, Bool.not_eq_true',
    Bool.and_eq_false_iff, beq_eq_false_iff_ne, beq_eq_false_iff_ne, not_and_or, and_assoc]

end Kinds

variable {F : Type} [Length F]

theorem hasContents_eq {a b : LayoutFields F} (h : a.still = b.still) :
    hasContents a = hasContents b := by
  have heq := congrArg hasContents h
  exact heq

/-! ## Other nodes -/

/-- `layout_node`, of a node that does not lay out its children. -/
def layoutLeaf (x y available : F) (node : LayoutFields F) : LayoutFields F :=
  if node.display = .none then
    { node with rect := default, box := default, textFragments := [] }
  else
    let frame := frame node.style x y available
    if node.dom.type = .element ∧ node.dom.name = lit "img" then
      let size := imageSize node.still available frame.width
      let box := placed node.style frame x y available size.1 size.1 size.2
      { node with rect := box.1, box := box.2 }
    else
      let fragments := textLayout node.dom.data frame.x frame.y frame.width node.style
      let height := textHeight node.style frame.y fragments
      let box := placed node.style frame x y available frame.width frame.width height
      { node with rect := box.1, box := box.2, textFragments := fragments }

theorem layoutNode_of_not_hasContents {node : LayoutFields F}
    (h : hasContents node = false) (depth : ℕ) (x y available : F)
    (children : List (LayoutNode F)) :
    layoutNode (depth + 1) x y available (.node node children) =
      .node (layoutLeaf x y available node) children := by
  rw [layoutNode, layoutLeaf]
  by_cases hdisplay : node.display = .none
  · rw [if_pos hdisplay, if_pos hdisplay]
  rw [if_neg hdisplay, if_neg hdisplay]
  by_cases himage : node.dom.type = .element ∧ node.dom.name = lit "img"
  · simp only [if_pos himage]
  · have htext : node.dom.type = .text := by
      by_contra htext
      exact Bool.eq_false_iff.mp h (hasContents_iff.mpr ⟨hdisplay, himage, htext⟩)
    simp only [if_neg himage, if_pos htext]

/-! ## A node with its children -/

/-- The height of the content box of a node that lays out its children. -/
def contentsHeight (depth : ℕ) (frame : Frame F) (node : LayoutFields F)
    (children : List (LayoutNode F)) : F :=
  blockHeight node.style frame.width
    ((flow (layoutNode depth) node frame children).1.1 - frame.y)

/-- **What `layout_node` makes of a node that lays out its children.** -/
theorem layoutNode_eq {node : LayoutFields F} (h : hasContents node = true) (depth : ℕ)
    (x y available : F) (children : List (LayoutNode F)) :
    layoutNode (depth + 1) x y available (.node node children) =
      let frame := frame node.style x y available
      let flowed := flow (layoutNode depth) node.still frame children
      let height := contentsHeight depth frame node.still children
      let box := placed node.style frame x y available frame.width flowed.1.2 height
      .node { node with rect := box.1, box := box.2 } (flowed.2.map
        (absoluteStep (layoutNode depth) frame.x frame.y height frame.width)) := by
  obtain ⟨hdisplay, himage, htext⟩ := hasContents_iff.mp h
  rw [layoutNode, if_neg hdisplay, if_neg himage, if_neg htext]
  rfl

/-! ## The assignments -/

namespace LayoutFields

variable {a b : LayoutFields F} {x y w h available : F} {l : List (TextFragment F)}

/-- What does not change, and what may change, is all there is. -/
theorem ext_still (hstill : a.still = b.still) (hrect : a.rect = b.rect) (hbox : a.box = b.box)
    (hfragments : a.textFragments = b.textFragments) : a = b := by
  rcases a with ⟨_, _, _, _, rect, box, fragments, _, _, _⟩
  rcases b with ⟨_, _, _, _, rect', box', fragments', _, _, _⟩
  simp only [LayoutFields.still, LayoutFields.mk.injEq, true_and] at hstill
  obtain ⟨rfl, rfl, rfl, rfl, rfl, rfl, rfl⟩ := hstill
  simp only at hrect hbox hfragments
  rw [hrect, hbox, hfragments]

theorem still_setText : (a.setText x y w l h).still = a.still := by
  unfold setText
  split <;> rfl

omit [Length F] in
theorem dom_setText : (a.setText x y w l h).dom = a.dom := by
  unfold setText
  split <;> rfl

omit [Length F] in
theorem textFragments_setText : (a.setText x y w l h).textFragments = l := by
  unfold setText
  split
  next hnil => exact hnil.symm
  · rfl

theorem still_layoutLeaf : (layoutLeaf x y available a).still = a.still := by
  unfold layoutLeaf
  split
  · rfl
  · dsimp only
    split <;> rfl

/-- A node that lays out no children is laid out anew. -/
theorem layoutLeaf_eq (hstill : a.still = b.still)
    (hfragments : a.dom.type ≠ .text → a.textFragments = b.textFragments) :
    layoutLeaf x y available a = layoutLeaf x y available b := by
  rcases a with ⟨domNode, dom, style, display, rect, box, fragments, image, background, parent⟩
  rcases b with ⟨_, _, _, _, rect', box', fragments', _, _, _⟩
  simp only [LayoutFields.still, LayoutFields.mk.injEq, true_and] at hstill
  obtain ⟨rfl, rfl, rfl, rfl, rfl, rfl, rfl⟩ := hstill
  unfold layoutLeaf
  split
  · rfl
  · dsimp only
    split
    next himage =>
      have htext : dom.type ≠ .text := fun h => DomNodeType.noConfusion (himage.1.symm.trans h)
      rw [show fragments = fragments' from hfragments htext]
      rfl
    · rfl

end LayoutFields

end Aetheris.Layout
