import Aetheris.Dom.Tree
import Aetheris.Image
import Aetheris.Style.Resolver

/-!
# Layout nodes

The records of `rendering/layout.hpp`, over a type of lengths.  A layout node is made for one DOM
node, and its address is that of the DOM node; it keeps a copy of what its `dom_node` points to,
since no node of the document changes while it is laid out.  What it has itself is `LayoutFields`,
and `LayoutNode` is the tree with its children.
-/

namespace Aetheris.Layout

open Dom Style

/-- `LayoutRect`. -/
@[ext]
structure LayoutRect (F : Type) where
  x : F
  y : F
  width : F
  height : F
  deriving DecidableEq, Repr

/-- `BoxEdges`. -/
structure BoxEdges (F : Type) where
  top : F
  right : F
  bottom : F
  left : F
  deriving DecidableEq, Repr

/-- `BoxModel`. -/
@[ext]
structure BoxModel (F : Type) where
  content : LayoutRect F
  margin : BoxEdges F
  padding : BoxEdges F
  border : BoxEdges F
  deriving DecidableEq, Repr

/-- `TextFragment`. -/
structure TextFragment (F : Type) where
  text : Bytes
  rect : LayoutRect F
  baseline : F
  deriving DecidableEq, Repr

section Zero

variable {F : Type} [Zero F]

instance : Inhabited (LayoutRect F) := ⟨⟨0, 0, 0, 0⟩⟩

instance : Inhabited (BoxEdges F) := ⟨⟨0, 0, 0, 0⟩⟩

instance : Inhabited (BoxModel F) := ⟨⟨default, default, default, default⟩⟩

end Zero

/-- `LayoutDisplay`. -/
inductive LayoutDisplay
  | block
  | inline
  | inlineBlock
  | flex
  | grid
  | none
  deriving DecidableEq, Repr

/-- `LayoutNode` without its children.  `parent` is the address of a layout node. -/
structure LayoutFields (F : Type) where
  domNode : NodeId
  dom : DomNode
  style : StyleProperties
  display : LayoutDisplay
  rect : LayoutRect F
  box : BoxModel F
  textFragments : List (TextFragment F)
  image : Option Image
  backgroundImage : Option Image
  parent : Option NodeId

/-- A layout node before any layout: what a layout reads of it, and does not change. -/
def LayoutFields.still {F : Type} [Zero F] (node : LayoutFields F) : LayoutFields F :=
  { node with rect := default, box := default, textFragments := [] }

/-- `LayoutNode`. -/
abbrev LayoutNode (F : Type) := Rose (LayoutFields F)

namespace LayoutNode

variable {F : Type}

/-- A layout node with another parent pointer. -/
def withParent (node : LayoutNode F) (parent : NodeId) : LayoutNode F :=
  .node { node.value with parent := some parent } node.children

end LayoutNode

/-- `display_for`. -/
def displayFor (node : DomNode) (style : StyleProperties) : LayoutDisplay :=
  let fallback := if node.type = .text then LayoutDisplay.inline else .block
  match style.get (lit "display") with
  | none => fallback
  | some value =>
    if value = lit "none" then .none
    else if value = lit "inline" then .inline
    else if value = lit "inline-block" then .inlineBlock
    else if value = lit "flex" ∨ value = lit "inline-flex" then .flex
    else if value = lit "grid" ∨ value = lit "inline-grid" then .grid
    else fallback

end Aetheris.Layout
