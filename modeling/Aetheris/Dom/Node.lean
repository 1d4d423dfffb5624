import Aetheris.Bytes
import Aetheris.Library.Ancestry

/-!
# DOM nodes

A `DomNode` is addressed by pointers: its parent's, its children's `unique_ptr`s, and whatever raw
pointers other components keep.  The model keeps the nodes in a `Heap` and a pointer is a `NodeId`
into it.  There are three writes, `Heap.alloc`, `Heap.modify` and `Heap.appendChild`, each with a
lemma that says what it leaves at every node.

Code that walks up the tree relies on the parent links having no infinite chain, and a `DomTree` is
a heap with a proof of this.
-/

namespace Aetheris.Dom

/-- `DomNodeType`. -/
inductive DomNodeType where
  | document
  | element
  | text
  | comment
  | doctype
  deriving DecidableEq, Repr

/-- A `DomNode*`. -/
abbrev NodeId := ℕ

/-- `DomNode`.  The attribute map is a list of pairs with one entry for each name. -/
structure DomNode where
  type : DomNodeType := .document
  name : Bytes := []
  data : Bytes := []
  attributes : List (Bytes × Bytes) := []
  children : List NodeId := []
  parent : Option NodeId := none
  deriving DecidableEq, Repr

namespace DomNode

/-- `DomNode::attribute`. -/
def attributeValue (node : DomNode) (attributeName : Bytes) : Option Bytes :=
  node.attributes.lookup attributeName

end DomNode

/-- The nodes that have been created, and the next fresh address. -/
structure Heap where
  nodes : NodeId → Option DomNode
  next : NodeId

namespace Heap

/-- No node. -/
def empty : Heap := ⟨fun _ => none, 0⟩

/-- `node->parent`. -/
def parentOf (h : Heap) (id : NodeId) : Option NodeId := (h.nodes id).bind (·.parent)

/-- `node->children`. -/
def childrenOf (h : Heap) (id : NodeId) : List NodeId := ((h.nodes id).map (·.children)).getD []

/-- `std::make_unique<DomNode>(…)`: the new node is at the old `next`. -/
def alloc (h : Heap) (node : DomNode) : Heap :=
  ⟨Function.update h.nodes h.next (some node), h.next + 1⟩

/-- A write to one node. -/
def modify (h : Heap) (id : NodeId) (f : DomNode → DomNode) : Heap :=
  { h with nodes := Function.update h.nodes id ((h.nodes id).map f) }

/-- `parent->append_child(child)`: the child's parent link, then the parent's list. -/
def appendChild (h : Heap) (parent child : NodeId) : Heap :=
  (h.modify child fun node => { node with parent := some parent }).modify parent
    fun node => { node with children := node.children ++ [child] }

@[simp] theorem next_modify (h : Heap) (id : NodeId) (f : DomNode → DomNode) :
    (h.modify id f).next = h.next := rfl

theorem nodes_modify (h : Heap) (id : NodeId) (f : DomNode → DomNode) (x : NodeId) :
    (h.modify id f).nodes x = if x = id then (h.nodes x).map f else h.nodes x := by
  by_cases hx : x = id
  · subst hx
    rw [if_pos rfl]
    exact Function.update_self ..
  · rw [if_neg hx]
    exact Function.update_of_ne hx ..

theorem nodes_alloc (h : Heap) (node : DomNode) (x : NodeId) :
    (h.alloc node).nodes x = if x = h.next then some node else h.nodes x := by
  by_cases hx : x = h.next
  · subst hx
    rw [if_pos rfl]
    exact Function.update_self ..
  · rw [if_neg hx]
    exact Function.update_of_ne hx ..

theorem childrenOf_modify (h : Heap) (id : NodeId) (f : DomNode → DomNode) (q : NodeId) :
    (h.modify id f).childrenOf q =
      if q = id then ((h.nodes q).map fun node => (f node).children).getD []
      else h.childrenOf q := by
  rw [childrenOf, nodes_modify]
  split
  · rw [Option.map_map]
    rfl
  · rfl

theorem parentOf_modify (h : Heap) (id : NodeId) (f : DomNode → DomNode) (q : NodeId) :
    (h.modify id f).parentOf q =
      if q = id then (h.nodes q).bind fun node => (f node).parent else h.parentOf q := by
  rw [parentOf, nodes_modify]
  split
  · cases h.nodes q <;> rfl
  · rfl

theorem type_modify (h : Heap) (id : NodeId) (f : DomNode → DomNode)
    (hf : ∀ node, (f node).type = node.type) (q : NodeId) :
    ((h.modify id f).nodes q).map (·.type) = (h.nodes q).map (·.type) := by
  rw [nodes_modify]
  split
  · rw [Option.map_map]
    cases h.nodes q with
    | none => rfl
    | some node => exact congrArg some (hf node)
  · rfl

theorem childrenOf_appendChild {h : Heap} {parent : NodeId} (hp : (h.nodes parent).isSome)
    (child q : NodeId) : (h.appendChild parent child).childrenOf q =
      h.childrenOf q ++ if q = parent then [child] else [] := by
  have hchild : ∀ q, (h.modify child fun node => { node with parent := some parent }).childrenOf q
      = h.childrenOf q := by
    intro q
    rw [childrenOf_modify]
    split <;> rfl
  rw [appendChild, childrenOf_modify]
  split
  · rename_i hq
    rw [← hchild, childrenOf]
    have hsome : ((h.modify child fun node => { node with parent := some parent }).nodes q).isSome := by
      rw [nodes_modify, hq]
      split
      · rw [Option.isSome_map]
        exact hp
      · exact hp
    cases hnode : (h.modify child fun node => { node with parent := some parent }).nodes q with
    | none => rw [hnode] at hsome; exact absurd hsome Bool.false_ne_true
    | some node => rfl
  · rw [hchild, List.append_nil]

theorem parentOf_appendChild {h : Heap} {child : NodeId} (hc : (h.nodes child).isSome)
    (parent : NodeId) : (h.appendChild parent child).parentOf =
      Function.update h.parentOf child (some parent) := by
  funext q
  have hkeep : ∀ (g : Heap) (q : NodeId),
      (g.modify parent fun node => { node with children := node.children ++ [child] }).parentOf q
        = g.parentOf q := by
    intro g q
    rw [parentOf_modify]
    split <;> rfl
  rw [appendChild, hkeep, parentOf_modify]
  split
  · rename_i hq
    rw [hq, Function.update_self]
    cases hnode : h.nodes child with
    | none => rw [hnode] at hc; exact absurd hc Bool.false_ne_true
    | some node => rfl
  · rename_i hq
    rw [Function.update_of_ne hq]

theorem type_appendChild (h : Heap) (parent child q : NodeId) :
    ((h.appendChild parent child).nodes q).map (·.type) = (h.nodes q).map (·.type) := by
  rw [appendChild, type_modify, type_modify]
  · exact fun _ => rfl
  · exact fun _ => rfl

end Heap

/-- Parents that were created before their children form no infinite chain. -/
theorem Heap.wf_of_lt {h : Heap} (hlt : ∀ a b, h.parentOf b = some a → a < b) :
    WellFounded (Ancestry.IsParent h.parentOf) :=
  Subrelation.wf (fun {a b} hab => hlt a b hab) Nat.lt_wfRel.wf

/-- A heap with finitely many nodes in which every chain of parent links ends. -/
structure DomTree where
  heap : Heap
  fresh : ∀ id, heap.next ≤ id → heap.nodes id = none
  wf : WellFounded (Ancestry.IsParent heap.parentOf)

/-- `VisualInteractionState`: the nodes under the pointer, the pressed one and the focused one,
and what has to be redone. -/
structure VisualInteractionState where
  hovered : Option NodeId := none
  active : Option NodeId := none
  focused : Option NodeId := none
  generation : ℕ := 0
  layoutDirty : Bool := false
  paintDirty : Bool := false
  deriving DecidableEq, Repr

end Aetheris.Dom
