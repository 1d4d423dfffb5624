import Aetheris.Dom.Forest
import Aetheris.Library.Rose

/-!
# Document trees

A document as the rendering code finds it, once scripts have run: its nodes are a forest, and its
root is a document node.

`DocumentTree.tree` is the tree that the heap stands for, unrolled to the depth at which nothing is
left out.  Its preorder is document order: it has the root and the nodes below it
(`mem_preorder_tree_iff`), each once (`nodup_preorder_tree`), and the parent links of the heap are
those of the tree (`Heap.Linked`).
-/

namespace Aetheris.Dom

open Ancestry

/-- Ancestors of a node are older in the number of their own ancestors. -/
theorem Heap.Forest.wf {h : Heap} (hf : h.Forest) : WellFounded (IsParent h.parentOf) := by
  classical
  let above (x : NodeId) : Finset NodeId :=
    (Finset.range h.next).filter fun a => IsAncestor h.parentOf a x
  refine Subrelation.wf (r := InvImage (· < ·) fun x => (above x).card) (fun {a b} hab => ?_)
    (InvImage.wf _ Nat.lt_wfRel.wf)
  refine Finset.card_lt_card (Finset.ssubset_iff_of_subset (fun c hc => ?_) |>.mpr ⟨a, ?_, ?_⟩)
  · obtain ⟨hlt, hca⟩ := Finset.mem_filter.mp hc
    exact Finset.mem_filter.mpr ⟨hlt, hca.tail hab⟩
  · refine Finset.mem_filter.mpr ⟨Finset.mem_range.mpr ?_, .single hab⟩
    exact hf.lt_next (isSome_of_mem_childrenOf ((hf.link_iff a b).mp hab))
  · exact fun hmem => hf.acyclic a (Finset.mem_filter.mp hmem).2

/-- A `Document`. -/
structure DocumentTree where
  heap : Heap
  root : NodeId
  forest : heap.Forest
  rootNode : ∃ node, heap.nodes root = some node ∧ node.type = .document
  rootLink : heap.parentOf root = none

/-- A document that has just been parsed. -/
def Document.toTree (doc : Document) : DocumentTree :=
  ⟨doc.heap, doc.root, ⟨doc.fresh, doc.link_iff, doc.nodup, doc.acyclic⟩, doc.rootNode, doc.rootLink⟩

namespace Heap

/-- The tree of the nodes below a node, down to the given depth. -/
def tree (h : Heap) : ℕ → NodeId → Rose NodeId
  | 0, id => .node id []
  | depth + 1, id => .node id ((h.childrenOf id).map (tree h depth))

variable {h : Heap}

theorem value_tree (depth : ℕ) (id : NodeId) : (h.tree depth id).value = id := by
  cases depth <;> rfl

theorem preorder_tree (depth : ℕ) (id : NodeId) :
    (h.tree depth id).preorder = id :: h.below depth id := by
  induction depth generalizing id with
  | zero => rw [tree, Rose.preorder_node, below, List.flatMap_nil]
  | succ depth ih =>
    rw [tree, Rose.preorder_node, below, List.flatMap_map]
    exact congrArg (id :: ·) (congrArg (List.flatMap · _) (funext ih))

/-- The links of a tree are the parent links. -/
inductive Linked (h : Heap) : Rose NodeId → Prop
  | node {id : NodeId} {cs : List (Rose NodeId)} (hlink : ∀ c ∈ cs, h.parentOf c.value = some id)
      (hrest : ∀ c ∈ cs, Linked h c) : Linked h (.node id cs)

theorem Forest.linked_tree (hf : h.Forest) (depth : ℕ) (id : NodeId) : h.Linked (h.tree depth id) := by
  induction depth generalizing id with
  | zero => exact .node (fun c hc => absurd hc List.not_mem_nil) fun c hc => absurd hc List.not_mem_nil
  | succ depth ih =>
    refine .node (fun c hc => ?_) fun c hc => ?_
    · obtain ⟨x, hx, rfl⟩ := List.mem_map.mp hc
      rw [value_tree]
      exact (hf.link_iff id x).mpr hx
    · obtain ⟨x, hx, rfl⟩ := List.mem_map.mp hc
      exact ih x

end Heap

namespace DocumentTree

variable (doc : DocumentTree)

/-- The nodes of a document. -/
def tree : Rose NodeId := doc.heap.tree doc.heap.next doc.root

/-- The document with its parent links. -/
def toDomTree : DomTree := ⟨doc.heap, doc.forest.fresh, doc.forest.wf⟩

theorem linked_tree : doc.heap.Linked doc.tree := doc.forest.linked_tree _ _

theorem isSome_root : (doc.heap.nodes doc.root).isSome := by
  obtain ⟨node, hnode, -⟩ := doc.rootNode
  rw [hnode]
  rfl

/-- **The tree has the root and the nodes below it.** -/
theorem mem_preorder_tree_iff (x : NodeId) :
    x ∈ doc.tree.preorder ↔ x = doc.root ∨ IsAncestor doc.heap.parentOf doc.root x := by
  rw [tree, Heap.preorder_tree, List.mem_cons, doc.forest.mem_below_iff le_rfl doc.isSome_root]

/-- **Each node is in the tree once.** -/
theorem nodup_preorder_tree : doc.tree.preorder.Nodup := by
  rw [tree, Heap.preorder_tree]
  exact doc.forest.nodup_below _ _

end DocumentTree

end Aetheris.Dom
