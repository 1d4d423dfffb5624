import Aetheris.Dom.Node

/-!
# Parsed documents

A `Document` owns its root, and through the children lists every node below it.  The structure
carries what the parser establishes: each node other than the root is in exactly one children list,
the parent links agree with the lists, and a node was created before its children.

The last of these gives every walk its end: `Heap.Reach` goes from smaller to larger numbers.  The
parser grows a document node by node, so there are two ways to build one, `Document.empty` and
`Document.append`, and these prove the facts once.
-/

namespace Aetheris.Dom

/-- A `Document` that has just been parsed; addresses count the nodes in creation order. -/
structure Document where
  heap : Heap
  root : NodeId
  fresh : ∀ id, heap.next ≤ id → heap.nodes id = none
  rootNode : ∃ node, heap.nodes root = some node ∧ node.type = .document
  rootLink : heap.parentOf root = none
  lt_of_mem : ∀ p x, x ∈ heap.childrenOf p → p < x ∧ x < heap.next
  link_iff : ∀ p x, heap.parentOf x = some p ↔ x ∈ heap.childrenOf p
  nodup : ∀ p, (heap.childrenOf p).Nodup
  attached : ∀ x, (heap.nodes x).isSome → x = root ∨ ∃ p, x ∈ heap.childrenOf p

namespace Heap

/-- `b` is `n` levels below `a`. -/
inductive Reach (h : Heap) : ℕ → NodeId → NodeId → Prop
  | refl (a : NodeId) : Reach h 0 a a
  | child {n : ℕ} {a b c : NodeId} (hb : b ∈ h.childrenOf a) (hc : Reach h n b c) :
      Reach h (n + 1) a c

theorem Reach.tail {h : Heap} {n : ℕ} {a b c : NodeId} (hab : h.Reach n a b)
    (hc : c ∈ h.childrenOf b) : h.Reach (n + 1) a c := by
  induction hab with
  | refl a => exact .child hc (.refl c)
  | child hb _ ih => exact .child hb (ih hc)

theorem isSome_of_mem_childrenOf {h : Heap} {p x : NodeId} (hx : x ∈ h.childrenOf p) :
    (h.nodes p).isSome := by
  rw [childrenOf] at hx
  cases hp : h.nodes p with
  | none => rw [hp] at hx; exact absurd hx List.not_mem_nil
  | some node => rfl

end Heap

/-- `node_text`, down to the given depth. -/
def nodeText (h : Heap) : ℕ → NodeId → Bytes
  | 0, _ => []
  | depth + 1, id =>
    (match h.nodes id with
      | some node => if node.type = .text then node.data else []
      | none => []) ++ (h.childrenOf id).flatMap (nodeText h depth)

namespace Document

variable (doc : Document)

/-- Every node of a document is below its root, fewer levels than its address. -/
theorem exists_reach {x : NodeId} (hx : (doc.heap.nodes x).isSome) :
    ∃ n ≤ x, doc.heap.Reach n doc.root x := by
  induction x using Nat.strong_induction_on with
  | _ x ih =>
    rcases doc.attached x hx with rfl | ⟨p, hp⟩
    · exact ⟨0, Nat.zero_le _, .refl _⟩
    · have hlt := (doc.lt_of_mem p x hp).1
      obtain ⟨n, hn, hr⟩ := ih p hlt (Heap.isSome_of_mem_childrenOf hp)
      exact ⟨n + 1, Nat.succ_le_of_lt (hn.trans_lt hlt), hr.tail hp⟩

theorem acyclic : Ancestry.Acyclic doc.heap.parentOf :=
  Ancestry.acyclic_of_lt fun _ _ h => (doc.lt_of_mem _ _ ((doc.link_iff _ _).mp h)).1

/-! ## Growing a document -/

theorem lt_next {x : NodeId} (hx : (doc.heap.nodes x).isSome) : x < doc.heap.next := by
  by_contra hle
  rw [doc.fresh x (not_lt.mp hle)] at hx
  exact Bool.false_ne_true hx

theorem isSome_root : (doc.heap.nodes doc.root).isSome := by
  obtain ⟨node, hnode, -⟩ := doc.rootNode
  rw [hnode]
  rfl

/-- A document node and nothing else. -/
def empty : Document where
  heap := Heap.empty.alloc { type := .document }
  root := 0
  fresh id hid := by
    rw [Heap.nodes_alloc, if_neg (Nat.ne_of_gt hid)]
    rfl
  rootNode := ⟨{ type := .document }, rfl, rfl⟩
  rootLink := rfl
  lt_of_mem p x hx := by
    rw [Heap.childrenOf, Heap.nodes_alloc] at hx
    split at hx <;> exact absurd hx List.not_mem_nil
  link_iff p x := by
    rw [Heap.parentOf, Heap.childrenOf, Heap.nodes_alloc, Heap.nodes_alloc]
    refine iff_of_false (fun h => ?_) fun h => ?_
    · split at h <;> exact nomatch h
    · split at h <;> exact absurd h List.not_mem_nil
  nodup p := by
    rw [Heap.childrenOf, Heap.nodes_alloc]
    split <;> exact List.nodup_nil
  attached x hx := by
    rw [Heap.nodes_alloc] at hx
    split at hx
    · rename_i hroot
      exact Or.inl hroot
    · exact absurd hx Bool.false_ne_true

section Append

variable {doc} {parent : NodeId} (hp : (doc.heap.nodes parent).isSome) (type : DomNodeType)
  (name data : Bytes) (attributes : List (Bytes × Bytes))

/-- The heap with a new node as last child of `parent`. -/
def appendHeap (h : Heap) (parent : NodeId) (type : DomNodeType) (name data : Bytes)
    (attributes : List (Bytes × Bytes)) : Heap :=
  (h.alloc { type := type, name := name, data := data, attributes := attributes }).appendChild
    parent h.next

include hp

theorem nodes_appendHeap (x : NodeId) :
    (appendHeap doc.heap parent type name data attributes).nodes x =
      if x = doc.heap.next then
        some { type := type, name := name, data := data, attributes := attributes,
               parent := some parent }
      else if x = parent then
        (doc.heap.nodes x).map fun node => { node with children := node.children ++ [doc.heap.next] }
      else doc.heap.nodes x := by
  have hne : doc.heap.next ≠ parent := (Nat.ne_of_lt (doc.lt_next hp)).symm
  rw [appendHeap, Heap.appendChild, Heap.nodes_modify, Heap.nodes_modify, Heap.nodes_alloc]
  by_cases hx : x = doc.heap.next
  · rw [if_neg (hx ▸ hne), if_pos hx, if_pos hx, if_pos hx]
    rfl
  · rw [if_neg hx, if_neg hx, if_neg hx]

theorem childrenOf_appendHeap (q : NodeId) :
    (appendHeap doc.heap parent type name data attributes).childrenOf q =
      doc.heap.childrenOf q ++ if q = parent then [doc.heap.next] else [] := by
  rw [Heap.childrenOf, nodes_appendHeap hp]
  split
  · rename_i hq
    have hne : q ≠ parent := hq ▸ (Nat.ne_of_lt (doc.lt_next hp)).symm
    rw [if_neg hne, Heap.childrenOf, doc.fresh q (le_of_eq hq.symm)]
    rfl
  · split
    · rename_i hq
      rw [Heap.childrenOf]
      rw [hq]
      cases hnode : doc.heap.nodes parent with
      | none => rw [hnode] at hp; exact absurd hp Bool.false_ne_true
      | some node => rfl
    · rw [List.append_nil, Heap.childrenOf]

theorem parentOf_appendHeap (x : NodeId) :
    (appendHeap doc.heap parent type name data attributes).parentOf x =
      if x = doc.heap.next then some parent else doc.heap.parentOf x := by
  rw [Heap.parentOf, nodes_appendHeap hp]
  split
  · rfl
  · split
    · rw [Heap.parentOf]
      cases doc.heap.nodes x <;> rfl
    · rfl

/-- **`make_unique<DomNode>(…)`, then `parent.append_child(…)`** on a node of the document. -/
def append : Document where
  heap := appendHeap doc.heap parent type name data attributes
  root := doc.root
  fresh x hx := by
    have hlt : doc.heap.next < x := hx
    rw [nodes_appendHeap hp, if_neg (Nat.ne_of_gt hlt),
      if_neg (Nat.ne_of_gt ((doc.lt_next hp).trans hlt))]
    exact doc.fresh x hlt.le
  rootNode := by
    obtain ⟨node, hnode, htype⟩ := doc.rootNode
    rw [nodes_appendHeap hp, if_neg (Nat.ne_of_lt (doc.lt_next doc.isSome_root))]
    split
    · refine ⟨{ node with children := node.children ++ [doc.heap.next] }, ?_, htype⟩
      rw [hnode]
      rfl
    · exact ⟨node, hnode, htype⟩
  rootLink := by
    rw [parentOf_appendHeap hp, if_neg (Nat.ne_of_lt (doc.lt_next doc.isSome_root))]
    exact doc.rootLink
  lt_of_mem p x hx := by
    rw [childrenOf_appendHeap hp, List.mem_append] at hx
    rcases hx with hx | hx
    · exact ⟨(doc.lt_of_mem p x hx).1, (doc.lt_of_mem p x hx).2.trans (Nat.lt_succ_self _)⟩
    · split at hx
      · rename_i hq
        rw [List.mem_singleton.mp hx, hq]
        exact ⟨doc.lt_next hp, Nat.lt_succ_self _⟩
      · exact absurd hx List.not_mem_nil
  link_iff p x := by
    rw [parentOf_appendHeap hp, childrenOf_appendHeap hp, List.mem_append, ← doc.link_iff]
    by_cases hx : x = doc.heap.next
    · have hnone : doc.heap.parentOf x = none := by
        rw [Heap.parentOf, doc.fresh x (le_of_eq hx.symm)]
        rfl
      rw [if_pos hx, hnone]
      by_cases hq : p = parent
      · simp [hx, hq]
      · simp [hq, Ne.symm hq]
    · rw [if_neg hx]
      refine ⟨Or.inl, fun h => h.resolve_right fun hmem => hx ?_⟩
      split at hmem
      · exact List.mem_singleton.mp hmem
      · exact absurd hmem List.not_mem_nil
  nodup p := by
    rw [childrenOf_appendHeap hp]
    split
    · refine List.Nodup.append (doc.nodup p) (List.nodup_singleton _) fun x hx hx' => ?_
      rw [List.mem_singleton.mp hx'] at hx
      exact absurd (doc.lt_of_mem p _ hx).2 (lt_irrefl _)
    · rw [List.append_nil]
      exact doc.nodup p
  attached x hx := by
    by_cases hnew : x = doc.heap.next
    · refine Or.inr ⟨parent, ?_⟩
      rw [childrenOf_appendHeap hp, if_pos rfl, hnew]
      exact List.mem_append_right _ (List.mem_singleton_self _)
    · have hold : (doc.heap.nodes x).isSome := by
        rw [nodes_appendHeap hp, if_neg hnew] at hx
        split at hx
        · rwa [Option.isSome_map] at hx
        · exact hx
      refine (doc.attached x hold).imp_right fun ⟨p, hmem⟩ => ⟨p, ?_⟩
      rw [childrenOf_appendHeap hp]
      exact List.mem_append_left _ hmem

theorem isSome_append {x : NodeId} (hx : (doc.heap.nodes x).isSome) :
    ((append hp type name data attributes).heap.nodes x).isSome := by
  show ((appendHeap doc.heap parent type name data attributes).nodes x).isSome
  rw [nodes_appendHeap hp, if_neg (Nat.ne_of_lt (doc.lt_next hx))]
  split
  · rwa [Option.isSome_map]
  · exact hx

theorem isSome_append_next :
    ((append hp type name data attributes).heap.nodes doc.heap.next).isSome := by
  show ((appendHeap doc.heap parent type name data attributes).nodes doc.heap.next).isSome
  rw [nodes_appendHeap hp, if_pos rfl]
  rfl

end Append

end Document

end Aetheris.Dom
