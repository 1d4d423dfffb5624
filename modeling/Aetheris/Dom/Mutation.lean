import Aetheris.Dom.Tree

/-!
# Nodes that come and go

A new node gets an address at which no node lives, one of a destroyed node perhaps.  A node that is
taken out of its parent's children list is destroyed with everything below it.  In both cases the
lists and links that do not name the node stay, so the heap remains a forest.
-/

namespace Aetheris.Dom

open Ancestry

namespace Heap

/-! ## A new node -/

/-- `std::make_unique<DomNode>(…)` where the allocator returns the address `a`. -/
def allocAt (h : Heap) (a : NodeId) (node : DomNode) : Heap :=
  ⟨Function.update h.nodes a (some node), max h.next (a + 1)⟩

/-- The new node is the last child of `parent`. -/
def appendAt (h : Heap) (parent a : NodeId) (node : DomNode) : Heap :=
  (h.allocAt a node).appendChild parent a

/-! ## A subtree is taken away -/

/-- The addresses of a node and of those below it. -/
def subtree (h : Heap) (id : NodeId) : List NodeId := id :: h.below h.next id

/-- The `unique_ptr` of a node is destroyed. -/
def destroy (h : Heap) (id : NodeId) : Heap :=
  { h with nodes := fun x => if x ∈ h.subtree id then none else h.nodes x }

/-- `parent->children.erase(it)`, where `it` is at the child. -/
def removeChild (h : Heap) (parent child : NodeId) : Heap :=
  (h.destroy child).modify parent fun node => { node with children := node.children.erase child }

variable {h : Heap}

theorem parentOf_of_none {x : NodeId} (hx : h.nodes x = none) : h.parentOf x = none := by
  rw [parentOf, hx]
  rfl

theorem parentOf_congr {h' : Heap} {x : NodeId} (hx : h'.nodes x = h.nodes x) :
    h'.parentOf x = h.parentOf x := by
  rw [parentOf, parentOf, hx]

theorem childrenOf_congr {h' : Heap} {x : NodeId} (hx : h'.nodes x = h.nodes x) :
    h'.childrenOf x = h.childrenOf x := by
  rw [childrenOf, childrenOf, hx]

/-! ## What a new node changes -/

section Append

variable {parent a : NodeId} {node : DomNode}

theorem nodes_allocAt_self : (h.allocAt a node).nodes a = some node := Function.update_self ..

theorem nodes_allocAt_of_ne {x : NodeId} (hx : x ≠ a) : (h.allocAt a node).nodes x = h.nodes x :=
  Function.update_of_ne hx ..

theorem isSome_appendChild (child x : NodeId) :
    ((h.appendChild parent child).nodes x).isSome = (h.nodes x).isSome := by
  have htype := congrArg Option.isSome (type_appendChild h parent child x)
  rwa [Option.isSome_map, Option.isSome_map] at htype

/-- The nodes are those from before, and the new one. -/
theorem isSome_appendAt {x : NodeId} :
    ((h.appendAt parent a node).nodes x).isSome ↔ x = a ∨ (h.nodes x).isSome := by
  rw [appendAt, isSome_appendChild]
  by_cases hx : x = a
  · rw [hx, nodes_allocAt_self]
    exact iff_of_true rfl (Or.inl rfl)
  · rw [nodes_allocAt_of_ne hx]
    exact (or_iff_right hx).symm

theorem parentOf_appendAt :
    (h.appendAt parent a node).parentOf = Function.update h.parentOf a (some parent) := by
  have hsome : ((h.allocAt a node).nodes a).isSome := by
    rw [nodes_allocAt_self]
    rfl
  rw [appendAt, parentOf_appendChild hsome]
  funext x
  by_cases hx : x = a
  · rw [hx, Function.update_self, Function.update_self]
  · rw [Function.update_of_ne hx, Function.update_of_ne hx,
      parentOf_congr (nodes_allocAt_of_ne hx)]

theorem childrenOf_appendAt (hp : (h.nodes parent).isSome) (ha : h.nodes a = none)
    (hnode : node.children = []) (q : NodeId) :
    (h.appendAt parent a node).childrenOf q =
      h.childrenOf q ++ if q = parent then [a] else [] := by
  have hne : parent ≠ a := by
    rintro rfl
    rw [ha] at hp
    exact Bool.false_ne_true hp
  have hparent : ((h.allocAt a node).nodes parent).isSome := by
    rwa [nodes_allocAt_of_ne hne]
  have hchildren : (h.allocAt a node).childrenOf q = h.childrenOf q := by
    by_cases hq : q = a
    · rw [hq, childrenOf_of_none ha, childrenOf, nodes_allocAt_self]
      exact hnode
    · exact childrenOf_congr (nodes_allocAt_of_ne hq)
  rw [appendAt, childrenOf_appendChild hparent, hchildren]

end Append

namespace Forest

variable (hf : h.Forest)

include hf

theorem isSome_of_isParent {p x : NodeId} (hx : IsParent h.parentOf p x) : (h.nodes p).isSome :=
  isSome_of_mem_childrenOf ((hf.link_iff p x).mp hx)

/-- Nothing is below an address without a node. -/
theorem not_isAncestor_of_none {a x : NodeId} (ha : h.nodes a = none) :
    ¬ IsAncestor h.parentOf a x := by
  intro hax
  obtain ⟨c, hac, -⟩ := Relation.TransGen.head'_iff.mp hax
  have hsome := hf.isSome_of_isParent hac
  rw [ha] at hsome
  exact Bool.false_ne_true hsome

/-- **A new node keeps the forest.** -/
theorem appendAt {parent a : NodeId} {node : DomNode} (hp : (h.nodes parent).isSome)
    (ha : h.nodes a = none) (hnode : node.children = []) :
    (h.appendAt parent a node).Forest where
  fresh x hx := by
    have hnext : max h.next (a + 1) ≤ x := hx
    have hne : x ≠ a := (Nat.lt_of_succ_le ((le_max_right _ _).trans hnext)).ne'
    have hold := hf.fresh x ((le_max_left _ _).trans hnext)
    have hnot : ¬ ((h.appendAt parent a node).nodes x).isSome := by
      rw [isSome_appendAt, hold]
      exact not_or.mpr ⟨hne, Bool.false_ne_true⟩
    exact Option.not_isSome_iff_eq_none.mp hnot
  link_iff p x := by
    rw [parentOf_appendAt, childrenOf_appendAt hp ha hnode, List.mem_append]
    have hnew : x ∈ (if p = parent then [a] else []) ↔ p = parent ∧ x = a := by
      split
      · rename_i heq
        rw [List.mem_singleton]
        exact (and_iff_right heq).symm
      · rename_i hne
        exact iff_of_false List.not_mem_nil fun h => hne h.1
    rw [hnew]
    by_cases hx : x = a
    · have hold : a ∉ h.childrenOf p := by
        rw [← hf.link_iff, parentOf_of_none ha]
        exact nofun
      rw [hx, Function.update_self, Option.some_inj, or_iff_right hold, and_iff_left rfl, eq_comm]
    · rw [Function.update_of_ne hx, hf.link_iff, or_iff_left fun h => hx h.2]
  nodup p := by
    rw [childrenOf_appendAt hp ha hnode]
    have hold : a ∉ h.childrenOf p := by
      rw [← hf.link_iff, parentOf_of_none ha]
      exact nofun
    split
    · exact (hf.nodup p).append (List.nodup_singleton a)
        (List.disjoint_singleton.mpr hold)
    · rw [List.append_nil]
      exact hf.nodup p
  acyclic := by
    rw [parentOf_appendAt, acyclic_update_iff hf.acyclic, not_or]
    refine ⟨?_, hf.not_isAncestor_of_none ha⟩
    rintro rfl
    rw [ha] at hp
    exact Bool.false_ne_true hp

/-! ## What taking a subtree away changes -/

/-- **What is destroyed with a node** is what is below it. -/
theorem mem_subtree_iff {n x : NodeId} (hn : (h.nodes n).isSome) :
    x ∈ h.subtree n ↔ x = n ∨ IsAncestor h.parentOf n x := by
  rw [subtree, List.mem_cons, hf.mem_below_iff le_rfl hn]

theorem mem_subtree_of_isParent {n q x : NodeId} (hn : (h.nodes n).isSome)
    (hq : q ∈ h.subtree n) (hx : IsParent h.parentOf q x) : x ∈ h.subtree n := by
  rw [hf.mem_subtree_iff hn] at hq ⊢
  rcases hq with rfl | hq
  · exact Or.inr (.single hx)
  · exact Or.inr (hq.tail hx)

end Forest

section Remove

variable {p n x : NodeId}

theorem nodes_destroy_of_mem (hx : x ∈ h.subtree n) : (h.destroy n).nodes x = none :=
  if_pos hx

theorem nodes_destroy_of_not_mem (hx : x ∉ h.subtree n) : (h.destroy n).nodes x = h.nodes x :=
  if_neg hx

theorem isSome_modify (f : DomNode → DomNode) :
    ((h.modify n f).nodes x).isSome = (h.nodes x).isSome := by
  rw [nodes_modify]
  split
  · exact Option.isSome_map
  · rfl

/-- The nodes are those from before without the destroyed ones. -/
theorem isSome_removeChild :
    ((h.removeChild p n).nodes x).isSome ↔ x ∉ h.subtree n ∧ (h.nodes x).isSome := by
  rw [removeChild, isSome_modify]
  by_cases hx : x ∈ h.subtree n
  · rw [nodes_destroy_of_mem hx]
    exact iff_of_false Bool.false_ne_true fun hnot => hnot.1 hx
  · rw [nodes_destroy_of_not_mem hx]
    exact (and_iff_right hx).symm

theorem parentOf_removeChild_of_mem (hx : x ∈ h.subtree n) :
    (h.removeChild p n).parentOf x = none := by
  have hnone : ¬ ((h.removeChild p n).nodes x).isSome := by
    rw [isSome_removeChild]
    exact fun hnot => hnot.1 hx
  exact parentOf_of_none (Option.not_isSome_iff_eq_none.mp hnone)

theorem parentOf_removeChild_of_not_mem (hx : x ∉ h.subtree n) :
    (h.removeChild p n).parentOf x = h.parentOf x := by
  have hkeep : (h.removeChild p n).parentOf x = (h.destroy n).parentOf x := by
    rw [removeChild, parentOf_modify]
    split <;> rfl
  rw [hkeep, parentOf_congr (nodes_destroy_of_not_mem hx)]

theorem childrenOf_removeChild_of_mem (hx : x ∈ h.subtree n) :
    (h.removeChild p n).childrenOf x = [] := by
  have hnone : ¬ ((h.removeChild p n).nodes x).isSome := by
    rw [isSome_removeChild]
    exact fun hnot => hnot.1 hx
  exact childrenOf_of_none (Option.not_isSome_iff_eq_none.mp hnone)

theorem childrenOf_removeChild_of_not_mem (hx : x ∉ h.subtree n) :
    (h.removeChild p n).childrenOf x =
      if x = p then (h.childrenOf x).erase n else h.childrenOf x := by
  rw [removeChild, childrenOf_modify, nodes_destroy_of_not_mem hx,
    childrenOf_congr (nodes_destroy_of_not_mem hx), childrenOf]
  cases h.nodes x <;> rfl

end Remove

/-- A write that leaves the links as they are. -/
theorem parentOf_modify_of_eq {f : DomNode → DomNode} (hparent : ∀ node, (f node).parent = node.parent)
    (id : NodeId) : (h.modify id f).parentOf = h.parentOf := by
  funext x
  rw [parentOf_modify]
  split
  · rw [parentOf]
    exact Option.bind_congr fun node _ => hparent node
  · rfl

theorem childrenOf_modify_of_eq {f : DomNode → DomNode}
    (hchildren : ∀ node, (f node).children = node.children) (id : NodeId) :
    (h.modify id f).childrenOf = h.childrenOf := by
  funext x
  rw [childrenOf_modify]
  split
  · rw [childrenOf, Option.map_congr fun node _ => hchildren node]
  · rfl

theorem Forest.modify (hf : h.Forest) {f : DomNode → DomNode}
    (hparent : ∀ node, (f node).parent = node.parent)
    (hchildren : ∀ node, (f node).children = node.children) (id : NodeId) :
    (h.modify id f).Forest where
  fresh x hx := by
    have hold := hf.fresh x hx
    rw [nodes_modify, hold]
    split <;> rfl
  link_iff p x := by
    rw [parentOf_modify_of_eq hparent, childrenOf_modify_of_eq hchildren]
    exact hf.link_iff p x
  nodup p := by
    rw [childrenOf_modify_of_eq hchildren]
    exact hf.nodup p
  acyclic := by
    rw [parentOf_modify_of_eq hparent]
    exact hf.acyclic

/-- **Taking a subtree away keeps the forest.** -/
theorem Forest.removeChild (hf : h.Forest) {p n : NodeId} (hn : IsParent h.parentOf p n) :
    (h.removeChild p n).Forest where
  fresh x hx := by
    have hold : h.nodes x = none := hf.fresh x hx
    have hnot : ¬ ((h.removeChild p n).nodes x).isSome := by
      rw [isSome_removeChild, hold]
      exact fun hsome => Bool.false_ne_true hsome.2
    exact Option.not_isSome_iff_eq_none.mp hnot
  link_iff q x := by
    have hsome : (h.nodes n).isSome := isSome_of_parentOf hn
    by_cases hx : x ∈ h.subtree n
    · rw [parentOf_removeChild_of_mem hx]
      refine iff_of_false nofun fun hmem => ?_
      by_cases hq : q ∈ h.subtree n
      · rw [childrenOf_removeChild_of_mem hq] at hmem
        exact List.not_mem_nil hmem
      · rw [childrenOf_removeChild_of_not_mem hq] at hmem
        have hold : x ∈ h.childrenOf q := by
          split at hmem
          · exact List.mem_of_mem_erase hmem
          · exact hmem
        -- only the node itself has its parent outside of what is destroyed
        have hself : x = n := by
          rcases (hf.mem_subtree_iff hsome).mp hx with rfl | hnx
          · rfl
          · rcases (isAncestor_iff (hf.isParent_of_mem hold)).mp hnx with rfl | hnq
            · exact absurd List.mem_cons_self hq
            · exact absurd ((hf.mem_subtree_iff hsome).mpr (Or.inr hnq)) hq
        rw [hself] at hmem hold
        rw [if_pos ((hf.isParent_of_mem hold).unique hn)] at hmem
        exact (hf.nodup q).not_mem_erase hmem
    · rw [parentOf_removeChild_of_not_mem hx, hf.link_iff]
      have hne : x ≠ n := by
        rintro rfl
        exact hx List.mem_cons_self
      constructor
      · intro hmem
        have hq : q ∉ h.subtree n := fun hq =>
          hx (hf.mem_subtree_of_isParent hsome hq (hf.isParent_of_mem hmem))
        rw [childrenOf_removeChild_of_not_mem hq]
        split
        · exact (List.mem_erase_of_ne hne).mpr hmem
        · exact hmem
      · intro hmem
        by_cases hq : q ∈ h.subtree n
        · rw [childrenOf_removeChild_of_mem hq] at hmem
          exact absurd hmem List.not_mem_nil
        · rw [childrenOf_removeChild_of_not_mem hq] at hmem
          split at hmem
          · exact List.mem_of_mem_erase hmem
          · exact hmem
  nodup q := by
    by_cases hq : q ∈ h.subtree n
    · rw [childrenOf_removeChild_of_mem hq]
      exact List.nodup_nil
    · rw [childrenOf_removeChild_of_not_mem hq]
      split
      · exact (hf.nodup q).erase n
      · exact hf.nodup q
  acyclic a ha := by
    have hlink : ∀ c d, IsParent (h.removeChild p n).parentOf c d → IsParent h.parentOf c d := by
      intro c d hcd
      by_cases hd : d ∈ h.subtree n
      · rw [IsParent, parentOf_removeChild_of_mem hd] at hcd
        cases hcd
      · rwa [IsParent, parentOf_removeChild_of_not_mem hd] at hcd
    exact hf.acyclic a (Relation.TransGen.mono hlink _ _ ha)

end Heap

end Aetheris.Dom
