import Aetheris.Paint.RenderTree

/-!
# The nodes in the order of the painter

The recursion of `RenderTree::emit` without the commands: which node it comes to after which, each
with the way down to it and the nodes above it.  The drawing commands are those of the nodes, in
this order, so what is drawn after what is a question about the visits.
-/

namespace Aetheris.Paint

open Dom Style Layout Length

variable {F : Type} [Length F]

/-- A child on the way down: its `z_index`, and its place among the children of its parent. -/
abbrev Step := ℤ × ℕ

/-- The step to a child. -/
def step (child : LayoutNode F × ℕ) : Step := (zIndex child.1.value, child.2)

/-- A node in a layout tree: the way down to it, and the nodes above it from its parent on. -/
structure Place (F : Type) where
  path : List Step
  above : List (LayoutFields F)
  node : LayoutFields F

/-- A node when the painter comes to it. -/
structure Visit (F : Type) extends Place F where
  opacity : F

mutual

/-- The nodes of a tree that are painted. -/
def visits (path : List Step) (above : List (LayoutFields F)) (inherited : F) :
    LayoutNode F → List (Visit F)
  | .node node children =>
    if node.display = .none then []
    else
      ⟨⟨path, above, node⟩, opacity node inherited⟩ ::
        (orderedChildren Prod.fst
          (visitsBelow path (node :: above) (opacity node inherited) 0 children)).flatMap Prod.snd

/-- Those of each child from the given place on, next to its `z_index`. -/
def visitsBelow (path : List Step) (above : List (LayoutFields F)) (inherited : F) :
    ℕ → List (LayoutNode F) → List (ℤ × List (Visit F))
  | _, [] => []
  | i, child :: children =>
    (zIndex child.value, visits (path ++ [step (child, i)]) above inherited child) ::
      visitsBelow path above inherited (i + 1) children

end

theorem visitsBelow_eq (path : List Step) (above : List (LayoutFields F)) (inherited : F)
    (children : List (LayoutNode F)) (i : ℕ) :
    visitsBelow path above inherited i children = (children.zipIdx i).map fun child =>
      (zIndex child.1.value, visits (path ++ [step child]) above inherited child.1) := by
  induction children generalizing i with
  | nil => rw [visitsBelow, List.zipIdx_nil, List.map_nil]
  | cons child children ih => rw [visitsBelow, ih, List.zipIdx_cons, List.map_cons]

theorem visits_of_eq (path : List Step) (above : List (LayoutFields F)) (inherited : F)
    {node : LayoutFields F} (hdisplay : node.display = .none) (children : List (LayoutNode F)) :
    visits path above inherited (.node node children) = [] := by
  rw [visits, if_pos hdisplay]

/-- A node that is painted comes before its children. -/
theorem visits_node (path : List Step) (above : List (LayoutFields F)) (inherited : F)
    {node : LayoutFields F} (hdisplay : node.display ≠ .none) (children : List (LayoutNode F)) :
    visits path above inherited (.node node children) =
      ⟨⟨path, above, node⟩, opacity node inherited⟩ :: (paintOrder children).flatMap fun child =>
        visits (path ++ [step child]) (node :: above) (opacity node inherited) child.1 := by
  rw [visits, if_neg hdisplay, orderedChildren_eq, visitsBelow_eq, sortOn_map, List.flatMap_map]
  rfl

omit [Length F] in
theorem mem_paintOrder {children : List (LayoutNode F)} {child : LayoutNode F × ℕ} :
    child ∈ paintOrder children ↔ child ∈ children.zipIdx := mem_sortOn

omit [Length F] in
theorem fst_mem_of_mem_paintOrder {children : List (LayoutNode F)} {child : LayoutNode F × ℕ}
    (h : child ∈ paintOrder children) : child.1 ∈ children :=
  List.fst_mem_of_mem_zipIdx (mem_paintOrder.mp h)

/-! ## The drawing commands -/

namespace PaintCommand

/-- The command is not about the clips. -/
def draws (command : PaintCommand F) : Bool := !command.pushClip && !command.popClip

end PaintCommand

theorem draws_of_mem_textCommands {node : LayoutFields F} {opacity : F} {command : PaintCommand F}
    (h : command ∈ textCommands node opacity) : command.draws = true := by
  obtain ⟨fragment, -, h⟩ := List.mem_flatMap.mp h
  dsimp only at h
  split at h
  · rw [List.mem_singleton.mp h]
    rfl
  · split at h
    · rw [List.mem_singleton.mp h]
      rfl
    · rcases List.mem_pair.mp h with rfl | rfl
      · rfl
      · rfl

theorem draws_of_mem_imageCommands {node : LayoutFields F} {opacity : F} {command : PaintCommand F}
    (h : command ∈ imageCommands node opacity) : command.draws = true := by
  rcases List.mem_append.mp h with h | h
  · split at h
    · exact absurd h List.not_mem_nil
    · rw [List.mem_singleton.mp h]
      rfl
  · split at h
    · exact absurd h List.not_mem_nil
    · split at h
      · rw [List.mem_singleton.mp h]
        rfl
      · exact absurd h List.not_mem_nil

/-- No command for a node alone is about the clips. -/
theorem draws_of_mem_selfCommands {node : LayoutFields F} {opacity : F} {command : PaintCommand F}
    (h : command ∈ selfCommands node opacity) : command.draws = true := by
  rw [selfCommands] at h
  split at h
  · exact draws_of_mem_textCommands h
  · rw [List.mem_append, List.mem_append, List.mem_append, List.mem_append] at h
    rcases h with (((h | h) | h) | h) | h
    · rw [shadowCommands] at h
      split at h
      · exact absurd h List.not_mem_nil
      · rw [List.mem_singleton.mp h]
        rfl
    · exact draws_of_mem_imageCommands h
    · rw [outlineCommands] at h
      split at h
      · exact absurd h List.not_mem_nil
      · rw [List.mem_singleton.mp h]
        rfl
    · rw [backgroundCommands] at h
      split at h
      · exact absurd h List.not_mem_nil
      · rw [List.mem_singleton.mp h]
        rfl
    · rw [borderCommands] at h
      split at h
      · rw [List.mem_singleton.mp h]
        rfl
      · exact absurd h List.not_mem_nil
  · exact absurd h List.not_mem_nil

theorem filter_selfCommands (node : LayoutFields F) (opacity : F) :
    (selfCommands node opacity).filter PaintCommand.draws = selfCommands node opacity :=
  List.filter_eq_self.mpr fun _ h => draws_of_mem_selfCommands h

/-- **What is drawn is drawn node by node, in the order of the visits.** -/
theorem filter_emit (t : LayoutNode F) : ∀ (path : List Step) (above : List (LayoutFields F))
    (inherited : F), (emit inherited t).filter PaintCommand.draws =
      (visits path above inherited t).flatMap fun visit => selfCommands visit.node visit.opacity := by
  induction t using Rose.induction with
  | h node children ih =>
    intro path above inherited
    by_cases hdisplay : node.display = .none
    · rw [emit, if_pos hdisplay, visits_of_eq _ _ _ hdisplay]
      rfl
    · have hbelow : ((paintOrder children).flatMap fun child =>
            emit (opacity node inherited) child.1).filter PaintCommand.draws =
          ((paintOrder children).flatMap fun child =>
            visits (path ++ [step child]) (node :: above) (opacity node inherited) child.1).flatMap
              fun visit => selfCommands visit.node visit.opacity := by
        rw [List.filter_flatMap, List.flatMap_assoc]
        refine List.flatMap_congr fun child hchild => ?_
        exact ih child.1 (fst_mem_of_mem_paintOrder hchild) _ _ _
      rw [emit_node _ hdisplay, visits_node _ _ _ hdisplay, List.filter_append,
        filter_selfCommands, List.flatMap_cons, ← hbelow]
      split
      · have hpush : ¬ (pushCommand node).draws = true := Bool.false_ne_true
        have hpop : ¬ (popCommand : PaintCommand F).draws = true := Bool.false_ne_true
        rw [List.cons_append, List.filter_cons_of_neg hpush, List.filter_append,
          List.filter_cons_of_neg hpop, List.filter_nil, List.append_nil]
      · rfl

end Aetheris.Paint
