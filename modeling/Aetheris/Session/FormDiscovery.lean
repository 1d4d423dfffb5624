import Aetheris.Dom.Tree
import Aetheris.Library.Marks
import Aetheris.Session.FormOperations

/-!
# What discovery finds

`discover` lists the controls of a document in document order.  Of the forms only the outermost ones
are left in the list at the end: each one cuts the list back behind itself when it is left.  The
walk comes to all nodes of a document, so what it leaves is said of the list of them.
-/

namespace Aetheris.Session

open Dom Ancestry

/-! ## The nodes of the walk -/

/-- The node is a form. -/
def isForm (h : Heap) (id : NodeId) : Bool :=
  match h.nodes id with
  | some node => node.type = .element ∧ lower node.name = lit "form"
  | none => false

/-- The control that is made of a node. -/
def controlAt (h : Heap) (id : NodeId) : Option FormControlState :=
  (h.nodes id).bind fun node => (kindFor node).map (controlState h id node)

/-- The nodes that a walk down to the given depth comes to. -/
def walked (h : Heap) : ℕ → NodeId → List NodeId
  | 0, _ => []
  | depth + 1, id => id :: (h.childrenOf id).flatMap (walked h depth)

/-- The forms of a walk that are inside no other form of it. -/
def outerForms (h : Heap) : ℕ → NodeId → List NodeId
  | 0, _ => []
  | depth + 1, id =>
    if isForm h id then [id] else (h.childrenOf id).flatMap (outerForms h depth)

variable {h : Heap}

theorem walked_succ (depth : ℕ) (id : NodeId) : walked h (depth + 1) id = id :: h.below depth id := by
  induction depth generalizing id with
  | zero =>
    rw [walked, Heap.below]
    exact congrArg (id :: ·) (List.flatMap_eq_nil_iff.mpr fun _ _ => rfl)
  | succ depth ih =>
    rw [walked, Heap.below]
    exact congrArg (id :: ·) (List.flatMap_congr fun c _ => ih c)

theorem forest_document (doc : Document) : doc.heap.Forest := doc.toTree.forest

/-- **The walk comes to all nodes of a document, in document order.** -/
theorem walked_document (doc : Document) :
    walked doc.heap doc.heap.next doc.root = doc.toTree.tree.preorder := by
  have hroot := doc.toTree.isSome_root
  obtain ⟨depth, hdepth⟩ : ∃ depth, doc.heap.next = depth + 1 :=
    Nat.exists_eq_succ_of_ne_zero (Nat.ne_zero_of_lt (doc.lt_next hroot))
  rw [DocumentTree.tree, Heap.preorder_tree]
  show walked doc.heap doc.heap.next doc.root = doc.root :: doc.heap.below doc.heap.next doc.root
  rw [hdepth, walked_succ, Heap.below_succ_of_reach fun n b hb => ?_]
  have hlt := doc.toTree.forest.lt_next_of_reach hb hroot
  rw [show doc.toTree.heap.next = depth + 1 from hdepth] at hlt
  exact Nat.le_of_lt_succ hlt

theorem outerForms_eq_nil_iff (depth : ℕ) (id : NodeId) :
    outerForms h depth id = [] ↔ (walked h depth id).filter (isForm h) = [] := by
  induction depth generalizing id with
  | zero => exact Iff.rfl
  | succ depth ih =>
    rw [outerForms, walked, List.filter_cons]
    split
    · exact iff_of_false (List.cons_ne_nil _ _) (List.cons_ne_nil _ _)
    · rw [List.filter_flatMap, List.flatMap_eq_nil_iff, List.flatMap_eq_nil_iff]
      exact forall₂_congr fun c _ => ih c

theorem outerForms_sublist (depth : ℕ) (id : NodeId) :
    (outerForms h depth id).Sublist (walked h depth id) := by
  induction depth generalizing id with
  | zero => exact List.Sublist.refl _
  | succ depth ih =>
    rw [outerForms, walked]
    split
    · exact List.singleton_sublist.mpr List.mem_cons_self
    · refine List.Sublist.cons _ ?_
      induction h.childrenOf id with
      | nil => exact List.Sublist.refl _
      | cons c cs ihcs =>
        rw [List.flatMap_cons, List.flatMap_cons]
        exact (ih c).append ihcs

/-- An outermost form has no form around it. -/
theorem nearest_of_mem_outerForms (hf : h.Forest) {depth : ℕ} {id f : NodeId}
    (hid : nearest hf.wf (isForm h) id = none) (hmem : f ∈ outerForms h depth id) :
    nearest hf.wf (isForm h) f = none := by
  induction depth generalizing id with
  | zero => exact absurd hmem List.not_mem_nil
  | succ depth ih =>
    rw [outerForms] at hmem
    split at hmem
    · rwa [List.mem_singleton.mp hmem]
    · rename_i hform
      obtain ⟨c, hc, hmem⟩ := List.mem_flatMap.mp hmem
      refine ih ?_ hmem
      rw [nearest_of_some hf.wf _ (hf.isParent_of_mem hc), if_neg hform, hid]

/-! ## One node -/

/-- A form is not a control. -/
theorem controlAt_of_isForm {id : NodeId} (hform : isForm h id = true) : controlAt h id = none := by
  rw [isForm] at hform
  rw [controlAt]
  cases hnode : h.nodes id with
  | none => rfl
  | some node =>
    rw [hnode] at hform
    obtain ⟨htype, hname⟩ := of_decide_eq_true hform
    have hkind : kindFor node = none := by
      rw [kindFor, if_neg (not_not.mpr htype), hname]
      rfl
    rw [Option.bind_some, hkind]
    rfl

theorem node_readOption (state : FormControlState) (child : NodeId) :
    (readOption h state child).node = state.node := by
  rw [readOption]
  split
  · rfl
  · split <;> rfl

theorem node_foldl_readOption (children : List NodeId) (state : FormControlState) :
    (children.foldl (readOption h) state).node = state.node := by
  induction children generalizing state with
  | nil => rfl
  | cons child children ih => rw [List.foldl_cons, ih, node_readOption]

theorem node_controlState (id : NodeId) (node : DomNode) (kind : FormControlKind) :
    (controlState h id node kind).node = id := by
  rw [controlState]
  dsimp only
  by_cases hkind : kind = .select
  · rw [if_pos hkind, apply_ite FormControlState.node]
    simp only [node_foldl_readOption, ite_self]
  · rw [if_neg hkind]

theorem node_of_controlAt {id : NodeId} {control : FormControlState}
    (hcontrol : controlAt h id = some control) : control.node = id := by
  obtain ⟨node, -, hcontrol⟩ := Option.bind_eq_some_iff.mp hcontrol
  obtain ⟨kind, -, rfl⟩ := Option.map_eq_some_iff.mp hcontrol
  exact node_controlState id node kind

/-- What `discover` does at a node before it goes on to the children. -/
def enter (h : Heap) (runtime : FormRuntime) (id : NodeId) : FormRuntime :=
  let runtime :=
    if isForm h id then { runtime with forms := runtime.forms ++ [id] } else runtime
  match controlAt h id with
  | none => runtime
  | some control =>
    { runtime with
      controls := runtime.controls ++ [control]
      controlForms := runtime.controlForms ++ [Marks.lastPlace runtime.forms] }

/-- What `discover` does at a node after the children. -/
def leave (h : Heap) (formCountBefore : ℕ) (id : NodeId) (runtime : FormRuntime) : FormRuntime :=
  if isForm h id then { runtime with forms := runtime.forms.take (formCountBefore + 1) }
  else runtime

theorem discover_succ (depth : ℕ) (runtime : FormRuntime) (id : NodeId) :
    discover h (depth + 1) runtime id =
      leave h runtime.forms.length id
        ((h.childrenOf id).foldl (discover h depth) (enter h runtime id)) := by
  rw [discover, leave, enter, isForm, controlAt, Heap.childrenOf]
  cases hnode : h.nodes id with
  | none => rfl
  | some node =>
    dsimp only
    rw [Option.bind_some, Option.map_some, Option.getD_some]
    by_cases hform : node.type = .element ∧ lower node.name = lit "form"
    · have hguard (before : ℕ) (r : FormRuntime) :
          (if (node.type = .element ∧ lower node.name = lit "form") ∧ before < r.forms.length then
            { r with forms := r.forms.take (before + 1) } else r) =
              { r with forms := r.forms.take (before + 1) } := by
        split
        · rfl
        · rename_i hlt
          rw [List.take_of_length_le]
          have hle : ¬ before < r.forms.length := fun h => hlt ⟨hform, h⟩
          omega
      rw [hguard, if_pos hform, if_pos (decide_eq_true hform), if_pos (decide_eq_true hform)]
      cases kindFor node <;> rfl
    · rw [if_neg fun h => hform h.1, if_neg hform, if_neg fun h => hform (of_decide_eq_true h),
        if_neg fun h => hform (of_decide_eq_true h)]
      cases kindFor node <;> rfl

/-! ## The lists after a walk -/

theorem enter_of_isForm {id : NodeId} (hform : isForm h id = true) (runtime : FormRuntime) :
    enter h runtime id = { runtime with forms := runtime.forms ++ [id] } := by
  rw [enter, if_pos hform, controlAt_of_isForm hform]

theorem enter_of_none {id : NodeId} (hform : ¬ isForm h id = true)
    (hcontrol : controlAt h id = none) (runtime : FormRuntime) : enter h runtime id = runtime := by
  rw [enter, if_neg hform, hcontrol]

theorem enter_of_some {id : NodeId} {control : FormControlState}
    (hcontrol : controlAt h id = some control) (runtime : FormRuntime) :
    enter h runtime id =
      { runtime with
        controls := runtime.controls ++ [control]
        controlForms := runtime.controlForms ++ [Marks.lastPlace runtime.forms] } := by
  have hform : ¬ isForm h id = true := fun hform =>
    nomatch (controlAt_of_isForm hform).symm.trans hcontrol
  rw [enter, if_neg hform, hcontrol]

theorem forms_enter (runtime : FormRuntime) (id : NodeId) :
    (enter h runtime id).forms = runtime.forms ++ if isForm h id then [id] else [] := by
  by_cases hform : isForm h id = true
  · rw [enter_of_isForm hform, if_pos hform]
  · rw [if_neg hform, List.append_nil]
    cases hcontrol : controlAt h id with
    | none => rw [enter_of_none hform hcontrol]
    | some control => rw [enter_of_some hcontrol]

/-- **The forms after a walk.** -/
theorem forms_discover (depth : ℕ) (runtime : FormRuntime) (id : NodeId) :
    (discover h depth runtime id).forms = runtime.forms ++ outerForms h depth id := by
  induction depth generalizing runtime id with
  | zero => exact (List.append_nil _).symm
  | succ depth ih =>
    have hchildren (cs : List NodeId) (r : FormRuntime) :
        (cs.foldl (discover h depth) r).forms = r.forms ++ cs.flatMap (outerForms h depth) := by
      induction cs generalizing r with
      | nil => exact (List.append_nil _).symm
      | cons c cs ihcs =>
        rw [List.foldl_cons, ihcs, ih, List.flatMap_cons, List.append_assoc]
    rw [discover_succ, leave, outerForms]
    split
    · rename_i hform
      dsimp only
      rw [hchildren, forms_enter, if_pos hform]
      exact List.take_left' (List.length_append)
    · rename_i hform
      rw [hchildren, forms_enter, if_neg hform, List.append_nil]

theorem controls_enter (runtime : FormRuntime) (id : NodeId) :
    (enter h runtime id).controls = runtime.controls ++ (controlAt h id).toList := by
  cases hcontrol : controlAt h id with
  | some control => rw [enter_of_some hcontrol, Option.toList_some]
  | none =>
    rw [Option.toList_none, List.append_nil]
    by_cases hform : isForm h id = true
    · rw [enter_of_isForm hform]
    · rw [enter_of_none hform hcontrol]

/-- **The controls after a walk.** -/
theorem controls_discover (depth : ℕ) (runtime : FormRuntime) (id : NodeId) :
    (discover h depth runtime id).controls =
      runtime.controls ++ (walked h depth id).filterMap (controlAt h) := by
  induction depth generalizing runtime id with
  | zero => exact (List.append_nil _).symm
  | succ depth ih =>
    have hchildren (cs : List NodeId) (r : FormRuntime) :
        (cs.foldl (discover h depth) r).controls =
          r.controls ++ (cs.flatMap (walked h depth)).filterMap (controlAt h) := by
      induction cs generalizing r with
      | nil => exact (List.append_nil _).symm
      | cons c cs ihcs =>
        rw [List.foldl_cons, ihcs, ih, List.flatMap_cons, List.filterMap_append, List.append_assoc]
    have hleave (before : ℕ) (r : FormRuntime) : (leave h before id r).controls = r.controls := by
      rw [leave]
      split <;> rfl
    rw [discover_succ, hleave, hchildren, controls_enter, walked, List.filterMap_cons,
      List.append_assoc]
    cases controlAt h id <;> rfl

/-- Discovery gives no control the focus. -/
theorem focused_discover (depth : ℕ) (runtime : FormRuntime) (id : NodeId) :
    (discover h depth runtime id).focused = runtime.focused := by
  induction depth generalizing runtime id with
  | zero => rfl
  | succ depth ih =>
    have hchildren (cs : List NodeId) (r : FormRuntime) :
        (cs.foldl (discover h depth) r).focused = r.focused := by
      induction cs generalizing r with
      | nil => rfl
      | cons c cs ihcs => rw [List.foldl_cons, ihcs, ih]
    have hleave (before : ℕ) (r : FormRuntime) : (leave h before id r).focused = r.focused := by
      rw [leave]
      split <;> rfl
    rw [discover_succ, hleave, hchildren]
    cases hcontrol : controlAt h id with
    | some control => rw [enter_of_some hcontrol]
    | none =>
      by_cases hform : isForm h id = true
      · rw [enter_of_isForm hform]
      · rw [enter_of_none hform hcontrol]

/-- **All controls of a document are found, in document order.** -/
theorem controls_ofDocument (doc : Document) : (FormRuntime.ofDocument doc).controls =
    doc.toTree.tree.preorder.filterMap (controlAt doc.heap) := by
  rw [FormRuntime.ofDocument, controls_discover, walked_document, List.nil_append]

end Aetheris.Session
