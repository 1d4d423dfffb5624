import Aetheris.Layout.Node

/-!
# Building the layout tree

`LayoutTreeBuilder` of `rendering/layout.cpp`.  A node that is not displayed gets no box; what is
displayed below it is appended to the nearest box above it, and then the node itself is, without
children.  Appending to the null pointer is `none`.  By induction over the tree of a node the boxes
are the displayed nodes in document order, each below the nearest displayed ancestor.
-/

namespace Aetheris.Layout

open Css Dom Style Ancestry

variable {F : Type}

/-! ## The builder -/

/-- Appending to the children of `parent`; the list of the children is kept by the caller. -/
def appendTo (parent : Option NodeId) (nodes : List (LayoutNode F)) : Option (List (LayoutNode F)) :=
  match nodes, parent with
  | [], _ => some []
  | _ :: _, none => none
  | _ :: _, some parent => some (nodes.map fun node => node.withParent parent)

/-- A node as `build_node` makes it, before its children. -/
def newFields [Zero F] (dom : DomTree) (sheet : CssStyleSheet)
    (interaction : Option VisualInteractionState) (parent : Option NodeId)
    (parentStyle : Option StyleProperties) (id : NodeId) (node : DomNode) : LayoutFields F where
  domNode := id
  dom := node
  style := resolve dom sheet parentStyle interaction id node
  display := displayFor node (resolve dom sheet parentStyle interaction id node)
  rect := default
  box := default
  textFragments := []
  image := none
  backgroundImage := none
  parent := parent

section Build

variable [Zero F] (dom : DomTree) (sheet : CssStyleSheet) (interaction : Option VisualInteractionState)

mutual

/-- `build_node`: what it appends to `parent`, and what it returns. -/
def buildNode (parent : Option NodeId) (parentStyle : Option StyleProperties) :
    Rose NodeId → Option (List (LayoutNode F) × LayoutNode F)
  | .node id children =>
    match dom.heap.nodes id with
    | none => none
    | some node =>
      let fields := newFields dom sheet interaction parent parentStyle id node
      if fields.display = .none then
        (hoistChildren parent parentStyle children).map fun hoisted => (hoisted, .node fields [])
      else
        (buildChildren id fields.style children).map fun boxes => ([], .node fields boxes)

/-- The loop over the children of a node that is not displayed. -/
def hoistChildren (parent : Option NodeId) (parentStyle : Option StyleProperties) :
    List (Rose NodeId) → Option (List (LayoutNode F))
  | [] => some []
  | child :: children =>
    match buildNode parent parentStyle child with
    | none => none
    | some (hoisted, box) =>
      match appendTo parent (if box.value.display = .none then box.children else [box]) with
      | none => none
      | some own => (hoistChildren parent parentStyle children).map (hoisted ++ own ++ ·)

/-- The loop over the children of a node that is displayed. -/
def buildChildren (parent : NodeId) (parentStyle : StyleProperties) :
    List (Rose NodeId) → Option (List (LayoutNode F))
  | [] => some []
  | child :: children =>
    match buildNode (some parent) (some parentStyle) child with
    | none => none
    | some (hoisted, box) =>
      (buildChildren parent parentStyle children).map (hoisted ++ box.withParent parent :: ·)

end

end Build

/-- `LayoutTreeBuilder::build`. -/
def build [Zero F] (doc : DocumentTree) (sheet : CssStyleSheet)
    (interaction : Option VisualInteractionState) : Option (LayoutNode F) :=
  (buildNode doc.toDomTree sheet interaction none none doc.tree).map Prod.snd

/-! ## What is displayed -/

theorem displayFor_eq_none_iff (node : DomNode) (style : StyleProperties) :
    displayFor node style = .none ↔ style.get (lit "display") = some (lit "none") := by
  have hfallback : (if node.type = .text then LayoutDisplay.inline else .block) ≠ .none := by
    split
    · exact fun h => nomatch h
    · exact fun h => nomatch h
  rw [displayFor]
  cases hget : style.get (lit "display") with
  | none => exact ⟨fun h => absurd h hfallback, fun h => nomatch h⟩
  | some value =>
    by_cases hnone : value = lit "none"
    · exact ⟨fun _ => congrArg some hnone, fun _ => if_pos hnone⟩
    · refine ⟨fun h => absurd h ?_, fun h => absurd (Option.some.inj h) hnone⟩
      simp only [if_neg hnone]
      repeat' split
      all_goals first | exact hfallback | exact fun h => nomatch h

section Display

variable (dom : DomTree) (sheet : CssStyleSheet) (interaction : Option VisualInteractionState)

/-- The computed display of a node is not `none`. -/
def hasBox (id : NodeId) : Bool :=
  match dom.heap.nodes id with
  | none => false
  | some node =>
    (resolve dom sheet none interaction id node).get (lit "display") != some (lit "none")

variable {dom sheet interaction}

/-- It does not matter from which node the other properties are inherited. -/
theorem hasBox_iff {id : NodeId} {node : DomNode} (hnode : dom.heap.nodes id = some node)
    (parentStyle : Option StyleProperties) :
    hasBox dom sheet interaction id = true ↔
      displayFor node (resolve dom sheet parentStyle interaction id node) ≠ .none := by
  have hsame : (resolve dom sheet none interaction id node).get (lit "display") =
      (resolve dom sheet parentStyle interaction id node).get (lit "display") :=
    (get_display_resolve ..).trans (get_display_resolve ..).symm
  rw [Ne, displayFor_eq_none_iff, ← hsame, hasBox, hnode]
  exact bne_iff_ne

theorem matchesSelector_of_type {id : NodeId} {node : DomNode}
    (hnode : dom.heap.nodes id = some node) (htype : node.type ≠ .element) (selector : Bytes) :
    matchesSelector dom interaction selector id = false := by
  have hsimple (text : Bytes) : matchesSimple dom.heap interaction text id = false := by
    rw [matchesSimple, hnode]
    exact if_pos htype
  rw [matchesSelector]
  split
  · exact hsimple selector
  · split
    · rfl
    · rw [hsimple, Bool.false_and]

/-- No rule and no attribute is about the document node. -/
theorem hasBox_of_type {id : NodeId} {node : DomNode} (hnode : dom.heap.nodes id = some node)
    (htype : node.type = .document) : hasBox dom sheet interaction id = true := by
  have helement : node.type ≠ .element := by
    rw [htype]
    exact fun h => nomatch h
  have hmatching : matchingDeclarations dom sheet interaction id = [] := by
    rw [matchingDeclarations]
    refine List.flatMap_eq_nil_iff.mpr fun rule _ => List.flatMap_eq_nil_iff.mpr fun selector _ => ?_
    rw [matchesSelector_of_type hnode helement]
    rfl
  have hdeclared : declaredStyle dom sheet interaction id node = {} := by
    rw [declaredStyle, hmatching, if_neg helement]
    rfl
  have hdefault : defaultDisplay node = lit "block" := by
    rw [defaultDisplay, isFormControl, htype]
    rfl
  rw [hasBox, hnode]
  show (_ != _) = true
  rw [get_display_resolve, hdeclared, hdefault]
  decide

end Display

/-! ## The tree that is built -/

/-- The boxes of some layout nodes, in the order of the tree. -/
def boxes (nodes : List (LayoutNode F)) : List (LayoutFields F) :=
  (nodes.flatMap Rose.preorder).filter fun fields => fields.display ≠ .none

@[simp] theorem boxes_nil : boxes ([] : List (LayoutNode F)) = [] := rfl

@[simp] theorem boxes_append (as bs : List (LayoutNode F)) :
    boxes (as ++ bs) = boxes as ++ boxes bs := by
  rw [boxes, List.flatMap_append, List.filter_append]
  rfl

theorem boxes_node_of_ne {fields : LayoutFields F} (h : fields.display ≠ .none)
    (children : List (LayoutNode F)) :
    boxes [.node fields children] = fields :: boxes children := by
  rw [boxes, List.flatMap_singleton, Rose.preorder_node,
    List.filter_cons_of_pos (by simpa using h)]
  rfl

theorem boxes_node_of_eq {fields : LayoutFields F} (h : fields.display = .none) :
    boxes [.node fields []] = [] := by
  rw [boxes, List.flatMap_singleton, Rose.preorder_node,
    List.filter_cons_of_neg (by simpa using h)]
  rfl

/-- Every parent pointer below a node is the address of the node whose child list it stands in. -/
inductive Held : Option NodeId → LayoutNode F → Prop
  | node {parent : Option NodeId} {fields : LayoutFields F} {children : List (LayoutNode F)}
      (hparent : fields.parent = parent)
      (hchildren : ∀ child ∈ children, Held (some fields.domNode) child) :
      Held parent (.node fields children)

/-- Appending a node that has been made for this parent changes nothing. -/
theorem Held.withParent_eq {parent : NodeId} {box : LayoutNode F} (h : Held (some parent) box) :
    box.withParent parent = box := by
  obtain ⟨hparent, -⟩ := h
  rw [LayoutNode.withParent, Rose.value_node, ← hparent]
  rfl

section Spec

variable {dom : DomTree} {sheet : CssStyleSheet} {interaction : Option VisualInteractionState}

/-- What is made of some nodes that stand below `parent`. -/
structure Made [Zero F] (dom : DomTree) (sheet : CssStyleSheet)
    (interaction : Option VisualInteractionState) (parent : Option NodeId)
    (trees : List (Rose NodeId)) (made : List (LayoutNode F)) : Prop where
  boxes_eq : (boxes made).map (fun fields => (fields.domNode, fields.parent)) =
    ((trees.flatMap Rose.preorder).filter (hasBox dom sheet interaction)).map fun x =>
      (x, nearest dom.wf (hasBox dom sheet interaction) x)
  held : ∀ box ∈ made, Held parent box
  count_le : ∀ x, ((made.flatMap Rose.preorder).map LayoutFields.domNode).count x ≤
    (trees.flatMap Rose.preorder).count x
  still_eq : ∀ fields ∈ made.flatMap Rose.preorder, fields.still = fields

theorem Made.nil [Zero F] (parent : Option NodeId) :
    Made dom sheet interaction parent [] ([] : List (LayoutNode F)) :=
  ⟨rfl, fun _ h => absurd h List.not_mem_nil, fun _ => le_rfl, fun _ h => absurd h List.not_mem_nil⟩

theorem Made.append [Zero F] {parent : Option NodeId} {ts us : List (Rose NodeId)}
    {as bs : List (LayoutNode F)} (ha : Made dom sheet interaction parent ts as)
    (hb : Made dom sheet interaction parent us bs) :
    Made dom sheet interaction parent (ts ++ us) (as ++ bs) where
  boxes_eq := by
    rw [boxes_append, List.map_append, ha.boxes_eq, hb.boxes_eq, List.flatMap_append,
      List.filter_append, List.map_append]
  held box hbox := (List.mem_append.mp hbox).elim (ha.held box) (hb.held box)
  count_le x := by
    rw [List.flatMap_append, List.flatMap_append, List.map_append, List.count_append,
      List.count_append]
    exact Nat.add_le_add (ha.count_le x) (hb.count_le x)
  still_eq fields hfields := by
    rw [List.flatMap_append, List.mem_append] at hfields
    exact hfields.elim (ha.still_eq fields) (hb.still_eq fields)

/-- A child that is not displayed has no children left: nothing is appended in its place. -/
theorem appendTo_of_made [Zero F] {parent : NodeId} {t : Rose NodeId} {hoisted : List (LayoutNode F)}
    {box : LayoutNode F} (hmade : Made dom sheet interaction (some parent) [t] (hoisted ++ [box]))
    (hnone : box.value.display = .none → box.children = []) :
    ∃ own, appendTo (some parent) (if box.value.display = .none then box.children else [box]) =
        some own ∧ Made dom sheet interaction (some parent) [t] (hoisted ++ own) := by
  by_cases hdisplay : box.value.display = .none
  · rw [if_pos hdisplay, hnone hdisplay]
    refine ⟨[], rfl, ?_, fun c hc => ?_, fun x => ?_, fun fields hfields => ?_⟩
    · obtain ⟨fields, children⟩ := box
      obtain rfl : children = [] := hnone hdisplay
      rw [Rose.value_node] at hdisplay
      rw [← hmade.boxes_eq, boxes_append, boxes_append, boxes_node_of_eq hdisplay, boxes_nil]
    · rw [List.append_nil] at hc
      exact hmade.held c (List.mem_append_left _ hc)
    · refine le_trans ?_ (hmade.count_le x)
      rw [List.append_nil, List.flatMap_append, List.map_append, List.count_append]
      exact Nat.le_add_right _ _
    · rw [List.append_nil] at hfields
      refine hmade.still_eq fields ?_
      rw [List.flatMap_append, List.mem_append]
      exact Or.inl hfields
  · have hbox : Held (some parent) box :=
      hmade.held box (List.mem_append_right _ (List.mem_singleton_self box))
    rw [if_neg hdisplay]
    refine ⟨[box], ?_, hmade⟩
    rw [appendTo, List.map_singleton, hbox.withParent_eq]

variable [Zero F]

/-- What `build_node` owes: the node and what is hoisted out of it. -/
def Builds (F : Type) [Zero F] (dom : DomTree) (sheet : CssStyleSheet)
    (interaction : Option VisualInteractionState) (parent : Option NodeId)
    (parentStyle : Option StyleProperties) (tree : Rose NodeId) : Prop :=
  ∃ hoisted, ∃ box : LayoutNode F,
    buildNode dom sheet interaction parent parentStyle tree = some (hoisted, box) ∧
      Made dom sheet interaction parent [tree] (hoisted ++ [box]) ∧
        (box.value.display = .none → box.children = []) ∧
          (hasBox dom sheet interaction tree.value = true → hoisted = [])

/-- The children of a node that is displayed. -/
theorem buildChildren_spec {parent : NodeId} {style : StyleProperties} {trees : List (Rose NodeId)}
    (h : ∀ t ∈ trees, Builds F dom sheet interaction (some parent) (some style) t) :
    ∃ made : List (LayoutNode F), buildChildren dom sheet interaction parent style trees = some made ∧
      Made dom sheet interaction (some parent) trees made := by
  induction trees with
  | nil => exact ⟨[], by rw [buildChildren], .nil _⟩
  | cons t trees ih =>
    obtain ⟨hoisted, box, hbuild, hmade, -, -⟩ := h t List.mem_cons_self
    obtain ⟨made, hmades, hrest⟩ := ih fun u hu => h u (List.mem_cons_of_mem _ hu)
    have hbox : Held (some parent) box :=
      hmade.held box (List.mem_append_right _ (List.mem_singleton_self box))
    refine ⟨hoisted ++ [box] ++ made, ?_, hmade.append hrest⟩
    rw [buildChildren, hbuild]
    show Option.map _ _ = _
    rw [hmades, hbox.withParent_eq, List.append_assoc]
    rfl

/-- The children of a node that is not displayed. -/
theorem hoistChildren_spec {parent : NodeId} {parentStyle : Option StyleProperties}
    {trees : List (Rose NodeId)}
    (h : ∀ t ∈ trees, Builds F dom sheet interaction (some parent) parentStyle t) :
    ∃ made : List (LayoutNode F),
      hoistChildren dom sheet interaction (some parent) parentStyle trees = some made ∧
        Made dom sheet interaction (some parent) trees made := by
  induction trees with
  | nil => exact ⟨[], by rw [hoistChildren], .nil _⟩
  | cons t trees ih =>
    obtain ⟨hoisted, box, hbuild, hmade, hnone, -⟩ := h t List.mem_cons_self
    obtain ⟨made, hmades, hrest⟩ := ih fun u hu => h u (List.mem_cons_of_mem _ hu)
    obtain ⟨own, hown, hfirst⟩ := appendTo_of_made hmade hnone
    refine ⟨hoisted ++ own ++ made, ?_, hfirst.append hrest⟩
    rw [hoistChildren, hbuild]
    simp only [hown, hmades, Option.map_some]

/-- **What `build_node` makes of a node and of everything below it.** -/
theorem buildNode_spec (t : Rose NodeId) : ∀ {parent : Option NodeId}
    {parentStyle : Option StyleProperties}, dom.heap.Linked t →
      (∀ x ∈ t.preorder, (dom.heap.nodes x).isSome) →
        (parent = none → hasBox dom sheet interaction t.value = true) →
          nearest dom.wf (hasBox dom sheet interaction) t.value = parent →
            Builds F dom sheet interaction parent parentStyle t := by
  induction t using Rose.induction with
  | h id children ih =>
    intro parent parentStyle hlinked hnodes hroot hnearest
    obtain ⟨hlink, hlinked⟩ := hlinked
    rw [Rose.preorder_node] at hnodes
    obtain ⟨node, hnode⟩ := Option.isSome_iff_exists.mp (hnodes id List.mem_cons_self)
    have hbelow : ∀ c ∈ children, ∀ x ∈ c.preorder, (dom.heap.nodes x).isSome := fun c hc x hx =>
      hnodes x (List.mem_cons_of_mem _ (List.mem_flatMap.mpr ⟨c, hc, hx⟩))
    have hnext (c) (hc : c ∈ children) := nearest_of_some dom.wf (hasBox dom sheet interaction)
      (show IsParent dom.heap.parentOf id c.value from hlink c hc)
    have hpreorder : [Rose.node id children].flatMap Rose.preorder =
        id :: children.flatMap Rose.preorder := by
      rw [List.flatMap_singleton, Rose.preorder_node]
    have hshown : hasBox dom sheet interaction id = true ↔
        displayFor node (resolve dom sheet parentStyle interaction id node) ≠ .none :=
      hasBox_iff hnode parentStyle
    rw [Rose.value_node] at hroot hnearest
    let fields : LayoutFields F := newFields dom sheet interaction parent parentStyle id node
    by_cases hbox : hasBox dom sheet interaction id = true
    · have hdisplay : fields.display ≠ .none := hshown.mp hbox
      have hbuilds : ∀ c ∈ children,
          Builds F dom sheet interaction (some id) (some fields.style) c := fun c hc =>
        ih c hc (hlinked c hc) (hbelow c hc) (fun h => nomatch h) ((hnext c hc).trans (if_pos hbox))
      obtain ⟨made, hmades, hmade⟩ := buildChildren_spec hbuilds
      refine ⟨[], .node fields made, ?_, ⟨?_, fun c hc => ?_, fun x => ?_, fun other hother => ?_⟩,
        fun h => ?_, fun _ => rfl⟩
      · rw [buildNode, hnode]
        show (if fields.display = .none then _ else _) = _
        rw [if_neg hdisplay, hmades]
        rfl
      · rw [List.nil_append, boxes_node_of_ne hdisplay, hpreorder, List.filter_cons_of_pos hbox,
          List.map_cons, List.map_cons, hmade.boxes_eq, hnearest]
        rfl
      · rw [List.nil_append, List.mem_singleton] at hc
        rw [hc]
        exact .node rfl hmade.held
      · rw [List.nil_append, List.flatMap_singleton, Rose.preorder_node, hpreorder, List.map_cons]
        show List.count x (id :: _) ≤ _
        rw [List.count_cons, List.count_cons]
        exact Nat.add_le_add_right (hmade.count_le x) _
      · rw [List.nil_append, List.flatMap_singleton, Rose.preorder_node] at hother
        rcases List.mem_cons.mp hother with rfl | hother
        · rfl
        · exact hmade.still_eq other hother
      · exact absurd h hdisplay
    · have hdisplay : fields.display = .none := not_not.mp fun h => hbox (hshown.mpr h)
      obtain ⟨p, rfl⟩ := Option.ne_none_iff_exists'.mp fun h => hbox (hroot h)
      have hbuilds : ∀ c ∈ children, Builds F dom sheet interaction (some p) parentStyle c :=
        fun c hc => ih c hc (hlinked c hc) (hbelow c hc) (fun h => nomatch h)
          ((hnext c hc).trans ((if_neg hbox).trans hnearest))
      obtain ⟨made, hmades, hmade⟩ := hoistChildren_spec hbuilds
      refine ⟨made, .node fields [], ?_, ⟨?_, fun c hc => ?_, fun x => ?_, fun other hother => ?_⟩,
        fun _ => rfl, fun h => absurd h hbox⟩
      · rw [buildNode, hnode]
        show (if fields.display = .none then _ else _) = _
        rw [if_pos hdisplay, hmades]
        rfl
      · rw [boxes_append, boxes_node_of_eq hdisplay, List.append_nil, hpreorder,
          List.filter_cons_of_neg hbox, hmade.boxes_eq]
      · rcases List.mem_append.mp hc with hc | hc
        · exact hmade.held c hc
        · rw [List.mem_singleton.mp hc]
          exact .node rfl fun d hd => absurd hd List.not_mem_nil
      · rw [List.flatMap_append, List.map_append, List.count_append, hpreorder, List.count_cons,
          List.flatMap_singleton, Rose.preorder_node, List.map_cons]
        refine Nat.add_le_add (hmade.count_le x) ?_
        show List.count x [id] ≤ _
        rw [List.count_singleton]
      · rw [List.flatMap_append, List.mem_append, List.flatMap_singleton, Rose.preorder_node] at hother
        rcases hother with hother | hother
        · exact hmade.still_eq other hother
        · rw [List.mem_singleton.mp hother]
          rfl

end Spec

/-- What is made of a whole document. -/
theorem build_spec [Zero F] (doc : DocumentTree) (sheet : CssStyleSheet)
    (interaction : Option VisualInteractionState) :
    ∃ layout : LayoutNode F, build doc sheet interaction = some layout ∧
      Made doc.toDomTree sheet interaction none [doc.tree] [layout] := by
  obtain ⟨node, hnode, htype⟩ := doc.rootNode
  have hroot : hasBox doc.toDomTree sheet interaction doc.tree.value = true := by
    rw [DocumentTree.tree, Heap.value_tree]
    exact hasBox_of_type hnode htype
  have hnearest : nearest doc.toDomTree.wf (hasBox doc.toDomTree sheet interaction) doc.tree.value =
      none := by
    rw [DocumentTree.tree, Heap.value_tree]
    exact nearest_of_none _ _ doc.rootLink
  have hnodes : ∀ x ∈ doc.tree.preorder, (doc.toDomTree.heap.nodes x).isSome := by
    intro x hx
    rcases (doc.mem_preorder_tree_iff x).mp hx with rfl | hx
    · exact doc.isSome_root
    · exact Heap.Forest.isSome_of_isAncestor hx
  have hbuilds : Builds F doc.toDomTree sheet interaction none none doc.tree :=
    buildNode_spec doc.tree doc.linked_tree hnodes (fun _ => hroot) hnearest
  obtain ⟨hoisted, layout, hbuild, hmade, -, hnil⟩ := hbuilds
  obtain rfl := hnil hroot
  refine ⟨layout, ?_, hmade⟩
  rw [build, hbuild]
  rfl

/-- The layout tree is built without rectangles, boxes and fragments. -/
theorem still_of_build [Zero F] {doc : DocumentTree} {sheet : CssStyleSheet}
    {interaction : Option VisualInteractionState} {layout : LayoutNode F}
    (h : build doc sheet interaction = some layout) :
    ∀ fields ∈ layout.preorder, fields.still = fields := by
  obtain ⟨other, hother, hmade⟩ := build_spec (F := F) doc sheet interaction
  obtain rfl : layout = other := Option.some.inj (h.symm.trans hother)
  intro fields hfields
  exact hmade.still_eq fields (by rwa [List.flatMap_singleton])

/-- **Building the layout tree**, for every document, style sheet and state of the pointer.  The
build ends with a tree; its boxes, in preorder, are the displayed nodes, each once and in document
order; each has for its parent the nearest displayed ancestor; every parent pointer agrees with the
child list that holds the node; and no two layout nodes are for one DOM node. -/
theorem build_boxes [Zero F] (doc : DocumentTree) (sheet : CssStyleSheet)
    (interaction : Option VisualInteractionState) :
    ∃ layout : LayoutNode F, build doc sheet interaction = some layout ∧
      (boxes [layout]).map LayoutFields.domNode =
        doc.tree.preorder.filter (hasBox doc.toDomTree sheet interaction) ∧
      ((boxes [layout]).map LayoutFields.domNode).Nodup ∧
      (∀ fields ∈ boxes [layout], fields.parent =
        nearest doc.toDomTree.wf (hasBox doc.toDomTree sheet interaction) fields.domNode) ∧
      Held none layout ∧
      (layout.preorder.map LayoutFields.domNode).Nodup := by
  obtain ⟨layout, hbuild, hmade⟩ := build_spec (F := F) doc sheet interaction
  have hpairs := hmade.boxes_eq
  rw [List.flatMap_singleton] at hpairs
  have hboxes : (boxes [layout]).map LayoutFields.domNode =
      doc.tree.preorder.filter (hasBox doc.toDomTree sheet interaction) := by
    have hfirst := congrArg (List.map Prod.fst) hpairs
    rw [List.map_map, List.map_map] at hfirst
    exact hfirst.trans (List.map_id _)
  refine ⟨layout, hbuild, hboxes, ?_, fun fields hfields => ?_, ?_, ?_⟩
  · rw [hboxes]
    exact doc.nodup_preorder_tree.filter _
  · have hmem := List.mem_map_of_mem (f := fun f : LayoutFields F => (f.domNode, f.parent)) hfields
    rw [hpairs] at hmem
    obtain ⟨x, -, hx⟩ := List.mem_map.mp hmem
    obtain ⟨rfl, hparent⟩ := Prod.ext_iff.mp hx
    exact hparent.symm
  · exact hmade.held layout (List.mem_singleton_self layout)
  · refine List.nodup_iff_count_le_one.mpr fun x => ?_
    have hcount := hmade.count_le x
    rw [List.flatMap_singleton, List.flatMap_singleton] at hcount
    exact hcount.trans (List.nodup_iff_count_le_one.mp doc.nodup_preorder_tree x)

end Aetheris.Layout
