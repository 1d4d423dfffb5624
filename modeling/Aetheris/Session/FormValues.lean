import Aetheris.Html.RoundTrip
import Aetheris.Session.FormInvariants

/-!
# The initial values of controls

The tree builder keeps text in text nodes, and discovery reads the data of the `textarea` and of the
`option` itself, which an element of a parsed document does not have.  It also looks for the options
of a `select` among its children alone, and takes an empty value of the selected one for none at
all.

A control is plain if none of this makes a difference to it.  For a `select` the option that counts
is found first, and its value is compared with what the code takes.
-/

namespace Aetheris.Session

open Dom Html

/-! ## The values of the markup -/

/-- An attribute of a node. -/
def attributeAt (h : Heap) (name : Bytes) (id : NodeId) : Option Bytes :=
  (h.nodes id).bind (·.attributeValue name)

def isSelected (h : Heap) (id : NodeId) : Bool := (attributeAt h (lit "selected") id).isSome

/-- The text of the text children. -/
def childText (h : Heap) (id : NodeId) : Bytes := (h.childrenOf id).flatMap (ownText h)

/-- The options below a node, in document order. -/
def optionsBelow (h : Heap) (id : NodeId) : List NodeId := (h.below h.next id).filter (isOption h)

/-- The options among the children. -/
def optionChildren (h : Heap) (id : NodeId) : List NodeId :=
  (h.childrenOf id).filter (isOption h)

/-- The last option that is selected. -/
def selectedLast (h : Heap) (options : List NodeId) : Option NodeId :=
  (options.filter (isSelected h)).getLast?

/-- The option that counts: the last one that is selected, or the first one if none is. -/
def chosen (h : Heap) (options : List NodeId) : Option NodeId :=
  (selectedLast h options).or options.head?

/-- The value of an option, where `text` is the text of a node. -/
def optionValue (text : Heap → NodeId → Bytes) (h : Heap) (id : NodeId) : Bytes :=
  (attributeAt h (lit "value") id).getD (text h id)

/-- **The initial value of a control is the one in the markup.**  The text of an option is `text`:
that of its text children, or of all nodes below it. -/
structure FromMarkup (text : Heap → NodeId → Bytes) (h : Heap) (control : FormControlState) :
    Prop where
  textArea : control.kind = .textArea → control.value = childText h control.node
  /-- An option without a value has its text. -/
  option : control.kind = .select → ∀ i o : ℕ, (optionChildren h control.node)[i]? = some o →
    attributeAt h (lit "value") o = none → control.options[i]? = some (text h o)
  select : control.kind = .select → ∀ o, chosen h (optionsBelow h control.node) = some o →
    control.value = optionValue text h o

/-! ## The text of a parsed document -/

/-- Elements have no text of their own, and text nodes are not empty. -/
def TextInTexts (h : Heap) : Prop :=
  ∀ id node, h.nodes id = some node →
    (node.type = .element → node.data = []) ∧ (node.type = .text → node.data ≠ [])

theorem TextInTexts.insertNode {b : TreeBuilder} (h : TextInTexts b.document.heap)
    {type : DomNodeType} (name : Bytes) {data : Bytes} (attributes : List (Bytes × Bytes))
    (pushToStack : Bool) (helement : type = .element → data = []) (htext : type = .text → data ≠ []) :
    TextInTexts (b.insertNode type name data attributes pushToStack).document.heap := by
  intro id node hnode
  rw [nodes_insertNode] at hnode
  split at hnode
  · cases hnode
    exact ⟨helement, htext⟩
  · split at hnode
    · obtain ⟨old, hold, rfl⟩ := Option.map_eq_some_iff.mp hnode
      exact h id old hold
    · exact h id node hnode

theorem TextInTexts.insertToken {b : TreeBuilder} (h : TextInTexts b.document.heap)
    (token : HtmlToken) : TextInTexts (b.insertToken token).document.heap := by
  rw [TreeBuilder.insertToken]
  cases token.type with
  | doctype => exact h.insertNode _ _ _ nofun nofun
  | comment => exact h.insertNode _ _ _ nofun nofun
  | text =>
    dsimp only
    split
    · rename_i hdata
      exact h.insertNode _ _ _ nofun fun _ => hdata
    · exact h
  | startTag => exact h.insertNode _ _ _ (fun _ => rfl) nofun
  | selfClosingTag => exact h.insertNode _ _ _ (fun _ => rfl) nofun
  | endTag => exact h
  | eof => exact h

theorem textInTexts_build (t : HtmlTokenizer) (b : TreeBuilder) (h : TextInTexts b.document.heap) :
    TextInTexts (TreeBuilder.build t b).document.heap := by
  induction t, b using TreeBuilder.build.induct with
  | case1 t b heof =>
    rw [TreeBuilder.build, dif_pos heof]
    exact h
  | case2 t b heof ih =>
    rw [TreeBuilder.build, dif_neg heof]
    exact ih (h.insertToken _)

/-- **Text is kept in text nodes.** -/
theorem textInTexts_parseHtml (input : Bytes) : TextInTexts (parseHtml input).heap := by
  refine textInTexts_build _ _ fun id node hnode => ?_
  have halloc : (TreeBuilder.start.document.heap.nodes id) =
      if id = 0 then some { type := .document } else none :=
    Heap.nodes_alloc Heap.empty { type := .document } id
  rw [halloc] at hnode
  split at hnode
  · cases hnode
    exact ⟨nofun, nofun⟩
  · cases hnode

variable {h : Heap}

/-- An element has text only if it has a text child. -/
theorem childText_eq_nil_iff (hplain : TextInTexts h) (id : NodeId) :
    childText h id = [] ↔
      ∀ c ∈ h.childrenOf id, (h.nodes c).map (·.type) ≠ some .text := by
  rw [childText, List.flatMap_eq_nil_iff]
  refine forall₂_congr fun c _ => ?_
  rw [ownText]
  cases hnode : h.nodes c with
  | none => exact iff_of_true rfl fun h => by cases h
  | some node =>
    dsimp only
    rw [Option.map_some, Ne, Option.some.injEq]
    split
    · rename_i htype
      exact iff_of_false ((hplain c node hnode).2 htype) (not_not.mpr htype)
    · rename_i htype
      exact iff_of_true rfl htype

/-! ## The value of a select -/

/-- The `value` attribute of a node, empty if it has none. -/
def valueAttribute (h : Heap) (id : NodeId) : Bytes := (attributeAt h (lit "value") id).getD []

/-- The value that is looked for first: that of the last selected child, or the select's own. -/
def givenValue (h : Heap) (id : NodeId) : Bytes :=
  (selectedLast h (optionChildren h id)).elim (valueAttribute h id) (valueAttribute h)

/-- The value of the first child that is an option. -/
def firstValue (h : Heap) (id : NodeId) : Bytes :=
  ((optionChildren h id).head?.map (valueAttribute h)).getD []

theorem optionOf_eq (hplain : TextInTexts h) (child : NodeId) :
    optionOf h child =
      if isOption h child then some (valueAttribute h child, isSelected h child) else none := by
  rw [optionOf]
  by_cases hoption : isOption h child = true
  · rw [if_pos hoption, if_pos hoption, valueAttribute, isSelected, attributeAt, attributeAt]
    rw [isOption] at hoption
    cases hnode : h.nodes child with
    | none =>
      rw [hnode] at hoption
      cases hoption
    | some node =>
      rw [hnode] at hoption
      rw [Option.map_some, attributeOr,
        (hplain child node hnode).1 (of_decide_eq_true hoption).1]
      rfl
  · rw [if_neg hoption, if_neg hoption]

/-- The options that discovery lists have their attributes, and no text. -/
theorem optionsOf_eq (hplain : TextInTexts h) {id : NodeId} {node : DomNode}
    (hnode : h.nodes id = some node) :
    optionsOf h node =
      (optionChildren h id).map fun o => (valueAttribute h o, isSelected h o) := by
  have hchildren : h.childrenOf id = node.children := by rw [Heap.childrenOf, hnode]; rfl
  rw [optionsOf, optionChildren, hchildren]
  induction node.children with
  | nil => rfl
  | cons child children ih =>
    rw [List.filterMap_cons, optionOf_eq hplain, ih]
    by_cases hchild : isOption h child = true
    · rw [if_pos hchild, List.filter_cons_of_pos hchild, List.map_cons]
    · rw [if_neg hchild, List.filter_cons_of_neg hchild]

theorem lastSelected_map (options : List NodeId) (value : Bytes) :
    lastSelected (options.map fun o => (valueAttribute h o, isSelected h o)) value =
      (selectedLast h options).elim value (valueAttribute h) := by
  induction options using List.reverseRecOn with
  | nil => rfl
  | append_singleton options o ih =>
    have hstep (options : List (Bytes × Bool)) (option : Bytes × Bool) :
        lastSelected (options ++ [option]) value =
          if option.2 then option.1 else lastSelected options value := by
      rw [lastSelected, List.foldl_append]
      rfl
    rw [List.map_append, List.map_singleton, hstep, ih]
    by_cases hselected : isSelected h o = true
    · rw [if_pos hselected, selectedLast, List.filter_append,
        List.filter_cons_of_pos hselected, List.filter_nil, List.getLast?_concat]
      rfl
    · rw [if_neg hselected, selectedLast, selectedLast, List.filter_append,
        List.filter_cons_of_neg hselected, List.filter_nil, List.append_nil]

/-- **A select as it is found.** -/
theorem selectValue_eq (hplain : TextInTexts h) {id : NodeId} {node : DomNode}
    (hnode : h.nodes id = some node) :
    selectValue h node = if givenValue h id = [] then firstValue h id else givenValue h id := by
  have hown : attributeOr node (lit "value") [] = valueAttribute h id := by
    rw [attributeOr, valueAttribute, attributeAt, hnode, Option.bind_some]
  rw [selectValue, optionsOf_eq hplain hnode, lastSelected_map, hown, givenValue, firstValue,
    List.map_map, List.headD_eq_head?_getD, List.head?_map]
  rfl

/-! ## Markup that is read as it should be -/

/-- A select shows the option that counts.  If the option is a child and selected, its value is not
empty, unless the one of the first option is so as well; if it is a child and not selected, the
select has no other value of its own; and if it is deeper down, its value happens to be the one
that stands in its place. -/
def Shows (text : Heap → NodeId → Bytes) (h : Heap) (id o : NodeId) : Prop :=
  if o ∈ h.childrenOf id then
    if isSelected h o then optionValue text h o ≠ [] ∨ firstValue h id = []
    else valueAttribute h id = [] ∨ valueAttribute h id = optionValue text h o
  else
    (givenValue h id ≠ [] ∧ givenValue h id = optionValue text h o) ∨
      givenValue h id = [] ∧ firstValue h id = optionValue text h o

/-- **The markup of a control that is read as it should be.** -/
structure PlainControl (text : Heap → NodeId → Bytes) (h : Heap) (id : NodeId) (node : DomNode) :
    Prop where
  /-- A `textarea` has no text. -/
  textArea : kindFor node = some .textArea →
    ∀ c ∈ h.childrenOf id, (h.nodes c).map (·.type) ≠ some .text
  /-- The options that are listed have values, or no text either. -/
  option : kindFor node = some .select → ∀ o ∈ optionChildren h id,
    attributeAt h (lit "value") o = none → text h o = []
  select : kindFor node = some .select →
    ∀ o, chosen h (optionsBelow h id) = some o → Shows text h id o

theorem optionValue_eq {text : Heap → NodeId → Bytes} {o : NodeId}
    (ho : attributeAt h (lit "value") o = none → text h o = []) :
    optionValue text h o = valueAttribute h o := by
  rw [optionValue, valueAttribute]
  cases hvalue : attributeAt h (lit "value") o with
  | none => rw [Option.getD_none, Option.getD_none, ho hvalue]
  | some value => rfl

/-- In a list without duplicates the last element stays the last one in a part it belongs to. -/
theorem getLast?_of_sublist {part whole : List NodeId} (hsub : part.Sublist whole)
    (hnodup : whole.Nodup) {o : NodeId} (hlast : whole.getLast? = some o) (hmem : o ∈ part) :
    part.getLast? = some o := by
  obtain ⟨front, rfl⟩ := List.getLast?_eq_some_iff.mp hlast
  obtain ⟨front', back, rfl, hfront, hback⟩ := List.sublist_append_iff.mp hsub
  rcases List.sublist_singleton.mp hback with rfl | rfl
  · rw [List.append_nil] at hmem
    exact absurd (hfront.subset hmem) fun hin =>
      List.disjoint_of_nodup_append hnodup hin (List.mem_singleton_self o)
  · exact List.getLast?_concat

theorem head?_of_sublist {part whole : List NodeId} (hsub : part.Sublist whole)
    (hnodup : whole.Nodup) {o : NodeId} (hhead : whole.head? = some o) (hmem : o ∈ part) :
    part.head? = some o := by
  rw [← List.getLast?_reverse] at hhead ⊢
  exact getLast?_of_sublist (List.reverse_sublist.mpr hsub) (List.nodup_reverse.mpr hnodup) hhead
    (List.mem_reverse.mpr hmem)

theorem childrenOf_sublist_below (depth : ℕ) (id : NodeId) :
    (h.childrenOf id).Sublist (h.below (depth + 1) id) := by
  rw [Heap.below]
  induction h.childrenOf id with
  | nil => exact List.Sublist.refl _
  | cons c cs ih =>
    rw [List.flatMap_cons]
    exact List.Sublist.cons_cons c (ih.trans (List.sublist_append_right _ _))

section Forest

variable (hf : h.Forest) {id o : NodeId} (hid : id < h.next)

include hf hid

theorem optionChildren_sublist :
    (optionChildren h id).Sublist (optionsBelow h id) ∧ (optionsBelow h id).Nodup := by
  obtain ⟨depth, hdepth⟩ := Nat.exists_eq_succ_of_ne_zero (Nat.ne_zero_of_lt hid)
  rw [optionChildren, optionsBelow, hdepth]
  exact ⟨(childrenOf_sublist_below depth id).filter _,
    (List.nodup_cons.mp (hf.nodup_below (depth + 1) id)).2.filter _⟩

/-- The option that counts is the same one among the children, if it is one of them. -/
theorem chosen_children (ho : o ∈ h.childrenOf id)
    (hchosen : chosen h (optionsBelow h id) = some o) :
    if isSelected h o then selectedLast h (optionChildren h id) = some o
    else selectedLast h (optionChildren h id) = none ∧ (optionChildren h id).head? = some o := by
  obtain ⟨hsub, hnodup⟩ := optionChildren_sublist hf hid
  have hbelow : o ∈ optionsBelow h id := by
    rcases Option.or_eq_some_iff.mp hchosen with hlast | ⟨-, hhead⟩
    · exact List.mem_of_mem_filter (List.mem_of_getLast? hlast)
    · exact List.mem_of_mem_head? hhead
  have hmem : o ∈ optionChildren h id :=
    List.mem_filter.mpr ⟨ho, (List.mem_filter.mp hbelow).2⟩
  have hnone : selectedLast h (optionsBelow h id) = none →
      ∀ x ∈ optionsBelow h id, ¬ isSelected h x = true := fun hnone =>
    List.filter_eq_nil_iff.mp (List.getLast?_eq_none_iff.mp hnone)
  split
  · rename_i hselected
    rcases Option.or_eq_some_iff.mp hchosen with hlast | ⟨hlast, -⟩
    · exact getLast?_of_sublist (hsub.filter _) (hnodup.filter _) hlast
        (List.mem_filter.mpr ⟨hmem, hselected⟩)
    · exact absurd hselected (hnone hlast o hbelow)
  · rename_i hselected
    rcases Option.or_eq_some_iff.mp hchosen with hlast | ⟨hlast, hhead⟩
    · exact absurd (List.mem_filter.mp (List.mem_of_getLast? hlast)).2 hselected
    · refine ⟨List.getLast?_eq_none_iff.mpr (List.filter_eq_nil_iff.mpr fun x hx => ?_),
        head?_of_sublist hsub hnodup hhead hmem⟩
      exact hnone hlast x (hsub.subset hx)

/-- **A select shows the option that counts** when its value is the one of that option. -/
theorem shows_iff {text : Heap → NodeId → Bytes}
    (hoption : ∀ o ∈ optionChildren h id, attributeAt h (lit "value") o = none → text h o = [])
    (hchosen : chosen h (optionsBelow h id) = some o) :
    Shows text h id o ↔
      (if givenValue h id = [] then firstValue h id else givenValue h id) =
        optionValue text h o := by
  rw [Shows]
  by_cases hchild : o ∈ h.childrenOf id
  · have hchildren := chosen_children hf hid hchild hchosen
    rw [if_pos hchild]
    by_cases hselected : isSelected h o = true
    · rw [if_pos hselected] at hchildren ⊢
      have hmem : o ∈ optionChildren h id :=
        List.mem_of_mem_filter (List.mem_of_getLast? hchildren)
      rw [optionValue_eq (hoption o hmem), givenValue, hchildren, Option.elim_some]
      split <;> simp_all
    · rw [if_neg hselected] at hchildren ⊢
      have hmem : o ∈ optionChildren h id := List.mem_of_mem_head? hchildren.2
      rw [optionValue_eq (hoption o hmem), givenValue, firstValue, hchildren.1, hchildren.2,
        Option.elim_none, Option.map_some, Option.getD_some]
      split <;> simp_all
  · rw [if_neg hchild]
    split <;> simp_all

end Forest

/-! ## All controls -/

theorem type_of_kindFor {node : DomNode} {kind : FormControlKind}
    (hkind : kindFor node = some kind) : node.type = .element := by
  by_contra hne
  rw [kindFor, if_pos hne] at hkind
  cases hkind

section Control

variable (hplain : TextInTexts h) {id : NodeId} {node : DomNode} (hnode : h.nodes id = some node)

include hplain hnode

theorem textArea_iff (hkind : kindFor node = some .textArea) :
    (controlState h id node .textArea).value = childText h id ↔
      ∀ c ∈ h.childrenOf id, (h.nodes c).map (·.type) ≠ some .text := by
  have hvalue : (controlState h id node .textArea).value = node.data := by
    rw [controlState_eq]
    rfl
  rw [hvalue, (hplain id node hnode).1 (type_of_kindFor hkind), eq_comm, childText_eq_nil_iff hplain]

/-- The options that are listed have the text that an option without a value has. -/
theorem options_iff (text : Heap → NodeId → Bytes) :
    (∀ i o : ℕ, (optionChildren h id)[i]? = some o → attributeAt h (lit "value") o = none →
      (controlState h id node .select).options[i]? = some (text h o)) ↔
      ∀ o ∈ optionChildren h id, attributeAt h (lit "value") o = none → text h o = [] := by
  have hoptions : (controlState h id node .select).options =
      (optionChildren h id).map (valueAttribute h) := by
    rw [controlState_eq]
    dsimp only
    rw [if_pos rfl, optionsOf_eq hplain hnode, List.map_map]
    rfl
  have hget {i o : ℕ} (ho : (optionChildren h id)[i]? = some o)
      (hnone : attributeAt h (lit "value") o = none) :
      (controlState h id node .select).options[i]? = some [] := by
    rw [hoptions, List.getElem?_map, ho, Option.map_some, valueAttribute, hnone, Option.getD_none]
  constructor
  · intro hlisted o ho hnone
    obtain ⟨i, hi⟩ := List.mem_iff_getElem?.mp ho
    exact (Option.some.inj ((hget hi hnone).symm.trans (hlisted i o hi hnone))).symm
  · intro htext i o ho hnone
    rw [hget ho hnone, htext o (List.mem_of_getElem? ho) hnone]

theorem select_iff (hf : h.Forest) {text : Heap → NodeId → Bytes}
    (hoption : ∀ o ∈ optionChildren h id, attributeAt h (lit "value") o = none → text h o = [])
    {o : NodeId} (hchosen : chosen h (optionsBelow h id) = some o) :
    (controlState h id node .select).value = optionValue text h o ↔ Shows text h id o := by
  have hid : id < h.next := hf.lt_next (by rw [hnode]; rfl)
  have hvalue : (controlState h id node .select).value = selectValue h node := by
    rw [controlState_eq]
    rfl
  rw [hvalue, selectValue_eq hplain hnode, shows_iff hf hid hoption hchosen]

/-- **One control.** -/
theorem fromMarkup_controlState_iff (hf : h.Forest) (text : Heap → NodeId → Bytes)
    {kind : FormControlKind} (hkind : kindFor node = some kind) :
    FromMarkup text h (controlState h id node kind) ↔ PlainControl text h id node := by
  have hkinds : (controlState h id node kind).kind = kind := by rw [controlState_eq]
  have hnodes := node_controlState (h := h) id node kind
  have hsame {other : FormControlKind} (hother : kindFor node = some other) : other = kind :=
    Option.some.inj (hother.symm.trans hkind)
  constructor
  · intro hfrom
    have hoption (hselect : kindFor node = some .select) : ∀ o ∈ optionChildren h id,
        attributeAt h (lit "value") o = none → text h o = [] := by
      obtain rfl := hsame hselect
      have hlisted := hfrom.option hkinds
      rw [hnodes] at hlisted
      exact (options_iff hplain hnode text).mp hlisted
    refine ⟨fun htextArea => ?_, hoption, fun hselect o hchosen => ?_⟩
    · obtain rfl := hsame htextArea
      have hvalue := hfrom.textArea hkinds
      rw [hnodes] at hvalue
      exact (textArea_iff hplain hnode hkind).mp hvalue
    · obtain rfl := hsame hselect
      have hvalue := hfrom.select hkinds o
      rw [hnodes] at hvalue
      exact (select_iff hplain hnode hf (hoption hselect) hchosen).mp (hvalue hchosen)
  · intro h
    refine ⟨fun htextArea => ?_, fun hselect => ?_, fun hselect o hchosen => ?_⟩
    · obtain rfl := hkinds.symm.trans htextArea
      rw [hnodes]
      exact (textArea_iff hplain hnode hkind).mpr (h.textArea hkind)
    · obtain rfl := hkinds.symm.trans hselect
      rw [hnodes]
      exact (options_iff hplain hnode text).mpr (h.option hkind)
    · obtain rfl := hkinds.symm.trans hselect
      rw [hnodes] at hchosen
      exact (select_iff hplain hnode hf (h.option hkind) hchosen).mpr (h.select hkind o hchosen)

end Control

/-- The nodes of a document are those that its tree has. -/
theorem mem_preorder_of_isSome (doc : Document) {id : NodeId} (hid : (doc.heap.nodes id).isSome) :
    id ∈ doc.toTree.tree.preorder := by
  obtain ⟨n, -, hreach⟩ := doc.exists_reach hid
  rw [DocumentTree.mem_preorder_tree_iff]
  rcases doc.toTree.forest.isAncestor_of_reach hreach with heq | habove
  · exact Or.inl heq.symm
  · exact Or.inr habove

/-- **The initial values of the controls of a parsed document are those of the markup** exactly
when the markup of each control is one that is read as it should be. -/
theorem fromMarkup_iff (text : Heap → NodeId → Bytes) (input : Bytes) :
    (∀ control ∈ (FormRuntime.ofDocument (parseHtml input)).controls,
      FromMarkup text (parseHtml input).heap control) ↔
      ∀ id node, (parseHtml input).heap.nodes id = some node →
        PlainControl text (parseHtml input).heap id node := by
  have hplain := textInTexts_parseHtml input
  have hforest := forest_document (parseHtml input)
  rw [controls_ofDocument]
  constructor
  · intro h id node hnode
    cases hkind : kindFor node with
    | none =>
      have hno (kind : FormControlKind) : kindFor node ≠ some kind := by
        rw [hkind]
        exact nofun
      exact ⟨fun h => absurd h (hno _), fun h => absurd h (hno _), fun h => absurd h (hno _)⟩
    | some kind =>
      refine (fromMarkup_controlState_iff hplain hnode hforest text hkind).mp (h _ ?_)
      refine List.mem_filterMap.mpr ⟨id, mem_preorder_of_isSome _ (by rw [hnode]; rfl), ?_⟩
      rw [controlAt, hnode, Option.bind_some, hkind, Option.map_some]
  · intro h control hcontrol
    obtain ⟨id, -, hat⟩ := List.mem_filterMap.mp hcontrol
    obtain ⟨node, hnode, hat⟩ := Option.bind_eq_some_iff.mp hat
    obtain ⟨kind, hkind, rfl⟩ := Option.map_eq_some_iff.mp hat
    exact (fromMarkup_controlState_iff hplain hnode hforest text hkind).mpr (h id node hnode)

/-- A text field that the markup fills in is found empty. -/
theorem not_fromMarkup_textArea :
    ¬ ∃ text : Heap → NodeId → Bytes, ∀ input : Bytes,
      ∀ control ∈ (FormRuntime.ofDocument (parseHtml input)).controls,
        FromMarkup text (parseHtml input).heap control := by
  rintro ⟨text, h⟩
  have hcontrol : (FormRuntime.ofDocument (parseHtml (lit "<textarea>a</textarea>"))).controls =
      [{ node := 1, kind := .textArea }] := by decide +kernel
  have htext : childText (parseHtml (lit "<textarea>a</textarea>")).heap 1 = lit "a" := by
    decide +kernel
  have hvalue := (h (lit "<textarea>a</textarea>") _
    (by rw [hcontrol]; exact List.mem_singleton_self _)).textArea rfl
  rw [htext] at hvalue
  cases hvalue

end Aetheris.Session
