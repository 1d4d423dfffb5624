import Aetheris.Layout.FlexRow

/-!
# Rectangles and content boxes

The rectangle of a box is computed with its content box, from one width.  Two loops change one of
them afterwards: a column of a flexible box widens its content box, and a row moves the rectangles
of its items.

When this does no harm is said by a recursion over the tree that is laid out, which passes down the
width that each child in the flow is handed.  An earlier layout does not change the conditions, so
one call of `layout_node` can be followed by another, and the induction is on the depth.
-/

namespace Aetheris.Layout

open Dom Style Length

/-! ## Consistent boxes -/

/-- The rectangle of a box is its content box with its padding and its border. -/
def Consistent (node : LayoutFields ℚ) : Prop :=
  node.rect =
    { x := node.box.content.x - node.box.padding.left - node.box.border.left
      y := node.box.content.y - node.box.padding.top - node.box.border.top
      width := node.box.content.width + node.box.padding.left + node.box.padding.right +
        node.box.border.left + node.box.border.right
      height := node.box.content.height + node.box.padding.top + node.box.padding.bottom +
        node.box.border.top + node.box.border.bottom }

instance (node : LayoutFields ℚ) : Decidable (Consistent node) :=
  inferInstanceAs (Decidable (_ = _))

/-- The box of an element that has one is consistent. -/
def BoxConsistent (node : LayoutFields ℚ) : Prop :=
  node.dom.type = .element → node.display ≠ .none → Consistent node

instance (node : LayoutFields ℚ) : Decidable (BoxConsistent node) :=
  inferInstanceAs (Decidable (_ → _ → _))

/-- The boxes of all elements are consistent. -/
def AllConsistent (item : LayoutNode ℚ) : Prop :=
  ∀ node ∈ item.preorder, BoxConsistent node

theorem allConsistent_node {node : LayoutFields ℚ} {children : List (LayoutNode ℚ)} :
    AllConsistent (.node node children) ↔
      BoxConsistent node ∧ ∀ child ∈ children, AllConsistent child := by
  rw [AllConsistent, Rose.preorder_node, List.forall_mem_cons]
  refine and_congr_right fun _ => ?_
  simp only [List.mem_flatMap, AllConsistent]
  constructor
  · exact fun h child hchild node hnode => h node ⟨child, hchild, hnode⟩
  · rintro h node ⟨child, hchild, hnode⟩
    exact h child hchild node hnode

/-- A node that is placed is consistent if its width is the width of its content box. -/
theorem consistent_placed_iff {node : LayoutFields ℚ} {style : StyleProperties}
    {x y available width boxWidth height : ℚ}
    (hrect : node.rect =
      (placed style (frame style x y available) x y available width boxWidth height).1)
    (hbox : node.box =
      (placed style (frame style x y available) x y available width boxWidth height).2) :
    Consistent node ↔ boxWidth = width := by
  rw [placed_eq] at hrect hbox
  rw [Consistent, hrect, hbox]
  simp only [LayoutRect.mk.injEq, frame]
  constructor
  · rintro ⟨-, -, hwidth, -⟩
    linarith
  · rintro rfl
    exact ⟨by ring, by ring, rfl, trivial⟩

/-! ## The widths of the children -/

/-- The room that is left on a line for an item. -/
def inlineRoom (depth : ℕ) (width : ℚ) (items : List (LayoutNode ℚ)) (i : ℕ) : ℚ :=
  width - (sweep (inlineStep (layoutNode depth) 0 width) ⟨0, 0, 0⟩ (items.take i)).1.x

/-- The width that an item of a line is laid out with at last: all of the line, if the item begins
a new one. -/
def inlineWidth (depth : ℕ) (width : ℚ) (items : List (LayoutNode ℚ)) (i : ℕ)
    (item : LayoutNode ℚ) : ℚ :=
  if inlineRoom depth width items i < width ∧
      inlineRoom depth width items i <
        borderBoxWidth item.value.still (inlineRoom depth width items i) then
    width
  else inlineRoom depth width items i

/-- The items of a row, as their parent sees them. -/
def rowItems (node : LayoutFields ℚ) (children : List (LayoutNode ℚ)) :
    List (LayoutFields ℚ) := (inFlow (ordered node children)).map fun item => item.value.still

/-- The width that a child in the flow is laid out with. -/
def handedWidth (depth : ℕ) (node : LayoutFields ℚ) (frame : Frame ℚ)
    (children : List (LayoutNode ℚ)) (i : ℕ) (item : LayoutNode ℚ) : ℚ :=
  if node.display = .flex then
    if isColumn node then frame.width
    else itemWidth (rowOf node frame (rowItems node children)) item.value.still
  else if node.display = .grid then
    (gridColumns node frame.width).getD (i % (gridColumns node frame.width).length) 0
  else if children.any fun item => isInline item.value.still then
    inlineWidth depth frame.width (inFlow children) i item
  else frame.width

/-- No item of a row is moved to its centre or its bottom. -/
def RowAligned (depth : ℕ) (row : FlexRow ℚ) (items : List (LayoutNode ℚ)) : Prop :=
  ∀ i item, items[i]? = some item → item.value.dom.type = .element →
    (row.align = some (lit "center") →
        tallest depth row (items.take i) ≤ rowHeight depth row item) ∧
      (row.align = some (lit "flex-end") → rowHeight depth row item = tallest depth row items)

/-- No item of a column is wider than the column, no item of a row is moved, and the same holds
below; what is not laid out is consistent already. -/
def BoxesFit : ℕ → ℚ → LayoutNode ℚ → Prop
  | 0, _, item => AllConsistent item
  | depth + 1, available, .node node children =>
    if hasContents node = true then
      let frame := frame node.style 0 0 available
      (node.dom.type = .element → node.display = .flex → isColumn node.still →
          ∀ item ∈ inFlow children, borderBoxWidth item.value.still frame.width ≤ frame.width) ∧
        (node.display = .flex → ¬ isColumn node.still →
          RowAligned depth (rowOf node.still frame (rowItems node.still children))
            (inFlow (ordered node.still children))) ∧
        (∀ i item, (inFlow children)[i]? = some item →
          BoxesFit depth (handedWidth depth node.still frame children i item) item) ∧
        ∀ child ∈ children, skipped child = true → BoxesFit depth frame.width child
    else ∀ child ∈ children, AllConsistent child

/-! ## What the conditions depend on -/

section Lists

variable {α β : Type} {R : α → β → Prop} {as : List α} {bs : List β} (h : List.Forall₂ R as bs)

include h

/-- What holds of all entries of two lists that are related. -/
theorem forall_mem_congr {P : α → Prop} {Q : β → Prop} (hPQ : ∀ a b, R a b → (P a ↔ Q b)) :
    (∀ a ∈ as, P a) ↔ ∀ b ∈ bs, Q b := by
  induction h with
  | nil => exact iff_of_true (fun _ h => absurd h List.not_mem_nil) fun _ h =>
      absurd h List.not_mem_nil
  | cons hab _ ih => rw [List.forall_mem_cons, List.forall_mem_cons, ih, hPQ _ _ hab]

theorem forall_getElem?_congr {P : ℕ → α → Prop} {Q : ℕ → β → Prop}
    (hPQ : ∀ i a b, R a b → (P i a ↔ Q i b)) :
    (∀ i a, as[i]? = some a → P i a) ↔ ∀ i b, bs[i]? = some b → Q i b := by
  obtain ⟨hlength, hall⟩ := List.forall₂_iff_get.mp h
  constructor
  · intro hP i b hb
    obtain ⟨hi, rfl⟩ := List.getElem?_eq_some_iff.mp hb
    have ha := List.getElem?_eq_getElem (hlength ▸ hi : i < as.length)
    exact (hPQ i _ _ (hall i (hlength ▸ hi) hi)).mp (hP i _ ha)
  · intro hQ i a ha
    obtain ⟨hi, rfl⟩ := List.getElem?_eq_some_iff.mp ha
    have hb := List.getElem?_eq_getElem (hlength ▸ hi : i < bs.length)
    exact (hPQ i _ _ (hall i hi (hlength ▸ hi))).mpr (hQ i _ hb)

end Lists

/-- What decides about a tree, besides its height: what no layout changes of it, and the
conditions. -/
def Alike (depth : ℕ) (s t : LayoutNode ℚ) : Prop :=
  Twins depth s t ∧ ∀ width, BoxesFit depth width s ↔ BoxesFit depth width t

theorem Twins.of_alike {depth : ℕ} {ss ts : List (LayoutNode ℚ)}
    (h : List.Forall₂ (Alike depth) ss ts) : List.Forall₂ (Twins depth) ss ts :=
  h.imp fun _ _ hst => hst.1

theorem Twins.inFlow {depth : ℕ} {R : LayoutNode ℚ → LayoutNode ℚ → Prop}
    (hR : ∀ s t, R s t → Twins depth s t) {ss ts : List (LayoutNode ℚ)}
    (h : List.Forall₂ R ss ts) : List.Forall₂ R (inFlow ss) (inFlow ts) := by
  induction h with
  | nil => exact .nil
  | @cons s t ss ts hst _ ih =>
    rw [Layout.inFlow, Layout.inFlow, List.filter_cons, List.filter_cons, (hR s t hst).skipped_eq]
    split
    · exact .cons hst ih
    · exact ih

theorem rowHeight_eq {depth : ℕ} {s t : LayoutNode ℚ} (h : Twins depth s t)
    (hdisplay : s.value.display ≠ .none) (row : FlexRow ℚ) :
    rowHeight depth row s = rowHeight depth row t := by
  have hrect := movesRects depth h hdisplay 0 0 0 0 (itemWidth row s.value.still)
  rw [add_zero] at hrect
  rw [rowHeight, rowHeight, ← h.still_eq, outerHeight, outerHeight, hrect]
  rfl

section Rows

variable {depth : ℕ} {ss ts : List (LayoutNode ℚ)} (h : List.Forall₂ (Twins depth) ss ts)
  (hdisplay : ∀ item ∈ ss, item.value.display ≠ .none)

include h hdisplay

theorem map_rowHeight_eq (row : FlexRow ℚ) :
    ss.map (rowHeight depth row) = ts.map (rowHeight depth row) := by
  induction h with
  | nil => rfl
  | @cons s t ss ts hst _ ih =>
    obtain ⟨hs, hss⟩ := List.forall_mem_cons.mp hdisplay
    rw [List.map_cons, List.map_cons, ih hss, rowHeight_eq hst hs]

/-- The place of the next item of a line that is moved is moved. -/
theorem sweep_inlineStep_shift (a b x width : ℚ) (s : InlineCursor ℚ) :
    (sweep (inlineStep (layoutNode depth) (x + a) width) (s.shift a b) ts).1 =
      (sweep (inlineStep (layoutNode depth) x width) s ss).1.shift a b := by
  induction h generalizing s with
  | nil => rfl
  | @cons c d ss ts hcd _ ih =>
    obtain ⟨hc, hss⟩ := List.forall_mem_cons.mp hdisplay
    rw [sweep_cons, sweep_cons, inlineStep_shift (movesRects depth) a b hcd hc]
    exact ih hss _

end Rows

theorem inlineRoom_eq {depth : ℕ} {ss ts : List (LayoutNode ℚ)}
    (h : List.Forall₂ (Twins depth) ss ts) (hdisplay : ∀ item ∈ ss, item.value.display ≠ .none)
    (width : ℚ) (i : ℕ) : inlineRoom depth width ss i = inlineRoom depth width ts i := by
  have hstate := sweep_inlineStep_shift (List.forall₂_take i h)
    (fun item hitem => hdisplay item (List.mem_of_mem_take hitem)) 0 0 0 width ⟨0, 0, 0⟩
  have hx := congrArg InlineCursor.x hstate
  simp only [InlineCursor.shift, add_zero] at hx
  rw [inlineRoom, inlineRoom, hx]

theorem map_still_eq {depth : ℕ} {ss ts : List (LayoutNode ℚ)}
    (h : List.Forall₂ (Twins depth) ss ts) :
    ss.map (fun item => item.value.still) = ts.map fun item => item.value.still := by
  induction h with
  | nil => rfl
  | cons hst _ ih => rw [List.map_cons, List.map_cons, ih, hst.still_eq]

section Congr

variable {depth : ℕ} {ss ts : List (LayoutNode ℚ)} (h : List.Forall₂ (Twins depth) ss ts)
  (node : LayoutFields ℚ)

include h

theorem rowItems_eq : rowItems node ss = rowItems node ts :=
  Twins.map_still_inFlow (Twins.ordered h node)

theorem handedWidth_eq (frame : Frame ℚ) (i : ℕ) {s t : LayoutNode ℚ} (hst : Twins depth s t) :
    handedWidth depth node frame ss i s = handedWidth depth node frame ts i t := by
  have hinline : (ss.any fun item => isInline item.value.still) =
      ts.any fun item => isInline item.value.still := by
    have hstills := congrArg (List.any · isInline) (map_still_eq h)
    simp only [List.any_map] at hstills
    exact hstills
  have hroom := inlineRoom_eq (Twins.inFlow (fun _ _ => id) h)
    (fun item => display_of_mem_inFlow) frame.width i
  rw [handedWidth, handedWidth, rowItems_eq h, hst.still_eq, hinline, inlineWidth, inlineWidth,
    hroom, hst.still_eq]

theorem rowAligned_congr (row : FlexRow ℚ) :
    RowAligned depth row (inFlow (ordered node ss)) ↔
      RowAligned depth row (inFlow (ordered node ts)) := by
  have hitems := Twins.inFlow (fun _ _ => id) (Twins.ordered h node)
  have hheights := map_rowHeight_eq hitems (fun item => display_of_mem_inFlow) row
  have htallest (i : ℕ) : tallest depth row ((inFlow (ordered node ss)).take i) =
      tallest depth row ((inFlow (ordered node ts)).take i) := by
    rw [tallest, tallest, List.map_take, List.map_take, hheights]
  have hall : tallest depth row (inFlow (ordered node ss)) =
      tallest depth row (inFlow (ordered node ts)) := by rw [tallest, tallest, hheights]
  refine forall_getElem?_congr ((List.forall₂_and_left _ _).mpr
    ⟨fun item => display_of_mem_inFlow, hitems⟩) fun i s t hst => ?_
  have hdom := congrArg LayoutFields.dom hst.2.still_eq
  change s.value.dom = t.value.dom at hdom
  rw [hdom, rowHeight_eq hst.2 hst.1, htallest, hall]

end Congr

/-- The conditions do not depend on an earlier layout. -/
theorem boxesFit_congr {depth : ℕ} {node node' : LayoutFields ℚ} {ss ts : List (LayoutNode ℚ)}
    (hcontents : hasContents node = true) (hstill : node.still = node'.still)
    (h : List.Forall₂ (Alike depth) ss ts) (available : ℚ) :
    BoxesFit (depth + 1) available (.node node ss) ↔
      BoxesFit (depth + 1) available (.node node' ts) := by
  have htwins := Twins.of_alike h
  have hcontents' := (hasContents_eq (a := node') (b := node)
    hstill.symm).trans hcontents
  have hstyle := congrArg LayoutFields.style hstill
  have hdisplay := congrArg LayoutFields.display hstill
  have hdom := congrArg LayoutFields.dom hstill
  change node.style = node'.style at hstyle
  change node.display = node'.display at hdisplay
  change node.dom = node'.dom at hdom
  rw [BoxesFit, BoxesFit, if_pos hcontents, if_pos hcontents', ← hstyle, ← hdisplay, ← hdom,
    ← hstill]
  dsimp only
  generalize frame node.style 0 0 available = frame
  refine and_congr ?_ (and_congr ?_ (and_congr ?_ ?_))
  · refine imp_congr_right fun _ => imp_congr_right fun _ => imp_congr_right fun _ => ?_
    refine forall_mem_congr (Twins.inFlow (fun _ _ h => h.1) h) fun s t hst => ?_
    rw [hst.1.still_eq]
  · rw [rowItems_eq htwins]
    exact imp_congr_right fun _ => imp_congr_right fun _ => rowAligned_congr htwins _ _
  · refine forall_getElem?_congr (Twins.inFlow (fun _ _ h => h.1) h) fun i s t hst => ?_
    rw [handedWidth_eq htwins node.still frame i hst.1]
    exact hst.2 _
  · refine forall_mem_congr h fun s t hst => ?_
    rw [hst.1.skipped_eq]
    exact imp_congr_right fun _ => hst.2 _

theorem boxesFit_modifyValue {f : LayoutFields ℚ → LayoutFields ℚ} (hf : ∀ node, (f node).still = node.still)
    {depth : ℕ} {item : LayoutNode ℚ} (hdepth : item.height ≤ depth) (available : ℚ) :
    BoxesFit depth available (modifyValue f item) ↔ BoxesFit depth available item := by
  obtain ⟨node, children⟩ := item
  obtain ⟨depth, rfl⟩ := exists_eq_succ_of_height_le hdepth
  have hcontents := hasContents_eq (hf node)
  by_cases hnode : hasContents node = true
  · have hheights := Rose.height_node_le_succ.mp hdepth
    exact boxesFit_congr (hcontents.trans hnode) (hf node)
      (List.forall₂_same.mpr fun child hchild => ⟨⟨rfl, hheights child hchild⟩, fun _ => Iff.rfl⟩)
      available
  · rw [modifyValue, BoxesFit, BoxesFit, if_neg hnode, if_neg (hcontents ▸ hnode)]
    exact Iff.rfl

/-- **An earlier layout does not change the conditions.** -/
theorem boxesFit_layoutNode (depth : ℕ) {item : LayoutNode ℚ} (hdepth : item.height ≤ depth)
    (x y width available : ℚ) :
    BoxesFit depth available (layoutNode depth x y width item) ↔ BoxesFit depth available item := by
  induction depth generalizing item x y width available with
  | zero => exact Iff.rfl
  | succ depth ih =>
    obtain ⟨node, children⟩ := item
    have hheights := Rose.height_node_le_succ.mp hdepth
    by_cases hcontents : hasContents node = true
    · -- What is kept of a child.
      let shape (child : LayoutNode ℚ) : Rose (LayoutFields ℚ) × (ℚ → Prop) :=
        (skeleton child, fun width => child.height ≤ depth → BoxesFit depth width child)
      have hshape {s t : LayoutNode ℚ} (hskeleton : skeleton s = skeleton t)
          (hfit : s.height ≤ depth → ∀ width, BoxesFit depth width s ↔ BoxesFit depth width t) :
          shape s = shape t := by
        refine Prod.ext hskeleton (funext fun width => propext ?_)
        dsimp only [shape]
        rw [← height_of_skeleton_eq hskeleton]
        exact forall_congr' fun hheight => hfit hheight width
      have hlayout (x y width : ℚ) (child : LayoutNode ℚ) :
          shape (layoutNode depth x y width child) = shape child := by
        have hskeleton := skeleton_layoutNode depth x y width child
        refine hshape hskeleton fun hheight available => ih ?_ _ _ _ _
        rwa [height_of_skeleton_eq hskeleton] at hheight
      have hmodify {f : LayoutFields ℚ → LayoutFields ℚ} (hf : ∀ node, (f node).still = node.still)
          (child : LayoutNode ℚ) : shape (modifyValue f child) = shape child := by
        have hskeleton := skeleton_modifyValue hf child
        refine hshape hskeleton fun hheight available => boxesFit_modifyValue hf ?_ _
        rwa [height_of_skeleton_eq hskeleton] at hheight
      have hflow := map_flow (still_layoutNode depth) (fun x y width child _ => hlayout x y width child)
        (fun dy child _ => hmodify (f := LayoutFields.moveDown dy) (fun _ => rfl) child)
        (fun _ _ _ _ _ child _ => hmodify (fun _ => LayoutFields.still_setText) child)
        node.still (frame node.style x y width) children
      have habsolute (x y height available : ℚ) :
          shape ∘ absoluteStep (layoutNode depth) x y height available = shape := by
        funext child
        rw [Function.comp_apply, absoluteStep]
        split
        · exact hlayout _ _ _ child
        · rfl
      rw [layoutNode_eq hcontents]
      dsimp only
      refine (boxesFit_congr hcontents rfl ?_ available).symm
      have hall : List.Forall₂ (fun s t => shape s = shape t) children
          ((flow (layoutNode depth) node.still (frame node.style x y width) children).2.map
            (absoluteStep (layoutNode depth) (frame node.style x y width).x
              (frame node.style x y width).y
              (contentsHeight depth (frame node.style x y width) node.still children)
              (frame node.style x y width).width)) := by
        rw [← List.forall₂_map_left_iff (f := shape) (R := fun s t => s = shape t),
          ← List.forall₂_map_right_iff (f := shape) (R := fun s t => s = t), List.map_map,
          habsolute, hflow, List.forall₂_eq_eq_eq]
      refine ((List.forall₂_and_left _ _).mpr ⟨hheights, hall⟩).imp fun s t hst => ?_
      obtain ⟨hskeleton, hfit⟩ := Prod.ext_iff.mp hst.2
      refine ⟨⟨hskeleton, hst.1⟩, fun available => ?_⟩
      have hpair := congrFun hfit available
      dsimp only [shape] at hpair
      rw [← height_of_skeleton_eq hskeleton, forall_prop_of_true hst.1, forall_prop_of_true hst.1]
        at hpair
      exact Iff.of_eq hpair
    · have hcontents := Bool.eq_false_iff.mpr hcontents
      have hleaf := hasContents_eq
        (show (layoutLeaf x y width node).still = node.still from LayoutFields.still_layoutLeaf)
      rw [layoutNode_of_not_hasContents hcontents, BoxesFit, BoxesFit, hleaf.trans hcontents,
        hcontents, if_neg Bool.false_ne_true, if_neg Bool.false_ne_true]

/-! ## One call -/

/-- A node that does not lay out its children is consistent after a layout. -/
theorem boxConsistent_layoutLeaf {node : LayoutFields ℚ}
    (h : hasContents node = false) (x y available : ℚ) :
    BoxConsistent (layoutLeaf x y available node) := by
  have hstill : (layoutLeaf x y available node).still = node.still := LayoutFields.still_layoutLeaf
  have hdom := congrArg LayoutFields.dom hstill
  have hdisplay := congrArg LayoutFields.display hstill
  change (layoutLeaf x y available node).dom = node.dom at hdom
  change (layoutLeaf x y available node).display = node.display at hdisplay
  rw [BoxConsistent, hdom, hdisplay]
  intro helement hdisplay
  have himage : node.dom.type = .element ∧ node.dom.name = lit "img" := by
    by_contra himage
    refine Bool.false_ne_true (h.symm.trans (hasContents_iff.mpr ⟨hdisplay, himage, ?_⟩))
    rw [helement]
    decide
  rw [layoutLeaf, if_neg hdisplay]
  dsimp only
  rw [if_pos himage]
  exact (consistent_placed_iff rfl rfl).mpr rfl

/-- From the top to the bottom every node is consistent after a layout. -/
theorem rect_y_eq_layoutNode {item : LayoutNode ℚ} (h : item.value.display ≠ .none)
    (depth : ℕ) (x y available : ℚ) :
    (layoutNode (depth + 1) x y available item).value.rect.y =
      (layoutNode (depth + 1) x y available item).value.box.content.y -
        (layoutNode (depth + 1) x y available item).value.box.padding.top -
        (layoutNode (depth + 1) x y available item).value.box.border.top := by
  obtain ⟨node, children⟩ := item
  change node.display ≠ .none at h
  obtain ⟨hrect, hbox⟩ := layoutNode_placed h depth x y available children
  rw [hrect, hbox, placed_eq]
  simp only [frame]
  ring

/-- A node that is moved down is not consistent any more. -/
theorem consistent_moveDown_iff {node : LayoutFields ℚ} {dy : ℚ}
    (h : node.rect.y = node.box.content.y - node.box.padding.top - node.box.border.top) :
    Consistent (node.moveDown dy) ↔ Consistent node ∧ dy = 0 := by
  have hzero : node.moveDown 0 = node := by
    rw [LayoutFields.moveDown, add_zero]
  constructor
  · intro hmoved
    have hy := congrArg LayoutRect.y hmoved
    change node.rect.y + dy = node.box.content.y - node.box.padding.top - node.box.border.top at hy
    obtain rfl : dy = 0 := by linarith
    rw [hzero] at hmoved
    exact ⟨hmoved, rfl⟩
  · rintro ⟨hnode, rfl⟩
    rwa [hzero]

/-- Such a node, which is no image, is consistent in any case. -/
theorem allConsistent_iff_boxesFit {depth : ℕ} {item : LayoutNode ℚ}
    (hdepth : item.height ≤ depth)
    (h : item.value.display = .none ∨ item.value.dom.type = .text) (available : ℚ) :
    AllConsistent item ↔ BoxesFit depth available item := by
  obtain ⟨node, children⟩ := item
  obtain ⟨depth, rfl⟩ := exists_eq_succ_of_height_le hdepth
  have hcontents : ¬ hasContents node = true := by
    rw [hasContents_iff]
    rintro ⟨hdisplay, -, htext⟩
    exact h.elim hdisplay htext
  rw [allConsistent_node, BoxesFit, if_neg hcontents]
  refine and_iff_right fun helement hdisplay => ?_
  rcases h with hnone | htext
  · exact absurd hnone hdisplay
  · exact absurd (htext.symm.trans helement) (by decide)

theorem forall_getElem?_iff {α : Type} {as : List α} {P : α → Prop} :
    (∀ (i : ℕ) a, as[i]? = some a → P a) ↔ ∀ a ∈ as, P a := by
  simp only [List.mem_iff_getElem?, forall_exists_index]
  exact ⟨fun h a i ha => h i a ha, fun h i a ha => h a i ha⟩

section Flow

variable {depth : ℕ} (ih : ∀ item : LayoutNode ℚ, item.height ≤ depth → ∀ x y available : ℚ,
    AllConsistent (layoutNode depth x y available item) ↔ BoxesFit depth available item)
  {children : List (LayoutNode ℚ)} (hheights : ∀ child ∈ children, child.height ≤ depth)
  (node : LayoutFields ℚ) (frame : Frame ℚ)

include ih hheights

theorem blockFlow_consistent_iff :
    (∀ cell ∈ inFlow (blockFlow (layoutNode depth) frame children).2, AllConsistent cell) ↔
      ∀ item ∈ inFlow children, BoxesFit depth frame.width item := by
  rw [blockFlow]
  dsimp only
  rw [inFlow_sweep_snd (still_blockStep (still_layoutNode depth) _ _), forall_mem_sweep, ← forall_getElem?_iff]
  refine forall_congr' fun i => forall_congr' fun item => imp_congr_right fun hitem => ?_
  exact ih item (hheights item (mem_inFlow.mp (List.mem_of_getElem? hitem)).1) _ _ _

theorem columnFlow_consistent_iff :
    (∀ cell ∈ inFlow (columnFlow (layoutNode depth) node frame children).2, AllConsistent cell) ↔
      ∀ item ∈ inFlow children, BoxesFit depth frame.width item := by
  rw [columnFlow]
  dsimp only
  rw [inFlow_sweep_snd (still_columnStep (still_layoutNode depth) _ _ _), forall_mem_sweep, ← forall_getElem?_iff]
  refine forall_congr' fun i => forall_congr' fun item => imp_congr_right fun hitem => ?_
  exact ih item (hheights item (mem_inFlow.mp (List.mem_of_getElem? hitem)).1) _ _ _

omit ih hheights in
theorem sweep_gridStep_index (recurse : Recurse ℚ) (x y gapX gapY : ℚ) (columns : List ℚ)
    (s : ℕ × List ℚ) (items : List (LayoutNode ℚ)) :
    (sweep (gridStep recurse x y gapX gapY columns) s items).1.1 = s.1 + items.length := by
  induction items generalizing s with
  | nil => rfl
  | cons item items ih =>
    rw [sweep_cons, ih, List.length_cons]
    show s.1 + 1 + items.length = _
    omega

theorem layoutGridChildren_consistent_iff :
    (∀ cell ∈ inFlow (layoutGridChildren (layoutNode depth) node frame children).2, AllConsistent cell) ↔
      ∀ i item, (inFlow children)[i]? = some item → BoxesFit depth
        ((gridColumns node frame.width).getD (i % (gridColumns node frame.width).length) 0)
        item := by
  rw [layoutGridChildren]
  by_cases hnil : inFlow children = []
  · rw [if_pos hnil, hnil]
    exact iff_of_true (fun _ h => absurd h List.not_mem_nil)
      fun i item h => absurd (List.mem_of_getElem? h) List.not_mem_nil
  rw [if_neg hnil]
  dsimp only
  rw [inFlow_sweep_snd (still_gridStep (still_layoutNode depth) _ _ _ _ _), forall_mem_sweep]
  refine forall_congr' fun i => forall_congr' fun item => imp_congr_right fun hitem => ?_
  obtain ⟨hi, -⟩ := List.getElem?_eq_some_iff.mp hitem
  rw [gridStep]
  dsimp only
  rw [sweep_gridStep_index, List.length_take, Nat.min_eq_left hi.le, Nat.zero_add]
  exact ih item (hheights item (mem_inFlow.mp (List.mem_of_getElem? hitem)).1) _ _ _

omit ih hheights in
/-- An element that is laid out and moved down. -/
theorem allConsistent_moveDown {item : LayoutNode ℚ} (hdisplay : item.value.display ≠ .none)
    (hdepth : item.height ≤ depth) (x y available dy : ℚ) :
    AllConsistent (modifyValue (LayoutFields.moveDown dy) (layoutNode depth x y available item)) ↔
      AllConsistent (layoutNode depth x y available item) ∧
        (item.value.dom.type = .element → dy = 0) := by
  obtain ⟨depth, rfl⟩ := exists_eq_succ_of_height_le hdepth
  have hstill := still_layoutNode (depth + 1) x y available item
  have hdom := congrArg LayoutFields.dom hstill
  have hdisplay' := congrArg LayoutFields.display hstill
  have htop := rect_y_eq_layoutNode hdisplay depth x y available
  change _ = item.value.dom at hdom
  change _ = item.value.display at hdisplay'
  rw [← hdom]
  rw [← hdisplay'] at hdisplay
  generalize layoutNode (depth + 1) x y available item = laid at *
  obtain ⟨laid, cells⟩ := laid
  rw [modifyValue, allConsistent_node, allConsistent_node, and_right_comm]
  refine and_congr_left fun _ => ?_
  show (laid.dom.type = .element → laid.display ≠ .none → Consistent _) ↔
    (laid.dom.type = .element → laid.display ≠ .none → Consistent _) ∧ _
  rw [consistent_moveDown_iff htop]
  constructor
  · intro h
    exact ⟨fun helement hbox => (h helement hbox).1, fun helement => (h helement hdisplay).2⟩
  · rintro ⟨h, hzero⟩ helement hbox
    exact ⟨h helement hbox, hzero helement⟩

theorem rowFlow_consistent_iff :
    let row := rowOf node frame ((inFlow children).map fun item => item.value.still)
    (∀ cell ∈ inFlow (rowFlow (layoutNode depth) node frame children).2, AllConsistent cell) ↔
      RowAligned depth row (inFlow children) ∧
        ∀ item ∈ inFlow children, BoxesFit depth (itemWidth row item.value.still) item := by
  dsimp only
  rw [rowFlow]
  dsimp only
  generalize hrow : rowOf node frame ((inFlow children).map fun item => item.value.still) = row
  have halign : node.style.get (lit "align-items") = row.align := hrow ▸ rfl
  generalize (rowStart node frame ((inFlow children).map fun item => item.value.still)).1 = start
  have hstate := inFlow_sweep (still_rowStep (still_layoutNode depth) row) (start, 0) children
  have hdisplay (item : LayoutNode ℚ) (hitem : item ∈ inFlow children) :
      item.value.display ≠ .none := display_of_mem_inFlow hitem
  have hdepth (item : LayoutNode ℚ) (hitem : item ∈ inFlow children) : item.height ≤ depth :=
    hheights item (mem_inFlow.mp hitem).1
  have hmoved {i : ℕ} {item : LayoutNode ℚ} (hitem : (inFlow children)[i]? = some item)
      (x dy : ℚ) :
      AllConsistent (modifyValue (LayoutFields.moveDown dy)
          (layoutNode depth x row.y (itemWidth row item.value.still) item)) ↔
        (item.value.dom.type = .element → dy = 0) ∧
          BoxesFit depth (itemWidth row item.value.still) item := by
    have hmem := List.mem_of_getElem? hitem
    rw [allConsistent_moveDown (hdisplay item hmem) (hdepth item hmem), ih item (hdepth item hmem),
      and_comm]
  have hfit : (∀ i item, (inFlow children)[i]? = some item →
      BoxesFit depth (itemWidth row item.value.still) item) ↔
        ∀ item ∈ inFlow children, BoxesFit depth (itemWidth row item.value.still) item :=
    forall_getElem?_iff
  rw [← hfit]
  simp only [RowAligned, ← forall_and]
  rw [halign]
  by_cases hend : row.align = some (lit "flex-end")
  · have hcenter : row.align ≠ some (lit "center") := by
      rw [hend]
      decide
    have hbottom : (sweep (skipping skipped (rowStep (layoutNode depth) row)) (start, 0)
        children).1.2 = tallest depth row (inFlow children) := by
      rw [← congrArg (fun result => result.1.2) hstate, sweep_rowStep_height row hdisplay hdepth]
      rfl
    rw [if_pos hend, hbottom, inFlow_map_alignBottom, List.forall_mem_map,
      inFlow_sweep_snd (still_rowStep (still_layoutNode depth) row), forall_mem_sweep]
    refine forall_congr' fun i => forall_congr' fun item => imp_congr_right fun hitem => ?_
    have hmem := List.mem_of_getElem? hitem
    rw [rowStep]
    dsimp only
    rw [if_neg hcenter, alignBottom, skipped_eq (still_layoutNode _ _ _ _ item),
      show passedOver item.value.still = false from (mem_inFlow.mp hmem).2,
      if_neg Bool.false_ne_true, hmoved hitem,
      rect_height_layoutNode (hdepth item hmem) (hdisplay item hmem), sub_eq_zero]
    refine and_congr_left fun _ => imp_congr_right fun _ => ?_
    constructor
    · exact fun h => ⟨fun hcentre => absurd hcentre hcenter, fun _ => h.symm⟩
    · exact fun h => (h.2 hend).symm
  · rw [if_neg hend, inFlow_sweep_snd (still_rowStep (still_layoutNode depth) row), forall_mem_sweep]
    refine forall_congr' fun i => forall_congr' fun item => imp_congr_right fun hitem => ?_
    have hmem := List.mem_of_getElem? hitem
    have htallest : (sweep (rowStep (layoutNode depth) row) (start, 0)
        ((inFlow children).take i)).1.2 = tallest depth row ((inFlow children).take i) :=
      sweep_rowStep_height row (fun item h => hdisplay item (List.mem_of_mem_take h))
        (fun item h => hdepth item (List.mem_of_mem_take h)) _
    rw [rowStep]
    dsimp only
    by_cases hcenter : row.align = some (lit "center")
    · rw [if_pos hcenter, hmoved hitem, htallest, fmax_rat, ofRat_rat,
        rect_height_layoutNode (hdepth item hmem) (hdisplay item hmem)]
      refine and_congr_left fun _ => imp_congr_right fun _ => ?_
      rw [div_eq_zero_iff, or_iff_left two_ne_zero, max_eq_left_iff, sub_nonpos]
      exact ⟨fun h => ⟨fun _ => h, fun h => absurd h hend⟩, fun h => h.1 hcenter⟩
    · rw [if_neg hcenter, ih item (hdepth item hmem)]
      exact (and_iff_right fun _ => ⟨fun h => absurd h hcenter, fun h => absurd h hend⟩).symm

theorem layoutInlineChildren_consistent_iff :
    (∀ cell ∈ inFlow (layoutInlineChildren (layoutNode depth) node frame children).2, AllConsistent cell) ↔
      ∀ i item, (inFlow children)[i]? = some item →
        BoxesFit depth (inlineWidth depth frame.width (inFlow children) i item) item := by
  rw [layoutInlineChildren]
  dsimp only
  rw [inFlow_sweep_snd (still_inlineStep (still_layoutNode depth) _ _), forall_mem_sweep]
  refine forall_congr' fun i => forall_congr' fun item => imp_congr_right fun hitem => ?_
  have hmem := List.mem_of_getElem? hitem
  have hheight := hheights item (mem_inFlow.mp hmem).1
  have hdisplay := display_of_mem_inFlow hmem
  have htwins : List.Forall₂ (Twins depth) ((inFlow children).take i) ((inFlow children).take i) :=
    List.forall₂_same.mpr fun item h =>
      ⟨rfl, hheights item (mem_inFlow.mp (List.mem_of_mem_take h)).1⟩
  have hstate := sweep_inlineStep_shift htwins
    (fun item h => display_of_mem_inFlow (List.mem_of_mem_take h)) frame.x frame.y 0 frame.width
    ⟨0, 0, 0⟩
  simp only [InlineCursor.shift, zero_add] at hstate
  have hroom : frame.x + frame.width - (sweep (inlineStep (layoutNode depth) frame.x frame.width)
      ⟨frame.x, frame.y, frame.y⟩ ((inFlow children).take i)).1.x =
        inlineRoom depth frame.width (inFlow children) i := by
    rw [hstate, inlineRoom]
    ring
  have hbegun : frame.x < (sweep (inlineStep (layoutNode depth) frame.x frame.width)
      ⟨frame.x, frame.y, frame.y⟩ ((inFlow children).take i)).1.x ↔
        inlineRoom depth frame.width (inFlow children) i < frame.width := by
    rw [← hroom]
    constructor <;> intro h <;> linarith
  generalize (sweep (inlineStep (layoutNode depth) frame.x frame.width)
    ⟨frame.x, frame.y, frame.y⟩ ((inFlow children).take i)).1 = s at *
  rw [inlineStep]
  by_cases htext : isInlineText item.value.still = true
  · have hdom : item.value.dom.type = .text := by
      rw [isInlineText, Bool.and_eq_true, beq_iff_eq, beq_iff_eq] at htext
      exact htext.2
    have hstill {x y width height : ℚ} {fragments : List (TextFragment ℚ)} (node : LayoutFields ℚ) :
        (node.setText x y width fragments height).still = node.still := LayoutFields.still_setText
    rw [if_pos htext, ← boxesFit_modifyValue hstill hheight]
    refine allConsistent_iff_boxesFit ?_ (Or.inr ?_) _
    · rwa [height_of_skeleton_eq (skeleton_modifyValue hstill item)]
    · show (item.value.setText _ _ _ _ _).dom.type = .text
      rw [LayoutFields.dom_setText, hdom]
  · obtain ⟨depth, rfl⟩ := exists_eq_succ_of_height_le hheight
    rw [if_neg htext, hroom]
    dsimp only
    simp only [rect_width_layoutNode hdisplay, hbegun, inlineWidth]
    split
    · have hagain := boxesFit_layoutNode (depth + 1) hheight s.x s.y
        (inlineRoom (depth + 1) frame.width (inFlow children) i) frame.width
      rw [← hagain]
      refine ih _ ?_ _ _ _
      rwa [height_of_skeleton_eq (skeleton_layoutNode _ _ _ _ _)]
    · exact ih item hheight _ _ _

/-- The children in the flow. -/
theorem flow_consistent_iff :
    (∀ cell ∈ inFlow (flow (layoutNode depth) node frame children).2, AllConsistent cell) ↔
      (node.display = .flex → ¬ isColumn node →
          RowAligned depth (rowOf node frame (rowItems node children))
            (inFlow (ordered node children))) ∧
        ∀ i item, (inFlow children)[i]? = some item →
          BoxesFit depth (handedWidth depth node frame children i item) item := by
  have hordered (child : LayoutNode ℚ) (hchild : child ∈ ordered node children) :
      child.height ≤ depth := hheights child (mem_ordered.mp hchild)
  have hmem {P : LayoutNode ℚ → Prop} {items : List (LayoutNode ℚ)} :
      (∀ item ∈ inFlow (ordered node items), P item) ↔ ∀ item ∈ inFlow items, P item := by
    simp only [mem_inFlow, mem_ordered]
  by_cases hflex : node.display = .flex
  · simp only [handedWidth, if_pos hflex]
    rw [flow_flex hflex, layoutFlexChildren, forall_prop_of_true hflex]
    by_cases hnil : inFlow children = []
    · have hnil' : inFlow (ordered node children) = [] := by
        rw [inFlow_ordered, hnil]
        unfold ordered
        split <;> rfl
      rw [if_pos hnil, hnil, hnil']
      exact iff_of_true (fun _ h => absurd h List.not_mem_nil)
        ⟨fun _ i item h => absurd (List.mem_of_getElem? h) List.not_mem_nil,
          fun i item h => absurd (List.mem_of_getElem? h) List.not_mem_nil⟩
    rw [if_neg hnil]
    by_cases hcolumn : isColumn node
    · simp only [if_pos hcolumn]
      rw [hmem, columnFlow_consistent_iff ih hordered, hmem, forall_getElem?_iff]
      exact (and_iff_right fun h => absurd hcolumn h).symm
    · simp only [if_neg hcolumn]
      have hrow := rowFlow_consistent_iff ih hordered node frame
      dsimp only at hrow
      rw [hmem, hrow, hmem, forall_getElem?_iff
        (P := fun item => BoxesFit depth (itemWidth _ item.value.still) item)]
      exact and_congr_left fun _ => ⟨fun h _ => h, fun h => h hcolumn⟩
  · rw [and_iff_right fun h => absurd h hflex]
    simp only [handedWidth, if_neg hflex]
    rw [flow, if_neg hflex]
    by_cases hgrid : node.display = .grid
    · simp only [if_pos hgrid]
      exact layoutGridChildren_consistent_iff ih hheights node frame
    · simp only [if_neg hgrid]
      split
      · exact layoutInlineChildren_consistent_iff ih hheights node frame
      · rw [blockFlow_consistent_iff ih hheights frame, forall_getElem?_iff]

omit ih hheights in
/-- The children that the loops pass over are the same after the flow. -/
theorem skipped_flow {P : LayoutNode ℚ → Prop} :
    (∀ cell ∈ (flow (layoutNode depth) node frame children).2, skipped cell = true → P cell) ↔
      ∀ child ∈ children, skipped child = true → P child := by
  let passed (child : LayoutNode ℚ) : Option (LayoutNode ℚ) :=
    if skipped child then some child else none
  have hpassed (child : LayoutNode ℚ) {other : LayoutNode ℚ}
      (hstill : other.value.still = child.value.still) (hskip : skipped child = false) :
      passed other = passed child := by
    have hother : skipped other = false := (congrArg passedOver hstill).trans hskip
    dsimp only [passed]
    rw [hother, hskip]
    rfl
  have hflow := map_flow (still_layoutNode depth)
    (fun x y width child hskip => hpassed child (still_layoutNode depth x y width child) hskip)
    (fun _ child hskip => hpassed child rfl hskip)
    (fun _ _ _ _ _ child hskip => hpassed child LayoutFields.still_setText hskip) node frame children
  have hall {cells : List (LayoutNode ℚ)} :
      (∀ cell ∈ cells, skipped cell = true → P cell) ↔
        ∀ cell ∈ cells.map passed, ∀ child ∈ cell, P child := by
    rw [List.forall_mem_map]
    refine forall_congr' fun cell => imp_congr_right fun _ => ?_
    dsimp only [passed]
    cases skipped cell with
    | true => simp
    | false => simp
  rw [hall, hall, hflow]

/-- All children. -/
theorem children_consistent_iff (x y height : ℚ) :
    (∀ cell ∈ (flow (layoutNode depth) node frame children).2.map
        (absoluteStep (layoutNode depth) x y height frame.width), AllConsistent cell) ↔
      (∀ cell ∈ inFlow (flow (layoutNode depth) node frame children).2, AllConsistent cell) ∧
        ∀ child ∈ children, skipped child = true → BoxesFit depth frame.width child := by
  have hstays {cell : LayoutNode ℚ} (hskip : skipped cell = false) :
      absoluteStep (layoutNode depth) x y height frame.width cell = cell := by
    rw [absoluteStep, (passedOver_eq_false_iff.mp hskip).1]
    rfl
  have hpassed (child : LayoutNode ℚ) (hchild : child ∈ children)
      (hskip : skipped child = true) :
      AllConsistent (absoluteStep (layoutNode depth) x y height frame.width child) ↔
        BoxesFit depth frame.width child := by
    unfold absoluteStep
    split
    · exact ih child (hheights child hchild) _ _ _
    next hpositioned =>
      refine allConsistent_iff_boxesFit (hheights child hchild) (Or.inl ?_) _
      by_contra hdisplay
      have hkept := passedOver_eq_false_iff.mpr ⟨Bool.eq_false_iff.mpr hpositioned, hdisplay⟩
      exact Bool.false_ne_true (hkept.symm.trans hskip)
  rw [List.forall_mem_map]
  constructor
  · intro hall
    refine ⟨fun cell hcell => ?_, fun child hchild hskip => ?_⟩
    · obtain ⟨hmem, hskip⟩ := mem_inFlow.mp hcell
      rw [← hstays hskip]
      exact hall cell hmem
    · rw [← hpassed child hchild hskip]
      exact (skipped_flow node frame).mp (fun cell hcell _ => hall cell hcell) child hchild hskip
  · rintro ⟨hflow, hskipped⟩ cell hcell
    cases hskip : skipped cell with
    | false =>
      rw [hstays hskip]
      exact hflow cell (mem_inFlow.mpr ⟨hcell, hskip⟩)
    | true =>
      exact (skipped_flow node frame).mpr (fun child hchild hskip =>
        (hpassed child hchild hskip).mpr (hskipped child hchild hskip)) cell hcell hskip

end Flow

/-- **One call of `layout_node`**: all elements are consistent after it if and only if the
conditions hold. -/
theorem allConsistent_layoutNode_iff (depth : ℕ) {item : LayoutNode ℚ}
    (hdepth : item.height ≤ depth) (x y available : ℚ) :
    AllConsistent (layoutNode depth x y available item) ↔ BoxesFit depth available item := by
  induction depth generalizing item x y available with
  | zero => exact Iff.rfl
  | succ depth ih =>
    obtain ⟨node, children⟩ := item
    have hheights := Rose.height_node_le_succ.mp hdepth
    by_cases hcontents : hasContents node = true
    · have hdisplay := (hasContents_iff.mp hcontents).1
      have hwidth := flow_width_eq_iff node.still (frame node.style x y available) hheights
        (frame_width_nonneg node.style x y available)
      have hframe : frame node.style x y available = (frame node.style 0 0 available).shift x y := by
        rw [← frame_shift, zero_add, zero_add]
      rw [layoutNode_eq hcontents, BoxesFit, if_pos hcontents]
      dsimp only
      rw [allConsistent_node, children_consistent_iff (fun item h x y available => ih h x y available)
        hheights, flow_consistent_iff (fun item h x y available => ih h x y available) hheights,
        and_assoc, BoxConsistent]
      refine and_congr (imp_congr_right fun _ => ?_) ?_
      · rw [forall_prop_of_true (show node.display ≠ .none from hdisplay),
          consistent_placed_iff rfl rfl]
        refine hwidth.trans ?_
        rw [hframe]
        exact Iff.rfl
      · rw [hframe]
        exact Iff.rfl
    · rw [layoutNode_of_not_hasContents (Bool.eq_false_iff.mpr hcontents), BoxesFit,
        if_neg hcontents, allConsistent_node]
      exact and_iff_right (boxConsistent_layoutLeaf (Bool.eq_false_iff.mpr hcontents) x y available)

/-- **The boxes of all elements are consistent if and only if** no item of a column is wider than
the column, and no element is moved down to the centre or the bottom of a row. -/
theorem boxes_consistent_iff (root : LayoutNode ℚ) (width : ℚ) :
    (∀ node ∈ (layout root width).preorder, BoxConsistent node) ↔
      BoxesFit root.height width root :=
  allConsistent_layoutNode_iff root.height le_rfl 0 0 width

/-- A row whose items are centred, with a high item and a low one. -/
def centredRow : LayoutNode ℚ :=
  element (lit "div") .flex [(lit "align-items", lit "center")]
    [element (lit "p") .block [(lit "height", lit "40px")] [],
      element (lit "p") .block [(lit "height", lit "20px")] []]

/-- The rectangle of the low item is moved down by ten pixels, and its content box is not. -/
theorem not_forall_boxConsistent :
    ¬∀ (root : LayoutNode ℚ) (width : ℚ),
      ∀ node ∈ (layout root width).preorder, BoxConsistent node := by
  intro h
  exact absurd (h centredRow 100) (by decide +kernel)

end Aetheris.Layout
