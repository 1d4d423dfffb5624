import Aetheris.Layout.Contents

/-!
# The flow of the children

What a layout keeps, and what it makes of the children in the flow: the steps of the loops change
nothing of a child but its place and its texts (`still_layoutNode`), so that a loop passes over the
same children as before and the ones in the flow are swept as if they were alone.  Every node that
is displayed is placed with the size of its content (`layoutNode_placed`).
-/

namespace Aetheris.Layout

open Dom Style Length

variable {F : Type} [Length F]

/-! ## The children in the flow -/

theorem mem_inFlow {children : List (LayoutNode F)} {item : LayoutNode F} :
    item ∈ inFlow children ↔ item ∈ children ∧ skipped item = false := by
  rw [inFlow, List.mem_filter, Bool.not_eq_true']

theorem display_of_mem_inFlow {children : List (LayoutNode F)} {item : LayoutNode F}
    (h : item ∈ inFlow children) : item.value.display ≠ .none :=
  (passedOver_eq_false_iff.mp (mem_inFlow.mp h).2).2

omit [Length F] in
theorem mem_ordered {α : Type} {node : LayoutFields F} {items : List α} {a : α} :
    a ∈ ordered node items ↔ a ∈ items := by
  unfold ordered
  split
  · exact List.mem_reverse
  · exact Iff.rfl

section Flow

variable {recurse : Recurse F} {node : LayoutFields F}

theorem flow_flex (h : node.display = .flex) (frame : Frame F) (children : List (LayoutNode F)) :
    flow recurse node frame children = layoutFlexChildren recurse node frame children := if_pos h

theorem flow_grid (h : node.display = .grid) (frame : Frame F) (children : List (LayoutNode F)) :
    flow recurse node frame children = layoutGridChildren recurse node frame children := by
  rw [flow, if_neg fun hflex => LayoutDisplay.noConfusion (h.symm.trans hflex), if_pos h]

theorem flow_block (hflex : node.display ≠ .flex) (hgrid : node.display ≠ .grid) (frame : Frame F)
    {children : List (LayoutNode F)}
    (hinline : ∀ item ∈ children, isInline item.value.still = false) :
    flow recurse node frame children = blockFlow recurse frame children := by
  rw [flow, if_neg hflex, if_neg hgrid, if_neg]
  rw [List.any_eq_true]
  rintro ⟨item, hitem, htrue⟩
  exact Bool.false_ne_true ((hinline item hitem).symm.trans htrue)

end Flow

section Steps

variable {recurse : Recurse F}
  (hstill : ∀ x y width item, (recurse x y width item).value.still = item.value.still)

theorem skipped_eq {item : LayoutNode F} {child : LayoutFields F}
    (h : item.value.still = child) : skipped item = passedOver child := congrArg passedOver h

include hstill

theorem still_blockStep (x width cursorY : F) (item : LayoutNode F) :
    (blockStep recurse x width cursorY item).2.value.still = item.value.still := hstill _ _ _ _

theorem still_inlineStep (x width : F) (s : InlineCursor F) (item : LayoutNode F) :
    (inlineStep recurse x width s item).2.value.still = item.value.still := by
  unfold inlineStep
  split
  · show (LayoutFields.setText _ _ _ _ _ item.value).still = _
    unfold LayoutFields.setText
    split <;> rfl
  · dsimp only
    split
    · exact (hstill _ _ _ _).trans (hstill _ _ _ _)
    · exact hstill _ _ _ _

theorem still_columnStep (x width gap : F) (s : F × F) (item : LayoutNode F) :
    (columnStep recurse x width gap s item).2.value.still = item.value.still := hstill _ _ _ _

theorem still_rowStep (row : FlexRow F) (s : F × F) (item : LayoutNode F) :
    (rowStep recurse row s item).2.value.still = item.value.still := by
  unfold rowStep
  dsimp only
  split
  · exact hstill _ _ _ _
  · exact hstill _ _ _ _

theorem still_gridStep (x y gapX gapY : F) (columns : List F) (s : ℕ × List F)
    (item : LayoutNode F) :
    (gridStep recurse x y gapX gapY columns s item).2.value.still = item.value.still :=
  hstill _ _ _ _

/-! ### The children in the flow -/

omit hstill in
/-- The children in the flow are swept as if they were alone. -/
theorem inFlow_sweep {σ : Type} {step : σ → LayoutNode F → σ × LayoutNode F}
    (hstep : ∀ s item, (step s item).2.value.still = item.value.still) (s : σ)
    (children : List (LayoutNode F)) :
    sweep step s (inFlow children) =
      ((sweep (skipping skipped step) s children).1,
        inFlow (sweep (skipping skipped step) s children).2) :=
  filter_sweep (p := skipped) (fun s item => skipped_eq (hstep s item)) s children

omit hstill in
theorem inFlow_sweep_snd {σ : Type} {step : σ → LayoutNode F → σ × LayoutNode F}
    (hstep : ∀ s item, (step s item).2.value.still = item.value.still) (s : σ)
    (children : List (LayoutNode F)) :
    inFlow (sweep (skipping skipped step) s children).2 = (sweep step s (inFlow children)).2 := by
  rw [inFlow_sweep hstep]

/-- They are not touched when the positioned children are laid out. -/
theorem inFlow_absolute (x y height available : F) (children : List (LayoutNode F)) :
    inFlow (children.map (absoluteStep recurse x y height available)) = inFlow children := by
  induction children with
  | nil => rfl
  | cons item children ih =>
    have hstep : skipped (absoluteStep recurse x y height available item) = skipped item ∧
        (skipped item = false → absoluteStep recurse x y height available item = item) := by
      unfold absoluteStep
      split
      next hpositioned =>
        refine ⟨congrArg passedOver (hstill _ _ _ _), fun hskip => ?_⟩
        rw [(passedOver_eq_false_iff.mp hskip).1] at hpositioned
        exact absurd hpositioned Bool.false_ne_true
      · exact ⟨rfl, fun _ => rfl⟩
    rw [inFlow, inFlow] at ih ⊢
    rw [List.map_cons, List.filter_cons, List.filter_cons, hstep.1, ih]
    cases hskip : skipped item with
    | true => rfl
    | false => rw [hstep.2 hskip]

end Steps

/-! ## The recursion -/

/-- A layout changes nothing of a node but its place and its texts. -/
theorem still_layoutNode (depth : ℕ) (x y available : F) (item : LayoutNode F) :
    (layoutNode depth x y available item).value.still = item.value.still := by
  cases depth with
  | zero => rfl
  | succ depth =>
    obtain ⟨node, children⟩ := item
    by_cases hcontents : hasContents node = true
    · rw [layoutNode_eq hcontents]
      rfl
    · rw [layoutNode_of_not_hasContents (Bool.eq_false_iff.mpr hcontents)]
      exact LayoutFields.still_layoutLeaf

/-- The children in the flow after a layout. -/
theorem inFlow_layoutNode {node : LayoutFields F} (h : hasContents node = true)
    (depth : ℕ) (x y available : F) (children : List (LayoutNode F)) :
    inFlow (layoutNode (depth + 1) x y available (.node node children)).children =
      inFlow (flow (layoutNode depth) node.still (frame node.style x y available) children).2 := by
  rw [layoutNode_eq h]
  exact inFlow_absolute (still_layoutNode depth) _ _ _ _ _

omit [Length F] in
/-- An `img` element. -/
def isImage (node : LayoutFields F) : Prop := node.dom.type = .element ∧ node.dom.name = lit "img"

instance (node : LayoutFields F) : Decidable (isImage node) := inferInstanceAs (Decidable (_ ∧ _))

/-- The width of a box, the width of its content box, and the height. -/
def contentSize (depth : ℕ) (x y available : F) (node : LayoutFields F)
    (children : List (LayoutNode F)) : F × F × F :=
  let frame := frame node.style x y available
  if isImage node then
    let size := imageSize node available frame.width
    (size.1, size.1, size.2)
  else if node.dom.type = .text then
    (frame.width, frame.width, textHeight node.style frame.y
      (textLayout node.dom.data frame.x frame.y frame.width node.style))
  else
    (frame.width, (flow (layoutNode depth) node frame children).1.2,
      contentsHeight depth frame node children)

/-- **A node that is displayed is placed with the size of its content.** -/
theorem layoutNode_placed {node : LayoutFields F} (h : node.display ≠ .none) (depth : ℕ)
    (x y available : F) (children : List (LayoutNode F)) :
    let size := contentSize depth x y available node.still children
    let box := placed node.style (frame node.style x y available) x y available size.1 size.2.1
      size.2.2
    (layoutNode (depth + 1) x y available (.node node children)).value.rect = box.1 ∧
      (layoutNode (depth + 1) x y available (.node node children)).value.box = box.2 := by
  have hstill : (isImage node.still ↔ isImage node) ∧
      (node.still.dom.type = .text ↔ node.dom.type = .text) := ⟨Iff.rfl, Iff.rfl⟩
  by_cases hcontents : hasContents node = true
  · obtain ⟨-, himage, htext⟩ := hasContents_iff.mp hcontents
    rw [layoutNode_eq hcontents, contentSize, if_neg (mt hstill.1.mp himage),
      if_neg (mt hstill.2.mp htext)]
    exact ⟨rfl, rfl⟩
  · rw [layoutNode_of_not_hasContents (Bool.eq_false_iff.mpr hcontents), layoutLeaf, if_neg h,
      contentSize]
    by_cases himage : node.dom.type = .element ∧ node.dom.name = lit "img"
    · rw [if_pos himage, if_pos (hstill.1.mpr himage)]
      exact ⟨rfl, rfl⟩
    · have htext : node.dom.type = .text := by
        by_contra htext
        exact hcontents (hasContents_iff.mpr ⟨h, himage, htext⟩)
      rw [if_neg himage, if_neg (mt hstill.1.mp himage), if_pos (hstill.2.mpr htext)]
      exact ⟨rfl, rfl⟩

section Placed

variable (style : StyleProperties) (frame : Frame F) (x y available width boxWidth height : F)

/-- The size of the content box is that which was computed, whatever the position is. -/
theorem placed_height :
    (placed style frame x y available width boxWidth height).2.content.height = height := by
  unfold placed
  split <;> rfl

theorem placed_width :
    (placed style frame x y available width boxWidth height).2.content.width = boxWidth := by
  unfold placed
  split <;> rfl

theorem placed_rect_width :
    (placed style frame x y available width boxWidth height).1.width =
      width + frame.padding.left + frame.padding.right + frame.border.left + frame.border.right := by
  unfold placed
  split <;> rfl

theorem placed_rect_height :
    (placed style frame x y available width boxWidth height).1.height =
      height + frame.padding.top + frame.padding.bottom + frame.border.top +
        frame.border.bottom := by
  unfold placed
  split <;> rfl

theorem placed_edges :
    (placed style frame x y available width boxWidth height).2.margin = frame.margin ∧
      (placed style frame x y available width boxWidth height).2.padding = frame.padding ∧
      (placed style frame x y available width boxWidth height).2.border = frame.border := by
  unfold placed
  split <;> exact ⟨rfl, rfl, rfl⟩

end Placed

/-! ## Rational lengths -/

/-- How far a node is moved by its `left`, `right`, `top` and `bottom`. -/
def relativeOffset (style : StyleProperties) (available : ℚ) : ℚ × ℚ :=
  if style.get (lit "position") = some (lit "relative") then
    (parseLength (style.get (lit "left")) 0 available -
        parseLength (style.get (lit "right")) 0 available,
      parseLength (style.get (lit "top")) 0 available -
        parseLength (style.get (lit "bottom")) 0 available)
  else (0, 0)

/-- A node that is not relative is not moved. -/
theorem relativeOffset_of_ne {style : StyleProperties}
    (h : style.get (lit "position") ≠ some (lit "relative")) (available : ℚ) :
    relativeOffset style available = (0, 0) := if_neg h

/-- A node is placed, and then moved. -/
theorem placed_eq (style : StyleProperties) (frame : Frame ℚ)
    (x y available width boxWidth height : ℚ) :
    placed style frame x y available width boxWidth height =
      let offset := relativeOffset style available
      ({ x := x + frame.margin.left + offset.1
         y := y + frame.margin.top + offset.2
         width := width + frame.padding.left + frame.padding.right + frame.border.left +
          frame.border.right
         height := height + frame.padding.top + frame.padding.bottom + frame.border.top +
          frame.border.bottom },
        { content := ⟨frame.x + offset.1, frame.y + offset.2, boxWidth, height⟩
          margin := frame.margin
          padding := frame.padding
          border := frame.border }) := by
  rw [placed, relativeOffset]
  split
  · rfl
  · simp only [add_zero]

section Laid

variable {item : LayoutNode ℚ} (h : item.value.display ≠ .none) (depth : ℕ)
  (x y available : ℚ)

include h

theorem rect_x_layoutNode : (layoutNode (depth + 1) x y available item).value.rect.x =
    x + (resolveEdges item.value.style (lit "margin") available).left +
      (relativeOffset item.value.style available).1 := by
  obtain ⟨node, children⟩ := item
  rw [(layoutNode_placed (show node.display ≠ .none from h) depth x y available children).1, placed_eq]
  rfl

theorem rect_y_layoutNode : (layoutNode (depth + 1) x y available item).value.rect.y =
    y + (resolveEdges item.value.style (lit "margin") available).top +
      (relativeOffset item.value.style available).2 := by
  obtain ⟨node, children⟩ := item
  rw [(layoutNode_placed (show node.display ≠ .none from h) depth x y available children).1, placed_eq]
  rfl

theorem margin_layoutNode : (layoutNode (depth + 1) x y available item).value.box.margin =
    resolveEdges item.value.style (lit "margin") available := by
  obtain ⟨node, children⟩ := item
  rw [(layoutNode_placed (show node.display ≠ .none from h) depth x y available children).2, placed_eq]
  rfl

end Laid

/-- No content box has a negative width. -/
theorem frame_width_nonneg (style : StyleProperties) (x y available : ℚ) :
    0 ≤ (frame style x y available).width := by
  simp only [frame, fmax_rat, fmin_rat]
  refine le_max_of_le_left ?_
  have hwidth (specified rest : ℚ) : 0 ≤ if 0 ≤ specified then specified else max 0 rest := by
    split
    · assumption
    · exact le_max_left _ _
  split
  next hmax => exact le_min (hwidth _ _) hmax
  · exact hwidth _ _

/-! ## Boxes -/

/-- A node of a layout tree before any layout. -/
def unlaid (dom : DomNode) (display : LayoutDisplay) (properties : List (Bytes × Bytes)) :
    LayoutFields F where
  domNode := 0
  dom := dom
  style := properties.foldl (fun style property => style.set property.1 property.2) {}
  display := display
  rect := default
  box := default
  textFragments := []
  image := none
  backgroundImage := none
  parent := none

/-- An element with these properties. -/
def element (name : Bytes) (display : LayoutDisplay) (properties : List (Bytes × Bytes))
    (children : List (LayoutNode F)) : LayoutNode F :=
  .node (unlaid { type := .element, name := name } display properties) children

end Aetheris.Layout
