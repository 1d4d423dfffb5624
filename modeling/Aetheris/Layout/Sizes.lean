import Aetheris.Layout.Flow

/-!
# Least and greatest sizes

`layout_node` keeps the size of a box within `min-width`, `max-width`, `min-height` and
`max-height`, in three places: for the width, for the height, and not at all for the size that an
image has by itself.  The size as it should be is the one without bounds, brought within them, of
which the lower one wins; each place is compared with it.
-/

namespace Aetheris.Layout

open Dom Style Length

/-! ## Bounds -/

/-- A size within its bounds; there is no upper one if it is negative, and the lower one wins. -/
def minMax (low high size : ℚ) : ℚ := max low (if 0 ≤ high then min high size else size)

/-- A size that is within its bounds. -/
def WithinBounds (low high size : ℚ) : Prop := low ≤ size ∧ (0 ≤ high → size ≤ max low high)

theorem minMax_eq_self_iff {low high size : ℚ} :
    minMax low high size = size ↔ WithinBounds low high size := by
  rw [minMax, WithinBounds]
  by_cases hhigh : 0 ≤ high
  · rw [if_pos hhigh, forall_prop_of_true hhigh]
    constructor
    · intro heq
      refine ⟨heq ▸ le_max_left _ _, ?_⟩
      calc size = max low (min high size) := heq.symm
        _ ≤ max low high := max_le_max_left _ (min_le_left _ _)
    · rintro ⟨hlow, hsize⟩
      rcases le_total size high with hle | hle
      · rw [min_eq_right hle, max_eq_right hlow]
      · rcases le_max_iff.mp hsize with hsize | hsize
        · obtain rfl : size = low := le_antisymm hsize hlow
          rw [min_eq_left hle, max_eq_left hle]
        · rw [min_eq_right hsize, max_eq_right hlow]
  · rw [if_neg hhigh, max_eq_right_iff]
    exact (and_iff_left fun h => absurd h hhigh).symm

/-- With the upper bound winning the size is the same if the bounds are not crossed. -/
theorem min_max_eq_minMax_iff {low high size : ℚ} :
    (if 0 ≤ high then min (max size low) high else max size low) = minMax low high size ↔
      (0 ≤ high → low ≤ high) := by
  rw [minMax]
  by_cases hhigh : 0 ≤ high
  · rw [if_pos hhigh, if_pos hhigh, forall_prop_of_true hhigh]
    constructor
    · intro heq
      calc low ≤ max low (min high size) := le_max_left _ _
        _ = min (max size low) high := heq.symm
        _ ≤ high := min_le_right _ _
    · intro hle
      rw [max_min_distrib_left, max_eq_right hle, min_comm, max_comm]
  · rw [if_neg hhigh, if_neg hhigh, max_comm]
    exact iff_of_true rfl fun h => absurd h hhigh

/-! ## Sizes without bounds -/

/-- The width or the height that an image has by itself. -/
def intrinsicLength (node : LayoutFields ℚ) (name : Bytes) (available : ℚ) : ℚ :=
  (node.dom.attributeValue name).elim 0 fun value => parseLength (some value) 0 available

/-- The edges of a box, from the left to the right. -/
def horizontalEdges (style : StyleProperties) (available : ℚ) : ℚ :=
  (resolveEdges style (lit "margin") available).left +
    (resolveEdges style (lit "margin") available).right +
    (resolveEdges style (lit "padding") available).left +
    (resolveEdges style (lit "padding") available).right +
    (resolveEdges style (lit "border") available).left +
    (resolveEdges style (lit "border") available).right

/-- The width without its bounds: what is specified, or what an image has, or what is left. -/
def tentativeWidth (node : LayoutFields ℚ) (available : ℚ) : ℚ :=
  if 0 ≤ resolveDimension node.style (lit "width") available (-1) then
    resolveDimension node.style (lit "width") available (-1)
  else if isImage node ∧ 0 < intrinsicLength node (lit "width") available then
    intrinsicLength node (lit "width") available
  else max 0 (available - horizontalEdges node.style available)

/-- The width within its bounds. -/
def boundedWidth (node : LayoutFields ℚ) (available : ℚ) : ℚ :=
  minMax (resolveDimension node.style (lit "min-width") available 0)
    (resolveDimension node.style (lit "max-width") available (-1)) (tentativeWidth node available)

/-- The two numbers of `aspect-ratio`. -/
def ratioParts (ratio : Bytes) : ℚ × ℚ :=
  let value (text : Bytes) : ℚ := (strtof text : Option (ℚ × Bytes)).elim 0 Prod.fst
  (value ratio, (find ratio (lit "/")).elim 1 fun slash => value (ratio.drop (slash + 1)))

/-- `aspect-ratio`: the height of a box of this width. -/
def ratioHeight (style : StyleProperties) (width : ℚ) : Option ℚ :=
  (style.get (lit "aspect-ratio")).bind fun ratio =>
    if 0 < (ratioParts ratio).1 ∧ 0 < (ratioParts ratio).2 then
      some (width * (ratioParts ratio).2 / (ratioParts ratio).1)
    else none

/-- The height without its bounds: what is specified, or what an image has or the ratio gives, or
the height of the content. -/
def tentativeHeight (node : LayoutFields ℚ) (available width contentHeight : ℚ) : ℚ :=
  let specified := parseLength (node.style.get (lit "height")) (-1) width
  if 0 ≤ specified then specified
  else if isImage node then
    let intrinsicWidth := intrinsicLength node (lit "width") available
    let intrinsicHeight := intrinsicLength node (lit "height") available
    if 0 < intrinsicHeight then intrinsicHeight
    else width * if 0 < intrinsicWidth ∧ 0 < intrinsicHeight then intrinsicHeight / intrinsicWidth
      else 3 / 4
  else (ratioHeight node.style width).getD contentHeight

/-- `min-height` -/
def minHeight (style : StyleProperties) (width : ℚ) : ℚ :=
  parseLength (style.get (lit "min-height")) 0 width

/-- `max-height` -/
def maxHeight (style : StyleProperties) (width : ℚ) : ℚ :=
  parseLength (style.get (lit "max-height")) (-1) width

/-- The height within its bounds. -/
def boundedHeight (node : LayoutFields ℚ) (available contentHeight : ℚ) : ℚ :=
  minMax (minHeight node.style (boundedWidth node available))
    (maxHeight node.style (boundedWidth node available))
    (tentativeHeight node available (boundedWidth node available) contentHeight)

/-- A box with the sizes within their bounds. -/
structure Sized (node : LayoutFields ℚ) (available contentHeight : ℚ) (laid : LayoutFields ℚ) :
    Prop where
  width : laid.box.content.width = boundedWidth node available
  height : laid.box.content.height = boundedHeight node available contentHeight
  rect_width : laid.rect.width = boundedWidth node available + laid.box.padding.left +
    laid.box.padding.right + laid.box.border.left + laid.box.border.right
  rect_height : laid.rect.height = boundedHeight node available contentHeight +
    laid.box.padding.top + laid.box.padding.bottom + laid.box.border.top + laid.box.border.bottom

/-! ## Sizes in the code -/

theorem frame_width (style : StyleProperties) (x y available : ℚ) :
    (frame style x y available).width =
      minMax (resolveDimension style (lit "min-width") available 0)
        (resolveDimension style (lit "max-width") available (-1))
        (if 0 ≤ resolveDimension style (lit "width") available (-1) then
          resolveDimension style (lit "width") available (-1)
        else max 0 (available - horizontalEdges style available)) := by
  simp only [frame, fmax_rat, fmin_rat, minMax, ofRat_rat]
  rw [max_comm]
  congr 1
  split
  · exact min_comm _ _
  · rfl

/-- A box that is no image is within its bounds from the left to the right. -/
theorem frame_width_eq {node : LayoutFields ℚ} (h : ¬ isImage node) (x y available : ℚ) :
    (frame node.style x y available).width = boundedWidth node available := by
  rw [frame_width, boundedWidth, tentativeWidth]
  congr 1
  rw [if_neg fun himage : _ ∧ _ => h himage.1]

/-- The size of an image: only a width that is specified, or none, is kept within its bounds. -/
theorem imageSize_eq {node : LayoutFields ℚ} (h : isImage node) (x y available : ℚ) :
    let width :=
      if resolveDimension node.style (lit "width") available (-1) < 0 ∧
          0 < intrinsicLength node (lit "width") available then
        intrinsicLength node (lit "width") available
      else boundedWidth node available
    imageSize node available (frame node.style x y available).width =
      (width, tentativeHeight node available width 0) := by
  have hwidth : (if resolveDimension node.style (lit "width") available (-1) < 0 ∧
        0 < intrinsicLength node (lit "width") available then
        intrinsicLength node (lit "width") available
      else (frame node.style x y available).width) =
      if resolveDimension node.style (lit "width") available (-1) < 0 ∧
          0 < intrinsicLength node (lit "width") available then
        intrinsicLength node (lit "width") available
      else boundedWidth node available := by
    split
    · rfl
    next hno =>
      rw [frame_width, boundedWidth, tentativeWidth]
      congr 1
      split
      · rfl
      next hspecified =>
        rw [if_neg fun himage : _ ∧ _ => hno ⟨not_le.mp hspecified, himage.2⟩]
  dsimp only
  rw [← hwidth, tentativeHeight, if_pos h]
  rfl

/-- The height of a box that is no image: the upper bound wins. -/
theorem blockHeight_eq {node : LayoutFields ℚ} (h : ¬ isImage node)
    (available width contentHeight : ℚ) :
    blockHeight node.style width contentHeight =
      let low := minHeight node.style width
      let high := maxHeight node.style width
      let height := tentativeHeight node available width contentHeight
      if 0 ≤ high then min (max height low) high else max height low := by
  have hheight {height height' : ℚ} (heq : height = height') :
      (if 0 ≤ maxHeight node.style width then
          min (max height (minHeight node.style width)) (maxHeight node.style width)
        else max height (minHeight node.style width)) =
      if 0 ≤ maxHeight node.style width then
          min (max height' (minHeight node.style width)) (maxHeight node.style width)
        else max height' (minHeight node.style width) := by
    rw [heq]
  simp only [blockHeight, fmax_rat, fmin_rat]
  refine hheight ?_
  rw [tentativeHeight, ratioHeight, if_neg h]
  have hone : (-ofRat 1 : ℚ) = -1 := rfl
  rw [hone]
  generalize parseLength (node.style.get (lit "height")) (-1) width = specified
  cases node.style.get (lit "aspect-ratio") with
  | none => rfl
  | some ratio =>
    rw [Option.bind_some]
    change (if 0 < (ratioParts ratio).1 ∧ 0 < (ratioParts ratio).2 ∧ specified < 0 then
      width * (ratioParts ratio).2 / (ratioParts ratio).1
      else if 0 ≤ specified then specified else contentHeight) = _
    by_cases hspecified : 0 ≤ specified
    · rw [if_pos hspecified, if_neg fun hall => not_lt.mpr hspecified hall.2.2, if_pos hspecified]
    · rw [if_neg hspecified, if_neg hspecified]
      by_cases hratio : 0 < (ratioParts ratio).1 ∧ 0 < (ratioParts ratio).2
      · rw [if_pos hratio, if_pos ⟨hratio.1, hratio.2, not_le.mp hspecified⟩]
        rfl
      · rw [if_neg hratio, if_neg fun hall => hratio ⟨hall.1, hall.2.1⟩]
        rfl

/-- The width of the border box of a node, from the node alone. -/
def borderBoxWidth (node : LayoutFields ℚ) (available : ℚ) : ℚ :=
  let frame := frame node.style 0 0 available
  let width := if isImage node then (imageSize node available frame.width).1 else frame.width
  width + frame.padding.left + frame.padding.right + frame.border.left + frame.border.right

theorem rect_width_layoutNode {item : LayoutNode ℚ} (h : item.value.display ≠ .none)
    (depth : ℕ) (x y available : ℚ) :
    (layoutNode (depth + 1) x y available item).value.rect.width =
      borderBoxWidth item.value.still available := by
  obtain ⟨node, children⟩ := item
  rw [(layoutNode_placed (show node.display ≠ .none from h) depth x y available children).1, placed_rect_width, borderBoxWidth,
    contentSize]
  by_cases himage : isImage node.still
  · rw [if_pos himage]
    exact congrArg (fun width : ℚ => width + _ + _ + _ + _) (if_pos himage).symm
  · rw [if_neg himage]
    have hwidth : (if isImage node.still then
        (imageSize node.still available (frame node.style 0 0 available).width).1
        else (frame node.style 0 0 available).width) = (frame node.style 0 0 available).width :=
      if_neg himage
    split <;> exact congrArg (fun width : ℚ => width + _ + _ + _ + _) hwidth.symm

/-! ## When the sizes are within their bounds -/

/-- The greatest width of the items of a column. -/
theorem columnStep_width_le_iff (depth : ℕ) (x width gap bound : ℚ) (s : ℚ × ℚ)
    {items : List (LayoutNode ℚ)} (hitems : ∀ item ∈ items, item.value.display ≠ .none) :
    (sweep (columnStep (layoutNode (depth + 1)) x width gap) s items).1.2 ≤ bound ↔
      s.2 ≤ bound ∧ ∀ item ∈ items, borderBoxWidth item.value.still width ≤ bound := by
  induction items generalizing s with
  | nil => simp
  | cons item items ih =>
    obtain ⟨hitem, hitems⟩ := List.forall_mem_cons.mp hitems
    have hmax : (columnStep (layoutNode (depth + 1)) x width gap s item).1.2 =
        max s.2 (borderBoxWidth item.value.still width) := by
      rw [columnStep]
      dsimp only
      rw [fmax_rat, rect_width_layoutNode hitem]
    rw [sweep_cons, ih _ hitems, hmax, max_le_iff, List.forall_mem_cons, and_assoc]

theorem exists_eq_succ_of_height_le {α : Type} {t : Rose α} {depth : ℕ} (h : t.height ≤ depth) :
    ∃ d, depth = d + 1 := by
  obtain ⟨a, cs⟩ := t
  cases depth with
  | zero => exact absurd h (Nat.not_succ_le_zero _)
  | succ depth => exact ⟨depth, rfl⟩

/-- The content box of a node is as wide as the node says, unless an item of a column is wider. -/
theorem flow_width_eq_iff {depth : ℕ} (node : LayoutFields ℚ) (frame : Frame ℚ)
    {children : List (LayoutNode ℚ)} (hdepth : ∀ item ∈ children, item.height ≤ depth)
    (hwidth : 0 ≤ frame.width) :
    (flow (layoutNode depth) node frame children).1.2 = frame.width ↔
      (node.display = .flex → isColumn node →
        ∀ item ∈ inFlow children, borderBoxWidth item.value.still frame.width ≤ frame.width) := by
  by_cases hflex : node.display = .flex
  · rw [flow_flex hflex, layoutFlexChildren, forall_prop_of_true hflex]
    by_cases hnil : inFlow children = []
    · rw [if_pos hnil, hnil]
      exact iff_of_true rfl fun _ item hitem => absurd hitem List.not_mem_nil
    rw [if_neg hnil]
    obtain ⟨item, hitem⟩ := List.exists_mem_of_ne_nil _ hnil
    obtain ⟨depth, rfl⟩ := exists_eq_succ_of_height_le (hdepth item (mem_inFlow.mp hitem).1)
    by_cases hcolumn : isColumn node
    · have hitems : (∀ item ∈ inFlow (ordered node children),
          borderBoxWidth item.value.still frame.width ≤ frame.width) ↔
          ∀ item ∈ inFlow children,
            borderBoxWidth item.value.still frame.width ≤ frame.width := by
        simp only [mem_inFlow, mem_ordered]
      have hsweep := columnStep_width_le_iff depth frame.x frame.width (flexGap node frame.width)
        frame.width (frame.y, 0)
        fun item (hitem : item ∈ inFlow (ordered node children)) => display_of_mem_inFlow hitem
      rw [inFlow_sweep (still_columnStep (still_layoutNode _) _ _ _)] at hsweep
      rw [if_pos hcolumn, columnFlow, forall_prop_of_true hcolumn, ← hitems]
      dsimp only at hsweep ⊢
      rw [fmax_rat, max_eq_left_iff, hsweep]
      exact and_iff_right hwidth
    · rw [if_neg hcolumn]
      exact iff_of_true rfl fun h => absurd h hcolumn
  · refine iff_of_true ?_ fun h => absurd h hflex
    rw [flow, if_neg hflex]
    split
    · rw [layoutGridChildren]
      split <;> rfl
    · split <;> rfl

/-- What an image, a column and crossed bounds need. -/
def SizesFit (node : LayoutFields ℚ) (available : ℚ) (children : List (LayoutNode ℚ)) : Prop :=
  if isImage node then
    (resolveDimension node.style (lit "width") available (-1) < 0 →
        0 < intrinsicLength node (lit "width") available →
        WithinBounds (resolveDimension node.style (lit "min-width") available 0)
          (resolveDimension node.style (lit "max-width") available (-1))
          (intrinsicLength node (lit "width") available)) ∧
      WithinBounds (minHeight node.style (boundedWidth node available))
        (maxHeight node.style (boundedWidth node available))
        (tentativeHeight node available (boundedWidth node available) 0)
  else
    (0 ≤ maxHeight node.style (boundedWidth node available) →
        minHeight node.style (boundedWidth node available) ≤
          maxHeight node.style (boundedWidth node available)) ∧
      (node.display = .flex → isColumn node → ∀ item ∈ inFlow children,
        borderBoxWidth item.value.still (boundedWidth node available) ≤
          boundedWidth node available)

/-- A node that is placed with a size is sized if it is the size within the bounds. -/
theorem sized_placed_iff (node laid : LayoutFields ℚ) (available contentHeight : ℚ)
    {style : StyleProperties} {frame : Frame ℚ} {x y width boxWidth height : ℚ}
    (hrect : laid.rect = (placed style frame x y available width boxWidth height).1)
    (hbox : laid.box = (placed style frame x y available width boxWidth height).2) :
    Sized node available contentHeight laid ↔ width = boundedWidth node available ∧
      boxWidth = boundedWidth node available ∧
      height = boundedHeight node available contentHeight := by
  obtain ⟨-, hpadding, hborder⟩ := placed_edges style frame x y available width boxWidth height
  constructor
  · rintro ⟨hwidth, hheight, hrectWidth, hrectHeight⟩
    rw [hbox, placed_width] at hwidth
    rw [hbox, placed_height] at hheight
    rw [hrect, placed_rect_width, hbox, hpadding, hborder] at hrectWidth
    exact ⟨by linarith, hwidth, hheight⟩
  · rintro ⟨hwidth, hboxWidth, hheight⟩
    refine ⟨?_, ?_, ?_, ?_⟩
    · rw [hbox, placed_width, hboxWidth]
    · rw [hbox, placed_height, hheight]
    · rw [hrect, placed_rect_width, hbox, hpadding, hborder, hwidth]
    · rw [hrect, placed_rect_height, hbox, hpadding, hborder, hheight]

/-- The width of an image is within its bounds, or is the one that it has by itself. -/
theorem image_width_eq_iff {node : LayoutFields ℚ} (h : isImage node) (available : ℚ) :
    (if resolveDimension node.style (lit "width") available (-1) < 0 ∧
          0 < intrinsicLength node (lit "width") available then
        intrinsicLength node (lit "width") available
      else boundedWidth node available) = boundedWidth node available ↔
      (resolveDimension node.style (lit "width") available (-1) < 0 →
        0 < intrinsicLength node (lit "width") available →
        WithinBounds (resolveDimension node.style (lit "min-width") available 0)
          (resolveDimension node.style (lit "max-width") available (-1))
          (intrinsicLength node (lit "width") available)) := by
  by_cases hown : resolveDimension node.style (lit "width") available (-1) < 0 ∧
      0 < intrinsicLength node (lit "width") available
  · have htentative : tentativeWidth node available =
        intrinsicLength node (lit "width") available := by
      rw [tentativeWidth, if_neg (not_le.mpr hown.1), if_pos ⟨h, hown.2⟩]
    rw [if_pos hown, boundedWidth, htentative, eq_comm, minMax_eq_self_iff,
      forall_prop_of_true hown.1, forall_prop_of_true hown.2]
  · rw [if_neg hown]
    exact iff_of_true rfl fun hspecified hintrinsic => absurd ⟨hspecified, hintrinsic⟩ hown

/-- An image has no content. -/
theorem tentativeHeight_image {node : LayoutFields ℚ} (h : isImage node)
    (available width contentHeight contentHeight' : ℚ) :
    tentativeHeight node available width contentHeight =
      tentativeHeight node available width contentHeight' := by
  rw [tentativeHeight, tentativeHeight, if_pos h, if_pos h]

/-- **The size of a box is within its bounds exactly when** the size that an image has by itself is,
the bounds of the height of another box are not crossed, and no item of a column is wider than its
content. -/
theorem sized_iff (depth : ℕ) (x y available : ℚ) (node : LayoutFields ℚ)
    (children : List (LayoutNode ℚ)) (hdisplay : node.display ≠ .none)
    (htext : node.dom.type ≠ .text)
    (hdepth : (Rose.node node children).height ≤ depth + 1) :
    Sized node.still available
        ((flow (layoutNode depth) node.still (frame node.style x y available) children).1.1 -
          (frame node.style x y available).y)
        (layoutNode (depth + 1) x y available (.node node children)).value ↔
      SizesFit node.still available children := by
  show Sized node.still available
    ((flow (layoutNode depth) node.still (frame node.still.style x y available) children).1.1 -
      (frame node.still.style x y available).y) _ ↔ _
  obtain ⟨hrect, hbox⟩ := layoutNode_placed hdisplay depth x y available children
  have hsized (contentHeight : ℚ) := sized_placed_iff node.still
    (layoutNode (depth + 1) x y available (.node node children)).value
    available contentHeight hrect hbox
  rw [hsized, SizesFit, contentSize]
  by_cases himage : isImage node.still
  · have hwidth := image_width_eq_iff himage available
    have hsize : imageSize node.still available (frame node.still.style x y available).width =
      (_, _) := imageSize_eq himage x y available
    rw [if_pos himage, if_pos himage, hsize]
    dsimp only
    rw [hwidth, ← and_assoc, and_self]
    refine and_congr_right fun hbounds => ?_
    generalize (flow (layoutNode depth) node.still (frame node.still.style x y available)
      children).1.1 - (frame node.still.style x y available).y = contentHeight
    rw [hwidth.mpr hbounds, boundedHeight, tentativeHeight_image himage _ _ contentHeight 0,
      eq_comm, minMax_eq_self_iff]
  · have hwidth := frame_width_eq himage x y available
    have hflow := flow_width_eq_iff node.still (frame node.still.style x y available)
      (Rose.height_node_le_succ.mp hdepth) (frame_width_nonneg node.still.style x y available)
    rw [if_neg himage, if_neg himage, if_neg (show ¬ node.still.dom.type = .text from htext)]
    dsimp only
    rw [← hwidth, contentsHeight, blockHeight_eq himage available, boundedHeight, ← hwidth]
    dsimp only
    rw [min_max_eq_minMax_iff, hflow, and_iff_right rfl, and_comm]

/-- An image of a hundred pixels that is to be no wider than fifty. -/
def wideImage : LayoutFields ℚ :=
  unlaid { type := .element, name := lit "img", attributes := [(lit "width", lit "100")] }
    .inlineBlock [(lit "max-width", lit "50px")]

theorem sized_iff_wideImage :
    Sized wideImage.still 200
        ((flow (layoutNode 0) wideImage.still (frame wideImage.style 0 0 200) []).1.1 -
          (frame wideImage.style 0 0 200).y)
        (layoutNode 1 0 0 200 (.node wideImage [])).value ↔
      SizesFit wideImage.still 200 [] :=
  sized_iff 0 0 0 200 wideImage [] (by decide) (by decide) (le_refl _)

/-- The image is laid out with a hundred pixels. -/
theorem not_forall_sized :
    ¬∀ (depth : ℕ) (x y available : ℚ) (node : LayoutFields ℚ) (children : List (LayoutNode ℚ)),
      node.display ≠ .none → node.dom.type ≠ .text →
        (Rose.node node children).height ≤ depth + 1 →
          Sized node.still available
            ((flow (layoutNode depth) node.still (frame node.style x y available) children).1.1 -
              (frame node.style x y available).y)
            (layoutNode (depth + 1) x y available (.node node children)).value := by
  intro h
  have hwidth := (h 0 0 0 200 wideImage [] (by decide) (by decide) (le_refl _)).width
  exact absurd hwidth (by decide +kernel)

end Aetheris.Layout
