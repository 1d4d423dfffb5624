import Aetheris.Layout.Sizes
import Aetheris.Layout.Translation

/-!
# Rows of a flexible box

The items of a row stand one after the other.  What is left of the width is given out twice, to the
items that may grow and between the items; the widths are resolved twice, by the row and by the
item; and the items are centred while the height of the row is still being computed.

Each of these is a condition of its own: on the lengths that the items have for their widths, on
what the items have for their offsets, and on the heights before an item that is centred.  The loop
is followed item by item, under an invariant that says where its items are.
-/

namespace Aetheris.Layout

open Dom Style Length

/-! ## Lengths -/

/-- The number of a length, and whether it is a percentage. -/
def lengthParts (value : Option Bytes) : Option (ℚ × Bool) :=
  value.bind fun value =>
    if value = [] ∨ value = lit "auto" then none
    else (strtof value : Option (ℚ × Bytes)).map fun number =>
      (number.1, number.2.head? == some (chr '%'))

theorem parseLength_eq (value : Option Bytes) (fallback base : ℚ) :
    parseLength value fallback base =
      match lengthParts value with
      | none => fallback
      | some (number, true) => base * number / 100
      | some (number, false) => number := by
  cases value with
  | none => rfl
  | some value =>
    rw [parseLength, lengthParts, Option.bind_some]
    by_cases hauto : value = [] ∨ value = lit "auto"
    · rw [if_pos hauto, if_pos hauto]
    · rw [if_neg hauto, if_neg hauto]
      cases (strtof value : Option (ℚ × Bytes)) with
      | none => rfl
      | some number =>
        rw [Option.map_some]
        cases hpercent : number.2.head? == some (chr '%') with
        | true => exact if_pos (beq_iff_eq.mp hpercent)
        | false => exact if_neg (beq_eq_false_iff_ne.mp hpercent)

/-- An item without margins, paddings, borders and bounds, and with no negative width. -/
structure PlainItem (item : LayoutFields ℚ) : Prop where
  margin : ∀ width : ℚ, resolveEdges item.style (lit "margin") width = default
  padding : ∀ width : ℚ, resolveEdges item.style (lit "padding") width = default
  border : ∀ width : ℚ, resolveEdges item.style (lit "border") width = default
  minWidth : item.style.get (lit "min-width") = none
  maxWidth : item.style.get (lit "max-width") = none
  width_nonneg : ∀ number percent,
    lengthParts (item.style.get (lit "width")) = some (number, percent) → 0 ≤ number

/-! ## Rows -/

/-- How far an item of a row is moved by its own `left`, `right`, `top` and `bottom`. -/
def rowOffset (row : FlexRow ℚ) (item : LayoutFields ℚ) : ℚ × ℚ :=
  relativeOffset item.style (itemWidth row item)

/-- Where an item stands in its row, before it is moved by itself. -/
def flowX (row : FlexRow ℚ) (cell : LayoutFields ℚ) (rect : LayoutRect ℚ) : ℚ :=
  rect.x - (rowOffset row cell).1

/-- The same from the top to the bottom. -/
def flowY (row : FlexRow ℚ) (cell : LayoutFields ℚ) (rect : LayoutRect ℚ) : ℚ :=
  rect.y - (rowOffset row cell).2

/-- The widths of the items and the gaps between them. -/
def rowExtent (row : FlexRow ℚ) (items : List (LayoutNode ℚ)) : ℚ :=
  (items.map fun item => itemWidth row item.value.still).sum + row.gap * (items.length - 1 : ℕ)

/-- The items of a row, placed as they should be in the content box of the row. -/
structure RowPlacement (row : FlexRow ℚ) (content : LayoutRect ℚ)
    (cells : List (LayoutNode ℚ)) : Prop where
  widths : ∀ cell ∈ cells, cell.value.rect.width = itemWidth row cell.value.still
  inOrder : cells.IsChain fun a b =>
    flowX row a.value.still a.value.rect + a.value.rect.width + max 0 row.gap ≤
      flowX row b.value.still b.value.rect
  inside : rowExtent row cells ≤ content.width → ∀ cell ∈ cells,
    content.x ≤ flowX row cell.value.still cell.value.rect ∧
      flowX row cell.value.still cell.value.rect + cell.value.rect.width ≤
        content.x + content.width
  centered : row.align = some (lit "center") → ∀ a ∈ cells, ∀ b ∈ cells,
    flowY row a.value.still a.value.rect + a.value.rect.height / 2 =
      flowY row b.value.still b.value.rect + b.value.rect.height / 2
  atBottom : row.align = some (lit "flex-end") → ∀ a ∈ cells, ∀ b ∈ cells,
    flowY row a.value.still a.value.rect + a.value.rect.height =
      flowY row b.value.still b.value.rect + b.value.rect.height

/-! ## The widths of the items -/

theorem tentativeWidth_nonneg (node : LayoutFields ℚ) (available : ℚ) :
    0 ≤ tentativeWidth node available := by
  unfold tentativeWidth
  split
  · assumption
  · split
    next himage => exact himage.2.le
    · exact le_max_left _ _

/-- A plain item is as wide as it says. -/
theorem borderBoxWidth_plain {item : LayoutFields ℚ} (h : PlainItem item) (available : ℚ) :
    borderBoxWidth item available = tentativeWidth item available := by
  have hbounded : boundedWidth item available = tentativeWidth item available := by
    rw [boundedWidth, resolveDimension, resolveDimension, h.minWidth, h.maxWidth]
    exact max_eq_right (tentativeWidth_nonneg item available)
  have hedges : (frame item.style 0 0 available).padding = default ∧
      (frame item.style 0 0 available).border = default := ⟨h.padding available, h.border available⟩
  rw [borderBoxWidth, hedges.1, hedges.2, ← hbounded]
  have hzero : (default : BoxEdges ℚ).left = 0 ∧ (default : BoxEdges ℚ).right = 0 := ⟨rfl, rfl⟩
  rw [hzero.1, hzero.2, add_zero, add_zero, add_zero, add_zero]
  by_cases himage : isImage item
  · rw [if_pos himage, imageSize_eq himage 0 0 available]
    dsimp only
    split
    next hown =>
      rw [hbounded, tentativeWidth, if_neg (not_le.mpr hown.1), if_pos ⟨himage, hown.2⟩]
    · rfl
  · rw [if_neg himage, frame_width_eq himage]

/-- The width that an item is given does not change when the item resolves it once more. -/
def WidthKept (row : FlexRow ℚ) (item : LayoutFields ℚ) : Prop :=
  match lengthParts (item.style.get (lit "width")) with
  | none => isImage item → 0 < intrinsicLength item (lit "width") (itemWidth row item) →
      intrinsicLength item (lit "width") (itemWidth row item) = itemWidth row item
  | some (number, true) => row.available = 0 ∨ number = 0 ∨ number = 100
  | some (_, false) => True

/-- The share of an item in what is left. -/
def growShare (row : FlexRow ℚ) (item : LayoutFields ℚ) : ℚ :=
  if 0 < row.totalGrow then row.freeSpace * flexGrow item row.available / row.totalGrow else 0

section Width

variable {row : FlexRow ℚ} {item : LayoutFields ℚ} (h : PlainItem item)
  (havailable : 0 ≤ row.available) (hfree : 0 ≤ row.freeSpace)

include h havailable

theorem itemWidth_eq : itemWidth row item =
    match lengthParts (item.style.get (lit "width")) with
    | none => growShare row item
    | some (number, true) => row.available * number / 100
    | some (number, false) => number := by
  rw [itemWidth, resolveDimension, parseLength_eq, ofRat_rat]
  rcases hparts : lengthParts (item.style.get (lit "width")) with _ | ⟨number, _ | _⟩
  · exact if_pos (by norm_num)
  · exact if_neg (not_lt.mpr (h.width_nonneg number false hparts))
  · have hnumber := h.width_nonneg number true hparts
    refine if_neg (not_lt.mpr ?_)
    positivity

include hfree

theorem itemWidth_nonneg : 0 ≤ itemWidth row item := by
  rw [itemWidth_eq h havailable]
  rcases hparts : lengthParts (item.style.get (lit "width")) with _ | ⟨number, _ | _⟩
  · have hgrow : 0 ≤ flexGrow item row.available := by
      rw [flexGrow, fmax_rat]
      exact le_max_left _ _
    dsimp only
    unfold growShare
    split
    · positivity
    · exact le_refl _
  · exact h.width_nonneg number false hparts
  · have hnumber := h.width_nonneg number true hparts
    dsimp only
    positivity

/-- **An item is as wide as the row wants it to be if and only if** its width is no percentage, but
for none and all of it, and an image without a width has none by itself. -/
theorem widthKept_iff :
    borderBoxWidth item (itemWidth row item) = itemWidth row item ↔ WidthKept row item := by
  have hedges : horizontalEdges item.style (itemWidth row item) = 0 := by
    rw [horizontalEdges, h.margin, h.padding, h.border]
    show (0 : ℚ) + 0 + 0 + 0 + 0 + 0 = 0
    norm_num
  rw [borderBoxWidth_plain h, tentativeWidth, resolveDimension, parseLength_eq, hedges, sub_zero,
    max_eq_right (itemWidth_nonneg h havailable hfree), WidthKept]
  have hitem := itemWidth_eq h havailable
  rcases hparts : lengthParts (item.style.get (lit "width")) with _ | ⟨number, _ | _⟩
  · rw [if_neg (by norm_num)]
    by_cases himage : isImage item ∧ 0 < intrinsicLength item (lit "width") (itemWidth row item)
    · rw [if_pos himage, forall_prop_of_true himage.1, forall_prop_of_true himage.2]
    · rw [if_neg himage]
      exact iff_of_true rfl fun h h' => absurd ⟨h, h'⟩ himage
  · rw [hparts] at hitem
    rw [if_pos (h.width_nonneg number false hparts)]
    exact iff_of_true hitem.symm trivial
  · have hnumber := h.width_nonneg number true hparts
    rw [hparts] at hitem
    dsimp only at hitem ⊢
    rw [hitem, if_pos (by positivity)]
    constructor
    · intro heq
      have hzero : row.available * (number * (number - 100)) = 0 := by
        linear_combination 10000 * heq
      rcases mul_eq_zero.mp hzero with hzero | hzero
      · exact Or.inl hzero
      · rcases mul_eq_zero.mp hzero with hzero | hzero
        · exact Or.inr (Or.inl hzero)
        · exact Or.inr (Or.inr (sub_eq_zero.mp hzero))
    · rintro (hzero | hzero | hall)
      · rw [hzero]
        ring
      · rw [hzero]
        ring
      · rw [hall]
        ring

end Width

/-! ## The loop -/

theorem rect_moveDown (dy : ℚ) (item : LayoutNode ℚ) :
    (modifyValue (LayoutFields.moveDown dy) item).value.rect = item.value.rect.shift 0 dy := by
  rw [LayoutRect.shift, add_zero]
  rfl

section Loop

variable (depth : ℕ) (row : FlexRow ℚ)

/-- The width of an item of a row. -/
def rowWidth (item : LayoutNode ℚ) : ℚ :=
  borderBoxWidth item.value.still (itemWidth row item.value.still)

/-- The height of an item of a row. -/
def rowHeight (item : LayoutNode ℚ) : ℚ :=
  outerHeight depth (itemWidth row item.value.still) item

/-- How far the next item is behind an item of a row. -/
def rowAdvance (item : LayoutNode ℚ) : ℚ :=
  rowWidth row item + (rowOffset row item.value.still).1 + row.gap + row.extraGap

/-- The height of the highest one of some items. -/
def tallest (items : List (LayoutNode ℚ)) : ℚ :=
  (items.map (rowHeight depth row)).foldl max 0

/-- How far an item is moved down by the row. -/
def alignShift (items : List (LayoutNode ℚ)) (i : ℕ) (item : LayoutNode ℚ) : ℚ :=
  if row.align = some (lit "center") then
    max 0 (tallest depth row (items.take i) - rowHeight depth row item) / 2
  else if row.align = some (lit "flex-end") then tallest depth row items - rowHeight depth row item
  else 0

/-- The rectangle of an item of a row. -/
def rowRect (start : ℚ) (items : List (LayoutNode ℚ)) (i : ℕ) (item : LayoutNode ℚ) :
    LayoutRect ℚ where
  x := start + ((items.take i).map (rowAdvance row)).sum + (rowOffset row item.value.still).1
  y := row.y + (rowOffset row item.value.still).2 + alignShift depth row items i item
  width := rowWidth row item
  height := rowHeight depth row item

/-- The items of a row, with their places. -/
structure RowCells (start : ℚ) (items cells : List (LayoutNode ℚ)) : Prop where
  length_eq : cells.length = items.length
  placed : ∀ i item, items[i]? = some item → ∃ cell, cells[i]? = some cell ∧
    cell.value.still = item.value.still ∧ cell.value.rect = rowRect depth row start items i item

variable {depth row}

/-- The height of the items so far. -/
theorem rowStep_height {item : LayoutNode ℚ} (hdisplay : item.value.display ≠ .none)
    (hdepth : item.height ≤ depth) (s : ℚ × ℚ) :
    (rowStep (layoutNode depth) row s item).1.2 = max s.2 (rowHeight depth row item) := by
  rw [rowStep]
  dsimp only
  rw [fmax_rat, rect_height_layoutNode hdepth hdisplay, rowHeight]

variable (row) in
theorem sweep_rowStep_height {items : List (LayoutNode ℚ)}
    (hdisplay : ∀ item ∈ items, item.value.display ≠ .none)
    (hdepth : ∀ item ∈ items, item.height ≤ depth) (s : ℚ × ℚ) :
    (sweep (rowStep (layoutNode depth) row) s items).1.2 =
      (items.map (rowHeight depth row)).foldl max s.2 := by
  induction items generalizing s with
  | nil => rfl
  | cons item items ih =>
    obtain ⟨hitem, hitems⟩ := List.forall_mem_cons.mp hdisplay
    obtain ⟨hitemDepth, hitemsDepth⟩ := List.forall_mem_cons.mp hdepth
    rw [sweep_cons, ih hitems hitemsDepth, rowStep_height hitem hitemDepth, List.map_cons,
      List.foldl_cons]

variable (row) in
/-- An item as the row lays it out. -/
theorem rect_layoutNode_plain {item : LayoutNode ℚ} (hplain : PlainItem item.value.still)
    (hdisplay : item.value.display ≠ .none) (hdepth : item.height ≤ depth + 1) (x y : ℚ) :
    (layoutNode (depth + 1) x y (itemWidth row item.value.still) item).value.rect =
      ⟨x + (rowOffset row item.value.still).1, y + (rowOffset row item.value.still).2,
        rowWidth row item, rowHeight (depth + 1) row item⟩ := by
  have hmargin := hplain.margin (itemWidth row item.value.still)
  change resolveEdges item.value.style _ _ = _ at hmargin
  have hx := rect_x_layoutNode hdisplay depth x y (itemWidth row item.value.still)
  have hy := rect_y_layoutNode hdisplay depth x y (itemWidth row item.value.still)
  rw [hmargin, show (default : BoxEdges ℚ).left = 0 from rfl, add_zero] at hx
  rw [hmargin, show (default : BoxEdges ℚ).top = 0 from rfl, add_zero] at hy
  exact LayoutRect.ext hx hy (rect_width_layoutNode hdisplay depth x y _)
    (rect_height_layoutNode hdepth hdisplay x y _)

variable (row) in
/-- One turn of the loop. -/
theorem rowStep_eq {item : LayoutNode ℚ} (hplain : PlainItem item.value.still)
    (hdisplay : item.value.display ≠ .none) (hdepth : item.height ≤ depth + 1) (s : ℚ × ℚ) :
    (rowStep (layoutNode (depth + 1)) row s item).1.1 = s.1 + rowAdvance row item ∧
      (rowStep (layoutNode (depth + 1)) row s item).2.value.rect =
        ⟨s.1 + (rowOffset row item.value.still).1,
          row.y + (rowOffset row item.value.still).2 +
            if row.align = some (lit "center") then
              max 0 (s.2 - rowHeight (depth + 1) row item) / 2
            else 0,
          rowWidth row item, rowHeight (depth + 1) row item⟩ := by
  have hrect := rect_layoutNode_plain row hplain hdisplay hdepth s.1 row.y
  have hheight := congrArg LayoutRect.height hrect
  rw [rowStep]
  dsimp only at hheight ⊢
  rw [hrect, fmax_rat, ofRat_rat]
  refine ⟨?_, ?_⟩
  · rw [rowAdvance]
    ring
  · split
    · rw [rect_moveDown, hrect, LayoutRect.shift, add_zero]
    · rw [hrect, add_zero]

variable {items : List (LayoutNode ℚ)}
  (hplain : ∀ item ∈ items, PlainItem item.value.still)
  (hdisplay : ∀ item ∈ items, item.value.display ≠ .none)
  (hdepth : ∀ item ∈ items, item.height ≤ depth + 1)

include hplain hdisplay hdepth

variable (row) in
/-- Where the next item stands. -/
theorem sweep_rowStep (s : ℚ × ℚ) :
    (sweep (rowStep (layoutNode (depth + 1)) row) s items).1.1 =
      s.1 + (items.map (rowAdvance row)).sum := by
  induction items generalizing s with
  | nil => rw [sweep_nil, List.map_nil, List.sum_nil, add_zero]
  | cons item items ih =>
    obtain ⟨hitem, hitems⟩ := List.forall_mem_cons.mp hplain
    obtain ⟨hitemDisplay, hitemsDisplay⟩ := List.forall_mem_cons.mp hdisplay
    obtain ⟨hitemDepth, hitemsDepth⟩ := List.forall_mem_cons.mp hdepth
    rw [sweep_cons, ih hitems hitemsDisplay hitemsDepth,
      (rowStep_eq row hitem hitemDisplay hitemDepth s).1, List.map_cons, List.sum_cons, ← add_assoc]

/-- An item after the loop. -/
theorem getElem?_rowStep (start : ℚ) {i : ℕ} {item : LayoutNode ℚ}
    (hitem : items[i]? = some item) :
    ∃ cell, (sweep (rowStep (layoutNode (depth + 1)) row) (start, 0) items).2[i]? = some cell ∧
      cell.value.still = item.value.still ∧
      cell.value.rect =
        ⟨start + ((items.take i).map (rowAdvance row)).sum + (rowOffset row item.value.still).1,
          row.y + (rowOffset row item.value.still).2 +
            if row.align = some (lit "center") then
              max 0 (tallest (depth + 1) row (items.take i) - rowHeight (depth + 1) row item) / 2
            else 0,
          rowWidth row item, rowHeight (depth + 1) row item⟩ := by
  have hmem := List.mem_of_getElem? hitem
  have htake {P : LayoutNode ℚ → Prop} (h : ∀ item ∈ items, P item) (item : LayoutNode ℚ)
      (hitem : item ∈ items.take i) : P item := h item (List.mem_of_mem_take hitem)
  have hstate := sweep_rowStep row (htake hplain) (htake hdisplay) (htake hdepth) (start, 0)
  have hheight := sweep_rowStep_height row (htake hdisplay) (htake hdepth) (start, 0)
  have hrect := (rowStep_eq row (hplain item hmem) (hdisplay item hmem) (hdepth item hmem)
    (sweep (rowStep (layoutNode (depth + 1)) row) (start, 0) (items.take i)).1).2
  refine ⟨(rowStep (layoutNode (depth + 1)) row
    (sweep (rowStep (layoutNode (depth + 1)) row) (start, 0) (items.take i)).1 item).2, ?_,
    still_rowStep (still_layoutNode _) row _ item, ?_⟩
  · rw [getElem?_sweep, hitem, Option.map_some]
  · rw [hrect, hstate, hheight]
    rfl

/-- The items of a row, placed by the loop. -/
theorem rowCells_sweep (start : ℚ) (hend : row.align ≠ some (lit "flex-end")) :
    RowCells (depth + 1) row start items
      (sweep (rowStep (layoutNode (depth + 1)) row) (start, 0) items).2 where
  length_eq := length_sweep _ _
  placed i item hitem := by
    obtain ⟨cell, hcell, hstill, hrect⟩ := getElem?_rowStep hplain hdisplay hdepth start hitem
    refine ⟨cell, hcell, hstill, ?_⟩
    rw [hrect, rowRect, alignShift, if_neg hend]

/-- The items of a row, moved down to its bottom. -/
theorem rowCells_alignBottom (start : ℚ) (hend : row.align = some (lit "flex-end"))
    (hskip : ∀ item ∈ items, skipped item = false) :
    RowCells (depth + 1) row start items
      ((sweep (rowStep (layoutNode (depth + 1)) row) (start, 0) items).2.map
        (alignBottom (sweep (rowStep (layoutNode (depth + 1)) row) (start, 0) items).1.2)) where
  length_eq := by rw [List.length_map, length_sweep]
  placed i item hitem := by
    have hcenter : row.align ≠ some (lit "center") := by
      rw [hend]
      decide
    obtain ⟨cell, hcell, hstill, hrect⟩ := getElem?_rowStep hplain hdisplay hdepth start hitem
    rw [if_neg hcenter, add_zero] at hrect
    have hkept : skipped cell = false :=
      (congrArg passedOver hstill).trans (hskip item (List.mem_of_getElem? hitem))
    have hmoved (bottom : ℚ) : alignBottom bottom cell =
        modifyValue (LayoutFields.moveDown (bottom - cell.value.rect.height)) cell := by
      rw [alignBottom, hkept]
      rfl
    refine ⟨alignBottom (sweep (rowStep (layoutNode (depth + 1)) row) (start, 0) items).1.2 cell,
      ?_, ?_, ?_⟩
    · rw [List.getElem?_map, hcell, Option.map_some]
    · rw [hmoved]
      exact hstill
    · rw [hmoved, rect_moveDown, hrect, sweep_rowStep_height row hdisplay hdepth, rowRect, alignShift,
        if_neg hcenter, if_pos hend, LayoutRect.shift, add_zero]
      rfl

end Loop

/-! ## When the items are placed as they should be -/

/-- What the widths, the offsets and the heights of the items must be, when `lead` is put before the
first item and the row itself is moved by `dx`. -/
structure RowFits (depth : ℕ) (row : FlexRow ℚ) (lead dx : ℚ) (items : List (LayoutNode ℚ)) :
    Prop where
  widths : ∀ item ∈ items, WidthKept row item.value.still
  offsets : ∀ i item, items[i]? = some item → i + 1 < items.length →
    max 0 row.gap ≤ row.gap + row.extraGap + (rowOffset row item.value.still).1
  space : rowExtent row items ≤ row.available → items ≠ [] → dx ≤ lead ∧
    lead + row.extraGap * (items.length - 1 : ℕ) +
        (items.dropLast.map fun item => (rowOffset row item.value.still).1).sum ≤
      row.available - rowExtent row items + dx
  heights : row.align = some (lit "center") → ∀ first ∈ items.head?, ∀ item ∈ items,
    rowHeight depth row item ≤ max 0 (rowHeight depth row first)

section Placement

variable {depth : ℕ} {row : FlexRow ℚ} {start : ℚ} {items cells : List (LayoutNode ℚ)}
  (h : RowCells depth row start items cells)

include h

theorem RowCells.forall_iff {P : LayoutFields ℚ → LayoutRect ℚ → Prop} :
    (∀ cell ∈ cells, P cell.value.still cell.value.rect) ↔
      ∀ i item, items[i]? = some item →
        P item.value.still (rowRect depth row start items i item) := by
  constructor
  · intro hall i item hitem
    obtain ⟨cell, hcell, hstill, hrect⟩ := h.placed i item hitem
    rw [← hstill, ← hrect]
    exact hall cell (List.mem_of_getElem? hcell)
  · intro hall cell hmem
    obtain ⟨i, hi, rfl⟩ := List.mem_iff_getElem.mp hmem
    have hitem := List.getElem?_eq_getElem (h.length_eq ▸ hi : i < items.length)
    obtain ⟨cell, hcell, hstill, hrect⟩ := h.placed i _ hitem
    obtain rfl := Option.some.inj ((List.getElem?_eq_getElem hi).symm.trans hcell)
    rw [hstill, hrect]
    exact hall i _ hitem

theorem RowCells.map_still :
    cells.map (fun cell => cell.value.still) = items.map fun item => item.value.still := by
  refine List.ext_getElem (by rw [List.length_map, List.length_map, h.length_eq]) fun i hi hi' => ?_
  rw [List.length_map] at hi hi'
  obtain ⟨cell, hcell, hstill, -⟩ := h.placed i _ (List.getElem?_eq_getElem hi')
  obtain ⟨_, rfl⟩ := List.getElem?_eq_some_iff.mp hcell
  rw [List.getElem_map, List.getElem_map, hstill]

theorem RowCells.isChain_iff {R : LayoutFields ℚ × LayoutRect ℚ → LayoutFields ℚ × LayoutRect ℚ → Prop} :
    (cells.IsChain fun a b => R (a.value.still, a.value.rect) (b.value.still, b.value.rect)) ↔
      ∀ i a b, items[i]? = some a → items[i + 1]? = some b →
        R (a.value.still, rowRect depth row start items i a)
          (b.value.still, rowRect depth row start items (i + 1) b) := by
  rw [List.isChain_iff_getElem]
  constructor
  · intro hall i a b ha hb
    obtain ⟨cell, hcell, hstill, hrect⟩ := h.placed i a ha
    obtain ⟨cell', hcell', hstill', hrect'⟩ := h.placed (i + 1) b hb
    obtain ⟨hi, rfl⟩ := List.getElem?_eq_some_iff.mp hcell
    obtain ⟨hi', rfl⟩ := List.getElem?_eq_some_iff.mp hcell'
    rw [← hstill, ← hrect, ← hstill', ← hrect']
    exact hall i hi'
  · intro hall i hi
    have ha := List.getElem?_eq_getElem (by rw [← h.length_eq]; omega : i < items.length)
    have hb := List.getElem?_eq_getElem (by rw [← h.length_eq]; omega : i + 1 < items.length)
    obtain ⟨cell, hcell, hstill, hrect⟩ := h.placed i _ ha
    obtain ⟨cell', hcell', hstill', hrect'⟩ := h.placed (i + 1) _ hb
    obtain ⟨hi, rfl⟩ := List.getElem?_eq_some_iff.mp hcell
    obtain ⟨hi', rfl⟩ := List.getElem?_eq_some_iff.mp hcell'
    rw [hstill, hrect, hstill', hrect']
    exact hall i _ _ ha hb

/-- The items are in order if no item is moved back further than the gaps allow. -/
theorem RowCells.inOrder_iff :
    (cells.IsChain fun a b =>
      flowX row a.value.still a.value.rect + a.value.rect.width + max 0 row.gap ≤
        flowX row b.value.still b.value.rect) ↔
      ∀ i item, items[i]? = some item → i + 1 < items.length →
        max 0 row.gap ≤ row.gap + row.extraGap + (rowOffset row item.value.still).1 := by
  rw [h.isChain_iff (R := fun a b => flowX row a.1 a.2 + a.2.width + max 0 row.gap ≤
    flowX row b.1 b.2)]
  have hstep {i : ℕ} {a : LayoutNode ℚ} (ha : items[i]? = some a) (b : LayoutNode ℚ) :
      flowX row a.value.still (rowRect depth row start items i a) +
            (rowRect depth row start items i a).width + max 0 row.gap ≤
          flowX row b.value.still (rowRect depth row start items (i + 1) b) ↔
        max 0 row.gap ≤ row.gap + row.extraGap + (rowOffset row a.value.still).1 := by
    have hsum : ((items.take (i + 1)).map (rowAdvance row)).sum =
        ((items.take i).map (rowAdvance row)).sum + rowAdvance row a := by
      rw [List.take_add_one, ha, Option.toList_some, List.map_append, List.sum_append,
        List.map_singleton, List.sum_singleton]
    simp only [flowX, rowRect, hsum, rowAdvance]
    constructor <;> intro hle <;> linarith
  constructor
  · intro hall i a ha hi
    exact (hstep ha _).mp (hall i a _ ha (List.getElem?_eq_getElem hi))
  · intro hall i a b ha hb
    exact (hstep ha b).mpr (hall i a ha (List.getElem?_eq_some_iff.mp hb).1)

variable (row) in
omit h in
/-- Where an item stands that comes after some others. -/
theorem sum_rowAdvance
    (hwidths : ∀ item ∈ items, rowWidth row item = itemWidth row item.value.still) :
    (items.map (rowAdvance row)).sum =
      (items.map fun item => itemWidth row item.value.still).sum +
        (items.map fun item => (rowOffset row item.value.still).1).sum +
        items.length * (row.gap + row.extraGap) := by
  induction items with
  | nil => simp
  | cons item items ih =>
    obtain ⟨hitem, hitems⟩ := List.forall_mem_cons.mp hwidths
    rw [List.map_cons, List.map_cons, List.map_cons, List.sum_cons, List.sum_cons, List.sum_cons,
      ih hitems, rowAdvance, hitem, List.length_cons, Nat.cast_succ]
    ring

/-- Items in order are inside of a box if what is put before and between them, with their offsets,
is no more than what they leave. -/
theorem RowCells.inside_iff
    (hwidths : ∀ item ∈ items, rowWidth row item = itemWidth row item.value.still)
    (hnonneg : ∀ item ∈ items, 0 ≤ itemWidth row item.value.still)
    (hchain : cells.IsChain fun a b =>
      flowX row a.value.still a.value.rect + a.value.rect.width + max 0 row.gap ≤
        flowX row b.value.still b.value.rect)
    {x lead : ℚ} (hstart : start = x + lead) (dx width : ℚ) :
    (∀ cell ∈ cells, x + dx ≤ flowX row cell.value.still cell.value.rect ∧
        flowX row cell.value.still cell.value.rect + cell.value.rect.width ≤ x + dx + width) ↔
      (items ≠ [] → dx ≤ lead ∧
        lead + row.extraGap * (items.length - 1 : ℕ) +
            (items.dropLast.map fun item => (rowOffset row item.value.still).1).sum ≤
          width - rowExtent row items + dx) := by
  have hrects : ∀ cell ∈ cells, 0 ≤ cell.value.rect.width := by
    refine (h.forall_iff (P := fun _ rect => 0 ≤ rect.width)).mpr fun i item hitem => ?_
    have hmem := List.mem_of_getElem? hitem
    exact (hnonneg item hmem).trans_eq (hwidths item hmem).symm
  have hinside := Tracks.forall_inside_iff
    (f := fun cell : LayoutNode ℚ => flowX row cell.value.still cell.value.rect)
    (g := fun cell => flowX row cell.value.still cell.value.rect + cell.value.rect.width)
    (a := x + dx) (b := x + dx + width)
    (fun cell hcell => le_add_of_nonneg_right (hrects cell hcell))
    (hchain.imp fun a b hab => (le_add_of_nonneg_right (le_max_left 0 row.gap)).trans hab)
  rw [hinside]
  rcases List.eq_nil_or_concat items with rfl | ⟨init, last, rfl⟩
  · obtain rfl := List.length_eq_zero_iff.mp h.length_eq
    exact iff_of_true ⟨fun _ h => absurd h (Option.not_mem_none _), fun _ h =>
      absurd h (Option.not_mem_none _)⟩ fun hne => absurd rfl hne
  · rw [List.concat_eq_append] at h hwidths ⊢
    have hfirst : (init ++ [last])[0]? = some ((init ++ [last]).get ⟨0, by simp⟩) :=
      List.getElem?_eq_getElem _
    have hlast : (init ++ [last])[init.length]? = some last := by
      rw [List.getElem?_append_right (le_refl _), Nat.sub_self]
      rfl
    obtain ⟨c, hc, hstill, hrect⟩ := h.placed 0 _ hfirst
    obtain ⟨d, hd, hstill', hrect'⟩ := h.placed init.length last hlast
    have hhead : cells.head? = some c := by rw [List.head?_eq_getElem?, hc]
    have htail : cells.getLast? = some d := by
      rw [List.getLast?_eq_getElem?, h.length_eq, List.length_append, List.length_singleton,
        Nat.add_sub_cancel, hd]
    have hleft : flowX row c.value.still c.value.rect = start := by
      rw [hstill, hrect, flowX, rowRect, List.take_zero, List.map_nil, List.sum_nil, add_zero,
        add_sub_cancel_right]
    have hwidth := hwidths last (List.mem_append_right init (List.mem_singleton_self last))
    have hsum := sum_rowAdvance row fun item hitem =>
      hwidths item (List.mem_append_left [last] hitem)
    have hright : flowX row d.value.still d.value.rect + d.value.rect.width =
        start + (init.map (rowAdvance row)).sum + itemWidth row last.value.still := by
      rw [hstill', hrect', flowX, rowRect, List.take_left, add_sub_cancel_right, hwidth]
    have hextent : rowExtent row (init ++ [last]) =
        (init.map fun item => itemWidth row item.value.still).sum +
          itemWidth row last.value.still + row.gap * init.length := by
      rw [rowExtent, List.map_append, List.sum_append, List.map_singleton, List.sum_singleton,
        List.length_append, List.length_singleton, Nat.add_sub_cancel]
    rw [hhead, htail, List.dropLast_concat, List.length_append, List.length_singleton,
      Nat.add_sub_cancel, hextent,
      forall_prop_of_true (List.append_ne_nil_of_right_ne_nil init (List.cons_ne_nil last []))]
    simp only [Option.mem_some_iff, forall_eq']
    rw [hleft, hright, hsum, hstart]
    constructor <;>
    · rintro ⟨hbegin, hend⟩
      exact ⟨by linarith, by linarith⟩

omit h in
theorem tallest_le_iff {bound : ℚ} : tallest depth row items ≤ bound ↔
    0 ≤ bound ∧ ∀ item ∈ items, rowHeight depth row item ≤ bound := by
  rw [tallest]
  generalize (0 : ℚ) = low
  induction items generalizing low with
  | nil => simp
  | cons item items ih =>
    rw [List.map_cons, List.foldl_cons, ih, max_le_iff, List.forall_mem_cons, and_assoc]

/-- The centres of the items are the same if the first item is the highest one. -/
theorem RowCells.centered_iff (halign : row.align = some (lit "center")) :
    (∀ a ∈ cells, ∀ b ∈ cells,
      flowY row a.value.still a.value.rect + a.value.rect.height / 2 =
        flowY row b.value.still b.value.rect + b.value.rect.height / 2) ↔
      ∀ first ∈ items.head?, ∀ item ∈ items,
        rowHeight depth row item ≤ max 0 (rowHeight depth row first) := by
  have hcentre (i : ℕ) (item : LayoutNode ℚ) :
      flowY row item.value.still (rowRect depth row start items i item) +
          (rowRect depth row start items i item).height / 2 =
        row.y + max (rowHeight depth row item) (tallest depth row (items.take i)) / 2 := by
    rw [flowY, rowRect, alignShift, if_pos halign]
    dsimp only
    rcases le_total (rowHeight depth row item) (tallest depth row (items.take i)) with hle | hle
    · rw [max_eq_right (sub_nonneg.mpr hle), max_eq_right hle]
      ring
    · rw [max_eq_left (sub_nonpos.mpr hle), max_eq_left hle]
      ring
  have hcells : (∀ a ∈ cells, ∀ b ∈ cells,
      flowY row a.value.still a.value.rect + a.value.rect.height / 2 =
        flowY row b.value.still b.value.rect + b.value.rect.height / 2) ↔
      ∀ i a, items[i]? = some a → ∀ j b, items[j]? = some b →
        max (rowHeight depth row a) (tallest depth row (items.take i)) =
          max (rowHeight depth row b) (tallest depth row (items.take j)) := by
    rw [h.forall_iff (P := fun a r => ∀ b ∈ cells, flowY row a r + r.height / 2 =
      flowY row b.value.still b.value.rect + b.value.rect.height / 2)]
    refine forall_congr' fun i => forall_congr' fun a => imp_congr_right fun _ => ?_
    rw [h.forall_iff (P := fun b r => _ = flowY row b r + r.height / 2)]
    refine forall_congr' fun j => forall_congr' fun b => imp_congr_right fun _ => ?_
    rw [hcentre, hcentre]
    constructor <;> intro heq <;> linarith
  rw [hcells]
  constructor
  · intro hall first hfirst item hitem
    obtain ⟨i, hi⟩ := List.mem_iff_getElem?.mp hitem
    rw [List.head?_eq_getElem?] at hfirst
    have heq := hall i item hi 0 first hfirst
    rw [List.take_zero, show tallest depth row [] = 0 from rfl, max_comm _ (0 : ℚ)] at heq
    exact heq ▸ le_max_left _ _
  · intro hall
    cases items with
    | nil => exact fun i a ha => absurd (List.mem_of_getElem? ha) List.not_mem_nil
    | cons first items =>
      have hfirst := hall first rfl
      have hsame (i : ℕ) (item : LayoutNode ℚ) (hitem : (first :: items)[i]? = some item) :
          max (rowHeight depth row item) (tallest depth row ((first :: items).take i)) =
            max 0 (rowHeight depth row first) := by
        refine le_antisymm (max_le (hfirst item (List.mem_of_getElem? hitem))
          (tallest_le_iff.mpr ⟨le_max_left _ _, fun other hother =>
            hfirst other (List.mem_of_mem_take hother)⟩)) ?_
        cases i with
        | zero =>
          obtain rfl := Option.some.inj hitem
          rw [max_comm]
          exact le_refl _
        | succ i =>
          rw [List.take_succ_cons]
          obtain ⟨hzero, hbound⟩ := tallest_le_iff.mp
            (le_refl (tallest depth row (first :: items.take i)))
          exact (max_le hzero (hbound first List.mem_cons_self)).trans (le_max_right _ _)
      exact fun i a ha j b hb => (hsame i a ha).trans (hsame j b hb).symm

/-- The bottoms of the items are the same. -/
theorem RowCells.atBottom (halign : row.align = some (lit "flex-end")) :
    ∀ a ∈ cells, ∀ b ∈ cells,
      flowY row a.value.still a.value.rect + a.value.rect.height =
        flowY row b.value.still b.value.rect + b.value.rect.height := by
  have hcenter : row.align ≠ some (lit "center") := by
    rw [halign]
    decide
  have hbottom : ∀ cell ∈ cells, flowY row cell.value.still cell.value.rect +
      cell.value.rect.height = row.y + tallest depth row items := by
    refine (h.forall_iff (P := fun cell rect => flowY row cell rect + rect.height =
      row.y + tallest depth row items)).mpr fun i item _ => ?_
    rw [flowY, rowRect, alignShift, if_neg hcenter, if_pos halign]
    ring
  exact fun a ha b hb => (hbottom a ha).trans (hbottom b hb).symm

theorem RowCells.placement_iff (hplain : ∀ item ∈ items, PlainItem item.value.still)
    (havailable : 0 ≤ row.available) (hfree : 0 ≤ row.freeSpace) {x lead : ℚ}
    (hstart : start = x + lead) (dx y height : ℚ) :
    RowPlacement row ⟨x + dx, y, row.available, height⟩ cells ↔
      RowFits depth row lead dx items := by
  have hwidths : (∀ cell ∈ cells, cell.value.rect.width = itemWidth row cell.value.still) ↔
      ∀ item ∈ items, WidthKept row item.value.still := by
    rw [h.forall_iff (P := fun cell rect => rect.width = itemWidth row cell)]
    constructor
    · intro hall item hmem
      obtain ⟨i, hitem⟩ := List.mem_iff_getElem?.mp hmem
      exact (widthKept_iff (hplain item hmem) havailable hfree).mp (hall i item hitem)
    · intro hall i item hitem
      have hmem := List.mem_of_getElem? hitem
      exact (widthKept_iff (hplain item hmem) havailable hfree).mpr (hall item hmem)
  have hkept (hall : ∀ item ∈ items, WidthKept row item.value.still) (item : LayoutNode ℚ)
      (hmem : item ∈ items) : rowWidth row item = itemWidth row item.value.still :=
    (widthKept_iff (hplain item hmem) havailable hfree).mpr (hall item hmem)
  have hnonneg (item : LayoutNode ℚ) (hmem : item ∈ items) :
      0 ≤ itemWidth row item.value.still := itemWidth_nonneg (hplain item hmem) havailable hfree
  have hextent : rowExtent row cells = rowExtent row items := by
    have hmap := congrArg (fun stills => (stills.map (itemWidth row)).sum) h.map_still
    simp only [List.map_map] at hmap
    rw [rowExtent, rowExtent, h.length_eq]
    exact congrArg (· + _) hmap
  constructor
  · rintro ⟨hcells, hchain, hinside, hcenter, -⟩
    have hitems := hwidths.mp hcells
    refine ⟨hitems, h.inOrder_iff.mp hchain, fun hfits => ?_, fun halign =>
      (h.centered_iff halign).mp (hcenter halign)⟩
    exact (h.inside_iff (hkept hitems) hnonneg hchain hstart dx row.available).mp
      (hinside (hextent.trans_le hfits))
  · rintro ⟨hitems, hoffsets, hspace, hheights⟩
    have hchain := h.inOrder_iff.mpr hoffsets
    refine ⟨hwidths.mpr hitems, hchain, fun hfits => ?_, fun halign =>
      (h.centered_iff halign).mpr (hheights halign), h.atBottom⟩
    exact (h.inside_iff (hkept hitems) hnonneg hchain hstart dx row.available).mpr
      (hspace (hextent.symm.trans_le hfits))

end Placement

/-- What is put before the first item. -/
def rowLead (node : LayoutFields ℚ) (available : ℚ) (items : List (LayoutFields ℚ)) : ℚ :=
  (justify (node.style.get (lit "justify-content")) 0 (rowFreeSpace node available items)
    items.length).1

theorem rowStart_eq (node : LayoutFields ℚ) (frame : Frame ℚ) (items : List (LayoutFields ℚ)) :
    (rowStart node frame items).1 = frame.x + rowLead node frame.width items := by
  have hshift := rowStart_shift node { frame with x := 0 } frame.x 0 items
  rw [Frame.shift, zero_add, add_zero] at hshift
  rw [add_comm]
  exact congrArg Prod.fst hshift

theorem inFlow_map_alignBottom (bottom : ℚ) (items : List (LayoutNode ℚ)) :
    inFlow (items.map (alignBottom bottom)) = (inFlow items).map (alignBottom bottom) := by
  have hskip (item : LayoutNode ℚ) : skipped (alignBottom bottom item) = skipped item := by
    unfold alignBottom
    split <;> rfl
  rw [inFlow, inFlow, List.filter_map]
  refine congrArg _ (List.filter_congr fun item _ => ?_)
  rw [Function.comp_apply, hskip]

theorem inFlow_ordered (node : LayoutFields ℚ) (items : List (LayoutNode ℚ)) :
    inFlow (ordered node items) = ordered node (inFlow items) := by
  unfold ordered
  split
  · exact List.filter_reverse
  · rfl

/-- The items of a row after a layout. -/
theorem rowCells_layoutNode (depth : ℕ) (x y available : ℚ) {node : LayoutFields ℚ}
    {children : List (LayoutNode ℚ)} (hcontents : hasContents node = true)
    (hflex : node.display = .flex) (hrow : ¬ isColumn node.still)
    (hplain : ∀ item ∈ inFlow children, PlainItem item.value.still)
    (hdepth : (Rose.node node children).height ≤ depth + 1) :
    let items := inFlow (ordered node.still children)
    let stills := items.map fun item => item.value.still
    let frame := frame node.style x y available
    RowCells depth (rowOf node.still frame stills) (rowStart node.still frame stills).1 items
      (inFlow (ordered node.still
        (layoutNode (depth + 1) x y available (.node node children)).children)) := by
  dsimp only
  rw [inFlow_ordered node.still (layoutNode _ _ _ _ _).children, inFlow_layoutNode hcontents,
    flow_flex (show node.still.display = .flex from hflex), layoutFlexChildren]
  by_cases hnil : inFlow children = []
  · rw [if_pos hnil, inFlow_ordered, hnil]
    unfold ordered
    split <;>
      exact ⟨rfl, fun i item hitem => absurd (List.mem_of_getElem? hitem) List.not_mem_nil⟩
  rw [if_neg hnil, if_neg hrow]
  have hmem {item : LayoutNode ℚ} (hitem : item ∈ inFlow (ordered node.still children)) :
      item ∈ inFlow children := by
    rw [mem_inFlow, mem_ordered] at hitem
    exact mem_inFlow.mpr hitem
  have hheights := Rose.height_node_le_succ.mp hdepth
  obtain ⟨item, hitem⟩ := List.exists_mem_of_ne_nil _ hnil
  obtain ⟨depth, rfl⟩ := exists_eq_succ_of_height_le (hheights item (mem_inFlow.mp hitem).1)
  have hplain (item : LayoutNode ℚ) (hitem : item ∈ inFlow (ordered node.still children)) :=
    hplain item (hmem hitem)
  have hdisplay (item : LayoutNode ℚ) (hitem : item ∈ inFlow (ordered node.still children)) :=
    display_of_mem_inFlow (hmem hitem)
  have hdepth (item : LayoutNode ℚ) (hitem : item ∈ inFlow (ordered node.still children)) :=
    hheights item (mem_inFlow.mp (hmem hitem)).1
  dsimp only
  rw [← inFlow_ordered, ordered_ordered, rowFlow]
  dsimp only
  generalize hstills : (inFlow (ordered node.still children)).map (fun item => item.value.still) =
    stills
  have hsweep := inFlow_sweep (still_rowStep (still_layoutNode (depth + 1))
    (rowOf node.still (frame node.style x y available) stills))
    ((rowStart node.still (frame node.style x y available) stills).1, 0) (ordered node.still children)
  obtain ⟨hstate, hcells⟩ := Prod.ext_iff.mp hsweep
  dsimp only at hstate hcells
  split
  next hend =>
    rw [inFlow_map_alignBottom, ← hcells, ← hstate]
    exact rowCells_alignBottom hplain hdisplay hdepth _ hend
      fun item hitem => (mem_inFlow.mp hitem).2
  next hend =>
    rw [← hcells]
    exact rowCells_sweep hplain hdisplay hdepth _ hend

/-- **The items of a row are placed as they should be if and only if** no width is a percentage, no
item is moved back, the space that is left is not given out twice, and the first one of the items
that are centred is the highest one. -/
theorem row_placement_iff (depth : ℕ) (x y available : ℚ) (node : LayoutFields ℚ)
    (children : List (LayoutNode ℚ)) (hcontents : hasContents node = true)
    (hflex : node.display = .flex) (hrow : ¬ isColumn node.still)
    (hplain : ∀ item ∈ inFlow children, PlainItem item.value.still)
    (hdepth : (Rose.node node children).height ≤ depth + 1) :
    let items := inFlow (ordered node.still children)
    let stills := items.map fun item => item.value.still
    let row := rowOf node.still (frame node.style x y available) stills
    let laid := layoutNode (depth + 1) x y available (.node node children)
    RowPlacement row laid.value.box.content (inFlow (ordered node.still laid.children)) ↔
      RowFits depth row (rowLead node.still row.available stills)
        (relativeOffset node.style available).1 items := by
  obtain ⟨hdisplay, himage, htext⟩ := hasContents_iff.mp hcontents
  have hcells := rowCells_layoutNode depth x y available hcontents hflex hrow hplain hdepth
  dsimp only at hcells ⊢
  have hcontent := (layoutNode_placed hdisplay depth x y available children).2
  have hwidth : (contentSize depth x y available node.still children).2.1 =
      (frame node.style x y available).width := by
    rw [contentSize, if_neg (show ¬ isImage node.still from himage),
      if_neg (show ¬ node.still.dom.type = .text from htext)]
    dsimp only
    rw [flow_flex (show node.still.display = .flex from hflex), layoutFlexChildren]
    split <;> rfl
  rw [placed_eq, hwidth] at hcontent
  dsimp only at hcontent
  rw [hcontent]
  refine hcells.placement_iff (fun item hitem => ?_) (frame_width_nonneg node.style x y available) ?_
    (rowStart_eq _ _ _) _ _ _
  · rw [mem_inFlow, mem_ordered] at hitem
    exact hplain item (mem_inFlow.mpr hitem)
  · show 0 ≤ rowFreeSpace _ _ _
    rw [rowFreeSpace, fmax_rat]
    exact le_max_left _ _

/-- An item that is half as wide as its row. -/
def halfItem : LayoutNode ℚ := element (lit "p") .block [(lit "width", lit "50%")] []

theorem plainItem_halfItem : PlainItem halfItem.value.still where
  margin _ := rfl
  padding _ := rfl
  border _ := rfl
  minWidth := by decide
  maxWidth := by decide
  width_nonneg number percent h := by
    have hparts : lengthParts (halfItem.value.still.style.get (lit "width")) = some (50, true) := by
      decide +kernel
    obtain ⟨rfl, -⟩ := Prod.mk.inj (Option.some.inj (hparts.symm.trans h))
    norm_num

/-- A row for two of them. -/
def halves : LayoutFields ℚ := unlaid { type := .element, name := lit "div" } .flex []

theorem forall_plainItem_halves :
    ∀ item ∈ inFlow [halfItem, halfItem], PlainItem item.value.still := by
  have hitems : inFlow [halfItem, halfItem] = [halfItem, halfItem] := rfl
  rw [hitems]
  simp only [List.forall_mem_cons]
  exact ⟨plainItem_halfItem, plainItem_halfItem, fun _ h => absurd h List.not_mem_nil⟩

theorem row_placement_iff_halves :
    let items := inFlow (ordered halves.still [halfItem, halfItem])
    let stills := items.map fun item => item.value.still
    let row := rowOf halves.still (frame halves.style 0 0 200) stills
    let laid := layoutNode 2 0 0 200 (.node halves [halfItem, halfItem])
    RowPlacement row laid.value.box.content (inFlow (ordered halves.still laid.children)) ↔
      RowFits 1 row (rowLead halves.still row.available stills)
        (relativeOffset halves.style 200).1 items :=
  row_placement_iff 1 0 0 200 halves [halfItem, halfItem] (by decide) (by decide) (by decide)
    forall_plainItem_halves (by decide)

/-- Half of two hundred pixels is laid out as half of a hundred pixels. -/
theorem not_forall_rowPlacement :
    ¬∀ (depth : ℕ) (x y available : ℚ) (node : LayoutFields ℚ) (children : List (LayoutNode ℚ)),
      hasContents node = true → node.display = .flex → ¬ isColumn node.still →
        (∀ item ∈ inFlow children, PlainItem item.value.still) →
        (Rose.node node children).height ≤ depth + 1 →
          let items := inFlow (ordered node.still children)
          let stills := items.map fun item => item.value.still
          let row := rowOf node.still (frame node.style x y available) stills
          let laid := layoutNode (depth + 1) x y available (.node node children)
          RowPlacement row laid.value.box.content (inFlow (ordered node.still laid.children)) := by
  intro h
  have hwidths := (h 1 0 0 200 halves [halfItem, halfItem] (by decide) (by decide) (by decide)
    forall_plainItem_halves (by decide)).widths
  exact absurd hwidths (by decide +kernel)

end Aetheris.Layout
