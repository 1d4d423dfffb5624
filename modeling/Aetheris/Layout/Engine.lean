import Aetheris.Layout.TextLayout
import Aetheris.Library.Sweep

/-!
# The layout engine

`LayoutEngine` of `rendering/layout.cpp`.  A node is laid out by calls on its children, which are
changed in place; all that comes back from a call is the rectangle of the child.  So each loop over
the children is a sweep over their list: a step says what one turn of the loop does to a child, by
`recurse` for `layout_node`, and how it changes the local variables of the loop, and the children
that the loop passes over are skipped.  There is one step for each loop of the source: that of a
block, that of a line with its second placement of a box that does not fit, the column and the row
of a flexible box, the grid, and the positioned children at the end.  A flexible box whose items are
reversed is swept from its last child on.

`layoutNode` is the recursion.  It makes a rectangle and a box of what the sweeps return.  Its depth
is the height of the tree.
-/

namespace Aetheris.Layout

open Dom Style Length

variable {F : Type} [Length F]

/-! ## Values of properties -/

/-- `LayoutEngine::parse_length`. -/
def parseLength (value : Option Bytes) (fallback percentageBase : F) : F :=
  match value with
  | none => fallback
  | some value =>
    if value = [] ∨ value = lit "auto" then fallback
    else
      match (strtof value : Option (F × Bytes)) with
      | none => fallback
      | some (parsed, rest) =>
        if rest.head? = some (chr '%') then percentageBase * parsed / ofRat 100 else parsed

/-- `LayoutEngine::resolve_dimension`. -/
def resolveDimension (style : StyleProperties) (property : Bytes) (available fallback : F) : F :=
  parseLength (style.get property) fallback available

/-- The `side` lambda of `resolve_edges`. -/
def resolveSide (style : StyleProperties) (base name : Bytes) (percentageBase : F) : F :=
  match style.get (base ++ lit "-" ++ name) with
  | some value => parseLength (some value) 0 percentageBase
  | none =>
    if base = lit "border" then
      match style.get (lit "border-" ++ name ++ lit "-width") with
      | some value => parseLength (some value) 0 percentageBase
      | none => 0
    else 0

/-- `LayoutEngine::resolve_edges`. -/
def resolveEdges (style : StyleProperties) (base : Bytes) (percentageBase : F) : BoxEdges F where
  top := resolveSide style base (lit "top") percentageBase
  right := resolveSide style base (lit "right") percentageBase
  bottom := resolveSide style base (lit "bottom") percentageBase
  left := resolveSide style base (lit "left") percentageBase

omit [Length F] in
/-- `LayoutEngine::is_positioned`. -/
def isPositioned (node : LayoutFields F) : Bool :=
  node.style.get (lit "position") == some (lit "absolute") ||
    node.style.get (lit "position") == some (lit "fixed")

/-- The loops pass over a child that has no box, and over one that is positioned. -/
def passedOver (child : LayoutFields F) : Bool := child.display == .none || isPositioned child

/-- A text that `layout_inline_children` lays out itself. -/
def isInlineText (child : LayoutFields F) : Bool :=
  child.display == .inline && child.dom.type == .text

namespace LayoutFields

/-- A text is given its place and its fragments by its parent. -/
def setText (x y width : F) (fragments : List (TextFragment F)) (height : F) (node : LayoutFields F) :
    LayoutFields F :=
  let content : LayoutRect F := { node.box.content with x := x, y := y, width := width }
  if fragments = [] then
    { node with box := { node.box with content := content }, textFragments := [] }
  else
    { node with
      box := { node.box with content := { content with height := height } }
      rect := { content with height := height }
      textFragments := fragments }

/-- A node is moved down by its parent. -/
def moveDown (dy : F) (node : LayoutFields F) : LayoutFields F :=
  { node with rect := { node.rect with y := node.rect.y + dy } }

end LayoutFields

/-- The value of a tree is changed. -/
def modifyValue {α : Type} (f : α → α) (t : Rose α) : Rose α := .node (f t.value) t.children

/-- A way to lay out nodes: `layout_node`, with its `x`, `y` and `available_width`. -/
abbrev Recurse (F : Type) := F → F → F → LayoutNode F → LayoutNode F

/-- A child that the loops pass over. -/
def skipped (item : LayoutNode F) : Bool := passedOver item.value.still

/-- The children in the flow. -/
def inFlow (children : List (LayoutNode F)) : List (LayoutNode F) :=
  children.filter fun item => !skipped item

/-- The edges of a box, and its content box without the height. -/
structure Frame (F : Type) where
  margin : BoxEdges F
  padding : BoxEdges F
  border : BoxEdges F
  x : F
  y : F
  width : F

/-- The beginning of `layout_node`. -/
def frame (style : StyleProperties) (x y available : F) : Frame F :=
  let margin := resolveEdges style (lit "margin") available
  let padding := resolveEdges style (lit "padding") available
  let border := resolveEdges style (lit "border") available
  let specified := resolveDimension style (lit "width") available (-ofRat 1)
  let minWidth := resolveDimension style (lit "min-width") available 0
  let maxWidth := resolveDimension style (lit "max-width") available (-ofRat 1)
  let noncontent := margin.left + margin.right + padding.left + padding.right + border.left +
    border.right
  let width := if 0 ≤ specified then specified else fmax 0 (available - noncontent)
  let width := if 0 ≤ maxWidth then fmin width maxWidth else width
  { margin := margin
    padding := padding
    border := border
    x := x + margin.left + border.left + padding.left
    y := y + margin.top + border.top + padding.top
    width := fmax width minWidth }

section Loops

variable (recurse : Recurse F)

/-! ## Blocks and lines -/

/-- One turn of the loop over the children of a block. -/
def blockStep (x width cursorY : F) (item : LayoutNode F) : F × LayoutNode F :=
  let laid := recurse x cursorY width item
  (laid.value.rect.y + laid.value.rect.height, laid)

/-- The loop over the children of a block. -/
def blockFlow (frame : Frame F) (children : List (LayoutNode F)) :
    (F × F) × List (LayoutNode F) :=
  let swept := sweep (skipping skipped (blockStep recurse frame.x frame.width)) frame.y children
  ((swept.1, frame.width), swept.2)

/-- The local variables of `layout_inline_children`. -/
structure InlineCursor (F : Type) where
  x : F
  y : F
  maxBottom : F

/-- One turn of the loop over the fragments of a text.  The source may move `cursor_y` to the next
line first, and then sets it. -/
def followFragment (s : InlineCursor F) (fragment : TextFragment F) : InlineCursor F where
  x := fragment.rect.x + fragment.rect.width
  y := fragment.rect.y
  maxBottom := fmax s.maxBottom (fragment.rect.y + fragment.rect.height)

/-- What follows a child that is not a text. -/
def followChild (x width : F) (s : InlineCursor F) (rect : LayoutRect F) : InlineCursor F :=
  let maxBottom := fmax s.maxBottom (rect.y + rect.height)
  if x + width ≤ rect.x + rect.width then ⟨x, maxBottom, maxBottom⟩
  else ⟨rect.x + rect.width, s.y, maxBottom⟩

/-- One turn of the loop of `layout_inline_children`. -/
def inlineStep (x width : F) (s : InlineCursor F) (item : LayoutNode F) :
    InlineCursor F × LayoutNode F :=
  if isInlineText item.value.still then
    let remaining := fmax 0 (x + width - s.x)
    let fragments := textLayout item.value.dom.data s.x s.y remaining item.value.style
    let next := fragments.foldl followFragment s
    (next, modifyValue (LayoutFields.setText s.x s.y remaining fragments (next.maxBottom - s.y)) item)
  else
    let laid := recurse s.x s.y (x + width - s.x) item
    if x < s.x ∧ x + width - s.x < laid.value.rect.width then
      let laid := recurse x s.maxBottom width laid
      (followChild x width ⟨x, s.maxBottom, s.maxBottom⟩ laid.value.rect, laid)
    else (followChild x width s laid.value.rect, laid)

/-- `layout_inline_children`. -/
def layoutInlineChildren (node : LayoutFields F) (frame : Frame F) (children : List (LayoutNode F)) :
    (F × F) × List (LayoutNode F) :=
  let swept := sweep (skipping skipped (inlineStep recurse frame.x frame.width))
    ⟨frame.x, frame.y, frame.y⟩ children
  ((fmax swept.1.maxBottom (swept.1.y + lineHeight node.style), frame.width), swept.2)

/-! ## Flexible boxes -/

/-- The items of a flexible box are in a column. -/
def isColumn (node : LayoutFields F) : Prop :=
  node.style.get (lit "flex-direction") = some (lit "column") ∨
    node.style.get (lit "flex-direction") = some (lit "column-reverse")

/-- The items of a flexible box are taken from the last one on. -/
def isReversed (node : LayoutFields F) : Prop :=
  node.style.get (lit "flex-direction") = some (lit "row-reverse") ∨
    node.style.get (lit "flex-direction") = some (lit "column-reverse")

instance (node : LayoutFields F) : Decidable (isColumn node) :=
  inferInstanceAs (Decidable (_ ∨ _))

instance (node : LayoutFields F) : Decidable (isReversed node) :=
  inferInstanceAs (Decidable (_ ∨ _))

omit [Length F] in
/-- The children of a flexible box in the order of its items, and the other way round. -/
def ordered {α : Type} (node : LayoutFields F) (items : List α) : List α :=
  if isReversed node then items.reverse else items

/-- The gap between the items of a flexible box. -/
def flexGap (node : LayoutFields F) (available : F) : F :=
  parseLength (node.style.get (lit "gap")) 0 available

/-- One turn of the loop over the items of a column. -/
def columnStep (x width gap : F) (s : F × F) (item : LayoutNode F) :
    (F × F) × LayoutNode F :=
  let laid := recurse x s.1 width item
  ((laid.value.rect.y + laid.value.rect.height + gap, fmax s.2 laid.value.rect.width), laid)

/-- What the items of a row have in common. -/
structure FlexRow (F : Type) where
  y : F
  available : F
  gap : F
  extraGap : F
  freeSpace : F
  totalGrow : F
  align : Option Bytes

/-- The share of an item in what is left. -/
def flexGrow (child : LayoutFields F) (available : F) : F :=
  fmax 0 (parseLength (child.style.get (lit "flex-grow")) 0 available)

/-- The width that an item of a row is given. -/
def itemWidth (row : FlexRow F) (child : LayoutFields F) : F :=
  let specified := resolveDimension child.style (lit "width") row.available (-ofRat 1)
  if specified < 0 then
    if 0 < row.totalGrow then row.freeSpace * flexGrow child row.available / row.totalGrow else 0
  else specified

/-- One turn of the loop over the items of a row. -/
def rowStep (row : FlexRow F) (s : F × F) (item : LayoutNode F) :
    (F × F) × LayoutNode F :=
  let laid := recurse s.1 row.y (itemWidth row item.value.still) item
  ((laid.value.rect.x + laid.value.rect.width + row.gap + row.extraGap,
    fmax s.2 laid.value.rect.height),
    if row.align = some (lit "center") then
      modifyValue (LayoutFields.moveDown (fmax 0 (s.2 - laid.value.rect.height) / ofRat 2)) laid
    else laid)

/-- One turn of the loop for `flex-end`. -/
def alignBottom (maxHeight : F) (item : LayoutNode F) : LayoutNode F :=
  if skipped item then item
  else modifyValue (LayoutFields.moveDown (maxHeight - item.value.rect.height)) item

/-- The fixed widths of the items of a row, and their shares of what is left. -/
def flexTotals (available : F) (totals : F × F) (item : LayoutFields F) : F × F :=
  let width := resolveDimension item.style (lit "width") available (-ofRat 1)
  (if 0 ≤ width then totals.1 + width else totals.1, totals.2 + flexGrow item available)

/-- Where the first item of a row stands, and the gap that is added. -/
def justify (value : Option Bytes) (x freeSpace : F) (count : ℕ) : F × F :=
  if value = some (lit "center") then (x + freeSpace / ofRat 2, 0)
  else if value = some (lit "flex-end") then (x + freeSpace, 0)
  else if value = some (lit "space-between") ∧ 1 < count then
    (x, freeSpace / ofRat (count - 1 : ℕ))
  else if value = some (lit "space-around") then
    (x + freeSpace / ofRat count / ofRat 2, freeSpace / ofRat count)
  else (x, 0)

/-- The fixed widths and the gaps of a row, and the shares of what is left. -/
def rowTotals (node : LayoutFields F) (available : F) (items : List (LayoutFields F)) : F × F :=
  items.foldl (flexTotals available)
    (flexGap node available * ofRat (items.length - 1 : ℕ), 0)

/-- What is left of the width of a row. -/
def rowFreeSpace (node : LayoutFields F) (available : F) (items : List (LayoutFields F)) : F :=
  fmax 0 (available - (rowTotals node available items).1)

/-- Where the first item of a row stands, and the gap that is added. -/
def rowStart (node : LayoutFields F) (frame : Frame F) (items : List (LayoutFields F)) : F × F :=
  justify (node.style.get (lit "justify-content")) frame.x
    (rowFreeSpace node frame.width items) items.length

/-- What the items of a row have in common. -/
def rowOf (node : LayoutFields F) (frame : Frame F) (items : List (LayoutFields F)) :
    FlexRow F where
  y := frame.y
  available := frame.width
  gap := flexGap node frame.width
  extraGap := (rowStart node frame items).2
  freeSpace := rowFreeSpace node frame.width items
  totalGrow := (rowTotals node frame.width items).2
  align := node.style.get (lit "align-items")

/-- The items of a column: the new `cursor_y`, and the new width of the content box. -/
def columnFlow (node : LayoutFields F) (frame : Frame F) (children : List (LayoutNode F)) :
    (F × F) × List (LayoutNode F) :=
  let gap := flexGap node frame.width
  let swept := sweep (skipping skipped (columnStep recurse frame.x frame.width gap))
    (frame.y, 0) children
  ((swept.1.1 - gap, fmax frame.width swept.1.2), swept.2)

/-- The items of a row. -/
def rowFlow (node : LayoutFields F) (frame : Frame F) (children : List (LayoutNode F)) :
    (F × F) × List (LayoutNode F) :=
  let items := (inFlow children).map fun item => item.value.still
  let swept := sweep (skipping skipped (rowStep recurse (rowOf node frame items)))
    ((rowStart node frame items).1, 0) children
  ((frame.y + swept.1.2, frame.width),
    if node.style.get (lit "align-items") = some (lit "flex-end") then
      swept.2.map (alignBottom swept.1.2)
    else swept.2)

/-- `layout_flex_children`. -/
def layoutFlexChildren (node : LayoutFields F) (frame : Frame F) (children : List (LayoutNode F)) :
    (F × F) × List (LayoutNode F) :=
  if inFlow children = [] then ((frame.y, frame.width), children)
  else
    let swept :=
      if isColumn node then columnFlow recurse node frame (ordered node children)
      else rowFlow recurse node frame (ordered node children)
    (swept.1, ordered node swept.2)

/-! ## Grids -/

/-- One token of a list of tracks; a share is kept as a negative length. -/
def readTrack (available : F) (s : List F × F) (token : Bytes) : List F × F :=
  if 2 ≤ token.length ∧ token.drop (token.length - 2) = lit "fr" then
    (s.1 ++ [-fmax 0 ((strtof token : Option (F × Bytes)).elim 0 Prod.fst)], s.2)
  else
    let value := parseLength (some token) 0 available
    (s.1 ++ [value], s.2 + value)

/-- The gap between columns or rows. -/
def gridGap (node : LayoutFields F) (property : Bytes) (available : F) : F :=
  parseLength (node.style.get property) (parseLength (node.style.get (lit "gap")) 0 available)
    available

/-- The `parse_tracks` lambda. -/
def parseTracks (node : LayoutFields F) (available : F) (value : Option Bytes) : List F :=
  match value with
  | none => []
  | some value =>
    let tokens := (value.splitOnP fun c => c == chr ' ' || c == chr '\t').filter (· ≠ [])
    let (tracks, fixed) := tokens.foldl (readTrack available) ([], 0)
    let gap := gridGap node (lit "column-gap") available
    let remaining := fmax 0 (available - fixed - gap * ofRat (tracks.length - 1 : ℕ))
    let shares := tracks.foldl (fun total v => if v < 0 then total + -v else total) 0
    tracks.map fun v =>
      if v < 0 then if 0 < shares then remaining * -v / shares else 0 else v

/-- One turn of the loop over the items of a grid. -/
def gridStep (x y gapX gapY : F) (columns : List F) (s : ℕ × List F) (item : LayoutNode F) :
    (ℕ × List F) × LayoutNode F :=
  let column := s.1 % columns.length
  let row := s.1 / columns.length
  let rowHeights := s.2 ++ List.replicate (row + 1 - s.2.length) 0
  let left := (columns.take column).foldl (fun x width => x + (width + gapX)) x
  let top := (rowHeights.take row).foldl (fun y height => y + (height + gapY)) y
  let laid := recurse left top (columns.getD column 0) item
  ((s.1 + 1, rowHeights.set row (fmax (rowHeights.getD row 0) laid.value.rect.height)), laid)

/-- The tracks of the columns of a grid. -/
def gridColumns (node : LayoutFields F) (available : F) : List F :=
  let tracks := parseTracks node available (node.style.get (lit "grid-template-columns"))
  if tracks = [] then [available] else tracks

/-- `layout_grid_children`. -/
def layoutGridChildren (node : LayoutFields F) (frame : Frame F) (children : List (LayoutNode F)) :
    (F × F) × List (LayoutNode F) :=
  if inFlow children = [] then ((frame.y, frame.width), children)
  else
    let gapY := gridGap node (lit "row-gap") frame.width
    let swept := sweep (skipping skipped (gridStep recurse frame.x frame.y
      (gridGap node (lit "column-gap") frame.width) gapY (gridColumns node frame.width)))
      (0, []) children
    let total := swept.1.2.foldl (fun total height => total + height) 0
    ((frame.y + (total + gapY * ofRat (swept.1.2.length - 1 : ℕ)), frame.width), swept.2)

/-! ## Positioned boxes -/

/-- Where a positioned child is laid out. -/
def absolutePlace (x y height available : F) (child : LayoutFields F) : F × F :=
  let fixed := child.style.get (lit "position") = some (lit "fixed")
  let specified := resolveDimension child.style (lit "width") available 0
  let left := parseLength (child.style.get (lit "left")) (-ofRat 1) available
  let right := parseLength (child.style.get (lit "right")) (-ofRat 1) available
  let width :=
    if specified ≤ 0 ∧ 0 ≤ left ∧ 0 ≤ right then fmax 0 (available - left - right) else specified
  let baseX := if fixed then 0 else x
  let baseY := if fixed then 0 else y
  (if 0 ≤ left then baseX + left
    else if 0 ≤ right then baseX + available - right - width
    else baseX,
    baseY + parseLength (child.style.get (lit "top")) 0 height)

/-- One turn of the loop of `layout_absolute_children`. -/
def absoluteStep (x y height available : F) (item : LayoutNode F) : LayoutNode F :=
  if isPositioned item.value.still then
    let place := absolutePlace x y height available item.value.still
    recurse place.1 place.2 available item
  else item

/-- `layout_absolute_children`. -/
def layoutAbsoluteChildren (x y height available : F) (children : List (LayoutNode F)) :
    List (LayoutNode F) :=
  children.map (absoluteStep recurse x y height available)

/-! ## The recursion -/

omit [Length F] in
/-- `has_inline` of a child. -/
def isInline (child : LayoutFields F) : Bool :=
  !isPositioned child && (child.display == .inline || child.display == .inlineBlock)

/-- The children in the flow: the new `cursor_y`, and the width of the content box. -/
def flow (node : LayoutFields F) (frame : Frame F) (children : List (LayoutNode F)) :
    (F × F) × List (LayoutNode F) :=
  if node.display = .flex then layoutFlexChildren recurse node frame children
  else if node.display = .grid then layoutGridChildren recurse node frame children
  else if children.any fun item => isInline item.value.still then
    layoutInlineChildren recurse node frame children
  else blockFlow recurse frame children

end Loops

/-- The width and the height of the content box of an `img` element. -/
def imageSize (node : LayoutFields F) (available width : F) : F × F :=
  let attributeLength (name : Bytes) : F :=
    (node.dom.attributeValue name).elim 0 fun value => parseLength (some value) 0 available
  let intrinsicWidth := attributeLength (lit "width")
  let intrinsicHeight := attributeLength (lit "height")
  let specified := resolveDimension node.style (lit "width") available (-ofRat 1)
  let width := if specified < 0 ∧ 0 < intrinsicWidth then intrinsicWidth else width
  let ratio :=
    if 0 < intrinsicWidth ∧ 0 < intrinsicHeight then intrinsicHeight / intrinsicWidth
    else ofRat (3 / 4)
  let specifiedHeight := parseLength (node.style.get (lit "height")) (-ofRat 1) width
  (width,
    if 0 ≤ specifiedHeight then specifiedHeight
    else if 0 < intrinsicHeight then intrinsicHeight
    else width * ratio)

/-- The height of the content box of a text. -/
def textHeight (style : StyleProperties) (y : F) (fragments : List (TextFragment F)) : F :=
  match fragments.getLast? with
  | none => 0
  | some last => last.rect.y + lineHeight style - y

/-- The height of the content box of any other node. -/
def blockHeight (style : StyleProperties) (width contentHeight : F) : F :=
  let specified := parseLength (style.get (lit "height")) (-ofRat 1) width
  let minHeight := parseLength (style.get (lit "min-height")) 0 width
  let maxHeight := parseLength (style.get (lit "max-height")) (-ofRat 1) width
  let height := if 0 ≤ specified then specified else contentHeight
  let height :=
    match style.get (lit "aspect-ratio") with
    | none => height
    | some ratio =>
      let value (text : Bytes) : F := (strtof text : Option (F × Bytes)).elim 0 Prod.fst
      let rw := value ratio
      let rh := (find ratio (lit "/")).elim (ofRat 1) fun slash => value (ratio.drop (slash + 1))
      if 0 < rw ∧ 0 < rh ∧ specified < 0 then width * rh / rw else height
  let height := fmax height minHeight
  if 0 ≤ maxHeight then fmin height maxHeight else height

/-- The end of `layout_node`: the rectangle and the box of a node. -/
def placed (style : StyleProperties) (frame : Frame F) (x y available width boxWidth height : F) :
    LayoutRect F × BoxModel F :=
  let rect : LayoutRect F :=
    { x := x + frame.margin.left
      y := y + frame.margin.top
      width := width + frame.padding.left + frame.padding.right + frame.border.left +
        frame.border.right
      height := height + frame.padding.top + frame.padding.bottom + frame.border.top +
        frame.border.bottom }
  let content : LayoutRect F := ⟨frame.x, frame.y, boxWidth, height⟩
  let length (property : Bytes) : F := parseLength (style.get property) 0 available
  if style.get (lit "position") = some (lit "relative") then
    let dx := length (lit "left") - length (lit "right")
    let dy := length (lit "top") - length (lit "bottom")
    ({ rect with x := rect.x + dx, y := rect.y + dy },
      ⟨{ content with x := content.x + dx, y := content.y + dy }, frame.margin, frame.padding,
        frame.border⟩)
  else (rect, ⟨content, frame.margin, frame.padding, frame.border⟩)

/-- `LayoutEngine::layout_node`, down to the given depth. -/
def layoutNode : ℕ → F → F → F → LayoutNode F → LayoutNode F
  | 0, _, _, _, node => node
  | depth + 1, x, y, available, .node node children =>
    if node.display = .none then
      .node { node with rect := default, box := default, textFragments := [] } children
    else
      let frame := frame node.style x y available
      if node.dom.type = .element ∧ node.dom.name = lit "img" then
        let (width, height) := imageSize node.still available frame.width
        let (rect, box) := placed node.style frame x y available width width height
        .node { node with rect := rect, box := box } children
      else if node.dom.type = .text then
        let fragments := textLayout node.dom.data frame.x frame.y frame.width node.style
        let height := textHeight node.style frame.y fragments
        let (rect, box) := placed node.style frame x y available frame.width frame.width height
        .node { node with rect := rect, box := box, textFragments := fragments } children
      else
        let ((cursorY, boxWidth), children) := flow (layoutNode depth) node.still frame children
        let height := blockHeight node.style frame.width (cursorY - frame.y)
        let children :=
          layoutAbsoluteChildren (layoutNode depth) frame.x frame.y height frame.width children
        let (rect, box) := placed node.style frame x y available frame.width boxWidth height
        .node { node with rect := rect, box := box } children

/-- `LayoutEngine::layout`. -/
def layout (root : LayoutNode F) (viewportWidth : F) : LayoutNode F :=
  layoutNode root.height 0 0 viewportWidth root

end Aetheris.Layout
