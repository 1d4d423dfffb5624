import Aetheris.Layout.Sizes
import Aetheris.Layout.Translation

/-!
# Block stacking

The children of a block stand one below the other.  The next child begins where the border box of
the one before ends, so that bottom margins take no room.  A stack as it should be has both margins
between two children; the two are compared child by child, and at the end with the height of the
block, which `min-height` may make large enough for the last margin.
-/

namespace Aetheris.Layout

open Dom Style Length

/-! ## Stacks -/

/-- The margin box of a node. -/
def marginBox (node : LayoutFields ℚ) : LayoutRect ℚ where
  x := node.rect.x - node.box.margin.left
  y := node.rect.y - node.box.margin.top
  width := node.box.margin.left + node.rect.width + node.box.margin.right
  height := node.box.margin.top + node.rect.height + node.box.margin.bottom

/-- One rectangle is inside of another one. -/
structure Inside (inner outer : LayoutRect ℚ) : Prop where
  left : outer.x ≤ inner.x
  right : inner.x + inner.width ≤ outer.x + outer.width
  top : outer.y ≤ inner.y
  bottom : inner.y + inner.height ≤ outer.y + outer.height

/-- The border box of each child begins below that of the one before, and both margins are between
them. -/
def Stacked (cells : List (LayoutNode ℚ)) : Prop :=
  cells.IsChain fun a b => a.value.rect.y + a.value.rect.height + a.value.box.margin.bottom +
    b.value.box.margin.top ≤ b.value.rect.y

/-- The height of a box is that of its content. -/
def AutoHeight (node : LayoutFields ℚ) (available : ℚ) : Prop :=
  parseLength (node.style.get (lit "height")) (-1) (boundedWidth node available) < 0 ∧
    ratioHeight node.style (boundedWidth node available) = none

/-- The content box contains the margin boxes of the children. -/
def ContainsChildren (content : LayoutRect ℚ) (cells : List (LayoutNode ℚ)) : Prop :=
  ∀ cell ∈ cells, Inside (marginBox cell.value) content

/-- The height that top margins and border boxes take. -/
def stackHeight (cells : List (LayoutNode ℚ)) : ℚ :=
  (cells.map fun cell => cell.value.box.margin.top + cell.value.rect.height).sum

/-- Children that stand below each other, from a place on. -/
def StandsAt (x y : ℚ) (cells : List (LayoutNode ℚ)) : Prop :=
  ∀ i cell, cells[i]? = some cell → cell.value.rect.x = x + cell.value.box.margin.left ∧
    cell.value.rect.y = y + stackHeight (cells.take i) + cell.value.box.margin.top

theorem standsAt_cons {x y : ℚ} {cell : LayoutNode ℚ} {cells : List (LayoutNode ℚ)} :
    StandsAt x y (cell :: cells) ↔
      (cell.value.rect.x = x + cell.value.box.margin.left ∧
        cell.value.rect.y = y + cell.value.box.margin.top) ∧
      StandsAt x (y + (cell.value.box.margin.top + cell.value.rect.height)) cells := by
  constructor
  · intro h
    refine ⟨?_, fun i other hother => ?_⟩
    · have hfirst := h 0 cell rfl
      rwa [List.take_zero, stackHeight, List.map_nil, List.sum_nil, add_zero] at hfirst
    · have hnext := h (i + 1) other hother
      rwa [List.take_succ_cons, stackHeight, List.map_cons, List.sum_cons, ← add_assoc] at hnext
  · rintro ⟨hfirst, hrest⟩ i other hother
    cases i with
    | zero =>
      obtain rfl := Option.some.inj hother
      rwa [List.take_zero, stackHeight, List.map_nil, List.sum_nil, add_zero]
    | succ i =>
      have hnext := hrest i other hother
      rwa [List.take_succ_cons, stackHeight, List.map_cons, List.sum_cons, ← add_assoc]

/-- **A stack has both margins between its children if and only if** only its last child has a
bottom margin. -/
theorem stacked_iff {x y : ℚ} {cells : List (LayoutNode ℚ)} (h : StandsAt x y cells)
    (hmargins : ∀ cell ∈ cells, 0 ≤ cell.value.box.margin.bottom) :
    Stacked cells ↔ ∀ cell ∈ cells.dropLast, cell.value.box.margin.bottom = 0 := by
  induction cells generalizing y with
  | nil => exact iff_of_true List.IsChain.nil fun cell hcell => absurd hcell List.not_mem_nil
  | cons a cells ih =>
    cases cells with
    | nil =>
      exact iff_of_true (List.isChain_singleton _) fun cell hcell => absurd hcell List.not_mem_nil
    | cons b cells =>
      obtain ⟨⟨-, ha⟩, hrest⟩ := standsAt_cons.mp h
      obtain ⟨⟨-, hb⟩, -⟩ := standsAt_cons.mp hrest
      have hbottom := hmargins a List.mem_cons_self
      rw [Stacked, List.isChain_cons_cons, List.dropLast_cons_cons, List.forall_mem_cons,
        ← ih hrest fun cell hcell => hmargins cell (List.mem_cons_of_mem _ hcell)]
      refine and_congr_left fun _ => ?_
      rw [hb, ha]
      constructor
      · intro hle
        linarith
      · intro hzero
        linarith

/-! ## The loop -/

/-- The children of a block stand below each other. -/
theorem blockStep_stacked (depth : ℕ) (x width cursorY : ℚ) {items : List (LayoutNode ℚ)}
    (hdisplay : ∀ item ∈ items, item.value.display ≠ .none)
    (hstatic : ∀ item ∈ items, item.value.style.get (lit "position") ≠ some (lit "relative")) :
    StandsAt x cursorY (sweep (blockStep (layoutNode (depth + 1)) x width) cursorY items).2 ∧
      (sweep (blockStep (layoutNode (depth + 1)) x width) cursorY items).1 =
        cursorY +
          stackHeight (sweep (blockStep (layoutNode (depth + 1)) x width) cursorY items).2 := by
  induction items generalizing cursorY with
  | nil => exact ⟨fun i cell h => absurd h (by simp), (add_zero cursorY).symm⟩
  | cons item items ih =>
    obtain ⟨hitem, hitems⟩ := List.forall_mem_cons.mp hdisplay
    obtain ⟨hitemStatic, hitemsStatic⟩ := List.forall_mem_cons.mp hstatic
    have hx := rect_x_layoutNode hitem depth x cursorY width
    have hy := rect_y_layoutNode hitem depth x cursorY width
    rw [relativeOffset_of_ne hitemStatic, add_zero, ← margin_layoutNode hitem depth x cursorY] at hx hy
    obtain ⟨hstands, hend⟩ := ih (blockStep (layoutNode (depth + 1)) x width cursorY item).1 hitems
      hitemsStatic
    have hcursor : (blockStep (layoutNode (depth + 1)) x width cursorY item).1 =
        cursorY + ((layoutNode (depth + 1) x cursorY width item).value.box.margin.top +
          (layoutNode (depth + 1) x cursorY width item).value.rect.height) := by
      rw [← add_assoc, ← hy]
      rfl
    rw [sweep_cons]
    refine ⟨standsAt_cons.mpr ⟨⟨hx, hy⟩, ?_⟩, ?_⟩
    · rw [hcursor] at hstands ⊢
      exact hstands
    · rw [stackHeight, List.map_cons, List.sum_cons, ← add_assoc]
      rw [hcursor] at hend ⊢
      exact hend

/-! ## Blocks -/

/-- The margins that a child of this width has. -/
def margins (width : ℚ) (item : LayoutNode ℚ) : BoxEdges ℚ :=
  resolveEdges item.value.style (lit "margin") width

/-- The children of a block are stacked, and are inside of it if its height is that of its
content. -/
def BlockStacks (node : LayoutFields ℚ) (available : ℚ) (laid : LayoutNode ℚ) : Prop :=
  Stacked (inFlow laid.children) ∧
    (AutoHeight node available →
      ContainsChildren laid.value.box.content (inFlow laid.children))

/-- The height that the top margins and the border boxes of some items take. -/
def itemsHeight (depth : ℕ) (width : ℚ) (items : List (LayoutNode ℚ)) : ℚ :=
  (items.map fun item => (margins width item).top + outerHeight depth width item).sum

/-- The children of a block are no wider than it, and the bottom margin of each has room in what
follows the child, or in what `min-height` adds.  The block itself is not moved to the right, and
not below its children. -/
structure ChildrenFit (depth : ℕ) (node : LayoutFields ℚ) (available : ℚ)
    (items : List (LayoutNode ℚ)) : Prop where
  wide : ∀ item ∈ items, (relativeOffset node.style available).1 ≤ 0 ∧
    (margins (boundedWidth node available) item).left +
        borderBoxWidth item.value.still (boundedWidth node available) +
        (margins (boundedWidth node available) item).right ≤
      boundedWidth node available + (relativeOffset node.style available).1
  tall : ∀ i item, items[i]? = some item →
    (relativeOffset node.style available).2 ≤
        itemsHeight depth (boundedWidth node available) (items.take i) ∧
      (margins (boundedWidth node available) item).bottom ≤
        itemsHeight depth (boundedWidth node available) (items.drop (i + 1)) +
          (blockHeight node.style (boundedWidth node available)
              (itemsHeight depth (boundedWidth node available) items) -
            itemsHeight depth (boundedWidth node available) items) +
          (relativeOffset node.style available).2

/-- Only the last child has a bottom margin, and with an automatic height the children fit. -/
def MarginsFit (depth : ℕ) (node : LayoutFields ℚ) (available : ℚ)
    (items : List (LayoutNode ℚ)) : Prop :=
  (∀ item ∈ items.dropLast, (margins (boundedWidth node available) item).bottom = 0) ∧
    (AutoHeight node available → ChildrenFit depth node available items)

/-- A child is inside of a box that stands around the place where the stack begins. -/
theorem inside_iff {x y : ℚ} {cells : List (LayoutNode ℚ)} (h : StandsAt x y cells) {i : ℕ}
    {cell : LayoutNode ℚ} (hcell : cells[i]? = some cell) (dx dy width height : ℚ) :
    Inside (marginBox cell.value) ⟨x + dx, y + dy, width, height⟩ ↔
      (dx ≤ 0 ∧ cell.value.box.margin.left + cell.value.rect.width +
          cell.value.box.margin.right ≤ width + dx) ∧
        dy ≤ stackHeight (cells.take i) ∧ cell.value.box.margin.bottom ≤
          stackHeight (cells.drop (i + 1)) + (height - stackHeight cells) + dy := by
  obtain ⟨hx, hy⟩ := h i cell hcell
  obtain ⟨hi, rfl⟩ := List.getElem?_eq_some_iff.mp hcell
  have htotal : stackHeight cells = stackHeight (cells.take i) +
      (cells[i].value.box.margin.top + cells[i].value.rect.height) +
        stackHeight (cells.drop (i + 1)) := by
    have hsplit := congrArg stackHeight (List.take_append_drop i cells)
    rw [List.drop_eq_getElem_cons hi, stackHeight, List.map_append, List.sum_append,
      List.map_cons, List.sum_cons, ← add_assoc] at hsplit
    exact hsplit.symm
  constructor
  · rintro ⟨hleft, hright, htop, hbottom⟩
    simp only [marginBox] at hleft hright htop hbottom
    refine ⟨⟨?_, ?_⟩, ?_, ?_⟩ <;> linarith
  · rintro ⟨⟨hleft, hright⟩, htop, hbottom⟩
    constructor <;> simp only [marginBox] <;> linarith

/-- A child has the margins and the size of the item that it is made of. -/
structure IsMadeOf (depth : ℕ) (width : ℚ) (item cell : LayoutNode ℚ) : Prop where
  margin : cell.value.box.margin = margins width item
  outerWidth : cell.value.rect.width = borderBoxWidth item.value.still width
  outerHeight : cell.value.rect.height = Layout.outerHeight depth width item

theorem IsMadeOf.bottoms {depth : ℕ} {width : ℚ} {items cells : List (LayoutNode ℚ)}
    (h : List.Forall₂ (IsMadeOf depth width) items cells) :
    cells.map (fun cell => cell.value.box.margin.bottom) =
      items.map fun item => (margins width item).bottom := by
  induction h with
  | nil => rfl
  | cons hfirst _ ih => rw [List.map_cons, List.map_cons, ih, hfirst.margin]

theorem IsMadeOf.stackHeight {depth : ℕ} {width : ℚ} {items cells : List (LayoutNode ℚ)}
    (h : List.Forall₂ (IsMadeOf depth width) items cells) :
    stackHeight cells = itemsHeight depth width items := by
  induction h with
  | nil => rfl
  | cons hfirst _ ih =>
    rw [Layout.stackHeight, itemsHeight, List.map_cons, List.map_cons, List.sum_cons,
      List.sum_cons, hfirst.margin, hfirst.outerHeight]
    exact congrArg _ ih

/-- The children that a block makes of its items have the margins and the sizes of these. -/
theorem forall₂_blockStep (depth : ℕ) (x width cursorY : ℚ) {items : List (LayoutNode ℚ)}
    (hdisplay : ∀ item ∈ items, item.value.display ≠ .none)
    (hdepth : ∀ item ∈ items, item.height ≤ depth + 1) :
    List.Forall₂ (IsMadeOf (depth + 1) width) items
      (sweep (blockStep (layoutNode (depth + 1)) x width) cursorY items).2 := by
  induction items generalizing cursorY with
  | nil => exact .nil
  | cons item items ih =>
    obtain ⟨hitem, hitems⟩ := List.forall_mem_cons.mp hdisplay
    obtain ⟨hheight, hheights⟩ := List.forall_mem_cons.mp hdepth
    rw [sweep_cons]
    exact .cons ⟨margin_layoutNode hitem depth x cursorY width,
      rect_width_layoutNode hitem depth x cursorY width,
      rect_height_layoutNode hheight hitem x cursorY width⟩ (ih _ hitems hheights)

/-- A box around the place where a stack begins contains the children if they fit. -/
theorem containsChildren_iff {depth : ℕ} {node : LayoutFields ℚ} {available x y : ℚ}
    {items cells : List (LayoutNode ℚ)} (hstands : StandsAt x y cells)
    (h : List.Forall₂ (IsMadeOf depth (boundedWidth node available)) items cells) :
    ContainsChildren ⟨x + (relativeOffset node.style available).1,
        y + (relativeOffset node.style available).2, boundedWidth node available,
        blockHeight node.style (boundedWidth node available) (stackHeight cells)⟩ cells ↔
      ChildrenFit depth node available items := by
  obtain ⟨hlength, hall⟩ := List.forall₂_iff_get.mp h
  have hbefore (i : ℕ) := IsMadeOf.stackHeight (List.forall₂_take i h)
  have hbehind (i : ℕ) := IsMadeOf.stackHeight (List.forall₂_drop i h)
  have htotal := IsMadeOf.stackHeight h
  constructor
  · intro hinside
    have hfits {i : ℕ} {item : LayoutNode ℚ} (hitem : items[i]? = some item) :
        ∃ cell, cells[i]? = some cell ∧ IsMadeOf depth (boundedWidth node available) item cell := by
      obtain ⟨hi, rfl⟩ := List.getElem?_eq_some_iff.mp hitem
      exact ⟨_, List.getElem?_eq_getElem (hlength ▸ hi), hall i hi (hlength ▸ hi)⟩
    refine ⟨fun item hmem => ?_, fun i item hitem => ?_⟩
    · obtain ⟨i, hitem⟩ := List.mem_iff_getElem?.mp hmem
      obtain ⟨cell, hcell, hmade⟩ := hfits hitem
      rw [← hmade.margin, ← hmade.outerWidth]
      exact ((inside_iff hstands hcell _ _ _ _).mp
        (hinside cell (List.mem_of_getElem? hcell))).1
    · obtain ⟨cell, hcell, hmade⟩ := hfits hitem
      rw [← hmade.margin, ← hbefore, ← hbehind, ← htotal]
      exact ((inside_iff hstands hcell _ _ _ _).mp
        (hinside cell (List.mem_of_getElem? hcell))).2
  · rintro ⟨hwide, htall⟩ cell hmem
    obtain ⟨i, hcell⟩ := List.mem_iff_getElem?.mp hmem
    obtain ⟨hi, rfl⟩ := List.getElem?_eq_some_iff.mp hcell
    obtain ⟨hmargin, hwidth, -⟩ := hall i (hlength ▸ hi) hi
    have hitem := List.getElem?_eq_getElem (hlength ▸ hi : i < items.length)
    rw [List.get_eq_getElem, List.get_eq_getElem] at hmargin hwidth
    rw [inside_iff hstands hcell, hmargin, hwidth, hbefore, hbehind, htotal]
    exact ⟨hwide _ (List.mem_of_getElem? hitem), htall i _ hitem⟩

/-- A block that stacks its children. -/
theorem layoutNode_block (depth : ℕ) (x y available : ℚ) {node : LayoutFields ℚ}
    {children : List (LayoutNode ℚ)} (hcontents : hasContents node = true)
    (hflex : node.display ≠ .flex) (hgrid : node.display ≠ .grid)
    (hblock : ∀ item ∈ children, isInline item.value.still = false) :
    let width := boundedWidth node.still available
    let frame := frame node.style x y available
    let swept := sweep (blockStep (layoutNode depth) frame.x width) frame.y (inFlow children)
    let offset := relativeOffset node.style available
    inFlow (layoutNode (depth + 1) x y available (.node node children)).children = swept.2 ∧
      (layoutNode (depth + 1) x y available (.node node children)).value.box.content =
        ⟨frame.x + offset.1, frame.y + offset.2, width,
          blockHeight node.style width (swept.1 - frame.y)⟩ := by
  obtain ⟨hdisplay, himage, htext⟩ := hasContents_iff.mp hcontents
  have hwidth : (frame node.style x y available).width = boundedWidth node.still available :=
    frame_width_eq himage x y available
  have hflow : flow (layoutNode depth) node.still (frame node.style x y available) children =
      blockFlow (layoutNode depth) (frame node.style x y available) children :=
    flow_block hflex hgrid _ hblock
  have hsweep := inFlow_sweep (still_blockStep (still_layoutNode depth)
    (frame node.style x y available).x (boundedWidth node.still available))
    (frame node.style x y available).y children
  dsimp only
  rw [inFlow_layoutNode hcontents, hflow, blockFlow, hwidth, hsweep]
  refine ⟨rfl, ?_⟩
  rw [(layoutNode_placed hdisplay depth x y available children).2, placed_eq, contentSize,
    if_neg (show ¬ isImage node.still from himage),
    if_neg (show ¬ node.still.dom.type = .text from htext), contentsHeight]
  dsimp only
  rw [show frame node.still.style x y available = frame node.style x y available from rfl, hflow,
    blockFlow, hwidth]
  rfl

/-- **The children of a block are stacked if and only if their bottom margins do no harm**: between
two children there is no bottom margin, and with an automatic height the last one is made room for
by `min-height`. -/
theorem block_stacking_iff (depth : ℕ) (x y available : ℚ) (node : LayoutFields ℚ)
    (children : List (LayoutNode ℚ)) (hcontents : hasContents node = true)
    (hflex : node.display ≠ .flex) (hgrid : node.display ≠ .grid)
    (hblock : ∀ item ∈ children, isInline item.value.still = false)
    (hstatic : ∀ item ∈ inFlow children,
      item.value.style.get (lit "position") ≠ some (lit "relative"))
    (hmargins : ∀ item ∈ inFlow children,
      0 ≤ (margins (boundedWidth node.still available) item).bottom)
    (hdepth : (Rose.node node children).height ≤ depth + 1) :
    BlockStacks node.still available (layoutNode (depth + 1) x y available (.node node children)) ↔
      MarginsFit depth node.still available (inFlow children) := by
  have hheights := Rose.height_node_le_succ.mp hdepth
  obtain ⟨hcells, hcontent⟩ := layoutNode_block depth x y available hcontents hflex hgrid hblock
  rw [BlockStacks, MarginsFit, hcells, hcontent]
  have hmem {item : LayoutNode ℚ} (hitem : item ∈ inFlow children) : item ∈ children :=
    (mem_inFlow.mp hitem).1
  cases hitems : inFlow children with
  | nil =>
    refine iff_of_true ⟨.nil, fun _ cell hcell => absurd hcell List.not_mem_nil⟩
      ⟨fun item hitem => absurd hitem List.not_mem_nil, fun _ => ⟨?_, ?_⟩⟩
    · exact fun item hitem => absurd hitem List.not_mem_nil
    · exact fun i item hitem => absurd (List.mem_of_getElem? hitem) List.not_mem_nil
  | cons first rest =>
    obtain ⟨depth, rfl⟩ := exists_eq_succ_of_height_le
      (hheights first (hmem (hitems ▸ List.mem_cons_self)))
    rw [← hitems]
    have hdisplay (item : LayoutNode ℚ) (hitem : item ∈ inFlow children) :
        item.value.display ≠ .none := display_of_mem_inFlow hitem
    generalize frame node.style x y available = frame
    obtain ⟨hstands, hend⟩ := blockStep_stacked depth frame.x
      (boundedWidth node.still available) frame.y hdisplay hstatic
    have hall := forall₂_blockStep depth frame.x (boundedWidth node.still available) frame.y
      hdisplay fun item hitem => hheights item (hmem hitem)
    rw [hend, add_sub_cancel_left]
    generalize (sweep (blockStep (layoutNode (depth + 1)) frame.x
      (boundedWidth node.still available)) frame.y (inFlow children)).2 = cells at hstands hall ⊢
    have hbottoms := IsMadeOf.bottoms hall
    refine and_congr ?_ (imp_congr_right fun _ => containsChildren_iff hstands hall)
    rw [stacked_iff hstands]
    · rw [← List.forall_mem_map (P := fun bottom : ℚ => bottom = 0), List.map_dropLast, hbottoms,
        ← List.map_dropLast, List.forall_mem_map]
    · rw [← List.forall_mem_map (P := fun bottom : ℚ => 0 ≤ bottom), hbottoms, List.forall_mem_map]
      exact hmargins

/-- A paragraph with room below it. -/
def spacedParagraph : LayoutNode ℚ :=
  element (lit "p") .block [(lit "height", lit "20px"), (lit "margin-bottom", lit "10px")] []

/-- A box for two of them. -/
def article : LayoutFields ℚ := unlaid { type := .element, name := lit "article" } .block []

theorem block_stacking_iff_article :
    BlockStacks article.still 100
        (layoutNode 2 0 0 100 (.node article [spacedParagraph, spacedParagraph])) ↔
      MarginsFit 1 article.still 100 (inFlow [spacedParagraph, spacedParagraph]) :=
  block_stacking_iff 1 0 0 100 article [spacedParagraph, spacedParagraph] (by decide) (by decide)
    (by decide) (by decide) (by decide +kernel) (by decide +kernel) (by decide)

/-- The second paragraph begins where the border box of the first one ends. -/
theorem not_forall_blockStacks :
    ¬∀ (depth : ℕ) (x y available : ℚ) (node : LayoutFields ℚ) (children : List (LayoutNode ℚ)),
      hasContents node = true → node.display ≠ .flex → node.display ≠ .grid →
        (∀ item ∈ children, isInline item.value.still = false) →
        (∀ item ∈ inFlow children,
          item.value.style.get (lit "position") ≠ some (lit "relative")) →
        (∀ item ∈ inFlow children,
          0 ≤ (margins (boundedWidth node.still available) item).bottom) →
        (Rose.node node children).height ≤ depth + 1 →
          BlockStacks node.still available
            (layoutNode (depth + 1) x y available (.node node children)) := by
  intro h
  have hstacked : List.IsChain _ _ :=
    (h 1 0 0 100 article [spacedParagraph, spacedParagraph] (by decide) (by decide) (by decide)
      (by decide) (by decide +kernel) (by decide +kernel) (by decide)).1
  exact absurd hstacked (by decide +kernel)

end Aetheris.Layout
