import Aetheris.Layout.Translation

/-!
# Where a node is laid out

The places of the boxes along a line depend on nothing that is computed down the page: the edges of
a box, the width of its content and the place of its left side come from its style, its `x` and the
width that is available to it alone.  So one can say beforehand, from the tree as it was built, at
which `x` and with which available width the layout comes to a node.  Such a spot is handed down
from a node to its children: a child of a block gets the width of the content box, an item of a row
its own width, an item of a grid that of its track, a child of a line what is left of the line, and
a second time the whole line if it does not fit.  `spotsAt` is this recursion along a place.

The layout itself does something to a node for each of its spots, one after the other, and nothing
else (`acts_layoutNode`): what becomes of the value at a place is a chain of such deeds, one for
each spot (`Chain`).  A deed depends on the tree as it was built, and not on what earlier layouts
have left of it.
-/

namespace Aetheris.Layout

open Dom Style Length

/-- The left side and the width that are given to a node, by its parent's loop over a line if it is a
text that the loop lays out itself. -/
structure Spot (F : Type) where
  x : F
  available : F
  inLine : Bool
  deriving DecidableEq, Repr

section Analysis

variable {F : Type} [Length F]

/-! ## Spots of the children -/

/-- The left side and the width of the rectangle of a displayed node. -/
def extent (x available : F) (node : LayoutFields F) : F × F :=
  let frame := frame node.style x 0 available
  let width := if isImage node then (imageSize node available frame.width).1 else frame.width
  let rect := (placed node.style frame x 0 available width width 0).1
  (rect.x, rect.width)

/-- A child of a block, or an item of a column. -/
def blockSpots (x width : F) (s : Unit) (_ : LayoutFields F) : Unit × List (Spot F) :=
  (s, [⟨x, width, false⟩])

/-- Where a line goes on behind a box. -/
def nextX (x width : F) (extent : F × F) : F :=
  if x + width ≤ extent.1 + extent.2 then x else extent.1 + extent.2

/-- A child of a line: a text gets what is left of it, and another box is laid out again if it does
not fit. -/
def lineSpots (x width s : F) (child : LayoutFields F) : F × List (Spot F) :=
  if isInlineText child then
    let remaining := fmax 0 (x + width - s)
    let fragments := textLayout child.dom.data s 0 remaining child.style
    (fragments.getLast?.elim s fun last => last.rect.x + last.rect.width, [⟨s, remaining, true⟩])
  else
    let first : Spot F := ⟨s, x + width - s, false⟩
    let extent := extent s first.available child
    if x < s ∧ first.available < extent.2 then
      (nextX x width (Layout.extent x width child), [first, ⟨x, width, false⟩])
    else (nextX x width extent, [first])

/-- An item of a row. -/
def rowSpots (row : FlexRow F) (s : F) (child : LayoutFields F) : F × List (Spot F) :=
  let width := itemWidth row child
  let extent := extent s width child
  (extent.1 + extent.2 + row.gap + row.extraGap, [⟨s, width, false⟩])

/-- An item of a grid. -/
def gridSpots (x gapX : F) (columns : List F) (index : ℕ) (_ : LayoutFields F) :
    ℕ × List (Spot F) :=
  let column := index % columns.length
  (index + 1, [⟨(columns.take column).foldl (fun x width => x + (width + gapX)) x,
    columns.getD column 0, false⟩])

/-- The spots that a loop gives to the children; those that it passes over get none. -/
def trail {η : Type} (spots : η → LayoutFields F → η × List (Spot F)) (s : η)
    (children : List (LayoutFields F)) : List (List (Spot F)) :=
  (sweep (fun s child => if passedOver child then (s, []) else spots s child) s children).2

/-- The spots of the children in the flow. -/
def flowSpots (node : LayoutFields F) (frame : Frame F) (children : List (LayoutFields F)) :
    List (List (Spot F)) :=
  if node.display = .flex then
    let items := ordered node children
    ordered node <|
      if isColumn node then trail (blockSpots frame.x frame.width) () items
      else
        let inFlow := items.filter fun child => !passedOver child
        trail (rowSpots (rowOf node frame inFlow)) (rowStart node frame inFlow).1 items
  else if node.display = .grid then
    trail (gridSpots frame.x (gridGap node (lit "column-gap") frame.width)
      (gridColumns node frame.width)) 0 children
  else if children.any isInline then trail (lineSpots frame.x frame.width) frame.x children
  else trail (blockSpots frame.x frame.width) () children

/-- The spot of a positioned child. -/
def absoluteSpots (frame : Frame F) (child : LayoutFields F) : List (Spot F) :=
  if isPositioned child then
    [⟨(absolutePlace frame.x 0 0 frame.width child).1, frame.width, false⟩]
  else []

/-- The spots of one of the children of a node, in the order in which the layout comes to them. -/
def childSpots (node : LayoutFields F) (x available : F) (children : List (LayoutFields F))
    (i : ℕ) : List (Spot F) :=
  let frame := frame node.style x 0 available
  (flowSpots node frame children)[i]?.getD [] ++ (children[i]?).elim [] (absoluteSpots frame)

/-- **The spots of the node at a place**, for a tree that is laid out at some spots. -/
def spotsAt : List ℕ → List (Spot F) → LayoutNode F → List (Spot F)
  | [], spots, _ => spots
  | i :: place, spots, .node node children =>
    (children[i]?).elim [] fun child =>
      spotsAt place
        (if hasContents node then
          spots.flatMap fun spot =>
            childSpots node spot.x spot.available (children.map Rose.value) i
        else []) child

/-- The width that a text at a spot has for its lines. -/
def Spot.room (spot : Spot F) (node : LayoutFields F) : F :=
  if spot.inLine then spot.available else (frame node.style spot.x 0 spot.available).width

end Analysis

/-! ## What is done to a node -/

section Deeds

variable {F : Type} [Length F] {node : LayoutFields F} {spot : Spot F} {spots spots' : List (Spot F)}
  {f g : LayoutFields F → LayoutFields F}

/-- What is done to a node at a spot. -/
inductive Deed (node : LayoutFields F) (spot : Spot F) : (LayoutFields F → LayoutFields F) → Prop
  /-- The parent gives a text its fragments. -/
  | text (y height : F) (hline : spot.inLine = true) :
    Deed node spot (LayoutFields.setText spot.x y spot.available
      (textLayout node.dom.data spot.x y spot.available node.style) height)
  /-- The node is laid out, and has no children to be laid out. -/
  | leaf (y : F) (hline : spot.inLine = false) (hleaf : hasContents node = false) :
    Deed node spot (layoutLeaf spot.x y spot.available)
  /-- The node and its children are laid out. -/
  | contents (rect : LayoutRect F) (box : BoxModel F) (hline : spot.inLine = false)
    (hcontents : hasContents node = true) :
    Deed node spot fun fields => { fields with rect := rect, box := box }
  /-- The node is moved down in its row. -/
  | moveDown (dy : F) {f : LayoutFields F → LayoutFields F} (hline : spot.inLine = false)
    (h : Deed node spot f) : Deed node spot fun fields => (f fields).moveDown dy

/-- What is done to a node at some spots, one after the other. -/
inductive Chain (node : LayoutFields F) : List (Spot F) → (LayoutFields F → LayoutFields F) → Prop
  | nil : Chain node [] fun fields => fields
  | cons {spot : Spot F} {spots : List (Spot F)} {f g : LayoutFields F → LayoutFields F}
    (hfirst : Deed node spot f) (hrest : Chain node spots g) :
    Chain node (spot :: spots) fun fields => g (f fields)

theorem Chain.append (h : Chain node spots f) (h' : Chain node spots' g) :
    Chain node (spots ++ spots') fun fields => g (f fields) := by
  induction h with
  | nil => exact h'
  | cons hfirst _ ih =>
    have hchain := Chain.cons hfirst ih
    exact hchain

theorem chain_singleton_iff : Chain node [spot] f ↔ Deed node spot f := by
  constructor
  · rintro (_ | ⟨hfirst, _ | _⟩)
    exact hfirst
  · intro h
    have hchain := Chain.cons h .nil
    exact hchain

theorem Deed.still (h : Deed node spot f) (fields : LayoutFields F) :
    (f fields).still = fields.still := by
  induction h with
  | text => exact LayoutFields.still_setText
  | leaf => exact LayoutFields.still_layoutLeaf
  | contents => rfl
  | moveDown _ _ _ ih => exact ih

theorem Chain.still (h : Chain node spots f) (fields : LayoutFields F) :
    (f fields).still = fields.still := by
  induction h generalizing fields with
  | nil => rfl
  | cons hfirst _ ih => exact (ih _).trans (hfirst.still fields)

/-- What a layout reads of a node. -/
theorem eq_of_still_eq {a b : LayoutFields F} (h : a.still = b.still) :
    a.display = b.display ∧ a.dom = b.dom ∧ a.style = b.style := by
  have hdisplay := congrArg LayoutFields.display h
  have hdom := congrArg LayoutFields.dom h
  have hstyle := congrArg LayoutFields.style h
  exact ⟨hdisplay, hdom, hstyle⟩

/-- The rectangle that a node gets is not that of an earlier layout. -/
theorem Deed.rect_eq (h : Deed node spot f) (hline : spot.inLine = false) {a b : LayoutFields F}
    (hab : a.still = b.still) : (f a).rect = (f b).rect := by
  induction h with
  | text y height htext => exact absurd (hline.symm.trans htext) Bool.false_ne_true
  | leaf y =>
    obtain ⟨hdisplay, hdom, hstyle⟩ := eq_of_still_eq hab
    simp only [layoutLeaf, hdisplay, hdom, hstyle, hab]
    split
    · rfl
    · split <;> rfl
  | contents => rfl
  | moveDown dy _ _ ih => exact congrArg (fun rect => { rect with y := rect.y + dy }) ih

end Deeds

section Covers

variable {F : Type} [Length F] {spots spots' : List (Spot F)} {item : LayoutNode F}
  {f g : List ℕ → LayoutFields F → LayoutFields F}

theorem spotsAt_append (place : List ℕ) (spots spots' : List (Spot F)) (item : LayoutNode F) :
    spotsAt place (spots ++ spots') item = spotsAt place spots item ++ spotsAt place spots' item := by
  induction place generalizing spots spots' item with
  | nil => rfl
  | cons i place ih =>
    obtain ⟨node, children⟩ := item
    rw [spotsAt, spotsAt, spotsAt]
    cases children[i]? with
    | none => rfl
    | some child =>
      simp only [Option.elim_some, ← ih]
      split
      · rw [List.flatMap_append]
      · rfl

theorem spotsAt_nil (place : List ℕ) (item : LayoutNode F) : spotsAt place [] item = [] := by
  have h := spotsAt_append place [] [] item
  rw [List.append_nil] at h
  exact List.self_eq_append_left.mp h

/-- What is done to the nodes of a tree is done at the spots that are handed down to them. -/
structure Covers (spots : List (Spot F)) (item : LayoutNode F)
    (f : List ℕ → LayoutFields F → LayoutFields F) : Prop where
  still : ∀ place fields, (f place fields).still = fields.still
  chain : ∀ place node, item.subtree place = some node →
    Chain node.value (spotsAt place spots item) (f place)

theorem covers_nil (item : LayoutNode F) : Covers [] item fun _ fields => fields where
  still _ _ := rfl
  chain place node _ := by
    rw [spotsAt_nil]
    exact .nil

theorem Covers.append (h : Covers spots item f) (h' : Covers spots' item g) :
    Covers (spots ++ spots') item fun place fields => g place (f place fields) where
  still place fields := (h'.still _ _).trans (h.still _ _)
  chain place node hnode := by
    rw [spotsAt_append]
    exact (h.chain place node hnode).append (h'.chain place node hnode)

omit [Length F] in
/-- Nothing is done. -/
theorem mapPlaces_same (item : LayoutNode F) : (item.mapPlaces fun _ fields => fields) = item :=
  (Rose.mapPlaces_const _ item).trans (Rose.map_eq_self fun _ _ => rfl)

/-- Something is done to the root alone. -/
def atRoot (f : LayoutFields F → LayoutFields F) (place : List ℕ) (fields : LayoutFields F) :
    LayoutFields F :=
  if place = [] then f fields else fields

omit [Length F] in
theorem modifyValue_eq_mapPlaces (f : LayoutFields F → LayoutFields F) (item : LayoutNode F) :
    modifyValue f item = item.mapPlaces (atRoot f) := by
  obtain ⟨node, children⟩ := item
  rw [Rose.mapPlaces_node]
  refine congrArg (Rose.node (f node)) (List.ext_getElem? fun i => ?_)
  rw [List.getElem?_mapIdx, Rose.children_node]
  cases children[i]? with
  | none => rfl
  | some child =>
    exact congrArg some (mapPlaces_same child).symm

/-- The node at a spot does not hand anything down. -/
theorem covers_atRoot {f : LayoutFields F → LayoutFields F} {spot : Spot F}
    (hleaf : hasContents item.value = false) (h : Deed item.value spot f) :
    Covers [spot] item (atRoot f) where
  still place fields := by
    unfold atRoot
    split
    · exact h.still fields
    · rfl
  chain place node hnode := by
    cases place with
    | nil =>
      obtain rfl := Option.some.inj hnode
      exact chain_singleton_iff.mpr h
    | cons i place =>
      obtain ⟨fields, children⟩ := item
      rw [Rose.value_node] at hleaf
      rw [spotsAt, hleaf]
      cases children[i]? with
      | none => exact .nil
      | some child =>
        simp only [Option.elim_some, Bool.false_eq_true, if_false, spotsAt_nil]
        exact .nil

theorem Covers.deed {spot : Spot F} (h : Covers [spot] item f) : Deed item.value spot (f []) :=
  chain_singleton_iff.mp (h.chain [] item rfl)

/-- The node is moved down besides. -/
theorem Covers.moveDown {spot : Spot F} (h : Covers [spot] item f) (hline : spot.inLine = false)
    (dy : F) :
    Covers [spot] item fun place fields => atRoot (LayoutFields.moveDown dy) place (f place fields) where
  still place fields := by
    unfold atRoot
    split
    · exact h.still place fields
    · exact h.still place fields
  chain place node hnode := by
    cases place with
    | nil =>
      obtain rfl := Option.some.inj hnode
      exact chain_singleton_iff.mpr (.moveDown dy hline h.deed)
    | cons i place => exact h.chain (i :: place) node hnode

theorem Covers.skeleton_eq (h : Covers spots item f) {t : LayoutNode F} :
    skeleton (t.mapPlaces f) = skeleton t := by
  rw [skeleton, ← Rose.mapPlaces_const, Rose.mapPlaces_mapPlaces, skeleton, ← Rose.mapPlaces_const]
  exact Rose.mapPlaces_eq_iff.mpr fun place _ _ => h.still place _

end Covers

end Aetheris.Layout
