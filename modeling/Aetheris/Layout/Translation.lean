import Aetheris.Layout.Flow
import Aetheris.Library.Tracks

/-!
# Translations

A layout that begins at another place is the same one, moved.  In particular the height of a box
depends on the box and on the width that it gets, and not on its place.  The proof follows the loops
over the children, and is by induction on the depth of the calls.
-/

namespace Aetheris.Layout

open Dom Style Length

/-- A rectangle is moved. -/
def LayoutRect.shift (a b : ℚ) (rect : LayoutRect ℚ) : LayoutRect ℚ :=
  { rect with x := rect.x + a, y := rect.y + b }

/-- A fragment is moved. -/
def TextFragment.shift (a b : ℚ) (fragment : TextFragment ℚ) : TextFragment ℚ :=
  { fragment with rect := fragment.rect.shift a b, baseline := fragment.baseline + b }

/-- A frame is moved. -/
def Frame.shift (a b : ℚ) (frame : Frame ℚ) : Frame ℚ :=
  { frame with x := frame.x + a, y := frame.y + b }

/-- The place of the next child of a line is moved. -/
def InlineCursor.shift (a b : ℚ) (s : InlineCursor ℚ) : InlineCursor ℚ :=
  ⟨s.x + a, s.y + b, s.maxBottom + b⟩

theorem frame_shift (style : StyleProperties) (x y a b available : ℚ) :
    frame style (x + a) (y + b) available = (frame style x y available).shift a b := by
  simp only [frame, Frame.shift, Frame.mk.injEq, true_and, and_true]
  exact ⟨by ring, by ring⟩

/-! ## Texts -/

theorem placeWords_shift (style : StyleProperties) (x y a b : ℚ) (words : List Bytes) :
    placeWords style (y + b) (x + a) words =
      (placeWords style y x words).map (TextFragment.shift a b) := by
  induction words generalizing x with
  | nil => rfl
  | cons word words ih =>
    have hrest := ih (x + measureText style word)
    rw [add_right_comm] at hrest
    rw [placeWords, placeWords, hrest]
    split
    · rfl
    · simp only [List.map_cons, TextFragment.shift, LayoutRect.shift, add_right_comm]

theorem placeLines_shift (style : StyleProperties) (x y a b available : ℚ)
    (lines : List (List Bytes)) :
    placeLines style (x + a) available (y + b) lines =
      (placeLines style x available y lines).map (TextFragment.shift a b) := by
  induction lines generalizing y with
  | nil => rfl
  | cons line lines ih =>
    have hrest := ih (y + lineHeight style)
    rw [add_right_comm] at hrest
    rw [placeLines, placeLines, hrest, List.map_append, ← placeWords_shift]
    congr 2
    split
    · ring
    · split
      · ring
      · rfl

/-- A text that begins at another place is the same one, moved. -/
theorem textLayout_shift (source : Bytes) (x y a b available : ℚ) (style : StyleProperties) :
    textLayout source (x + a) (y + b) available style =
      (textLayout source x y available style).map (TextFragment.shift a b) := by
  rw [textLayout, textLayout]
  split
  · rfl
  · exact placeLines_shift style x y a b available _

theorem foldl_followFragment_shift (a b : ℚ) (fragments : List (TextFragment ℚ))
    (s : InlineCursor ℚ) :
    (fragments.map (TextFragment.shift a b)).foldl followFragment (s.shift a b) =
      (fragments.foldl followFragment s).shift a b := by
  induction fragments generalizing s with
  | nil => rfl
  | cons fragment fragments ih =>
    rw [List.map_cons, List.foldl_cons, List.foldl_cons, ← ih]
    congr 1
    simp only [followFragment, InlineCursor.shift, TextFragment.shift, LayoutRect.shift, fmax_rat,
      InlineCursor.mk.injEq, true_and]
    refine ⟨by ring, ?_⟩
    rw [add_right_comm, max_add_add_right]

theorem followChild_shift (x width a b : ℚ) (s : InlineCursor ℚ) (rect : LayoutRect ℚ) :
    followChild (x + a) width (s.shift a b) (rect.shift a b) =
      (followChild x width s rect).shift a b := by
  have hright : x + a + width ≤ rect.x + a + rect.width ↔ x + width ≤ rect.x + rect.width := by
    rw [add_right_comm, add_right_comm rect.x, add_le_add_iff_right]
  simp only [followChild, LayoutRect.shift, InlineCursor.shift, fmax_rat, hright]
  rw [add_right_comm rect.y, max_add_add_right, add_right_comm rect.x]
  split <;> rfl

/-! ## Trees -/

section Skeleton

variable {F : Type} [Length F]

/-- What no layout changes of a tree. -/
def skeleton (item : LayoutNode F) : LayoutNode F := item.map LayoutFields.still

theorem skeleton_node (node : LayoutFields F) (children : List (LayoutNode F)) :
    skeleton (.node node children) = .node node.still (children.map skeleton) := Rose.map_node _ _ _

theorem still_of_skeleton_eq {s t : LayoutNode F} (h : skeleton s = skeleton t) :
    s.value.still = t.value.still := by
  have hvalue := congrArg Rose.value h
  rwa [skeleton, skeleton, Rose.value_map, Rose.value_map] at hvalue

theorem height_of_skeleton_eq {s t : LayoutNode F} (h : skeleton s = skeleton t) :
    s.height = t.height := by
  have hheight := congrArg Rose.height h
  rwa [skeleton, skeleton, Rose.height_map, Rose.height_map] at hheight

theorem skeleton_modifyValue {f : LayoutFields F → LayoutFields F}
    (h : ∀ node, (f node).still = node.still) (item : LayoutNode F) :
    skeleton (modifyValue f item) = skeleton item := by
  obtain ⟨node, children⟩ := item
  rw [modifyValue, skeleton_node, skeleton_node]
  exact congrArg (Rose.node · _) (h node)

/-- A step over some of the children keeps what it keeps of each. -/
theorem map_sweep_skipping {σ β : Type} {f : LayoutNode F → β}
    {step : σ → LayoutNode F → σ × LayoutNode F}
    (h : ∀ s item, skipped item = false → f (step s item).2 = f item) (s : σ)
    (children : List (LayoutNode F)) :
    (sweep (skipping skipped step) s children).2.map f = children.map f := by
  refine map_sweep (fun s item _ => ?_) s
  cases hskip : skipped item with
  | true => rw [skipping_of_true hskip]
  | false =>
    rw [skipping_of_false hskip]
    exact h s item hskip

omit [Length F] in
theorem map_ordered {α β : Type} (node : LayoutFields F) (f : α → β) (items : List α) :
    (ordered node items).map f = ordered node (items.map f) := by
  unfold ordered
  split
  · exact List.map_reverse
  · rfl

omit [Length F] in
theorem ordered_ordered {α : Type} (node : LayoutFields F) (items : List α) :
    ordered node (ordered node items) = items := by
  unfold ordered
  split
  · exact List.reverse_reverse items
  · rfl

section Flow

variable {β : Type} {f : LayoutNode F → β} {recurse : Recurse F}
  (hstill : ∀ x y width item, (recurse x y width item).value.still = item.value.still)
  (hlayout : ∀ x y width item, skipped item = false → f (recurse x y width item) = f item)
  (hmove : ∀ dy item, skipped item = false → f (modifyValue (LayoutFields.moveDown dy) item) = f item)
  (htext : ∀ x y width height fragments item, skipped item = false →
    f (modifyValue (LayoutFields.setText x y width fragments height) item) = f item)

include hstill hlayout hmove htext

/-- **The flow keeps of the children what a layout of each of them keeps**, and what is kept when
one is moved or gets its text. -/
theorem map_flow (node : LayoutFields F) (frame : Frame F) (children : List (LayoutNode F)) :
    (flow recurse node frame children).2.map f = children.map f := by
  unfold flow
  split
  · unfold layoutFlexChildren
    split
    · rfl
    · dsimp only
      rw [map_ordered]
      split
      · rw [columnFlow, map_sweep_skipping fun s item => hlayout _ _ _ item, map_ordered,
          ordered_ordered]
      · have hrow (s : F × F) (item : LayoutNode F) (row : FlexRow F)
            (hskip : skipped item = false) : f (rowStep recurse row s item).2 = f item := by
          unfold rowStep
          dsimp only
          split
          · exact (hmove _ _ ((skipped_eq (hstill _ _ _ item)).trans hskip)).trans
              (hlayout _ _ _ item hskip)
          · exact hlayout _ _ _ item hskip
        have hend (maxHeight : F) : f ∘ alignBottom (F := F) maxHeight = f := by
          funext item
          rw [Function.comp_apply, alignBottom]
          split
          · rfl
          next hskip => exact hmove _ item (Bool.eq_false_iff.mpr hskip)
        rw [rowFlow]
        dsimp only
        split
        · rw [List.map_map, hend, map_sweep_skipping fun s item => hrow s item _, map_ordered,
            ordered_ordered]
        · rw [map_sweep_skipping fun s item => hrow s item _, map_ordered, ordered_ordered]
  · split
    · unfold layoutGridChildren
      split
      · rfl
      · refine map_sweep_skipping ?_ _ _
        exact fun s item => hlayout _ _ _ item
    · split
      · rw [layoutInlineChildren]
        refine map_sweep_skipping ?_ _ _
        intro s item hskip
        unfold inlineStep
        split
        · exact htext _ _ _ _ _ item hskip
        · dsimp only
          split
          · have hagain : skipped (recurse s.x s.y (frame.x + frame.width - s.x) item) = false :=
              (skipped_eq (hstill _ _ _ item)).trans hskip
            exact (hlayout _ _ _ _ hagain).trans (hlayout _ _ _ item hskip)
          · exact hlayout _ _ _ item hskip
      · rw [blockFlow]
        refine map_sweep_skipping ?_ _ _
        exact fun s item => hlayout _ _ _ item

end Flow

/-- A layout changes places and texts only. -/
theorem skeleton_layoutNode (depth : ℕ) (x y available : F) (item : LayoutNode F) :
    skeleton (layoutNode depth x y available item) = skeleton item := by
  induction depth generalizing x y available item with
  | zero => rfl
  | succ depth ih =>
    obtain ⟨node, children⟩ := item
    by_cases hcontents : hasContents node = true
    · rw [layoutNode_eq hcontents, skeleton_node, skeleton_node]
      have hflow := map_flow (still_layoutNode depth) (fun x y width item _ => ih x y width item)
        (fun _ item _ => skeleton_modifyValue (fun _ => rfl) item)
        (fun _ _ _ _ _ item _ => skeleton_modifyValue (fun _ => LayoutFields.still_setText) item)
        node.still (frame node.style x y available) children
      rw [List.map_map, List.map_congr_left, hflow]
      · rfl
      · intro item _
        show skeleton (absoluteStep _ _ _ _ _ item) = skeleton item
        unfold absoluteStep
        split
        · exact ih _ _ _ item
        · rfl
    · rw [layoutNode_of_not_hasContents (Bool.eq_false_iff.mpr hcontents), skeleton_node,
        skeleton_node]
      exact congrArg (Rose.node · _) LayoutFields.still_layoutLeaf

end Skeleton

/-! ## Moved children -/

/-- Two trees that differ in their last layout only, of at most this height. -/
def Twins (depth : ℕ) (s t : LayoutNode ℚ) : Prop := skeleton s = skeleton t ∧ s.height ≤ depth

theorem Twins.skipped_eq {depth : ℕ} {s t : LayoutNode ℚ} (h : Twins depth s t) :
    skipped s = skipped t := congrArg passedOver (still_of_skeleton_eq h.1)

theorem Twins.still_eq {depth : ℕ} {s t : LayoutNode ℚ} (h : Twins depth s t) :
    s.value.still = t.value.still := still_of_skeleton_eq h.1

theorem Twins.ordered {depth : ℕ} {ss ts : List (LayoutNode ℚ)}
    (h : List.Forall₂ (Twins depth) ss ts) (node : LayoutFields ℚ) :
    List.Forall₂ (Twins depth) (ordered node ss) (ordered node ts) := by
  unfold Layout.ordered
  split
  · exact List.rel_reverse h
  · exact h

theorem Twins.map_still_inFlow {depth : ℕ} {ss ts : List (LayoutNode ℚ)}
    (h : List.Forall₂ (Twins depth) ss ts) :
    (inFlow ss).map (fun item => item.value.still) =
      (inFlow ts).map fun item => item.value.still := by
  induction h with
  | nil => rfl
  | @cons s t ss ts hst _ ih =>
    rw [inFlow, inFlow, List.filter_cons, List.filter_cons, hst.skipped_eq]
    split
    · rw [List.map_cons, List.map_cons, hst.still_eq]
      exact congrArg _ ih
    · exact ih

/-- A layout of a child at another place gives it a rectangle that is moved. -/
def MovesRects (depth : ℕ) : Prop :=
  ∀ ⦃s t : LayoutNode ℚ⦄, Twins depth s t → s.value.display ≠ .none → ∀ x y a b available : ℚ,
    (layoutNode depth (x + a) (y + b) available t).value.rect =
      (layoutNode depth x y available s).value.rect.shift a b

section Flow

variable {depth : ℕ} (ih : MovesRects depth) {ss ts : List (LayoutNode ℚ)}
  (h : List.Forall₂ (Twins depth) ss ts) (node : LayoutFields ℚ) (frame : Frame ℚ) (a b : ℚ)

include ih h

theorem blockFlow_shift :
    (blockFlow (layoutNode depth) (frame.shift a b) ts).1 =
      ((blockFlow (layoutNode depth) frame ss).1.1 + b,
        (blockFlow (layoutNode depth) frame ss).1.2) := by
  refine Prod.ext ?_ rfl
  refine sweep_skipping_rel (I := fun s t : ℚ => t = s + b) (P := Twins depth) (fun _ _ => Twins.skipped_eq)
    (fun cursorY _ s t hcursor hst hskip => ?_) rfl h
  have hrect := ih hst (passedOver_eq_false_iff.mp hskip).2 frame.x cursorY a b frame.width
  subst hcursor
  simp only [blockStep, Frame.shift, hrect, LayoutRect.shift]
  ring

theorem columnFlow_shift :
    (columnFlow (layoutNode depth) node (frame.shift a b) ts).1 =
      ((columnFlow (layoutNode depth) node frame ss).1.1 + b,
        (columnFlow (layoutNode depth) node frame ss).1.2) := by
  have hswept : (sweep (skipping skipped (columnStep (layoutNode depth) (frame.shift a b).x
        frame.width (flexGap node frame.width))) (frame.y + b, 0) ts).1 =
      ((sweep (skipping skipped (columnStep (layoutNode depth) frame.x frame.width
        (flexGap node frame.width))) (frame.y, 0) ss).1.1 + b,
      (sweep (skipping skipped (columnStep (layoutNode depth) frame.x frame.width
        (flexGap node frame.width))) (frame.y, 0) ss).1.2) := by
    refine sweep_skipping_rel (I := fun s t : ℚ × ℚ => t = (s.1 + b, s.2)) (P := Twins depth)
      (fun _ _ => Twins.skipped_eq) (fun cursor _ s t hcursor hst hskip => ?_) rfl h
    have hrect := ih hst (passedOver_eq_false_iff.mp hskip).2 frame.x cursor.1 a b frame.width
    subst hcursor
    simp only [columnStep, Frame.shift, hrect, LayoutRect.shift, Prod.mk.injEq, and_true]
    ring
  rw [columnFlow, columnFlow]
  dsimp only [Frame.shift] at hswept ⊢
  rw [hswept, add_sub_right_comm]

omit ih h in
theorem rowStart_shift (items : List (LayoutFields ℚ)) :
    rowStart node (frame.shift a b) items =
      ((rowStart node frame items).1 + a, (rowStart node frame items).2) := by
  simp only [rowStart, justify, Frame.shift]
  split
  · rw [add_right_comm]
  · split
    · rw [add_right_comm]
    · split
      · rfl
      · split
        · rw [add_right_comm]
        · rfl

theorem rowFlow_shift :
    (rowFlow (layoutNode depth) node (frame.shift a b) ts).1 =
      ((rowFlow (layoutNode depth) node frame ss).1.1 + b,
        (rowFlow (layoutNode depth) node frame ss).1.2) := by
  have hitems := Twins.map_still_inFlow h
  rw [rowFlow, rowFlow, ← hitems]
  generalize (inFlow ss).map (fun item => item.value.still) = items
  have hswept : (sweep (skipping skipped (rowStep (layoutNode depth)
        (rowOf node (frame.shift a b) items))) ((rowStart node (frame.shift a b) items).1, 0) ts).1 =
      ((sweep (skipping skipped (rowStep (layoutNode depth) (rowOf node frame items)))
        ((rowStart node frame items).1, 0) ss).1.1 + a,
      (sweep (skipping skipped (rowStep (layoutNode depth) (rowOf node frame items)))
        ((rowStart node frame items).1, 0) ss).1.2) := by
    refine sweep_skipping_rel (I := fun s t : ℚ × ℚ => t = (s.1 + a, s.2)) (P := Twins depth)
      (fun _ _ => Twins.skipped_eq) (fun cursor _ s t hcursor hst hskip => ?_) ?_ h
    · have hrect := ih hst (passedOver_eq_false_iff.mp hskip).2 cursor.1 frame.y a b
        (itemWidth (rowOf node frame items) s.value.still)
      have hwidth : itemWidth (rowOf node (frame.shift a b) items) t.value.still =
          itemWidth (rowOf node frame items) s.value.still := by
        rw [hst.still_eq]
        rfl
      have hextra : (rowOf node (frame.shift a b) items).extraGap =
          (rowOf node frame items).extraGap := by
        show (rowStart node (frame.shift a b) items).2 = _
        rw [rowStart_shift]
        rfl
      subst hcursor
      simp only [rowStep, hwidth, hextra]
      rw [show (rowOf node (frame.shift a b) items).y = frame.y + b from rfl,
        show (rowOf node frame items).y = frame.y from rfl, hrect]
      simp only [LayoutRect.shift, Prod.mk.injEq]
      refine ⟨?_, trivial⟩
      rw [show (rowOf node (frame.shift a b) items).gap = (rowOf node frame items).gap from rfl]
      ring
    · rw [rowStart_shift]
  dsimp only
  rw [hswept]
  dsimp only [Frame.shift]
  rw [add_right_comm]

theorem layoutGridChildren_shift :
    (layoutGridChildren (layoutNode depth) node (frame.shift a b) ts).1 =
      ((layoutGridChildren (layoutNode depth) node frame ss).1.1 + b,
        (layoutGridChildren (layoutNode depth) node frame ss).1.2) := by
  have hnil : inFlow ts = [] ↔ inFlow ss = [] := by
    rw [← List.map_eq_nil_iff, ← Twins.map_still_inFlow h, List.map_eq_nil_iff]
  rw [layoutGridChildren, layoutGridChildren]
  by_cases hempty : inFlow ss = []
  · rw [if_pos hempty, if_pos (hnil.mpr hempty)]
    rfl
  rw [if_neg hempty, if_neg (mt hnil.mp hempty)]
  have hswept (gapX gapY : ℚ) (columns : List ℚ) :
      (sweep (skipping skipped (gridStep (layoutNode depth) (frame.x + a) (frame.y + b) gapX gapY
        columns)) (0, []) ts).1 =
      (sweep (skipping skipped (gridStep (layoutNode depth) frame.x frame.y gapX gapY columns))
        (0, []) ss).1 := by
    refine sweep_skipping_rel (I := fun s t : ℕ × List ℚ => t = s) (P := Twins depth)
      (fun _ _ => Twins.skipped_eq) (fun s _ c d hs hcd hskip => ?_) rfl h
    subst hs
    simp only [gridStep, Tracks.foldl_eq_offset, add_right_comm _ _ (Tracks.offset _ _ _)]
    rw [ih hcd (passedOver_eq_false_iff.mp hskip).2]
    rfl
  dsimp only [Frame.shift]
  rw [hswept, add_right_comm]

omit h in
/-- An item of a line that is moved is moved. -/
theorem inlineStep_shift {c d : LayoutNode ℚ} (hcd : Twins depth c d)
    (hdisplay : c.value.display ≠ .none) (x width : ℚ) (s : InlineCursor ℚ) :
    (inlineStep (layoutNode depth) (x + a) width (s.shift a b) d).1 =
      (inlineStep (layoutNode depth) x width s c).1.shift a b := by
  have hremaining : x + a + width - (s.shift a b).x = x + width - s.x := by
    simp only [InlineCursor.shift]
    ring
  unfold inlineStep
  rw [hremaining, ← hcd.still_eq]
  by_cases htext : isInlineText c.value.still = true
  · have hdom := congrArg LayoutFields.dom hcd.still_eq
    have hstyle := congrArg LayoutFields.style hcd.still_eq
    change c.value.dom = d.value.dom at hdom
    change c.value.style = d.value.style at hstyle
    rw [if_pos htext, if_pos htext, ← hdom, ← hstyle]
    dsimp only [InlineCursor.shift]
    rw [textLayout_shift]
    exact foldl_followFragment_shift a b _ s
  · rw [if_neg htext, if_neg htext]
    have hfirst := ih hcd hdisplay s.x s.y a b (x + width - s.x)
    have hagain : Twins depth (layoutNode depth s.x s.y (x + width - s.x) c)
        (layoutNode depth (s.x + a) (s.y + b) (x + width - s.x) d) :=
      ⟨(skeleton_layoutNode _ _ _ _ _).trans (hcd.1.trans (skeleton_layoutNode _ _ _ _ _).symm),
        (height_of_skeleton_eq (skeleton_layoutNode _ _ _ _ _)).trans_le hcd.2⟩
    have hstill : (layoutNode depth s.x s.y (x + width - s.x) c).value.display ≠ .none := by
      have heq := congrArg LayoutFields.display
        (still_layoutNode depth s.x s.y (x + width - s.x) c)
      change _ = c.value.display at heq
      exact fun hnone => hdisplay (heq.symm.trans hnone)
    have hsecond := ih hagain hstill x s.maxBottom a b width
    have hbreak : (x + a < s.x + a ∧ x + width - s.x <
        (layoutNode depth s.x s.y (x + width - s.x) c).value.rect.width) ↔
        x < s.x ∧ x + width - s.x <
          (layoutNode depth s.x s.y (x + width - s.x) c).value.rect.width := by
      rw [add_lt_add_iff_right]
    have hwidth (rect : LayoutRect ℚ) : (rect.shift a b).width = rect.width := rfl
    dsimp only [InlineCursor.shift]
    rw [hfirst, hwidth]
    simp only [hbreak]
    split
    · dsimp only
      rw [hsecond]
      exact followChild_shift x width a b ⟨x, s.maxBottom, s.maxBottom⟩ _
    · exact followChild_shift x width a b s _

theorem layoutInlineChildren_shift :
    (layoutInlineChildren (layoutNode depth) node (frame.shift a b) ts).1 =
      ((layoutInlineChildren (layoutNode depth) node frame ss).1.1 + b,
        (layoutInlineChildren (layoutNode depth) node frame ss).1.2) := by
  have hswept : (sweep (skipping skipped (inlineStep (layoutNode depth) (frame.x + a) frame.width))
        ⟨frame.x + a, frame.y + b, frame.y + b⟩ ts).1 =
      (sweep (skipping skipped (inlineStep (layoutNode depth) frame.x frame.width))
        ⟨frame.x, frame.y, frame.y⟩ ss).1.shift a b := by
    refine sweep_skipping_rel (I := fun s t : InlineCursor ℚ => t = s.shift a b) (P := Twins depth)
      (fun _ _ => Twins.skipped_eq) (fun s _ c d hs hcd hskip => ?_) rfl h
    subst hs
    exact inlineStep_shift ih a b hcd (passedOver_eq_false_iff.mp hskip).2 _ _ s
  rw [layoutInlineChildren, layoutInlineChildren]
  dsimp only [Frame.shift]
  rw [hswept]
  dsimp only [InlineCursor.shift]
  rw [fmax_rat, fmax_rat, add_right_comm, max_add_add_right]

/-- The children of a node that is moved are moved. -/
theorem flow_shift :
    (flow (layoutNode depth) node (frame.shift a b) ts).1 =
      ((flow (layoutNode depth) node frame ss).1.1 + b,
        (flow (layoutNode depth) node frame ss).1.2) := by
  have hnil : inFlow ts = [] ↔ inFlow ss = [] := by
    rw [← List.map_eq_nil_iff, ← Twins.map_still_inFlow h, List.map_eq_nil_iff]
  have hinline : (ts.any fun item => isInline item.value.still) =
      ss.any fun item => isInline item.value.still := by
    clear ih hnil
    induction h with
    | nil => rfl
    | cons hst _ ih => rw [List.any_cons, List.any_cons, hst.still_eq, ih]
  rw [flow, flow, hinline]
  split
  · rw [layoutFlexChildren, layoutFlexChildren]
    by_cases hempty : inFlow ss = []
    · rw [if_pos hempty, if_pos (hnil.mpr hempty)]
      rfl
    rw [if_neg hempty, if_neg (mt hnil.mp hempty)]
    dsimp only
    split
    · exact columnFlow_shift ih (Twins.ordered h node) node frame a b
    · exact rowFlow_shift ih (Twins.ordered h node) node frame a b
  · split
    · exact layoutGridChildren_shift ih h node frame a b
    · split
      · exact layoutInlineChildren_shift ih h node frame a b
      · exact blockFlow_shift ih h frame a b

end Flow

/-! ## Moved nodes -/

theorem textHeight_shift (style : StyleProperties) (y a b : ℚ)
    (fragments : List (TextFragment ℚ)) :
    textHeight style (y + b) (fragments.map (TextFragment.shift a b)) =
      textHeight style y fragments := by
  rw [textHeight, textHeight, List.getLast?_map]
  cases fragments.getLast? with
  | none => rfl
  | some last =>
    simp only [Option.map_some, TextFragment.shift, LayoutRect.shift]
    ring

/-- The size of a node does not depend on its place. -/
theorem contentSize_shift {depth : ℕ} (ih : MovesRects depth) {ss ts : List (LayoutNode ℚ)}
    (h : List.Forall₂ (Twins depth) ss ts) (node : LayoutFields ℚ) (x y a b available : ℚ) :
    contentSize depth (x + a) (y + b) available node ts =
      contentSize depth x y available node ss := by
  simp only [contentSize, contentsHeight, frame_shift, flow_shift ih h]
  dsimp only [Frame.shift]
  rw [textLayout_shift, textHeight_shift, add_sub_add_right_eq_sub]

/-- **A node that is laid out at another place is moved.** -/
theorem movesRects (depth : ℕ) : MovesRects depth := by
  induction depth with
  | zero =>
    rintro ⟨node, children⟩ t ⟨-, hheight⟩
    exact absurd hheight (Nat.not_succ_le_zero _)
  | succ depth ih =>
    rintro ⟨node, ss⟩ ⟨node', ts⟩ ⟨hskeleton, hheight⟩ hdisplay x y a b available
    rw [skeleton_node, skeleton_node, Rose.node.injEq] at hskeleton
    obtain ⟨hstill, hchildren⟩ := hskeleton
    have htwins : List.Forall₂ (Twins depth) ss ts := by
      rw [← List.forall₂_eq_eq_eq, List.forall₂_map_left_iff, List.forall₂_map_right_iff] at hchildren
      have hheights := Rose.height_node_le_succ.mp hheight
      refine (List.forall₂_and_left _ _).mpr ⟨hheights, hchildren⟩ |>.imp fun s t hst => ?_
      exact ⟨hst.2, hst.1⟩
    change node.display ≠ .none at hdisplay
    have hdisplay' : node'.display ≠ .none :=
      fun hnone => hdisplay ((congrArg LayoutFields.display hstill).trans hnone)
    have hstyle : node'.style = node.style := (congrArg LayoutFields.style hstill).symm
    rw [(layoutNode_placed hdisplay depth x y available ss).1,
      (layoutNode_placed hdisplay' depth (x + a) (y + b) available ts).1, ← hstill,
      contentSize_shift ih htwins, hstyle, placed_eq, placed_eq, frame_shift]
    simp only [LayoutRect.shift, Frame.shift, LayoutRect.mk.injEq, and_true]
    exact ⟨by ring, by ring⟩

/-- The height of the border box of a node, from the node alone. -/
def outerHeight (depth : ℕ) (width : ℚ) (item : LayoutNode ℚ) : ℚ :=
  (layoutNode depth 0 0 width item).value.rect.height

/-- The height of a node does not depend on its place. -/
theorem rect_height_layoutNode {depth : ℕ} {item : LayoutNode ℚ} (hdepth : item.height ≤ depth)
    (h : item.value.display ≠ .none) (x y width : ℚ) :
    (layoutNode depth x y width item).value.rect.height = outerHeight depth width item := by
  have hshift := movesRects depth ⟨rfl, hdepth⟩ h 0 0 x y width
  rw [zero_add, zero_add] at hshift
  rw [hshift]
  rfl

end Aetheris.Layout
