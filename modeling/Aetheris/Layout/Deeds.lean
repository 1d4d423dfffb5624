import Aetheris.Layout.Spots

/-!
# Layouts act on the nodes at their spots

A layout of a tree is a change of the values of its nodes: what becomes of a node is a chain of
deeds, one for each of its spots, and these deeds are the same for all trees that were built alike,
whatever earlier layouts have left of them (`acts_layoutNode`).

The proof follows the loops.  A loop over the children is a sweep, and so is the list of their
spots; each step of the loop does to a child what its spots say, and the horizontal part of its
state is the state of the other sweep (`ActsStep`, `actsOn_sweep`).  The rectangle of a child, which
its parent reads, does not depend on earlier layouts either, and its horizontal part is the `extent`
of the child.
-/

namespace Aetheris.Layout

open Dom Style Length

variable {F : Type} [Length F]

/-! ## Loops -/

section Loops

variable {σ η ρ : Type}

/-- A loop over the children does to each of them what its spots say. -/
def ActsOn (items : List (LayoutNode F)) (spots : List (List (Spot F)))
    (loop : List (LayoutNode F) → ρ × List (LayoutNode F)) : Prop :=
  ∃ (result : ρ) (f : ℕ → List ℕ → LayoutFields F → LayoutFields F),
    (∀ i item, items[i]? = some item → Covers (spots[i]?.getD []) item (f i)) ∧
      ∀ children, children.map skeleton = items →
        loop children = (result, children.mapIdx fun i child => child.mapPlaces (f i))

/-- A step of a loop does to a child what its spots say. -/
def ActsStep (view : σ → η) (step : σ → LayoutNode F → σ × LayoutNode F)
    (spots : η → LayoutFields F → η × List (Spot F)) (item : LayoutNode F) : Prop :=
  ∀ s, ∃ next f, view next = (spots (view s) item.value).1 ∧
    Covers (spots (view s) item.value).2 item f ∧
      ∀ t, skeleton t = item → step s t = (next, t.mapPlaces f)

variable {view : σ → η} {step : σ → LayoutNode F → σ × LayoutNode F}
  {spots : η → LayoutFields F → η × List (Spot F)} {item : LayoutNode F}
  {items : List (LayoutNode F)}

omit [Length F] in
theorem value_skeleton [Length F] (t : LayoutNode F) : (skeleton t).value = t.value.still := Rose.value_map _ _

theorem still_of_skeleton {t : LayoutNode F} (h : skeleton t = item) :
    t.value.still = item.value := by
  rw [← h, skeleton, Rose.value_map]

/-- **A sweep acts on the children** if its steps do. -/
theorem actsOn_sweep (h : ∀ item ∈ items, ActsStep view step spots item) (s : σ) :
    ActsOn items (sweep spots (view s) (items.map Rose.value)).2 (sweep step s) := by
  induction items generalizing s with
  | nil =>
    refine ⟨s, fun _ _ fields => fields, fun i item hi => absurd hi (by simp), fun children hchildren => ?_⟩
    rw [List.map_eq_nil_iff.mp hchildren]
    rfl
  | cons item items ih =>
    obtain ⟨next, f, hview, hcovers, hstep⟩ := h item List.mem_cons_self s
    obtain ⟨result, fs, hall, hloop⟩ :=
      ih (fun item hitem => h item (List.mem_cons_of_mem _ hitem)) next
    refine ⟨result, fun i => i.casesOn f fs, fun i other hi => ?_, fun children hchildren => ?_⟩
    · rw [List.map_cons, sweep_cons]
      cases i with
      | zero =>
        obtain rfl := Option.some.inj hi
        exact hcovers
      | succ i =>
        rw [← hview]
        exact hall i other hi
    · obtain ⟨t, ts, rfl, ht, hts⟩ := List.map_eq_cons_iff.mp hchildren
      rw [sweep_cons, hstep t ht, hloop ts hts, List.mapIdx_cons]
      rfl

/-- The children that a loop passes over have no spots. -/
theorem ActsStep.skipping (h : passedOver item.value = false → ActsStep view step spots item) :
    ActsStep view (skipping skipped step)
      (fun s child => if passedOver child then (s, []) else spots s child) item := by
  intro s
  cases hskip : passedOver item.value with
  | true =>
    simp only [hskip, if_true]
    refine ⟨s, fun _ fields => fields, rfl, covers_nil item, fun t ht => ?_⟩
    rw [skipping_of_true ((skipped_eq (still_of_skeleton ht)).trans hskip), mapPlaces_same]
  | false =>
    obtain ⟨next, f, hview, hcovers, hstep⟩ := h hskip s
    simp only [hskip, Bool.false_eq_true, if_false]
    refine ⟨next, f, hview, hcovers, fun t ht => ?_⟩
    rw [skipping_of_false ((skipped_eq (still_of_skeleton ht)).trans hskip), hstep t ht]

/-- The same loop, with another result. -/
theorem ActsOn.of_eq {ρ' : Type} {spots : List (List (Spot F))}
    {loop : List (LayoutNode F) → ρ × List (LayoutNode F)}
    {loop' : List (LayoutNode F) → ρ' × List (LayoutNode F)} (h : ActsOn items spots loop) (g : ρ → ρ')
    (heq : ∀ children, children.map skeleton = items →
      loop' children = (g (loop children).1, (loop children).2)) : ActsOn items spots loop' := by
  obtain ⟨result, f, hall, hloop⟩ := h
  refine ⟨g result, f, hall, fun children hchildren => ?_⟩
  rw [heq children hchildren, hloop children hchildren]

/-- A loop from the last child on. -/
theorem ActsOn.reverse {spots : List (List (Spot F))}
    {loop : List (LayoutNode F) → ρ × List (LayoutNode F)} (hlength : spots.length = items.length)
    (h : ActsOn items.reverse spots loop) :
    ActsOn items spots.reverse fun children =>
      ((loop children.reverse).1, (loop children.reverse).2.reverse) := by
  obtain ⟨result, f, hall, hloop⟩ := h
  refine ⟨result, fun i => f (items.length - 1 - i), fun i item hi => ?_, fun children hchildren => ?_⟩
  · have hlt : i < items.length := (List.getElem?_eq_some_iff.mp hi).1
    rw [List.getElem?_reverse (hlength ▸ hlt), hlength]
    refine hall _ item ?_
    rwa [List.getElem?_reverse (by omega), show items.length - 1 - (items.length - 1 - i) = i by omega]
  · have hcount : children.length = items.length := by rw [← hchildren, List.length_map]
    dsimp only
    rw [hloop _ (by rw [List.map_reverse, hchildren]), List.mapIdx_reverse, List.reverse_reverse,
      hcount]

/-- A loop over the items of a flexible box. -/
theorem ActsOn.ordered {spots : List (List (Spot F))}
    {loop : List (LayoutNode F) → ρ × List (LayoutNode F)} (node : LayoutFields F)
    (hlength : spots.length = items.length) (h : ActsOn (ordered node items) spots loop) :
    ActsOn items (Layout.ordered node spots) fun children =>
      ((loop (Layout.ordered node children)).1,
        Layout.ordered node (loop (Layout.ordered node children)).2) := by
  unfold Layout.ordered at h ⊢
  split
  next hreversed =>
    rw [if_pos hreversed] at h
    exact h.reverse hlength
  next hreversed =>
    rw [if_neg hreversed] at h
    exact h

end Loops

/-! ## Steps -/

section Steps

variable {recurse : Recurse F} {item : LayoutNode F}

/-- `recurse` does to a tree what its one spot says, and gives it a rectangle that no earlier layout
has to do with. -/
def Acts (recurse : Recurse F) (item : LayoutNode F) : Prop :=
  ∀ x y available, ∃ f rect, Covers [⟨x, available, false⟩] item f ∧
    (item.value.display ≠ .none → (rect.x, rect.width) = extent x available item.value) ∧
      ∀ t, skeleton t = item →
        recurse x y available t = t.mapPlaces f ∧ (t.mapPlaces f).value.rect = rect

variable (h : Acts recurse item)

include h

theorem actsStep_block (x width : F) :
    ActsStep (fun _ => ()) (blockStep recurse x width) (blockSpots x width) item := by
  intro s
  obtain ⟨f, rect, hcovers, -, hrun⟩ := h x s width
  refine ⟨rect.y + rect.height, f, rfl, hcovers, fun t ht => ?_⟩
  rw [blockStep, (hrun t ht).1, (hrun t ht).2]

theorem actsStep_column (x width gap : F) :
    ActsStep (fun _ => ()) (columnStep recurse x width gap) (blockSpots x width) item := by
  intro s
  obtain ⟨f, rect, hcovers, -, hrun⟩ := h x s.1 width
  refine ⟨(rect.y + rect.height + gap, fmax s.2 rect.width), f, rfl, hcovers, fun t ht => ?_⟩
  rw [columnStep, (hrun t ht).1, (hrun t ht).2]

theorem actsStep_row (row : FlexRow F) (hskip : passedOver item.value = false) :
    ActsStep Prod.fst (rowStep recurse row) (rowSpots row) item := by
  intro s
  obtain ⟨f, rect, hcovers, hextent, hrun⟩ := h s.1 row.y (itemWidth row item.value)
  have hnext : rect.x + rect.width + row.gap + row.extraGap = (rowSpots row s.1 item.value).1 := by
    rw [rowSpots, ← hextent (passedOver_eq_false_iff.mp hskip).2]
  by_cases hcenter : row.align = some (lit "center")
  · refine ⟨(rect.x + rect.width + row.gap + row.extraGap, fmax s.2 rect.height), _, hnext,
      hcovers.moveDown rfl (fmax 0 (s.2 - rect.height) / ofRat 2), fun t ht => ?_⟩
    rw [rowStep, still_of_skeleton ht, (hrun t ht).1, (hrun t ht).2, if_pos hcenter,
      modifyValue_eq_mapPlaces, Rose.mapPlaces_mapPlaces]
  · refine ⟨(rect.x + rect.width + row.gap + row.extraGap, fmax s.2 rect.height), f, hnext,
      hcovers, fun t ht => ?_⟩
    rw [rowStep, still_of_skeleton ht, (hrun t ht).1, (hrun t ht).2, if_neg hcenter]

theorem actsStep_grid (x y gapX gapY : F) (columns : List F) :
    ActsStep Prod.fst (gridStep recurse x y gapX gapY columns) (gridSpots x gapX columns) item := by
  intro s
  let row := s.1 / columns.length
  let rowHeights := s.2 ++ List.replicate (row + 1 - s.2.length) 0
  obtain ⟨f, rect, hcovers, -, hrun⟩ := h
    ((columns.take (s.1 % columns.length)).foldl (fun x width => x + (width + gapX)) x)
    ((rowHeights.take row).foldl (fun y height => y + (height + gapY)) y)
    (columns.getD (s.1 % columns.length) 0)
  refine ⟨(s.1 + 1, rowHeights.set row (fmax (rowHeights.getD row 0) rect.height)), f, rfl, hcovers,
    fun t ht => ?_⟩
  rw [gridStep, (hrun t ht).1, (hrun t ht).2]

omit [Length F] h in
theorem foldl_followFragment_x [Length F] (fragments : List (TextFragment F)) (s : InlineCursor F) :
    (fragments.foldl followFragment s).x =
      fragments.getLast?.elim s.x fun last => last.rect.x + last.rect.width := by
  induction fragments using List.reverseRecOn with
  | nil => rfl
  | append_singleton fragments last _ =>
    rw [List.foldl_append, List.getLast?_concat]
    rfl

omit h in
theorem followChild_x (x width : F) (s : InlineCursor F) (rect : LayoutRect F) :
    (followChild x width s rect).x = nextX x width (rect.x, rect.width) := by
  unfold followChild nextX
  dsimp only
  split <;> rfl

omit h in
/-- A line goes on behind a text where it goes on at any other height. -/
theorem foldl_textLayout_x (source : Bytes) (available : F) (style : StyleProperties)
    (s : InlineCursor F) :
    ((textLayout source s.x s.y available style).foldl followFragment s).x =
      (textLayout source s.x 0 available style).getLast?.elim s.x fun last =>
        last.rect.x + last.rect.width := by
  have hspan := congrArg List.getLast? (map_span_textLayout source s.x s.y 0 available style)
  rw [List.getLast?_map, List.getLast?_map] at hspan
  rw [foldl_followFragment_x]
  cases hlast : (textLayout source s.x s.y available style).getLast? with
  | none =>
    rw [hlast] at hspan
    rw [Option.map_eq_none_iff.mp hspan.symm]
  | some fragment =>
    rw [hlast] at hspan
    obtain ⟨other, hother, heq⟩ := Option.map_eq_some_iff.mp hspan.symm
    obtain ⟨hx, hwidth⟩ := Prod.mk.inj heq
    rw [hother, Option.elim_some, Option.elim_some, hx, hwidth]

omit [Length F] h in
theorem hasContents_of_isInlineText {child : LayoutFields F} (h : isInlineText child = true) :
    hasContents child = false := by
  rw [isInlineText, Bool.and_eq_true, beq_iff_eq, beq_iff_eq] at h
  rw [Bool.eq_false_iff]
  exact fun hcontents => (hasContents_iff.mp hcontents).2.2 h.2

omit h in
/-- The loop over a line lays out a text itself. -/
theorem actsStep_line_text (x width : F) (htext : isInlineText item.value = true) :
    ActsStep InlineCursor.x (inlineStep recurse x width) (lineSpots x width) item := by
  intro s
  let remaining := fmax 0 (x + width - s.x)
  let fragments := textLayout item.value.dom.data s.x s.y remaining item.value.style
  let next := fragments.foldl followFragment s
  have hdeed : Deed item.value (⟨s.x, remaining, true⟩ : Spot F)
      (LayoutFields.setText s.x s.y remaining fragments (next.maxBottom - s.y)) := .text s.y _ rfl
  rw [lineSpots, if_pos htext]
  refine ⟨next, _, foldl_textLayout_x _ _ _ s,
    covers_atRoot (hasContents_of_isInlineText htext) hdeed, fun t ht => ?_⟩
  have hstill := still_of_skeleton ht
  have hdom := congrArg LayoutFields.dom hstill
  have hstyle := congrArg LayoutFields.style hstill
  change t.value.dom = item.value.dom at hdom
  change t.value.style = item.value.style at hstyle
  rw [inlineStep, hstill, if_pos htext, hdom, hstyle]
  exact Prod.ext rfl (modifyValue_eq_mapPlaces _ t)

theorem actsStep_line (x width : F) (hskip : passedOver item.value = false) :
    ActsStep InlineCursor.x (inlineStep recurse x width) (lineSpots x width) item := by
  by_cases htext : isInlineText item.value = true
  · exact actsStep_line_text x width htext
  intro s
  have hdisplay := (passedOver_eq_false_iff.mp hskip).2
  obtain ⟨f, rect, hcovers, hextent, hrun⟩ := h s.x s.y (x + width - s.x)
  rw [lineSpots, if_neg htext]
  dsimp only
  rw [← hextent hdisplay]
  by_cases hagain : x < s.x ∧ x + width - s.x < rect.width
  · obtain ⟨f', rect', hcovers', hextent', hrun'⟩ := h x s.maxBottom width
    rw [if_pos hagain, ← hextent' hdisplay]
    refine ⟨followChild x width ⟨x, s.maxBottom, s.maxBottom⟩ rect', _, followChild_x x width _ rect',
      hcovers.append hcovers', fun t ht => ?_⟩
    have hskeleton : skeleton (t.mapPlaces f) = item := hcovers.skeleton_eq.trans ht
    rw [inlineStep, still_of_skeleton ht, if_neg htext, (hrun t ht).1]
    dsimp only
    rw [(hrun t ht).2, if_pos hagain, (hrun' _ hskeleton).1, (hrun' _ hskeleton).2,
      Rose.mapPlaces_mapPlaces]
  · rw [if_neg hagain]
    refine ⟨followChild x width s rect, f, followChild_x x width s rect, hcovers, fun t ht => ?_⟩
    rw [inlineStep, still_of_skeleton ht, if_neg htext, (hrun t ht).1]
    dsimp only
    rw [(hrun t ht).2, if_neg hagain]

theorem actsStep_absolute (frame : Frame F) (height : F) :
    ActsStep (fun _ => ())
      (fun (_ : Unit) item => ((), absoluteStep recurse frame.x frame.y height frame.width item))
      (fun (_ : Unit) child => ((), absoluteSpots frame child)) item := by
  intro s
  by_cases hpositioned : isPositioned item.value = true
  · obtain ⟨f, rect, hcovers, -, hrun⟩ := h
      (absolutePlace frame.x frame.y height frame.width item.value).1
      (absolutePlace frame.x frame.y height frame.width item.value).2 frame.width
    simp only [absoluteSpots, if_pos hpositioned]
    refine ⟨s, f, trivial, hcovers, fun t ht => ?_⟩
    rw [absoluteStep, still_of_skeleton ht, if_pos hpositioned, (hrun t ht).1]
  · simp only [absoluteSpots, if_neg hpositioned]
    refine ⟨s, fun _ fields => fields, trivial, covers_nil item, fun t ht => ?_⟩
    rw [absoluteStep, still_of_skeleton ht, if_neg hpositioned, mapPlaces_same]

end Steps

/-! ## The flow -/

section Flow

variable {recurse : Recurse F} {items : List (LayoutNode F)}
  (h : ∀ item ∈ items, Acts recurse item) (node : LayoutFields F) (frame : Frame F)

omit [Length F] in
theorem length_trail {η : Type} (spots : η → LayoutFields F → η × List (Spot F)) (s : η)
    (items : List (LayoutNode F)) : (trail spots s (items.map Rose.value)).length = items.length := by
  rw [trail, length_sweep, List.length_map]

/-- An item of a row is laid out once. -/
theorem trail_rowSpots (row : FlexRow F) (s : F) {i : ℕ} {item : LayoutNode F}
    (hitem : items[i]? = some item) (hskip : passedOver item.value = false) :
    ∃ x width, (trail (rowSpots row) s (items.map Rose.value))[i]?.getD [] = [⟨x, width, false⟩] := by
  rw [trail, getElem?_sweep, List.getElem?_map, hitem]
  simp only [Option.map_some, Option.getD_some, hskip, Bool.false_eq_true, if_false]
  exact ⟨_, _, rfl⟩

include h

theorem actsOn_block : ActsOn items
    (trail (blockSpots frame.x frame.width) () (items.map Rose.value))
    (sweep (skipping skipped (blockStep recurse frame.x frame.width)) frame.y) :=
  actsOn_sweep (fun item hitem => ActsStep.skipping fun _ => actsStep_block (h item hitem) _ _) _

theorem actsOn_line : ActsOn items
    (trail (lineSpots frame.x frame.width) frame.x (items.map Rose.value))
    (sweep (skipping skipped (inlineStep recurse frame.x frame.width))
      ⟨frame.x, frame.y, frame.y⟩) :=
  actsOn_sweep (fun item hitem => ActsStep.skipping fun hskip =>
    actsStep_line (h item hitem) _ _ hskip) (⟨frame.x, frame.y, frame.y⟩ : InlineCursor F)

theorem actsOn_column (gap : F) : ActsOn items
    (trail (blockSpots frame.x frame.width) () (items.map Rose.value))
    (sweep (skipping skipped (columnStep recurse frame.x frame.width gap)) (frame.y, 0)) :=
  actsOn_sweep (fun item hitem => ActsStep.skipping fun _ => actsStep_column (h item hitem) _ _ _) _

theorem actsOn_grid (y gapX gapY : F) (columns : List F) : ActsOn items
    (trail (gridSpots frame.x gapX columns) 0 (items.map Rose.value))
    (sweep (skipping skipped (gridStep recurse frame.x y gapX gapY columns)) (0, [])) :=
  actsOn_sweep (fun item hitem => ActsStep.skipping fun _ =>
    actsStep_grid (h item hitem) _ _ _ _ _) ((0, []) : ℕ × List F)

/-- The items of a row, which are moved to the bottom of it at the end or not. -/
theorem actsOn_row (row : FlexRow F) (s : F) (atEnd : Prop) [Decidable atEnd] : ActsOn items
    (trail (rowSpots row) s (items.map Rose.value)) fun children =>
      let swept := sweep (skipping skipped (rowStep recurse row)) (s, 0) children
      (swept.1, if atEnd then swept.2.map (alignBottom swept.1.2) else swept.2) := by
  have hswept : ActsOn items (trail (rowSpots row) s (items.map Rose.value))
      (sweep (skipping skipped (rowStep recurse row)) (s, 0)) :=
    actsOn_sweep (fun item hitem => ActsStep.skipping fun hskip =>
      actsStep_row (h item hitem) row hskip) (s, 0)
  by_cases hend : atEnd
  · simp only [if_pos hend]
    obtain ⟨result, f, hall, hloop⟩ := hswept
    let g (i : ℕ) (place : List ℕ) (fields : LayoutFields F) : LayoutFields F :=
      (items[i]?).elim (f i place fields) fun item =>
        if passedOver item.value then f i place fields
        else atRoot (LayoutFields.moveDown (result.2 - (f i [] item.value).rect.height)) place
          (f i place fields)
    refine ⟨result, g, fun i item hitem => ?_, fun children hchildren => ?_⟩
    · have hcovers := hall i item hitem
      simp only [g, hitem, Option.elim_some]
      cases hskip : passedOver item.value with
      | true => exact hcovers
      | false =>
        obtain ⟨x, width, hspots⟩ := trail_rowSpots row s hitem hskip
        rw [hspots] at hcovers ⊢
        exact hcovers.moveDown rfl _
    · dsimp only
      rw [hloop children hchildren]
      refine Prod.ext rfl (List.mapIdx_eq_iff.mpr fun i => ?_).symm
      rw [List.getElem?_map, List.getElem?_mapIdx]
      cases hchild : children[i]? with
      | none => rfl
      | some child =>
        have hitem : items[i]? = some (skeleton child) := by
          rw [← hchildren, List.getElem?_map, hchild]
          rfl
        have hcovers := hall i _ hitem
        have hskipped : skipped (child.mapPlaces (f i)) = passedOver (skeleton child).value :=
          skipped_eq (still_of_skeleton hcovers.skeleton_eq)
        simp only [g, hitem, Option.elim_some, Option.map_some, alignBottom, hskipped]
        cases hskip : passedOver (skeleton child).value with
        | true => rfl
        | false =>
          obtain ⟨x, width, hspots⟩ := trail_rowSpots row s hitem hskip
          rw [hspots] at hcovers
          have hrect : (child.mapPlaces (f i)).value.rect = (f i [] (skeleton child).value).rect := by
            rw [Rose.value_mapPlaces]
            exact hcovers.deed.rect_eq rfl (congrArg LayoutFields.still (value_skeleton child).symm :)
          simp only [Bool.false_eq_true, if_false, hrect, modifyValue_eq_mapPlaces,
            Rose.mapPlaces_mapPlaces]
  · simp only [if_neg hend]
    exact hswept

omit h in
/-- The children in the flow, as they were built. -/
theorem values_inFlow (children : List (LayoutNode F)) :
    (((children.map skeleton).map Rose.value).filter fun child => !passedOver child) =
      (inFlow children).map fun child => child.value.still := by
  rw [List.map_map, List.filter_map]
  have hvalue : (Rose.value ∘ skeleton : LayoutNode F → LayoutFields F) = fun child => child.value.still :=
    funext value_skeleton
  rw [hvalue]
  rfl

omit h in
/-- Children that are not in the flow are left alone. -/
theorem sweep_of_inFlow_eq_nil {σ : Type} {step : σ → LayoutNode F → σ × LayoutNode F}
    {children : List (LayoutNode F)} (hempty : inFlow children = []) (s : σ) :
    sweep (skipping skipped step) s children = (s, children) := by
  induction children with
  | nil => rfl
  | cons child children ih =>
    rw [inFlow, List.filter_eq_nil_iff] at hempty
    have hskip : skipped child = true := by simpa using hempty child List.mem_cons_self
    rw [sweep_cons, skipping_of_true hskip, ih]
    rw [inFlow, List.filter_eq_nil_iff]
    exact fun other hother => hempty other (List.mem_cons_of_mem child hother)

omit h in
theorem inFlow_map_skeleton_eq_nil_iff {children : List (LayoutNode F)} :
    inFlow (children.map skeleton) = [] ↔ inFlow children = [] := by
  rw [inFlow, inFlow, List.filter_eq_nil_iff, List.filter_eq_nil_iff, List.forall_mem_map]
  refine forall₂_congr fun child _ => ?_
  rw [skipped_eq (congrArg LayoutFields.still (value_skeleton child)), skipped]
  exact Iff.rfl

omit h in
/-- A flexible box without items is left alone; otherwise a loop goes over them in their order. -/
theorem actsOn_layoutFlexChildren_of {ρ : Type} {spots : List (List (Spot F))}
    {loop : List (LayoutNode F) → ρ × List (LayoutNode F)}
    (hlength : spots.length = items.length) (hloop : ActsOn (ordered node items) spots loop)
    (g : ρ → F × F)
    (hidle : ∀ children, inFlow children = [] → (loop children).2 = children)
    (hrun : ∀ children, children.map skeleton = items → inFlow children ≠ [] →
      layoutFlexChildren recurse node frame children =
        (g (loop (ordered node children)).1, ordered node (loop (ordered node children)).2)) :
    ActsOn items (ordered node spots) (layoutFlexChildren recurse node frame) := by
  refine (hloop.ordered node hlength).of_eq
    (fun result => if inFlow items = [] then (frame.y, frame.width) else g result)
    fun children hchildren => ?_
  subst hchildren
  by_cases hnil : inFlow children = []
  · have hnil' : inFlow (ordered node children) = [] := by
      rw [inFlow, List.filter_eq_nil_iff] at hnil ⊢
      exact fun child hchild => hnil child (mem_ordered.mp hchild)
    rw [layoutFlexChildren, if_pos hnil, if_pos (inFlow_map_skeleton_eq_nil_iff.mpr hnil), hidle _ hnil',
      ordered_ordered]
  · rw [hrun children rfl hnil, if_neg (mt inFlow_map_skeleton_eq_nil_iff.mp hnil)]

theorem actsOn_layoutFlexChildren (hflex : node.display = .flex) :
    ActsOn items (flowSpots node frame (items.map Rose.value)) (layoutFlexChildren recurse node frame) := by
  have hordered : ∀ item ∈ ordered node items, Acts recurse item := fun item hitem =>
    h item (mem_ordered.mp hitem)
  have hlength : (ordered node items).length = items.length := by
    unfold ordered
    split
    · exact List.length_reverse
    · rfl
  rw [flowSpots, if_pos hflex, ← map_ordered]
  dsimp only
  by_cases hcolumn : isColumn node
  · rw [if_pos hcolumn]
    refine actsOn_layoutFlexChildren_of node frame ((length_trail _ _ _).trans hlength)
      (actsOn_column hordered frame (flexGap node frame.width))
      (fun s => (s.1 - flexGap node frame.width, fmax frame.width s.2))
      (fun children hnil => by rw [sweep_of_inFlow_eq_nil hnil]) fun children _ hnil => ?_
    rw [layoutFlexChildren, if_neg hnil, if_pos hcolumn]
    rfl
  · rw [if_neg hcolumn]
    generalize hinFlow : ((ordered node items).map Rose.value).filter (fun child => !passedOver child) =
      inFlow
    refine actsOn_layoutFlexChildren_of node frame ((length_trail _ _ _).trans hlength)
      (actsOn_row hordered (rowOf node frame inFlow) (rowStart node frame inFlow).1
        (node.style.get (lit "align-items") = some (lit "flex-end")))
      (fun s => (frame.y + s.2, frame.width)) (fun children hnil => ?_) fun children hchildren hnil => ?_
    · dsimp only
      rw [sweep_of_inFlow_eq_nil hnil]
      split
      · refine (List.map_congr_left fun child hchild => ?_).trans (List.map_id _)
        rw [Layout.inFlow, List.filter_eq_nil_iff] at hnil
        rw [alignBottom, if_pos (by simpa using hnil child hchild)]
        rfl
      · rfl
    · rw [layoutFlexChildren, if_neg hnil, if_neg hcolumn, rowFlow, ← values_inFlow, map_ordered, hchildren,
        hinFlow]

/-- **The loops over the children act on them.** -/
theorem actsOn_flow :
    ActsOn items (flowSpots node frame (items.map Rose.value)) (flow recurse node frame) := by
  by_cases hflex : node.display = .flex
  · exact (actsOn_layoutFlexChildren h node frame hflex).of_eq id fun children _ => flow_flex hflex frame children
  by_cases hgrid : node.display = .grid
  · rw [flowSpots, if_neg hflex, if_pos hgrid]
    let gapY := gridGap node (lit "row-gap") frame.width
    refine (actsOn_grid h frame frame.y (gridGap node (lit "column-gap") frame.width) gapY
      (gridColumns node frame.width)).of_eq (fun s => if inFlow items = [] then (frame.y, frame.width)
        else (frame.y + (s.2.foldl (fun total height => total + height) 0 +
          gapY * ofRat (s.2.length - 1 : ℕ)), frame.width)) fun children hchildren => ?_
    subst hchildren
    rw [flow_grid hgrid, layoutGridChildren]
    by_cases hnil : inFlow children = []
    · rw [if_pos hnil, if_pos (inFlow_map_skeleton_eq_nil_iff.mpr hnil), sweep_of_inFlow_eq_nil hnil]
    · rw [if_neg hnil, if_neg (mt inFlow_map_skeleton_eq_nil_iff.mp hnil)]
  · have hany (children : List (LayoutNode F)) (hchildren : children.map skeleton = items) :
        (children.any fun child => isInline child.value.still) = (items.map Rose.value).any isInline := by
      rw [← hchildren, List.any_map, List.any_map]
      exact congrArg children.any (funext fun child => congrArg isInline (value_skeleton child).symm)
    rw [flowSpots, if_neg hflex, if_neg hgrid]
    split
    next hline =>
      refine (actsOn_line h frame).of_eq
        (fun s => (fmax s.maxBottom (s.y + lineHeight node.style), frame.width)) fun children hc => ?_
      rw [flow, if_neg hflex, if_neg hgrid, hany children hc, if_pos hline]
      rfl
    next hline =>
      refine (actsOn_block h frame).of_eq (fun s => (s, frame.width)) fun children hc => ?_
      rw [flow, if_neg hflex, if_neg hgrid, hany children hc, if_neg hline]
      rfl

end Flow

/-! ## The recursion -/

/-- The horizontal part of a rectangle does not depend on anything vertical. -/
theorem placed_span (style : StyleProperties) (x y y' available width boxWidth boxWidth' height height' : F) :
    let laid := (placed style (frame style x y available) x y available width boxWidth height).1
    let laid' := (placed style (frame style x y' available) x y' available width boxWidth' height').1
    (laid.x, laid.width) = (laid'.x, laid'.width) := by
  unfold placed
  dsimp only
  split <;> rfl

/-- The horizontal part of the rectangle of a displayed node. -/
theorem extent_layoutNode {t : LayoutNode F} (h : t.value.display ≠ .none) (depth : ℕ)
    (x y available : F) :
    ((layoutNode (depth + 1) x y available t).value.rect.x,
      (layoutNode (depth + 1) x y available t).value.rect.width) = extent x available t.value.still := by
  obtain ⟨node, children⟩ := t
  have hwidth : (contentSize depth x y available node.still children).1 =
      if isImage node.still then
        (imageSize node.still available (frame node.style x 0 available).width).1
      else (frame node.style x 0 available).width := by
    unfold contentSize
    dsimp only
    split
    · rfl
    · split <;> rfl
  rw [(layoutNode_placed (show node.display ≠ .none from h) depth x y available children).1, hwidth]
  exact placed_span _ _ _ _ _ _ _ _ _ _

/-- **A layout acts on the nodes at their spots**, and whatever earlier layouts have left of the tree,
it does to each node what it does to the tree as it was built. -/
theorem acts_layoutNode (depth : ℕ) {item : LayoutNode F} (hbuilt : skeleton item = item)
    (hdepth : item.height ≤ depth) : Acts (layoutNode depth) item := by
  induction depth generalizing item with
  | zero =>
    obtain ⟨node, children⟩ := item
    rw [Rose.height] at hdepth
    omega
  | succ depth ih =>
    intro x y available
    suffices hacts : ∃ f, Covers [⟨x, available, false⟩] item f ∧
        ∀ t, skeleton t = item → layoutNode (depth + 1) x y available t = t.mapPlaces f by
      obtain ⟨f, hcovers, hrun⟩ := hacts
      have hrect (t : LayoutNode F) (ht : skeleton t = item) :
          (t.mapPlaces f).value.rect = (f [] item.value).rect := by
        rw [Rose.value_mapPlaces]
        exact hcovers.deed.rect_eq rfl (congrArg LayoutFields.still (still_of_skeleton ht) :)
      refine ⟨f, (f [] item.value).rect, hcovers, fun hdisplay => ?_, fun t ht => ⟨hrun t ht, hrect t ht⟩⟩
      have hextent := extent_layoutNode hdisplay depth x y available
      rwa [hrun item hbuilt, hrect item hbuilt, still_of_skeleton hbuilt] at hextent
    obtain ⟨node, children⟩ := item
    rw [skeleton_node, Rose.node.injEq] at hbuilt
    by_cases hcontents : hasContents node = true
    · have hchildren : ∀ child ∈ children, Acts (layoutNode depth) child := fun child hchild =>
        ih (List.map_inj_left.mp (hbuilt.2.trans (List.map_id children).symm) child hchild)
          (Rose.height_node_le_succ.mp hdepth child hchild)
      let frame := frame node.style x y available
      obtain ⟨result, f, hflow, hrun⟩ := actsOn_flow hchildren node frame
      let height := blockHeight node.style frame.width (result.1 - frame.y)
      obtain ⟨_, g, habsolute, hrun'⟩ := actsOn_sweep
        (fun child hchild => actsStep_absolute (hchildren child hchild) frame height) ()
      let box := placed node.style frame x y available frame.width result.2 height
      have hcovers (i : ℕ) (child : LayoutNode F) (hchild : children[i]? = some child) :
          Covers (childSpots node x available (children.map Rose.value) i) child
            fun place fields => g i place (f i place fields) := by
        have hboth := (hflow i child hchild).append (habsolute i child hchild)
        rw [sweep_map, List.getElem?_map, List.getElem?_map, hchild] at hboth
        rw [childSpots, List.getElem?_map, hchild]
        exact hboth
      refine ⟨fun place fields => place.casesOn { fields with rect := box.1, box := box.2 }
        fun i place => (children[i]?).elim fields fun _ => g i place (f i place fields),
        ⟨fun place fields => ?_, fun place other hother => ?_⟩, fun t ht => ?_⟩
      · cases place with
        | nil => rfl
        | cons i place =>
          dsimp only
          cases hchild : children[i]? with
          | none => rfl
          | some child => exact (hcovers i child hchild).still place fields
      · cases place with
        | nil =>
          obtain rfl := Option.some.inj hother
          exact chain_singleton_iff.mpr (.contents box.1 box.2 rfl hcontents)
        | cons i place =>
          rw [Rose.subtree_node_cons, Option.bind_eq_some_iff] at hother
          obtain ⟨child, hchild, hother⟩ := hother
          have hchain := (hcovers i child hchild).chain place other hother
          simp only [spotsAt, hchild, hcontents, Option.elim_some, if_true, List.flatMap_singleton]
          exact hchain
      · obtain ⟨fields, others⟩ := t
        rw [skeleton_node, Rose.node.injEq] at ht
        obtain ⟨hfields, hothers⟩ := ht
        have hmid : (others.mapIdx fun i other => other.mapPlaces (f i)).map skeleton = children := by
          refine List.ext_getElem? fun i => ?_
          rw [← hothers, List.getElem?_map, List.getElem?_mapIdx, List.getElem?_map]
          cases hother : others[i]? with
          | none => rfl
          | some other =>
            have hchild : children[i]? = some (skeleton other) := by
              rw [← hothers, List.getElem?_map, hother]
              rfl
            exact congrArg some (hflow i _ hchild).skeleton_eq
        have habsolute' := congrArg Prod.snd (hrun' _ hmid)
        rw [sweep_map, List.mapIdx_mapIdx] at habsolute'
        have hstyle := congrArg LayoutFields.style hfields
        change fields.style = node.style at hstyle
        rw [layoutNode_eq ((hasContents_eq (by rw [hfields]; exact hbuilt.1.symm)).trans hcontents),
          Rose.mapPlaces_node]
        have hflowed : flow (layoutNode depth) node (Layout.frame node.style x y available) others =
            (result, others.mapIdx fun i other => other.mapPlaces (f i)) := hrun others hothers
        simp only [contentsHeight, hfields, hstyle, hflowed]
        refine congrArg (Rose.node _) (habsolute'.trans (List.mapIdx_eq_mapIdx_iff.mpr fun i hi => ?_))
        have hchild : children[i]? = some (skeleton others[i]) := by
          rw [← hothers, List.getElem?_map, List.getElem?_eq_getElem hi]
          rfl
        simp only [Function.comp_apply, Rose.mapPlaces_mapPlaces, hchild, Option.elim_some]
    · have hleaf := Bool.eq_false_iff.mpr hcontents
      refine ⟨_, covers_atRoot hleaf (.leaf y rfl hleaf), fun t ht => ?_⟩
      obtain ⟨fields, others⟩ := t
      rw [skeleton_node, Rose.node.injEq] at ht
      rw [layoutNode_of_not_hasContents ((hasContents_eq (by rw [ht.1]; exact hbuilt.1.symm)).trans hleaf),
        ← modifyValue_eq_mapPlaces]
      rfl

/-- The same of `LayoutEngine::layout`: the tree is laid out at one spot. -/
theorem exists_layout_eq {root : LayoutNode F} (hbuilt : skeleton root = root) (width : F) :
    ∃ f, Covers [⟨0, width, false⟩] root f ∧
      ∀ t, skeleton t = root → layout t width = t.mapPlaces f := by
  obtain ⟨f, _, hcovers, -, hrun⟩ := acts_layoutNode root.height hbuilt le_rfl 0 0 width
  refine ⟨f, hcovers, fun t ht => ?_⟩
  have hheight : t.height = root.height := height_of_skeleton_eq (ht.trans hbuilt.symm)
  rw [layout, hheight, (hrun t ht).1]

/-- Every node of a tree that has not been laid out is as it was built. -/
theorem still_of_subtree {root node : LayoutNode F} (hbuilt : skeleton root = root) {place : List ℕ}
    (hnode : root.subtree place = some node) : node.value.still = node.value := by
  have hmap := Rose.subtree_map LayoutFields.still place root
  rw [show root.map LayoutFields.still = root from hbuilt, hnode, Option.map_some,
    Option.some.injEq] at hmap
  exact (value_skeleton node).symm.trans (congrArg Rose.value hmap.symm)

end Aetheris.Layout
