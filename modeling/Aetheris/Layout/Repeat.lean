import Aetheris.Layout.Deeds

/-!
# Repeated layouts

What a layout does to a node hardly depends on what an earlier one has left of it.  A node that is
laid out gets everything anew.  Only a text in a line keeps something: when the line has no room for
its words, its rectangle and the height of its content box stay as they are, and those are the ones
of an earlier layout if that one has drawn the text.  So a second layout is like the first layout of
a fresh copy if and only if every text that has been drawn at one of its spots in the first is drawn
at one of its spots in the second.

The layouts of a fresh copy and of one that has been laid out do the same things to a node, as they
act on it at its spots.  It remains to compare, for each kind of node, what becomes of two values.
-/

namespace Aetheris.Layout

open Dom Style Length

variable {F : Type} [Length F]

/-- At the spot the loop over a line draws a text: there are words, and room for them. -/
def Spot.Draws (spot : Spot F) (node : LayoutFields F) : Prop :=
  spot.inLine = true ∧ ¬spot.available ≤ 0 ∧ words node.dom.data ≠ []

theorem textLayout_ne_nil_iff {source : Bytes} {x y available : F} {style : StyleProperties} :
    textLayout source x y available style ≠ [] ↔ ¬available ≤ 0 ∧ words source ≠ [] := by
  have htexts := texts_textLayout source x y available style
  rw [← not_iff_not, not_not, not_and_or, not_not, not_not, ← List.map_eq_nil_iff, htexts]
  by_cases havailable : available ≤ 0
  · rw [if_pos havailable]
    exact iff_of_true rfl (Or.inl havailable)
  · rw [if_neg havailable]
    exact (or_iff_right havailable).symm

/-! ## Kinds of spots -/

section Kinds

/-- There are spots, and all of them are of one kind. -/
def OfKind (inLine : Bool) (spots : List (Spot F)) : Prop :=
  spots ≠ [] ∧ ∀ spot ∈ spots, spot.inLine = inLine

omit [Length F] in
theorem ofKind_singleton (x width : F) (inLine : Bool) : OfKind inLine [⟨x, width, inLine⟩] :=
  ⟨List.cons_ne_nil _ _, fun _ hspot => congrArg Spot.inLine (List.mem_singleton.mp hspot)⟩

variable {η : Type} {spots : η → LayoutFields F → η × List (Spot F)} {s : η}
  {children : List (LayoutFields F)} {i : ℕ} {child : LayoutFields F} {kind : Bool}

/-- A child that a loop passes over has no spots, and another one has spots of this kind. -/
structure Visited (child : LayoutFields F) (inLine : Bool) (spots : List (Spot F)) : Prop where
  skipped : passedOver child = true → spots = []
  kind : passedOver child = false → OfKind inLine spots

omit [Length F] in
theorem visited_trail (hchild : children[i]? = some child)
    (hkind : ∀ s, OfKind kind (spots s child).2) :
    Visited child kind ((trail spots s children)[i]?.getD []) := by
  rw [trail, getElem?_sweep, hchild, Option.map_some, Option.getD_some]
  exact ⟨fun hskip => by rw [if_pos hskip], fun hskip => by
    rw [hskip]
    exact hkind _⟩

omit [Length F] in
theorem visited_ordered_trail (node : LayoutFields F) (hchild : children[i]? = some child)
    (hkind : ∀ s, OfKind kind (spots s child).2) :
    Visited child kind ((ordered node (trail spots s (ordered node children)))[i]?.getD []) := by
  by_cases hreversed : isReversed node
  · have hi := (List.getElem?_eq_some_iff.mp hchild).1
    have hlength : (trail spots s children.reverse).length = children.length := by
      rw [trail, length_sweep, List.length_reverse]
    simp only [ordered, if_pos hreversed]
    rw [List.getElem?_reverse (hlength.symm ▸ hi), hlength]
    refine visited_trail ?_ hkind
    rwa [List.getElem?_reverse (by omega), show children.length - 1 - (children.length - 1 - i) = i by omega]
  · simp only [ordered, if_neg hreversed]
    exact visited_trail hchild hkind

theorem ofKind_lineSpots (x width s : F) :
    OfKind (isInlineText child) (lineSpots x width s child).2 := by
  rw [lineSpots]
  cases isInlineText child with
  | true => exact ofKind_singleton _ _ _
  | false =>
    rw [if_neg Bool.false_ne_true]
    dsimp only
    split
    · exact ⟨List.cons_ne_nil _ _, by simp⟩
    · exact ofKind_singleton _ _ _

/-- Whether a child is a text in a line does not depend on the width. -/
theorem exists_visited_flowSpots (node : LayoutFields F) (hchild : children[i]? = some child) :
    ∃ kind, ∀ frame, Visited child kind ((flowSpots node frame children)[i]?.getD []) := by
  have hblock (x width : F) (s : Unit) : OfKind false (blockSpots x width s child).2 :=
    ofKind_singleton _ _ _
  by_cases hflex : node.display = .flex
  · refine ⟨false, fun frame => ?_⟩
    rw [flowSpots, if_pos hflex]
    dsimp only
    split
    · exact visited_ordered_trail node hchild (hblock _ _)
    · refine visited_ordered_trail node hchild fun s => ?_
      exact ofKind_singleton _ _ _
  by_cases hgrid : node.display = .grid
  · refine ⟨false, fun frame => ?_⟩
    rw [flowSpots, if_neg hflex, if_pos hgrid]
    refine visited_trail hchild fun s => ?_
    exact ofKind_singleton _ _ _
  simp only [flowSpots, if_neg hflex, if_neg hgrid]
  split
  · exact ⟨isInlineText child, fun _ => visited_trail hchild (ofKind_lineSpots _ _)⟩
  · exact ⟨false, fun _ => visited_trail hchild (hblock _ _)⟩

theorem childSpots_cases (node : LayoutFields F) (hchild : children[i]? = some child) :
    (∀ x available, childSpots node x available children i = []) ∨
      ∃ kind, ∀ x available, OfKind kind (childSpots node x available children i) := by
  obtain ⟨kind, hflow⟩ := exists_visited_flowSpots node hchild
  simp only [childSpots, hchild, Option.elim_some, absoluteSpots]
  by_cases hpositioned : isPositioned child = true
  · have hskip : passedOver child = true := by rw [passedOver, hpositioned, Bool.or_true]
    refine Or.inr ⟨false, fun x available => ?_⟩
    rw [(hflow _).skipped hskip, if_pos hpositioned]
    exact ofKind_singleton _ _ _
  · simp only [if_neg hpositioned, List.append_nil]
    cases hskip : passedOver child with
    | true => exact Or.inl fun x available => (hflow _).skipped hskip
    | false => exact Or.inr ⟨kind, fun x available => (hflow _).kind hskip⟩

/-- The spots of a node are of one kind, which does not depend on the width; or it has none. -/
theorem spotsAt_cases (place : List ℕ) (item : LayoutNode F) (kind : Bool) :
    (∀ spots, OfKind kind spots → spotsAt place spots item = []) ∨
      ∃ kind', ∀ spots, OfKind kind spots → OfKind kind' (spotsAt place spots item) := by
  induction place generalizing item kind with
  | nil => exact Or.inr ⟨kind, fun _ h => h⟩
  | cons i place ih =>
    obtain ⟨node, children⟩ := item
    simp only [spotsAt]
    cases hchild : children[i]? with
    | none => exact Or.inl fun _ _ => rfl
    | some child =>
      simp only [Option.elim_some]
      by_cases hcontents : hasContents node = true
      · simp only [if_pos hcontents]
        have hvalue : (children.map Rose.value)[i]? = some child.value := by
          rw [List.getElem?_map, hchild]
          rfl
        rcases childSpots_cases node hvalue with hnone | ⟨kind', hsome⟩
        · refine Or.inl fun spots _ => ?_
          rw [List.flatMap_eq_nil_iff.mpr fun _ _ => hnone _ _, spotsAt_nil]
        · have hbelow (spots : List (Spot F)) (h : OfKind kind spots) : OfKind kind'
              (spots.flatMap fun spot =>
                childSpots node spot.x spot.available (children.map Rose.value) i) := by
            refine ⟨fun hnil => ?_, fun spot hspot => ?_⟩
            · obtain ⟨spot, hspot⟩ := List.exists_mem_of_ne_nil _ h.1
              exact (hsome _ _).1 (List.flatMap_eq_nil_iff.mp hnil spot hspot)
            · obtain ⟨above, -, hspot⟩ := List.mem_flatMap.mp hspot
              exact (hsome _ _).2 spot hspot
          rcases ih child kind' with hnone | ⟨kind'', hsome'⟩
          · exact Or.inl fun spots h => hnone _ (hbelow spots h)
          · exact Or.inr ⟨kind'', fun spots h => hsome' _ (hbelow spots h)⟩
      · simp only [if_neg hcontents]
        exact Or.inl fun _ _ => spotsAt_nil _ _

end Kinds

/-! ## Nodes that are laid out -/

section Nodes

variable {node : LayoutFields F} {spot : Spot F} {spots spots' : List (Spot F)}
  {f g : LayoutFields F → LayoutFields F} {a b : LayoutFields F}

/-- A node that is laid out gets everything anew, but for the fragments of a node that is no text. -/
theorem Deed.eq_of_laid (h : Deed node spot f) (hline : spot.inLine = false)
    (ha : a.still = node.still) (hb : b.still = node.still)
    (hfragments : node.dom.type ≠ .text → a.textFragments = b.textFragments) : f a = f b := by
  have hdom : a.dom = node.dom := (eq_of_still_eq ha).2.1
  induction h with
  | text _ _ htext => exact absurd (hline.symm.trans htext) Bool.false_ne_true
  | leaf y => exact LayoutFields.layoutLeaf_eq (ha.trans hb.symm) (hdom ▸ hfragments)
  | contents rect box _ hcontents =>
    exact LayoutFields.ext_still (ha.trans hb.symm) rfl rfl
      (hfragments (hasContents_iff.mp hcontents).2.2)
  | moveDown dy _ _ ih => exact congrArg (LayoutFields.moveDown dy) ih

theorem Chain.eq_of_laid (h : Chain node spots f) (hkind : OfKind false spots)
    (ha : a.still = node.still) (hb : b.still = node.still)
    (hfragments : node.dom.type ≠ .text → a.textFragments = b.textFragments) : f a = f b := by
  obtain _ | ⟨hfirst, hrest⟩ := h
  · exact absurd rfl hkind.1
  · exact congrArg _ (hfirst.eq_of_laid (hkind.2 _ List.mem_cons_self) ha hb hfragments)

/-- A node that is no text has no fragments. -/
theorem Chain.textFragments (h : Chain node spots f) (hline : ∀ spot ∈ spots, spot.inLine = false)
    (ha : a.still = node.still) (htext : node.dom.type ≠ .text) (hnil : a.textFragments = []) :
    (f a).textFragments = [] := by
  induction h generalizing a with
  | nil => exact hnil
  | @cons spot spots f g hfirst _ ih =>
    rw [List.forall_mem_cons] at hline
    refine ih hline.2 ((hfirst.still a).trans ha) ?_
    have hdom : a.dom = node.dom := (eq_of_still_eq ha).2.1
    clear ih
    induction hfirst with
    | text _ _ hline' => exact absurd (hline.1.symm.trans hline') Bool.false_ne_true
    | leaf y _ hleaf =>
      unfold layoutLeaf
      split
      · rfl
      next hdisplay =>
        have himage : a.dom.type = .element ∧ a.dom.name = lit "img" := by
          by_contra himage
          refine Bool.eq_false_iff.mp hleaf ?_
          have hcontents := hasContents_iff.mpr ⟨hdisplay, himage, hdom ▸ htext⟩
          rwa [hasContents_eq ha] at hcontents
        dsimp only
        rw [if_pos himage]
        exact hnil
    | contents => exact hnil
    | moveDown _ _ _ ih => exact ih

/-! ## Texts in a line -/

theorem Deed.exists_setText (h : Deed node spot f) (hline : spot.inLine = true) :
    ∃ y height, f = LayoutFields.setText spot.x y spot.available
      (textLayout node.dom.data spot.x y spot.available node.style) height := by
  cases h with
  | text y height => exact ⟨y, height, rfl⟩
  | leaf _ h => exact absurd (h.symm.trans hline) Bool.false_ne_true
  | contents _ _ h => exact absurd (h.symm.trans hline) Bool.false_ne_true
  | moveDown _ h => exact absurd (h.symm.trans hline) Bool.false_ne_true

/-- Two values of a text that were built alike, with the same edges. -/
structure SameInput (a b : LayoutFields F) : Prop where
  still : a.still = b.still
  edges : a.box.margin = b.box.margin ∧ a.box.padding = b.box.padding ∧ a.box.border = b.box.border

/-- What a text that is not drawn keeps. -/
def Kept (a b : LayoutFields F) : Prop :=
  a.rect = b.rect ∧ a.box.content.height = b.box.content.height

/-- Two values of a text are the same, up to what it keeps when it is not drawn. -/
structure Twin (a b : LayoutFields F) : Prop extends SameInput a b where
  fragments : a.textFragments = b.textFragments
  content : a.box.content.x = b.box.content.x ∧ a.box.content.y = b.box.content.y ∧
    a.box.content.width = b.box.content.width

theorem Twin.eq_iff (h : Twin a b) : a = b ↔ Kept a b := by
  constructor
  · rintro rfl
    exact ⟨rfl, rfl⟩
  · rintro ⟨hrect, hheight⟩
    obtain ⟨hx, hy, hwidth⟩ := h.content
    obtain ⟨hmargin, hpadding, hborder⟩ := h.edges
    refine LayoutFields.ext_still h.still hrect ?_ h.fragments
    rw [BoxModel.ext_iff, LayoutRect.ext_iff]
    exact ⟨⟨hx, hy, hwidth, hheight⟩, hmargin, hpadding, hborder⟩

/-- What a spot in a line does to two values of a text. -/
theorem Deed.inLine (h : Deed node spot f) (hline : spot.inLine = true) :
    (SameInput a b → Twin (f a) (f b)) ∧ SameInput (f a) a ∧
      (spot.Draws node → Kept (f a) (f b) ∧ ¬(f a).rect.width ≤ 0) ∧
      (¬spot.Draws node → Kept (f a) a) := by
  obtain ⟨y, height, rfl⟩ := h.exists_setText hline
  have hdraws : spot.Draws node ↔
      textLayout node.dom.data spot.x y spot.available node.style ≠ [] := by
    rw [textLayout_ne_nil_iff]
    exact and_iff_right hline
  have htwin (hab : SameInput a b) (l : List (TextFragment F)) :
      Twin (a.setText spot.x y spot.available l height)
        (b.setText spot.x y spot.available l height) := by
    refine ⟨⟨?_, ?_⟩, ?_, ?_⟩
    · rw [LayoutFields.still_setText, LayoutFields.still_setText, hab.still]
    · unfold LayoutFields.setText
      split <;> exact hab.edges
    · rw [LayoutFields.textFragments_setText, LayoutFields.textFragments_setText]
    · unfold LayoutFields.setText
      split <;> exact ⟨rfl, rfl, rfl⟩
  refine ⟨fun hab => htwin hab _, ⟨LayoutFields.still_setText, ?_⟩, fun hdrawn => ?_, fun hdrawn => ?_⟩
  · unfold LayoutFields.setText
    split <;> exact ⟨rfl, rfl, rfl⟩
  · rw [LayoutFields.setText, LayoutFields.setText, if_neg (hdraws.mp hdrawn),
      if_neg (hdraws.mp hdrawn)]
    exact ⟨⟨rfl, rfl⟩, hdrawn.2.1⟩
  · rw [LayoutFields.setText, if_pos (not_not.mp (mt hdraws.mpr hdrawn))]
    exact ⟨rfl, rfl⟩

theorem Chain.twin (h : Chain node spots f) (hline : ∀ spot ∈ spots, spot.inLine = true)
    (hab : SameInput a b) (hnil : spots = [] → Twin a b) : Twin (f a) (f b) := by
  induction h generalizing a b with
  | nil => exact hnil rfl
  | cons hfirst _ ih =>
    rw [List.forall_mem_cons] at hline
    have htwin := (hfirst.inLine hline.1).1 hab
    exact ih hline.2 htwin.toSameInput fun _ => htwin

theorem Chain.alike (h : Chain node spots f) (hline : ∀ spot ∈ spots, spot.inLine = true) :
    SameInput (f a) a := by
  induction h generalizing a with
  | nil => exact ⟨rfl, rfl, rfl, rfl⟩
  | @cons spot spots f g hfirst _ ih =>
    rw [List.forall_mem_cons] at hline
    have hfirst := (hfirst.inLine hline.1 : (SameInput a a → _) ∧ _).2.1
    have hrest := ih (a := f a) hline.2
    exact ⟨hrest.still.trans hfirst.still, hrest.edges.1.trans hfirst.edges.1,
      hrest.edges.2.1.trans hfirst.edges.2.1, hrest.edges.2.2.trans hfirst.edges.2.2⟩

/-- A text that is not drawn keeps what it has. -/
theorem Chain.kept (h : Chain node spots f) (hline : ∀ spot ∈ spots, spot.inLine = true)
    (hdraws : ∀ spot ∈ spots, ¬spot.Draws node) : Kept (f a) a := by
  induction h generalizing a with
  | nil => exact ⟨rfl, rfl⟩
  | @cons spot spots f g hfirst _ ih =>
    rw [List.forall_mem_cons] at hline hdraws
    obtain ⟨hrect, hheight⟩ := (hfirst.inLine (a := a) (b := a) hline.1).2.2.2 hdraws.1
    obtain ⟨hrect', hheight'⟩ := ih (a := f a) hline.2 hdraws.2
    exact ⟨hrect'.trans hrect, hheight'.trans hheight⟩

/-- A text that is drawn keeps nothing. -/
theorem Chain.drawn (h : Chain node spots f) (hline : ∀ spot ∈ spots, spot.inLine = true)
    (hdraws : ∃ spot ∈ spots, spot.Draws node) : Kept (f a) (f b) ∧ ¬(f a).rect.width ≤ 0 := by
  induction h generalizing a b with
  | nil => exact absurd hdraws (by simp)
  | @cons spot spots f g hfirst hrest ih =>
    rw [List.forall_mem_cons] at hline
    by_cases hmore : ∃ spot ∈ spots, spot.Draws node
    · exact ih hline.2 hmore
    · have hnone : ∀ spot ∈ spots, ¬spot.Draws node := fun spot hspot hdrawn =>
        hmore ⟨spot, hspot, hdrawn⟩
      have hdrawn := ((List.exists_mem_cons_iff _ _ _).mp hdraws).resolve_right hmore
      obtain ⟨hkept, hwidth⟩ := (hfirst.inLine (a := a) (b := b) hline.1).2.2.1 hdrawn
      obtain ⟨hrect, hheight⟩ := hrest.kept (a := f a) hline.2 hnone
      obtain ⟨hrect', hheight'⟩ := hrest.kept (a := f b) hline.2 hnone
      exact ⟨⟨hrect.trans (hkept.1.trans hrect'.symm), hheight.trans (hkept.2.trans hheight'.symm)⟩,
        hrect.symm ▸ hwidth⟩

/-! ## Two layouts -/

/-- A node that is laid out twice is like one that is laid out once, if and only if the second time
it is drawn in case it was the first time. -/
theorem Chain.eq_iff (h : Chain node spots f) (h' : Chain node spots' g) (hbuilt : node.still = node)
    (hkind : spots = [] ∧ spots' = [] ∨ ∃ kind, OfKind kind spots ∧ OfKind kind spots') :
    g (f node) = g node ↔
      ((∃ spot ∈ spots, spot.Draws node) → ∃ spot ∈ spots', spot.Draws node) := by
  have hfragments : node.textFragments = [] := congrArg LayoutFields.textFragments hbuilt.symm
  rcases hkind with ⟨rfl, rfl⟩ | ⟨_ | _, hkind, hkind'⟩
  · cases h
    exact iff_of_true rfl fun hdraws => hdraws
  · -- a node that is laid out gets everything anew
    refine iff_of_true (h'.eq_of_laid hkind' (h.still node) rfl fun htext => ?_) fun hdraws => ?_
    · rw [hfragments]
      exact h.textFragments hkind.2 rfl htext hfragments
    · obtain ⟨spot, hspot, hline, -⟩ := hdraws
      exact absurd ((hkind.2 spot hspot).symm.trans hline) Bool.false_ne_true
  · -- a text in a line keeps what an earlier layout has drawn
    have hzero : node.rect.width = 0 := by
      rw [← hbuilt]
      rfl
    have htwin : Twin (g (f node)) (g node) :=
      h'.twin hkind'.2 (h.alike hkind.2) fun hnil => absurd hnil hkind'.1
    rw [htwin.eq_iff]
    by_cases hdraws' : ∃ spot ∈ spots', spot.Draws node
    · exact iff_of_true (h'.drawn hkind'.2 hdraws').1 fun _ => hdraws'
    · have hnone {spots : List (Spot F)} (h : ¬∃ spot ∈ spots, spot.Draws node) :
          ∀ spot ∈ spots, ¬spot.Draws node := fun spot hspot hdrawn => h ⟨spot, hspot, hdrawn⟩
      obtain ⟨hrect, hheight⟩ := h'.kept (a := f node) hkind'.2 (hnone hdraws')
      obtain ⟨hrect', hheight'⟩ := h'.kept (a := node) hkind'.2 (hnone hdraws')
      by_cases hdraws : ∃ spot ∈ spots, spot.Draws node
      · refine iff_of_false (fun hkept => ?_) fun himp => hdraws' (himp hdraws)
        refine (h.drawn (a := node) (b := node) hkind.2 hdraws).2 ?_
        rw [hrect.symm.trans (hkept.1.trans hrect'), hzero]
        exact zero_le_zero
      · obtain ⟨hrect'', hheight''⟩ := h.kept (a := node) hkind.2 (hnone hdraws)
        exact iff_of_true ⟨hrect.trans (hrect''.trans hrect'.symm),
          hheight.trans (hheight''.trans hheight'.symm)⟩ fun h => absurd h hdraws

end Nodes

/-- **A layout does not depend on an earlier one if and only if it draws all texts** in lines that
the earlier one has drawn: a text with a word that has room at one of its spots of the first layout
must have room at one of its spots of the second. -/
theorem layout_layout_eq_iff (root : LayoutNode F) (width₁ width₂ : F) :
    layout (layout (skeleton root) width₁) width₂ = layout (skeleton root) width₂ ↔
      ∀ place node, (skeleton root).subtree place = some node →
        (∃ spot ∈ spotsAt place [⟨0, width₁, false⟩] (skeleton root), spot.Draws node.value) →
          ∃ spot ∈ spotsAt place [⟨0, width₂, false⟩] (skeleton root), spot.Draws node.value := by
  have hbuilt : skeleton (skeleton root) = skeleton root := Rose.map_map _ _ _
  obtain ⟨f, hcovers, hrun⟩ := exists_layout_eq hbuilt width₁
  obtain ⟨g, hcovers', hrun'⟩ := exists_layout_eq hbuilt width₂
  rw [hrun _ hbuilt, hrun' _ (hcovers.skeleton_eq.trans hbuilt), hrun' _ hbuilt,
    Rose.mapPlaces_mapPlaces, Rose.mapPlaces_eq_iff]
  refine forall₃_congr fun place node hnode => ?_
  refine (hcovers.chain place node hnode).eq_iff (hcovers'.chain place node hnode)
    (still_of_subtree hbuilt hnode) ?_
  rcases spotsAt_cases place (skeleton root) false with hnone | ⟨kind, hsome⟩
  · exact Or.inl ⟨hnone _ (ofKind_singleton _ _ _), hnone _ (ofKind_singleton _ _ _)⟩
  · exact Or.inr ⟨kind, hsome _ (ofKind_singleton _ _ _), hsome _ (ofKind_singleton _ _ _)⟩

/-- A text in a box with a left padding of fifty pixels. -/
def paddedText : LayoutNode ℚ :=
  element (lit "p") .block [(lit "padding-left", lit "50px")]
    [.node (unlaid { type := .text, data := lit "a" } .inline []) []]

theorem layout_paddedText_ne :
    layout (layout (skeleton paddedText) 100) 40 ≠ layout (skeleton paddedText) 40 := by
  intro heq
  have hwidths := congrArg (fun root : LayoutNode ℚ =>
    root.children.map fun child => child.value.rect.width) heq
  exact absurd hwidths (by decide +kernel)

end Aetheris.Layout
