import Aetheris.Layout.Builder
import Aetheris.Layout.Engine
import Aetheris.Library.Runs
import Aetheris.Paint.RenderTree
import Aetheris.Style.Interaction

/-!
# The rendered page

`RenderDocument` of `rendering/render_document.cpp` with its `VisualInteractionState`.  The page is
laid out again when the state of the pointer has changed; whether it has is told by a counter of
changes and by two flags.

The invariant says from which state the page was built, and how many changes of it ago, as far as
the counter can tell.  `Browsing.MayKeep` is the condition under which the page may be kept, and
every call of a run keeps the invariant.
-/

namespace Aetheris.Dom.VisualInteractionState

/-! ## The state of the pointer -/

/-- A `DomNode const*&` of the state. -/
inductive Slot where
  | hovered
  | active
  | focused

/-- What a slot holds. -/
def get (state : VisualInteractionState) : Slot → Option NodeId
  | .hovered => state.hovered
  | .active => state.active
  | .focused => state.focused

/-- `slot = value`. -/
def put (state : VisualInteractionState) (value : Option NodeId) : Slot → VisualInteractionState
  | .hovered => { state with hovered := value }
  | .active => { state with active := value }
  | .focused => { state with focused := value }

@[simp] theorem generation_put (state : VisualInteractionState) (value : Option NodeId) (slot : Slot) :
    (state.put value slot).generation = state.generation := by
  cases slot <;> rfl

/-- `++state.generation`, of a `size_t`. -/
def advance (state : VisualInteractionState) : VisualInteractionState :=
  { state with generation := (state.generation + 1) % 2 ^ 64 }

/-- `set_node`. -/
def setNode (slot : Slot) (value : Option NodeId) (state : VisualInteractionState) :
    VisualInteractionState :=
  if state.get slot = value then state
  else { (state.put value slot).advance with paintDirty := true }

/-- `set_hovered`. -/
def setHovered : Option NodeId → VisualInteractionState → VisualInteractionState := setNode .hovered

/-- `set_active`. -/
def setActive : Option NodeId → VisualInteractionState → VisualInteractionState := setNode .active

/-- `set_focused`. -/
def setFocused : Option NodeId → VisualInteractionState → VisualInteractionState := setNode .focused

/-- `mark_layout_dirty`. -/
def markLayoutDirty (state : VisualInteractionState) : VisualInteractionState :=
  { state with layoutDirty := true, paintDirty := true }.advance

/-- `consume_layout_dirty`. -/
def consumeLayoutDirty (state : VisualInteractionState) : VisualInteractionState :=
  { state with layoutDirty := false }

/-- `consume_paint_dirty`. -/
def consumePaintDirty (state : VisualInteractionState) : VisualInteractionState :=
  { state with paintDirty := false }

end Aetheris.Dom.VisualInteractionState

namespace Aetheris.Paint

open Css Dom Layout Style

/-! ## The page -/

/-- `RenderDocument`.  `image` is what `m_images` loads for a reference, with the URL and the
resources of the page. -/
structure RenderDocument (F : Type) [Length F] where
  document : DocumentTree
  layoutRoot : LayoutNode F
  renderTree : List (PaintCommand F)
  stylesheet : CssStyleSheet
  viewportWidth : F
  visualGeneration : ℕ
  image : Bytes → Option Image

/-- The reference in a `background-image`. -/
def backgroundReference (value : Bytes) : Option Bytes :=
  match find value (lit "url("), rfind value (chr ')') with
  | some start, some close =>
    if start + 4 < close then
      let url := (value.drop (start + 4)).take (close - (start + 4))
      some (if url.head? = some (chr '"') ∨ url.head? = some 0x27 then
        (url.drop 1).take (url.length - 2) else url)
    else none
  | _, _ => none

variable {F : Type}

/-- `resolve_images`, on one node. -/
def resolveImage (image : Bytes → Option Image) (node : LayoutFields F) : LayoutFields F :=
  let node :=
    if node.dom.type = .element ∧ node.dom.name = lit "img" then
      match node.dom.attributeValue (lit "src") with
      | some src => { node with image := image src }
      | none => node
    else node
  match (node.style.get (lit "background-image")).bind backgroundReference with
  | some url => { node with backgroundImage := image url }
  | none => node

/-- `RenderDocument::resolve_images`. -/
def resolveImages (image : Bytes → Option Image) (root : LayoutNode F) : LayoutNode F :=
  root.map (resolveImage image)

theorem isSome_build [Zero F] (doc : DocumentTree) (sheet : CssStyleSheet)
    (interaction : Option VisualInteractionState) :
    (build doc sheet interaction : Option (LayoutNode F)).isSome = true := by
  obtain ⟨root, hroot, -⟩ := build_spec (F := F) doc sheet interaction
  rw [hroot]
  rfl

namespace RenderDocument

variable [Length F]

/-- The layout tree from scratch: the boxes are built, laid out, and given their images. -/
def rebuild (page : RenderDocument F) (interaction : Option VisualInteractionState) (width : F) :
    LayoutNode F :=
  resolveImages page.image
    (layout ((build page.document page.stylesheet interaction).get (isSome_build _ _ _)) width)

/-- The page with a new layout tree, and its render tree. -/
def withLayout (page : RenderDocument F) (root : LayoutNode F) : RenderDocument F :=
  { page with layoutRoot := root, renderTree := fromLayout root }

/-- `RenderDocument::create_from_document`, with a parsed style sheet. -/
def createFromDocument (document : DocumentTree) (sheet : CssStyleSheet)
    (image : Bytes → Option Image) (viewportWidth : F) : RenderDocument F :=
  let root := resolveImages image
    (layout ((build document sheet none).get (isSome_build _ _ _)) viewportWidth)
  { document := document
    layoutRoot := root
    renderTree := fromLayout root
    stylesheet := sheet
    viewportWidth := viewportWidth
    visualGeneration := 0
    image := image }

/-- `RenderDocument::relayout`. -/
def relayout (page : RenderDocument F) : RenderDocument F :=
  page.withLayout (page.rebuild none page.viewportWidth)

/-- The test at the beginning of `apply_visual_state`. -/
def isKept (page : RenderDocument F) (state : VisualInteractionState) : Bool :=
  page.visualGeneration == state.generation && !state.layoutDirty && !state.paintDirty

/-- `RenderDocument::apply_visual_state`. -/
def applyVisualState (page : RenderDocument F) (state : VisualInteractionState) (width : F) :
    RenderDocument F :=
  if page.isKept state then page
  else { page.withLayout (page.rebuild (some state) width) with visualGeneration := state.generation }

end RenderDocument

/-! ## What is done to a page -/

/-- What is done to a page and to the state of the pointer. -/
inductive Event (F : Type) where
  | setHovered (node : Option NodeId)
  | setActive (node : Option NodeId)
  | setFocused (node : Option NodeId)
  | markLayoutDirty
  | consumeLayoutDirty
  | consumePaintDirty
  | relayout
  | applyVisualState (width : F)

/-- The last time that the layout tree was built: without a state of the pointer, or for one, at a
width and that many changes of the state ago. -/
inductive LastBuild (F : Type) where
  | plain
  | applied (width : F) (changes : ℕ)

/-- One more change of the state. -/
def LastBuild.changed : LastBuild F → LastBuild F
  | .plain => .plain
  | .applied width changes => .applied width (changes + 1)

variable [Length F]

/-- A page and a state of the pointer.  The source does not keep `last`, and nothing is computed
from it. -/
structure Browsing (F : Type) [Length F] where
  page : RenderDocument F
  state : VisualInteractionState
  last : LastBuild F

namespace Browsing

/-- The state is changed, if it does change. -/
def change (s : Browsing F) (state : VisualInteractionState) : Browsing F :=
  { s with state := state, last := if state = s.state then s.last else s.last.changed }

/-- One call. -/
def step (s : Browsing F) : Event F → Browsing F
  | .setHovered node => s.change (s.state.setHovered node)
  | .setActive node => s.change (s.state.setActive node)
  | .setFocused node => s.change (s.state.setFocused node)
  | .markLayoutDirty => s.change s.state.markLayoutDirty
  | .consumeLayoutDirty => { s with state := s.state.consumeLayoutDirty }
  | .consumePaintDirty => { s with state := s.state.consumePaintDirty }
  | .relayout => { s with page := s.page.relayout, last := .plain }
  | .applyVisualState width =>
    { s with
      page := s.page.applyVisualState s.state width
      last := if s.page.isKept s.state then s.last else .applied width 0 }

/-- A page that has just been made, with a new state of the pointer. -/
def start (page : RenderDocument F) : Browsing F := ⟨page, {}, .plain⟩

/-- The condition under which a page may be kept: it was built last by `apply_visual_state` at the
same width, less than `2 ^ 64` changes of the state ago, or it was built last without a state, for
the width of the page, and nothing is hovered, active or focused. -/
def MayKeep (s : Browsing F) : Event F → Prop
  | .applyVisualState width => s.page.isKept s.state = true →
    match s.last with
    | .plain => width = s.page.viewportWidth ∧ SamePointers s.state {}
    | .applied width' changes => width = width' ∧ changes < 2 ^ 64
  | _ => True

end Browsing

/-! ## What a rebuild depends on -/

section Congr

variable {a b : Option VisualInteractionState} (h : SamePseudo a b) (dom : DomTree)
  (sheet : CssStyleSheet)

include h

omit [Length F] in
theorem buildNode_congr [Zero F] (t : Rose NodeId) (parent : Option NodeId)
    (parentStyle : Option StyleProperties) :
    (buildNode dom sheet a parent parentStyle t : Option (List (LayoutNode F) × LayoutNode F)) =
      buildNode dom sheet b parent parentStyle t := by
  induction t using Rose.induction generalizing parent parentStyle with
  | h id children ih =>
    have hfields (node : DomNode) : (newFields dom sheet a parent parentStyle id node : LayoutFields F) =
        newFields dom sheet b parent parentStyle id node := by
      simp only [newFields, resolve_congr h]
    have hhoist (parentStyle : Option StyleProperties) :
        (hoistChildren dom sheet a parent parentStyle children : Option (List (LayoutNode F))) =
          hoistChildren dom sheet b parent parentStyle children := by
      clear hfields
      induction children with
      | nil => rw [hoistChildren, hoistChildren]
      | cons c children ihs =>
        rw [hoistChildren, hoistChildren, ih c List.mem_cons_self,
          ihs fun d hd => ih d (List.mem_cons_of_mem _ hd)]
    have hbuild (parent : NodeId) (parentStyle : StyleProperties) :
        (buildChildren dom sheet a parent parentStyle children : Option (List (LayoutNode F))) =
          buildChildren dom sheet b parent parentStyle children := by
      clear hfields hhoist
      induction children with
      | nil => rw [buildChildren, buildChildren]
      | cons c children ihs =>
        rw [buildChildren, buildChildren, ih c List.mem_cons_self,
          ihs fun d hd => ih d (List.mem_cons_of_mem _ hd)]
    rw [buildNode, buildNode]
    simp only [hfields, hhoist, hbuild]

omit [Length F] in
theorem build_congr [Zero F] (doc : DocumentTree) :
    (build doc sheet a : Option (LayoutNode F)) = build doc sheet b := by
  rw [build, build, buildNode_congr h]

theorem rebuild_congr (page : RenderDocument F) (width : F) :
    page.rebuild a width = page.rebuild b width := by
  simp only [RenderDocument.rebuild, build_congr h]

end Congr

namespace Browsing

variable {s : Browsing F}

/-- What holds of a page and a state, whatever has been done to them. -/
structure Consistent (s : Browsing F) : Prop where
  generation_lt : s.state.generation < 2 ^ 64
  renderTree : s.page.renderTree = fromLayout s.page.layoutRoot
  layoutRoot :
    match s.last with
    | .plain => s.page.layoutRoot = s.page.rebuild none s.page.viewportWidth
    | .applied width changes => ∃ state : VisualInteractionState,
      s.page.layoutRoot = s.page.rebuild (some state) width ∧
        s.page.visualGeneration = state.generation ∧
          s.state.generation = (state.generation + changes) % 2 ^ 64 ∧
            (changes = 0 → SamePointers s.state state)

/-- The counter has been advanced. -/
theorem Consistent.of_change (h : s.Consistent) {state : VisualInteractionState}
    (hstate : state.generation = (s.state.generation + 1) % 2 ^ 64) :
    (s.change state).Consistent where
  generation_lt := by
    show state.generation < 2 ^ 64
    omega
  renderTree := h.renderTree
  layoutRoot := by
    have hne : state ≠ s.state := by
      rintro rfl
      have hlt := h.generation_lt
      omega
    have hroot := h.layoutRoot
    have hlast : (s.change state).last = s.last.changed := if_neg hne
    rw [hlast]
    cases hl : s.last with
    | plain =>
      rw [hl] at hroot
      exact hroot
    | applied width changes =>
      rw [hl] at hroot
      obtain ⟨before, hbuilt, hvisual, hgeneration, -⟩ := hroot
      refine ⟨before, hbuilt, hvisual, ?_, fun hzero => absurd hzero (Nat.succ_ne_zero _)⟩
      show state.generation = _
      omega

/-- A slot of the state is set. -/
theorem Consistent.setNode (h : s.Consistent) (slot : VisualInteractionState.Slot)
    (value : Option NodeId) : (s.change (s.state.setNode slot value)).Consistent := by
  unfold VisualInteractionState.setNode
  split
  · have hsame : s.change s.state = s := by
      rw [Browsing.change, if_pos rfl]
    rw [hsame]
    exact h
  · refine h.of_change ?_
    show ((s.state.put value slot).generation + 1) % 2 ^ 64 = _
    rw [VisualInteractionState.generation_put]

/-- **Every call keeps a page and a state consistent.** -/
theorem Consistent.step (h : s.Consistent) (e : Event F) : (s.step e).Consistent := by
  cases e with
  | setHovered node => exact h.setNode .hovered node
  | setActive node => exact h.setNode .active node
  | setFocused node => exact h.setNode .focused node
  | markLayoutDirty => exact h.of_change rfl
  | consumeLayoutDirty => exact ⟨h.generation_lt, h.renderTree, h.layoutRoot⟩
  | consumePaintDirty => exact ⟨h.generation_lt, h.renderTree, h.layoutRoot⟩
  | relayout => exact ⟨h.generation_lt, rfl, rfl⟩
  | applyVisualState width =>
    by_cases hkept : s.page.isKept s.state = true
    · have hsame : s.step (.applyVisualState width) = s := by
        rw [Browsing.step, RenderDocument.applyVisualState, if_pos hkept, if_pos hkept]
      rw [hsame]
      exact h
    · have hbuilt : s.step (.applyVisualState width) =
          { s with
            page := { s.page.withLayout (s.page.rebuild (some s.state) width) with
              visualGeneration := s.state.generation }
            last := .applied width 0 } := by
        rw [Browsing.step, RenderDocument.applyVisualState, if_neg hkept, if_neg hkept]
      rw [hbuilt]
      exact ⟨h.generation_lt, rfl, s.state, rfl, rfl, (Nat.mod_eq_of_lt h.generation_lt).symm,
        fun _ => ⟨rfl, rfl, rfl⟩⟩

theorem consistent_start (document : DocumentTree) (sheet : CssStyleSheet)
    (image : Bytes → Option Image) (viewportWidth : F) :
    (start (.createFromDocument document sheet image viewportWidth)).Consistent :=
  ⟨Nat.two_pow_pos 64, rfl, rfl⟩

/-- No call changes the document, the style sheet and the images. -/
theorem rebuild_step (s : Browsing F) (e : Event F) : (s.step e).page.rebuild = s.page.rebuild := by
  cases e with
  | applyVisualState width =>
    show (s.page.applyVisualState s.state width).rebuild = _
    unfold RenderDocument.applyVisualState
    split <;> rfl
  | _ => rfl

/-- The page is what a rebuild would give, if it may be kept. -/
theorem Consistent.upToDate (h : s.Consistent) {width : F}
    (hkeep : s.MayKeep (.applyVisualState width)) :
    (s.step (.applyVisualState width)).page.layoutRoot = s.page.rebuild (some s.state) width := by
  by_cases hkept : s.page.isKept s.state = true
  · have hsame : s.step (.applyVisualState width) = s := by
      rw [Browsing.step, RenderDocument.applyVisualState, if_pos hkept, if_pos hkept]
    have hkeep := hkeep hkept
    have hroot := h.layoutRoot
    rw [hsame]
    cases hl : s.last with
    | plain =>
      rw [hl] at hroot hkeep
      obtain ⟨rfl, hnone⟩ := hkeep
      exact hroot.trans (rebuild_congr (samePseudo_none hnone) _ _).symm
    | applied width' changes =>
      rw [hl] at hroot hkeep
      obtain ⟨rfl, hlt⟩ := hkeep
      obtain ⟨state, hbuilt, hvisual, hgeneration, hpointers⟩ := hroot
      have hsame : s.page.visualGeneration = s.state.generation := by
        rw [RenderDocument.isKept, Bool.and_eq_true, Bool.and_eq_true, beq_iff_eq] at hkept
        exact hkept.1.1
      have hzero : changes = 0 := by
        have hstate := h.generation_lt
        omega
      exact hbuilt.trans (rebuild_congr (hpointers hzero).samePseudo _ _).symm
  · rw [Browsing.step, RenderDocument.applyVisualState, if_neg hkept]
    rfl

end Browsing

/-- **Applying the state of the pointer is a rebuild**, in every run of a page, for every document,
style sheet and width: after `apply_visual_state`, the layout tree is the one that is built with the
state and laid out at the width from scratch, and the render tree is made of it, if the page may be
kept whenever it is kept. -/
theorem upToDate_applyVisualState (document : DocumentTree) (sheet : CssStyleSheet)
    (image : Bytes → Option Image) (viewportWidth width : F) (events : List (Event F))
    (hkeep : (events.foldl Browsing.step
      (.start (.createFromDocument document sheet image viewportWidth))).MayKeep
        (.applyVisualState width)) :
    let page := RenderDocument.createFromDocument document sheet image viewportWidth
    let s := events.foldl Browsing.step (.start page)
    let result := (s.step (.applyVisualState width)).page
    result.layoutRoot = page.rebuild (some s.state) width ∧
      result.renderTree = fromLayout (page.rebuild (some s.state) width) := by
  intro page s result
  have hrun (events : List (Event F)) : (events.foldl Browsing.step (.start page)).Consistent ∧
      (events.foldl Browsing.step (.start page)).page.rebuild = page.rebuild := by
    induction events using List.reverseRecOn with
    | nil => exact ⟨Browsing.consistent_start document sheet image viewportWidth, rfl⟩
    | append_singleton events e ih =>
      rw [List.foldl_append, List.foldl_cons, List.foldl_nil, Browsing.rebuild_step]
      exact ⟨ih.1.step e, ih.2⟩
  obtain ⟨hconsistent, hrebuild⟩ := hrun events
  have hroot : result.layoutRoot = page.rebuild (some s.state) width := by
    rw [← hrebuild]
    exact hconsistent.upToDate hkeep
  exact ⟨hroot, hroot ▸ (hconsistent.step _).renderTree⟩

theorem upToDate_applyVisualState_twice :
    let page : RenderDocument ℚ :=
      RenderDocument.createFromDocument Document.empty.toTree ⟨[]⟩ (fun _ => none) 640
    let events : List (Event ℚ) := [.setHovered (some 0), .applyVisualState 320, .consumePaintDirty]
    let s := events.foldl Browsing.step (.start page)
    let result := (s.step (.applyVisualState 320)).page
    result.layoutRoot = page.rebuild (some s.state) 320 ∧
      result.renderTree = fromLayout (page.rebuild (some s.state) 320) :=
  upToDate_applyVisualState _ _ _ _ _ [.setHovered (some 0), .applyVisualState 320, .consumePaintDirty]
    fun _ => ⟨rfl, Nat.two_pow_pos 64⟩

/-- A page at two widths, without a change of the state. -/
theorem not_forall_applyVisualState :
    ¬ ∀ (document : DocumentTree) (sheet : CssStyleSheet) (image : Bytes → Option Image)
      (viewportWidth width : ℚ) (events : List (Event ℚ)),
      let page := RenderDocument.createFromDocument document sheet image viewportWidth
      let s := events.foldl Browsing.step (.start page)
      let result := (s.step (.applyVisualState width)).page
      result.layoutRoot = page.rebuild (some s.state) width ∧
        result.renderTree = fromLayout (page.rebuild (some s.state) width) := by
  intro h
  have hroot := (h Document.empty.toTree ⟨[]⟩ (fun _ => none) 320 640
    [.setHovered (some 0), .applyVisualState 320, .consumePaintDirty]).1
  have hwidth := congrArg (fun root : LayoutNode ℚ => root.value.rect.width) hroot
  exact absurd hwidth (by decide +kernel)

end Aetheris.Paint
