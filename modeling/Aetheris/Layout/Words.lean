import Aetheris.Layout.Builder
import Aetheris.Layout.Deeds

/-!
# The words of a text

A layout sets the fragments of a text at each of its spots, and each time they are all its words or,
if the spot has no room, none.  So it is the last spot that decides, and whether a text is lost can
be told from the widths that are handed down to it.  A text that has no spot, in an image or in
another text, keeps no fragments.
-/

namespace Aetheris.Layout

open Css Dom Style Length

/-- A node that is displayed and not positioned, and not inside of another kind of node. -/
def InFlow {F : Type} (root : LayoutNode F) (place : List ℕ) : Prop :=
  ∀ p node, p <+: place → root.subtree p = some node →
    node.value.display ≠ .none ∧ isPositioned node.value = false

section Texts

variable {F : Type} [Length F] {node fields : LayoutFields F} {spot : Spot F} {spots : List (Spot F)}
  {f : LayoutFields F → LayoutFields F}

/-- At a spot a text gets all its words, if it has room for them. -/
theorem Deed.texts (h : Deed node spot f) (hdisplay : node.display ≠ .none)
    (htext : node.dom.type = .text) (hstill : fields.still = node.still) :
    (f fields).textFragments.map TextFragment.text =
      if spot.room node ≤ 0 then [] else words node.dom.data := by
  induction h with
  | text y height hline =>
    rw [LayoutFields.textFragments_setText, texts_textLayout, Spot.room, if_pos hline]
  | leaf y hline =>
    obtain ⟨hdisplay', hdom, hstyle⟩ := eq_of_still_eq hstill
    have himage : ¬(node.dom.type = .element ∧ node.dom.name = lit "img") := fun himage =>
      DomNodeType.noConfusion (htext.symm.trans himage.1)
    rw [layoutLeaf, hdisplay', hdom, hstyle, if_neg hdisplay]
    dsimp only
    rw [if_neg himage, texts_textLayout, Spot.room, hline, if_neg Bool.false_ne_true]
    rfl
  | contents _ _ _ hcontents => exact absurd htext (hasContents_iff.mp hcontents).2.2
  | moveDown _ _ _ ih => exact ih

/-- The last spot decides. -/
theorem Chain.texts (h : Chain node spots f) (hdisplay : node.display ≠ .none)
    (htext : node.dom.type = .text) (hstill : fields.still = node.still) :
    (f fields).textFragments.map TextFragment.text =
      spots.getLast?.elim (fields.textFragments.map TextFragment.text) fun spot =>
        if spot.room node ≤ 0 then [] else words node.dom.data := by
  induction h generalizing fields with
  | nil => rfl
  | @cons spot spots f g hfirst _ ih =>
    rw [ih ((hfirst.still fields).trans hstill), hfirst.texts hdisplay htext hstill,
      List.getLast?_cons]
    cases spots.getLast? <;> rfl

/-- A text that has no fragments gets its words if and only if it has none, or room for them at its
last spot. -/
theorem Chain.texts_eq_iff (h : Chain node spots f) (hdisplay : node.display ≠ .none)
    (htext : node.dom.type = .text) (hbuilt : node.textFragments = []) :
    (f node).textFragments.map TextFragment.text = words node.dom.data ↔
      (words node.dom.data ≠ [] → ∃ spot ∈ spots.getLast?, ¬spot.room node ≤ 0) := by
  rw [h.texts hdisplay htext rfl, hbuilt]
  cases spots.getLast? with
  | none =>
    simp only [Option.elim_none, List.map_nil, Option.not_mem_none, false_and, exists_false]
    exact ⟨fun heq hwords => hwords heq.symm, fun hwords => (not_not.mp hwords).symm⟩
  | some spot =>
    simp only [Option.elim_some, Option.mem_def, Option.some.injEq, exists_eq_left']
    by_cases hroom : spot.room node ≤ 0
    · rw [if_pos hroom]
      exact ⟨fun heq hwords => absurd heq.symm hwords,
        fun hwords => (not_not.mp fun h => hwords h hroom).symm⟩
    · rw [if_neg hroom]
      exact iff_of_true rfl fun _ => hroom

end Texts

/-- **No text is lost or duplicated if and only if every text with words has room**: after a layout
of the boxes of a document at any width, the fragments of every displayed text in the flow are its
words, in order, exactly when each such text with at least one word has a spot, and room at the last
one. -/
theorem texts_layout_iff {F : Type} [Length F] {doc : DocumentTree} {sheet : CssStyleSheet}
    {interaction : Option VisualInteractionState} {root : LayoutNode F}
    (hroot : build doc sheet interaction = some root) (width : F) :
    (∀ place node, (layout root width).subtree place = some node → node.value.dom.type = .text →
        InFlow root place →
          node.value.textFragments.map TextFragment.text = words node.value.dom.data) ↔
      ∀ place node, root.subtree place = some node → node.value.dom.type = .text →
        InFlow root place → words node.value.dom.data ≠ [] →
          ∃ spot ∈ (spotsAt place [⟨0, width, false⟩] root).getLast?,
            ¬spot.room node.value ≤ 0 := by
  have hbuilt : skeleton root = root := Rose.map_eq_self (still_of_build hroot)
  obtain ⟨f, hcovers, hrun⟩ := exists_layout_eq hbuilt width
  rw [hrun root hbuilt]
  have hplace (place : List ℕ) (node : LayoutNode F) (hnode : root.subtree place = some node)
      (htext : node.value.dom.type = .text) (hflow : InFlow root place) :
      (f place node.value).textFragments.map TextFragment.text = words node.value.dom.data ↔
        (words node.value.dom.data ≠ [] →
          ∃ spot ∈ (spotsAt place [⟨0, width, false⟩] root).getLast?, ¬spot.room node.value ≤ 0) := by
    have hfields : node.value.textFragments = [] :=
      congrArg LayoutFields.textFragments (still_of_subtree hbuilt hnode).symm
    exact (hcovers.chain place node hnode).texts_eq_iff (hflow place node List.prefix_rfl hnode).1
      htext hfields
  have hdom (place : List ℕ) (fields : LayoutFields F) : (f place fields).dom = fields.dom :=
    (eq_of_still_eq (hcovers.still place fields)).2.1
  constructor
  · intro hall place node hnode htext hflow
    refine (hplace place node hnode htext hflow).mp ?_
    have hwords := hall place _ (by rw [Rose.subtree_mapPlaces, hnode]; rfl)
    rw [Rose.value_mapPlaces, List.append_nil, hdom] at hwords
    exact hwords htext hflow
  · intro hall place node hnode htext hflow
    rw [Rose.subtree_mapPlaces, Option.map_eq_some_iff] at hnode
    obtain ⟨node, hnode, rfl⟩ := hnode
    rw [Rose.value_mapPlaces, List.append_nil, hdom] at htext ⊢
    exact (hplace place node hnode htext hflow).mpr (hall place node hnode htext hflow)

/-- The document `<div style="display:flex">a</div>`. -/
def flexText : DocumentTree :=
  let withBox := Document.empty.append (show (Document.empty.heap.nodes 0).isSome by decide) .element
    (lit "div") [] [(lit "style", lit "display:flex")]
  (withBox.append (show (withBox.heap.nodes 1).isSome by decide) .text [] (lit "a") []).toTree

/-- The boxes of the document. -/
def flexTextBoxes : LayoutNode ℚ :=
  (build flexText ⟨[]⟩ none).getD (.node (newFields flexText.toDomTree ⟨[]⟩ none none none 0 {}) [])

theorem build_flexText : build flexText ⟨[]⟩ none = some flexTextBoxes := by
  obtain ⟨layout, hlayout, -⟩ := build_spec (F := ℚ) flexText ⟨[]⟩ none
  rw [flexTextBoxes, hlayout]
  rfl

theorem texts_layout_iff_flexText :
    (∀ place node, (layout flexTextBoxes 100).subtree place = some node →
        node.value.dom.type = .text → InFlow flexTextBoxes place →
          node.value.textFragments.map TextFragment.text = words node.value.dom.data) ↔
      ∀ place node, flexTextBoxes.subtree place = some node → node.value.dom.type = .text →
        InFlow flexTextBoxes place → words node.value.dom.data ≠ [] →
          ∃ spot ∈ (spotsAt place [⟨0, 100, false⟩] flexTextBoxes).getLast?,
            ¬spot.room node.value ≤ 0 :=
  texts_layout_iff build_flexText 100

/-- A text without a width is given the width zero by the flexible box that it stands in. -/
theorem not_forall_texts_layout :
    ¬ ∀ (doc : DocumentTree) (sheet : CssStyleSheet) (interaction : Option VisualInteractionState)
      (root : LayoutNode ℚ), build doc sheet interaction = some root →
      (∀ fields ∈ root.preorder, fields.style.get (lit "white-space") = some (lit "normal")) →
      ∀ width : ℚ, 0 < width → ∀ place node, (layout root width).subtree place = some node →
        node.value.dom.type = .text → InFlow root place →
          node.value.textFragments.map TextFragment.text = words node.value.dom.data := by
  intro h
  have hflow : InFlow flexTextBoxes [0, 0] := by
    have hall : ∀ p ∈ [0, 0].inits, ∀ node ∈ flexTextBoxes.subtree p,
        node.value.display ≠ .none ∧ isPositioned node.value = false := by
      decide +kernel
    exact fun p node hp hnode => hall p ((List.mem_inits p _).mpr hp) node hnode
  have hall : ((layout flexTextBoxes 100).subtree [0, 0]).map (fun node =>
      (node.value.dom.type, node.value.dom.data, node.value.textFragments)) =
        some (.text, lit "a", []) := by
    decide +kernel
  obtain ⟨node, hnode, heq⟩ := Option.map_eq_some_iff.mp hall
  obtain ⟨htype, hdata, hfragments⟩ := Prod.mk.inj heq |>.imp id Prod.mk.inj
  have hwords := h flexText ⟨[]⟩ none flexTextBoxes build_flexText (by decide +kernel) 100 (by decide)
    [0, 0] node hnode htype hflow
  rw [hdata, hfragments] at hwords
  exact absurd hwords (by decide +kernel)

end Aetheris.Layout
