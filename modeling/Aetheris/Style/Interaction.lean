import Aetheris.Style.Resolver

/-!
# What styles read of the pointer

The state of the pointer and of the keyboard is read by the pseudo-classes only, and they read which
nodes are hovered, focused and active.  So two states with the same nodes give the same styles.
-/

namespace Aetheris.Style

open Css Dom

/-- The same nodes are hovered, active and focused. -/
def SamePointers (a b : VisualInteractionState) : Prop :=
  a.hovered = b.hovered ∧ a.active = b.active ∧ a.focused = b.focused

/-- The pseudo-classes cannot tell the states apart. -/
def SamePseudo (a b : Option VisualInteractionState) : Prop :=
  ∀ id pseudo, matchesPseudo id a pseudo = matchesPseudo id b pseudo

theorem SamePointers.samePseudo {a b : VisualInteractionState} (h : SamePointers a b) :
    SamePseudo (some a) (some b) := by
  intro id pseudo
  obtain ⟨hhovered, hactive, hfocused⟩ := h
  simp only [matchesPseudo, hhovered, hactive, hfocused]

/-- Without nodes, a state is as good as none. -/
theorem samePseudo_none {a : VisualInteractionState} (h : SamePointers a {}) :
    SamePseudo (some a) none := by
  intro id pseudo
  obtain ⟨hhovered, hactive, hfocused⟩ := h
  have hne : (none : Option NodeId) ≠ some id := nofun
  simp only [matchesPseudo, hhovered, hactive, hfocused, hne, ne_eq, not_false_eq_true, and_true]
  by_cases hhover : pseudo = lit "hover"
  · rw [if_pos hhover]
  by_cases hfocus : pseudo = lit "focus"
  · rw [if_neg hhover, if_pos hfocus]
  by_cases hact : pseudo = lit "active"
  · rw [if_neg hhover, if_neg hfocus, if_pos hact]
  · rw [if_neg hhover, if_neg hfocus, if_neg hact]
    simp [hhover, hfocus, hact]

section Congr

variable {a b : Option VisualInteractionState} (h : SamePseudo a b) (dom : DomTree)

include h

theorem matchesSimple_congr (heap : Heap) : matchesSimple heap a = matchesSimple heap b := by
  have hpseudo (id : NodeId) : matchesPseudo id a = matchesPseudo id b := funext (h id)
  ext selector id
  simp only [matchesSimple, hpseudo]

theorem matchParts_congr (rest : List Part) (current : NodeId) (next : Part) :
    matchParts dom a current next rest = matchParts dom b current next rest := by
  induction rest generalizing current next with
  | nil => rfl
  | cons part rest ih => simp only [matchParts, matchesSimple_congr h, ih]

theorem matchesSelector_congr (selector : Bytes) (id : NodeId) :
    matchesSelector dom a selector id = matchesSelector dom b selector id := by
  simp only [matchesSelector, matchesSimple_congr h, matchParts_congr h]

/-- **The style of a node depends on the pointer by the pseudo-classes only.** -/
theorem resolve_congr (sheet : CssStyleSheet) (parentStyle : Option StyleProperties) (id : NodeId)
    (node : DomNode) :
    resolve dom sheet parentStyle a id node = resolve dom sheet parentStyle b id node := by
  simp only [resolve, declaredStyle, matchingDeclarations, matchesSelector_congr h]

end Congr

end Aetheris.Style
