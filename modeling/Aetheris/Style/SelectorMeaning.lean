import Aetheris.Style.Selector

/-!
# What a complex selector means, and what `matches` makes of it

A complex selector is a list of compounds joined by combinators.  It selects a node when there are
nodes `a₁, …, aₙ`, the last of them the given one, that satisfy the compounds and stand to each
other as the combinators say.

The splitter never resets its pending combinator once it has seen a `>`, so every whitespace
combinator after the first `>` is read as a `>`.  The walk up the tree takes the nearest candidate
and does not backtrack; on the selectors that the splitter can produce, with all descendant
combinators before all child combinators, this loses nothing.
-/

namespace Aetheris.Style

open Dom Ancestry

/-! ## Selectors and their spellings -/

/-- A non-empty compound. -/
structure Compound where
  text : Bytes
  ne_nil : text ≠ []
  plain : ∀ c ∈ text, c ≠ chr '>' ∧ isSpace c = false

/-- A combinator as it is written. -/
inductive Combinator where
  | descendant (gap : Bytes) (ne_nil : gap ≠ []) (space : ∀ c ∈ gap, isSpace c = true)
  | child (before after : Bytes) (spaceBefore : ∀ c ∈ before, isSpace c = true)
      (spaceAfter : ∀ c ∈ after, isSpace c = true)

namespace Combinator

/-- The spelling of a combinator. -/
def text : Combinator → Bytes
  | descendant gap _ _ => gap
  | child before after _ _ => before ++ chr '>' :: after

/-- The link a combinator stands for. -/
def link : Combinator → Link
  | descendant _ _ _ => .descendant
  | child _ _ _ _ => .child

end Combinator

/-- `c₁ k₁ c₂ ⋯ cₙ`. -/
structure ComplexSelector where
  head : Compound
  tail : List (Combinator × Compound)

namespace ComplexSelector

/-- The text of a selector. -/
def text (sel : ComplexSelector) : Bytes :=
  sel.head.text ++ sel.tail.flatMap fun x => x.1.text ++ x.2.text

/-- The links and the compounds after the first one. -/
def links (sel : ComplexSelector) : List (Link × Compound) :=
  sel.tail.map fun x => (x.1.link, x.2)

end ComplexSelector

/-! ## The declarative meaning -/

section Meaning

variable (dom : DomTree) (interaction : Option VisualInteractionState)

/-- The node satisfies the compound. -/
def Satisfies (c : Compound) (a : NodeId) : Prop :=
  matchesSimple dom.heap interaction c.text a = true

/-- The nodes `a₁, …, aₙ` satisfy `c₁, …, cₙ` and stand to each other as the links say. -/
def Witnesses : Compound → List (Link × Compound) → List NodeId → Prop
  | c, [], [a] => Satisfies dom interaction c a
  | c, (k, c') :: rest, a :: a' :: as =>
    Satisfies dom interaction c a ∧ Joins dom.heap.parentOf k a a' ∧
      Witnesses c' rest (a' :: as)
  | _, _, _ => False

/-- The selector with the given compounds and links selects the node. -/
def Selects (head : Compound) (links : List (Link × Compound)) (node : NodeId) : Prop :=
  ∃ as, Witnesses dom interaction head links as ∧ as.getLast? = some node

end Meaning

/-- Every link after a parent link becomes a parent link; `seen` says that there was one. -/
def tightAfterChild {β : Type*} : Bool → List (Link × β) → List (Link × β)
  | _, [] => []
  | seen, (k, x) :: rest =>
    (if seen then .child else k, x) :: tightAfterChild (seen || k = .child) rest

/-! ## Reading a selector upwards -/

/-- The last compound, and the compounds before it with the links below them, nearest first. -/
def upwards {β : Type*} : β → List (Link × β) → List (Link × β) → β × List (Link × β)
  | c, [], acc => (c, acc)
  | c, (k, c') :: rest, acc => upwards c' rest ((k, c) :: acc)

theorem upwards_tightAfterChild {β : Type*} :
    ∀ (links : List (Link × β)) (c : β) (acc : List (Link × β)),
      upwards c (tightAfterChild (decide (∃ x ∈ acc, x.1 = Link.child)) links) (tighten acc) =
        ((upwards c links acc).1, tighten (upwards c links acc).2)
  | [], _, _ => rfl
  | (k, c') :: rest, c, acc => by
    have hseen : (decide (∃ x ∈ acc, x.1 = Link.child) || decide (k = .child)) =
        decide (∃ x ∈ (k, c) :: acc, x.1 = Link.child) := by
      rw [Bool.eq_iff_iff]
      simp [or_comm]
    have ih := upwards_tightAfterChild rest c' ((k, c) :: acc)
    rw [tightAfterChild, upwards, upwards, ← ih, hseen, tighten]
    simp only [decide_eq_true_eq]

section Upwards

variable (dom : DomTree) (interaction : Option VisualInteractionState)

/-- The pattern of properties that a list of compounds asks for. -/
def pattern (acc : List (Link × Compound)) : List (Link × (NodeId → Bool)) :=
  acc.map fun x => (x.1, matchesSimple dom.heap interaction x.2.text)

theorem pattern_tighten :
    ∀ acc : List (Link × Compound),
      pattern dom interaction (tighten acc) = tighten (pattern dom interaction acc)
  | [] => rfl
  | (k, c) :: acc => by
    have ih := pattern_tighten acc
    have hmem : (∃ x ∈ pattern dom interaction acc, x.1 = Link.child) ↔
        ∃ x ∈ acc, x.1 = Link.child := by simp [pattern]
    have hcons : ∀ (k : Link) (acc : List (Link × Compound)),
        pattern dom interaction ((k, c) :: acc) =
          (k, matchesSimple dom.heap interaction c.text) :: pattern dom interaction acc :=
      fun _ _ => rfl
    rw [tighten, hcons, ih, hcons, tighten]
    simp only [hmem]

/-- Reading a selector from the left and climbing from its last node are the same. -/
theorem witnesses_iff_climbs (node : NodeId) :
    ∀ (links : List (Link × Compound)) (c : Compound) (acc : List (Link × Compound)),
      (∃ as, Witnesses dom interaction c links as ∧ as.getLast? = some node ∧
          ∃ a, as.head? = some a ∧ Climbs dom.heap.parentOf a (pattern dom interaction acc)) ↔
        Satisfies dom interaction (upwards c links acc).1 node ∧
          Climbs dom.heap.parentOf node (pattern dom interaction (upwards c links acc).2)
  | [], c, acc => by
    rw [upwards]
    constructor
    · rintro ⟨as, hw, hlast, a, hhead, hclimb⟩
      match as, hw with
      | [a'], hw =>
        obtain rfl := Option.some.inj hlast
        obtain rfl := Option.some.inj hhead
        exact ⟨hw, hclimb⟩
    · rintro ⟨hs, hclimb⟩
      exact ⟨[node], hs, rfl, node, rfl, hclimb⟩
  | (k, c') :: rest, c, acc => by
    rw [upwards, ← witnesses_iff_climbs node rest c' ((k, c) :: acc)]
    constructor
    · rintro ⟨as, hw, hlast, a, hhead, hclimb⟩
      match as, hw with
      | a₁ :: a₂ :: as, hw =>
        obtain rfl := Option.some.inj hhead
        obtain ⟨hs, hj, hw⟩ := hw
        rw [List.getLast?_cons_cons] at hlast
        exact ⟨a₂ :: as, hw, hlast, a₂, rfl, a₁, hj, hs, hclimb⟩
    · rintro ⟨as, hw, hlast, a₂, hhead, a₁, hj, hs, hclimb⟩
      match as, hhead with
      | _ :: as, rfl =>
        refine ⟨a₁ :: a₂ :: as, ⟨hs, hj, hw⟩, ?_, a₁, rfl, hclimb⟩
        rw [List.getLast?_cons_cons]
        exact hlast

theorem witnesses_head {c : Compound} {links : List (Link × Compound)} {as : List NodeId}
    (h : Witnesses dom interaction c links as) : ∃ a, as.head? = some a := by
  match links, as, h with
  | [], [a], _ => exact ⟨a, rfl⟩
  | _ :: _, a :: _ :: _, _ => exact ⟨a, rfl⟩

/-- A selector selects a node when the node satisfies the last compound and the others are
found climbing from it. -/
theorem selects_iff_climbs (head : Compound) (links : List (Link × Compound)) (node : NodeId) :
    Selects dom interaction head links node ↔
      Satisfies dom interaction (upwards head links []).1 node ∧
        Climbs dom.heap.parentOf node (pattern dom interaction (upwards head links []).2) := by
  rw [← witnesses_iff_climbs]
  constructor
  · rintro ⟨as, hw, hlast⟩
    obtain ⟨a, ha⟩ := witnesses_head dom interaction hw
    exact ⟨as, hw, hlast, a, ha, trivial⟩
  · rintro ⟨as, hw, hlast, -⟩
    exact ⟨as, hw, hlast⟩

/-- In a tight selector the compounds before the last one are a tightened pattern. -/
theorem selects_tight_iff (head : Compound) (links : List (Link × Compound)) (node : NodeId) :
    Selects dom interaction head (tightAfterChild false links) node ↔
      Satisfies dom interaction (upwards head links []).1 node ∧
        Climbs dom.heap.parentOf node
          (tighten (pattern dom interaction (upwards head links []).2)) := by
  have h := upwards_tightAfterChild links head []
  simp only [List.not_mem_nil, false_and, exists_false, decide_false, tighten] at h
  rw [selects_iff_climbs, h, pattern_tighten]

/-- A tight selector selects less. -/
theorem selects_of_tight {head : Compound} {links : List (Link × Compound)} {node : NodeId}
    (h : Selects dom interaction head (tightAfterChild false links) node) :
    Selects dom interaction head links node := by
  rw [selects_tight_iff] at h
  rw [selects_iff_climbs]
  exact ⟨h.1, climbs_of_tighten h.2⟩

end Upwards

/-! ## The splitter -/

namespace Splitter

/-- The splitter inside a compound. -/
def inside (parts : List Part) (current : Bytes) (pending : Byte) : Splitter :=
  ⟨parts, current, pending, true⟩

/-- The splitter between compounds. -/
def between (parts : List Part) (pending : Byte) : Splitter := ⟨parts, [], pending, false⟩

theorem foldl_plain (s : Splitter) :
    ∀ {text : Bytes}, text ≠ [] → (∀ c ∈ text, c ≠ chr '>' ∧ isSpace c = false) →
      text.foldl step s = inside s.parts (s.current ++ text) s.pending
  | [], h, _ => absurd rfl h
  | c :: text, _, h => by
    have hc := h c List.mem_cons_self
    have hstep : step s c = inside s.parts (s.current ++ [c]) s.pending := by
      rw [step, if_neg hc.1, hc.2]
      rfl
    rw [List.foldl_cons, hstep]
    rcases text with _ | ⟨d, text⟩
    · rfl
    · rw [foldl_plain _ (List.cons_ne_nil _ _) fun x hx => h x (List.mem_cons_of_mem _ hx)]
      simp [inside]

theorem step_space {s : Splitter} {c : Byte} (hc : isSpace c = true)
    (hs : s.pending = chr ' ' ∨ s.pending = chr '>') : step s c = s.flush := by
  have hne : c ≠ chr '>' := by
    rintro rfl
    exact absurd hc (by decide)
  have hp : s.flush.pending = s.pending := by
    rw [flush]
    split <;> rfl
  rw [step, if_neg hne, if_pos hc]
  dsimp only
  rw [hp]
  rcases hs with h | h
  · rw [if_pos (by rw [h]; decide), ← h, ← hp]
  · rw [if_neg (by rw [h]; exact fun h' => h' rfl)]

theorem flush_between (parts : List Part) (pending : Byte) :
    (between parts pending).flush = between parts pending := rfl

theorem flush_inside (parts : List Part) (current : Bytes) (pending : Byte) :
    (inside parts current pending).flush = between (parts ++ [⟨pending, current⟩]) pending := rfl

theorem foldl_space_between {parts : List Part} {pending : Byte}
    (hp : pending = chr ' ' ∨ pending = chr '>') :
    ∀ {gap : Bytes}, (∀ c ∈ gap, isSpace c = true) →
      gap.foldl step (between parts pending) = between parts pending
  | [], _ => rfl
  | c :: gap, h => by
    rw [List.foldl_cons, step_space (h c List.mem_cons_self) hp, flush_between]
    exact foldl_space_between hp fun x hx => h x (List.mem_cons_of_mem _ hx)

/-- The pending combinator after a combinator has been read. -/
def pendingAfter (pending : Byte) : Link → Byte
  | .child => chr '>'
  | .descendant => pending

theorem pendingAfter_cases {pending : Byte} (hp : pending = chr ' ' ∨ pending = chr '>')
    (k : Link) : pendingAfter pending k = chr ' ' ∨ pendingAfter pending k = chr '>' := by
  cases k with
  | child => exact Or.inr rfl
  | descendant => exact hp

/-- A combinator ends the compound before it; only a `>` changes what is pending. -/
theorem foldl_combinator {parts : List Part} {current : Bytes} {pending : Byte}
    (hp : pending = chr ' ' ∨ pending = chr '>') (k : Combinator) :
    k.text.foldl step (inside parts current pending) =
      between (parts ++ [⟨pending, current⟩]) (pendingAfter pending k.link) := by
  cases k with
  | descendant gap hne hspace =>
    obtain ⟨c, gap, rfl⟩ := List.exists_cons_of_ne_nil hne
    rw [Combinator.text, List.foldl_cons, step_space (hspace c List.mem_cons_self) hp,
      flush_inside]
    exact foldl_space_between hp fun x hx => hspace x (List.mem_cons_of_mem _ hx)
  | child before after hbefore hafter =>
    have hgt : ∀ s : Splitter, s.flush = between (parts ++ [⟨pending, current⟩]) pending →
        step s (chr '>') = between (parts ++ [⟨pending, current⟩]) (chr '>') := by
      intro s hs
      rw [step, if_pos rfl, hs]
      rfl
    rw [Combinator.text, List.foldl_append, List.foldl_cons]
    rcases before with _ | ⟨c, before⟩
    · rw [List.foldl_nil, hgt _ (flush_inside ..), foldl_space_between (Or.inr rfl) hafter]
      rfl
    · rw [List.foldl_cons, step_space (hbefore c List.mem_cons_self) hp, flush_inside,
        foldl_space_between hp fun x hx => hbefore x (List.mem_cons_of_mem _ hx),
        hgt _ (flush_between ..), foldl_space_between (Or.inr rfl) hafter]
      rfl

end Splitter

/-- The parts of the compounds after the first one. -/
def partsFrom : Byte → List (Link × Compound) → List Part
  | _, [] => []
  | pending, (k, c) :: rest =>
    ⟨Splitter.pendingAfter pending k, c.text⟩ ::
      partsFrom (Splitter.pendingAfter pending k) rest

theorem foldl_tail {pending : Byte} (hp : pending = chr ' ' ∨ pending = chr '>') :
    ∀ (tail : List (Combinator × Compound)) (parts : List Part) (current : Bytes),
      ((tail.flatMap fun x => x.1.text ++ x.2.text).foldl Splitter.step
          (Splitter.inside parts current pending)).flush.parts =
        parts ++ ⟨pending, current⟩ :: partsFrom pending (tail.map fun x => (x.1.link, x.2))
  | [], _, _ => rfl
  | (k, c) :: tail, parts, current => by
    have hp' := Splitter.pendingAfter_cases hp k.link
    have ih := foldl_tail hp' tail (parts ++ [⟨pending, current⟩]) c.text
    rw [List.flatMap_cons, List.foldl_append, List.foldl_append,
      Splitter.foldl_combinator hp, Splitter.foldl_plain _ c.ne_nil c.plain]
    simpa [partsFrom, Splitter.between] using ih

/-- **The splitter**, on every spelling: a `>` stays pending for all later compounds. -/
theorem splitSelector_text (sel : ComplexSelector) :
    splitSelector sel.text =
      ⟨chr ' ', sel.head.text⟩ :: partsFrom (chr ' ') sel.links := by
  have h := foldl_tail (Or.inl rfl) sel.tail [] sel.head.text
  rw [splitSelector, ComplexSelector.text, List.foldl_append,
    Splitter.foldl_plain _ sel.head.ne_nil sel.head.plain]
  exact h

/-! ## The walk -/

section Walk

variable (dom : DomTree) (interaction : Option VisualInteractionState)

/-- The pattern that the remaining parts ask for. -/
def partsPattern : Part → List Part → List (Link × (NodeId → Bool))
  | _, [] => []
  | next, part :: rest =>
    (if next.combinator = chr '>' then .child else .descendant,
      matchesSimple dom.heap interaction part.text) :: partsPattern part rest

/-- The walk is the greedy search. -/
theorem matchParts_eq_climb :
    ∀ (rest : List Part) (next : Part) (current : NodeId),
      matchParts dom interaction current next rest =
        climb dom.wf current (partsPattern dom interaction next rest)
  | [], _, _ => rfl
  | part :: rest, next, current => by
    have ih := matchParts_eq_climb rest part
    rw [matchParts, partsPattern]
    split
    · rw [climb]
      cases dom.heap.parentOf current with
      | none => rfl
      | some parent => simp only [ih]
    · rw [climb]
      cases nearest dom.wf (matchesSimple dom.heap interaction part.text) current with
      | none => rfl
      | some ancestor => simp only [ih]

/-- The parts, from the right, ask for the tightened pattern. -/
theorem partsPattern_upwards :
    ∀ (links : List (Link × Compound)) (c : Compound) (pending : Byte) (seen : Bool)
      (before : List Part) (acc : List (Link × Compound)),
      (seen = true ∧ pending = chr '>') ∨ (seen = false ∧ pending = chr ' ') →
      partsPattern dom interaction ⟨pending, c.text⟩ before = pattern dom interaction acc →
      ∃ last rest, ((partsFrom pending links).reverse ++ ⟨pending, c.text⟩ :: before) =
          last :: rest ∧
        last.text = (upwards c (tightAfterChild seen links) acc).1.text ∧
        partsPattern dom interaction last rest =
          pattern dom interaction (upwards c (tightAfterChild seen links) acc).2
  | [], c, pending, seen, before, acc, _, hacc => ⟨_, before, rfl, rfl, hacc⟩
  | (k, c') :: rest, c, pending, seen, before, acc, hp, hacc => by
    rw [partsFrom, tightAfterChild, upwards, List.reverse_cons, List.append_assoc,
      List.singleton_append]
    refine partsPattern_upwards rest c' _ _ _ _ ?_ ?_
    · rcases hp with ⟨rfl, rfl⟩ | ⟨rfl, rfl⟩ <;> cases k <;>
        simp [Splitter.pendingAfter]
    · rw [partsPattern, hacc]
      rcases hp with ⟨rfl, rfl⟩ | ⟨rfl, rfl⟩ <;> cases k <;>
        simp [Splitter.pendingAfter, pattern, show chr ' ' ≠ chr '>' by decide]

end Walk

theorem any_combinator_text (sel : ComplexSelector) :
    (sel.text.any fun c => c = chr '>' || isSpace c) = true ↔ sel.tail ≠ [] := by
  have hplain : ∀ c : Compound, ¬ ∃ b ∈ c.text, (decide (b = chr '>') || isSpace b) = true := by
    rintro c ⟨b, hb, hb'⟩
    have := c.plain b hb
    simp [this.1, this.2] at hb'
  rw [List.any_eq_true, ComplexSelector.text]
  simp only [List.mem_append, or_and_right, exists_or]
  rw [or_iff_right (hplain sel.head)]
  rcases sel.tail with _ | ⟨⟨k, c⟩, tail⟩
  · simp
  · refine iff_of_true ?_ (List.cons_ne_nil _ _)
    cases k with
    | descendant gap hne hspace =>
      obtain ⟨b, gap, rfl⟩ := List.exists_cons_of_ne_nil hne
      exact ⟨b, by simp [Combinator.text], by simp [hspace b List.mem_cons_self]⟩
    | child before after _ _ => exact ⟨chr '>', by simp [Combinator.text], by simp⟩

/-- **What `matches` computes**: the meaning of the selector in which every combinator after
the first `>` is a `>`. -/
theorem matchesSelector_iff_selects_tight (dom : DomTree)
    (interaction : Option VisualInteractionState) (sel : ComplexSelector) (node : NodeId) :
    matchesSelector dom interaction sel.text node = true ↔
      Selects dom interaction sel.head (tightAfterChild false sel.links) node := by
  rw [matchesSelector]
  by_cases htail : sel.tail = []
  · rw [if_pos fun h => (any_combinator_text sel).mp h htail, ComplexSelector.text,
      ComplexSelector.links, htail, List.flatMap_nil, List.append_nil, List.map_nil,
      selects_iff_climbs]
    exact ⟨fun h => ⟨h, trivial⟩, fun h => h.1⟩
  · rw [if_neg (not_not.mpr ((any_combinator_text sel).mpr htail)), splitSelector_text,
      List.reverse_cons]
    obtain ⟨last, rest, heq, htext, hpat⟩ := partsPattern_upwards dom interaction sel.links
      sel.head (chr ' ') false [] [] (Or.inr ⟨rfl, rfl⟩) rfl
    have hlayered : Layered (partsPattern dom interaction last rest) := by
      have h := upwards_tightAfterChild sel.links sel.head []
      simp only [List.not_mem_nil, false_and, exists_false, decide_false, tighten] at h
      rw [hpat, h, pattern_tighten]
      exact layered_tighten _
    rw [heq]
    dsimp only
    rw [Bool.and_eq_true, matchParts_eq_climb, climb_iff_climbs dom.wf node hlayered, hpat, htext,
      selects_iff_climbs]
    rfl

end Aetheris.Style
