import Aetheris.Paint.HitTest

/-!
# The order of the commands

`RenderTree::emit` appends the commands of an element as follows: the shadow, the background image,
the content of an `img`, the outline, the background colour, the border.  Then come the children,
between the commands for the clip if the element has one.

A command does not say what it is for.  So the recursion is written once more with every command
next to its node and its part (`tagged`), and without the tags it is `emit` (`emit_contract`).  What
must come before what is a relation between tagged commands, a part of an element before the parts
on higher layers and everything of it before its children, and siblings in the order of their
`z-index`.  The recursion keeps all of it but the order of the parts, where the background colour
comes behind the images, and so the commands are in order exactly if no node has both.
-/

namespace Aetheris.Paint

open Dom Style Layout Length

/-! ## Parts -/

/-- What a command is for. -/
inductive Part
  | text
  | shadow
  | backgroundColor
  | backgroundImage
  | content
  | outline
  | border
  | pushClip
  | popClip
  deriving DecidableEq, Repr

/-- The layers of an element, from the lowest one on; the border and the content are side by side. -/
def Part.layer : Part → Option ℕ
  | .shadow => some 0
  | .backgroundColor => some 1
  | .backgroundImage => some 2
  | .border => some 3
  | .content => some 3
  | _ => none

/-- A part is on a lower layer than another one. -/
def Part.Below (a b : Part) : Prop := ∃ i ∈ a.layer, ∃ j ∈ b.layer, i < j

instance (a b : Part) : Decidable (a.Below b) :=
  decidable_of_iff (a.layer.any fun i => b.layer.any fun j => i < j)
    (by cases ha : a.layer <;> cases hb : b.layer <;> simp [Part.Below, ha, hb])

variable {F : Type} [Length F]

/-- The command for the background image. -/
def backgroundImageCommands (node : LayoutFields F) (opacity : F) : List (PaintCommand F) :=
  imageCommands { node with image := none } opacity

/-- The command for the content of an `img`. -/
def contentCommands (node : LayoutFields F) (opacity : F) : List (PaintCommand F) :=
  imageCommands { node with backgroundImage := none } opacity

theorem imageCommands_eq (node : LayoutFields F) (opacity : F) :
    imageCommands node opacity =
      backgroundImageCommands node opacity ++ contentCommands node opacity := by
  rw [backgroundImageCommands, contentCommands, imageCommands, imageCommands, imageCommands,
    List.append_nil, List.nil_append]

/-- The commands of a node, each with its part. -/
def parts (node : LayoutFields F) (opacity : F) : List (Part × PaintCommand F) :=
  match node.dom.type with
  | .text => (textCommands node opacity).map fun command => (.text, command)
  | .element =>
    (shadowCommands node opacity).map (fun command => (.shadow, command)) ++
      (backgroundImageCommands node opacity).map (fun command => (.backgroundImage, command)) ++
      (contentCommands node opacity).map (fun command => (.content, command)) ++
      (outlineCommands node opacity).map (fun command => (.outline, command)) ++
      (backgroundCommands node opacity).map (fun command => (.backgroundColor, command)) ++
      (borderCommands node opacity).map fun command => (.border, command)
  | _ => []

theorem map_snd_parts (node : LayoutFields F) (opacity : F) :
    (parts node opacity).map Prod.snd = selfCommands node opacity := by
  rw [parts, selfCommands]
  cases node.dom.type with
  | text =>
    dsimp only
    rw [List.map_map, Function.comp_def, List.map_id']
  | element =>
    simp only [List.map_append, List.map_map, Function.comp_def, List.map_id', imageCommands_eq,
      List.append_assoc]
  | _ => rfl

/-! ## The commands of a tree -/

/-- A command with the way down to its node. -/
structure TaggedCommand (F : Type) [Length F] where
  path : List Step
  part : Part
  command : PaintCommand F

/-- The commands of a node alone. -/
def taggedParts (path : List Step) (node : LayoutFields F) (opacity : F) :
    List (TaggedCommand F) :=
  (parts node opacity).map fun part => ⟨path, part.1, part.2⟩

mutual

/-- What `emit` appends, each command with its node and its part. -/
def tagged (path : List Step) (inherited : F) : LayoutNode F → List (TaggedCommand F)
  | .node node children =>
    if node.display = .none then []
    else
      let below := (orderedChildren Prod.fst
        (taggedBelow path (opacity node inherited) 0 children)).flatMap Prod.snd
      taggedParts path node (opacity node inherited) ++
        if clipsChildren node then
          ⟨path, .pushClip, pushCommand node⟩ :: below ++ [⟨path, .popClip, popCommand⟩]
        else below

/-- Those of each child from the given place on, next to its `z_index`. -/
def taggedBelow (path : List Step) (inherited : F) :
    ℕ → List (LayoutNode F) → List (ℤ × List (TaggedCommand F))
  | _, [] => []
  | i, child :: children =>
    (zIndex child.value, tagged (path ++ [step (child, i)]) inherited child) ::
      taggedBelow path inherited (i + 1) children

end

theorem taggedBelow_eq (path : List Step) (inherited : F) (children : List (LayoutNode F)) (i : ℕ) :
    taggedBelow path inherited i children = (children.zipIdx i).map fun child =>
      (zIndex child.1.value, tagged (path ++ [step child]) inherited child.1) := by
  induction children generalizing i with
  | nil => rw [taggedBelow, List.zipIdx_nil, List.map_nil]
  | cons child children ih => rw [taggedBelow, ih, List.zipIdx_cons, List.map_cons]

theorem tagged_node (path : List Step) (inherited : F) {node : LayoutFields F}
    (hdisplay : node.display ≠ .none) (children : List (LayoutNode F)) :
    tagged path inherited (.node node children) =
      taggedParts path node (opacity node inherited) ++
        if clipsChildren node then
          ⟨path, .pushClip, pushCommand node⟩ :: (paintOrder children).flatMap
            (fun child => tagged (path ++ [step child]) (opacity node inherited) child.1) ++
              [⟨path, .popClip, popCommand⟩]
        else (paintOrder children).flatMap fun child =>
          tagged (path ++ [step child]) (opacity node inherited) child.1 := by
  rw [tagged, if_neg hdisplay, orderedChildren_eq, taggedBelow_eq, sortOn_map, List.flatMap_map]
  rfl

/-- **Without the tags these are the commands that `emit` appends.** -/
theorem map_command_tagged (t : LayoutNode F) : ∀ (path : List Step) (inherited : F),
    (tagged path inherited t).map TaggedCommand.command = emit inherited t := by
  induction t using Rose.induction with
  | h node children ih =>
    intro path inherited
    by_cases hdisplay : node.display = .none
    · rw [tagged, emit, if_pos hdisplay, if_pos hdisplay, List.map_nil]
    · have hself : (taggedParts path node (opacity node inherited)).map TaggedCommand.command =
          selfCommands node (opacity node inherited) := by
        rw [← map_snd_parts, taggedParts, List.map_map]
        rfl
      have hbelow : ((paintOrder children).flatMap fun child =>
          tagged (path ++ [step child]) (opacity node inherited) child.1).map
            TaggedCommand.command =
          (paintOrder children).flatMap fun child => emit (opacity node inherited) child.1 := by
        rw [List.map_flatMap]
        refine List.flatMap_congr fun child hchild => ?_
        exact ih child.1 (fst_mem_of_mem_paintOrder hchild) _ _
      rw [tagged_node _ _ hdisplay, emit_node _ hdisplay, List.map_append, hself, ← hbelow]
      split
      · rw [List.map_append, List.map_cons]
        rfl
      · rfl

/-- Where the ways part, the first one goes on to a child with a smaller `z-index`, or with the same
one and earlier in the document. -/
def SiblingUnder (p q : List Step) : Prop :=
  ∃ path a b, Step.Under a b ∧ path ++ [a] <+: p ∧ path ++ [b] <+: q

/-- **What must come before what**: a part of an element before the parts on higher layers; all of
them before the commands of the nodes below; the commands for a child before those for its siblings
that are painted later. -/
def MustPrecede (a b : TaggedCommand F) : Prop :=
  (a.path = b.path ∧ a.part.Below b.part) ∨
    (a.part.layer.isSome ∧ a.path <+: b.path ∧ a.path ≠ b.path) ∨ SiblingUnder a.path b.path

/-- **The commands of a layout tree are in order.** -/
def PaintedInOrder (root : LayoutNode F) : Prop :=
  (tagged [] (ofRat 1) root).Pairwise fun a b => ¬MustPrecede b a

/-- The background colour is not painted over an image. -/
def ColorUnderImages (node : LayoutFields F) : Prop :=
  node.dom.type = .element → node.style.get (lit "background-color") ≠ none →
    node.backgroundImage = none ∧ (node.dom.name = lit "img" → node.image = none)

/-! ## The ways down -/

theorem Step.Under.ne {a b : Step} (h : Step.Under a b) : a ≠ b := by
  rintro rfl
  exact h.elim (lt_irrefl _) fun h => lt_irrefl _ h.2

theorem SiblingUnder.painted {p q : List Step} (h : SiblingUnder p q) : Painted p q := by
  obtain ⟨path, a, b, hab, hp, hq⟩ := h
  exact lex_of_isPrefix hab hp hq

/-- Where the ways part, neither goes on from the end of the other one. -/
theorem SiblingUnder.not_isPrefix {p q : List Step} (h : SiblingUnder p q) :
    ¬p <+: q ∧ ¬q <+: p := by
  obtain ⟨path, a, b, hab, hp, hq⟩ := h
  have hparts {r : List Step} (ha : path ++ [a] <+: r) (hb : path ++ [b] <+: r) : False := by
    have heq := (List.prefix_of_prefix_length_le ha hb (by simp)).eq_of_length (by simp)
    exact hab.ne (List.cons.inj (List.append_cancel_left heq)).1
  exact ⟨fun hpq => hparts (hp.trans hpq) hq, fun hqp => hparts hp (hq.trans hqp)⟩

theorem painted_of_isPrefix {p q : List Step} (hfront : p <+: q) (hne : p ≠ q) : Painted p q := by
  obtain ⟨rest, rfl⟩ := hfront
  cases rest with
  | nil => exact absurd (List.append_nil p).symm hne
  | cons a rest => exact lex_of_isPrefix_append (a := a) ⟨rest, by simp⟩

/-- What is painted later need not come first. -/
theorem not_mustPrecede_of_painted {a b : TaggedCommand F} (h : Painted a.path b.path) :
    ¬MustPrecede b a := by
  rintro (⟨heq, -⟩ | ⟨-, hfront, hne⟩ | hsibling)
  · rw [heq] at h
    exact painted_asymm h h
  · exact painted_asymm h (painted_of_isPrefix hfront hne)
  · exact painted_asymm h hsibling.painted

/-- Neither the node of a command nor one below it comes after the end of its clip. -/
theorem not_mustPrecede_of_layer {a b : TaggedCommand F} (hlayer : b.part.layer = none)
    (hfront : b.path <+: a.path) : ¬MustPrecede b a := by
  rintro (⟨-, i, hi, -⟩ | ⟨hsome, -, -⟩ | hsibling)
  · rw [hlayer] at hi
    cases hi
  · rw [hlayer] at hsome
    cases hsome
  · exact hsibling.not_isPrefix.1 hfront

/-! ## The commands of a tree, in order -/

/-- The commands of a tree are about its nodes. -/
theorem prefix_of_mem_tagged (t : LayoutNode F) : ∀ {path : List Step} {inherited : F}
    {command : TaggedCommand F}, command ∈ tagged path inherited t → path <+: command.path := by
  induction t using Rose.induction with
  | h node children ih =>
    intro path inherited command h
    by_cases hdisplay : node.display = .none
    · rw [tagged, if_pos hdisplay] at h
      exact absurd h List.not_mem_nil
    · have hbelow (hcommand : command ∈ (paintOrder children).flatMap fun child =>
          tagged (path ++ [step child]) (opacity node inherited) child.1) :
            path <+: command.path := by
        obtain ⟨child, hchild, hcommand⟩ := List.mem_flatMap.mp hcommand
        exact (List.prefix_append _ _).trans
          (ih child.1 (fst_mem_of_mem_paintOrder hchild) hcommand)
      rw [tagged_node _ _ hdisplay, List.mem_append] at h
      rcases h with h | h
      · obtain ⟨part, -, rfl⟩ := List.mem_map.mp h
        exact List.prefix_rfl
      · split at h
        · rw [List.cons_append, List.mem_cons, List.mem_append, List.mem_singleton] at h
          rcases h with rfl | h | rfl
          · exact List.prefix_rfl
          · exact hbelow h
          · exact List.prefix_rfl
        · exact hbelow h

/-- Commands group by group: those of two groups are out of order if neither group is empty and the
second one must come first. -/
theorem pairwise_groups_iff {C : Type} (groups : List (Part × List C)) :
    (groups.flatMap fun group => group.2.map fun command => (group.1, command)).Pairwise
        (fun a b => ¬b.1.Below a.1) ↔
      groups.Pairwise fun g h => h.1.Below g.1 → g.2 = [] ∨ h.2 = [] := by
  have hself (part : Part) : ¬part.Below part := by
    rintro ⟨i, hi, j, hj, hij⟩
    exact hij.ne (Option.some.inj (hi.symm.trans hj))
  rw [List.pairwise_flatMap]
  have hinner : ∀ group ∈ groups, (group.2.map fun command => (group.1, command)).Pairwise
      fun a b => ¬b.1.Below a.1 := fun group _ =>
    List.pairwise_map.mpr (List.pairwise_of_forall fun _ _ => hself group.1)
  rw [and_iff_right hinner]
  refine List.Pairwise.iff fun g h => ?_
  simp only [List.forall_mem_map]
  constructor
  · intro hall hbelow
    by_contra hne
    obtain ⟨hg, hh⟩ := not_or.mp hne
    obtain ⟨a, ha⟩ := List.exists_mem_of_ne_nil _ hg
    obtain ⟨b, hb⟩ := List.exists_mem_of_ne_nil _ hh
    exact hall a ha b hb hbelow
  · intro hempty a ha b hb hbelow
    rcases hempty hbelow with hnil | hnil
    · exact absurd (hnil ▸ ha) List.not_mem_nil
    · exact absurd (hnil ▸ hb) List.not_mem_nil

/-- The commands of one element. -/
theorem pairwise_parts_iff (path : List Step) (node : LayoutFields F) (opacity : F) :
    (taggedParts path node opacity).Pairwise (fun a b => ¬MustPrecede b a) ↔
      ColorUnderImages node := by
  have hsame (a b : Part × PaintCommand F) :
      MustPrecede ⟨path, b.1, b.2⟩ ⟨path, a.1, a.2⟩ ↔ b.1.Below a.1 := by
    constructor
    · rintro (⟨-, hbelow⟩ | ⟨-, -, hne⟩ | hsibling)
      · exact hbelow
      · exact absurd rfl hne
      · exact absurd List.prefix_rfl hsibling.not_isPrefix.1
    · exact fun hbelow => Or.inl ⟨rfl, hbelow⟩
  have hcolor : backgroundCommands node opacity = [] ↔
      node.style.get (lit "background-color") = none := by
    rw [backgroundCommands]
    cases node.style.get (lit "background-color") <;> simp
  have himage : backgroundImageCommands node opacity = [] ↔ node.backgroundImage = none := by
    rw [backgroundImageCommands, imageCommands]
    cases node.backgroundImage <;> simp
  have hcontent : contentCommands node opacity = [] ↔
      (node.dom.name = lit "img" → node.image = none) := by
    rw [contentCommands, imageCommands]
    cases node.image <;> simp
  rw [taggedParts, List.pairwise_map]
  simp only [hsame]
  rw [parts, ColorUnderImages]
  cases node.dom.type with
  | text =>
    have hnone : ¬Part.Below .text .text := by decide
    refine iff_of_true (List.pairwise_map.mpr (List.pairwise_of_forall fun _ _ => hnone)) ?_
    exact fun h => absurd h (by decide)
  | element =>
    have hgroups := pairwise_groups_iff [(.shadow, shadowCommands node opacity),
      (.backgroundImage, backgroundImageCommands node opacity),
      (.content, contentCommands node opacity), (.outline, outlineCommands node opacity),
      (.backgroundColor, backgroundCommands node opacity), (.border, borderCommands node opacity)]
    have horder : [(Part.shadow, shadowCommands node opacity),
        (.backgroundImage, backgroundImageCommands node opacity),
        (.content, contentCommands node opacity), (.outline, outlineCommands node opacity),
        (.backgroundColor, backgroundCommands node opacity),
        (.border, borderCommands node opacity)].Pairwise
          (fun g h => h.1.Below g.1 → g.2 = [] ∨ h.2 = []) ↔
        (backgroundImageCommands node opacity = [] ∨ backgroundCommands node opacity = []) ∧
          (contentCommands node opacity = [] ∨ backgroundCommands node opacity = []) := by
      simp [Part.Below, Part.layer]
    simp only [List.flatMap_cons, List.flatMap_nil, List.append_nil] at hgroups
    simp only [List.append_assoc]
    rw [hgroups, horder, hcolor, himage, hcontent]
    constructor
    · rintro ⟨himages, hcontents⟩ - hset
      exact ⟨himages.resolve_right hset, hcontents.resolve_right hset⟩
    · intro h
      by_cases hset : node.style.get (lit "background-color") = none
      · exact ⟨Or.inr hset, Or.inr hset⟩
      · exact ⟨Or.inl (h trivial hset).1, Or.inl (h trivial hset).2⟩
  | _ => simp

omit [Length F] in
/-- Children that are painted earlier. -/
theorem pairwise_paintOrder (children : List (LayoutNode F)) :
    (paintOrder children).Pairwise fun c d => Step.Under (step c) (step d) :=
  pairwise_sortOn (fun child : LayoutNode F × ℕ => zIndex child.1.value)
    (zipIdx_pairwise children 0)

/-- **Exactly when the commands are in order**: no element that is painted has both a background
colour and an image. -/
theorem pairwise_tagged_iff (t : LayoutNode F) : ∀ (path : List Step)
    (above : List (LayoutFields F)) (inherited : F),
      (tagged path inherited t).Pairwise (fun a b => ¬MustPrecede b a) ↔
        ∀ visit ∈ visits path above inherited t, ColorUnderImages visit.node := by
  induction t using Rose.induction with
  | h node children ih =>
    intro path above inherited
    by_cases hdisplay : node.display = .none
    · rw [tagged, if_pos hdisplay, visits_of_eq _ _ _ hdisplay]
      exact iff_of_true .nil fun visit h => absurd h List.not_mem_nil
    · have hpath {command : TaggedCommand F} (h : command ∈ (paintOrder children).flatMap fun child =>
          tagged (path ++ [step child]) (opacity node inherited) child.1) :
            Painted path command.path := by
        obtain ⟨child, -, h⟩ := List.mem_flatMap.mp h
        exact lex_of_isPrefix_append (prefix_of_mem_tagged _ h)
      have hbelow : ((paintOrder children).flatMap fun child =>
          tagged (path ++ [step child]) (opacity node inherited) child.1).Pairwise
            (fun a b => ¬MustPrecede b a) ↔
          ∀ visit ∈ (paintOrder children).flatMap fun child =>
            visits (path ++ [step child]) (node :: above) (opacity node inherited) child.1,
              ColorUnderImages visit.node := by
        have hsiblings : (paintOrder children).Pairwise fun c d =>
            ∀ a ∈ tagged (path ++ [step c]) (opacity node inherited) c.1,
              ∀ b ∈ tagged (path ++ [step d]) (opacity node inherited) d.1, ¬MustPrecede b a :=
          (pairwise_paintOrder children).imp fun hunder a ha b hb =>
            not_mustPrecede_of_painted
              (lex_of_isPrefix hunder (prefix_of_mem_tagged _ ha) (prefix_of_mem_tagged _ hb))
        rw [List.pairwise_flatMap, and_iff_left hsiblings]
        constructor
        · intro h visit hvisit
          obtain ⟨child, hchild, hvisit⟩ := List.mem_flatMap.mp hvisit
          exact (ih child.1 (fst_mem_of_mem_paintOrder hchild) _ _ _).mp (h child hchild) visit hvisit
        · intro h child hchild
          exact (ih child.1 (fst_mem_of_mem_paintOrder hchild) _ _ _).mpr fun visit hvisit =>
            h visit (List.mem_flatMap.mpr ⟨child, hchild, hvisit⟩)
      rw [tagged_node _ _ hdisplay, visits_node _ _ _ hdisplay, List.forall_mem_cons, ← hbelow,
        List.pairwise_append, pairwise_parts_iff]
      have hself {command : TaggedCommand F}
          (h : command ∈ taggedParts path node (opacity node inherited)) : command.path = path := by
        obtain ⟨part, -, rfl⟩ := List.mem_map.mp h
        rfl
      have hlater {a b : TaggedCommand F} (ha : a.path = path)
          (hb : b ∈ (paintOrder children).flatMap fun child =>
            tagged (path ++ [step child]) (opacity node inherited) child.1) : ¬MustPrecede b a := by
        refine not_mustPrecede_of_painted ?_
        rw [ha]
        exact hpath hb
      by_cases hclips : clipsChildren node = true
      · have hpop {a : TaggedCommand F} (ha : path <+: a.path) :
            ¬MustPrecede ⟨path, .popClip, popCommand⟩ a := not_mustPrecede_of_layer rfl ha
        rw [if_pos hclips, List.cons_append, List.pairwise_cons, List.pairwise_append]
        refine and_congr_right fun _ => ⟨fun h => h.1.2.1, fun h => ⟨⟨fun b hb => ?_, h, ?_, ?_⟩, ?_⟩⟩
        · rcases List.mem_append.mp hb with hb | hb
          · exact hlater rfl hb
          · rw [List.mem_singleton.mp hb]
            exact hpop List.prefix_rfl
        · exact List.pairwise_singleton _ _
        · intro a ha b hb
          obtain ⟨child, -, ha⟩ := List.mem_flatMap.mp ha
          rw [List.mem_singleton.mp hb]
          exact hpop ((List.prefix_append _ _).trans (prefix_of_mem_tagged _ ha))
        · intro a ha b hb
          have hstart : path <+: a.path := (hself ha).symm ▸ List.prefix_rfl
          rcases List.mem_cons.mp hb with rfl | hb
          · exact not_mustPrecede_of_layer rfl hstart
          · rcases List.mem_append.mp hb with hb | hb
            · exact hlater (hself ha) hb
            · rw [List.mem_singleton.mp hb]
              exact hpop hstart
      · rw [if_neg hclips]
        exact and_congr_right fun _ => and_iff_left fun a ha b hb => hlater (hself ha) hb

/-- A box with a red background and an image on it. -/
def redNode : LayoutFields ℚ :=
  { sampleNode 1 (({} : StyleProperties).set (lit "background-color") (lit "red")) ⟨0, 0, 10, 10⟩ with
    backgroundImage := some ⟨1, 1, [{}]⟩ }

end Aetheris.Paint
