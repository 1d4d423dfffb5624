import Aetheris.Paint.Visits

/-!
# Clips

`RoundedRect` of `rendering/geometry.hpp`, `ClipStack` of `rendering/clip.cpp`, and the loop of
`PaintExecutor::execute` over the commands, down to the calls of the surface.

What is emitted for a node begins with at most one push, which is popped at its end, so by induction
over the tree the commands are nested.  Such commands leave the stack as it was, so the clip in
force at a node is the common area of the clips of the nodes above it.
-/

namespace Aetheris.Paint

open Dom Style Layout Length

section Areas

variable {F : Type} [Length F]

/-- `DocumentInteraction::contains`. -/
def inRect (rect : LayoutRect F) (x y : F) : Bool :=
  rect.x ≤ x && rect.y ≤ y && x < rect.x + rect.width && y < rect.y + rect.height

/-- `RoundedRect`. -/
structure RoundedRect (F : Type) where
  rect : LayoutRect F
  radius : F

/-- `RoundedRect::normalized`. -/
def RoundedRect.normalized (shape : RoundedRect F) : RoundedRect F :=
  { shape with
    radius := clamp shape.radius 0 (fmin shape.rect.width shape.rect.height * ofRat (1 / 2)) }

/-- `RoundedRect::contains`. -/
def RoundedRect.contains (shape : RoundedRect F) (x y : F) : Bool :=
  let r := shape.normalized.rect
  let radius := shape.normalized.radius
  if x < r.x ∨ y < r.y ∨ r.x + r.width ≤ x ∨ r.y + r.height ≤ y then false
  else if radius ≤ 0 then true
  else
    let dx := x - clamp x (r.x + radius) (r.x + r.width - radius)
    let dy := y - clamp y (r.y + radius) (r.y + r.height - radius)
    dx * dx + dy * dy ≤ radius * radius

/-- `intersect_rect`. -/
def intersectRect (a b : LayoutRect F) : LayoutRect F :=
  let left := fmax a.x b.x
  let top := fmax a.y b.y
  let right := fmin (a.x + a.width) (b.x + b.width)
  let bottom := fmin (a.y + a.height) (b.y + b.height)
  if right ≤ left ∨ bottom ≤ top then default else ⟨left, top, right - left, bottom - top⟩

/-! ## The stack and the executor -/

/-- `ClipStack`, the innermost clip first. -/
abbrev ClipStack (F : Type) := List (RoundedRect F)

namespace ClipStack

/-- `ClipStack::push`. -/
def push (clips : ClipStack F) (rect : LayoutRect F) (radius : F) : ClipStack F :=
  let next : RoundedRect F :=
    match clips.head? with
    | none => ⟨rect, radius⟩
    | some parent => ⟨intersectRect parent.rect rect, fmin parent.radius radius⟩
  next.normalized :: clips

end ClipStack

/-- `PaintExecutor::execute`: every drawing command with the clip that the surface is given. -/
def execute : ClipStack F → List (PaintCommand F) → List (PaintCommand F × Option (RoundedRect F))
  | _, [] => []
  | clips, command :: commands =>
    if command.pushClip then execute (clips.push command.rect command.radius) commands
    else if command.popClip then execute clips.tail commands
    else (command, clips.head?) :: execute clips commands

/-! ## Nesting -/

/-- Every push has its pop, and what stands between them is nested itself. -/
inductive Nested : List (PaintCommand F) → Prop
  | nil : Nested []
  | draw {command : PaintCommand F} {rest : List (PaintCommand F)} (hdraws : command.draws = true)
      (hrest : Nested rest) : Nested (command :: rest)
  | clip {push pop : PaintCommand F} {inner rest : List (PaintCommand F)}
      (hpush : push.pushClip = true) (hpop : pop.pushClip = false ∧ pop.popClip = true)
      (hinner : Nested inner) (hrest : Nested rest) : Nested (push :: inner ++ pop :: rest)

theorem Nested.append {as bs : List (PaintCommand F)} (ha : Nested as) (hb : Nested bs) :
    Nested (as ++ bs) := by
  induction ha with
  | nil => exact hb
  | draw hdraws _ ih => exact .draw hdraws ih
  | clip hpush hpop hinner _ _ ih =>
    rw [List.append_assoc, List.cons_append]
    exact .clip hpush hpop hinner ih

theorem Nested.of_draws {commands : List (PaintCommand F)}
    (h : ∀ command ∈ commands, command.draws = true) : Nested commands := by
  induction commands with
  | nil => exact .nil
  | cons command commands ih =>
    exact .draw (h command List.mem_cons_self) (ih fun c hc => h c (List.mem_cons_of_mem _ hc))

theorem Nested.flatMap {β : Type} {f : β → List (PaintCommand F)} {l : List β}
    (h : ∀ b ∈ l, Nested (f b)) : Nested (l.flatMap f) := by
  induction l with
  | nil => exact .nil
  | cons b l ih =>
    rw [List.flatMap_cons]
    exact (h b List.mem_cons_self).append (ih fun c hc => h c (List.mem_cons_of_mem _ hc))

/-- **Pushes and pops are balanced and nested.** -/
theorem nested_emit (t : LayoutNode F) : ∀ inherited : F, Nested (emit inherited t) := by
  induction t using Rose.induction with
  | h node children ih =>
    intro inherited
    by_cases hdisplay : node.display = .none
    · rw [emit, if_pos hdisplay]
      exact .nil
    · have hself : Nested (selfCommands node (opacity node inherited)) :=
        .of_draws fun _ h => draws_of_mem_selfCommands h
      have hbelow : Nested ((paintOrder children).flatMap fun child =>
          emit (opacity node inherited) child.1) :=
        .flatMap fun child hchild => ih child.1 (fst_mem_of_mem_paintOrder hchild) _
      rw [emit_node _ hdisplay]
      split
      · exact hself.append (.clip rfl ⟨rfl, rfl⟩ hbelow .nil)
      · exact hself.append hbelow

end Areas

/-! ## Areas of rational size -/

theorem inRect_iff {rect : LayoutRect ℚ} {x y : ℚ} :
    inRect rect x y = true ↔
      rect.x ≤ x ∧ rect.y ≤ y ∧ x < rect.x + rect.width ∧ y < rect.y + rect.height := by
  rw [inRect, Bool.and_eq_true, Bool.and_eq_true, Bool.and_eq_true, decide_eq_true_iff,
    decide_eq_true_iff, decide_eq_true_iff, decide_eq_true_iff, and_assoc, and_assoc]

/-- The common area of two rectangles. -/
theorem inRect_intersectRect {a b : LayoutRect ℚ} {x y : ℚ} :
    inRect (intersectRect a b) x y = true ↔ inRect a x y = true ∧ inRect b x y = true := by
  rw [inRect_iff, inRect_iff, inRect_iff, intersectRect]
  simp only [fmax_rat, fmin_rat]
  split
  next hempty =>
    constructor
    · rintro ⟨hx, -, hx', -⟩
      have hx : (0 : ℚ) ≤ x := hx
      have hx' : x < (0 : ℚ) + 0 := hx'
      linarith
    · rintro ⟨⟨hax, hay, hax', hay'⟩, hbx, hby, hbx', hby'⟩
      rcases hempty with hempty | hempty
      · exact absurd ((lt_min hax' hbx').trans_le (hempty.trans (max_le hax hbx))) (lt_irrefl x)
      · exact absurd ((lt_min hay' hby').trans_le (hempty.trans (max_le hay hby))) (lt_irrefl y)
  next =>
    simp only [max_le_iff, add_sub_cancel, lt_min_iff]
    tauto

theorem clamp_nonpos {value high : ℚ} (hvalue : value ≤ 0) : clamp value 0 high ≤ 0 := by
  rw [clamp]
  split
  · exact le_rfl
  · split
    next hhigh => exact hhigh.le.trans hvalue
    next => exact hvalue

/-- Without a radius, a shape is its rectangle. -/
theorem contains_of_nonpos {shape : RoundedRect ℚ} (hradius : shape.radius ≤ 0) {x y : ℚ} :
    shape.contains x y = inRect shape.rect x y := by
  have hnormalized : shape.normalized.radius ≤ 0 := clamp_nonpos hradius
  rw [RoundedRect.contains, if_pos hnormalized, Bool.eq_iff_iff, inRect_iff]
  by_cases hout : x < shape.rect.x ∨ y < shape.rect.y ∨ shape.rect.x + shape.rect.width ≤ x ∨
      shape.rect.y + shape.rect.height ≤ y
  · refine ⟨fun h => absurd ((if_pos hout).symm.trans h) Bool.false_ne_true, fun ⟨hx, hy, hx', hy'⟩ => ?_⟩
    rcases hout with h | h | h | h
    · exact absurd h hx.not_gt
    · exact absurd h hy.not_gt
    · exact absurd hx' h.not_gt
    · exact absurd hy' h.not_gt
  · refine ⟨fun _ => ?_, fun _ => if_neg hout⟩
    rwa [not_or, not_or, not_or, not_lt, not_lt, not_le, not_le] at hout

/-! ## The clip in force -/

/-- The clip is the common area of the boxes; without boxes there is none. -/
def Clips : Option (RoundedRect ℚ) → List (LayoutRect ℚ) → Prop
  | none, boxes => boxes = []
  | some clip, boxes =>
    boxes ≠ [] ∧ ∀ x y, clip.contains x y = true ↔ ∀ box ∈ boxes, inRect box x y = true

/-- One more box. -/
theorem clips_push {clips : ClipStack ℚ} {boxes : List (LayoutRect ℚ)}
    (hplain : ∀ clip ∈ clips, clip.radius ≤ 0) (hclips : Clips clips.head? boxes)
    (rect : LayoutRect ℚ) :
    (∀ clip ∈ clips.push rect 0, clip.radius ≤ 0) ∧
      Clips (clips.push rect 0).head? (rect :: boxes) := by
  have hnew (next : RoundedRect ℚ) (hnext : next.radius ≤ 0) :
      (∀ clip ∈ next.normalized :: clips, clip.radius ≤ 0) ∧
        ∀ x y, next.normalized.contains x y = inRect next.rect x y :=
    ⟨List.forall_mem_cons.mpr ⟨clamp_nonpos hnext, hplain⟩,
      fun x y => contains_of_nonpos (clamp_nonpos hnext)⟩
  cases clips with
  | nil =>
    obtain rfl : boxes = [] := hclips
    obtain ⟨hall, harea⟩ := hnew ⟨rect, 0⟩ le_rfl
    refine ⟨hall, List.cons_ne_nil _ _, fun x y => ?_⟩
    rw [List.forall_mem_singleton]
    exact Bool.eq_iff_iff.mp (harea x y)
  | cons parent clips =>
    obtain ⟨-, hparent⟩ := hclips
    have hradius : fmin parent.radius 0 ≤ 0 := by
      rw [fmin_rat]
      exact min_le_right _ _
    obtain ⟨hall, harea⟩ := hnew ⟨intersectRect parent.rect rect, fmin parent.radius 0⟩ hradius
    refine ⟨hall, List.cons_ne_nil _ _, fun x y => ?_⟩
    rw [List.forall_mem_cons, ← hparent, contains_of_nonpos (hplain parent List.mem_cons_self)]
    exact (Bool.eq_iff_iff.mp (harea x y)).trans (inRect_intersectRect.trans and_comm)

/-! ## The replay -/

/-- The padding boxes of those of some nodes that clip what is below them. -/
def clipBoxes (above : List (LayoutFields ℚ)) : List (LayoutRect ℚ) :=
  (above.filter clipsChildren).map paddingBox

/-- A command is drawn under the clips of the nodes above its own. -/
def InForce (drawn : PaintCommand ℚ × Option (RoundedRect ℚ))
    (emitted : List (LayoutFields ℚ) × PaintCommand ℚ) : Prop :=
  drawn.1 = emitted.2 ∧ Clips drawn.2 (clipBoxes emitted.1)

/-- The drawing commands for some nodes, each next to the nodes above its own. -/
def drawing (visited : List (Visit ℚ)) : List (List (LayoutFields ℚ) × PaintCommand ℚ) :=
  visited.flatMap fun visit =>
    (selfCommands visit.node visit.opacity).map fun command => (visit.above, command)

/-- Under the clips for some boxes, the commands draw what is expected, and leave the clips as they
were. -/
def Replays (boxes : List (LayoutRect ℚ)) (commands : List (PaintCommand ℚ))
    (expected : List (List (LayoutFields ℚ) × PaintCommand ℚ)) : Prop :=
  ∀ (clips : ClipStack ℚ) (rest : List (PaintCommand ℚ)), (∀ clip ∈ clips, clip.radius ≤ 0) →
    Clips clips.head? boxes → ∃ drawn, execute clips (commands ++ rest) =
      drawn ++ execute clips rest ∧ List.Forall₂ InForce drawn expected

theorem Replays.nil (boxes : List (LayoutRect ℚ)) : Replays boxes [] [] :=
  fun _ _ _ _ => ⟨[], rfl, .nil⟩

theorem Replays.append {boxes : List (LayoutRect ℚ)} {as bs : List (PaintCommand ℚ)}
    {es fs : List (List (LayoutFields ℚ) × PaintCommand ℚ)} (ha : Replays boxes as es)
    (hb : Replays boxes bs fs) : Replays boxes (as ++ bs) (es ++ fs) := by
  intro clips rest hplain hclips
  obtain ⟨drawn, hdrawn, hes⟩ := ha clips (bs ++ rest) hplain hclips
  obtain ⟨drawn', hdrawn', hfs⟩ := hb clips rest hplain hclips
  refine ⟨drawn ++ drawn', ?_, List.rel_append hes hfs⟩
  rw [List.append_assoc, hdrawn, hdrawn', List.append_assoc]

theorem Replays.draws {above : List (LayoutFields ℚ)} {commands : List (PaintCommand ℚ)}
    (h : ∀ command ∈ commands, command.draws = true) :
    Replays (clipBoxes above) commands (commands.map fun command => (above, command)) := by
  induction commands with
  | nil => exact .nil _
  | cons command commands ih =>
    intro clips rest hplain hclips
    obtain ⟨drawn, hdrawn, hexpected⟩ :=
      ih (fun c hc => h c (List.mem_cons_of_mem _ hc)) clips rest hplain hclips
    have hdraws := h command List.mem_cons_self
    rw [PaintCommand.draws, Bool.and_eq_true, Bool.not_eq_true', Bool.not_eq_true'] at hdraws
    refine ⟨(command, clips.head?) :: drawn, ?_, .cons ⟨rfl, hclips⟩ hexpected⟩
    rw [List.cons_append, execute, hdraws.1, hdraws.2, if_neg Bool.false_ne_true,
      if_neg Bool.false_ne_true, hdrawn, List.cons_append]

theorem Replays.clip {boxes : List (LayoutRect ℚ)} {node : LayoutFields ℚ}
    {commands : List (PaintCommand ℚ)} {expected : List (List (LayoutFields ℚ) × PaintCommand ℚ)}
    (hradius : radius node = 0) (h : Replays (paddingBox node :: boxes) commands expected) :
    Replays boxes (pushCommand node :: commands ++ [popCommand]) expected := by
  intro clips rest hplain hclips
  obtain ⟨hplain', hclips'⟩ := clips_push hplain hclips (paddingBox node)
  obtain ⟨drawn, hdrawn, hexpected⟩ := h _ (popCommand :: rest) hplain' hclips'
  have hpush : execute clips (pushCommand node :: commands ++ [popCommand] ++ rest) =
      execute (clips.push (paddingBox node) (radius node)) (commands ++ popCommand :: rest) := by
    rw [List.cons_append, List.cons_append, List.append_assoc, execute, pushCommand, if_pos rfl]
    rfl
  refine ⟨drawn, ?_, hexpected⟩
  rw [hpush, hradius, hdrawn]
  rfl

theorem Replays.flatMap {boxes : List (LayoutRect ℚ)} {β : Type} {f : β → List (PaintCommand ℚ)}
    {g : β → List (List (LayoutFields ℚ) × PaintCommand ℚ)} {l : List β}
    (h : ∀ b ∈ l, Replays boxes (f b) (g b)) : Replays boxes (l.flatMap f) (l.flatMap g) := by
  induction l with
  | nil => exact .nil _
  | cons b l ih =>
    rw [List.flatMap_cons, List.flatMap_cons]
    exact (h b List.mem_cons_self).append (ih fun c hc => h c (List.mem_cons_of_mem _ hc))

/-- **What is emitted for a node is replayed under the clips of the nodes above it.** -/
theorem replays_emit (t : LayoutNode ℚ) : ∀ (path : List Step) (above : List (LayoutFields ℚ))
    (inherited : ℚ), (∀ node ∈ t.preorder, radius node = 0) →
      Replays (clipBoxes above) (emit inherited t) (drawing (visits path above inherited t)) := by
  induction t using Rose.induction with
  | h node children ih =>
    intro path above inherited hradius
    by_cases hdisplay : node.display = .none
    · rw [emit, if_pos hdisplay, visits_of_eq _ _ _ hdisplay]
      exact .nil _
    · rw [Rose.preorder_node] at hradius
      have hself : Replays (clipBoxes above) (selfCommands node (opacity node inherited)) _ :=
        .draws fun _ h => draws_of_mem_selfCommands h
      have hbelow : Replays (clipBoxes (node :: above))
          ((paintOrder children).flatMap fun child => emit (opacity node inherited) child.1)
          ((paintOrder children).flatMap fun child => drawing
            (visits (path ++ [step child]) (node :: above) (opacity node inherited) child.1)) :=
        .flatMap fun child hchild => ih child.1 (fst_mem_of_mem_paintOrder hchild) _ _ _
          fun below hmem => hradius below (List.mem_cons_of_mem _ (List.mem_flatMap.mpr
            ⟨child.1, fst_mem_of_mem_paintOrder hchild, hmem⟩))
      rw [emit_node _ hdisplay, visits_node _ _ _ hdisplay, drawing, List.flatMap_cons,
        List.flatMap_assoc]
      refine hself.append ?_
      by_cases hclips : clipsChildren node = true
      · rw [if_pos hclips]
        rw [clipBoxes, List.filter_cons_of_pos hclips] at hbelow
        exact .clip (hradius node List.mem_cons_self) hbelow
      · rw [if_neg hclips]
        rwa [clipBoxes, List.filter_cons_of_neg hclips] at hbelow

/-- **Overflow clipping**, for every layout tree without rounded corners.  The commands have
balanced and properly nested clips; and the executor draws the commands of the nodes one after the
other, each under the common area of the padding boxes of those nodes above its own that clip. -/
theorem execute_fromLayout (root : LayoutNode ℚ) (hradius : ∀ node ∈ root.preorder, radius node = 0) :
    Nested (fromLayout root) ∧ List.Forall₂ InForce (execute [] (fromLayout root))
      (drawing (visits [] [] (ofRat 1) root)) := by
  refine ⟨nested_emit root _, ?_⟩
  obtain ⟨drawn, hdrawn, hexpected⟩ := replays_emit root [] [] (ofRat 1) hradius [] []
    (fun _ h => absurd h List.not_mem_nil) rfl
  rw [List.append_nil, execute, List.append_nil] at hdrawn
  rw [fromLayout, hdrawn]
  exact hexpected

/-- A `div` without padding and border. -/
def sampleNode (id : NodeId) (style : StyleProperties) (rect : LayoutRect ℚ) : LayoutFields ℚ where
  domNode := id
  dom := { type := .element, name := lit "div" }
  style := style
  display := .block
  rect := rect
  box := ⟨rect, default, default, default⟩
  textFragments := []
  image := none
  backgroundImage := none
  parent := none

/-- A box with a larger one in it, of which it shows a part. -/
def clippedBox : LayoutNode ℚ :=
  .node (sampleNode 0 (({} : StyleProperties).set (lit "overflow") (lit "hidden")) ⟨0, 0, 10, 10⟩)
    [.node (sampleNode 1 (({} : StyleProperties).set (lit "background-color") (lit "red"))
      ⟨0, 0, 30, 30⟩) []]

theorem execute_fromLayout_clippedBox :
    (∀ node ∈ clippedBox.preorder, radius node = 0) ∧ Nested (fromLayout clippedBox) ∧
      List.Forall₂ InForce (execute [] (fromLayout clippedBox))
        (drawing (visits [] [] (ofRat 1) clippedBox)) := by
  have hradius : ∀ node ∈ clippedBox.preorder, radius node = 0 := by decide
  exact ⟨hradius, execute_fromLayout clippedBox hradius⟩

end Aetheris.Paint
