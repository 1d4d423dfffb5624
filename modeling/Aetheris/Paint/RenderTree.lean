import Aetheris.Layout.Length
import Aetheris.Layout.Node
import Aetheris.Library.StableSort

/-!
# The commands of the painter

`RenderTree` of `rendering/render_tree.cpp`: a layout tree as a list of commands.  What is painted
for a node alone is read from its style; the recursion goes through the children in the order of
their `z-index`, and puts a clip around what they paint if the node clips it.
-/

namespace Aetheris.Paint

open Dom Style Layout Length

/-- `PaintCommand::Type`. -/
inductive CommandType
  | fillRect
  | fillRoundedRect
  | strokeRect
  | strokeRoundedRect
  | drawText
  | drawTextDecoration
  | drawImage
  | drawShadow
  | drawOutline
  | pushStackingContext
  | popStackingContext
  deriving DecidableEq, Repr

variable {F : Type} [Length F]

/-- `PaintCommand`. -/
structure PaintCommand (F : Type) [Length F] where
  type : CommandType := .fillRect
  rect : LayoutRect F := default
  edges : BoxEdges F := default
  text : Bytes := []
  color : Bytes := []
  borderStyle : Bytes := lit "solid"
  baseline : F := 0
  fontSize : F := ofRat 16
  textDecoration : Bytes := lit "none"
  radius : F := 0
  image : Option Image := none
  shadowOffsetX : F := 0
  shadowOffsetY : F := 0
  shadowBlur : F := 0
  imageFit : Bytes := lit "fill"
  backgroundRepeat : Bytes := lit "no-repeat"
  backgroundPosition : Bytes := lit "0 0"
  backgroundSize : Bytes := lit "auto"
  opacity : F := ofRat 1
  pushClip : Bool := false
  popClip : Bool := false

/-! ## The style of a node -/

/-- `std::strtol` to the base ten, with a `long` of 64 bits. -/
def strtol (text : Bytes) : Option ℤ :=
  let (negative, rest) := readSign (text.dropWhile isSpace)
  let digits := leadingDigits 10 rest
  if digits = [] then none
  else if negative then some (max (-2 ^ 63) (-(numberOf 10 digits : ℤ)))
  else some (min (2 ^ 63 - 1) (numberOf 10 digits : ℤ))

/-- `z_index`. -/
def zIndex (node : LayoutFields F) : ℤ :=
  match node.style.get (lit "z-index") with
  | none => 0
  | some value => if value = lit "auto" then 0 else (strtol value).elim 0 (Int.bmod · (2 ^ 32))

/-- The opacity of a node. -/
def opacity (node : LayoutFields F) (inherited : F) : F :=
  clamp (inherited * numberOr (node.style.get (lit "opacity")) (ofRat 1)) 0 (ofRat 1)

/-- The radius of the corners of a node. -/
def radius (node : LayoutFields F) : F := fmax 0 (numberOr (node.style.get (lit "border-radius")) 0)

/-- `clips_children`. -/
def clipsChildren (node : LayoutFields F) : Bool :=
  node.style.get (lit "overflow") == some (lit "hidden") ||
    node.style.get (lit "overflow") == some (lit "clip")

/-- The rectangle to which the children are clipped. -/
def paddingBox (node : LayoutFields F) : LayoutRect F where
  x := node.box.content.x - node.box.padding.left
  y := node.box.content.y - node.box.padding.top
  width := node.box.content.width + node.box.padding.left + node.box.padding.right
  height := node.box.content.height + node.box.padding.top + node.box.padding.bottom

/-! ## What is painted for a node alone -/

/-- The commands for a text. -/
def textCommands (node : LayoutFields F) (opacity : F) : List (PaintCommand F) :=
  node.textFragments.flatMap fun fragment =>
    let color := (node.style.get (lit "color")).getD []
    let command : PaintCommand F :=
      { type := .drawText, rect := fragment.rect, baseline := fragment.baseline,
        text := fragment.text, opacity := opacity,
        fontSize := numberOr (node.style.get (lit "font-size")) (ofRat 16), color := color }
    match node.style.get (lit "text-decoration") with
    | none => [command]
    | some decoration =>
      if decoration = lit "none" then [command]
      else
        [command, { type := .drawTextDecoration, rect := fragment.rect,
                    textDecoration := decoration, opacity := opacity, color := color }]

/-- A word, or a replacement if it is empty. -/
def wordOr (word fallback : Bytes) : Bytes := if word = [] then fallback else word

/-- The command for `box-shadow`. -/
def shadowCommands (node : LayoutFields F) (opacity : F) : List (PaintCommand F) :=
  match node.style.get (lit "box-shadow") with
  | none => []
  | some shadow =>
    let word (n : ℕ) : Bytes := (words shadow).getD n []
    [{ type := .drawShadow, rect := node.rect, opacity := opacity,
       shadowOffsetX := numberOr (some (word 0)) 0, shadowOffsetY := numberOr (some (word 1)) 0,
       shadowBlur := numberOr (some (word 2)) 0, color := wordOr (word 3) (lit "black") }]

/-- The commands for the images of a node. -/
def imageCommands (node : LayoutFields F) (opacity : F) : List (PaintCommand F) :=
  let styled (property fallback : Bytes) : Bytes := (node.style.get property).getD fallback
  (match node.backgroundImage with
    | none => []
    | some image =>
      [{ type := .drawImage, rect := node.box.content, image := some image,
         imageFit := lit "fill",
         backgroundRepeat := styled (lit "background-repeat") (lit "repeat"),
         backgroundPosition := styled (lit "background-position") (lit "0 0"),
         backgroundSize := styled (lit "background-size") (lit "auto"), opacity := opacity }]) ++
  (match node.image with
    | none => []
    | some image =>
      if node.dom.name = lit "img" then
        [{ type := .drawImage, rect := node.box.content, image := some image,
           imageFit := styled (lit "object-fit") (lit "fill"), opacity := opacity }]
      else [])

/-- The command for `outline`. -/
def outlineCommands (node : LayoutFields F) (opacity : F) : List (PaintCommand F) :=
  match node.style.get (lit "outline") with
  | none => []
  | some outline =>
    let word (n : ℕ) : Bytes := (words outline).getD n []
    let width : F := numberOr (some (word 0)) 0
    [{ type := .drawOutline, rect := node.rect, edges := ⟨width, width, width, width⟩,
       borderStyle := wordOr (word 1) (lit "solid"), color := wordOr (word 2) (lit "black"),
       opacity := opacity }]

/-- The command for `background-color`. -/
def backgroundCommands (node : LayoutFields F) (opacity : F) : List (PaintCommand F) :=
  match node.style.get (lit "background-color") with
  | none => []
  | some background =>
    [{ type := if 0 < radius node then .fillRoundedRect else .fillRect, rect := node.rect,
       radius := radius node, color := background, opacity := opacity }]

/-- The command for the border. -/
def borderCommands (node : LayoutFields F) (opacity : F) : List (PaintCommand F) :=
  if 0 < node.box.border.top ∨ 0 < node.box.border.right ∨ 0 < node.box.border.bottom ∨
      0 < node.box.border.left then
    [{ type := if 0 < radius node then .strokeRoundedRect else .strokeRect, rect := node.rect,
       edges := node.box.border, radius := radius node, opacity := opacity,
       borderStyle := (node.style.get (lit "border-style")).getD (lit "solid"),
       color := (node.style.get (lit "border-color")).getD (lit "black") }]
  else []

/-- What `emit` appends before the children, but for the clip. -/
def selfCommands (node : LayoutFields F) (opacity : F) : List (PaintCommand F) :=
  match node.dom.type with
  | .text => textCommands node opacity
  | .element =>
    shadowCommands node opacity ++ imageCommands node opacity ++ outlineCommands node opacity ++
      backgroundCommands node opacity ++ borderCommands node opacity
  | _ => []

/-- The clip that is put on for the children. -/
def pushCommand (node : LayoutFields F) : PaintCommand F :=
  { rect := paddingBox node, radius := radius node, pushClip := true }

/-- The end of a clip. -/
def popCommand : PaintCommand F := { popClip := true }

/-! ## The recursion -/

/-- The order in which children are painted: a stable sort if one of them has a `z-index`. -/
def orderedChildren {β : Type} (key : β → ℤ) (children : List β) : List β :=
  if children.any fun child => key child ≠ 0 then sortOn key children else children

mutual

/-- `RenderTree::emit`. -/
def emit (inherited : F) : LayoutNode F → List (PaintCommand F)
  | .node node children =>
    if node.display = .none then []
    else
      let below := (orderedChildren Prod.fst (emits (opacity node inherited) children)).flatMap
        Prod.snd
      selfCommands node (opacity node inherited) ++
        if clipsChildren node then pushCommand node :: below ++ [popCommand] else below

/-- The commands for each child, next to its `z_index`. -/
def emits (inherited : F) : List (LayoutNode F) → List (ℤ × List (PaintCommand F))
  | [] => []
  | child :: children => (zIndex child.value, emit inherited child) :: emits inherited children

end

/-- `RenderTree::from_layout`. -/
def fromLayout (root : LayoutNode F) : List (PaintCommand F) := emit (ofRat 1) root

/-! ## The recursion over the children in order -/

theorem orderedChildren_eq {β : Type} (key : β → ℤ) (children : List β) :
    orderedChildren key children = sortOn key children := by
  rw [orderedChildren]
  split
  · rfl
  next hany =>
    refine (sortOn_of_forall_eq (k := 0) fun c hc => ?_).symm
    by_contra hne
    exact hany (List.any_eq_true.mpr ⟨c, hc, decide_eq_true hne⟩)

theorem emits_eq (inherited : F) (children : List (LayoutNode F)) :
    emits inherited children =
      children.map fun child => (zIndex child.value, emit inherited child) := by
  induction children with
  | nil => rw [emits, List.map_nil]
  | cons child children ih => rw [emits, ih, List.map_cons]

/-- The children of a node in the order of the painter, each with its place. -/
def paintOrder (children : List (LayoutNode F)) : List (LayoutNode F × ℕ) :=
  sortOn (fun child => zIndex child.1.value) children.zipIdx

/-- What is painted for a node and for everything below it. -/
theorem emit_node (inherited : F) {node : LayoutFields F} (hdisplay : node.display ≠ .none)
    (children : List (LayoutNode F)) :
    emit inherited (.node node children) =
      selfCommands node (opacity node inherited) ++
        if clipsChildren node then
          pushCommand node :: (paintOrder children).flatMap
            (fun child => emit (opacity node inherited) child.1) ++ [popCommand]
        else (paintOrder children).flatMap fun child => emit (opacity node inherited) child.1 := by
  have hplaced : children = children.zipIdx.map Prod.fst := (List.zipIdx_map_fst ..).symm
  have hbelow : (orderedChildren Prod.fst (emits (opacity node inherited) children)).flatMap
      Prod.snd = (paintOrder children).flatMap fun child => emit (opacity node inherited) child.1 := by
    rw [orderedChildren_eq, emits_eq]
    conv_lhs => rw [hplaced]
    rw [List.map_map, sortOn_map, List.flatMap_map]
    rfl
  rw [emit, if_neg hdisplay, hbelow]

end Aetheris.Paint
