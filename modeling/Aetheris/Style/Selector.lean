import Aetheris.Dom.Node

/-!
# Selector matching

`StyleResolver::matches` and `matches_simple` of `rendering/style.cpp`.  A selector is split into
compounds, each remembering the combinator that was pending when it ended; the last compound is
tried on the node and the others on its ancestors, from right to left.
-/

namespace Aetheris.Style

open Dom

/-! ## Compounds -/

/-- The words that `stream >> item` reads until the stream ends. -/
def words (text : Bytes) : List Bytes :=
  match _h : text.dropWhile isSpace with
  | [] => []
  | c :: rest =>
    (c :: rest.takeWhile fun b => !isSpace b) :: words (rest.dropWhile fun b => !isSpace b)
termination_by text.length
decreasing_by
  have h₁ := (List.dropWhile_suffix (l := text) isSpace).length_le
  have h₂ := (List.dropWhile_suffix (l := rest) fun b => !isSpace b).length_le
  rw [_h, List.length_cons] at h₁
  omega

/-- The characters that end a name inside a compound. -/
def isMarker (c : Byte) : Bool := c == chr '#' || c == chr '.' || c == chr ':'

/-- What `matches_simple` reads off a compound. -/
structure SimpleSelector where
  tag : Bytes := []
  id : Bytes := []
  classes : List Bytes := []
  pseudoClasses : List Bytes := []
  deriving DecidableEq, Repr

/-- The loop over the markers.  A later `#` replaces the id; an empty class or pseudo-class is
dropped. -/
def readMarkers (text : Bytes) (simple : SimpleSelector) : SimpleSelector :=
  match text with
  | [] => simple
  | marker :: rest =>
    let value := rest.takeWhile fun c => !isMarker c
    readMarkers (rest.dropWhile fun c => !isMarker c)
      (if marker = chr '#' then { simple with id := value }
      else if marker = chr '.' ∧ value ≠ [] then
        { simple with classes := simple.classes ++ [value] }
      else if marker = chr ':' ∧ value ≠ [] then
        { simple with pseudoClasses := simple.pseudoClasses ++ [value] }
      else simple)
termination_by text.length
decreasing_by
  have h := (List.dropWhile_suffix (l := rest) fun c => !isMarker c).length_le
  rw [List.length_cons]
  omega

/-- The tag name, then the markers. -/
def readSimple (text : Bytes) : SimpleSelector :=
  readMarkers (text.dropWhile fun c => !isMarker c)
    { tag := text.takeWhile fun c => !isMarker c }

/-- One turn of the loop over the pseudo-classes. -/
def matchesPseudo (node : NodeId) (interaction : Option VisualInteractionState)
    (pseudo : Bytes) : Bool :=
  match interaction with
  | none => false
  | some state =>
    if pseudo = lit "hover" ∧ state.hovered ≠ some node then false
    else if pseudo = lit "focus" ∧ state.focused ≠ some node then false
    else if pseudo = lit "active" ∧ state.active ≠ some node then false
    else pseudo = lit "hover" ∨ pseudo = lit "focus" ∨ pseudo = lit "active"

/-- The check of the classes: all of them are words of the `class` attribute. -/
def matchesClasses (node : DomNode) (classes : List Bytes) : Bool :=
  if classes = [] then true
  else
    match node.attributeValue (lit "class") with
    | none => false
    | some nodeClasses => classes.all fun required => (words nodeClasses).contains required

/-- `StyleResolver::matches_simple` on the node at an address. -/
def matchesSimple (heap : Heap) (interaction : Option VisualInteractionState) (selector : Bytes)
    (id : NodeId) : Bool :=
  match heap.nodes id with
  | none => false
  | some node =>
    if node.type ≠ .element then false
    else if selector = [] then false
    else
      let simple := readSimple selector
      if simple.tag ≠ [] ∧ simple.tag ≠ lit "*" ∧ node.name ≠ simple.tag then false
      else if simple.id ≠ [] ∧ node.attributeValue (lit "id") ≠ some simple.id then false
      else matchesClasses node simple.classes &&
        simple.pseudoClasses.all (matchesPseudo id interaction)

/-! ## Splitting at the combinators -/

/-- A compound and the combinator that links the previous compound to it. -/
structure Part where
  combinator : Byte := chr ' '
  text : Bytes
  deriving DecidableEq, Repr

/-- The local variables of the splitting loop. -/
structure Splitter where
  parts : List Part := []
  current : Bytes := []
  pending : Byte := chr ' '
  havePart : Bool := false
  deriving DecidableEq, Repr

namespace Splitter

/-- The `flush` lambda.  `pending` keeps its value. -/
def flush (s : Splitter) : Splitter :=
  if s.havePart then
    { s with parts := s.parts ++ [⟨s.pending, s.current⟩], current := [], havePart := false }
  else s

/-- One turn of the splitting loop. -/
def step (s : Splitter) (c : Byte) : Splitter :=
  if c = chr '>' then { s.flush with pending := chr '>' }
  else if isSpace c then
    let s := s.flush
    if s.pending ≠ chr '>' then { s with pending := chr ' ' } else s
  else { s with current := s.current ++ [c], havePart := true }

end Splitter

/-- The parts of a selector. -/
def splitSelector (selector : Bytes) : List Part :=
  (selector.foldl Splitter.step {}).flush.parts

/-! ## Walking up the tree -/

/-- The loop over the remaining parts, nearest first: `next` is the part that has just been
matched on `current`, and its combinator links it to the first of them. -/
def matchParts (dom : DomTree) (interaction : Option VisualInteractionState) :
    NodeId → Part → List Part → Bool
  | _, _, [] => true
  | current, next, part :: rest =>
    if next.combinator = chr '>' then
      match dom.heap.parentOf current with
      | none => false
      | some parent =>
        matchesSimple dom.heap interaction part.text parent &&
          matchParts dom interaction parent part rest
    else
      -- `while (ancestor && !matches_simple(…)) ancestor = ancestor->parent;`
      match Ancestry.nearest dom.wf (matchesSimple dom.heap interaction part.text) current with
      | none => false
      | some ancestor => matchParts dom interaction ancestor part rest

/-- `StyleResolver::matches`. -/
def matchesSelector (dom : DomTree) (interaction : Option VisualInteractionState)
    (selector : Bytes) (node : NodeId) : Bool :=
  if ¬ selector.any fun c => c = chr '>' || isSpace c then
    matchesSimple dom.heap interaction selector node
  else
    match (splitSelector selector).reverse with
    | [] => false
    | last :: rest =>
      matchesSimple dom.heap interaction last.text node &&
        matchParts dom interaction node last rest

end Aetheris.Style
