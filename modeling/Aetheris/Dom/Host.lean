import Aetheris.Dom.Document

/-!
# The script host of the DOM

`DomHost` of `main.cpp` maps the element handles that scripts hold to DOM nodes, owns the nodes that
`createElement` has made and nothing has adopted yet, and moves a node when a script appends it
somewhere.

`HostState` has its tables together with the heap that they point into.  `start` fills the tables of
a freshly parsed document, one call of a script is a `ScriptCall`, and `scriptStep` says what it
does: a call with a handle that the table does not have does nothing.
-/

namespace Aetheris.Dom

/-- A `js::Object*` that is an element handle. -/
abbrev HandleId := ℕ

/-- The properties of a handle that hold data. -/
structure HandleObject where
  id : Bytes
  textContent : Bytes
  deriving DecidableEq, Repr

/-- `DomHost`.  `pending` lists the keys of the table of owned nodes. -/
structure DomHost where
  nodeByHandle : HandleId → Option NodeId := fun _ => none
  handleByNode : NodeId → Option HandleId := fun _ => none
  handleById : Bytes → Option HandleId := fun _ => none
  parentOf : NodeId → Option NodeId := fun _ => none
  pending : List NodeId := []

/-- The host, the nodes and the handles. -/
structure HostState where
  root : NodeId
  heap : Heap
  host : DomHost := {}
  handles : HandleId → Option HandleObject := fun _ => none
  nextHandle : HandleId := 0

/-! ## The tables of a document -/

/-- `DomHost::collect`, down to the given depth. -/
def collect (h : Heap) : ℕ → NodeId → (NodeId → Option NodeId) → NodeId → Option NodeId
  | 0, _, parentOf => parentOf
  | depth + 1, node, parentOf =>
    (h.childrenOf node).foldl
      (fun parentOf child => collect h depth child (Function.update parentOf child (some node)))
      parentOf

/-- `DomHost::handle_for`: the new handle is at the old `nextHandle`. -/
def handleFor (s : HostState) (node : NodeId) : HostState :=
  let id := (s.heap.nodes node).bind (·.attributeValue (lit "id"))
  { s with
    host :=
      { s.host with
        nodeByHandle := Function.update s.host.nodeByHandle s.nextHandle (some node)
        handleByNode := Function.update s.host.handleByNode node (some s.nextHandle)
        handleById :=
          match id with
          | some id => Function.update s.host.handleById id (some s.nextHandle)
          | none => s.host.handleById }
    handles := Function.update s.handles s.nextHandle
      (some ⟨id.getD [], nodeText s.heap s.heap.next node⟩)
    nextHandle := s.nextHandle + 1 }

/-- `build_handles`, down to the given depth. -/
def buildHandles : ℕ → HostState → NodeId → HostState
  | 0, s, _ => s
  | depth + 1, s, node =>
    let s := if (s.heap.nodes node).map (·.type) = some .element then handleFor s node else s
    (s.heap.childrenOf node).foldl (buildHandles depth) s

/-- The host of a freshly parsed document. -/
def HostState.start (doc : Document) : HostState :=
  let s : HostState :=
    { root := doc.root
      heap := doc.heap
      host := { parentOf := collect doc.heap doc.heap.next doc.root fun _ => none } }
  buildHandles doc.heap.next s doc.root

/-! ## What scripts do -/

/-- `detach_child`: `none` for a null pointer, else the heap without the child in the list. -/
def detachChild (h : Heap) (parent child : NodeId) : Option Heap :=
  if child ∈ h.childrenOf parent then
    some (h.modify parent fun node => { node with children := node.children.erase child })
  else none

/-- The end of `adopt`, once the child's `unique_ptr` is in hand. -/
def attach (s : HostState) (parent child : NodeId) : HostState :=
  { s with
    heap := s.heap.appendChild parent child
    host := { s.host with parentOf := Function.update s.host.parentOf child (some parent) } }

/-- `DomHost::adopt`. -/
def adopt (s : HostState) (parent child : NodeId) : HostState :=
  if child ∈ s.host.pending then
    attach { s with host := { s.host with pending := s.host.pending.erase child } } parent child
  else
    match s.host.parentOf child with
    | none => s
    | some par =>
      match detachChild s.heap par child with
      | none => s
      | some heap => attach { s with heap := heap } parent child

/-- The `create_element` hook. -/
def createElement (s : HostState) (tag : Bytes) : HostState :=
  let raw := s.heap.next
  handleFor
    { s with
      heap := s.heap.alloc { type := .element, name := tag }
      host := { s.host with pending := s.host.pending ++ [raw] } } raw

/-- The `appendChild` native of the handle `receiver`. -/
def appendChild (s : HostState) (receiver argument : HandleId) : HostState :=
  match s.host.nodeByHandle receiver, s.host.nodeByHandle argument with
  | some node, some child => adopt s node child
  | _, _ => s

/-- A call that changes the tree's shape. -/
inductive ScriptCall where
  | createElement (tag : Bytes)
  | appendChild (receiver argument : HandleId)
  deriving DecidableEq, Repr

/-- One call. -/
def scriptStep (s : HostState) : ScriptCall → HostState
  | .createElement tag => createElement s tag
  | .appendChild receiver argument => appendChild s receiver argument

end Aetheris.Dom
