import Aetheris.Dom.Mutation
import Aetheris.Library.Keyed

/-!
# The document runtime

`DocumentRuntime` of `document_runtime.cpp` changes a document and calls the listeners of its nodes,
which are in a table with the addresses of the nodes as its keys.  What a listener does is not known
here: until it returns it may make calls of its own, dispatch further events, and write the events
of the dispatches that have not returned.  So the dispatches are on a stack, and the runtime takes
steps: a call by the code that runs, or a round of the loops of the innermost dispatch.

A step has no result where memory is used that is not there any more.  That may be a node that has
been destroyed, or a vector of listeners that has moved: a dispatch calls the `std::function` where
it lies in the vector, and its loop holds iterators into it.  Whether `push_back` moves the vector
is left open, as is the address at which a new node is allocated.
-/

namespace Aetheris.Dom

/-- `DomEventType`. -/
inductive DomEventType where
  | click
  | input
  | change
  | submit
  | load
  deriving DecidableEq, Repr

/-- `DomEvent`. -/
structure DomEvent where
  type : DomEventType
  target : Option NodeId := none
  defaultPrevented : Bool := false
  deriving DecidableEq, Repr

/-! ## Dispatches -/

/-- Where the loops of a dispatch are: at a pointer, or in the call of a listener of a node.  The
iterators of the inner loop are not valid any more once the vector has grown. -/
inductive Position (L : Type) where
  | atNode (n : Option NodeId)
  | inListener (n : NodeId) (index : ℕ) (listener : L) (valid : Bool)
  deriving DecidableEq, Repr

/-- A node that a dispatch has come to, with its parent and its listeners for the event then. -/
structure Reached (L : Type) where
  node : NodeId
  parent : Option NodeId
  listeners : List L
  deriving DecidableEq, Repr

/-- A dispatch that has not returned.  The record of the nodes it has come to, and of the listeners
that have returned to it with whether the default was prevented then, is not in the code. -/
structure Dispatch (L : Type) where
  type : DomEventType
  target : Option NodeId
  event : DomEvent
  position : Position L
  reached : List (Reached L) := []
  calls : List (L × Bool) := []
  deriving DecidableEq, Repr

namespace Dispatch

variable {L : Type}

/-- A dispatch is in the call of a listener. -/
def inListener (d : Dispatch L) : Bool :=
  match d.position with
  | .inListener .. => true
  | .atNode _ => false

/-- A dispatch is in the call of a listener of a node for a type of events. -/
def runs (n : NodeId) (t : DomEventType) (d : Dispatch L) : Bool :=
  match d.position with
  | .inListener m _ _ _ => m == n && d.type == t
  | .atNode _ => false

/-- The vector of the listeners of a node for a type of events has grown. -/
def invalidate (n : NodeId) (t : DomEventType) (d : Dispatch L) : Dispatch L :=
  match d.position with
  | .inListener m index listener _ =>
    if m = n ∧ d.type = t then { d with position := .inListener m index listener false } else d
  | .atNode _ => d

end Dispatch

/-- `DocumentRuntime`, with the document and the dispatches that have not returned, innermost
first; `returned` is the dispatch that has returned in the last step. -/
structure DocumentRuntime (L : Type) where
  heap : Heap
  root : NodeId
  dirty : Bool := false
  listeners : NodeId → Option (DomEventType → List L) := fun _ => none
  dispatches : List (Dispatch L) := []
  returned : Option (Dispatch L) := none

namespace DocumentRuntime

variable {L : Type}

/-- `DocumentRuntime::DocumentRuntime`. -/
def start (doc : DocumentTree) : DocumentRuntime L where
  heap := doc.heap
  root := doc.root

/-- The listeners of a node for a type of events; where an entry is missing there are none. -/
def registered (s : DocumentRuntime L) (n : NodeId) (t : DomEventType) : List L :=
  match s.listeners n with
  | some table => table t
  | none => []

/-! ## The calls -/

/-- `push_back` of a listener. -/
def pushListener (s : DocumentRuntime L) (n : NodeId) (t : DomEventType) (l : L) :
    DocumentRuntime L :=
  { s with
    listeners := Function.update s.listeners n
      (some (Function.update (s.registered n) t (s.registered n t ++ [l])))
    dispatches := s.dispatches.map (Dispatch.invalidate n t) }

/-- `add_event_listener`; an empty `std::function` is `none`.  Where the vector `moves`, the
functions in it are destroyed, and none of them may be running. -/
def addEventListener (s : DocumentRuntime L) (n : Option NodeId) (t : DomEventType)
    (l : Option L) (moves : Bool) : Option (DocumentRuntime L) :=
  match n, l with
  | some n, some l =>
    if moves && s.dispatches.any (Dispatch.runs n t) then none else some (s.pushListener n t l)
  | _, _ => some s

/-- `set_attribute`. -/
def setAttribute (s : DocumentRuntime L) (n : Option NodeId) (k v : Bytes) :
    Option (Bool × DocumentRuntime L) :=
  match n with
  | none => some (false, s)
  | some n =>
    match s.heap.nodes n with
    | none => none
    | some node =>
      if node.type ≠ .element then some (false, s)
      else
        some (true,
          { s with
            heap := s.heap.modify n fun node =>
              { node with attributes := Keyed.put Prod.fst (k, v) node.attributes }
            dirty := true })

/-- `append_element`, where the allocator returns the address `a` for the new node. -/
def appendElement (s : DocumentRuntime L) (p : Option NodeId) (name : Bytes) (a : NodeId) :
    Option (Option NodeId × DocumentRuntime L) :=
  match p with
  | none => some (none, s)
  | some p =>
    if (s.heap.nodes p).isSome then
      some (some a,
        { s with heap := s.heap.appendAt p a { type := .element, name := name }, dirty := true })
    else none

/-- `remove`. -/
def remove (s : DocumentRuntime L) (n : Option NodeId) : Option (Bool × DocumentRuntime L) :=
  match n with
  | none => some (false, s)
  | some n =>
    match s.heap.nodes n with
    | none => none
    | some node =>
      match node.parent with
      | none => some (false, s)
      | some p =>
        if n ∈ s.heap.childrenOf p then
          some (true, { s with heap := s.heap.removeChild p n, dirty := true })
        else some (false, s)

/-- `consume_dirty`. -/
def consumeDirty (s : DocumentRuntime L) : Bool × DocumentRuntime L :=
  (s.dirty, { s with dirty := false })

/-- `dispatch`, up to the head of its outer loop. -/
def dispatch (s : DocumentRuntime L) (t : DomEventType) (target : Option NodeId) :
    DocumentRuntime L :=
  { s with
    dispatches :=
      { type := t
        target := target
        event := { type := t, target := target }
        position := .atNode target } :: s.dispatches }

/-- A listener writes the event of a dispatch that has not returned. -/
def writeEvent (s : DocumentRuntime L) (depth : ℕ) (e : DomEvent) : DocumentRuntime L :=
  { s with dispatches := s.dispatches.modify depth fun d => { d with event := e } }

/-! ## The loops of a dispatch -/

/-- `n = n->parent`, which reads the node. -/
def climb (s : DocumentRuntime L) (d : Dispatch L) (n : NodeId) (ds : List (Dispatch L)) :
    Option (DocumentRuntime L) :=
  if (s.heap.nodes n).isSome then
    some { s with dispatches := { d with position := .atNode (s.heap.parentOf n) } :: ds }
  else none

/-- A round of the loops of the innermost dispatch.  At a pointer the outer loop ends, or the
listeners of the node are looked up.  In a listener, the listener returns; where the iterators of
the inner loop are still valid, its end is the end of the vector. -/
def advance (s : DocumentRuntime L) : Option (DocumentRuntime L) :=
  match s.dispatches with
  | [] => some s
  | d :: ds =>
    match d.position with
    | .atNode none => some { s with dispatches := ds, returned := some d }
    | .atNode (some n) =>
      let here := s.registered n d.type
      let d := { d with reached := d.reached ++ [⟨n, s.heap.parentOf n, here⟩] }
      match here with
      | [] => s.climb d n ds
      | l :: _ => some { s with dispatches := { d with position := .inListener n 0 l true } :: ds }
    | .inListener n index l valid =>
      let d := { d with calls := d.calls ++ [(l, d.event.defaultPrevented)] }
      if d.event.defaultPrevented then some { s with dispatches := ds, returned := some d }
      else if valid then
        match (s.registered n d.type)[index + 1]? with
        | some l =>
          some { s with
            dispatches := { d with position := .inListener n (index + 1) l true } :: ds }
        | none => s.climb d n ds
      else none

/-! ## Steps -/

/-- Calls on a runtime. -/
inductive Call (L : Type) where
  | addEventListener (n : Option NodeId) (t : DomEventType) (l : Option L) (moves : Bool)
  | setAttribute (n : Option NodeId) (k v : Bytes)
  | appendElement (p : Option NodeId) (name : Bytes) (address : NodeId)
  | remove (n : Option NodeId)
  | consumeDirty
  | dispatch (t : DomEventType) (target : Option NodeId)
  | writeEvent (depth : ℕ) (e : DomEvent)

/-- One call.  An address at which a node lives is not given to a new one. -/
def call (s : DocumentRuntime L) : Call L → Option (DocumentRuntime L)
  | .addEventListener n t l moves => s.addEventListener n t l moves
  | .setAttribute n k v => (s.setAttribute n k v).map Prod.snd
  | .appendElement p name a =>
    (s.appendElement p name a).map fun result => if (s.heap.nodes a).isSome then s else result.2
  | .remove n => (s.remove n).map Prod.snd
  | .consumeDirty => some s.consumeDirty.2
  | .dispatch t target => some (s.dispatch t target)
  | .writeEvent depth e => some (s.writeEvent depth e)

/-- The runtime is not in a loop of its own: there is no dispatch, or it is in a listener. -/
def callersTurn (s : DocumentRuntime L) : Bool :=
  match s.dispatches with
  | [] => true
  | d :: _ => d.inListener

/-- What happens next. -/
inductive Action (L : Type) where
  | call (c : Call L)
  | advance

/-- One step.  A call that it is not the caller's turn for does not happen. -/
def step (s : DocumentRuntime L) : Action L → Option (DocumentRuntime L)
  | .call c => if s.callersTurn then { s with returned := none }.call c else some s
  | .advance => { s with returned := none }.advance

/-- One step of a run; nothing comes after a read of memory that is not there. -/
def next (o : Option (DocumentRuntime L)) (a : Action L) : Option (DocumentRuntime L) :=
  o.bind fun s => s.step a

end DocumentRuntime

end Aetheris.Dom
