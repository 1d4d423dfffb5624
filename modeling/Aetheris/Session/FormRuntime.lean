import Aetheris.Dom.Document

/-!
# The form runtime

`FormRuntime` of `form_runtime.cpp` lists the controls of a document when it is made, in document
order, with their values as the markup gives them.  `discover` is its walk over the document, which
also keeps a list of forms to find the owner of a control.
-/

namespace Aetheris.Session

open Dom

/-- `FormControlKind`. -/
inductive FormControlKind where
  | text
  | password
  | checkbox
  | radio
  | submit
  | button
  | textArea
  | select
  deriving DecidableEq, Repr

/-- `FormControlState`. -/
structure FormControlState where
  node : NodeId
  kind : FormControlKind
  name : Bytes := []
  value : Bytes := []
  checked : Bool := false
  disabled : Bool := false
  readOnly : Bool := false
  focused : Bool := false
  options : List Bytes := []
  deriving DecidableEq, Repr

/-- `FormRuntime`, without the reference to its document. -/
structure FormRuntime where
  controls : List FormControlState := []
  forms : List NodeId := []
  controlForms : List (Option ℕ) := []
  focused : Option ℕ := none
  deriving DecidableEq, Repr

/-- `FormRuntime::lower`. -/
def lower (value : Bytes) : Bytes := value.map toLower

/-- `attribute_or`. -/
def attributeOr (node : DomNode) (name fallback : Bytes) : Bytes :=
  (node.attributeValue name).getD fallback

/-- `kind_for`. -/
def kindFor (node : DomNode) : Option FormControlKind :=
  if node.type ≠ .element then none
  else
    let name := lower node.name
    if name = lit "textarea" then some .textArea
    else if name = lit "select" then some .select
    else if name = lit "button" then
      let type := lower (attributeOr node (lit "type") (lit "submit"))
      some (if type = lit "submit" then .submit else .button)
    else if name ≠ lit "input" then none
    else
      let type := lower (attributeOr node (lit "type") (lit "text"))
      some <|
        if type = lit "password" then .password
        else if type = lit "checkbox" then .checkbox
        else if type = lit "radio" then .radio
        else if type = lit "submit" then .submit
        else if type = lit "button" then .button
        else .text

/-- The loop over the children of a `select`: the options, and the value of the last one that
is selected. -/
def readOption (h : Heap) (state : FormControlState) (child : NodeId) : FormControlState :=
  match h.nodes child with
  | none => state
  | some option =>
    if option.type = .element ∧ lower option.name = lit "option" then
      let value := attributeOr option (lit "value") option.data
      { state with
        options := state.options ++ [value]
        value := if (option.attributeValue (lit "selected")).isSome then value else state.value }
    else state

/-- The control that `discover` makes of a node. -/
def controlState (h : Heap) (id : NodeId) (node : DomNode) (kind : FormControlKind) :
    FormControlState :=
  let state : FormControlState :=
    { node := id
      kind := kind
      name := attributeOr node (lit "name") []
      value := if kind = .textArea then node.data else attributeOr node (lit "value") []
      checked := (node.attributeValue (lit "checked")).isSome
      disabled := (node.attributeValue (lit "disabled")).isSome
      readOnly := (node.attributeValue (lit "readonly")).isSome }
  if kind = .select then
    let state := node.children.foldl (readOption h) state
    if state.value = [] then { state with value := state.options.headD [] } else state
  else state

/-- `discover`, down to the given depth. -/
def discover (h : Heap) : ℕ → FormRuntime → NodeId → FormRuntime
  | 0, runtime, _ => runtime
  | depth + 1, runtime, id =>
    match h.nodes id with
    | none => runtime
    | some node =>
      let formCountBefore := runtime.forms.length
      let isForm := node.type = .element ∧ lower node.name = lit "form"
      let runtime := if isForm then { runtime with forms := runtime.forms ++ [id] } else runtime
      let runtime :=
        match kindFor node with
        | none => runtime
        | some kind =>
          { runtime with
            controls := runtime.controls ++ [controlState h id node kind]
            controlForms := runtime.controlForms ++
              [if runtime.forms = [] then none else some (runtime.forms.length - 1)] }
      let runtime := node.children.foldl (discover h depth) runtime
      if isForm ∧ formCountBefore < runtime.forms.length then
        { runtime with forms := runtime.forms.take (formCountBefore + 1) }
      else runtime

/-- `FormRuntime::FormRuntime`. -/
def FormRuntime.ofDocument (doc : Document) : FormRuntime :=
  discover doc.heap doc.heap.next {} doc.root

end Aetheris.Session
