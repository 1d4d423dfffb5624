import Aetheris.Js.Interpreter
import Aetheris.Js.Promise

/-!
# The state that scripts run on

The environments, objects, promises and microtasks of `js.cpp`, and the functions of the interpreter
on them.  Of the values that come from arithmetic, from printing and from built-in members nothing
is assumed.  A run is recorded: the machine remembers every state it has been in, and the states in
which something is stored without a look at `m_has_error`.  `State.Keeps` and `State.Follows` say
that nothing that was there changes, and nothing after an error.
-/

namespace Aetheris.Js.Script

open Aetheris.Agree

abbrev ObjectId := Heap.ObjectId

/-! ## States -/

/-- `Environment`: its parent and its variables. -/
structure Scope where
  parent : Option EnvironmentId := none
  /-- `variables`, in the order of `std::map`. -/
  slots : List (Bytes × Heap.Value) := []
  deriving DecidableEq

/-- `PromiseData`; a handler is `(on_fulfilled, on_rejected)`. -/
structure PromiseData where
  status : Status := .pending
  value : Heap.Value := .undefined
  handlers : List (Heap.Value × Heap.Value) := []

/-- `Object` -/
structure Object where
  /-- The elements and the properties. -/
  contents : Heap.Object := {}
  prototype : Option ObjectId := none
  isMap : Bool := false
  isSet : Bool := false
  entries : List (Heap.Value × Heap.Value) := []
  regex : Option Regex := none
  promise : Option PromiseData := none
  callee : Option Callee := none

/-- What a script can store in an object. -/
def Object.stored (object : Object) : Heap.Object × List (Heap.Value × Heap.Value) :=
  (object.contents, object.entries)

/-- A microtask: all of them call `run_promise_handler`, with these arguments. -/
structure Microtask where
  derived : ObjectId
  handler : Heap.Value
  rejected : Bool
  value : Heap.Value

/-- A call of a function that the host has given to the interpreter. -/
inductive HookCall
  | print (line : Bytes)
  | write (text : Bytes)
  | elementLookup (name : Bytes)
  | createElement (name : Bytes)
  deriving DecidableEq, Repr

/-- The state of `Interpreter`. -/
structure State where
  /-- `m_globals` is the first one. -/
  environments : List Scope := [{}]
  /-- `m_object_prototype` is the first one. -/
  objects : List Object := [{}]
  microtasks : List Microtask := []
  /-- The calls of the host so far. -/
  hooks : List HookCall := []
  hasError : Bool := false
  errorText : Bytes := []

/-- `m_object_prototype` -/
def objectPrototype : ObjectId := 0

namespace State

/-- `error`: the first one is kept. -/
def error (message : Bytes) (s : State) : State :=
  if s.hasError then s else { s with hasError := true, errorText := message }

/-! ### Environments -/

/-- The environment in which `find` finds the name; `fuel` is the number of environments left. -/
def holder (s : State) (name : Bytes) : ℕ → EnvironmentId → Option EnvironmentId
  | 0, _ => none
  | fuel + 1, env =>
    match s.environments[env]? with
    | none => none
    | some scope =>
      if (scope.slots.lookup name).isSome then some env
      else scope.parent.bind (holder s name fuel)

/-- `env->find(name)` -/
def find (env : EnvironmentId) (name : Bytes) (s : State) : Option Heap.Value :=
  (s.holder name s.environments.length env).bind fun env =>
    s.environments[env]?.bind fun scope => scope.slots.lookup name

/-- `env->variables[name] = value` -/
def declare (env : EnvironmentId) (name : Bytes) (value : Heap.Value) (s : State) : State :=
  { s with
    environments := s.environments.modify env fun scope =>
      { scope with slots := Heap.setEntry name value scope.slots } }

/-- `*env->find(name) = value` -/
def assign (env : EnvironmentId) (name : Bytes) (value : Heap.Value) (s : State) : State :=
  match s.holder name s.environments.length env with
  | none => s
  | some env => s.declare env name value

/-- An environment with this parent. -/
def newEnvironment (parent : EnvironmentId) (s : State) : EnvironmentId × State :=
  (s.environments.length, { s with environments := s.environments ++ [{ parent := some parent }] })

/-- The parameters of a function get the arguments. -/
def bindParameters :
    List Bytes → List Heap.Value → List (Bytes × Heap.Value) → List (Bytes × Heap.Value)
  | [], _, slots => slots
  | name :: names, arguments, slots =>
    bindParameters names arguments.tail (Heap.setEntry name (arguments.headD .undefined) slots)

/-- The environment of a call.  Nobody has it before all of its variables are there. -/
def callEnvironment (closure : EnvironmentId) (this : Heap.Value) (parameters : List Bytes)
    (arguments : List Heap.Value) (s : State) : EnvironmentId × State :=
  let scope : Scope := {
    parent := some closure
    slots := bindParameters parameters arguments [(lit "this", this)] }
  (s.environments.length, { s with environments := s.environments ++ [scope] })

/-! ### Objects -/

/-- The object that a value points to. -/
def object (s : State) : Heap.Value → Option Object
  | .object (some o) => s.objects[o]?
  | _ => none

/-- `std::make_shared<Object>()`, and what is in it from the beginning. -/
def allocate (object : Object) (s : State) : Heap.Value × State :=
  (.object (some s.objects.length), { s with objects := s.objects ++ [object] })

def modifyObject (o : ObjectId) (f : Object → Object) (s : State) : State :=
  { s with objects := s.objects.modify o f }

/-- `make_array` -/
def makeArray (elements : List Heap.Value) (s : State) : Heap.Value × State :=
  s.allocate {
    contents := { isArray := true, elements := elements }
    prototype := some objectPrototype }

/-- The object of a literal: of the properties of one name the last one stays. -/
def makeObject (properties : List (Bytes × Heap.Value)) (s : State) : Heap.Value × State :=
  s.allocate {
    contents := {
      properties := properties.foldl (fun entries p => Heap.setEntry p.1 p.2 entries) [] }
    prototype := some objectPrototype }

/-- `make_native` -/
def makeNative (native : Native) (s : State) : Heap.Value × State :=
  s.allocate { contents := { isFunction := true }, callee := some (.native native) }

/-- `make_function`: the function, and the object that its instances get as their prototype. -/
def makeFunction (node : Syntax.Node) (env : EnvironmentId) (s : State) : Heap.Value × State :=
  let callee : Callee :=
    match node with
    | .function _ _ parameters boolean body => .script parameters body boolean env
    | _ => .script [] none false env
  let function : Object := {
    contents := {
      isFunction := true
      properties := [(lit "prototype", .object (some (s.objects.length + 1)))] }
    prototype := some objectPrototype
    callee := some callee }
  let prototype : Object := { prototype := some objectPrototype }
  (.object (some s.objects.length), { s with objects := s.objects ++ [function, prototype] })

/-- `make_regex_object` -/
def makeRegex (regex : Option Regex) (s : State) : Heap.Value × State :=
  match regex with
  | none => (.null, s)
  | some regex =>
    let o := s.objects.length
    let self : Heap.Value := .object (some o)
    let object : Object := {
      contents := {
        properties := [
          (lit "exec", .object (some (o + 2))), (lit "flags", .string regex.flags),
          (lit "global", .boolean regex.global), (lit "source", .string regex.source),
          (lit "test", .object (some (o + 1)))] }
      regex := some regex }
    let native (name : Bytes) : Object :=
      { contents := { isFunction := true }, callee := some (.native ⟨name, [self]⟩) }
    (self, { s with objects := s.objects ++ [object, native (lit "test"), native (lit "exec")] })

/-- `object->properties[name]` -/
def property (object : Heap.Value) (name : Bytes) (s : State) : Heap.Value :=
  match s.object object with
  | some object => (object.contents.properties.lookup name).getD .undefined
  | none => .undefined

/-- `object->properties[name] = value` -/
def putProperty (object : Heap.Value) (name : Bytes) (value : Heap.Value) (s : State) : State :=
  match object with
  | .object (some o) => s.modifyObject o fun object =>
    { object with contents := object.contents.write (.property name value) }
  | _ => s

/-- `get_property_from_chain`; `fuel` is the number of objects left. -/
def fromChain (s : State) (name : Bytes) : ℕ → ObjectId → Heap.Value
  | 0, _ => .undefined
  | fuel + 1, o =>
    match s.objects[o]? with
    | none => .undefined
    | some object =>
      match object.contents.properties.lookup name, object.prototype with
      | some value, _ => value
      | none, some prototype => fromChain s name fuel prototype
      | none, none => .undefined

/-- `set_property`, on an object. -/
def setProperty (o : ObjectId) (name : Bytes) (value : Heap.Value) (s : State) : State :=
  s.modifyObject o fun object =>
    { object with contents := object.contents.write (object.contents.propertyWrite name value) }

/-- `new`: an object with the prototype that this value is, if it is an object. -/
def makeInstance (prototype : Heap.Value) (s : State) : Heap.Value × State :=
  s.allocate {
    prototype :=
      match prototype with
      | .object (some o) => some o
      | _ => some objectPrototype }

/-! ### Promises -/

def setPromise (o : ObjectId) (data : PromiseData) (s : State) : State :=
  s.modifyObject o fun object => { object with promise := some data }

/-- The state of a promise. -/
def promise (s : State) (value : Heap.Value) : Option PromiseData :=
  (s.object value).bind Object.promise

/-- `make_promise` -/
def makePromise (s : State) : Heap.Value × State :=
  let o := s.objects.length
  let self : Heap.Value := .object (some o)
  let object : Object := {
    contents := {
      properties := [
        (lit "catch", .object (some (o + 2))), (lit "finally", .object (some (o + 3))),
        (lit "then", .object (some (o + 1)))] }
    prototype := some objectPrototype
    promise := some {} }
  let native (name : Bytes) : Object :=
    { contents := { isFunction := true }, callee := some (.native ⟨name, [self]⟩) }
  (self, { s with
    objects := s.objects ++
      [object, native (lit "then"), native (lit "catch"), native (lit "finally")] })

/-- `settle_promise` -/
def settlePromise (o : ObjectId) (rejected : Bool) (value : Heap.Value) (s : State) : State :=
  match s.promise (.object (some o)) with
  | none => s
  | some data =>
    if data.status = .pending then
      let tasks := data.handlers.map fun handlers =>
        { derived := o, handler := if rejected then handlers.2 else handlers.1,
          rejected := rejected, value := value : Microtask }
      { s.setPromise o { status := settledStatus rejected, value := value } with
        microtasks := s.microtasks ++ tasks }
    else s

/-- `make_promise`, fulfilled with this value. -/
def fulfilledPromise (value : Heap.Value) (s : State) : Heap.Value × State :=
  let (promise, t) := s.makePromise
  (promise, t.settlePromise s.objects.length false value)

/-- The second half of `run_promise_handler`, from where the handler has returned. -/
def finishHandler (derived : ObjectId) (result : Heap.Value) (s : State) : State :=
  match result, s.promise result with
  | .object (some returned), some data =>
    if data.status = .pending then
      let (fulfill, s) := s.makeNative ⟨lit "fulfill", [.object (some derived)]⟩
      let (reject, s) := s.makeNative ⟨lit "reject", [.object (some derived)]⟩
      s.setPromise returned { data with handlers := data.handlers ++ [(fulfill, reject)] }
    else s.settlePromise derived (data.status == .rejected) data.value
  | _, _ => s.settlePromise derived false result

end State

/-! ## What changes -/

namespace State

/-- Every environment, object, property and element of the first state is there in the second one
as it was, and the host has not been called. -/
structure Keeps (s t : State) : Prop where
  environments : s.environments <+: t.environments
  objects : s.objects.map Object.stored <+: t.objects.map Object.stored
  hooks : t.hooks = s.hooks

theorem keeps_iff {s t : State} : s.Keeps t ↔ s.environments <+: t.environments ∧
    s.objects.map Object.stored <+: t.objects.map Object.stored ∧ t.hooks = s.hooks :=
  ⟨fun h => ⟨h.1, h.2, h.3⟩, fun h => ⟨h.1, h.2.1, h.2.2⟩⟩

instance (s t : State) : Decidable (s.Keeps t) := decidable_of_iff _ keeps_iff.symm

theorem Keeps.refl (s : State) : s.Keeps s := ⟨List.prefix_rfl, List.prefix_rfl, rfl⟩

theorem Keeps.trans {s t u : State} (h : s.Keeps t) (h' : t.Keeps u) : s.Keeps u :=
  ⟨h.environments.trans h'.environments, h.objects.trans h'.objects, h'.hooks.trans h.hooks⟩

/-- If there is an error in the first state, it is there in the second one, and nothing else has
changed. -/
def Follows (s t : State) : Prop := s.hasError → t.hasError ∧ s.Keeps t

theorem Follows.refl (s : State) : s.Follows s := fun h => ⟨h, .refl s⟩

theorem Follows.trans {s t u : State} (h : s.Follows t) (h' : t.Follows u) : s.Follows u :=
  fun herror => ⟨(h' (h herror).1).1, (h herror).2.trans (h' (h herror).1).2⟩

theorem Follows.of_not {s t : State} (h : s.hasError = false) : s.Follows t :=
  fun herror => absurd herror (by rw [h]; exact Bool.false_ne_true)

end State

/-! ## Native functions -/

/-- What a native function may do after an error, as well: it makes objects, and it settles
promises. -/
def Quiet := { act : State → Heap.Value × State // ∀ s : State, s.Follows (act s).2 }

/-- A native function on its way: what it does next. -/
inductive Action
  | done (value : Heap.Value)
  /-- The bound on the rounds of a loop is reached. -/
  | stop
  | look (next : State → Action)
  | quiet (act : Quiet) (next : Heap.Value → Action)
  | call (callee : Heap.Value) (arguments : List Heap.Value) (this : Heap.Value)
    (next : Heap.Value → Action)

/-- A native function changes something or calls the host, or it calls functions: none does both. -/
inductive NativeFunction
  /-- `push`, `console.log` and others. -/
  | changing (act : List Heap.Value → State → Heap.Value × State)
  /-- `forEach`, `new Promise` and others. -/
  | calling (action : List Heap.Value → Action)

/-- What `get_property` makes of a name. -/
inductive Member
  | value (value : Heap.Value)
  | native (native : Native)
  /-- `get_property_from_chain` -/
  | inherited

/-- Arithmetic, printing and built-in members. -/
structure Builtins where
  /-- `to_number` -/
  toNumber : Heap.Value → Number
  negate : Number → Number
  increment : Number → Number
  decrement : Number → Number
  /-- `to_string` -/
  toText : Heap.Value → State → Bytes
  /-- `evaluate_binary` -/
  binary : Bytes → Heap.Value → Heap.Value → State → Heap.Value
  member : Heap.Value → Bytes → State → Member
  native : Native → NativeFunction

/-! ## Recorded runs -/

/-- A run up to now. -/
structure History where
  current : State
  /-- The states before, the latest first. -/
  past : List State := []
  /-- The states in which something was to be stored without a look at `m_has_error`. -/
  stores : List State := []

namespace History

/-- All states, in their order. -/
def states (h : History) : List State := (h.current :: h.past).reverse

/-- The next state. -/
def push (h : History) (s : State) : History := { h with current := s, past := h.current :: h.past }

/-- Something is to be stored. -/
def unpolled (h : History) : History := { h with stores := h.current :: h.stores }

/-- A change of the state. -/
def update (f : State → State) (h : History) : History := h.push (f h.current)

/-- A change of the state that has a result. -/
def step {α : Type} (f : State → α × State) (h : History) : α × History :=
  ((f h.current).1, h.push (f h.current).2)

end History

/-! ## The machine -/

/-- `get_property` -/
def State.getProperty (builtins : Builtins) (object : Heap.Value) (name : Bytes) (s : State) :
    Heap.Value × State :=
  match builtins.member object name s, object with
  | .value value, _ => (value, s)
  | .native native, _ => s.makeNative native
  | .inherited, .object (some o) => (s.fromChain name s.objects.length o, s)
  | .inherited, _ => (.undefined, s)

/-- A native function that may call functions. -/
def perform (call : Caller History) : Action → Run Stop History Heap.Value
  | .done value => return value
  | .stop => throw .outOfFuel
  | .look next => do perform call (next (← get).current)
  | .quiet act next => do
    let value ← modifyGet (History.step act.1)
    perform call (next value)
  | .call callee arguments this next => do
    let value ← call callee arguments this
    perform call (next value)

/-- `run_promise_handler` -/
def runPromiseHandler (call : Caller History) (task : Microtask) : Run Stop History Unit := do
  let callee := (← get).current.object task.handler |>.bind Object.callee
  if callee.isSome then do
    let result ← call task.handler [task.value] .undefined
    modify (History.update (State.finishHandler task.derived result))
  else modify (History.update (State.settlePromise task.derived task.rejected task.value))

/-- The loop of `drain_microtasks`, with its `guard`. -/
def drainMicrotasks (call : Caller History) : ℕ → Run Stop History Unit
  | 0 => return ()
  | guard + 1 => do
    match (← get).current.microtasks with
    | [] => return ()
    | task :: tasks => do
      modify (History.update fun s => { s with microtasks := tasks })
      runPromiseHandler call task
      drainMicrotasks call guard

/-- The functions of the interpreter. -/
def machine (builtins : Builtins) : Host History where
  globals := 0
  hasError h := h.current.hasError
  error message := History.update (State.error message)
  find env name h := h.current.find env name
  assign env name value := History.update (State.assign env name value)
  declare env name value := History.update (State.declare env name value)
  unpolled := History.unpolled
  newEnvironment parent := History.step (State.newEnvironment parent)
  callEnvironment closure this parameters arguments :=
    History.step (State.callEnvironment closure this parameters arguments)
  toNumber := builtins.toNumber
  negate := builtins.negate
  increment := builtins.increment
  decrement := builtins.decrement
  toText value h := builtins.toText value h.current
  binary op left right h := (builtins.binary op left right h.current, h)
  makeArray elements := History.step (State.makeArray elements)
  makeObject properties := History.step (State.makeObject properties)
  property object name h := h.current.property object name
  putProperty object name value := History.update (State.putProperty object name value)
  makeFunction node env := History.step (State.makeFunction node env)
  makeRegex regex := History.step (State.makeRegex regex)
  getProperty object name := History.step (State.getProperty builtins object name)
  setProperty object name value h :=
    match object with
    | .object (some o) => h.unpolled.update (State.setProperty o name value)
    | _ => h
  makeInstance prototype := History.step (State.makeInstance prototype)
  callee value h := (h.current.object value).bind Object.callee
  elements value h :=
    (h.current.object value).bind fun object =>
      if object.contents.isArray then some object.contents.elements else none
  promise value h :=
    (h.current.promise value).map fun data => (data.status == .rejected, data.value)
  fulfilledPromise value := History.step (State.fulfilledPromise value)
  native native call arguments :=
    match builtins.native native with
    | .changing act => do
      modify History.unpolled
      modifyGet (History.step (act arguments))
    | .calling action => perform call (action arguments)
  drainMicrotasks call := drainMicrotasks call 1000000

/-- What a native function that changes the state does. -/
theorem machine_native_changing {builtins : Builtins} {native : Native}
    {act : List Heap.Value → State → Heap.Value × State}
    (h : builtins.native native = .changing act) (call : Caller History)
    (arguments : List Heap.Value) :
    (machine builtins).native native call arguments = (do
      modify History.unpolled
      modifyGet (History.step (act arguments))) := by
  rw [machine]
  dsimp only
  rw [h]

/-- What a native function that calls others does. -/
theorem machine_native_calling {builtins : Builtins} {native : Native}
    {action : List Heap.Value → Action} (h : builtins.native native = .calling action)
    (call : Caller History) (arguments : List Heap.Value) :
    (machine builtins).native native call arguments = perform call (action arguments) := by
  rw [machine]
  dsimp only
  rw [h]

/-- Built-in members and functions, for programs that use none of them. -/
def unused : Builtins where
  toNumber _ := .nan
  negate := id
  increment := id
  decrement := id
  toText _ _ := []
  binary _ _ _ _ := .undefined
  member _ _ _ := .inherited
  native _ := .calling fun _ => .done .undefined

end Aetheris.Js.Script
