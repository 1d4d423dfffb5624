import Aetheris.Js.Heap
import Aetheris.Js.Syntax
import Aetheris.Library.Agree

/-!
# The interpreter of scripts

`Interpreter` of `js.cpp`: how statements and expressions are run.  What its functions do to
environments and objects is left to a `Host`; of the native functions is known that they may call
functions again.  `fuel` bounds the depth of the calls of the interpreter's functions, and a run
that needs more of it is stopped.
-/

namespace Aetheris.Js.Script

open Aetheris.Agree

/-- An environment, named by its place in the order of creation. -/
abbrev EnvironmentId := ℕ

/-- Why a run is stopped: the calls are too deep, or, where this is looked for, a `continue` is
executed whose innermost loop or `switch` is a `switch`. -/
inductive Stop
  | outOfFuel
  | continueInSwitch
  deriving DecidableEq, Repr

/-- A native function: which one it is, and the values that it has captured. -/
structure Native where
  name : Bytes
  captured : List Heap.Value := []
  deriving DecidableEq, Repr

/-- What is known of an object that is a function. -/
inductive Callee
  /-- `is_native` -/
  | native (native : Native)
  | script (parameters : List Bytes) (functionBody : Option Syntax.Node) (isAsync : Bool)
    (closure : EnvironmentId)

/-- How functions are called: `call`, of a callee with arguments and `this`. -/
abbrev Caller (σ : Type) := Heap.Value → List Heap.Value → Heap.Value → Run Stop σ Heap.Value

/-- The functions of `js.cpp` on its state. -/
structure Host (σ : Type) where
  /-- `m_globals` -/
  globals : EnvironmentId
  /-- `m_has_error` -/
  hasError : σ → Bool
  error : Bytes → σ → σ
  /-- `env->find(name)`, and what is found. -/
  find : EnvironmentId → Bytes → σ → Option Heap.Value
  /-- `*env->find(name) = value` -/
  assign : EnvironmentId → Bytes → Heap.Value → σ → σ
  /-- `env->variables[name] = value` -/
  declare : EnvironmentId → Bytes → Heap.Value → σ → σ
  /-- Nothing in the source: what is stored next is stored without a look at `m_has_error`. -/
  unpolled : σ → σ
  /-- An environment with this parent. -/
  newEnvironment : EnvironmentId → σ → EnvironmentId × σ
  /-- The environment of a call: its parent, `this`, the parameters and the arguments. -/
  callEnvironment : EnvironmentId → Heap.Value → List Bytes → List Heap.Value → σ →
    EnvironmentId × σ
  /-- `to_number` -/
  toNumber : Heap.Value → Number
  /-- `-number` -/
  negate : Number → Number
  /-- `number + 1` -/
  increment : Number → Number
  /-- `number - 1` -/
  decrement : Number → Number
  /-- `to_string` -/
  toText : Heap.Value → σ → Bytes
  /-- `evaluate_binary` -/
  binary : Bytes → Heap.Value → Heap.Value → σ → Heap.Value × σ
  makeArray : List Heap.Value → σ → Heap.Value × σ
  /-- The object of a literal, with these properties. -/
  makeObject : List (Bytes × Heap.Value) → σ → Heap.Value × σ
  /-- `object->properties[name]` -/
  property : Heap.Value → Bytes → σ → Heap.Value
  /-- `object->properties[name] = value` -/
  putProperty : Heap.Value → Bytes → Heap.Value → σ → σ
  makeFunction : Syntax.Node → EnvironmentId → σ → Heap.Value × σ
  /-- `make_regex_object` -/
  makeRegex : Option Regex → σ → Heap.Value × σ
  getProperty : Heap.Value → Bytes → σ → Heap.Value × σ
  setProperty : Heap.Value → Bytes → Heap.Value → σ → σ
  /-- An object with the prototype that this value is, if it is an object. -/
  makeInstance : Heap.Value → σ → Heap.Value × σ
  /-- The object is a function. -/
  callee : Heap.Value → σ → Option Callee
  /-- The object is an array, with these elements. -/
  elements : Heap.Value → σ → Option (List Heap.Value)
  /-- The object is a promise: whether it is rejected, and its value. -/
  promise : Heap.Value → σ → Option (Bool × Heap.Value)
  /-- `make_promise`, fulfilled with this value. -/
  fulfilledPromise : Heap.Value → σ → Heap.Value × σ
  /-- `function->native(arguments)` -/
  native : Native → Caller σ → List Heap.Value → Run Stop σ Heap.Value
  drainMicrotasks : Caller σ → Run Stop σ Unit

/-- `to_boolean` -/
def toBoolean : Heap.Value → Bool
  | .undefined | .null => false
  | .boolean value => value
  | .number .nan => false
  | .number value => value != .finite 0
  | .string value => value != []
  | .object _ => true

/-- `Completion` -/
inductive Completion
  | normal (value : Heap.Value)
  | ret (value : Heap.Value)
  | brk
  | cont
  deriving DecidableEq, Repr

/-- `completion.value`, which only some completions have. -/
def Completion.value : Completion → Heap.Value
  | .normal value => value
  | .ret value => value
  | _ => .undefined

section

variable {σ : Type} (host : Host σ)

/-! ## Expressions -/

/-- `typeof` -/
def typeOf (value : Heap.Value) (s : σ) : Bytes :=
  match value with
  | .undefined => lit "undefined"
  | .null => lit "object"
  | .boolean _ => lit "boolean"
  | .number _ => lit "number"
  | .string _ => lit "string"
  | .object _ => if (host.callee value s).isSome then lit "function" else lit "object"

/-- `await` of a value, behind the microtasks. -/
def awaited (value : Heap.Value) : Run Stop σ Heap.Value := do
  match host.promise value (← get) with
  | some (rejected, result) =>
    if rejected then modify (host.error (lit "unhandled promise rejection"))
    return result
  | none => return value

/-- `++` and `--` of an identifier. -/
def update (op name : Bytes) (env : EnvironmentId) : Run Stop σ Heap.Value := do
  match host.find env name (← get) with
  | none =>
    modify (host.error (lit "undefined variable '" ++ name ++ lit "'"))
    return .undefined
  | some slot =>
    let previous := host.toNumber slot
    let next := if op = lit "++" then host.increment previous else host.decrement previous
    modify (host.assign env name (.number next))
    return .number previous

/-- The variable that an identifier stands for. -/
def lookup (name : Bytes) (env : EnvironmentId) : Run Stop σ Heap.Value := do
  match host.find env name (← get) with
  | some value => return value
  | none =>
    modify (host.error (lit "undefined variable '" ++ name ++ lit "'"))
    return .undefined

/-- An assignment to an identifier. -/
def assignIdentifier (name : Bytes) (value : Heap.Value) (env : EnvironmentId) :
    Run Stop σ Unit := do
  modify host.unpolled
  if (host.find env name (← get)).isSome then modify (host.assign env name value)
  else modify (host.declare env name value)

section

variable (eval : Syntax.Node → Run Stop σ Heap.Value)

/-- The value that is assigned: that of a compound assignment comes from the current one. -/
def assignedValue (op : Bytes) (left : Syntax.Node) (value : Heap.Value) : Run Stop σ Heap.Value :=
  if op = lit "=" then return value
  else do
    let current ← eval left
    modifyGet (host.binary (op.take 1) current value)

/-- An assignment to what stands on its left. -/
def assignTo (env : EnvironmentId) (value : Heap.Value) : Syntax.Node → Run Stop σ Unit
  | .identifier name => assignIdentifier host name value env
  | .member left name => do
    let object ← eval left
    modify (host.setProperty object name value)
  | .index left right => do
    let object ← eval left
    let key ← eval right
    let name := host.toText key (← get)
    modify (host.setProperty object name value)
  | _ => return ()

/-- The callee of a call, and its `this`. -/
def calleeOf : Syntax.Node → Run Stop σ (Heap.Value × Heap.Value)
  | .member left name => do
    let this ← eval left
    let callee ← modifyGet (host.getProperty this name)
    return (callee, this)
  | .index left right => do
    let this ← eval left
    let key ← eval right
    let name := host.toText key (← get)
    let callee ← modifyGet (host.getProperty this name)
    return (callee, this)
  | left => do
    let callee ← eval left
    return (callee, .undefined)

end

/-- The methods of a class. -/
def defineMethods (prototype : Heap.Value) (env : EnvironmentId) :
    List (Bytes × Syntax.Node) → Run Stop σ Unit
  | [] => return ()
  | (name, method) :: methods => do
    let function ← modifyGet (host.makeFunction method env)
    modify (host.putProperty prototype name function)
    defineMethods prototype env methods

/-- A class: its constructor, with the methods in the prototype. -/
def defineClass (left : Option Syntax.Node) (properties : List (Bytes × Syntax.Node))
    (env : EnvironmentId) : Run Stop σ Heap.Value := do
  let constructor ←
    modifyGet (host.makeFunction (left.getD (.function false [] [] false none)) env)
  match host.property constructor (lit "prototype") (← get) with
  | .object (some prototype) =>
    defineMethods host (.object (some prototype)) env properties
    return constructor
  | _ => return constructor

/-- `evaluate` -/
def evaluate (call : Caller σ) : ℕ → Syntax.Node → EnvironmentId → Run Stop σ Heap.Value
  | 0, _, _ => throw .outOfFuel
  | fuel + 1, node, env => do
    if host.hasError (← get) then return .undefined
    match node with
    | .numberLiteral value => return .number value
    | .stringLiteral value => return .string value
    | .booleanLiteral value => return .boolean value
    | .nullLiteral => return .null
    | .identifier name => lookup host name env
    | .arrayLiteral children => do
      let elements ← children.mapM fun child => evaluate call fuel child env
      modifyGet (host.makeArray elements)
    | .objectLiteral properties => do
      -- nobody has the object before all of its properties are there
      let values ← properties.mapM fun (key, value) => do
        let value ← evaluate call fuel value env
        return (key, value)
      modifyGet (host.makeObject values)
    | .function _ _ _ _ _ => modifyGet (host.makeFunction node env)
    | .classDeclaration _ left properties => defineClass host left properties env
    | .unary op left =>
      if op = lit "await" then do
        let value ← evaluate call fuel left env
        host.drainMicrotasks call
        awaited host value
      else if op = lit "!" then do
        let value ← evaluate call fuel left env
        return .boolean !toBoolean value
      else if op = lit "-" then do
        let value ← evaluate call fuel left env
        return .number (host.negate (host.toNumber value))
      else if op = lit "+" then do
        let value ← evaluate call fuel left env
        return .number (host.toNumber value)
      else if op = lit "typeof" then do
        let value ← evaluate call fuel left env
        return .string (typeOf host value (← get))
      else if op = lit "++" ∨ op = lit "--" then
        match left with
        | .identifier name => update host op name env
        | _ => return .undefined
      else return .undefined
    | .binary op left right => do
      let left ← evaluate call fuel left env
      let right ← evaluate call fuel right env
      modifyGet (host.binary op left right)
    | .logical op left right => do
      let left ← evaluate call fuel left env
      if op = lit "&&" then
        if toBoolean left then evaluate call fuel right env else return left
      else if toBoolean left then return left
      else evaluate call fuel right env
    | .conditional left right third => do
      let left ← evaluate call fuel left env
      if toBoolean left then evaluate call fuel right env else evaluate call fuel third env
    | .assignment op left right => do
      let value ← evaluate call fuel right env
      let value ← assignedValue host (fun node => evaluate call fuel node env) op left value
      assignTo host (fun node => evaluate call fuel node env) env value left
      return value
    | .member left name => do
      let object ← evaluate call fuel left env
      modifyGet (host.getProperty object name)
    | .index left right => do
      let object ← evaluate call fuel left env
      let key ← evaluate call fuel right env
      let name := host.toText key (← get)
      modifyGet (host.getProperty object name)
    | .regexLiteral regex => modifyGet (host.makeRegex regex)
    | .call left children => do
      let (callee, this) ← calleeOf host (fun node => evaluate call fuel node env) left
      let arguments ← children.mapM fun child => evaluate call fuel child env
      call callee arguments this
    | .new left children => do
      let constructor ← evaluate call fuel left env
      let arguments ← children.mapM fun child => evaluate call fuel child env
      let prototype ← modifyGet (host.getProperty constructor (lit "prototype"))
      let this ← modifyGet (host.makeInstance prototype)
      match ← call constructor arguments this with
      | .object (some object) => return .object (some object)
      | _ => return this
    | _ => return .undefined

/-! ## Statements -/

/-- The values that the loop over an iterable runs through. -/
def iterate (iterable : Heap.Value) (s : σ) : Option (List Heap.Value) :=
  match host.elements iterable s, iterable with
  | some elements, _ => some elements
  | none, .string text => some (text.map fun c => .string [c])
  | none, _ => none

/-- An expression that need not be there. -/
def evaluateOptional (call : Caller σ) (fuel : ℕ) (env : EnvironmentId) :
    Option Syntax.Node → Run Stop σ Heap.Value
  | none => return .undefined
  | some node => evaluate host call fuel node env

/-- The test of `for`: without one the loop goes on. -/
def forTest (call : Caller σ) (fuel : ℕ) (env : EnvironmentId) :
    Option Syntax.Node → Run Stop σ Bool
  | none => return true
  | some test => do
    let value ← evaluate host call fuel test env
    return toBoolean value

/-- The update of `for`. -/
def forUpdate (call : Caller σ) (fuel : ℕ) (env : EnvironmentId) :
    Option Syntax.Node → Run Stop σ Unit
  | none => return ()
  | some update => do
    let _ ← evaluate host call fuel update env
    return ()

/-- The loops that look for the case of a `switch` to begin with. -/
def findCase (call : Caller σ) (fuel : ℕ) (discriminant : Heap.Value) (env : EnvironmentId) :
    List (Option Syntax.Node) → Run Stop σ (Option ℕ)
  | [] => return none
  | none :: initializers => do
    let start ← findCase call fuel discriminant env initializers
    return start.map (· + 1)
  | some initializer :: initializers => do
    let value ← evaluate host call fuel initializer env
    if value = discriminant ∧ value ≠ .number .nan then return some 0
    else do
      let start ← findCase call fuel discriminant env initializers
      return start.map (· + 1)

/-- The case of a `switch` to begin with: the first equal one, or `default`. -/
def startCase (call : Caller σ) (fuel : ℕ) (discriminant : Heap.Value) (env : EnvironmentId)
    (initializers : List (Option Syntax.Node)) : Run Stop σ (Option ℕ) := do
  match ← findCase host call fuel discriminant env initializers with
  | some start => return some start
  | none => return initializers.findIdx? Option.isNone

/-- The loop over the variables of a declaration. -/
def declareAll (call : Caller σ) (fuel : ℕ) (env : EnvironmentId) :
    List Bytes → List (Option Syntax.Node) → Run Stop σ Unit
  | [], _ => return ()
  | name :: names, initializers => do
    let value ← evaluateOptional host call fuel env (initializers.headD none)
    modify host.unpolled
    modify (host.declare env name value)
    declareAll call fuel env names initializers.tail

/-- The loop over the statements of a block. -/
def blockLoop (body : Syntax.Node → Run Stop σ Completion) :
    List Syntax.Node → Heap.Value → Run Stop σ Completion
  | [], value => return .normal value
  | child :: children, _ => do
    match ← body child with
    | .normal value =>
      if host.hasError (← get) then return .normal value else blockLoop body children value
    | completion => return completion

/-- The loop over the items of an iterable. -/
def forOfLoop (name : Bytes) (env : EnvironmentId) (body : Run Stop σ Completion) :
    List Heap.Value → Run Stop σ Completion
  | [] => return .normal .undefined
  | item :: items => do
    modify host.unpolled
    modify (host.declare env name item)
    match ← body with
    | .ret value => return .ret value
    | .brk => return .normal .undefined
    | _ => forOfLoop name env body items

/-- The loop over the cases of a `switch`, from the one it begins with. -/
def caseLoop (body : Syntax.Node → Run Stop σ Completion) :
    List Syntax.Node → Run Stop σ Completion
  | [] => return .normal .undefined
  | child :: children => do
    match ← body child with
    | .ret value => return .ret value
    | .brk => return .normal .undefined
    | _ => caseLoop body children

mutual

/-- `execute` -/
def execute : ℕ → Syntax.Node → EnvironmentId → Run Stop σ Completion
  | 0, _, _ => throw .outOfFuel
  | fuel + 1, node, env => do
    if host.hasError (← get) then return .normal .undefined
    match node with
    | .program children =>
      blockLoop host (fun child => execute fuel child env) children .undefined
    | .block children => do
      let blockEnv ← modifyGet (host.newEnvironment env)
      blockLoop host (fun child => execute fuel child blockEnv) children .undefined
    | .expressionStatement left => do
      let value ← evaluate host (call fuel) fuel left env
      return .normal value
    | .variableDeclaration _ names initializers => do
      declareAll host (call fuel) fuel env names initializers
      return .normal .undefined
    | .function true name _ _ _ => do
      let function ← evaluate host (call fuel) fuel node env
      modify (host.declare env name function)
      return .normal .undefined
    | .classDeclaration name _ _ => do
      let class' ← evaluate host (call fuel) fuel node env
      modify (host.declare env name class')
      return .normal .undefined
    | .ifStatement test body alternate => do
      let test ← evaluate host (call fuel) fuel test env
      if toBoolean test then execute fuel body env
      else
        match alternate with
        | some alternate => execute fuel alternate env
        | none => return .normal .undefined
    | .whileStatement test body => whileLoop fuel test body env
    | .forStatement init test update body => do
      let loopEnv ← modifyGet (host.newEnvironment env)
      match init with
      | some init => do
        match ← execute fuel init loopEnv with
        | .normal _ => forLoop fuel test update body loopEnv
        | completion => return completion
      | none => forLoop fuel test update body loopEnv
    | .forOfStatement name right body => do
      let iterable ← evaluate host (call fuel) fuel right env
      match iterate host iterable (← get) with
      | some items => forOfLoop host name env (execute fuel body env) items
      | none => do
        modify (host.error (lit "value is not iterable"))
        return .normal .undefined
    | .switchStatement test initializers children => do
      let discriminant ← evaluate host (call fuel) fuel test env
      let switchEnv ← modifyGet (host.newEnvironment env)
      match ← startCase host (call fuel) fuel discriminant env initializers with
      | some start => caseLoop (fun child => execute fuel child switchEnv) (children.drop start)
      | none => return .normal .undefined
    | .returnStatement left => do
      let value ← evaluateOptional host (call fuel) fuel env left
      return .ret value
    | .breakStatement => return .brk
    | .continueStatement => return .cont
    | _ => do
      let value ← evaluate host (call fuel) fuel node env
      return .normal value

/-- The loop of `while`. -/
def whileLoop : ℕ → Syntax.Node → Syntax.Node → EnvironmentId → Run Stop σ Completion
  | 0, _, _, _ => throw .outOfFuel
  | fuel + 1, test, body, env => do
    let value ← evaluate host (call fuel) fuel test env
    if toBoolean value && !host.hasError (← get) then
      match ← execute fuel body env with
      | .ret value => return .ret value
      | .brk => return .normal .undefined
      | _ => whileLoop fuel test body env
    else return .normal .undefined

/-- The loop of `for`. -/
def forLoop : ℕ → Option Syntax.Node → Option Syntax.Node → Syntax.Node → EnvironmentId →
    Run Stop σ Completion
  | 0, _, _, _, _ => throw .outOfFuel
  | fuel + 1, test, update, body, env => do
    let goesOn ← forTest host (call fuel) fuel env test
    if goesOn && !host.hasError (← get) then
      match ← execute fuel body env with
      | .ret value => return .ret value
      | .brk => return .normal .undefined
      | _ => do
        forUpdate host (call fuel) fuel env update
        forLoop fuel test update body env
    else return .normal .undefined

/-- `call` and `call_function` -/
def call : ℕ → Caller σ
  | 0, _, _, _ => throw .outOfFuel
  | fuel + 1, callee, arguments, this => do
    match host.callee callee (← get) with
    | none => do
      modify (host.error (lit "value is not a function"))
      return .undefined
    | some (.native native) => host.native native (call fuel) arguments
    | some (.script parameters functionBody isAsync closure) => do
      let env ← modifyGet (host.callEnvironment closure this parameters arguments)
      let value ←
        match functionBody with
        | some body => do
          match ← execute fuel body env with
          | .ret value => pure value
          | _ => pure .undefined
        | none => pure .undefined
      if isAsync then modifyGet (host.fulfilledPromise value) else return value

end

/-- `run`, behind the parser. -/
def run (fuel : ℕ) (program : Syntax.Node) : Run Stop σ Heap.Value := do
  let completion ← execute host fuel program host.globals
  host.drainMicrotasks (call host fuel)
  return completion.value

end

end Aetheris.Js.Script
