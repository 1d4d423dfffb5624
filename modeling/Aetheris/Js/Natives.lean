import Aetheris.Js.Machine
import Aetheris.Js.RegexCompile

/-!
# Native functions and the events of a page

The native functions of `js.cpp` and of the element handles of `main.cpp`, with everything that they
do to objects; what they compute of numbers and strings is left open, in `Primitives`.  The
interpreter with these functions runs the scripts of a page one after the other, on what
`setup_globals` and the handles have left, and is told of events in between.
-/

namespace Aetheris.Js.Script

open Aetheris.Agree

/-! ## Numbers and strings -/

/-- A value that points to no object. -/
abbrev Scalar := { value : Heap.Value // ∀ o, value ≠ .object (some o) }

/-- What is computed of numbers and strings. -/
structure Primitives where
  /-- `to_number` -/
  toNumber : Heap.Value → Number
  negate : Number → Number
  increment : Number → Number
  decrement : Number → Number
  /-- `to_string` -/
  toText : Heap.Value → State → Bytes
  /-- `evaluate_binary`, but for `instanceof`. -/
  operator : Bytes → Heap.Value → Heap.Value → State → Scalar
  /-- What a native function returns that changes no object and returns none: `Math.floor`,
  `indexOf`, `join`, `has`, `test` and others. -/
  compute : Native → List Heap.Value → State → Scalar
  /-- The strings that `split`, `match` and `exec` return, and the `index`, if it is set; there are
  none where they return `null`. -/
  texts : Native → List Heap.Value → State → Option (List Bytes × Option Number)
  /-- `start` and `end` in `slice` of an array, with these arguments and of this size. -/
  slice : List Heap.Value → ℕ → ℕ × ℕ
  /-- What `std::sort` makes of these elements. -/
  sort : List Heap.Value → State → List Heap.Value
  strtod : Bytes → Number × ℕ
  /-- `current_time_ms` -/
  now : State → Number

/-- A number of something. -/
def count (n : ℕ) : Heap.Value := .number (.finite n)

/-- `same_value` -/
def sameValue (a b : Heap.Value) : Bool := a = b ∧ a ≠ .number .nan

/-- `!name.empty() && name.find_first_not_of("0123456789") == npos`, and the number. -/
def indexName (name : Bytes) : Option ℕ :=
  if name ≠ [] ∧ name.all isDigit then some (min (2 ^ 64 - 1) (numberOf 10 (leadingDigits 10 name))) else none

/-! ## Built-in members -/

/-- The methods of strings. -/
def stringMethods : List Bytes :=
  [lit "toUpperCase", lit "toLowerCase", lit "charAt", lit "indexOf", lit "slice",
    lit "substring", lit "split", lit "replace", lit "search", lit "match", lit "repeat",
    lit "trim", lit "includes", lit "startsWith", lit "endsWith"]

/-- The methods of numbers. -/
def numberMethods : List Bytes := [lit "toString", lit "toFixed"]

/-- The methods of arrays. -/
def arrayMethods : List Bytes :=
  [lit "push", lit "pop", lit "join", lit "indexOf", lit "slice", lit "forEach", lit "map",
    lit "filter", lit "reduce", lit "reverse", lit "sort", lit "includes", lit "concat"]

/-- The methods of a `Map`. -/
def mapMethods : List Bytes :=
  [lit "set", lit "get", lit "has", lit "delete", lit "keys", lit "values"]

/-- The methods of a `Set`. -/
def setMethods : List Bytes := [lit "add", lit "has", lit "delete"]

/-- A method, made for its receiver. -/
def method (kind : Bytes) (receiver : Heap.Value) (name : Bytes) : Member :=
  .native ⟨kind ++ chr '.' :: name, [receiver]⟩

/-- `get_property`, as far as it gets without `get_property_from_chain`. -/
def member (receiver : Heap.Value) (name : Bytes) (s : State) : Member :=
  match receiver with
  | .string text =>
    if name = lit "length" then .value (count text.length)
    else if name ∈ stringMethods then method (lit "String") receiver name
    else
      match (indexName name).bind fun index => text[index]? with
      | some c => .value (.string [c])
      | none => .value .undefined
  | .number _ =>
    if name ∈ numberMethods then method (lit "Number") receiver name else .value .undefined
  | _ =>
    match s.object receiver with
    | none => .value .undefined
    | some object =>
      if object.contents.isArray then
        if name = lit "length" then .value (count object.contents.elements.length)
        else if name ∈ arrayMethods then method (lit "Array") receiver name
        else
          match indexName name with
          | some index => .value (object.contents.elements.getD index .undefined)
          | none => .inherited
      else if object.isMap then
        if name = lit "size" then .value (count object.entries.length)
        else if name ∈ mapMethods then method (lit "Map") receiver name
        else .inherited
      else if object.isSet then
        if name = lit "size" then .value (count object.contents.elements.length)
        else if name ∈ setMethods then method (lit "Set") receiver name
        else .inherited
      else .inherited

/-! ## Prototypes -/

namespace State

/-- `object->prototype` -/
def prototypeOf (s : State) (o : ObjectId) : Option ObjectId :=
  s.objects[o]?.bind Object.prototype

/-- The loop of `instanceof`: one of the objects from here on is the target; `fuel` is the number
of objects left. -/
def chainHas (s : State) (target : ObjectId) : ℕ → ObjectId → Bool
  | 0, _ => false
  | fuel + 1, o =>
    o == target ||
      match s.prototypeOf o with
      | some prototype => chainHas s target fuel prototype
      | none => false

end State

/-- `get_property(right, "prototype")`, which makes no object. -/
def prototypeProperty (right : Heap.Value) (s : State) : Heap.Value :=
  match member right (lit "prototype") s, right with
  | .value value, _ => value
  | .inherited, .object (some o) => s.fromChain (lit "prototype") s.objects.length o
  | _, _ => .undefined

/-- `instanceof` -/
def instanceOf (left right : Heap.Value) (s : State) : Bool :=
  match left, right with
  | .object (some o), .object (some _) =>
    match prototypeProperty right s with
    | .object (some target) => s.chainHas target s.objects.length o
    | _ => false
  | _, _ => false

/-! ## What natives do to objects -/

namespace State

/-- The elements of an object. -/
def elementsOf (object : Heap.Value) (s : State) : List Heap.Value :=
  ((s.object object).map fun object => object.contents.elements).getD []

/-- The entries of a `Map`. -/
def entriesOf (object : Heap.Value) (s : State) : List (Heap.Value × Heap.Value) :=
  ((s.object object).map Object.entries).getD []

/-- An object is written to. -/
def write (object : Heap.Value) (w : Heap.Write) (s : State) : State :=
  match object with
  | .object (some o) =>
    s.modifyObject o fun object => { object with contents := object.contents.write w }
  | _ => s

/-- The entries of a `Map` are changed. -/
def setEntries (object : Heap.Value) (entries : List (Heap.Value × Heap.Value)) (s : State) :
    State :=
  match object with
  | .object (some o) => s.modifyObject o fun object => { object with entries := entries }
  | _ => s

/-- An array that a native function has made: it has no prototype. -/
def newArray (elements : List Heap.Value) (s : State) : Heap.Value × State :=
  s.allocate { contents := { isArray := true, elements := elements } }

/-- What `split`, `match` and `exec` return. -/
def textArray (found : Option (List Bytes × Option Number)) (s : State) : Heap.Value × State :=
  match found with
  | none => (.null, s)
  | some (texts, index) =>
    s.allocate {
      contents := {
        isArray := true
        elements := texts.map .string
        properties := (index.map fun index => (lit "index", .number index)).toList } }

/-- `handlers.emplace_back` of a pending promise. -/
def addHandlers (o : ObjectId) (handlers : Heap.Value × Heap.Value) (s : State) : State :=
  s.modifyObject o fun object =>
    { object with
      promise := object.promise.map fun data =>
        { data with handlers := data.handlers ++ [handlers] } }

/-- `schedule_microtask` -/
def scheduleMicrotask (task : Microtask) (s : State) : State :=
  { s with microtasks := s.microtasks ++ [task] }

/-- The names of the getters of a date. -/
def dateMembers : List Bytes :=
  [lit "getFullYear", lit "getMonth", lit "getDate", lit "getDay", lit "getHours",
    lit "getMinutes", lit "getSeconds", lit "getTime", lit "toISOString", lit "toString"]

/-- Native functions become properties of an object: the name of each, the native function, and the
values that it captures. -/
def putNatives (object : Heap.Value) : List (Bytes × Native) → State → State
  | [], s => s
  | (name, native) :: natives, s =>
    let made := s.makeNative native
    putNatives object natives (made.2.putProperty object name made.1)

/-- `make_date_object` -/
def makeDate (ms : Number) (s : State) : Heap.Value × State :=
  let made := s.allocate {}
  (made.1, made.2.putNatives made.1 (dateMembers.map fun name =>
    (name, ⟨lit "Date." ++ name, [.number ms]⟩)))

mutual

/-- The objects that `JsonParser` makes of a text with this value. -/
def makeTree : ValueTree → State → Heap.Value × State
  | .undefined, s => (.undefined, s)
  | .null, s => (.null, s)
  | .boolean value, s => (.boolean value, s)
  | .number value, s => (.number value, s)
  | .string value, s => (.string value, s)
  | .function, s => (.undefined, s)
  | .array elements, s =>
    let made := makeElements elements s
    made.2.newArray made.1
  | .object properties, s =>
    let made := makeProperties properties s
    made.2.allocate { contents := { properties := made.1 } }

/-- The elements of an array, one after the other. -/
def makeElements : List ValueTree → State → List Heap.Value × State
  | [], s => ([], s)
  | element :: elements, s =>
    let first := makeTree element s
    let rest := makeElements elements first.2
    (first.1 :: rest.1, rest.2)

/-- The properties of an object, one after the other. -/
def makeProperties : List (Bytes × ValueTree) → State → List (Bytes × Heap.Value) × State
  | [], s => ([], s)
  | (name, property) :: properties, s =>
    let first := makeTree property s
    let rest := makeProperties properties first.2
    ((name, first.1) :: rest.1, rest.2)

end

/-- `addEventListener`, of a window, a document or an element. -/
def addListener (target : Heap.Value) (key : Bytes) (listener : Heap.Value) (s : State) : State :=
  match s.property target key with
  | .object (some array) => s.write (.object (some array)) (.push [listener])
  | _ =>
    let made := s.newArray []
    (made.2.putProperty target key made.1).write made.1 (.push [listener])

/-- `DomHost::handle_for`: an element with this `id` and this text. -/
def handleFor (id : Option Bytes) (text : Bytes) (s : State) : Heap.Value × State :=
  let made := s.allocate {
    contents := {
      properties := [(lit "id", .string (id.getD [])), (lit "textContent", .string text)] } }
  (made.1, made.2.putNatives made.1
    ([lit "setAttribute", lit "getAttribute", lit "appendChild", lit "addEventListener"].map
      fun name => (name, ⟨name, [made.1]⟩)))

end State

/-! ## Promises -/

namespace State

/-- The task of `then` and `catch` on a settled promise. -/
def settledTask (derived : ObjectId) (data : PromiseData) (handlers : Heap.Value × Heap.Value) :
    Microtask :=
  let rejected := data.status == .rejected
  { derived := derived, handler := if rejected then handlers.2 else handlers.1,
    rejected := rejected, value := data.value }

/-- `then` -/
def promiseThen (self : Heap.Value) (arguments : List Heap.Value) (s : State) :
    Heap.Value × State :=
  let handlers := (arguments.getD 0 .undefined, arguments.getD 1 .undefined)
  let derived := s.objects.length
  let made := s.makePromise
  match self, made.2.promise self with
  | .object (some o), some data =>
    if data.status = .pending then (made.1, made.2.addHandlers o handlers)
    else (made.1, made.2.scheduleMicrotask (settledTask derived data handlers))
  | _, _ => made

/-- `catch` -/
def promiseCatch (self : Heap.Value) (arguments : List Heap.Value) (s : State) :
    Heap.Value × State :=
  let handlers := (.undefined, arguments.getD 0 .undefined)
  let derived := s.objects.length
  let made := s.makePromise
  match self, made.2.promise self with
  | .object (some o), some data =>
    if data.status = .pending then (made.1, made.2.addHandlers o handlers)
    else if data.status = .rejected then
      (made.1, made.2.scheduleMicrotask (settledTask derived data handlers))
    else (made.1, made.2.settlePromise derived false data.value)
  | _, _ => made

/-- The native functions that settle a promise. -/
def settle (rejected : Bool) (self : Heap.Value) (arguments : List Heap.Value) (s : State) :
    Heap.Value × State :=
  match self with
  | .object (some o) => (.undefined, s.settlePromise o rejected (arguments.headD .undefined))
  | _ => (.undefined, s)

/-- `Promise.reject`, and the last two lines of `Promise.resolve`. -/
def settledPromise (rejected : Bool) (value : Heap.Value) (s : State) : Heap.Value × State :=
  let derived := s.objects.length
  let made := s.makePromise
  (made.1, made.2.settlePromise derived rejected value)

/-- `Promise.resolve` -/
def promiseResolve (arguments : List Heap.Value) (s : State) : Heap.Value × State :=
  let value := arguments.headD .undefined
  if (s.promise value).isSome then (value, s) else s.settledPromise false value

/-- `Promise.all` -/
def promiseAll (arguments : List Heap.Value) (s : State) : Heap.Value × State :=
  let items :=
    match arguments.head?.bind s.object with
    | some object => if object.contents.isArray then object.contents.elements else []
    | none => []
  let result := s.makePromise
  let values := items.map fun item =>
    match result.2.promise item with
    | some data => data.value
    | none => item
  let array := result.2.newArray values
  (result.1, array.2.settlePromise s.objects.length false array.1)

end State

/-! ## Native functions that call functions -/

/-- A new object, whatever has happened before. -/
def quietAllocate (object : Object) : Quiet :=
  ⟨State.allocate object, fun s herror => by
    refine ⟨herror, List.prefix_rfl, ?_, rfl⟩
    show s.objects.map Object.stored <+: (s.objects ++ [object]).map Object.stored
    rw [List.map_append]
    exact List.prefix_append _ _⟩

/-- `make_promise` -/
def quietPromise : Quiet :=
  ⟨State.makePromise, fun s herror => by
    refine ⟨herror, List.prefix_rfl, ?_, rfl⟩
    show s.objects.map Object.stored <+: (s.objects ++ _).map Object.stored
    rw [List.map_append]
    exact List.prefix_append _ _⟩

/-- `make_native` -/
def quietNative (native : Native) : Quiet :=
  quietAllocate { contents := { isFunction := true }, callee := some (.native native) }

/-- A result of `forEach`, `map` and `filter`. -/
def quietArray (elements : List Heap.Value) : Quiet :=
  quietAllocate { contents := { isArray := true, elements := elements } }

/-- `value.is_object() && value.object && value.object->is_function` -/
def isCallable (value : Heap.Value) (s : State) : Bool :=
  ((s.object value).bind Object.callee).isSome

/-- What `forEach`, `map` and `filter` are. -/
inductive Traversal
  | forEach
  | map
  | filter
  deriving DecidableEq

/-- The loop of `forEach`, `map` and `filter`, from the index `i` on. -/
def traverse (kind : Traversal) (array callback : Heap.Value) : ℕ → ℕ → List Heap.Value → Action
  | 0, _, _ => .stop
  | rounds + 1, i, result => .look fun s =>
    match (s.elementsOf array)[i]? with
    | none => .quiet (quietArray result) .done
    | some element =>
      .call callback [element, count i] .undefined fun value =>
        match kind with
        | .forEach => traverse kind array callback rounds (i + 1) result
        | .map => traverse kind array callback rounds (i + 1) (result ++ [value])
        | .filter =>
          if toBoolean value then .look fun s =>
            -- the callback may have changed the array
            traverse kind array callback rounds (i + 1)
              (result ++ [(s.elementsOf array).getD i .undefined])
          else traverse kind array callback rounds (i + 1) result

/-- `forEach`, `map` and `filter` -/
def traversal (kind : Traversal) (rounds : ℕ) (array : Heap.Value) :
    List Heap.Value → Action
  | [] => .quiet (quietArray []) .done
  | callback :: _ => traverse kind array callback rounds 0 []

/-- The loop of `reduce`, from the index `i` on. -/
def reduceLoop (array callback : Heap.Value) : ℕ → ℕ → Heap.Value → Action
  | 0, _, _ => .stop
  | rounds + 1, i, accumulator => .look fun s =>
    match (s.elementsOf array)[i]? with
    | none => .done accumulator
    | some element =>
      .call callback [accumulator, element, count i] .undefined fun value =>
        reduceLoop array callback rounds (i + 1) value

/-- `reduce` -/
def reduce (rounds : ℕ) (array : Heap.Value) : List Heap.Value → Action
  | [] => .done .undefined
  | [callback] => .look fun s =>
    match s.elementsOf array with
    | [] => .done .undefined
    | element :: _ => reduceLoop array callback rounds 1 element
  | callback :: accumulator :: _ => reduceLoop array callback rounds 0 accumulator

/-- `finally` -/
def promiseFinally (self : Heap.Value) (arguments : List Heap.Value) : Action :=
  .look fun s =>
    let callback := arguments.headD .undefined
    if isCallable callback s then .call callback [] .undefined fun _ => .done self
    else .done self

/-- `Promise` -/
def promiseConstructor (arguments : List Heap.Value) : Action :=
  .quiet quietPromise fun promise => .look fun s =>
    let executor := arguments.headD .undefined
    if isCallable executor s then
      .quiet (quietNative ⟨lit "fulfill", [promise]⟩) fun resolve =>
        .quiet (quietNative ⟨lit "reject", [promise]⟩) fun reject =>
          .call executor [resolve, reject] .undefined fun _ => .done promise
    else .done promise

/-! ## Native functions -/

section

variable (P : Primitives) (rounds : ℕ) (handles : List (Bytes × Heap.Value))

/-! ### Arrays -/

/-- `push` -/
def arrayPush (self : Heap.Value) (arguments : List Heap.Value) (s : State) : Heap.Value × State :=
  let t := s.write self (.push arguments)
  (count (t.elementsOf self).length, t)

/-- `pop` -/
def arrayPop (self : Heap.Value) (_ : List Heap.Value) (s : State) : Heap.Value × State :=
  ((s.elementsOf self).getLastD .undefined, s.write self .pop)

/-- `slice` -/
def arraySlice (self : Heap.Value) (arguments : List Heap.Value) (s : State) : Heap.Value × State :=
  let elements := s.elementsOf self
  let bounds := P.slice arguments elements.length
  s.newArray ((elements.take bounds.2).drop bounds.1)

/-- `reverse` -/
def arrayReverse (self : Heap.Value) (_ : List Heap.Value) (s : State) : Heap.Value × State :=
  (self, s.write self (.rearrange (s.elementsOf self).reverse))

/-- `sort` -/
def arraySort (self : Heap.Value) (_ : List Heap.Value) (s : State) : Heap.Value × State :=
  (self, s.write self (.rearrange (P.sort (s.elementsOf self) s)))

/-- What `concat` takes from an argument: the elements of an array. -/
def spread (s : State) (argument : Heap.Value) : List Heap.Value :=
  match s.object argument with
  | some object => if object.contents.isArray then object.contents.elements else [argument]
  | none => [argument]

/-- `concat` -/
def arrayConcat (self : Heap.Value) (arguments : List Heap.Value) (s : State) :
    Heap.Value × State :=
  s.newArray (s.elementsOf self ++ arguments.flatMap (spread s))

/-! ### Maps and sets -/

/-- The place of the entry with this key. -/
def findEntry (self key : Heap.Value) (s : State) : Option ℕ :=
  (s.entriesOf self).findIdx? fun entry => sameValue entry.1 key

/-- `set` -/
def mapSet (self : Heap.Value) (arguments : List Heap.Value) (s : State) : Heap.Value × State :=
  match arguments with
  | key :: value :: _ =>
    match findEntry self key s with
    | some i => (self, s.setEntries self ((s.entriesOf self).modify i fun entry => (entry.1, value)))
    | none => (self, s.setEntries self (s.entriesOf self ++ [(key, value)]))
  | _ => (self, s)

/-- `get` -/
def mapGet (self : Heap.Value) (arguments : List Heap.Value) (s : State) : Heap.Value × State :=
  match arguments with
  | [] => (.undefined, s)
  | key :: _ =>
    let found := (s.entriesOf self).find? fun entry => sameValue entry.1 key
    ((found.map Prod.snd).getD .undefined, s)

/-- `delete` of a `Map`. -/
def mapDelete (self : Heap.Value) (arguments : List Heap.Value) (s : State) : Heap.Value × State :=
  match arguments with
  | [] => (.boolean false, s)
  | key :: _ =>
    match findEntry self key s with
    | some i => (.boolean true, s.setEntries self ((s.entriesOf self).eraseIdx i))
    | none => (.boolean false, s)

/-- `keys` of a `Map`. -/
def mapKeys (self : Heap.Value) (_ : List Heap.Value) (s : State) : Heap.Value × State :=
  s.newArray ((s.entriesOf self).map Prod.fst)

/-- `values` -/
def mapValues (self : Heap.Value) (_ : List Heap.Value) (s : State) : Heap.Value × State :=
  s.newArray ((s.entriesOf self).map Prod.snd)

/-- `add` -/
def setAdd (self : Heap.Value) (arguments : List Heap.Value) (s : State) : Heap.Value × State :=
  match arguments with
  | [] => (self, s)
  | value :: _ =>
    if (s.elementsOf self).any (sameValue · value) then (self, s)
    else (self, s.write self (.push [value]))

/-- `delete` of a `Set`. -/
def setDelete (self : Heap.Value) (arguments : List Heap.Value) (s : State) : Heap.Value × State :=
  match arguments with
  | [] => (.boolean false, s)
  | value :: _ =>
    match (s.elementsOf self).findIdx? (sameValue · value) with
    | some i => (.boolean true, s.write self (.erase i))
    | none => (.boolean false, s)

/-! ### Global functions -/

/-- `Object` -/
def objectConstructor (arguments : List Heap.Value) (s : State) : Heap.Value × State :=
  match arguments with
  | [] => s.allocate {}
  | argument :: _ => (argument, s)

/-- `Object.keys` -/
def objectKeys (arguments : List Heap.Value) (s : State) : Heap.Value × State :=
  s.newArray (match arguments.head?.bind s.object with
    | some object => object.contents.properties.map fun property => .string property.1
    | none => [])

/-- `RegExp` -/
def regExp (arguments : List Heap.Value) (s : State) : Heap.Value × State :=
  let text := fun i => (arguments[i]?.map fun argument => P.toText argument s).getD []
  match Regex.compile (text 0) (text 1) with
  | some (.ok regex) => s.makeRegex (some regex)
  | _ => s.makeRegex none

/-- `JSON.parse`: what has been made of a text that is no JSON stays. -/
def parseJson (arguments : List Heap.Value) (s : State) : Heap.Value × State :=
  match arguments with
  | [] => (.undefined, s)
  | argument :: _ =>
    let parsed := parse P.strtod (P.toText argument s) {}
    let made := s.makeTree parsed.1
    if parsed.2.ok then made else (.undefined, made.2)

/-- `Date` -/
def date (arguments : List Heap.Value) (s : State) : Heap.Value × State :=
  s.makeDate ((arguments.head?.map P.toNumber).getD (P.now s))

/-! ### The page -/

/-- The native function of `addEventListener`. -/
def addEventListener (self : Heap.Value) (arguments : List Heap.Value) (s : State) :
    Heap.Value × State :=
  match arguments with
  | type :: listener :: _ =>
    (.undefined, s.addListener self (lit "__handlers_" ++ P.toText type s) listener)
  | _ => (.undefined, s)

/-- The host is called. -/
def State.callHost (calls : List HookCall) (s : State) : State :=
  { s with hooks := s.hooks ++ calls }

/-- `console.log`: the arguments with blanks between them. -/
def consoleLog (arguments : List Heap.Value) (s : State) : Heap.Value × State :=
  let line := [chr ' '].intercalate (arguments.map fun argument => P.toText argument s)
  (.undefined, s.callHost [.print line])

/-- `document.write` -/
def documentWrite (arguments : List Heap.Value) (s : State) : Heap.Value × State :=
  (.undefined, s.callHost (arguments.map fun argument => .write (P.toText argument s)))

/-- `getElementById` -/
def getElementById (arguments : List Heap.Value) (s : State) : Heap.Value × State :=
  match arguments with
  | [] => (.undefined, s)
  | id :: _ =>
    ((handles.lookup (P.toText id s)).getD .undefined,
      s.callHost [.elementLookup (P.toText id s)])

/-- `createElement` -/
def createElement (arguments : List Heap.Value) (s : State) : Heap.Value × State :=
  match arguments with
  | [] => (.undefined, s)
  | tag :: _ => (s.callHost [.createElement (P.toText tag s)]).handleFor none []

/-! ### All of them -/

/-- The native functions that do something to objects or call functions: their names, and what
they do with the value that they have captured. -/
def nativeTable : List (Bytes × (Heap.Value → NativeFunction)) :=
  [(lit "Array.push", fun self => .changing (arrayPush self)),
    (lit "Array.pop", fun self => .changing (arrayPop self)),
    (lit "Array.slice", fun self => .changing (arraySlice P self)),
    (lit "Array.forEach", fun self => .calling (traversal .forEach rounds self)),
    (lit "Array.map", fun self => .calling (traversal .map rounds self)),
    (lit "Array.filter", fun self => .calling (traversal .filter rounds self)),
    (lit "Array.reduce", fun self => .calling (reduce rounds self)),
    (lit "Array.reverse", fun self => .changing (arrayReverse self)),
    (lit "Array.sort", fun self => .changing (arraySort P self)),
    (lit "Array.concat", fun self => .changing (arrayConcat self)),
    (lit "Map.set", fun self => .changing (mapSet self)),
    (lit "Map.get", fun self => .changing (mapGet self)),
    (lit "Map.delete", fun self => .changing (mapDelete self)),
    (lit "Map.keys", fun self => .changing (mapKeys self)),
    (lit "Map.values", fun self => .changing (mapValues self)),
    (lit "Set.add", fun self => .changing (setAdd self)),
    (lit "Set.delete", fun self => .changing (setDelete self)),
    (lit "Object", fun _ => .changing objectConstructor),
    (lit "Object.keys", fun _ => .changing objectKeys),
    (lit "Array", fun _ => .changing fun _ => State.newArray []),
    (lit "Map", fun _ => .changing fun _ => State.allocate { isMap := true }),
    (lit "Set", fun _ => .changing fun _ => State.allocate { isSet := true }),
    (lit "RegExp", fun _ => .changing (regExp P)),
    (lit "JSON.parse", fun _ => .changing (parseJson P)),
    (lit "Date", fun _ => .changing (date P)),
    (lit "Promise", fun _ => .calling promiseConstructor),
    (lit "Promise.resolve", fun _ => .changing State.promiseResolve),
    (lit "Promise.reject", fun _ => .changing fun arguments =>
      State.settledPromise true (arguments.headD .undefined)),
    (lit "Promise.all", fun _ => .changing State.promiseAll),
    (lit "then", fun self => .changing (State.promiseThen self)),
    (lit "catch", fun self => .changing (State.promiseCatch self)),
    (lit "finally", fun self => .calling (promiseFinally self)),
    (lit "fulfill", fun self => .changing (State.settle false self)),
    (lit "reject", fun self => .changing (State.settle true self)),
    (lit "addEventListener", fun self => .changing (addEventListener P self)),
    (lit "console.log", fun _ => .changing (consoleLog P)),
    (lit "document.write", fun _ => .changing (documentWrite P)),
    (lit "getElementById", fun _ => .changing (getElementById P handles)),
    (lit "createElement", fun _ => .changing (createElement P))]

/-- The native functions that return the strings that they find. -/
def textNatives : List Bytes := [lit "String.split", lit "String.match", lit "exec"]

/-- The native functions. -/
def nativeFunction (native : Native) : NativeFunction :=
  match (nativeTable P rounds handles).lookup native.name with
  | some function => function (native.captured.headD .undefined)
  | none =>
    if native.name ∈ textNatives then
      .changing fun arguments s => s.textArray (P.texts native arguments s)
    else .changing fun arguments s => ((P.compute native arguments s).1, s)

/-- `js.cpp`, with the elements of a page. -/
def pageBuiltins : Builtins where
  toNumber := P.toNumber
  negate := P.negate
  increment := P.increment
  decrement := P.decrement
  toText := P.toText
  binary op left right s :=
    if op = lit "instanceof" then .boolean (instanceOf left right s)
    else (P.operator op left right s).1
  member := member
  native := nativeFunction P rounds handles

end

/-! ## Before the first script -/

/-- The members of the global objects: native functions, and whether they capture their object. -/
def globalMembers : List (Bytes × Option Bytes × List (Bytes × Bytes × Bool)) :=
  let plain := fun (object : Bytes) (names : List Bytes) =>
    names.map fun name => (name, object ++ chr '.' :: name, false)
  [(lit "console", none, plain (lit "console") [lit "log"]),
    (lit "Math", none, plain (lit "Math")
      [lit "floor", lit "ceil", lit "round", lit "abs", lit "sqrt", lit "max", lit "min",
        lit "pow", lit "random", lit "trunc", lit "sign"]),
    (lit "parseInt", some (lit "parseInt"), []),
    (lit "parseFloat", some (lit "parseFloat"), []),
    (lit "String", some (lit "String"), []),
    (lit "Number", some (lit "Number"), []),
    (lit "isNaN", some (lit "isNaN"), []),
    (lit "Object", some (lit "Object"), plain (lit "Object") [lit "keys"]),
    (lit "Array", some (lit "Array"), plain (lit "Array") [lit "isArray"]),
    (lit "JSON", none, plain (lit "JSON") [lit "stringify", lit "parse"]),
    (lit "RegExp", some (lit "RegExp"), []),
    (lit "Promise", some (lit "Promise"),
      plain (lit "Promise") [lit "resolve", lit "reject", lit "all"]),
    (lit "Date", some (lit "Date"), plain (lit "Date") [lit "now"]),
    (lit "Map", some (lit "Map"), []),
    (lit "Set", some (lit "Set"), []),
    (lit "window", none, [(lit "addEventListener", lit "addEventListener", true)]),
    (lit "document", none,
      [(lit "write", lit "document.write", false), (lit "writeln", lit "document.write", false),
        (lit "getElementById", lit "getElementById", false),
        (lit "createElement", lit "createElement", false),
        (lit "addEventListener", lit "addEventListener", true)])]

/-- The members of a global object, as native functions. -/
def memberNatives (self : Heap.Value) (members : List (Bytes × Bytes × Bool)) :
    List (Bytes × Native) :=
  members.map fun (key, native, capturing) => (key, ⟨native, if capturing then [self] else []⟩)

namespace State

/-- A global object: its native function, if it is one, and its members. -/
def defineGlobal (name : Bytes) (function : Option Bytes) (members : List (Bytes × Bytes × Bool))
    (s : State) : State :=
  let made := s.allocate {
    contents := {
      isArray := false
      isFunction := function.isSome
      one_kind := fun h => nomatch h }
    callee := function.map fun name => .native ⟨name, []⟩ }
  (made.2.putNatives made.1 (memberNatives made.1 members)).declare 0 name made.1

end State

/-- `setup_globals` -/
def setupGlobals : State :=
  let s : State := globalMembers.foldl (fun s g => State.defineGlobal g.1 g.2.1 g.2.2 s) {}
  let constructor := (s.find 0 (lit "Object")).getD .undefined
  let s := s.putProperty constructor (lit "prototype") (.object (some objectPrototype))
  s.putProperty ((s.find 0 (lit "Math")).getD .undefined) (lit "PI")
    (.number (.finite (3141592653589793 / 10 ^ 15)))

/-- `build_handles`, over the elements of a page: the `id` and the text of each.  The last element
with an `id` is the one that is found. -/
def buildHandles : List (Option Bytes × Bytes) → List (Bytes × Heap.Value) → State →
    List (Bytes × Heap.Value) × State
  | [], handles, s => (handles, s)
  | (id, text) :: elements, handles, s =>
    let made := s.handleFor id text
    buildHandles elements ((id.map fun id => (id, made.1)).toList ++ handles) made.2

/-! ## Scripts and events -/

/-- What the page's host asks of the interpreter. -/
inductive Task
  /-- `run` of a source text: its program, or the text of the error. -/
  | script (program : Except Bytes Syntax.Node)
  /-- `dispatch_event` -/
  | event (type : Bytes)
  /-- `dispatch_event_to` -/
  | eventTo (target : ObjectId) (type : Bytes)

section

variable (host : Host History) (fuel : ℕ)

/-- The loop over the handlers, of which there were `left` more when it began: an element is looked
up when its turn comes. -/
def handlerLoop (array target : Heap.Value) : ℕ → ℕ → Run Stop History Unit
  | 0, _ => return ()
  | left + 1, i => do
    match ((← get).current.elementsOf array)[i]? with
    | none => return ()
    | some handler => do
      let _ ← call host fuel handler [] target
      handlerLoop array target left (i + 1)

/-- `dispatch_event_to` -/
def dispatchEventTo (target : Heap.Value) (type : Bytes) : Run Stop History Unit := do
  match ((← get).current.object target).bind fun object =>
      object.contents.properties.lookup (lit "on" ++ type) with
  | some handler => do
    let _ ← call host fuel handler [] target
  | none => pure ()
  let s := (← get).current
  let handlers := s.property target (lit "__handlers_" ++ type)
  if ((s.object handlers).map fun object => object.contents.isArray).getD false then
    handlerLoop host fuel handlers target (s.elementsOf handlers).length 0
  else return ()

/-- `dispatch_event`: the document first, then the window. -/
def dispatchEvent (window document : Heap.Value) (type : Bytes) : Run Stop History Unit := do
  dispatchEventTo host fuel document type
  dispatchEventTo host fuel window type
  host.drainMicrotasks (call host fuel)

/-- `run`, from the beginning. -/
def runScript (program : Except Bytes Syntax.Node) : Run Stop History Unit := do
  modify (History.update fun s => { s with hasError := false, errorText := [] })
  match program with
  | .error message => modify (host.error (lit "parse error: " ++ message))
  | .ok program => do
    let _ ← run host fuel program

/-- A script or an event. -/
def runTask (window document : Heap.Value) : Task → Run Stop History Unit
  | .script program => runScript host fuel program
  | .event type => dispatchEvent host fuel window document type
  | .eventTo target type => dispatchEventTo host fuel (.object (some target)) type

end

/-- The interpreter before the first script, and the handles of the elements. -/
def initial (elements : List (Option Bytes × Bytes)) : List (Bytes × Heap.Value) × State :=
  buildHandles elements [] setupGlobals

/-- A page: scripts and events, one after the other. -/
def runTasks (P : Primitives) (rounds fuel : ℕ) (elements : List (Option Bytes × Bytes))
    (tasks : List Task) : Except Stop PUnit × History :=
  let start := initial elements
  let host := machine (pageBuiltins P rounds start.1)
  let global := fun name => (setupGlobals.find 0 name).getD .undefined
  (tasks.forM (runTask host fuel (global (lit "window")) (global (lit "document")))).from
    { current := start.2 }

end Aetheris.Js.Script
