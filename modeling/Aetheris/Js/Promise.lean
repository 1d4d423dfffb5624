import Mathlib

/-!
# Promises and microtasks

The promises of `js.cpp`.  What a script does in between is left open: it may call any function that
it has got hold of, in any order, and a function it has written may do the same and return anything.
So a run of the interpreter is a list of events, and `step` says which event is possible and what it
does to the promises, the queue and the stack of unfinished calls.
-/

namespace Aetheris.Js

/-- A promise, named by its place in the order of creation. -/
abbrev PromiseId := ℕ

/-- `PromiseData::Status`. -/
inductive Status
  | pending
  | fulfilled
  | rejected
  deriving DecidableEq, Repr

/-- `Value`, as far as promises tell values apart.  Both native kinds of function settle a promise
with their first argument and return `undefined`. -/
inductive Value
  /-- What is neither a promise nor a function; `undefined` is one of them. -/
  | data (n : ℕ)
  | promise (p : PromiseId)
  /-- A function that the script has written, or a native one that settles nothing itself. -/
  | script (f : ℕ)
  /-- A function that `new Promise` hands to its argument. -/
  | resolver (p : PromiseId) (rejected : Bool)
  /-- A function that `run_promise_handler` makes for a promise that a handler has returned. -/
  | link (derived : PromiseId) (rejected : Bool)
  deriving DecidableEq, Repr

namespace Value

/-- `Value::undefined`. -/
def undefined : Value := data 0

/-- `handler.object->is_function`. -/
def isFunction : Value → Bool
  | script _ => true
  | resolver _ _ => true
  | link _ _ => true
  | _ => false

end Value

/-- `PromiseData`. -/
structure PromiseData where
  status : Status := .pending
  value : Value := .undefined
  /-- `(on_fulfilled, on_rejected)`. -/
  handlers : List (Value × Value) := []
  deriving DecidableEq, Repr

/-- A microtask: all of them call `run_promise_handler`, with these arguments. -/
structure Task where
  derived : PromiseId
  handler : Value
  rejected : Bool
  value : Value
  deriving DecidableEq, Repr

/-- A call that has not come back: `drain_microtasks` with its counter, or `run_promise_handler`
in the call of its handler. -/
inductive Frame
  | drain (guard : ℕ)
  | handler (derived : PromiseId)
  deriving DecidableEq, Repr

/-- `Interpreter`. -/
structure Interpreter where
  promises : List PromiseData := []
  microtasks : List Task := []
  /-- The unfinished calls, the innermost first. -/
  stack : List Frame := []
  /-- The promises whose `resolve` and `reject` a script has been given. -/
  resolvers : List PromiseId := []
  deriving DecidableEq, Repr

/-- The status in which a promise is settled. -/
def settledStatus (rejected : Bool) : Status := if rejected then .rejected else .fulfilled

namespace Interpreter

/-- `promise->promise`. -/
def promise (s : Interpreter) (p : PromiseId) : PromiseData := s.promises.getD p {}

/-- A write through `promise->promise`. -/
def setPromise (s : Interpreter) (p : PromiseId) (data : PromiseData) : Interpreter :=
  { s with promises := s.promises.set p data }

/-- `make_promise`: the promise is the one after all that there are. -/
def makePromise (s : Interpreter) : Interpreter := { s with promises := s.promises ++ [{}] }

/-- `schedule_microtask`. -/
def scheduleMicrotask (s : Interpreter) (task : Task) : Interpreter :=
  { s with microtasks := s.microtasks ++ [task] }

/-- `promise->promise->handlers.emplace_back`. -/
def addHandler (s : Interpreter) (p : PromiseId) (onFulfilled onRejected : Value) : Interpreter :=
  s.setPromise p
    { s.promise p with handlers := (s.promise p).handlers ++ [(onFulfilled, onRejected)] }

/-- The microtask that `settle_promise` makes of a handler: its promise is the one settled. -/
def settledTask (p : PromiseId) (rejected : Bool) (value : Value) (handlers : Value × Value) :
    Task :=
  { derived := p, handler := if rejected then handlers.2 else handlers.1, rejected := rejected,
    value := value }

/-- `settle_promise`. -/
def settlePromise (s : Interpreter) (p : PromiseId) (rejected : Bool) (value : Value) :
    Interpreter :=
  if (s.promise p).status = .pending then
    let t := s.setPromise p { status := settledStatus rejected, value := value, handlers := [] }
    { t with
      microtasks := t.microtasks ++ (s.promise p).handlers.map (settledTask p rejected value) }
  else s

/-- The second half of `run_promise_handler`, from where the handler has returned. -/
def finishHandler (s : Interpreter) (derived : PromiseId) (result : Value) : Interpreter :=
  match result with
  | .promise returned =>
    if (s.promise returned).status = .pending then
      s.addHandler returned (.link derived false) (.link derived true)
    else
      s.settlePromise derived ((s.promise returned).status == .rejected) (s.promise returned).value
  | _ => s.settlePromise derived false result

/-- `run_promise_handler`.  A native handler comes back at once; the call of another one is on
the stack until it returns. -/
def runPromiseHandler (s : Interpreter) (task : Task) : Interpreter :=
  match task.handler with
  | .script _ => { s with stack := .handler task.derived :: s.stack }
  | .resolver p rejected | .link p rejected =>
    (s.settlePromise p rejected task.value).finishHandler task.derived .undefined
  | _ => s.settlePromise task.derived task.rejected task.value

/-- The function `then` of a promise; what it returns is the promise after all there are. -/
def promiseThen (s : Interpreter) (self : PromiseId) (onFulfilled onRejected : Value) :
    Interpreter :=
  let derived := s.promises.length
  let t := s.makePromise
  if (t.promise self).status = .pending then t.addHandler self onFulfilled onRejected
  else
    let rejected := (t.promise self).status == .rejected
    t.scheduleMicrotask
      { derived := derived, handler := if rejected then onRejected else onFulfilled,
        rejected := rejected, value := (t.promise self).value }

/-- The function `catch` of a promise; what it returns is the promise after all there are. -/
def promiseCatch (s : Interpreter) (self : PromiseId) (onRejected : Value) : Interpreter :=
  let derived := s.promises.length
  let t := s.makePromise
  if (t.promise self).status = .pending then t.addHandler self .undefined onRejected
  else if (t.promise self).status = .rejected then
    t.scheduleMicrotask
      { derived := derived, handler := onRejected, rejected := true,
        value := (t.promise self).value }
  else t.settlePromise derived false (t.promise self).value

/-- A value that a script can have got hold of. -/
def knows (s : Interpreter) : Value → Bool
  | .data _ => true
  | .script _ => true
  | .promise p => p < s.promises.length
  | .resolver p _ => s.resolvers.contains p
  | .link _ _ => false

/-- A script is running, and not the loop of `drain_microtasks`. -/
def inScript (s : Interpreter) : Bool :=
  match s.stack with
  | .drain _ :: _ => false
  | _ => true

/-! ## What the functions write -/

section

variable (s : Interpreter) (p q : PromiseId)

theorem promise_setPromise (data : PromiseData) :
    (s.setPromise p data).promise q =
      if q = p ∧ p < s.promises.length then data else s.promise q := by
  unfold promise setPromise
  rw [List.getD_eq_getElem?_getD, List.getD_eq_getElem?_getD, List.getElem?_set]
  by_cases hq : p = q
  · subst hq
    by_cases hp : p < s.promises.length
    · simp [hp]
    · simp [hp]
  · simp [hq, Ne.symm hq]

@[simp] theorem length_setPromise (data : PromiseData) :
    (s.setPromise p data).promises.length = s.promises.length := by
  simp [setPromise]

/-- A new promise is what a missing one is taken for. -/
@[simp] theorem promise_makePromise : s.makePromise.promise p = s.promise p := by
  unfold promise makePromise
  rw [List.getD_eq_getElem?_getD, List.getD_eq_getElem?_getD]
  rcases Nat.lt_trichotomy p s.promises.length with hp | hp | hp
  · rw [List.getElem?_append_left hp]
  · subst hp
    simp
  · rw [List.getElem?_eq_none (by simp; omega), List.getElem?_eq_none (by omega)]

@[simp] theorem length_makePromise :
    s.makePromise.promises.length = s.promises.length + 1 := by
  simp [makePromise]

theorem promise_of_length_le (h : s.promises.length ≤ p) : s.promise p = {} := by
  unfold promise
  rw [List.getD_eq_getElem?_getD, List.getElem?_eq_none h]
  rfl

theorem settlePromise_of_settled (h : (s.promise p).status ≠ .pending) (rejected : Bool)
    (value : Value) : s.settlePromise p rejected value = s :=
  if_neg h

/-- `settle_promise` returns at once if there is no promise. -/
theorem settlePromise_of_length_le (h : s.promises.length ≤ p) (rejected : Bool) (value : Value) :
    s.settlePromise p rejected value = s := by
  rw [settlePromise]
  split
  · simp [setPromise, promise_of_length_le s p h, List.set_eq_of_length_le h]
  · rfl

end

end Interpreter

/-- What can happen next. -/
inductive Event
  /-- `new Promise(f)`; `executor` says whether `f` is a function. -/
  | construct (executor : Bool)
  /-- A promise made and settled at once: `Promise.resolve` of a value that is not a promise,
  `Promise.reject`, `Promise.all`, and the result of an `async` function. -/
  | settled (rejected : Bool) (value : Value)
  /-- The script calls `then`. -/
  | callThen (self : PromiseId) (onFulfilled onRejected : Value)
  /-- The script calls `catch`. -/
  | callCatch (self : PromiseId) (onRejected : Value)
  /-- The script calls a function that it was given by `new Promise`. -/
  | callResolver (p : PromiseId) (rejected : Bool) (value : Value)
  /-- `drain_microtasks` is called: by `await`, at the end of a script, after a host event. -/
  | drain
  /-- One round of its loop. -/
  | runTask
  /-- Its loop ends. -/
  | finishDrain
  /-- A handler that the script has written returns. -/
  | returned (value : Value)
  deriving DecidableEq, Repr

/-- How often the loop of `drain_microtasks` goes round at most. -/
def drainLimit : ℕ := 1000000

/-- What an event does; `none` where it cannot happen. -/
def step (s : Interpreter) : Event → Option Interpreter
  | .construct executor =>
    if s.inScript then
      let derived := s.promises.length
      let t := s.makePromise
      some (if executor then { t with resolvers := t.resolvers ++ [derived] } else t)
    else none
  | .settled rejected value =>
    if s.inScript && s.knows value then
      some (s.makePromise.settlePromise s.promises.length rejected value)
    else none
  | .callThen self onFulfilled onRejected =>
    if s.inScript && s.knows (.promise self) && s.knows onFulfilled && s.knows onRejected then
      some (s.promiseThen self onFulfilled onRejected)
    else none
  | .callCatch self onRejected =>
    if s.inScript && s.knows (.promise self) && s.knows onRejected then
      some (s.promiseCatch self onRejected)
    else none
  | .callResolver p rejected value =>
    if s.inScript && s.knows (.resolver p rejected) && s.knows value then
      some (s.settlePromise p rejected value)
    else none
  | .drain => if s.inScript then some { s with stack := .drain 0 :: s.stack } else none
  | .runTask =>
    match s.stack, s.microtasks with
    | .drain guard :: stack, task :: microtasks =>
      if guard < drainLimit then
        some (Interpreter.runPromiseHandler
          { s with stack := .drain (guard + 1) :: stack, microtasks := microtasks } task)
      else none
    | _, _ => none
  | .finishDrain =>
    match s.stack with
    | .drain guard :: stack =>
      if guard < drainLimit ∧ s.microtasks ≠ [] then none else some { s with stack := stack }
    | _ => none
  | .returned value =>
    match s.stack with
    | .handler derived :: stack =>
      if s.knows value then some (Interpreter.finishHandler { s with stack := stack } derived value)
      else none
    | _ => none

end Aetheris.Js
