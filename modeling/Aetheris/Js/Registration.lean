import Aetheris.Js.Promise
import Aetheris.Library.Runs

/-!
# What a chained promise is to become

An observer beside the interpreter, which writes down every call of `then` and `catch` and what the
handler returns that is run for the promise so made.  It reads the interpreter and never changes it.
What chaining promises is said of its notes.
-/

namespace Aetheris.Js

/-- A call of `then` or `catch`. -/
structure Registration where
  source : PromiseId
  onFulfilled : Value
  onRejected : Value
  /-- Whether the source was rejected, and with which value, if it was settled at the call. -/
  settledAs : Option (Bool × Value)
  /-- What the handler returned that was run for the promise of this call. -/
  returned : Option Value := none
  deriving DecidableEq, Repr

/-- The handler for an outcome. -/
def Registration.handlerFor (r : Registration) (rejected : Bool) : Value :=
  if rejected then r.onRejected else r.onFulfilled

/-- The calls seen so far, by the promise that each of them returned. -/
abbrev Observer := PromiseId → Option Registration

namespace Observer

/-- One more call, in the state before it. -/
def register (o : Observer) (s : Interpreter) (self : PromiseId) (onFulfilled onRejected : Value) :
    Observer :=
  Function.update o s.promises.length
    (some
      { source := self, onFulfilled := onFulfilled, onRejected := onRejected,
        settledAs :=
          if (s.promise self).status = .pending then none
          else some ((s.promise self).status == .rejected, (s.promise self).value) })

/-- A handler run for a promise returns.  It is the promise's own handler as long as the promise
is pending; what runs for a settled promise are the handlers registered with it. -/
def recordReturn (o : Observer) (s : Interpreter) (derived : PromiseId) (result : Value) :
    Observer :=
  if (s.promise derived).status = .pending then
    Function.update o derived ((o derived).map fun r => { r with returned := some result })
  else o

end Observer

/-- What the observer writes down of an event, in the state before it. -/
def observe (s : Interpreter) (o : Observer) : Event → Observer
  | .callThen self onFulfilled onRejected => o.register s self onFulfilled onRejected
  | .callCatch self onRejected => o.register s self .undefined onRejected
  | .runTask =>
    match s.microtasks with
    | { derived := derived, handler := .resolver _ _, .. } :: _ =>
      o.recordReturn s derived .undefined
    | { derived := derived, handler := .link _ _, .. } :: _ => o.recordReturn s derived .undefined
    | _ => o
  | .returned value =>
    match s.stack with
    | .handler derived :: _ => o.recordReturn s derived value
    | _ => o
  | _ => o

/-- The interpreter and its observer. -/
structure Observed where
  interpreter : Interpreter := {}
  observer : Observer := fun _ => none

/-- A step of the interpreter, watched. -/
def observedStep (w : Observed) (e : Event) : Option Observed :=
  (step w.interpreter e).map fun s =>
    { interpreter := s, observer := observe w.interpreter w.observer e }

/-- **What chaining promises** of the promise `d` that a call has returned, once the source of
the call is settled: it has what the handler for that outcome returned, which is the outcome of
a returned promise as soon as there is one; without a handler it has the outcome of the source. -/
def Delivered (s : Interpreter) (d : PromiseId) (r : Registration) : Prop :=
  if (r.handlerFor ((s.promise r.source).status == .rejected)).isFunction then
    ∃ result, r.returned = some result ∧
      match result with
      | .promise q =>
        (s.promise q).status ≠ .pending →
          (s.promise d).status = (s.promise q).status ∧ (s.promise d).value = (s.promise q).value
      | _ => (s.promise d).status = .fulfilled ∧ (s.promise d).value = result
  else
    (s.promise d).status = (s.promise r.source).status ∧
      (s.promise d).value = (s.promise r.source).value

/-- The queue is empty and no microtask is still running. -/
def Drained (s : Interpreter) : Prop :=
  s.microtasks = [] ∧ ∀ d, Frame.handler d ∉ s.stack

end Aetheris.Js
