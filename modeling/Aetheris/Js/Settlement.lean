import Aetheris.Js.Chaining

/-!
# The life of a promise

A promise is settled once.  Until then the pairs of handlers given to it are kept in its list of
handlers; then all of them become microtasks, and from then on there are none.  Microtasks are
started in the order in which they were scheduled.

What happens to handlers and microtasks is written down in a log, which no function reads.  The log
of a step says how the promises and the queue before and after belong to each other, and the logs of
a run follow each other.
-/

namespace Aetheris.Js

/-! ## The log -/

/-- What is written down. -/
inductive Note
  /-- A pair of handlers is added to those of a pending promise. -/
  | register (p : PromiseId) (handlers : Value × Value)
  /-- A microtask goes to the end of the queue; `origin` is the promise of whose handlers
  `settle_promise` has made it. -/
  | schedule (origin : Option PromiseId) (task : Task)
  /-- `drain_microtasks` takes a microtask from the front of the queue and calls it. -/
  | start (task : Task)
  deriving DecidableEq, Repr

/-- The pairs of handlers registered on a promise, in order. -/
def registeredOn (p : PromiseId) (log : List Note) : List (Value × Value) :=
  log.filterMap fun
    | .register q handlers => if q = p then some handlers else none
    | _ => none

/-- The microtasks made of the handlers of a promise, in order. -/
def scheduledFor (p : PromiseId) (log : List Note) : List Task :=
  log.filterMap fun
    | .schedule origin task => if origin = some p then some task else none
    | _ => none

/-- All microtasks, in the order in which they were scheduled. -/
def scheduled (log : List Note) : List Task :=
  log.filterMap fun
    | .schedule _ task => some task
    | _ => none

/-- All microtasks that have been started, in order. -/
def started (log : List Note) : List Task :=
  log.filterMap fun
    | .start task => some task
    | _ => none

section Append

variable (p : PromiseId) (log rest : List Note)

@[simp] theorem registeredOn_append :
    registeredOn p (log ++ rest) = registeredOn p log ++ registeredOn p rest :=
  List.filterMap_append

@[simp] theorem scheduledFor_append :
    scheduledFor p (log ++ rest) = scheduledFor p log ++ scheduledFor p rest :=
  List.filterMap_append

@[simp] theorem scheduled_append : scheduled (log ++ rest) = scheduled log ++ scheduled rest :=
  List.filterMap_append

@[simp] theorem started_append : started (log ++ rest) = started log ++ started rest :=
  List.filterMap_append

end Append

namespace Interpreter

variable (s : Interpreter)

/-- The log of `settle_promise`. -/
def settleNotes (p : PromiseId) (rejected : Bool) (value : Value) : List Note :=
  if (s.promise p).status = .pending then
    ((s.promise p).handlers.map (settledTask p rejected value)).map (.schedule (some p))
  else []

/-- The log of the second half of `run_promise_handler`. -/
def finishNotes (derived : PromiseId) (result : Value) : List Note :=
  match result with
  | .promise returned =>
    if (s.promise returned).status = .pending then
      [.register returned (.link derived false, .link derived true)]
    else
      s.settleNotes derived ((s.promise returned).status == .rejected) (s.promise returned).value
  | _ => s.settleNotes derived false result

/-- The log of `run_promise_handler`. -/
def runNotes (task : Task) : List Note :=
  match task.handler with
  | .script _ => []
  | .resolver p rejected | .link p rejected =>
    s.settleNotes p rejected task.value ++
      (s.settlePromise p rejected task.value).finishNotes task.derived .undefined
  | _ => s.settleNotes task.derived task.rejected task.value

/-- The log of `then`. -/
def thenNotes (self : PromiseId) (onFulfilled onRejected : Value) : List Note :=
  let t := s.makePromise
  if (t.promise self).status = .pending then [.register self (onFulfilled, onRejected)]
  else
    let rejected := (t.promise self).status == .rejected
    [.schedule none
      { derived := s.promises.length, handler := if rejected then onRejected else onFulfilled,
        rejected := rejected, value := (t.promise self).value }]

/-- The log of `catch`. -/
def catchNotes (self : PromiseId) (onRejected : Value) : List Note :=
  let t := s.makePromise
  if (t.promise self).status = .pending then [.register self (.undefined, onRejected)]
  else if (t.promise self).status = .rejected then
    [.schedule none
      { derived := s.promises.length, handler := onRejected, rejected := true,
        value := (t.promise self).value }]
  else t.settleNotes s.promises.length false (t.promise self).value

end Interpreter

/-- The log of an event. -/
def notes (s : Interpreter) : Event → List Note
  | .construct _ => []
  | .settled rejected value => s.makePromise.settleNotes s.promises.length rejected value
  | .callThen self onFulfilled onRejected => s.thenNotes self onFulfilled onRejected
  | .callCatch self onRejected => s.catchNotes self onRejected
  | .callResolver p rejected value => s.settleNotes p rejected value
  | .drain => []
  | .runTask =>
    match s.stack, s.microtasks with
    | .drain guard :: stack, task :: microtasks =>
      .start task :: Interpreter.runNotes
        { s with stack := .drain (guard + 1) :: stack, microtasks := microtasks } task
    | _, _ => []
  | .finishDrain => []
  | .returned value =>
    match s.stack with
    | .handler derived :: _ => s.finishNotes derived value
    | _ => []

/-- The log of a run. -/
def history : Interpreter → List Event → List Note
  | _, [] => []
  | s, e :: es =>
    match step s e with
    | some t => notes s e ++ history t es
    | none => []

/-! ## How states belong to a log -/

/-- What has happened between two states to the promises and the queue is what the log says. -/
structure Noted (s : Interpreter) (log : List Note) (t : Interpreter) : Prop where
  /-- What was in the queue or came into it has been started or is still in it, in order. -/
  queue : s.microtasks ++ scheduled log = started log ++ t.microtasks
  /-- A settled promise stays what it is, and has nothing to do with the log. -/
  settled : ∀ p, (s.promise p).status ≠ .pending →
    t.promise p = s.promise p ∧ registeredOn p log = [] ∧ scheduledFor p log = []
  /-- A promise that stays pending keeps its handlers and those registered. -/
  pending : ∀ p, (t.promise p).status = .pending →
    (s.promise p).status = .pending ∧
      (t.promise p).handlers = (s.promise p).handlers ++ registeredOn p log ∧
      scheduledFor p log = []
  /-- A promise that is settled schedules all handlers that it has had. -/
  settles : ∀ p, (s.promise p).status = .pending → (t.promise p).status ≠ .pending →
    ∃ rejected value,
      t.promise p = { status := settledStatus rejected, value := value, handlers := [] } ∧
        scheduledFor p log = ((s.promise p).handlers ++ registeredOn p log).map
          (Interpreter.settledTask p rejected value)

namespace Noted

variable {s t u : Interpreter} {log rest : List Note}

theorem trans (h : Noted s log t) (k : Noted t rest u) : Noted s (log ++ rest) u where
  queue := by
    rw [scheduled_append, started_append, ← List.append_assoc, h.queue, List.append_assoc,
      k.queue, List.append_assoc]
  settled p hp := by
    obtain ⟨ht, hregistered, hscheduled⟩ := h.settled p hp
    obtain ⟨hu, kregistered, kscheduled⟩ := k.settled p (by rwa [ht])
    rw [registeredOn_append, scheduledFor_append, hregistered, hscheduled]
    exact ⟨hu.trans ht, kregistered, kscheduled⟩
  pending p hp := by
    obtain ⟨ht, khandlers, kscheduled⟩ := k.pending p hp
    obtain ⟨hs, hhandlers, hscheduled⟩ := h.pending p ht
    rw [registeredOn_append, scheduledFor_append, khandlers, hhandlers, hscheduled, kscheduled,
      List.append_assoc]
    exact ⟨hs, rfl, rfl⟩
  settles p hp hu := by
    rw [registeredOn_append, scheduledFor_append]
    by_cases ht : (t.promise p).status = .pending
    · -- The second part settles it, with what the first has registered.
      obtain ⟨-, hhandlers, hscheduled⟩ := h.pending p ht
      obtain ⟨rejected, value, hpromise, kscheduled⟩ := k.settles p ht hu
      refine ⟨rejected, value, hpromise, ?_⟩
      rw [hscheduled, kscheduled, hhandlers, List.nil_append, List.append_assoc]
    · -- The first part settles it, and the second leaves it alone.
      obtain ⟨rejected, value, hpromise, hscheduled⟩ := h.settles p hp ht
      obtain ⟨hsame, kregistered, kscheduled⟩ := k.settled p ht
      refine ⟨rejected, value, hsame.trans hpromise, ?_⟩
      rw [kscheduled, kregistered, hscheduled, List.append_nil, List.append_nil]

/-- What leaves the promises and the queue as they are. -/
theorem of_eq (hpromises : ∀ p, t.promise p = s.promise p) (hqueue : t.microtasks = s.microtasks) :
    Noted s [] t where
  queue := by
    rw [hqueue]
    exact List.append_nil _
  settled p _ := ⟨hpromises p, rfl, rfl⟩
  pending p hp := by
    rw [hpromises p] at hp ⊢
    exact ⟨hp, (List.append_nil _).symm, rfl⟩
  settles p hp ht := absurd ((congrArg PromiseData.status (hpromises p)).trans hp) ht

/-- What only writes to the queue. -/
theorem of_queue (hpromises : ∀ p, t.promise p = s.promise p)
    (hregistered : ∀ p, registeredOn p log = []) (hscheduled : ∀ p, scheduledFor p log = [])
    (hqueue : s.microtasks ++ scheduled log = started log ++ t.microtasks) : Noted s log t where
  queue := hqueue
  settled p _ := ⟨hpromises p, hregistered p, hscheduled p⟩
  pending p hp := by
    rw [hpromises p] at hp ⊢
    rw [hregistered p, List.append_nil]
    exact ⟨hp, rfl, hscheduled p⟩
  settles p hp ht := absurd ((congrArg PromiseData.status (hpromises p)).trans hp) ht

/-- The promises and the queue are all that matters of the states. -/
theorem congr {s' t' : Interpreter} (h : Noted s log t) (hs : s'.promises = s.promises)
    (hsqueue : s'.microtasks = s.microtasks) (ht : t'.promises = t.promises)
    (htqueue : t'.microtasks = t.microtasks) : Noted s' log t' := by
  have hsame : ∀ p, s'.promise p = s.promise p := fun p => by
    rw [Interpreter.promise, Interpreter.promise, hs]
  have hsame' : ∀ p, t'.promise p = t.promise p := fun p => by
    rw [Interpreter.promise, Interpreter.promise, ht]
  constructor
  · rw [hsqueue, htqueue]
    exact h.queue
  · intro p
    rw [hsame, hsame']
    exact h.settled p
  · intro p
    rw [hsame, hsame']
    exact h.pending p
  · intro p
    rw [hsame, hsame']
    exact h.settles p

end Noted

/-! ## What the functions do is what the log says -/

section Functions

variable (s : Interpreter)

theorem noted_makePromise : Noted s [] s.makePromise :=
  Noted.of_eq s.promise_makePromise rfl

theorem noted_scheduleMicrotask (task : Task) :
    Noted s [.schedule none task] (s.scheduleMicrotask task) :=
  Noted.of_queue (fun _ => rfl) (fun _ => rfl) (fun _ => rfl) rfl

theorem noted_start (task : Task) (microtasks : List Task) (h : s.microtasks = task :: microtasks) :
    Noted s [.start task] { s with microtasks := microtasks } := by
  refine Noted.of_queue (fun _ => rfl) (fun _ => rfl) (fun _ => rfl) ?_
  rw [h]
  exact List.append_nil _

theorem noted_addHandler {p : PromiseId} (hp : p < s.promises.length)
    (hpending : (s.promise p).status = .pending) (onFulfilled onRejected : Value) :
    Noted s [.register p (onFulfilled, onRejected)] (s.addHandler p onFulfilled onRejected) := by
  have hset : ∀ q, (s.addHandler p onFulfilled onRejected).promise q = if q = p then
      { s.promise p with handlers := (s.promise p).handlers ++ [(onFulfilled, onRejected)] }
      else s.promise q := fun q => by
    have h := s.promise_setPromise p q
      { s.promise p with handlers := (s.promise p).handlers ++ [(onFulfilled, onRejected)] }
    simp only [hp, and_true] at h
    exact h
  have hstatus : ∀ q, ((s.addHandler p onFulfilled onRejected).promise q).status =
      (s.promise q).status := fun q => by
    rw [hset q]
    split
    next h => rw [h]
    next => rfl
  have hother : ∀ q, q ≠ p → registeredOn q [.register p (onFulfilled, onRejected)] = [] :=
    fun q hq => by simp [registeredOn, Ne.symm hq]
  constructor
  · exact List.append_nil _
  · intro q hq
    have hne : q ≠ p := fun h => hq (h ▸ hpending)
    rw [hset q, if_neg hne]
    exact ⟨rfl, hother q hne, rfl⟩
  · intro q hq
    rw [hstatus q] at hq
    refine ⟨hq, ?_, rfl⟩
    rw [hset q]
    by_cases hne : q = p
    · subst hne
      rw [if_pos rfl]
      simp [registeredOn]
    · rw [if_neg hne, hother q hne, List.append_nil]
  · intro q hq ht
    rw [hstatus q] at ht
    exact absurd hq ht

theorem registeredOn_schedule (q : PromiseId) (origin : Option PromiseId) (tasks : List Task) :
    registeredOn q (tasks.map (.schedule origin)) = [] := by
  rw [registeredOn, List.filterMap_map]
  exact List.filterMap_eq_nil_iff.mpr fun _ _ => rfl

theorem scheduledFor_schedule (q : PromiseId) (origin : Option PromiseId) (tasks : List Task) :
    scheduledFor q (tasks.map (.schedule origin)) = if origin = some q then tasks else [] := by
  rw [scheduledFor, List.filterMap_map]
  split
  next h =>
    rw [show (_ ∘ Note.schedule origin) = fun task => some task by
      ext1 task
      simp [h]]
    exact List.filterMap_some
  next h => exact List.filterMap_eq_nil_iff.mpr fun task _ => by simp [h]

theorem scheduled_schedule (origin : Option PromiseId) (tasks : List Task) :
    scheduled (tasks.map (.schedule origin)) = tasks := by
  rw [scheduled, List.filterMap_map]
  exact List.filterMap_some

theorem started_schedule (origin : Option PromiseId) (tasks : List Task) :
    started (tasks.map (.schedule origin)) = [] := by
  rw [started, List.filterMap_map]
  exact List.filterMap_eq_nil_iff.mpr fun _ _ => rfl

theorem noted_settlePromise (p : PromiseId) (rejected : Bool) (value : Value) :
    Noted s (s.settleNotes p rejected value) (s.settlePromise p rejected value) := by
  unfold Interpreter.settleNotes
  by_cases hpending : (s.promise p).status = .pending
  · by_cases hp : p < s.promises.length
    · rw [if_pos hpending]
      have hset := promise_settlePromise rejected value hp hpending
      constructor
      · rw [scheduled_schedule, started_schedule, Interpreter.settlePromise, if_pos hpending]
        rfl
      · intro q hq
        have hne : q ≠ p := fun h => hq (h ▸ hpending)
        rw [hset q, if_neg hne, registeredOn_schedule, scheduledFor_schedule,
          if_neg fun h => hne (Option.some.inj h).symm]
        exact ⟨rfl, rfl, rfl⟩
      · intro q hq
        have hne : q ≠ p := fun h => by
          rw [hset q, if_pos h] at hq
          exact settledStatus_ne rejected hq
        rw [hset q, if_neg hne] at hq ⊢
        rw [registeredOn_schedule, scheduledFor_schedule,
          if_neg fun h => hne (Option.some.inj h).symm, List.append_nil]
        exact ⟨hq, rfl, rfl⟩
      · intro q hq ht
        have heq : q = p := by
          by_contra hne
          rw [hset q, if_neg hne] at ht
          exact ht hq
        subst heq
        rw [hset q, if_pos rfl, registeredOn_schedule, scheduledFor_schedule, if_pos rfl,
          List.append_nil]
        exact ⟨rejected, value, rfl, rfl⟩
    · -- There is no such promise, and a missing one has no handlers.
      have hle := Nat.not_lt.mp hp
      rw [s.settlePromise_of_length_le p hle, if_pos hpending, s.promise_of_length_le p hle]
      exact Noted.of_eq (fun _ => rfl) rfl
  · rw [s.settlePromise_of_settled p hpending, if_neg hpending]
    exact Noted.of_eq (fun _ => rfl) rfl

theorem noted_finishHandler (derived : PromiseId) {result : Value} (h : s.knows result = true) :
    Noted s (s.finishNotes derived result) (s.finishHandler derived result) := by
  unfold Interpreter.finishNotes Interpreter.finishHandler
  cases result with
  | promise returned =>
    dsimp only
    split
    next hpending => exact noted_addHandler s (of_decide_eq_true h) hpending _ _
    next => exact noted_settlePromise s _ _ _
  | data n => exact noted_settlePromise s derived false (.data n)
  | script f => exact noted_settlePromise s derived false (.script f)
  | resolver p rejected => exact noted_settlePromise s derived false (.resolver p rejected)
  | link d rejected => exact noted_settlePromise s derived false (.link d rejected)

theorem noted_runPromiseHandler (task : Task) :
    Noted s (s.runNotes task) (s.runPromiseHandler task) := by
  unfold Interpreter.runNotes Interpreter.runPromiseHandler
  cases task.handler with
  | script f => exact Noted.of_eq (fun _ => rfl) rfl
  | resolver p rejected =>
    exact (noted_settlePromise s p rejected task.value).trans
      (noted_finishHandler _ task.derived rfl)
  | link d rejected =>
    exact (noted_settlePromise s d rejected task.value).trans
      (noted_finishHandler _ task.derived rfl)
  | data n => exact noted_settlePromise s task.derived task.rejected task.value
  | promise p => exact noted_settlePromise s task.derived task.rejected task.value

theorem noted_promiseThen {self : PromiseId} (h : self < s.promises.length)
    (onFulfilled onRejected : Value) :
    Noted s (s.thenNotes self onFulfilled onRejected)
      (s.promiseThen self onFulfilled onRejected) := by
  have hlength : self < s.makePromise.promises.length := by
    rw [s.length_makePromise]
    exact Nat.lt_succ_of_lt h
  unfold Interpreter.thenNotes Interpreter.promiseThen
  dsimp only
  split
  next hpending => exact (noted_makePromise s).trans (noted_addHandler _ hlength hpending _ _)
  next => exact (noted_makePromise s).trans (noted_scheduleMicrotask _ _)

theorem noted_promiseCatch {self : PromiseId} (h : self < s.promises.length)
    (onRejected : Value) :
    Noted s (s.catchNotes self onRejected) (s.promiseCatch self onRejected) := by
  have hlength : self < s.makePromise.promises.length := by
    rw [s.length_makePromise]
    exact Nat.lt_succ_of_lt h
  unfold Interpreter.catchNotes Interpreter.promiseCatch
  dsimp only
  split
  next hpending => exact (noted_makePromise s).trans (noted_addHandler _ hlength hpending _ _)
  next =>
    split
    next => exact (noted_makePromise s).trans (noted_scheduleMicrotask _ _)
    next => exact (noted_makePromise s).trans (noted_settlePromise _ _ _ _)

end Functions

/-! ## Steps and runs -/

/-- **A step is noted.** -/
theorem step_noted {s t : Interpreter} {e : Event} (h : step s e = some t) :
    Noted s (notes s e) t := by
  cases e with
  | construct executor =>
    simp only [step] at h
    split at h
    · obtain rfl := Option.some.inj h
      cases executor
      · exact noted_makePromise s
      · exact Noted.of_eq s.promise_makePromise rfl
    · cases h
  | settled rejected value =>
    simp only [step] at h
    split at h
    · obtain rfl := Option.some.inj h
      exact (noted_makePromise s).trans (noted_settlePromise _ _ _ _)
    · cases h
  | callThen self onFulfilled onRejected =>
    simp only [step] at h
    split at h
    next hknown =>
      obtain rfl := Option.some.inj h
      simp only [Bool.and_eq_true] at hknown
      exact noted_promiseThen s (of_decide_eq_true hknown.1.1.2) _ _
    next => cases h
  | callCatch self onRejected =>
    simp only [step] at h
    split at h
    next hknown =>
      obtain rfl := Option.some.inj h
      simp only [Bool.and_eq_true] at hknown
      exact noted_promiseCatch s (of_decide_eq_true hknown.1.2) _
    next => cases h
  | callResolver p rejected value =>
    simp only [step] at h
    split at h
    · obtain rfl := Option.some.inj h
      exact noted_settlePromise s p rejected value
    · cases h
  | drain =>
    simp only [step] at h
    split at h
    · obtain rfl := Option.some.inj h
      exact Noted.of_eq (fun _ => rfl) rfl
    · cases h
  | runTask =>
    simp only [step] at h
    split at h
    next guard stack task microtasks hstack htasks =>
      split at h
      · obtain rfl := Option.some.inj h
        have hstart := noted_start s task microtasks htasks
        have hrun := noted_runPromiseHandler
          { s with stack := .drain (guard + 1) :: stack, microtasks := microtasks } task
        simp only [notes, hstack, htasks]
        exact hstart.trans (hrun.congr rfl rfl rfl rfl)
      · cases h
    next => cases h
  | finishDrain =>
    simp only [step] at h
    split at h
    · split at h
      · cases h
      · obtain rfl := Option.some.inj h
        exact Noted.of_eq (fun _ => rfl) rfl
    · cases h
  | returned value =>
    simp only [step] at h
    split at h
    next derived stack hstack =>
      split at h
      next hknown =>
        obtain rfl := Option.some.inj h
        have hknows : Interpreter.knows { s with stack := stack } value = true := by
          cases value <;> exact hknown
        have hfinish := noted_finishHandler { s with stack := stack } derived hknows
        unfold notes
        rw [hstack]
        exact hfinish.congr rfl rfl rfl rfl
      next => cases h
    next => cases h

/-- **A run is noted**, by induction on its events. -/
theorem history_noted :
    ∀ {es : List Event} {s t : Interpreter}, es.foldlM step s = some t → Noted s (history s es) t
  | [], s, t, h => by
    obtain rfl := Option.some.inj h
    exact Noted.of_eq (fun _ => rfl) rfl
  | e :: es, s, t, h => by
    rw [List.foldlM_cons] at h
    obtain ⟨u, hu, hrest⟩ := Option.bind_eq_some_iff.mp h
    rw [history, hu]
    exact (step_noted hu).trans (history_noted hrest)

/-- What the log of a run from the start says about the state reached. -/
structure Recorded (s : Interpreter) (log : List Note) : Prop where
  queue : scheduled log = started log ++ s.microtasks
  pending : ∀ p, (s.promise p).status = .pending →
    (s.promise p).handlers = registeredOn p log ∧ scheduledFor p log = []
  settled : ∀ p, (s.promise p).status ≠ .pending →
    (s.promise p).handlers = [] ∧
      ∃ rejected, (s.promise p).status = settledStatus rejected ∧
        scheduledFor p log = (registeredOn p log).map
          (Interpreter.settledTask p rejected (s.promise p).value)

theorem Noted.recorded {s : Interpreter} {log : List Note} (h : Noted {} log s) :
    Recorded s log where
  queue := h.queue
  pending p hp := by
    obtain ⟨-, hhandlers, hscheduled⟩ := h.pending p hp
    exact ⟨hhandlers, hscheduled⟩
  settled p hp := by
    obtain ⟨rejected, value, hpromise, hscheduled⟩ := h.settles p rfl hp
    rw [hpromise]
    exact ⟨rfl, rejected, rfl, hscheduled⟩

/-- **The state machine of a promise.**  Take any run of a program and any way on from the state
`s` that it reaches.  In `s`, the microtasks started are the first of those scheduled, in the
same order, and all of them where a drain comes to its end below its limit; a pending promise has
all pairs of handlers registered on it, none of them scheduled; a settled one has no handlers, and
all pairs registered on it have been scheduled, each once and in order, with its status and value.
A promise settled in `s` stays as it is, nothing is registered on it and nothing scheduled for it
any more; and a promise settled on the way from `s` schedules on this way all it has ever had. -/
theorem settlement_runs (es rest : List Event) (s t : Interpreter)
    (hs : es.foldlM step {} = some s) (ht : rest.foldlM step s = some t) :
    Recorded s (history {} es) ∧
      (∀ guard stack, s.stack = .drain guard :: stack → guard < drainLimit →
        step s .finishDrain ≠ none → started (history {} es) = scheduled (history {} es)) ∧
      (∀ p, (s.promise p).status ≠ .pending →
        t.promise p = s.promise p ∧ registeredOn p (history s rest) = [] ∧
          scheduledFor p (history s rest) = []) ∧
      ∀ p, (s.promise p).status = .pending → (t.promise p).status ≠ .pending →
        ∃ rejected, (t.promise p).status = settledStatus rejected ∧
          scheduledFor p (history s rest) =
            (registeredOn p (history {} es) ++ registeredOn p (history s rest)).map
              (Interpreter.settledTask p rejected (t.promise p).value) := by
  have hrecorded := (history_noted hs).recorded
  have hnoted := history_noted ht
  refine ⟨hrecorded, fun guard stack hstack hguard hfinish => ?_, hnoted.settled,
    fun p hp htp => ?_⟩
  · have hempty : s.microtasks = [] := by
      by_contra hne
      refine hfinish ?_
      simp only [step, hstack]
      exact if_pos ⟨hguard, hne⟩
    rw [hrecorded.queue, hempty, List.append_nil]
  · obtain ⟨rejected, value, hpromise, hscheduled⟩ := hnoted.settles p hp htp
    rw [(hrecorded.pending p hp).1] at hscheduled
    refine ⟨rejected, ?_, ?_⟩
    · rw [hpromise]
    · rw [hpromise]
      exact hscheduled

/-- Two pairs of handlers registered before a promise is fulfilled. -/
theorem settlement_runs_literal :
    let before : List Event :=
      [.construct true, .callThen 0 (.script 1) .undefined, .callCatch 0 (.script 2)]
    let after : List Event := [.callResolver 0 false (.data 5), .drain, .runTask]
    ∃ s t, before.foldlM step {} = some s ∧ after.foldlM step s = some t ∧
      (s.promise 0).handlers = registeredOn 0 (history {} before) ∧
      scheduledFor 0 (history s after) =
        [{ derived := 0, handler := .script 1, rejected := false, value := .data 5 },
          { derived := 0, handler := .undefined, rejected := false, value := .data 5 }] := by
  refine ⟨_, _, rfl, rfl, ?_, ?_⟩
  · exact ((settlement_runs
      [.construct true, .callThen 0 (.script 1) .undefined, .callCatch 0 (.script 2)] [] _ _ rfl
      rfl).1.pending 0 rfl).1
  · decide

end Aetheris.Js
