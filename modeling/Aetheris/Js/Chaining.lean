import Aetheris.Js.Registration

/-!
# Which chained promises are settled

A call of `then` or `catch` on a settled promise leaves exactly one piece of work behind that owes a
settlement to the promise it returns: a microtask, a call in progress, or a pair of handlers on the
promise that its own handler has returned.  A call on a pending promise leaves none.

The invariant says this of every state, with a place for the piece of work that is just being
carried out.  Where the queue is drained nothing is owed but through pairs of handlers, and what
each promise has got can be read off.
-/

namespace Aetheris.Js

/-! ## What is owed -/

/-- The promise that a handler made by `run_promise_handler` settles. -/
def Value.linked : Value → List PromiseId
  | .link d _ => [d]
  | _ => []

/-- The promise that a microtask will settle. -/
def Task.target (t : Task) : PromiseId :=
  match t.handler with
  | .link d _ => d
  | _ => t.derived

/-- The promise that a call in progress will settle. -/
def Frame.targets : Frame → List PromiseId
  | .drain _ => []
  | .handler d => [d]

/-- The promises that are settled together with a promise. -/
def PromiseData.linked (data : PromiseData) : List PromiseId :=
  data.handlers.flatMap fun handlers => handlers.1.linked

/-- How many pieces of work there are that will settle `d`. -/
def owed (s : Interpreter) (d : PromiseId) : ℕ :=
  (s.microtasks.map Task.target).count d + (s.stack.flatMap Frame.targets).count d +
    (s.promises.flatMap PromiseData.linked).count d

/-- Replacing one element of a list changes a count by what the two elements contribute. -/
theorem count_flatMap_set {α β : Type*} [DecidableEq β] (f : α → List β) (b : β) (x : α) :
    ∀ (l : List α) (i : ℕ) (h : i < l.length),
      ((l.set i x).flatMap f).count b + (f l[i]).count b =
        (l.flatMap f).count b + (f x).count b
  | y :: l, 0, _ => by
    simp only [List.set_cons_zero, List.flatMap_cons, List.count_append, List.getElem_cons_zero]
    omega
  | y :: l, i + 1, h => by
    have hrest := count_flatMap_set f b x l i (Nat.lt_of_succ_lt_succ h)
    simp only [List.set_cons_succ, List.flatMap_cons, List.count_append, List.getElem_cons_succ]
    omega

section Owed

variable (s : Interpreter) (d p : PromiseId)

theorem getElem_promises (h : p < s.promises.length) : s.promises[p] = s.promise p := by
  unfold Interpreter.promise
  rw [List.getD_eq_getElem?_getD, List.getElem?_eq_getElem h, Option.getD_some]

theorem owed_setPromise (data : PromiseData) (h : p < s.promises.length) :
    owed (s.setPromise p data) d + (s.promise p).linked.count d =
      owed s d + data.linked.count d := by
  have hset := count_flatMap_set PromiseData.linked d data s.promises p h
  rw [getElem_promises s p h] at hset
  simp only [owed, Interpreter.setPromise]
  omega

theorem owed_makePromise : owed s.makePromise d = owed s d := by
  simp [owed, Interpreter.makePromise, PromiseData.linked]

theorem owed_scheduleMicrotask (t : Task) :
    owed (s.scheduleMicrotask t) d = owed s d + [t.target].count d := by
  simp only [owed, Interpreter.scheduleMicrotask, List.map_append, List.map_cons, List.map_nil,
    List.count_append]
  omega

theorem owed_addHandler (onFulfilled onRejected : Value) (h : p < s.promises.length) :
    owed (s.addHandler p onFulfilled onRejected) d = owed s d + onFulfilled.linked.count d := by
  have hset := owed_setPromise s d p
    { s.promise p with handlers := (s.promise p).handlers ++ [(onFulfilled, onRejected)] } h
  simp only [PromiseData.linked, List.flatMap_append, List.flatMap_cons, List.flatMap_nil,
    List.append_nil, List.count_append] at hset
  simp only [Interpreter.addHandler]
  omega

end Owed

/-! ## The invariant -/

/-- Where the promise `d` of a call on a settled promise stands: its handler is a function, and
this is what the handler has returned so far. -/
def Stage (o : Observer) (d : PromiseId) (result : Option Value) : Prop :=
  ∃ r rejected value, o d = some r ∧ r.settledAs = some (rejected, value) ∧
    (r.handlerFor rejected).isFunction = true ∧ r.returned = result

/-- What is known of a microtask: it settles with a returned promise, or runs a handler of the
promise itself.  In the latter case, if the promise is pending, it is the one microtask of a call
on a settled promise. -/
def TaskGood (s : Interpreter) (o : Observer) (t : Task) : Prop :=
  (∃ d, t.handler = .link d t.rejected ∧
    (s.promise t.derived).status = settledStatus t.rejected ∧
    (s.promise t.derived).value = t.value ∧
    ((s.promise d).status = .pending → Stage o d (some (.promise t.derived)))) ∨
  (s.knows t.handler = true ∧
    ((s.promise t.derived).status = .pending →
      ∃ r, o t.derived = some r ∧ r.settledAs = some (t.rejected, t.value) ∧
        r.handlerFor t.rejected = t.handler ∧ r.returned = none))

/-- What is known of the handlers on the promise `q`. -/
def HandlersGood (s : Interpreter) (o : Observer) (q : PromiseId) (handlers : Value × Value) :
    Prop :=
  (∃ d, handlers = (.link d false, .link d true) ∧
    ((s.promise d).status = .pending → Stage o d (some (.promise q)))) ∨
  (s.knows handlers.1 = true ∧ s.knows handlers.2 = true)

/-- How a promise settled by a call must come out. -/
def Outcome (s : Interpreter) (r : Registration) (rejected : Bool) (value : Value)
    (status : Status) (result : Value) : Prop :=
  if (r.handlerFor rejected).isFunction then
    ∃ w, r.returned = some w ∧
      match w with
      | .promise q =>
        (s.promise q).status ≠ .pending ∧ status = (s.promise q).status ∧
          result = (s.promise q).value
      | _ => status = .fulfilled ∧ result = w
  else status = settledStatus rejected ∧ result = value

/-- How many pieces of work owe a settlement to a pending promise: one if it comes from a call on
a settled promise, unless that piece is the one being carried out, which leaves a hole. -/
def due (o : Observer) (hole : Option PromiseId) (d : PromiseId) : ℕ :=
  match o d with
  | some { settledAs := some _, .. } => if hole = some d then 0 else 1
  | _ => 0

/-- The invariant. -/
structure Inv (s : Interpreter) (o : Observer) (hole : Option PromiseId) : Prop where
  range : ∀ d r, o d = some r → d < s.promises.length
  resolvers_range : ∀ p ∈ s.resolvers, p < s.promises.length
  resolvers_free : ∀ p ∈ s.resolvers, o p = none
  cleared : ∀ q, (s.promise q).status ≠ .pending → (s.promise q).handlers = []
  owed_eq : ∀ d, (s.promise d).status = .pending → owed s d = due o hole d
  lost : ∀ d r, o d = some r → r.settledAs = none →
    (s.promise d).status = .pending ∧ r.returned = none
  source : ∀ d r rejected value, o d = some r → r.settledAs = some (rejected, value) →
    (s.promise r.source).status = settledStatus rejected ∧ (s.promise r.source).value = value
  outcome : ∀ d r rejected value, o d = some r → r.settledAs = some (rejected, value) →
    (s.promise d).status ≠ .pending →
    Outcome s r rejected value (s.promise d).status (s.promise d).value
  tasks : ∀ t ∈ s.microtasks, TaskGood s o t
  frames : ∀ d, Frame.handler d ∈ s.stack → (s.promise d).status = .pending → Stage o d none
  handlers : ∀ q, ∀ h ∈ (s.promise q).handlers, HandlersGood s o q h

/-! ## States that go on from each other -/

/-- What is settled stays as it is, and what is known stays known. -/
structure Extends (s t : Interpreter) : Prop where
  settled : ∀ p, (s.promise p).status ≠ .pending →
    (t.promise p).status = (s.promise p).status ∧ (t.promise p).value = (s.promise p).value
  length : s.promises.length ≤ t.promises.length
  resolvers : s.resolvers ⊆ t.resolvers

namespace Extends

variable {s t : Interpreter} (h : Extends s t)

include h

theorem pending {p : PromiseId} (hp : (t.promise p).status = .pending) :
    (s.promise p).status = .pending := by
  by_contra hs
  exact hs ((h.settled p hs).1.symm.trans hp)

theorem knows {v : Value} (hv : s.knows v = true) : t.knows v = true := by
  cases v with
  | promise p =>
    simp only [Interpreter.knows, decide_eq_true_eq] at hv ⊢
    exact Nat.lt_of_lt_of_le hv h.length
  | resolver p rejected =>
    simp only [Interpreter.knows, List.contains_iff_mem] at hv ⊢
    exact h.resolvers hv
  | _ => exact hv

theorem taskGood {o : Observer} {task : Task} (hs : TaskGood s o task) : TaskGood t o task := by
  rcases hs with ⟨d, hlink, hstatus, hvalue, hstage⟩ | ⟨hknown, hown⟩
  · have hsettled := h.settled task.derived (by rw [hstatus]; cases task.rejected <;> decide)
    exact Or.inl ⟨d, hlink, hsettled.1.trans hstatus, hsettled.2.trans hvalue,
      fun hd => hstage (h.pending hd)⟩
  · exact Or.inr ⟨h.knows hknown, fun hd => hown (h.pending hd)⟩

theorem handlersGood {o : Observer} {q : PromiseId} {handlers : Value × Value}
    (hs : HandlersGood s o q handlers) : HandlersGood t o q handlers := by
  rcases hs with ⟨d, hlink, hstage⟩ | ⟨hfirst, hsecond⟩
  · exact Or.inl ⟨d, hlink, fun hd => hstage (h.pending hd)⟩
  · exact Or.inr ⟨h.knows hfirst, h.knows hsecond⟩

theorem outcome {r : Registration} {rejected : Bool} {value : Value} {status : Status}
    {result : Value} (hs : Outcome s r rejected value status result) :
    Outcome t r rejected value status result := by
  unfold Outcome at hs ⊢
  split at hs
  next hfun =>
    obtain ⟨w, hw, hcase⟩ := hs
    rw [if_pos hfun]
    refine ⟨w, hw, ?_⟩
    cases w with
    | promise q =>
      obtain ⟨hq, hstatus, hresult⟩ := hcase
      have hsettled := h.settled q hq
      refine ⟨?_, hstatus.trans hsettled.1.symm, hresult.trans hsettled.2.symm⟩
      rw [hsettled.1]
      exact hq
    | _ => exact hcase
  next hfun =>
    rw [if_neg hfun]
    exact hs

end Extends

theorem settledStatus_ne (rejected : Bool) : settledStatus rejected ≠ .pending := by
  cases rejected <;> decide

/-! ## Settling -/

section Settle

variable {s : Interpreter} {p : PromiseId} (rejected : Bool) (value : Value)

theorem promise_settlePromise (hp : p < s.promises.length)
    (hpending : (s.promise p).status = .pending) (q : PromiseId) :
    (s.settlePromise p rejected value).promise q =
      if q = p then { status := settledStatus rejected, value := value, handlers := [] }
      else s.promise q := by
  have hset := s.promise_setPromise p q
    { status := settledStatus rejected, value := value, handlers := [] }
  simp only [hp, and_true] at hset
  rw [Interpreter.settlePromise, if_pos hpending]
  exact hset

theorem promise_settlePromise_of_ne {q : PromiseId} (hq : q ≠ p) :
    (s.settlePromise p rejected value).promise q = s.promise q := by
  rw [Interpreter.settlePromise]
  split
  · have hset := s.promise_setPromise p q
      { status := settledStatus rejected, value := value, handlers := [] }
    rw [if_neg fun h => hq h.1] at hset
    exact hset
  · rfl

@[simp] theorem length_settlePromise :
    (s.settlePromise p rejected value).promises.length = s.promises.length := by
  rw [Interpreter.settlePromise]
  split
  · exact s.length_setPromise p _
  · rfl

@[simp] theorem resolvers_settlePromise :
    (s.settlePromise p rejected value).resolvers = s.resolvers := by
  rw [Interpreter.settlePromise]
  split <;> rfl

@[simp] theorem stack_settlePromise :
    (s.settlePromise p rejected value).stack = s.stack := by
  rw [Interpreter.settlePromise]
  split <;> rfl

theorem extends_settlePromise : Extends s (s.settlePromise p rejected value) where
  settled := fun q hq => by
    by_cases hqp : q = p
    · subst hqp
      rw [s.settlePromise_of_settled q hq]
      exact ⟨rfl, rfl⟩
    · rw [promise_settlePromise_of_ne rejected value hqp]
      exact ⟨rfl, rfl⟩
  length := Nat.le_of_eq (length_settlePromise rejected value).symm
  resolvers := (resolvers_settlePromise rejected value).symm ▸ List.Subset.refl _

/-- The microtasks that `settle_promise` makes owe what the handlers have owed. -/
theorem count_settledTasks {o : Observer} {d : PromiseId} (hd : d ≠ p) :
    ∀ {handlers : List (Value × Value)}, (∀ h ∈ handlers, HandlersGood s o p h) →
      ((handlers.map (Interpreter.settledTask p rejected value)).map Task.target).count d =
        (handlers.flatMap fun h => h.1.linked).count d
  | [], _ => rfl
  | h :: handlers, hgood => by
    have hrest := count_settledTasks hd fun k hk => hgood k (List.mem_cons_of_mem h hk)
    have hhead : [(Interpreter.settledTask p rejected value h).target].count d =
        h.1.linked.count d := by
      rcases hgood h (by simp) with ⟨e, rfl, -⟩ | ⟨hfirst, hsecond⟩
      · cases rejected <;> rfl
      · have htarget : (Interpreter.settledTask p rejected value h).target = p := by
          cases rejected
          · cases hv : h.1 with
            | link e b =>
              rw [hv] at hfirst
              cases hfirst
            | _ => simp [Interpreter.settledTask, Task.target, hv]
          · cases hv : h.2 with
            | link e b =>
              rw [hv] at hsecond
              cases hsecond
            | _ => simp [Interpreter.settledTask, Task.target, hv]
        have hlinked : h.1.linked = [] := by
          cases hv : h.1 with
          | link e b =>
            rw [hv] at hfirst
            cases hfirst
          | _ => rfl
        rw [htarget, hlinked, List.count_cons_of_ne (Ne.symm hd)]
    rw [List.map_cons, List.map_cons, List.flatMap_cons, List.count_append, ← hrest, ← hhead,
      ← List.count_append, List.singleton_append]

theorem owed_settlePromise {o : Observer} {d : PromiseId} (hd : d ≠ p)
    (hp : p < s.promises.length)
    (hgood : ∀ h ∈ (s.promise p).handlers, HandlersGood s o p h) :
    owed (s.settlePromise p rejected value) d = owed s d := by
  rw [Interpreter.settlePromise]
  split
  next hpending =>
    have hset := owed_setPromise s d p
      { status := settledStatus rejected, value := value, handlers := [] } hp
    have htasks := count_settledTasks rejected value hd hgood
    simp only [owed, Interpreter.setPromise, PromiseData.linked, List.flatMap_nil,
      List.count_nil] at hset htasks ⊢
    rw [List.map_append, List.count_append, htasks]
    omega
  next => rfl

/-- A microtask that `settle_promise` makes is a good one. -/
theorem taskGood_settledTask {o : Observer} {handlers : Value × Value}
    (hp : p < s.promises.length) (hpending : (s.promise p).status = .pending)
    (hgood : HandlersGood s o p handlers) :
    TaskGood (s.settlePromise p rejected value) o
      (Interpreter.settledTask p rejected value handlers) := by
  have hext : Extends s (s.settlePromise p rejected value) := extends_settlePromise rejected value
  have hself := promise_settlePromise rejected value hp hpending p
  rw [if_pos rfl] at hself
  rcases hgood with ⟨d, rfl, hstage⟩ | ⟨hfirst, hsecond⟩
  · refine Or.inl ⟨d, ?_, ?_, ?_, fun hd => hstage (hext.pending hd)⟩
    · cases rejected <;> rfl
    · simp only [Interpreter.settledTask, hself]
    · simp only [Interpreter.settledTask, hself]
  · refine Or.inr ⟨hext.knows ?_, fun hd => ?_⟩
    · cases rejected
      · exact hfirst
      · exact hsecond
    · simp only [Interpreter.settledTask, hself] at hd
      exact absurd hd (settledStatus_ne rejected)

/-- **`settle_promise` keeps the invariant**: the promise is one that no call has returned, or the
one whose piece of work is being carried out, and it comes out as it must. -/
theorem Inv.settle {o : Observer} {hole : Option PromiseId} (h : Inv s o hole)
    (hcall : (s.promise p).status = .pending → ∀ r, o p = some r →
      ∃ outcome, r.settledAs = some outcome ∧
        Outcome s r outcome.1 outcome.2 (settledStatus rejected) value) :
    Inv (s.settlePromise p rejected value) o hole := by
  by_cases hpending : (s.promise p).status = .pending
  swap
  · rwa [s.settlePromise_of_settled p hpending]
  by_cases hp : p < s.promises.length
  swap
  · rwa [s.settlePromise_of_length_le p (Nat.not_lt.mp hp)]
  have hext : Extends s (s.settlePromise p rejected value) := extends_settlePromise rejected value
  have hpromise := promise_settlePromise rejected value hp hpending
  have hmicrotasks : (s.settlePromise p rejected value).microtasks =
      s.microtasks ++
        (s.promise p).handlers.map (Interpreter.settledTask p rejected value) := by
    rw [Interpreter.settlePromise, if_pos hpending]
    rfl
  constructor
  case range => simpa using h.range
  case resolvers_range => simpa using h.resolvers_range
  case resolvers_free => simpa using h.resolvers_free
  case cleared =>
    intro q hq
    rw [hpromise] at hq ⊢
    split
    · rfl
    · rw [if_neg ‹_›] at hq
      exact h.cleared q hq
  case owed_eq =>
    intro d hd
    have hne : d ≠ p := by
      rintro rfl
      rw [hpromise, if_pos rfl] at hd
      exact settledStatus_ne rejected hd
    rw [owed_settlePromise rejected value hne hp fun k hk => h.handlers p k hk]
    exact h.owed_eq d (hext.pending hd)
  case lost =>
    intro d r hr hnone
    obtain ⟨hd, hreturned⟩ := h.lost d r hr hnone
    have hne : d ≠ p := by
      rintro rfl
      obtain ⟨outcome, hsome, -⟩ := hcall hd r hr
      rw [hnone] at hsome
      cases hsome
    rw [promise_settlePromise_of_ne rejected value hne]
    exact ⟨hd, hreturned⟩
  case source =>
    intro d r b v hr hsettled
    obtain ⟨hstatus, hvalue⟩ := h.source d r b v hr hsettled
    have hkeep := hext.settled r.source (by rw [hstatus]; exact settledStatus_ne b)
    exact ⟨hkeep.1.trans hstatus, hkeep.2.trans hvalue⟩
  case outcome =>
    intro d r b v hr hsettled hd
    by_cases hne : d = p
    · subst hne
      obtain ⟨outcome, hsome, hout⟩ := hcall hpending r hr
      have hb : outcome = (b, v) := Option.some.inj (hsome.symm.trans hsettled)
      subst hb
      rw [hpromise, if_pos rfl]
      exact hext.outcome hout
    · rw [promise_settlePromise_of_ne rejected value hne] at hd ⊢
      exact hext.outcome (h.outcome d r b v hr hsettled hd)
  case tasks =>
    intro t ht
    rw [hmicrotasks, List.mem_append, List.mem_map] at ht
    rcases ht with ht | ⟨k, hk, rfl⟩
    · exact hext.taskGood (h.tasks t ht)
    · exact taskGood_settledTask rejected value hp hpending (h.handlers p k hk)
  case frames =>
    intro d hd hdp
    rw [stack_settlePromise] at hd
    exact h.frames d hd (hext.pending hdp)
  case handlers =>
    intro q k hk
    rw [hpromise] at hk
    split at hk
    · exact absurd hk List.not_mem_nil
    · exact hext.handlersGood (h.handlers q k hk)

end Settle

/-! ## The hole -/

theorem due_of_ne {o : Observer} {d e : PromiseId} (h : e ≠ d) :
    due o (some d) e = due o none e := by
  unfold due
  split
  · rw [if_neg fun hde => h (Option.some.inj hde).symm, if_neg (by simp)]
  · rfl

theorem due_self (o : Observer) (d : PromiseId) : due o (some d) d = 0 := by
  unfold due
  split
  · rw [if_pos rfl]
  · rfl

theorem due_none_le_one (o : Observer) (d : PromiseId) : due o none d ≤ 1 := by
  unfold due
  split
  · exact Nat.le_of_eq (if_neg (by simp))
  · exact Nat.zero_le 1

theorem due_eq_one {o : Observer} {d : PromiseId} {r : Registration} {outcome : Bool × Value}
    (hr : o d = some r) (hsettled : r.settledAs = some outcome) : due o none d = 1 := by
  obtain ⟨source, onFulfilled, onRejected, settledAs, returned⟩ := r
  simp only at hsettled
  subst hsettled
  simp [due, hr]

/-- A hole that nothing is due to is none. -/
theorem Inv.fill {s : Interpreter} {o : Observer} {d : PromiseId} (h : Inv s o (some d))
    (hd : (s.promise d).status = .pending → due o none d = 0) : Inv s o none :=
  { h with
    owed_eq := fun e he => by
      rw [h.owed_eq e he]
      by_cases hed : e = d
      · subst hed
        rw [due_self, hd he]
      · exact due_of_ne hed }

section Owing

variable {s : Interpreter} {d : PromiseId} (h : owed s d = 0)

include h

theorem target_ne {t : Task} (ht : t ∈ s.microtasks) : t.target ≠ d := by
  rintro rfl
  have hpos : 0 < (s.microtasks.map Task.target).count t.target :=
    List.count_pos_iff.mpr (List.mem_map_of_mem ht)
  simp only [owed] at h
  omega

theorem handler_notMem : Frame.handler d ∉ s.stack := by
  intro hd
  have hpos : 0 < (s.stack.flatMap Frame.targets).count d :=
    List.count_pos_iff.mpr (List.mem_flatMap.mpr ⟨_, hd, by simp [Frame.targets]⟩)
  simp only [owed] at h
  omega

theorem linked_notMem {q : PromiseId} {k : Value × Value} (hk : k ∈ (s.promise q).handlers) :
    d ∉ k.1.linked := by
  intro hd
  have hq : q < s.promises.length := by
    by_contra hq
    rw [s.promise_of_length_le q (Nat.not_lt.mp hq)] at hk
    exact absurd hk List.not_mem_nil
  have hmem : s.promise q ∈ s.promises := by
    rw [← getElem_promises s q hq]
    exact List.getElem_mem hq
  have hpos : 0 < (s.promises.flatMap PromiseData.linked).count d :=
    List.count_pos_iff.mpr
      (List.mem_flatMap.mpr ⟨_, hmem, List.mem_flatMap.mpr ⟨k, hk, hd⟩⟩)
  simp only [owed] at h
  omega

end Owing

/-! ## Pieces of work -/

section Work

variable {s : Interpreter} {o : Observer} {d : PromiseId}

/-- A microtask is taken from the queue. -/
theorem Inv.takeTask (h : Inv s o none) {t : Task} {microtasks : List Task}
    (ht : s.microtasks = t :: microtasks) {guard : ℕ} {stack : List Frame}
    (hstack : s.stack = .drain guard :: stack) (guard' : ℕ) :
    Inv { s with stack := .drain guard' :: stack, microtasks := microtasks } o
      (some t.target) where
  range := h.range
  resolvers_range := h.resolvers_range
  resolvers_free := h.resolvers_free
  cleared := h.cleared
  owed_eq := fun e he => by
    have howed := h.owed_eq e he
    simp only [owed, ht, hstack, List.map_cons, List.flatMap_cons, List.count_append,
      Frame.targets] at howed ⊢
    by_cases hed : e = t.target
    · subst hed
      have hle := due_none_le_one o t.target
      rw [List.count_cons_self] at howed
      rw [due_self]
      omega
    · rw [List.count_cons_of_ne (Ne.symm hed)] at howed
      rw [due_of_ne hed]
      exact howed
  lost := h.lost
  source := h.source
  outcome := h.outcome
  tasks := fun u hu => h.tasks u (by rw [ht]; exact List.mem_cons_of_mem t hu)
  frames := fun e he => h.frames e (by
    rw [hstack]
    rcases List.mem_cons.mp he with he | he
    · cases he
    · exact List.mem_cons_of_mem _ he)
  handlers := h.handlers

/-- The call of a handler comes back. -/
theorem Inv.takeFrame (h : Inv s o none) {stack : List Frame}
    (hstack : s.stack = .handler d :: stack) :
    Inv { s with stack := stack } o (some d) where
  range := h.range
  resolvers_range := h.resolvers_range
  resolvers_free := h.resolvers_free
  cleared := h.cleared
  owed_eq := fun e he => by
    have howed := h.owed_eq e he
    simp only [owed, hstack, List.flatMap_cons, List.count_append, Frame.targets] at howed ⊢
    by_cases hed : e = d
    · subst hed
      have hle := due_none_le_one o e
      rw [List.count_singleton_self] at howed
      rw [due_self]
      omega
    · rw [List.count_cons_of_ne (Ne.symm hed), List.count_nil] at howed
      rw [due_of_ne hed]
      omega
  lost := h.lost
  source := h.source
  outcome := h.outcome
  tasks := h.tasks
  frames := fun e he => h.frames e (by rw [hstack]; exact List.mem_cons_of_mem _ he)
  handlers := h.handlers

/-- Whatever is due to the promise of the hole is one piece of work. -/
theorem Inv.owed_add (h : Inv s o (some d))
    (hdue : (s.promise d).status = .pending → ∃ r outcome, o d = some r ∧
      r.settledAs = some outcome) {e : PromiseId} (he : (s.promise e).status = .pending) :
    owed s e + [d].count e = due o none e := by
  rw [h.owed_eq e he]
  by_cases hed : e = d
  · subst hed
    obtain ⟨r, outcome, hr, hsettled⟩ := hdue he
    rw [due_self, due_eq_one hr hsettled, List.count_singleton_self]
  · rw [due_of_ne hed, List.count_cons_of_ne (Ne.symm hed), List.count_nil, Nat.add_zero]

theorem Stage.due {result : Option Value} (h : Stage o d result) :
    ∃ r outcome, o d = some r ∧ r.settledAs = some outcome := by
  obtain ⟨r, rejected, value, hr, hsettled, -, -⟩ := h
  exact ⟨r, _, hr, hsettled⟩

/-- The handler of a promise is called. -/
theorem Inv.callHandler (h : Inv s o (some d))
    (hstage : (s.promise d).status = .pending → Stage o d none) :
    Inv { s with stack := .handler d :: s.stack } o none where
  range := h.range
  resolvers_range := h.resolvers_range
  resolvers_free := h.resolvers_free
  cleared := h.cleared
  owed_eq := fun e he => by
    have howed := h.owed_add (fun hd => (hstage hd).due) he
    simp only [owed, List.flatMap_cons, List.count_append, Frame.targets] at howed ⊢
    omega
  lost := h.lost
  source := h.source
  outcome := h.outcome
  tasks := h.tasks
  frames := fun e he hpending => by
    rcases List.mem_cons.mp he with he | he
    · cases he
      exact hstage hpending
    · exact h.frames e he hpending
  handlers := h.handlers

/-- A microtask is scheduled. -/
theorem Inv.schedule {hole hole' : Option PromiseId} (h : Inv s o hole) {t : Task}
    (ht : TaskGood s o t)
    (howed : ∀ e, (s.promise e).status = .pending →
      owed s e + [t.target].count e = due o hole' e) :
    Inv (s.scheduleMicrotask t) o hole' where
  range := h.range
  resolvers_range := h.resolvers_range
  resolvers_free := h.resolvers_free
  cleared := h.cleared
  owed_eq := fun e he => by
    rw [owed_scheduleMicrotask]
    exact howed e he
  lost := h.lost
  source := h.source
  outcome := h.outcome
  tasks := fun u hu => by
    rcases List.mem_append.mp hu with hu | hu
    · exact h.tasks u hu
    · rw [List.mem_singleton.mp hu]
      exact ht
  frames := h.frames
  handlers := h.handlers

end Work

/-! ## Handlers and new promises -/

section Promises

variable {s : Interpreter} {o : Observer}

theorem status_addHandler (p q : PromiseId) (f g : Value) :
    ((s.addHandler p f g).promise q).status = (s.promise q).status ∧
      ((s.addHandler p f g).promise q).value = (s.promise q).value := by
  rw [Interpreter.addHandler, Interpreter.promise_setPromise]
  split
  next h =>
    rw [h.1]
    exact ⟨rfl, rfl⟩
  next => exact ⟨rfl, rfl⟩

theorem extends_addHandler (p : PromiseId) (f g : Value) : Extends s (s.addHandler p f g) where
  settled := fun q _ => status_addHandler p q f g
  length := Nat.le_of_eq (s.length_setPromise p _).symm
  resolvers := List.Subset.refl _

/-- Handlers are added to a pending promise. -/
theorem Inv.addHandler {hole hole' : Option PromiseId} (h : Inv s o hole) {p : PromiseId}
    (hp : p < s.promises.length) (hpending : (s.promise p).status = .pending) {f g : Value}
    (hgood : HandlersGood s o p (f, g))
    (howed : ∀ e, (s.promise e).status = .pending → owed s e + f.linked.count e = due o hole' e) :
    Inv (s.addHandler p f g) o hole' := by
  have hext : Extends s (s.addHandler p f g) := extends_addHandler p f g
  have hlength : (s.addHandler p f g).promises.length = s.promises.length :=
    s.length_setPromise p _
  constructor
  case range =>
    rw [hlength]
    exact h.range
  case resolvers_range =>
    rw [hlength]
    exact h.resolvers_range
  case resolvers_free => exact h.resolvers_free
  case cleared =>
    intro q hq
    rw [(status_addHandler p q f g).1] at hq
    have hne : q ≠ p := by
      rintro rfl
      exact hq hpending
    rw [Interpreter.addHandler, Interpreter.promise_setPromise, if_neg fun hqp => hne hqp.1]
    exact h.cleared q hq
  case owed_eq =>
    intro d hd
    rw [owed_addHandler s d p f g hp]
    exact howed d (hext.pending hd)
  case lost =>
    intro d r hr hnone
    obtain ⟨hd, hreturned⟩ := h.lost d r hr hnone
    exact ⟨(status_addHandler p d f g).1.trans hd, hreturned⟩
  case source =>
    intro d r b v hr hsettled
    obtain ⟨hstatus, hvalue⟩ := h.source d r b v hr hsettled
    have hkeep := status_addHandler (s := s) p r.source f g
    exact ⟨hkeep.1.trans hstatus, hkeep.2.trans hvalue⟩
  case outcome =>
    intro d r b v hr hsettled hd
    have hkeep := status_addHandler (s := s) p d f g
    rw [hkeep.1] at hd ⊢
    rw [hkeep.2]
    exact hext.outcome (h.outcome d r b v hr hsettled hd)
  case tasks => exact fun t ht => hext.taskGood (h.tasks t ht)
  case frames => exact fun d hd hdp => h.frames d hd (hext.pending hdp)
  case handlers =>
    intro q k hk
    rw [Interpreter.addHandler, Interpreter.promise_setPromise] at hk
    split at hk
    next hq =>
      rw [hq.1]
      rcases List.mem_append.mp hk with hk | hk
      · exact hext.handlersGood (h.handlers p k hk)
      · rw [List.mem_singleton.mp hk]
        exact hext.handlersGood hgood
    next => exact hext.handlersGood (h.handlers q k hk)

/-- The functions of a script settle nothing for `run_promise_handler`. -/
theorem linked_of_knows {v : Value} (h : s.knows v = true) : v.linked = [] := by
  cases v with
  | link d b => cases h
  | _ => rfl

theorem extends_makePromise : Extends s s.makePromise where
  settled := fun p _ => by rw [Interpreter.promise_makePromise]; exact ⟨rfl, rfl⟩
  length := by simp
  resolvers := List.Subset.refl _

theorem Inv.makePromise (h : Inv s o none) : Inv s.makePromise o none := by
  have hext : Extends s s.makePromise := extends_makePromise
  constructor
  case range =>
    intro d r hr
    rw [Interpreter.length_makePromise]
    exact Nat.lt_succ_of_lt (h.range d r hr)
  case resolvers_range =>
    intro p hp
    rw [Interpreter.length_makePromise]
    exact Nat.lt_succ_of_lt (h.resolvers_range p hp)
  case resolvers_free => exact h.resolvers_free
  case owed_eq =>
    intro d hd
    rw [owed_makePromise]
    exact h.owed_eq d (hext.pending hd)
  case tasks => exact fun t ht => hext.taskGood (h.tasks t ht)
  case frames => exact fun d hd hdp => h.frames d hd (hext.pending hdp)
  case cleared => simpa using h.cleared
  case lost => simpa using h.lost
  case source => simpa using h.source
  case outcome =>
    intro d r b v hr hsettled hd
    rw [Interpreter.promise_makePromise] at hd ⊢
    exact hext.outcome (h.outcome d r b v hr hsettled hd)
  case handlers =>
    intro q k hk
    rw [Interpreter.promise_makePromise] at hk
    exact hext.handlersGood (h.handlers q k hk)

/-- No call has returned the promise that is made next. -/
theorem Inv.fresh {hole : Option PromiseId} (h : Inv s o hole) : o s.promises.length = none := by
  cases hr : o s.promises.length with
  | none => rfl
  | some r => exact absurd (h.range _ r hr) (Nat.lt_irrefl _)

/-- A new observer that agrees with the old one wherever that has seen a call. -/
theorem Stage.update {n d : PromiseId} {x : Option Registration} {result : Option Value}
    (hn : d ≠ n) (h : Stage o d result) : Stage (Function.update o n x) d result := by
  obtain ⟨r, rejected, value, hr, hrest⟩ := h
  exact ⟨r, rejected, value, by rwa [Function.update_of_ne hn], hrest⟩

/-- A microtask with a handler of the script settles the promise that it was made for. -/
theorem target_of_knows {t : Task} (h : s.knows t.handler = true) : t.target = t.derived := by
  cases hv : t.handler with
  | link d b =>
    rw [hv] at h
    cases h
  | _ => rw [Task.target, hv]

/-- The observer's entry for one promise changes, and no piece of work is for that promise. -/
theorem TaskGood.update {n : PromiseId} {x : Option Registration} {t : Task}
    (hn : (s.promise n).status = .pending → t.target ≠ n) (h : TaskGood s o t) :
    TaskGood s (Function.update o n x) t := by
  rcases h with ⟨d, hlink, hstatus, hvalue, hstage⟩ | ⟨hknown, hown⟩
  · have htarget : t.target = d := by rw [Task.target, hlink]
    rw [htarget] at hn
    refine Or.inl ⟨d, hlink, hstatus, hvalue, fun hd => (hstage hd).update ?_⟩
    rintro rfl
    exact hn hd rfl
  · rw [target_of_knows hknown] at hn
    refine Or.inr ⟨hknown, fun hd => ?_⟩
    obtain ⟨r, hr, hrest⟩ := hown hd
    refine ⟨r, ?_, hrest⟩
    rwa [Function.update_of_ne fun hdn => hn (by rw [← hdn]; exact hd) hdn]

theorem HandlersGood.update {n q : PromiseId} {x : Option Registration} {k : Value × Value}
    (hn : (s.promise n).status = .pending → n ∉ k.1.linked) (h : HandlersGood s o q k) :
    HandlersGood s (Function.update o n x) q k := by
  rcases h with ⟨d, rfl, hstage⟩ | hknown
  · refine Or.inl ⟨d, rfl, fun hd => (hstage hd).update ?_⟩
    rintro rfl
    exact hn hd (by simp [Value.linked])
  · exact Or.inr hknown

/-- The observer writes down a call, or what the handler for it has returned. -/
theorem Inv.observe {n : PromiseId} (h : Inv s o (some n))
    (hpending : (s.promise n).status = .pending) (hn : n < s.promises.length)
    (hfree : n ∉ s.resolvers) {r : Registration} (hlost : r.settledAs = none → r.returned = none)
    (hsource : ∀ rejected value, r.settledAs = some (rejected, value) →
      (s.promise r.source).status = settledStatus rejected ∧
        (s.promise r.source).value = value) :
    Inv s (Function.update o n (some r)) (some n) := by
  have howed : owed s n = 0 := by rw [h.owed_eq n hpending, due_self]
  have hcases : ∀ d r', Function.update o n (some r) d = some r' →
      (d = n ∧ r' = r) ∨ (d ≠ n ∧ o d = some r') := by
    intro d r' hr
    by_cases hd : d = n
    · subst hd
      rw [Function.update_self] at hr
      exact Or.inl ⟨rfl, (Option.some.inj hr).symm⟩
    · rw [Function.update_of_ne hd] at hr
      exact Or.inr ⟨hd, hr⟩
  constructor
  case range =>
    intro d r' hr
    rcases hcases d r' hr with ⟨rfl, -⟩ | ⟨-, hr⟩
    · exact hn
    · exact h.range d r' hr
  case resolvers_range => exact h.resolvers_range
  case resolvers_free =>
    intro p hp
    rw [Function.update_of_ne fun hpn => hfree (by rwa [← hpn])]
    exact h.resolvers_free p hp
  case cleared => exact h.cleared
  case owed_eq =>
    intro d hd
    by_cases hdn : d = n
    · subst hdn
      rw [howed, due_self]
    · rw [h.owed_eq d hd]
      unfold due
      rw [Function.update_of_ne hdn]
  case lost =>
    intro d r' hr hnone
    rcases hcases d r' hr with ⟨rfl, rfl⟩ | ⟨-, hr⟩
    · exact ⟨hpending, hlost hnone⟩
    · exact h.lost d r' hr hnone
  case source =>
    intro d r' b v hr hsettled
    rcases hcases d r' hr with ⟨rfl, rfl⟩ | ⟨-, hr⟩
    · exact hsource b v hsettled
    · exact h.source d r' b v hr hsettled
  case outcome =>
    intro d r' b v hr hsettled hd
    rcases hcases d r' hr with ⟨rfl, rfl⟩ | ⟨-, hr⟩
    · exact absurd hpending hd
    · exact h.outcome d r' b v hr hsettled hd
  case tasks => exact fun t ht => (h.tasks t ht).update fun _ => target_ne howed ht
  case frames =>
    intro d hd hdp
    refine (h.frames d hd hdp).update ?_
    rintro rfl
    exact handler_notMem howed hd
  case handlers => exact fun q k hk => (h.handlers q k hk).update fun _ => linked_notMem howed hk

/-- **A call is registered**, for the promise that it has just made. -/
theorem Inv.register (h : Inv s o none) (self : PromiseId) (f g : Value) :
    Inv s.makePromise (o.register s self f g) (some s.promises.length) := by
  have hmake := h.makePromise
  have hnew : s.promise s.promises.length = {} := s.promise_of_length_le _ (Nat.le_refl _)
  have hpending : (s.makePromise.promise s.promises.length).status = .pending := by
    rw [Interpreter.promise_makePromise, hnew]
  have hdue : due o none s.promises.length = 0 := by
    unfold due
    rw [h.fresh]
  have hhole : Inv s.makePromise o (some s.promises.length) :=
    { hmake with
      owed_eq := fun e he => by
        rw [hmake.owed_eq e he]
        by_cases hen : e = s.promises.length
        · subst hen
          rw [due_self, hdue]
        · exact (due_of_ne hen).symm }
  refine hhole.observe hpending (by simp)
    (fun hmem => Nat.lt_irrefl _ (h.resolvers_range _ hmem)) (fun _ => rfl) ?_
  intro rejected value hsettled
  rw [Interpreter.promise_makePromise]
  simp only at hsettled
  split at hsettled
  · cases hsettled
  next hstatus =>
    obtain ⟨rfl, rfl⟩ := Prod.mk.inj (Option.some.inj hsettled)
    refine ⟨?_, rfl⟩
    cases hs : (s.promise self).status with
    | pending => exact absurd hs hstatus
    | fulfilled => rfl
    | rejected => rfl

/-- **A handler's result is recorded**, while its piece of work is being carried out. -/
theorem Inv.record {d : PromiseId} (h : Inv s o (some d))
    (hstage : (s.promise d).status = .pending → Stage o d none) (result : Value) :
    Inv s (o.recordReturn s d result) (some d) ∧
      ((s.promise d).status = .pending → Stage (o.recordReturn s d result) d (some result)) := by
  unfold Observer.recordReturn
  split
  next hpending =>
    obtain ⟨r, rejected, value, hr, hsettled, hfun, -⟩ := hstage hpending
    rw [hr, Option.map_some]
    have hfree : d ∉ s.resolvers := fun hd => by
      rw [h.resolvers_free d hd] at hr
      cases hr
    refine ⟨h.observe hpending (h.range d r hr) hfree (fun hnone => ?_) fun b v hb => ?_, fun _ => ?_⟩
    · rw [hsettled] at hnone
      cases hnone
    · exact h.source d r b v hr hb
    · exact ⟨_, rejected, value, Function.update_self _ _ _, hsettled, hfun, rfl⟩
  next hsettled => exact ⟨h, fun hpending => absurd hpending hsettled⟩

/-- The promise whose piece of work is being carried out is settled. -/
theorem Inv.settleHole {d : PromiseId} (h : Inv s o (some d)) (rejected : Bool) (value : Value)
    (hcall : (s.promise d).status = .pending → ∀ r, o d = some r →
      ∃ outcome, r.settledAs = some outcome ∧
        Outcome s r outcome.1 outcome.2 (settledStatus rejected) value) :
    Inv (s.settlePromise d rejected value) o none := by
  refine (h.settle rejected value hcall).fill fun hd => ?_
  have hlength : ¬ d < s.promises.length := by
    intro hlt
    have hpending := (extends_settlePromise rejected value).pending hd
    rw [promise_settlePromise rejected value hlt hpending, if_pos rfl] at hd
    exact settledStatus_ne rejected hd
  unfold due
  cases hr : o d with
  | none => rfl
  | some r => exact absurd (h.range d r hr) hlength

/-- **The second half of `run_promise_handler` keeps the invariant.** -/
theorem Inv.finish {d : PromiseId} {result : Value} (h : Inv s o (some d))
    (hstage : (s.promise d).status = .pending → Stage o d (some result))
    (hknown : s.knows result = true) : Inv (s.finishHandler d result) o none := by
  have hplain : (∀ q, result ≠ .promise q) → Inv (s.settlePromise d false result) o none := by
    intro hresult
    refine h.settleHole false result fun hd r hr => ?_
    obtain ⟨r', rejected, value, hr', hsettled, hfun, hreturned⟩ := hstage hd
    obtain rfl : r = r' := Option.some.inj (hr.symm.trans hr')
    refine ⟨_, hsettled, ?_⟩
    rw [Outcome, if_pos hfun]
    refine ⟨result, hreturned, ?_⟩
    cases result with
    | promise q => exact absurd rfl (hresult q)
    | _ => exact ⟨rfl, rfl⟩
  cases result with
  | promise q =>
    rw [Interpreter.finishHandler]
    simp only [Interpreter.knows, decide_eq_true_eq] at hknown
    split
    next hpending =>
      exact h.addHandler hknown hpending (Or.inl ⟨d, rfl, hstage⟩)
        fun e he => h.owed_add (fun hd => (hstage hd).due) he
    next hsettled =>
      refine h.settleHole _ _ fun hd r hr => ?_
      obtain ⟨r', rejected, value, hr', hsome, hfun, hreturned⟩ := hstage hd
      obtain rfl : r = r' := Option.some.inj (hr.symm.trans hr')
      refine ⟨_, hsome, ?_⟩
      rw [Outcome, if_pos hfun]
      refine ⟨.promise q, hreturned, hsettled, ?_, rfl⟩
      cases hs : (s.promise q).status with
      | pending => exact absurd hs hsettled
      | fulfilled => rfl
      | rejected => rfl
  | _ => exact hplain fun q hq => nomatch hq

end Promises

/-! ## Runs -/

section Runs

variable {s : Interpreter} {o : Observer}

/-- `run_promise_handler` for a microtask taken from the queue. -/
theorem Inv.runTask {t : Task} (h : Inv s o (some t.target)) (ht : TaskGood s o t) :
    Inv (s.runPromiseHandler t)
      (match t.handler with
        | .resolver _ _ | .link _ _ => o.recordReturn s t.derived .undefined
        | _ => o)
      none := by
  obtain ⟨derived, handler, rejected, value⟩ := t
  rcases ht with ⟨d, hlink, hstatus, hvalue, hstage⟩ | ⟨hknown, hown⟩
  · simp only at hlink hstatus hvalue hstage
    subst hlink
    have hsettled : (s.promise derived).status ≠ .pending := by
      rw [hstatus]
      exact settledStatus_ne rejected
    have hlinked : Inv (s.settlePromise d rejected value) o none := by
      refine h.settleHole rejected value fun hd r hr => ?_
      obtain ⟨r', b, v, hr', hsome, hfun, hreturned⟩ := hstage hd
      obtain rfl : r = r' := Option.some.inj (hr.symm.trans hr')
      refine ⟨_, hsome, ?_⟩
      rw [Outcome, if_pos hfun]
      exact ⟨.promise derived, hreturned, hsettled, hstatus.symm, hvalue.symm⟩
    have hkeep : ((s.settlePromise d rejected value).promise derived).status ≠ .pending :=
      fun hd => hsettled ((extends_settlePromise rejected value).pending hd)
    simp only [Interpreter.runPromiseHandler, Interpreter.finishHandler, Value.undefined,
      Observer.recordReturn]
    rw [Interpreter.settlePromise_of_settled _ _ hkeep, if_neg hsettled]
    exact hlinked
  · rw [target_of_knows hknown] at h
    simp only at hknown hown h ⊢
    have hstage : handler.isFunction = true → (s.promise derived).status = .pending →
        Stage o derived none := by
      intro hfun hd
      obtain ⟨r, hr, hsettled, hhandler, hreturned⟩ := hown hd
      exact ⟨r, rejected, value, hr, hsettled, by rw [hhandler, hfun], hreturned⟩
    have hplain : handler.isFunction = false → Inv (s.settlePromise derived rejected value) o none := by
      intro hfun
      refine h.settleHole rejected value fun hd r hr => ?_
      obtain ⟨r', hr', hsettled, hhandler, -⟩ := hown hd
      obtain rfl : r = r' := Option.some.inj (hr.symm.trans hr')
      refine ⟨_, hsettled, ?_⟩
      rw [Outcome, if_neg (by simp [hhandler, hfun])]
      exact ⟨rfl, rfl⟩
    cases handler with
    | data n => exact hplain rfl
    | promise p => exact hplain rfl
    | link d b => cases hknown
    | script f => exact h.callHandler (hstage rfl)
    | resolver p b =>
      obtain ⟨hrecord, hreturned⟩ := h.record (hstage rfl) .undefined
      simp only [Interpreter.knows, List.contains_iff_mem] at hknown
      have hsettle := hrecord.settle (p := p) b value fun _ r hr => by
        rw [hrecord.resolvers_free p hknown] at hr
        cases hr
      exact hsettle.finish
        (fun hd => hreturned ((extends_settlePromise b value).pending hd)) rfl

theorem Inv.addResolver (h : Inv s o none) {p : PromiseId} (hp : p < s.promises.length)
    (hfree : o p = none) : Inv { s with resolvers := s.resolvers ++ [p] } o none := by
  have hext : Extends s { s with resolvers := s.resolvers ++ [p] } :=
    { settled := fun _ _ => ⟨rfl, rfl⟩
      length := Nat.le_refl _
      resolvers := List.subset_append_left _ _ }
  have hcases : ∀ q ∈ s.resolvers ++ [p], q ∈ s.resolvers ∨ q = p := by simp
  exact
    { range := h.range
      resolvers_range := fun q hq => by
        rcases hcases q hq with hq | rfl
        · exact h.resolvers_range q hq
        · exact hp
      resolvers_free := fun q hq => by
        rcases hcases q hq with hq | rfl
        · exact h.resolvers_free q hq
        · exact hfree
      cleared := h.cleared
      owed_eq := h.owed_eq
      lost := h.lost
      source := h.source
      outcome := h.outcome
      tasks := fun t ht => hext.taskGood (h.tasks t ht)
      frames := h.frames
      handlers := fun q k hk => hext.handlersGood (h.handlers q k hk) }

/-- A call on a pending promise leaves no piece of work behind. -/
theorem Inv.callPending (h : Inv s o none) {self : PromiseId} {f g : Value}
    (hself : s.knows (.promise self) = true) (hpending : (s.promise self).status = .pending)
    (hf : s.knows f = true) (hg : s.knows g = true) :
    Inv (s.makePromise.addHandler self f g) (o.register s self f g) none := by
  have hregister := (h.register self f g).fill fun _ => by
    simp [due, Observer.register, hpending]
  simp only [Interpreter.knows, decide_eq_true_eq] at hself
  refine hregister.addHandler
    (by rw [Interpreter.length_makePromise]; exact Nat.lt_succ_of_lt hself)
    (by simpa using hpending)
    (Or.inr ⟨extends_makePromise.knows hf, extends_makePromise.knows hg⟩) fun e he => ?_
  rw [linked_of_knows hf, List.count_nil, Nat.add_zero]
  exact hregister.owed_eq e he

/-- A call on a settled promise leaves a microtask behind. -/
theorem Inv.callSettled (h : Inv s o none) {self : PromiseId} {f g : Value} (rejected : Bool)
    (hsettled : (s.promise self).status = settledStatus rejected) {handler : Value}
    (hhandler : s.knows handler = true) (hchoose : (if rejected then g else f) = handler) :
    Inv
      (s.makePromise.scheduleMicrotask
        { derived := s.promises.length, handler := handler, rejected := rejected,
          value := (s.promise self).value })
      (o.register s self f g) none := by
  have hne : (s.promise self).status ≠ .pending := by
    rw [hsettled]
    exact settledStatus_ne rejected
  have hrejected : ((s.promise self).status == .rejected) = rejected := by
    rw [hsettled]
    cases rejected <;> rfl
  have hcall : o.register s self f g s.promises.length =
      some { source := self, onFulfilled := f, onRejected := g,
             settledAs := some (rejected, (s.promise self).value) } := by
    rw [Observer.register, Function.update_self, if_neg hne, hrejected]
  have hregister := h.register self f g
  have hknown : s.makePromise.knows handler = true := extends_makePromise.knows hhandler
  refine hregister.schedule (Or.inr ⟨hknown, fun _ => ⟨_, hcall, rfl, hchoose, rfl⟩⟩)
    fun e he => ?_
  rw [target_of_knows (s := s.makePromise) hknown]
  exact hregister.owed_add (fun _ => ⟨_, _, hcall, rfl⟩) he

theorem Inv.promiseThen (h : Inv s o none) {self : PromiseId} {f g : Value}
    (hself : s.knows (.promise self) = true) (hf : s.knows f = true) (hg : s.knows g = true) :
    Inv (s.promiseThen self f g) (o.register s self f g) none := by
  simp only [Interpreter.promiseThen, Interpreter.promise_makePromise]
  split
  next hpending => exact h.callPending hself hpending hf hg
  next hsettled =>
    cases hs : (s.promise self).status with
    | pending => exact absurd hs hsettled
    | fulfilled => exact h.callSettled false hs hf rfl
    | rejected => exact h.callSettled true hs hg rfl

theorem Inv.promiseCatch (h : Inv s o none) {self : PromiseId} {g : Value}
    (hself : s.knows (.promise self) = true) (hg : s.knows g = true) :
    Inv (s.promiseCatch self g) (o.register s self .undefined g) none := by
  simp only [Interpreter.promiseCatch, Interpreter.promise_makePromise]
  split
  next hpending => exact h.callPending hself hpending rfl hg
  next hsettled =>
    split
    next hrejected => exact h.callSettled true hrejected hg rfl
    next hrejected =>
      refine (h.register self .undefined g).settleHole false _ fun _ r hr => ?_
      rw [Observer.register, Function.update_self, if_neg hsettled] at hr
      obtain rfl := Option.some.inj hr
      have hbeq : ((s.promise self).status == .rejected) = false := by simpa using hrejected
      refine ⟨_, rfl, ?_⟩
      rw [hbeq]
      exact ⟨rfl, rfl⟩

/-- **A step keeps the invariant.** -/
theorem observedStep_inv {w w' : Observed} {e : Event}
    (h : Inv w.interpreter w.observer none) (hstep : observedStep w e = some w') :
    Inv w'.interpreter w'.observer none := by
  obtain ⟨s, o⟩ := w
  obtain ⟨t, ht, rfl⟩ := Option.map_eq_some_iff.mp hstep
  simp only at h ht ⊢
  cases e with
  | construct executor =>
    simp only [step, Option.ite_none_right_eq_some, Option.some.injEq] at ht
    obtain ⟨-, rfl⟩ := ht
    split
    · exact h.makePromise.addResolver (by simp) h.fresh
    · exact h.makePromise
  | settled rejected value =>
    simp only [step, Option.ite_none_right_eq_some, Option.some.injEq] at ht
    obtain ⟨-, rfl⟩ := ht
    refine h.makePromise.settle rejected value fun _ r hr => ?_
    rw [h.fresh] at hr
    cases hr
  | callThen self f g =>
    simp only [step, Option.ite_none_right_eq_some, Option.some.injEq, Bool.and_eq_true] at ht
    obtain ⟨⟨⟨⟨-, hself⟩, hf⟩, hg⟩, rfl⟩ := ht
    exact h.promiseThen hself hf hg
  | callCatch self g =>
    simp only [step, Option.ite_none_right_eq_some, Option.some.injEq, Bool.and_eq_true] at ht
    obtain ⟨⟨⟨-, hself⟩, hg⟩, rfl⟩ := ht
    exact h.promiseCatch hself hg
  | callResolver p rejected value =>
    simp only [step, Option.ite_none_right_eq_some, Option.some.injEq, Bool.and_eq_true] at ht
    obtain ⟨⟨⟨-, hp⟩, -⟩, rfl⟩ := ht
    simp only [Interpreter.knows, List.contains_iff_mem] at hp
    refine h.settle rejected value fun _ r hr => ?_
    rw [h.resolvers_free p hp] at hr
    cases hr
  | drain =>
    simp only [step, Option.ite_none_right_eq_some, Option.some.injEq] at ht
    obtain ⟨-, rfl⟩ := ht
    exact { h with
      frames := fun d hd => h.frames d (by simpa using hd) }
  | runTask =>
    simp only [step] at ht
    split at ht
    next guard stack task microtasks hstack hqueue =>
      simp only [Option.ite_none_right_eq_some, Option.some.injEq] at ht
      obtain ⟨-, rfl⟩ := ht
      have hgood := h.tasks task (by rw [hqueue]; exact List.mem_cons_self)
      have hrun := (h.takeTask hqueue hstack (guard + 1)).runTask hgood
      obtain ⟨derived, handler, rejected, value⟩ := task
      cases handler with
      | _ =>
        simp only [observe, hqueue]
        exact hrun
    next => exact nomatch ht
  | finishDrain =>
    simp only [step] at ht
    split at ht
    next guard stack hstack =>
      simp only [Option.ite_none_left_eq_some, Option.some.injEq] at ht
      obtain ⟨-, rfl⟩ := ht
      exact { h with
        owed_eq := fun d hd => by
          have howed := h.owed_eq d hd
          simp only [owed, hstack, List.flatMap_cons, Frame.targets, List.nil_append] at howed
          exact howed
        frames := fun d hd => h.frames d (by rw [hstack]; exact List.mem_cons_of_mem _ hd) }
    next => exact nomatch ht
  | returned value =>
    simp only [step] at ht
    split at ht
    next derived stack hstack =>
      simp only [Option.ite_none_right_eq_some, Option.some.injEq] at ht
      obtain ⟨hknown, rfl⟩ := ht
      have hframe := h.frames derived (by rw [hstack]; exact List.mem_cons_self)
      obtain ⟨hrecord, hreturned⟩ := (h.takeFrame hstack).record hframe value
      have hfinish := hrecord.finish hreturned hknown
      simp only [observe, hstack]
      exact hfinish
    next => exact nomatch ht

theorem inv_empty : Inv {} (fun _ => none) none where
  range := fun _ _ hr => nomatch hr
  resolvers_range := fun _ hp => absurd hp List.not_mem_nil
  resolvers_free := fun _ _ => rfl
  cleared := fun _ _ => rfl
  owed_eq := fun _ _ => rfl
  lost := fun _ _ hr => nomatch hr
  source := fun _ _ _ _ hr => nomatch hr
  outcome := fun _ _ _ _ hr => nomatch hr
  tasks := fun _ ht => absurd ht List.not_mem_nil
  frames := fun _ hd => absurd hd List.not_mem_nil
  handlers := fun _ _ hk => absurd hk List.not_mem_nil

/-- **A run keeps the invariant.** -/
theorem inv_of_mem_states {es : List Event} {w : Observed}
    (h : w ∈ Runs.states observedStep {} es) : Inv w.interpreter w.observer none :=
  Runs.forall_mem_states (P := fun _ _ => True)
    (fun _ _ _ hw _ hstep => observedStep_inv hw hstep) inv_empty
    (Runs.alongReturning_of_forall fun _ _ => trivial) w h

/-- What is owed when the queue is empty hangs on a returned promise that is pending. -/
theorem exists_handlers_of_drained (h : Inv s o none) (hdrained : Drained s) {d : PromiseId}
    (hd : (s.promise d).status = .pending) (howed : owed s d = 1) :
    ∃ q, (s.promise q).status = .pending ∧ Stage o d (some (.promise q)) := by
  have hstack : (s.stack.flatMap Frame.targets).count d = 0 := by
    rw [List.count_eq_zero]
    intro hmem
    obtain ⟨frame, hframe, hd⟩ := List.mem_flatMap.mp hmem
    cases frame with
    | drain guard => exact absurd hd List.not_mem_nil
    | handler e =>
      exact hdrained.2 e hframe
  rw [owed, hdrained.1, hstack, List.map_nil, List.count_nil, Nat.zero_add] at howed
  have hmem : d ∈ s.promises.flatMap PromiseData.linked :=
    List.count_pos_iff.mp (by rw [howed]; exact Nat.one_pos)
  obtain ⟨data, hdata, hlinked⟩ := List.mem_flatMap.mp hmem
  obtain ⟨k, hk, hdk⟩ := List.mem_flatMap.mp hlinked
  obtain ⟨q, hq, rfl⟩ := List.getElem_of_mem hdata
  rw [getElem_promises s q hq] at hk
  refine ⟨q, ?_, ?_⟩
  · by_contra hsettled
    rw [h.cleared q hsettled] at hk
    exact absurd hk List.not_mem_nil
  · rcases h.handlers q k hk with ⟨e, rfl, hstage⟩ | ⟨hfirst, -⟩
    · rw [List.mem_singleton.mp hdk] at hd ⊢
      exact hstage hd
    · rw [linked_of_knows hfirst] at hdk
      exact absurd hdk List.not_mem_nil

/-- **Which chained promises are settled.**  Take any run and a state of it in which the queue is
drained, and a call of `then` or `catch` whose source is settled there.  The promise of the call
has got what chaining promises exactly when the source was settled at the call already;
otherwise it is still pending, whatever the handler has returned. -/
theorem delivered_iff_settledAs (es : List Event) {w : Observed}
    (hw : w ∈ Runs.states observedStep {} es) (hdrained : Drained w.interpreter) {d : PromiseId}
    {r : Registration} (hr : w.observer d = some r)
    (hsource : (w.interpreter.promise r.source).status ≠ .pending) :
    (Delivered w.interpreter d r ↔ r.settledAs ≠ none) ∧
      (r.settledAs = none → (w.interpreter.promise d).status = .pending) := by
  have h := inv_of_mem_states hw
  refine ⟨⟨fun hdelivered hnone => ?_, fun hsome => ?_⟩, fun hnone => (h.lost d r hr hnone).1⟩
  · obtain ⟨hpending, hreturned⟩ := h.lost d r hr hnone
    unfold Delivered at hdelivered
    split at hdelivered
    · obtain ⟨result, hresult, -⟩ := hdelivered
      rw [hreturned] at hresult
      cases hresult
    · exact hsource (hdelivered.1.symm.trans hpending)
  · obtain ⟨⟨rejected, value⟩, hsettled⟩ := Option.ne_none_iff_exists'.mp hsome
    obtain ⟨hstatus, hvalue⟩ := h.source d r rejected value hr hsettled
    have hrejected : ((w.interpreter.promise r.source).status == .rejected) = rejected := by
      rw [hstatus]
      cases rejected <;> rfl
    unfold Delivered
    rw [hrejected, hstatus, hvalue]
    by_cases hd : (w.interpreter.promise d).status = .pending
    · have howed : owed w.interpreter d = 1 := by
        rw [h.owed_eq d hd, due_eq_one hr hsettled]
      obtain ⟨q, hq, r', b, v, hr', hsettled', hfun, hreturned⟩ :=
        exists_handlers_of_drained h hdrained hd howed
      obtain rfl : r = r' := Option.some.inj (hr.symm.trans hr')
      obtain ⟨rfl, -⟩ := Prod.mk.inj (Option.some.inj (hsettled.symm.trans hsettled'))
      rw [if_pos hfun]
      exact ⟨.promise q, hreturned, fun hne => absurd hq hne⟩
    · have hout := h.outcome d r rejected value hr hsettled hd
      unfold Outcome at hout
      split at hout
      next hfun =>
        obtain ⟨result, hresult, hcase⟩ := hout
        rw [if_pos hfun]
        refine ⟨result, hresult, ?_⟩
        cases result with
        | promise q => exact fun _ => hcase.2
        | _ => exact hcase
      next hfun =>
        rw [if_neg hfun]
        exact hout

/-- A handler on a settled promise: `Promise.resolve(1).then(f)` is what `f` returns. -/
theorem delivered_iff_settledAs_resolve :
    let es : List Event := [.settled false (.data 1), .callThen 0 (.script 7) .undefined, .drain,
      .runTask, .returned (.data 5), .finishDrain]
    ∃ w ∈ Runs.states observedStep {} es, ∃ r, w.observer 1 = some r ∧
      (Delivered w.interpreter 1 r ↔ r.settledAs ≠ none) ∧
        (r.settledAs = none → (w.interpreter.promise 1).status = .pending) := by
  intro es
  refine ⟨_, Runs.mem_states_of_foldlM rfl, _, rfl,
    delivered_iff_settledAs es (Runs.mem_states_of_foldlM rfl) ⟨rfl, ?_⟩ rfl (by decide)⟩
  intro d hd
  exact absurd hd List.not_mem_nil

/-- `p.then(f)` on a promise that is resolved afterwards: `f` runs and returns, and the promise
that `then` has returned is never settled. -/
theorem not_delivered_then_pending :
    ¬ ∀ (es : List Event) (w : Observed), w ∈ Runs.states observedStep {} es →
      Drained w.interpreter → ∀ (d : PromiseId) (r : Registration), w.observer d = some r →
        (w.interpreter.promise r.source).status ≠ .pending → Delivered w.interpreter d r := by
  intro h
  have hrun := h [.construct true, .callThen 0 (.script 7) .undefined,
    .callResolver 0 false (.data 1), .drain, .runTask, .returned (.data 5), .finishDrain] _
    (Runs.mem_states_of_foldlM rfl) ⟨rfl, fun d hd => absurd hd List.not_mem_nil⟩ 1 _ rfl
    (by decide)
  obtain ⟨result, hresult, -⟩ := hrun
  cases hresult

end Runs

end Aetheris.Js
