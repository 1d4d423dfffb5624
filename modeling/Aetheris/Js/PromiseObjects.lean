import Aetheris.Js.Natives

/-!
# The promises among the objects

The machine that runs scripts keeps its promises as objects, among all others, and a function that
settles a promise is an object too, with a native function in it.  The interpreter of `Js.Promise`
keeps nothing but promises, numbered in the order in which they are made, and its events are the
calls of the functions below.  Here the second is shown to be a view of the first.

The view is a list of the objects that are promises, in the order in which they were made, and
`Shows` reads a value through it.  It looks at nothing of an object but whether it is a promise, and
at the function that it is, and no function changes that.  So each function has only to be compared
at the promise that it writes and at the end of the queue, and all of them keep `Mirrors`.
-/

namespace Aetheris.Js.Script

/-! ## What a value shows -/

/-- The function that an object is, and whether it is a promise. -/
def Object.role (object : Object) : Option Callee × Bool := (object.callee, object.promise.isSome)

/-- What there is. -/
def State.roles (s : State) : List (Option Callee × Bool) := s.objects.map Object.role

/-- The native function that settles a promise. -/
def settling (rejected : Bool) (o : ObjectId) : Callee :=
  .native ⟨if rejected then lit "reject" else lit "fulfill", [.object (some o)]⟩

section Views

variable (roles : List (Option Callee × Bool)) (ids : List ObjectId)

/-- An object that is no promise. -/
def Plain (v : Heap.Value) (callee : Option Callee) : Prop :=
  ∃ o, v = .object (some o) ∧ roles[o]? = some (callee, false)

/-- What a value is for the promises. -/
def Shows (v : Heap.Value) : Value → Prop
  | .promise p => ∃ o, v = .object (some o) ∧ ids[p]? = some o
  | .resolver p rejected | .link p rejected =>
    ∃ o, ids[p]? = some o ∧ Plain roles v (some (settling rejected o))
  | .script _ => ∃ callee, Plain roles v (some callee) ∧ ∀ rejected o, callee ≠ settling rejected o
  | .data _ => (∀ o, v ≠ .object (some o)) ∨ Plain roles v none

/-- Two states of one promise. -/
structure ShowsPromise (data : PromiseData) (data' : Js.PromiseData) : Prop where
  status : data.status = data'.status
  value : Shows roles ids data.value data'.value
  handlers : List.Forall₂ (fun handlers handlers' =>
    Shows roles ids handlers.1 handlers'.1 ∧ Shows roles ids handlers.2 handlers'.2)
    data.handlers data'.handlers

/-- Two descriptions of one microtask. -/
structure ShowsTask (task : Microtask) (task' : Js.Task) : Prop where
  derived : ids[task'.derived]? = some task.derived
  handler : Shows roles ids task.handler task'.handler
  rejected : task.rejected = task'.rejected
  value : Shows roles ids task.value task'.value

end Views

/-- **The promises of a state, in the order in which they were made, and its queue.** -/
structure Mirrors (s : State) (ids : List ObjectId) (t : Interpreter) : Prop where
  nodup : ids.Nodup
  length : ids.length = t.promises.length
  promises : ∀ p o, ids[p]? = some o → ∃ data, s.promise (.object (some o)) = some data ∧
    ShowsPromise s.roles ids data (t.promise p)
  microtasks : List.Forall₂ (ShowsTask s.roles ids) s.microtasks t.microtasks

section Mono

variable {roles roles' : List (Option Callee × Bool)} {ids ids' : List ObjectId}
  (hroles : roles <+: roles') (hids : ids <+: ids')

theorem getElem?_grown {α : Type*} {as bs : List α} {i : ℕ} {a : α} (h : as <+: bs)
    (ha : as[i]? = some a) : bs[i]? = some a := by
  obtain ⟨rest, rfl⟩ := h
  rw [List.getElem?_append_left (List.getElem?_eq_some_iff.mp ha).1, ha]

include hroles

theorem Plain.mono {v : Heap.Value} {callee : Option Callee} (h : Plain roles v callee) :
    Plain roles' v callee :=
  h.imp fun _ ho => ⟨ho.1, getElem?_grown hroles ho.2⟩

include hids

theorem Shows.mono {v : Heap.Value} {w : Value} (h : Shows roles ids v w) :
    Shows roles' ids' v w := by
  cases w with
  | promise p => exact h.imp fun _ ho => ⟨ho.1, getElem?_grown hids ho.2⟩
  | resolver p rejected => exact h.imp fun _ ho => ⟨getElem?_grown hids ho.1, ho.2.mono hroles⟩
  | link p rejected => exact h.imp fun _ ho => ⟨getElem?_grown hids ho.1, ho.2.mono hroles⟩
  | script f => exact h.imp fun _ hcallee => ⟨hcallee.1.mono hroles, hcallee.2⟩
  | data n => exact h.imp_right fun hplain => hplain.mono hroles

theorem ShowsPromise.mono {data : PromiseData} {data' : Js.PromiseData}
    (h : ShowsPromise roles ids data data') : ShowsPromise roles' ids' data data' :=
  ⟨h.status, h.value.mono hroles hids, h.handlers.imp fun _ _ hboth =>
    ⟨hboth.1.mono hroles hids, hboth.2.mono hroles hids⟩⟩

theorem ShowsTask.mono {task : Microtask} {task' : Js.Task} (h : ShowsTask roles ids task task') :
    ShowsTask roles' ids' task task' :=
  ⟨getElem?_grown hids h.derived, h.handler.mono hroles hids, h.rejected,
    h.value.mono hroles hids⟩

end Mono

/-! ## The functions -/

variable {s : State} {ids : List ObjectId} {t : Interpreter} {p : PromiseId} {o : ObjectId}
  {data : PromiseData} {data' : Js.PromiseData} {value : Heap.Value} {value' : Value}

theorem shows_undefined : Shows s.roles ids .undefined .undefined := Or.inl fun _ => nofun

theorem promise_setPromise (h : s.promise (.object (some o)) = some data) (after : PromiseData)
    (o' : ObjectId) : (s.setPromise o after).promise (.object (some o')) =
      if o' = o then some after else s.promise (.object (some o')) := by
  obtain ⟨object, hobject, -⟩ := Option.bind_eq_some_iff.mp h
  show ((s.objects.modify o _)[o']?).bind Object.promise = _
  by_cases heq : o' = o
  · subst heq
    rw [List.getElem?_modify_eq, show s.objects[o']? = some object from hobject, if_pos rfl]
    rfl
  · rw [List.getElem?_modify_ne _ _ (Ne.symm heq), if_neg heq]
    rfl

theorem roles_setPromise (h : s.promise (.object (some o)) = some data) (after : PromiseData) :
    (s.setPromise o after).roles = s.roles := by
  obtain ⟨object, hobject, hpromise⟩ := Option.bind_eq_some_iff.mp h
  refine List.ext_getElem? fun i => ?_
  show ((s.objects.modify o _).map Object.role)[i]? = (s.objects.map Object.role)[i]?
  rw [List.getElem?_map, List.getElem?_map]
  by_cases heq : o = i
  · subst heq
    rw [List.getElem?_modify_eq, show s.objects[o]? = some object from hobject]
    exact congrArg some (Prod.ext rfl (congrArg Option.isSome hpromise.symm))
  · rw [List.getElem?_modify_ne _ _ heq]

theorem addHandlers_eq (h : s.promise (.object (some o)) = some data)
    (handlers : Heap.Value × Heap.Value) :
    s.addHandlers o handlers =
      s.setPromise o { data with handlers := data.handlers ++ [handlers] } := by
  obtain ⟨object, hobject, hpromise⟩ := Option.bind_eq_some_iff.mp h
  refine congrArg (fun objects => { s with objects := objects }) (List.ext_getElem? fun i => ?_)
  rw [List.getElem?_modify, List.getElem?_modify]
  by_cases heq : o = i
  · subst heq
    rw [show s.objects[o]? = some object from hobject]
    simp [hpromise]
  · simp [heq]

theorem promise_append (h : s.promise (.object (some o)) = some data) (objects : List Object) :
    { s with objects := s.objects ++ objects }.promise (.object (some o)) = some data := by
  obtain ⟨object, hobject, -⟩ := Option.bind_eq_some_iff.mp h
  show ((s.objects ++ objects)[o]?).bind Object.promise = some data
  rw [List.getElem?_append_left (List.getElem?_eq_some_iff.mp hobject).1]
  exact h

theorem roles_append (objects : List Object) :
    s.roles <+: { s with objects := s.objects ++ objects }.roles :=
  (List.prefix_append _ _).map _

theorem plain_makeNative (s : State) (native : Native) :
    Plain (s.makeNative native).2.roles (s.makeNative native).1 (some (.native native)) := by
  refine ⟨_, rfl, ?_⟩
  show ((s.objects ++ [_]).map Object.role)[s.objects.length]? = _
  rw [List.getElem?_map, List.getElem?_concat_length]
  rfl

namespace Mirrors

variable (h : Mirrors s ids t) (hp : ids[p]? = some o)

include h

/-- Other objects are made. -/
theorem grow (objects : List Object) : Mirrors { s with objects := s.objects ++ objects } ids t := by
  refine ⟨h.nodup, h.length, fun q o hq => ?_,
    h.microtasks.imp fun _ _ htask => htask.mono (roles_append objects) List.prefix_rfl⟩
  obtain ⟨data, hdata, hshows⟩ := h.promises q o hq
  exact ⟨data, promise_append hdata objects, hshows.mono (roles_append objects) List.prefix_rfl⟩

theorem schedule {tasks : List Microtask} {tasks' : List Js.Task}
    (htasks : List.Forall₂ (ShowsTask s.roles ids) tasks tasks') :
    Mirrors { s with microtasks := s.microtasks ++ tasks } ids
      { t with microtasks := t.microtasks ++ tasks' } :=
  ⟨h.nodup, h.length, h.promises, List.rel_append h.microtasks htasks⟩

include hp

theorem setPromise (hdata : ShowsPromise s.roles ids data data') :
    Mirrors (s.setPromise o data) ids (t.setPromise p data') := by
  obtain ⟨old, hold, -⟩ := h.promises p o hp
  have hroles := roles_setPromise hold data
  refine ⟨h.nodup, h.length.trans (Interpreter.length_setPromise t p data').symm,
    fun q o' hq => ?_, hroles ▸ h.microtasks⟩
  rw [promise_setPromise hold, Interpreter.promise_setPromise, hroles]
  by_cases heq : q = p
  · subst heq
    rw [if_pos (Option.some.inj (hq.symm.trans hp)),
      if_pos ⟨rfl, h.length ▸ (List.getElem?_eq_some_iff.mp hp).1⟩]
    exact ⟨data, rfl, hdata⟩
  · have hne : o' ≠ o := by
      rintro rfl
      exact heq ((List.getElem?_inj (List.getElem?_eq_some_iff.mp hq).1 h.nodup).mp
        (hq.trans hp.symm))
    rw [if_neg hne, if_neg fun hand => heq hand.1]
    exact h.promises q o' hq

/-- `settle_promise` -/
theorem settlePromise (rejected : Bool) (hvalue : Shows s.roles ids value value') :
    Mirrors (s.settlePromise o rejected value) ids (t.settlePromise p rejected value') := by
  obtain ⟨data, hdata, hshows⟩ := h.promises p o hp
  rw [State.settlePromise, hdata, Interpreter.settlePromise, ← hshows.status]
  dsimp only
  split
  · refine (h.setPromise hp ⟨rfl, hvalue, .nil⟩).schedule (List.forall₂_map_left_iff.mpr
      (List.forall₂_map_right_iff.mpr (hshows.handlers.imp fun handlers handlers' hboth => ?_)))
    rw [roles_setPromise hdata]
    refine ⟨hp, ?_, rfl, hvalue⟩
    cases rejected with
    | true => exact hboth.2
    | false => exact hboth.1
  · exact h

/-- `handlers.emplace_back` -/
theorem addHandlers (handlers : Heap.Value × Heap.Value) {onFulfilled onRejected : Value}
    (hfulfilled : Shows s.roles ids handlers.1 onFulfilled)
    (hrejected : Shows s.roles ids handlers.2 onRejected) :
    Mirrors (s.addHandlers o handlers) ids (t.addHandler p onFulfilled onRejected) := by
  obtain ⟨data, hdata, hshows⟩ := h.promises p o hp
  rw [addHandlers_eq hdata]
  exact h.setPromise hp ⟨hshows.status, hshows.value,
    List.rel_append hshows.handlers (.cons ⟨hfulfilled, hrejected⟩ .nil)⟩

/-- The second half of `run_promise_handler`. -/
theorem finishHandler (hvalue : Shows s.roles ids value value') :
    Mirrors (s.finishHandler o value) ids (t.finishHandler p value') := by
  have hother (hnone : s.promise value = none) :
      Mirrors (s.finishHandler o value) ids (t.settlePromise p false value') := by
    have hsettle := h.settlePromise hp false hvalue
    unfold State.finishHandler
    split
    next hsome => exact nomatch hnone.symm.trans hsome
    · exact hsettle
  have hplain {callee : Option Callee} (hplain : Plain s.roles value callee) :
      s.promise value = none := by
    obtain ⟨target, rfl, hrole⟩ := hplain
    rw [State.roles, List.getElem?_map, Option.map_eq_some_iff] at hrole
    obtain ⟨object, hobject, hrole⟩ := hrole
    show (s.objects[target]?).bind Object.promise = none
    rw [hobject]
    exact Option.isNone_iff_eq_none.mp (Option.isSome_eq_false_iff.mp (congrArg Prod.snd hrole))
  cases value' with
  | promise q =>
    obtain ⟨returned, rfl, hq⟩ := hvalue
    obtain ⟨data, hdata, hshows⟩ := h.promises q returned hq
    simp only [State.finishHandler, hdata, Interpreter.finishHandler, ← hshows.status]
    split
    · let s₁ := (s.makeNative ⟨lit "fulfill", [.object (some o)]⟩).2
      let s₂ := (s₁.makeNative ⟨lit "reject", [.object (some o)]⟩).2
      have hs₂ : Mirrors s₂ ids t := (h.grow _).grow _
      have hdata₂ : s₂.promise (.object (some returned)) = some data :=
        promise_append (promise_append hdata _) _
      have hfulfill : Shows s₂.roles ids (.object (some s.objects.length)) (.link p false) :=
        ⟨o, hp, (plain_makeNative s _).mono (roles_append _)⟩
      have hreject : Shows s₂.roles ids (.object (some s₁.objects.length)) (.link p true) :=
        ⟨o, hp, plain_makeNative s₁ _⟩
      have hadded := hs₂.addHandlers hq (_, _) hfulfill hreject
      rw [addHandlers_eq hdata₂] at hadded
      exact hadded
    · exact h.settlePromise hp _ hshows.value
  | resolver q rejected => exact hother (hplain hvalue.choose_spec.2)
  | link q rejected => exact hother (hplain hvalue.choose_spec.2)
  | script f => exact hother (hplain hvalue.choose_spec.1)
  | data n =>
    refine hother (hvalue.elim (fun hne => ?_) hplain)
    cases value with
    | object target =>
      cases target with
      | none => rfl
      | some o => exact absurd rfl (hne o)
    | undefined | null | boolean _ | number _ | string _ => rfl

omit hp in
/-- A promise is made: it is the one after all that there are. -/
theorem makePromise : Mirrors s.makePromise.2 (ids ++ [s.objects.length]) t.makePromise := by
  have hroles : s.roles <+: s.makePromise.2.roles := roles_append _
  have hids : ids <+: ids ++ [s.objects.length] := List.prefix_append _ _
  refine ⟨?_, ?_, fun q o hq => ?_, h.microtasks.imp fun _ _ htask => htask.mono hroles hids⟩
  · refine List.nodup_append.mpr ⟨h.nodup, List.nodup_singleton _, fun o ho o' ho' heq => ?_⟩
    obtain ⟨q, hq⟩ := List.mem_iff_getElem?.mp ho
    obtain ⟨data, hdata, -⟩ := h.promises q o hq
    obtain ⟨object, hobject, -⟩ := Option.bind_eq_some_iff.mp hdata
    have hlt := (List.getElem?_eq_some_iff.mp hobject).1
    rw [heq, List.mem_singleton.mp ho'] at hlt
    exact lt_irrefl _ hlt
  · rw [List.length_append, List.length_singleton, h.length, Interpreter.length_makePromise]
  · rw [Interpreter.promise_makePromise]
    rcases Nat.lt_trichotomy q ids.length with hlt | rfl | hlt
    · rw [List.getElem?_append_left hlt] at hq
      obtain ⟨data, hdata, hshows⟩ := h.promises q o hq
      exact ⟨data, promise_append hdata _, hshows.mono hroles hids⟩
    · rw [List.getElem?_concat_length] at hq
      rw [← Option.some.inj hq, Interpreter.promise_of_length_le t _ h.length.ge]
      refine ⟨{}, ?_, rfl, shows_undefined, .nil⟩
      show ((s.objects ++ _)[s.objects.length]?).bind Object.promise = some {}
      rw [List.getElem?_append_right (Nat.le_refl _), Nat.sub_self]
      rfl
    · rw [List.getElem?_eq_none (by simp; omega)] at hq
      exact nomatch hq

/-- What `then` and `catch` do to a promise that is pending, and to one that is settled. -/
theorem call (handlers : Heap.Value × Heap.Value) {onFulfilled onRejected : Value}
    (hfulfilled : Shows s.roles ids handlers.1 onFulfilled)
    (hrejected : Shows s.roles ids handlers.2 onRejected) :
    let made := s.makePromise.2
    let made' := t.makePromise
    ∃ data, made.promise (.object (some o)) = some data ∧
      ShowsPromise made.roles (ids ++ [s.objects.length]) data (made'.promise p) ∧
      Mirrors (made.addHandlers o handlers) (ids ++ [s.objects.length])
        (made'.addHandler p onFulfilled onRejected) ∧
      ∀ handler, handler = (if data.status == .rejected then onRejected else onFulfilled) →
        Mirrors (made.scheduleMicrotask (State.settledTask s.objects.length data handlers))
          (ids ++ [s.objects.length]) (made'.scheduleMicrotask
            ⟨t.promises.length, handler, data.status == .rejected, (made'.promise p).value⟩) := by
  have hids : ids <+: ids ++ [s.objects.length] := List.prefix_append _ _
  have hroles : s.roles <+: s.makePromise.2.roles := roles_append _
  have hp := getElem?_grown hids hp
  obtain ⟨data, hdata, hshows⟩ := h.makePromise.promises p o hp
  refine ⟨data, hdata, hshows, h.makePromise.addHandlers hp _
    (hfulfilled.mono hroles hids) (hrejected.mono hroles hids), ?_⟩
  rintro _ rfl
  refine h.makePromise.schedule (.cons ⟨?_, ?_, rfl, hshows.value⟩ .nil)
  · rw [← h.length]
    exact List.getElem?_concat_length
  · unfold State.settledTask
    dsimp only
    split
    · exact hrejected.mono hroles hids
    · exact hfulfilled.mono hroles hids

/-- `then` -/
theorem promiseThen {arguments : List Heap.Value} {onFulfilled onRejected : Value}
    (hfulfilled : Shows s.roles ids (arguments.getD 0 .undefined) onFulfilled)
    (hrejected : Shows s.roles ids (arguments.getD 1 .undefined) onRejected) :
    Mirrors (s.promiseThen (.object (some o)) arguments).2 (ids ++ [s.objects.length])
      (t.promiseThen p onFulfilled onRejected) := by
  obtain ⟨data, hdata, hshows, hpending, hsettled⟩ :=
    h.call hp (arguments.getD 0 .undefined, _) hfulfilled hrejected
  simp only [State.promiseThen, hdata, Interpreter.promiseThen, ← hshows.status]
  split
  · exact hpending
  · exact hsettled _ rfl

/-- `catch` -/
theorem promiseCatch {arguments : List Heap.Value} {onRejected : Value}
    (hrejected : Shows s.roles ids (arguments.getD 0 .undefined) onRejected) :
    Mirrors (s.promiseCatch (.object (some o)) arguments).2 (ids ++ [s.objects.length])
      (t.promiseCatch p onRejected) := by
  obtain ⟨data, hdata, hshows, hpending, hsettled⟩ :=
    h.call hp (.undefined, _) shows_undefined hrejected
  simp only [State.promiseCatch, hdata, Interpreter.promiseCatch, ← hshows.status]
  split
  · exact hpending
  · split
    next hstatus =>
      rw [hstatus] at hsettled
      exact hsettled _ rfl
    · refine h.makePromise.settlePromise ?_ false hshows.value
      rw [← h.length]
      exact List.getElem?_concat_length

end Mirrors

end Aetheris.Js.Script
