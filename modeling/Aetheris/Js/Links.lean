import Aetheris.Js.NativeLinks
import Aetheris.Library.Loop

/-!
# Prototypes and parents come to an end

A script may store any object in a `prototype` property at any time, but the link of an object is
set once, when the object is made, to an object that is there already; and so is the parent of an
environment.  So a walk along these links always ends, whatever the scripts and events before.

That the interpreter and every native function keep this is one setting of what is handed around:
the values that are good lead to what is there.
-/

namespace Aetheris.Js.Script

open Aetheris.Agree Aetheris.Worlds

/-! ## The interpreter -/

/-- All states up to now are linked, and what was there at the beginning is there. -/
def History.Linked (w₀ : Extent) (h : History) : Prop :=
  (∀ s ∈ h.current :: h.past, s.Linked) ∧ w₀ ≤ h.current.extent

/-- Good are the objects and the environments that are there. -/
def linkSetting (w₀ : Extent) : Setting History Extent where
  inv := History.Linked w₀
  world h := h.current.extent
  known := Known
  scope w env := env < w.environments
  known_mono hw _ h := h.mono hw
  scope_mono hw _ h := h.trans_le hw.1
  known_plain h := known_of_plain h

section

variable {w₀ w : Extent}

theorem History.Linked.current {h : History} (hh : h.Linked w₀) : h.current.Linked :=
  hh.1 _ List.mem_cons_self

theorem History.Linked.push {h : History} (hh : h.Linked w₀) {s : State} (hs : s.Linked)
    (hle : h.current.extent ≤ s.extent) : (h.push s).Linked w₀ := by
  refine ⟨fun s' hs' => ?_, hh.2.trans hle⟩
  rcases List.mem_cons.mp hs' with rfl | hs'
  · exact hs
  · exact hh.1 s' hs'

/-- A change of the state, recorded. -/
theorem makes_step {α : Type} {good : Extent → α → Prop} {f : State → α × State}
    (hf : MakesLinked w good f) :
    Makes (linkSetting w₀).inv (linkSetting w₀).world w good (History.step f) := by
  intro h hh hw
  obtain ⟨hs, hle, hgood⟩ := hf h.current hh.current hw
  exact ⟨hh.push hs hle, hle, hgood⟩

theorem moves_update {f : State → State} (hf : KeepsLinks w f) :
    Moves (linkSetting w₀).inv (linkSetting w₀).world w (History.update f) := by
  intro h hh hw
  obtain ⟨hs, hle⟩ := hf h.current hh.current hw
  exact ⟨hh.push hs hle, hle⟩

theorem moves_unpolled :
    Moves (linkSetting w₀).inv (linkSetting w₀).world w History.unpolled :=
  fun _ hh _ => ⟨hh, le_refl _⟩

/-! ### Native functions and microtasks -/

variable {call : Caller History} (hcall : (linkSetting w₀).CallsGive call)

include hcall

/-- A native function on its way; by induction on what it does next. -/
theorem gives_perform : ∀ {action : Action} {w : Extent}, action.Linked w →
    (linkSetting w₀).Gives w Known (perform call action)
  | .done _, _, h => .pure fun _ hw => h.mono hw
  | .stop, _, _ => .throw _
  | .look next, w, h => .get_bind fun s hs hw => gives_perform (h s.current hs.current hw)
  | .quiet act next, w, h => by
    refine Yields.bind (.modifyGet (makes_step h.1)) fun w' hw' value hvalue => ?_
    exact gives_perform (h.2 w' hw' value hvalue)
  | .call callee arguments this next, w, h => by
    refine Yields.bind (hcall w callee arguments this h.1 h.2.1 h.2.2.1)
      fun w' hw' value hvalue => ?_
    exact gives_perform (h.2.2.2 w' hw' value hvalue)

theorem gives_runPromiseHandler {task : Microtask} (h : task.Within w) :
    (linkSetting w₀).Gives w (fun _ _ => True) (runPromiseHandler call task) := by
  refine .get_bind fun s _ hw => .ite ?_ ?_
  · have harguments : (linkSetting w₀).KnownAll s.current.extent [task.value] :=
      fun value hvalue => by
        rw [List.mem_singleton.mp hvalue]
        exact h.value.mono hw
    refine Yields.bind (hcall _ _ _ _ (h.handler.mono hw) harguments known_undefined)
      fun w' hw' result hresult => ?_
    exact .modify (moves_update (linked_finishHandler (h.derived.trans_le (hw.trans hw').2) hresult))
      fun _ _ => trivial
  · exact .modify (moves_update (linked_settlePromise _ _ (h.value.mono hw))) fun _ _ => trivial

theorem gives_drainMicrotasks : ∀ (guard : ℕ) {w : Extent},
    (linkSetting w₀).Gives w (fun _ _ => True) (drainMicrotasks call guard)
  | 0, _ => .pure fun _ _ => trivial
  | guard + 1, w => by
    refine .get_bind fun s hs _ => ?_
    have hmicrotasks := hs.current.microtasks
    cases htasks : s.current.microtasks with
    | nil => exact .pure fun _ _ => trivial
    | cons task tasks =>
      rw [htasks] at hmicrotasks
      have htasks : KeepsLinks s.current.extent fun s' => { s' with microtasks := tasks } :=
        fun s' hs' hw' => ⟨linked_microtasks hs' fun task' htask' =>
          (hmicrotasks task' (List.mem_cons_of_mem _ htask')).mono hw', le_refl _⟩
      refine Yields.modify_bind (moves_update htasks) fun w' hw' => ?_
      refine Yields.bind (gives_runPromiseHandler hcall
        ((hmicrotasks task List.mem_cons_self).mono hw')) fun w'' _ _ _ => ?_
      exact gives_drainMicrotasks guard

end

/-! ### All functions of the interpreter -/

section

variable {w₀ : Extent} (P : Primitives) (rounds : ℕ) {handles : List (Bytes × Heap.Value)}
  (hhandles : ∀ handle ∈ handles, Known w₀ handle.2)

/-- What a built-in member refers to is there. -/
def Member.Within (w : Extent) : Member → Prop
  | .value found => Known w found
  | .native function => KnownAll w function.captured
  | .inherited => True

theorem within_member {s : State} (hs : s.Linked) {receiver : Heap.Value}
    (hreceiver : Known s.extent receiver) (name : Bytes) :
    (member receiver name s).Within s.extent := by
  have hmethod : KnownAll s.extent [receiver] := fun value hvalue => by
    rw [List.mem_singleton.mp hvalue]
    exact hreceiver
  unfold member
  split
  next text =>
    split
    · exact known_count _
    · split
      · exact hmethod
      · split
        · exact known_of_plain fun _ => (by rintro ⟨⟩)
        · exact known_undefined
  next =>
    split
    · exact hmethod
    · exact known_undefined
  next =>
    split
    next => exact known_undefined
    next object hobject =>
      split
      · split
        · exact known_count _
        · split
          · exact hmethod
          · split
            next index _ =>
              exact known_getD (fun value hvalue => (hs.objects object
                (State.object_mem hobject)).contents value (List.mem_append_left _ hvalue)) index
            next => trivial
      · split
        · split
          · exact known_count _
          · split
            · exact hmethod
            · trivial
        · split
          · split
            · exact known_count _
            · split
              · exact hmethod
              · trivial
          · trivial

theorem getProperty_pageBuiltins (object : Heap.Value) (name : Bytes) (s : State) :
    State.getProperty (pageBuiltins P rounds handles) object name s =
      match member object name s, object with
      | .value value, _ => (value, s)
      | .native native, _ => s.makeNative native
      | .inherited, .object (some o) => (s.fromChain name s.objects.length o, s)
      | .inherited, _ => (.undefined, s) :=
  rfl

theorem linked_getProperty {w : Extent} {object : Heap.Value} (name : Bytes)
    (hobject : Known w object) :
    MakesLinked w Known (State.getProperty (pageBuiltins P rounds handles) object name) := by
  intro s hs hw
  have hmember := within_member hs (hobject.mono hw) name
  rw [getProperty_pageBuiltins]
  cases hm : member object name s with
  | value value =>
    rw [hm] at hmember
    exact ⟨hs, le_refl _, hmember⟩
  | native native =>
    rw [hm] at hmember
    exact linked_makeNative hmember s hs (le_refl _)
  | inherited =>
    match object with
    | .object (some o) => exact ⟨hs, le_refl _, hs.fromChain name _ _⟩
    | .object none | .undefined | .null | .boolean _ | .number _ | .string _ =>
      exact ⟨hs, le_refl _, known_undefined⟩

theorem linked_binary {w : Extent} (op : Bytes) (left right : Heap.Value) :
    Makes (linkSetting w₀).inv (linkSetting w₀).world w Known
      ((machine (pageBuiltins P rounds handles)).binary op left right) := by
  intro s hs _
  refine ⟨hs, le_refl _, known_of_plain ?_⟩
  show ∀ o, (if op = lit "instanceof" then .boolean (instanceOf left right s.current)
    else (P.operator op left right s.current).1) ≠ Heap.Value.object (some o)
  split
  · exact fun _ => nofun
  · exact (P.operator op left right s.current).2

theorem linked_machine_setProperty {w : Extent} (object : Heap.Value) (name : Bytes)
    {value : Heap.Value} (hvalue : Known w value) :
    Moves (linkSetting w₀).inv (linkSetting w₀).world w
      ((machine (pageBuiltins P rounds handles)).setProperty object name value) := by
  match object with
  | .object (some o) =>
    exact moves_unpolled.trans (moves_update (linked_setProperty o name hvalue))
  | .object none | .undefined | .null | .boolean _ | .number _ | .string _ =>
    exact fun s hs _ => ⟨hs, le_refl _⟩

/-- A native function, from its call on. -/
theorem gives_native {call : Caller History} (hcall : (linkSetting w₀).CallsGive call) {w : Extent}
    {native : Native} {arguments : List Heap.Value}
    (h : (nativeFunction P rounds handles native).Linked w arguments) :
    (linkSetting w₀).Gives w Known
      ((machine (pageBuiltins P rounds handles)).native native call arguments) := by
  cases hfunction : nativeFunction P rounds handles native with
  | changing act =>
    rw [hfunction] at h
    rw [machine_native_changing hfunction]
    exact Yields.modify_bind moves_unpolled fun w' hw' => .modifyGet (makes_step (h.mono hw'))
  | calling action =>
    rw [hfunction] at h
    rw [machine_native_calling hfunction]
    exact gives_perform hcall h

include hhandles

/-- **The functions of the interpreter hand around what is there, and keep the links.** -/
theorem respects_links :
    (machine (pageBuiltins P rounds handles)).Respects (linkSetting w₀) where
  globals hs := hs.current.globals
  error message := moves_update (linked_error message)
  unpolled := moves_unpolled
  find hs h := hs.current.find h
  assign name _ hvalue := moves_update (linked_assign _ name hvalue)
  declare name _ hvalue := moves_update (linked_declare _ name hvalue)
  newEnvironment hparent := makes_step (linked_newEnvironment hparent)
  callEnvironment parameters _ hclosure hthis harguments :=
    makes_step (linked_callEnvironment hclosure hthis parameters harguments)
  binary op left right _ _ := linked_binary P rounds op left right
  makeArray helements := makes_step (linked_makeArray helements)
  makeObject hproperties := makes_step (linked_makeObject hproperties)
  property name hs := hs.current.property _ name
  putProperty name _ hvalue := moves_update (linked_putProperty _ name hvalue)
  makeFunction node _ henv := makes_step (linked_makeFunction node henv)
  makeRegex regex := makes_step (linked_makeRegex regex)
  getProperty name hobject := makes_step (linked_getProperty P rounds name hobject)
  setProperty name _ hvalue := linked_machine_setProperty P rounds _ name hvalue
  makeInstance hprototype := makes_step (linked_makeInstance hprototype)
  captured hs h := hs.current.callee h
  closure hs h := hs.current.callee h
  elements hs h := by
    obtain ⟨object, hobject, h⟩ := Option.bind_eq_some_iff.mp h
    split at h
    · rw [← Option.some.inj h]
      exact fun value hvalue => (hs.current.objects object (State.object_mem hobject)).contents value
        (List.mem_append_left _ hvalue)
    · cases h
  promise hs h := by
    obtain ⟨data, hdata, heq⟩ := Option.map_eq_some_iff.mp h
    rw [← (Prod.mk.inj heq).2]
    exact (hs.current.promise hdata).value
  fulfilledPromise hvalue := makes_step (linked_fulfilledPromise hvalue)
  native hcall _ native arguments hcaptured harguments := by
    refine Yields.of_world fun s hs hw => ?_
    have hfunction := linked_nativeFunction P rounds
      (fun handle hhandle => (hhandles handle hhandle).mono hs.2)
      (hcaptured.mono hw) (harguments.mono hw)
    exact gives_native P rounds hcall hfunction
  drainMicrotasks hcall := gives_drainMicrotasks hcall _

end

/-! ## Before the first script -/

section

variable {w : Extent}

theorem linked_empty : ({} : State).Linked := by
  refine ⟨Nat.one_pos, Nat.one_pos, ?_, ?_, ?_, ?_, ?_⟩
  · intro env scope hscope parent hparent
    rw [List.mem_singleton.mp (List.mem_of_getElem? hscope)] at hparent
    cases hparent
  · intro scope hscope slot hslot
    rw [List.mem_singleton.mp hscope] at hslot
    cases hslot
  · intro o object hobject prototype hprototype
    rw [List.mem_singleton.mp (List.mem_of_getElem? hobject)] at hprototype
    cases hprototype
  · intro object hobject
    rw [List.mem_singleton.mp hobject]
    exact within_of_contents (known_of_values_nil rfl) ⟨rfl, rfl, rfl, rfl⟩
  · exact fun _ htask => nomatch htask

theorem within_global (function : Option Bytes) : Object.Within w {
    contents := { isArray := false, isFunction := function.isSome, one_kind := fun h => nomatch h }
    callee := function.map fun name => .native ⟨name, []⟩ } := by
  refine ⟨known_of_values_nil rfl, ?_, ?_, fun callee hcallee => ?_⟩
  · exact fun _ hentry => nomatch hentry
  · exact fun _ hdata => nomatch hdata
  · obtain ⟨name, _, rfl⟩ := Option.map_eq_some_iff.mp hcallee
    exact fun _ hvalue => nomatch hvalue

theorem known_memberNatives {self : Heap.Value} (hself : Known w self)
    (members : List (Bytes × Bytes × Bool)) :
    ∀ native ∈ memberNatives self members, KnownAll w native.2.captured := by
  intro native hnative
  obtain ⟨member, _, rfl⟩ := List.mem_map.mp hnative
  intro value hvalue
  dsimp only at hvalue
  split at hvalue
  · rw [List.mem_singleton.mp hvalue]
    exact hself
  · cases hvalue

theorem linked_defineGlobal (name : Bytes) (function : Option Bytes)
    (members : List (Bytes × Bytes × Bool)) :
    KeepsLinks w (State.defineGlobal name function members) := by
  intro s hs hw
  obtain ⟨hs₁, hw₁, hmade⟩ := linked_allocate (fun _ hprototype => by exact nomatch hprototype)
    (within_global function) s hs hw
  obtain ⟨hs₂, hw₂⟩ :=
    linked_putNatives _ (known_memberNatives hmade members) _ hs₁ (le_refl _)
  obtain ⟨hs₃, hw₃⟩ := linked_declare 0 name (hmade.mono hw₂) _ hs₂ (le_refl _)
  exact ⟨hs₃, hw₁.trans (hw₂.trans hw₃)⟩

theorem linked_setupGlobals : setupGlobals.Linked := by
  have hglobals : ∀ (globals : List (Bytes × Option Bytes × List (Bytes × Bytes × Bool)))
      {s : State}, s.Linked →
        (globals.foldl (fun s g => State.defineGlobal g.1 g.2.1 g.2.2 s) s).Linked := by
    intro globals
    induction globals with
    | nil => exact fun hs => hs
    | cons global globals ih =>
      exact fun hs => ih (linked_defineGlobal _ _ _ _ hs (le_refl _)).1
  have hs := hglobals globalMembers linked_empty
  unfold setupGlobals
  generalize globalMembers.foldl _ _ = s at hs
  dsimp only
  have hroot : Known s.extent (.object (some objectPrototype)) := known_object hs.root
  have hs₁ := (linked_putProperty ((s.find 0 (lit "Object")).getD .undefined) (lit "prototype")
    hroot s hs (le_refl _)).1
  refine (linked_putProperty _ (lit "PI") ?_ _ hs₁ (le_refl _)).1
  exact known_of_plain fun _ => nofun

theorem linked_buildHandles : ∀ (elements : List (Option Bytes × Bytes))
    {handles : List (Bytes × Heap.Value)} {w : Extent}, (∀ handle ∈ handles, Known w handle.2) →
      MakesLinked w (fun w' handles => ∀ handle ∈ handles, Known w' handle.2)
        (buildHandles elements handles)
  | [], _, _, h => .pure fun _ hw handle hhandle => (h handle hhandle).mono hw
  | (id, text) :: elements, handles, w, h => by
    intro s hs hw
    obtain ⟨hs₁, hw₁, hmade⟩ := linked_handleFor id text s hs hw
    have hhandles : ∀ handle ∈ ((id.map fun id => (id, (s.handleFor (some id) text).1)).toList ++
        handles : List (Bytes × Heap.Value)), Known (s.handleFor id text).2.extent handle.2 := by
      intro handle hhandle
      rcases List.mem_append.mp hhandle with hhandle | hhandle
      · obtain ⟨_, _, rfl⟩ := Option.map_eq_some_iff.mp (Option.mem_toList.mp hhandle)
        exact hmade
      · exact (h handle hhandle).mono (hw.trans hw₁)
    obtain ⟨hs₂, hw₂, hbuilt⟩ := linked_buildHandles elements hhandles _ hs₁ (le_refl _)
    exact ⟨hs₂, hw₁.trans hw₂, hbuilt⟩

end

/-! ## Scripts and events -/

section

variable {w₀ w : Extent} {host : Host History} (h : host.Respects (linkSetting w₀)) (fuel : ℕ)

include h

theorem gives_handlerLoop {array target : Heap.Value} : ∀ (left i : ℕ) {w : Extent},
    Known w target →
      (linkSetting w₀).Gives w (fun _ _ => True) (handlerLoop host fuel array target left i)
  | 0, _, _, _ => .pure fun _ _ => trivial
  | left + 1, i, w, htarget => by
    refine .get_bind fun s hs hw => ?_
    split
    next => exact .pure fun _ _ => trivial
    next handler hhandler =>
      refine Yields.bind ((h.at_fuel fuel).call _ _ [] _
        (hs.current.elementsOf array handler (List.mem_of_getElem? hhandler))
        (fun _ hvalue => by cases hvalue) (htarget.mono hw)) fun w' hw' _ _ => ?_
      exact gives_handlerLoop left (i + 1) (htarget.mono (hw.trans hw'))

omit h in
theorem known_of_object {s : State} {value : Heap.Value} {object : Object}
    (hobject : s.object value = some object) : Known s.extent value := by
  intro o ho
  rw [ho] at hobject
  exact (List.getElem?_eq_some_iff.mp hobject).1

/-- An object on which an event is dispatched need not be there: then nothing is called. -/
theorem gives_dispatchEventTo (target : Heap.Value) (type : Bytes) :
    (linkSetting w₀).Gives w (fun _ _ => True) (dispatchEventTo host fuel target type) := by
  have hhandlers : ∀ w' : Extent, (linkSetting w₀).Gives w' (fun _ _ => True) (do
      let s := (← get).current
      let handlers := s.property target (lit "__handlers_" ++ type)
      if ((s.object handlers).map fun object => object.contents.isArray).getD false then
        handlerLoop host fuel handlers target (s.elementsOf handlers).length 0
      else return ()) := by
    intro w'
    refine .get_bind fun s _ _ => ?_
    dsimp only
    split
    next harray =>
      refine gives_handlerLoop h fuel _ 0 ?_
      cases hobject : s.current.object target with
      | some object => exact known_of_object hobject
      | none =>
        rw [State.property, hobject] at harray
        cases harray
    next => exact .pure fun _ _ => trivial
  refine .get_bind fun s hs _ => ?_
  split
  next handler hhandler =>
    obtain ⟨object, hobject, hlookup⟩ := Option.bind_eq_some_iff.mp hhandler
    refine Yields.bind ((h.at_fuel fuel).call _ _ [] _
      (hs.current.lookup_property (State.object_mem hobject) hlookup)
      (fun _ hvalue => by cases hvalue) (known_of_object hobject)) fun w' _ _ _ => ?_
    exact hhandlers w'
  next => exact hhandlers _

theorem gives_runTask (window document : Heap.Value) (task : Task) :
    (linkSetting w₀).Gives w (fun _ _ => True) (runTask host fuel window document task) := by
  cases task with
  | script program =>
    refine Yields.modify_bind (moves_update (linked_of_eq fun _ => ⟨rfl, rfl, rfl⟩))
      fun w' _ => ?_
    cases program with
    | error message => exact .modify (h.error _) fun _ _ => trivial
    | ok program =>
      exact Yields.bind (h.run fuel program) fun _ _ _ _ => .pure fun _ _ => trivial
  | event type =>
    refine Yields.bind (gives_dispatchEventTo h fuel document type) fun _ _ _ _ => ?_
    refine Yields.bind (gives_dispatchEventTo h fuel window type) fun _ _ _ _ => ?_
    exact h.drainMicrotasks (h.at_fuel fuel).call
  | eventTo target type => exact gives_dispatchEventTo h fuel _ type

theorem gives_forM (window document : Heap.Value) : ∀ (tasks : List Task) {w : Extent},
    (linkSetting w₀).Gives w (fun _ _ => True)
      (tasks.forM (runTask host fuel window document))
  | [], _ => .pure fun _ _ => trivial
  | task :: tasks, _ =>
    Yields.bind (gives_runTask h fuel window document task) fun _ _ _ _ =>
      gives_forM window document tasks

end

/-- **The links are kept, whatever the scripts and events.** -/
theorem runTasks_linked (P : Primitives) (rounds fuel : ℕ)
    (elements : List (Option Bytes × Bytes)) (tasks : List Task) :
    ∀ s ∈ (runTasks P rounds fuel elements tasks).2.states, s.Linked := by
  obtain ⟨hs, _, hhandles⟩ := linked_buildHandles elements
    (fun handle (hhandle : handle ∈ []) => by cases hhandle) setupGlobals linked_setupGlobals (le_refl _)
  have hstart : History.Linked (initial elements).2.extent { current := (initial elements).2 } :=
    ⟨fun s hs' => by rw [List.mem_singleton.mp hs']; exact hs, le_refl _⟩
  have hrun := gives_forM (respects_links P rounds hhandles) fuel
    ((setupGlobals.find 0 (lit "window")).getD .undefined)
    ((setupGlobals.find 0 (lit "document")).getD .undefined) tasks _ hstart (le_refl _)
  exact fun s hs' => hrun.1.1 s (List.mem_reverse.mp hs')

/-! ## Walks along the links -/

namespace State

section

variable (s : State)

/-- `env->parent` -/
def parentOf (env : EnvironmentId) : Option EnvironmentId := s.environments[env]?.bind Scope.parent

/-- A property of the object itself. -/
def ownProperty (name : Bytes) (o : ObjectId) : Option Heap.Value :=
  s.objects[o]?.bind fun object => object.contents.properties.lookup name

/-- A variable of the environment itself. -/
def ownVariable (name : Bytes) (env : EnvironmentId) : Option Heap.Value :=
  s.environments[env]?.bind fun scope => scope.slots.lookup name

/-- A round of the loop of `get_property_from_chain`. -/
def propertyStep (name : Bytes) (o : ObjectId) : Option ObjectId :=
  if (s.ownProperty name o).isSome then none else s.prototypeOf o

/-- A round of the loop of `instanceof`. -/
def instanceStep (target o : ObjectId) : Option ObjectId :=
  if o = target then none else s.prototypeOf o

/-- A call of `Environment::find` in itself. -/
def variableStep (name : Bytes) (env : EnvironmentId) : Option EnvironmentId :=
  if (s.ownVariable name env).isSome then none else s.parentOf env

/-- Every walk along the links of the state comes to an end: along all prototypes and all parents,
in the lookup of a property, in `instanceof` and in the lookup of a variable; and what these three
find at their end is what they are to find. -/
structure LinksEnd : Prop where
  prototypes : ∀ o, ∃ last, Loop.Ends s.prototypeOf o last
  parents : ∀ env, ∃ last, Loop.Ends s.parentOf env last
  property : ∀ name o, ∃ last, Loop.Ends (s.propertyStep name) o last ∧
    s.fromChain name s.objects.length o = (s.ownProperty name last).getD .undefined
  instance_of : ∀ target o, ∃ last, Loop.Ends (s.instanceStep target) o last ∧
    (s.chainHas target s.objects.length o ↔ last = target)
  «variable» : ∀ name env, ∃ last, Loop.Ends (s.variableStep name) env last ∧
    s.find env name = s.ownVariable name last

end

namespace Linked

variable {s : State} (hs : s.Linked)

include hs

theorem prototypeOf_lt {o prototype : ObjectId} (h : s.prototypeOf o = some prototype) :
    prototype < o := by
  obtain ⟨object, hobject, hprototype⟩ := Option.bind_eq_some_iff.mp h
  exact hs.prototypes o object hobject prototype hprototype

theorem parentOf_lt {env parent : EnvironmentId} (h : s.parentOf env = some parent) :
    parent < env := by
  obtain ⟨scope, hscope, hparent⟩ := Option.bind_eq_some_iff.mp h
  exact hs.parents env scope hscope parent hparent

theorem propertyStep_lt (name : Bytes) (o prototype : ObjectId)
    (h : s.propertyStep name o = some prototype) : prototype < o := by
  unfold propertyStep at h
  split at h
  · cases h
  · exact hs.prototypeOf_lt h

theorem instanceStep_lt (target : ObjectId) (o prototype : ObjectId)
    (h : s.instanceStep target o = some prototype) : prototype < o := by
  unfold instanceStep at h
  split at h
  · cases h
  · exact hs.prototypeOf_lt h

theorem variableStep_lt (name : Bytes) (env parent : EnvironmentId)
    (h : s.variableStep name env = some parent) : parent < env := by
  unfold variableStep at h
  split at h
  · cases h
  · exact hs.parentOf_lt h

omit hs in
theorem fromChain_succ (name : Bytes) (fuel : ℕ) (o : ObjectId) :
    s.fromChain name (fuel + 1) o =
      match s.propertyStep name o with
      | none => (s.ownProperty name o).getD .undefined
      | some prototype => s.fromChain name fuel prototype := by
  rw [State.fromChain, propertyStep, ownProperty, prototypeOf]
  cases s.objects[o]? with
  | none => rfl
  | some object =>
    dsimp only [Option.bind_some]
    split
    next value hfound =>
      simp only [hfound, Option.isSome_some, if_pos, Option.getD_some]
    next prototype hfound hprototype =>
      simp only [hfound, hprototype, Option.isSome_none, if_neg Bool.false_ne_true]
    next hfound hprototype =>
      simp only [hfound, hprototype, Option.isSome_none, if_neg Bool.false_ne_true, Option.getD_none]

omit hs in
theorem chainHas_succ (target : ObjectId) (fuel : ℕ) (o : ObjectId) :
    s.chainHas target (fuel + 1) o =
      match s.instanceStep target o with
      | none => o == target
      | some prototype => s.chainHas target fuel prototype := by
  rw [chainHas, instanceStep]
  by_cases htarget : o = target
  · rw [if_pos htarget, htarget]
    simp
  · rw [if_neg htarget, beq_false_of_ne htarget, Bool.false_or]
    cases s.prototypeOf o <;> rfl

omit hs in
theorem holder_succ (name : Bytes) (fuel : ℕ) (env : EnvironmentId) :
    s.holder name (fuel + 1) env =
      match s.variableStep name env with
      | none => if (s.ownVariable name env).isSome then some env else none
      | some parent => s.holder name fuel parent := by
  rw [holder, variableStep, ownVariable, parentOf]
  cases s.environments[env]? with
  | none => rfl
  | some scope =>
    show (if (scope.slots.lookup name).isSome then some env
      else scope.parent.bind (s.holder name fuel)) =
        match if (scope.slots.lookup name).isSome = true then none else scope.parent with
        | none => if (scope.slots.lookup name).isSome then some env else none
        | some parent => s.holder name fuel parent
    cases scope.slots.lookup name with
    | some value => rfl
    | none => cases scope.parent <;> rfl

omit hs in
/-- Where there is no object, the loops are left. -/
theorem prototypeOf_of_le {o : ObjectId} (h : s.objects.length ≤ o) : s.prototypeOf o = none := by
  rw [prototypeOf, List.getElem?_eq_none h]
  rfl

omit hs in
theorem parentOf_of_le {env : EnvironmentId} (h : s.environments.length ≤ env) :
    s.parentOf env = none := by
  rw [parentOf, List.getElem?_eq_none h]
  rfl

theorem property_ends (name : Bytes) (o : ObjectId) :
    ∃ last, Loop.Ends (s.propertyStep name) o last ∧
      s.fromChain name s.objects.length o = (s.ownProperty name last).getD .undefined := by
  obtain ⟨last, hlast⟩ := Loop.ends_of_descending (hs.propertyStep_lt name) o
  refine ⟨last, hlast,
    Loop.eq_of_ends_descending (hs.propertyStep_lt name) (fromChain_succ name) ?_ hlast⟩
  refine (Nat.lt_or_ge o s.objects.length).imp_right fun hge => ⟨?_, hs.root⟩
  rw [propertyStep, prototypeOf_of_le hge, ite_self]

theorem instance_ends (target o : ObjectId) :
    ∃ last, Loop.Ends (s.instanceStep target) o last ∧
      (s.chainHas target s.objects.length o ↔ last = target) := by
  obtain ⟨last, hlast⟩ := Loop.ends_of_descending (hs.instanceStep_lt target) o
  refine ⟨last, hlast, ?_⟩
  rw [Loop.eq_of_ends_descending (hs.instanceStep_lt target) (chainHas_succ target) ?_ hlast,
    beq_iff_eq]
  refine (Nat.lt_or_ge o s.objects.length).imp_right fun hge => ⟨?_, hs.root⟩
  rw [instanceStep, prototypeOf_of_le hge, ite_self]

theorem variable_ends (name : Bytes) (env : EnvironmentId) :
    ∃ last, Loop.Ends (s.variableStep name) env last ∧
      s.find env name = s.ownVariable name last := by
  obtain ⟨last, hlast⟩ := Loop.ends_of_descending (hs.variableStep_lt name) env
  refine ⟨last, hlast, ?_⟩
  have hholder : s.holder name s.environments.length env =
      if (s.ownVariable name last).isSome then some last else none := by
    refine Loop.eq_of_ends_descending (hs.variableStep_lt name) (holder_succ name) ?_ hlast
    refine (Nat.lt_or_ge env s.environments.length).imp_right fun hge => ⟨?_, hs.globals⟩
    rw [variableStep, parentOf_of_le hge, ite_self]
  rw [State.find, hholder]
  cases hvariable : s.ownVariable name last with
  | none => rfl
  | some value => exact hvariable

/-- **In a linked state all walks along the links end.** -/
theorem linksEnd : s.LinksEnd where
  prototypes := Loop.ends_of_descending fun _ _ => hs.prototypeOf_lt
  parents := Loop.ends_of_descending fun _ _ => hs.parentOf_lt
  property := hs.property_ends
  instance_of := hs.instance_ends
  «variable» := hs.variable_ends

end Linked

end State

/-- **Prototypes and parents come to an end** in every state of every page, whatever scripts it
runs, whatever events it is told of, and whatever is computed of numbers and strings; so the lookups
of properties and variables and `instanceof` always return. -/
theorem links_end (P : Primitives) (rounds fuel : ℕ) (elements : List (Option Bytes × Bytes))
    (tasks : List Task) :
    ∀ s ∈ (runTasks P rounds fuel elements tasks).2.states, s.LinksEnd :=
  fun s hs => (runTasks_linked P rounds fuel elements tasks s hs).linksEnd

theorem History.current_mem_states (h : History) : h.current ∈ h.states :=
  List.mem_reverse.mpr List.mem_cons_self

/-- Numbers and strings, for programs that use none of them. -/
def noPrimitives : Primitives where
  toNumber _ := .nan
  negate := id
  increment := id
  decrement := id
  toText _ _ := []
  operator _ _ _ _ := ⟨.undefined, fun _ => nofun⟩
  compute _ _ _ := ⟨.undefined, fun _ => nofun⟩
  texts _ _ _ := none
  slice _ size := (0, size)
  sort elements _ := elements
  strtod _ := (.nan, 0)
  now _ := .nan

/-- `function F() {}`, `F.prototype = F;` and `new F();`, and then an event. -/
def ownPrototype : List Task :=
  [.script (.ok (.program [.function true (lit "F") [] false (some (.block [])),
      .expressionStatement (.assignment (lit "=")
        (.member (.identifier (lit "F")) (lit "prototype")) (.identifier (lit "F"))),
      .expressionStatement (.new (.identifier (lit "F")) [])])),
    .event (lit "load")]

/-- A function that is its own `prototype` property, and an instance of it. -/
theorem links_end_ownPrototype : (runTasks noPrimitives 9 9 [] ownPrototype).2.current.LinksEnd :=
  links_end noPrimitives 9 9 [] ownPrototype _ (History.current_mem_states _)

end Aetheris.Js.Script
