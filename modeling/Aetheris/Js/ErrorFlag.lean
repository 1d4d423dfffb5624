import Aetheris.Js.Machine

/-!
# What happens after an error

After an error the functions of the interpreter return, but not at once: only `evaluate` and
`execute` look at `m_has_error`, and what they return to goes on.  Where it stores something without
a look at `m_has_error`, and there is an error, this changes what a script can see; everywhere else,
nothing does.

A run is recorded as the states at which something is stored.  Every function of the interpreter
keeps the order of these states, so a run without an error at any of them changes nothing after its
first error.
-/

namespace Aetheris.Js.Script

open Aetheris.Agree

/-! ## Functions that change nothing -/

namespace State

theorem error_follows (message : Bytes) (s : State) : s.Follows (s.error message) := by
  intro herror
  rw [error, if_pos herror]
  exact ⟨herror, .refl s⟩

/-- New environments change nothing. -/
theorem follows_of_environments {s t : State} {scopes : List Scope}
    (henvironments : t.environments = s.environments ++ scopes) (hobjects : t.objects = s.objects)
    (hhooks : t.hooks = s.hooks) (herror : t.hasError = s.hasError) : s.Follows t := by
  refine fun h => ⟨herror.trans h, ?_, ?_, hhooks⟩
  · rw [henvironments]
    exact List.prefix_append _ _
  · rw [hobjects]

/-- New objects change nothing, and neither does what is not stored by scripts. -/
theorem follows_of_objects {s t : State}
    (henvironments : t.environments = s.environments)
    (hobjects : s.objects.map Object.stored <+: t.objects.map Object.stored)
    (hhooks : t.hooks = s.hooks) (herror : t.hasError = s.hasError) : s.Follows t := by
  refine fun h => ⟨herror.trans h, ?_, hobjects, hhooks⟩
  rw [henvironments]

theorem newEnvironment_follows (parent : EnvironmentId) (s : State) :
    s.Follows (s.newEnvironment parent).2 :=
  follows_of_environments rfl rfl rfl rfl

theorem callEnvironment_follows (closure : EnvironmentId) (this : Heap.Value)
    (parameters : List Bytes) (arguments : List Heap.Value) (s : State) :
    s.Follows (s.callEnvironment closure this parameters arguments).2 :=
  follows_of_environments rfl rfl rfl rfl

/-- Objects behind all that there are. -/
theorem append_follows (objects : List Object) (s : State) :
    s.Follows { s with objects := s.objects ++ objects } := by
  refine follows_of_objects rfl ?_ rfl rfl
  rw [List.map_append]
  exact List.prefix_append _ _

theorem makeRegex_follows (regex : Option Regex) (s : State) : s.Follows (s.makeRegex regex).2 := by
  cases regex with
  | none => exact .refl s
  | some regex => exact append_follows _ s

theorem getProperty_follows (builtins : Builtins) (object : Heap.Value) (name : Bytes)
    (s : State) : s.Follows (s.getProperty builtins object name).2 := by
  unfold getProperty
  split
  · exact .refl s
  · exact append_follows _ s
  · exact .refl s
  · exact .refl s

theorem map_stored_modify {f : Object → Object} (hf : ∀ object, (f object).stored = object.stored)
    (objects : List Object) (o : ObjectId) :
    (objects.modify o f).map Object.stored = objects.map Object.stored := by
  induction objects generalizing o with
  | nil => rw [List.modify_nil]
  | cons object objects ih =>
    cases o with
    | zero => rw [List.modify_zero_cons, List.map_cons, List.map_cons, hf]
    | succ o => rw [List.modify_succ_cons, List.map_cons, List.map_cons, ih]

theorem setPromise_follows (o : ObjectId) (data : PromiseData) (s : State) :
    s.Follows (s.setPromise o data) := by
  refine follows_of_objects rfl ?_ rfl rfl
  have hstored := map_stored_modify (f := fun object => { object with promise := some data })
    (fun _ => rfl) s.objects o
  show _ <+: (s.objects.modify o _).map Object.stored
  rw [hstored]

theorem microtasks_follows (microtasks : List Microtask) (s : State) :
    s.Follows { s with microtasks := microtasks } :=
  follows_of_objects rfl List.prefix_rfl rfl rfl

theorem settlePromise_follows (o : ObjectId) (rejected : Bool) (value : Heap.Value) (s : State) :
    s.Follows (s.settlePromise o rejected value) := by
  unfold settlePromise
  split
  · exact .refl s
  · split
    · exact (setPromise_follows o _ s).trans (microtasks_follows _ _)
    · exact .refl s

theorem fulfilledPromise_follows (value : Heap.Value) (s : State) :
    s.Follows (s.fulfilledPromise value).2 :=
  (append_follows _ s).trans (settlePromise_follows _ false value _)

theorem finishHandler_follows (derived : ObjectId) (result : Heap.Value) (s : State) :
    s.Follows (s.finishHandler derived result) := by
  unfold finishHandler
  split
  · split
    · exact ((append_follows _ s).trans (append_follows _ _)).trans (setPromise_follows _ _ _)
    · exact settlePromise_follows derived _ _ s
  · exact settlePromise_follows derived false _ s

end State

/-! ## Recorded runs -/

namespace History

/-- Where something is stored without a look at `m_has_error`, there is no error. -/
def Polled (h : History) : Prop := ∀ s ∈ h.stores, s.hasError = false

/-- In the run up to now, nothing has changed after an error. -/
def Ordered (h : History) : Prop :=
  h.Polled → (h.current :: h.past).Pairwise fun after before => before.Follows after

/-- And there is no error now. -/
def Ready (h : History) : Prop := h.Ordered ∧ (h.Polled → h.current.hasError = false)

variable {h : History}

theorem Ordered.push {s : State} (hordered : h.Ordered) (hs : h.Polled → h.current.Follows s) :
    (h.push s).Ordered := by
  intro hpolled
  have hpast := hordered hpolled
  refine List.pairwise_cons.mpr ⟨fun before hbefore => ?_, hpast⟩
  rcases List.mem_cons.mp hbefore with rfl | hbefore
  · exact hs hpolled
  · exact ((List.pairwise_cons.mp hpast).1 before hbefore).trans (hs hpolled)

theorem Ordered.unpolled (hordered : h.Ordered) : h.unpolled.Ready :=
  ⟨fun hpolled => hordered fun s hs => hpolled s (List.mem_cons_of_mem _ hs),
    fun hpolled => hpolled h.current List.mem_cons_self⟩

theorem Ready.push (hready : h.Ready) (s : State) : (h.push s).Ordered :=
  hready.1.push fun hpolled => .of_not (hready.2 hpolled)

theorem Ready.push_ready {s : State} (hready : h.Ready) (hs : s.hasError = h.current.hasError) :
    (h.push s).Ready :=
  ⟨hready.push s, fun hpolled => hs.trans (hready.2 hpolled)⟩

/-- What is left of a run that is kept in order: nothing changes after an error. -/
theorem Ordered.pairwise_states (hordered : h.Ordered) (hpolled : h.Polled) :
    h.states.Pairwise fun before after => before.hasError → after.hasError ∧ before.Keeps after :=
  List.pairwise_reverse.mpr (hordered hpolled)

end History

/-- The program keeps the run in order. -/
abbrev Maintains {α : Type} (p : Run Stop History α) : Prop :=
  Leads History.Ordered History.Ordered p

section

variable {α β : Type}

theorem Maintains.bind {p : Run Stop History α} {f : α → Run Stop History β} (h : Maintains p)
    (hf : ∀ a, Maintains (f a)) : Maintains (p >>= f) :=
  Leads.bind h hf fun _ => id

theorem Maintains.pure (a : α) : Maintains (pure a) := Leads.pure (fun _ => id) a

theorem Maintains.get_bind {f : History → Run Stop History β} (h : ∀ s, Maintains (f s)) :
    Maintains (get >>= f) :=
  Leads.get_bind fun s hs => h s s hs

theorem Maintains.step {f : State → α × State} (hf : ∀ s : State, s.Follows (f s).2) :
    Maintains (modifyGet (History.step f)) :=
  Leads.modifyGet fun h hordered => hordered.push fun _ => hf h.current

theorem Maintains.update {f : State → State} (hf : ∀ s : State, s.Follows (f s)) :
    Maintains (modify (History.update f)) :=
  Leads.modify fun h hordered => hordered.push fun _ => hf h.current

theorem Maintains.ite {c : Prop} [Decidable c] {p q : Run Stop History α} (h : Maintains p)
    (h' : Maintains q) : Maintains (if c then p else q) :=
  Leads.ite h h'

/-- Something is stored. -/
theorem Maintains.store {p : Run Stop History α} (h : Leads History.Ready History.Ordered p) :
    Maintains (modify History.unpolled >>= fun _ => p) :=
  Leads.bind (Leads.modify fun _ hordered => hordered.unpolled) (fun _ => h) fun _ => And.left

theorem Maintains.ready {p : Run Stop History α} (h : Maintains p) :
    Leads History.Ready History.Ordered p :=
  h.mono (fun _ => And.left) fun _ => id

/-- `m_has_error` is looked at. -/
theorem Maintains.poll {p : Run Stop History α} (a : α)
    (h : Leads History.Ready History.Ordered p) :
    Maintains (get >>= fun s => if s.current.hasError then Pure.pure a else p) := by
  refine Leads.get_bind fun s hs => ?_
  split
  · exact hs
  · rename_i herror
    exact h s ⟨hs, fun _ => Bool.eq_false_of_not_eq_true herror⟩

end

/-! ## Expressions -/

section

variable {builtins : Builtins} {call : Caller History}

/-- Calls keep the run in order. -/
def OrderlyCalls (call : Caller History) : Prop :=
  ∀ callee arguments this, Maintains (call callee arguments this)

theorem perform_ordered (hcall : OrderlyCalls call) : ∀ action, Maintains (perform call action)
  | .done value => Maintains.pure value
  | .stop => Leads.throw (fun _ => id) _
  | .look next => Maintains.get_bind fun h => perform_ordered hcall (next h.current)
  | .quiet act next => (Maintains.step act.2).bind fun value => perform_ordered hcall (next value)
  | .call callee arguments this next =>
    (hcall callee arguments this).bind fun value => perform_ordered hcall (next value)

theorem runPromiseHandler_ordered (hcall : OrderlyCalls call) (task : Microtask) :
    Maintains (runPromiseHandler call task) :=
  Maintains.get_bind fun _ => Maintains.ite
    ((hcall _ _ _).bind fun result =>
      Maintains.update (State.finishHandler_follows task.derived result))
    (Maintains.update (State.settlePromise_follows task.derived task.rejected task.value))

theorem drainMicrotasks_ordered (hcall : OrderlyCalls call) :
    ∀ guard, Maintains (drainMicrotasks call guard)
  | 0 => Maintains.pure ()
  | guard + 1 => by
    refine Maintains.get_bind fun h => ?_
    cases h.current.microtasks with
    | nil => exact Maintains.pure ()
    | cons task tasks =>
      exact (Maintains.update (State.microtasks_follows tasks)).bind fun _ =>
        (runPromiseHandler_ordered hcall task).bind fun _ => drainMicrotasks_ordered hcall guard

theorem native_ordered (hcall : OrderlyCalls call) (native : Native)
    (arguments : List Heap.Value) :
    Maintains ((machine builtins).native native call arguments) := by
  cases hfunction : builtins.native native with
  | changing act =>
    rw [machine_native_changing hfunction]
    exact Maintains.store (Leads.modifyGet fun h hready => hready.push _)
  | calling action =>
    rw [machine_native_calling hfunction]
    exact perform_ordered hcall (action arguments)

theorem error_ordered (message : Bytes) : Maintains (modify ((machine builtins).error message)) :=
  Maintains.update (State.error_follows message)

theorem setProperty_ordered (object : Heap.Value) (name : Bytes) (value : Heap.Value) :
    Maintains (modify ((machine builtins).setProperty object name value)) := by
  refine Leads.modify fun h hordered => ?_
  match object with
  | .object (some o) => exact hordered.unpolled.push _
  | .object none | .undefined | .null | .boolean _ | .number _ | .string _ => exact hordered

theorem getProperty_ordered (object : Heap.Value) (name : Bytes) :
    Maintains (modifyGet ((machine builtins).getProperty object name)) :=
  Maintains.step (State.getProperty_follows builtins object name)

theorem binary_ordered (op : Bytes) (left right : Heap.Value) :
    Maintains (modifyGet ((machine builtins).binary op left right)) :=
  Leads.modifyGet fun _ => id

theorem assignIdentifier_ordered (name : Bytes) (value : Heap.Value) (env : EnvironmentId) :
    Maintains (assignIdentifier (machine builtins) name value env) :=
  Maintains.store (Leads.get_bind fun h hready => by
    split
    · exact hready.push _
    · exact hready.push _)

section

variable {eval : Syntax.Node → Run Stop History Heap.Value} (heval : ∀ node, Maintains (eval node))

include heval

theorem assignedValue_ordered (op : Bytes) (left : Syntax.Node) (value : Heap.Value) :
    Maintains (assignedValue (machine builtins) eval op left value) :=
  Maintains.ite (Maintains.pure value) ((heval left).bind fun _ => binary_ordered _ _ _)

theorem assignTo_ordered (env : EnvironmentId) (value : Heap.Value) (left : Syntax.Node) :
    Maintains (assignTo (machine builtins) eval env value left) := by
  cases left with
  | identifier name => exact assignIdentifier_ordered name value env
  | member left name => exact (heval left).bind fun object => setProperty_ordered object name value
  | index left right =>
    exact (heval left).bind fun object => (heval right).bind fun _ =>
      .get_bind fun _ => setProperty_ordered object _ value
  | _ => exact Maintains.pure ()

theorem calleeOf_ordered (left : Syntax.Node) :
    Maintains (calleeOf (machine builtins) eval left) := by
  cases left with
  | member left name =>
    exact (heval left).bind fun this => (getProperty_ordered this name).bind fun _ =>
      Maintains.pure _
  | index left right =>
    exact (heval left).bind fun this => (heval right).bind fun key => Maintains.get_bind fun h =>
      (getProperty_ordered this _).bind fun _ => Maintains.pure _
  | _ => exact (heval _).bind fun _ => Maintains.pure _

end

theorem lookup_ordered (name : Bytes) (env : EnvironmentId) :
    Maintains (lookup (machine builtins) name env) := by
  refine Maintains.get_bind fun h => ?_
  split
  · exact Maintains.pure _
  · exact (error_ordered _).bind fun _ => Maintains.pure _

/-- Behind the look at `m_has_error`, `++` and `--` can store. -/
theorem update_ready (op name : Bytes) (env : EnvironmentId) :
    Leads History.Ready History.Ordered (update (machine builtins) op name env) := by
  refine Leads.get_bind fun h hready => ?_
  split
  · exact (error_ordered _).bind (fun _ => Maintains.pure _) h hready.1
  · exact hready.push _

theorem awaited_ordered (value : Heap.Value) : Maintains (awaited (machine builtins) value) := by
  refine Maintains.get_bind fun h => ?_
  split
  · split
    · exact (error_ordered _).bind fun _ => Maintains.pure _
    · exact Maintains.pure _
  · exact Maintains.pure _

theorem makeFunction_ready (node : Syntax.Node) (env : EnvironmentId) :
    Leads History.Ready History.Ready
      (modifyGet ((machine builtins).makeFunction node env) : Run Stop History Heap.Value) :=
  Leads.modifyGet fun _ hready => hready.push_ready rfl

theorem putProperty_ready (object : Heap.Value) (name : Bytes) (value : Heap.Value) :
    Leads History.Ready History.Ready
      (modify ((machine builtins).putProperty object name value) : Run Stop History Unit) := by
  refine Leads.modify fun h hready => hready.push_ready ?_
  match object with
  | .object (some o) => rfl
  | .object none | .undefined | .null | .boolean _ | .number _ | .string _ => rfl

theorem defineMethods_ready (prototype : Heap.Value) (env : EnvironmentId) :
    ∀ methods, Leads History.Ready History.Ready
      (defineMethods (machine builtins) prototype env methods)
  | [] => Leads.pure (fun _ => id) ()
  | (name, method) :: methods =>
    (makeFunction_ready method env).bind
      (fun _ => (putProperty_ready prototype name _).bind
        (fun _ => defineMethods_ready prototype env methods) fun _ => id) fun _ => id

/-- Between the look at `m_has_error` and the last method there is no error. -/
theorem defineClass_ready (left : Option Syntax.Node) (properties : List (Bytes × Syntax.Node))
    (env : EnvironmentId) :
    Leads History.Ready History.Ready (defineClass (machine builtins) left properties env) := by
  refine (makeFunction_ready _ env).bind (fun constructor => ?_) fun _ => id
  refine Leads.get_bind fun h hready => ?_
  split
  · exact (defineMethods_ready _ env properties).bind (fun _ => Leads.pure (fun _ => id) _)
      (fun _ => id) h hready
  · exact hready

section

variable (hcall : OrderlyCalls call)

include hcall

/-- Every expression keeps the run in order; by induction on the depth of the calls. -/
theorem evaluate_ordered : ∀ fuel node env,
    Maintains (evaluate (machine builtins) call fuel node env)
  | 0, _, _ => Leads.throw (fun _ => id) _
  | fuel + 1, node, env => by
    have ih := evaluate_ordered fuel
    have hchildren : ∀ children : List Syntax.Node, Maintains
        (children.mapM fun child => evaluate (machine builtins) call fuel child env) :=
      fun children => Leads.mapM (fun child => ih child env) children
    rw [evaluate.eq_def]
    refine Maintains.poll _ ?_
    cases node with
    | numberLiteral value => exact (Maintains.pure _).ready
    | stringLiteral value => exact (Maintains.pure _).ready
    | booleanLiteral value => exact (Maintains.pure _).ready
    | nullLiteral => exact (Maintains.pure _).ready
    | identifier name => exact (lookup_ordered name env).ready
    | arrayLiteral children =>
      exact ((hchildren children).bind fun elements =>
        Maintains.step (State.append_follows _)).ready
    | objectLiteral properties =>
      have hvalues := Leads.mapM (fun p : Bytes × Syntax.Node =>
        (ih p.2 env).bind fun value => Maintains.pure (p.1, value)) properties
      exact (Maintains.bind hvalues fun values => Maintains.step (State.append_follows _)).ready
    | function isDeclaration name parameters isAsync body =>
      exact (makeFunction_ready _ env).mono (fun _ => id) fun _ => And.left
    | classDeclaration name left properties =>
      exact (defineClass_ready left properties env).mono (fun _ => id) fun _ => And.left
    | unary op left =>
      have hleft := ih left env
      refine Leads.ite ?_ <| Leads.ite ?_ <| Leads.ite ?_ <| Leads.ite ?_ <| Leads.ite ?_ <|
        Leads.ite ?_ ?_
      · exact (hleft.bind fun value => (drainMicrotasks_ordered hcall _).bind fun _ =>
          awaited_ordered value).ready
      · exact (hleft.bind fun _ => Maintains.pure _).ready
      · exact (hleft.bind fun _ => Maintains.pure _).ready
      · exact (hleft.bind fun _ => Maintains.pure _).ready
      · exact (hleft.bind fun _ => Maintains.get_bind fun _ => Maintains.pure _).ready
      · cases left with
        | identifier name => exact update_ready op name env
        | _ => exact (Maintains.pure _).ready
      · exact (Maintains.pure _).ready
    | binary op left right =>
      exact ((ih left env).bind fun left => (ih right env).bind fun right =>
        binary_ordered op left right).ready
    | logical op left right =>
      refine Maintains.ready ((ih left env).bind fun left => Maintains.ite ?_ ?_)
      · exact Maintains.ite (ih right env) (Maintains.pure left)
      · exact Maintains.ite (Maintains.pure left) (ih right env)
    | conditional left right third =>
      exact ((ih left env).bind fun _ => Maintains.ite (ih right env) (ih third env)).ready
    | assignment op left right =>
      exact ((ih right env).bind fun value =>
        (assignedValue_ordered (fun node => ih node env) op left value).bind fun value =>
          (assignTo_ordered (fun node => ih node env) env value left).bind fun _ =>
            Maintains.pure value).ready
    | member left name =>
      exact ((ih left env).bind fun object => getProperty_ordered object name).ready
    | index left right =>
      exact ((ih left env).bind fun object => (ih right env).bind fun key =>
        Maintains.get_bind fun h => getProperty_ordered object _).ready
    | regexLiteral regex => exact (Maintains.step (State.makeRegex_follows regex)).ready
    | call left children =>
      exact ((calleeOf_ordered (fun node => ih node env) left).bind fun callee =>
        (hchildren children).bind fun arguments => hcall _ _ _).ready
    | new left children =>
      refine Maintains.ready ((ih left env).bind fun callee => (hchildren children).bind
        fun arguments => (getProperty_ordered callee _).bind fun prototype => ?_)
      refine (Maintains.step (State.append_follows _)).bind fun this =>
        (hcall _ _ _).bind fun _ => ?_
      split
      · exact Maintains.pure _
      · exact Maintains.pure _
    | _ => exact (Maintains.pure _).ready

theorem evaluateOptional_ordered (fuel : ℕ) (env : EnvironmentId) (node : Option Syntax.Node) :
    Maintains (evaluateOptional (machine builtins) call fuel env node) := by
  cases node with
  | none => exact Maintains.pure _
  | some node => exact evaluate_ordered hcall fuel node env

theorem forTest_ordered (fuel : ℕ) (env : EnvironmentId) (test : Option Syntax.Node) :
    Maintains (forTest (machine builtins) call fuel env test) := by
  cases test with
  | none => exact Maintains.pure _
  | some test => exact (evaluate_ordered hcall fuel test env).bind fun _ => Maintains.pure _

theorem forUpdate_ordered (fuel : ℕ) (env : EnvironmentId) (update : Option Syntax.Node) :
    Maintains (forUpdate (machine builtins) call fuel env update) := by
  cases update with
  | none => exact Maintains.pure _
  | some update => exact (evaluate_ordered hcall fuel update env).bind fun _ => Maintains.pure _

theorem findCase_ordered (fuel : ℕ) (discriminant : Heap.Value) (env : EnvironmentId) :
    ∀ initializers, Maintains
      (findCase (machine builtins) call fuel discriminant env initializers)
  | [] => Maintains.pure _
  | none :: initializers =>
    (findCase_ordered fuel discriminant env initializers).bind fun _ => Maintains.pure _
  | some initializer :: initializers =>
    (evaluate_ordered hcall fuel initializer env).bind fun _ => Maintains.ite (Maintains.pure _)
      ((findCase_ordered fuel discriminant env initializers).bind fun _ => Maintains.pure _)

theorem startCase_ordered (fuel : ℕ) (discriminant : Heap.Value) (env : EnvironmentId)
    (initializers : List (Option Syntax.Node)) :
    Maintains (startCase (machine builtins) call fuel discriminant env initializers) := by
  refine (findCase_ordered hcall fuel discriminant env initializers).bind fun start => ?_
  split
  · exact Maintains.pure _
  · exact Maintains.pure _

/-- What is declared is stored. -/
theorem declareAll_ordered (fuel : ℕ) (env : EnvironmentId) :
    ∀ names initializers, Maintains
      (declareAll (machine builtins) call fuel env names initializers)
  | [], _ => Maintains.pure ()
  | name :: names, initializers => by
    refine (evaluateOptional_ordered hcall fuel env (initializers.headD none)).bind fun value => ?_
    exact Maintains.store (Leads.bind (Leads.modify fun h hready => hready.push _)
      (fun _ => declareAll_ordered fuel env names initializers.tail) fun _ => id)

omit hcall in
/-- A function and a class are declared without an error in between. -/
theorem evaluate_ready {node : Syntax.Node}
    (hnode : (∃ isDeclaration name parameters isAsync body,
      node = .function isDeclaration name parameters isAsync body) ∨
      ∃ name left properties, node = .classDeclaration name left properties)
    (fuel : ℕ) (env : EnvironmentId) : Leads History.Ready History.Ready
      (evaluate (machine builtins) call fuel node env) := by
  cases fuel with
  | zero => exact Leads.throw (fun _ => id) _
  | succ fuel =>
    rw [evaluate.eq_def]
    refine Leads.get_bind fun h hready => ?_
    split
    · exact hready
    · rcases hnode with ⟨_, _, _, _, _, rfl⟩ | ⟨_, left, properties, rfl⟩
      · exact makeFunction_ready _ env h hready
      · exact defineClass_ready left properties env h hready

omit hcall in
/-- A function or a class, and its name. -/
theorem declare_ordered {node : Syntax.Node}
    (hnode : (∃ isDeclaration name parameters isAsync body,
      node = .function isDeclaration name parameters isAsync body) ∨
      ∃ name left properties, node = .classDeclaration name left properties)
    (fuel : ℕ) (env : EnvironmentId) (name : Bytes) :
    Leads History.Ready History.Ordered (do
      let value ← evaluate (machine builtins) call fuel node env
      modify ((machine builtins).declare env name value)
      return Completion.normal .undefined) :=
  (evaluate_ready hnode fuel env).bind
    (fun _ => Leads.bind (Leads.modify fun _ hready => hready.push _)
      (fun _ => Maintains.pure _) fun _ => id) fun _ => And.left

end

end

/-! ## Statements -/

section

variable {builtins : Builtins}

theorem blockLoop_ordered {body : Syntax.Node → Run Stop History Completion}
    (h : ∀ child, Maintains (body child)) :
    ∀ children value, Maintains (blockLoop (machine builtins) body children value)
  | [], value => Maintains.pure _
  | child :: children, _ => by
    refine (h child).bind fun completion => ?_
    split
    · exact Maintains.get_bind fun s =>
        Maintains.ite (Maintains.pure _) (blockLoop_ordered h children _)
    · exact Maintains.pure _

/-- The item of each round is stored. -/
theorem forOfLoop_ordered {name : Bytes} {env : EnvironmentId} {body : Run Stop History Completion}
    (h : Maintains body) : ∀ items, Maintains (forOfLoop (machine builtins) name env body items)
  | [] => Maintains.pure _
  | item :: items => by
    refine Maintains.store (Leads.bind (Leads.modify fun h hready => hready.push _) (fun _ => ?_)
      fun _ => id)
    refine Maintains.bind h fun completion => ?_
    split
    · exact Maintains.pure _
    · exact Maintains.pure _
    · exact forOfLoop_ordered h items

theorem caseLoop_ordered {body : Syntax.Node → Run Stop History Completion}
    (h : ∀ child, Maintains (body child)) : ∀ children, Maintains (caseLoop body children)
  | [] => Maintains.pure _
  | child :: children => by
    refine (h child).bind fun completion => ?_
    split
    · exact Maintains.pure _
    · exact Maintains.pure _
    · exact caseLoop_ordered h children

/-- What is shown of all functions at once, for calls of this depth. -/
structure OrderedAt (builtins : Builtins) (fuel : ℕ) : Prop where
  call : OrderlyCalls (call (machine builtins) fuel)
  execute : ∀ node env, Maintains (execute (machine builtins) fuel node env)
  whileLoop : ∀ test body env, Maintains (whileLoop (machine builtins) fuel test body env)
  forLoop : ∀ test update body env,
    Maintains (forLoop (machine builtins) fuel test update body env)

section

variable {fuel : ℕ} (ih : OrderedAt builtins fuel)

include ih

theorem whileLoop_ordered (test body : Syntax.Node) (env : EnvironmentId) :
    Maintains (whileLoop (machine builtins) (fuel + 1) test body env) := by
  rw [whileLoop]
  refine (evaluate_ordered ih.call fuel test env).bind fun value => Maintains.get_bind fun h =>
    Maintains.ite ((ih.execute body env).bind fun completion => ?_) (Maintains.pure _)
  split
  · exact Maintains.pure _
  · exact Maintains.pure _
  · exact ih.whileLoop test body env

theorem forLoop_ordered (test update : Option Syntax.Node) (body : Syntax.Node)
    (env : EnvironmentId) :
    Maintains (forLoop (machine builtins) (fuel + 1) test update body env) := by
  rw [forLoop]
  refine (forTest_ordered ih.call fuel env test).bind fun value => Maintains.get_bind fun h =>
    Maintains.ite ((ih.execute body env).bind fun completion => ?_) (Maintains.pure _)
  split
  · exact Maintains.pure _
  · exact Maintains.pure _
  · exact (forUpdate_ordered ih.call fuel env update).bind fun _ =>
      ih.forLoop test update body env

theorem call_ordered : OrderlyCalls (call (machine builtins) (fuel + 1)) := by
  intro callee arguments this
  rw [call]
  refine Maintains.get_bind fun h => ?_
  split
  · exact (error_ordered _).bind fun _ => Maintains.pure _
  · exact native_ordered ih.call _ arguments
  · rename_i parameters functionBody isAsync closure _
    have hresult : ∀ value, Maintains (if isAsync = true then
        modifyGet ((machine builtins).fulfilledPromise value) else pure value) := fun value =>
      Maintains.ite (Maintains.step (State.fulfilledPromise_follows value)) (Maintains.pure value)
    refine (Maintains.step (State.callEnvironment_follows closure this parameters arguments)).bind
      fun env => ?_
    cases functionBody with
    | none => exact (Maintains.pure _).bind hresult
    | some body =>
      refine (ih.execute body env).bind fun completion => ?_
      cases completion <;> exact (Maintains.pure _).bind hresult

theorem execute_ordered (node : Syntax.Node) (env : EnvironmentId) :
    Maintains (execute (machine builtins) (fuel + 1) node env) := by
  have hevaluate : ∀ node env,
      Maintains (evaluate (machine builtins) (call (machine builtins) fuel) fuel node env) :=
    evaluate_ordered ih.call fuel
  have hnewEnvironment : Maintains (modifyGet ((machine builtins).newEnvironment env)) :=
    Maintains.step (State.newEnvironment_follows env)
  rw [execute.eq_def]
  refine Maintains.poll _ ?_
  cases node with
  | program children =>
    exact (blockLoop_ordered (fun child => ih.execute child env) children _).ready
  | block children =>
    exact (hnewEnvironment.bind fun blockEnv =>
      blockLoop_ordered (fun child => ih.execute child blockEnv) children _).ready
  | expressionStatement left => exact ((hevaluate left env).bind fun _ => Maintains.pure _).ready
  | variableDeclaration kindLet names initializers =>
    exact ((declareAll_ordered ih.call fuel env names initializers).bind fun _ =>
      Maintains.pure _).ready
  | function isDeclaration name parameters isAsync body =>
    cases isDeclaration with
    | true => exact declare_ordered (.inl ⟨_, _, _, _, _, rfl⟩) fuel env name
    | false => exact ((hevaluate _ env).bind fun _ => Maintains.pure _).ready
  | classDeclaration name left properties =>
    exact declare_ordered (.inr ⟨_, _, _, rfl⟩) fuel env name
  | ifStatement test body alternate =>
    refine Maintains.ready ((hevaluate test env).bind fun value =>
      Maintains.ite (ih.execute body env) ?_)
    cases alternate with
    | none => exact Maintains.pure _
    | some alternate => exact ih.execute alternate env
  | whileStatement test body => exact (ih.whileLoop test body env).ready
  | forStatement init test update body =>
    refine Maintains.ready (hnewEnvironment.bind fun loopEnv => ?_)
    cases init with
    | none => exact ih.forLoop test update body loopEnv
    | some init =>
      refine (ih.execute init loopEnv).bind fun completion => ?_
      split
      · exact ih.forLoop test update body loopEnv
      · exact Maintains.pure _
  | forOfStatement name right body =>
    refine Maintains.ready ((hevaluate right env).bind fun iterable =>
      Maintains.get_bind fun h => ?_)
    split
    · exact forOfLoop_ordered (ih.execute body env) _
    · exact (error_ordered _).bind fun _ => Maintains.pure _
  | switchStatement test initializers children =>
    refine Maintains.ready ((hevaluate test env).bind fun discriminant =>
      hnewEnvironment.bind fun switchEnv =>
        (startCase_ordered ih.call fuel discriminant env initializers).bind fun start => ?_)
    split
    · exact caseLoop_ordered (fun child => ih.execute child switchEnv) _
    · exact Maintains.pure _
  | returnStatement left =>
    exact ((evaluateOptional_ordered ih.call fuel env left).bind fun _ => Maintains.pure _).ready
  | breakStatement => exact (Maintains.pure _).ready
  | continueStatement => exact (Maintains.pure _).ready
  | _ => exact ((hevaluate _ env).bind fun _ => Maintains.pure _).ready

end

/-- All functions of the interpreter keep the run in order; by induction on the depth of the
calls. -/
theorem orderedAt : ∀ fuel, OrderedAt builtins fuel
  | 0 => ⟨fun _ _ _ => Leads.throw (fun _ => id) _, fun _ _ => Leads.throw (fun _ => id) _,
      fun _ _ _ => Leads.throw (fun _ => id) _, fun _ _ _ _ => Leads.throw (fun _ => id) _⟩
  | fuel + 1 =>
    have ih := orderedAt fuel
    ⟨call_ordered ih, execute_ordered ih, whileLoop_ordered ih, forLoop_ordered ih⟩

end

theorem run_ordered (builtins : Builtins) (fuel : ℕ) (program : Syntax.Node) :
    Maintains (run (machine builtins) fuel program) :=
  ((orderedAt fuel).execute program _).bind fun _ =>
    (drainMicrotasks_ordered (orderedAt fuel).call _).bind fun _ => Maintains.pure _

/-! ## Runs -/

/-- **Nothing changes after an error**, in every run in which there is no error wherever an
assignment, a declaration of variables, a round of `for`-`of` or a native function stores something
without a look at `m_has_error`: all environments, objects, properties and elements that are there
in a state with the error are the same in every later state, and the host is not called. -/
theorem run_keeps (builtins : Builtins) (fuel : ℕ) (program : Syntax.Node) (s : State)
    (hpolled : ((run (machine builtins) fuel program).from { current := s }).2.Polled) :
    ((run (machine builtins) fuel program).from { current := s }).2.states.Pairwise
      fun before after => before.hasError → after.hasError ∧ before.Keeps after := by
  have hstart : ({ current := s } : History).Ordered := fun _ => List.pairwise_singleton _ _
  exact (run_ordered builtins fuel program _ hstart).pairwise_states hpolled

/-- `var x = true;`, and a statement behind it. -/
def declareBefore (statement : Syntax.Node) : Syntax.Node :=
  .program [.variableDeclaration false [lit "x"] [some (.booleanLiteral true)], statement]

/-- `if (y) x = false;`, where there is no `y`. -/
theorem run_keeps_if :
    ((run (machine unused) 9 (declareBefore (.ifStatement (.identifier (lit "y"))
      (.expressionStatement (.assignment (lit "=") (.identifier (lit "x")) (.booleanLiteral false)))
      none))).from { current := {} }).2.states.Pairwise
        fun before after => before.hasError → after.hasError ∧ before.Keeps after :=
  run_keeps unused 9 _ {} (by unfold History.Polled; decide)

/-- `x = y;`, where there is no `y`: behind the error, `x` is given another value. -/
theorem not_forall_run_keeps :
    ¬ ((run (machine unused) 9 (declareBefore (.expressionStatement
      (.assignment (lit "=") (.identifier (lit "x")) (.identifier (lit "y")))))).from
        { current := {} }).2.states.Pairwise
          fun before after => before.hasError → after.hasError ∧ before.Keeps after := by
  decide

end Aetheris.Js.Script
