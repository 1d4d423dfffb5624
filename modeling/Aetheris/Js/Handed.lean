import Aetheris.Js.Interpreter
import Aetheris.Library.Worlds

/-!
# What the interpreter hands around

The interpreter makes no values of its own but plain ones: an object that it stores, passes on or
returns is one that a function of its host has given to it, and so is an environment.  What is good
for the host's functions to get is therefore all that they get, if they give nothing else.  A
`Setting` says what is good in a world, and a run keeps it by induction on the depth of its calls.
-/

namespace Aetheris.Js.Script

open Aetheris.Agree Aetheris.Worlds

/-- Which values and environments are good in a world, and the invariant of the states. -/
structure Setting (σ ω : Type) [Preorder ω] where
  inv : σ → Prop
  world : σ → ω
  known : ω → Heap.Value → Prop
  scope : ω → EnvironmentId → Prop
  known_mono : ∀ {w w' : ω}, w ≤ w' → ∀ {value}, known w value → known w' value
  scope_mono : ∀ {w w' : ω}, w ≤ w' → ∀ {env}, scope w env → scope w' env
  /-- What points to no object is good everywhere. -/
  known_plain : ∀ {w : ω} {value}, (∀ o, value ≠ .object (some o)) → known w value

section

variable {σ ω : Type} [Preorder ω]

namespace Setting

variable (S : Setting σ ω)

/-- All of these values are good. -/
def KnownAll (w : ω) (values : List Heap.Value) : Prop := ∀ value ∈ values, S.known w value

/-- The value of a completion is good. -/
def KnownCompletion (w : ω) (completion : Completion) : Prop := S.known w completion.value

/-- The callee and its `this` are good. -/
def KnownPair (w : ω) (values : Heap.Value × Heap.Value) : Prop :=
  S.known w values.1 ∧ S.known w values.2

variable {S} {w w' : ω}

theorem KnownAll.mono {values : List Heap.Value} (h : S.KnownAll w values) (hw : w ≤ w') :
    S.KnownAll w' values :=
  fun value hvalue => S.known_mono hw (h value hvalue)

theorem known_undefined : S.known w .undefined := S.known_plain fun _ => nofun

theorem known_number (value : Number) : S.known w (.number value) := S.known_plain fun _ => nofun

theorem known_string (value : Bytes) : S.known w (.string value) := S.known_plain fun _ => nofun

variable (S) in
/-- The program yields a good result, from this world on. -/
abbrev Gives {α : Type} (w : ω) (good : ω → α → Prop) (p : Run Stop σ α) : Prop :=
  Yields S.inv S.world w good p

variable (S) in
/-- Calls with good values give good values. -/
def CallsGive (call : Caller σ) : Prop :=
  ∀ (w : ω) (callee : Heap.Value) (arguments : List Heap.Value) (this : Heap.Value),
    S.known w callee → S.KnownAll w arguments → S.known w this →
      S.Gives w S.known (call callee arguments this)

end Setting

/-- The functions of the host, given good values and environments, give good ones, and they keep
the invariant. -/
structure Host.Respects (host : Host σ) (S : Setting σ ω) : Prop where
  globals : ∀ {s}, S.inv s → S.scope (S.world s) host.globals
  error : ∀ {w} (message : Bytes), Moves S.inv S.world w (host.error message)
  unpolled : ∀ {w}, Moves S.inv S.world w host.unpolled
  find : ∀ {s env name value}, S.inv s → host.find env name s = some value →
    S.known (S.world s) value
  assign : ∀ {w env} (name : Bytes) {value}, S.known w value →
    Moves S.inv S.world w (host.assign env name value)
  declare : ∀ {w env} (name : Bytes) {value}, S.known w value →
    Moves S.inv S.world w (host.declare env name value)
  newEnvironment : ∀ {w parent}, S.scope w parent →
    Makes S.inv S.world w S.scope (host.newEnvironment parent)
  callEnvironment : ∀ {w closure this} (parameters : List Bytes) {arguments}, S.scope w closure →
    S.known w this → S.KnownAll w arguments →
      Makes S.inv S.world w S.scope (host.callEnvironment closure this parameters arguments)
  binary : ∀ {w} (op : Bytes) {left right}, S.known w left → S.known w right →
    Makes S.inv S.world w S.known (host.binary op left right)
  makeArray : ∀ {w elements}, S.KnownAll w elements →
    Makes S.inv S.world w S.known (host.makeArray elements)
  makeObject : ∀ {w} {properties : List (Bytes × Heap.Value)},
    (∀ p ∈ properties, S.known w p.2) →
      Makes S.inv S.world w S.known (host.makeObject properties)
  property : ∀ {s object} (name : Bytes), S.inv s →
    S.known (S.world s) (host.property object name s)
  putProperty : ∀ {w object} (name : Bytes) {value}, S.known w value →
    Moves S.inv S.world w (host.putProperty object name value)
  makeFunction : ∀ {w} (node : Syntax.Node) {env}, S.scope w env →
    Makes S.inv S.world w S.known (host.makeFunction node env)
  makeRegex : ∀ {w} (regex : Option Regex), Makes S.inv S.world w S.known (host.makeRegex regex)
  getProperty : ∀ {w object} (name : Bytes), S.known w object →
    Makes S.inv S.world w S.known (host.getProperty object name)
  setProperty : ∀ {w object} (name : Bytes) {value}, S.known w value →
    Moves S.inv S.world w (host.setProperty object name value)
  makeInstance : ∀ {w prototype}, S.known w prototype →
    Makes S.inv S.world w S.known (host.makeInstance prototype)
  captured : ∀ {s value native}, S.inv s → host.callee value s = some (.native native) →
    S.KnownAll (S.world s) native.captured
  closure : ∀ {s value parameters functionBody isAsync closure}, S.inv s →
    host.callee value s = some (.script parameters functionBody isAsync closure) →
      S.scope (S.world s) closure
  elements : ∀ {s value elements}, S.inv s → host.elements value s = some elements →
    S.KnownAll (S.world s) elements
  promise : ∀ {s value rejected result}, S.inv s →
    host.promise value s = some (rejected, result) → S.known (S.world s) result
  fulfilledPromise : ∀ {w value}, S.known w value →
    Makes S.inv S.world w S.known (host.fulfilledPromise value)
  native : ∀ {call}, S.CallsGive call → ∀ {w} {native : Native} {arguments},
    S.KnownAll w native.captured → S.KnownAll w arguments →
      S.Gives w S.known (host.native native call arguments)
  drainMicrotasks : ∀ {call}, S.CallsGive call → ∀ {w},
    S.Gives w (fun _ _ => True) (host.drainMicrotasks call)

variable {S : Setting σ ω} {host : Host σ} {call : Caller σ} {w : ω}

namespace Host.Respects

open Setting

/-! ## Expressions -/

/-- Nothing is expected of the result. -/
abbrev anything {α : Type} : ω → α → Prop := fun _ _ => True

theorem gives_plain {value : Heap.Value} (h : ∀ o, value ≠ .object (some o)) :
    S.Gives w S.known (pure value) :=
  .pure fun _ _ => S.known_plain h

theorem gives_known {value : Heap.Value} (h : S.known w value) :
    S.Gives w S.known (pure value) :=
  .pure fun _ hw => S.known_mono hw h

variable (h : host.Respects S)

include h

theorem gives_error (message : Bytes) :
    S.Gives w anything (modify (host.error message)) :=
  .modify (h.error message) fun _ _ => trivial

theorem lookup (name : Bytes) (env : EnvironmentId) :
    S.Gives w S.known (lookup host name env) := by
  refine .get_bind fun s hs _ => ?_
  split
  next value hfind => exact gives_known (h.find hs hfind)
  next => exact (h.gives_error _).bind fun _ _ _ _ => gives_plain fun _ => nofun

theorem awaited {value : Heap.Value} (hvalue : S.known w value) :
    S.Gives w S.known (awaited host value) := by
  refine .get_bind fun s hs hw => ?_
  split
  next rejected result hpromise =>
    have hresult := h.promise hs hpromise
    split
    · exact (h.gives_error _).bind fun w' hw' _ _ => gives_known (S.known_mono hw' hresult)
    · exact gives_known hresult
  next => exact gives_known (S.known_mono hw hvalue)

theorem update (op name : Bytes) (env : EnvironmentId) :
    S.Gives w S.known (update host op name env) := by
  refine .get_bind fun s hs _ => ?_
  split
  · exact (h.gives_error _).bind fun _ _ _ _ => gives_plain fun _ => nofun
  · exact Yields.modify_bind (h.assign name (known_number _)) fun _ _ => gives_plain fun _ => nofun

theorem assignIdentifier (name : Bytes) {value : Heap.Value} (env : EnvironmentId)
    (hvalue : S.known w value) :
    S.Gives w anything (assignIdentifier host name value env) := by
  refine Yields.modify_bind h.unpolled fun w' hw => ?_
  have hvalue' := S.known_mono hw hvalue
  refine .get_bind fun s hs hs' => ?_
  have hvalue'' := S.known_mono hs' hvalue'
  exact .ite (.modify (h.assign name hvalue'') fun _ _ => trivial)
    (.modify (h.declare name hvalue'') fun _ _ => trivial)

section

variable {eval : Syntax.Node → Run Stop σ Heap.Value}
  (heval : ∀ w', w ≤ w' → ∀ node, S.Gives w' S.known (eval node))

include heval

theorem assignedValue (op : Bytes) (left : Syntax.Node) {value : Heap.Value}
    (hvalue : S.known w value) : S.Gives w S.known (assignedValue host eval op left value) :=
  .ite (gives_known hvalue) ((heval w (le_refl w) left).bind fun _ hw _ hcurrent =>
    .modifyGet (h.binary _ hcurrent (S.known_mono hw hvalue)))

theorem assignTo (env : EnvironmentId) {value : Heap.Value} (hvalue : S.known w value)
    (left : Syntax.Node) : S.Gives w anything (assignTo host eval env value left) := by
  cases left with
  | identifier name => exact h.assignIdentifier name env hvalue
  | member left name =>
    exact (heval w (le_refl w) left).bind fun w' hw object _ =>
      .modify (h.setProperty name (S.known_mono hw hvalue)) fun _ _ => trivial
  | index left right =>
    refine (heval w (le_refl w) left).bind fun w' hw object _ =>
      (heval w' hw right).bind fun w'' hw' key _ => .get_bind fun s _ hs => ?_
    have hvalue' := S.known_mono ((hw.trans hw').trans hs) hvalue
    exact .modify (h.setProperty _ hvalue') fun _ _ => trivial
  | _ => exact .pure fun _ _ => trivial

theorem calleeOf (left : Syntax.Node) :
    S.Gives w S.KnownPair (calleeOf host eval left) := by
  cases left with
  | member left name =>
    refine (heval w (le_refl w) left).bind fun w' hw this hthis =>
      (Yields.modifyGet (h.getProperty name hthis)).bind fun w'' hw' callee hcallee => ?_
    exact .pure fun _ hw'' =>
      ⟨S.known_mono hw'' hcallee, S.known_mono (hw'.trans hw'') hthis⟩
  | index left right =>
    refine (heval w (le_refl w) left).bind fun w' hw this hthis =>
      (heval w' hw right).bind fun w'' hw' key _ => .get_bind fun s _ hs => ?_
    have hthis' := S.known_mono (hw'.trans hs) hthis
    refine (Yields.modifyGet (h.getProperty _ hthis')).bind fun w''' hw'' callee hcallee => ?_
    exact .pure fun _ hw''' =>
      ⟨S.known_mono hw''' hcallee, S.known_mono (hw''.trans hw''') hthis'⟩
  | _ =>
    exact (heval w (le_refl w) _).bind fun w' _ callee hcallee =>
      .pure fun _ hw => ⟨S.known_mono hw hcallee, known_undefined⟩

end

theorem defineMethods {env : EnvironmentId} (prototype : Heap.Value) :
    ∀ (methods : List (Bytes × Syntax.Node)) {w : ω}, S.scope w env →
      S.Gives w anything (defineMethods host prototype env methods)
  | [], _, _ => .pure fun _ _ => trivial
  | (name, method) :: methods, w, henv => by
    refine (Yields.modifyGet (h.makeFunction method henv)).bind fun w' hw function hfunction => ?_
    refine Yields.modify_bind (h.putProperty name hfunction) fun w'' hw' => ?_
    exact defineMethods prototype methods (S.scope_mono (hw.trans hw') henv)

theorem defineClass (left : Option Syntax.Node) (properties : List (Bytes × Syntax.Node))
    {env : EnvironmentId} (henv : S.scope w env) :
    S.Gives w S.known (defineClass host left properties env) := by
  refine (Yields.modifyGet (h.makeFunction _ henv)).bind fun w' hw constructor hconstructor =>
    .get_bind fun s hs hs' => ?_
  have hknown := S.known_mono hs' hconstructor
  split
  · exact (h.defineMethods _ properties (S.scope_mono (hw.trans hs') henv)).bind
      fun w'' hw' _ _ => gives_known (S.known_mono hw' hknown)
  · exact gives_known hknown

section

variable (hcall : S.CallsGive call)

include hcall

/-- **Every expression gives a good value**; by induction on the depth of the calls. -/
theorem evaluate : ∀ (fuel : ℕ) (node : Syntax.Node) {env : EnvironmentId} {w : ω},
    S.scope w env → S.Gives w S.known (evaluate host call fuel node env)
  | 0, _, _, _, _ => .throw _
  | fuel + 1, node, env, w, henv => by
    have ih : ∀ {w' : ω} (node : Syntax.Node), w ≤ w' →
        S.Gives w' S.known (Script.evaluate host call fuel node env) :=
      fun node hw => evaluate fuel node (S.scope_mono hw henv)
    have hchildren : ∀ (children : List Syntax.Node) {w' : ω}, w ≤ w' →
        S.Gives w' S.KnownAll
          (children.mapM fun child => Script.evaluate host call fuel child env) :=
      fun children w' hw => Yields.mapM S.known (fun _ _ _ hle => S.known_mono hle)
        fun child _ w'' hw' => ih child (hw.trans hw')
    rw [evaluate.eq_def]
    refine .get_bind fun s hs hw => .ite (gives_plain fun _ => (by rintro ⟨⟩)) ?_
    cases node with
    | numberLiteral value => exact gives_plain fun _ => (by rintro ⟨⟩)
    | stringLiteral value => exact gives_plain fun _ => (by rintro ⟨⟩)
    | booleanLiteral value => exact gives_plain fun _ => (by rintro ⟨⟩)
    | nullLiteral => exact gives_plain fun _ => (by rintro ⟨⟩)
    | identifier name => exact h.lookup name env
    | arrayLiteral children =>
      exact (hchildren children hw).bind fun _ _ _ helements =>
        .modifyGet (h.makeArray helements)
    | objectLiteral properties =>
      have hvalues : S.Gives (S.world s) (fun w' values => ∀ p ∈ values, S.known w' p.2)
          (properties.mapM fun p => do
            let value ← Script.evaluate host call fuel p.2 env
            return (p.1, value)) :=
        Yields.mapM (fun w' (p : Bytes × Heap.Value) => S.known w' p.2)
          (fun _ _ _ hle => S.known_mono hle) fun (p : Bytes × Syntax.Node) _ w' hw' =>
            (ih p.2 (hw.trans hw')).bind fun _ _ value hvalue =>
              .pure fun _ hle => S.known_mono hle hvalue
      exact hvalues.bind fun _ _ _ hproperties => .modifyGet (h.makeObject hproperties)
    | function isDeclaration name parameters isAsync body =>
      exact .modifyGet (h.makeFunction _ (S.scope_mono hw henv))
    | classDeclaration name left properties =>
      exact h.defineClass left properties (S.scope_mono hw henv)
    | unary op left =>
      have hleft := ih left hw
      refine .ite ?_ <| .ite ?_ <| .ite ?_ <| .ite ?_ <| .ite ?_ <| .ite ?_ ?_
      · exact hleft.bind fun _ _ value hvalue => (h.drainMicrotasks hcall).bind
          fun _ hw' _ _ => h.awaited (S.known_mono hw' hvalue)
      · exact hleft.bind fun _ _ _ _ => gives_plain fun _ => (by rintro ⟨⟩)
      · exact hleft.bind fun _ _ _ _ => gives_plain fun _ => (by rintro ⟨⟩)
      · exact hleft.bind fun _ _ _ _ => gives_plain fun _ => (by rintro ⟨⟩)
      · exact hleft.bind fun _ _ _ _ => .get_bind fun _ _ _ => gives_plain fun _ => (by rintro ⟨⟩)
      · cases left with
        | identifier name => exact h.update op name env
        | _ => exact gives_plain fun _ => (by rintro ⟨⟩)
      · exact gives_plain fun _ => (by rintro ⟨⟩)
    | binary op left right =>
      exact (ih left hw).bind fun w' hw' left hleft => (ih right (hw.trans hw')).bind
        fun w'' hw'' right hright => .modifyGet (h.binary op (S.known_mono hw'' hleft) hright)
    | logical op left right =>
      refine (ih left hw).bind fun w' hw' left hleft => ?_
      have hright := ih right (hw.trans hw')
      exact .ite (.ite hright (gives_known hleft)) (.ite (gives_known hleft) hright)
    | conditional left right third =>
      exact (ih left hw).bind fun w' hw' _ _ =>
        .ite (ih right (hw.trans hw')) (ih third (hw.trans hw'))
    | assignment op left right =>
      refine (ih right hw).bind fun w' hw' value hvalue => ?_
      have heval := fun w'' (hw'' : w' ≤ w'') node => ih node (hw.trans (hw'.trans hw''))
      refine (h.assignedValue heval op left hvalue).bind fun w'' hw'' value hvalue => ?_
      refine (h.assignTo (fun w''' hw''' => heval w''' (hw''.trans hw''')) env hvalue left).bind
        fun _ hle _ _ => gives_known (S.known_mono hle hvalue)
    | member left name =>
      exact (ih left hw).bind fun _ _ _ hobject => .modifyGet (h.getProperty name hobject)
    | index left right =>
      exact (ih left hw).bind fun w' hw' object hobject => (ih right (hw.trans hw')).bind
        fun w'' hw'' _ _ => .get_bind fun _ _ hs' =>
          .modifyGet (h.getProperty _ (S.known_mono (hw''.trans hs') hobject))
    | regexLiteral regex => exact .modifyGet (h.makeRegex regex)
    | call left children =>
      refine (h.calleeOf (fun w' hw' node => ih node (hw.trans hw')) left).bind
        fun w' hw' pair hpair => (hchildren children (hw.trans hw')).bind
          fun w'' hw'' arguments harguments => ?_
      exact hcall w'' _ _ _ (S.known_mono hw'' hpair.1) harguments (S.known_mono hw'' hpair.2)
    | new left children =>
      refine (ih left hw).bind fun w₁ hw₁ constructor hconstructor =>
        (hchildren children (hw.trans hw₁)).bind fun w₂ hw₂ arguments harguments => ?_
      have hconstructor₂ := S.known_mono hw₂ hconstructor
      refine (Yields.modifyGet (h.getProperty _ hconstructor₂)).bind
        fun w₃ hw₃ prototype hprototype => ?_
      refine (Yields.modifyGet (h.makeInstance hprototype)).bind fun w₄ hw₄ this hthis => ?_
      refine (hcall w₄ _ _ _ (S.known_mono (hw₃.trans hw₄) hconstructor₂)
        (harguments.mono (hw₃.trans hw₄)) hthis).bind fun w₅ hw₅ result hresult => ?_
      split
      · exact gives_known hresult
      · exact gives_known (S.known_mono hw₅ hthis)
    | _ => exact gives_plain fun _ => (by rintro ⟨⟩)

theorem evaluateOptional (fuel : ℕ) (node : Option Syntax.Node) {env : EnvironmentId}
    (henv : S.scope w env) :
    S.Gives w S.known (evaluateOptional host call fuel env node) := by
  cases node with
  | none => exact gives_plain fun _ => nofun
  | some node => exact h.evaluate hcall fuel node henv

theorem forTest (fuel : ℕ) (test : Option Syntax.Node) {env : EnvironmentId}
    (henv : S.scope w env) : S.Gives w anything (forTest host call fuel env test) := by
  cases test with
  | none => exact .pure fun _ _ => trivial
  | some test =>
    exact (h.evaluate hcall fuel test henv).bind fun _ _ _ _ => .pure fun _ _ => trivial

theorem forUpdate (fuel : ℕ) (update : Option Syntax.Node) {env : EnvironmentId}
    (henv : S.scope w env) : S.Gives w anything (forUpdate host call fuel env update) := by
  cases update with
  | none => exact .pure fun _ _ => trivial
  | some update =>
    exact (h.evaluate hcall fuel update henv).bind fun _ _ _ _ => .pure fun _ _ => trivial

theorem findCase (fuel : ℕ) (discriminant : Heap.Value) {env : EnvironmentId} :
    ∀ (initializers : List (Option Syntax.Node)) {w : ω}, S.scope w env →
      S.Gives w anything (findCase host call fuel discriminant env initializers)
  | [], _, _ => .pure fun _ _ => trivial
  | none :: initializers, _, henv =>
    (findCase fuel discriminant initializers henv).bind fun _ _ _ _ => .pure fun _ _ => trivial
  | some initializer :: initializers, _, henv =>
    (h.evaluate hcall fuel initializer henv).bind fun _ hw _ _ =>
      .ite (.pure fun _ _ => trivial)
        ((findCase fuel discriminant initializers (S.scope_mono hw henv)).bind
          fun _ _ _ _ => .pure fun _ _ => trivial)

theorem startCase (fuel : ℕ) (discriminant : Heap.Value)
    (initializers : List (Option Syntax.Node)) {env : EnvironmentId} (henv : S.scope w env) :
    S.Gives w anything (startCase host call fuel discriminant env initializers) := by
  refine (h.findCase hcall fuel discriminant initializers henv).bind fun _ _ start _ => ?_
  split
  · exact .pure fun _ _ => trivial
  · exact .pure fun _ _ => trivial

theorem declareAll (fuel : ℕ) {env : EnvironmentId} :
    ∀ (names : List Bytes) (initializers : List (Option Syntax.Node)) {w : ω}, S.scope w env →
      S.Gives w anything (declareAll host call fuel env names initializers)
  | [], _, _, _ => .pure fun _ _ => trivial
  | name :: names, initializers, w, henv => by
    refine (h.evaluateOptional hcall fuel (initializers.headD none) henv).bind
      fun w' hw value hvalue => ?_
    refine Yields.modify_bind h.unpolled fun w'' hw' => ?_
    refine Yields.modify_bind (h.declare name (S.known_mono hw' hvalue)) fun w''' hw'' => ?_
    exact declareAll fuel names initializers.tail
      (S.scope_mono (hw.trans (hw'.trans hw'')) henv)

end

/-! ## Statements -/

omit h in
theorem gives_completion {completion : Completion} (hvalue : S.known w completion.value) :
    S.Gives w S.KnownCompletion (pure completion) :=
  .pure fun _ hw => S.known_mono hw hvalue

omit h in
theorem blockLoop {body : Syntax.Node → Run Stop σ Completion} :
    ∀ (children : List Syntax.Node) {value : Heap.Value} {w : ω},
      (∀ w', w ≤ w' → ∀ child, S.Gives w' S.KnownCompletion (body child)) → S.known w value →
        S.Gives w S.KnownCompletion (blockLoop host body children value)
  | [], _, _, _, hvalue => gives_completion hvalue
  | child :: children, _, w, hbody, _ => by
    refine (hbody w (le_refl w) child).bind fun w' hw completion hcompletion => ?_
    split
    next =>
      refine .get_bind fun s _ hs => .ite (gives_completion (S.known_mono hs hcompletion)) ?_
      exact blockLoop children (fun w'' hw' => hbody w'' (hw.trans (hs.trans hw')))
        (S.known_mono hs hcompletion)
    next => exact gives_completion hcompletion

theorem forOfLoop {name : Bytes} {env : EnvironmentId} {body : Run Stop σ Completion} :
    ∀ (items : List Heap.Value) {w : ω},
      (∀ w', w ≤ w' → S.Gives w' S.KnownCompletion body) → S.KnownAll w items →
        S.Gives w S.KnownCompletion (forOfLoop host name env body items)
  | [], _, _, _ => gives_completion known_undefined
  | item :: items, w, hbody, hitems => by
    refine Yields.modify_bind h.unpolled fun w₁ hw₁ => ?_
    have hitem := S.known_mono hw₁ (hitems item List.mem_cons_self)
    refine Yields.modify_bind (h.declare name hitem) fun w₂ hw₂ => ?_
    refine (hbody w₂ (hw₁.trans hw₂)).bind fun w₃ hw₃ completion hcompletion => ?_
    have hw := hw₁.trans (hw₂.trans hw₃)
    split
    · exact gives_completion hcompletion
    · exact gives_completion known_undefined
    · exact forOfLoop items (fun w' hw' => hbody w' (hw.trans hw'))
        fun value hvalue => S.known_mono hw (hitems value (List.mem_cons_of_mem item hvalue))

omit h in
theorem caseLoop {body : Syntax.Node → Run Stop σ Completion} :
    ∀ (children : List Syntax.Node) {w : ω},
      (∀ w', w ≤ w' → ∀ child, S.Gives w' S.KnownCompletion (body child)) →
        S.Gives w S.KnownCompletion (caseLoop body children)
  | [], _, _ => gives_completion known_undefined
  | child :: children, w, hbody => by
    refine (hbody w (le_refl w) child).bind fun w' hw completion hcompletion => ?_
    split
    · exact gives_completion hcompletion
    · exact gives_completion known_undefined
    · exact caseLoop children fun w'' hw' => hbody w'' (hw.trans hw')

omit h in
variable (S host) in
/-- What is shown of all functions at once, for calls of this depth. -/
structure At (fuel : ℕ) : Prop where
  call : S.CallsGive (Script.call host fuel)
  execute : ∀ {w : ω} (node : Syntax.Node) {env : EnvironmentId}, S.scope w env →
    S.Gives w S.KnownCompletion (Script.execute host fuel node env)
  whileLoop : ∀ {w : ω} (test body : Syntax.Node) {env : EnvironmentId}, S.scope w env →
    S.Gives w S.KnownCompletion (Script.whileLoop host fuel test body env)
  forLoop : ∀ {w : ω} (test update : Option Syntax.Node) (body : Syntax.Node)
    {env : EnvironmentId}, S.scope w env →
      S.Gives w S.KnownCompletion (Script.forLoop host fuel test update body env)

section

variable {fuel : ℕ} (ih : At S host fuel)

include ih

theorem whileLoop (test body : Syntax.Node) {env : EnvironmentId} (henv : S.scope w env) :
    S.Gives w S.KnownCompletion (whileLoop host (fuel + 1) test body env) := by
  rw [Script.whileLoop]
  refine (h.evaluate ih.call fuel test henv).bind fun w₁ hw₁ value _ => .get_bind fun s _ hs =>
    .ite ?_ (gives_completion known_undefined)
  have henv' := S.scope_mono (hw₁.trans hs) henv
  refine (ih.execute body henv').bind fun w₂ hw₂ completion hcompletion => ?_
  split
  · exact gives_completion hcompletion
  · exact gives_completion known_undefined
  · exact ih.whileLoop test body (S.scope_mono hw₂ henv')

theorem forLoop (test update : Option Syntax.Node) (body : Syntax.Node) {env : EnvironmentId}
    (henv : S.scope w env) :
    S.Gives w S.KnownCompletion (forLoop host (fuel + 1) test update body env) := by
  rw [Script.forLoop]
  refine (h.forTest ih.call fuel test henv).bind fun w₁ hw₁ value _ => .get_bind fun s _ hs =>
    .ite ?_ (gives_completion known_undefined)
  have henv₁ := S.scope_mono (hw₁.trans hs) henv
  refine (ih.execute body henv₁).bind fun w₂ hw₂ completion hcompletion => ?_
  have henv₂ := S.scope_mono hw₂ henv₁
  split
  · exact gives_completion hcompletion
  · exact gives_completion known_undefined
  · exact (h.forUpdate ih.call fuel update henv₂).bind fun w₃ hw₃ _ _ =>
      ih.forLoop test update body (S.scope_mono hw₃ henv₂)

theorem calls : S.CallsGive (Script.call host (fuel + 1)) := by
  intro w callee arguments this hcallee harguments hthis
  rw [Script.call]
  refine .get_bind fun s hs hw => ?_
  split
  next => exact (h.gives_error _).bind fun _ _ _ _ => gives_plain fun _ => nofun
  next native heq => exact h.native ih.call (h.captured hs heq) (harguments.mono hw)
  next parameters functionBody isAsync closure heq =>
    have hresult : ∀ {w' : ω} {value : Heap.Value}, S.known w' value → S.Gives w' S.known
        (if isAsync = true then modifyGet (host.fulfilledPromise value) else pure value) :=
      fun hvalue => .ite (.modifyGet (h.fulfilledPromise hvalue)) (gives_known hvalue)
    refine (Yields.modifyGet (h.callEnvironment parameters (h.closure hs heq)
      (S.known_mono hw hthis) (harguments.mono hw))).bind fun w₁ hw₁ env henv => ?_
    cases functionBody with
    | none => exact hresult known_undefined
    | some body =>
      refine (ih.execute body henv).bind fun w₂ hw₂ completion hcompletion => ?_
      cases completion with
      | ret value => exact hresult hcompletion
      | _ => exact hresult known_undefined

/-- **Every statement hands around good values only.** -/
theorem execute (node : Syntax.Node) {env : EnvironmentId} (henv : S.scope w env) :
    S.Gives w S.KnownCompletion (execute host (fuel + 1) node env) := by
  rw [execute.eq_def]
  refine .get_bind fun s hs hw => .ite (gives_completion known_undefined) ?_
  have henv₁ := S.scope_mono hw henv
  have hevaluate : ∀ (node : Syntax.Node), S.Gives (S.world s) S.known
      (Script.evaluate host (Script.call host fuel) fuel node env) :=
    fun node => h.evaluate ih.call fuel node henv₁
  -- the expressions that stand where a statement does
  have hnormal : ∀ (node : Syntax.Node), S.Gives (S.world s) S.KnownCompletion (do
      let value ← Script.evaluate host (Script.call host fuel) fuel node env
      return .normal value) :=
    fun node => (hevaluate node).bind fun _ _ _ hvalue => gives_completion hvalue
  have hdeclared : ∀ (node : Syntax.Node) (name : Bytes),
      S.Gives (S.world s) S.KnownCompletion (do
        let value ← Script.evaluate host (Script.call host fuel) fuel node env
        modify (host.declare env name value)
        return .normal .undefined) :=
    fun node name => (hevaluate node).bind fun _ _ _ hvalue =>
      Yields.modify_bind (h.declare name hvalue) fun _ _ => gives_completion known_undefined
  cases node with
  | program children =>
    exact Respects.blockLoop children
      (fun w' hw' child => ih.execute child (S.scope_mono hw' henv₁)) known_undefined
  | block children =>
    refine (Yields.modifyGet (h.newEnvironment henv₁)).bind fun w₁ hw₁ blockEnv hblockEnv => ?_
    exact Respects.blockLoop children
      (fun w' hw' child => ih.execute child (S.scope_mono hw' hblockEnv)) known_undefined
  | expressionStatement left => exact hnormal left
  | variableDeclaration kindLet names initializers =>
    exact (h.declareAll ih.call fuel names initializers henv₁).bind
      fun _ _ _ _ => gives_completion known_undefined
  | function isDeclaration name parameters isAsync body =>
    cases isDeclaration with
    | true => exact hdeclared _ name
    | false => exact hnormal _
  | classDeclaration name left properties => exact hdeclared _ name
  | ifStatement test body alternate =>
    refine (hevaluate test).bind fun w₁ hw₁ value _ => ?_
    have henv₂ := S.scope_mono hw₁ henv₁
    refine .ite (ih.execute body henv₂) ?_
    cases alternate with
    | none => exact gives_completion known_undefined
    | some alternate => exact ih.execute alternate henv₂
  | whileStatement test body => exact ih.whileLoop test body henv₁
  | forStatement init test update body =>
    refine (Yields.modifyGet (h.newEnvironment henv₁)).bind fun w₁ hw₁ loopEnv hloopEnv => ?_
    cases init with
    | none => exact ih.forLoop test update body hloopEnv
    | some init =>
      refine (ih.execute init hloopEnv).bind fun w₂ hw₂ completion hcompletion => ?_
      split
      · exact ih.forLoop test update body (S.scope_mono hw₂ hloopEnv)
      · exact gives_completion hcompletion
  | forOfStatement name right body =>
    refine (hevaluate right).bind fun w₁ hw₁ iterable hiterable => .get_bind fun s' hs' hw' => ?_
    have henv₂ := S.scope_mono (hw₁.trans hw') henv₁
    split
    next items hitems =>
      refine h.forOfLoop items (fun w'' hw'' => ih.execute body (S.scope_mono hw'' henv₂)) ?_
      unfold iterate at hitems
      split at hitems
      next elements heq =>
        rw [← Option.some.inj hitems]
        exact h.elements hs' heq
      next text _ =>
        rw [← Option.some.inj hitems]
        intro value hvalue
        obtain ⟨c, _, rfl⟩ := List.mem_map.mp hvalue
        exact known_string _
      next => exact nomatch hitems
    next =>
      exact (h.gives_error _).bind fun _ _ _ _ => gives_completion known_undefined
  | switchStatement test initializers children =>
    refine (hevaluate test).bind fun w₁ hw₁ discriminant _ => ?_
    have henv₂ := S.scope_mono hw₁ henv₁
    refine (Yields.modifyGet (h.newEnvironment henv₂)).bind
      fun w₂ hw₂ switchEnv hswitchEnv => ?_
    refine (h.startCase ih.call fuel discriminant initializers
      (S.scope_mono hw₂ henv₂)).bind fun w₃ hw₃ start _ => ?_
    split
    · exact caseLoop _ fun w' hw' child =>
        ih.execute child (S.scope_mono (hw₃.trans hw') hswitchEnv)
    · exact gives_completion known_undefined
  | returnStatement left =>
    exact (h.evaluateOptional ih.call fuel left henv₁).bind
      fun _ _ _ hvalue => gives_completion hvalue
  | breakStatement => exact gives_completion known_undefined
  | continueStatement => exact gives_completion known_undefined
  | _ => exact hnormal _

end

/-- All functions of the interpreter hand around good values only; by induction on the depth of the
calls. -/
theorem at_fuel : ∀ fuel : ℕ, At S host fuel
  | 0 => ⟨fun _ _ _ _ _ _ _ => .throw _, fun _ _ _ => .throw _, fun _ _ _ _ => .throw _,
      fun _ _ _ _ _ => .throw _⟩
  | fuel + 1 =>
    have ih := at_fuel fuel
    ⟨h.calls ih, h.execute ih, h.whileLoop ih, h.forLoop ih⟩

/-- **A script hands around good values only, and keeps the invariant.** -/
theorem run (fuel : ℕ) (program : Syntax.Node) :
    S.Gives w S.known (run host fuel program) := by
  intro s hs hw
  refine ((h.at_fuel fuel).execute program (h.globals hs)).bind
    (fun w₁ hw₁ completion hcompletion => ?_) s hs (le_refl _)
  exact (h.drainMicrotasks (h.at_fuel fuel).call).bind
    fun _ hw₂ _ _ => gives_known (S.known_mono hw₂ hcompletion)

end Host.Respects

end

end Aetheris.Js.Script
