import Aetheris.Js.Machine

/-!
# Where `break`, `continue` and `return` go

The interpreter hands the way in which a statement ends from one statement to the next around it.
Here the same statements are run with jumps: a statement is given the four programs that may come
after it, `Exits`, and the innermost loop, `switch` or call has put them there.  Handing the way of
ending outward and jumping there is the same thing, statement by statement (`EndsAt`), if a
`continue` in a `switch` is taken as the code takes it.

What such a `continue` does is left open, as a `Crossing`.  Two runs that differ in nothing else
agree, unless the first of them is stopped at such a `continue` (`agreeAt`): the relation is carried
through all functions of the interpreter at once, by an induction on the depth of the calls.  So a
run without one does what is done with jumps outward.
-/

namespace Aetheris.Js.Script

open Aetheris.Agree

variable {σ : Type}

/-- What comes after a statement: when it is finished, and when it is left by `return`, `break` and
`continue`. -/
structure Exits (σ : Type) where
  normal : Heap.Value → Run Stop σ Heap.Value
  ret : Heap.Value → Run Stop σ Heap.Value
  brk : Run Stop σ Heap.Value
  cont : Run Stop σ Heap.Value

/-- After the body of a function. -/
def Exits.function : Exits σ where
  normal _ := pure .undefined
  ret := pure
  brk := pure .undefined
  cont := pure .undefined

/-- After a program. -/
def Exits.program : Exits σ where
  normal := pure
  ret := pure
  brk := pure .undefined
  cont := pure .undefined

/-- In a `switch`, `continue` goes outward to the innermost loop; other than that, a run may be
stopped there, or go on with the next case. -/
inductive Crossing
  | outward
  | stopped
  | nextCase
  deriving DecidableEq, Repr

/-- What `continue` does in a `switch`, between the next case and what comes after the `switch`. -/
def Crossing.go (crossing : Crossing) (next : Run Stop σ Heap.Value) (exits : Exits σ) :
    Run Stop σ Heap.Value :=
  match crossing with
  | .outward => exits.cont
  | .stopped => throw .continueInSwitch
  | .nextCase => next

section

variable (host : Host σ) (crossing : Crossing)

/-- A statement, with what comes after it. -/
abbrev Jump (σ : Type) := Exits σ → Run Stop σ Heap.Value

/-- The statements of a block: after each of them comes the next one. -/
def blockJump (body : Syntax.Node → Jump σ) : List Syntax.Node → Heap.Value → Jump σ
  | [], value, exits => exits.normal value
  | child :: children, _, exits =>
    body child { exits with
      normal := fun value => do
        if host.hasError (← get) then exits.normal value
        else blockJump body children value exits }

/-- A loop over items: `continue` goes to the next item, `break` behind the loop. -/
def forOfJump (name : Bytes) (env : EnvironmentId) (body : Jump σ) : List Heap.Value → Jump σ
  | [], exits => exits.normal .undefined
  | item :: items, exits => do
    modify host.unpolled
    modify (host.declare env name item)
    body {
      normal := fun _ => forOfJump name env body items exits
      ret := exits.ret
      brk := exits.normal .undefined
      cont := forOfJump name env body items exits }

/-- The cases of a `switch`: `break` goes behind it. -/
def caseJump (body : Syntax.Node → Jump σ) : List Syntax.Node → Jump σ
  | [], exits => exits.normal .undefined
  | child :: children, exits =>
    body child {
      normal := fun _ => caseJump body children exits
      ret := exits.ret
      brk := exits.normal .undefined
      cont := crossing.go (caseJump body children exits) exits }

mutual

/-- A statement. -/
def jump : ℕ → Syntax.Node → EnvironmentId → Jump σ
  | 0, _, _, _ => throw .outOfFuel
  | fuel + 1, node, env, exits => do
    if host.hasError (← get) then exits.normal .undefined
    else match node with
    | .program children =>
      blockJump host (fun child => jump fuel child env) children .undefined exits
    | .block children => do
      let blockEnv ← modifyGet (host.newEnvironment env)
      blockJump host (fun child => jump fuel child blockEnv) children .undefined exits
    | .expressionStatement left => do
      let value ← evaluate host (callJump fuel) fuel left env
      exits.normal value
    | .variableDeclaration _ names initializers => do
      declareAll host (callJump fuel) fuel env names initializers
      exits.normal .undefined
    | .function true name _ _ _ => do
      let function ← evaluate host (callJump fuel) fuel node env
      modify (host.declare env name function)
      exits.normal .undefined
    | .classDeclaration name _ _ => do
      let class' ← evaluate host (callJump fuel) fuel node env
      modify (host.declare env name class')
      exits.normal .undefined
    | .ifStatement test body alternate => do
      let test ← evaluate host (callJump fuel) fuel test env
      if toBoolean test then jump fuel body env exits
      else
        match alternate with
        | some alternate => jump fuel alternate env exits
        | none => exits.normal .undefined
    | .whileStatement test body => whileJump fuel test body env exits
    | .forStatement init test update body => do
      let loopEnv ← modifyGet (host.newEnvironment env)
      match init with
      | some init =>
        jump fuel init loopEnv { exits with
          normal := fun _ => forJump fuel test update body loopEnv exits }
      | none => forJump fuel test update body loopEnv exits
    | .forOfStatement name right body => do
      let iterable ← evaluate host (callJump fuel) fuel right env
      match iterate host iterable (← get) with
      | some items => forOfJump host name env (jump fuel body env) items exits
      | none => do
        modify (host.error (lit "value is not iterable"))
        exits.normal .undefined
    | .switchStatement test initializers children => do
      let discriminant ← evaluate host (callJump fuel) fuel test env
      let switchEnv ← modifyGet (host.newEnvironment env)
      match ← startCase host (callJump fuel) fuel discriminant env initializers with
      | some start =>
        caseJump crossing (fun child => jump fuel child switchEnv) (children.drop start) exits
      | none => exits.normal .undefined
    | .returnStatement left => do
      let value ← evaluateOptional host (callJump fuel) fuel env left
      exits.ret value
    | .breakStatement => exits.brk
    | .continueStatement => exits.cont
    | _ => do
      let value ← evaluate host (callJump fuel) fuel node env
      exits.normal value

/-- The loop of `while`: `continue` goes to its next round, `break` behind it. -/
def whileJump : ℕ → Syntax.Node → Syntax.Node → EnvironmentId → Jump σ
  | 0, _, _, _, _ => throw .outOfFuel
  | fuel + 1, test, body, env, exits => do
    let value ← evaluate host (callJump fuel) fuel test env
    if toBoolean value && !host.hasError (← get) then
      jump fuel body env {
        normal := fun _ => whileJump fuel test body env exits
        ret := exits.ret
        brk := exits.normal .undefined
        cont := whileJump fuel test body env exits }
    else exits.normal .undefined

/-- The loop of `for`: `continue` goes to the update, `break` behind the loop. -/
def forJump : ℕ → Option Syntax.Node → Option Syntax.Node → Syntax.Node → EnvironmentId → Jump σ
  | 0, _, _, _, _, _ => throw .outOfFuel
  | fuel + 1, test, update, body, env, exits => do
    let goesOn ← forTest host (callJump fuel) fuel env test
    if goesOn && !host.hasError (← get) then
      jump fuel body env {
        normal := fun _ => do
          forUpdate host (callJump fuel) fuel env update
          forJump fuel test update body env exits
        ret := exits.ret
        brk := exits.normal .undefined
        cont := do
          forUpdate host (callJump fuel) fuel env update
          forJump fuel test update body env exits }
    else exits.normal .undefined

/-- A call: `return` goes to where it stands. -/
def callJump : ℕ → Caller σ
  | 0, _, _, _ => throw .outOfFuel
  | fuel + 1, callee, arguments, this => do
    match host.callee callee (← get) with
    | none => do
      modify (host.error (lit "value is not a function"))
      return .undefined
    | some (.native native) => host.native native (callJump fuel) arguments
    | some (.script parameters functionBody isAsync closure) => do
      let env ← modifyGet (host.callEnvironment closure this parameters arguments)
      let value ←
        match functionBody with
        | some body => jump fuel body env .function
        | none => pure .undefined
      if isAsync then modifyGet (host.fulfilledPromise value) else return value

end

/-- A program. -/
def runJump (fuel : ℕ) (program : Syntax.Node) : Run Stop σ Heap.Value := do
  let value ← jump host crossing fuel program host.globals .program
  host.drainMicrotasks (callJump host crossing fuel)
  return value

end

/-! ## The interpreter, with jumps -/

namespace Exits

variable (exits : Exits σ)

/-- What comes after a statement that has ended in this way. -/
def after : Completion → Run Stop σ Heap.Value
  | .normal value => exits.normal value
  | .ret value => exits.ret value
  | .brk => exits.brk
  | .cont => exits.cont

end Exits

section

variable {host : Host σ}

/-- The statement ends in some way, and then comes what comes after it. -/
def Ends (statement : Run Stop σ Completion) (jump : Jump σ) : Prop :=
  ∀ exits, jump exits = statement >>= exits.after

theorem blockJump_eq {body : Syntax.Node → Run Stop σ Completion} {jump : Syntax.Node → Jump σ}
    (h : ∀ child, Ends (body child) (jump child)) (children : List Syntax.Node)
    (value : Heap.Value) :
    Ends (blockLoop host body children value) (blockJump host jump children value) := by
  intro exits
  induction children generalizing value with
  | nil => rw [blockJump, blockLoop, pure_bind, Exits.after]
  | cons child children ih =>
    rw [blockJump, h, blockLoop, bind_assoc]
    refine bind_congr fun completion => ?_
    cases completion with
    | normal value =>
      simp only [Exits.after, bind_assoc]
      refine bind_congr fun s => ?_
      split
      · rw [pure_bind, Exits.after]
      · exact ih value
    | ret value => rw [pure_bind, Exits.after, Exits.after]
    | brk => rw [pure_bind, Exits.after, Exits.after]
    | cont => rw [pure_bind, Exits.after, Exits.after]

theorem forOfJump_eq {name : Bytes} {env : EnvironmentId} {body : Run Stop σ Completion}
    {jump : Jump σ} (h : Ends body jump) (items : List Heap.Value) :
    Ends (forOfLoop host name env body items) (forOfJump host name env jump items) := by
  intro exits
  induction items with
  | nil => rw [forOfJump, forOfLoop, pure_bind, Exits.after]
  | cons item items ih =>
    rw [forOfJump, forOfLoop, bind_assoc]
    refine bind_congr fun _ => ?_
    rw [bind_assoc]
    refine bind_congr fun _ => ?_
    rw [h, bind_assoc]
    refine bind_congr fun completion => ?_
    cases completion with
    | normal value => exact ih
    | ret value => rw [pure_bind, Exits.after, Exits.after]
    | brk => rw [pure_bind, Exits.after, Exits.after]
    | cont => exact ih

theorem caseJump_eq {body : Syntax.Node → Run Stop σ Completion} {jump : Syntax.Node → Jump σ}
    (h : ∀ child, Ends (body child) (jump child)) (children : List Syntax.Node) :
    Ends (caseLoop body children) (caseJump .nextCase jump children) := by
  intro exits
  induction children with
  | nil => rw [caseJump, caseLoop, pure_bind, Exits.after]
  | cons child children ih =>
    rw [caseJump, caseLoop, h, bind_assoc]
    refine bind_congr fun completion => ?_
    cases completion with
    | normal value => exact ih
    | ret value => rw [pure_bind, Exits.after, Exits.after]
    | brk => rw [pure_bind, Exits.after, Exits.after]
    | cont => exact ih

/-- What is shown of all functions at once, for calls of this depth. -/
structure EndsAt (host : Host σ) (fuel : ℕ) : Prop where
  call : callJump host .nextCase fuel = call host fuel
  execute : ∀ node env, Ends (execute host fuel node env) (jump host .nextCase fuel node env)
  whileLoop : ∀ test body env,
    Ends (whileLoop host fuel test body env) (whileJump host .nextCase fuel test body env)
  forLoop : ∀ test update body env,
    Ends (forLoop host fuel test update body env) (forJump host .nextCase fuel test update body env)

theorem ite_bind (c : Prop) [Decidable c] (p q : Run Stop σ Completion)
    (f : Completion → Run Stop σ Heap.Value) :
    (if c then p else q) >>= f = if c then p >>= f else q >>= f :=
  apply_ite (· >>= f) c p q

section

variable {fuel : ℕ} (ih : EndsAt host fuel)

include ih

theorem whileJump_eq (test body : Syntax.Node) (env : EnvironmentId) :
    Ends (whileLoop host (fuel + 1) test body env)
      (whileJump host .nextCase (fuel + 1) test body env) := by
  intro exits
  rw [whileJump, whileLoop, ih.call, bind_assoc]
  refine bind_congr fun value => ?_
  rw [bind_assoc]
  refine bind_congr fun s => ?_
  rw [ite_bind]
  refine if_congr Iff.rfl ?_ (by rw [pure_bind, Exits.after])
  rw [ih.execute, bind_assoc]
  refine bind_congr fun completion => ?_
  cases completion with
  | normal value => exact ih.whileLoop test body env exits
  | ret value => rw [pure_bind, Exits.after, Exits.after]
  | brk => rw [pure_bind, Exits.after, Exits.after]
  | cont => exact ih.whileLoop test body env exits

theorem forJump_eq (test update : Option Syntax.Node) (body : Syntax.Node) (env : EnvironmentId) :
    Ends (forLoop host (fuel + 1) test update body env)
      (forJump host .nextCase (fuel + 1) test update body env) := by
  intro exits
  rw [forJump, forLoop, ih.call, bind_assoc]
  refine bind_congr fun goesOn => ?_
  rw [bind_assoc]
  refine bind_congr fun s => ?_
  rw [ite_bind]
  refine if_congr Iff.rfl ?_ (by rw [pure_bind, Exits.after])
  rw [ih.execute, bind_assoc]
  refine bind_congr fun completion => ?_
  cases completion with
  | normal value =>
    simp only [Exits.after, bind_assoc]
    exact bind_congr fun _ => ih.forLoop test update body env exits
  | ret value => rw [pure_bind, Exits.after, Exits.after]
  | brk => rw [pure_bind, Exits.after, Exits.after]
  | cont =>
    simp only [Exits.after, bind_assoc]
    exact bind_congr fun _ => ih.forLoop test update body env exits

theorem callJump_eq : callJump host .nextCase (fuel + 1) = call host (fuel + 1) := by
  funext callee arguments this
  rw [callJump, call, ih.call]
  refine bind_congr fun s => ?_
  cases host.callee callee s with
  | none => rfl
  | some callee =>
    cases callee with
    | native native => rfl
    | script parameters functionBody isAsync closure =>
      refine bind_congr fun env => ?_
      cases functionBody with
      | none => rfl
      | some body =>
        simp only [ih.execute body env .function, bind_assoc]
        refine bind_congr fun completion => ?_
        cases completion <;> rfl

theorem jump_eq (node : Syntax.Node) (env : EnvironmentId) :
    Ends (execute host (fuel + 1) node env) (jump host .nextCase (fuel + 1) node env) := by
  intro exits
  have hnormal : ∀ value : Heap.Value,
      exits.normal value = (pure (.normal value) : Run Stop σ Completion) >>= exits.after :=
    fun value => (pure_bind _ _).symm
  rw [jump.eq_def, execute.eq_def]
  simp only [bind_assoc]
  refine bind_congr fun s => ?_
  split
  · exact hnormal .undefined
  · cases node with
    | program children =>
      exact blockJump_eq (fun child => ih.execute child env) children .undefined exits
    | block children =>
      simp only [bind_assoc]
      refine bind_congr fun blockEnv => ?_
      exact blockJump_eq (fun child => ih.execute child blockEnv) children .undefined exits
    | expressionStatement left =>
      simp only [ih.call, bind_assoc, ← hnormal]
    | variableDeclaration kindLet names initializers =>
      simp only [ih.call, bind_assoc, ← hnormal]
    | function isDeclaration name parameters isAsync body =>
      cases isDeclaration <;> simp only [ih.call, bind_assoc, ← hnormal]
    | classDeclaration name left properties =>
      simp only [ih.call, bind_assoc, ← hnormal]
    | ifStatement test body alternate =>
      simp only [ih.call, bind_assoc]
      refine bind_congr fun value => ?_
      rw [ite_bind]
      refine if_congr Iff.rfl (ih.execute body env exits) ?_
      cases alternate with
      | none => exact hnormal .undefined
      | some alternate => exact ih.execute alternate env exits
    | whileStatement test body => exact ih.whileLoop test body env exits
    | forStatement init test update body =>
      simp only [bind_assoc]
      refine bind_congr fun loopEnv => ?_
      cases init with
      | none => exact ih.forLoop test update body loopEnv exits
      | some init =>
        simp only [ih.execute init loopEnv _, bind_assoc]
        refine bind_congr fun completion => ?_
        cases completion with
        | normal value => exact ih.forLoop test update body loopEnv exits
        | ret value => rw [pure_bind, Exits.after, Exits.after]
        | brk => rw [pure_bind, Exits.after, Exits.after]
        | cont => rw [pure_bind, Exits.after, Exits.after]
    | forOfStatement name right body =>
      simp only [ih.call, bind_assoc]
      refine bind_congr fun iterable => bind_congr fun s => ?_
      cases iterate host iterable s with
      | none =>
        simp only [bind_assoc]
        exact bind_congr fun _ => hnormal .undefined
      | some items => exact forOfJump_eq (ih.execute body env) items exits
    | switchStatement test initializers children =>
      simp only [ih.call, bind_assoc]
      refine bind_congr fun discriminant => bind_congr fun switchEnv => bind_congr fun start => ?_
      cases start with
      | none => exact hnormal .undefined
      | some start =>
        exact caseJump_eq (fun child => ih.execute child switchEnv) (children.drop start) exits
    | returnStatement left =>
      simp only [ih.call, bind_assoc, pure_bind, Exits.after]
    | breakStatement => exact (pure_bind _ _).symm
    | continueStatement => exact (pure_bind _ _).symm
    | _ => simp only [ih.call, bind_assoc, ← hnormal]

omit ih in
/-- The functions of the interpreter are those with jumps, where `continue` in a `switch` goes on
with the next case; by induction on the depth of the calls. -/
theorem endsAt : ∀ fuel, EndsAt host fuel
  | 0 => ⟨rfl, fun _ _ _ => rfl, fun _ _ _ _ => rfl, fun _ _ _ _ _ => rfl⟩
  | fuel + 1 =>
    have ih := endsAt fuel
    ⟨callJump_eq ih, jump_eq ih, whileJump_eq ih, forJump_eq ih⟩

end

end

/-! ## Runs that agree -/

/-- Calls agree, up to a reason for stopping. -/
def CallsAgree (e : Stop) (call call' : Caller σ) : Prop :=
  ∀ callee arguments this, Agrees e (call callee arguments this) (call' callee arguments this)

/-- What comes after a statement agrees. -/
structure Exits.Agree (e : Stop) (exits exits' : Exits σ) : Prop where
  normal : ∀ value, Agrees e (exits.normal value) (exits'.normal value)
  ret : ∀ value, Agrees e (exits.ret value) (exits'.ret value)
  brk : Agrees e exits.brk exits'.brk
  cont : Agrees e exits.cont exits'.cont

/-- Native functions and microtasks do with functions nothing but call them. -/
structure Host.RegularFor (host : Host σ) (e : Stop) : Prop where
  native : ∀ call call', CallsAgree e call call' → ∀ native arguments,
    Agrees e (host.native native call arguments) (host.native native call' arguments)
  drainMicrotasks : ∀ call call', CallsAgree e call call' →
    Agrees e (host.drainMicrotasks call) (host.drainMicrotasks call')

/-- What two kinds of `switch` do with `continue` agrees. -/
def CrossingsAgree (σ : Type) (e : Stop) (crossing crossing' : Crossing) : Prop :=
  ∀ (next next' : Run Stop σ Heap.Value) (exits exits' : Exits σ), Agrees e next next' →
    exits.Agree e exits' → Agrees e (crossing.go next exits) (crossing'.go next' exits')

theorem crossingsAgree_stopped (crossing : Crossing) :
    CrossingsAgree σ .continueInSwitch .stopped crossing :=
  fun _ _ _ _ _ _ => .throw _

section

variable {e : Stop} {host : Host σ} {call call' : Caller σ}

theorem assignTo_agrees {eval eval' : Syntax.Node → Run Stop σ Heap.Value}
    (h : ∀ node, Agrees e (eval node) (eval' node)) (env : EnvironmentId) (value : Heap.Value)
    (left : Syntax.Node) : Agrees e (assignTo host eval env value left)
      (assignTo host eval' env value left) := by
  cases left with
  | member left name => exact (h left).bind fun _ => .refl _
  | index left right => exact (h left).bind fun _ => (h right).bind fun _ => .refl _
  | _ => exact .refl _

theorem calleeOf_agrees {eval eval' : Syntax.Node → Run Stop σ Heap.Value}
    (h : ∀ node, Agrees e (eval node) (eval' node)) (left : Syntax.Node) :
    Agrees e (calleeOf host eval left) (calleeOf host eval' left) := by
  cases left with
  | member left name => exact (h left).bind fun _ => .refl _
  | index left right => exact (h left).bind fun _ => (h right).bind fun _ => .refl _
  | _ => exact (h _).bind fun _ => .refl _

theorem evaluate_agrees (hhost : host.RegularFor e) (hcall : CallsAgree e call call') :
    ∀ fuel node env, Agrees e (evaluate host call fuel node env) (evaluate host call' fuel node env)
  | 0, _, _ => .refl _
  | fuel + 1, node, env => by
    have ih := evaluate_agrees hhost hcall fuel
    rw [evaluate.eq_def, evaluate.eq_def]
    refine .bind_left _ fun s => .ite (.refl _) ?_
    cases node with
    | arrayLiteral children =>
      exact (Agrees.mapM (fun child => ih child env) children).bind fun _ => .refl _
    | objectLiteral properties =>
      refine .bind (.mapM (fun p => ?_) properties) fun _ => .refl _
      exact (ih p.2 env).bind fun _ => .refl _
    | unary op left =>
      refine .ite ?_ (.ite ?_ (.ite ?_ (.ite ?_ (.ite ?_ (.refl _)))))
      · exact (ih left env).bind fun value =>
          (hhost.drainMicrotasks _ _ hcall).bind fun _ => .refl _
      · exact (ih left env).bind fun _ => .refl _
      · exact (ih left env).bind fun _ => .refl _
      · exact (ih left env).bind fun _ => .refl _
      · exact (ih left env).bind fun _ => .refl _
    | binary op left right =>
      exact (ih left env).bind fun _ => (ih right env).bind fun _ => .refl _
    | logical op left right =>
      refine (ih left env).bind fun _ => .ite ?_ ?_
      · exact .ite (ih right env) (.refl _)
      · exact .ite (.refl _) (ih right env)
    | conditional left right third =>
      exact (ih left env).bind fun _ => .ite (ih right env) (ih third env)
    | assignment op left right =>
      have hvalue : ∀ value, Agrees e
          (assignedValue host (fun node => evaluate host call fuel node env) op left value)
          (assignedValue host (fun node => evaluate host call' fuel node env) op left value) :=
        fun _ => .ite (.refl _) ((ih left env).bind fun _ => .refl _)
      refine (ih right env).bind fun value => (hvalue value).bind fun value => ?_
      exact (assignTo_agrees (fun node => ih node env) env value left).bind fun _ => .refl _
    | member left name => exact (ih left env).bind fun _ => .refl _
    | index left right => exact (ih left env).bind fun _ => (ih right env).bind fun _ => .refl _
    | call left children =>
      refine (calleeOf_agrees (fun node => ih node env) left).bind fun _ => ?_
      exact (Agrees.mapM (fun child => ih child env) children).bind fun _ => hcall _ _ _
    | new left children =>
      refine (ih left env).bind fun _ => (Agrees.mapM (fun child => ih child env) children).bind
        fun _ => .bind_left _ fun _ => .bind_left _ fun _ => (hcall _ _ _).bind fun _ => .refl _
    | _ => exact .refl _

section

variable (fuel : ℕ) (hhost : host.RegularFor e) (hcall : CallsAgree e call call')

include hhost hcall

theorem evaluateOptional_agrees (env : EnvironmentId) (node : Option Syntax.Node) :
    Agrees e (evaluateOptional host call fuel env node)
      (evaluateOptional host call' fuel env node) := by
  cases node with
  | none => exact .refl _
  | some node => exact evaluate_agrees hhost hcall fuel node env

theorem forTest_agrees (env : EnvironmentId) (test : Option Syntax.Node) :
    Agrees e (forTest host call fuel env test) (forTest host call' fuel env test) := by
  cases test with
  | none => exact .refl _
  | some test => exact (evaluate_agrees hhost hcall fuel test env).bind fun _ => .refl _

theorem forUpdate_agrees (env : EnvironmentId) (update : Option Syntax.Node) :
    Agrees e (forUpdate host call fuel env update) (forUpdate host call' fuel env update) := by
  cases update with
  | none => exact .refl _
  | some update => exact (evaluate_agrees hhost hcall fuel update env).bind fun _ => .refl _

theorem findCase_agrees (discriminant : Heap.Value) (env : EnvironmentId) :
    ∀ initializers, Agrees e (findCase host call fuel discriminant env initializers)
      (findCase host call' fuel discriminant env initializers)
  | [] => .refl _
  | none :: initializers =>
    (findCase_agrees discriminant env initializers).bind fun _ => .refl _
  | some initializer :: initializers =>
    (evaluate_agrees hhost hcall fuel initializer env).bind fun _ => .ite (.refl _)
      ((findCase_agrees discriminant env initializers).bind fun _ => .refl _)

theorem startCase_agrees (discriminant : Heap.Value) (env : EnvironmentId)
    (initializers : List (Option Syntax.Node)) :
    Agrees e (startCase host call fuel discriminant env initializers)
      (startCase host call' fuel discriminant env initializers) :=
  (findCase_agrees fuel hhost hcall discriminant env initializers).bind fun _ => .refl _

theorem declareAll_agrees (env : EnvironmentId) : ∀ names initializers,
      Agrees e (declareAll host call fuel env names initializers)
        (declareAll host call' fuel env names initializers)
  | [], _ => .refl _
  | _ :: names, initializers =>
    (evaluateOptional_agrees fuel hhost hcall env (initializers.headD none)).bind fun _ =>
      .bind_left _ fun _ => .bind_left _ fun _ =>
        declareAll_agrees env names initializers.tail

end

/-- Statements with jumps agree, where what comes after them does. -/
def JumpsAgree (e : Stop) (jump jump' : Jump σ) : Prop :=
  ∀ exits exits', exits.Agree e exits' → Agrees e (jump exits) (jump' exits')

theorem blockJump_agrees {body body' : Syntax.Node → Jump σ}
    (h : ∀ child, JumpsAgree e (body child) (body' child)) (children : List Syntax.Node)
    (value : Heap.Value) :
    JumpsAgree e (blockJump host body children value) (blockJump host body' children value) := by
  intro exits exits' hexits
  induction children generalizing value with
  | nil => exact hexits.normal value
  | cons child children ih =>
    exact h child _ _ {
      normal := fun value => .bind_left _ fun s => .ite (hexits.normal value) (ih value)
      ret := hexits.ret
      brk := hexits.brk
      cont := hexits.cont }

theorem forOfJump_agrees {name : Bytes} {env : EnvironmentId} {body body' : Jump σ}
    (h : JumpsAgree e body body') (items : List Heap.Value) :
    JumpsAgree e (forOfJump host name env body items) (forOfJump host name env body' items) := by
  intro exits exits' hexits
  induction items with
  | nil => exact hexits.normal .undefined
  | cons item items ih =>
    exact .bind_left _ fun _ => .bind_left _ fun _ => h _ _ {
      normal := fun _ => ih
      ret := hexits.ret
      brk := hexits.normal .undefined
      cont := ih }

theorem caseJump_agrees {crossing crossing' : Crossing}
    (hcrossing : CrossingsAgree σ e crossing crossing') {body body' : Syntax.Node → Jump σ}
    (h : ∀ child, JumpsAgree e (body child) (body' child)) (children : List Syntax.Node) :
    JumpsAgree e (caseJump crossing body children) (caseJump crossing' body' children) := by
  intro exits exits' hexits
  induction children with
  | nil => exact hexits.normal .undefined
  | cons child children ih =>
    exact h child _ _ {
      normal := fun _ => ih
      ret := hexits.ret
      brk := hexits.normal .undefined
      cont := hcrossing _ _ _ _ ih hexits }

/-- What is shown of all functions at once, for calls of this depth. -/
structure AgreeAt (e : Stop) (host : Host σ) (crossing crossing' : Crossing) (fuel : ℕ) :
    Prop where
  call : CallsAgree e (callJump host crossing fuel) (callJump host crossing' fuel)
  jump : ∀ node env,
    JumpsAgree e (jump host crossing fuel node env) (jump host crossing' fuel node env)
  whileJump : ∀ test body env, JumpsAgree e (whileJump host crossing fuel test body env)
    (whileJump host crossing' fuel test body env)
  forJump : ∀ test update body env, JumpsAgree e (forJump host crossing fuel test update body env)
    (forJump host crossing' fuel test update body env)

theorem exits_function_agrees : (Exits.function : Exits σ).Agree e .function where
  normal _ := .refl _
  ret _ := .refl _
  brk := .refl _
  cont := .refl _

section

variable {crossing crossing' : Crossing} {fuel : ℕ} (hhost : host.RegularFor e)
  (ih : AgreeAt e host crossing crossing' fuel)

include hhost ih

theorem whileJump_agrees (test body : Syntax.Node) (env : EnvironmentId) :
    JumpsAgree e (whileJump host crossing (fuel + 1) test body env)
      (whileJump host crossing' (fuel + 1) test body env) := by
  intro exits exits' hexits
  have hnext := ih.whileJump test body env exits exits' hexits
  rw [whileJump, whileJump]
  refine (evaluate_agrees hhost ih.call fuel test env).bind fun value => .bind_left _ fun s => ?_
  refine .ite (ih.jump body env _ _ ?_) (hexits.normal .undefined)
  exact {
    normal := fun _ => hnext
    ret := hexits.ret
    brk := hexits.normal .undefined
    cont := hnext }

theorem forJump_agrees (test update : Option Syntax.Node) (body : Syntax.Node)
    (env : EnvironmentId) :
    JumpsAgree e (forJump host crossing (fuel + 1) test update body env)
      (forJump host crossing' (fuel + 1) test update body env) := by
  intro exits exits' hexits
  have hnext := (forUpdate_agrees fuel hhost ih.call env update).bind fun _ =>
    ih.forJump test update body env exits exits' hexits
  rw [forJump, forJump]
  refine (forTest_agrees fuel hhost ih.call env test).bind fun goesOn => .bind_left _ fun s => ?_
  refine .ite (ih.jump body env _ _ ?_) (hexits.normal .undefined)
  exact {
    normal := fun _ => hnext
    ret := hexits.ret
    brk := hexits.normal .undefined
    cont := hnext }

theorem callJump_agrees :
    CallsAgree e (callJump host crossing (fuel + 1)) (callJump host crossing' (fuel + 1)) := by
  intro callee arguments this
  rw [callJump, callJump]
  refine .bind_left _ fun s => ?_
  cases host.callee callee s with
  | none => exact .refl _
  | some callee =>
    cases callee with
    | native native => exact hhost.native _ _ ih.call native arguments
    | script parameters functionBody isAsync closure =>
      refine .bind_left _ fun env => ?_
      cases functionBody with
      | none => exact .refl _
      | some body =>
        exact (ih.jump body env _ _ exits_function_agrees).bind fun _ => .refl _

theorem jump_agrees (hcrossing : CrossingsAgree σ e crossing crossing') (node : Syntax.Node)
    (env : EnvironmentId) :
    JumpsAgree e (jump host crossing (fuel + 1) node env)
      (jump host crossing' (fuel + 1) node env) := by
  intro exits exits' hexits
  have hevaluate := evaluate_agrees hhost ih.call fuel
  rw [jump.eq_def, jump.eq_def]
  refine .bind_left _ fun s => .ite (hexits.normal .undefined) ?_
  cases node with
  | program children =>
    exact blockJump_agrees (fun child => ih.jump child env) children .undefined exits exits' hexits
  | block children =>
    exact .bind_left _ fun blockEnv =>
      blockJump_agrees (fun child => ih.jump child blockEnv) children .undefined exits exits' hexits
  | expressionStatement left => exact (hevaluate left env).bind hexits.normal
  | variableDeclaration kindLet names initializers =>
    exact (declareAll_agrees fuel hhost ih.call env names initializers).bind fun _ =>
      hexits.normal .undefined
  | function isDeclaration name parameters isAsync body =>
    cases isDeclaration with
    | true => exact (hevaluate _ env).bind fun _ => .bind_left _ fun _ => hexits.normal .undefined
    | false => exact (hevaluate _ env).bind hexits.normal
  | classDeclaration name left properties =>
    exact (hevaluate _ env).bind fun _ => .bind_left _ fun _ => hexits.normal .undefined
  | ifStatement test body alternate =>
    refine (hevaluate test env).bind fun value => .ite (ih.jump body env exits exits' hexits) ?_
    cases alternate with
    | none => exact hexits.normal .undefined
    | some alternate => exact ih.jump alternate env exits exits' hexits
  | whileStatement test body => exact ih.whileJump test body env exits exits' hexits
  | forStatement init test update body =>
    refine .bind_left _ fun loopEnv => ?_
    have hloop := ih.forJump test update body loopEnv exits exits' hexits
    cases init with
    | none => exact hloop
    | some init =>
      exact ih.jump init loopEnv _ _ {
        normal := fun _ => hloop
        ret := hexits.ret
        brk := hexits.brk
        cont := hexits.cont }
  | forOfStatement name right body =>
    refine (hevaluate right env).bind fun iterable => .bind_left _ fun s => ?_
    cases iterate host iterable s with
    | none => exact .bind_left _ fun _ => hexits.normal .undefined
    | some items => exact forOfJump_agrees (ih.jump body env) items exits exits' hexits
  | switchStatement test initializers children =>
    refine (hevaluate test env).bind fun discriminant => .bind_left _ fun switchEnv => ?_
    refine (startCase_agrees fuel hhost ih.call discriminant env initializers).bind
      fun start => ?_
    cases start with
    | none => exact hexits.normal .undefined
    | some start =>
      exact caseJump_agrees hcrossing (fun child => ih.jump child switchEnv) (children.drop start)
        exits exits' hexits
  | returnStatement left =>
    exact (evaluateOptional_agrees fuel hhost ih.call env left).bind hexits.ret
  | breakStatement => exact hexits.brk
  | continueStatement => exact hexits.cont
  | _ => exact (hevaluate _ env).bind hexits.normal

end

/-- All functions agree; by induction on the depth of the calls. -/
theorem agreeAt (hhost : host.RegularFor e) {crossing crossing' : Crossing}
    (hcrossing : CrossingsAgree σ e crossing crossing') :
    ∀ fuel, AgreeAt e host crossing crossing' fuel
  | 0 => ⟨fun _ _ _ => .refl _, fun _ _ _ _ _ => .refl _, fun _ _ _ _ _ _ => .refl _,
      fun _ _ _ _ _ _ _ => .refl _⟩
  | fuel + 1 => by
    have ih := agreeAt hhost hcrossing fuel
    exact ⟨callJump_agrees hhost ih, jump_agrees hhost ih hcrossing, whileJump_agrees hhost ih,
      forJump_agrees hhost ih⟩

end

/-! ## Programs -/

theorem exits_program_agrees {e : Stop} : (Exits.program : Exits σ).Agree e .program where
  normal _ := .refl _
  ret _ := .refl _
  brk := .refl _
  cont := .refl _

theorem runJump_agrees {e : Stop} {host : Host σ} (hhost : host.RegularFor e)
    {crossing crossing' : Crossing} {fuel : ℕ}
    (h : AgreeAt e host crossing crossing' fuel) (program : Syntax.Node) :
    Agrees e (runJump host crossing fuel program) (runJump host crossing' fuel program) :=
  (h.jump program host.globals _ _ exits_program_agrees).bind fun _ =>
    (hhost.drainMicrotasks _ _ h.call).bind fun _ => .refl _

theorem runJump_nextCase (host : Host σ) (fuel : ℕ) (program : Syntax.Node) :
    runJump host .nextCase fuel program = run host fuel program := by
  rw [runJump, run, (endsAt fuel).call, (endsAt fuel).execute program host.globals, bind_assoc]
  refine bind_congr fun completion => ?_
  cases completion <;> simp only [Exits.after, Exits.program, pure_bind, Completion.value]

/-! ## On the machine -/

section

variable {e : Stop} {call call' : Caller History} (hcall : CallsAgree e call call')

include hcall

theorem perform_agrees : ∀ action, Agrees e (perform call action) (perform call' action)
  | .done _ => .refl _
  | .stop => .refl _
  | .look next => .bind_left _ fun h => perform_agrees (next h.current)
  | .quiet _ next => .bind_left _ fun value => perform_agrees (next value)
  | .call callee arguments this next =>
    (hcall callee arguments this).bind fun value => perform_agrees (next value)

theorem runPromiseHandler_agrees (task : Microtask) :
    Agrees e (runPromiseHandler call task) (runPromiseHandler call' task) :=
  .bind_left _ fun _ => .ite ((hcall _ _ _).bind fun _ => .refl _) (.refl _)

theorem drainMicrotasks_agrees :
    ∀ guard, Agrees e (drainMicrotasks call guard) (drainMicrotasks call' guard)
  | 0 => .refl _
  | guard + 1 => by
    refine .bind_left _ fun h => ?_
    cases h.current.microtasks with
    | nil => exact .refl _
    | cons task tasks =>
      exact .bind_left _ fun _ => (runPromiseHandler_agrees hcall task).bind fun _ =>
        drainMicrotasks_agrees guard

end

theorem machine_regularFor (builtins : Builtins) (e : Stop) : (machine builtins).RegularFor e where
  native call call' hcall native arguments := by
    cases hfunction : builtins.native native with
    | changing act =>
      rw [machine_native_changing hfunction, machine_native_changing hfunction]
      exact .refl _
    | calling action =>
      rw [machine_native_calling hfunction, machine_native_calling hfunction]
      exact perform_agrees hcall (action arguments)
  drainMicrotasks _ _ hcall := drainMicrotasks_agrees hcall 1000000

/-- **`break`, `continue` and `return` go where they should**, in every run of a program and in
every call, in which no `continue` is executed whose innermost loop or `switch` is a `switch`: up to
each depth of calls, the interpreter does what is done with jumps, and goes through the same
states. -/
theorem run_eq_runJump (builtins : Builtins) (fuel : ℕ) (h : History) :
    (∀ program, ((runJump (machine builtins) .stopped fuel program).from h).1 ≠
        .error .continueInSwitch →
      (run (machine builtins) fuel program).from h =
        (runJump (machine builtins) .outward fuel program).from h) ∧
    ∀ callee arguments this,
      ((callJump (machine builtins) .stopped fuel callee arguments this).from h).1 ≠
        .error .continueInSwitch →
      (call (machine builtins) fuel callee arguments this).from h =
        (callJump (machine builtins) .outward fuel callee arguments this).from h := by
  -- a run that is not stopped at such a `continue` is the same whatever it does there
  have hregular := machine_regularFor builtins .continueInSwitch
  have hagree (crossing : Crossing) :
      AgreeAt .continueInSwitch (machine builtins) .stopped crossing fuel :=
    agreeAt hregular (crossingsAgree_stopped crossing) fuel
  refine ⟨fun program hrun => ?_, fun callee arguments this hcall => ?_⟩
  · have hstopped := fun crossing =>
      (runJump_agrees hregular (hagree crossing) program h).resolve_left hrun
    rw [← runJump_nextCase]
    exact (hstopped .nextCase).symm.trans (hstopped .outward)
  · have hstopped := fun crossing =>
      ((hagree crossing).call callee arguments this h).resolve_left hcall
    rw [← (endsAt fuel).call]
    exact (hstopped .nextCase).symm.trans (hstopped .outward)

/-- `var y = true; for (var x of "a") { switch (null) { default: continue; } y = false; }`, or with
another statement in the place of the `switch`. -/
def assignAfter (statement : Syntax.Node) : Syntax.Node :=
  .program [
    .variableDeclaration false [lit "y"] [some (.booleanLiteral true)],
    .forOfStatement (lit "x") (.stringLiteral (lit "a")) (.block [
      statement,
      .expressionStatement
        (.assignment (lit "=") (.identifier (lit "y")) (.booleanLiteral false))])]

/-- A `continue` that stands in the loop itself. -/
theorem run_eq_runJump_continue :
    (run (machine unused) 9 (assignAfter .continueStatement)).from { current := {} } =
      (runJump (machine unused) .outward 9 (assignAfter .continueStatement)).from
        { current := {} } :=
  (run_eq_runJump unused 9 { current := {} }).1 _ (by decide)

/-- In a `switch`, `continue` does not leave the body of the loop: what stands behind the `switch`
is executed. -/
theorem not_forall_run_eq_runJump :
    ((run (machine unused) 9 (assignAfter
        (.switchStatement .nullLiteral [none] [.continueStatement]))).from
          { current := {} }).2.current.find 0 (lit "y") = some (.boolean false) ∧
      ((runJump (machine unused) .outward 9 (assignAfter
        (.switchStatement .nullLiteral [none] [.continueStatement]))).from
          { current := {} }).2.current.find 0 (lit "y") = some (.boolean true) := by
  decide

end Aetheris.Js.Script
