import Aetheris.Js.Machine

/-!
# Compound assignments

`x op= e` is short for `x = x op (e)`.  A binary operator evaluates its left operand first, but in a
compound assignment `evaluate` comes to `x` behind `e`.  So the two read `x` and evaluate `e` in
different orders, and do the same with the results.  If `x` is declared, `e` is evaluated in the same
state in both, and only what is read of `x` may differ.  If it is not, reading it is an error, and
behind an error `e` is not evaluated at all.
-/

namespace Aetheris.Js.Script

open Aetheris.Agree

section

variable (builtins : Builtins) (call : Caller History) (fuel : ℕ) (op : Byte) (name : Bytes)
  (e : Syntax.Node) (env : EnvironmentId)

/-- An operand of an expression. -/
abbrev operand (node : Syntax.Node) : Run Stop History Heap.Value :=
  evaluate (machine builtins) call (fuel + 1) node env

/-- `x op= e` -/
def compound : Run Stop History Heap.Value :=
  evaluate (machine builtins) call (fuel + 2) (.assignment [op, chr '='] (.identifier name) e) env

/-- `x = x op (e)`, whose operands are one call deeper. -/
def expansion : Run Stop History Heap.Value :=
  evaluate (machine builtins) call (fuel + 3)
    (.assignment (lit "=") (.identifier name) (.binary [op] (.identifier name) e)) env

/-- The value of an expression, and the state behind it. -/
def outcome (p : Run Stop History Heap.Value) (h : History) : Except Stop Heap.Value × State :=
  ((p.from h).1, (p.from h).2.current)

/-- The value of the variable where it is read. -/
def valueOf (h : History) : Heap.Value :=
  if h.current.hasError then .undefined else (h.current.find env name).getD .undefined

/-- The state behind a place where the variable is read. -/
def reported (h : History) : History :=
  if h.current.hasError ∨ (h.current.find env name).isSome then h
  else h.update (State.error (lit "undefined variable '" ++ name ++ lit "'"))

/-- The variable has been stored. -/
def stored (value : Heap.Value) (h : History) : History :=
  h.unpolled.update
    (if (h.current.find env name).isSome then .assign env name value else .declare env name value)

/-- It makes no difference that `x` is read behind `e`.  If `x` is declared, `e` leaves it declared or
reports an error, and the operator makes the same of the values of `x` before and behind `e`.  If it
is not, `e` does not declare it without an error; the states with the error, before `e` and behind
it, are the same but for `x`; and the operator makes the same of the value of `e` as of `undefined`. -/
def ReadsAlike (h : History) : Prop :=
  match h.current.find env name, (operand builtins call fuel env e).from h with
  | some _, (.error _, _) => True
  | none, (.error _, _) => False
  | some left, (.ok right, h') =>
    (h'.current.hasError ∨ (h'.current.find env name).isSome) ∧
      builtins.binary [op] left right h'.current =
        builtins.binary [op] (valueOf name env h') right h'.current
  | none, (.ok right, h') =>
    let value := builtins.binary [op] .undefined .undefined (reported name env h).current
    builtins.binary [op] (valueOf name env h') right (reported name env h').current = value ∧
      (stored name env value (reported name env h')).current =
        (stored name env value (reported name env h)).current

/-- What is done with the operands. -/
def finish (left right : Heap.Value) : Run Stop History Heap.Value := do
  let value ← modifyGet ((machine builtins).binary [op] left right)
  assignIdentifier (machine builtins) name value env
  return value

variable {builtins call fuel op name e env} {h : History}

theorem from_finish (left right : Heap.Value) :
    (finish builtins op name env left right).from h =
      (.ok (builtins.binary [op] left right h.current),
        stored name env (builtins.binary [op] left right h.current) h) := by
  have hassign (value : Heap.Value) : (assignIdentifier (machine builtins) name value env).from h =
      (.ok (), stored name env value h) := by
    rw [stored, assignIdentifier]
    show Run.from (if (h.current.find env name).isSome then _ else _) h.unpolled = _
    split <;> rfl
  rw [finish, from_bind]
  show Run.from (assignIdentifier (machine builtins) name _ env >>= fun _ => _) h = _
  rw [from_bind, hassign]
  rfl

theorem from_identifier : (operand builtins call fuel env (.identifier name)).from h =
    (.ok (valueOf name env h), reported name env h) := by
  rw [operand, evaluate, valueOf, reported]
  show Run.from (if h.current.hasError then _ else lookup (machine builtins) name env) h = _
  by_cases herror : h.current.hasError = true
  · rw [if_pos herror, if_pos herror, if_pos (Or.inl herror)]
    rfl
  · have hget : (get : Run Stop History History).from h = (.ok h, h) := rfl
    have hfind : (machine builtins).find env name h = h.current.find env name := rfl
    rw [if_neg herror, if_neg herror, lookup, from_bind, hget]
    simp only [or_iff_right herror, hfind]
    cases h.current.find env name <;> rfl

theorem from_of_hasError (herror : h.current.hasError = true) (depth : ℕ) (node : Syntax.Node) :
    (evaluate (machine builtins) call (depth + 1) node env).from h = (.ok .undefined, h) := by
  rw [evaluate.eq_def]
  show Run.from (if h.current.hasError then _ else _) h = _
  rw [herror]
  rfl

/-! ## Both orders -/

theorem from_compound (herror : h.current.hasError = false) :
    (compound builtins call fuel op name e env).from h =
      (do
        let right ← operand builtins call fuel env e
        let left ← operand builtins call fuel env (.identifier name)
        finish builtins op name env left right).from h := by
  rw [compound, evaluate]
  show Run.from (if h.current.hasError then _ else
    operand builtins call fuel env e >>= fun value => _) h = _
  rw [herror, if_neg Bool.false_ne_true, from_bind, from_bind]
  match (operand builtins call fuel env e).from h with
  | (.error _, _) => rfl
  | (.ok value, h') =>
    have hop : [op, chr '='] ≠ lit "=" := fun h => nomatch congrArg List.length h
    dsimp only
    rw [assignedValue, if_neg hop, bind_assoc]
    rfl

theorem from_expansion (herror : h.current.hasError = false) :
    (expansion builtins call fuel op name e env).from h =
      (do
        let left ← operand builtins call fuel env (.identifier name)
        let right ← operand builtins call fuel env e
        finish builtins op name env left right).from h := by
  have hbinary : (evaluate (machine builtins) call (fuel + 2)
      (.binary [op] (.identifier name) e) env).from h = (do
        let left ← operand builtins call fuel env (.identifier name)
        let right ← operand builtins call fuel env e
        modifyGet ((machine builtins).binary [op] left right)).from h := by
    rw [evaluate]
    show Run.from (if h.current.hasError then _ else _) h = _
    rw [herror]
    rfl
  rw [expansion, evaluate]
  show Run.from (if h.current.hasError then _ else evaluate (machine builtins) call (fuel + 2)
    (.binary [op] (.identifier name) e) env >>= fun value => _) h = _
  rw [herror, if_neg Bool.false_ne_true, from_bind, hbinary, ← from_bind]
  simp only [finish, bind_assoc]
  rfl

/-! ## The same outcome -/

theorem hasError_stored (value : Heap.Value) :
    (stored name env value h).current.hasError = h.current.hasError := by
  show ((if (h.current.find env name).isSome then _ else _ : State → State) h.current).hasError = _
  split
  · rw [State.assign]
    split <;> rfl
  · rfl

theorem hasError_reported (hread : ¬(h.current.find env name).isSome) :
    (reported name env h).current.hasError = true := by
  rw [reported]
  split
  next hor => exact hor.resolve_right hread
  next hor =>
    show (State.error _ h.current).hasError = true
    rw [State.error, if_neg (not_or.mp hor).1]

end

/-- **When `x op= e` is `x = x op (e)`.** From every state, for every operator, expression and depth
of calls, the two have the same value and leave the same state exactly if there is an error before,
so that neither is evaluated, or it makes no difference that `x` is read behind `e`. -/
theorem outcome_compound_iff (builtins : Builtins) (call : Caller History) (fuel : ℕ) (op : Byte)
    (name : Bytes) (e : Syntax.Node) (env : EnvironmentId) (h : History) :
    outcome (compound builtins call fuel op name e env) h =
        outcome (expansion builtins call fuel op name e env) h ↔
      h.current.hasError ∨ ReadsAlike builtins call fuel op name e env h := by
  cases herror : h.current.hasError with
  | true =>
    refine iff_of_true ?_ (Or.inl rfl)
    rw [outcome, outcome, compound, expansion, from_of_hasError herror, from_of_hasError herror]
  | false =>
    have hno : ¬h.current.hasError = true := by simp [herror]
    rw [outcome, outcome, from_compound herror, from_expansion herror, ReadsAlike,
      or_iff_right Bool.false_ne_true, from_bind, from_bind, from_identifier]
    dsimp only
    rw [from_bind]
    cases hfind : h.current.find env name with
    | some left =>
      have hvalue : valueOf name env h = left := by
        rw [valueOf, if_neg hno, hfind, Option.getD_some]
      have hreported : reported name env h = h := if_pos (Or.inr (by rw [hfind]; rfl))
      rw [hvalue, hreported]
      match (operand builtins call fuel env e).from h with
      | (.error _, _) => exact iff_of_true rfl trivial
      | (.ok right, h') =>
        dsimp only
        rw [from_bind, from_identifier]
        dsimp only
        rw [from_finish, from_finish]
        by_cases hread : h'.current.hasError ∨ (h'.current.find env name).isSome
        · have hsame : reported name env h' = h' := if_pos hread
          rw [hsame, and_iff_right hread]
          constructor
          · intro h
            exact (Except.ok.inj (congrArg Prod.fst h)).symm
          · intro h
            rw [h]
        · -- only the compound assignment reports an error
          refine iff_of_false (fun h => hread (Or.inl ?_)) fun h => hread h.1
          have hflag := congrArg (fun outcome => outcome.2.hasError) h
          dsimp only at hflag
          rw [hasError_stored, hasError_stored, hasError_reported (not_or.mp hread).2] at hflag
          exact hflag.symm
    | none =>
      have hvalue : valueOf name env h = .undefined := by
        rw [valueOf, if_neg hno, hfind, Option.getD_none]
      have hreported : (reported name env h).current.hasError = true :=
        hasError_reported (by rw [hfind]; decide)
      rw [hvalue, operand, operand, from_of_hasError hreported]
      dsimp only
      rw [from_finish]
      match (operand builtins call fuel env e).from h with
      | (.error _, _) => exact iff_of_false (fun h => nomatch congrArg Prod.fst h) id
      | (.ok right, h') =>
        dsimp only
        rw [from_bind, from_identifier]
        dsimp only
        rw [from_finish, Prod.mk.injEq, Except.ok.injEq]
        exact and_congr_right fun heq => by rw [heq]

/-- Numbers are added. -/
def adding : Builtins where
  __ := unused
  binary _ left right _ :=
    match left, right with
    | .number (.finite m), .number (.finite n) => .number (.finite (m + n))
    | _, _ => .undefined

/-- `x += (x = 5)` and `x = x + (x = 5)`, where `x` is 1. -/
theorem not_forall_outcome_compound :
    ¬∀ builtins call fuel op name e env h, outcome (compound builtins call fuel op name e env) h =
      outcome (expansion builtins call fuel op name e env) h := by
  intro h
  have hten := congrArg (fun outcome => outcome.1.toOption) (h adding (fun _ _ _ => pure .undefined)
    1 (chr '+') (lit "x") (.assignment (lit "=") (.identifier (lit "x")) (.numberLiteral (.finite 5)))
    0 { current := { environments := [{ slots := [(lit "x", .number (.finite 1))] }] } })
  revert hten
  decide +kernel

end Aetheris.Js.Script
