import Aetheris.Js.Parser
import Aetheris.Library.Fuel

/-!
# Printed expressions are parsed again

An expression is printed with parentheses only where the precedence of its parts asks for them.  The
functions of the parser call each other, one for each level, so what each of them does with a
printed expression is stated for all at once and proved by induction on the expression; `Stops` says
what may stand behind it.
-/

namespace Aetheris.Js.Syntax

open Aetheris.Fuel

/-! ## Printing -/

/-- An expression as it is written: `update` is an operator behind its operand, and the keys of an
object are names or strings. -/
inductive Tree
  | number (text : Bytes) (value : Number)
  | string (text : Bytes)
  | regex (text flags : Bytes) (compiled : Regex)
  | identifier (name : Bytes)
  | boolean (value : Bool)
  | null
  | undefined
  | array (elements : List Tree)
  | object (properties : List (Token × Tree))
  | unary (op : Bytes) (operand : Tree)
  | update (op : Bytes) (operand : Tree)
  | binary (op : Bytes) (left right : Tree)
  | conditional (test consequent alternate : Tree)
  | assignment (op : Bytes) (left right : Tree)
  | member (object : Tree) (name : Token)
  | index (object key : Tree)
  | call (callee : Tree) (arguments : List Tree)
  | new (callee : Tree) (arguments : List Tree)

/-- The token of an operator. -/
def opToken (op : Bytes) : Token := if op ∈ keywords then .keyword op else .punctuator op

/-- The token of an identifier: the lexer takes two of them for keywords. -/
def nameToken (name : Bytes) : Token := if name ∈ keywords then .keyword name else .identifier name

/-- The keywords that are identifiers as well. -/
def contextualKeywords : List Bytes := [lit "of", lit "async"]

/-- A punctuator. -/
def punct (s : String) : Token := .punctuator (lit s)

/-- The token is a name: an identifier or a keyword. -/
def isName : Token → Bool
  | .identifier _ | .keyword _ => true
  | _ => false

/-- The token can be the key of a property. -/
def isKey : Token → Bool
  | .identifier _ | .string _ => true
  | .keyword text => text ∈ keywords
  | _ => false

namespace Tree

mutual

/-- The syntax tree of an expression. -/
def node : Tree → Node
  | number _ value => .numberLiteral value
  | string text => .stringLiteral text
  | regex _ _ compiled => .regexLiteral (some compiled)
  | identifier name => .identifier name
  | boolean value => .booleanLiteral value
  | null => .nullLiteral
  | undefined => .identifier (lit "undefined")
  | array elements => .arrayLiteral (nodes elements)
  | object properties => .objectLiteral (propertyNodes properties)
  | unary op operand => .unary op operand.node
  | update op operand => .unary op operand.node
  | binary op left right => binaryNode op left.node right.node
  | conditional test consequent alternate =>
    .conditional test.node consequent.node alternate.node
  | assignment op left right => .assignment op left.node right.node
  | member base name => .member base.node (text name)
  | index base key => .index base.node key.node
  | call callee arguments => .call callee.node (nodes arguments)
  | new callee arguments => .new callee.node (nodes arguments)

/-- The syntax trees of a list of expressions. -/
def nodes : List Tree → List Node
  | [] => []
  | x :: xs => x.node :: nodes xs

/-- The syntax trees of properties. -/
def propertyNodes : List (Token × Tree) → List (Bytes × Node)
  | [] => []
  | (key, x) :: xs => (text key, x.node) :: propertyNodes xs

end

/-- How tight the outermost operator is: assignments and conditionals below all others, then the
binary operators, `7` for an operator before its operand, `8` for one behind it. -/
def level : Tree → ℕ
  | conditional _ _ _ => 0
  | assignment _ _ _ => 0
  | binary op _ _ => binaryPrecedence op
  | unary _ _ => 7
  | update _ _ => 8
  | _ => 9

/-- The callee of `new` may stand without parentheses: a primary expression, or members of one.
`nested` says that this may be another `new`, with its arguments, as in JavaScript. -/
def isCallee (nested : Bool) : Tree → Bool
  | member base _ => base.level < 9 || base.isCallee nested
  | index base _ => base.level < 9 || base.isCallee nested
  | call _ _ => false
  | new _ _ => nested
  | x => x.level == 9

/-- Parentheses, where they are needed. -/
def enclose (needed : Bool) (tokens : List Token) : List Token :=
  if needed then punct "(" :: (tokens ++ [punct ")"]) else tokens

mutual

/-- An expression is printed. -/
def print (nested : Bool) : Tree → List Token
  | number text value => [.number text value]
  | string text => [.string text]
  | regex text flags _ => [.regex text flags]
  | identifier name => [nameToken name]
  | boolean value => [.keyword (if value then lit "true" else lit "false")]
  | null => [.keyword (lit "null")]
  | undefined => [.keyword (lit "undefined")]
  | array elements => punct "[" :: (printList nested elements ++ [punct "]"])
  | object properties =>
    punct "\x7b" :: (printProperties nested properties ++ [punct "\x7d"])
  | unary op operand => opToken op :: enclose (operand.level < 7) (operand.print nested)
  | update op operand => enclose (operand.level < 9) (operand.print nested) ++ [opToken op]
  | binary op left right =>
    enclose (left.level < binaryPrecedence op) (left.print nested) ++ opToken op ::
      enclose (right.level < binaryPrecedence op + 1) (right.print nested)
  | conditional test consequent alternate =>
    enclose (test.level < 1) (test.print nested) ++ punct "?" ::
      (consequent.print nested ++ punct ":" :: alternate.print nested)
  | assignment op left right =>
    enclose (left.level < 9) (left.print nested) ++ opToken op :: right.print nested
  | member base name => enclose (base.level < 9) (base.print nested) ++ [punct ".", name]
  | index base key =>
    enclose (base.level < 9) (base.print nested) ++ punct "[" ::
      (key.print nested ++ [punct "]"])
  | call callee arguments =>
    enclose (callee.level < 9) (callee.print nested) ++ punct "(" ::
      (printList nested arguments ++ [punct ")"])
  | new callee arguments =>
    .keyword (lit "new") :: (enclose (!callee.isCallee nested) (callee.print nested) ++
      punct "(" :: (printList nested arguments ++ [punct ")"]))

/-- Expressions, separated by commas. -/
def printList (nested : Bool) : List Tree → List Token
  | [] => []
  | [x] => x.print nested
  | x :: y :: xs => x.print nested ++ punct "," :: printList nested (y :: xs)

/-- Properties, separated by commas. -/
def printProperties (nested : Bool) : List (Token × Tree) → List Token
  | [] => []
  | [(key, x)] => key :: punct ":" :: x.print nested
  | (key, x) :: p :: xs =>
    key :: punct ":" :: (x.print nested ++ punct "," :: printProperties nested (p :: xs))

end

section Print

variable (nested : Bool) (op : Bytes) (x y z : Tree) (xs : List Tree)

theorem print_unary : (unary op x).print nested =
    opToken op :: enclose (x.level < 7) (x.print nested) := by
  rw [print]

theorem print_update : (update op x).print nested =
    enclose (x.level < 9) (x.print nested) ++ [opToken op] := rfl

theorem print_binary : (binary op x y).print nested =
    enclose (x.level < binaryPrecedence op) (x.print nested) ++ opToken op ::
      enclose (y.level < binaryPrecedence op + 1) (y.print nested) := rfl

theorem print_conditional : (conditional x y z).print nested =
    enclose (x.level < 1) (x.print nested) ++ punct "?" ::
      (y.print nested ++ punct ":" :: z.print nested) := rfl

theorem print_assignment : (assignment op x y).print nested =
    enclose (x.level < 9) (x.print nested) ++ opToken op :: y.print nested := rfl

theorem print_member (name : Token) : (member x name).print nested =
    enclose (x.level < 9) (x.print nested) ++ [punct ".", name] := rfl

theorem print_index : (index x y).print nested =
    enclose (x.level < 9) (x.print nested) ++ punct "[" :: (y.print nested ++ [punct "]"]) := rfl

theorem print_call : (call x xs).print nested =
    enclose (x.level < 9) (x.print nested) ++ punct "(" ::
      (printList nested xs ++ [punct ")"]) := rfl

theorem print_new : (new x xs).print nested =
    .keyword (lit "new") :: (enclose (!x.isCallee nested) (x.print nested) ++
      punct "(" :: (printList nested xs ++ [punct ")"])) := rfl

end Print

mutual

/-- An expression that there is: its operators are those of the parser, an identifier is not a
keyword, a regular expression is compiled, a member is selected by a name, and the key of a property
is a name or a string. -/
def WellFormed : Tree → Prop
  | regex text flags compiled => Regex.compile text flags = some (.ok compiled)
  | identifier name => name ∈ keywords → name ∈ contextualKeywords
  | array elements => ListWellFormed elements
  | object properties => PropertiesWellFormed properties
  | unary op operand => op ∈ unaryOperators ∧ operand.WellFormed
  | update op operand => op ∈ postfixOperators ∧ operand.WellFormed
  | binary op left right => binaryPrecedence op ≠ 0 ∧ left.WellFormed ∧ right.WellFormed
  | conditional test consequent alternate =>
    test.WellFormed ∧ consequent.WellFormed ∧ alternate.WellFormed
  | assignment op left right => op ∈ assignmentOperators ∧ left.WellFormed ∧ right.WellFormed
  | member base name => isName name = true ∧ base.WellFormed
  | index base key => base.WellFormed ∧ key.WellFormed
  | call callee arguments => callee.WellFormed ∧ ListWellFormed arguments
  | new callee arguments => callee.WellFormed ∧ ListWellFormed arguments
  | _ => True

/-- All of the expressions are well formed. -/
def ListWellFormed : List Tree → Prop
  | [] => True
  | x :: xs => x.WellFormed ∧ ListWellFormed xs

/-- All of the properties are well formed. -/
def PropertiesWellFormed : List (Token × Tree) → Prop
  | [] => True
  | (key, x) :: xs => isKey key = true ∧ x.WellFormed ∧ PropertiesWellFormed xs

end

end Tree

/-! ## The parser at a token -/

/-- The parser, without an error, where these tokens are left. -/
def here (tokens : List Token) : Parser := { tokens := tokens }

/-- The token is this punctuator or this keyword. -/
def isText (t : Token) (expected : Bytes) : Bool :=
  match t with
  | .punctuator text | .keyword text => text == expected
  | _ => false

/-- The precedence of a token that is a binary operator. -/
def precedence (t : Token) : ℕ :=
  match t with
  | .punctuator op | .keyword op => binaryPrecedence op
  | _ => 0

/-- The token goes on an operand: `apply_postfix` does not stop at it. -/
def goesOn (t : Token) : Bool :=
  isText t (lit ".") || isText t (lit "[") || isText t (lit "(") || postfixOperators.any (isText t)

/-- The token goes on no expression. -/
def Stops (t : Token) : Prop :=
  goesOn t = false ∧ precedence t = 0 ∧ isText t (lit "?") = false ∧
    assignmentOperators.any (isText t) = false

section Here

variable (t u : Token) (ts : List Token)

@[simp] theorem peek_here : (here (t :: ts)).peek = t := rfl

@[simp] theorem failed_here : (here ts).failed = false := rfl

@[simp] theorem check_here (expected : Bytes) :
    (here (t :: ts)).check expected = isText t expected := rfl

@[simp] theorem checkAny_here (expected : List Bytes) :
    (here (t :: ts)).checkAny expected = expected.any (isText t) := rfl

@[simp] theorem atName_here : (here (t :: ts)).atName = isName t := rfl

@[simp] theorem atEnd_here : (here (t :: ts)).atEnd = (t == .endOfInput) := rfl

@[simp] theorem advance_here : (here (t :: u :: ts)).advance = here (u :: ts) := rfl

/-- Something is always left behind a token: the end of the input at least. -/
theorem advance_append (xs : List Token) :
    (here (t :: (xs ++ u :: ts))).advance = here (xs ++ u :: ts) := by
  cases xs <;> rfl

variable {t} in
theorem expect_here {expected : Bytes} (h : isText t expected = true) :
    (here (t :: u :: ts)).expect expected = here (u :: ts) := by
  rw [Parser.expect, check_here, if_pos h, advance_here]

end Here

section Loops

variable {next : Token} {rest : List Token} {e : Node}

theorem applyPostfix_stop (h : goesOn next = false) :
    Returns (fun fuel => applyPostfix fuel e (here (next :: rest)))
      (e, here (next :: rest)) := by
  simp only [goesOn, Bool.or_eq_false_iff] at h
  obtain ⟨⟨⟨hdot, hbracket⟩, hparen⟩, hupdate⟩ := h
  refine Returns.succ (fun fuel => applyPostfix.eq_2 _ _ _) ?_
  simp only [check_here, checkAny_here, hdot, hbracket, hparen, hupdate, Bool.false_eq_true,
    if_false]
  exact returns_some _

theorem calleeLoop_stop (hdot : isText next (lit ".") = false)
    (hbracket : isText next (lit "[") = false) :
    Returns (fun fuel => calleeLoop fuel e (here (next :: rest))) (e, here (next :: rest)) := by
  refine Returns.succ (fun fuel => calleeLoop.eq_2 _ _ _) ?_
  simp only [failed_here, check_here, hdot, hbracket, Bool.false_eq_true, if_false]
  exact returns_some _

theorem binaryLoop_stop {n : ℕ} (h : precedence next = 0 ∨ precedence next < n) :
    Returns (fun fuel => binaryLoop fuel n e (here (next :: rest))) (e, here (next :: rest)) := by
  refine Returns.succ (fun fuel => binaryLoop.eq_2 _ _ _ _) ?_
  cases next with
  | punctuator op =>
    have hop : binaryPrecedence op = 0 ∨ binaryPrecedence op < n := h
    simp only [peek_here, if_pos hop]
    exact returns_some _
  | keyword op =>
    have hop : binaryPrecedence op = 0 ∨ binaryPrecedence op < n := h
    simp only [peek_here, if_pos hop]
    exact returns_some _
  | _ => exact returns_some _

end Loops

/-! ## What the functions do with an expression -/

/-- `parse_assignment` reads the expression. -/
def ReadsAssignment (x : Tree) : Prop :=
  ∀ next rest, Stops next →
    Returns (fun fuel => parseAssignment fuel (here (x.print false ++ next :: rest)))
      (x.node, here (next :: rest))

/-- `parse_binary` reads the expression, whose level is not too low, and goes on in its loop. -/
def ReadsBinary (x : Tree) : Prop :=
  ∀ n m next rest r, 1 ≤ m → m ≤ x.level → n ≤ m → precedence next ≤ m → goesOn next = false →
    Returns (fun fuel => binaryLoop fuel n x.node (here (next :: rest))) r →
    Returns (fun fuel => parseBinary fuel n (here (x.print false ++ next :: rest))) r

/-- `parse_unary` reads the expression. -/
def ReadsUnary (x : Tree) : Prop :=
  ∀ next rest, goesOn next = false →
    Returns (fun fuel => parseUnary fuel (here (x.print false ++ next :: rest)))
      (x.node, here (next :: rest))

/-- `parse_unary` reads the operand, and goes on in `apply_postfix`. -/
def ReadsOperand (tokens : List Token) (node : Node) : Prop :=
  ∀ next rest r, Returns (fun fuel => applyPostfix fuel node (here (next :: rest))) r →
    Returns (fun fuel => parseUnary fuel (here (tokens ++ next :: rest))) r

/-- The callee of `new` is read, and its loop goes on. -/
def ReadsCallee (tokens : List Token) (node : Node) : Prop :=
  ∀ next rest r, Returns (fun fuel => calleeLoop fuel node (here (next :: rest))) r →
    Returns (fun fuel => parsePrimary fuel (here (tokens ++ next :: rest)) >>= fun x =>
      calleeLoop fuel x.1 x.2) r

/-- `parse_primary` reads the expression, which does not begin like a unary one. -/
structure ReadsPrimary (tokens : List Token) (node : Node) : Prop where
  head : ∃ t ts, tokens = t :: ts ∧ isText t (lit "new") = false ∧
    unaryOperators.any (isText t) = false
  reads : ∀ next rest, Returns (fun fuel => parsePrimary fuel (here (tokens ++ next :: rest)))
    (node, here (next :: rest))

theorem ReadsPrimary.operand {tokens : List Token} {node : Node}
    (h : ReadsPrimary tokens node) : ReadsOperand tokens node := by
  intro next rest r hr
  obtain ⟨t, ts, rfl, hnew, hunary⟩ := h.head
  refine Returns.succ (fun fuel => parseUnary.eq_2 _ _) ?_
  rw [List.cons_append]
  simp only [check_here, checkAny_here, hnew, hunary, Bool.false_eq_true, if_false]
  exact (h.reads next rest).bind hr

theorem ReadsPrimary.callee {tokens : List Token} {node : Node}
    (h : ReadsPrimary tokens node) : ReadsCallee tokens node :=
  fun next rest _ hr => (h.reads next rest).bind hr

section Brackets

variable (fuel : ℕ) (ts : List Token)

theorem parsePrimary_paren :
    parsePrimary (fuel + 1) (here (punct "(" :: ts)) = (do
      let (expression, s) ← parseAssignment fuel (here (punct "(" :: ts)).advance
      return (expression, s.expect (lit ")"))) := rfl

theorem parsePrimary_bracket :
    parsePrimary (fuel + 1) (here (punct "[" :: ts)) = (do
      let (children, s) ← argumentLoop fuel (lit "]") false (here (punct "[" :: ts)).advance
      return (.arrayLiteral children, s.expect (lit "]"))) := rfl

theorem parsePrimary_brace :
    parsePrimary (fuel + 1) (here (punct "\x7b" :: ts)) = (do
      let (properties, s) ← propertyLoop fuel (here (punct "\x7b" :: ts)).advance
      return (.objectLiteral properties, s.expect (lit "\x7d"))) := rfl

end Brackets

/-- What closes a bracket, or separates what is in it. -/
theorem stops_of_mem {t : Token}
    (h : t ∈ [punct ")", punct "]", punct "\x7d", punct ",", punct ":", .endOfInput]) : Stops t := by
  have hall : ∀ t ∈ [punct ")", punct "]", punct "\x7d", punct ",", punct ":", .endOfInput],
      goesOn t = false ∧ precedence t = 0 ∧ isText t (lit "?") = false ∧
        assignmentOperators.any (isText t) = false := by decide
  exact hall t h

/-- An expression in parentheses is a primary one. -/
theorem ReadsAssignment.enclosed {x : Tree} (h : ReadsAssignment x) :
    ReadsPrimary (Tree.enclose true (x.print false)) x.node where
  head := ⟨_, _, rfl, by decide, by decide⟩
  reads := by
    intro next rest
    have htokens : Tree.enclose true (x.print false) ++ next :: rest =
        punct "(" :: (x.print false ++ punct ")" :: next :: rest) := by
      simp [Tree.enclose]
    rw [htokens]
    refine Returns.succ (fun fuel => parsePrimary_paren _ _) ?_
    simp only [advance_append]
    refine (h (punct ")") (next :: rest) (stops_of_mem (by decide))).bind ?_
    simp only [expect_here next rest (by decide : isText (punct ")") (lit ")") = true)]
    exact returns_some _

/-- All functions read the expression. -/
structure Parsed (x : Tree) : Prop where
  assignment : ReadsAssignment x
  binary : ReadsBinary x
  unary : 7 ≤ x.level → ReadsUnary x
  operand : x.level = 9 → ReadsOperand (x.print false) x.node
  callee : x.isCallee false = true → ReadsCallee (x.print false) x.node

theorem binaryPrecedence_le (op : Bytes) : binaryPrecedence op ≤ 6 := by
  unfold binaryPrecedence
  repeat' split
  all_goals decide

theorem level_le (x : Tree) : x.level ≤ 9 := by
  cases x with
  | binary op left right => exact (binaryPrecedence_le op).trans (by decide)
  | unary op operand => exact (by decide : 7 ≤ 9)
  | update op operand => exact (by decide : 8 ≤ 9)
  | conditional test consequent alternate => exact Nat.zero_le 9
  | assignment op left right => exact Nat.zero_le 9
  | _ => exact Nat.le_refl 9

theorem ReadsOperand.unary {x : Tree} (h : ReadsOperand (x.print false) x.node) : ReadsUnary x :=
  fun next rest hnext => h next rest _ (applyPostfix_stop hnext)

theorem ReadsUnary.binary {x : Tree} (h : ReadsUnary x) : ReadsBinary x := by
  intro n m next rest r _ _ _ _ hnext hr
  refine Returns.succ (fun fuel => parseBinary.eq_2 _ _ _) ?_
  exact (h next rest hnext).bind hr

/-- Where nothing goes on the expression, the loops stop. -/
theorem ReadsBinary.assignment {x : Tree} (h : ReadsBinary x) (hlevel : 1 ≤ x.level) :
    ReadsAssignment x := by
  intro next rest hstops
  obtain ⟨hgoes, hprecedence, hquestion, hassign⟩ := hstops
  have hbinary := h 1 1 next rest _ (Nat.le_refl 1) hlevel (Nat.le_refl 1)
    (hprecedence ▸ Nat.zero_le 1) hgoes (binaryLoop_stop (Or.inl hprecedence))
  refine Returns.succ (fun fuel => parseAssignment.eq_2 _ _) ?_
  refine Returns.bind (a := (x.node, here (next :: rest))) ?_ ?_
  · refine Returns.succ (fun fuel => parseConditional.eq_2 _ _) ?_
    refine hbinary.bind ?_
    simp only [check_here, hquestion, Bool.false_eq_true, if_false]
    exact returns_some _
  · simp only [checkAny_here, hassign, Bool.false_eq_true, if_false]
    exact returns_some _

namespace Parsed

variable {x : Tree}

theorem of_binary (hlevel : 1 ≤ x.level) (hunary : ¬ 7 ≤ x.level)
    (hcallee : x.isCallee false = false) (h : ReadsBinary x) : Parsed x where
  assignment := h.assignment hlevel
  binary := h
  unary h7 := absurd h7 hunary
  operand h9 := absurd (h9 ▸ (by decide : 7 ≤ 9)) hunary
  callee hx := absurd (hcallee.symm.trans hx) Bool.false_ne_true

theorem of_low (hlevel : x.level = 0) (hcallee : x.isCallee false = false)
    (h : ReadsAssignment x) : Parsed x where
  assignment := h
  binary _ _ _ _ _ hpos hle := absurd (hpos.trans hle) (hlevel ▸ (by decide : ¬ 1 ≤ 0))
  unary h7 := absurd (hlevel ▸ h7) (by decide)
  operand h9 := absurd (hlevel.symm.trans h9) (by decide)
  callee hx := absurd (hcallee.symm.trans hx) Bool.false_ne_true

theorem of_unary (hlevel : 7 ≤ x.level) (hoperand : x.level ≠ 9)
    (hcallee : x.isCallee false = false) (h : ReadsUnary x) : Parsed x where
  assignment := h.binary.assignment (le_trans (by decide) hlevel)
  binary := h.binary
  unary _ := h
  operand h9 := absurd h9 hoperand
  callee hx := absurd (hcallee.symm.trans hx) Bool.false_ne_true

theorem of_operand (hlevel : x.level = 9) (h : ReadsOperand (x.print false) x.node)
    (hcallee : x.isCallee false = true → ReadsCallee (x.print false) x.node) : Parsed x where
  assignment := h.unary.binary.assignment (hlevel ▸ by decide)
  binary := h.unary.binary
  unary _ := h.unary
  operand _ := h
  callee := hcallee

theorem of_primary (hlevel : x.level = 9) (h : ReadsPrimary (x.print false) x.node) : Parsed x :=
  of_operand hlevel h.operand fun _ => h.callee

/-- An operand, with parentheses if it needs them. -/
theorem operand' (h : Parsed x) :
    ReadsOperand (Tree.enclose (x.level < 9) (x.print false)) x.node := by
  by_cases hlevel : x.level < 9
  · rw [decide_eq_true hlevel]
    exact h.assignment.enclosed.operand
  · rw [decide_eq_false hlevel]
    exact h.operand (Nat.le_antisymm (level_le x) (Nat.not_lt.mp hlevel))

theorem callee' (h : Parsed x) :
    ReadsCallee (Tree.enclose (!x.isCallee false) (x.print false)) x.node := by
  cases hx : x.isCallee false with
  | false => exact h.assignment.enclosed.callee
  | true => exact h.callee hx

theorem unary' (h : Parsed x) {next : Token} {rest : List Token} (hnext : goesOn next = false) :
    Returns (fun fuel => parseUnary fuel
      (here (Tree.enclose (x.level < 7) (x.print false) ++ next :: rest)))
        (x.node, here (next :: rest)) := by
  by_cases hlevel : x.level < 7
  · rw [decide_eq_true hlevel]
    exact h.assignment.enclosed.operand next rest _ (applyPostfix_stop hnext)
  · rw [decide_eq_false hlevel]
    exact h.unary (Nat.not_lt.mp hlevel) next rest hnext

theorem binary' (h : Parsed x) {n m : ℕ} {next : Token} {rest : List Token} {r : Node × Parser}
    (hm : 1 ≤ m) (hn : n ≤ m) (hprecedence : precedence next ≤ m) (hnext : goesOn next = false)
    (hr : Returns (fun fuel => binaryLoop fuel n x.node (here (next :: rest))) r) :
    Returns (fun fuel => parseBinary fuel n
      (here (Tree.enclose (x.level < m) (x.print false) ++ next :: rest))) r := by
  by_cases hlevel : x.level < m
  · rw [decide_eq_true hlevel]
    refine Returns.succ (fun fuel => parseBinary.eq_2 _ _ _) ?_
    exact (h.assignment.enclosed.operand next rest _ (applyPostfix_stop hnext)).bind hr
  · rw [decide_eq_false hlevel]
    exact h.binary n m next rest r hm (Nat.not_lt.mp hlevel) hn hprecedence hnext hr

end Parsed

/-! ## Leaves and lists -/

section Leaves

theorem readsPrimary_number (text : Bytes) (value : Number) :
    ReadsPrimary [.number text value] (.numberLiteral value) where
  head := ⟨_, _, rfl, rfl, rfl⟩
  reads _ _ := Returns.succ (fun _ => rfl) (returns_some _)

theorem readsPrimary_string (text : Bytes) :
    ReadsPrimary [.string text] (.stringLiteral text) where
  head := ⟨_, _, rfl, rfl, rfl⟩
  reads _ _ := Returns.succ (fun _ => rfl) (returns_some _)

theorem readsPrimary_regex {text flags : Bytes} {regex : Regex}
    (h : Regex.compile text flags = some (.ok regex)) :
    ReadsPrimary [.regex text flags] (.regexLiteral (some regex)) where
  head := ⟨_, _, rfl, rfl, rfl⟩
  reads next rest := by
    refine Returns.succ (fun fuel => parsePrimary.eq_2 _ _) ?_
    simp only [List.singleton_append, peek_here, h, advance_here]
    exact returns_some _

theorem readsPrimary_contextual {name : Bytes} (h : name ∈ contextualKeywords) :
    ReadsPrimary [.keyword name] (.identifier name) := by
  rcases List.mem_pair.mp h with rfl | rfl <;>
    exact ⟨⟨_, _, rfl, rfl, rfl⟩, fun _ _ => Returns.succ (fun _ => rfl) (returns_some _)⟩

theorem readsPrimary_name {name : Bytes} (h : name ∉ keywords) :
    ReadsPrimary [.identifier name] (.identifier name) where
  head := ⟨_, _, rfl, rfl, rfl⟩
  reads next rest := by
    have hne : ∀ word ∈ keywords, name ≠ word := fun word hword hname => h (hname ▸ hword)
    refine Returns.succ (fun fuel => parsePrimary.eq_2 _ _) ?_
    have hbool : ¬ (text (.identifier name) = lit "true" ∨ text (.identifier name) = lit "false") :=
      not_or.mpr ⟨hne _ (by decide), hne _ (by decide)⟩
    have hnull : text (.identifier name) ≠ lit "null" := hne _ (by decide)
    have hundefined : text (.identifier name) ≠ lit "undefined" := hne _ (by decide)
    have hfunction : text (.identifier name) ≠ lit "function" := hne _ (by decide)
    simp only [List.singleton_append, peek_here, if_neg hbool, if_neg hnull, if_neg hundefined,
      if_neg hfunction, atName_here, isName, if_true, advance_here]
    exact returns_some _

theorem readsPrimary_identifier {name : Bytes} (h : name ∈ keywords → name ∈ contextualKeywords) :
    ReadsPrimary [nameToken name] (.identifier name) := by
  unfold nameToken
  split
  · exact readsPrimary_contextual (h ‹_›)
  · exact readsPrimary_name ‹_›

theorem readsPrimary_boolean (value : Bool) :
    ReadsPrimary [.keyword (if value then lit "true" else lit "false")] (.booleanLiteral value) := by
  cases value <;>
    exact ⟨⟨_, _, rfl, rfl, rfl⟩, fun _ _ => Returns.succ (fun _ => rfl) (returns_some _)⟩

theorem readsPrimary_null : ReadsPrimary [.keyword (lit "null")] .nullLiteral :=
  ⟨⟨_, _, rfl, rfl, rfl⟩, fun _ _ => Returns.succ (fun _ => rfl) (returns_some _)⟩

theorem readsPrimary_undefined :
    ReadsPrimary [.keyword (lit "undefined")] (.identifier (lit "undefined")) :=
  ⟨⟨_, _, rfl, rfl, rfl⟩, fun _ _ => Returns.succ (fun _ => rfl) (returns_some _)⟩

end Leaves

/-- An expression begins with a token that closes nothing. -/
def Begins (tokens : List Token) : Prop :=
  ∃ t ts, tokens = t :: ts ∧ isText t (lit ")") = false ∧ isText t (lit "]") = false ∧
    t ≠ .endOfInput

theorem begins_cons {t : Token} (ts : List Token)
    (h : isText t (lit ")") = false ∧ isText t (lit "]") = false ∧ t ≠ .endOfInput) :
    Begins (t :: ts) :=
  ⟨t, ts, rfl, h⟩

theorem Begins.append {xs : List Token} (h : Begins xs) (ys : List Token) : Begins (xs ++ ys) := by
  obtain ⟨t, ts, rfl, ht⟩ := h
  exact begins_cons (ts ++ ys) ht

theorem Begins.enclose {xs : List Token} (h : Begins xs) (needed : Bool) :
    Begins (Tree.enclose needed xs) := by
  cases needed
  · exact h
  · exact begins_cons _ (by decide)

theorem begins_print (nested : Bool) :
    ∀ x : Tree, x.WellFormed → Begins (x.print nested)
  | .number _ _, _ => begins_cons _ ⟨rfl, rfl, (nofun)⟩
  | .string _, _ => begins_cons _ ⟨rfl, rfl, (nofun)⟩
  | .regex _ _ _, _ => begins_cons _ ⟨rfl, rfl, (nofun)⟩
  | .identifier name, (h : name ∈ keywords → name ∈ contextualKeywords) => by
    have hall : ∀ name ∈ contextualKeywords, isText (.keyword name) (lit ")") = false ∧
        isText (.keyword name) (lit "]") = false ∧ Token.keyword name ≠ .endOfInput := by
      decide
    refine begins_cons _ ?_
    unfold nameToken
    split
    · exact hall name (h ‹_›)
    · exact ⟨rfl, rfl, (nofun)⟩
  | .boolean value, _ => by cases value <;> exact begins_cons _ (by decide)
  | .null, _ => begins_cons _ (by decide)
  | .undefined, _ => begins_cons _ (by decide)
  | .array _, _ => begins_cons _ (by decide)
  | .object _, _ => begins_cons _ (by decide)
  | .unary op operand, h => by
    have hall : ∀ op ∈ unaryOperators, isText (opToken op) (lit ")") = false ∧
        isText (opToken op) (lit "]") = false ∧ opToken op ≠ .endOfInput := by decide
    exact begins_cons _ (hall op h.1)
  | .update _ operand, h => ((begins_print nested operand h.2).enclose _).append _
  | .binary _ left _, h => ((begins_print nested left h.2.1).enclose _).append _
  | .conditional test _ _, h => ((begins_print nested test h.1).enclose _).append _
  | .assignment _ left _, h => ((begins_print nested left h.2.1).enclose _).append _
  | .member base _, h => ((begins_print nested base h.2).enclose _).append _
  | .index base _, h => ((begins_print nested base h.1).enclose _).append _
  | .call callee _, h => ((begins_print nested callee h.1).enclose _).append _
  | .new _ _, _ => begins_cons _ (by decide)

/-- The loop over arguments and elements reads expressions separated by commas. -/
theorem argumentLoop_print {close : Token} {closeText : Bytes} (stops : Bool)
    (hclose : isText close closeText = true) (hcomma : isText close (lit ",") = false)
    (hstops : Stops close) (hbegins : ∀ xs, Begins xs → ∃ t ts, xs = t :: ts ∧
      isText t closeText = false ∧ t ≠ .endOfInput) (rest : List Token) :
    ∀ {xs : List Tree}, Tree.ListWellFormed xs → (∀ x ∈ xs, Parsed x) →
      Returns (fun fuel => argumentLoop fuel closeText stops
        (here (Tree.printList false xs ++ close :: rest)))
        (Tree.nodes xs, here (close :: rest))
  | [], _, _ => by
    refine Returns.succ (fun fuel => argumentLoop.eq_2 _ _ _ _) ?_
    simp only [Tree.printList, List.nil_append, check_here, hclose, Bool.true_or, if_true]
    exact returns_some _
  | [x], hwf, h => by
    obtain ⟨t, ts, hprint, ht, hend⟩ := hbegins _ (begins_print false x hwf.1)
    have hread := (h x List.mem_cons_self).assignment close rest hstops
    refine Returns.succ (fun fuel => argumentLoop.eq_2 _ _ _ _) ?_
    simp only [Tree.printList]
    rw [hprint] at hread ⊢
    simp only [List.cons_append, check_here, ht, atEnd_here, beq_eq_false_iff_ne.mpr hend,
      failed_here, Bool.and_false, Bool.or_false, Bool.false_eq_true, if_false]
    refine hread.bind ?_
    simp only [check_here, hcomma, Bool.false_eq_true, if_false]
    exact returns_some _
  | x :: y :: xs, hwf, h => by
    obtain ⟨t, ts, hprint, ht, hend⟩ := hbegins _ (begins_print false x hwf.1)
    have hread := (h x List.mem_cons_self).assignment (punct ",")
      (Tree.printList false (y :: xs) ++ close :: rest) (stops_of_mem (by decide))
    have hrest := argumentLoop_print stops hclose hcomma hstops hbegins rest hwf.2
      fun z hz => h z (List.mem_cons_of_mem x hz)
    refine Returns.succ (fun fuel => argumentLoop.eq_2 _ _ _ _) ?_
    simp only [Tree.printList, List.append_assoc, List.cons_append]
    rw [hprint] at hread ⊢
    simp only [List.cons_append, check_here, ht, atEnd_here, beq_eq_false_iff_ne.mpr hend,
      failed_here, Bool.and_false, Bool.or_false, Bool.false_eq_true, if_false] at hread ⊢
    refine hread.bind ?_
    simp only [check_here, (by decide : isText (punct ",") (lit ",") = true), if_true,
      advance_append]
    refine hrest.bind ?_
    exact returns_some _

/-- The loop over properties at a key. -/
theorem propertyLoop_key {key : Token} (hkey : isKey key = true) (fuel : ℕ) (u : Token)
    (xs ts : List Token) :
    propertyLoop (fuel + 1) (here (key :: punct ":" :: (xs ++ u :: ts))) = (do
      let (value, s) ← parseAssignment fuel (here (xs ++ u :: ts))
      if s.check (lit ",") then do
        let (properties, s) ← propertyLoop fuel s.advance
        return ((text key, value) :: properties, s)
      else return ([(text key, value)], s)) := by
  have hexpect : (here (punct ":" :: (xs ++ u :: ts))).expect (lit ":") = here (xs ++ u :: ts) := by
    rw [Parser.expect, check_here, if_pos (by decide), advance_append]
  cases key with
  | identifier name =>
    rw [propertyLoop]
    simp only [check_here, atEnd_here, peek_here, advance_here, hexpect]
    rfl
  | string name =>
    rw [propertyLoop]
    simp only [check_here, atEnd_here, peek_here, advance_here, hexpect]
    rfl
  | keyword name =>
    have hwords : ∀ word ∈ keywords, isText (.keyword word) (lit "\x7d") = false := by
      decide
    rw [propertyLoop]
    simp only [check_here, atEnd_here, peek_here, advance_here, hexpect,
      hwords name (of_decide_eq_true hkey)]
    rfl
  | _ => cases hkey

/-- The loop over properties reads properties separated by commas. -/
theorem propertyLoop_print (rest : List Token) :
    ∀ {xs : List (Token × Tree)}, Tree.PropertiesWellFormed xs → (∀ x ∈ xs, Parsed x.2) →
      Returns (fun fuel => propertyLoop fuel
        (here (Tree.printProperties false xs ++ punct "\x7d" :: rest)))
        (Tree.propertyNodes xs, here (punct "\x7d" :: rest))
  | [], _, _ => by
    refine Returns.succ (fun fuel => propertyLoop.eq_2 _ _) ?_
    simp only [Tree.printProperties, List.nil_append, check_here,
      (by decide : isText (punct "\x7d") (lit "\x7d") = true), Bool.true_or, if_true]
    exact returns_some _
  | [(key, x)], hwf, h => by
    have hread := (h (key, x) List.mem_cons_self).assignment (punct "\x7d") rest
      (stops_of_mem (by decide))
    simp only [Tree.printProperties, List.cons_append]
    refine Returns.succ (fun fuel => propertyLoop_key hwf.1 fuel _ _ _) ?_
    refine hread.bind ?_
    simp only [check_here, (by decide : isText (punct "\x7d") (lit ",") = false),
      Bool.false_eq_true, if_false]
    exact returns_some _
  | (key, x) :: y :: xs, hwf, h => by
    have hread := (h (key, x) List.mem_cons_self).assignment (punct ",")
      (Tree.printProperties false (y :: xs) ++ punct "\x7d" :: rest) (stops_of_mem (by decide))
    have hrest := propertyLoop_print rest hwf.2.2 fun z hz => h z (List.mem_cons_of_mem _ hz)
    simp only [Tree.printProperties, List.cons_append, List.append_assoc]
    refine Returns.succ (fun fuel => propertyLoop_key hwf.1 fuel _ _ _) ?_
    refine hread.bind ?_
    simp only [check_here, (by decide : isText (punct ",") (lit ",") = true), if_true,
      advance_append]
    refine hrest.bind ?_
    exact returns_some _

theorem readsPrimary_array {xs : List Tree} (hwf : Tree.ListWellFormed xs)
    (h : ∀ x ∈ xs, Parsed x) :
    ReadsPrimary (punct "[" :: (Tree.printList false xs ++ [punct "]"]))
      (.arrayLiteral (Tree.nodes xs)) where
  head := ⟨_, _, rfl, by decide, by decide⟩
  reads next rest := by
    have hclose : isText (punct "]") (lit "]") = true := by decide
    have hloop := argumentLoop_print false hclose (by decide) (stops_of_mem (by decide))
      (fun _ ⟨t, ts, hts, _, ht, hend⟩ => ⟨t, ts, hts, ht, hend⟩) (next :: rest) hwf h
    rw [List.cons_append, List.append_assoc]
    refine Returns.succ (fun fuel => parsePrimary_bracket _ _) ?_
    simp only [List.singleton_append, advance_append]
    refine hloop.bind ?_
    simp only [expect_here next rest hclose]
    exact returns_some _

theorem readsPrimary_object {xs : List (Token × Tree)} (hwf : Tree.PropertiesWellFormed xs)
    (h : ∀ x ∈ xs, Parsed x.2) :
    ReadsPrimary (punct "\x7b" :: (Tree.printProperties false xs ++ [punct "\x7d"]))
      (.objectLiteral (Tree.propertyNodes xs)) where
  head := ⟨_, _, rfl, by decide, by decide⟩
  reads next rest := by
    have hloop := propertyLoop_print (next :: rest) hwf h
    rw [List.cons_append, List.append_assoc]
    refine Returns.succ (fun fuel => parsePrimary_brace _ _) ?_
    simp only [List.singleton_append, advance_append]
    refine hloop.bind ?_
    simp only [expect_here next rest
      (by decide : isText (punct "\x7d") (lit "\x7d") = true)]
    exact returns_some _

/-! ## Operators -/

/-- The binary operators of the parser. -/
def binaryOperators : List Bytes :=
  [lit "||", lit "&&", lit "==", lit "!=", lit "===", lit "!==", lit "<", lit ">", lit "<=",
    lit ">=", lit "instanceof", lit "+", lit "-", lit "*", lit "/", lit "%"]

section Operators

variable {op : Bytes}

theorem opToken_eq (op : Bytes) : opToken op = .keyword op ∨ opToken op = .punctuator op :=
  ite_eq_or_eq _ _ _

theorem text_opToken (op : Bytes) : text (opToken op) = op := by
  rcases opToken_eq op with h | h <;> rw [h] <;> rfl

theorem precedence_opToken (op : Bytes) : precedence (opToken op) = binaryPrecedence op := by
  rcases opToken_eq op with h | h <;> rw [h] <;> rfl

theorem mem_binaryOperators (h : binaryPrecedence op ≠ 0) : op ∈ binaryOperators := by
  unfold binaryPrecedence at h
  simp only [binaryOperators, List.mem_cons] at h ⊢
  grind

theorem goesOn_binary (h : binaryPrecedence op ≠ 0) : goesOn (opToken op) = false := by
  have hall : ∀ op ∈ binaryOperators, goesOn (opToken op) = false := by decide
  exact hall op (mem_binaryOperators h)

/-- An operator of an assignment ends a conditional. -/
theorem assignment_opToken (h : op ∈ assignmentOperators) :
    goesOn (opToken op) = false ∧ precedence (opToken op) = 0 ∧
      isText (opToken op) (lit "?") = false ∧
      assignmentOperators.any (isText (opToken op)) = true := by
  have hall : ∀ op ∈ assignmentOperators, goesOn (opToken op) = false ∧
      precedence (opToken op) = 0 ∧ isText (opToken op) (lit "?") = false ∧
      assignmentOperators.any (isText (opToken op)) = true := by decide
  exact hall op h

theorem unary_opToken (h : op ∈ unaryOperators) :
    isText (opToken op) (lit "new") = false ∧
      unaryOperators.any (isText (opToken op)) = true := by
  have hall : ∀ op ∈ unaryOperators, isText (opToken op) (lit "new") = false ∧
      unaryOperators.any (isText (opToken op)) = true := by decide
  exact hall op h

theorem update_opToken (h : op ∈ postfixOperators) :
    isText (opToken op) (lit ".") = false ∧ isText (opToken op) (lit "[") = false ∧
      isText (opToken op) (lit "(") = false ∧
      postfixOperators.any (isText (opToken op)) = true := by
  have hall : ∀ op ∈ postfixOperators, isText (opToken op) (lit ".") = false ∧
      isText (opToken op) (lit "[") = false ∧ isText (opToken op) (lit "(") = false ∧
      postfixOperators.any (isText (opToken op)) = true := by decide
  exact hall op h

/-- The loop of `parse_binary` at a binary operator that it takes. -/
theorem binaryLoop_opToken {n : ℕ} (h : binaryPrecedence op ≠ 0) (hn : n ≤ binaryPrecedence op)
    (fuel : ℕ) (left : Node) (ts : List Token) :
    binaryLoop (fuel + 1) n left (here (opToken op :: ts)) = (do
      let (right, s) ← parseBinary fuel (binaryPrecedence op + 1) (here (opToken op :: ts)).advance
      binaryLoop fuel n (binaryNode op left right) s) := by
  have hop : ¬ (binaryPrecedence op = 0 ∨ binaryPrecedence op < n) :=
    not_or.mpr ⟨h, Nat.not_lt.mpr hn⟩
  rcases opToken_eq op with hop' | hop' <;> rw [hop', binaryLoop] <;>
    simp only [peek_here, if_neg hop]

end Operators

namespace Parsed

variable {op : Bytes} {x y z : Tree}

theorem unary_operator (hop : op ∈ unaryOperators) (h : Parsed x) : Parsed (.unary op x) := by
  obtain ⟨hnew, hunary⟩ := unary_opToken hop
  refine of_unary (Nat.le_refl 7) (nofun) rfl fun next rest hnext => ?_
  refine Returns.succ (fun fuel => parseUnary.eq_2 _ _) ?_
  simp only [Tree.print_unary, List.cons_append, check_here, checkAny_here, hnew, hunary,
    Bool.false_eq_true, if_false, if_true, advance_append]
  refine (h.unary' hnext).bind ?_
  rw [peek_here, text_opToken]
  exact returns_some _

theorem update_operator (hop : op ∈ postfixOperators) (h : Parsed x) : Parsed (.update op x) := by
  obtain ⟨hdot, hbracket, hparen, hupdate⟩ := update_opToken hop
  refine of_unary (Nat.le_succ 7) (nofun) rfl fun next rest hnext => ?_
  rw [Tree.print_update, List.append_assoc]
  refine h.operand' _ _ _ ?_
  refine Returns.succ (fun fuel => applyPostfix.eq_2 _ _ _) ?_
  simp only [check_here, checkAny_here, hdot, hbracket, hparen, hupdate, Bool.false_eq_true,
    if_false, if_true, peek_here, text_opToken]
  exact applyPostfix_stop hnext

theorem binary_operator (hop : binaryPrecedence op ≠ 0) (hx : Parsed x) (hy : Parsed y) :
    Parsed (.binary op x y) := by
  refine of_binary (Nat.one_le_iff_ne_zero.mpr hop)
    (Nat.not_le.mpr (Nat.lt_succ_of_le (binaryPrecedence_le op))) ?_ ?_
  · have hne : binaryPrecedence op ≠ 9 := ((binaryPrecedence_le op).trans_lt (by decide)).ne
    exact beq_false_of_ne hne
  intro n m next rest r _ hlevel hn hprecedence hnext hr
  have hle : m ≤ binaryPrecedence op := hlevel
  rw [Tree.print_binary, List.append_assoc, List.cons_append]
  refine hx.binary' (Nat.one_le_iff_ne_zero.mpr hop) (hn.trans hle)
    (precedence_opToken op).le (goesOn_binary hop) ?_
  refine Returns.succ (fun fuel => binaryLoop_opToken hop (hn.trans hle) _ _ _) ?_
  rw [advance_append]
  have hlt : precedence next < binaryPrecedence op + 1 := Nat.lt_succ_of_le (hprecedence.trans hle)
  refine (hy.binary' (Nat.succ_pos _) (Nat.le_refl _) hlt.le hnext
    (binaryLoop_stop (Or.inr hlt))).bind ?_
  exact hr

theorem conditional_operator (hx : Parsed x) (hy : Parsed y) (hz : Parsed z) :
    Parsed (.conditional x y z) := by
  have hquestion : goesOn (punct "?") = false ∧ precedence (punct "?") = 0 ∧
      isText (punct "?") (lit "?") = true := by decide
  refine of_low rfl rfl fun next rest hnext => ?_
  rw [Tree.print_conditional, List.append_assoc, List.cons_append, List.append_assoc, List.cons_append]
  refine Returns.succ (fun fuel => parseAssignment.eq_2 _ _) ?_
  refine Returns.bind (a := (Node.conditional x.node y.node z.node, here (next :: rest))) ?_ ?_
  · refine Returns.succ (fun fuel => parseConditional.eq_2 _ _) ?_
    refine (hx.binary' (Nat.le_refl 1) (Nat.le_refl 1) (hquestion.2.1.le.trans (Nat.zero_le 1))
      hquestion.1 (binaryLoop_stop (Or.inl hquestion.2.1))).bind ?_
    simp only [check_here, hquestion.2.2, if_true, advance_append]
    refine (hy.assignment (punct ":") _ (stops_of_mem (by decide))).bind ?_
    have hexpect : (here (punct ":" :: (z.print false ++ next :: rest))).expect (lit ":") =
        here (z.print false ++ next :: rest) := by
      rw [Parser.expect, check_here, if_pos (by decide), advance_append]
    simp only [hexpect]
    refine (hz.assignment next rest hnext).bind ?_
    exact returns_some _
  · simp only [checkAny_here, hnext.2.2.2, Bool.false_eq_true, if_false]
    exact returns_some _

theorem assignment_operator (hop : op ∈ assignmentOperators) (hx : Parsed x) (hy : Parsed y) :
    Parsed (.assignment op x y) := by
  obtain ⟨hgoes, hprecedence, hquestion, hassign⟩ := assignment_opToken hop
  refine of_low rfl rfl fun next rest hnext => ?_
  rw [Tree.print_assignment, List.append_assoc, List.cons_append]
  have hleft : Returns (fun fuel => parseConditional fuel
      (here (Tree.enclose (x.level < 9) (x.print false) ++ opToken op ::
        (y.print false ++ next :: rest))))
      (x.node, here (opToken op :: (y.print false ++ next :: rest))) := by
    refine Returns.succ (fun fuel => parseConditional.eq_2 _ _) ?_
    refine Returns.bind (a := (x.node, here (opToken op :: (y.print false ++ next :: rest)))) ?_ ?_
    · refine Returns.succ (fun fuel => parseBinary.eq_2 _ _ _) ?_
      refine (hx.operand' _ _ _ (applyPostfix_stop hgoes)).bind ?_
      exact binaryLoop_stop (Or.inl hprecedence)
    · simp only [check_here, hquestion, Bool.false_eq_true, if_false]
      exact returns_some _
  refine Returns.succ (fun fuel => parseAssignment.eq_2 _ _) ?_
  refine hleft.bind ?_
  simp only [checkAny_here, hassign, if_true, advance_append]
  refine (hy.assignment next rest hnext).bind ?_
  rw [peek_here, text_opToken]
  exact returns_some _

/-- The base of a member in the callee of `new`. -/
theorem base' (h : Parsed x) (hbase : (x.level < 9 || x.isCallee false) = true) :
    ReadsCallee (Tree.enclose (x.level < 9) (x.print false)) x.node := by
  by_cases hlevel : x.level < 9
  · rw [decide_eq_true hlevel]
    exact h.assignment.enclosed.callee
  · rw [decide_eq_false hlevel] at hbase ⊢
    exact h.callee hbase

theorem member_access {name : Token} (hname : isName name = true) (h : Parsed x) :
    Parsed (.member x name) := by
  have hdot : isText (punct ".") (lit ".") = true := by decide
  refine of_operand rfl ?_ fun hcallee => ?_
  · intro next rest r hr
    rw [Tree.print_member, List.append_assoc, List.cons_append, List.singleton_append]
    refine h.operand' _ _ _ ?_
    refine Returns.succ (fun fuel => applyPostfix.eq_2 _ _ _) ?_
    simp only [check_here, hdot, if_true, advance_here, atName_here, hname, peek_here]
    exact hr
  · intro next rest r hr
    rw [Tree.print_member, List.append_assoc, List.cons_append, List.singleton_append]
    refine h.base' hcallee _ _ _ ?_
    refine Returns.succ (fun fuel => calleeLoop.eq_2 _ _ _) ?_
    simp only [failed_here, Bool.false_eq_true, if_false, check_here, hdot, if_true, advance_here,
      atName_here, hname, peek_here]
    exact hr

theorem index_access (hx : Parsed x) (hy : Parsed y) : Parsed (.index x y) := by
  have hbracket : isText (punct "[") (lit ".") = false ∧ isText (punct "[") (lit "[") = true := by
    decide
  have hclose : isText (punct "]") (lit "]") = true := by decide
  refine of_operand rfl ?_ fun hcallee => ?_
  · intro next rest r hr
    rw [Tree.print_index, List.append_assoc, List.cons_append, List.append_assoc]
    refine hx.operand' _ _ _ ?_
    refine Returns.succ (fun fuel => applyPostfix.eq_2 _ _ _) ?_
    simp only [check_here, hbracket.1, hbracket.2, Bool.false_eq_true, if_false, if_true,
      List.singleton_append, advance_append]
    refine (hy.assignment (punct "]") (next :: rest) (stops_of_mem (by decide))).bind ?_
    simp only [expect_here next rest hclose]
    exact hr
  · intro next rest r hr
    rw [Tree.print_index, List.append_assoc, List.cons_append, List.append_assoc]
    refine hx.base' hcallee _ _ _ ?_
    refine Returns.succ (fun fuel => calleeLoop.eq_2 _ _ _) ?_
    simp only [failed_here, check_here, hbracket.1, hbracket.2, Bool.false_eq_true, if_false,
      if_true, List.singleton_append, advance_append]
    refine (hy.assignment (punct "]") (next :: rest) (stops_of_mem (by decide))).bind ?_
    simp only [expect_here next rest hclose]
    exact hr

theorem call_arguments {xs : List Tree} (hwf : Tree.ListWellFormed xs) (h : Parsed x)
    (hs : ∀ y ∈ xs, Parsed y) : Parsed (.call x xs) := by
  have hparen : isText (punct "(") (lit ".") = false ∧ isText (punct "(") (lit "[") = false ∧
      isText (punct "(") (lit "(") = true := by decide
  have hclose : isText (punct ")") (lit ")") = true := by decide
  refine of_operand rfl ?_ fun hcallee => absurd hcallee Bool.false_ne_true
  intro next rest r hr
  have hloop := argumentLoop_print false hclose (by decide) (stops_of_mem (by decide))
    (fun _ ⟨t, ts, hts, ht, _, hend⟩ => ⟨t, ts, hts, ht, hend⟩) (next :: rest) hwf hs
  rw [Tree.print_call, List.append_assoc, List.cons_append, List.append_assoc]
  refine h.operand' _ _ _ ?_
  refine Returns.succ (fun fuel => applyPostfix.eq_2 _ _ _) ?_
  simp only [check_here, hparen.1, hparen.2.1, hparen.2.2, Bool.false_eq_true, if_false, if_true,
    List.singleton_append, advance_append]
  refine hloop.bind ?_
  simp only [expect_here next rest hclose]
  exact hr

theorem new_arguments {xs : List Tree} (hwf : Tree.ListWellFormed xs) (h : Parsed x)
    (hs : ∀ y ∈ xs, Parsed y) : Parsed (.new x xs) := by
  have hnew : isText (.keyword (lit "new")) (lit "new") = true := by decide
  have hparen : isText (punct "(") (lit ".") = false ∧ isText (punct "(") (lit "[") = false ∧
      isText (punct "(") (lit "(") = true := by decide
  have hclose : isText (punct ")") (lit ")") = true := by decide
  refine of_operand rfl ?_ fun hcallee => absurd hcallee Bool.false_ne_true
  intro next rest r hr
  have hloop := argumentLoop_print true hclose (by decide) (stops_of_mem (by decide))
    (fun _ ⟨t, ts, hts, ht, _, hend⟩ => ⟨t, ts, hts, ht, hend⟩) (next :: rest) hwf hs
  have hcallee := h.callee' (punct "(") (Tree.printList false xs ++ punct ")" :: next :: rest) _
    (calleeLoop_stop hparen.1 hparen.2.1)
  rw [Tree.print_new, List.cons_append, List.append_assoc, List.cons_append, List.append_assoc]
  refine Returns.succ (fun fuel => parseUnary.eq_2 _ _) ?_
  simp only [check_here, hnew, if_true, List.singleton_append, advance_append]
  refine hcallee.bind_bind ?_
  simp only [check_here, hparen.2.2, if_true, advance_append]
  refine hloop.bind ?_
  simp only [expect_here next rest hclose]
  exact hr

end Parsed

/-! ## The round trip -/

theorem ListWellFormed.of_mem {x : Tree} : ∀ {xs : List Tree}, Tree.ListWellFormed xs → x ∈ xs →
    x.WellFormed
  | _ :: _, h, hx => by
    rcases List.mem_cons.mp hx with rfl | hx
    · exact h.1
    · exact ListWellFormed.of_mem h.2 hx

theorem PropertiesWellFormed.of_mem {x : Token × Tree} : ∀ {xs : List (Token × Tree)},
    Tree.PropertiesWellFormed xs → x ∈ xs → x.2.WellFormed
  | _ :: _, h, hx => by
    rcases List.mem_cons.mp hx with rfl | hx
    · exact h.2.1
    · exact PropertiesWellFormed.of_mem h.2.2 hx

/-- All functions read every expression. -/
theorem parsed : ∀ x : Tree, x.WellFormed → Parsed x
  | .number text value, _ => .of_primary rfl (readsPrimary_number text value)
  | .string text, _ => .of_primary rfl (readsPrimary_string text)
  | .regex _ _ _, h => .of_primary rfl (readsPrimary_regex h)
  | .identifier _, h => .of_primary rfl (readsPrimary_identifier h)
  | .boolean value, _ => .of_primary rfl (readsPrimary_boolean value)
  | .null, _ => .of_primary rfl readsPrimary_null
  | .undefined, _ => .of_primary rfl readsPrimary_undefined
  | .array elements, h =>
    .of_primary rfl (readsPrimary_array h fun x hx => parsed x (ListWellFormed.of_mem h hx))
  | .object properties, h =>
    .of_primary rfl (readsPrimary_object h fun x hx =>
      parsed x.2 (PropertiesWellFormed.of_mem h hx))
  | .unary _ operand, h => .unary_operator h.1 (parsed operand h.2)
  | .update _ operand, h => .update_operator h.1 (parsed operand h.2)
  | .binary _ left right, h => .binary_operator h.1 (parsed left h.2.1) (parsed right h.2.2)
  | .conditional test consequent alternate, h =>
    .conditional_operator (parsed test h.1) (parsed consequent h.2.1) (parsed alternate h.2.2)
  | .assignment _ left right, h =>
    .assignment_operator h.1 (parsed left h.2.1) (parsed right h.2.2)
  | .member base _, h => .member_access h.1 (parsed base h.2)
  | .index base key, h => .index_access (parsed base h.1) (parsed key h.2)
  | .call callee arguments, h =>
    .call_arguments h.2 (parsed callee h.1) fun x hx => parsed x (ListWellFormed.of_mem h.2 hx)
  | .new callee arguments, h =>
    .new_arguments h.2 (parsed callee h.1) fun x hx => parsed x (ListWellFormed.of_mem h.2 hx)
termination_by x => sizeOf x
decreasing_by
  all_goals simp_wf
  all_goals try have hlt := List.sizeOf_lt_of_mem hx
  all_goals first
    | omega
    | obtain ⟨key, y⟩ := x
      simp only [Prod.mk.sizeOf_spec] at hlt ⊢
      omega

/-- **Round trip of expressions.**  An expression, printed with the parentheses that the precedence
of its operators asks for, is parsed again, without an error, and nothing of it is left. -/
theorem parseAssignment_print (x : Tree) (h : x.WellFormed) :
    Returns (fun fuel => parseAssignment fuel (here (x.print false ++ [.endOfInput])))
      (x.node, here [.endOfInput]) :=
  (parsed x h).assignment .endOfInput [] (stops_of_mem (by decide))

/-- `a = -b * (c + d)` -/
theorem parseAssignment_print_literal :
    Returns (fun fuel => parseAssignment fuel (here
      [.identifier (lit "a"), punct "=", punct "-", .identifier (lit "b"), punct "*", punct "(",
        .identifier (lit "c"), punct "+", .identifier (lit "d"), punct ")", .endOfInput]))
      (.assignment (lit "=") (.identifier (lit "a"))
        (.binary (lit "*") (.unary (lit "-") (.identifier (lit "b")))
          (.binary (lit "+") (.identifier (lit "c")) (.identifier (lit "d")))),
        here [.endOfInput]) := by
  have hname : ∀ name ∈ [lit "a", lit "b", lit "c", lit "d"],
      (Tree.identifier name).WellFormed := by
    show ∀ name ∈ [lit "a", lit "b", lit "c", lit "d"],
      name ∈ keywords → name ∈ contextualKeywords
    decide
  exact parseAssignment_print
    (.assignment (lit "=") (.identifier (lit "a"))
      (.binary (lit "*") (.unary (lit "-") (.identifier (lit "b")))
        (.binary (lit "+") (.identifier (lit "c")) (.identifier (lit "d")))))
    ⟨by decide, hname _ (by decide), by decide, ⟨by decide, hname _ (by decide)⟩,
      by decide, hname _ (by decide), hname _ (by decide)⟩

/-- Printed as JavaScript allows it, `new new X()()` is not parsed: the callee of `new` is a primary
expression with member and index accesses, and the second `new` is taken for a name. -/
theorem not_forall_parseAssignment_print :
    ¬ ∀ x : Tree, x.WellFormed →
      Returns (fun fuel => parseAssignment fuel (here (x.print true ++ [.endOfInput])))
        (x.node, here [.endOfInput]) := by
  intro h
  have hname : lit "X" ∈ keywords → lit "X" ∈ contextualKeywords := by decide
  have hread : Returns (fun fuel => parseAssignment fuel (here
      [.keyword (lit "new"), .keyword (lit "new"), .identifier (lit "X"), punct "(", punct ")",
        punct "(", punct ")", .endOfInput]))
      (.new (.identifier (lit "new")) [],
        here [.identifier (lit "X"), punct "(", punct ")", punct "(", punct ")", .endOfInput]) := by
    refine ⟨8, fun fuel hfuel => ?_⟩
    obtain ⟨fuel, rfl⟩ := Nat.exists_eq_add_of_le' hfuel
    rfl
  have heq := (h (.new (.new (.identifier (lit "X")) []) []) ⟨⟨hname, trivial⟩, trivial⟩).unique
    hread
  have hlength := congrArg (fun r => r.2.tokens.length) heq
  exact absurd hlength (by decide)

end Aetheris.Js.Syntax
