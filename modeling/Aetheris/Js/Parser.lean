import Aetheris.Js.RegexCompile
import Aetheris.Js.Syntax

/-!
# The parser of scripts

`Parser` of `js.cpp`: recursive descent over the tokens, with precedence climbing for the binary
operators.  Its functions call each other without a bound that would be easy to see; `fuel` bounds
the depth of their calls, and `none` says that it was not enough.  The state is the tokens that are
left and the first error, which the loops over lists stop at.
-/

namespace Aetheris.Js.Syntax

/-- `Token::text`. -/
def text : Token → Bytes
  | .endOfInput => []
  | .number text _ => text
  | .string text => text
  | .identifier text => text
  | .keyword text => text
  | .punctuator text => text
  | .regex text _ => text

/-- `Parser`: the tokens from `m_position` on, the last of which is the end of the input. -/
structure Parser where
  tokens : List Token
  error : Bytes := []
  deriving DecidableEq, Repr

namespace Parser

variable (s : Parser)

/-- `peek`, with an offset. -/
def peekAt (offset : ℕ) : Token := s.tokens.getD offset (s.tokens.getLastD .endOfInput)

/-- `peek` -/
def peek : Token := s.peekAt 0

/-- `advance` -/
def advance : Parser :=
  match s.tokens with
  | _ :: next :: rest => { s with tokens := next :: rest }
  | _ => s

/-- `check`: punctuators and keywords only. -/
def check (expected : Bytes) : Bool :=
  match s.peek with
  | .punctuator text | .keyword text => text == expected
  | _ => false

/-- `match`, where its result does not matter. -/
def skip (expected : Bytes) : Parser := if s.check expected then s.advance else s

/-- `failed` -/
def failed : Bool := s.error != []

/-- `set_error` -/
def setError (message : Bytes) : Parser :=
  if s.error = [] then { s with error := message } else s

/-- `expect` -/
def expect (expected : Bytes) : Parser :=
  if s.check expected then s.advance
  else s.setError (lit "expected '" ++ expected ++ lit "'")

/-- `peek().type == TokenType::EndOfInput` -/
def atEnd : Bool := s.peek == .endOfInput

/-- `peek().type == TokenType::Identifier` -/
def atIdentifier : Bool :=
  match s.peek with
  | .identifier _ => true
  | _ => false

/-- `peek().type == TokenType::Identifier || peek().type == TokenType::Keyword` -/
def atName : Bool :=
  match s.peek with
  | .identifier _ | .keyword _ => true
  | _ => false

/-- One of the checks holds. -/
def checkAny (expected : List Bytes) : Bool := expected.any s.check

end Parser

/-- `binary_precedence` -/
def binaryPrecedence (op : Bytes) : ℕ :=
  if op = lit "||" then 1
  else if op = lit "&&" then 2
  else if op ∈ [lit "==", lit "!=", lit "===", lit "!=="] then 3
  else if op ∈ [lit "<", lit ">", lit "<=", lit ">=", lit "instanceof"] then 4
  else if op ∈ [lit "+", lit "-"] then 5
  else if op ∈ [lit "*", lit "/", lit "%"] then 6
  else 0

/-- The operators of `parse_assignment`. -/
def assignmentOperators : List Bytes :=
  [lit "=", lit "+=", lit "-=", lit "*=", lit "/=", lit "%="]

/-- The operators of `parse_unary`, `new` apart. -/
def unaryOperators : List Bytes :=
  [lit "await", lit "!", lit "-", lit "+", lit "typeof", lit "++", lit "--"]

/-- The operators of `apply_postfix`. -/
def postfixOperators : List Bytes := [lit "++", lit "--"]

/-- The node that `parse_binary` makes. -/
def binaryNode (op : Bytes) (left right : Node) : Node :=
  if op = lit "&&" ∨ op = lit "||" then .logical op left right else .binary op left right

/-- A part of a statement that need not be there. -/
def optionally (present : Bool) (parsed : Option (Node × Parser)) (s : Parser) :
    Option (Option Node × Parser) :=
  if present then parsed.map fun r => (some r.1, r.2) else some (none, s)

/-- `function->boolean = true` -/
def Node.markAsync : Node → Node
  | .function isDeclaration string parameters _ body =>
    .function isDeclaration string parameters true body
  | node => node

/-- The loop of `parse_function` over the parameters. -/
def parameterLoop : ℕ → Parser → Option (List Bytes × Parser)
  | 0, _ => none
  | fuel + 1, s =>
    if s.check (lit ")") || s.atEnd then some ([], s)
    else if !s.atIdentifier then some ([], s.setError (lit "expected parameter name"))
    else
      let t := s.advance
      if t.check (lit ",") then do
        let (parameters, t) ← parameterLoop fuel t.advance
        return (text s.peek :: parameters, t)
      else some ([text s.peek], t)

mutual

/-- `parse_expression` and `parse_assignment` -/
def parseAssignment : ℕ → Parser → Option (Node × Parser)
  | 0, _ => none
  | fuel + 1, s => do
    let (left, s) ← parseConditional fuel s
    if s.checkAny assignmentOperators then do
      let (right, t) ← parseAssignment fuel s.advance
      return (.assignment (text s.peek) left right, t)
    else return (left, s)

/-- `parse_conditional` -/
def parseConditional : ℕ → Parser → Option (Node × Parser)
  | 0, _ => none
  | fuel + 1, s => do
    let (condition, s) ← parseBinary fuel 1 s
    if s.check (lit "?") then do
      let (right, s) ← parseAssignment fuel s.advance
      let (third, s) ← parseAssignment fuel (s.expect (lit ":"))
      return (.conditional condition right third, s)
    else return (condition, s)

/-- `parse_binary` -/
def parseBinary : ℕ → ℕ → Parser → Option (Node × Parser)
  | 0, _, _ => none
  | fuel + 1, minPrecedence, s => do
    let (left, s) ← parseUnary fuel s
    binaryLoop fuel minPrecedence left s

/-- The loop of `parse_binary`. -/
def binaryLoop : ℕ → ℕ → Node → Parser → Option (Node × Parser)
  | 0, _, _, _ => none
  | fuel + 1, minPrecedence, left, s =>
    match s.peek with
    | .punctuator op | .keyword op =>
      let precedence := binaryPrecedence op
      if precedence = 0 ∨ precedence < minPrecedence then some (left, s)
      else do
        let (right, s) ← parseBinary fuel (precedence + 1) s.advance
        binaryLoop fuel minPrecedence (binaryNode op left right) s
    | _ => some (left, s)

/-- `parse_unary` -/
def parseUnary : ℕ → Parser → Option (Node × Parser)
  | 0, _ => none
  | fuel + 1, s =>
    if s.check (lit "new") then do
      let (callee, s) ← parsePrimary fuel s.advance
      let (callee, s) ← calleeLoop fuel callee s
      if s.check (lit "(") then do
        let (children, s) ← argumentLoop fuel (lit ")") true s.advance
        applyPostfix fuel (.new callee children) (s.expect (lit ")"))
      else applyPostfix fuel (.new callee []) s
    else if s.checkAny unaryOperators then do
      let (left, t) ← parseUnary fuel s.advance
      return (.unary (text s.peek) left, t)
    else do
      let (expression, s) ← parsePrimary fuel s
      applyPostfix fuel expression s

/-- The loop of `parse_unary` over the callee of `new`. -/
def calleeLoop : ℕ → Node → Parser → Option (Node × Parser)
  | 0, _, _ => none
  | fuel + 1, callee, s =>
    if s.failed then some (callee, s)
    else if s.check (lit ".") then
      let s := s.advance
      if s.atName then calleeLoop fuel (.member callee (text s.peek)) s.advance
      else calleeLoop fuel (.member callee []) (s.setError (lit "expected property name"))
    else if s.check (lit "[") then do
      let (right, s) ← parseAssignment fuel s.advance
      calleeLoop fuel (.index callee right) (s.expect (lit "]"))
    else some (callee, s)

/-- `apply_postfix` -/
def applyPostfix : ℕ → Node → Parser → Option (Node × Parser)
  | 0, _, _ => none
  | fuel + 1, expression, s =>
    if s.check (lit ".") then
      let s := s.advance
      if s.atName then applyPostfix fuel (.member expression (text s.peek)) s.advance
      else some (expression, s.setError (lit "expected property name"))
    else if s.check (lit "[") then do
      let (right, s) ← parseAssignment fuel s.advance
      applyPostfix fuel (.index expression right) (s.expect (lit "]"))
    else if s.check (lit "(") then do
      let (children, s) ← argumentLoop fuel (lit ")") false s.advance
      applyPostfix fuel (.call expression children) (s.expect (lit ")"))
    else if s.checkAny postfixOperators then
      applyPostfix fuel (.unary (text s.peek) expression) s.advance
    else some (expression, s)

/-- The loops over the arguments of a call or of `new`, and over the elements of an array; the one
of `new` stops at an error as well. -/
def argumentLoop : ℕ → Bytes → Bool → Parser → Option (List Node × Parser)
  | 0, _, _, _ => none
  | fuel + 1, close, stops, s =>
    if s.check close || s.atEnd || (stops && s.failed) then some ([], s)
    else do
      let (child, s) ← parseAssignment fuel s
      if s.check (lit ",") then do
        let (children, s) ← argumentLoop fuel close stops s.advance
        return (child :: children, s)
      else return ([child], s)

/-- The loop over the properties of an object. -/
def propertyLoop : ℕ → Parser → Option (List (Bytes × Node) × Parser)
  | 0, _ => none
  | fuel + 1, s =>
    if s.check (lit "\x7d") || s.atEnd then some ([], s)
    else
      match s.peek with
      | .identifier key | .keyword key | .string key => do
        let (value, s) ← parseAssignment fuel (s.advance.expect (lit ":"))
        if s.check (lit ",") then do
          let (properties, s) ← propertyLoop fuel s.advance
          return ((key, value) :: properties, s)
        else return ([(key, value)], s)
      | _ => some ([], s.setError (lit "expected property key"))

/-- `parse_primary` -/
def parsePrimary : ℕ → Parser → Option (Node × Parser)
  | 0, _ => none
  | fuel + 1, s =>
    match s.peek with
    | .number _ value => some (.numberLiteral value, s.advance)
    | .regex text flags =>
      match Regex.compile text flags with
      | none => none
      | some (.ok regex) => some (.regexLiteral (some regex), s.advance)
      | some (.error message) =>
        some (.regexLiteral none, s.advance.setError
          (if message = [] then lit "invalid regular expression" else message))
    | .string text => some (.stringLiteral text, s.advance)
    | token =>
      if text token = lit "true" ∨ text token = lit "false" then
        some (.booleanLiteral (text token = lit "true"), s.advance)
      else if text token = lit "null" then some (.nullLiteral, s.advance)
      else if text token = lit "undefined" then some (.identifier (lit "undefined"), s.advance)
      else if text token = lit "function" then parseFunction fuel false s.advance
      else if s.atName then some (.identifier (text token), s.advance)
      else if s.check (lit "(") then do
        let (expression, s) ← parseAssignment fuel s.advance
        return (expression, s.expect (lit ")"))
      else if s.check (lit "[") then do
        let (children, s) ← argumentLoop fuel (lit "]") false s.advance
        return (.arrayLiteral children, s.expect (lit "]"))
      else if s.check (lit "\x7b") then do
        let (properties, s) ← propertyLoop fuel s.advance
        return (.objectLiteral properties, s.expect (lit "\x7d"))
      else
        some (.nullLiteral,
          (s.setError (lit "unexpected token '" ++ text token ++ lit "'")).advance)

/-- `parse_function` -/
def parseFunction : ℕ → Bool → Parser → Option (Node × Parser)
  | 0, _, _ => none
  | fuel + 1, isDeclaration, s =>
    if isDeclaration && !s.atIdentifier then
      some (.function isDeclaration [] [] false none, s.setError (lit "expected function name"))
    else
      let name := if s.atIdentifier then text s.peek else []
      let s := if s.atIdentifier then s.advance else s
      if !s.check (lit "(") then
        some (.function isDeclaration name [] false none, s.expect (lit "("))
      else do
        let (parameters, s) ← parameterLoop fuel s.advance
        let (body, s) ← parseBlock fuel (s.expect (lit ")"))
        return (.function isDeclaration name parameters false (some body), s)

/-- `parse_block` -/
def parseBlock : ℕ → Parser → Option (Node × Parser)
  | 0, _ => none
  | fuel + 1, s =>
    if !s.check (lit "\x7b") then some (.block [], s.expect (lit "\x7b"))
    else do
      let (children, s) ← blockLoop fuel s.advance
      return (.block children, s.expect (lit "\x7d"))

/-- The loop of `parse_block`. -/
def blockLoop : ℕ → Parser → Option (List Node × Parser)
  | 0, _ => none
  | fuel + 1, s =>
    if s.check (lit "\x7d") || s.atEnd || s.failed then some ([], s)
    else do
      let (statement, s) ← parseStatement fuel s
      let (children, s) ← blockLoop fuel s
      return (statement :: children, s)

/-- `parse_class` -/
def parseClass : ℕ → Parser → Option (Node × Parser)
  | 0, _ => none
  | fuel + 1, s =>
    if !s.atIdentifier then
      some (.classDeclaration [] none [], s.setError (lit "expected class name"))
    else
      let t := s.advance
      if !t.check (lit "\x7b") then
        some (.classDeclaration (text s.peek) none [], t.expect (lit "\x7b"))
      else do
        let (left, properties, t) ← methodLoop fuel none [] t.advance
        return (.classDeclaration (text s.peek) left properties, t.expect (lit "\x7d"))

/-- The loop of `parse_class`: the constructor and the methods so far. -/
def methodLoop : ℕ → Option Node → List (Bytes × Node) → Parser →
    Option (Option Node × List (Bytes × Node) × Parser)
  | 0, _, _, _ => none
  | fuel + 1, left, properties, s =>
    if s.check (lit "\x7d") || s.atEnd || s.failed then some (left, properties, s)
    else if !s.atName then some (left, properties, s.setError (lit "expected method name"))
    else do
      let (function, t) ← parseFunction fuel false s.advance
      if text s.peek = lit "constructor" then methodLoop fuel (some function) properties t
      else methodLoop fuel left (properties ++ [(text s.peek, function)]) t

/-- `parse_statement` -/
def parseStatement : ℕ → Parser → Option (Node × Parser)
  | 0, _ => none
  | fuel + 1, s =>
    if s.check (lit "\x7b") then parseBlock fuel s
    else if s.checkAny [lit "var", lit "let", lit "const"] then do
      let (names, initializers, t) ← declarationLoop fuel s.advance
      return (.variableDeclaration (!s.check (lit "var")) names initializers, t.skip (lit ";"))
    else if s.check (lit "class") then parseClass fuel s.advance
    else if s.check (lit "async") && text (s.peekAt 1) == lit "function" then do
      let (function, t) ← parseFunction fuel true s.advance.advance
      return (function.markAsync, t)
    else if s.check (lit "function") then parseFunction fuel true s.advance
    else if s.check (lit "if") then do
      let (test, t) ← parseAssignment fuel (s.advance.expect (lit "("))
      let (body, t) ← parseStatement fuel (t.expect (lit ")"))
      if t.check (lit "else") then do
        let (alternate, t) ← parseStatement fuel t.advance
        return (.ifStatement test body (some alternate), t)
      else return (.ifStatement test body none, t)
    else if s.check (lit "while") then do
      let (test, t) ← parseAssignment fuel (s.advance.expect (lit "("))
      let (body, t) ← parseStatement fuel (t.expect (lit ")"))
      return (.whileStatement test body, t)
    else if s.check (lit "for") then parseFor fuel (s.advance.expect (lit "("))
    else if s.check (lit "return") then
      let t := s.advance
      if t.check (lit ";") || t.check (lit "\x7d") || t.atEnd then
        some (.returnStatement none, t.skip (lit ";"))
      else do
        let (left, t) ← parseAssignment fuel t
        return (.returnStatement (some left), t.skip (lit ";"))
    else if s.check (lit "break") then some (.breakStatement, s.advance.skip (lit ";"))
    else if s.check (lit "continue") then some (.continueStatement, s.advance.skip (lit ";"))
    else if s.check (lit "switch") then do
      let (test, t) ← parseAssignment fuel (s.advance.expect (lit "("))
      let (initializers, children, t) ←
        switchLoop fuel ((t.expect (lit ")")).expect (lit "\x7b"))
      return (.switchStatement test initializers children, t.expect (lit "\x7d"))
    else do
      let (left, t) ← parseAssignment fuel s
      return (.expressionStatement left, t.skip (lit ";"))

/-- The loop over the variables of a declaration. -/
def declarationLoop : ℕ → Parser → Option (List Bytes × List (Option Node) × Parser)
  | 0, _ => none
  | fuel + 1, s =>
    if !s.atIdentifier then some ([], [], s.setError (lit "expected variable name"))
    else do
      let t := s.advance
      let (initializer, t) ←
        optionally (t.check (lit "=")) (parseAssignment fuel t.advance) t
      if t.check (lit ",") then do
        let (names, initializers, t) ← declarationLoop fuel t.advance
        return (text s.peek :: names, initializer :: initializers, t)
      else return ([text s.peek], [initializer], t)

/-- The statement `for`, behind its opening parenthesis: the form with `of` is tried first. -/
def parseFor : ℕ → Parser → Option (Node × Parser)
  | 0, _ => none
  | fuel + 1, s =>
    let t := s.advance
    if s.checkAny [lit "var", lit "let", lit "const"] && t.atIdentifier &&
        t.advance.check (lit "of") then do
      let (right, u) ← parseAssignment fuel t.advance.advance
      let (body, u) ← parseStatement fuel (u.expect (lit ")"))
      return (.forOfStatement (text t.peek) right body, u)
    else do
      let (init, s) ←
        if s.check (lit "var") || s.check (lit "let") then
          optionally true (parseStatement fuel s) s
        else
          (optionally (!s.check (lit ";")) (parseAssignment fuel s) s).map fun r =>
            (r.1.map .expressionStatement, r.2.skip (lit ";"))
      let (test, s) ← optionally (!s.check (lit ";")) (parseAssignment fuel s) s
      let s := s.expect (lit ";")
      let (update, s) ← optionally (!s.check (lit ")")) (parseAssignment fuel s) s
      let (body, s) ← parseStatement fuel (s.expect (lit ")"))
      return (.forStatement init test update body, s)

/-- The loop over the cases of a `switch`. -/
def switchLoop : ℕ → Parser → Option (List (Option Node) × List Node × Parser)
  | 0, _ => none
  | fuel + 1, s =>
    if s.check (lit "\x7d") || s.atEnd || s.failed then some ([], [], s)
    else if !s.check (lit "case") && !s.check (lit "default") then
      some ([], [], s.setError (lit "expected 'case' or 'default'"))
    else do
      let (initializer, t) ←
        optionally (s.check (lit "case")) (parseAssignment fuel s.advance) s.advance
      let (block, t) ← caseLoop fuel (t.expect (lit ":"))
      let (initializers, children, t) ← switchLoop fuel t
      return (initializer :: initializers, .block block :: children, t)

/-- The loop over the statements of a case. -/
def caseLoop : ℕ → Parser → Option (List Node × Parser)
  | 0, _ => none
  | fuel + 1, s =>
    if s.checkAny [lit "case", lit "default", lit "\x7d"] || s.atEnd then some ([], s)
    else do
      let (statement, s) ← parseStatement fuel s
      let (children, s) ← caseLoop fuel s
      return (statement :: children, s)

end

/-- The loop of `parse_program`. -/
def programLoop : ℕ → Parser → Option (List Node × Parser)
  | 0, _ => none
  | fuel + 1, s =>
    if s.atEnd || s.failed then some ([], s)
    else do
      let (statement, s) ← parseStatement fuel s
      let (children, s) ← programLoop fuel s
      return (statement :: children, s)

/-- `parse_program` -/
def parseProgram (fuel : ℕ) (tokens : List Token) : Option (Node × Parser) := do
  let (children, s) ← programLoop fuel { tokens := tokens }
  return (.program children, s)

end Aetheris.Js.Syntax
