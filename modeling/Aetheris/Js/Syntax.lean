import Aetheris.Js.Lexer
import Aetheris.Js.Regex

/-!
# Syntax trees of scripts

The abstract syntax of `js.hpp`: nodes, each with the fields that its type uses.
-/

namespace Aetheris.Js.Syntax

/-- `Node`, by `NodeType`. -/
inductive Node
  | numberLiteral (number : Number)
  | stringLiteral (string : Bytes)
  | booleanLiteral (boolean : Bool)
  | nullLiteral
  | identifier (string : Bytes)
  | arrayLiteral (children : List Node)
  | objectLiteral (properties : List (Bytes × Node))
  /-- `FunctionExpression` and `FunctionDeclaration`; `boolean` says that the function is async. -/
  | function (isDeclaration : Bool) (string : Bytes) (parameters : List Bytes) (boolean : Bool)
      (body : Option Node)
  | unary (string : Bytes) (left : Node)
  | binary (string : Bytes) (left right : Node)
  | logical (string : Bytes) (left right : Node)
  | assignment (string : Bytes) (left right : Node)
  | conditional (left right third : Node)
  | call (left : Node) (children : List Node)
  /-- `Member` without `right`. -/
  | member (left : Node) (string : Bytes)
  /-- `Member` with `right`. -/
  | index (left right : Node)
  | new (left : Node) (children : List Node)
  | regexLiteral (regex : Option Regex)
  | program (children : List Node)
  | expressionStatement (left : Node)
  | variableDeclaration (kindLet : Bool) (names : List Bytes) (initializers : List (Option Node))
  | block (children : List Node)
  | ifStatement (test body : Node) (alternate : Option Node)
  | whileStatement (test body : Node)
  | forStatement (init test update : Option Node) (body : Node)
  | forOfStatement (string : Bytes) (right body : Node)
  /-- The `initializers` are the values of the cases, `none` for `default`. -/
  | switchStatement (test : Node) (initializers : List (Option Node)) (children : List Node)
  | returnStatement (left : Option Node)
  | breakStatement
  | continueStatement
  | classDeclaration (string : Bytes) (left : Option Node) (properties : List (Bytes × Node))
  deriving Repr

end Aetheris.Js.Syntax
