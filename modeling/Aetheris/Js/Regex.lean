import Aetheris.Bytes

/-!
# Regular expressions

`Regex` of `regex.cpp`: pattern trees and the matcher, which walks them with a continuation for the
rest of the pattern and gives up a choice when the continuation fails.
-/

namespace Aetheris.Js

/-- `Node`, with the fields that its kind reads.  A `maximum` below zero is `none`. -/
inductive Node
  | literal (literal : Byte)
  | any
  | charClass (negated : Bool) (ranges : List (Byte × Byte))
  | lineStart
  | lineEnd
  | concat (children : List Node)
  | alt (children : List Node)
  | repetition (child : Node) (minimum : ℕ) (maximum : Option ℕ) (greedy : Bool)
  | group (child : Node)
  deriving Repr

/-- `equal_char`. -/
def equalChar (a b : Byte) (ignoreCase : Bool) : Bool :=
  if ignoreCase then toLower a == toLower b else a == b

/-- `value >= lo && value <= hi` between `char`s, which are signed. -/
def inRange (value lo hi : Byte) : Bool :=
  lo.toInt8 ≤ value.toInt8 && value.toInt8 ≤ hi.toInt8

/-- `in_class`. -/
def inClass (negated : Bool) (ranges : List (Byte × Byte)) (c : Byte) (ignoreCase : Bool) :
    Bool :=
  let found := ranges.any fun (low, high) =>
    if ignoreCase then inRange (toLower c) (toLower low) (toLower high) else inRange c low high
  if negated then !found else found

section

variable {ρ : Type*}

/-- `repeat` of `match_node`: `body` matches the child.  What the continuation has found is the
result, `none` its `false`. -/
def matchRepeat (size : ℕ) (body : ℕ → (ℕ → Option ρ) → Option ρ) (minimum : ℕ)
    (maximum : Option ℕ) (greedy : Bool) (continuation : ℕ → Option ρ) (position count : ℕ) :
    Option ρ :=
  let canMore := maximum.all (count < ·)
  let again := fun next =>
    if next = position then none
    -- holds whenever it is asked: a match neither goes back nor leaves the text
    else if _ : position < next ∧ next ≤ size then
      matchRepeat size body minimum maximum greedy continuation next (count + 1)
    else none
  if count < minimum then
    if canMore then body position again else none
  else if greedy then
    (if canMore then body position again else none).or (continuation position)
  else
    (continuation position).or (if canMore then body position again else none)
termination_by size - position

variable (text : Bytes) (ignoreCase : Bool)

mutual

/-- `match_node`. -/
def matchNode : Node → ℕ → (ℕ → Option ρ) → Option ρ
  | .literal literal, position, continuation =>
    match text[position]? with
    | some c => if equalChar c literal ignoreCase then continuation (position + 1) else none
    | none => none
  | .any, position, continuation =>
    match text[position]? with
    | some c => if c ≠ chr '\n' then continuation (position + 1) else none
    | none => none
  | .charClass negated ranges, position, continuation =>
    match text[position]? with
    | some c => if inClass negated ranges c ignoreCase then continuation (position + 1) else none
    | none => none
  | .lineStart, position, continuation => if position = 0 then continuation position else none
  | .lineEnd, position, continuation =>
    if position = text.length then continuation position else none
  | .group child, position, continuation => matchNode child position continuation
  | .concat children, position, continuation => matchConcat children position continuation
  | .alt children, position, continuation => matchAlt children position continuation
  | .repetition child minimum maximum greedy, position, continuation =>
    matchRepeat text.length (fun at' k => matchNode child at' k) minimum maximum greedy
      continuation position 0

/-- `step` of `match_node`, over the children of a concatenation. -/
def matchConcat : List Node → ℕ → (ℕ → Option ρ) → Option ρ
  | [], position, continuation => continuation position
  | child :: children, position, continuation =>
    matchNode child position fun next => matchConcat children next continuation

/-- The loop of `match_node` over the branches of an alternation. -/
def matchAlt : List Node → ℕ → (ℕ → Option ρ) → Option ρ
  | [], _, _ => none
  | branch :: branches, position, continuation =>
    (matchNode branch position continuation).or (matchAlt branches position continuation)

end

end

/-- `Regex::Impl`. -/
structure Regex where
  source : Bytes
  flags : Bytes
  global : Bool
  ignoreCase : Bool
  root : Node
  deriving Repr

namespace Regex

/-- `Regex::search`: where the match starts and where it ends. -/
def search (regex : Regex) (text : Bytes) (start : ℕ) : Option (ℕ × ℕ) :=
  (List.range' start (text.length + 1 - start)).findSome? fun position =>
    (matchNode text regex.ignoreCase regex.root position some).map fun stop => (position, stop)

end Regex

end Aetheris.Js
