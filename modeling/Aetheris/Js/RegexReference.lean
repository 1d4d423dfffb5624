import Aetheris.Library.Backtrack
import Aetheris.Js.Regex

/-!
# What regular expressions mean

The reference is a walk over the pattern tree: a pattern leads from a place in the text to the
trails on which it may match, in the order of ECMAScript's priorities.  An earlier branch comes
before a later one; a greedy repetition tries one more iteration before none, and a lazy one after
it; an iteration that consumes nothing is refused only once the least count is reached.  A class
lists ranges of bytes, which are compared as the numbers that they are, and under `i` it accepts a
character one of whose case variants lies in a range.

The walk leaves open how the questions of the classes are answered.  It keeps them, and a trail
remembers whether each of its required iterations has consumed something.  The reference makes
nothing of either: they are there to say where a matcher goes wrong that answers the questions in a
way of its own, and that refuses all iterations that consume nothing.
-/

namespace Aetheris.Js

open Backtrack

/-- The character lies in one of the listed ranges. -/
def isListed (ranges : List (Byte × Byte)) (c : Byte) : Bool :=
  ranges.any fun (low, high) => decide (low ≤ c ∧ c ≤ high)

/-- A class accepts a character, or under `i` one of its case variants, that lies in a listed
range. -/
def accepts (ignoreCase negated : Bool) (ranges : List (Byte × Byte)) (c : Byte) : Bool :=
  let variants := if ignoreCase then [c, toLower c, toUpper c] else [c]
  let found := variants.any (isListed ranges)
  if negated then !found else found

/-- What a class is asked: whether it accepts a character, on a trail that is moving or not. -/
structure Question where
  negated : Bool
  ranges : List (Byte × Byte)
  character : Byte
  moving : Bool
  deriving DecidableEq, Repr

section

variable (judge : Bool → List (Byte × Byte) → Byte → Bool) (text : Bytes) (ignoreCase : Bool)

/-- A step that reads the next character. -/
def onChar (step : Byte → Met Question Trail) (trail : Trail) : Met Question Trail :=
  (text[trail.stop]?).elim [] step

/-- A trail on which a character is accepted or not. -/
def eat (accepted : Bool) (trail : Trail) : Met Question Trail :=
  if accepted then [.inr { trail with stop := trail.stop + 1 }] else []

/-- A step that stays where it is, if the place is right. -/
def anchor (place : ℕ) (trail : Trail) : Met Question Trail :=
  if trail.stop = place then [.inr trail] else []

mutual

/-- The trails on which a pattern matches, the preferred one first.  The questions of the classes are
answered by `judge`. -/
def Node.trails : Node → Trail → Met Question Trail
  | .literal literal => fun trail =>
    onChar text (fun c => eat (equalChar c literal ignoreCase) trail) trail
  | .any => fun trail => onChar text (fun c => eat (c != chr '\n') trail) trail
  | .charClass negated ranges => fun trail =>
    onChar text (fun c => .inl ⟨negated, ranges, c, trail.moving⟩ ::
      eat (judge negated ranges c) trail) trail
  | .lineStart => anchor 0
  | .lineEnd => anchor text.length
  | .group child => child.trails
  | .concat children => trailsConcat children
  | .alt children => trailsAlt children
  | .repetition child minimum maximum greedy =>
    repetition text.length child.trails minimum maximum greedy

/-- One child after the other. -/
def trailsConcat : List Node → Trail → Met Question Trail
  | [] => fun trail => [.inr trail]
  | child :: children => fun trail => followedBy (child.trails trail) (trailsConcat children)

/-- One branch, or else the next. -/
def trailsAlt : List Node → Trail → Met Question Trail
  | [] => fun _ => []
  | branch :: branches => fun trail => branch.trails trail ++ trailsAlt branches trail

end

end

namespace Regex

/-- The ways to match from `start` on, each with the place where it begins: the leftmost places come
first. -/
def ways (regex : Regex) (text : Bytes) (start : ℕ) : Met Question (ℕ × Trail) :=
  (List.range' start (text.length + 1 - start)).flatMap fun position =>
    followedBy (regex.root.trails (accepts regex.ignoreCase) text regex.ignoreCase { stop := position })
      fun trail => [.inr (position, trail)]

end Regex

/-- Where a way begins and where it ends. -/
def span (way : ℕ × Trail) : ℕ × ℕ := (way.1, way.2.stop)

/-- **The reference**: the first of the ways, that is the leftmost place from `start` on at which the
pattern matches, and where the preferred match there ends. -/
def Regex.reference (regex : Regex) (text : Bytes) (start : ℕ) : Option (ℕ × ℕ) :=
  (regex.ways text start).findSome? (Sum.elim (fun _ => none) (some ∘ span))

/-- The span of a way whose required iterations have all consumed something. -/
def movingSpan (way : ℕ × Trail) : Option (ℕ × ℕ) := if way.2.moving then some (span way) else none

/-! ## Where a matcher may go wrong -/

/-- A class that is asked on a moving trail, and that `in_class` answers otherwise. -/
def Misjudged (ignoreCase : Bool) (question : Question) : Prop :=
  question.moving = true ∧
    inClass question.negated question.ranges question.character ignoreCase ≠
      accepts ignoreCase question.negated question.ranges question.character

/-- Up to the first way that is moving, no class is misjudged. -/
def WellJudged (ignoreCase : Bool) : Met Question (ℕ × Trail) → Prop :=
  Faultless (Misjudged ignoreCase) movingSpan

/-- Each required iteration of the first way consumes something; or else the next way of which that
is true begins and ends at the same places. -/
def Undisturbed : Met Question (ℕ × Trail) → Prop
  | [] => True
  | .inl _ :: ways => Undisturbed ways
  | .inr way :: ways =>
    way.2.moving = true ∨ ways.findSome? (Sum.elim (fun _ => none) movingSpan) = some (span way)

end Aetheris.Js
