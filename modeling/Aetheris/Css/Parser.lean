import Aetheris.Css.Tokenizer

/-!
# The CSS parser

`CssParser` of `rendering/css_parser.cpp`, on the tokens of a style sheet.  The loops of the source
over an index are recursions over the tokens that are left; each of them takes at least one, and
this is proved beside its definition, since the next loop needs it to end.
-/

namespace Aetheris.Css

/-- `CssDeclaration`. -/
structure CssDeclaration where
  property : Bytes
  value : Bytes
  deriving DecidableEq, Repr

/-- `CssRule`. -/
structure CssRule where
  selectors : List Bytes
  declarations : List CssDeclaration
  sourceOrder : ℕ := 0
  deriving DecidableEq, Repr

/-- `CssStyleSheet`. -/
structure CssStyleSheet where
  rules : List CssRule := []
  deriving DecidableEq, Repr

/-- `trim`. -/
def trim (value : Bytes) : Bytes :=
  ((value.dropWhile isSpace).reverse.dropWhile isSpace).reverse

/-- `join_value`. -/
def joinValue (tokens : List CssToken) : Bytes := tokens.flatMap (·.value)

/-- The selectors with one more, unless it is empty. -/
def addSelector (selectors : List Bytes) (selector : Bytes) : List Bytes :=
  if trim selector = [] then selectors else selectors ++ [trim selector]

/-- The loop over the selectors of a rule: the selectors and what is behind the brace, if there is
one. -/
def readSelectors (selectors : List Bytes) (selector : Bytes) :
    List CssToken → Option (List Bytes × List CssToken)
  | [] => none
  | token :: tokens =>
    match token.type with
    | .endOfFile => none
    | .openBrace => some (addSelector selectors selector, tokens)
    | .comma => readSelectors (addSelector selectors selector) [] tokens
    | _ => readSelectors selectors (selector ++ token.value) tokens

/-- What ends a property. -/
def endsProperty (token : CssToken) : Bool := token.type == .colon || token.type == .closeBrace

/-- What ends a value. -/
def endsValue (token : CssToken) : Bool := token.type == .semicolon || token.type == .closeBrace

/-- What one round over the declarations finds. -/
inductive Round
  /-- The rule is at its end. -/
  | stop (behind : List CssToken)
  /-- A declaration, if it has a property, and whether the rule goes on. -/
  | declaration (d : Option CssDeclaration) (more : Bool) (behind : List CssToken)

/-- One round of the loop over the declarations. -/
def readDeclaration (tokens : List CssToken) : Round :=
  match tokens.dropWhile fun token => token.type == .whitespace with
  | [] => .stop []
  | token :: tokens =>
    if token.type = .closeBrace then .stop tokens
    else
      let property := trim (joinValue ((token :: tokens).takeWhile fun t => !endsProperty t))
      match (token :: tokens).dropWhile fun t => !endsProperty t with
      | [] => .stop []
      | token :: tokens =>
        if token.type = .closeBrace then .stop tokens
        else
          let value := trim (joinValue (tokens.takeWhile fun t => !endsValue t))
          let found := if property = [] then none else some ⟨property, value⟩
          match tokens.dropWhile fun t => !endsValue t with
          | [] => .declaration found true []
          | token :: tokens => .declaration found (token.type == .semicolon) tokens

/-- How many tokens are behind a round, and the one that ends a declaration. -/
def Round.size : Round → ℕ
  | .stop behind => behind.length
  | .declaration _ _ behind => behind.length + 1

/-- **A declaration has a token.** -/
theorem size_readDeclaration_le (tokens : List CssToken) :
    (readDeclaration tokens).size ≤ tokens.length := by
  have hblank := List.length_dropWhile_le (fun token => token.type == .whitespace) tokens
  rw [readDeclaration]
  split
  · exact Nat.zero_le _
  · rename_i token rest hrest
    rw [hrest] at hblank
    have hproperty := List.length_dropWhile_le (fun t => !endsProperty t) (token :: rest)
    split
    · exact (Nat.le_succ _).trans hblank
    · dsimp only
      split
      · exact Nat.zero_le _
      · rename_i token' rest' hrest'
        rw [hrest'] at hproperty
        have hle : rest'.length + 1 ≤ tokens.length := hproperty.trans hblank
        have hvalue := List.length_dropWhile_le (fun t => !endsValue t) rest'
        split
        · exact (Nat.le_succ _).trans hle
        · split
          · exact (Nat.succ_le_succ (Nat.zero_le _)).trans hle
          · rename_i token'' rest'' hrest''
            rw [hrest''] at hvalue
            exact (Nat.succ_le_succ ((Nat.le_succ _).trans hvalue)).trans hle

theorem length_behind_lt {tokens behind : List CssToken} {d : Option CssDeclaration} {more : Bool}
    (h : readDeclaration tokens = .declaration d more behind) : behind.length < tokens.length := by
  have hsize := size_readDeclaration_le tokens
  rwa [h] at hsize

/-- The loop over the declarations of a rule, and what is behind it. -/
def readDeclarations (tokens : List CssToken) (declarations : List CssDeclaration) :
    List CssDeclaration × List CssToken :=
  if tokens = [] ∨ tokens.head?.map (·.type) = some .endOfFile then (declarations, tokens)
  else
    match _ : readDeclaration tokens with
    | .stop behind => (declarations, behind)
    | .declaration d false behind => (declarations ++ d.toList, behind)
    | .declaration d true behind => readDeclarations behind (declarations ++ d.toList)
termination_by tokens.length
decreasing_by
  exact length_behind_lt ‹_›

theorem length_readDeclarations_le (tokens : List CssToken) (declarations : List CssDeclaration) :
    (readDeclarations tokens declarations).2.length ≤ tokens.length := by
  induction tokens, declarations using readDeclarations.induct with
  | case1 tokens declarations hend =>
    rw [readDeclarations, if_pos hend]
  | case2 tokens declarations hend behind hround =>
    have hsize := size_readDeclaration_le tokens
    rw [readDeclarations, if_neg hend, hround]
    rwa [hround] at hsize
  | case3 tokens declarations hend d behind hround =>
    rw [readDeclarations, if_neg hend, hround]
    exact (length_behind_lt hround).le
  | case4 tokens declarations hend d behind hround ih =>
    rw [readDeclarations, if_neg hend, hround]
    exact ih.trans (length_behind_lt hround).le

theorem length_readSelectors_lt {selectors : List Bytes} {selector : Bytes}
    {tokens : List CssToken} {result : List Bytes × List CssToken}
    (h : readSelectors selectors selector tokens = some result) :
    result.2.length < tokens.length := by
  induction tokens generalizing selectors selector with
  | nil => cases h
  | cons token tokens ih =>
    rw [readSelectors] at h
    split at h
    · cases h
    · cases h
      exact Nat.lt_succ_self _
    · exact (ih h).trans (Nat.lt_succ_self _)
    · exact (ih h).trans (Nat.lt_succ_self _)

/-- The loop over the rules. -/
def parseRules (tokens : List CssToken) (rules : List CssRule) (sourceOrder : ℕ) : List CssRule :=
  if tokens = [] ∨ tokens.head?.map (·.type) = some .endOfFile then rules
  else
    match _ : readSelectors [] [] (tokens.dropWhile fun token => token.type == .whitespace) with
    | none => rules
    | some (selectors, body) =>
      parseRules (readDeclarations body []).2
        (if selectors = [] then rules
        else rules ++ [⟨selectors, (readDeclarations body []).1, sourceOrder⟩]) (sourceOrder + 1)
termination_by tokens.length
decreasing_by
  have hbody := length_readSelectors_lt ‹_›
  have hblank := List.length_dropWhile_le (fun token => token.type == .whitespace) tokens
  have hbehind := length_readDeclarations_le body []
  dsimp only at hbody
  omega

/-- `parse_tokens`. -/
def parseTokens (tokens : List CssToken) : CssStyleSheet := ⟨parseRules tokens [] 0⟩

/-- `parse`. -/
def parse (text : Bytes) : CssStyleSheet := parseTokens (tokenize text)

end Aetheris.Css
