import Aetheris.Css.Parser
import Aetheris.Find
import Aetheris.Style.Selector

/-!
# Computed styles

`StyleResolver::resolve` of `rendering/style.cpp`: the declarations of the matching rules, in the
order of their specificity, then those of the `style` attribute, then what is inherited, then the
initial values.  The score of a selector is not taken modulo the width of an `int`.
-/

namespace Aetheris.Style

open Css Dom

/-! ## Properties -/

/-- `StyleProperties`: `get` is the map. -/
structure StyleProperties where
  get : Bytes → Option Bytes := fun _ => none

namespace StyleProperties

/-- `StyleProperties::set`. -/
def set (s : StyleProperties) (property value : Bytes) : StyleProperties :=
  ⟨fun key => if key = property then some value else s.get key⟩

/-- `set_default`. -/
def setDefault (s : StyleProperties) (property value : Bytes) : StyleProperties :=
  if (s.get property).isSome then s else s.set property value

@[simp] theorem get_set (s : StyleProperties) (property value key : Bytes) :
    (s.set property value).get key = if key = property then some value else s.get key := rfl

theorem get_setDefault (s : StyleProperties) (property value key : Bytes) :
    (s.setDefault property value).get key =
      if key = property then some ((s.get property).getD value) else s.get key := by
  rw [setDefault]
  by_cases hkey : key = property
  · rw [if_pos hkey, hkey]
    cases hget : s.get property with
    | none => exact if_pos rfl
    | some old => exact hget
  · rw [if_neg hkey]
    split
    · rfl
    · rw [get_set, if_neg hkey]

theorem get_setDefault_self (s : StyleProperties) (property value : Bytes) :
    (s.setDefault property value).get property = some ((s.get property).getD value) :=
  (get_setDefault s property value property).trans (if_pos rfl)

theorem get_setDefault_of_ne (s : StyleProperties) (property value : Bytes) {key : Bytes}
    (hkey : key ≠ property) : (s.setDefault property value).get key = s.get key :=
  (get_setDefault s property value key).trans (if_neg hkey)

/-- The properties that `inherit_from` names. -/
def inherited : List Bytes :=
  [lit "color", lit "font-family", lit "font-size", lit "font-weight", lit "line-height",
    lit "text-align", lit "text-decoration", lit "white-space", lit "letter-spacing",
    lit "word-spacing"]

/-- `StyleProperties::inherit_from`. -/
def inheritFrom (s parent : StyleProperties) : StyleProperties :=
  inherited.foldl (fun s property =>
    match parent.get property with
    | some value => s.setDefault property value
    | none => s) s

end StyleProperties

/-! ## The cascade -/

/-- The characters of a name in a selector. -/
def isIdentChar (c : Byte) : Bool := isAlnum c || c == chr '-' || c == chr '_'

/-- The characters that are not counted. -/
def isUncounted (c : Byte) : Bool :=
  isSpace c || c == chr '>' || c == chr '+' || c == chr '~' || c == chr '*'

/-- A text behind one colon, if there is one. -/
def skipColon (text : Bytes) : Bytes := if text.head? = some (chr ':') then text.tail else text

theorem length_skipColon_le (text : Bytes) : (skipColon text).length ≤ text.length := by
  rw [skipColon]
  split
  · rw [List.length_tail]
    exact Nat.sub_le _ _
  · exact le_rfl

/-- `specificity`: a hundred times a hundred for an id, a hundred for a class, one for a name. -/
def specificity (selector : Bytes) : ℕ :=
  match selector with
  | [] => 0
  | c :: rest =>
    if c = chr '#' then 10000 + specificity (rest.dropWhile isIdentChar)
    else if c = chr '.' then 100 + specificity (rest.dropWhile isIdentChar)
    else if c = chr ':' then 100 + specificity ((skipColon rest).dropWhile isIdentChar)
    else if isUncounted c then specificity rest
    else 1 + specificity (rest.dropWhile isIdentChar)
termination_by selector.length
decreasing_by
  · exact Nat.lt_succ_of_le (List.length_dropWhile_le _ _)
  · exact Nat.lt_succ_of_le (List.length_dropWhile_le _ _)
  · exact Nat.lt_succ_of_le ((List.length_dropWhile_le _ _).trans (length_skipColon_le _))
  · exact Nat.lt_succ_self _
  · exact Nat.lt_succ_of_le (List.length_dropWhile_le _ _)

/-- `apply_four_sides`. -/
def applyFourSides (s : StyleProperties) (base value : Bytes) : StyleProperties :=
  match words value with
  | [] => s
  | top :: values =>
    let right := values.getD 0 top
    let bottom := values.getD 1 top
    let left := values.getD 2 right
    (((s.set (base ++ lit "-top") top).set (base ++ lit "-right") right).set
      (base ++ lit "-bottom") bottom).set (base ++ lit "-left") left

/-- The four sides. -/
def sides : List Bytes := [lit "top", lit "right", lit "bottom", lit "left"]

/-- A `border-width` declaration. -/
def applyBorderWidth (s : StyleProperties) (value : Bytes) : StyleProperties :=
  let widths := applyFourSides s (lit "border") value
  sides.foldl (fun s side =>
    match widths.get (lit "border-" ++ side) with
    | some width => s.set (lit "border-" ++ side ++ lit "-width") width
    | none => s) widths

/-- One word of a `border` declaration. -/
def applyBorderWord (s : StyleProperties) (token : Bytes) : StyleProperties :=
  if token ∈ [lit "solid", lit "dashed", lit "dotted", lit "none"] then
    s.set (lit "border-style") token
  else if token.head?.elim false fun c => isDigit c || c == chr '.' then
    sides.foldl (fun s side => s.set (lit "border-" ++ side ++ lit "-width") token) s
  else s.set (lit "border-color") token

/-- The words of a `background` declaration that are not a colour. -/
def backgroundWords : List Bytes :=
  [lit "repeat", lit "no-repeat", lit "repeat-x", lit "repeat-y", lit "center", lit "left",
    lit "right", lit "top", lit "bottom", lit "fixed", lit "scroll", lit "cover", lit "contain"]

/-- A `background` declaration. -/
def applyBackground (s : StyleProperties) (value : Bytes) : StyleProperties :=
  let s :=
    match find value (lit "url(") with
    | none => s
    | some begin =>
      let url := value.drop begin
      s.set (lit "background-image") (url.take ((find url (lit ")")).elim url.length (· + 1)))
  match (words value).find? fun token =>
    (find token (lit "url(")).isNone && !backgroundWords.contains token with
  | some color => s.set (lit "background-color") color
  | none => s

/-- `apply_declaration`. -/
def applyDeclaration (s : StyleProperties) (declaration : CssDeclaration) : StyleProperties :=
  if declaration.property = lit "margin" ∨ declaration.property = lit "padding" then
    applyFourSides s declaration.property declaration.value
  else if declaration.property = lit "border-width" then applyBorderWidth s declaration.value
  else if declaration.property = lit "border-radius" then
    match words declaration.value with
    | first :: _ => s.set (lit "border-radius") first
    | [] => s
  else if declaration.property = lit "border" then
    (words declaration.value).foldl applyBorderWord s
  else if declaration.property = lit "background" then applyBackground s declaration.value
  else s.set declaration.property declaration.value

/-- A matching declaration. -/
structure Match where
  specificity : ℕ
  sourceOrder : ℕ
  declaration : CssDeclaration

/-- The order in which the matching declarations are applied. -/
def Match.le (a b : Match) : Bool :=
  if a.specificity ≠ b.specificity then a.specificity < b.specificity
  else a.sourceOrder ≤ b.sourceOrder

/-- The matching declarations, in the order of the sheet. -/
def matchingDeclarations (dom : DomTree) (sheet : CssStyleSheet)
    (interaction : Option VisualInteractionState) (id : NodeId) : List Match :=
  sheet.rules.flatMap fun rule =>
    rule.selectors.flatMap fun selector =>
      if matchesSelector dom interaction selector id then
        rule.declarations.map fun declaration =>
          ⟨specificity selector, rule.sourceOrder, declaration⟩
      else []

/-! ## The `style` attribute -/

/-- `trim` of the `style` attribute. -/
def trimInline (text : Bytes) : Bytes :=
  let isBlank (c : Byte) : Bool := c == 0x20 || c == 0x09 || c == 0x0d || c == 0x0a
  ((text.dropWhile isBlank).reverse.dropWhile isBlank).reverse

/-- What `std::getline` reads up to each delimiter; behind the last one nothing is read if nothing
is there. -/
def getlines (delimiter : Byte) (text : Bytes) : List Bytes :=
  let pieces := text.splitOn delimiter
  if pieces.getLast? = some [] then pieces.dropLast else pieces

/-- A piece of the `style` attribute as a declaration. -/
def inlineDeclaration (piece : Bytes) : Option CssDeclaration :=
  match find piece (lit ":") with
  | none => none
  | some colon =>
    let property := trimInline (piece.take colon)
    let value := trimInline (piece.drop (colon + 1))
    if property = [] ∨ value = [] then none else some ⟨property, value⟩

/-- The declarations of a `style` attribute. -/
def inlineDeclarations (text : Bytes) : List CssDeclaration :=
  (getlines (chr ';') text).filterMap inlineDeclaration

/-! ## The computed style -/

/-- The form controls. -/
def isFormControl (node : DomNode) : Bool :=
  node.type == .element &&
    [lit "input", lit "textarea", lit "select", lit "button"].contains node.name

/-- The initial values of every node, in the order of the source. -/
def initialValues : List (Bytes × Bytes) :=
  [(lit "color", lit "black"), (lit "font-size", lit "16px"), (lit "line-height", lit "normal"),
    (lit "white-space", lit "normal"), (lit "opacity", lit "1"), (lit "position", lit "static"),
    (lit "border-style", lit "solid"), (lit "border-radius", lit "0"),
    (lit "overflow", lit "visible"), (lit "z-index", lit "auto"),
    (lit "background-repeat", lit "repeat"), (lit "background-position", lit "0 0"),
    (lit "background-size", lit "auto"), (lit "object-fit", lit "fill")]

/-- The initial values of a form control. -/
def formValues : List (Bytes × Bytes) :=
  [(lit "border-width", lit "1px"), (lit "padding", lit "4px"), (lit "background-color", lit "white")]

/-- The initial value of `display`. -/
def defaultDisplay (node : DomNode) : Bytes :=
  if node.type = .text then lit "inline"
  else if isFormControl node then lit "inline-block" else lit "block"

/-- `apply_initial_values`. -/
def applyInitialValues (node : DomNode) (s : StyleProperties) : StyleProperties :=
  let s := s.setDefault (lit "display") (defaultDisplay node)
  let s := initialValues.foldl (fun s entry => s.setDefault entry.1 entry.2) s
  if isFormControl node then formValues.foldl (fun s entry => s.setDefault entry.1 entry.2) s else s

/-- What the cascade and the `style` attribute give a node. -/
def declaredStyle (dom : DomTree) (sheet : CssStyleSheet)
    (interaction : Option VisualInteractionState) (id : NodeId) (node : DomNode) :
    StyleProperties :=
  let matching := (matchingDeclarations dom sheet interaction id).insertionSort (Match.le · ·)
  let cascaded := matching.foldl (fun s m => applyDeclaration s m.declaration) {}
  match (if node.type = .element then node.attributeValue (lit "style") else none) with
  | some text => (inlineDeclarations text).foldl applyDeclaration cascaded
  | none => cascaded

/-- `StyleResolver::resolve`. -/
def resolve (dom : DomTree) (sheet : CssStyleSheet) (parentStyle : Option StyleProperties)
    (interaction : Option VisualInteractionState) (id : NodeId) (node : DomNode) :
    StyleProperties :=
  let declared := declaredStyle dom sheet interaction id node
  let inherited := parentStyle.elim declared declared.inheritFrom
  applyInitialValues node inherited

/-! ## What is not inherited -/

theorem get_inheritFrom (s parent : StyleProperties) {key : Bytes}
    (hkey : key ∉ StyleProperties.inherited) : (s.inheritFrom parent).get key = s.get key := by
  rw [StyleProperties.inheritFrom]
  generalize StyleProperties.inherited = properties at hkey
  induction properties generalizing s with
  | nil => rfl
  | cons property properties ih =>
    obtain ⟨hne, hrest⟩ := not_or.mp fun h => hkey (List.mem_cons.mpr h)
    rw [List.foldl_cons, ih _ hrest]
    split
    · exact StyleProperties.get_setDefault_of_ne _ _ _ hne
    · rfl

theorem get_foldl_setDefault (entries : List (Bytes × Bytes)) (s : StyleProperties) {key : Bytes}
    (hkey : key ∉ entries.map Prod.fst) :
    (entries.foldl (fun s entry => s.setDefault entry.1 entry.2) s).get key = s.get key := by
  induction entries generalizing s with
  | nil => rfl
  | cons entry entries ih =>
    obtain ⟨hne, hrest⟩ := not_or.mp fun h => hkey (List.mem_cons.mpr h)
    rw [List.foldl_cons, ih _ hrest, StyleProperties.get_setDefault_of_ne _ _ _ hne]

theorem display_not_mem_inherited : lit "display" ∉ StyleProperties.inherited := by decide

theorem display_not_mem_initialValues : lit "display" ∉ initialValues.map Prod.fst := by decide

theorem display_not_mem_formValues : lit "display" ∉ formValues.map Prod.fst := by decide

theorem get_display_applyInitialValues (node : DomNode) (s : StyleProperties) :
    (applyInitialValues node s).get (lit "display") =
      some ((s.get (lit "display")).getD (defaultDisplay node)) := by
  have hdisplay := StyleProperties.get_setDefault_self s (lit "display") (defaultDisplay node)
  rw [applyInitialValues]
  split
  · rw [get_foldl_setDefault _ _ display_not_mem_formValues,
      get_foldl_setDefault _ _ display_not_mem_initialValues, hdisplay]
  · rw [get_foldl_setDefault _ _ display_not_mem_initialValues, hdisplay]

/-- **The display of a node is its own.** -/
theorem get_display_resolve (dom : DomTree) (sheet : CssStyleSheet)
    (parentStyle : Option StyleProperties) (interaction : Option VisualInteractionState)
    (id : NodeId) (node : DomNode) :
    (resolve dom sheet parentStyle interaction id node).get (lit "display") =
      some (((declaredStyle dom sheet interaction id node).get (lit "display")).getD
        (defaultDisplay node)) := by
  have hparent (s : StyleProperties) :
      (parentStyle.elim s s.inheritFrom).get (lit "display") = s.get (lit "display") := by
    cases parentStyle with
    | none => rfl
    | some parent =>
      rw [Option.elim_some]
      exact get_inheritFrom s parent display_not_mem_inherited
  rw [resolve, get_display_applyInitialValues, hparent]

end Aetheris.Style
