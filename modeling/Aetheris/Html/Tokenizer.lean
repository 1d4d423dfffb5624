import Aetheris.Bytes

/-!
# The HTML tokenizer

`HtmlTokenizer` of `html_tokenizer.cpp` walks over the text once and cuts it into tokens.  It keeps
a position, a line and a column; the model keeps the part of the text from the position on.

All its scanners are the one loop `while (!eof() && …) { … += peek(); consume(); }`, with different
tests (`readWhile`).  There is a function for each kind of token, and `nextToken` dispatches on the
first characters.  Every token but the last takes at least one character
(`length_rest_nextToken_lt`), which is why the loop over the tokens ends.
-/

namespace Aetheris.Html

/-- `HtmlTokenType`. -/
inductive HtmlTokenType where
  | doctype
  | startTag
  | endTag
  | selfClosingTag
  | text
  | comment
  | eof
  deriving DecidableEq, Repr

/-- `HtmlToken`.  The attribute map is a list of pairs with one entry for each name. -/
structure HtmlToken where
  type : HtmlTokenType := .eof
  data : Bytes := []
  attributes : List (Bytes × Bytes) := []
  line : ℕ := 1
  column : ℕ := 1
  isSelfClosing : Bool := false
  deriving DecidableEq, Repr

/-- `HtmlTokenizer`; `rest` is `m_input` from `m_position` on. -/
structure HtmlTokenizer where
  rest : Bytes
  line : ℕ := 1
  column : ℕ := 1
  emittedEof : Bool := false
  deriving DecidableEq, Repr

/-! ## Character classes -/

/-- `is_whitespace`. -/
def isWhitespace (c : Byte) : Bool :=
  c == chr ' ' || c == chr '\t' || c == chr '\n' || c == chr '\r' || c == 0x0c

/-- `is_tag_name_char`. -/
def isTagNameChar (c : Byte) : Bool :=
  c != 0 && !isWhitespace c && c != chr '/' && c != chr '>'

/-- `is_attribute_name_char`. -/
def isAttributeNameChar (c : Byte) : Bool :=
  c != 0 && !isWhitespace c && c != chr '=' && c != chr '/' && c != chr '>'

/-- `std::unordered_map::insert_or_assign`. -/
def insertOrAssign (key value : Bytes) : List (Bytes × Bytes) → List (Bytes × Bytes)
  | [] => [(key, value)]
  | (k, v) :: entries =>
    if k = key then (k, value) :: entries else (k, v) :: insertOrAssign key value entries

/-! ## The scanner -/

namespace HtmlTokenizer

/-- `eof`. -/
def eof (t : HtmlTokenizer) : Bool := t.rest.isEmpty

/-- `peek`. -/
def peek (t : HtmlTokenizer) (offset : ℕ) : Byte := t.rest.getD offset 0

/-- `starts_with`. -/
def startsWith (t : HtmlTokenizer) (text : Bytes) : Bool := t.rest.take text.length == text

/-- `consume`. -/
def consume (t : HtmlTokenizer) : HtmlTokenizer :=
  match t.rest with
  | [] => t
  | c :: rest =>
    if c = chr '\n' then { t with rest := rest, line := t.line + 1, column := 1 }
    else { t with rest := rest, column := t.column + 1 }

/-- `advance_text`. -/
def advanceText (t : HtmlTokenizer) (text : Bytes) : HtmlTokenizer :=
  text.foldl (fun t _ => t.consume) t

theorem rest_consume (t : HtmlTokenizer) : t.consume.rest = t.rest.tail := by
  rw [consume]
  split
  · rename_i h
    rw [h, List.tail_nil]
  · rename_i c rest h
    rw [h, List.tail_cons]
    split <;> rfl

@[simp] theorem emittedEof_consume (t : HtmlTokenizer) : t.consume.emittedEof = t.emittedEof := by
  rw [consume]
  split
  · rfl
  · split <;> rfl

theorem length_pos_of_not_eof {t : HtmlTokenizer} (h : ¬ t.eof) : 0 < t.rest.length := by
  rw [eof, List.isEmpty_iff] at h
  exact List.length_pos_iff.mpr h

theorem length_rest_consume_lt {t : HtmlTokenizer} (h : ¬ t.eof) :
    t.consume.rest.length < t.rest.length := by
  have hpos := length_pos_of_not_eof h
  rw [rest_consume, List.length_tail]
  omega

theorem length_rest_consume_le (t : HtmlTokenizer) :
    t.consume.rest.length ≤ t.rest.length := by
  rw [rest_consume, List.length_tail]
  exact Nat.sub_le _ _

/-- The characters read while the condition holds, and the scanner behind them. -/
def readWhile (cond : HtmlTokenizer → Bool) (t : HtmlTokenizer) : Bytes × HtmlTokenizer :=
  if _ : ¬ t.eof ∧ cond t then
    (t.peek 0 :: (readWhile cond t.consume).1, (readWhile cond t.consume).2)
  else ([], t)
termination_by t.rest.length
decreasing_by exact length_rest_consume_lt (And.left ‹_›)

/-- `skip_whitespace`. -/
def skipWhitespace (t : HtmlTokenizer) : HtmlTokenizer :=
  (readWhile (fun t => isWhitespace (t.peek 0)) t).2

@[simp] theorem emittedEof_readWhile (cond : HtmlTokenizer → Bool) (t : HtmlTokenizer) :
    (readWhile cond t).2.emittedEof = t.emittedEof := by
  induction t using readWhile.induct cond with
  | case1 t h ih =>
    rw [readWhile, dif_pos h]
    exact ih.trans (emittedEof_consume t)
  | case2 t h => rw [readWhile, dif_neg h]

/-- What has been read and what is left make up the text. -/
theorem readWhile_append (cond : HtmlTokenizer → Bool) (t : HtmlTokenizer) :
    (readWhile cond t).1 ++ (readWhile cond t).2.rest = t.rest := by
  induction t using readWhile.induct cond with
  | case1 t h ih =>
    rw [readWhile, dif_pos h]
    have hne : t.rest ≠ [] := fun hnil => h.1 (List.isEmpty_iff.mpr hnil)
    obtain ⟨c, rest, hrest⟩ := List.exists_cons_of_ne_nil hne
    show t.peek 0 :: ((readWhile cond t.consume).1 ++ (readWhile cond t.consume).2.rest) = _
    rw [ih, rest_consume, peek, hrest]
    rfl
  | case2 t h => rw [readWhile, dif_neg h, List.nil_append]

theorem length_readWhile (cond : HtmlTokenizer → Bool) (t : HtmlTokenizer) :
    (readWhile cond t).1.length + (readWhile cond t).2.rest.length = t.rest.length := by
  rw [← List.length_append, readWhile_append]

theorem length_rest_skipWhitespace_le (t : HtmlTokenizer) :
    t.skipWhitespace.rest.length ≤ t.rest.length := by
  have := length_readWhile (fun t => isWhitespace (t.peek 0)) t
  rw [skipWhitespace]
  omega

/-- `make_token`. -/
def makeToken (type : HtmlTokenType) (data : Bytes) (line column : ℕ) : HtmlToken :=
  { type := type, data := data, line := line, column := column }

/-- `parse_text`. -/
def parseText (t : HtmlTokenizer) : HtmlToken × HtmlTokenizer :=
  let (text, t') := readWhile (fun t => t.peek 0 != chr '<') t
  (makeToken .text text t.line t.column, t')

/-- `parse_comment`. -/
def parseComment (t : HtmlTokenizer) (line column : ℕ) : HtmlToken × HtmlTokenizer :=
  let t := t.advanceText (lit "<!--")
  let (data, t) := readWhile (fun t => !t.startsWith (lit "-->")) t
  let t := if t.startsWith (lit "-->") then t.advanceText (lit "-->") else t
  (makeToken .comment data line column, t)

/-- `parse_doctype`. -/
def parseDoctype (t : HtmlTokenizer) (line column : ℕ) : HtmlToken × HtmlTokenizer :=
  let t := t.advanceText (lit "<!")
  let t := (readWhile (fun t => isAlpha (t.peek 0)) t).2
  let t := t.skipWhitespace
  let (name, t) := readWhile (fun t => t.peek 0 != chr '>') t
  let name := name.rdropWhile isWhitespace
  let t := if !t.eof && t.peek 0 == chr '>' then t.consume else t
  (makeToken .doctype (name.map toLower) line column, t)

/-- The value behind an attribute name, if there is one. -/
def parseAttributeValue (t : HtmlTokenizer) : Bytes × HtmlTokenizer :=
  if t.peek 0 = chr '=' then
    let t := t.consume.skipWhitespace
    if t.peek 0 = chr '"' ∨ t.peek 0 = chr '\'' then
      let quote := t.peek 0
      let (value, t) := readWhile (fun t => t.peek 0 != quote) t.consume
      (value, if !t.eof then t.consume else t)
    else
      readWhile (fun t => !isWhitespace (t.peek 0) && t.peek 0 != chr '>' &&
        !(t.peek 0 == chr '/' && t.peek 1 == chr '>')) t
  else ([], t)

theorem length_rest_parseAttributeValue_le (t : HtmlTokenizer) :
    t.parseAttributeValue.2.rest.length ≤ t.rest.length := by
  have hstart := (length_rest_skipWhitespace_le t.consume).trans (length_rest_consume_le t)
  rw [parseAttributeValue]
  split
  · dsimp only
    split
    · have hquote := length_readWhile
        (fun t' => t'.peek 0 != t.consume.skipWhitespace.peek 0) t.consume.skipWhitespace.consume
      have hconsume := length_rest_consume_le t.consume.skipWhitespace
      split
      · refine (length_rest_consume_le _).trans ?_
        omega
      · dsimp only
        omega
    · have := length_readWhile (fun t => !isWhitespace (t.peek 0) && t.peek 0 != chr '>' &&
        !(t.peek 0 == chr '/' && t.peek 1 == chr '>')) t.consume.skipWhitespace
      omega
  · exact le_rfl

/-- The attributes of a start tag, up to the `>` or `/>` that ends it. -/
def parseAttributes (t : HtmlTokenizer) (token : HtmlToken) : HtmlToken × HtmlTokenizer :=
  if _ : t.eof then (token, t)
  else
    let s := t.skipWhitespace
    if s.peek 0 = chr '>' then (token, s.consume)
    else if s.peek 0 = chr '/' ∧ s.peek 1 = chr '>' then
      ({ token with type := .selfClosingTag, isSelfClosing := true }, s.consume.consume)
    else
      let name := readWhile (fun t => isAttributeNameChar (t.peek 0)) s
      if _ : name.1 = [] then
        -- malformed markup: one character is dropped
        parseAttributes name.2.consume token
      else
        let value := name.2.skipWhitespace.parseAttributeValue
        parseAttributes value.2
          { token with
            attributes := insertOrAssign (name.1.map toLower) value.1 token.attributes }
termination_by t.rest.length
decreasing_by
  · have hlen := length_readWhile (fun t => isAttributeNameChar (t.peek 0)) t.skipWhitespace
    have hskip := length_rest_skipWhitespace_le t
    have hpos := length_pos_of_not_eof ‹¬ t.eof = true›
    rw [rest_consume, List.length_tail]
    omega
  · have hlen := length_readWhile (fun t => isAttributeNameChar (t.peek 0)) t.skipWhitespace
    have hskip := length_rest_skipWhitespace_le t
    have hpos := List.length_pos_iff.mpr
      ‹¬ (readWhile (fun t => isAttributeNameChar (t.peek 0)) t.skipWhitespace).1 = []›
    have hafter := length_rest_skipWhitespace_le
      (readWhile (fun t => isAttributeNameChar (t.peek 0)) t.skipWhitespace).2
    have hvalue := length_rest_parseAttributeValue_le
      (readWhile (fun t => isAttributeNameChar (t.peek 0)) t.skipWhitespace).2.skipWhitespace
    omega

/-- `parse_tag`. -/
def parseTag (t : HtmlTokenizer) (isEndTag : Bool) (line column : ℕ) :
    HtmlToken × HtmlTokenizer :=
  let t := t.consume
  let t := if isEndTag && t.peek 0 == chr '/' then t.consume else t
  let t := t.skipWhitespace
  let (name, t) := readWhile (fun t => isTagNameChar (t.peek 0)) t
  let token := makeToken (if isEndTag then .endTag else .startTag) (name.map toLower) line column
  if isEndTag then
    let t := (readWhile (fun t => t.peek 0 != chr '>') t).2
    (token, if !t.eof then t.consume else t)
  else t.parseAttributes token

/-- `next_token`. -/
def nextToken (t : HtmlTokenizer) : HtmlToken × HtmlTokenizer :=
  if t.emittedEof then (makeToken .eof [] t.line t.column, t)
  else if t.eof then (makeToken .eof [] t.line t.column, { t with emittedEof := true })
  else if t.peek 0 ≠ chr '<' then t.parseText
  else if t.startsWith (lit "<!--") then t.parseComment t.line t.column
  else if t.startsWith (lit "<!DOCTYPE") || t.startsWith (lit "<!doctype") then
    t.parseDoctype t.line t.column
  else if t.peek 1 = chr '/' then t.parseTag true t.line t.column
  else if isAlpha (t.peek 1) then t.parseTag false t.line t.column
  else (makeToken .text (lit "<") t.line t.column, t.consume)

/-! ## Progress -/

theorem length_rest_advanceText_le (t : HtmlTokenizer) (text : Bytes) :
    (t.advanceText text).rest.length ≤ t.rest.length := by
  induction text generalizing t with
  | nil => exact le_rfl
  | cons c text ih => exact (ih t.consume).trans (length_rest_consume_le t)

theorem length_rest_advanceText_lt {t : HtmlTokenizer} (h : ¬ t.eof) {text : Bytes}
    (htext : text ≠ []) : (t.advanceText text).rest.length < t.rest.length := by
  obtain ⟨c, text, rfl⟩ := List.exists_cons_of_ne_nil htext
  exact (length_rest_advanceText_le t.consume text).trans_lt (length_rest_consume_lt h)

theorem length_rest_readWhile_le (cond : HtmlTokenizer → Bool) (t : HtmlTokenizer) :
    (readWhile cond t).2.rest.length ≤ t.rest.length := by
  have := length_readWhile cond t
  omega

theorem length_rest_readWhile_lt {cond : HtmlTokenizer → Bool} {t : HtmlTokenizer}
    (h : ¬ t.eof) (hcond : cond t) : (readWhile cond t).2.rest.length < t.rest.length := by
  rw [readWhile, dif_pos ⟨h, hcond⟩]
  exact (length_rest_readWhile_le cond t.consume).trans_lt (length_rest_consume_lt h)

theorem length_rest_ite_consume_le (t : HtmlTokenizer) (b : Bool) :
    (if b then t.consume else t).rest.length ≤ t.rest.length := by
  split
  · exact length_rest_consume_le t
  · exact le_rfl

theorem length_rest_parseAttributes_le (t : HtmlTokenizer) (token : HtmlToken) :
    (t.parseAttributes token).2.rest.length ≤ t.rest.length := by
  induction t, token using parseAttributes.induct with
  | case1 t token h => rw [parseAttributes, dif_pos h]
  | case2 t token h s hs =>
    rw [parseAttributes, dif_neg h, if_pos hs]
    exact (length_rest_consume_le _).trans (length_rest_skipWhitespace_le t)
  | case3 t token h s hs hs' =>
    rw [parseAttributes, dif_neg h, if_neg hs, if_pos hs']
    exact ((length_rest_consume_le _).trans (length_rest_consume_le _)).trans
      (length_rest_skipWhitespace_le t)
  | case4 t token h s hs hs' name hname ih =>
    rw [parseAttributes, dif_neg h, if_neg hs, if_neg hs', dif_pos hname]
    refine ih.trans ((length_rest_consume_le _).trans ?_)
    exact (length_rest_readWhile_le _ _).trans (length_rest_skipWhitespace_le t)
  | case5 t token h s hs hs' name hname value ih =>
    rw [parseAttributes, dif_neg h, if_neg hs, if_neg hs', dif_neg hname]
    refine ih.trans ((length_rest_parseAttributeValue_le _).trans ?_)
    refine (length_rest_skipWhitespace_le _).trans ?_
    exact (length_rest_readWhile_le _ _).trans (length_rest_skipWhitespace_le t)

theorem length_rest_parseTag_lt {t : HtmlTokenizer} (h : ¬ t.eof) (isEndTag : Bool)
    (line column : ℕ) : (t.parseTag isEndTag line column).2.rest.length < t.rest.length := by
  have hconsume := length_rest_consume_lt h
  rw [parseTag]
  dsimp only
  set t₁ := if isEndTag && t.consume.peek 0 == chr '/' then t.consume.consume else t.consume
  have hslash : t₁.rest.length ≤ t.consume.rest.length := length_rest_ite_consume_le _ _
  have hskip := length_rest_skipWhitespace_le t₁
  have hname := length_rest_readWhile_le (fun t => isTagNameChar (t.peek 0)) t₁.skipWhitespace
  split
  · have hclose := length_rest_readWhile_le (fun t => t.peek 0 != chr '>')
      (readWhile (fun t => isTagNameChar (t.peek 0)) t₁.skipWhitespace).2
    refine (length_rest_ite_consume_le _ _).trans_lt ?_
    omega
  · refine (length_rest_parseAttributes_le _ _).trans_lt ?_
    omega

theorem length_rest_parseComment_lt {t : HtmlTokenizer} (h : ¬ t.eof) (line column : ℕ) :
    (t.parseComment line column).2.rest.length < t.rest.length := by
  have hopen := length_rest_advanceText_lt h (show lit "<!--" ≠ [] by decide)
  have hdata := length_rest_readWhile_le (fun t => !t.startsWith (lit "-->"))
    (t.advanceText (lit "<!--"))
  rw [parseComment]
  dsimp only
  split
  · refine (length_rest_advanceText_le _ _).trans_lt ?_
    omega
  · omega

theorem length_rest_parseDoctype_lt {t : HtmlTokenizer} (h : ¬ t.eof) (line column : ℕ) :
    (t.parseDoctype line column).2.rest.length < t.rest.length := by
  have hopen := length_rest_advanceText_lt h (show lit "<!" ≠ [] by decide)
  have hword := length_rest_readWhile_le (fun t => isAlpha (t.peek 0)) (t.advanceText (lit "<!"))
  have hskip := length_rest_skipWhitespace_le
    (readWhile (fun t => isAlpha (t.peek 0)) (t.advanceText (lit "<!"))).2
  have hname := length_rest_readWhile_le (fun t => t.peek 0 != chr '>')
    (readWhile (fun t => isAlpha (t.peek 0)) (t.advanceText (lit "<!"))).2.skipWhitespace
  rw [parseDoctype]
  refine (length_rest_ite_consume_le _ _).trans_lt ?_
  omega

/-- **Progress.**  A token other than the last takes at least one character. -/
theorem length_rest_nextToken_lt {t : HtmlTokenizer} (h : t.nextToken.1.type ≠ .eof) :
    t.nextToken.2.rest.length < t.rest.length := by
  rw [nextToken] at h ⊢
  split at h
  · exact absurd rfl h
  · split at h
    · exact absurd rfl h
    · rename_i hemitted heof
      rw [if_neg hemitted, if_neg heof]
      split
      · rename_i hlt
        exact length_rest_readWhile_lt heof (bne_iff_ne.mpr hlt)
      · split
        · exact length_rest_parseComment_lt heof _ _
        · split
          · exact length_rest_parseDoctype_lt heof _ _
          · split
            · exact length_rest_parseTag_lt heof _ _ _
            · split
              · exact length_rest_parseTag_lt heof _ _ _
              · exact length_rest_consume_lt heof

end HtmlTokenizer

end Aetheris.Html
