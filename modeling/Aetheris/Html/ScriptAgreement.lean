import Aetheris.Html.RoundTrip
import Aetheris.Html.ScriptPieces

/-!
# Scripts in a text and in its tree

`extract_scripts` finds the scripts of a tree in its markup unless it takes something else for the
start of a script, or another `>` for the end of a start tag.  The markup of a tree is cut into
pieces (`piecesAll`), for which both directions are known already; here the pieces of a tree are
shown to be closed, with the scripts of the tree among them, and to be what the parser reads.
`extractScripts_iff` puts this together.
-/

namespace Aetheris.Html

/-! ## The scripts of a tree -/

mutual

/-- The texts in a tree. -/
def Tree.textContent : Tree → Bytes
  | .element _ _ children => textContentAll children
  | .text data => data
  | .comment _ => []
  | .doctype _ => []

/-- The texts in siblings. -/
def textContentAll : List Tree → Bytes
  | [] => []
  | t :: ts => t.textContent ++ textContentAll ts

end

mutual

/-- The text contents of the script elements of a tree, in document order. -/
def Tree.scripts : Tree → List Bytes
  | .element name _ children =>
    (if name = lit "script" then [textContentAll children] else []) ++ scriptsAll children
  | .text _ => []
  | .comment _ => []
  | .doctype _ => []

/-- The text contents of the script elements of siblings. -/
def scriptsAll : List Tree → List Bytes
  | [] => []
  | t :: ts => t.scripts ++ scriptsAll ts

end

mutual

/-- There is no `<` in the script elements of a tree. -/
def Tree.ScriptsPlain : Tree → Prop
  | .element name _ children =>
    (name = lit "script" → chr '<' ∉ serializeAll children) ∧ ScriptsPlainAll children
  | .text _ => True
  | .comment _ => True
  | .doctype _ => True

/-- There is no `<` in the script elements of siblings. -/
def ScriptsPlainAll : List Tree → Prop
  | [] => True
  | t :: ts => t.ScriptsPlain ∧ ScriptsPlainAll ts

end

/-! ## The markup of a tree in pieces -/

/-- A start tag. -/
def startTag (name : Bytes) (attributes : List (Bytes × Bytes)) : Bytes :=
  chr '<' :: (name ++ (attributes.flatMap attributeText ++ [chr '>']))

/-- An end tag. -/
def endTag (name : Bytes) : Bytes := chr '<' :: chr '/' :: (name ++ [chr '>'])

mutual

/-- The pieces of a tree. -/
def Tree.pieces : Tree → List Piece
  | .element name attributes children =>
    if name = lit "script" then [.script (startTag name attributes) (serializeAll children)]
    else .markup (startTag name attributes) ::
      if isVoidElement name then [] else piecesAll children ++ [.markup (endTag name)]
  | .text data => [.markup data]
  | .comment data => [.markup (lit "<!--" ++ (data ++ lit "-->"))]
  | .doctype data => [.markup (lit "<!DOCTYPE " ++ (data ++ [chr '>']))]

/-- The pieces of siblings. -/
def piecesAll : List Tree → List Piece
  | [] => []
  | t :: ts => t.pieces ++ piecesAll ts

end

/-- The condition for trees. -/
def ScriptsAgree (ts : List Tree) : Prop := Agrees (piecesAll ts)

/-! ## The pieces of trees -/

/-- Siblings without `<` are texts. -/
theorem textContentAll_of_not_mem (ts : List Tree) (h : chr '<' ∉ serializeAll ts) :
    textContentAll ts = serializeAll ts ∧ scriptsAll ts = [] := by
  induction ts with
  | nil => exact ⟨rfl, rfl⟩
  | cons t ts ih =>
    rw [serializeAll, List.mem_append, not_or] at h
    obtain ⟨hcontent, hscripts⟩ := ih h.2
    rw [textContentAll, serializeAll, scriptsAll, hcontent, hscripts]
    cases t with
    | text data => exact ⟨rfl, rfl⟩
    | element name attributes children => exact absurd List.mem_cons_self h.1
    | comment data => exact absurd List.mem_cons_self h.1
    | doctype data => exact absurd List.mem_cons_self h.1

theorem textOf_append (ps ps' : List Piece) : textOf (ps ++ ps') = textOf ps ++ textOf ps' :=
  List.flatMap_append

theorem scriptsOf_append (ps ps' : List Piece) :
    scriptsOf (ps ++ ps') = scriptsOf ps ++ scriptsOf ps' := List.flatMap_append

theorem textOf_singleton (p : Piece) : textOf [p] = p.text := List.flatMap_singleton _ _

mutual

/-- The pieces are the markup. -/
theorem textOf_pieces : ∀ t : Tree, textOf t.pieces = t.serialize
  | .element name attributes children => by
    rw [Tree.pieces, Tree.serialize]
    by_cases hscript : name = lit "script"
    · subst hscript
      have hvoid : isVoidElement (lit "script") = false := by decide
      rw [if_pos rfl, if_neg (hvoid ▸ Bool.false_ne_true), textOf_singleton, Piece.text, startTag,
        List.cons_append, List.append_assoc, List.append_assoc, List.singleton_append]
      rfl
    · rw [if_neg hscript, textOf_cons, Piece.text, startTag, List.cons_append, List.append_assoc,
        List.append_assoc, List.singleton_append]
      by_cases hvoid : isVoidElement name = true
      · rw [if_pos hvoid, if_pos hvoid]
        rfl
      · rw [if_neg hvoid, if_neg hvoid, textOf_append, textOf_piecesAll, textOf_singleton]
        rfl
  | .text data => textOf_singleton _
  | .comment data => textOf_singleton _
  | .doctype data => textOf_singleton _

/-- The pieces of siblings are their markup. -/
theorem textOf_piecesAll : ∀ ts : List Tree, textOf (piecesAll ts) = serializeAll ts
  | [] => rfl
  | t :: ts => by
    rw [piecesAll, serializeAll, textOf_append, textOf_pieces t, textOf_piecesAll ts]

end

theorem closed_startTag (name : Bytes) (attributes : List (Bytes × Bytes)) :
    Closed (startTag name attributes) := by
  rw [startTag, ← List.append_assoc, ← List.cons_append]
  exact closed_append_gt _

theorem closed_endTag (name : Bytes) : Closed (endTag name) := by
  rw [endTag, ← List.cons_append, ← List.cons_append]
  exact closed_append_gt _

mutual

/-- The pieces have closed tags, and their scripts are those of the tree. -/
theorem sound_pieces : ∀ t : Tree, t.Serializable → t.ScriptsPlain →
    (∀ p ∈ t.pieces, p.Sound) ∧ scriptsOf t.pieces = t.scripts
  | .element name attributes children, ht, hplain => by
    rw [Tree.Serializable] at ht
    obtain ⟨-, -, -, hvoidChildren, hchildren⟩ := ht
    rw [Tree.ScriptsPlain] at hplain
    rw [Tree.pieces, Tree.scripts]
    by_cases hscript : name = lit "script"
    · obtain ⟨hcontent, hscripts⟩ := textContentAll_of_not_mem children (hplain.1 hscript)
      rw [if_pos hscript, if_pos hscript, hcontent, hscripts, List.append_nil]
      refine ⟨List.forall_mem_singleton.mpr ⟨closed_startTag name attributes, ?_,
        hplain.1 hscript⟩, rfl⟩
      rw [hscript]
      exact ⟨_, rfl⟩
    · rw [if_neg hscript, if_neg hscript, scriptsOf_cons, List.nil_append]
      by_cases hvoid : isVoidElement name = true
      · rw [if_pos hvoid, hvoidChildren hvoid]
        exact ⟨List.forall_mem_singleton.mpr (closed_startTag name attributes), rfl⟩
      · obtain ⟨hsound, hscripts⟩ := sound_piecesAll children hchildren hplain.2
        rw [if_neg hvoid, scriptsOf_append, hscripts]
        refine ⟨List.forall_mem_cons.mpr ⟨closed_startTag name attributes, ?_⟩,
          List.append_nil _⟩
        intro p hp
        rcases List.mem_append.mp hp with hp | hp
        · exact hsound p hp
        · rw [List.mem_singleton.mp hp]
          exact closed_endTag name
  | .text data, ht, _ => by
    rw [Tree.Serializable] at ht
    exact ⟨List.forall_mem_singleton.mpr (closed_of_not_mem ht.2), rfl⟩
  | .comment data, _, _ => by
    refine ⟨List.forall_mem_singleton.mpr ?_, rfl⟩
    have hend : lit "<!--" ++ (data ++ lit "-->") =
        (lit "<!--" ++ (data ++ lit "--")) ++ [chr '>'] := by
      rw [List.append_assoc, List.append_assoc]
      rfl
    show Closed _
    rw [hend]
    exact closed_append_gt _
  | .doctype data, _, _ => by
    refine ⟨List.forall_mem_singleton.mpr ?_, rfl⟩
    show Closed _
    rw [← List.append_assoc]
    exact closed_append_gt _

/-- The same for siblings. -/
theorem sound_piecesAll : ∀ ts : List Tree, SerializableAll ts → ScriptsPlainAll ts →
    (∀ p ∈ piecesAll ts, p.Sound) ∧ scriptsOf (piecesAll ts) = scriptsAll ts
  | [], _, _ => ⟨nofun, rfl⟩
  | t :: ts, hts, hplain => by
    rw [SerializableAll] at hts
    rw [ScriptsPlainAll] at hplain
    obtain ⟨hsound, hscripts⟩ := sound_pieces t hts.1 hplain.1
    obtain ⟨hsounds, hscriptss⟩ := sound_piecesAll ts hts.2.2 hplain.2
    rw [piecesAll, scriptsAll, scriptsOf_append, hscripts, hscriptss]
    refine ⟨fun p hp => ?_, rfl⟩
    rcases List.mem_append.mp hp with hp | hp
    · exact hsound p hp
    · exact hsounds p hp

end

/-- **Script extraction and the tree.**  What `extract_scripts` finds in the markup of trees are the
text contents of the script elements of the document parsed from it exactly under the condition. -/
theorem extractScripts_iff {ts : List Tree} (hts : SerializableAll ts)
    (hplain : ScriptsPlainAll ts) :
    (content (parseHtml (serializeAll ts))).map scriptsAll =
        some (extractScripts (serializeAll ts)) ↔ ScriptsAgree ts := by
  have hcontent : content (parseHtml (serializeAll ts)) = some ts :=
    content_of_areTrees (areTrees_parseHtml ts hts)
  obtain ⟨hsound, hscripts⟩ := sound_piecesAll ts hts hplain
  rw [hcontent, Option.map_some, Option.some_inj, extractScripts_eq, eq_comm, ← hscripts,
    ← textOf_piecesAll, ScriptsAgree]
  exact scriptsIn_textOf_iff _ hsound

/-! ## Two documents -/

/-- A script element with an attribute. -/
def plainScript : List Tree := [.element (lit "script") [(lit "src", lit "a")] [.text (lit "x")]]

/-- A comment in front of a script element. -/
def commentedScript : List Tree :=
  [.comment (lit "<script"), .element (lit "script") [] [.text (lit "x")]]

theorem isElementName_script : IsElementName (lit "script") :=
  ⟨⟨chr 's', rfl, by decide⟩, by decide⟩

theorem extractScripts_iff_plainScript :
    (content (parseHtml (serializeAll plainScript))).map scriptsAll =
        some (extractScripts (serializeAll plainScript)) ↔ ScriptsAgree plainScript := by
  refine extractScripts_iff ?_ ?_
  · rw [plainScript]
    simp only [SerializableAll, Tree.Serializable]
    refine ⟨⟨isElementName_script, ?_, by decide, fun h => absurd h (by decide),
      ⟨by decide, by decide⟩, fun _ u hu => absurd hu (Option.not_mem_none u), trivial⟩,
      fun h => h.elim, trivial⟩
    exact List.forall_mem_singleton.mpr ⟨⟨by decide, by decide⟩, by decide⟩
  · rw [plainScript]
    simp only [ScriptsPlainAll, Tree.ScriptsPlain]
    exact ⟨⟨fun _ => by decide, trivial, trivial⟩, trivial⟩

/-- **A comment in front of a script.**  The search starts in the comment, and what it finds is the
start tag of the element with its script. -/
theorem extractScripts_commentedScript :
    SerializableAll commentedScript ∧ ScriptsPlainAll commentedScript ∧
      (content (parseHtml (serializeAll commentedScript))).map scriptsAll = some [lit "x"] ∧
      extractScripts (serializeAll commentedScript) = [lit "<script>x"] := by
  have hserializable : SerializableAll commentedScript := by
    rw [commentedScript]
    simp only [SerializableAll, Tree.Serializable]
    refine ⟨by decide, fun h => h.elim, ⟨isElementName_script, nofun, by decide,
      fun h => absurd h (by decide), ⟨by decide, by decide⟩,
      fun _ u hu => absurd hu (Option.not_mem_none u), trivial⟩, fun h => h.elim, trivial⟩
  have hplain : ScriptsPlainAll commentedScript := by
    rw [commentedScript]
    simp only [ScriptsPlainAll, Tree.ScriptsPlain]
    exact ⟨trivial, ⟨fun _ => by decide, trivial, trivial⟩, trivial⟩
  have hcontent : content (parseHtml (serializeAll commentedScript)) = some commentedScript :=
    content_of_areTrees (areTrees_parseHtml commentedScript hserializable)
  have hmarkup : serializeAll commentedScript =
      lit "<!--" ++ (lit "<script" ++ lit "--><script>x</script>") := by decide
  have hfirst : find (serializeAll commentedScript) (lit "<script") =
      some (lit "<!--").length := by
    rw [hmarkup]
    refine find_eq_some_iff.mpr ⟨by decide, by decide, by decide⟩
  have hopening : cut (lit "<script") (serializeAll commentedScript) =
      some (lit "<!--", lit "--><script>x</script>") := cut_of_find hmarkup hfirst
  have hdash : chr '>' ∉ lit "--" := by decide
  have htagEnd : cut [chr '>'] (lit "--" ++ chr '>' :: lit "<script>x</script>") =
      some (lit "--", lit "<script>x</script>") := cut_of_not_mem hdash
  have hbehind : lit "<script>x</script>" = lit "<script>x" ++ (lit "</script" ++ lit ">") := by
    decide
  have hend : find (lit "<script>x</script>") (lit "</script") =
      some (lit "<script>x").length := by
    refine find_eq_some_iff.mpr ⟨by decide, by decide, by decide⟩
  have hclose : cut (lit "</script") (lit "<script>x</script>") =
      some (lit "<script>x", lit ">") := cut_of_find hbehind hend
  have hrest : ¬lit "<script" <:+: lit ">" := by decide
  refine ⟨hserializable, hplain, ?_, ?_⟩
  · rw [hcontent]
    rfl
  · rw [extractScripts_eq, scriptsIn_of_cuts hopening htagEnd hclose,
      scriptsIn_of_not_isInfix hrest]

end Aetheris.Html
