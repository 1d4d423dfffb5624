import Aetheris.Dom.Document
import Aetheris.Html.Tokenizer

/-!
# The HTML tree builder

`HtmlTreeBuilder` of `html_tree_builder.cpp` grows a document token by token under a stack of open
elements.  A `TreeBuilder` carries that the open elements are nodes of the document, which is what
makes the raw pointers of the source valid; the two operations, a new node and the end of an
element, prove it again for what they return.
-/

namespace Aetheris.Html

open Dom

/-- `is_void_element`. -/
def isVoidElement (name : Bytes) : Bool :=
  [lit "area", lit "base", lit "br", lit "col", lit "embed", lit "hr", lit "img",
    lit "input", lit "link", lit "meta", lit "param", lit "source", lit "track",
    lit "wbr"].contains name

/-- The document under construction and the open elements, the innermost first. -/
structure TreeBuilder where
  document : Document
  openElements : List NodeId
  isNode : ∀ id ∈ openElements, (document.heap.nodes id).isSome

namespace TreeBuilder

/-- The start of `build`. -/
def start : TreeBuilder where
  document := Document.empty
  openElements := [0]
  isNode _ h := by
    rw [List.mem_singleton.mp h]
    rfl

/-- `open_elements.empty() ? &document : open_elements.back()`. -/
def current (b : TreeBuilder) : NodeId := b.openElements.headD b.document.root

theorem isSome_current (b : TreeBuilder) : (b.document.heap.nodes b.current).isSome := by
  rw [current]
  cases h : b.openElements with
  | nil => exact b.document.isSome_root
  | cons id ids => exact b.isNode id (h ▸ List.mem_cons_self)

/-- `insert_node` of a node with the given data below the current one. -/
def insertNode (b : TreeBuilder) (type : DomNodeType) (name data : Bytes)
    (attributes : List (Bytes × Bytes)) (pushToStack : Bool) : TreeBuilder where
  document := Document.append b.isSome_current type name data attributes
  openElements :=
    if pushToStack then b.document.heap.next :: b.openElements else b.openElements
  isNode id hid := by
    have hopen : id = b.document.heap.next ∨ id ∈ b.openElements := by
      split at hid
      · exact List.mem_cons.mp hid
      · exact Or.inr hid
    rcases hopen with rfl | hmem
    · exact Document.isSome_append_next _ _ _ _ _
    · exact Document.isSome_append _ _ _ _ _ (b.isNode id hmem)

/-- `close_element`: the innermost open element of that name, and all above it, are dropped; the
bottom entry never is. -/
def closeElement (b : TreeBuilder) (name : Bytes) : TreeBuilder where
  document := b.document
  openElements :=
    match b.openElements.dropLast.findIdx?
        (fun id => (b.document.heap.nodes id).map (·.name) == some name) with
    | some i => b.openElements.drop (i + 1)
    | none => b.openElements
  isNode id hid := by
    refine b.isNode id ?_
    split at hid
    · exact List.mem_of_mem_drop hid
    · exact hid

/-- `insert_token`. -/
def insertToken (b : TreeBuilder) (token : HtmlToken) : TreeBuilder :=
  match token.type with
  | .doctype => b.insertNode .doctype [] token.data [] false
  | .comment => b.insertNode .comment [] token.data [] false
  | .text => if token.data ≠ [] then b.insertNode .text [] token.data [] false else b
  | .startTag | .selfClosingTag =>
    b.insertNode .element token.data [] token.attributes
      (token.type == .startTag && !isVoidElement token.data)
  | .endTag => b.closeElement token.data
  | .eof => b

/-- The loop of `build`. -/
def build (t : HtmlTokenizer) (b : TreeBuilder) : TreeBuilder :=
  if _ : t.nextToken.1.type = .eof then b
  else build t.nextToken.2 (b.insertToken t.nextToken.1)
termination_by t.rest.length
decreasing_by exact HtmlTokenizer.length_rest_nextToken_lt ‹_›

end TreeBuilder

/-- `Document::parse_html`. -/
def parseHtml (input : Bytes) : Document :=
  (TreeBuilder.build { rest := input } TreeBuilder.start).document

end Aetheris.Html
