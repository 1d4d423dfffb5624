import Aetheris.Html.TreeBuilder

/-!
# Trees and their markup

What a document says, apart from where its nodes are, is a list of trees (`Document.content`, read
off the heap).  They are written with double-quoted attributes and explicit end tags, void elements
without one.  `SerializableAll` are the trees whose markup means them: names that are read back, no
quote in a value, no two texts side by side, and scripts without an end tag in them.
-/

namespace Aetheris.Html

open Dom

/-- A node with everything below it. -/
inductive Tree where
  | element (name : Bytes) (attributes : List (Bytes × Bytes)) (children : List Tree)
  | text (data : Bytes)
  | comment (data : Bytes)
  | doctype (data : Bytes)

/-- The tree at a node, down to the given depth. -/
def treeAt (h : Heap) : ℕ → NodeId → Option Tree
  | 0, _ => none
  | depth + 1, id =>
    (h.nodes id).bind fun node =>
      match node.type with
      | .document => none
      | .element =>
        (node.children.mapM (treeAt h depth)).map (Tree.element node.name node.attributes)
      | .text => some (.text node.data)
      | .comment => some (.comment node.data)
      | .doctype => some (.doctype node.data)

/-- The trees below the root. -/
def content (doc : Document) : Option (List Tree) :=
  (doc.heap.childrenOf doc.root).mapM (treeAt doc.heap doc.heap.next)

/-! ## Markup -/

/-- ` name="value"`. -/
def attributeText (entry : Bytes × Bytes) : Bytes :=
  chr ' ' :: (entry.1 ++ (chr '=' :: chr '"' :: (entry.2 ++ [chr '"'])))

mutual

/-- The markup of a tree. -/
def Tree.serialize : Tree → Bytes
  | .element name attributes children =>
    chr '<' :: (name ++ (attributes.flatMap attributeText ++ (chr '>' ::
      if isVoidElement name then []
      else serializeAll children ++ (chr '<' :: chr '/' :: (name ++ [chr '>'])))))
  | .text data => data
  | .comment data => lit "<!--" ++ (data ++ lit "-->")
  | .doctype data => lit "<!DOCTYPE " ++ (data ++ [chr '>'])

/-- The markup of a list of siblings. -/
def serializeAll : List Tree → Bytes
  | [] => []
  | t :: ts => t.serialize ++ serializeAll ts

end

/-! ## Trees that can be written -/

/-- Lowercase letters, digits and hyphens, the first one a letter. -/
def IsElementName (name : Bytes) : Prop :=
  (∃ c ∈ name.head?, isLower c) ∧ ∀ c ∈ name, isLower c ∨ isDigit c ∨ c = chr '-'

/-- A name the tokenizer can read, without uppercase letters. -/
def IsAttributeName (name : Bytes) : Prop :=
  name ≠ [] ∧ ∀ c ∈ name, isAttributeNameChar c ∧ ¬ isUpper c

/-- A doctype without `>`, uppercase letters and blanks at its ends. -/
def IsDoctype (data : Bytes) : Prop :=
  (∀ c ∈ data, c ≠ chr '>' ∧ ¬ isUpper c) ∧ (∀ c ∈ data.head?, ¬ isWhitespace c) ∧
    ∀ c ∈ data.getLast?, ¬ isWhitespace c

/-- The node is a text node. -/
def Tree.IsText : Tree → Prop
  | .text _ => True
  | _ => False

mutual

/-- The conditions on the names, attributes and texts of a tree. -/
def Tree.Serializable : Tree → Prop
  | .element name attributes children =>
    IsElementName name ∧
      (∀ entry ∈ attributes, IsAttributeName entry.1 ∧ chr '"' ∉ entry.2) ∧
      (attributes.map Prod.fst).Nodup ∧ (isVoidElement name → children = []) ∧
      SerializableAll children
  | .text data => data ≠ [] ∧ chr '<' ∉ data
  | .comment data => ¬ lit "-->" <:+: data
  | .doctype data => IsDoctype data

/-- The conditions on siblings: no two text nodes are neighbours. -/
def SerializableAll : List Tree → Prop
  | [] => True
  | t :: ts => t.Serializable ∧ (t.IsText → ∀ u ∈ ts.head?, ¬ u.IsText) ∧ SerializableAll ts

end

end Aetheris.Html
