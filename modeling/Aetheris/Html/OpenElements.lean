import Aetheris.Html.RoundTrip

/-!
# The open elements

The stack of the tree builder is a path of last children that begins at the document, and what
stands on it was put there for a start tag.  The nodes are numbered in the order in which they are
inserted, so the token that a node was inserted for is known from its number (`origins`).

This is the invariant `OpenPath`.  There are only two operations on the stack: a new node goes to
the end of the last children list, and an end tag cuts the stack somewhere above the document.  Both
keep the invariant, so each token does, and any list of tokens (`openElements_spec`).
-/

namespace Aetheris.Html

open Dom

/-! ## The tokens of the nodes -/

/-- A node is inserted for this token. -/
def Inserts (token : HtmlToken) : Bool :=
  match token.type with
  | .doctype | .comment | .startTag | .selfClosingTag => true
  | .text => token.data != []
  | .endTag | .eof => false

/-- The tokens that a node is inserted for. -/
def origins (tokens : List HtmlToken) : List HtmlToken := tokens.filter Inserts

/-- The node was inserted for a start tag that does not close itself, of an element that is not
void. -/
def OpenedBy (heap : Heap) (inserted : List HtmlToken) (id : NodeId) : Prop :=
  ∃ token, inserted[id - 1]? = some token ∧ token.type = .startTag ∧
    isVoidElement token.data = false ∧ (heap.nodes id).map (·.name) = some token.data

/-! ## The stack -/

/-- **The stack of open elements**, the innermost first, when nodes have been inserted for these
tokens. -/
structure OpenPath (inserted : List HtmlToken) (b : TreeBuilder) : Prop where
  /-- The document is the first node, and each token has a node of its own. -/
  root_eq : b.document.root = 0
  next_eq : b.document.heap.next = inserted.length + 1
  /-- The document is at the bottom. -/
  bottom : b.openElements.getLast? = some b.document.root
  /-- Each entry is the last child of the one below it. -/
  path : b.openElements.IsChain fun inner outer =>
    (b.document.heap.childrenOf outer).getLast? = some inner
  /-- The other entries were opened by a start tag. -/
  opened : ∀ id ∈ b.openElements, id ≠ b.document.root →
    OpenedBy b.document.heap inserted id

theorem openPath_start : OpenPath [] TreeBuilder.start where
  root_eq := rfl
  next_eq := rfl
  bottom := rfl
  path := List.isChain_singleton _
  opened _ hid hne := absurd (List.mem_singleton.mp hid) hne

variable {inserted : List HtmlToken} {b : TreeBuilder}

/-- The innermost entry is above all others. -/
theorem OpenPath.lt_of_mem (h : OpenPath inserted b) {outer : List NodeId}
    (houter : b.openElements = b.current :: outer) : ∀ id ∈ outer, id < b.current := by
  have hdown : b.openElements.IsChain fun inner outer => outer < inner :=
    h.path.imp fun inner outer hlast =>
      (b.document.lt_of_mem outer inner (List.mem_of_getLast? hlast)).1
  rw [houter, List.isChain_iff_pairwise] at hdown
  exact fun id hid => List.rel_of_pairwise_cons hdown hid

theorem OpenPath.openElements_eq (h : OpenPath inserted b) :
    ∃ outer, b.openElements = b.current :: outer := by
  have hbottom := h.bottom
  rw [TreeBuilder.current]
  cases hopen : b.openElements with
  | nil =>
    rw [hopen] at hbottom
    cases hbottom
  | cons id outer => exact ⟨outer, rfl⟩

theorem childrenOf_insertNode (b : TreeBuilder) (type : DomNodeType) (name data : Bytes)
    (attributes : List (Bytes × Bytes)) (pushToStack : Bool) (q : NodeId) :
    (b.insertNode type name data attributes pushToStack).document.heap.childrenOf q =
      b.document.heap.childrenOf q ++ if q = b.current then [b.document.heap.next] else [] :=
  Document.childrenOf_appendHeap b.isSome_current type name data attributes q

theorem name_insertNode (b : TreeBuilder) (type : DomNodeType) (name data : Bytes)
    (attributes : List (Bytes × Bytes)) (pushToStack : Bool) {x : NodeId}
    (hx : x < b.document.heap.next) :
    ((b.insertNode type name data attributes pushToStack).document.heap.nodes x).map (·.name) =
      (b.document.heap.nodes x).map (·.name) := by
  rw [nodes_insertNode, if_neg (Nat.ne_of_lt hx)]
  split
  · rw [Option.map_map]
    rfl
  · rfl

/-- What stands on the stack was opened by the same tags before and after an insertion. -/
theorem OpenPath.opened_insertNode (h : OpenPath inserted b) (token : HtmlToken)
    (type : DomNodeType) (name data : Bytes) (attributes : List (Bytes × Bytes))
    (pushToStack : Bool) {id : NodeId} (hid : id ∈ b.openElements) (hne : id ≠ b.document.root) :
    OpenedBy (b.insertNode type name data attributes pushToStack).document.heap
      (inserted ++ [token]) id := by
  obtain ⟨origin, hget, htype, hvoid, hname⟩ := h.opened id hid hne
  refine ⟨origin, ?_, htype, hvoid, ?_⟩
  · rw [List.getElem?_append_left (List.getElem?_eq_some_iff.mp hget).1, hget]
  · rw [name_insertNode _ _ _ _ _ _ (b.document.lt_next (b.isNode id hid)), hname]

/-- **A new node**, which is put on the stack only for a start tag. -/
theorem openPath_insertNode (h : OpenPath inserted b) (token : HtmlToken) (type : DomNodeType)
    (name data : Bytes) (attributes : List (Bytes × Bytes)) {pushToStack : Bool}
    (hpush : pushToStack = true →
      token.type = .startTag ∧ isVoidElement token.data = false ∧ name = token.data) :
    OpenPath (inserted ++ [token]) (b.insertNode type name data attributes pushToStack) := by
  obtain ⟨outer, houter⟩ := h.openElements_eq
  have hlt := h.lt_of_mem houter
  have hold : b.openElements.IsChain fun inner q =>
      ((b.insertNode type name data attributes pushToStack).document.heap.childrenOf q).getLast? =
        some inner := by
    have hpath := h.path
    rw [houter] at hpath ⊢
    refine hpath.imp_of_mem_tail_imp fun inner q _ hq hlast => ?_
    rw [childrenOf_insertNode, if_neg (Nat.ne_of_lt (hlt q hq)), List.append_nil]
    exact hlast
  have hnext : (b.insertNode type name data attributes pushToStack).document.heap.next =
      (inserted ++ [token]).length + 1 := by
    rw [List.length_append]
    exact congrArg (· + 1) h.next_eq
  cases pushToStack with
  | false =>
    exact ⟨h.root_eq, hnext, h.bottom, hold, fun id hid hne =>
      h.opened_insertNode token type name data attributes false hid hne⟩
  | true =>
    obtain ⟨htype, hvoid, hname⟩ := hpush rfl
    refine ⟨h.root_eq, hnext, ?_, ?_, fun id hid hne => ?_⟩
    · show (b.document.heap.next :: b.openElements).getLast? = some b.document.root
      rw [houter, List.getLast?_cons_cons, ← houter, h.bottom]
    · show (b.document.heap.next :: b.openElements).IsChain _
      refine List.isChain_cons.mpr ⟨fun q hq => ?_, hold⟩
      rw [houter, List.head?_cons, Option.mem_some_iff] at hq
      rw [childrenOf_insertNode, if_pos hq.symm, List.getLast?_concat]
    · rcases List.mem_cons.mp (show id ∈ b.document.heap.next :: b.openElements from hid) with
        rfl | hid
      · refine ⟨token, ?_, htype, hvoid, ?_⟩
        · rw [h.next_eq, Nat.add_sub_cancel, List.getElem?_concat_length]
        · rw [nodes_insertNode, if_pos rfl, hname]
          rfl
      · exact h.opened_insertNode token type name data attributes true hid hne

/-- **An end tag** cuts the stack anywhere above the document. -/
theorem openPath_closeElement (h : OpenPath inserted b) (name : Bytes) :
    OpenPath inserted (b.closeElement name) := by
  obtain ⟨n, hn, hopen⟩ : ∃ n < b.openElements.length,
      (b.closeElement name).openElements = b.openElements.drop n := by
    obtain ⟨outer, houter⟩ := h.openElements_eq
    have hpos : 0 < b.openElements.length := by
      rw [houter]
      exact Nat.succ_pos _
    rw [TreeBuilder.closeElement]
    dsimp only
    split
    · rename_i i hfind
      have hlt := (List.findIdx?_eq_some_iff_getElem.mp hfind).1
      rw [List.length_dropLast] at hlt
      exact ⟨i + 1, by omega, rfl⟩
    · exact ⟨0, hpos, rfl⟩
  refine ⟨h.root_eq, h.next_eq, ?_, ?_, fun id hid hne => ?_⟩
  · rw [hopen, List.getLast?_drop, if_neg (Nat.not_le.mpr hn)]
    exact h.bottom
  · rw [hopen]
    exact h.path.drop n
  · rw [hopen] at hid
    exact h.opened id (List.mem_of_mem_drop hid) hne

/-- **One token.** -/
theorem openPath_insertToken (h : OpenPath inserted b) (token : HtmlToken) :
    OpenPath (inserted ++ origins [token]) (b.insertToken token) := by
  have hsame (hnot : Inserts token = false) : inserted ++ origins [token] = inserted := by
    rw [origins, List.filter_cons_of_neg (Bool.eq_false_iff.mp hnot), List.filter_nil,
      List.append_nil]
  have hnew (hinserts : Inserts token = true) : origins [token] = [token] := by
    rw [origins, List.filter_cons_of_pos hinserts, List.filter_nil]
  rw [TreeBuilder.insertToken]
  cases htype : token.type with
  | doctype =>
    rw [hnew (by rw [Inserts, htype])]
    exact openPath_insertNode h token _ _ _ _ (fun hpush => absurd hpush Bool.false_ne_true)
  | comment =>
    rw [hnew (by rw [Inserts, htype])]
    exact openPath_insertNode h token _ _ _ _ (fun hpush => absurd hpush Bool.false_ne_true)
  | text =>
    dsimp only
    by_cases hdata : token.data = []
    · rw [if_neg (not_not.mpr hdata), hsame (by rw [Inserts, htype, hdata]; rfl)]
      exact h
    · rw [if_pos hdata, hnew (by rw [Inserts, htype]; exact bne_iff_ne.mpr hdata)]
      exact openPath_insertNode h token _ _ _ _ (fun hpush => absurd hpush Bool.false_ne_true)
  | startTag =>
    rw [hnew (by rw [Inserts, htype])]
    refine openPath_insertNode h token _ _ _ _ fun hpush => ⟨htype, ?_, rfl⟩
    simpa using (Bool.and_eq_true_iff.mp hpush).2
  | selfClosingTag =>
    rw [hnew (by rw [Inserts, htype])]
    refine openPath_insertNode h token _ _ _ _ fun hpush => ?_
    exact absurd (Bool.and_eq_true_iff.mp hpush).1 (by decide)
  | endTag =>
    rw [hsame (by rw [Inserts, htype])]
    exact openPath_closeElement h _
  | eof =>
    rw [hsame (by rw [Inserts, htype])]
    exact h

/-- Any tokens, from any state on. -/
theorem openPath_foldl (tokens : List HtmlToken) :
    ∀ {inserted : List HtmlToken} {b : TreeBuilder}, OpenPath inserted b →
      OpenPath (inserted ++ origins tokens) (tokens.foldl TreeBuilder.insertToken b) := by
  induction tokens with
  | nil =>
    intro inserted b h
    rw [origins, List.filter_nil, List.append_nil]
    exact h
  | cons token tokens ih =>
    intro inserted b h
    have hstep := ih (openPath_insertToken h token)
    have hsplit : origins (token :: tokens) = origins [token] ++ origins tokens := by
      rw [origins, origins, origins, ← List.filter_append, List.singleton_append]
    rw [hsplit, ← List.append_assoc]
    exact hstep

/-- **After any tokens** the stack is not empty, the document is at its bottom, each further entry is
the last child of the entry below it and was opened by a start tag that does not close itself, of an
element that is not void; and the parent links agree with the lists of children. -/
theorem openElements_spec (tokens : List HtmlToken) :
    let b := tokens.foldl TreeBuilder.insertToken TreeBuilder.start
    (b.openElements ≠ [] ∧ b.openElements.getLast? = some b.document.root ∧
      (b.document.heap.nodes b.document.root).map (·.type) = some .document) ∧
      (b.openElements.IsChain fun inner outer =>
        (b.document.heap.childrenOf outer).getLast? = some inner) ∧
      (∀ id ∈ b.openElements, id ≠ b.document.root →
        OpenedBy b.document.heap (origins tokens) id) ∧
      ∀ p x, b.document.heap.parentOf x = some p ↔ x ∈ b.document.heap.childrenOf p := by
  intro b
  have h : OpenPath (origins tokens) b := openPath_foldl tokens openPath_start
  refine ⟨⟨fun hnil => ?_, h.bottom, ?_⟩, h.path, h.opened, b.document.link_iff⟩
  · have hbottom := h.bottom
    rw [hnil] at hbottom
    cases hbottom
  · obtain ⟨node, hnode, htype⟩ := b.document.rootNode
    rw [hnode, Option.map_some, htype]

end Aetheris.Html
