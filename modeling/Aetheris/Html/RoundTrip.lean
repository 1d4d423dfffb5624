import Aetheris.Html.WrittenTokens

/-!
# Markup is read back

Under the tokens of the markup of a tree the builder grows that tree below the current element and
nothing anywhere else.

`Grown` says this of two builders: the trees that have been added, and that the rest of the heap and
the stack are as they were.  It composes, so the markup of a list of trees adds the list, and a tree
with children is a start tag, its children, and an end tag that finds its element on top of the
stack (`reads_serialize`).  At the root this is `content_parseHtml`.
-/

namespace Aetheris.Html

open Dom

/-! ## Trees in a heap -/

mutual

/-- The node and what is below it are the tree; children come after their parent. -/
def IsTree (h : Heap) : NodeId → Tree → Prop
  | id, .element name attributes children =>
    ∃ node, h.nodes id = some node ∧ node.type = .element ∧ node.name = name ∧
      node.attributes = attributes ∧ AreTrees h id node.children children
  | id, .text data => ∃ node, h.nodes id = some node ∧ node.type = .text ∧ node.data = data
  | id, .comment data => ∃ node, h.nodes id = some node ∧ node.type = .comment ∧ node.data = data
  | id, .doctype data => ∃ node, h.nodes id = some node ∧ node.type = .doctype ∧ node.data = data

/-- Nodes behind `above` that are the trees, one by one. -/
def AreTrees (h : Heap) (above : NodeId) : List NodeId → List Tree → Prop
  | [], [] => True
  | id :: ids, t :: ts => above < id ∧ IsTree h id t ∧ AreTrees h above ids ts
  | [], _ :: _ => False
  | _ :: _, [] => False

end

theorem isSome_of_isTree {h : Heap} {id : NodeId} {t : Tree} (ht : IsTree h id t) :
    (h.nodes id).isSome := by
  cases t <;> rw [IsTree] at ht <;> obtain ⟨node, hnode, -⟩ := ht <;> rw [hnode] <;> rfl

mutual

/-- Writes before `id` and to fresh addresses do not change the tree at `id`. -/
theorem isTree_of_eq {h h' : Heap} {id : NodeId}
    (heq : ∀ x, id ≤ x → (h.nodes x).isSome → h'.nodes x = h.nodes x) :
    ∀ t : Tree, IsTree h id t → IsTree h' id t
  | .element name attributes children, ht => by
    rw [IsTree] at ht ⊢
    obtain ⟨node, hnode, htype, hname, hattributes, hchildren⟩ := ht
    refine ⟨node, ?_, htype, hname, hattributes, ?_⟩
    · rw [heq id le_rfl (by rw [hnode]; rfl), hnode]
    · exact areTrees_of_eq (fun x hx => heq x hx.le) node.children children hchildren
  | .text data, ht => by
    rw [IsTree] at ht ⊢
    obtain ⟨node, hnode, hrest⟩ := ht
    exact ⟨node, by rw [heq id le_rfl (by rw [hnode]; rfl), hnode], hrest⟩
  | .comment data, ht => by
    rw [IsTree] at ht ⊢
    obtain ⟨node, hnode, hrest⟩ := ht
    exact ⟨node, by rw [heq id le_rfl (by rw [hnode]; rfl), hnode], hrest⟩
  | .doctype data, ht => by
    rw [IsTree] at ht ⊢
    obtain ⟨node, hnode, hrest⟩ := ht
    exact ⟨node, by rw [heq id le_rfl (by rw [hnode]; rfl), hnode], hrest⟩

theorem areTrees_of_eq {h h' : Heap} {above : NodeId}
    (heq : ∀ x, above < x → (h.nodes x).isSome → h'.nodes x = h.nodes x) :
    ∀ (ids : List NodeId) (ts : List Tree), AreTrees h above ids ts → AreTrees h' above ids ts
  | [], [], _ => trivial
  | id :: ids, t :: ts, hts => by
    rw [AreTrees] at hts ⊢
    obtain ⟨hlt, ht, hts⟩ := hts
    refine ⟨hlt, ?_, areTrees_of_eq heq ids ts hts⟩
    exact isTree_of_eq (fun x hx => heq x (Nat.lt_of_lt_of_le hlt hx)) t ht
  | [], _ :: _, hts => by
    rw [AreTrees] at hts
    exact hts.elim
  | _ :: _, [], hts => by
    rw [AreTrees] at hts
    exact hts.elim

end

theorem areTrees_append {h : Heap} {above : NodeId} {us : List Tree} {ids' : List NodeId}
    (hus : AreTrees h above ids' us) :
    ∀ (ids : List NodeId) (ts : List Tree), AreTrees h above ids ts →
      AreTrees h above (ids ++ ids') (ts ++ us)
  | [], [], _ => hus
  | id :: ids, t :: ts, hts => by
    rw [AreTrees] at hts
    rw [List.cons_append, List.cons_append, AreTrees]
    exact ⟨hts.1, hts.2.1, areTrees_append hus ids ts hts.2.2⟩
  | [], _ :: _, hts => by
    rw [AreTrees] at hts
    exact hts.elim
  | _ :: _, [], hts => by
    rw [AreTrees] at hts
    exact hts.elim

mutual

/-- `treeAt` reads the tree once it may go deep enough. -/
theorem treeAt_of_isTree {h : Heap} (hfresh : ∀ x, h.next ≤ x → h.nodes x = none) :
    ∀ (depth : ℕ) (id : NodeId) (t : Tree), h.next ≤ id + depth → IsTree h id t →
      treeAt h depth id = some t
  | 0, id, t, hdepth, ht => by
    have hsome := isSome_of_isTree ht
    rw [hfresh id hdepth] at hsome
    exact absurd hsome Bool.false_ne_true
  | depth + 1, id, .element name attributes children, hdepth, ht => by
    rw [IsTree] at ht
    obtain ⟨node, hnode, htype, hname, hattributes, hchildren⟩ := ht
    rw [treeAt, hnode, Option.bind_some, htype, hname, hattributes]
    dsimp only
    have hbelow : h.next ≤ id + 1 + depth :=
      le_of_le_of_eq hdepth (Nat.add_right_comm id depth 1)
    rw [mapM_treeAt hfresh depth id hbelow node.children children hchildren]
    rfl
  | depth + 1, id, .text data, _, ht => by
    rw [IsTree] at ht
    obtain ⟨node, hnode, htype, hdata⟩ := ht
    rw [treeAt, hnode, Option.bind_some, htype, hdata]
  | depth + 1, id, .comment data, _, ht => by
    rw [IsTree] at ht
    obtain ⟨node, hnode, htype, hdata⟩ := ht
    rw [treeAt, hnode, Option.bind_some, htype, hdata]
  | depth + 1, id, .doctype data, _, ht => by
    rw [IsTree] at ht
    obtain ⟨node, hnode, htype, hdata⟩ := ht
    rw [treeAt, hnode, Option.bind_some, htype, hdata]

theorem mapM_treeAt {h : Heap} (hfresh : ∀ x, h.next ≤ x → h.nodes x = none) (depth : ℕ)
    (above : NodeId) (hdepth : h.next ≤ above + 1 + depth) :
    ∀ (ids : List NodeId) (ts : List Tree), AreTrees h above ids ts →
      ids.mapM (treeAt h depth) = some ts
  | [], [], _ => rfl
  | id :: ids, t :: ts, hts => by
    rw [AreTrees] at hts
    have hid : h.next ≤ id + depth := hdepth.trans (Nat.add_le_add_right hts.1 depth)
    rw [List.mapM_cons, treeAt_of_isTree hfresh depth id t hid hts.2.1,
      mapM_treeAt hfresh depth above hdepth ids ts hts.2.2]
    rfl
  | [], _ :: _, hts => by
    rw [AreTrees] at hts
    exact hts.elim
  | _ :: _, [], hts => by
    rw [AreTrees] at hts
    exact hts.elim

end

/-! ## What the builder adds -/

/-- The trees have been added below the current element, and nothing else has changed. -/
structure Grown (b b' : TreeBuilder) (ts : List Tree) : Prop where
  openElements : b'.openElements = b.openElements
  root : b'.document.root = b.document.root
  next_le : b.document.heap.next ≤ b'.document.heap.next
  frame : ∀ x < b.document.heap.next, x ≠ b.current →
    b'.document.heap.nodes x = b.document.heap.nodes x
  added : ∃ ids, AreTrees b'.document.heap b.current ids ts ∧
    b'.document.heap.nodes b.current =
      (b.document.heap.nodes b.current).map fun node =>
        { node with children := node.children ++ ids }

theorem Grown.current {b b' : TreeBuilder} {ts : List Tree} (h : Grown b b' ts) :
    b'.current = b.current := by
  rw [TreeBuilder.current, TreeBuilder.current, h.openElements, h.root]

theorem Grown.refl (b : TreeBuilder) : Grown b b [] where
  openElements := rfl
  root := rfl
  next_le := le_rfl
  frame _ _ _ := rfl
  added := by
    refine ⟨[], trivial, ?_⟩
    cases b.document.heap.nodes b.current with
    | none => rfl
    | some node => rw [Option.map_some, List.append_nil]

theorem Grown.trans {b b' b'' : TreeBuilder} {ts us : List Tree} (h : Grown b b' ts)
    (h' : Grown b' b'' us) : Grown b b'' (ts ++ us) where
  openElements := h'.openElements.trans h.openElements
  root := h'.root.trans h.root
  next_le := h.next_le.trans h'.next_le
  frame x hx hne := by
    rw [h'.frame x (Nat.lt_of_lt_of_le hx h.next_le) (h.current ▸ hne), h.frame x hx hne]
  added := by
    obtain ⟨ids, hts, hnode⟩ := h.added
    obtain ⟨ids', hus, hnode'⟩ := h'.added
    rw [h.current] at hus hnode'
    refine ⟨ids ++ ids', areTrees_append hus ids ts ?_, ?_⟩
    · refine areTrees_of_eq (fun x hx hsome => ?_) ids ts hts
      exact h'.frame x (b'.document.lt_next hsome) (h.current ▸ Nat.ne_of_gt hx)
    · rw [hnode', hnode, Option.map_map]
      refine congrArg (fun f => Option.map f _) (funext fun node => ?_)
      simp [List.append_assoc]

theorem nodes_insertNode (b : TreeBuilder) (type : DomNodeType) (name data : Bytes)
    (attributes : List (Bytes × Bytes)) (pushToStack : Bool) (x : NodeId) :
    (b.insertNode type name data attributes pushToStack).document.heap.nodes x =
      if x = b.document.heap.next then
        some { type := type, name := name, data := data, attributes := attributes,
               parent := some b.current }
      else if x = b.current then
        (b.document.heap.nodes x).map fun node =>
          { node with children := node.children ++ [b.document.heap.next] }
      else b.document.heap.nodes x :=
  Document.nodes_appendHeap b.isSome_current type name data attributes x

/-- A node without children has been added. -/
theorem grown_insertNode (b : TreeBuilder) (type : DomNodeType) (name data : Bytes)
    (attributes : List (Bytes × Bytes)) {t : Tree}
    (ht : ∀ h : Heap, ∀ node, h.nodes b.document.heap.next = some node → node.type = type →
      node.name = name → node.data = data → node.attributes = attributes →
      node.children = [] → IsTree h b.document.heap.next t) :
    Grown b (b.insertNode type name data attributes false) [t] where
  openElements := rfl
  root := rfl
  next_le := Nat.le_succ _
  frame x hx hne := by
    rw [nodes_insertNode, if_neg (Nat.ne_of_lt hx), if_neg hne]
  added := by
    have hlt := b.document.lt_next b.isSome_current
    refine ⟨[b.document.heap.next], ?_, ?_⟩
    · rw [AreTrees, AreTrees]
      refine ⟨hlt, ht _ { type := type, name := name, data := data, attributes := attributes,
                          parent := some b.current } ?_ rfl rfl rfl rfl rfl, trivial⟩
      rw [nodes_insertNode, if_pos rfl]
    · rw [nodes_insertNode, if_neg (Nat.ne_of_lt hlt), if_pos rfl]

/-- An element has been opened, filled and closed again. -/
theorem grown_element {b b' : TreeBuilder} {name : Bytes} {attributes : List (Bytes × Bytes)}
    {children : List Tree} (hne : b.openElements ≠ [])
    (h : Grown (b.insertNode .element name [] attributes true) b' children) :
    Grown b (b'.closeElement name) [.element name attributes children] := by
  set b₁ := b.insertNode .element name [] attributes true with hb₁
  have hcurrent : b₁.current = b.document.heap.next := rfl
  have hlt := b.document.lt_next b.isSome_current
  have hnext : b₁.document.heap.next = b.document.heap.next + 1 := rfl
  obtain ⟨ids, hchildren, hnode⟩ := h.added
  rw [hcurrent] at hchildren hnode
  rw [hb₁, nodes_insertNode, if_pos rfl, Option.map_some] at hnode
  have hold : ∀ x < b.document.heap.next,
      b'.document.heap.nodes x = b₁.document.heap.nodes x :=
    fun x hx => h.frame x (hx.trans (hnext ▸ Nat.lt_succ_self _)) (hcurrent ▸ Nat.ne_of_lt hx)
  refine ⟨?_, h.root, ?_, ?_, ⟨[b.document.heap.next], ?_, ?_⟩⟩
  · -- the element is on top of the stack, so it is the one that is closed
    have hopen : b'.openElements = b.document.heap.next :: b.openElements := h.openElements
    unfold TreeBuilder.closeElement
    dsimp only
    rw [hopen, List.dropLast_cons_of_ne_nil hne, List.findIdx?_cons, hnode, Option.map_some,
      if_pos (beq_self_eq_true _)]
    rfl
  · exact (Nat.le_succ _).trans h.next_le
  · intro x hx hxne
    rw [TreeBuilder.closeElement, hold x hx, hb₁, nodes_insertNode, if_neg (Nat.ne_of_lt hx),
      if_neg hxne]
  · rw [AreTrees, AreTrees, IsTree]
    exact ⟨hlt, ⟨_, hnode, rfl, rfl, rfl, hchildren⟩, trivial⟩
  · rw [TreeBuilder.closeElement, hold _ hlt, hb₁, nodes_insertNode, if_neg (Nat.ne_of_lt hlt),
      if_pos rfl]

/-! ## The round trip -/

namespace HtmlTokenizer.Yields

variable {t : HtmlTokenizer} {type : HtmlTokenType} {data rest : Bytes}
  {attributes : List (Bytes × Bytes)}

theorem build_eq (h : t.Yields type data attributes rest) (htype : type ≠ .eof)
    (b : TreeBuilder) :
    TreeBuilder.build t b = TreeBuilder.build t.nextToken.2 (b.insertToken t.nextToken.1) := by
  rw [TreeBuilder.build, dif_neg (h.type_eq ▸ htype)]

end HtmlTokenizer.Yields

/-- The markup that follows starts with a tag, or there is none. -/
def EndsText (rest : Bytes) : Prop := ∀ c ∈ rest.head?, c = chr '<'

theorem endsText_serialize {t : Tree} (ht : t.Serializable) (hnot : ¬ t.IsText) (rest : Bytes) :
    EndsText (t.serialize ++ rest) := by
  cases t with
  | element name attributes children =>
    rw [Tree.serialize]
    exact fun c hc => (Option.some.inj hc).symm
  | text data => exact absurd trivial hnot
  | comment data =>
    rw [Tree.serialize]
    exact fun c hc => (Option.some.inj hc).symm
  | doctype data =>
    rw [Tree.serialize]
    exact fun c hc => (Option.some.inj hc).symm

theorem endsText_serializeAll {ts : List Tree} (hts : SerializableAll ts)
    (hhead : ∀ u ∈ ts.head?, ¬ u.IsText) {rest : Bytes} (hrest : EndsText rest) :
    EndsText (serializeAll ts ++ rest) := by
  cases ts with
  | nil => exact hrest
  | cons t ts =>
    rw [SerializableAll] at hts
    rw [serializeAll, List.append_assoc]
    exact endsText_serialize hts.1 (hhead t rfl) _

/-- The run of the builder over a piece of markup. -/
def Reads (t : HtmlTokenizer) (b : TreeBuilder) (ts : List Tree) (rest : Bytes) : Prop :=
  ∃ t' b', TreeBuilder.build t b = TreeBuilder.build t' b' ∧ t'.rest = rest ∧
    t'.emittedEof = false ∧ Grown b b' ts

mutual

/-- The markup of a tree adds the tree. -/
theorem reads_serialize :
    ∀ (u : Tree) (t : HtmlTokenizer) (b : TreeBuilder) (rest : Bytes), u.Serializable →
      t.emittedEof = false → t.rest = u.serialize ++ rest → (u.IsText → EndsText rest) →
      b.openElements ≠ [] → Reads t b [u] rest
  | .element name attributes children, t, b, rest, hu, hemitted, h, _, hne => by
    rw [Tree.Serializable] at hu
    obtain ⟨hname, hok, hnodup, hvoid, hchildren⟩ := hu
    rw [Tree.serialize] at h
    by_cases hv : isVoidElement name
    · rw [if_pos hv] at h
      have hrest : t.rest =
          chr '<' :: (name ++ (attributes.flatMap attributeText ++ (chr '>' :: rest))) := by
        rw [h]
        simp [List.append_assoc]
      have hy := HtmlTokenizer.yields_startTag hemitted hrest hname hok hnodup
      refine ⟨_, _, hy.build_eq HtmlTokenType.noConfusion b, hy.rest_eq, hy.emittedEof, ?_⟩
      rw [TreeBuilder.insertToken, hy.type_eq]
      dsimp only
      rw [hy.data_eq, hy.attributes_eq, hv]
      refine grown_insertNode b .element name [] attributes ?_
      intro h' node hnode htype hname' _ hattributes hchildren'
      rw [IsTree]
      refine ⟨node, hnode, htype, hname', hattributes, ?_⟩
      rw [hchildren', hvoid hv]
      trivial
    · rw [if_neg hv] at h
      have hrest : t.rest =
          chr '<' :: (name ++ (attributes.flatMap attributeText ++ (chr '>' ::
            (serializeAll children ++ (chr '<' :: chr '/' :: (name ++ (chr '>' :: rest))))))) := by
        rw [h]
        simp [List.append_assoc]
      have hy := HtmlTokenizer.yields_startTag hemitted hrest hname hok hnodup
      have hopen : b.insertToken t.nextToken.1 =
          b.insertNode .element name [] attributes true := by
        rw [TreeBuilder.insertToken, hy.type_eq]
        dsimp only
        rw [hy.data_eq, hy.attributes_eq, Bool.eq_false_iff.mpr hv]
        rfl
      obtain ⟨t₂, b₂, hbuild₂, hrest₂, hemitted₂, hgrown⟩ :=
        reads_serializeAll children t.nextToken.2 (b.insertNode .element name [] attributes true)
          (chr '<' :: chr '/' :: (name ++ (chr '>' :: rest))) hchildren hy.emittedEof hy.rest_eq
          (fun c hc => (Option.some.inj hc).symm) (List.cons_ne_nil _ _)
      have hend := HtmlTokenizer.yields_endTag hemitted₂ hrest₂ hname
      have hclose : b₂.insertToken t₂.nextToken.1 = b₂.closeElement name := by
        rw [TreeBuilder.insertToken, hend.type_eq]
        dsimp only
        rw [hend.data_eq]
      refine ⟨t₂.nextToken.2, b₂.closeElement name, ?_, hend.rest_eq, hend.emittedEof,
        grown_element hne hgrown⟩
      rw [hy.build_eq HtmlTokenType.noConfusion, hopen, hbuild₂,
        hend.build_eq HtmlTokenType.noConfusion, hclose]
  | .text data, t, b, rest, hu, hemitted, h, hends, _ => by
    rw [Tree.Serializable] at hu
    rw [Tree.serialize] at h
    have hy := HtmlTokenizer.yields_text hemitted h hu.1 hu.2 (hends trivial)
    refine ⟨_, _, hy.build_eq HtmlTokenType.noConfusion b, hy.rest_eq, hy.emittedEof, ?_⟩
    rw [TreeBuilder.insertToken, hy.type_eq]
    dsimp only
    rw [hy.data_eq, if_pos hu.1]
    refine grown_insertNode b .text [] data [] fun h' node hnode htype _ hdata _ _ => ?_
    rw [IsTree]
    exact ⟨node, hnode, htype, hdata⟩
  | .comment data, t, b, rest, hu, hemitted, h, _, _ => by
    rw [Tree.Serializable] at hu
    rw [Tree.serialize] at h
    rw [List.append_assoc, List.append_assoc] at h
    have hy := HtmlTokenizer.yields_comment hemitted h hu
    refine ⟨_, _, hy.build_eq HtmlTokenType.noConfusion b, hy.rest_eq, hy.emittedEof, ?_⟩
    rw [TreeBuilder.insertToken, hy.type_eq]
    dsimp only
    rw [hy.data_eq]
    refine grown_insertNode b .comment [] data [] fun h' node hnode htype _ hdata _ _ => ?_
    rw [IsTree]
    exact ⟨node, hnode, htype, hdata⟩
  | .doctype data, t, b, rest, hu, hemitted, h, _, _ => by
    rw [Tree.Serializable] at hu
    rw [Tree.serialize] at h
    rw [List.append_assoc, List.append_assoc] at h
    have hy := HtmlTokenizer.yields_doctype hemitted h hu
    refine ⟨_, _, hy.build_eq HtmlTokenType.noConfusion b, hy.rest_eq, hy.emittedEof, ?_⟩
    rw [TreeBuilder.insertToken, hy.type_eq]
    dsimp only
    rw [hy.data_eq]
    refine grown_insertNode b .doctype [] data [] fun h' node hnode htype _ hdata _ _ => ?_
    rw [IsTree]
    exact ⟨node, hnode, htype, hdata⟩

/-- The markup of siblings adds the siblings. -/
theorem reads_serializeAll :
    ∀ (us : List Tree) (t : HtmlTokenizer) (b : TreeBuilder) (rest : Bytes), SerializableAll us →
      t.emittedEof = false → t.rest = serializeAll us ++ rest → EndsText rest →
      b.openElements ≠ [] → Reads t b us rest
  | [], t, b, rest, _, hemitted, h, _, _ => ⟨t, b, rfl, h, hemitted, .refl b⟩
  | u :: us, t, b, rest, hus, hemitted, h, hends, hne => by
    rw [SerializableAll] at hus
    obtain ⟨hu, hneighbours, hus⟩ := hus
    rw [serializeAll, List.append_assoc] at h
    obtain ⟨t₁, b₁, hbuild₁, hrest₁, hemitted₁, hgrown₁⟩ :=
      reads_serialize u t b (serializeAll us ++ rest) hu hemitted h
        (fun htext => endsText_serializeAll hus (hneighbours htext) hends) hne
    obtain ⟨t₂, b₂, hbuild₂, hrest₂, hemitted₂, hgrown₂⟩ :=
      reads_serializeAll us t₁ b₁ rest hus hemitted₁ hrest₁ hends (hgrown₁.openElements ▸ hne)
    exact ⟨t₂, b₂, hbuild₁.trans hbuild₂, hrest₂, hemitted₂, hgrown₁.trans hgrown₂⟩

end

/-- The nodes below the root are the trees. -/
theorem areTrees_parseHtml (ts : List Tree) (hts : SerializableAll ts) :
    AreTrees (parseHtml (serializeAll ts)).heap TreeBuilder.start.current
      ((parseHtml (serializeAll ts)).heap.childrenOf (parseHtml (serializeAll ts)).root) ts := by
  obtain ⟨t, b, hbuild, hrest, -, hgrown⟩ :=
    reads_serializeAll ts { rest := serializeAll ts } TreeBuilder.start [] hts rfl
      (List.append_nil _).symm (fun c hc => absurd hc (Option.not_mem_none c))
      (List.cons_ne_nil _ _)
  have heof := HtmlTokenizer.nextToken_eof hrest
  have hdoc : parseHtml (serializeAll ts) = b.document := by
    rw [parseHtml, hbuild, TreeBuilder.build, dif_pos heof]
  obtain ⟨ids, htrees, hroot⟩ := hgrown.added
  have hchildren : b.document.heap.childrenOf b.document.root = ids := by
    rw [hgrown.root]
    show ((b.document.heap.nodes TreeBuilder.start.current).map (·.children)).getD [] = ids
    rw [hroot]
    rfl
  rw [hdoc, hchildren]
  exact htrees

/-- The content of a document is what its nodes are. -/
theorem content_of_areTrees {doc : Document} {above : NodeId} {ts : List Tree}
    (h : AreTrees doc.heap above (doc.heap.childrenOf doc.root) ts) : content doc = some ts :=
  mapM_treeAt doc.fresh _ above (Nat.le_add_left _ _) _ ts h

/-- **Markup is read back.**  The document parsed from the markup of a list of trees has exactly
these trees below its root. -/
theorem content_parseHtml (ts : List Tree) (hts : SerializableAll ts) :
    content (parseHtml (serializeAll ts)) = some ts :=
  content_of_areTrees (areTrees_parseHtml ts hts)

/-- A paragraph with an attribute, a text, a void element and a comment. -/
theorem content_parseHtml_paragraph :
    content (parseHtml (serializeAll
        [.element (lit "p") [(lit "id", lit "a>b")]
          [.text (lit "x"), .element (lit "br") [] [], .comment (lit "--")]])) =
      some [.element (lit "p") [(lit "id", lit "a>b")]
        [.text (lit "x"), .element (lit "br") [] [], .comment (lit "--")]] := by
  refine content_parseHtml _ ?_
  have hp : IsElementName (lit "p") := ⟨⟨chr 'p', rfl, by decide⟩, by decide⟩
  have hbr : IsElementName (lit "br") := ⟨⟨chr 'b', rfl, by decide⟩, by decide⟩
  have hattribute : ∀ entry ∈ [(lit "id", lit "a>b")],
      IsAttributeName entry.1 ∧ chr '"' ∉ entry.2 := by
    intro entry hentry
    rw [List.mem_singleton.mp hentry]
    exact ⟨⟨by decide, by decide⟩, by decide⟩
  simp only [SerializableAll, Tree.Serializable]
  refine ⟨⟨hp, hattribute, by decide, fun h => absurd h (by decide), ⟨by decide, by decide⟩, ?_,
    ⟨hbr, fun _ h => absurd h List.not_mem_nil, by decide, fun _ => trivial, trivial⟩, ?_, by decide,
    ?_, trivial⟩, ?_, trivial⟩
  · intro _ u hu
    rw [← Option.some.inj hu]
    exact id
  · exact fun h => h.elim
  · exact fun h => h.elim
  · exact fun h => h.elim

end Aetheris.Html
