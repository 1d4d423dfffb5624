import Aetheris.Dom.TextContent

/-!
# When the scripts' text changes are applied

Every element has a handle, with the text it had when the handle was made.  When the text below an
element is replaced, the handles above it are out of date and write the old text back if they come
later, and the handles below it are left without their nodes.  So the pass does what it is meant to
do (`AppliesTexts`), in every order of the map, exactly if each element whose text changes has no
element above and none below it.

If so, what is done so far (`Progress`) grows by one handle in each round, whichever comes next.  If
not, there is an order that shows it: the lower one of two such handles first, or the upper one.
-/

namespace Aetheris.Dom

open Ancestry

/-- The list goes through the keys of the handle map. -/
def ListsHandles (s : HostState) (order : List HandleId) : Prop :=
  order.Nodup ∧ ∀ k, k ∈ order ↔ (s.host.nodeByHandle k).isSome

/-- No entry of the handle map refers to a destroyed node. -/
def HandlesLive (s : HostState) : Prop :=
  ∀ k x, s.host.nodeByHandle k = some x → (s.heap.nodes x).isSome

/-- The nodes of the assigned handles have the assigned texts below them, and all nodes that are
not below one of them are as they were. -/
structure TextReplaced (assigned : List HandleId) (s t : HostState) : Prop where
  replaced : ∀ k ∈ assigned, ∀ x object, s.host.nodeByHandle k = some x →
    s.handles k = some object → ∃ node children, s.heap.nodes x = some node ∧
      t.heap.nodes x = some { node with children } ∧ t.text x = object.textContent
  kept : ∀ y, (s.heap.nodes y).isSome →
    (∀ k ∈ assigned, ∀ x, s.host.nodeByHandle k = some x →
      y ≠ x ∧ ¬ IsAncestor s.heap.parentOf x y) → t.heap.nodes y = s.heap.nodes y

/-- **What the pass is meant to do**: no entry of the map dangles at any time, and in the end
exactly the assigned texts have been replaced. -/
def AppliesTexts (assigned : List HandleId) (s : HostState) (order : List HandleId) : Prop :=
  (∀ visited, visited <+: order → ∃ t, applyTextContent s visited = some t ∧ HandlesLive t) ∧
    ∃ t, applyTextContent s order = some t ∧ TextReplaced assigned s t

/-- The text of the handle is not the one below its node. -/
def Changes (s : HostState) (k : HandleId) (x : NodeId) : Prop :=
  s.host.nodeByHandle k = some x ∧ ∃ object, s.handles k = some object ∧
    object.textContent ≠ s.text x

/-- The node has no node of a handle above or below it. -/
def Isolated (s : HostState) (x : NodeId) : Prop :=
  ∀ k y, s.host.nodeByHandle k = some y →
    ¬ IsAncestor s.heap.parentOf y x ∧ ¬ IsAncestor s.heap.parentOf x y

/-! ## The pass over isolated changes -/

theorem below_congr {h h' : Heap} (hf : h.Forest) {x : NodeId}
    (hnodes : ∀ y, y = x ∨ IsAncestor h.parentOf x y → h'.nodes y = h.nodes y) (depth : ℕ) :
    h'.below depth x = h.below depth x := by
  induction depth generalizing x with
  | zero => rfl
  | succ depth ih =>
    have hx := hnodes x (Or.inl rfl)
    rw [Heap.below, Heap.below, Heap.childrenOf, Heap.childrenOf, hx]
    refine List.flatMap_congr fun c hc => congrArg (c :: ·) (ih fun y hy => hnodes y (Or.inr ?_))
    have hlink := hf.isParent_of_mem hc
    rcases hy with rfl | hy
    · exact .single hlink
    · exact hy.head hlink

/-- Where the subtree of a node is as before, so is its text, whatever has been allocated. -/
theorem text_eq_of_subtree {s t : HostState} (hf : s.heap.Forest) {x : NodeId}
    (hx : (s.heap.nodes x).isSome) (hnext : s.heap.next ≤ t.heap.next)
    (hnodes : ∀ y, y = x ∨ IsAncestor s.heap.parentOf x y → t.heap.nodes y = s.heap.nodes y) :
    t.text x = s.text x := by
  rw [HostState.text, HostState.text, nodeText_congr hf hnodes]
  exact nodeText_eq_of_le (fun n b hreach => hf.lt_next_of_reach hreach hx) hnext

/-- The text of an element with a single text node. -/
theorem nodeText_singleton {h : Heap} {x text : NodeId} {node child : DomNode}
    (hx : h.nodes x = some { node with children := [text] }) (hnode : node.type = .element)
    (htext : h.nodes text = some child) (htype : child.type = .text)
    (hchildren : child.children = []) (depth : ℕ) :
    nodeText h (depth + 2) x = child.data := by
  rw [nodeText_succ, ownText, hx, Heap.childrenOf, hx]
  dsimp only [Option.map_some, Option.getD_some]
  rw [hnode, if_neg DomNodeType.noConfusion, List.nil_append, List.flatMap_singleton,
    nodeText_succ, ownText, htext, Heap.childrenOf, htext]
  dsimp only [Option.map_some, Option.getD_some]
  rw [htype, if_pos rfl, hchildren, List.flatMap_nil, List.append_nil]

/-- What the pass has done after the handles `visited`. -/
structure Progress (s : HostState) (visited : List HandleId) (t : HostState) : Prop where
  host : t.host = s.host
  handles : t.handles = s.handles
  next : s.heap.next ≤ t.heap.next
  replaced : ∀ k ∈ visited, ∀ x, Changes s k x → ∃ node text object,
    s.heap.nodes x = some node ∧ s.handles k = some object ∧ s.heap.next ≤ text ∧
      text < t.heap.next ∧ t.heap.nodes x = some { node with children := [text] } ∧
        t.heap.nodes text =
          some { type := .text, data := object.textContent, parent := some x }
  kept : ∀ y, y < s.heap.next →
    (∀ k ∈ visited, ∀ x, Changes s k x → y ≠ x ∧ ¬ IsAncestor s.heap.parentOf x y) →
      t.heap.nodes y = s.heap.nodes y

section Pass

variable {doc : Document} {assigned : List HandleId} {s : HostState}

/-- A handle whose text differs from the one below its node has been assigned to. -/
theorem TextRun.mem_of_changes (h : TextRun doc assigned s) {k : HandleId} {x : NodeId}
    (hk : Changes s k x) : k ∈ assigned := by
  obtain ⟨hnode, object, hobject, hne⟩ := hk
  obtain ⟨object', hobject', htext⟩ := h.table.object k x hnode
  rw [hobject] at hobject'
  rw [← Option.some.inj hobject'] at htext
  by_contra hnot
  exact hne ((htext hnot).trans (h.texts.text_eq x).symm)

theorem TextRun.forest (h : TextRun doc assigned s) : s.heap.Forest :=
  Heap.forest_of_ownership h.ownership h.wf

theorem TextRun.isSome (h : TextRun doc assigned s) {k : HandleId} {x : NodeId}
    (hk : s.host.nodeByHandle k = some x) : (s.heap.nodes x).isSome :=
  isSome_of_type (h.wf.handle k x hk)

theorem TextRun.lt_next (h : TextRun doc assigned s) {k : HandleId} {x : NodeId}
    (hk : s.host.nodeByHandle k = some x) : x < s.heap.next :=
  h.forest.lt_next (h.isSome hk)

variable (h : TextRun doc assigned s) (hisolated : ∀ k x, Changes s k x → Isolated s x)

include h hisolated

/-- The subtree of a handle's node is as before until the text of the node is replaced. -/
theorem Progress.subtree {visited : List HandleId} {t : HostState} (hp : Progress s visited t)
    {k : HandleId} {x : NodeId} (hk : s.host.nodeByHandle k = some x)
    (hnot : ∀ k' ∈ visited, ¬ Changes s k' x)
    (y : NodeId) (hy : y = x ∨ IsAncestor s.heap.parentOf x y) :
    t.heap.nodes y = s.heap.nodes y := by
  have hlive : y < s.heap.next := by
    rcases hy with rfl | hy
    · exact h.lt_next hk
    · exact h.forest.lt_next (Heap.Forest.isSome_of_isAncestor hy)
  refine hp.kept y hlive fun k' hk' x' hchanges => ?_
  obtain ⟨habove, hbelow⟩ := hisolated k' x' hchanges k x hk
  have hne : x ≠ x' := by
    rintro rfl
    exact hnot k' hk' hchanges
  constructor
  · rintro rfl
    rcases hy with heq | hy
    · exact hne heq.symm
    · exact habove hy
  · intro hx'y
    rcases hy with rfl | hy
    · exact hbelow hx'y
    · rcases isAncestor_trichotomy hy hx'y with heq | hxx' | hx'x
      · exact hne heq
      · exact habove hxx'
      · exact hbelow hx'x

/-- **One round of the pass.** -/
theorem Progress.step {visited : List HandleId} {t : HostState} (hp : Progress s visited t)
    {k : HandleId} (hnot : k ∉ visited) (hk : (s.host.nodeByHandle k).isSome) :
    ∃ t', applyHandle t k = some t' ∧ Progress s (visited ++ [k]) t' := by
  obtain ⟨x, hx⟩ := Option.isSome_iff_exists.mp hk
  obtain ⟨object, hobject, -⟩ := h.table.object k x hx
  have hsubtree := hp.subtree h hisolated hx fun k' hk' hchanges =>
    hnot (h.table.inj k k' x hx hchanges.1 ▸ hk')
  have hsome := h.isSome hx
  have htext := text_eq_of_subtree h.forest hsome hp.next hsubtree
  have happly : applyHandle t k =
      if object.textContent ≠ s.text x then
        some { t with heap := setNodeText t.heap x object.textContent }
      else some t := by
    rw [applyHandle, hp.host, hp.handles, hx, hobject]
    dsimp only
    rw [hsubtree x (Or.inl rfl), if_pos hsome, htext]
  by_cases hne : object.textContent ≠ s.text x
  · rw [if_pos hne] at happly
    refine ⟨_, happly, hp.host, hp.handles, hp.next.trans (Nat.le_succ _), ?_, ?_⟩
    · have hlt := h.lt_next hx
      have hbelow : ∀ y, y ∈ t.heap.below t.heap.next x ↔ IsAncestor s.heap.parentOf x y := by
        intro y
        rw [below_congr h.forest hsubtree]
        exact h.forest.mem_below_iff hp.next hsome
      have hnodes := nodes_setNodeText (hlt.trans_le hp.next) object.textContent
      intro k' hk' x' hchanges
      rcases List.mem_append.mp hk' with hk' | hk'
      · obtain ⟨node, text, object', hnode, hobject', hge, hltext, hnode', htext'⟩ :=
          hp.replaced k' hk' x' hchanges
        have hx' := h.lt_next hchanges.1
        refine ⟨node, text, object', hnode, hobject', hge, hltext.trans (Nat.lt_succ_self _), ?_, ?_⟩
        · rw [hnodes, if_neg (Nat.ne_of_lt (hx'.trans_le hp.next)), if_neg, if_neg, hnode']
          · rintro rfl
            exact hnot (h.table.inj k k' x' hx hchanges.1 ▸ hk')
          · rw [hbelow]
            exact (hisolated k' x' hchanges k x hx).1
        · rw [hnodes, if_neg (Nat.ne_of_lt hltext), if_neg, if_neg, htext']
          · exact Nat.ne_of_gt (hlt.trans_le hge)
          · rw [hbelow]
            intro hanc
            exact Nat.not_lt.mpr hge
              (h.forest.lt_next (Heap.Forest.isSome_of_isAncestor hanc))
      · rw [List.mem_singleton] at hk'
        rw [hk'] at hchanges ⊢
        have heq : x' = x := Option.some.inj (hchanges.1.symm.trans hx)
        rw [heq]
        obtain ⟨node, hnode⟩ := Option.isSome_iff_exists.mp hsome
        refine ⟨node, t.heap.next, object, hnode, hobject, hp.next, Nat.lt_succ_self _, ?_, ?_⟩
        · rw [hnodes, if_neg (Nat.ne_of_lt (hlt.trans_le hp.next)), if_neg, if_pos rfl,
            hsubtree x (Or.inl rfl), hnode, Option.map_some]
          rw [hbelow]
          exact h.forest.acyclic x
        · rw [hnodes, if_pos rfl]
    · have hlt := h.lt_next hx
      have hbelow : ∀ y, y ∈ t.heap.below t.heap.next x ↔ IsAncestor s.heap.parentOf x y := by
        intro y
        rw [below_congr h.forest hsubtree]
        exact h.forest.mem_below_iff hp.next hsome
      intro y hy hnone
      obtain ⟨hyx, hxy⟩ := hnone k (List.mem_append_right _ (List.mem_singleton_self k)) x
        ⟨hx, object, hobject, hne⟩
      have hnodes := nodes_setNodeText (hlt.trans_le hp.next) object.textContent y
      rw [if_neg (Nat.ne_of_lt (hy.trans_le hp.next)), if_neg (by rw [hbelow]; exact hxy),
        if_neg hyx] at hnodes
      exact hnodes.trans (hp.kept y hy fun k' hk' => hnone k' (List.mem_append_left _ hk'))
  · rw [if_neg hne] at happly
    have hunchanged : ∀ x', ¬ Changes s k x' := by
      rintro x' ⟨hx', object', hobject', hne'⟩
      rw [Option.some.inj (hobject'.symm.trans hobject),
        Option.some.inj (hx'.symm.trans hx)] at hne'
      exact hne hne'
    have hmem : ∀ k' ∈ visited ++ [k], ∀ x', Changes s k' x' → k' ∈ visited := by
      intro k' hk' x' hchanges
      rcases List.mem_append.mp hk' with hk' | hk'
      · exact hk'
      · rw [List.mem_singleton.mp hk'] at hchanges
        exact absurd hchanges (hunchanged x')
    refine ⟨t, happly, hp.host, hp.handles, hp.next, fun k' hk' x' hchanges => ?_,
      fun y hy hnone => ?_⟩
    · exact hp.replaced k' (hmem k' hk' x' hchanges) x' hchanges
    · exact hp.kept y hy fun k' hk' => hnone k' (List.mem_append_left _ hk')

/-- **The pass so far**, by induction on the visited handles. -/
theorem progress_apply {visited : List HandleId} (hnodup : visited.Nodup)
    (hkeys : ∀ k ∈ visited, (s.host.nodeByHandle k).isSome) :
    ∃ t, applyTextContent s visited = some t ∧ Progress s visited t := by
  induction visited using List.reverseRecOn with
  | nil =>
    refine ⟨s, rfl, rfl, rfl, Nat.le_refl _, fun k hk => absurd hk List.not_mem_nil, ?_⟩
    exact fun y _ _ => rfl
  | append_singleton visited k ih =>
    have hnot : k ∉ visited := fun hmem =>
      (List.nodup_append.mp hnodup).2.2 k hmem k (List.mem_singleton_self k) rfl
    obtain ⟨t, ht, hp⟩ := ih (List.nodup_append.mp hnodup).1 fun k' hk' =>
      hkeys k' (List.mem_append_left _ hk')
    obtain ⟨t', ht', hp'⟩ := hp.step h hisolated hnot
      (hkeys k (List.mem_append_right _ (List.mem_singleton_self k)))
    refine ⟨t', ?_, hp'⟩
    rw [applyTextContent] at ht ⊢
    rw [List.foldlM_append, ht]
    change applyHandle t k >>= _ = _
    rw [ht']
    rfl

/-- No handle dangles. -/
theorem Progress.handlesLive {visited : List HandleId} {t : HostState}
    (hp : Progress s visited t) : HandlesLive t := by
  intro k y hk
  rw [hp.host] at hk
  by_cases hchanges : ∃ k' ∈ visited, Changes s k' y
  · obtain ⟨k', hk', hchanges⟩ := hchanges
    obtain ⟨node, text, -, -, -, -, -, hnode, -⟩ := hp.replaced k' hk' y hchanges
    rw [hnode]
    rfl
  · rw [hp.kept y (h.lt_next hk)]
    · exact h.isSome hk
    · intro k' hk' x hx
      refine ⟨?_, (hisolated k' x hx k y hk).2⟩
      rintro rfl
      exact hchanges ⟨k', hk', hx⟩

/-- At the end exactly the assigned texts have been replaced. -/
theorem Progress.textReplaced {order : List HandleId} {t : HostState}
    (horder : ∀ k, (s.host.nodeByHandle k).isSome → k ∈ order) (hp : Progress s order t) :
    TextReplaced assigned s t := by
  refine ⟨fun k _ x object hk hobject => ?_, fun y hy hnone => ?_⟩
  · have hmem : k ∈ order := horder k (by rw [hk]; rfl)
    by_cases hne : object.textContent ≠ s.text x
    · obtain ⟨node, text, object', hnode, hobject', -, hlt, hnode', htext⟩ :=
        hp.replaced k hmem x ⟨hk, object, hobject, hne⟩
      rw [hobject] at hobject'
      refine ⟨node, [text], hnode, hnode', ?_⟩
      have helement : node.type = .element := by
        have htype := h.wf.handle k x hk
        rw [hnode] at htype
        exact Option.some.inj htype
      have hx := (h.lt_next hk).trans_le hp.next
      obtain ⟨depth, hdepth⟩ : ∃ depth, t.heap.next = depth + 2 := by
        have hge : s.heap.next < t.heap.next :=
          (hp.replaced k hmem x ⟨hk, object, hobject, hne⟩).elim
            fun _ ⟨_, _, _, _, hge, hlt, _⟩ => hge.trans_lt hlt
        have hpos := (Nat.zero_le x).trans_lt (h.lt_next hk)
        exact Nat.exists_eq_add_of_le' ((Nat.succ_le_succ hpos).trans hge)
      rw [HostState.text, hdepth, nodeText_singleton hnode' helement htext rfl rfl,
        Option.some.inj hobject']
    · have heq : object.textContent = s.text x := not_not.mp hne
      have hsubtree := hp.subtree h hisolated hk fun k' _ hchanges => by
        obtain ⟨hk', object', hobject', hne'⟩ := hchanges
        rw [h.table.inj k' k x hk' hk, hobject] at hobject'
        rw [← Option.some.inj hobject'] at hne'
        exact hne hne'
      obtain ⟨node, hnode⟩ := Option.isSome_iff_exists.mp (h.isSome hk)
      refine ⟨node, node.children, hnode, (hsubtree x (Or.inl rfl)).trans hnode, ?_⟩
      rw [heq]
      exact text_eq_of_subtree h.forest (h.isSome hk) hp.next hsubtree
  · exact hp.kept y (h.forest.lt_next hy) fun k _ x hchanges =>
      hnone k (h.mem_of_changes hchanges) x hchanges.1

end Pass

/-! ## Changes that are not isolated -/

/-- Some order of the map starts with the given handles. -/
theorem exists_listsHandles {doc : Document} {assigned : List HandleId} {s : HostState}
    (h : TextRun doc assigned s) {first : List HandleId} (hnodup : first.Nodup)
    (hfirst : ∀ k ∈ first, (s.host.nodeByHandle k).isSome) :
    ∃ rest, ListsHandles s (first ++ rest) := by
  refine ⟨(List.range s.nextHandle).filter fun k =>
    decide ((s.host.nodeByHandle k).isSome ∧ k ∉ first), ?_, fun k => ?_⟩
  · refine List.Nodup.append hnodup (List.nodup_range.filter _) fun k hk hk' => ?_
    exact (of_decide_eq_true (List.mem_filter.mp hk').2).2 hk
  · rw [List.mem_append, List.mem_filter, List.mem_range, decide_eq_true_eq]
    constructor
    · rintro (hk | hk)
      · exact hfirst k hk
      · exact hk.2.1
    · intro hk
      by_cases hmem : k ∈ first
      · exact Or.inl hmem
      · obtain ⟨x, hx⟩ := Option.isSome_iff_exists.mp hk
        exact Or.inr ⟨h.table.lt k x hx, hk, hmem⟩

section NotIsolated

variable {doc : Document} {assigned : List HandleId} {s : HostState}
  (h : TextRun doc assigned s)

include h

/-- The first round of a pass that starts with a changed text. -/
theorem applyHandle_of_changes {k : HandleId} {x : NodeId} (hchanges : Changes s k x) :
    ∃ object, s.handles k = some object ∧ object.textContent ≠ s.text x ∧
      applyHandle s k = some { s with heap := setNodeText s.heap x object.textContent } := by
  obtain ⟨hx, object, hobject, hne⟩ := hchanges
  refine ⟨object, hobject, hne, ?_⟩
  rw [applyHandle, hx, hobject]
  dsimp only
  rw [if_pos (h.isSome hx), if_pos hne]

/-- A handle below a changed text is left dangling by the pass that starts with the change. -/
theorem not_isAncestor_of_appliesTexts
    (happlies : ∀ order, ListsHandles s order → AppliesTexts assigned s order)
    {k k' : HandleId} {x y : NodeId} (hchanges : Changes s k x)
    (hy : s.host.nodeByHandle k' = some y) : ¬ IsAncestor s.heap.parentOf x y := by
  intro hxy
  obtain ⟨object, hobject, hne, happly⟩ := applyHandle_of_changes h hchanges
  obtain ⟨rest, horder⟩ := exists_listsHandles h (List.nodup_singleton k) fun k₁ hk₁ => by
    rw [List.mem_singleton.mp hk₁, hchanges.1]
    rfl
  obtain ⟨t, ht, hlive⟩ := (happlies _ horder).1 [k] (List.prefix_append _ _)
  rw [applyTextContent, List.foldlM_cons, happly] at ht
  have hheap : t = { s with heap := setNodeText s.heap x object.textContent } :=
    (Option.some.inj ht).symm
  rw [hheap] at hlive
  have hdead := hlive k' y hy
  dsimp only at hdead
  rw [nodes_setNodeText (h.lt_next hchanges.1), if_neg (Nat.ne_of_lt (h.lt_next hy)), if_pos] at hdead
  · exact Bool.false_ne_true hdead
  · exact (h.forest.mem_below_iff (Nat.le_refl _) (h.isSome hchanges.1)).mpr hxy

/-! ### A handle above a changed text -/

section Above

variable {k k' : HandleId} {x y : NodeId} (hx : s.host.nodeByHandle k = some x)
  (hy : s.host.nodeByHandle k' = some y) (hyx : IsAncestor s.heap.parentOf y x) (text : Bytes)

include hx

/-- Setting the text of a node leaves alone what is not below it. -/
theorem nodes_setNodeText_of_not_below {z : NodeId} (hlive : (s.heap.nodes z).isSome)
    (hz : ¬(z = x ∨ IsAncestor s.heap.parentOf x z)) :
    (setNodeText s.heap x text).nodes z = s.heap.nodes z := by
  rw [nodes_setNodeText (h.lt_next hx), if_neg (Nat.ne_of_lt (h.forest.lt_next hlive)), if_neg,
    if_neg fun heq => hz (Or.inl heq)]
  rw [h.forest.mem_below_iff (Nat.le_refl _) (h.isSome hx)]
  exact fun hxz => hz (Or.inr hxz)

theorem nodes_setNodeText_of_isAncestor {z : NodeId} (hzx : IsAncestor s.heap.parentOf z x) :
    (setNodeText s.heap x text).nodes z = s.heap.nodes z := by
  refine nodes_setNodeText_of_not_below h hx text ?_ fun hz => ?_
  · obtain ⟨m, hm⟩ := h.forest.reach_of_isAncestor hzx
    cases hm with
    | child hc _ => exact Heap.isSome_of_mem_childrenOf hc
  · rcases hz with rfl | hxz
    · exact h.forest.acyclic _ hzx
    · exact h.forest.acyclic _ (hzx.trans hxz)

/-- The text of the node itself is then the new one, at every depth that reaches its child. -/
theorem nodeText_setNodeText_self (depth : ℕ) :
    nodeText (setNodeText s.heap x text) (depth + 2) x = text := by
  obtain ⟨node, hnode⟩ := Option.isSome_iff_exists.mp (h.isSome hx)
  have helement : node.type = .element := by
    have htype := h.wf.handle k x hx
    rw [hnode] at htype
    exact Option.some.inj htype
  have hself : (setNodeText s.heap x text).nodes x = some { node with children := [s.heap.next] } := by
    rw [nodes_setNodeText (h.lt_next hx), if_neg (Nat.ne_of_lt (h.lt_next hx)), if_neg, if_pos rfl,
      hnode, Option.map_some]
    rw [h.forest.mem_below_iff (Nat.le_refl _) (h.isSome hx)]
    exact h.forest.acyclic x
  have hchild : (setNodeText s.heap x text).nodes s.heap.next =
      some { type := .text, data := text, parent := some x } := by
    rw [nodes_setNodeText (h.lt_next hx), if_pos rfl]
  exact nodeText_singleton hself helement hchild rfl rfl depth

include hy hyx

/-- The text of a node above it changes with it. -/
theorem text_ne_of_isAncestor (htext : text ≠ s.text x) :
    s.text y ≠ nodeText (setNodeText s.heap x text) (s.heap.next + 1) y := by
  obtain ⟨n, hreach⟩ := h.forest.reach_of_isAncestor hyx
  obtain ⟨depth, hdepth⟩ :=
    Nat.exists_eq_add_of_lt (h.forest.lt_next_of_reach hreach (h.isSome hy))
  -- what is in front of the text and behind it stays
  obtain ⟨front, back, hs, ht⟩ := exists_nodeText_split h.forest hreach
    (fun z hlive hz => nodes_setNodeText_of_not_below h hx text hlive hz) (depth + 2)
  have hsize : depth + 2 + (n + 1) = s.heap.next + 1 := by
    rw [hdepth]
    ring
  rw [hsize] at hs ht
  have hsx : nodeText s.heap (depth + 2) x = s.text x := by
    refine (nodeText_eq_of_le (fun m b hm => ?_) ?_).symm
    · have hle := h.forest.lt_next_of_reach (hreach.trans hm) (h.isSome hy)
      rw [hdepth] at hle
      omega
    · rw [hdepth]
      omega
  have hsy : nodeText s.heap (s.heap.next + 1) y = s.text y :=
    nodeText_eq_of_le (fun m b hm => h.forest.lt_next_of_reach hm (h.isSome hy)) (Nat.le_succ _)
  rw [hsy, hsx] at hs
  rw [ht, hs, nodeText_setNodeText_self h hx text]
  intro heq
  exact htext (List.append_cancel_left (List.append_cancel_right heq)).symm

/-- Setting the text of that node then destroys it. -/
theorem nodes_setNodeText_setNodeText (text' : Bytes) :
    (setNodeText (setNodeText s.heap x text) y text').nodes x = none := by
  obtain ⟨n, hreach⟩ := h.forest.reach_of_isAncestor hyx
  have hnext : (setNodeText s.heap x text).next = s.heap.next + 1 := rfl
  have hlt := h.forest.lt_next_of_reach hreach (h.isSome hy)
  have hylt : y < (setNodeText s.heap x text).next := (h.lt_next hy).trans_le (Nat.le_succ _)
  have hxlt : x < (setNodeText s.heap x text).next := (h.lt_next hx).trans_le (Nat.le_succ _)
  rw [nodes_setNodeText hylt, if_neg (Nat.ne_of_lt hxlt), if_pos]
  rw [Heap.Forest.mem_below_iff_reach, hnext]
  refine ⟨n, (Nat.lt_of_succ_lt hlt).trans (Nat.lt_succ_self _), ?_⟩
  refine h.forest.reach_congr hreach fun z hz => ?_
  rw [Heap.childrenOf, Heap.childrenOf, nodes_setNodeText_of_isAncestor h hx text hz]

end Above

/-- A handle above a changed text writes the old text back if it comes after the change. -/
theorem not_isAncestor_of_appliesTexts'
    (happlies : ∀ order, ListsHandles s order → AppliesTexts assigned s order)
    {k k' : HandleId} {x y : NodeId} (hchanges : Changes s k x)
    (hy : s.host.nodeByHandle k' = some y) (hnot : k' ∉ assigned) :
    ¬ IsAncestor s.heap.parentOf y x := by
  intro hyx
  have hne : k ≠ k' := by
    rintro rfl
    exact hnot (h.mem_of_changes hchanges)
  obtain ⟨object, hobject, htext, happly⟩ := applyHandle_of_changes h hchanges
  obtain ⟨object', hobject', hsnapshot⟩ := h.table.object k' y hy
  -- the second round sets the text that the node above has had before the first one
  let changed := setNodeText s.heap x object.textContent
  have happly' : applyHandle { s with heap := changed } k' =
      some { s with heap := setNodeText changed y object'.textContent } := by
    have hchanged : object'.textContent ≠ nodeText changed (s.heap.next + 1) y := by
      rw [(hsnapshot hnot).trans (h.texts.text_eq y).symm]
      exact text_ne_of_isAncestor h hchanges.1 hy hyx _ htext
    rw [applyHandle]
    dsimp only
    rw [hy, hobject']
    dsimp only
    rw [nodes_setNodeText_of_isAncestor h hchanges.1 _ hyx, if_pos (h.isSome hy)]
    exact if_pos hchanged
  obtain ⟨rest, horder⟩ := exists_listsHandles h
    (List.nodup_cons.mpr ⟨fun hmem => hne (List.mem_singleton.mp hmem), List.nodup_singleton k'⟩)
    (by
      intro k₁ hk₁
      rcases List.mem_cons.mp hk₁ with rfl | hk₁
      · rw [hchanges.1]
        rfl
      · rw [List.mem_singleton.mp hk₁, hy]
        rfl)
  obtain ⟨u, hu, hlive⟩ := (happlies _ horder).1 [k, k'] (List.prefix_append _ _)
  rw [applyTextContent, List.foldlM_cons, happly] at hu
  change applyHandle _ k' >>= _ = some u at hu
  rw [happly'] at hu
  rw [← Option.some.inj hu] at hlive
  have hdead := hlive k x hchanges.1
  dsimp only at hdead
  rw [nodes_setNodeText_setNodeText h hchanges.1 hy hyx] at hdead
  exact Bool.false_ne_true hdead

end NotIsolated

/-- **The scripts' text changes are applied, in every order of the handle map, exactly if every
assigned node whose text changes has no node of a handle above or below it.** -/
theorem appliesTexts_iff_isolated (doc : Document) (calls : List TextCall)
    (hrun : Runs.Along textStep (TextAllowed doc) (HostState.start doc) calls)
    (hunrelated : ∀ k ∈ assignedHandles calls, ∀ k' ∈ assignedHandles calls, ∀ x y,
      (calls.foldl textStep (HostState.start doc)).host.nodeByHandle k = some x →
      (calls.foldl textStep (HostState.start doc)).host.nodeByHandle k' = some y →
      ¬ IsAncestor (calls.foldl textStep (HostState.start doc)).heap.parentOf x y) :
    (∀ order, ListsHandles (calls.foldl textStep (HostState.start doc)) order →
      AppliesTexts (assignedHandles calls) (calls.foldl textStep (HostState.start doc)) order) ↔
      ∀ k x, Changes (calls.foldl textStep (HostState.start doc)) k x →
        Isolated (calls.foldl textStep (HostState.start doc)) x := by
  have h := textRun_run hrun
  constructor
  · intro happlies k x hchanges k' y hy
    refine ⟨fun hyx => ?_, not_isAncestor_of_appliesTexts h happlies hchanges hy⟩
    by_cases hassigned : k' ∈ assignedHandles calls
    · exact hunrelated k' hassigned k (h.mem_of_changes hchanges) y x hy hchanges.1 hyx
    · exact not_isAncestor_of_appliesTexts' h happlies hchanges hy hassigned hyx
  · intro hisolated order horder
    have hpass : ∀ visited, visited <+: order →
        ∃ t, applyTextContent (calls.foldl textStep (HostState.start doc)) visited = some t ∧
          Progress (calls.foldl textStep (HostState.start doc)) visited t := by
      intro visited hbegin
      exact progress_apply h hisolated (horder.1.sublist hbegin.sublist) fun k hk =>
        (horder.2 k).mp (hbegin.subset hk)
    refine ⟨fun visited hbegin => ?_, ?_⟩
    · obtain ⟨t, ht, hp⟩ := hpass visited hbegin
      exact ⟨t, ht, hp.handlesLive h hisolated⟩
    · obtain ⟨t, ht, hp⟩ := hpass order (List.prefix_refl order)
      exact ⟨t, ht, hp.textReplaced h hisolated fun k hk => (horder.2 k).mpr hk⟩

/-- `<p>a</p>`. -/
def paragraph : Document :=
  chain { type := .element, name := lit "p" } { type := .text, data := lit "a" }

/-- The text of `<p>a</p>` is replaced. -/
theorem appliesTexts_paragraph :
    assignedHandles [TextCall.assign 0 (lit "b")] = [0] ∧ ∀ order,
      ListsHandles ([TextCall.assign 0 (lit "b")].foldl textStep (HostState.start paragraph))
        order → AppliesTexts [0]
          ([TextCall.assign 0 (lit "b")].foldl textStep (HostState.start paragraph)) order := by
  have hnode : ∀ k x, ([TextCall.assign 0 (lit "b")].foldl textStep
      (HostState.start paragraph)).host.nodeByHandle k = some x → x = 1 := by
    intro k x hk
    change Function.update (fun _ => none) 0 (some 1) k = some x at hk
    rcases k with _ | k
    · exact (Option.some.inj hk).symm
    · cases hk
  have hacyclic : ¬ IsAncestor paragraph.heap.parentOf 1 1 := paragraph.acyclic 1
  refine ⟨rfl,
    (appliesTexts_iff_isolated paragraph [.assign 0 (lit "b")] ⟨trivial, trivial⟩ ?_).mpr ?_⟩
  · intro k _ k' _ x y hx hy
    rw [hnode k x hx, hnode k' y hy]
    exact hacyclic
  · intro k x hx k' y hy
    rw [hnode k x hx.1, hnode k' y hy]
    exact ⟨hacyclic, hacyclic⟩

/-- Assigning to the `p` of `<div><p></p></div>` destroys it when the `div` is visited next. -/
theorem not_appliesTexts_nested :
    ¬ ∀ (doc : Document) (calls : List TextCall),
      Runs.Along textStep (TextAllowed doc) (HostState.start doc) calls →
      (∀ k ∈ assignedHandles calls, ∀ k' ∈ assignedHandles calls, ∀ x y,
        (calls.foldl textStep (HostState.start doc)).host.nodeByHandle k = some x →
        (calls.foldl textStep (HostState.start doc)).host.nodeByHandle k' = some y →
        ¬ IsAncestor (calls.foldl textStep (HostState.start doc)).heap.parentOf x y) →
      ∀ order, ListsHandles (calls.foldl textStep (HostState.start doc)) order →
        AppliesTexts (assignedHandles calls) (calls.foldl textStep (HostState.start doc)) order := by
  intro happlies
  have horder : ListsHandles ([TextCall.assign 1 (lit "a")].foldl textStep
      (HostState.start nested)) [1, 0] := by
    refine ⟨by decide, fun k => ?_⟩
    rcases k with _ | _ | k
    · decide
    · decide
    · refine iff_of_false (fun hk => ?_) (fun hk => nomatch hk)
      rcases List.mem_cons.mp hk with hk | hk
      · cases hk
      · exact nomatch List.mem_singleton.mp hk
  have hdead : (applyTextContent ([TextCall.assign 1 (lit "a")].foldl textStep
      (HostState.start nested)) [1, 0]).map (fun t => (t.host.nodeByHandle 1, t.heap.nodes 2)) =
        some (some 2, none) := by decide
  obtain ⟨t, ht, hlive⟩ := (happlies nested [.assign 1 (lit "a")] ⟨trivial, trivial⟩
    (by
      intro k hk k' hk' x y hx hy
      rw [List.mem_singleton.mp hk] at hx
      rw [List.mem_singleton.mp hk'] at hy
      rw [← Option.some.inj hx, ← Option.some.inj hy]
      exact nested.acyclic 2)
    [1, 0] horder).1 [1, 0] (List.prefix_refl _)
  rw [ht, Option.map_some, Option.some.injEq, Prod.mk.injEq] at hdead
  have hsome := hlive 1 2 hdead.1
  rw [hdead.2] at hsome
  exact Bool.false_ne_true hsome

end Aetheris.Dom
