import Aetheris.Dom.Forest
import Aetheris.Dom.Ownership

/-!
# Applying the scripts' text changes

Scripts write `textContent` on their handles only; once they are done `apply_text_content` of
`main.cpp` goes through the handle map, compares the text of each handle with the text below its
node, and where they differ replaces the node's children by one text node.  The map is ordered by
the addresses of the handles, so its order is arbitrary: the pass takes it as a list.  The replaced
children are destroyed with everything below them; a later visit of the handle of a destroyed node
reads freed memory, and the pass has no result then.

`TextRun` says what the tables are like after a run that appends only elements it has created: in
order, with the parsed texts, and the handles that were not assigned still hold them.  It is proved
by induction on the calls, and is what the pass starts from.
-/

namespace Aetheris.Dom

open Ancestry

/-! ## The pass -/

/-- `set_node_text`. -/
def setNodeText (h : Heap) (id : NodeId) (text : Bytes) : Heap :=
  let destroyed := h.below h.next id
  let cleared : Heap := { h with nodes := fun x => if x ∈ destroyed then none else h.nodes x }
  let emptied := cleared.modify id fun node => { node with children := [] }
  (emptied.alloc { type := .text, data := text }).appendChild id h.next

/-- `node_text`. -/
def HostState.text (s : HostState) (id : NodeId) : Bytes := nodeText s.heap s.heap.next id

/-- One round of `apply_text_content`. -/
def applyHandle (s : HostState) (handle : HandleId) : Option HostState :=
  match s.host.nodeByHandle handle, s.handles handle with
  | some id, some object =>
    if (s.heap.nodes id).isSome then
      if object.textContent ≠ s.text id then
        some { s with heap := setNodeText s.heap id object.textContent }
      else some s
    else none
  | _, _ => some s

/-- `apply_text_content`, for the handles in the order of the map. -/
def applyTextContent (s : HostState) (handles : List HandleId) : Option HostState :=
  handles.foldlM applyHandle s

/-- A call of a script, or an assignment of `textContent`. -/
inductive TextCall where
  | call (c : ScriptCall)
  | assign (handle : HandleId) (text : Bytes)
  deriving DecidableEq, Repr

def textStep (s : HostState) : TextCall → HostState
  | .call c => scriptStep s c
  | .assign handle text =>
    { s with
      handles := Function.update s.handles handle
        ((s.handles handle).map fun object => { object with textContent := text }) }

/-- The handles that a run assigns a text to. -/
def assignedHandles (calls : List TextCall) : List HandleId :=
  calls.filterMap fun
    | .call _ => none
    | .assign handle _ => some handle

/-! ## What `set_node_text` changes -/

theorem Heap.forest_of_ownership {s : HostState} (hown : Ownership s) (hwf : HostWf s) :
    s.heap.Forest :=
  ⟨hwf.fresh, hown.link_iff, hown.childrenNodup, hown.acyclic⟩

theorem Document.forest (doc : Document) : doc.heap.Forest :=
  ⟨doc.fresh, doc.link_iff, doc.nodup, doc.acyclic⟩

theorem nodes_setNodeText {h : Heap} {id : NodeId} (hid : id < h.next) (text : Bytes)
    (x : NodeId) :
    (setNodeText h id text).nodes x =
      if x = h.next then some { type := .text, data := text, parent := some id }
      else if x ∈ h.below h.next id then none
      else if x = id then (h.nodes x).map fun node => { node with children := [h.next] }
      else h.nodes x := by
  have hne : h.next ≠ id := Nat.ne_of_gt hid
  rw [setNodeText, Heap.appendChild]
  generalize hcleared : ({ h with nodes := fun x => if x ∈ h.below h.next id then none else h.nodes x }
    : Heap) = cleared
  have hnext : cleared.next = h.next := by rw [← hcleared]
  have hnodes : ∀ y, cleared.nodes y = if y ∈ h.below h.next id then none else h.nodes y := by
    intro y
    rw [← hcleared]
  have hadded : ∀ y, ((cleared.modify id fun node => { node with children := [] }).alloc
      { type := .text, data := text }).nodes y =
        if y = h.next then some { type := .text, data := text }
        else if y = id then (cleared.nodes y).map fun node => { node with children := [] }
        else cleared.nodes y := by
    intro y
    rw [Heap.nodes_alloc, Heap.next_modify, hnext, Heap.nodes_modify]
  rw [Heap.nodes_modify, Heap.nodes_modify, hadded]
  by_cases hx : x = h.next
  · rw [if_neg (hx ▸ hne), if_pos hx, if_pos hx, if_pos hx]
    rfl
  · rw [if_neg hx, if_neg hx, if_neg hx, hnodes]
    by_cases hxid : x = id
    · rw [if_pos hxid, if_pos hxid, if_pos hxid]
      by_cases hmem : x ∈ h.below h.next id
      · rw [if_pos hmem, if_pos hmem]
        rfl
      · rw [if_neg hmem, if_neg hmem, Option.map_map]
        rfl
    · rw [if_neg hxid, if_neg hxid, if_neg hxid]

/-! ## What a run leaves in the tables -/

/-- The handles: each has its own node, and those that no text has been assigned to hold the text
`original` of their nodes. -/
structure HandleTable (original : NodeId → Bytes) (assigned : List HandleId) (s : HostState) :
    Prop where
  lt : ∀ k x, s.host.nodeByHandle k = some x → k < s.nextHandle
  inj : ∀ k k' x, s.host.nodeByHandle k = some x → s.host.nodeByHandle k' = some x → k = k'
  object : ∀ k x, s.host.nodeByHandle k = some x →
    ∃ object, s.handles k = some object ∧ (k ∉ assigned → object.textContent = original x)

theorem HandleTable.handleFor {original : NodeId → Bytes} {assigned : List HandleId}
    {s : HostState} (h : HandleTable original assigned s) {x : NodeId}
    (hnew : ∀ k, s.host.nodeByHandle k ≠ some x) (htext : s.text x = original x) :
    HandleTable original assigned (Dom.handleFor s x) := by
  have hcases : ∀ k y, (Dom.handleFor s x).host.nodeByHandle k = some y →
      k = s.nextHandle ∧ y = x ∨ k ≠ s.nextHandle ∧ s.host.nodeByHandle k = some y := by
    intro k y hk
    change Function.update s.host.nodeByHandle s.nextHandle (some x) k = some y at hk
    by_cases hkn : k = s.nextHandle
    · rw [hkn, Function.update_self] at hk
      exact Or.inl ⟨hkn, (Option.some.inj hk).symm⟩
    · rw [Function.update_of_ne hkn] at hk
      exact Or.inr ⟨hkn, hk⟩
  refine ⟨fun k y hk => ?_, fun k k' y hk hk' => ?_, fun k y hk => ?_⟩
  · change k < s.nextHandle + 1
    rcases hcases k y hk with ⟨rfl, -⟩ | ⟨-, hk⟩
    · exact Nat.lt_succ_self _
    · exact (h.lt k y hk).trans (Nat.lt_succ_self _)
  · rcases hcases k y hk with ⟨rfl, rfl⟩ | ⟨hne, hk⟩
    · rcases hcases k' y hk' with ⟨rfl, -⟩ | ⟨-, hk'⟩
      · rfl
      · exact absurd hk' (hnew k')
    · rcases hcases k' y hk' with ⟨-, heq⟩ | ⟨-, hk'⟩
      · rw [heq] at hk
        exact absurd hk (hnew k)
      · exact h.inj k k' y hk hk'
  · change ∃ object, Function.update s.handles s.nextHandle _ k = some object ∧ _
    rcases hcases k y hk with ⟨rfl, rfl⟩ | ⟨hne, hk⟩
    · rw [Function.update_self]
      exact ⟨_, rfl, fun _ => htext⟩
    · rw [Function.update_of_ne hne]
      exact h.object k y hk

/-- The elements of a subtree get their handles in the order of the document. -/
theorem buildHandles_eq_foldl (depth : ℕ) (s : HostState) (x : NodeId) :
    buildHandles (depth + 1) s x =
      ((x :: s.heap.below depth x).filter fun y =>
        (s.heap.nodes y).map (·.type) = some .element).foldl handleFor s := by
  have hheap : ∀ (l : List NodeId) (s : HostState), (l.foldl handleFor s).heap = s.heap := by
    intro l
    induction l with
    | nil => exact fun s => rfl
    | cons y l ih =>
      intro s
      rw [List.foldl_cons, ih]
      rfl
  induction depth generalizing s x with
  | zero =>
    rw [buildHandles, Heap.below]
    have hnil : ∀ (l : List NodeId) (s : HostState), l.foldl (buildHandles 0) s = s := by
      intro l
      induction l with
      | nil => exact fun s => rfl
      | cons y l ih => exact fun s => ih s
    rw [hnil]
    by_cases hx : (s.heap.nodes x).map (·.type) = some .element
    · rw [if_pos hx, List.filter_cons, if_pos (decide_eq_true hx)]
      rfl
    · rw [if_neg hx, List.filter_cons, if_neg (by rw [decide_eq_true_eq]; exact hx)]
      rfl
  | succ depth ih =>
    have hfold : ∀ (l : List NodeId) (t : HostState), t.heap = s.heap →
        l.foldl (buildHandles (depth + 1)) t =
          ((l.flatMap fun child => child :: s.heap.below depth child).filter fun y =>
            (s.heap.nodes y).map (·.type) = some .element).foldl handleFor t := by
      intro l
      induction l with
      | nil => exact fun t _ => rfl
      | cons c l ihl =>
        intro t ht
        rw [List.foldl_cons, ih, ihl _ ((hheap _ _).trans ht), List.flatMap_cons,
          List.filter_append, List.foldl_append, ht]
    rw [buildHandles, Heap.below]
    by_cases hx : (s.heap.nodes x).map (·.type) = some .element
    · rw [if_pos hx, List.filter_cons, if_pos (decide_eq_true hx), List.foldl_cons]
      exact hfold _ _ rfl
    · rw [if_neg hx, List.filter_cons, if_neg (by rw [decide_eq_true_eq]; exact hx)]
      exact hfold _ _ rfl

/-- The handles of a freshly parsed document hold the texts of their nodes. -/
theorem handleTable_start (doc : Document) :
    HandleTable (nodeText doc.heap doc.heap.next) [] (HostState.start doc) := by
  have hfold : ∀ (l : List NodeId) (s : HostState), s.heap = doc.heap → l.Nodup →
      (∀ x ∈ l, ∀ k, s.host.nodeByHandle k ≠ some x) →
      HandleTable (nodeText doc.heap doc.heap.next) [] s →
      HandleTable (nodeText doc.heap doc.heap.next) [] (l.foldl handleFor s) := by
    intro l
    induction l with
    | nil => exact fun s _ _ _ h => h
    | cons x l ih =>
      intro s hheap hnodup hnew h
      rw [List.nodup_cons] at hnodup
      have htext : s.text x = nodeText doc.heap doc.heap.next x := by rw [HostState.text, hheap]
      refine ih (handleFor s x) hheap hnodup.2 (fun y hy k hk => ?_)
        (h.handleFor (hnew x List.mem_cons_self) htext)
      change Function.update s.host.nodeByHandle s.nextHandle (some x) k = some y at hk
      by_cases hkn : k = s.nextHandle
      · rw [hkn, Function.update_self] at hk
        rw [Option.some.inj hk] at hnodup
        exact hnodup.1 hy
      · rw [Function.update_of_ne hkn] at hk
        exact hnew y (List.mem_cons_of_mem _ hy) k hk
  obtain ⟨depth, hdepth⟩ := Nat.exists_eq_succ_of_ne_zero
    (Nat.ne_of_gt ((Nat.zero_le _).trans_lt (doc.lt_next doc.isSome_root)))
  have hstart := buildHandles_eq_foldl depth
    { root := doc.root
      heap := doc.heap
      host := { parentOf := collect doc.heap doc.heap.next doc.root fun _ => none } } doc.root
  rw [← Nat.succ_eq_add_one, ← hdepth] at hstart
  rw [HostState.start]
  refine hstart ▸ hfold _ _ rfl ((doc.forest.nodup_below depth doc.root).filter _) ?_ ?_
  · exact fun x _ k hk => nomatch hk
  · exact ⟨fun k x hk => (nomatch hk), fun k k' x hk => (nomatch hk), fun k x hk => (nomatch hk)⟩

/-- The document is as it was parsed, but for created elements in it, which have no text. -/
structure OldTexts (doc : Document) (s : HostState) : Prop where
  le_next : doc.heap.next ≤ s.heap.next
  old : ∀ x, x < doc.heap.next → ownText s.heap x = ownText doc.heap x ∧
    (s.heap.childrenOf x).filter (· < doc.heap.next) = doc.heap.childrenOf x
  created : ∀ x, doc.heap.next ≤ x → ownText s.heap x = [] ∧
    ∀ c ∈ s.heap.childrenOf x, doc.heap.next ≤ c

theorem nodeText_of_none {h : Heap} {x : NodeId} (hx : h.nodes x = none) (depth : ℕ) :
    nodeText h depth x = [] := by
  cases depth with
  | zero => rfl
  | succ depth => rw [nodeText_succ, ownText, hx, Heap.childrenOf_of_none hx]; rfl

theorem OldTexts.nodeText_eq {doc : Document} {s : HostState} (h : OldTexts doc s) (depth : ℕ)
    (x : NodeId) : nodeText s.heap depth x = nodeText doc.heap depth x := by
  induction depth generalizing x with
  | zero => rfl
  | succ depth ih =>
    by_cases hx : x < doc.heap.next
    · obtain ⟨hown, hchildren⟩ := h.old x hx
      rw [nodeText_succ, nodeText_succ, hown, ← hchildren]
      congr 1
      induction s.heap.childrenOf x with
      | nil => rfl
      | cons c l ihl =>
        rw [List.flatMap_cons, List.filter_cons, ihl]
        by_cases hc : c < doc.heap.next
        · rw [if_pos (decide_eq_true hc), List.flatMap_cons, ih]
        · rw [if_neg (by rw [decide_eq_true_eq]; exact hc), ih,
            nodeText_of_none (doc.fresh c (Nat.not_lt.mp hc)), List.nil_append]
    · obtain ⟨hown, hchildren⟩ := h.created x (Nat.not_lt.mp hx)
      rw [nodeText_of_none (doc.fresh x (Nat.not_lt.mp hx)), nodeText_succ, hown, List.nil_append,
        List.flatMap_eq_nil_iff]
      exact fun c hc => (ih c).trans (nodeText_of_none (doc.fresh c (hchildren c hc)) depth)

/-- The texts are those of the parsed document. -/
theorem OldTexts.text_eq {doc : Document} {s : HostState} (h : OldTexts doc s) (x : NodeId) :
    s.text x = nodeText doc.heap doc.heap.next x := by
  rw [HostState.text, h.nodeText_eq]
  cases hx : doc.heap.nodes x with
  | none => rw [nodeText_of_none hx, nodeText_of_none hx]
  | some node =>
    refine nodeText_eq_of_le (fun n b hreach => doc.forest.lt_next_of_reach hreach ?_) h.le_next
    rw [hx]
    rfl

/-- **After a run that appends created elements only**, the tables are in order, the texts are
those of the parsed document, and the handles without an assignment hold them. -/
structure TextRun (doc : Document) (assigned : List HandleId) (s : HostState) : Prop where
  ownership : Ownership s
  wf : HostWf s
  texts : OldTexts doc s
  table : HandleTable (nodeText doc.heap doc.heap.next) assigned s

/-- The element that the call appends is not one of the parsed document. -/
def AppendsCreated (doc : Document) (s : HostState) : ScriptCall → Prop
  | .createElement _ => True
  | .appendChild _ argument =>
    ∀ child, s.host.nodeByHandle argument = some child → doc.heap.next ≤ child

/-- The call appends a created element to an element that is not below it, or assigns a text. -/
def TextAllowed (doc : Document) (s : HostState) : TextCall → Prop
  | .call c => StaysAbove s c ∧ AppendsCreated doc s c
  | .assign _ _ => True

theorem textRun_start (doc : Document) : TextRun doc [] (HostState.start doc) := by
  have hheap : (HostState.start doc).heap = doc.heap := by
    rw [HostState.start]
    exact (handlesBuilt_buildHandles doc.heap.next _ doc.root).heap
  obtain ⟨hown, hwf⟩ := ownership_start doc
  refine ⟨hown, hwf, ⟨?_, fun x hx => ?_, fun x hx => ?_⟩, handleTable_start doc⟩
  · rw [hheap]
  · rw [hheap]
    refine ⟨rfl, List.filter_eq_self.mpr fun c hc => decide_eq_true ?_⟩
    exact (doc.lt_of_mem x c hc).2
  · rw [hheap, Heap.childrenOf_of_none (doc.fresh x hx), ownText, doc.fresh x hx]
    exact ⟨rfl, fun c hc => absurd hc List.not_mem_nil⟩

theorem textRun_assign {doc : Document} {assigned : List HandleId} {s : HostState}
    (h : TextRun doc assigned s) (handle : HandleId) (text : Bytes) :
    TextRun doc (assigned ++ [handle]) (textStep s (.assign handle text)) where
  ownership :=
    { oneOwner := h.ownership.oneOwner
      rootUnowned := h.ownership.rootUnowned
      pendingNodup := h.ownership.pendingNodup
      childrenNodup := h.ownership.childrenNodup
      link_iff := h.ownership.link_iff
      parentOf_iff := h.ownership.parentOf_iff
      acyclic := h.ownership.acyclic }
  wf := ⟨h.wf.fresh, h.wf.rootNode, h.wf.owned, h.wf.handle⟩
  texts := ⟨h.texts.le_next, h.texts.old, h.texts.created⟩
  table := by
    refine ⟨h.table.lt, h.table.inj, fun k x hk => ?_⟩
    obtain ⟨object, hobject, htext⟩ := h.table.object k x hk
    change ∃ o, Function.update s.handles handle _ k = some o ∧ _
    by_cases hkh : k = handle
    · rw [← hkh, Function.update_self, hobject]
      refine ⟨{ object with textContent := text }, rfl, fun hnot => absurd ?_ hnot⟩
      rw [hkh]
      exact List.mem_append_right _ (List.mem_singleton_self handle)
    · rw [Function.update_of_ne hkh]
      exact ⟨object, hobject, fun hnot => htext fun hmem => hnot (List.mem_append_left _ hmem)⟩

theorem textRun_createElement {doc : Document} {assigned : List HandleId} {s : HostState}
    (h : TextRun doc assigned s) (tag : Bytes) :
    TextRun doc assigned (createElement s tag) := by
  obtain ⟨hown, hwf⟩ := ownership_createElement h.ownership h.wf tag
  have hnodes := s.heap.nodes_alloc { type := .element, name := tag }
  have hnone := h.wf.fresh s.heap.next le_rfl
  have hchildren : ∀ x, (s.heap.alloc { type := .element, name := tag }).childrenOf x =
      s.heap.childrenOf x := by
    intro x
    rw [Heap.childrenOf, Heap.childrenOf, hnodes]
    split
    · rename_i hx
      rw [hx, hnone]
      rfl
    · rfl
  have hownText : ∀ x, ownText (s.heap.alloc { type := .element, name := tag }) x =
      ownText s.heap x := by
    intro x
    rw [ownText, ownText, hnodes]
    by_cases hx : x = s.heap.next
    · rw [if_pos hx, hx, hnone]
      rfl
    · rw [if_neg hx]
  have htexts : OldTexts doc (createElement s tag) := by
    refine ⟨h.texts.le_next.trans (Nat.le_succ _), fun x hx => ?_, fun x hx => ?_⟩
    · change ownText (s.heap.alloc { type := .element, name := tag }) x = _ ∧
        ((s.heap.alloc { type := .element, name := tag }).childrenOf x).filter _ = _
      rw [hownText, hchildren]
      exact h.texts.old x hx
    · change ownText (s.heap.alloc { type := .element, name := tag }) x = _ ∧
        ∀ c ∈ (s.heap.alloc { type := .element, name := tag }).childrenOf x, _
      rw [hownText, hchildren]
      exact h.texts.created x hx
  refine ⟨hown, hwf, htexts, ?_⟩
  refine HandleTable.handleFor
    (s := { s with
      heap := s.heap.alloc { type := .element, name := tag }
      host := { s.host with pending := s.host.pending ++ [s.heap.next] } })
    ⟨h.table.lt, h.table.inj, h.table.object⟩ (fun k hk => ?_) ?_
  · have helement := h.wf.handle k _ hk
    rw [hnone] at helement
    cases helement
  · exact htexts.text_eq s.heap.next

theorem ownText_modify (h : Heap) (id : NodeId) {f : DomNode → DomNode}
    (htype : ∀ node, (f node).type = node.type) (hdata : ∀ node, (f node).data = node.data)
    (x : NodeId) : ownText (h.modify id f) x = ownText h x := by
  rw [ownText, ownText, Heap.nodes_modify]
  by_cases hx : x = id
  · rw [if_pos hx]
    cases h.nodes x with
    | none => rfl
    | some node =>
      rw [Option.map_some]
      dsimp only
      rw [htype, hdata]
  · rw [if_neg hx]

theorem ownText_adopt (s : HostState) (parent child x : NodeId) :
    ownText (adopt s parent child).heap x = ownText s.heap x := by
  have hattach : ∀ t : HostState, ownText (attach t parent child).heap x = ownText t.heap x := by
    intro t
    rw [attach]
    dsimp only
    rw [Heap.appendChild, ownText_modify, ownText_modify]
    · exact fun _ => rfl
    · exact fun _ => rfl
    · exact fun _ => rfl
    · exact fun _ => rfl
  rw [adopt]
  split
  · exact hattach _
  · split
    · rfl
    · split
      · rfl
      · rename_i hdetach
        rw [hattach]
        rw [detachChild] at hdetach
        split at hdetach
        · rw [← Option.some.inj hdetach]
          dsimp only
          rw [ownText_modify]
          · exact fun _ => rfl
          · exact fun _ => rfl
        · cases hdetach

theorem filter_erase_of_not {l : List NodeId} {n c : NodeId} (hc : n ≤ c) :
    (l.erase c).filter (· < n) = l.filter (· < n) := by
  induction l with
  | nil => rfl
  | cons y l ih =>
    rw [List.erase_cons]
    by_cases hy : y = c
    · rw [if_pos (beq_iff_eq.mpr hy), List.filter_cons, if_neg]
      rw [decide_eq_true_eq, hy]
      exact Nat.not_lt.mpr hc
    · rw [if_neg fun h => hy (beq_iff_eq.mp h), List.filter_cons, List.filter_cons, ih]

theorem textRun_appendChild {doc : Document} {assigned : List HandleId} {s : HostState}
    (h : TextRun doc assigned s) {receiver argument : HandleId}
    (hstays : StaysAbove s (.appendChild receiver argument))
    (hcreated : AppendsCreated doc s (.appendChild receiver argument)) :
    TextRun doc assigned (appendChild s receiver argument) := by
  obtain ⟨hown, hwf⟩ := (ownership_step ⟨h.ownership, h.wf⟩ _).1 hstays
  cases hr : s.host.nodeByHandle receiver with
  | none =>
    have heq : appendChild s receiver argument = s := by rw [appendChild, hr]
    rwa [heq]
  | some node =>
    cases ha : s.host.nodeByHandle argument with
    | none =>
      have heq : appendChild s receiver argument = s := by rw [appendChild, hr, ha]
      rwa [heq]
    | some child =>
      have heq : appendChild s receiver argument = adopt s node child := by
        rw [appendChild, hr, ha]
      rw [scriptStep] at hown hwf
      rw [heq] at hown hwf ⊢
      have hchild := hcreated child ha
      have hadopted := adopted_adopt h.ownership.toOwnedOnce
        (isSome_of_type (h.wf.handle _ _ hr)) (isSome_of_type (h.wf.handle _ _ ha))
        (h.wf.ne_root ha)
      have hhandles : (adopt s node child).handles = s.handles ∧
          (adopt s node child).nextHandle = s.nextHandle := by
        rw [adopt]
        split
        · exact ⟨rfl, rfl⟩
        · split
          · exact ⟨rfl, rfl⟩
          · split
            · exact ⟨rfl, rfl⟩
            · exact ⟨rfl, rfl⟩
      refine ⟨hown, hwf, ⟨hadopted.next ▸ h.texts.le_next, fun x hx => ?_, fun x hx => ?_⟩, ?_⟩
      · rw [ownText_adopt, hadopted.children, List.filter_append, filter_erase_of_not hchild]
        refine ⟨(h.texts.old x hx).1, ?_⟩
        rw [(h.texts.old x hx).2]
        have hnil : (if x = node then [child] else []).filter (fun c => decide (c < doc.heap.next)) =
            [] := by
          refine List.filter_eq_nil_iff.mpr fun c hc => ?_
          split at hc
          · rw [List.mem_singleton.mp hc, decide_eq_true_eq]
            exact Nat.not_lt.mpr hchild
          · exact absurd hc List.not_mem_nil
        rw [hnil, List.append_nil]
      · rw [ownText_adopt, hadopted.children]
        refine ⟨(h.texts.created x hx).1, fun c hc => ?_⟩
        rcases List.mem_append.mp hc with hc | hc
        · exact (h.texts.created x hx).2 c (List.mem_of_mem_erase hc)
        · split at hc
          · rwa [List.mem_singleton.mp hc]
          · exact absurd hc List.not_mem_nil
      · refine ⟨?_, ?_, ?_⟩
        · rw [hadopted.handle, hhandles.2]
          exact h.table.lt
        · rw [hadopted.handle]
          exact h.table.inj
        · rw [hadopted.handle, hhandles.1]
          exact h.table.object

/-- One call. -/
theorem textRun_step {doc : Document} {assigned : List HandleId} {s : HostState}
    (h : TextRun doc assigned s) {c : TextCall} (hc : TextAllowed doc s c) :
    TextRun doc (assigned ++ assignedHandles [c]) (textStep s c) := by
  cases c with
  | call c =>
    rw [assignedHandles, List.filterMap_cons_none rfl, List.filterMap_nil, List.append_nil]
    cases c with
    | createElement tag => exact textRun_createElement h tag
    | appendChild receiver argument => exact textRun_appendChild h hc.1 hc.2
  | assign handle text => exact textRun_assign h handle text

/-- **A whole run**, by induction on its calls. -/
theorem textRun_run {doc : Document} {calls : List TextCall}
    (hrun : Runs.Along textStep (TextAllowed doc) (HostState.start doc) calls) :
    TextRun doc (assignedHandles calls) (calls.foldl textStep (HostState.start doc)) := by
  suffices hfold : ∀ (calls : List TextCall) (assigned : List HandleId) (s : HostState),
      TextRun doc assigned s → Runs.Along textStep (TextAllowed doc) s calls →
      TextRun doc (assigned ++ assignedHandles calls) (calls.foldl textStep s) by
    exact hfold calls [] _ (textRun_start doc) hrun
  intro calls
  induction calls with
  | nil =>
    intro assigned s h _
    rw [assignedHandles, List.filterMap_nil, List.append_nil]
    exact h
  | cons c calls ih =>
    intro assigned s h hrun
    have hstep := ih _ _ (textRun_step h hrun.1) hrun.2
    rwa [List.append_assoc, assignedHandles, assignedHandles, ← List.filterMap_append] at hstep

end Aetheris.Dom
