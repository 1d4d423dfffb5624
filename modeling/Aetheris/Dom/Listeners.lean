import Aetheris.Dom.Runtime
import Aetheris.Library.Runs

/-!
# The listeners of a document

The table of the listeners is never pruned.  So a node with listeners must not be destroyed: else
its address remains a key, and a new node at the address has the listeners of the old one.  And no
listener must be added to a vector while a dispatch runs through it: if the vector moves, the
function that runs is destroyed, and if it does not, the loop still compares with an end that is not
valid any more, unless the default is prevented before.  Otherwise a dispatch calls the listeners
that it found.

`Works` says what is expected of the table and of the dispatches, `Respects` is the condition for a
step on the state in front of it, and `Consistent` is the invariant that the steps keep under the
condition.  It has a case for each position of a dispatch: at a pointer all listeners that are due
have been called, and in a listener those before it.
-/

namespace Aetheris.Dom

open Ancestry

variable {L : Type}

/-! ## What is expected -/

/-- From one pointer to another, by the parents that the nodes had when they were reached. -/
def Leads : Option NodeId → List (Reached L) → Option NodeId → Prop
  | start, [], stop => start = stop
  | start, r :: rs, stop => start = some r.node ∧ Leads r.parent rs stop

namespace Dispatch

variable (d : Dispatch L)

/-- The listeners of the nodes that have been reached, as they were registered then. -/
def due : List L := d.reached.flatMap Reached.listeners

/-- The listeners that have returned. -/
def done : List L := d.calls.map Prod.fst

/-- The node of the loops. -/
def node : Option NodeId :=
  match d.position with
  | .atNode n => n
  | .inListener n _ _ _ => some n

/-- The listener that has not returned. -/
def running : List L :=
  match d.position with
  | .atNode _ => []
  | .inListener _ _ l _ => [l]

/-- A dispatch that has not returned: it goes from the target upwards over nodes that are there,
and has called the listeners of these in order, of which none has prevented the default. -/
structure OnTheWay (h : Heap) : Prop where
  path : ∃ stop, Leads d.target d.reached stop
  node : ∀ n, d.node = some n → (h.nodes n).isSome
  called : d.done ++ d.running <+: d.due
  goesOn : ∀ c ∈ d.calls, c.2 = false

/-- A dispatch that has returned: no listener but the last has prevented the default, and if that
has not either, all listeners of all nodes up to one without a parent have been called. -/
structure Exact : Prop where
  path : ∃ stop, Leads d.target d.reached stop
  called : d.done <+: d.due
  stops : ∀ c ∈ d.calls.dropLast, c.2 = false
  all : (∀ c ∈ d.calls, c.2 = false) → Leads d.target d.reached none ∧ d.done = d.due

end Dispatch

namespace DocumentRuntime

/-- A node of the document. -/
def InDocument (s : DocumentRuntime L) (n : NodeId) : Prop :=
  n = s.root ∨ IsAncestor s.heap.parentOf s.root n

/-- **What is expected of a runtime.**  The keys of the table are nodes of the document, a new node
has no listeners, and the dispatches call the listeners that are due. -/
structure Works (s : DocumentRuntime L) : Prop where
  keys : ∀ n, (s.listeners n).isSome → s.InDocument n
  newborn : ∀ p name a, s.heap.nodes a = none →
    ∀ t, s.call (.appendElement p name a) = some t → t.listeners a = none
  dispatches : ∀ d ∈ s.dispatches, d.OnTheWay s.heap
  returned : ∀ d ∈ s.returned, d.Exact

/-! ## The condition -/

/-- Listeners are added to nodes of the document, and no vector moves while one of its functions
runs.  Other calls get null or a node that is there, and a node is not removed while it or a node
below it is a key of the table. -/
def CallRespects (s : DocumentRuntime L) : Call L → Prop
  | .addEventListener n t l moves => ∀ x ∈ n, l.isSome → s.InDocument x ∧
      (moves = true → ∀ d ∈ s.dispatches, d.runs x t = false)
  | .setAttribute n _ _ => ∀ x ∈ n, (s.heap.nodes x).isSome
  | .appendElement p _ _ => ∀ x ∈ p, (s.heap.nodes x).isSome
  | .remove n => ∀ x ∈ n, (s.heap.nodes x).isSome ∧
      ((s.heap.parentOf x).isSome → ∀ y ∈ s.heap.subtree x, s.listeners y = none)
  | .consumeDirty => True
  | .dispatch _ target => ∀ x ∈ target, (s.heap.nodes x).isSome
  | .writeEvent _ _ => True

/-- **The condition for a step.**  When a listener returns and the vector of the listeners has grown
since the dispatch came to the node, the default has been prevented. -/
def Respects (s : DocumentRuntime L) : Action L → Prop
  | .call c => s.callersTurn = true → s.CallRespects c
  | .advance => ∀ d ∈ s.dispatches.head?, ∀ n i l,
      d.position = .inListener n i l false → d.event.defaultPrevented = true

/-! ## The invariant -/

/-- At a pointer, all listeners that are due have been called. -/
structure AtNode (s : DocumentRuntime L) (d : Dispatch L) (n : Option NodeId) : Prop where
  path : Leads d.target d.reached n
  node : ∀ x ∈ n, (s.heap.nodes x).isSome
  done : d.done = d.due

/-- In a listener, those of the nodes before have been called, and of the node the ones before the
listener.  Only a vector that has grown differs from what it was. -/
structure InLoop (s : DocumentRuntime L) (d : Dispatch L) (n : NodeId) (i : ℕ) (l : L)
    (valid : Bool) (before : List (Reached L)) (here more : List L) : Prop where
  reached : d.reached = before ++ [⟨n, s.heap.parentOf n, here⟩]
  path : Leads d.target before (some n)
  done : d.done = before.flatMap Reached.listeners ++ here.take i
  listener : here[i]? = some l
  registered : s.registered n d.type = here ++ more
  valid : valid = true → more = []

/-- What holds of a dispatch that has not returned. -/
def Sound (s : DocumentRuntime L) (d : Dispatch L) : Prop :=
  (∀ c ∈ d.calls, c.2 = false) ∧
    match d.position with
    | .atNode n => s.AtNode d n
    | .inListener n i l valid => ∃ before here more, s.InLoop d n i l valid before here more

/-- The invariant. -/
structure Consistent (s : DocumentRuntime L) : Prop where
  forest : s.heap.Forest
  rootNode : (s.heap.nodes s.root).isSome
  rootLink : s.heap.parentOf s.root = none
  keys : ∀ n, (s.listeners n).isSome → s.InDocument n
  nested : ∀ d ∈ s.dispatches.tail, d.inListener = true
  dispatches : ∀ d ∈ s.dispatches, s.Sound d
  returned : ∀ d ∈ s.returned, d.Exact

end DocumentRuntime

/-! ## Paths -/

theorem Leads.append {start stop stop' : Option NodeId} {rs rs' : List (Reached L)}
    (h : Leads start rs stop) (h' : Leads stop rs' stop') : Leads start (rs ++ rs') stop' := by
  induction rs generalizing start with
  | nil =>
    rw [show start = stop from h]
    exact h'
  | cons r rs ih => exact ⟨h.1, ih h.2⟩

theorem Leads.singleton (n : NodeId) (parent : Option NodeId) (here : List L) :
    Leads (some n) [⟨n, parent, here⟩] parent := ⟨rfl, rfl⟩

namespace DocumentRuntime

variable {s t : DocumentRuntime L} {d : Dispatch L}

theorem registered_of_none {n : NodeId} (h : s.listeners n = none) (t : DomEventType) :
    s.registered n t = [] := by
  rw [registered, h]

theorem registered_congr {n : NodeId} (h : t.listeners n = s.listeners n) :
    t.registered n = s.registered n := by
  funext type
  rw [registered, registered, h]

/-! ## What the calls do -/

theorem appendElement_cases {p : Option NodeId} {name : Bytes} {a : NodeId}
    {result : Option NodeId × DocumentRuntime L} (h : s.appendElement p name a = some result) :
    result = (none, s) ∨ ∃ x, p = some x ∧ (s.heap.nodes x).isSome ∧
      result = (some a, { s with
        heap := s.heap.appendAt x a { type := .element, name := name }, dirty := true }) := by
  cases p with
  | none => exact Or.inl (Option.some.inj h).symm
  | some x =>
    rw [appendElement] at h
    split at h
    · rename_i hx
      exact Or.inr ⟨x, rfl, hx, (Option.some.inj h).symm⟩
    · cases h

theorem setAttribute_cases {n : Option NodeId} {k v : Bytes} {result : Bool × DocumentRuntime L}
    (h : s.setAttribute n k v = some result) :
    result = (false, s) ∨ ∃ x, n = some x ∧ (s.heap.nodes x).isSome ∧
      result = (true, { s with
        heap := s.heap.modify x fun node =>
          { node with attributes := Keyed.put Prod.fst (k, v) node.attributes }
        dirty := true }) := by
  cases n with
  | none => exact Or.inl (Option.some.inj h).symm
  | some x =>
    rw [setAttribute] at h
    cases hx : s.heap.nodes x with
    | none => rw [hx] at h; cases h
    | some node =>
      rw [hx] at h
      dsimp only at h
      split at h
      · exact Or.inl (Option.some.inj h).symm
      · exact Or.inr ⟨x, rfl, by rw [hx]; rfl, (Option.some.inj h).symm⟩

theorem remove_cases {n : Option NodeId} {result : Bool × DocumentRuntime L}
    (h : s.remove n = some result) :
    result = (false, s) ∨ ∃ x p, n = some x ∧ IsParent s.heap.parentOf p x ∧
      result = (true, { s with heap := s.heap.removeChild p x, dirty := true }) := by
  cases n with
  | none => exact Or.inl (Option.some.inj h).symm
  | some x =>
    rw [remove] at h
    cases hx : s.heap.nodes x with
    | none => rw [hx] at h; cases h
    | some node =>
      rw [hx] at h
      dsimp only at h
      cases hp : node.parent with
      | none => rw [hp] at h; exact Or.inl (Option.some.inj h).symm
      | some p =>
        rw [hp] at h
        dsimp only at h
        split at h
        · refine Or.inr ⟨x, p, rfl, ?_, (Option.some.inj h).symm⟩
          rw [IsParent, Heap.parentOf, hx, Option.bind_some, hp]
        · exact Or.inl (Option.some.inj h).symm

/-! ## What the invariant says -/

namespace InLoop

variable {n : NodeId} {i : ℕ} {l : L} {valid : Bool} {before : List (Reached L)}
  {here more : List L}

theorem due (h : s.InLoop d n i l valid before here more) :
    d.due = before.flatMap Reached.listeners ++ here := by
  rw [Dispatch.due, h.reached, List.flatMap_append, List.flatMap_singleton]

/-- The listener is the next one that is due. -/
theorem done_append (h : s.InLoop d n i l valid before here more) :
    d.done ++ [l] = before.flatMap Reached.listeners ++ here.take (i + 1) := by
  rw [h.done, List.append_assoc, List.take_add_one, h.listener]
  rfl

theorem called (h : s.InLoop d n i l valid before here more) : d.done ++ [l] <+: d.due := by
  rw [h.done_append, h.due]
  exact (List.prefix_append_right_inj _).mpr (List.take_prefix _ _)

theorem leads (h : s.InLoop d n i l valid before here more) :
    Leads d.target d.reached (s.heap.parentOf n) := by
  rw [h.reached]
  exact h.path.append (.singleton n _ here)

/-- The node is a key of the table. -/
theorem isSome (h : s.InLoop d n i l valid before here more) : (s.listeners n).isSome := by
  cases hkey : s.listeners n with
  | some table => rfl
  | none =>
    have hnil := h.registered
    rw [registered_of_none hkey] at hnil
    have hlistener := h.listener
    rw [(List.append_eq_nil_iff.mp hnil.symm).1] at hlistener
    cases hlistener

end InLoop

namespace Consistent

variable (hs : s.Consistent)

include hs

theorem isSome_of_inDocument {n : NodeId} (h : s.InDocument n) : (s.heap.nodes n).isSome := by
  rcases h with rfl | h
  · exact hs.rootNode
  · exact Heap.Forest.isSome_of_isAncestor h

/-- There is a node at every key of the table. -/
theorem isSome_of_key {n : NodeId} (h : (s.listeners n).isSome) : (s.heap.nodes n).isSome :=
  hs.isSome_of_inDocument (hs.keys n h)

theorem listeners_of_none {n : NodeId} (h : s.heap.nodes n = none) : s.listeners n = none := by
  by_contra hkey
  have hsome := hs.isSome_of_key (Option.isSome_iff_ne_none.mpr hkey)
  rw [h] at hsome
  exact Bool.false_ne_true hsome

/-- When it is the caller's turn, all dispatches are in listeners. -/
theorem inListener_of_callersTurn (hturn : s.callersTurn = true) :
    ∀ d ∈ s.dispatches, d.inListener = true := by
  intro d hd
  have hnested := hs.nested
  rw [callersTurn] at hturn
  cases hds : s.dispatches with
  | nil => rw [hds] at hd; exact absurd hd List.not_mem_nil
  | cons e ds =>
    rw [hds] at hd hnested hturn
    rcases List.mem_cons.mp hd with rfl | hd
    · exact hturn
    · exact hnested d hd

theorem onTheWay (hd : s.Sound d) : d.OnTheWay s.heap := by
  obtain ⟨hcalls, hd⟩ := hd
  cases hposition : d.position with
  | atNode n =>
    rw [hposition] at hd
    refine ⟨⟨n, hd.path⟩, fun x hx => hd.node x ?_, ?_, hcalls⟩
    · rw [Dispatch.node, hposition] at hx
      exact hx
    · rw [Dispatch.running, hposition, List.append_nil, hd.done]
  | inListener n i l valid =>
    rw [hposition] at hd
    obtain ⟨before, here, more, hd⟩ := hd
    refine ⟨⟨_, hd.leads⟩, fun x hx => ?_, ?_, hcalls⟩
    · rw [Dispatch.node, hposition] at hx
      rw [← Option.some.inj hx]
      exact hs.isSome_of_key hd.isSome
    · rw [Dispatch.running, hposition]
      exact hd.called

/-- **A consistent runtime works.** -/
theorem works : s.Works where
  keys := hs.keys
  newborn p name a ha t ht := by
    rw [call, Option.map_eq_some_iff] at ht
    obtain ⟨result, hresult, rfl⟩ := ht
    have hold := hs.listeners_of_none ha
    rw [if_neg (by rw [ha]; exact Bool.false_ne_true)]
    rcases appendElement_cases hresult with rfl | ⟨x, -, -, rfl⟩
    · exact hold
    · exact hold
  dispatches d hd := hs.onTheWay (hs.dispatches d hd)
  returned := hs.returned

end Consistent

end DocumentRuntime

end Aetheris.Dom
