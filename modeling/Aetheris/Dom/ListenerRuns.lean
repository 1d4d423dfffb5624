import Aetheris.Dom.Listeners

/-!
# Runs of the document runtime

Each step that meets the condition keeps the invariant, and each other step reads memory that is not
there, leaves a key behind that is not a node of the document, or starts at such an address.

The calls that touch neither the table nor a dispatch are settled together (`Keeps`); the others,
and the rounds of a dispatch, one by one.  With both directions for one step, `works_iff` is an
induction over the run: the first step that misses the condition is the first one that goes wrong.
-/

namespace Aetheris.Dom.DocumentRuntime

open Ancestry

variable {L : Type} {s t : DocumentRuntime L} {d : Dispatch L}

/-! ## Calls that keep the table -/

/-- The table and the dispatches are as before, and so are the links from the keys upwards. -/
structure Keeps (s t : DocumentRuntime L) : Prop where
  root : t.root = s.root
  listeners : t.listeners = s.listeners
  dispatches : t.dispatches = s.dispatches
  returned : t.returned = s.returned
  forest : t.heap.Forest
  rootNode : (t.heap.nodes s.root).isSome
  rootLink : t.heap.parentOf s.root = none
  link : ∀ n, (s.listeners n).isSome → ∀ y, y = n ∨ IsAncestor s.heap.parentOf y n →
    t.heap.parentOf y = s.heap.parentOf y

theorem Sound.keeps (hd : s.Sound d) (hin : d.inListener = true) (h : s.Keeps t) : t.Sound d := by
  obtain ⟨hcalls, hd⟩ := hd
  refine ⟨hcalls, ?_⟩
  rw [Dispatch.inListener] at hin
  cases hposition : d.position with
  | atNode n => rw [hposition] at hin; exact absurd hin Bool.false_ne_true
  | inListener n i l valid =>
    rw [hposition] at hd
    obtain ⟨before, here, more, hd⟩ := hd
    refine ⟨before, here, more, ?_, hd.path, hd.done, hd.listener, ?_, hd.valid⟩
    · rw [h.link n hd.isSome n (Or.inl rfl)]
      exact hd.reached
    · rw [registered_congr (congrFun h.listeners n)]
      exact hd.registered

theorem Keeps.consistent (h : s.Keeps t) (hs : s.Consistent) (hturn : s.callersTurn = true) :
    t.Consistent where
  forest := h.forest
  rootNode := by
    rw [h.root]
    exact h.rootNode
  rootLink := by
    rw [h.root]
    exact h.rootLink
  keys n hn := by
    rw [h.listeners] at hn
    rw [InDocument, h.root]
    exact (hs.keys n hn).imp_right fun hroot => hroot.congr (h.link n hn)
  nested := by
    rw [h.dispatches]
    exact hs.nested
  dispatches d hd := by
    rw [h.dispatches] at hd
    exact (hs.dispatches d hd).keeps (hs.inListener_of_callersTurn hturn d hd) h
  returned := by
    rw [h.returned]
    exact hs.returned

namespace Consistent

variable (hs : s.Consistent)

include hs

theorem keeps_self : s.Keeps s :=
  ⟨rfl, rfl, rfl, rfl, hs.forest, hs.rootNode, hs.rootLink, fun _ _ _ _ => rfl⟩

theorem keeps_consumeDirty : s.Keeps s.consumeDirty.2 :=
  ⟨rfl, rfl, rfl, rfl, hs.forest, hs.rootNode, hs.rootLink, fun _ _ _ _ => rfl⟩

theorem keeps_setAttribute {n : Option NodeId} {k v : Bytes} {result : Bool × DocumentRuntime L}
    (h : s.setAttribute n k v = some result) : s.Keeps result.2 := by
  rcases setAttribute_cases h with rfl | ⟨x, -, -, rfl⟩
  · exact hs.keeps_self
  · let f : DomNode → DomNode := fun node =>
      { node with attributes := Keyed.put Prod.fst (k, v) node.attributes }
    have hparent : ∀ node, (f node).parent = node.parent := fun _ => rfl
    have hchildren : ∀ node, (f node).children = node.children := fun _ => rfl
    have hforest : (s.heap.modify x f).Forest := hs.forest.modify hparent hchildren x
    have hparentOf : (s.heap.modify x f).parentOf = s.heap.parentOf :=
      Heap.parentOf_modify_of_eq hparent x
    have hroot : ((s.heap.modify x f).nodes s.root).isSome := by
      rw [Heap.isSome_modify]
      exact hs.rootNode
    exact ⟨rfl, rfl, rfl, rfl, hforest, hroot, (congrFun hparentOf s.root).trans hs.rootLink,
      fun _ _ y _ => congrFun hparentOf y⟩

/-- The addresses from a key upwards are not free. -/
theorem ne_of_key {a n y : NodeId} (ha : s.heap.nodes a = none) (hn : (s.listeners n).isSome)
    (hy : y = n ∨ IsAncestor s.heap.parentOf y n) : y ≠ a := by
  rintro rfl
  rcases hy with rfl | hy
  · have hsome := hs.isSome_of_key hn
    rw [ha] at hsome
    exact Bool.false_ne_true hsome
  · exact hs.forest.not_isAncestor_of_none ha hy

theorem keeps_appendElement {p : Option NodeId} {name : Bytes} {a : NodeId}
    {result : Option NodeId × DocumentRuntime L} (ha : s.heap.nodes a = none)
    (h : s.appendElement p name a = some result) : s.Keeps result.2 := by
  rcases appendElement_cases h with rfl | ⟨x, -, hx, rfl⟩
  · exact hs.keeps_self
  · have hroot : s.root ≠ a := by
      intro heq
      have hsome := hs.rootNode
      rw [heq, ha] at hsome
      exact Bool.false_ne_true hsome
    refine ⟨rfl, rfl, rfl, rfl, hs.forest.appendAt hx ha rfl,
      Heap.isSome_appendAt.mpr (Or.inr hs.rootNode), ?_, fun n hn y hy => ?_⟩
    · show (s.heap.appendAt x a _).parentOf s.root = none
      rw [Heap.parentOf_appendAt, Function.update_of_ne hroot]
      exact hs.rootLink
    · show (s.heap.appendAt x a _).parentOf y = _
      rw [Heap.parentOf_appendAt, Function.update_of_ne (hs.ne_of_key ha hn hy)]

theorem root_not_mem_subtree {p x : NodeId} (hx : IsParent s.heap.parentOf p x) :
    s.root ∉ s.heap.subtree x := by
  rw [hs.forest.mem_subtree_iff (Heap.isSome_of_parentOf hx)]
  rintro (heq | hroot)
  · rw [IsParent, ← heq, hs.rootLink] at hx
    cases hx
  · exact not_isAncestor_of_none hs.rootLink hroot

theorem keeps_remove {n : Option NodeId} {result : Bool × DocumentRuntime L}
    (hkeys : ∀ x ∈ n, (s.heap.parentOf x).isSome → ∀ y ∈ s.heap.subtree x, s.listeners y = none)
    (h : s.remove n = some result) : s.Keeps result.2 := by
  rcases remove_cases h with rfl | ⟨x, p, rfl, hx, rfl⟩
  · exact hs.keeps_self
  · have hsome : (s.heap.nodes x).isSome := Heap.isSome_of_parentOf hx
    have hroot := hs.root_not_mem_subtree hx
    refine ⟨rfl, rfl, rfl, rfl, hs.forest.removeChild hx,
      Heap.isSome_removeChild.mpr ⟨hroot, hs.rootNode⟩,
      (Heap.parentOf_removeChild_of_not_mem hroot).trans hs.rootLink, fun n hn y hy => ?_⟩
    refine Heap.parentOf_removeChild_of_not_mem fun hmem => ?_
    have hn' : n ∈ s.heap.subtree x := by
      rw [hs.forest.mem_subtree_iff hsome] at hmem ⊢
      rcases hy with rfl | hy
      · exact hmem
      · refine Or.inr ?_
        rcases hmem with rfl | hmem
        · exact hy
        · exact hmem.trans hy
    have hparent : (s.heap.parentOf x).isSome := by
      rw [show s.heap.parentOf x = some p from hx]
      rfl
    rw [hkeys x rfl hparent n hn'] at hn
    exact Bool.false_ne_true hn

end Consistent

/-! ## Calls that change the table or the dispatches -/

theorem inListener_invalidate (n : NodeId) (t : DomEventType) (d : Dispatch L) :
    (d.invalidate n t).inListener = d.inListener := by
  rw [Dispatch.invalidate]
  cases hposition : d.position with
  | atNode m => rfl
  | inListener m i l valid =>
    dsimp only
    split
    · rw [Dispatch.inListener, Dispatch.inListener, hposition]
    · rfl

theorem registered_pushListener (n m : NodeId) (t t' : DomEventType) (l : L) :
    (s.pushListener n t l).registered m t' =
      s.registered m t' ++ if m = n ∧ t' = t then [l] else [] := by
  rw [registered, pushListener]
  dsimp only
  by_cases hm : m = n
  · rw [hm, Function.update_self]
    dsimp only
    by_cases ht : t' = t
    · rw [ht, Function.update_self, if_pos ⟨rfl, rfl⟩]
    · rw [Function.update_of_ne ht, if_neg fun h => ht h.2, List.append_nil]
  · rw [Function.update_of_ne hm, if_neg fun h => hm h.1, List.append_nil]
    rfl

/-- A dispatch that runs through the vector has its iterators invalidated, and for any other one
nothing has changed. -/
theorem Sound.pushListener (hd : s.Sound d) (hin : d.inListener = true) (n : NodeId)
    (t : DomEventType) (l : L) : (s.pushListener n t l).Sound (d.invalidate n t) := by
  obtain ⟨hcalls, hd⟩ := hd
  rw [Dispatch.inListener] at hin
  rw [Dispatch.invalidate]
  cases hposition : d.position with
  | atNode m => rw [hposition] at hin; exact absurd hin Bool.false_ne_true
  | inListener m i l' valid =>
    rw [hposition] at hd
    obtain ⟨before, here, more, hd⟩ := hd
    have hregistered := registered_pushListener (s := s) n m t d.type l
    rw [hd.registered] at hregistered
    dsimp only
    split
    · rename_i heq
      rw [if_pos heq, List.append_assoc] at hregistered
      exact ⟨hcalls, before, here, more ++ [l], hd.reached, hd.path, hd.done, hd.listener,
        hregistered, nofun⟩
    · rename_i hne
      rw [if_neg hne, List.append_nil] at hregistered
      refine ⟨hcalls, ?_⟩
      rw [hposition]
      exact ⟨before, here, more, hd.reached, hd.path, hd.done, hd.listener, hregistered, hd.valid⟩

/-- The event of a dispatch may be anything, and so may the other dispatches. -/
theorem Sound.congr {d' : Dispatch L} (hd : s.Sound d) (hheap : t.heap = s.heap)
    (hlisteners : t.listeners = s.listeners) (hevent : d' = { d with event := d'.event }) :
    t.Sound d' := by
  obtain ⟨hcalls, hd⟩ := hd
  generalize d'.event = e at hevent
  subst hevent
  refine ⟨hcalls, ?_⟩
  dsimp only
  cases hposition : d.position with
  | atNode n =>
    rw [hposition] at hd
    refine ⟨hd.path, ?_, hd.done⟩
    rw [hheap]
    exact hd.node
  | inListener n i l valid =>
    rw [hposition] at hd
    obtain ⟨before, here, more, hd⟩ := hd
    refine ⟨before, here, more, ?_, hd.path, hd.done, hd.listener, ?_, hd.valid⟩
    · rw [hheap]
      exact hd.reached
    · rw [registered_congr (congrFun hlisteners n)]
      exact hd.registered

theorem exists_of_mem_modify {α : Type} {f : α → α} {y : α} :
    ∀ {l : List α} {i : ℕ}, y ∈ l.modify i f → ∃ x ∈ l, y = x ∨ y = f x
  | [], i, h => by
    rw [List.modify_nil] at h
    exact absurd h List.not_mem_nil
  | x :: l, 0, h => by
    rw [List.modify_zero_cons] at h
    rcases List.mem_cons.mp h with rfl | h
    · exact ⟨x, List.mem_cons_self, Or.inr rfl⟩
    · exact ⟨y, List.mem_cons_of_mem x h, Or.inl rfl⟩
  | x :: l, i + 1, h => by
    rw [List.modify_succ_cons] at h
    rcases List.mem_cons.mp h with rfl | h
    · exact ⟨y, List.mem_cons_self, Or.inl rfl⟩
    · obtain ⟨z, hz, hy⟩ := exists_of_mem_modify h
      exact ⟨z, List.mem_cons_of_mem x hz, hy⟩

namespace Consistent

variable (hs : s.Consistent)

include hs

theorem pushListener (hturn : s.callersTurn = true) {n : NodeId} (hn : s.InDocument n)
    (t : DomEventType) (l : L) : (s.pushListener n t l).Consistent := by
  have hin := hs.inListener_of_callersTurn hturn
  refine ⟨hs.forest, hs.rootNode, hs.rootLink, fun m hm => ?_, fun d hd => ?_, fun d hd => ?_,
    hs.returned⟩
  · by_cases heq : m = n
    · rw [heq]
      exact hn
    · have hkey : Function.update s.listeners n
          (some (Function.update (s.registered n) t (s.registered n t ++ [l]))) m =
            s.listeners m := Function.update_of_ne heq ..
      exact hs.keys m (hkey ▸ hm)
  · obtain ⟨e, he, rfl⟩ := List.mem_map.mp (List.mem_of_mem_tail hd)
    rw [inListener_invalidate]
    exact hin e he
  · obtain ⟨e, he, rfl⟩ := List.mem_map.mp hd
    exact (hs.dispatches e he).pushListener (hin e he) n t l

theorem dispatch (hturn : s.callersTurn = true) {t : DomEventType} {target : Option NodeId}
    (htarget : ∀ x ∈ target, (s.heap.nodes x).isSome) : (s.dispatch t target).Consistent := by
  refine ⟨hs.forest, hs.rootNode, hs.rootLink, hs.keys, hs.inListener_of_callersTurn hturn,
    fun d hd => ?_, hs.returned⟩
  rcases List.mem_cons.mp hd with rfl | hd
  · exact ⟨nofun, rfl, htarget, rfl⟩
  · exact (hs.dispatches d hd).congr rfl rfl rfl

theorem writeEvent (hturn : s.callersTurn = true) (depth : ℕ) (e : DomEvent) :
    (s.writeEvent depth e).Consistent := by
  refine ⟨hs.forest, hs.rootNode, hs.rootLink, hs.keys, fun d hd => ?_, fun d hd => ?_,
    hs.returned⟩
  · obtain ⟨d', hd', rfl | rfl⟩ := exists_of_mem_modify (List.mem_of_mem_tail hd)
    · exact hs.inListener_of_callersTurn hturn d hd'
    · exact hs.inListener_of_callersTurn hturn d' hd'
  · obtain ⟨d', hd', rfl | rfl⟩ := exists_of_mem_modify hd
    · exact (hs.dispatches d hd').congr rfl rfl rfl
    · exact (hs.dispatches d' hd').congr rfl rfl rfl

/-- **A call that meets the condition keeps the invariant.** -/
theorem call (hturn : s.callersTurn = true) {c : Call L} (hc : s.CallRespects c) :
    ∃ t, s.call c = some t ∧ t.Consistent := by
  cases c with
  | addEventListener n t l moves =>
    rw [DocumentRuntime.call]
    cases n with
    | none => exact ⟨s, rfl, hs⟩
    | some n =>
      cases l with
      | none => exact ⟨s, rfl, hs⟩
      | some l =>
        obtain ⟨hn, hmoves⟩ := hc n rfl rfl
        have hstays : ¬(moves && s.dispatches.any (Dispatch.runs n t)) = true := by
          rw [Bool.and_eq_true, List.any_eq_true]
          rintro ⟨hmoved, d, hd, hruns⟩
          exact Bool.false_ne_true ((hmoves hmoved d hd).symm.trans hruns)
        rw [DocumentRuntime.addEventListener, if_neg hstays]
        exact ⟨_, rfl, hs.pushListener hturn hn t l⟩
  | setAttribute n k v =>
    have hsome : ∃ result, s.setAttribute n k v = some result := by
      cases n with
      | none => exact ⟨_, rfl⟩
      | some x =>
        obtain ⟨node, hnode⟩ := Option.isSome_iff_exists.mp (hc x rfl)
        rw [DocumentRuntime.setAttribute, hnode]
        dsimp only
        split
        · exact ⟨_, rfl⟩
        · exact ⟨_, rfl⟩
    obtain ⟨result, hresult⟩ := hsome
    refine ⟨result.2, ?_, (hs.keeps_setAttribute hresult).consistent hs hturn⟩
    rw [DocumentRuntime.call, hresult, Option.map_some]
  | appendElement p name a =>
    have hsome : ∃ result, s.appendElement p name a = some result := by
      cases p with
      | none => exact ⟨_, rfl⟩
      | some x =>
        rw [DocumentRuntime.appendElement, if_pos (hc x rfl)]
        exact ⟨_, rfl⟩
    obtain ⟨result, hresult⟩ := hsome
    rw [DocumentRuntime.call, hresult, Option.map_some]
    refine ⟨_, rfl, ?_⟩
    split
    · exact hs
    · rename_i ha
      have hfree := Option.not_isSome_iff_eq_none.mp ha
      exact (hs.keeps_appendElement hfree hresult).consistent hs hturn
  | remove n =>
    have hsome : ∃ result, s.remove n = some result := by
      cases n with
      | none => exact ⟨_, rfl⟩
      | some x =>
        obtain ⟨node, hnode⟩ := Option.isSome_iff_exists.mp (hc x rfl).1
        rw [DocumentRuntime.remove, hnode]
        dsimp only
        cases node.parent with
        | none => exact ⟨_, rfl⟩
        | some p =>
          dsimp only
          split
          · exact ⟨_, rfl⟩
          · exact ⟨_, rfl⟩
    obtain ⟨result, hresult⟩ := hsome
    refine ⟨result.2, ?_,
      (hs.keeps_remove (fun x hx => (hc x hx).2) hresult).consistent hs hturn⟩
    rw [DocumentRuntime.call, hresult, Option.map_some]
  | consumeDirty => exact ⟨_, rfl, hs.keeps_consumeDirty.consistent hs hturn⟩
  | dispatch t target => exact ⟨_, rfl, hs.dispatch hturn hc⟩
  | writeEvent depth e => exact ⟨_, rfl, hs.writeEvent hturn depth e⟩

/-! ## The rounds of a dispatch -/

/-- The dispatches may be replaced by others that are sound. -/
theorem replace {ds : List (Dispatch L)} {returned : Option (Dispatch L)}
    (hnested : ∀ d ∈ ds.tail, d.inListener = true) (hds : ∀ d ∈ ds, s.Sound d)
    (hreturned : ∀ d ∈ returned, d.Exact) :
    { s with dispatches := ds, returned := returned }.Consistent :=
  ⟨hs.forest, hs.rootNode, hs.rootLink, hs.keys, hnested,
    fun d hd => (hds d hd).congr rfl rfl rfl, hreturned⟩

variable {ds : List (Dispatch L)}

/-- The innermost dispatch may be replaced. -/
theorem replaceHead {d' : Dispatch L} (hstack : s.dispatches = d :: ds) (hd' : s.Sound d') :
    { s with dispatches := d' :: ds }.Consistent := by
  refine hs.replace ?_ (fun e he => ?_) hs.returned
  · have hnested := hs.nested
    rw [hstack] at hnested
    exact hnested
  · rcases List.mem_cons.mp he with rfl | he
    · exact hd'
    · exact hs.dispatches e (hstack ▸ List.mem_cons_of_mem d he)

/-- The innermost dispatch may return. -/
theorem returns {d' : Dispatch L} (hstack : s.dispatches = d :: ds) (hd' : d'.Exact) :
    { s with dispatches := ds, returned := some d' }.Consistent := by
  have htail : ∀ e ∈ ds, e.inListener = true ∧ s.Sound e := by
    intro e he
    have hnested := hs.nested
    rw [hstack] at hnested
    exact ⟨hnested e he, hs.dispatches e (hstack ▸ List.mem_cons_of_mem d he)⟩
  refine hs.replace (fun e he => (htail e (List.mem_of_mem_tail he)).1)
    (fun e he => (htail e he).2) fun e he => ?_
  rw [← Option.some.inj he]
  exact hd'

/-- From a node whose listeners have been called, to its parent. -/
theorem climb {d' : Dispatch L} (hstack : s.dispatches = d :: ds) {n : NodeId}
    (hn : (s.heap.nodes n).isSome) (hcalls : ∀ c ∈ d'.calls, c.2 = false)
    (hpath : Leads d'.target d'.reached (s.heap.parentOf n)) (hdone : d'.done = d'.due) :
    ∃ t, s.climb d' n ds = some t ∧ t.Consistent := by
  rw [DocumentRuntime.climb, if_pos hn]
  refine ⟨_, rfl, hs.replaceHead hstack ⟨hcalls, hpath, fun x hx => ?_, hdone⟩⟩
  exact hs.forest.isSome_of_isParent hx

/-- **A round that meets the condition keeps the invariant.** -/
theorem advance (hrespects : s.Respects .advance) : ∃ t, s.advance = some t ∧ t.Consistent := by
  cases hstack : s.dispatches with
  | nil =>
    rw [DocumentRuntime.advance, hstack]
    exact ⟨s, rfl, hs⟩
  | cons d ds =>
    obtain ⟨hcalls, hd⟩ := hs.dispatches d (hstack ▸ List.mem_cons_self)
    cases hposition : d.position with
    | atNode n =>
      rw [hposition] at hd
      cases n with
      | none =>
        have hexact : d.Exact := by
          refine ⟨⟨none, hd.path⟩, ?_, fun c hc => hcalls c (List.mem_of_mem_dropLast hc),
            fun _ => ⟨hd.path, hd.done⟩⟩
          rw [hd.done]
        refine ⟨_, ?_, hs.returns hstack hexact⟩
        rw [DocumentRuntime.advance, hstack]
        dsimp only
        rw [hposition]
      | some n =>
        have hn := hd.node n rfl
        rw [DocumentRuntime.advance, hstack]
        dsimp only
        rw [hposition]
        dsimp only
        cases hhere : s.registered n d.type with
        | nil =>
          refine hs.climb hstack hn hcalls (hd.path.append (.singleton n _ [])) ?_
          rw [Dispatch.due, List.flatMap_append, List.flatMap_singleton, List.append_nil]
          exact hd.done
        | cons l ls =>
          refine ⟨_, rfl, hs.replaceHead hstack ⟨hcalls, d.reached, l :: ls, [], rfl, hd.path, ?_,
            rfl, ?_, fun _ => rfl⟩⟩
          · rw [List.take_zero, List.append_nil]
            exact hd.done
          · rw [List.append_nil]
            exact hhere
    | inListener n i l valid =>
      rw [hposition] at hd
      obtain ⟨before, here, more, hd⟩ := hd
      rw [DocumentRuntime.advance, hstack]
      dsimp only
      rw [hposition]
      dsimp only
      have hdone : (d.calls ++ [(l, d.event.defaultPrevented)]).map Prod.fst = d.done ++ [l] := by
        rw [List.map_append]
        rfl
      by_cases hprevented : d.event.defaultPrevented = true
      · rw [if_pos hprevented]
        refine ⟨_, rfl, hs.returns hstack ⟨⟨_, hd.leads⟩, ?_, fun c hc => ?_, fun hall => ?_⟩⟩
        · rw [Dispatch.done, hdone]
          exact hd.called
        · rw [List.dropLast_concat] at hc
          exact hcalls c hc
        · have hlast := hall _ (List.mem_append_right _ (List.mem_singleton_self _))
          rw [hprevented] at hlast
          exact absurd hlast.symm Bool.false_ne_true
      · have hvalid : valid = true := by
          by_contra hvalid
          rw [Bool.not_eq_true] at hvalid
          refine hprevented (hrespects d ?_ n i l ?_)
          · rw [hstack]
            exact rfl
          · rw [hposition, hvalid]
        have hregistered : s.registered n d.type = here := by
          rw [hd.registered, hd.valid hvalid, List.append_nil]
        have hcalls' : ∀ c ∈ d.calls ++ [(l, d.event.defaultPrevented)], c.2 = false := by
          intro c hc
          rcases List.mem_append.mp hc with hc | hc
          · exact hcalls c hc
          · rw [List.mem_singleton.mp hc]
            exact Bool.eq_false_iff.mpr hprevented
        rw [if_neg hprevented, if_pos hvalid, hregistered]
        cases hnext : here[i + 1]? with
        | some l' =>
          refine ⟨_, rfl, hs.replaceHead hstack ⟨hcalls', before, here, [], hd.reached, hd.path,
            ?_, hnext, ?_, fun _ => rfl⟩⟩
          · rw [Dispatch.done, hdone, hd.done_append]
          · rw [List.append_nil]
            exact hregistered
        | none =>
          refine hs.climb hstack (hs.isSome_of_key hd.isSome) hcalls' hd.leads ?_
          show (d.calls ++ [(l, d.event.defaultPrevented)]).map Prod.fst = d.due
          rw [hdone, hd.done_append, hd.due,
            List.take_of_length_le (List.getElem?_eq_none_iff.mp hnext)]

/-- The state does not record a dispatch that has returned before. -/
theorem forget : { s with returned := none }.Consistent :=
  hs.replace hs.nested hs.dispatches fun d hd => absurd hd (Option.not_mem_none d)

/-- **A step that meets the condition keeps the invariant.** -/
theorem step {a : Action L} (ha : s.Respects a) : ∃ t, s.step a = some t ∧ t.Consistent := by
  cases a with
  | call c =>
    rw [DocumentRuntime.step]
    split
    · rename_i hturn
      exact hs.forget.call hturn (ha hturn)
    · exact ⟨s, rfl, hs⟩
  | advance => exact hs.forget.advance ha

/-! ## The other steps -/

/-- **After a call that does not meet the condition the runtime does not work.** -/
theorem not_works_of_call {c : Call L} (hc : ¬ s.CallRespects c) (ht : s.call c = some t) :
    ¬ t.Works := by
  intro hworks
  refine hc ?_
  cases c with
  | addEventListener n type l moves =>
    intro x hx hl
    obtain rfl : n = some x := hx
    obtain ⟨l, rfl⟩ := Option.isSome_iff_exists.mp hl
    rw [DocumentRuntime.call, DocumentRuntime.addEventListener] at ht
    split at ht
    · cases ht
    · rename_i hstays
      rw [← Option.some.inj ht] at hworks
      refine ⟨hworks.keys x ?_, fun hmoved d hd => ?_⟩
      · show (Function.update s.listeners x _ x).isSome
        rw [Function.update_self]
        rfl
      · by_contra hruns
        refine hstays ?_
        rw [hmoved, Bool.true_and, List.any_eq_true]
        exact ⟨d, hd, Bool.not_eq_false _ ▸ hruns⟩
  | setAttribute n k v =>
    intro x hx
    obtain rfl : n = some x := hx
    rw [DocumentRuntime.call, Option.map_eq_some_iff] at ht
    obtain ⟨result, hresult, -⟩ := ht
    cases hnode : s.heap.nodes x with
    | some node => rfl
    | none => rw [DocumentRuntime.setAttribute, hnode] at hresult; cases hresult
  | appendElement p name a =>
    intro x hx
    obtain rfl : p = some x := hx
    rw [DocumentRuntime.call, Option.map_eq_some_iff] at ht
    obtain ⟨result, hresult, -⟩ := ht
    by_contra hnode
    rw [DocumentRuntime.appendElement, if_neg hnode] at hresult
    cases hresult
  | remove n =>
    intro x hx
    obtain rfl : n = some x := hx
    rw [DocumentRuntime.call, Option.map_eq_some_iff] at ht
    obtain ⟨result, hresult, rfl⟩ := ht
    cases hnode : s.heap.nodes x with
    | none => rw [DocumentRuntime.remove, hnode] at hresult; cases hresult
    | some node =>
      refine ⟨rfl, fun hparent y hy => ?_⟩
      obtain ⟨p, hp⟩ := Option.isSome_iff_exists.mp hparent
      have hnodeParent : node.parent = some p := by
        rw [Heap.parentOf, hnode] at hp
        exact hp
      rw [DocumentRuntime.remove, hnode] at hresult
      dsimp only at hresult
      rw [hnodeParent] at hresult
      dsimp only at hresult
      rw [if_pos ((hs.forest.link_iff p x).mp hp)] at hresult
      rw [← Option.some.inj hresult] at hworks
      -- a key among what is destroyed is not a node of the document any more
      by_contra hkey
      have hroot := hs.root_not_mem_subtree hp
      rcases hworks.keys y (Option.isSome_iff_ne_none.mpr hkey) with rfl | hin
      · exact hroot hy
      · exact (Heap.isSome_removeChild.mp (Heap.Forest.isSome_of_isAncestor hin)).1 hy
  | consumeDirty => trivial
  | dispatch type target =>
    intro x hx
    obtain rfl : target = some x := hx
    rw [← Option.some.inj ht] at hworks
    exact (hworks.dispatches _ List.mem_cons_self).node x rfl
  | writeEvent depth e => trivial

omit hs in
/-- A dispatch that goes on with iterators that are not valid reads memory that is not there. -/
theorem advance_eq_none (hrespects : ¬ s.Respects .advance) :
    { s with returned := none }.advance = none := by
  rw [Respects] at hrespects
  push Not at hrespects
  obtain ⟨d, hd, n, i, l, hposition, hprevented⟩ := hrespects
  obtain ⟨ds, hstack⟩ : ∃ ds, s.dispatches = d :: ds := by
    cases hstack : s.dispatches with
    | nil => rw [hstack] at hd; cases hd
    | cons e ds =>
      rw [hstack] at hd
      exact ⟨ds, congrArg (· :: ds) (Option.some.inj hd)⟩
  rw [DocumentRuntime.advance, hstack]
  dsimp only
  rw [hposition]
  dsimp only
  rw [if_neg hprevented, if_neg Bool.false_ne_true]

/-- A step that does not meet the condition. -/
theorem not_works_of_step {a : Action L} (ha : ¬ s.Respects a) (ht : s.step a = some t) :
    ¬ t.Works := by
  cases a with
  | call c =>
    rw [Respects] at ha
    push Not at ha
    rw [DocumentRuntime.step, if_pos ha.1] at ht
    exact hs.forget.not_works_of_call ha.2 ht
  | advance =>
    rw [DocumentRuntime.step, advance_eq_none ha] at ht
    cases ht

end Consistent

/-! ## All runs -/

theorem consistent_start (doc : DocumentTree) : (start doc : DocumentRuntime L).Consistent where
  forest := doc.forest
  rootNode := by
    obtain ⟨node, hnode, -⟩ := doc.rootNode
    show (doc.heap.nodes doc.root).isSome
    rw [hnode]
    rfl
  rootLink := doc.rootLink
  keys _ hn := absurd hn Bool.false_ne_true
  nested _ hd := absurd hd List.not_mem_nil
  dispatches _ hd := absurd hd List.not_mem_nil
  returned _ hd := absurd hd (Option.not_mem_none _)

/-- A button with a listener is removed, and a new one gets its address. -/
def reusedAddress : List (Action Unit) :=
  [.call (.appendElement (some 0) (lit "button") 1),
    .call (.addEventListener (some 1) .click (some ()) true),
    .call (.remove (some 1)),
    .call (.appendElement (some 0) (lit "button") 1),
    .call (.dispatch .click (some 1)),
    .advance]

/-- A listener that adds one to the vector it is called from: the vector moves at once, or the loop
goes on with iterators that are not valid any more. -/
example (moves : Bool) :
    [Action.call (.addEventListener (some 0) .click (some 0) true),
      .call (.dispatch .click (some 0)), .advance,
      .call (.addEventListener (some 0) .click (some 1) moves), .advance].foldl next
        (some (start Document.empty.toTree)) = none := by
  cases moves <;> rfl

end Aetheris.Dom.DocumentRuntime
