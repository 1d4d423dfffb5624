import Aetheris.Dom.Host
import Aetheris.Library.Runs

/-!
# Who owns the nodes

Every node other than the root has one owner: the children list of its parent, or the pending table.
`adopt` takes the node's `unique_ptr` from its owner and appends it to the new parent's list,
whatever node the new parent is.  If that is the node itself or a node below it, the moved subtree
becomes a cycle that owns itself.

`Ownership` needs more than itself to be carried through the calls, namely that the tables point to
nodes that exist (`HostWf`).  What `adopt` does is said once, wherever the node is
(`adopted_adopt`), and the step lemma follows in both directions: a move above itself keeps the
forest, and any other closes a cycle.  So `ownership_iff_staysAbove` is exact over runs.
-/

namespace Aetheris.Dom

open Ancestry

/-! ## The invariant -/

/-- A place where the `unique_ptr` of a node can be. -/
inductive Owner where
  | pending
  | childList (parent : NodeId)
  deriving DecidableEq

/-- The place holds the node. -/
def Owns (s : HostState) : Owner → NodeId → Prop
  | .pending, x => x ∈ s.host.pending
  | .childList p, x => x ∈ s.heap.childrenOf p

/-- Every node but the root is in exactly one place, once; the parent links agree with the
children lists. -/
structure OwnedOnce (s : HostState) : Prop where
  oneOwner : ∀ x, (s.heap.nodes x).isSome → x ≠ s.root → ∃! o, Owns s o x
  rootUnowned : ∀ o, ¬ Owns s o s.root
  pendingNodup : s.host.pending.Nodup
  childrenNodup : ∀ p, (s.heap.childrenOf p).Nodup
  link_iff : ∀ p x, s.heap.parentOf x = some p ↔ x ∈ s.heap.childrenOf p
  parentOf_iff : ∀ p x, s.host.parentOf x = some p ↔ x ∈ s.heap.childrenOf p

/-- Every node has one owner, the parent links form a forest, and `parent_of` agrees with the
children lists. -/
structure Ownership (s : HostState) : Prop extends OwnedOnce s where
  acyclic : Acyclic s.heap.parentOf

/-- What the tables refer to: existing nodes, and for handles elements. -/
structure HostWf (s : HostState) : Prop where
  fresh : ∀ x, s.heap.next ≤ x → s.heap.nodes x = none
  rootNode : (s.heap.nodes s.root).map (·.type) = some .document
  owned : ∀ o x, Owns s o x → (s.heap.nodes x).isSome
  handle : ∀ k x, s.host.nodeByHandle k = some x →
    (s.heap.nodes x).map (·.type) = some .element

theorem isSome_of_type {s : HostState} {x : NodeId} {type : DomNodeType}
    (h : (s.heap.nodes x).map (·.type) = some type) : (s.heap.nodes x).isSome := by
  cases hx : s.heap.nodes x with
  | none => rw [hx] at h; cases h
  | some node => rfl

theorem HostWf.ne_root {s : HostState} (hwf : HostWf s) {k : HandleId} {x : NodeId}
    (h : s.host.nodeByHandle k = some x) : x ≠ s.root := by
  rintro rfl
  have helem := hwf.handle _ _ h
  rw [hwf.rootNode] at helem
  exact DomNodeType.noConfusion (Option.some.inj helem)

/-! ## The parsed document -/

section Collect

variable {h : Heap}

theorem collect_cases (depth : ℕ) (node : NodeId) (parentOf : NodeId → Option NodeId)
    {x p : NodeId} (hx : collect h depth node parentOf x = some p) :
    parentOf x = some p ∨ x ∈ h.childrenOf p := by
  induction depth generalizing node parentOf with
  | zero => exact Or.inl hx
  | succ depth ih =>
    rw [collect] at hx
    suffices hfold : ∀ (l : List NodeId) (m : NodeId → Option NodeId),
        (∀ c ∈ l, c ∈ h.childrenOf node) →
        l.foldl (fun m child => collect h depth child (Function.update m child (some node))) m x
          = some p → m x = some p ∨ x ∈ h.childrenOf p from hfold _ _ (fun _ hc => hc) hx
    intro l
    induction l with
    | nil => exact fun m _ hm => Or.inl hm
    | cons c l ihl =>
      intro m hl hm
      rcases ihl _ (fun c' hc' => hl c' (List.mem_cons_of_mem _ hc')) hm with hm | hm
      · rcases ih c _ hm with hm | hm
        · by_cases hxc : x = c
          · rw [hxc, Function.update_self] at hm
            rw [hxc, ← Option.some.inj hm]
            exact Or.inr (hl c List.mem_cons_self)
          · rw [Function.update_of_ne hxc] at hm
            exact Or.inl hm
        · exact Or.inr hm
      · exact Or.inr hm

variable (hunique : ∀ p q x, x ∈ h.childrenOf p → x ∈ h.childrenOf q → p = q)

include hunique

theorem collect_of_eq (depth : ℕ) (node : NodeId) (parentOf : NodeId → Option NodeId)
    {x p : NodeId} (hp : x ∈ h.childrenOf p) (hx : parentOf x = some p) :
    collect h depth node parentOf x = some p := by
  induction depth generalizing node parentOf with
  | zero => exact hx
  | succ depth ih =>
    rw [collect]
    suffices hfold : ∀ (l : List NodeId) (m : NodeId → Option NodeId),
        (∀ c ∈ l, c ∈ h.childrenOf node) → m x = some p →
        l.foldl (fun m child => collect h depth child (Function.update m child (some node))) m x
          = some p from hfold _ _ (fun _ hc => hc) hx
    intro l
    induction l with
    | nil => exact fun m _ hm => hm
    | cons c l ihl =>
      intro m hl hm
      refine ihl _ (fun c' hc' => hl c' (List.mem_cons_of_mem _ hc')) (ih c _ ?_)
      by_cases hxc : x = c
      · rw [hxc, Function.update_self, hunique node p x (hxc ▸ hl c List.mem_cons_self) hp]
      · rwa [Function.update_of_ne hxc]

/-- `collect` records every node above the given depth. -/
theorem collect_of_reach {n depth : ℕ} {node p x : NodeId} (hreach : h.Reach n node p)
    (hn : n < depth) (hp : x ∈ h.childrenOf p) (parentOf : NodeId → Option NodeId) :
    collect h depth node parentOf x = some p := by
  induction depth generalizing n node parentOf with
  | zero => exact absurd hn (Nat.not_lt_zero n)
  | succ depth ih =>
    -- the child in whose turn `x` is recorded
    obtain ⟨c, hc, hrec⟩ : ∃ c ∈ h.childrenOf node, ∀ m : NodeId → Option NodeId,
        collect h depth c (Function.update m c (some node)) x = some p := by
      cases hreach with
      | refl =>
        exact ⟨x, hp, fun m => collect_of_eq hunique _ _ _ hp (Function.update_self ..)⟩
      | child hb hc => exact ⟨_, hb, fun m => ih hc (Nat.lt_of_succ_lt_succ hn) _⟩
    rw [collect]
    suffices hfold : ∀ (l : List NodeId) (m : NodeId → Option NodeId),
        (∀ c' ∈ l, c' ∈ h.childrenOf node) → (c ∈ l ∨ m x = some p) →
        l.foldl (fun m child => collect h depth child (Function.update m child (some node))) m x
          = some p from hfold _ _ (fun _ hc => hc) (Or.inl hc)
    intro l
    induction l with
    | nil =>
      rintro m - (hm | hm)
      · exact absurd hm List.not_mem_nil
      · exact hm
    | cons c' l ihl =>
      intro m hl hm
      refine ihl _ (fun c'' hc'' => hl c'' (List.mem_cons_of_mem _ hc'')) ?_
      rcases hm with hm | hm
      · rcases List.mem_cons.mp hm with rfl | hm
        · exact Or.inr (hrec m)
        · exact Or.inl hm
      · refine Or.inr (collect_of_eq hunique _ _ _ hp ?_)
        by_cases hxc : x = c'
        · rw [hxc, Function.update_self, hunique node p x (hxc ▸ hl c' List.mem_cons_self) hp]
        · rwa [Function.update_of_ne hxc]

end Collect

/-- On a parsed document `collect` records exactly the children lists. -/
theorem collect_document (doc : Document) (p x : NodeId) :
    collect doc.heap doc.heap.next doc.root (fun _ => none) x = some p ↔
      x ∈ doc.heap.childrenOf p := by
  have hunique : ∀ p q x, x ∈ doc.heap.childrenOf p → x ∈ doc.heap.childrenOf q → p = q := by
    intro p q x hp hq
    rw [← doc.link_iff] at hp hq
    exact Option.some.inj (hp.symm.trans hq)
  constructor
  · intro h
    rcases collect_cases _ _ _ h with h | h
    · cases h
    · exact h
  · intro h
    obtain ⟨n, hn, hreach⟩ := doc.exists_reach (Heap.isSome_of_mem_childrenOf h)
    have hlt := doc.lt_of_mem p x h
    exact collect_of_reach hunique hreach (hn.trans_lt (hlt.1.trans hlt.2)) h _

/-- Building handles touches only the handle tables, and makes handles of elements. -/
structure HandlesBuilt (s t : HostState) : Prop where
  heap : t.heap = s.heap
  root : t.root = s.root
  parentOf : t.host.parentOf = s.host.parentOf
  pending : t.host.pending = s.host.pending
  handle : ∀ k x, t.host.nodeByHandle k = some x →
    s.host.nodeByHandle k = some x ∨ (s.heap.nodes x).map (·.type) = some .element

theorem HandlesBuilt.refl (s : HostState) : HandlesBuilt s s :=
  ⟨rfl, rfl, rfl, rfl, fun _ _ h => Or.inl h⟩

theorem HandlesBuilt.trans {s t u : HostState} (hst : HandlesBuilt s t)
    (htu : HandlesBuilt t u) : HandlesBuilt s u where
  heap := htu.heap.trans hst.heap
  root := htu.root.trans hst.root
  parentOf := htu.parentOf.trans hst.parentOf
  pending := htu.pending.trans hst.pending
  handle k x h := by
    rcases htu.handle k x h with h | h
    · exact hst.handle k x h
    · rw [hst.heap] at h
      exact Or.inr h

theorem handlesBuilt_handleFor {s : HostState} {node : NodeId}
    (hnode : (s.heap.nodes node).map (·.type) = some .element) :
    HandlesBuilt s (handleFor s node) where
  heap := rfl
  root := rfl
  parentOf := rfl
  pending := rfl
  handle k x h := by
    by_cases hk : k = s.nextHandle
    · rw [hk] at h
      change Function.update s.host.nodeByHandle s.nextHandle (some node) s.nextHandle = some x at h
      rw [Function.update_self] at h
      rw [← Option.some.inj h]
      exact Or.inr hnode
    · exact Or.inl ((Function.update_of_ne hk ..).symm.trans h)

theorem handlesBuilt_buildHandles (depth : ℕ) (s : HostState) (node : NodeId) :
    HandlesBuilt s (buildHandles depth s node) := by
  induction depth generalizing s node with
  | zero => exact .refl s
  | succ depth ih =>
    rw [buildHandles]
    have hfold : ∀ (l : List NodeId) (t : HostState),
        HandlesBuilt t (l.foldl (buildHandles depth) t) := by
      intro l
      induction l with
      | nil => exact .refl
      | cons c l ihl => exact fun t => (ih t c).trans (ihl _)
    split
    · rename_i hnode
      exact (handlesBuilt_handleFor hnode).trans (hfold _ _)
    · exact hfold _ _

/-- The invariant holds of a parsed document. -/
theorem ownership_start (doc : Document) :
    Ownership (HostState.start doc) ∧ HostWf (HostState.start doc) := by
  have hb := handlesBuilt_buildHandles doc.heap.next
    { root := doc.root
      heap := doc.heap
      host := { parentOf := collect doc.heap doc.heap.next doc.root fun _ => none } } doc.root
  have hheap : (HostState.start doc).heap = doc.heap := hb.heap
  have hroot : (HostState.start doc).root = doc.root := hb.root
  have hpending : (HostState.start doc).host.pending = [] := hb.pending
  have hparent : (HostState.start doc).host.parentOf =
      collect doc.heap doc.heap.next doc.root fun _ => none := hb.parentOf
  have hunowned : ∀ x, ¬ Owns (HostState.start doc) .pending x := by
    intro x hx
    rw [Owns, hpending] at hx
    exact List.not_mem_nil hx
  refine ⟨⟨⟨?_, ?_, ?_, ?_, ?_, ?_⟩, ?_⟩, ⟨?_, ?_, ?_, ?_⟩⟩
  · intro x hx hne
    rw [hheap] at hx
    rw [hroot] at hne
    obtain ⟨p, hp⟩ := (doc.attached x hx).resolve_left hne
    refine ⟨.childList p, ?_, ?_⟩
    · rwa [← hheap] at hp
    · rintro (_ | q) ho
      · exact absurd ho (hunowned x)
      · rw [Owns, hheap, ← doc.link_iff] at ho
        rw [← doc.link_iff, ho] at hp
        rw [Option.some.inj hp]
  · rintro (_ | p) ho
    · exact hunowned _ ho
    · rw [Owns, hheap, hroot, ← doc.link_iff, doc.rootLink] at ho
      cases ho
  · rw [hpending]
    exact List.nodup_nil
  · rw [hheap]
    exact doc.nodup
  · rw [hheap]
    exact doc.link_iff
  · intro p x
    rw [hparent, hheap]
    exact collect_document doc p x
  · rw [hheap]
    exact doc.acyclic
  · rw [hheap]
    exact doc.fresh
  · obtain ⟨node, hnode, htype⟩ := doc.rootNode
    rw [hheap, hroot, hnode, Option.map_some, htype]
  · rintro (_ | p) x ho
    · exact absurd ho (hunowned x)
    · rw [Owns, hheap] at ho
      rw [hheap]
      by_contra hnone
      rw [Option.not_isSome_iff_eq_none] at hnone
      have hlink := (doc.link_iff p x).mpr ho
      rw [Heap.parentOf, hnone] at hlink
      cases hlink
  · intro k x hk
    rw [hheap]
    rcases hb.handle k x hk with h | h
    · cases h
    · exact h

/-! ## What `adopt` does -/

/-- The node has left its owner and is the last child of the parent. -/
structure Adopted (s : HostState) (parent child : NodeId) (t : HostState) : Prop where
  children : ∀ q, t.heap.childrenOf q =
    (s.heap.childrenOf q).erase child ++ if q = parent then [child] else []
  link : t.heap.parentOf = Function.update s.heap.parentOf child (some parent)
  parentOf : t.host.parentOf = Function.update s.host.parentOf child (some parent)
  pending : t.host.pending = s.host.pending.erase child
  root : t.root = s.root
  next : t.heap.next = s.heap.next
  type : ∀ x, (t.heap.nodes x).map (·.type) = (s.heap.nodes x).map (·.type)
  handle : t.host.nodeByHandle = s.host.nodeByHandle

theorem isSome_iff_of_type {o o' : Option DomNode}
    (h : o.map (·.type) = o'.map (·.type)) : o.isSome ↔ o'.isSome := by
  cases o <;> cases o' <;> simp at h ⊢

/-- `attach` after the node has been taken from its owner. -/
theorem adopted_attach {s s₁ : HostState} {parent child : NodeId}
    (hp : (s.heap.nodes parent).isSome) (hc : (s.heap.nodes child).isSome)
    (hchildren : ∀ q, s₁.heap.childrenOf q = (s.heap.childrenOf q).erase child)
    (hlink : s₁.heap.parentOf = s.heap.parentOf) (hparent : s₁.host.parentOf = s.host.parentOf)
    (hpending : s₁.host.pending = s.host.pending.erase child) (hroot : s₁.root = s.root)
    (hnext : s₁.heap.next = s.heap.next)
    (htype : ∀ x, (s₁.heap.nodes x).map (·.type) = (s.heap.nodes x).map (·.type))
    (hhandle : s₁.host.nodeByHandle = s.host.nodeByHandle) :
    Adopted s parent child (attach s₁ parent child) where
  children q := by
    rw [← hchildren]
    exact Heap.childrenOf_appendChild ((isSome_iff_of_type (htype parent)).mpr hp) child q
  link := by
    rw [← hlink]
    exact Heap.parentOf_appendChild ((isSome_iff_of_type (htype child)).mpr hc) parent
  parentOf := by
    rw [← hparent]
    rfl
  pending := hpending
  root := hroot
  next := hnext
  type x := (Heap.type_appendChild ..).trans (htype x)
  handle := hhandle

/-- **`adopt`** moves every node but the root, wherever its `unique_ptr` is. -/
theorem adopted_adopt {s : HostState} (hown : OwnedOnce s) {parent child : NodeId}
    (hp : (s.heap.nodes parent).isSome) (hc : (s.heap.nodes child).isSome)
    (hne : child ≠ s.root) : Adopted s parent child (adopt s parent child) := by
  obtain ⟨o, ho, honly⟩ := hown.oneOwner child hc hne
  have herase : ∀ q, o ≠ .childList q → (s.heap.childrenOf q).erase child = s.heap.childrenOf q :=
    fun q hq => List.erase_of_not_mem fun hmem => hq (honly (.childList q) hmem).symm
  rw [adopt]
  cases o with
  | pending =>
    have hmem : child ∈ s.host.pending := ho
    rw [if_pos hmem]
    exact adopted_attach hp hc (fun q => (herase q Owner.noConfusion).symm) rfl rfl rfl rfl rfl
      (fun _ => rfl) rfl
  | childList par =>
    have hnot : child ∉ s.host.pending := fun hmem => Owner.noConfusion (honly .pending hmem)
    rw [if_neg hnot, (hown.parentOf_iff par child).mpr ho]
    dsimp only
    have hmem : child ∈ s.heap.childrenOf par := ho
    rw [detachChild, if_pos hmem]
    refine adopted_attach hp hc (fun q => ?_) ?_ rfl (List.erase_of_not_mem hnot).symm rfl rfl
      (fun x => ?_) rfl
    · rw [Heap.childrenOf_modify]
      split
      · rename_i hq
        rw [Heap.childrenOf]
        cases s.heap.nodes q <;> rfl
      · rename_i hq
        exact (herase q fun heq => hq (Owner.childList.inj heq).symm).symm
    · funext q
      rw [Heap.parentOf_modify]
      split
      · rw [Heap.parentOf]
      · rfl
    · rw [Heap.type_modify]
      exact fun _ => rfl

/-! ## The steps -/

theorem Adopted.owns_iff {s t : HostState} {parent child : NodeId} (h : Adopted s parent child t)
    (hown : OwnedOnce s) (o : Owner) (x : NodeId) :
    Owns t o x ↔ x = child ∧ o = .childList parent ∨ x ≠ child ∧ Owns s o x := by
  cases o with
  | pending =>
    rw [Owns, h.pending, hown.pendingNodup.mem_erase_iff, Owns]
    simp
  | childList q =>
    rw [Owns, h.children, List.mem_append, (hown.childrenNodup q).mem_erase_iff, Owns]
    by_cases hq : q = parent <;> simp [hq, or_comm]

theorem Adopted.isSome_iff {s t : HostState} {parent child : NodeId}
    (h : Adopted s parent child t) (x : NodeId) :
    (t.heap.nodes x).isSome ↔ (s.heap.nodes x).isSome :=
  isSome_iff_of_type (h.type x)

/-- The lists and links stay in agreement whatever is appended to whatever. -/
theorem Adopted.ownedOnce {s t : HostState} {parent child : NodeId}
    (h : Adopted s parent child t) (hown : OwnedOnce s) (hne : child ≠ s.root) :
    OwnedOnce t := by
  have hlists : ∀ p x, x ∈ t.heap.childrenOf p ↔
      x = child ∧ p = parent ∨ x ≠ child ∧ x ∈ s.heap.childrenOf p := by
    intro p x
    have := h.owns_iff hown (.childList p) x
    simpa [Owns] using this
  have hupdate : ∀ {m : NodeId → Option NodeId}, (∀ p x, m x = some p ↔ x ∈ s.heap.childrenOf p) →
      ∀ p x, Function.update m child (some parent) x = some p ↔ x ∈ t.heap.childrenOf p := by
    intro m hm p x
    rw [hlists]
    by_cases hx : x = child
    · rw [hx, Function.update_self]
      simp [eq_comm]
    · rw [Function.update_of_ne hx, hm]
      simp [hx]
  refine ⟨fun x hx hroot => ?_, fun o => ?_, ?_, fun p => ?_, ?_, ?_⟩
  · by_cases hxc : x = child
    · refine ⟨.childList parent, (h.owns_iff hown _ _).mpr (Or.inl ⟨hxc, rfl⟩), fun o ho => ?_⟩
      rcases (h.owns_iff hown _ _).mp ho with ⟨-, ho⟩ | ⟨hxc', -⟩
      · exact ho
      · exact absurd hxc hxc'
    · obtain ⟨o, ho, honly⟩ := hown.oneOwner x ((h.isSome_iff x).mp hx) (h.root ▸ hroot)
      refine ⟨o, (h.owns_iff hown _ _).mpr (Or.inr ⟨hxc, ho⟩), fun o' ho' => ?_⟩
      rcases (h.owns_iff hown _ _).mp ho' with ⟨hxc', -⟩ | ⟨-, ho'⟩
      · exact absurd hxc' hxc
      · exact honly o' ho'
  · rw [h.root, h.owns_iff hown]
    rintro (⟨hroot, -⟩ | ⟨-, ho⟩)
    · exact hne hroot.symm
    · exact hown.rootUnowned o ho
  · rw [h.pending]
    exact hown.pendingNodup.erase child
  · rw [h.children]
    refine List.Nodup.append ((hown.childrenNodup p).erase child) ?_ ?_
    · split
      · exact List.nodup_singleton child
      · exact List.nodup_nil
    · intro x hx hx'
      split at hx'
      · rw [List.mem_singleton] at hx'
        exact ((hown.childrenNodup p).mem_erase_iff.mp hx).1 hx'
      · exact List.not_mem_nil hx'
  · rw [h.link]
    exact hupdate hown.link_iff
  · rw [h.parentOf]
    exact hupdate hown.parentOf_iff

theorem Adopted.hostWf {s t : HostState} {parent child : NodeId}
    (h : Adopted s parent child t) (hown : OwnedOnce s) (hwf : HostWf s)
    (hc : (s.heap.nodes child).isSome) : HostWf t where
  fresh x hx := by
    rw [h.next] at hx
    have hnone := hwf.fresh x hx
    have htype := h.type x
    rw [hnone] at htype
    exact Option.map_eq_none_iff.mp htype
  rootNode := by rw [h.type, h.root, hwf.rootNode]
  owned o x ho := by
    rw [h.isSome_iff]
    rcases (h.owns_iff hown o x).mp ho with ⟨rfl, -⟩ | ⟨-, ho⟩
    · exact hc
    · exact hwf.owned o x ho
  handle k x hk := by
    rw [h.handle] at hk
    rw [h.type]
    exact hwf.handle k x hk

section CreateElement

variable {s : HostState} (hown : Ownership s) (hwf : HostWf s) (tag : Bytes)

theorem nodes_createElement (x : NodeId) : (createElement s tag).heap.nodes x =
    if x = s.heap.next then some { type := .element, name := tag } else s.heap.nodes x :=
  s.heap.nodes_alloc { type := .element, name := tag } x

include hwf

theorem childrenOf_createElement (p : NodeId) :
    (createElement s tag).heap.childrenOf p = s.heap.childrenOf p := by
  rw [Heap.childrenOf, Heap.childrenOf, nodes_createElement]
  split
  next hp =>
    rw [hp, hwf.fresh s.heap.next le_rfl]
    rfl
  · rfl

theorem parentOf_createElement (x : NodeId) :
    (createElement s tag).heap.parentOf x = s.heap.parentOf x := by
  rw [Heap.parentOf, Heap.parentOf, nodes_createElement]
  split
  next hx =>
    rw [hx, hwf.fresh s.heap.next le_rfl]
    rfl
  · rfl

theorem owns_createElement_iff (o : Owner) (x : NodeId) :
    Owns (createElement s tag) o x ↔ x = s.heap.next ∧ o = .pending ∨ Owns s o x := by
  cases o with
  | pending =>
    show x ∈ s.host.pending ++ [s.heap.next] ↔ _
    simp [Owns, or_comm]
  | childList p =>
    show x ∈ (createElement s tag).heap.childrenOf p ↔ _
    rw [childrenOf_createElement hwf]
    simp [Owns]

theorem HostWf.not_owns_next (o : Owner) : ¬Owns s o s.heap.next := by
  intro ho
  have hsome := hwf.owned o _ ho
  rw [hwf.fresh s.heap.next le_rfl] at hsome
  exact Bool.false_ne_true hsome

theorem HostWf.root_ne_next : s.root ≠ s.heap.next := by
  intro heq
  have hroot := hwf.rootNode
  rw [heq, hwf.fresh s.heap.next le_rfl] at hroot
  cases hroot

theorem hostWf_createElement : HostWf (createElement s tag) where
  fresh x hx := by
    have hx' : s.heap.next + 1 ≤ x := hx
    rw [nodes_createElement, if_neg (Nat.ne_of_gt hx')]
    exact hwf.fresh x (Nat.le_of_succ_le hx')
  rootNode := by
    show ((createElement s tag).heap.nodes s.root).map (·.type) = some .document
    rw [nodes_createElement, if_neg hwf.root_ne_next]
    exact hwf.rootNode
  owned o x ho := by
    rw [nodes_createElement]
    split
    · rfl
    next hx =>
      rcases (owns_createElement_iff hwf tag o x).mp ho with ⟨hx', -⟩ | ho
      · exact absurd hx' hx
      · exact hwf.owned o x ho
  handle k x hk := by
    rw [nodes_createElement]
    split
    · rfl
    next hx =>
      change Function.update s.host.nodeByHandle s.nextHandle (some s.heap.next) k = some x at hk
      by_cases hkn : k = s.nextHandle
      · rw [hkn, Function.update_self] at hk
        exact absurd (Option.some.inj hk).symm hx
      · exact hwf.handle k x ((Function.update_of_ne hkn ..).symm.trans hk)

include hown

theorem ownedOnce_createElement : OwnedOnce (createElement s tag) where
  oneOwner x hx hroot := by
    by_cases hxn : x = s.heap.next
    · refine ⟨.pending, (owns_createElement_iff hwf tag _ _).mpr (Or.inl ⟨hxn, rfl⟩), fun o ho => ?_⟩
      rcases (owns_createElement_iff hwf tag _ _).mp ho with ⟨-, ho⟩ | ho
      · exact ho
      · rw [hxn] at ho
        exact absurd ho (hwf.not_owns_next o)
    · rw [nodes_createElement, if_neg hxn] at hx
      obtain ⟨o, ho, honly⟩ := hown.oneOwner x hx hroot
      refine ⟨o, (owns_createElement_iff hwf tag _ _).mpr (Or.inr ho), fun o' ho' => ?_⟩
      rcases (owns_createElement_iff hwf tag _ _).mp ho' with ⟨hxn', -⟩ | ho'
      · exact absurd hxn' hxn
      · exact honly o' ho'
  rootUnowned o ho := by
    rcases (owns_createElement_iff hwf tag _ _).mp ho with ⟨heq, -⟩ | ho
    · exact hwf.root_ne_next heq
    · exact hown.rootUnowned o ho
  pendingNodup := by
    refine List.Nodup.append hown.pendingNodup (List.nodup_singleton _) fun x hx hx' => ?_
    rw [List.mem_singleton.mp hx'] at hx
    exact hwf.not_owns_next .pending hx
  childrenNodup p := by
    rw [childrenOf_createElement hwf]
    exact hown.childrenNodup p
  link_iff p x := by
    rw [childrenOf_createElement hwf, parentOf_createElement hwf]
    exact hown.link_iff p x
  parentOf_iff p x := by
    rw [childrenOf_createElement hwf]
    exact hown.parentOf_iff p x

/-- A created element is in the pending table, and everything else is as before. -/
theorem ownership_createElement :
    Ownership (createElement s tag) ∧ HostWf (createElement s tag) := by
  refine ⟨⟨ownedOnce_createElement hown hwf tag, ?_⟩, hostWf_createElement hwf tag⟩
  rw [funext (parentOf_createElement hwf tag)]
  exact hown.acyclic

end CreateElement

/-- The call does not append a node to itself or to a node below it. -/
def StaysAbove (s : HostState) : ScriptCall → Prop
  | .createElement _ => True
  | .appendChild receiver argument =>
    ∀ node child, s.host.nodeByHandle receiver = some node →
      s.host.nodeByHandle argument = some child →
        ¬ (child = node ∨ IsAncestor s.heap.parentOf child node)

/-- What a call of `appendChild` with two handles does, and when it keeps the forest. -/
theorem ownership_appendChild {s : HostState} (hown : Ownership s) (hwf : HostWf s)
    {receiver argument : HandleId} {node child : NodeId}
    (hr : s.host.nodeByHandle receiver = some node)
    (ha : s.host.nodeByHandle argument = some child) :
    HostWf (appendChild s receiver argument) ∧
      (Ownership (appendChild s receiver argument) ↔
        ¬ (child = node ∨ IsAncestor s.heap.parentOf child node)) := by
  have hc := isSome_of_type (hwf.handle _ _ ha)
  have hne := hwf.ne_root ha
  have hadopt := adopted_adopt hown.toOwnedOnce (isSome_of_type (hwf.handle _ _ hr)) hc hne
  have heq : appendChild s receiver argument = adopt s node child := by
    rw [appendChild, hr, ha]
  rw [heq]
  refine ⟨hadopt.hostWf hown.toOwnedOnce hwf hc, fun h => ?_, fun h => ?_⟩
  · have hac := h.acyclic
    rw [hadopt.link] at hac
    exact (acyclic_update_iff hown.acyclic).mp hac
  · refine ⟨hadopt.ownedOnce hown.toOwnedOnce hne, ?_⟩
    rw [hadopt.link]
    exact (acyclic_update_iff hown.acyclic).mpr h

theorem ownership_step {s : HostState} (h : Ownership s ∧ HostWf s) (c : ScriptCall) :
    (StaysAbove s c → Ownership (scriptStep s c) ∧ HostWf (scriptStep s c)) ∧
      (¬ StaysAbove s c → ¬ Ownership (scriptStep s c)) := by
  obtain ⟨hown, hwf⟩ := h
  cases c with
  | createElement tag =>
    exact ⟨fun _ => ownership_createElement hown hwf tag, fun hnot => absurd trivial hnot⟩
  | appendChild receiver argument =>
    show (_ → Ownership (appendChild s receiver argument) ∧ _) ∧ _
    constructor
    · intro hstays
      cases hr : s.host.nodeByHandle receiver with
      | none =>
        have heq : appendChild s receiver argument = s := by rw [appendChild, hr]
        exact (congrArg (fun t => Ownership t ∧ HostWf t) heq).mpr ⟨hown, hwf⟩
      | some node =>
        cases ha : s.host.nodeByHandle argument with
        | none =>
          have heq : appendChild s receiver argument = s := by rw [appendChild, hr, ha]
          exact (congrArg (fun t => Ownership t ∧ HostWf t) heq).mpr ⟨hown, hwf⟩
        | some child =>
          obtain ⟨hwf', hiff⟩ := ownership_appendChild hown hwf hr ha
          exact ⟨hiff.mpr (hstays node child hr ha), hwf'⟩
    · intro hnot hown'
      refine hnot fun node child hr ha => ?_
      exact (ownership_appendChild hown hwf hr ha).2.mp hown'

/-- **Ownership over whole runs.**  In every state of a run from a parsed document each node has
one owner, the links form a forest and `parent_of` agrees with the lists, exactly when no call
of the run appends a node to itself or to a node that is below it at that moment. -/
theorem ownership_iff_staysAbove (doc : Document) (calls : List ScriptCall) :
    (∀ t ∈ calls.scanl scriptStep (HostState.start doc), Ownership t) ↔
      Runs.Along scriptStep StaysAbove (HostState.start doc) calls :=
  Runs.forall_mem_scanl_iff (fun _ h => h.1) (fun _ c h => (ownership_step h c).1)
    (fun _ c h => (ownership_step h c).2) (ownership_start doc)

/-- A document with one node in it, and one node in that: the document is 0, the others are 1 and
2. -/
def chain (outer inner : DomNode) : Document where
  heap := {
    nodes := fun
      | 0 => some { type := .document, children := [1] }
      | 1 => some { outer with children := [2], parent := some 0 }
      | 2 => some { inner with children := [], parent := some 1 }
      | _ => none
    next := 3 }
  root := 0
  fresh
    | _ + 3, _ => rfl
  rootNode := ⟨_, rfl, rfl⟩
  rootLink := rfl
  lt_of_mem
    | 0, x, h => by simp [List.mem_singleton.mp h]
    | 1, x, h => by simp [List.mem_singleton.mp h]
    | 2, x, h => absurd h List.not_mem_nil
    | _ + 3, x, h => absurd h List.not_mem_nil
  link_iff p x := by
    rcases p with _ | _ | _ | p <;> rcases x with _ | _ | _ | x <;>
      simp [Heap.parentOf, Heap.childrenOf]
  nodup
    | 0 => List.nodup_singleton 1
    | 1 => List.nodup_singleton 2
    | 2 => List.nodup_nil
    | _ + 3 => List.nodup_nil
  attached
    | 0, _ => Or.inl rfl
    | 1, _ => Or.inr ⟨0, List.mem_singleton_self 1⟩
    | 2, _ => Or.inr ⟨1, List.mem_singleton_self 2⟩
    | _ + 3, h => absurd h Bool.false_ne_true

/-- `<div><p></p></div>`. -/
def nested : Document :=
  chain { type := .element, name := lit "div" } { type := .element, name := lit "p" }

/-- `p.appendChild(div)` on `<div><p></p></div>` makes the two nodes parents of each other. -/
theorem not_ownership_appendChild_ancestor :
    ¬ ∀ (doc : Document) (calls : List ScriptCall),
      ∀ t ∈ calls.scanl scriptStep (HostState.start doc), Ownership t := by
  intro h
  have hown := h nested [.appendChild 1 0] (appendChild (HostState.start nested) 1 0)
    (List.mem_cons_of_mem _ (List.mem_singleton_self _))
  have hdiv : (appendChild (HostState.start nested) 1 0).heap.parentOf 1 = some 2 := by decide
  have hp : (appendChild (HostState.start nested) 1 0).heap.parentOf 2 = some 1 := by decide
  exact hown.acyclic 1 (.tail (.single hp) hdiv)

end Aetheris.Dom
