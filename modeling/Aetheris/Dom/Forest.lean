import Aetheris.Dom.Document

/-!
# Subtrees of a heap

Where the parent links form a forest, the nodes below a node are those that its children lists lead
to, and no walk down is longer than there are nodes: it would visit a node twice, and that node
would be above itself.  So what is computed down to that depth, as `Heap.below` and the text below a
node are, does not depend on the depth.  A change below one node leaves the text on both sides of it
as it was (`exists_nodeText_split`).
-/

namespace Aetheris.Dom

open Ancestry

namespace Heap

/-- Every child is below exactly one node, and nothing is below itself. -/
structure Forest (h : Heap) : Prop where
  fresh : ∀ x, h.next ≤ x → h.nodes x = none
  link_iff : ∀ p x, h.parentOf x = some p ↔ x ∈ h.childrenOf p
  nodup : ∀ p, (h.childrenOf p).Nodup
  acyclic : Acyclic h.parentOf

/-- The nodes below a node, down to the given depth. -/
def below (h : Heap) : ℕ → NodeId → List NodeId
  | 0, _ => []
  | depth + 1, id => (h.childrenOf id).flatMap fun child => child :: below h depth child

variable {h : Heap}

theorem Reach.trans {h : Heap} {m n : ℕ} {a b c : NodeId} (hab : h.Reach m a b)
    (hbc : h.Reach n b c) : h.Reach (m + n) a c := by
  induction hab with
  | refl a =>
    rw [Nat.zero_add]
    exact hbc
  | child hb _ ih =>
    rw [Nat.add_right_comm]
    exact .child hb (ih hbc)

theorem isSome_of_parentOf {x p : NodeId} (hx : h.parentOf x = some p) : (h.nodes x).isSome := by
  rw [parentOf] at hx
  cases hnode : h.nodes x with
  | none => rw [hnode] at hx; cases hx
  | some node => rfl

theorem childrenOf_of_none {x : NodeId} (hx : h.nodes x = none) : h.childrenOf x = [] := by
  rw [childrenOf, hx]
  rfl

namespace Forest

variable (hf : h.Forest)

include hf

theorem lt_next {x : NodeId} (hx : (h.nodes x).isSome) : x < h.next := by
  by_contra hle
  rw [hf.fresh x (Nat.not_lt.mp hle)] at hx
  exact Bool.false_ne_true hx

theorem isParent_of_mem {p x : NodeId} (hx : x ∈ h.childrenOf p) : IsParent h.parentOf p x :=
  (hf.link_iff p x).mpr hx

theorem isAncestor_of_reach {n : ℕ} {a b : NodeId} (hab : h.Reach n a b) :
    a = b ∨ IsAncestor h.parentOf a b := by
  induction hab with
  | refl a => exact Or.inl rfl
  | child hb _ ih =>
    rcases ih with rfl | ih
    · exact Or.inr (.single (hf.isParent_of_mem hb))
    · exact Or.inr (ih.head (hf.isParent_of_mem hb))

theorem reach_of_isAncestor {a b : NodeId} (hab : IsAncestor h.parentOf a b) :
    ∃ n, h.Reach (n + 1) a b := by
  induction hab with
  | single hab => exact ⟨0, .child ((hf.link_iff _ _).mp hab) (.refl _)⟩
  | tail _ hbc ih =>
    obtain ⟨n, hn⟩ := ih
    exact ⟨n + 1, hn.tail ((hf.link_iff _ _).mp hbc)⟩

/-- A walk down to a node goes through its ancestors. -/
theorem reach_congr {h' : Heap} {n : ℕ} {a x : NodeId} (hreach : h.Reach n a x)
    (hchildren : ∀ y, IsAncestor h.parentOf y x → h'.childrenOf y = h.childrenOf y) :
    h'.Reach n a x := by
  induction hreach with
  | refl a => exact .refl a
  | @child n a b x hb hreach ih =>
    have hlink := hf.isParent_of_mem hb
    have hax : IsAncestor h.parentOf a x := by
      rcases hf.isAncestor_of_reach hreach with rfl | hbx
      · exact .single hlink
      · exact hbx.head hlink
    refine .child ?_ (ih hchildren)
    rw [hchildren a hax]
    exact hb

omit hf in
theorem isSome_of_isAncestor {a b : NodeId} (hab : IsAncestor h.parentOf a b) :
    (h.nodes b).isSome := by
  obtain ⟨c, -, hcb⟩ := Relation.TransGen.tail'_iff.mp hab
  exact isSome_of_parentOf hcb

/-- The nodes on a walk down are different. -/
theorem exists_path {n : ℕ} {a b : NodeId} (hab : h.Reach n a b) (ha : (h.nodes a).isSome) :
    ∃ l : List NodeId, l.length = n + 1 ∧ l.Nodup ∧
      ∀ x ∈ l, (x = a ∨ IsAncestor h.parentOf a x) ∧ x < h.next := by
  induction hab with
  | refl a =>
    refine ⟨[a], rfl, List.nodup_singleton a, fun x hx => ?_⟩
    rw [List.mem_singleton.mp hx]
    exact ⟨Or.inl rfl, hf.lt_next ha⟩
  | @child n a b c hb _ ih =>
    have hlink := hf.isParent_of_mem hb
    obtain ⟨l, hlength, hnodup, hl⟩ := ih (isSome_of_parentOf hlink)
    have hbelow : ∀ x ∈ l, IsAncestor h.parentOf a x := by
      intro x hx
      rcases (hl x hx).1 with rfl | hbx
      · exact .single hlink
      · exact hbx.head hlink
    refine ⟨a :: l, congrArg Nat.succ hlength, ?_, fun x hx => ?_⟩
    · exact List.nodup_cons.mpr ⟨fun hmem => hf.acyclic a (hbelow a hmem), hnodup⟩
    · rcases List.mem_cons.mp hx with rfl | hx
      · exact ⟨Or.inl rfl, hf.lt_next ha⟩
      · exact ⟨Or.inr (hbelow x hx), (hl x hx).2⟩

/-- **No walk down is longer than there are nodes.** -/
theorem lt_next_of_reach {n : ℕ} {a b : NodeId} (hab : h.Reach n a b)
    (ha : (h.nodes a).isSome) : n < h.next := by
  obtain ⟨l, hlength, hnodup, hl⟩ := hf.exists_path hab ha
  have hsub : l ⊆ List.range h.next := fun x hx => List.mem_range.mpr (hl x hx).2
  have hle := (hnodup.subperm hsub).length_le
  rw [List.length_range, hlength] at hle
  exact hle

omit hf in
theorem mem_below_iff_reach {depth : ℕ} {a b : NodeId} :
    b ∈ h.below depth a ↔ ∃ n < depth, h.Reach (n + 1) a b := by
  induction depth generalizing a with
  | zero => exact iff_of_false List.not_mem_nil fun ⟨n, hn, _⟩ => Nat.not_lt_zero n hn
  | succ depth ih =>
    rw [below, List.mem_flatMap]
    constructor
    · rintro ⟨c, hc, hb⟩
      rcases List.mem_cons.mp hb with rfl | hb
      · exact ⟨0, Nat.succ_pos depth, .child hc (.refl _)⟩
      · obtain ⟨n, hn, hreach⟩ := ih.mp hb
        exact ⟨n + 1, Nat.succ_lt_succ hn, .child hc hreach⟩
    · rintro ⟨n, hn, hreach⟩
      cases hreach with
      | @child _ _ c _ hc hreach =>
        refine ⟨c, hc, ?_⟩
        cases n with
        | zero =>
          cases hreach with
          | refl => exact List.mem_cons_self
        | succ n => exact List.mem_cons_of_mem _ (ih.mpr ⟨n, Nat.lt_of_succ_lt_succ hn, hreach⟩)

/-- **The nodes below a node are its descendants.** -/
theorem mem_below_iff {depth : ℕ} (hdepth : h.next ≤ depth) {a b : NodeId}
    (ha : (h.nodes a).isSome) : b ∈ h.below depth a ↔ IsAncestor h.parentOf a b := by
  rw [mem_below_iff_reach]
  constructor
  · rintro ⟨n, -, hreach⟩
    rcases hf.isAncestor_of_reach hreach with rfl | hab
    · cases hreach with
      | child hc hreach =>
        rcases hf.isAncestor_of_reach hreach with rfl | hcb
        · exact .single (hf.isParent_of_mem hc)
        · exact hcb.head (hf.isParent_of_mem hc)
    · exact hab
  · intro hab
    obtain ⟨n, hreach⟩ := hf.reach_of_isAncestor hab
    have hlt := hf.lt_next_of_reach hreach ha
    exact ⟨n, (Nat.lt_of_succ_lt hlt).trans_le hdepth, hreach⟩

/-- What is below a child is below none of its siblings, nor one of them. -/
theorem sibling {p c d x : NodeId} (hc : c ∈ h.childrenOf p) (hd : d ∈ h.childrenOf p)
    (hne : c ≠ d) (hx : x = c ∨ IsAncestor h.parentOf c x) :
    ¬ (x = d ∨ IsAncestor h.parentOf d x) := by
  have hpc := hf.isParent_of_mem hc
  have hpd := hf.isParent_of_mem hd
  have hnot : ∀ {a b : NodeId}, IsParent h.parentOf p a → IsParent h.parentOf p b →
      ¬ IsAncestor h.parentOf a b := by
    intro a b ha hb hab
    rcases (isAncestor_iff hb).mp hab with rfl | hap
    · exact hf.acyclic _ (.single ha)
    · exact hf.acyclic _ (hap.tail ha)
  rcases hx with rfl | hx
  · rintro (heq | hdx)
    · exact hne heq
    · exact hnot hpd hpc hdx
  · rintro (rfl | hdx)
    · exact hnot hpc hpd hx
    · rcases isAncestor_trichotomy hx hdx with heq | hcd | hdc
      · exact hne heq
      · exact hnot hpc hpd hcd
      · exact hnot hpd hpc hdc

/-- The nodes of a subtree are listed once. -/
theorem nodup_below (depth : ℕ) (a : NodeId) : (a :: h.below depth a).Nodup := by
  have hanc : ∀ {a b : NodeId}, b ∈ h.below depth a → IsAncestor h.parentOf a b := by
    intro a b hb
    obtain ⟨n, -, hreach⟩ := mem_below_iff_reach.mp hb
    cases hreach with
    | child hc hreach =>
      rcases hf.isAncestor_of_reach hreach with rfl | hcb
      · exact .single (hf.isParent_of_mem hc)
      · exact hcb.head (hf.isParent_of_mem hc)
  refine List.nodup_cons.mpr ⟨fun hmem => hf.acyclic a (hanc hmem), ?_⟩
  clear hanc
  induction depth generalizing a with
  | zero => exact List.nodup_nil
  | succ depth ih =>
    have hsub : ∀ {c x : NodeId}, x ∈ c :: h.below depth c →
        x = c ∨ IsAncestor h.parentOf c x := by
      intro c x hx
      rcases List.mem_cons.mp hx with rfl | hx
      · exact Or.inl rfl
      · obtain ⟨n, -, hreach⟩ := mem_below_iff_reach.mp hx
        rcases hf.isAncestor_of_reach hreach with rfl | hcx
        · exact Or.inl rfl
        · exact Or.inr hcx
    rw [below, List.nodup_flatMap]
    refine ⟨fun c _ => List.nodup_cons.mpr ⟨fun hmem => ?_, ih c⟩, ?_⟩
    · obtain ⟨n, -, hreach⟩ := mem_below_iff_reach.mp hmem
      cases hreach with
      | child hc hreach =>
        rcases hf.isAncestor_of_reach hreach with rfl | hcb
        · exact hf.acyclic _ (.single (hf.isParent_of_mem hc))
        · exact hf.acyclic _ (hcb.head (hf.isParent_of_mem hc))
    · refine (hf.nodup a).imp_of_mem fun {c d} hc hd hne => ?_
      intro x hxc hxd
      exact hf.sibling hc hd hne (hsub hxc) (hsub hxd)

end Forest

/-- A depth below which there is no node makes no difference. -/
theorem below_succ_of_reach {depth : ℕ} {x : NodeId}
    (hdepth : ∀ n b, h.Reach n x b → n ≤ depth) : h.below (depth + 1) x = h.below depth x := by
  induction depth generalizing x with
  | zero =>
    rw [below, below, List.flatMap_eq_nil_iff]
    intro c hc
    exact absurd (hdepth 1 c (.child hc (.refl c))) (Nat.not_succ_le_zero 0)
  | succ depth ih =>
    rw [below, below]
    refine List.flatMap_congr fun c hc => congrArg (c :: ·) (ih fun n b hb => ?_)
    exact Nat.le_of_succ_le_succ (hdepth (n + 1) b (.child hc hb))

end Heap

/-! ## The text below a node -/

/-- The text of the node itself. -/
def ownText (h : Heap) (id : NodeId) : Bytes :=
  match h.nodes id with
  | some node => if node.type = .text then node.data else []
  | none => []

theorem nodeText_succ (h : Heap) (depth : ℕ) (id : NodeId) :
    nodeText h (depth + 1) id = ownText h id ++ (h.childrenOf id).flatMap (nodeText h depth) := rfl

/-- A depth below which there is no node makes no difference. -/
theorem nodeText_eq_of_le {h : Heap} {depth : ℕ} {x : NodeId}
    (hdepth : ∀ n b, h.Reach n x b → n < depth) {depth' : ℕ} (hle : depth ≤ depth') :
    nodeText h depth' x = nodeText h depth x := by
  induction depth generalizing x depth' with
  | zero => exact absurd (hdepth 0 x (.refl x)) (Nat.not_lt_zero 0)
  | succ depth ih =>
    cases depth' with
    | zero => exact absurd hle (Nat.not_succ_le_zero depth)
    | succ depth' =>
      rw [nodeText_succ, nodeText_succ]
      congr 1
      refine List.flatMap_congr fun c hc => ih (fun n b hreach => ?_) (Nat.le_of_succ_le_succ hle)
      exact Nat.lt_of_succ_lt_succ (hdepth (n + 1) b (.child hc hreach))

/-- The text below a node depends on the nodes below it. -/
theorem nodeText_congr {h h' : Heap} (hf : h.Forest) {x : NodeId}
    (hnodes : ∀ y, y = x ∨ IsAncestor h.parentOf x y → h'.nodes y = h.nodes y) (depth : ℕ) :
    nodeText h' depth x = nodeText h depth x := by
  induction depth generalizing x with
  | zero => rfl
  | succ depth ih =>
    have hx := hnodes x (Or.inl rfl)
    rw [nodeText_succ, nodeText_succ, ownText, ownText, Heap.childrenOf, Heap.childrenOf, hx]
    congr 1
    refine List.flatMap_congr fun c hc => ih fun y hy => hnodes y (Or.inr ?_)
    have hlink := hf.isParent_of_mem hc
    rcases hy with rfl | hy
    · exact .single hlink
    · exact hy.head hlink

/-- **The text below a node, split at a node below it.**  Two heaps that differ only there have
the same text on both sides. -/
theorem exists_nodeText_split {h h' : Heap} (hf : h.Forest) {n : ℕ} {a x : NodeId}
    (hreach : h.Reach n a x)
    (hnodes : ∀ y, (h.nodes y).isSome → ¬ (y = x ∨ IsAncestor h.parentOf x y) →
      h'.nodes y = h.nodes y) (depth : ℕ) :
    ∃ front back, nodeText h (depth + n) a = front ++ nodeText h depth x ++ back ∧
      nodeText h' (depth + n) a = front ++ nodeText h' depth x ++ back := by
  induction hreach with
  | refl a =>
    refine ⟨[], [], ?_, ?_⟩
    · rw [List.nil_append, List.append_nil, Nat.add_zero]
    · rw [List.nil_append, List.append_nil, Nat.add_zero]
  | @child n a b x hb hreach ih =>
    obtain ⟨front, back, hfront, hback⟩ := ih hnodes
    have hlink := hf.isParent_of_mem hb
    have hbx : x = b ∨ IsAncestor h.parentOf b x := by
      rcases hf.isAncestor_of_reach hreach with rfl | hbx
      · exact Or.inl rfl
      · exact Or.inr hbx
    have hax : IsAncestor h.parentOf a x := by
      rcases hbx with rfl | hbx
      · exact .single hlink
      · exact hbx.head hlink
    have ha : h'.nodes a = h.nodes a := by
      refine hnodes a (Heap.isSome_of_mem_childrenOf hb) fun ha => ?_
      rcases ha with rfl | hxa
      · exact hf.acyclic _ hax
      · exact hf.acyclic _ (hax.trans hxa)
    have hsame : ∀ c ∈ h.childrenOf a, c ≠ b →
        nodeText h' (depth + n) c = nodeText h (depth + n) c := by
      intro c hc hne
      have hlive : ∀ y, y = c ∨ IsAncestor h.parentOf c y → (h.nodes y).isSome := by
        rintro y (rfl | hy)
        · exact Heap.isSome_of_parentOf (hf.isParent_of_mem hc)
        · exact Heap.Forest.isSome_of_isAncestor hy
      refine nodeText_congr hf (fun y hy => hnodes y (hlive y hy) fun hxy => ?_) _
      refine hf.sibling hc hb hne hy ?_
      rcases hxy with rfl | hxy
      · exact hbx
      · rcases hbx with rfl | hbx
        · exact Or.inr hxy
        · exact Or.inr (hbx.trans hxy)
    obtain ⟨l, r, hsplit⟩ := List.append_of_mem hb
    have hnodup := hf.nodup a
    have hl : ∀ c ∈ l, c ∈ h.childrenOf a ∧ c ≠ b := by
      intro c hc
      rw [hsplit] at hnodup ⊢
      refine ⟨List.mem_append_left _ hc, ?_⟩
      rintro rfl
      exact (List.nodup_append.mp hnodup).2.2 c hc c List.mem_cons_self rfl
    have hr : ∀ c ∈ r, c ∈ h.childrenOf a ∧ c ≠ b := by
      intro c hc
      rw [hsplit] at hnodup ⊢
      refine ⟨List.mem_append_right _ (List.mem_cons_of_mem _ hc), ?_⟩
      rintro rfl
      exact (List.nodup_cons.mp (List.nodup_append.mp hnodup).2.1).1 hc
    refine ⟨ownText h a ++ l.flatMap (nodeText h (depth + n)) ++ front,
      back ++ r.flatMap (nodeText h (depth + n)), ?_, ?_⟩
    · rw [← Nat.add_assoc, nodeText_succ, hsplit, List.flatMap_append, List.flatMap_cons, hfront]
      simp only [List.append_assoc]
    · have hchildren : h'.childrenOf a = l ++ b :: r := by
        rw [← hsplit, Heap.childrenOf, Heap.childrenOf, ha]
      have hown : ownText h' a = ownText h a := by rw [ownText, ownText, ha]
      rw [← Nat.add_assoc, nodeText_succ, hchildren, hown, List.flatMap_append, List.flatMap_cons,
        hback, List.flatMap_congr fun c hc => hsame c (hl c hc).1 (hl c hc).2,
        List.flatMap_congr fun c hc => hsame c (hr c hc).1 (hr c hc).2]
      simp only [List.append_assoc]

end Aetheris.Dom
