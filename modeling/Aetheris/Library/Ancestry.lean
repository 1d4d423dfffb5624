import Mathlib

/-!
# Parent links

A partial function `parent` names the entry above each entry.  Its chains are the ancestors.  Moving
an entry below another one keeps the forest a forest if and only if it does not go below itself.

A pattern of parent and ancestor links is read upwards from an entry.  The search for it that takes
the nearest candidate and never returns to a choice is complete for those patterns in which no
parent link stands above an ancestor link.  `tighten` makes every pattern one of these, and asks for
more.
-/

namespace Aetheris.Ancestry

variable {α : Type*} (parent : α → Option α)

/-- `a` is the parent of `b`. -/
def IsParent (a b : α) : Prop := parent b = some a

/-- `a` is a proper ancestor of `b`. -/
def IsAncestor : α → α → Prop := Relation.TransGen (IsParent parent)

variable {parent}

theorem IsParent.unique {a a' b : α} (h : IsParent parent a b) (h' : IsParent parent a' b) :
    a = a' :=
  Option.some.inj (h.symm.trans h')

/-- A proper ancestor is the parent or an ancestor of the parent. -/
theorem isAncestor_iff {a b p : α} (h : IsParent parent p b) :
    IsAncestor parent a b ↔ a = p ∨ IsAncestor parent a p := by
  rw [IsAncestor, Relation.transGen_iff]
  constructor
  · rintro (hab | ⟨c, hac, hcb⟩)
    · exact Or.inl (hab.unique h)
    · rw [← hcb.unique h]
      exact Or.inr hac
  · rintro (rfl | hap)
    · exact Or.inl h
    · exact Or.inr ⟨p, hap, h⟩

/-- Two ancestors of one entry are above one another. -/
theorem isAncestor_trichotomy {a b c : α} (ha : IsAncestor parent a c)
    (hb : IsAncestor parent b c) :
    a = b ∨ IsAncestor parent a b ∨ IsAncestor parent b a := by
  induction ha with
  | single h =>
    rcases (isAncestor_iff h).mp hb with rfl | hb
    · exact Or.inl rfl
    · exact Or.inr (Or.inr hb)
  | tail hac h ih =>
    rcases (isAncestor_iff h).mp hb with rfl | hb
    · exact Or.inr (Or.inl hac)
    · exact ih hb

theorem not_isAncestor_of_none {a b : α} (h : parent b = none) : ¬ IsAncestor parent a b := by
  intro hab
  rcases Relation.TransGen.tail'_iff.mp hab with ⟨c, -, hcb⟩
  rw [IsParent, h] at hcb
  cases hcb

/-- The links of an entry and of those above it decide its ancestors. -/
theorem IsAncestor.congr {parent' : α → Option α} {a b : α} (h : IsAncestor parent a b)
    (hlink : ∀ x, x = b ∨ IsAncestor parent x b → parent' x = parent x) :
    IsAncestor parent' a b := by
  induction h with
  | single hab => exact .single ((hlink _ (Or.inl rfl)).trans hab)
  | @tail c b _ hcb ih =>
    refine (ih fun x hx => hlink x (Or.inr ?_)).tail ((hlink _ (Or.inl rfl)).trans hcb)
    rcases hx with rfl | hx
    · exact .single hcb
    · exact hx.tail hcb

/-! ## Moving an entry -/

/-- No entry is its own ancestor. -/
def Acyclic (parent : α → Option α) : Prop := ∀ a, ¬ IsAncestor parent a a

theorem acyclic_of_lt {parent : ℕ → Option ℕ} (h : ∀ a b, IsParent parent a b → a < b) :
    Acyclic parent := by
  have hlt : ∀ a b, IsAncestor parent a b → a < b := by
    intro a b hab
    induction hab with
    | single hab => exact h _ _ hab
    | tail _ hbc ih => exact ih.trans (h _ _ hbc)
  exact fun a ha => lt_irrefl a (hlt a a ha)

section Move

variable [DecidableEq α] {child p : α}

/-- After `child` has been moved below `p`, an ancestor is one from before, or the way up
passes from `child` to `p`. -/
theorem isAncestor_update {a b : α}
    (h : IsAncestor (Function.update parent child (some p)) a b) :
    IsAncestor parent a b ∨
      Relation.ReflTransGen (IsParent parent) a p ∧
        Relation.ReflTransGen (IsParent parent) child b := by
  have hlink : ∀ a b, IsParent (Function.update parent child (some p)) a b →
      b = child ∧ a = p ∨ IsParent parent a b := by
    intro a b hab
    by_cases hb : b = child
    · rw [IsParent, hb, Function.update_self] at hab
      exact Or.inl ⟨hb, (Option.some.inj hab).symm⟩
    · rw [IsParent, Function.update_of_ne hb] at hab
      exact Or.inr hab
  induction h with
  | single hab =>
    rcases hlink _ _ hab with ⟨rfl, rfl⟩ | hab
    · exact Or.inr ⟨.refl, .refl⟩
    · exact Or.inl (.single hab)
  | tail _ hbc ih =>
    rcases hlink _ _ hbc with ⟨rfl, rfl⟩ | hbc
    · rcases ih with ih | ih
      · exact Or.inr ⟨ih.to_reflTransGen, .refl⟩
      · exact Or.inr ⟨ih.1, .refl⟩
    · rcases ih with ih | ih
      · exact Or.inl (ih.tail hbc)
      · exact Or.inr ⟨ih.1, ih.2.tail hbc⟩

/-- The links below `child` are not touched by moving it. -/
theorem isAncestor_update_of_isAncestor (hac : Acyclic parent) {b : α}
    (h : IsAncestor parent child b) :
    IsAncestor (Function.update parent child (some p)) child b := by
  have hlink : ∀ {a b}, IsParent parent a b → b ≠ child →
      IsParent (Function.update parent child (some p)) a b := by
    intro a b hab hb
    rwa [IsParent, Function.update_of_ne hb]
  induction h with
  | single hab =>
    refine .single (hlink hab ?_)
    rintro rfl
    exact hac _ (.single hab)
  | tail hab hbc ih =>
    refine ih.tail (hlink hbc ?_)
    rintro rfl
    exact hac _ (hab.tail hbc)

/-- **Moving an entry keeps a forest exactly when it does not go below itself.** -/
theorem acyclic_update_iff (hac : Acyclic parent) :
    Acyclic (Function.update parent child (some p)) ↔
      ¬ (child = p ∨ IsAncestor parent child p) := by
  have hself : IsParent (Function.update parent child (some p)) p child :=
    Function.update_self ..
  constructor
  · rintro h (rfl | hp)
    · exact h _ (.single hself)
    · exact h _ ((isAncestor_update_of_isAncestor hac hp).tail hself)
  · intro h a ha
    rcases isAncestor_update ha with ha | ⟨hap, hca⟩
    · exact hac a ha
    · rcases Relation.reflTransGen_iff_eq_or_transGen.mp (hca.trans hap) with heq | hcp
      · exact h (Or.inl heq.symm)
      · exact h (Or.inr hcp)

end Move

/-! ## The nearest ancestor -/

/-- The nearest proper ancestor with the property `p`. -/
def nearest (hwf : WellFounded (IsParent parent)) (p : α → Bool) (b : α) : Option α :=
  match _h : parent b with
  | none => none
  | some a => if p a then some a else nearest hwf p a
termination_by hwf.wrap b

theorem nearest_of_none (hwf : WellFounded (IsParent parent)) (p : α → Bool) {b : α}
    (h : parent b = none) : nearest hwf p b = none := by
  rw [nearest]
  split
  · rfl
  · rename_i h'
    rw [h] at h'
    exact Option.noConfusion rfl (heq_of_eq h')

theorem nearest_of_some (hwf : WellFounded (IsParent parent)) (p : α → Bool) {a b : α}
    (h : IsParent parent a b) :
    nearest hwf p b = if p a then some a else nearest hwf p a := by
  rw [nearest]
  split
  · rename_i h'
    rw [IsParent, h'] at h
    cases h
  · rename_i a' h'
    rw [show a' = a from IsParent.unique h' h]

/-- The nearest ancestor with a property is one, and every other one lies above it. -/
theorem nearest_spec (hwf : WellFounded (IsParent parent)) (p : α → Bool) (b : α) :
    (∀ a, nearest hwf p b = some a → IsAncestor parent a b ∧ p a = true) ∧
      ∀ c, IsAncestor parent c b → p c = true →
        ∃ a, nearest hwf p b = some a ∧ (c = a ∨ IsAncestor parent c a) := by
  induction b using hwf.induction with
  | _ b ih =>
    cases hb : parent b with
    | none =>
      rw [nearest_of_none hwf p hb]
      exact ⟨fun a h => Option.noConfusion rfl (heq_of_eq h),
        fun c hc => absurd hc (not_isAncestor_of_none hb)⟩
    | some q =>
      have hq : IsParent parent q b := hb
      obtain ⟨ih₁, ih₂⟩ := ih q hq
      rw [nearest_of_some hwf p hq]
      by_cases hp : p q = true
      · rw [if_pos hp]
        refine ⟨fun a h => ?_, fun c hc _ => ⟨q, rfl, (isAncestor_iff hq).mp hc⟩⟩
        obtain rfl := Option.some.inj h
        exact ⟨Relation.TransGen.single hq, hp⟩
      · rw [if_neg hp]
        refine ⟨fun a h => ?_, fun c hc hpc => ?_⟩
        · exact ⟨(ih₁ a h).1.tail hq, (ih₁ a h).2⟩
        · rcases (isAncestor_iff hq).mp hc with rfl | hcq
          · exact absurd hpc hp
          · exact ih₂ c hcq hpc

/-! ## Patterns of links -/

/-- The two kinds of link in a pattern. -/
inductive Link where
  | child
  | descendant
  deriving DecidableEq, Repr

variable (parent)

/-- `a` stands above `b` as the link asks. -/
def Joins : Link → α → α → Prop
  | .child => IsParent parent
  | .descendant => IsAncestor parent

/-- From `b` upwards there are entries joined by the links of the pattern, each with the
property that goes with its link. -/
def Climbs : α → List (Link × (α → Bool)) → Prop
  | _, [] => True
  | b, (k, p) :: rest => ∃ a, Joins parent k a b ∧ p a = true ∧ Climbs a rest

variable {parent}

/-- The greedy search: the parent for a parent link, the nearest candidate for an ancestor
link. -/
def climb (hwf : WellFounded (IsParent parent)) : α → List (Link × (α → Bool)) → Bool
  | _, [] => true
  | b, (.child, p) :: rest =>
    match parent b with
    | none => false
    | some a => p a && climb hwf a rest
  | b, (.descendant, p) :: rest =>
    match nearest hwf p b with
    | none => false
    | some a => climb hwf a rest

/-- No parent link stands above an ancestor link. -/
def Layered (pattern : List (Link × (α → Bool))) : Prop :=
  pattern.Pairwise fun x y => x.1 = .descendant → y.1 = .descendant

/-- What an entry's ancestor reaches by ancestor links alone, the entry reaches, too. -/
theorem climbs_of_isAncestor {a b : α} (hab : IsAncestor parent a b) :
    ∀ {pattern : List (Link × (α → Bool))}, (∀ x ∈ pattern, x.1 = .descendant) →
      Climbs parent a pattern → Climbs parent b pattern
  | [], _, _ => trivial
  | (k, p) :: rest, hd, h => by
    obtain ⟨c, hc, hp, hrest⟩ := h
    obtain rfl : k = .descendant := hd _ List.mem_cons_self
    exact ⟨c, Relation.TransGen.trans hc hab, hp, hrest⟩

/-- **Greedy search is complete on layered patterns.** -/
theorem climb_iff_climbs (hwf : WellFounded (IsParent parent)) :
    ∀ {pattern : List (Link × (α → Bool))} (b : α), Layered pattern →
      (climb hwf b pattern = true ↔ Climbs parent b pattern)
  | [], b, _ => by simp [climb, Climbs]
  | (.child, p) :: rest, b, hl => by
    have ih := fun a => climb_iff_climbs hwf a hl.of_cons
    rw [climb, Climbs]
    constructor
    · intro h
      split at h
      · exact absurd h Bool.false_ne_true
      · rename_i a ha
        rw [Bool.and_eq_true] at h
        exact ⟨a, ha, h.1, (ih a).mp h.2⟩
    · rintro ⟨a, ha, hp, hrest⟩
      have ha' : parent b = some a := ha
      simp only [ha', hp, (ih a).mpr hrest, Bool.and_self]
  | (.descendant, p) :: rest, b, hl => by
    have ih := fun a => climb_iff_climbs hwf a hl.of_cons
    have hall : ∀ x ∈ rest, x.1 = .descendant :=
      fun x hx => (List.pairwise_cons.mp hl).1 x hx rfl
    obtain ⟨hsound, hfirst⟩ := nearest_spec hwf p b
    rw [climb, Climbs]
    constructor
    · intro h
      split at h
      · exact absurd h Bool.false_ne_true
      · rename_i a ha
        exact ⟨a, (hsound a ha).1, (hsound a ha).2, (ih a).mp h⟩
    · rintro ⟨c, hc, hp, hrest⟩
      -- the nearest candidate is `c` itself or lies below it
      obtain ⟨a, ha, hca⟩ := hfirst c hc hp
      simp only [ha]
      rcases hca with rfl | hca
      · exact (ih c).mpr hrest
      · exact (ih a).mpr (climbs_of_isAncestor hca hall hrest)

/-! ## Tightening -/

/-- Every link below a parent link becomes a parent link. -/
def tighten {β : Type*} : List (Link × β) → List (Link × β)
  | [] => []
  | (k, p) :: rest =>
    (if ∃ x ∈ rest, x.1 = .child then .child else k, p) :: tighten rest

theorem mem_tighten_child {β : Type*} :
    ∀ {pattern : List (Link × β)}, (∃ x ∈ tighten pattern, x.1 = Link.child) ↔
      ∃ x ∈ pattern, x.1 = Link.child
  | [] => by simp [tighten]
  | (k, p) :: rest => by
    have ih := @mem_tighten_child β rest
    rw [tighten, List.exists_mem_cons_iff, List.exists_mem_cons_iff, ih]
    split
    · rename_i h
      simp [h]
    · rfl

theorem layered_tighten : ∀ pattern : List (Link × (α → Bool)), Layered (tighten pattern)
  | [] => List.Pairwise.nil
  | (k, p) :: rest => by
    refine List.pairwise_cons.mpr ⟨fun y hy hk => ?_, layered_tighten rest⟩
    by_contra hne
    have hchild : y.1 = .child := by
      cases hy' : y.1 with
      | child => rfl
      | descendant => exact absurd hy' hne
    have : ∃ x ∈ rest, x.1 = .child := mem_tighten_child.mp ⟨y, hy, hchild⟩
    simp [this] at hk

/-- A tightened pattern asks for more. -/
theorem climbs_of_tighten :
    ∀ {pattern : List (Link × (α → Bool))} {b : α},
      Climbs parent b (tighten pattern) → Climbs parent b pattern
  | [], _, _ => trivial
  | (k, p) :: rest, b, h => by
    obtain ⟨a, ha, hp, hrest⟩ := h
    refine ⟨a, ?_, hp, climbs_of_tighten hrest⟩
    split at ha
    · cases k with
      | child => exact ha
      | descendant => exact Relation.TransGen.single ha
    · exact ha

/-! ## Patterns that are not layered -/

/-- A list of links that is not layered has a parent link above an ancestor link. -/
theorem exists_child_above_of_not_layered :
    ∀ {ks : List Link}, ¬ ks.Pairwise (fun k k' => k = .descendant → k' = .descendant) →
      ∃ pre post, ks = pre ++ .descendant :: post ∧ .child ∈ post
  | [], h => absurd List.Pairwise.nil h
  | k :: ks, h => by
    rw [List.pairwise_cons, not_and_or] at h
    rcases h with h | h
    · push Not at h
      obtain ⟨k', hk', rfl, hne⟩ := h
      refine ⟨[], ks, rfl, ?_⟩
      cases k' with
      | child => exact hk'
      | descendant => exact absurd rfl hne
    · obtain ⟨pre, post, rfl, hmem⟩ := exists_child_above_of_not_layered h
      exact ⟨k :: pre, post, rfl, hmem⟩

section Chain

/-! The entries `0 ← 1 ← ⋯ ← N` of a single chain. -/

variable {parent : ℕ → Option ℕ} {p : ℕ → Bool} {N : ℕ}

theorem joins_succ (hchain : ∀ n < N, IsParent parent n (n + 1)) (k : Link) {n : ℕ} (hn : n < N) :
    Joins parent k n (n + 1) := by
  cases k with
  | child => exact hchain n hn
  | descendant => exact Relation.TransGen.single (hchain n hn)

/-- Steps of one up the chain satisfy every pattern. -/
theorem climbs_chain (hchain : ∀ n < N, IsParent parent n (n + 1)) :
    ∀ (ks : List Link), ks.length ≤ N → (∀ a < ks.length, p a = true) →
      Climbs parent ks.length (ks.map fun k => (k, p))
  | [], _, _ => trivial
  | k :: ks, hN, hp => by
    rw [List.length_cons] at hN hp ⊢
    exact ⟨ks.length, joins_succ hchain k (by omega), hp _ (by omega),
      climbs_chain hchain ks (by omega) fun a ha => hp a (by omega)⟩

/-- One entry `x` of the chain lacks the property: an ancestor link steps over it. -/
theorem climbs_chain_skip (hchain : ∀ n < N, IsParent parent n (n + 1)) {x : ℕ} :
    ∀ (pre post : List Link), x + 1 + pre.length ≤ N →
      (∀ a, a ≠ x → a ≤ x + pre.length → p a = true) → x = post.length + 1 →
        Climbs parent (x + 1 + pre.length)
          ((pre ++ .descendant :: post).map fun k => (k, p))
  | [], post, hN, hp, hx => by
    rw [List.length_nil] at hN
    have htwo : IsAncestor parent post.length (post.length + 1 + 1) :=
      (Relation.TransGen.single (hchain post.length (by omega))).tail
        (hchain (post.length + 1) (by omega))
    rw [hx]
    exact ⟨post.length, htwo, hp _ (by omega) (by omega),
      climbs_chain hchain post (by omega) fun a ha => hp a (by omega)
        (by rw [List.length_nil]; omega)⟩
  | k :: pre, post, hN, hp, hx => by
    rw [List.length_cons] at hN hp ⊢
    exact ⟨x + 1 + pre.length, joins_succ hchain k (by omega), hp _ (by omega) (by omega),
      climbs_chain_skip hchain pre post (by omega) (fun a ha ha' => hp a ha (by omega)) hx⟩

/-- No parent link steps over it. -/
theorem not_climbs_chain_tighten (hchain : ∀ n < N, IsParent parent n (n + 1)) {x : ℕ}
    (hx : p x = false) (post : List Link) (hpost : .child ∈ post) :
    ∀ pre : List Link, x + 1 + pre.length ≤ N → ¬ Climbs parent (x + 1 + pre.length)
      (tighten ((pre ++ .descendant :: post).map fun k => (k, p)))
  | [], hN, h => by
    have hchild : ∃ y ∈ post.map fun k => (k, p), y.1 = .child :=
      ⟨(.child, p), List.mem_map.mpr ⟨_, hpost, rfl⟩, rfl⟩
    rw [List.nil_append, List.map_cons, tighten, if_pos hchild] at h
    rw [List.length_nil] at hN
    obtain ⟨a, ha, hpa, -⟩ := h
    rw [IsParent.unique ha (hchain x (by omega)), hx] at hpa
    exact Bool.false_ne_true hpa
  | k :: pre, hN, h => by
    have hchild : ∃ y ∈ (pre ++ .descendant :: post).map fun k => (k, p), y.1 = .child := by
      refine ⟨(.child, p), List.mem_map.mpr ⟨.child, ?_, rfl⟩, rfl⟩
      exact List.mem_append_right _ (List.mem_cons_of_mem _ hpost)
    rw [List.cons_append, List.map_cons, tighten, if_pos hchild] at h
    rw [List.length_cons] at hN
    obtain ⟨a, ha, -, hrest⟩ := h
    rw [IsParent.unique ha (hchain (x + 1 + pre.length) (by omega))] at hrest
    exact not_climbs_chain_tighten hchain hx post hpost pre (by omega) hrest

end Chain

end Aetheris.Ancestry
