import Aetheris.Paint.Clipping

/-!
# Hit testing

`DocumentInteraction::hit_test_node` walks the children from the last one on, without the order of
the painter and without its clips.

A pointer to a node is the way down to it.  The walk finds the last node in document order that has
the point; the painter comes to the nodes that are shown in an order of its own, in which a node
goes behind another one if the way to it leaves that to the other for a child with a greater
`z-index`.  So the two agree if the walk's node is shown and no box at the point outranks it.
-/

namespace Aetheris.Paint

open Dom Style Layout Length

/-! ## The last entry of a sorted list -/

theorem getLast?_filter_eq_some_iff {α : Type*} {R : α → α → Prop} {l : List α}
    (hl : l.Pairwise R) (hasymm : ∀ a b, R a b → ¬ R b a) {p : α → Bool} {n : α} :
    (l.filter p).getLast? = some n ↔
      n ∈ l ∧ p n = true ∧ ∀ m ∈ l, p m = true → m = n ∨ R m n := by
  have hpairwise : (l.filter p).Pairwise R := hl.filter p
  constructor
  · intro h
    obtain ⟨front, hfront⟩ := List.getLast?_eq_some_iff.mp h
    have hn : n ∈ l.filter p := List.mem_of_getLast? h
    refine ⟨(List.mem_filter.mp hn).1, (List.mem_filter.mp hn).2, fun m hm hpm => ?_⟩
    have hmem : m ∈ front ++ [n] := hfront ▸ List.mem_filter.mpr ⟨hm, hpm⟩
    rw [hfront, List.pairwise_append] at hpairwise
    rcases List.mem_append.mp hmem with hmem | hmem
    · exact Or.inr (hpairwise.2.2 m hmem n (List.mem_singleton_self n))
    · exact Or.inl (List.mem_singleton.mp hmem)
  · rintro ⟨hn, hpn, hlast⟩
    obtain ⟨front, back, hsplit⟩ := List.append_of_mem (List.mem_filter.mpr ⟨hn, hpn⟩)
    cases back with
    | nil => exact List.getLast?_eq_some_iff.mpr ⟨front, hsplit⟩
    | cons m back =>
      exfalso
      have hm : m ∈ l.filter p := hsplit ▸ List.mem_append_right _ (.tail _ List.mem_cons_self)
      rw [hsplit, List.pairwise_append, List.pairwise_cons] at hpairwise
      have hnm : R n m := hpairwise.2.1.1 m List.mem_cons_self
      rcases hlast m (List.mem_filter.mp hm).1 (List.mem_filter.mp hm).2 with rfl | hmn
      · exact hasymm m m hnm hnm
      · exact hasymm n m hnm hmn

/-! ## The two orders of the ways down -/

/-- A step to an earlier child. -/
def Step.Earlier (a b : Step) : Prop := a.2 < b.2

/-- A step to a child that is painted earlier. -/
def Step.Under (a b : Step) : Prop := a.1 < b.1 ∨ a.1 = b.1 ∧ a.2 < b.2

/-- Document order: a node comes before what is below it, and before later siblings. -/
def InDocument : List Step → List Step → Prop := List.Lex Step.Earlier

/-- The order of the painter. -/
def Painted : List Step → List Step → Prop := List.Lex Step.Under

/-- Where the ways part, the first one goes on to a child with a greater `z-index`. -/
def Outranks : List Step → List Step → Prop
  | a :: p, b :: q => if a = b then Outranks p q else b.1 < a.1
  | _, _ => False

theorem not_outranks_self (p : List Step) : ¬ Outranks p p := by
  induction p with
  | nil => exact id
  | cons a p ih => rwa [Outranks, if_pos rfl]

/-- **A node that comes earlier in the document is painted later if it outranks the other.** -/
theorem painted_iff_outranks {p q : List Step} (h : InDocument p q) : Painted q p ↔ Outranks p q := by
  induction h with
  | nil => exact ⟨fun h => (nomatch h), False.elim⟩
  | @cons a p q _ ih =>
    rw [Outranks, if_pos rfl, ← ih]
    refine ⟨fun h => ?_, List.Lex.cons⟩
    cases h with
    | cons h => exact h
    | rel h => exact absurd h fun h => h.elim (lt_irrefl _) fun h => lt_irrefl _ h.2
  | @rel a p b q hab =>
    have hne : a ≠ b := fun h => (h ▸ hab : a.2 < a.2).ne rfl
    rw [Outranks, if_neg hne]
    constructor
    · intro h
      cases h with
      | cons => exact absurd rfl hne
      | rel h => exact h.resolve_right fun h => h.2.not_gt hab
    · exact fun h => .rel (Or.inl h)

theorem painted_asymm {p q : List Step} (h : Painted p q) : ¬ Painted q p := by
  refine List.lex_asymm (fun {a b} hab => ?_) h
  rintro (hba | ⟨heq, hba⟩)
  · exact hab.elim hba.not_gt fun h => hba.ne h.1.symm
  · exact hab.elim (fun h => h.ne heq.symm) fun h => hba.not_gt h.2

theorem inDocument_asymm {p q : List Step} (h : InDocument p q) : ¬ InDocument q p :=
  List.lex_asymm (fun {a b} hab => (show a.2 < b.2 from hab).not_gt) h

/-- The places on the way down. -/
def indices (path : List Step) : List ℕ := path.map Prod.snd

theorem indices_ne {p q : List Step} (h : InDocument p q) : indices p ≠ indices q := by
  induction h with
  | nil => exact (List.cons_ne_nil _ _).symm
  | cons _ ih => exact fun h => ih (List.cons.inj h).2
  | rel hab => exact fun h => (show _ < _ from hab).ne (List.cons.inj h).1

/-! ## All nodes -/

variable {F : Type}

mutual

/-- All nodes of a tree. -/
def places (path : List Step) (above : List (LayoutFields F)) : LayoutNode F → List (Place F)
  | .node node children => ⟨path, above, node⟩ :: placesBelow path (node :: above) 0 children

/-- Those of each child from the given place on. -/
def placesBelow (path : List Step) (above : List (LayoutFields F)) :
    ℕ → List (LayoutNode F) → List (Place F)
  | _, [] => []
  | i, child :: children =>
    places (path ++ [step (child, i)]) above child ++ placesBelow path above (i + 1) children

end

theorem placesBelow_eq (path : List Step) (above : List (LayoutFields F)) (i : ℕ)
    (children : List (LayoutNode F)) :
    placesBelow path above i children = (children.zipIdx i).flatMap fun child =>
      places (path ++ [step child]) above child.1 := by
  induction children generalizing i with
  | nil => rw [placesBelow, List.zipIdx_nil, List.flatMap_nil]
  | cons child children ih => rw [placesBelow, ih, List.zipIdx_cons, List.flatMap_cons]

theorem places_node (path : List Step) (above : List (LayoutFields F)) (node : LayoutFields F)
    (children : List (LayoutNode F)) :
    places path above (.node node children) =
      ⟨path, above, node⟩ :: children.zipIdx.flatMap fun child =>
        places (path ++ [step child]) (node :: above) child.1 := by
  rw [places, placesBelow_eq]

/-- The ways down to the nodes of a tree begin with the way down to the tree. -/
theorem prefix_of_mem_places (t : LayoutNode F) : ∀ {path : List Step}
    {above : List (LayoutFields F)} {place : Place F}, place ∈ places path above t →
      path <+: place.path ∧ above <:+ place.above := by
  induction t using Rose.induction with
  | h node children ih =>
    intro path above place h
    rw [places_node, List.mem_cons, List.mem_flatMap] at h
    rcases h with rfl | ⟨child, hchild, h⟩
    · exact ⟨List.prefix_rfl, List.suffix_rfl⟩
    · obtain ⟨hpath, habove⟩ := ih child.1 (List.fst_mem_of_mem_zipIdx hchild) h
      exact ⟨(List.prefix_append _ _).trans hpath, (List.suffix_cons _ _).trans habove⟩

theorem zipIdx_pairwise {α : Type*} (l : List α) (i : ℕ) :
    (l.zipIdx i).Pairwise fun a b => a.2 < b.2 := by
  have h : ((l.zipIdx i).map Prod.snd).Pairwise (· < ·) := by
    rw [List.zipIdx_map_snd]
    exact List.pairwise_lt_range' ..
  exact List.pairwise_map.mp h

/-- Ways down that part at two steps. -/
theorem lex_of_isPrefix {R : Step → Step → Prop} {path p q : List Step} {a b : Step} (h : R a b)
    (hp : path ++ [a] <+: p) (hq : path ++ [b] <+: q) : List.Lex R p q := by
  obtain ⟨r, rfl⟩ := hp
  obtain ⟨s, rfl⟩ := hq
  rw [List.append_assoc, List.append_assoc]
  exact List.Lex.append_left R (.rel h) path

/-- The way down to a node, and one that goes on. -/
theorem lex_of_isPrefix_append {R : Step → Step → Prop} {path p : List Step} {a : Step}
    (hp : path ++ [a] <+: p) : List.Lex R path p := by
  obtain ⟨r, rfl⟩ := hp
  have h := List.Lex.append_left R (List.Lex.nil (a := a) (l := r)) path
  rwa [List.append_nil, List.append_cons] at h

/-- **All nodes are in document order.** -/
theorem pairwise_places (t : LayoutNode F) : ∀ (path : List Step) (above : List (LayoutFields F)),
    (places path above t).Pairwise fun a b => InDocument a.path b.path := by
  induction t using Rose.induction with
  | h node children ih =>
    intro path above
    rw [places_node, List.pairwise_cons, List.pairwise_flatMap]
    refine ⟨fun place h => ?_, fun child hchild => ?_, ?_⟩
    · obtain ⟨child, -, h⟩ := List.mem_flatMap.mp h
      exact lex_of_isPrefix_append (prefix_of_mem_places _ h).1
    · exact ih child.1 (List.fst_mem_of_mem_zipIdx hchild) _ _
    · refine (zipIdx_pairwise children 0).imp fun {c d} hcd p hp q hq => ?_
      exact lex_of_isPrefix (a := step c) (b := step d) hcd (prefix_of_mem_places _ hp).1
        (prefix_of_mem_places _ hq).1

/-! ## The nodes that are painted -/

section Painted

variable [Length F]

/-- The node is painted: neither it nor a node above it has the display `none`. -/
def Place.Shown (place : Place F) : Prop :=
  ∀ node ∈ place.node :: place.above, node.display ≠ .none

/-- **The painter comes to the nodes that are shown, and to no others.** -/
theorem mem_visits_iff (t : LayoutNode F) : ∀ {path : List Step} {above : List (LayoutFields F)}
    {inherited : F} {place : Place F}, (∀ node ∈ above, node.display ≠ .none) →
      ((∃ visit ∈ visits path above inherited t, visit.toPlace = place) ↔
        place ∈ places path above t ∧ place.Shown) := by
  induction t using Rose.induction with
  | h node children ih =>
    intro path above inherited place habove
    by_cases hdisplay : node.display = .none
    · rw [visits_of_eq _ _ _ hdisplay, places_node, List.mem_cons, List.mem_flatMap]
      refine ⟨fun ⟨_, h, _⟩ => absurd h List.not_mem_nil, fun ⟨hplace, hshown⟩ => ?_⟩
      rcases hplace with rfl | ⟨child, -, hplace⟩
      · exact absurd hdisplay (hshown node List.mem_cons_self)
      · have hmem := (prefix_of_mem_places _ hplace).2.subset List.mem_cons_self
        exact absurd hdisplay (hshown node (List.mem_cons_of_mem _ hmem))
    · have habove' : ∀ n ∈ node :: above, n.display ≠ .none :=
        List.forall_mem_cons.mpr ⟨hdisplay, habove⟩
      rw [visits_node _ _ _ hdisplay, places_node]
      constructor
      · rintro ⟨visit, hvisit, rfl⟩
        rcases List.mem_cons.mp hvisit with rfl | hvisit
        · exact ⟨List.mem_cons_self, habove'⟩
        · obtain ⟨child, hchild, hvisit⟩ := List.mem_flatMap.mp hvisit
          obtain ⟨hplace, hshown⟩ := (ih child.1 (fst_mem_of_mem_paintOrder hchild) habove').mp
            ⟨visit, hvisit, rfl⟩
          exact ⟨List.mem_cons_of_mem _ (List.mem_flatMap.mpr
            ⟨child, mem_paintOrder.mp hchild, hplace⟩), hshown⟩
      · rintro ⟨hplace, hshown⟩
        rcases List.mem_cons.mp hplace with rfl | hplace
        · exact ⟨_, List.mem_cons_self, rfl⟩
        · obtain ⟨child, hchild, hplace⟩ := List.mem_flatMap.mp hplace
          obtain ⟨visit, hvisit, rfl⟩ := (@ih child.1 (List.fst_mem_of_mem_zipIdx hchild) _
            _ (opacity node inherited) _ habove').mpr ⟨hplace, hshown⟩
          exact ⟨visit, List.mem_cons_of_mem _ (List.mem_flatMap.mpr
            ⟨child, mem_paintOrder.mpr hchild, hvisit⟩), rfl⟩

/-- **The painter comes to the nodes in its order.** -/
theorem pairwise_visits (t : LayoutNode F) : ∀ (path : List Step) (above : List (LayoutFields F))
    (inherited : F), (∀ node ∈ above, node.display ≠ .none) →
      (visits path above inherited t).Pairwise fun a b => Painted a.path b.path := by
  induction t using Rose.induction with
  | h node children ih =>
    intro path above inherited habove
    by_cases hdisplay : node.display = .none
    · rw [visits_of_eq _ _ _ hdisplay]
      exact List.Pairwise.nil
    · have habove' : ∀ n ∈ node :: above, n.display ≠ .none :=
        List.forall_mem_cons.mpr ⟨hdisplay, habove⟩
      have hbefore {child : LayoutNode F × ℕ} {visit : Visit F}
          (h : visit ∈ visits (path ++ [step child]) (node :: above) (opacity node inherited)
            child.1) : path ++ [step child] <+: visit.path :=
        (prefix_of_mem_places _ ((mem_visits_iff _ habove').mp ⟨visit, h, rfl⟩).1).1
      rw [visits_node _ _ _ hdisplay, List.pairwise_cons, List.pairwise_flatMap]
      refine ⟨fun visit h => ?_, fun child hchild => ?_, ?_⟩
      · obtain ⟨child, -, h⟩ := List.mem_flatMap.mp h
        exact lex_of_isPrefix_append (hbefore h)
      · exact ih child.1 (fst_mem_of_mem_paintOrder hchild) _ _ _ habove'
      · refine (pairwise_sortOn _ (zipIdx_pairwise children 0)).imp fun {c d} hcd p hp q hq => ?_
        exact lex_of_isPrefix (a := step c) (b := step d) hcd (hbefore hp) (hbefore hq)

end Painted

/-! ## The walk -/

section Walk

variable [Length F]

mutual

/-- `DocumentInteraction::hit_test_node`. -/
def hitTestNode (x y : F) : LayoutNode F → Option (List ℕ)
  | .node node children =>
    (hitChildren x y 0 children).or (if inRect node.rect x y then some [] else none)

/-- The loop over the children from the last one on. -/
def hitChildren (x y : F) : ℕ → List (LayoutNode F) → Option (List ℕ)
  | _, [] => none
  | i, child :: children =>
    (hitChildren x y (i + 1) children).or ((hitTestNode x y child).map (i :: ·))

end

/-- The rectangle of the node contains the point. -/
def Place.under (x y : F) (place : Place F) : Bool := inRect place.node.rect x y

omit [Length F] in
theorem indices_append_step (path : List Step) (child : LayoutNode F × ℕ) (rest : List ℕ) :
    indices (path ++ [step child]) ++ rest = indices path ++ child.2 :: rest := by
  rw [indices, List.map_append, List.append_assoc]
  rfl

theorem hitChildren_eq {x y : F} {children : List (LayoutNode F)} {path : List Step}
    {above : List (LayoutFields F)}
    (h : ∀ child ∈ children, ∀ path above, (((places path above child).filter
      (Place.under x y)).getLast?.map fun place => indices place.path) =
        (hitTestNode x y child).map (indices path ++ ·)) (i : ℕ) :
    (((placesBelow path above i children).filter (Place.under x y)).getLast?.map fun place =>
      indices place.path) = (hitChildren x y i children).map (indices path ++ ·) := by
  induction children generalizing i with
  | nil =>
    rw [placesBelow, hitChildren]
    rfl
  | cons child children ih =>
    rw [placesBelow, hitChildren, List.filter_append, List.getLast?_append, Option.map_or,
      ih (fun c hc => h c (List.mem_cons_of_mem _ hc)), h child List.mem_cons_self, Option.map_or,
      Option.map_map]
    exact congrArg (Option.or _) (congrArg (Option.map · _)
      (funext (indices_append_step path (child, i))))

/-- **The walk finds the last node in document order whose rectangle contains the point.** -/
theorem hitTestNode_eq (x y : F) (t : LayoutNode F) : ∀ (path : List Step)
    (above : List (LayoutFields F)), (((places path above t).filter
      (Place.under x y)).getLast?.map fun place => indices place.path) =
        (hitTestNode x y t).map (indices path ++ ·) := by
  induction t using Rose.induction with
  | h node children ih =>
    intro path above
    have hself : (([⟨path, above, node⟩] : List (Place F)).filter
        (Place.under x y)).getLast?.map (fun place => indices place.path) =
          (if inRect node.rect x y then some [] else none).map (indices path ++ ·) := by
      rw [List.filter_singleton]
      by_cases hunder : inRect node.rect x y = true
      · rw [if_pos hunder, Option.map_some, List.append_nil,
          show Place.under x y ⟨path, above, node⟩ = true from hunder]
        rfl
      · rw [if_neg hunder, show Place.under x y ⟨path, above, node⟩ = false from
          Bool.eq_false_iff.mpr hunder]
        rfl
    rw [places, hitTestNode, ← List.singleton_append, List.filter_append, List.getLast?_append,
      Option.map_or, hitChildren_eq ih 0, hself, Option.map_or]

/-! ## What is painted last -/

/-- No clip of a node above excludes the point. -/
def Place.unclipped (x y : F) (place : Place F) : Bool :=
  place.above.all fun node =>
    !clipsChildren node || (⟨paddingBox node, radius node⟩ : RoundedRect F).contains x y

/-- The last node that is painted among those whose rectangle contains the point and none of whose
clipping ancestors excludes it. -/
def target (x y : F) (root : LayoutNode F) : Option (List ℕ) :=
  ((visits [] [] (ofRat 1) root).filter fun visit =>
    visit.under x y && visit.unclipped x y).getLast?.map fun visit => indices visit.path

/-- A node that can be seen at the point, if nothing is painted over it. -/
def Place.Seen (x y : F) (place : Place F) : Prop :=
  place.Shown ∧ place.under x y = true ∧ place.unclipped x y = true

/-- The last node in document order whose rectangle contains the point. -/
def LastUnder (x y : F) (root : LayoutNode F) (place : Place F) : Prop :=
  place ∈ places [] [] root ∧ place.under x y = true ∧
    ∀ other ∈ places [] [] root, other.under x y = true →
      other = place ∨ InDocument other.path place.path

theorem getLast?_places_iff {x y : F} {root : LayoutNode F} {place : Place F} :
    ((places [] [] root).filter (Place.under x y)).getLast? = some place ↔
      LastUnder x y root place :=
  getLast?_filter_eq_some_iff (pairwise_places root [] []) fun _ _ => inDocument_asymm

/-- The last of the nodes that are seen, in the order of the painter. -/
theorem getLast?_visits_iff {x y : F} {root : LayoutNode F} {visit : Visit F} :
    ((visits [] [] (ofRat 1) root).filter fun visit =>
        visit.under x y && visit.unclipped x y).getLast? = some visit ↔
      visit ∈ visits [] [] (ofRat 1) root ∧ visit.toPlace.Seen x y ∧
        ∀ other ∈ visits [] [] (ofRat 1) root, other.toPlace.Seen x y →
          other = visit ∨ Painted other.path visit.path := by
  have hnone : ∀ node ∈ ([] : List (LayoutFields F)), node.display ≠ .none :=
    fun _ h => absurd h List.not_mem_nil
  have hseen : ∀ v ∈ visits [] [] (ofRat 1) root,
      ((v.under x y && v.unclipped x y) = true ↔ v.toPlace.Seen x y) := by
    intro v hv
    rw [Bool.and_eq_true]
    exact ⟨fun h => ⟨((mem_visits_iff root hnone).mp ⟨v, hv, rfl⟩).2, h⟩, And.right⟩
  rw [getLast?_filter_eq_some_iff (pairwise_visits root [] [] _ hnone) fun _ _ => painted_asymm]
  constructor
  · rintro ⟨hvisit, h, hlast⟩
    exact ⟨hvisit, (hseen visit hvisit).mp h,
      fun other hother hs => hlast other hother ((hseen other hother).mpr hs)⟩
  · rintro ⟨hvisit, h, hlast⟩
    exact ⟨hvisit, (hseen visit hvisit).mpr h,
      fun other hother hs => hlast other hother ((hseen other hother).mp hs)⟩

/-- Of two visits one comes first. -/
theorem painted_or_painted {root : LayoutNode F} {a b : Visit F}
    (ha : a ∈ visits [] [] (ofRat 1) root) (hb : b ∈ visits [] [] (ofRat 1) root) (hne : a ≠ b) :
    Painted a.path b.path ∨ Painted b.path a.path := by
  have hpairwise := (pairwise_visits root [] [] (ofRat 1) fun _ h => absurd h List.not_mem_nil).imp
    (S := fun a b : Visit F => Painted a.path b.path ∨ Painted b.path a.path) Or.inl
  have hsymm : Std.Symm fun a b : Visit F => Painted a.path b.path ∨ Painted b.path a.path :=
    ⟨fun _ _ => Or.symm⟩
  exact hpairwise.forall ha hb hne

/-- **Hit testing against painting**, for every layout tree and every point.  The walk returns the
box that is painted last exactly if the last box of the document that contains the point can be seen
there, and no box that can be seen there, too, outranks it. -/
theorem hitTestNode_eq_target_iff (x y : F) (root : LayoutNode F) :
    hitTestNode x y root = target x y root ↔
      ∀ place, LastUnder x y root place → place.Seen x y ∧
        ∀ other ∈ places [] [] root, other.Seen x y → ¬ Outranks other.path place.path := by
  have hnone : ∀ node ∈ ([] : List (LayoutFields F)), node.display ≠ .none :=
    fun _ h => absurd h List.not_mem_nil
  have hplaces (visit : Visit F) (h : visit ∈ visits [] [] (ofRat 1) root) :
      visit.toPlace ∈ places [] [] root := ((mem_visits_iff root hnone).mp ⟨visit, h, rfl⟩).1
  have hwalk : hitTestNode x y root = ((places [] [] root).filter
      (Place.under x y)).getLast?.map fun place => indices place.path :=
    ((hitTestNode_eq x y root [] []).trans Option.map_id').symm
  rw [hwalk, target]
  constructor
  · intro h place hlast
    rw [getLast?_places_iff.mpr hlast, Option.map_some] at h
    obtain ⟨visit, hvisit, hindices⟩ := Option.map_eq_some_iff.mp h.symm
    obtain ⟨hmem, hseen, hfirst⟩ := getLast?_visits_iff.mp hvisit
    obtain rfl : visit.toPlace = place := (hlast.2.2 _ (hplaces _ hmem) hseen.2.1).resolve_right
      fun hbefore => indices_ne hbefore hindices
    refine ⟨hseen, fun other hother hother' houtranks => ?_⟩
    obtain ⟨visit', hmem', rfl⟩ := (mem_visits_iff root hnone).mpr ⟨hother, hother'.1⟩
    rcases hlast.2.2 _ hother hother'.2.1 with heq | hbefore
    · rw [heq] at houtranks
      exact not_outranks_self _ houtranks
    · rcases hfirst visit' hmem' hother' with rfl | hpainted
      · exact not_outranks_self _ houtranks
      · exact painted_asymm hpainted ((painted_iff_outranks hbefore).mpr houtranks)
  · intro h
    cases hlast : ((places [] [] root).filter (Place.under x y)).getLast? with
    | none =>
      have hempty := List.getLast?_eq_none_iff.mp hlast
      refine (Option.map_eq_none_iff.mpr (List.getLast?_eq_none_iff.mpr ?_)).symm
      refine List.filter_eq_nil_iff.mpr fun visit hvisit hboth => ?_
      exact List.filter_eq_nil_iff.mp hempty _ (hplaces visit hvisit) (Bool.and_eq_true_iff.mp hboth).1
    | some place =>
      have hplace := getLast?_places_iff.mp hlast
      obtain ⟨hseen, houtranks⟩ := h place hplace
      obtain ⟨visit, hvisit, rfl⟩ := (mem_visits_iff root hnone).mpr ⟨hplace.1, hseen.1⟩
      refine (congrArg (Option.map fun visit : Visit F => indices visit.path)
        (getLast?_visits_iff.mpr ⟨hvisit, hseen, ?_⟩)).symm
      intro other hother hother'
      by_cases hne : other = visit
      · exact Or.inl hne
      · refine Or.inr ((painted_or_painted hother hvisit hne).resolve_right fun hpainted => ?_)
        rcases hplace.2.2 _ (hplaces other hother) hother'.2.1 with heq | hbefore
        · rw [heq] at hpainted
          exact painted_asymm hpainted hpainted
        · exact houtranks _ (hplaces other hother) hother' ((painted_iff_outranks hbefore).mp hpainted)

end Walk

/-- Two boxes over one another, of which the first one has the greater `z-index`. -/
def stackedBoxes : LayoutNode ℚ :=
  .node (sampleNode 0 {} ⟨0, 0, 100, 100⟩)
    [.node (sampleNode 1 (({} : StyleProperties).set (lit "z-index") (lit "1")) ⟨0, 0, 20, 20⟩) [],
      .node (sampleNode 2 {} ⟨0, 0, 20, 20⟩) []]

theorem hitTestNode_stackedBoxes_ne :
    hitTestNode 10 10 stackedBoxes ≠ target 10 10 stackedBoxes := by
  decide +kernel

end Aetheris.Paint
