import Aetheris.Style.SelectorMeaning

/-!
# When `matches` implements the meaning of a selector

`matches` computes the meaning of the selector whose combinators after the first `>` are all `>`.
That is the meaning of the selector itself on a node exactly when the node, if it is selected at
all, is selected with a parent wherever a whitespace combinator follows a `>`; and on all nodes of
all trees, for every choice of compounds, exactly when no whitespace combinator follows a `>`.

The second part needs a tree that tells the two meanings apart: a single chain of elements, which is
selected only if a whitespace combinator may pass over one of them.
-/

namespace Aetheris.Style

open Dom Ancestry

/-! ## A single chain of elements -/

/-- Elements `0 ← 1 ← ⋯ ← N` of the name `t`, except for one. -/
def chainHeap (N x : ℕ) : Heap where
  nodes id :=
    if id ≤ N then
      some { type := .element, name := if id = x then lit "x" else lit "t",
             parent := if id = 0 then none else some (id - 1) }
    else none
  next := N + 1

theorem parentOf_chainHeap (N x id : ℕ) :
    (chainHeap N x).parentOf id = if id ≤ N ∧ id ≠ 0 then some (id - 1) else none := by
  rw [Heap.parentOf, chainHeap]
  by_cases h : id ≤ N
  · by_cases h0 : id = 0 <;> simp [h, h0]
  · simp [h]

/-- The tree of `chainHeap`. -/
def chainDom (N x : ℕ) : DomTree where
  heap := chainHeap N x
  fresh id h := if_neg (Nat.not_le_of_lt h)
  wf := Heap.wf_of_lt fun a b h => by
    rw [parentOf_chainHeap] at h
    split at h
    · rename_i hb
      rw [← Option.some.inj h]
      exact Nat.sub_one_lt hb.2
    · cases h

theorem chainDom_isParent (N x : ℕ) :
    ∀ n < N, IsParent (chainDom N x).heap.parentOf n (n + 1) := by
  intro n hn
  have h := parentOf_chainHeap N x (n + 1)
  rwa [if_pos ⟨by omega, by omega⟩] at h

/-- The type selector `t`. -/
def tagT : Compound where
  text := lit "t"
  ne_nil := by decide
  plain := by decide

theorem readSimple_tagT : readSimple tagT.text = { tag := lit "t" } := by
  rw [readSimple, show tagT.text.dropWhile (fun c => !isMarker c) = [] by decide, readMarkers]
  decide

/-- The elements of the chain other than `x` satisfy `t`. -/
theorem matchesSimple_chainDom (N x a : ℕ) (ha : a ≤ N) :
    matchesSimple (chainDom N x).heap none tagT.text a = decide (a ≠ x) := by
  have hnode : (chainDom N x).heap.nodes a =
      some { type := .element, name := if a = x then lit "x" else lit "t",
             parent := if a = 0 then none else some (a - 1) } := if_pos ha
  rw [matchesSimple, hnode]
  simp only [readSimple_tagT, matchesClasses, List.all_nil]
  by_cases hx : a = x
  · simp [hx, show lit "t" ≠ [] by decide, show lit "t" ≠ lit "*" by decide,
      show lit "x" ≠ lit "t" by decide]
  · simp [hx, tagT, show lit "t" ≠ [] by decide]

/-! ## Selectors with given combinators -/

/-- One spelling of each combinator. -/
def spell : Link → Combinator
  | .child => .child [] [] blank_nil blank_nil
  | .descendant => .descendant (lit " ") space_ne_nil blank_space

@[simp] theorem link_spell (k : Link) : (spell k).link = k := by cases k <;> rfl

/-- The selector `t k₁ t ⋯ t`. -/
def plainSelector (ks : List Link) : ComplexSelector where
  head := tagT
  tail := ks.map fun k => (spell k, tagT)

theorem links_plainSelector (ks : List Link) :
    (plainSelector ks).links = ks.map fun k => (k, tagT) := by
  simp [ComplexSelector.links, plainSelector]

theorem upwards_const {β : Type*} (c : β) :
    ∀ (ks : List Link) (acc : List (Link × β)),
      upwards c (ks.map fun k => (k, c)) acc = (c, (ks.reverse.map fun k => (k, c)) ++ acc)
  | [], _ => rfl
  | k :: ks, acc => by
    rw [List.map_cons, upwards, upwards_const c ks]
    simp

/-- Whitespace after a `>` shows on some tree: a chain whose one unsuitable element a descendant
combinator can pass over and a child combinator cannot. -/
theorem exists_selects_not_tight {ks : List Link}
    (h : ¬ ks.Pairwise fun k k' => k = .child → k' = .child) :
    ∃ (dom : DomTree) (node : NodeId), Selects dom none tagT (plainSelector ks).links node ∧
      ¬ Selects dom none tagT (tightAfterChild false (plainSelector ks).links) node := by
  have hrev : ¬ ks.reverse.Pairwise fun k k' => k = .descendant → k' = .descendant := by
    rw [List.pairwise_reverse]
    refine fun h' => h (h'.imp fun {k k'} hkk' hk => ?_)
    cases k' with
    | child => rfl
    | descendant =>
      have hchild := hkk' rfl
      rw [hk] at hchild
      exact hchild.symm
  obtain ⟨pre, post, hks, hpost⟩ := exists_child_above_of_not_layered hrev
  let x := post.length + 1
  let N := x + 1 + pre.length
  have hchain := chainDom_isParent N x
  have hpattern : pattern (chainDom N x) none (upwards tagT (plainSelector ks).links []).2 =
      (pre ++ .descendant :: post).map
        fun k => (k, matchesSimple (chainDom N x).heap none tagT.text) := by
    rw [links_plainSelector, upwards_const, List.append_nil, hks, pattern, List.map_map]
    rfl
  have hlast : (upwards tagT (plainSelector ks).links []).1 = tagT := by
    rw [links_plainSelector, upwards_const]
  refine ⟨chainDom N x, N, ?_, ?_⟩
  · rw [selects_iff_climbs, hpattern, hlast]
    refine ⟨?_, climbs_chain_skip hchain pre post le_rfl (fun a ha haN => ?_) rfl⟩
    · rw [Satisfies, matchesSimple_chainDom _ _ _ le_rfl]
      exact decide_eq_true (by omega)
    · rw [matchesSimple_chainDom _ _ _ (by omega)]
      exact decide_eq_true ha
  · rw [selects_tight_iff, hpattern]
    rintro ⟨-, h'⟩
    refine not_climbs_chain_tighten hchain ?_ post hpost pre le_rfl h'
    rw [matchesSimple_chainDom _ _ _ (by omega)]
    exact decide_eq_false (by omega)

theorem tightAfterChild_of_pairwise {β : Type*} :
    ∀ {links : List (Link × β)} {seen : Bool},
      (seen = true → ∀ x ∈ links, x.1 = .child) →
        (links.map Prod.fst).Pairwise (fun k k' => k = .child → k' = .child) →
          tightAfterChild seen links = links
  | [], _, _, _ => rfl
  | (k, c) :: rest, seen, hseen, h => by
    rw [List.map_cons, List.pairwise_cons] at h
    have hrest : tightAfterChild (seen || decide (k = .child)) rest = rest := by
      refine tightAfterChild_of_pairwise (fun hor x hx => ?_) h.2
      rw [Bool.or_eq_true, decide_eq_true_eq] at hor
      rcases hor with hs | hk
      · exact hseen hs x (List.mem_cons_of_mem _ hx)
      · exact h.1 x.1 (List.mem_map_of_mem hx) hk
    rw [tightAfterChild, hrest]
    cases seen with
    | false => rfl
    | true =>
      obtain rfl : k = .child := hseen rfl (k, c) List.mem_cons_self
      rfl

/-! ## The two characterizations -/

/-- **When `matches` is right.**  On a given node, exactly when a node that the selector selects
is also selected with a parent for every whitespace combinator after a `>`.  For given
combinators, whatever the compounds, the tree and the node, exactly when no whitespace
combinator comes after a `>`. -/
theorem matchesSelector_iff_selects (dom : DomTree) (interaction : Option VisualInteractionState)
    (sel : ComplexSelector) (node : NodeId) (ks : List Link) :
    ((matchesSelector dom interaction sel.text node = true ↔
        Selects dom interaction sel.head sel.links node) ↔
      (Selects dom interaction sel.head sel.links node →
        Selects dom interaction sel.head (tightAfterChild false sel.links) node)) ∧
    ((∀ (dom : DomTree) (interaction : Option VisualInteractionState) (sel : ComplexSelector)
          (node : NodeId), sel.links.map Prod.fst = ks →
        (matchesSelector dom interaction sel.text node = true ↔
          Selects dom interaction sel.head sel.links node)) ↔
      ks.Pairwise fun k k' => k = .child → k' = .child) := by
  refine ⟨?_, fun h => ?_, fun h => ?_⟩
  · rw [matchesSelector_iff_selects_tight]
    exact ⟨fun h hs => h.mpr hs, fun h => ⟨selects_of_tight dom interaction, h⟩⟩
  · by_contra hnot
    obtain ⟨dom, node, hsel, htight⟩ := exists_selects_not_tight hnot
    have hks : (plainSelector ks).links.map Prod.fst = ks := by
      rw [links_plainSelector, List.map_map]
      exact List.map_id' ks
    have := (h dom none (plainSelector ks) node hks).mpr hsel
    rw [matchesSelector_iff_selects_tight] at this
    exact htight this
  · intro dom interaction sel node hks
    rw [matchesSelector_iff_selects_tight, tightAfterChild_of_pairwise]
    · exact fun hf => absurd hf Bool.false_ne_true
    · rw [hks]
      exact h

/-! ## The failing selector -/

/-- `<a><b><x><c></c></x></b></a>`. -/
def abxc : DomTree where
  heap :=
    { nodes := fun id =>
        match id with
        | 0 => some { type := .element, name := lit "a", children := [1] }
        | 1 => some { type := .element, name := lit "b", children := [2], parent := some 0 }
        | 2 => some { type := .element, name := lit "x", children := [3], parent := some 1 }
        | 3 => some { type := .element, name := lit "c", parent := some 2 }
        | _ => none
      next := 4 }
  fresh id h := by
    match id, h with
    | _ + 4, _ => rfl
  wf := Heap.wf_of_lt fun a b h => by
    match b, h with
    | 1, h | 2, h | 3, h =>
      obtain rfl := Option.some.inj h
      decide

/-- The type selectors of the example. -/
def tagA : Compound := ⟨lit "a", by decide, by decide⟩

def tagB : Compound := ⟨lit "b", by decide, by decide⟩

def tagC : Compound := ⟨lit "c", by decide, by decide⟩

/-- `a > b c`. -/
def childThenDescendant : ComplexSelector where
  head := tagA
  tail := [(.child (lit " ") (lit " ") blank_space blank_space, tagB),
    (.descendant (lit " ") space_ne_nil blank_space, tagC)]

/-- `a > b c` selects the `c` of `<a><b><x><c></c></x></b></a>`, and `matches` denies it. -/
theorem childThenDescendant_not_matched :
    childThenDescendant.text = lit "a > b c" ∧
      ¬ (matchesSelector abxc none childThenDescendant.text 3 = true ↔
        Selects abxc none childThenDescendant.head childThenDescendant.links 3) := by
  refine ⟨by decide, fun h => ?_⟩
  have hno : matchesSelector abxc none childThenDescendant.text 3 = false := by decide +kernel
  have hyes : Selects abxc none childThenDescendant.head childThenDescendant.links 3 := by
    refine ⟨[0, 1, 3], ⟨?_, rfl, ?_, ?_, ?_⟩, rfl⟩
    · exact (by decide +kernel : matchesSimple abxc.heap none (lit "a") 0 = true)
    · exact (by decide +kernel : matchesSimple abxc.heap none (lit "b") 1 = true)
    · exact (Relation.TransGen.single (show IsParent abxc.heap.parentOf 1 2 from rfl)).tail
        (show IsParent abxc.heap.parentOf 2 3 from rfl)
    · exact (by decide +kernel : matchesSimple abxc.heap none (lit "c") 3 = true)
  rw [h.mpr hyes] at hno
  exact Bool.noConfusion hno

end Aetheris.Style
