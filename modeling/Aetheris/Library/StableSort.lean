import Mathlib

/-!
# Stable sorting by a key

A list in the order of a key, with equal keys in the order of the list: what was in order stays in
order where the keys are equal, and nothing changes where all of them are.
-/

namespace Aetheris

variable {α β κ : Type*} [LinearOrder κ]

/-- `std::stable_sort` by a key. -/
def sortOn (key : α → κ) (l : List α) : List α := l.insertionSort fun a b => key a ≤ key b

theorem sortOn_perm (key : α → κ) (l : List α) : (sortOn key l).Perm l :=
  List.perm_insertionSort _ l

@[simp] theorem mem_sortOn {key : α → κ} {l : List α} {a : α} : a ∈ sortOn key l ↔ a ∈ l :=
  (sortOn_perm key l).mem_iff

theorem sortOn_map (key : β → κ) (f : α → β) (l : List α) :
    sortOn key (l.map f) = (sortOn (fun a => key (f a)) l).map f := by
  rw [sortOn, sortOn]
  exact (List.map_insertionSort _ _ f l fun _ _ _ _ => Iff.rfl).symm

theorem sortOn_of_forall_eq {key : α → κ} {l : List α} {k : κ} (h : ∀ a ∈ l, key a = k) :
    sortOn key l = l := by
  induction l with
  | nil => rfl
  | cons a l ih =>
    have hl := ih fun b hb => h b (List.mem_cons_of_mem _ hb)
    rw [sortOn] at hl ⊢
    rw [List.insertionSort_cons_of_forall_rel, hl]
    intro b hb
    rw [h a List.mem_cons_self, h b (List.mem_cons_of_mem _ hb)]

/-- In the order of the keys, and where they are equal in the order `R`. -/
def KeyThen (key : α → κ) (R : α → α → Prop) (a b : α) : Prop :=
  key a < key b ∨ key a = key b ∧ R a b

theorem KeyThen.key_le {key : α → κ} {R : α → α → Prop} {a b : α} (h : KeyThen key R a b) :
    key a ≤ key b := by
  rcases h with h | ⟨h, -⟩
  · exact h.le
  · exact h.le

/-- Inserting a value that comes before those with an equal key. -/
theorem pairwise_orderedInsert {key : α → κ} {R : α → α → Prop} {a : α} {l : List α}
    (ha : ∀ b ∈ l, R a b) (hl : l.Pairwise (KeyThen key R)) :
    (l.orderedInsert (fun a b => key a ≤ key b) a).Pairwise (KeyThen key R) := by
  induction l with
  | nil => exact List.pairwise_singleton _ a
  | cons b l ih =>
    obtain ⟨hb, hl'⟩ := List.pairwise_cons.mp hl
    rw [List.orderedInsert]
    split
    next hle =>
      refine List.pairwise_cons.mpr ⟨fun c hc => ?_, hl⟩
      have hac : key a ≤ key c := by
        rcases List.mem_cons.mp hc with rfl | hc
        · exact hle
        · exact hle.trans (hb c hc).key_le
      exact hac.lt_or_eq.imp_right fun heq => ⟨heq, ha c hc⟩
    next hlt =>
      refine List.pairwise_cons.mpr ⟨fun c hc => ?_, ih (fun c hc => ha c (.tail _ hc)) hl'⟩
      rcases List.mem_cons.mp ((List.perm_orderedInsert _ a l).mem_iff.mp hc) with rfl | hc
      · exact Or.inl (not_le.mp hlt)
      · exact hb c hc

/-- **Stability.** -/
theorem pairwise_sortOn (key : α → κ) {R : α → α → Prop} {l : List α} (hl : l.Pairwise R) :
    (sortOn key l).Pairwise (KeyThen key R) := by
  induction l with
  | nil => exact List.Pairwise.nil
  | cons a l ih =>
    obtain ⟨ha, hl⟩ := List.pairwise_cons.mp hl
    rw [sortOn, List.insertionSort_cons]
    exact pairwise_orderedInsert (fun b hb => ha b (mem_sortOn.mp hb)) (ih hl)

end Aetheris
