import Mathlib

/-!
# Tracks with gaps

Sizes that stand one after the other, with a gap behind each.  A track begins behind all tracks and
gaps before it, so two tracks do not overlap, and all of them are between two places if the first
and the last one are.
-/

namespace Aetheris.Tracks

variable {K : Type*} [AddCommGroup K]

/-- Where a track begins, from the beginning of the first one. -/
def offset (gap : K) (sizes : List K) (i : ℕ) : K := ((sizes.take i).map (· + gap)).sum

/-- The tracks and the gaps between them. -/
def extent (gap : K) (sizes : List K) : K := sizes.sum + (sizes.length - 1) • gap

@[simp] theorem offset_zero (gap : K) (sizes : List K) : offset gap sizes 0 = 0 := rfl

theorem offset_succ {gap : K} {sizes : List K} {i : ℕ} {size : K} (h : sizes[i]? = some size) :
    offset gap sizes (i + 1) = offset gap sizes i + size + gap := by
  rw [offset, offset, List.take_add_one, h, Option.toList_some, List.map_append, List.sum_append,
    List.map_singleton, List.sum_singleton, add_assoc]

/-- A loop that adds up the tracks and their gaps. -/
theorem foldl_eq_offset (gap x : K) (sizes : List K) (i : ℕ) :
    (sizes.take i).foldl (fun x size => x + (size + gap)) x = x + offset gap sizes i := by
  rw [offset]
  induction sizes.take i generalizing x with
  | nil => exact (add_zero x).symm
  | cons size sizes ih => rw [List.foldl_cons, ih, List.map_cons, List.sum_cons, add_assoc]

/-- Where a track begins depends on the tracks before it. -/
theorem offset_congr {gap : K} {sizes sizes' : List K} {i : ℕ}
    (h : sizes.take i = sizes'.take i) : offset gap sizes i = offset gap sizes' i := by
  rw [offset, offset, h]

variable [LinearOrder K] [IsOrderedAddMonoid K]

theorem offset_mono {gap : K} {sizes : List K} (hgap : 0 ≤ gap) (hsizes : ∀ size ∈ sizes, 0 ≤ size)
    {i j : ℕ} (hij : i ≤ j) : offset gap sizes i ≤ offset gap sizes j := by
  induction j, hij using Nat.le_induction with
  | base => exact le_refl _
  | succ j hij ih =>
    cases h : sizes[j]? with
    | none =>
      refine ih.trans (le_of_eq ?_)
      rw [offset, offset, List.take_add_one, h, Option.toList_none, List.append_nil]
    | some size =>
      rw [offset_succ h]
      have hsize := hsizes size (List.mem_of_getElem? h)
      exact ih.trans ((le_add_of_nonneg_right hsize).trans (le_add_of_nonneg_right hgap))

/-- **Tracks do not overlap**: a later one begins behind the gap, or further on. -/
theorem offset_add_le {gap : K} {sizes : List K} (hgap : 0 ≤ gap)
    (hsizes : ∀ size ∈ sizes, 0 ≤ size) {i j : ℕ} (hij : i < j) {size : K}
    (h : sizes[i]? = some size) : offset gap sizes i + size + gap ≤ offset gap sizes j := by
  rw [← offset_succ h]
  exact offset_mono hgap hsizes hij

omit [AddCommGroup K] [IsOrderedAddMonoid K] in
/-- Tracks from `f` to `g` that do not overlap are between two places if the first one begins behind
the one, and the last one ends before the other. -/
theorem forall_inside_iff {α : Type*} {f g : α → K} {tracks : List α}
    (hle : ∀ t ∈ tracks, f t ≤ g t) (h : tracks.IsChain fun t u => g t ≤ f u) {a b : K} :
    (∀ t ∈ tracks, a ≤ f t ∧ g t ≤ b) ↔
      (∀ t ∈ tracks.head?, a ≤ f t) ∧ ∀ t ∈ tracks.getLast?, g t ≤ b := by
  constructor
  · intro hall
    exact ⟨fun t ht => (hall t (List.mem_of_mem_head? ht)).1,
      fun t ht => (hall t (List.mem_of_mem_getLast? ht)).2⟩
  · rintro ⟨hfirst, hlast⟩
    induction tracks with
    | nil => exact fun t ht => absurd ht List.not_mem_nil
    | cons t tracks ih =>
      have ht := hle t List.mem_cons_self
      have hlow := hfirst t rfl
      cases tracks with
      | nil =>
        refine List.forall_mem_cons.mpr ⟨⟨hlow, hlast t rfl⟩, ?_⟩
        exact fun u hu => absurd hu List.not_mem_nil
      | cons u tracks =>
        obtain ⟨htu, hrest⟩ := List.isChain_cons_cons.mp h
        have htracks := ih (fun v hv => hle v (List.mem_cons_of_mem t hv)) hrest
          (fun v hv => Option.some.inj hv ▸ hlow.trans (ht.trans htu))
          (by rwa [List.getLast?_cons_cons] at hlast)
        have hu := htracks u List.mem_cons_self
        have hnext := hle u (List.mem_cons_of_mem t List.mem_cons_self)
        exact List.forall_mem_cons.mpr ⟨⟨hlow, htu.trans (hnext.trans hu.2)⟩, htracks⟩

end Aetheris.Tracks
