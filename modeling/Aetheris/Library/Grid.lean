import Mathlib

/-!
# Walks over grids

What nested loops go through, as a list: the rows of a grid one after the other, and the grid by the
number of its cells.  A cell is known by its number, so a loop in a loop is one loop over the cells,
and two walks whose pieces have one length are the same if their pieces are.
-/

namespace Aetheris.Grid

universe u v

variable {α : Type u} {β : Type v}

/-- **A loop in a loop.**  The cells of the rows are numbered. -/
theorem range_flatMap_range (rows columns : ℕ) (f : ℕ → ℕ → List β) :
    ((List.range rows).flatMap fun y => (List.range columns).flatMap fun x => f y x) =
      (List.range (rows * columns)).flatMap fun i => f (i / columns) (i % columns) := by
  induction rows with
  | zero => rw [Nat.zero_mul]; rfl
  | succ rows ih =>
    rw [List.range_succ, List.flatMap_append, ih, List.flatMap_singleton, Nat.succ_mul,
      List.range_add, List.flatMap_append, List.flatMap_map]
    refine congrArg _ (List.flatMap_congr fun x hx => ?_)
    have hlt := List.mem_range.mp hx
    rw [Nat.add_comm, Nat.add_mul_div_right x rows (Nat.zero_lt_of_lt hlt), Nat.div_eq_of_lt hlt,
      Nat.zero_add, Nat.add_mul_mod_self_right, Nat.mod_eq_of_lt hlt]

/-- One value in each cell. -/
theorem range_flatMap_map_range (rows columns : ℕ) (f : ℕ → ℕ → β) :
    ((List.range rows).flatMap fun y => (List.range columns).map fun x => f y x) =
      (List.range (rows * columns)).map fun i => f (i / columns) (i % columns) := by
  rw [List.map_eq_flatMap, ← range_flatMap_range rows columns fun y x => [f y x]]
  exact List.flatMap_congr fun y _ => List.map_eq_flatMap

/-- Only the first cells have anything. -/
theorem range_flatMap_ite {n m : ℕ} (hle : n ≤ m) (f : ℕ → List β) :
    ((List.range m).flatMap fun i => if i < n then f i else []) = (List.range n).flatMap f := by
  obtain ⟨k, rfl⟩ := Nat.exists_eq_add_of_le hle
  rw [List.range_add, List.flatMap_append, List.flatMap_map]
  have hbehind : (List.range k).flatMap (fun i => if n + i < n then f (n + i) else []) = [] := by
    rw [List.flatMap_eq_nil_iff]
    exact fun i _ => if_neg (by omega)
  rw [hbehind, List.append_nil]
  exact List.flatMap_congr fun i hi => if_pos (List.mem_range.mp hi)

theorem map_range_eq_iff {n m : ℕ} {f g : ℕ → β} :
    (List.range n).map f = (List.range m).map g ↔ n = m ∧ ∀ i < n, f i = g i := by
  constructor
  · intro h
    have hlength := congrArg List.length h
    rw [List.length_map, List.length_map, List.length_range, List.length_range] at hlength
    subst hlength
    exact ⟨rfl, fun i hi => List.map_inj_left.mp h i (List.mem_range.mpr hi)⟩
  · rintro ⟨rfl, h⟩
    exact List.map_congr_left fun i hi => h i (List.mem_range.mp hi)

/-- Cells by their numbers. -/
theorem cell_eq_iff {columns x y x' y' : ℕ} (hx : x < columns) (hx' : x' < columns) :
    y * columns + x = y' * columns + x' ↔ x = x' ∧ y = y' := by
  constructor
  · intro h
    have hdiv := congrArg (· / columns) h
    have hmod := congrArg (· % columns) h
    have hpos : 0 < columns := Nat.zero_lt_of_lt hx
    simp only [Nat.mul_comm _ columns, Nat.mul_add_div hpos, Nat.div_eq_of_lt hx,
      Nat.div_eq_of_lt hx', Nat.mul_add_mod, Nat.mod_eq_of_lt hx, Nat.mod_eq_of_lt hx'] at hdiv hmod
    exact ⟨hmod, hdiv⟩
  · rintro ⟨rfl, rfl⟩
    rfl

/-! ## Pieces of one length -/

/-- Walks whose pieces have the same lengths are the same if their pieces are. -/
theorem flatMap_eq_iff {l : List α} {f g : α → List β}
    (hlength : ∀ a ∈ l, (f a).length = (g a).length) :
    l.flatMap f = l.flatMap g ↔ ∀ a ∈ l, f a = g a := by
  induction l with
  | nil => exact iff_of_true rfl nofun
  | cons a l ih =>
    have hrest := ih fun b hb => hlength b (List.mem_cons_of_mem a hb)
    rw [List.flatMap_cons, List.flatMap_cons, List.forall_mem_cons, ← hrest]
    refine ⟨fun h => List.append_inj h (hlength a List.mem_cons_self), ?_⟩
    rintro ⟨h, h'⟩
    rw [h, h']

end Aetheris.Grid
