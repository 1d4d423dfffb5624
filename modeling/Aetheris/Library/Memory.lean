import Mathlib

/-!
# A memory and its blocks

A memory is a function from addresses to cells.  A run of cells that has been written is read back,
and writes elsewhere do not change it; blocks of one size do not overlap, so this goes for other
blocks.
-/

namespace Aetheris.Memory

variable {α : Type*}

/-! ## Runs of cells -/

/-- The cells from `start` on are `a`. -/
def fill (m : ℕ → α) (start length : ℕ) (a : α) : ℕ → α := fun i =>
  if start ≤ i ∧ i < start + length then a else m i

/-- The cells from `start` on are those of the list. -/
def write (m : ℕ → α) (start : ℕ) (l : List α) : ℕ → α := fun i =>
  if start ≤ i then (l[i - start]?).getD (m i) else m i

/-- The cells from `start` on. -/
def read (m : ℕ → α) (start length : ℕ) : List α := (List.range length).map fun i => m (start + i)

theorem fill_of_mem {m : ℕ → α} {start length i : ℕ} (a : α) (h : start ≤ i)
    (h' : i < start + length) : fill m start length a i = a := if_pos ⟨h, h'⟩

theorem fill_of_not_mem {m : ℕ → α} {start length i : ℕ} (a : α)
    (h : ¬ (start ≤ i ∧ i < start + length)) : fill m start length a i = m i := if_neg h

theorem write_of_not_mem {m : ℕ → α} {start i : ℕ} {l : List α}
    (h : ¬ (start ≤ i ∧ i < start + l.length)) : write m start l i = m i := by
  unfold write
  by_cases hle : start ≤ i
  · have hlength : l.length ≤ i - start := by omega
    rw [if_pos hle, List.getElem?_eq_none hlength, Option.getD_none]
  · rw [if_neg hle]

theorem write_add {m : ℕ → α} {start i : ℕ} {l : List α} (h : i < l.length) :
    write m start l (start + i) = l[i] := by
  unfold write
  rw [if_pos (Nat.le_add_right _ _), Nat.add_sub_cancel_left, List.getElem?_eq_getElem h,
    Option.getD_some]

@[simp] theorem length_read (m : ℕ → α) (start length : ℕ) : (read m start length).length = length := by
  simp [read]

theorem read_congr {m m' : ℕ → α} {start length : ℕ}
    (h : ∀ i < length, m (start + i) = m' (start + i)) : read m start length = read m' start length :=
  List.map_congr_left fun i hi => h i (List.mem_range.mp hi)

/-- **What has been written is read.** -/
theorem read_write (m : ℕ → α) (start : ℕ) {l : List α} {length : ℕ} (h : length ≤ l.length) :
    read (write m start l) start length = l.take length := by
  refine List.ext_getElem (by rw [length_read, List.length_take, Nat.min_eq_left h]) fun i hi _ => ?_
  have hlt : i < length := by rwa [length_read] at hi
  have hcell : write m start l (start + i) = l[i] := write_add (Nat.lt_of_lt_of_le hlt h)
  simp only [read, List.getElem_map, List.getElem_range, List.getElem_take, hcell]

/-! ## Blocks -/

/-- **Blocks do not overlap.** -/
theorem block_disjoint {size i j k : ℕ} (hij : i ≠ j) (hk : k < size) {length : ℕ}
    (hlength : length ≤ size) :
    ¬ (j * size ≤ i * size + k ∧ i * size + k < j * size + length) := by
  rintro ⟨hle, hlt⟩
  rcases Nat.lt_or_gt_of_ne hij with h | h
  · have hmul : (i + 1) * size ≤ j * size := Nat.mul_le_mul_right size h
    rw [Nat.succ_mul] at hmul
    omega
  · have hmul : (j + 1) * size ≤ i * size := Nat.mul_le_mul_right size h
    rw [Nat.succ_mul] at hmul
    omega

/-! ## Tables of flags -/

/-- **One flag of a table** is counted as it is. -/
theorem countP_update (flags : ℕ → Bool) {n i : ℕ} (hi : i < n) (b : Bool) :
    (List.range n).countP (Function.update flags i b) + (flags i).toNat =
      (List.range n).countP flags + b.toNat := by
  induction n with
  | zero => exact absurd hi (Nat.not_lt_zero i)
  | succ n ih =>
    rw [List.range_succ, List.countP_append, List.countP_append, List.countP_singleton,
      List.countP_singleton]
    rcases Nat.lt_succ_iff_lt_or_eq.mp hi with hlt | rfl
    · rw [Function.update_of_ne (Nat.ne_of_gt hlt)]
      have := ih hlt
      omega
    · have hsame : (List.range i).countP (Function.update flags i b) =
          (List.range i).countP flags := by
        refine List.countP_congr fun j hj => ?_
        rw [Function.update_of_ne (Nat.ne_of_lt (List.mem_range.mp hj))]
      rw [hsame, Function.update_self]
      cases b <;> cases flags i <;> simp

theorem countP_le (flags : ℕ → Bool) (n : ℕ) : (List.range n).countP flags ≤ n := by
  have hle := List.countP_le_length (p := flags) (l := List.range n)
  rwa [List.length_range] at hle

theorem countP_lt {flags : ℕ → Bool} {n i : ℕ} (hi : i < n) (h : flags i = false) :
    (List.range n).countP flags < n := by
  have hsum := countP_update flags hi true
  have hle := countP_le (Function.update flags i true) n
  rw [h] at hsum
  simp only [Bool.toNat_false, Bool.toNat_true] at hsum
  omega

theorem countP_pos {flags : ℕ → Bool} {n i : ℕ} (hi : i < n) (h : flags i = true) :
    0 < (List.range n).countP flags :=
  List.countP_pos_iff.mpr ⟨i, List.mem_range.mpr hi, h⟩

end Aetheris.Memory
