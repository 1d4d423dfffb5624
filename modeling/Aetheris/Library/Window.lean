import Mathlib

/-!
# Windows of a function

The values of a function on the natural numbers from one place on, and the function with such values
written over it.  A window comes in two parts, and what is read where one has written is what was
written; behind it nothing has changed.
-/

namespace Aetheris.Window

universe u

variable {α : Type u}

/-- The `n` values from `k` on. -/
def reads (f : ℕ → α) (k n : ℕ) : List α := (List.range' k n).map f

/-- The function with the values of a list from `k` on. -/
def overlay (f : ℕ → α) (k : ℕ) : List α → ℕ → α
  | [] => f
  | a :: l => overlay (Function.update f k a) (k + 1) l

@[simp] theorem reads_zero (f : ℕ → α) (k : ℕ) : reads f k 0 = [] := rfl

theorem reads_succ (f : ℕ → α) (k n : ℕ) : reads f k (n + 1) = f k :: reads f (k + 1) n := rfl

@[simp] theorem length_reads (f : ℕ → α) (k n : ℕ) : (reads f k n).length = n := by
  rw [reads, List.length_map, List.length_range']

theorem reads_append (f : ℕ → α) (k n n' : ℕ) :
    reads f k (n + n') = reads f k n ++ reads f (k + n) n' := by
  rw [reads, reads, reads, ← List.map_append, List.range'_append_1]

/-- A window that is in two parts is read in two parts. -/
theorem reads_eq_append_iff {f : ℕ → α} {k : ℕ} {l l' : List α} :
    reads f k (l ++ l').length = l ++ l' ↔
      reads f k l.length = l ∧ reads f (k + l.length) l'.length = l' := by
  rw [List.length_append, reads_append]
  refine ⟨fun h => List.append_inj h (length_reads f k l.length), ?_⟩
  rintro ⟨h, h'⟩
  rw [h, h']

theorem reads_eq_cons_iff {f : ℕ → α} {k : ℕ} {a : α} {l : List α} :
    reads f k (a :: l).length = a :: l ↔ f k = a ∧ reads f (k + 1) l.length = l := by
  rw [List.length_cons, reads_succ, List.cons.injEq]

/-- What is in front of a window stays. -/
theorem overlay_of_lt (f : ℕ → α) (l : List α) {k i : ℕ} (h : i < k) : overlay f k l i = f i := by
  induction l generalizing f k with
  | nil => rfl
  | cons a l ih =>
    rw [overlay, ih _ (Nat.lt_succ_of_lt h), Function.update_of_ne (Nat.ne_of_lt h)]

/-- What is behind a window stays. -/
theorem overlay_of_le (f : ℕ → α) (l : List α) {k i : ℕ} (h : k + l.length ≤ i) :
    overlay f k l i = f i := by
  induction l generalizing f k with
  | nil => rfl
  | cons a l ih =>
    rw [List.length_cons] at h
    rw [overlay, ih _ (by omega), Function.update_of_ne (by omega)]

theorem overlay_append (f : ℕ → α) (k : ℕ) (l l' : List α) :
    overlay f k (l ++ l') = overlay (overlay f k l) (k + l.length) l' := by
  induction l generalizing f k with
  | nil => rfl
  | cons a l ih =>
    rw [List.cons_append, overlay, overlay, ih, List.length_cons, Nat.add_right_comm, Nat.add_assoc]

theorem reads_congr {f g : ℕ → α} {k n : ℕ} (h : ∀ i, k ≤ i → i < k + n → f i = g i) :
    reads f k n = reads g k n := by
  refine List.map_congr_left fun i hi => ?_
  obtain ⟨hle, hlt⟩ := List.mem_range'_1.mp hi
  exact h i hle hlt

/-- Behind what is written, the function is read as it was. -/
theorem reads_overlay_of_le (f : ℕ → α) (l : List α) {k i : ℕ} (n : ℕ) (h : k + l.length ≤ i) :
    reads (overlay f k l) i n = reads f i n :=
  reads_congr fun _ hle _ => overlay_of_le f l (Nat.le_trans h hle)

/-- What is written is read. -/
theorem reads_overlay (f : ℕ → α) (k : ℕ) (l : List α) : reads (overlay f k l) k l.length = l := by
  induction l generalizing f k with
  | nil => rfl
  | cons a l ih =>
    rw [reads_eq_cons_iff, overlay]
    refine ⟨?_, ih _ _⟩
    rw [overlay_of_lt _ _ (Nat.lt_succ_self k), Function.update_self]

end Aetheris.Window
