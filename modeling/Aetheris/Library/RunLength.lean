import Mathlib

/-!
# Cutting a list into runs and stretches

A run-length coder reads its input from the left.  Where at least `m` equal entries stand it takes a
*run* of at most `M` of them; anywhere else it takes a *stretch*, which goes on until the next
position at which `m` equal entries start.  This file names the two lengths and the cut they
produce, without any particular encoding in mind: a run is a replicate, and a stretch ends at a run
or at the end.
-/

namespace Aetheris.RunLength

variable {α : Type*} [DecidableEq α]

/-! ## Runs -/

/-- The number of equal entries at the front of a list, counted up to `M`. -/
def run (M : ℕ) : List α → ℕ
  | [] => 0
  | a :: l => min M ((l.takeWhile fun b => decide (b = a)).length + 1)

theorem run_le (M : ℕ) (l : List α) : run M l ≤ M := by
  cases l with
  | nil => exact Nat.zero_le M
  | cons a l => exact Nat.min_le_left _ _

theorem run_le_length (M : ℕ) (l : List α) : run M l ≤ l.length := by
  cases l with
  | nil => exact le_rfl
  | cons a l =>
    have h := (List.takeWhile_prefix (fun b => decide (b = a)) (l := l)).length_le
    rw [run, List.length_cons]
    omega

/-- The bound matters only up to itself: a run of `k ≤ M` entries is seen under either bound. -/
theorem le_run_iff {k M : ℕ} (hk : k ≤ M) (l : List α) : k ≤ run M l ↔ k ≤ run k l := by
  cases l with
  | nil => rfl
  | cons a l =>
    simp only [run]
    omega

/-- The entries of a run are copies of the first one. -/
theorem take_run (M : ℕ) (a : α) (l : List α) :
    (a :: l).take (run M (a :: l)) = List.replicate (run M (a :: l)) a := by
  refine List.eq_replicate_iff.mpr ⟨?_, fun b hb => ?_⟩
  · rw [List.length_take, Nat.min_eq_left (run_le_length M (a :: l))]
  · set w := l.takeWhile fun b => decide (b = a) with hw
    have hpre : (a :: l).take (run M (a :: l)) <+: a :: w := by
      have h1 : a :: w <+: a :: l :=
        List.cons_prefix_cons.mpr ⟨rfl, List.takeWhile_prefix _⟩
      refine List.prefix_of_prefix_length_le (List.take_prefix _ _) h1 ?_
      rw [List.length_take, run, List.length_cons, List.length_cons, ← hw]
      omega
    rcases List.mem_cons.mp (hpre.subset hb) with rfl | h
    · rfl
    · have hb' := List.mem_takeWhile_imp (hw ▸ h)
      exact of_decide_eq_true hb'

/-- Four copies at the front of a list are a run of four. -/
theorem le_run_replicate {k M : ℕ} (hk : k ≤ M) (a : α) (l : List α) :
    k ≤ run M (List.replicate k a ++ l) := by
  cases k with
  | zero => exact Nat.zero_le _
  | succ k =>
    rw [List.replicate_succ, List.cons_append, run, List.takeWhile_append_of_pos
      (fun b hb => decide_eq_true (List.eq_of_mem_replicate hb)), List.length_append,
      List.length_replicate]
    omega

/-! ## Stretches -/

/-- The number of entries before the first position at which `m` equal entries start. -/
def stretch (m : ℕ) : List α → ℕ
  | [] => 0
  | a :: l => if m ≤ run m (a :: l) then 0 else stretch m l + 1

theorem stretch_le_length (m : ℕ) (l : List α) : stretch m l ≤ l.length := by
  induction l with
  | nil => exact le_rfl
  | cons a l ih =>
    rw [stretch]
    split
    · exact Nat.zero_le _
    · rw [List.length_cons]
      omega

theorem stretch_pos {m : ℕ} {a : α} {l : List α} (h : ¬ m ≤ run m (a :: l)) :
    0 < stretch m (a :: l) := by
  rw [stretch, if_neg h]
  exact Nat.succ_pos _

/-- A stretch ends at the end of the list or at a run. -/
theorem drop_stretch (m : ℕ) (l : List α) :
    l.drop (stretch m l) = [] ∨ m ≤ run m (l.drop (stretch m l)) := by
  induction l with
  | nil => exact Or.inl rfl
  | cons a l ih =>
    rw [stretch]
    split
    · rename_i h
      exact Or.inr h
    · exact ih

/-! ## The cut -/

/-- The lengths of the stretches, from left to right, when runs have at least `m` and at most
`M` entries. -/
def stretches (m M : ℕ) (l : List α) : List ℕ :=
  match l with
  | [] => []
  | a :: l =>
    if m ≤ run M (a :: l) then stretches m M (l.drop (run M (a :: l) - 1))
    else stretch m (a :: l) :: stretches m M (l.drop (stretch m (a :: l) - 1))
termination_by l.length
decreasing_by all_goals simp only [List.length_drop, List.length_cons]; omega

@[simp] theorem stretches_nil (m M : ℕ) : stretches m M ([] : List α) = [] := by
  rw [stretches]

theorem stretches_of_run {m M : ℕ} (hm : 0 < m) {l : List α} (h : m ≤ run M l) :
    stretches m M l = stretches m M (l.drop (run M l)) := by
  cases l with
  | nil => rw [run] at h; omega
  | cons a l =>
    conv_lhs => rw [stretches, if_pos h]
    conv_rhs => rw [← Nat.sub_add_cancel (hm.trans_le h), List.drop_succ_cons]

theorem stretches_of_stretch {m M : ℕ} {a : α} {l : List α} (hmM : m ≤ M)
    (h : ¬ m ≤ run M (a :: l)) :
    stretches m M (a :: l) =
      stretch m (a :: l) :: stretches m M ((a :: l).drop (stretch m (a :: l))) := by
  have hpos := stretch_pos (fun h' => h ((le_run_iff hmM _).mpr h'))
  conv_lhs => rw [stretches, if_neg h]
  conv_rhs => rw [← Nat.sub_add_cancel hpos, List.drop_succ_cons, Nat.sub_add_cancel hpos]

end Aetheris.RunLength
