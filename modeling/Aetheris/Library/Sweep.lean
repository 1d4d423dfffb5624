import Mathlib

/-!
# Sweeps over a list

The entries of a list are changed one after the other, and a state goes along.  A loop says what one
step does, and has the following facts about all of it: the state in front of an entry is that of
the sweep so far, and what the steps keep is kept, in one sweep or in two side by side.  Some
entries may be passed over.
-/

namespace Aetheris

variable {σ τ α β γ δ : Type*}

/-- The entries of a list are changed one after the other, and a state goes along. -/
def sweep (step : σ → α → σ × β) : σ → List α → σ × List β
  | s, [] => (s, [])
  | s, a :: as =>
    let first := step s a
    let rest := sweep step first.1 as
    (rest.1, first.2 :: rest.2)

variable {step : σ → α → σ × β}

@[simp] theorem sweep_nil (s : σ) : sweep step s [] = (s, []) := rfl

theorem sweep_cons (s : σ) (a : α) (as : List α) :
    sweep step s (a :: as) =
      ((sweep step (step s a).1 as).1, (step s a).2 :: (sweep step (step s a).1 as).2) := rfl

theorem sweep_append (s : σ) (as bs : List α) :
    sweep step s (as ++ bs) =
      ((sweep step (sweep step s as).1 bs).1,
        (sweep step s as).2 ++ (sweep step (sweep step s as).1 bs).2) := by
  induction as generalizing s with
  | nil => rfl
  | cons a as ih => rw [List.cons_append, sweep_cons, ih, sweep_cons, List.cons_append]

@[simp] theorem length_sweep (s : σ) (as : List α) : (sweep step s as).2.length = as.length := by
  induction as generalizing s with
  | nil => rfl
  | cons a as ih => rw [sweep_cons, List.length_cons, List.length_cons, ih]

/-- An entry is changed with the state that the entries before it leave. -/
theorem getElem?_sweep (s : σ) (as : List α) (i : ℕ) :
    (sweep step s as).2[i]? = (as[i]?).map fun a => (step (sweep step s (as.take i)).1 a).2 := by
  induction as generalizing s i with
  | nil => rfl
  | cons a as ih =>
    cases i with
    | zero => rfl
    | succ i => exact ih (step s a).1 i

/-- What holds of every entry. -/
theorem forall_mem_sweep {Q : β → Prop} {s : σ} {as : List α} :
    (∀ b ∈ (sweep step s as).2, Q b) ↔
      ∀ i a, as[i]? = some a → Q (step (sweep step s (as.take i)).1 a).2 := by
  simp only [List.mem_iff_getElem?, getElem?_sweep, Option.map_eq_some_iff]
  constructor
  · exact fun h i a ha => h _ ⟨i, a, ha, rfl⟩
  · rintro h _ ⟨i, a, ha, rfl⟩
    exact h i a ha

/-- Two sweeps side by side. -/
theorem sweep_rel {step' : τ → γ → τ × δ} {I : σ → τ → Prop} {P : α → γ → Prop}
    {Q : β → δ → Prop}
    (hstep : ∀ s t a c, I s t → P a c →
      I (step s a).1 (step' t c).1 ∧ Q (step s a).2 (step' t c).2)
    {s : σ} {t : τ} {as : List α} {cs : List γ} (hst : I s t) (h : List.Forall₂ P as cs) :
    I (sweep step s as).1 (sweep step' t cs).1 ∧
      List.Forall₂ Q (sweep step s as).2 (sweep step' t cs).2 := by
  induction h generalizing s t with
  | nil => exact ⟨hst, .nil⟩
  | cons hac h ih =>
    obtain ⟨hnext, hfirst⟩ := hstep s t _ _ hst hac
    obtain ⟨hend, hrest⟩ := ih hnext
    exact ⟨hend, .cons hfirst hrest⟩

/-- What does not depend on the state. -/
theorem map_sweep {f : β → γ} {g : α → γ} {as : List α} (h : ∀ s, ∀ a ∈ as, f (step s a).2 = g a)
    (s : σ) : (sweep step s as).2.map f = as.map g := by
  induction as generalizing s with
  | nil => rfl
  | cons a as ih =>
    rw [sweep_cons, List.map_cons, List.map_cons, h s a List.mem_cons_self,
      ih fun s b hb => h s b (List.mem_cons_of_mem a hb)]

/-- Without a state a sweep changes each entry for itself. -/
theorem sweep_map (f : α → β) (as : List α) :
    (sweep (fun (_ : Unit) a => ((), f a)) () as).2 = as.map f := by
  induction as with
  | nil => rfl
  | cons a as ih => rw [sweep_cons, ih, List.map_cons]

/-! ## Entries that are passed over -/

/-- A step that passes over some entries. -/
def skipping (p : α → Bool) (step : σ → α → σ × α) (s : σ) (a : α) : σ × α :=
  if p a then (s, a) else step s a

variable {p : α → Bool} {step : σ → α → σ × α}

theorem skipping_of_true {a : α} (h : p a = true) (s : σ) : skipping p step s a = (s, a) :=
  if_pos h

theorem skipping_of_false {a : α} (h : p a = false) (s : σ) :
    skipping p step s a = step s a := if_neg (Bool.eq_false_iff.mp h)

/-- Two sweeps side by side that pass over the same entries. -/
theorem sweep_skipping_rel {q : γ → Bool} {step' : τ → γ → τ × γ} {I : σ → τ → Prop}
    {P : α → γ → Prop} (hpq : ∀ a c, P a c → p a = q c)
    (hstep : ∀ s t a c, I s t → P a c → p a = false → I (step s a).1 (step' t c).1)
    {s : σ} {t : τ} {as : List α} {cs : List γ} (hst : I s t) (h : List.Forall₂ P as cs) :
    I (sweep (skipping p step) s as).1 (sweep (skipping q step') t cs).1 := by
  refine (sweep_rel (Q := fun _ _ => True) (fun s t a c hst hac => ⟨?_, trivial⟩) hst h).1
  cases ha : p a with
  | true => rwa [skipping_of_true ha, skipping_of_true ((hpq a c hac).symm.trans ha)]
  | false =>
    rw [skipping_of_false ha, skipping_of_false ((hpq a c hac).symm.trans ha)]
    exact hstep s t a c hst hac ha

/-- The other entries are swept as if they were alone. -/
theorem filter_sweep (h : ∀ s a, p (step s a).2 = p a) (s : σ) (as : List α) :
    sweep step s (as.filter fun a => !p a) =
      ((sweep (skipping p step) s as).1,
        (sweep (skipping p step) s as).2.filter fun a => !p a) := by
  induction as generalizing s with
  | nil => rfl
  | cons a as ih =>
    rw [sweep_cons]
    cases ha : p a with
    | true =>
      rw [skipping_of_true ha, List.filter_cons_of_neg (by simp [ha]),
        List.filter_cons_of_neg (by simp [ha]), ih]
    | false =>
      rw [skipping_of_false ha, List.filter_cons_of_pos (by simp [ha]), sweep_cons, ih,
        List.filter_cons_of_pos (by simp [h, ha])]

end Aetheris
