import Mathlib

/-!
# Loops

The body of a loop is a function `step` from a state to the state after one round, or to nothing
where the loop is left.  The loop may go on for ever; `run` goes round it a given number of times at
most.

A loop whose variant gets smaller with each round is left, and its invariant holds then.  A loop
that has a next round in every state that it comes to is never left.
-/

namespace Aetheris.Loop

open StateTransition

variable {σ : Type*} {step : σ → Option σ}

/-- The state in which the loop is left, after less than `fuel` rounds. -/
def run (step : σ → Option σ) : ℕ → σ → Option σ
  | 0, _ => none
  | fuel + 1, s =>
    match step s with
    | none => some s
    | some t => run step fuel t

/-- The loop is left in the state `t`. -/
def Ends (step : σ → Option σ) (s t : σ) : Prop := ∃ fuel, run step fuel s = some t

theorem run_of_none {s : σ} (h : step s = none) (fuel : ℕ) : run step (fuel + 1) s = some s := by
  rw [run, h]

theorem run_of_some {s t : σ} (h : step s = some t) (fuel : ℕ) :
    run step (fuel + 1) s = run step fuel t := by
  rw [run, h]

theorem ends_of_none {s : σ} (h : step s = none) : Ends step s s := ⟨1, run_of_none h 0⟩

/-- One round in front. -/
theorem ends_head_iff {s t u : σ} (h : step s = some t) : Ends step s u ↔ Ends step t u := by
  constructor
  · rintro ⟨fuel, hrun⟩
    cases fuel with
    | zero => cases hrun
    | succ fuel => exact ⟨fuel, (run_of_some h fuel).symm.trans hrun⟩
  · rintro ⟨fuel, hrun⟩
    exact ⟨fuel + 1, (run_of_some h fuel).trans hrun⟩

/-- The loop is left in a state that it comes to and that has no next round. -/
theorem ends_iff_mem_eval {s t : σ} : Ends step s t ↔ t ∈ eval step s := by
  rw [mem_eval]
  constructor
  · rintro ⟨fuel, hrun⟩
    induction fuel generalizing s with
    | zero => cases hrun
    | succ fuel ih =>
      cases hs : step s with
      | none =>
        rw [run_of_none hs] at hrun
        rw [← Option.some.inj hrun]
        exact ⟨Relation.ReflTransGen.refl, hs⟩
      | some s' =>
        rw [run_of_some hs] at hrun
        obtain ⟨hreaches, hnone⟩ := ih hrun
        exact ⟨hreaches.head hs, hnone⟩
  · rintro ⟨hreaches, hnone⟩
    induction hreaches using Relation.ReflTransGen.head_induction_on with
    | refl => exact ends_of_none hnone
    | head hstep _ ih => exact (ends_head_iff hstep).mpr ih

/-- A loop is left in one state. -/
theorem Ends.unique {s t u : σ} (ht : Ends step s t) (hu : Ends step s u) : t = u :=
  Part.mem_unique (ends_iff_mem_eval.mp ht) (ends_iff_mem_eval.mp hu)

/-- **A loop with a variant is left.**  `I` is an invariant along the run from `s`, and `variant`
gets smaller with each round. -/
theorem ends_of_decreasing {I : σ → Prop} {variant : σ → ℕ} {s : σ} (hs : I s)
    (hstep : ∀ t u, Reaches step s t → I t → step t = some u → I u ∧ variant u < variant t) :
    ∃ t, Ends step s t ∧ I t := by
  induction hn : variant s using Nat.strong_induction_on generalizing s with
  | _ n ih =>
    cases hnext : step s with
    | none => exact ⟨s, ends_of_none hnext, hs⟩
    | some s' =>
      obtain ⟨hs', hlt⟩ := hstep s s' Relation.ReflTransGen.refl hs hnext
      obtain ⟨t, hends, ht⟩ := ih (variant s') (hn ▸ hlt) hs'
        (fun t u hreaches => hstep t u (hreaches.head hnext)) rfl
      exact ⟨t, (ends_head_iff hnext).mpr hends, ht⟩

/-- A loop over numbers that get smaller is left. -/
theorem ends_of_descending {step : ℕ → Option ℕ} (h : ∀ a b, step a = some b → b < a) (a : ℕ) :
    ∃ t, Ends step a t := by
  obtain ⟨t, ht, _⟩ := @ends_of_decreasing ℕ step (fun _ => True) id a trivial
    fun b c _ _ hstep => ⟨trivial, h b c hstep⟩
  exact ⟨t, ht⟩

/-- A recursion that goes round such a loop finds its result where the loop is left, if it has fuel
for all smaller numbers. -/
theorem eq_of_ends_descending {β : Type*} {step : ℕ → Option ℕ}
    (hdescending : ∀ a b, step a = some b → b < a) {f : ℕ → ℕ → β} {result : ℕ → β}
    (hf : ∀ fuel a, f (fuel + 1) a =
      match step a with
      | none => result a
      | some b => f fuel b) {t : ℕ} :
    ∀ {fuel a : ℕ}, a < fuel ∨ step a = none ∧ 0 < fuel → Ends step a t → f fuel a = result t := by
  intro fuel
  induction fuel with
  | zero =>
    rintro a (h | ⟨_, h⟩)
    · exact absurd h (Nat.not_lt_zero a)
    · exact absurd h (Nat.lt_irrefl 0)
  | succ fuel ih =>
    intro a ha hends
    rw [hf]
    cases hstep : step a with
    | none => rw [(ends_of_none hstep).unique hends]
    | some b =>
      have hlt : a < fuel + 1 := ha.resolve_right fun h => by
        rw [h.1] at hstep
        cases hstep
      have hb : b < fuel := (hdescending a b hstep).trans_le (Nat.le_of_lt_succ hlt)
      exact ih (Or.inl hb) ((ends_head_iff hstep).mp hends)

/-- **A loop with a next round in every state is never left.** -/
theorem not_ends_of_forever {I : σ → Prop} {s : σ} (hs : I s)
    (hstep : ∀ t, I t → ∃ u, step t = some u ∧ I u) (t : σ) : ¬ Ends step s t := by
  rintro ⟨fuel, hrun⟩
  induction fuel generalizing s with
  | zero => cases hrun
  | succ fuel ih =>
    obtain ⟨u, hu, hI⟩ := hstep s hs
    rw [run_of_some hu] at hrun
    exact ih hI hrun

end Aetheris.Loop
