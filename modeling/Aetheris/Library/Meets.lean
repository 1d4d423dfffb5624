import Mathlib

/-!
# Computations that may stop

A computation in `Except ε` has a result or stops with an error.  `Meets` says which errors it may
stop with, and what holds of its result; a proof of it follows the computation, with a rule for each
way of going on and an invariant for each loop.
-/

namespace Aetheris.Computation

universe u

variable {ε : Type*} {α β σ : Type u} {allowed : ε → Prop}

/-- Every error of the computation is allowed, and `post` holds of its result. -/
def Meets (allowed : ε → Prop) (x : Except ε α) (post : α → Prop) : Prop :=
  match x with
  | .ok a => post a
  | .error e => allowed e

theorem meets_ok {a : α} {post : α → Prop} (h : post a) : Meets allowed (.ok a) post := h

theorem meets_pure {a : α} {post : α → Prop} (h : post a) :
    Meets allowed (pure a : Except ε α) post := h

theorem meets_error {e : ε} {post : α → Prop} (h : allowed e) :
    Meets allowed (.error e : Except ε α) post := h

theorem meets_true (x : Except ε α) : Meets (fun _ => True) x fun _ => True := by
  cases x <;> trivial

/-- A result is handed on. -/
theorem bind_of_ok (a : α) (f : α → Except ε β) : (Except.ok a >>= f) = f a := rfl

/-- An error is not. -/
theorem bind_of_error (e : ε) (f : α → Except ε β) : (Except.error e >>= f) = .error e := rfl

/-- A computation without a result is followed by nothing. -/
theorem Meets.bind {x : Except ε α} {f : α → Except ε β} {mid : α → Prop} {post : β → Prop}
    (hx : Meets allowed x mid) (hf : ∀ a, mid a → Meets allowed (f a) post) :
    Meets allowed (x >>= f) post := by
  cases x with
  | error e => exact hx
  | ok a => exact hf a hx

theorem Meets.mono {x : Except ε α} {post post' : α → Prop} (hx : Meets allowed x post)
    (h : ∀ a, post a → post' a) : Meets allowed x post' := by
  cases x with
  | error e => exact hx
  | ok a => exact h a hx

theorem Meets.imp {allowed' : ε → Prop} {x : Except ε α} {post : α → Prop}
    (hx : Meets allowed x post) (h : ∀ e, allowed e → allowed' e) : Meets allowed' x post := by
  cases x with
  | error e => exact h e hx
  | ok a => exact hx

theorem Meets.of_eq_ok {x : Except ε α} {post : α → Prop} (hx : Meets allowed x post) {a : α}
    (h : x = .ok a) : post a := by
  rw [h] at hx
  exact hx

theorem Meets.of_eq_error {x : Except ε α} {post : α → Prop} (hx : Meets allowed x post) {e : ε}
    (h : x = .error e) : allowed e := by
  rw [h] at hx
  exact hx

theorem Meets.ne_error {x : Except ε α} {post : α → Prop} (hx : Meets allowed x post) {e : ε}
    (h : ¬ allowed e) : x ≠ .error e := by
  rintro rfl
  exact h hx

theorem meets_ite {p : Prop} [Decidable p] {x y : Except ε α} {post : α → Prop}
    (hx : p → Meets allowed x post) (hy : ¬ p → Meets allowed y post) :
    Meets allowed (if p then x else y) post := by
  by_cases h : p
  · rw [if_pos h]
    exact hx h
  · rw [if_neg h]
    exact hy h

/-- **An invariant of a loop over a list.** -/
theorem Meets.foldlM {f : σ → α → Except ε σ} {xs : List α} {invariant : σ → Prop}
    (hstep : ∀ s, ∀ a ∈ xs, invariant s → Meets allowed (f s a) invariant) {s : σ}
    (hs : invariant s) : Meets allowed (xs.foldlM f s) invariant := by
  induction xs generalizing s with
  | nil => exact hs
  | cons a xs ih =>
    rw [List.foldlM_cons]
    exact (hstep s a List.mem_cons_self hs).bind fun t ht =>
      ih (fun s b hb => hstep s b (List.mem_cons_of_mem _ hb)) ht

/-- An invariant of a loop that counts. -/
theorem Meets.foldlM_range {n : ℕ} {f : σ → ℕ → Except ε σ} {I : ℕ → σ → Prop}
    (hstep : ∀ s, ∀ i < n, I i s → Meets allowed (f s i) (I (i + 1))) {s : σ} (hs : I 0 s) :
    Meets allowed ((List.range n).foldlM f s) (I n) := by
  induction n with
  | zero => exact hs
  | succ n ih =>
    rw [List.range_succ, List.foldlM_append]
    refine (ih fun t i hi => hstep t i (Nat.lt_succ_of_lt hi)).bind fun t ht => ?_
    rw [List.foldlM_cons]
    exact (hstep t n (Nat.lt_succ_self n) ht).bind fun u hu => hu

/-- What every round gives holds behind a loop that has a round. -/
theorem Meets.foldlM_of_ne_nil {f : σ → α → Except ε σ} {xs : List α} {invariant : σ → Prop}
    {q : Prop} (hxs : xs ≠ [])
    (hstep : ∀ s, ∀ a ∈ xs, invariant s → Meets allowed (f s a) fun t => invariant t ∧ q) {s : σ}
    (hs : invariant s) : Meets allowed (xs.foldlM f s) fun t => invariant t ∧ q := by
  cases xs with
  | nil => exact absurd rfl hxs
  | cons a xs =>
    rw [List.foldlM_cons]
    refine (hstep s a List.mem_cons_self hs).bind fun t ht => Meets.foldlM (fun t b hb ht => ?_) ht
    exact hstep t b (List.mem_cons_of_mem _ hb) ht.1

/-- Two bodies that do the same wherever an invariant holds. -/
theorem Meets.foldlM_congr {f g : σ → α → Except ε σ} {xs : List α} (invariant : σ → Prop)
    (hfg : ∀ s, ∀ a ∈ xs, invariant s → f s a = g s a)
    (hstep : ∀ s, ∀ a ∈ xs, invariant s → Meets (fun _ => True) (f s a) invariant) {s : σ}
    (hs : invariant s) : xs.foldlM f s = xs.foldlM g s := by
  induction xs generalizing s with
  | nil => rfl
  | cons a xs ih =>
    have hfirst := hstep s a List.mem_cons_self hs
    rw [List.foldlM_cons, List.foldlM_cons, ← hfg s a List.mem_cons_self hs]
    cases hf : f s a with
    | error e => rfl
    | ok t =>
      exact ih (fun s b hb => hfg s b (List.mem_cons_of_mem _ hb))
        (fun s b hb => hstep s b (List.mem_cons_of_mem _ hb)) (hfirst.of_eq_ok hf)

/-- A loop over pieces goes through the pieces. -/
theorem foldlM_flatMap {γ : Type*} (xs : List γ) (pieces : γ → List α) (f : σ → α → Except ε σ)
    (s : σ) :
    (xs.flatMap pieces).foldlM f s = xs.foldlM (fun s c => (pieces c).foldlM f s) s := by
  induction xs generalizing s with
  | nil => rfl
  | cons c xs ih =>
    rw [List.flatMap_cons, List.foldlM_append, List.foldlM_cons]
    exact congrArg _ (funext ih)

/-- A property of every element, of every result. -/
theorem meets_mapM {f : α → Except ε β} {xs : List α} {p : β → Prop}
    (h : ∀ a ∈ xs, Meets allowed (f a) p) :
    Meets allowed (xs.mapM f) fun ys => ys.length = xs.length ∧ ∀ b ∈ ys, p b := by
  induction xs with
  | nil => exact ⟨rfl, fun b hb => absurd hb List.not_mem_nil⟩
  | cons a xs ih =>
    rw [List.mapM_cons]
    refine (h a List.mem_cons_self).bind fun b hb => ?_
    refine (ih fun c hc => h c (List.mem_cons_of_mem _ hc)).bind fun ys hys => ?_
    refine meets_pure ⟨congrArg Nat.succ hys.1, fun c hc => ?_⟩
    rcases List.mem_cons.mp hc with rfl | hc
    · exact hb
    · exact hys.2 c hc

end Aetheris.Computation
