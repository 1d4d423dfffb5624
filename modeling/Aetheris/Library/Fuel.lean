import Mathlib

/-!
# Functions with fuel

A recursive function that need not return is a function of the depth to which it may call itself;
`none` says that the depth was not enough.  It returns a value if it does so from some depth on, and
then only one.  A function `Settles` if it returns a value that is as it should be from a known
depth on.  Both are shown of a function by following how it is put together.
-/

namespace Aetheris.Fuel

variable {α β : Type} {p : ℕ → Option α}

/-- From some depth on, the function returns the value. -/
def Returns (p : ℕ → Option α) (a : α) : Prop := ∃ n, ∀ fuel, n ≤ fuel → p fuel = some a

theorem Returns.unique {a b : α} (ha : Returns p a) (hb : Returns p b) : a = b := by
  obtain ⟨m, hm⟩ := ha
  obtain ⟨n, hn⟩ := hb
  exact Option.some.inj ((hm (max m n) (le_max_left m n)).symm.trans
    (hn (max m n) (le_max_right m n)))

theorem returns_some (a : α) : Returns (fun _ => some a) a := ⟨0, fun _ _ => rfl⟩

/-- One function after another. -/
theorem Returns.bind {a : α} {f : ℕ → α → Option β} {b : β} (hp : Returns p a)
    (hf : Returns (fun fuel => f fuel a) b) : Returns (fun fuel => p fuel >>= f fuel) b := by
  obtain ⟨m, hm⟩ := hp
  obtain ⟨n, hn⟩ := hf
  refine ⟨max m n, fun fuel hfuel => ?_⟩
  show p fuel >>= f fuel = some b
  rw [hm fuel ((le_max_left m n).trans hfuel)]
  exact hn fuel ((le_max_right m n).trans hfuel)

/-- Two functions that return something together, and what comes after them. -/
theorem Returns.bind_bind {γ : Type} {f : ℕ → α → Option β} {b : β} {g : ℕ → β → Option γ} {c : γ}
    (hpf : Returns (fun fuel => p fuel >>= f fuel) b) (hg : Returns (fun fuel => g fuel b) c) :
    Returns (fun fuel => p fuel >>= fun a => f fuel a >>= g fuel) c := by
  have hbind := hpf.bind hg
  simp only [bind_assoc] at hbind
  exact hbind

/-- A call of the body, one level deeper. -/
theorem Returns.succ {q : ℕ → Option α} {a : α} (hq : ∀ fuel, q (fuel + 1) = p fuel)
    (hp : Returns p a) : Returns q a := by
  obtain ⟨n, hn⟩ := hp
  refine ⟨n + 1, fun fuel hfuel => ?_⟩
  cases fuel with
  | zero => exact absurd hfuel (Nat.not_succ_le_zero n)
  | succ fuel =>
    rw [hq]
    exact hn fuel (Nat.le_of_succ_le_succ hfuel)

/-! ## A known depth -/

variable {post post' : α → Prop} {n : ℕ}

/-- From the depth `n` on, the function returns one value, for which the condition holds. -/
def Settles (n : ℕ) (post : α → Prop) (p : ℕ → Option α) : Prop :=
  ∃ a, post a ∧ ∀ fuel, n ≤ fuel → p fuel = some a

theorem Settles.mono (hp : Settles n post p) (h : ∀ a, post a → post' a) : Settles n post' p := by
  obtain ⟨a, ha, hret⟩ := hp
  exact ⟨a, h a ha, hret⟩

theorem settles_some {a : α} (h : post a) : Settles n post (fun _ => some a) :=
  ⟨a, h, fun _ _ => rfl⟩

/-- One function after another. -/
theorem Settles.bind {f : ℕ → α → Option β} {post' : β → Prop} (hp : Settles n post p)
    (hf : ∀ a, post a → Settles n post' (fun fuel => f fuel a)) :
    Settles n post' (fun fuel => p fuel >>= f fuel) := by
  obtain ⟨a, ha, hret⟩ := hp
  obtain ⟨b, hb, hret'⟩ := hf a ha
  refine ⟨b, hb, fun fuel hfuel => ?_⟩
  show p fuel >>= f fuel = some b
  rw [hret fuel hfuel]
  exact hret' fuel hfuel

theorem Settles.map {f : α → β} {post' : β → Prop} (hp : Settles n post p)
    (hf : ∀ a, post a → post' (f a)) : Settles n post' (fun fuel => (p fuel).map f) := by
  obtain ⟨a, ha, hret⟩ := hp
  refine ⟨f a, hf a ha, fun fuel hfuel => ?_⟩
  show (p fuel).map f = some (f a)
  rw [hret fuel hfuel, Option.map_some]

theorem Settles.ite {c : Prop} [Decidable c] {q : ℕ → Option α} (hp : c → Settles n post p)
    (hq : ¬ c → Settles n post q) : Settles n post (fun fuel => if c then p fuel else q fuel) := by
  by_cases h : c
  · simp only [if_pos h]
    exact hp h
  · simp only [if_neg h]
    exact hq h

/-- A call of the body, one level deeper. -/
theorem Settles.succ {q : ℕ → Option α} (hq : ∀ fuel, q (fuel + 1) = p fuel)
    (hp : Settles n post p) : Settles (n + 1) post q := by
  obtain ⟨a, ha, hret⟩ := hp
  refine ⟨a, ha, fun fuel hfuel => ?_⟩
  cases fuel with
  | zero => exact absurd hfuel (Nat.not_succ_le_zero n)
  | succ fuel =>
    rw [hq]
    exact hret fuel (Nat.le_of_succ_le_succ hfuel)

end Aetheris.Fuel
