import Mathlib

/-!
# Runs that may be stopped

A program changes a state and returns a value, or it is stopped; the state is there in both cases.
Two programs agree up to a reason for stopping if the first one is stopped for this reason wherever
they do not do the same.  Agreement, and what holds of the state behind a program whether or not it
is stopped, are kept by what programs are made of.
-/

namespace Aetheris.Agree

/-- A program: it may be stopped, for one of several reasons. -/
abbrev Run (ε σ α : Type) := ExceptT ε (StateM σ) α

variable {ε σ α β : Type}

/-- What the program does in a state. -/
def Run.from (p : Run ε σ α) (s : σ) : Except ε α × σ := p.run.run s

theorem from_bind (p : Run ε σ α) (f : α → Run ε σ β) (s : σ) :
    (p >>= f).from s =
      match p.from s with
      | (.ok a, s') => (f a).from s'
      | (.error e, s') => (.error e, s') := by
  show (do let r ← p.run; ExceptT.bindCont f r : StateM σ _).run s = _
  rw [StateT.run_bind]
  show (ExceptT.bindCont f (p.run.run s).1).run (p.run.run s).2 = _
  unfold Run.from
  generalize p.run.run s = r
  obtain ⟨r, s'⟩ := r
  cases r <;> rfl

/-- The first program is stopped for this reason, or both do the same. -/
def Agrees (e : ε) (p q : Run ε σ α) : Prop :=
  ∀ s, (p.from s).1 = .error e ∨ p.from s = q.from s

namespace Agrees

variable {e : ε}

theorem refl (p : Run ε σ α) : Agrees e p p := fun _ => Or.inr rfl

theorem of_eq {p q : Run ε σ α} (h : p = q) : Agrees e p q := h ▸ refl p

theorem throw (p : Run ε σ α) : Agrees e (throw e) p := fun _ => Or.inl rfl

/-- One program after the other. -/
theorem bind {p q : Run ε σ α} {f g : α → Run ε σ β} (hpq : Agrees e p q)
    (hfg : ∀ a, Agrees e (f a) (g a)) : Agrees e (p >>= f) (q >>= g) := by
  intro s
  rw [from_bind, from_bind]
  rcases hpq s with hstop | heq
  · refine Or.inl ?_
    generalize p.from s = r at hstop
    obtain ⟨r, s'⟩ := r
    subst hstop
    rfl
  · rw [← heq]
    match p.from s with
    | (.ok a, s') => exact hfg a s'
    | (.error _, _) => exact Or.inr rfl

theorem bind_left (p : Run ε σ α) {f g : α → Run ε σ β} (hfg : ∀ a, Agrees e (f a) (g a)) :
    Agrees e (p >>= f) (p >>= g) :=
  (refl p).bind hfg

theorem ite {c : Prop} [Decidable c] {p q p' q' : Run ε σ α} (h : Agrees e p q)
    (h' : Agrees e p' q') : Agrees e (if c then p else p') (if c then q else q') := by
  split
  · exact h
  · exact h'

/-- The programs for the entries of a list, one after the other. -/
theorem mapM {f g : α → Run ε σ β} (h : ∀ a, Agrees e (f a) (g a)) :
    ∀ l : List α, Agrees e (l.mapM f) (l.mapM g)
  | [] => refl _
  | a :: l => by
    rw [List.mapM_cons, List.mapM_cons]
    exact (h a).bind fun b => (mapM h l).bind fun bs => refl _

end Agrees

/-- From a state with the first property the program comes to one with the second, also where it is
stopped. -/
def Leads (P Q : σ → Prop) (p : Run ε σ α) : Prop := ∀ s, P s → Q (p.from s).2

namespace Leads

variable {P Q R : σ → Prop}

theorem pure (h : ∀ s, P s → Q s) (a : α) : Leads P Q (pure a : Run ε σ α) := h

theorem throw (h : ∀ s, P s → Q s) (e : ε) : Leads P Q (throw e : Run ε σ α) := h

theorem modify {f : σ → σ} (h : ∀ s, P s → Q (f s)) : Leads P Q (modify f : Run ε σ Unit) := h

theorem modifyGet {f : σ → α × σ} (h : ∀ s, P s → Q (f s).2) :
    Leads P Q (modifyGet f : Run ε σ α) := h

theorem mono {P' Q' : σ → Prop} {p : Run ε σ α} (h : Leads P Q p) (hP : ∀ s, P' s → P s)
    (hQ : ∀ s, Q s → Q' s) : Leads P' Q' p := fun s hs => hQ _ (h s (hP s hs))

/-- One program after the other; if the first one is stopped, what holds there has to be enough. -/
theorem bind {p : Run ε σ α} {f : α → Run ε σ β} (h : Leads P Q p) (hf : ∀ a, Leads Q R (f a))
    (hR : ∀ s, Q s → R s) : Leads P R (p >>= f) := by
  intro s hs
  have hq := h s hs
  rw [from_bind]
  match hp : p.from s with
  | (.ok a, s') => exact hf a s' (by rw [hp] at hq; exact hq)
  | (.error e, s') => exact hR s' (by rw [hp] at hq; exact hq)

/-- A program that looks at its state first. -/
theorem get_bind {f : σ → Run ε σ β} (h : ∀ s, P s → R ((f s).from s).2) :
    Leads P R (get >>= f) := h

theorem ite {c : Prop} [Decidable c] {p q : Run ε σ α} (h : Leads P Q p) (h' : Leads P Q q) :
    Leads P Q (if c then p else q) := by
  split
  · exact h
  · exact h'

/-- The programs for the entries of a list, one after the other. -/
theorem mapM {f : α → Run ε σ β} (h : ∀ a, Leads P P (f a)) : ∀ l : List α, Leads P P (l.mapM f)
  | [] => pure (fun _ => id) []
  | a :: l => by
    rw [List.mapM_cons]
    exact (h a).bind (fun b => (mapM h l).bind (fun bs => pure (fun _ => id) _) fun _ => id)
      fun _ => id

end Leads

end Aetheris.Agree
