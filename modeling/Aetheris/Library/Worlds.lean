import Aetheris.Library.Agree

/-!
# Values that stay good

A program that makes things and hands them around: what a value may refer to is said by the world
that the state is in, and the worlds of a run only grow.  A value that is good in a world is good in
every later one, so a program may keep it while other programs run.  What a program yields, if it is
not stopped, follows from what its parts yield.
-/

namespace Aetheris.Worlds

open Aetheris.Agree

variable {ε σ ω α β : Type} [Preorder ω] (inv : σ → Prop) (world : σ → ω)

/-- From a state of this world or a later one, the change keeps the invariant, the world grows, and
the result is good. -/
def Makes (w : ω) (good : ω → α → Prop) (f : σ → α × σ) : Prop :=
  ∀ s, inv s → w ≤ world s →
    inv (f s).2 ∧ world s ≤ world (f s).2 ∧ good (world (f s).2) (f s).1

/-- The same of a change without a result. -/
def Moves (w : ω) (f : σ → σ) : Prop :=
  ∀ s, inv s → w ≤ world s → inv (f s) ∧ world s ≤ world (f s)

/-- The same of a program; if it is stopped, the invariant holds there as well. -/
def Yields (w : ω) (good : ω → α → Prop) (p : Run ε σ α) : Prop :=
  ∀ s, inv s → w ≤ world s →
    inv (p.from s).2 ∧ world s ≤ world (p.from s).2 ∧
      ∀ a, (p.from s).1 = .ok a → good (world (p.from s).2) a

variable {inv world} {w : ω} {good : ω → α → Prop} {good' : ω → β → Prop}

/-! ## Changes -/

namespace Makes

theorem pure {a : α} (h : ∀ w', w ≤ w' → good w' a) : Makes inv world w good fun s => (a, s) :=
  fun _ hs hw => ⟨hs, le_refl _, h _ hw⟩

/-- One change after the other. -/
theorem bind {f : σ → α × σ} {g : α → σ → β × σ} (hf : Makes inv world w good f)
    (hg : ∀ w', w ≤ w' → ∀ a, good w' a → Makes inv world w' good' (g a)) :
    Makes inv world w good' fun s => g (f s).1 (f s).2 := by
  intro s hs hw
  obtain ⟨hs', hw', ha⟩ := hf s hs hw
  obtain ⟨hs'', hw'', hb⟩ := hg _ (hw.trans hw') _ ha _ hs' (le_refl _)
  exact ⟨hs'', hw'.trans hw'', hb⟩

/-- A change without a result behind it. -/
theorem moves {f : σ → α × σ} {g : α → σ → σ} (hf : Makes inv world w good f)
    (hgood : ∀ w' w'' a, w' ≤ w'' → good w' a → good w'' a)
    (hg : ∀ w', w ≤ w' → ∀ a, good w' a → Moves inv world w' (g a)) :
    Makes inv world w good fun s => ((f s).1, g (f s).1 (f s).2) := by
  intro s hs hw
  obtain ⟨hs', hw', ha⟩ := hf s hs hw
  obtain ⟨hs'', hw''⟩ := hg _ (hw.trans hw') _ ha _ hs' (le_refl _)
  exact ⟨hs'', hw'.trans hw'', hgood _ _ _ hw'' ha⟩

theorem mono {w' : ω} {f : σ → α × σ} (hf : Makes inv world w good f) (hw : w ≤ w') :
    Makes inv world w' good f :=
  fun s hs hs' => hf s hs (hw.trans hs')

end Makes

namespace Moves

theorem refl : Moves inv world w id := fun _ hs _ => ⟨hs, le_refl _⟩

theorem trans {f g : σ → σ} (hf : Moves inv world w f) (hg : Moves inv world w g) :
    Moves inv world w (g ∘ f) := by
  intro s hs hw
  obtain ⟨hs', hw'⟩ := hf s hs hw
  obtain ⟨hs'', hw''⟩ := hg _ hs' (hw.trans hw')
  exact ⟨hs'', hw'.trans hw''⟩

theorem mono {w' : ω} {f : σ → σ} (hf : Moves inv world w f) (hw : w ≤ w') :
    Moves inv world w' f :=
  fun s hs hs' => hf s hs (hw.trans hs')

/-- The change has a result that is there already. -/
theorem makes {f : σ → σ} (hf : Moves inv world w f) {a : α} (h : ∀ w', w ≤ w' → good w' a) :
    Makes inv world w good fun s => (a, f s) := by
  intro s hs hw
  obtain ⟨hs', hw'⟩ := hf s hs hw
  exact ⟨hs', hw', h _ (hw.trans hw')⟩

end Moves

/-! ## Programs -/

namespace Yields

theorem pure {a : α} (h : ∀ w', w ≤ w' → good w' a) :
    Yields inv world w good (pure a : Run ε σ α) := by
  intro s hs hw
  refine ⟨hs, le_refl _, fun b hb => ?_⟩
  rw [← Except.ok.inj hb]
  exact h _ hw

theorem throw (e : ε) : Yields inv world w good (throw e : Run ε σ α) :=
  fun _ hs _ => ⟨hs, le_refl _, fun _ hb => nomatch hb⟩

theorem modifyGet {f : σ → α × σ} (hf : Makes inv world w good f) :
    Yields inv world w good (modifyGet f : Run ε σ α) := by
  intro s hs hw
  obtain ⟨hs', hw', ha⟩ := hf s hs hw
  refine ⟨hs', hw', fun b hb => ?_⟩
  rw [← Except.ok.inj hb]
  exact ha

/-- A change without a result first. -/
theorem modify_bind {f : σ → σ} {q : Unit → Run ε σ β} (hf : Moves inv world w f)
    (hq : ∀ w', w ≤ w' → Yields inv world w' good' (q ())) :
    Yields inv world w good' (modify f >>= q) := by
  intro s hs hw
  obtain ⟨hs', hw'⟩ := hf s hs hw
  obtain ⟨hs'', hw'', hb⟩ := hq _ (hw.trans hw') (f s) hs' (le_refl _)
  exact ⟨hs'', hw'.trans hw'', hb⟩

theorem modify {f : σ → σ} {good : ω → Unit → Prop} (hf : Moves inv world w f)
    (h : ∀ w', w ≤ w' → good w' ()) : Yields inv world w good (modify f : Run ε σ Unit) := by
  intro s hs hw
  obtain ⟨hs', hw'⟩ := hf s hs hw
  exact ⟨hs', hw', fun _ _ => h _ (hw.trans hw')⟩

/-- One program after the other: what the first one yields is good in the world that it leaves. -/
theorem bind {p : Run ε σ α} {f : α → Run ε σ β} (hp : Yields inv world w good p)
    (hf : ∀ w', w ≤ w' → ∀ a, good w' a → Yields inv world w' good' (f a)) :
    Yields inv world w good' (p >>= f) := by
  intro s hs hw
  have hps := hp s hs hw
  rw [from_bind]
  match hrun : p.from s with
  | (.ok a, s') =>
    rw [hrun] at hps
    obtain ⟨hs', hw', ha⟩ := hps
    obtain ⟨hs'', hw'', hb⟩ := hf _ (hw.trans hw') a (ha a rfl) s' hs' (le_refl _)
    exact ⟨hs'', hw'.trans hw'', hb⟩
  | (.error e, s') =>
    rw [hrun] at hps
    exact ⟨hps.1, hps.2.1, fun _ hb => nomatch hb⟩

/-- A program that looks at its state first. -/
theorem get_bind {f : σ → Run ε σ β}
    (h : ∀ s, inv s → w ≤ world s → Yields inv world (world s) good' (f s)) :
    Yields inv world w good' (get >>= f) :=
  fun s hs hw => h s hs hw s hs (le_refl _)

/-- It is enough to know what is yielded from the world of each state on. -/
theorem of_world {p : Run ε σ α}
    (h : ∀ s, inv s → w ≤ world s → Yields inv world (world s) good p) :
    Yields inv world w good p :=
  fun s hs hw => h s hs hw s hs (le_refl _)

theorem ite {c : Prop} [Decidable c] {p q : Run ε σ α} (hp : Yields inv world w good p)
    (hq : Yields inv world w good q) : Yields inv world w good (if c then p else q) := by
  split
  · exact hp
  · exact hq

/-- The programs for the entries of a list, one after the other. -/
theorem mapM (good' : ω → β → Prop)
    (hgood : ∀ w' w'' b, w' ≤ w'' → good' w' b → good' w'' b) {f : α → Run ε σ β} :
    ∀ {l : List α} {w : ω}, (∀ a ∈ l, ∀ w', w ≤ w' → Yields inv world w' good' (f a)) →
      Yields inv world w (fun w' bs => ∀ b ∈ bs, good' w' b) (l.mapM f)
  | [], _, _ => pure fun _ _ b hb => nomatch hb
  | a :: l, w, h => by
    rw [List.mapM_cons]
    refine bind (h a List.mem_cons_self w (le_refl w)) fun w' hw b hb => ?_
    refine bind (mapM good' hgood fun a' ha' w'' hw'' =>
      h a' (List.mem_cons_of_mem a ha') w'' (hw.trans hw'')) fun w'' hw' bs hbs => ?_
    refine pure fun w''' hw''' b' hb' => ?_
    rcases List.mem_cons.mp hb' with rfl | hb'
    · exact hgood _ _ _ (hw'.trans hw''') hb
    · exact hgood _ _ _ hw''' (hbs b' hb')

end Yields

end Aetheris.Worlds
