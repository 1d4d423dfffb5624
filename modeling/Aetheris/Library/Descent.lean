import Mathlib

/-!
# Going down a graph

Every node of a graph has a list of children.  A recursion that calls itself on the children of its
argument ends where all ways down end; and as there are only finitely many children, their lengths
are then bounded.

When one node is given other children, all ways down still end if none of the new ones leads back to
it, and those from it do not if one does.
-/

namespace Aetheris.Descent

variable {α : Type*} (children : α → List α)

/-- `b` is a child of `a`. -/
def Below (b a : α) : Prop := b ∈ children a

/-- Steps down lead from `a` to `b`. -/
def Leads (a b : α) : Prop := Relation.ReflTransGen (fun a b => Below children b a) a b

/-- All ways down from the node have fewer than so many steps. -/
def Within : ℕ → α → Prop
  | 0, _ => False
  | n + 1, a => ∀ b ∈ children a, Within n b

variable {children}

theorem Within.succ : ∀ {n : ℕ} {a : α}, Within children n a → Within children (n + 1) a
  | _ + 1, _, h => fun b hb => (h b hb).succ

theorem Within.mono {m n : ℕ} (h : m ≤ n) {a : α} (ha : Within children m a) :
    Within children n a := by
  induction h with
  | refl => exact ha
  | step _ ih => exact ih.succ

/-- A bound for all elements of a list. -/
theorem exists_forall_within {l : List α} (h : ∀ b ∈ l, ∃ n, Within children n b) :
    ∃ n, ∀ b ∈ l, Within children n b := by
  induction l with
  | nil => exact ⟨0, fun b hb => nomatch hb⟩
  | cons a l ih =>
    obtain ⟨m, hm⟩ := h a List.mem_cons_self
    obtain ⟨n, hn⟩ := ih fun b hb => h b (List.mem_cons_of_mem a hb)
    refine ⟨max m n, fun b hb => ?_⟩
    rcases List.mem_cons.mp hb with rfl | hb
    · exact hm.mono (le_max_left m n)
    · exact (hn b hb).mono (le_max_right m n)

/-- **All ways down end exactly where their lengths have a bound.** -/
theorem acc_iff_within {a : α} : Acc (Below children) a ↔ ∃ n, Within children n a := by
  constructor
  · intro h
    induction h with
    | intro a _ ih =>
      obtain ⟨n, hn⟩ := exists_forall_within ih
      exact ⟨n + 1, hn⟩
  · rintro ⟨n, hn⟩
    induction n generalizing a with
    | zero => exact hn.elim
    | succ n ih => exact ⟨a, fun b hb => ih (hn b hb)⟩

/-- A node on a cycle has an endless way down. -/
theorem not_acc_of_cycle {a b : α} (hb : Below children b a) (h : Leads children b a) :
    ¬ Acc (Below children) a := by
  intro ha
  induction ha generalizing b with
  | intro a _ ih =>
    -- The cycle may as well be entered one step further on.
    rcases Relation.ReflTransGen.cases_head h with rfl | ⟨c, hc, hrest⟩
    · exact ih b hb hb .refl
    · exact ih b hb hc (hrest.tail hb)

section Update

variable {children' : α → List α} {o : α} (hagree : ∀ a, a ≠ o → children' a = children a)

include hagree

/-- A way to `o` does not use the children of `o`. -/
theorem leads_update {a : α} (h : Leads children a o) : Leads children' a o := by
  induction h using Relation.ReflTransGen.head_induction_on with
  | refl => exact .refl
  | @head a b hab _ ih =>
    by_cases ha : a = o
    · rw [ha]
      exact .refl
    · refine Relation.ReflTransGen.head (b := b) ?_ ih
      show b ∈ children' a
      rwa [hagree a ha]

/-- **New children that do not lead back.** -/
theorem wellFounded_update (hwf : WellFounded (Below children))
    (hnew : ∀ b ∈ children' o, b ∈ children o ∨ ¬ Leads children b o) :
    WellFounded (Below children') := by
  -- What does not lead to `o` has the ways down that it had.
  have hother : ∀ a, ¬ Leads children a o → Acc (Below children') a := by
    intro a
    induction a using hwf.induction with
    | h a ih =>
      intro ha
      refine ⟨a, fun b hb => ?_⟩
      have hne : a ≠ o := fun h => ha (h ▸ .refl)
      have hb' : b ∈ children a := by
        rw [← hagree a hne]
        exact hb
      exact ih b hb' fun h => ha (.head hb' h)
  have ho : Acc (Below children') o := by
    refine ⟨o, fun b hb => hother b ?_⟩
    rcases hnew b hb with hold | hleads
    · exact fun h => not_acc_of_cycle hold h (hwf.apply o)
    · exact hleads
  refine ⟨fun a => ?_⟩
  induction a using hwf.induction with
  | h a ih =>
    by_cases ha : a = o
    · rwa [ha]
    · refine ⟨a, fun b hb => ih b ?_⟩
      show b ∈ children a
      rw [← hagree a ha]
      exact hb

/-- **A new child that leads back.** -/
theorem not_acc_update {b : α} (hb : b ∈ children' o) (h : Leads children b o) :
    ¬ Acc (Below children') o :=
  not_acc_of_cycle hb (leads_update hagree h)

end Update

end Aetheris.Descent
