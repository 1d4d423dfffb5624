import Mathlib

/-!
# A list of marks that is cut back

A walk over a tree keeps a list of the marked nodes it has come to.  At the end of a marked node it
cuts the list back to that node, which itself is never taken off again, so that the places in the
list stay those of the outermost marked nodes.  `Standing` says what the list has to do with the
marked nodes that are around, and with all that have begun.
-/

namespace Aetheris.Marks

variable {α : Type*}

/-- The place of the last entry. -/
def lastPlace (marks : List α) : Option ℕ :=
  if marks = [] then none else some (marks.length - 1)

/-- Outside of all marked nodes the list is the outermost ones that have begun.  Otherwise it goes
on behind the outermost one around, `g`; it does not exactly if `g` is the only one around and
the last that has begun. -/
inductive Standing (top : List α) (nearest : α → Option α) :
    List α → List α → List α → Prop
  | outside {marks begun : List α} (hbegins : marks <+: top) (hnil : marks = [] ↔ begun = []) :
      Standing top nearest marks [] begun
  | inside {front rest around begun : List α} {g : α} (hbegins : front ++ [g] <+: top)
      (hbegun : g ∈ begun) (hrest : rest = [] ↔ around = [] ∧ begun.getLast? = some g)
      (hg : nearest g = none) (haround : ∀ f ∈ around, nearest f ≠ none) :
      Standing top nearest (front ++ g :: rest) (g :: around) begun

namespace Standing

variable {top marks around begun : List α} {nearest : α → Option α}

/-- Into a marked node. -/
theorem enter (h : Standing top nearest marks around begun) {f : α}
    (hnearest : nearest f = around.getLast?) (hbegins : around = [] → marks ++ [f] <+: top) :
    Standing top nearest (marks ++ [f]) (around ++ [f]) (begun ++ [f]) := by
  cases h with
  | outside _ _ =>
    refine @inside _ top nearest _ [] [] _ f (hbegins rfl)
      (List.mem_append_right _ (List.mem_singleton_self f)) ?_ hnearest ?_
    · exact iff_of_true rfl ⟨rfl, List.getLast?_concat⟩
    · exact fun g hg => absurd hg List.not_mem_nil
  | @inside front rest around _ g htop hbegun hrest hg haround =>
    rw [List.append_assoc, List.cons_append, List.cons_append]
    refine .inside htop (List.mem_append_left _ hbegun) ?_ hg ?_
    · refine iff_of_false (List.append_ne_nil_of_right_ne_nil _ (List.cons_ne_nil _ _)) ?_
      exact fun h => List.append_ne_nil_of_right_ne_nil _ (List.cons_ne_nil _ _) h.1
    · intro e he
      rcases List.mem_append.mp he with he | he
      · exact haround e he
      · rw [List.mem_singleton.mp he, hnearest, List.getLast?_eq_some_getLast (List.cons_ne_nil _ _)]
        exact Option.some_ne_none _

/-- Past a node that leaves `outer` on the list, and in which the marked nodes `inner` begin. -/
theorem pass (h : Standing top nearest marks around begun) {outer inner : List α}
    (hnil : outer = [] ↔ inner = []) (hdisjoint : ∀ f ∈ inner, f ∉ begun)
    (hbegins : around = [] → marks ++ outer <+: top) :
    Standing top nearest (marks ++ outer) around (begun ++ inner) := by
  cases h with
  | outside _ hmarks =>
    refine .outside (hbegins rfl) ?_
    rw [List.append_eq_nil_iff, List.append_eq_nil_iff, hmarks, hnil]
  | @inside front rest around _ g htop hbegun hrest hg haround =>
    rw [List.append_assoc, List.cons_append]
    refine .inside htop (List.mem_append_left _ hbegun) ?_ hg haround
    rw [List.append_eq_nil_iff, hrest, hnil]
    rcases List.eq_nil_or_concat' inner with rfl | ⟨inner, e, rfl⟩
    · rw [List.append_nil]
      exact and_iff_left rfl
    · refine iff_of_false (fun h => List.append_ne_nil_of_right_ne_nil _ (List.cons_ne_nil _ _) h.2)
        fun ⟨_, hlast⟩ => ?_
      rw [← List.append_assoc, List.getLast?_concat, Option.some.injEq] at hlast
      have hmem : e ∈ inner ++ [e] := List.mem_append_right _ (List.mem_singleton_self e)
      exact hdisjoint e hmem (hlast ▸ hbegun)

/-- **When the last place is that of the nearest marked node around**: exactly if no marked node
has begun, or if the last one that has is the nearest one around, with none around itself. -/
theorem names_iff (h : Standing top nearest marks around begun) (hnodup : top.Nodup)
    (htop : ∀ f ∈ top, nearest f = none) :
    (lastPlace marks).map (top[·]?) = around.getLast?.map some ↔
      ∀ f, begun.getLast? = some f → around.getLast? = some f ∧ nearest f = none := by
  cases h with
  | outside _ hnil =>
    rw [List.getLast?_nil]
    by_cases hbegun : begun = []
    · rw [hbegun, hnil.mpr hbegun]
      exact iff_of_true rfl fun f hf => nomatch hf
    · rw [lastPlace, if_neg fun h => hbegun (hnil.mp h)]
      refine iff_of_false nofun fun h => ?_
      have hlast := List.getLast?_eq_some_getLast hbegun
      exact nomatch (h _ hlast).1
  | @inside front rest around _ g hbegins hbegun hrest hg haround =>
    have hplace : lastPlace (front ++ g :: rest) = some (front.length + rest.length) := by
      rw [lastPlace, if_neg (List.append_ne_nil_of_right_ne_nil _ (List.cons_ne_nil _ _)),
        List.length_append, List.length_cons]
      rfl
    obtain ⟨back, rfl⟩ := hbegins
    have hget : (front ++ [g] ++ back)[front.length]? = some g := by
      rw [List.append_assoc, List.getElem?_append_right (Nat.le_refl _), Nat.sub_self]
      rfl
    rw [hplace, Option.map_some]
    by_cases hnil : rest = []
    · obtain ⟨rfl, hlast⟩ := hrest.mp hnil
      rw [hnil, List.length_nil, Nat.add_zero, hget, hlast]
      refine iff_of_true rfl fun f hf => ?_
      rw [← Option.some.inj hf]
      exact ⟨rfl, hg⟩
    · refine iff_of_false (fun h => ?_) fun h => ?_
      · -- the node at the last place is `g`, which is at another one
        obtain ⟨e, he⟩ : ∃ e, (g :: around).getLast? = some e :=
          ⟨_, List.getLast?_eq_some_getLast (List.cons_ne_nil _ _)⟩
        rw [he, Option.map_some, Option.some.injEq] at h
        have hnone := htop e (List.mem_of_getElem? h)
        have heg : e = g := by
          rcases List.mem_cons.mp (List.mem_of_getLast? he) with heq | hmem
          · exact heq
          · exact absurd hnone (haround e hmem)
        rw [heg, ← hget] at h
        have hlt := (List.getElem?_eq_some_iff.mp hget).1
        have hlength := (List.getElem?_inj hlt hnodup).mp h.symm
        exact hnil (List.length_eq_zero_iff.mp (by omega))
      · obtain ⟨f, hf⟩ : ∃ f, begun.getLast? = some f :=
          ⟨_, List.getLast?_eq_some_getLast (List.ne_nil_of_mem hbegun)⟩
        obtain ⟨hlast, hnone⟩ := h f hf
        refine hnil (hrest.mpr ?_)
        rcases List.eq_nil_or_concat' around with rfl | ⟨front', e, rfl⟩
        · rw [hf]
          exact ⟨rfl, hlast.symm⟩
        · rw [← List.cons_append, List.getLast?_concat, Option.some.injEq] at hlast
          have hmem : e ∈ front' ++ [e] := List.mem_append_right _ (List.mem_singleton_self e)
          exact absurd (hlast ▸ hnone) (haround e hmem)

end Standing

end Aetheris.Marks
