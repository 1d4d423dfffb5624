import Mathlib

/-!
# Greedy lines

Items are put on lines in order.  An item goes on the line of the item before, if it fits there, or
else begins a new line, whether it fits on it or not.  Lines are `Filled` when no item could stand
on the line before, which one more item keeps in both cases.
-/

namespace Aetheris.Greedy

variable {α : Type*} {fits : List α → Prop}

/-- The items are on lines, every line as full as it can be. -/
structure Filled (fits : List α → Prop) (items : List α) (lines : List (List α)) : Prop where
  flatten : lines.flatten = items
  ne_nil : [] ∉ lines
  room : ∀ line ∈ lines, 1 < line.length → fits line
  full : lines.IsChain fun line next => ∀ a ∈ next.head?, ¬ fits (line ++ [a])

namespace Filled

variable {items : List α} {lines : List (List α)} {line : List α}

theorem nil (fits : List α → Prop) : Filled fits [] [] :=
  ⟨rfl, List.not_mem_nil, fun _ h => absurd h List.not_mem_nil, List.IsChain.nil⟩

/-- The first item begins the first line. -/
theorem singleton (fits : List α → Prop) (a : α) : Filled fits [a] [[a]] where
  flatten := rfl
  ne_nil := by simp
  room line hline hlength := by
    rw [List.mem_singleton.mp hline] at hlength
    exact absurd hlength (lt_irrefl 1)
  full := List.isChain_singleton _

/-- An item that fits is put on the last line. -/
theorem extend (h : Filled fits items (lines ++ [line])) {a : α} (ha : fits (line ++ [a])) :
    Filled fits (items ++ [a]) (lines ++ [line ++ [a]]) where
  flatten := by
    rw [← h.flatten, List.flatten_append, List.flatten_append, List.flatten_singleton,
      List.flatten_singleton, List.append_assoc]
  ne_nil hmem := by
    rcases List.mem_append.mp hmem with hmem | hmem
    · exact h.ne_nil (List.mem_append_left _ hmem)
    · exact List.concat_ne_nil _ _ (List.mem_singleton.mp hmem).symm
  room l hl hlength := by
    rcases List.mem_append.mp hl with hl | hl
    · exact h.room l (List.mem_append_left _ hl) hlength
    · rw [List.mem_singleton.mp hl]
      exact ha
  full := by
    have hline : line ≠ [] := fun heq => h.ne_nil (by simp [heq])
    obtain ⟨hlines, -, hlast⟩ := List.isChain_append.mp h.full
    refine List.isChain_append.mpr ⟨hlines, List.isChain_singleton _, fun l hl next hnext => ?_⟩
    obtain rfl : line ++ [a] = next := Option.some.inj hnext
    rw [List.head?_append_of_ne_nil _ hline]
    exact hlast l hl line rfl

/-- An item that does not fit begins a new line. -/
theorem begin (h : Filled fits items (lines ++ [line])) {a : α} (ha : ¬ fits (line ++ [a])) :
    Filled fits (items ++ [a]) (lines ++ [line] ++ [[a]]) where
  flatten := by
    rw [List.flatten_append, h.flatten, List.flatten_singleton]
  ne_nil hmem := by
    rcases List.mem_append.mp hmem with hmem | hmem
    · exact h.ne_nil hmem
    · exact (List.cons_ne_nil _ _) (List.mem_singleton.mp hmem).symm
  room l hl hlength := by
    rcases List.mem_append.mp hl with hl | hl
    · exact h.room l hl hlength
    · rw [List.mem_singleton.mp hl] at hlength
      exact absurd hlength (lt_irrefl 1)
  full := by
    refine List.isChain_append.mpr ⟨h.full, List.isChain_singleton _, fun l hl next hnext => ?_⟩
    rw [List.getLast?_concat] at hl
    obtain rfl : line = l := Option.some.inj hl
    obtain rfl : [a] = next := Option.some.inj hnext
    intro b hb
    obtain rfl : a = b := Option.some.inj hb
    exact ha

end Filled

end Aetheris.Greedy
