import Mathlib

/-!
# Lists with keys

A list whose entries have keys holds at most one entry for each of them: `put` takes the place of
the entry with the same key, or goes to the end.  So the keys stay different, the entry that was put
in is found afterwards, and the others are found as before.
-/

namespace Aetheris.Keyed

variable {α κ : Type*} [DecidableEq κ] (key : α → κ)

/-- The first entry with the same key is replaced, else the entry is put at the end. -/
def put (x : α) : List α → List α
  | [] => [x]
  | y :: entries => if key y = key x then x :: entries else y :: put x entries

/-- The first entry with the key. -/
def get (k : κ) (entries : List α) : Option α := entries.find? fun y => key y = k

theorem get_cons (k : κ) (y : α) (entries : List α) :
    get key k (y :: entries) = if key y = k then some y else get key k entries := by
  rw [get, get, List.find?_cons]
  by_cases h : key y = k
  · rw [if_pos h, decide_eq_true h]
  · rw [if_neg h, decide_eq_false h]

/-- The entry itself is found under its key, and nothing else has changed. -/
theorem get_put (x : α) (k : κ) (entries : List α) :
    get key k (put key x entries) = if key x = k then some x else get key k entries := by
  induction entries with
  | nil => rw [put, get_cons]
  | cons y entries ih =>
    rw [put, get_cons]
    by_cases hy : key y = key x
    · rw [if_pos hy, get_cons, hy]
      split <;> rfl
    · rw [if_neg hy, get_cons, ih]
      by_cases hx : key x = k
      · rw [if_pos hx, if_pos hx, if_neg fun h => hy (h.trans hx.symm)]
      · rw [if_neg hx, if_neg hx]

/-- The keys stay where they are, and a new one goes to the end. -/
theorem keys_put (x : α) (entries : List α) :
    (put key x entries).map key =
      if key x ∈ entries.map key then entries.map key else entries.map key ++ [key x] := by
  induction entries with
  | nil => rfl
  | cons y entries ih =>
    rw [put]
    by_cases hy : key y = key x
    · rw [if_pos hy, if_pos (List.mem_map.mpr ⟨y, List.mem_cons_self, hy⟩), List.map_cons,
        List.map_cons, hy]
    · have hmem : key x ∈ (y :: entries).map key ↔ key x ∈ entries.map key := by
        rw [List.map_cons, List.mem_cons, or_iff_right (Ne.symm hy)]
      rw [if_neg hy, List.map_cons, ih]
      by_cases hx : key x ∈ entries.map key
      · rw [if_pos hx, if_pos (hmem.mpr hx), List.map_cons]
      · rw [if_neg hx, if_neg (mt hmem.mp hx), List.map_cons, List.cons_append]

/-- Without the entries with one key, nothing is found under it, and under the others what was
found before. -/
theorem get_filter_ne (k l : κ) (entries : List α) :
    get key l (entries.filter fun y => key y ≠ k) = if l = k then none else get key l entries := by
  induction entries with
  | nil => exact (ite_self _).symm
  | cons y entries ih =>
    rw [get_cons]
    by_cases hy : key y = k
    · rw [List.filter_cons_of_neg (by simp [hy]), ih, hy]
      split
      · rfl
      next hl => rw [if_neg (Ne.symm hl)]
    · rw [List.filter_cons_of_pos (by simp [hy]), get_cons, ih]
      by_cases hl : l = k
      · rw [if_pos hl, if_pos hl, if_neg (hl ▸ hy)]
      · rw [if_neg hl, if_neg hl]

theorem mem_of_mem_put {x z : α} {entries : List α} (h : z ∈ put key x entries) :
    z = x ∨ z ∈ entries := by
  induction entries with
  | nil => exact Or.inl (List.mem_singleton.mp h)
  | cons y entries ih =>
    rw [put] at h
    split at h
    · exact (List.mem_cons.mp h).imp_right (List.mem_cons_of_mem y)
    · rcases List.mem_cons.mp h with rfl | h
      · exact Or.inr List.mem_cons_self
      · exact (ih h).imp_right (List.mem_cons_of_mem y)

/-- The keys stay different. -/
theorem nodup_put (x : α) {entries : List α} (h : (entries.map key).Nodup) :
    ((put key x entries).map key).Nodup := by
  induction entries with
  | nil => exact List.nodup_singleton _
  | cons y entries ih =>
    rw [List.map_cons, List.nodup_cons] at h
    rw [put]
    by_cases hy : key y = key x
    · rw [if_pos hy, List.map_cons, List.nodup_cons, ← hy]
      exact h
    · rw [if_neg hy, List.map_cons, List.nodup_cons]
      refine ⟨fun hmem => ?_, ih h.2⟩
      obtain ⟨z, hz, hkey⟩ := List.mem_map.mp hmem
      rcases mem_of_mem_put key hz with rfl | hz
      · exact hy hkey.symm
      · exact h.1 (hkey ▸ List.mem_map_of_mem hz)

/-- **With different keys the entries with a key are the one that is found.** -/
theorem filter_eq_toList_get {entries : List α} (h : (entries.map key).Nodup) (k : κ) :
    entries.filter (fun y => key y = k) = (get key k entries).toList := by
  induction entries with
  | nil => rfl
  | cons y entries ih =>
    rw [List.map_cons, List.nodup_cons] at h
    rw [List.filter_cons, get_cons]
    by_cases hy : key y = k
    · have hnone : entries.filter (fun z => key z = k) = [] := by
        rw [List.filter_eq_nil_iff]
        intro z hz hkey
        refine h.1 ?_
        rw [hy, ← of_decide_eq_true hkey]
        exact List.mem_map_of_mem hz
      rw [if_pos (decide_eq_true hy), if_pos hy, hnone]
      rfl
    · rw [if_neg (by rw [decide_eq_false hy]; exact Bool.false_ne_true), if_neg hy, ih h.2]

/-- With different keys an entry is the one that is found under its key. -/
theorem mem_iff_get {entries : List α} (h : (entries.map key).Nodup) (x : α) :
    x ∈ entries ↔ get key (key x) entries = some x := by
  have hmem := congrArg (x ∈ ·) (filter_eq_toList_get key h (key x))
  simpa using hmem

end Aetheris.Keyed
