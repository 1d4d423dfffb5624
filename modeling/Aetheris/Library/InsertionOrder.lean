import Aetheris.Library.Keyed

/-!
# Lists with keys, in the order of insertion

Values are put under keys and keys are removed, one after the other.  What is left of it is
described key by key, from the operations alone: a key has the place of its first insertion since it
was removed last, and the value that was put under it last.  The entries reflect this, in the order
of the places; one more operation keeps it.
-/

namespace Aetheris.InsertionOrder

variable {κ ν : Type*}

/-- An operation on entries. -/
inductive Op (κ ν : Type*)
  | put (key : κ) (value : ν)
  | remove (key : κ)

/-- The key that an operation is about. -/
def Op.key : Op κ ν → κ
  | .put key _ => key
  | .remove key => key

variable [DecidableEq κ]

/-- What an operation does to entries. -/
def apply (entries : List (κ × ν)) : Op κ ν → List (κ × ν)
  | .put key value => Keyed.put Prod.fst (key, value) entries
  | .remove key => entries.filter fun entry => entry.1 ≠ key

/-- A value is put under a key by a scan for the key. -/
theorem apply_put_eq (key : κ) (v : ν) (entries : List (κ × ν)) :
    apply entries (.put key v) =
      match entries.findIdx? (fun entry => entry.1 = key) with
      | some i => entries.modify i fun entry => (entry.1, v)
      | none => entries ++ [(key, v)] := by
  rw [apply]
  induction entries with
  | nil => rfl
  | cons entry entries ih =>
    rw [Keyed.put, List.findIdx?_cons]
    by_cases hkey : entry.1 = key
    · rw [if_pos hkey, decide_eq_true hkey, if_pos rfl, ← hkey]
      rfl
    · rw [if_neg hkey, decide_eq_false hkey, if_neg Bool.false_ne_true, ih]
      cases entries.findIdx? fun entry => entry.1 = key with
      | none => rfl
      | some i => rfl

/-- A key is removed by a scan for it. -/
theorem apply_remove_eq {entries : List (κ × ν)} (h : (entries.map Prod.fst).Nodup) (key : κ) :
    apply entries (.remove key) =
      match entries.findIdx? (fun entry => entry.1 = key) with
      | some i => entries.eraseIdx i
      | none => entries := by
  rw [apply]
  induction entries with
  | nil => rfl
  | cons entry entries ih =>
    rw [List.map_cons, List.nodup_cons] at h
    rw [List.findIdx?_cons]
    by_cases hkey : entry.1 = key
    · have hall : entries.filter (fun other => other.1 ≠ key) = entries := by
        refine List.filter_eq_self.mpr fun other hother => decide_eq_true fun heq => h.1 ?_
        rw [hkey, ← heq]
        exact List.mem_map_of_mem hother
      rw [List.filter_cons_of_neg (by simp [hkey]), hall, decide_eq_true hkey, if_pos rfl]
      rfl
    · rw [List.filter_cons_of_pos (by simp [hkey]), ih h.2, decide_eq_false hkey,
        if_neg Bool.false_ne_true]
      cases entries.findIdx? fun entry => entry.1 = key with
      | none => rfl
      | some i => rfl

omit [DecidableEq κ] in
/-- Entries without values are their keys. -/
theorem map_fst_unit (keys : List κ) : (keys.map (·, ())).map Prod.fst = keys := by
  rw [List.map_map]
  exact List.map_id keys

/-- A key without a value goes to the end, if it is not there. -/
theorem apply_put_unit (key : κ) (keys : List κ) :
    apply (keys.map (·, ())) (.put key ()) =
      (if key ∈ keys then keys else keys ++ [key]).map (·, ()) := by
  have hunit (entries : List (κ × Unit)) : (entries.map Prod.fst).map (·, ()) = entries := by
    rw [List.map_map]
    exact List.map_id entries
  have hkeys := Keyed.keys_put Prod.fst (key, ()) (keys.map (·, ()))
  rw [map_fst_unit] at hkeys
  rw [apply, ← hkeys, hunit]

/-- What an operation leaves of a key; `place` is the number of operations before. -/
def track (key : κ) (current : Option (ℕ × ν)) (op : Op κ ν) (place : ℕ) : Option (ℕ × ν) :=
  match op with
  | .put other value =>
    if other = key then some ((current.map Prod.fst).getD place, value) else current
  | .remove other => if other = key then none else current

/-- The place of the first insertion of a key since it was removed last, and its last value. -/
def standing (key : κ) (ops : List (Op κ ν)) : Option (ℕ × ν) :=
  ops.zipIdx.foldl (fun current op => track key current op.1 op.2) none

@[simp] theorem standing_nil (key : κ) : standing key ([] : List (Op κ ν)) = none := rfl

theorem standing_concat (key : κ) (ops : List (Op κ ν)) (op : Op κ ν) :
    standing key (ops ++ [op]) = track key (standing key ops) op ops.length := by
  rw [standing, List.zipIdx_append, List.foldl_append]
  simp [standing]

theorem track_of_ne {key : κ} {op : Op κ ν} (h : op.key ≠ key) (current : Option (ℕ × ν))
    (place : ℕ) : track key current op place = current := by
  cases op with
  | put other value => exact if_neg h
  | remove other => exact if_neg h

/-- The place of the first insertion of a key since it was removed last. -/
def place (key : κ) (ops : List (Op κ ν)) : Option ℕ := (standing key ops).map Prod.fst

/-- The value that was put under a key last, if it was not removed since. -/
def value (key : κ) (ops : List (Op κ ν)) : Option ν := (standing key ops).map Prod.snd

theorem standing_concat_of_ne {key : κ} {op : Op κ ν} (h : op.key ≠ key) (ops : List (Op κ ν)) :
    standing key (ops ++ [op]) = standing key ops := by
  rw [standing_concat, track_of_ne h]

theorem standing_concat_remove_of_ne {key other : κ} (h : other ≠ key) (ops : List (Op κ ν)) :
    standing key (ops ++ [.remove other]) = standing key ops := by
  rw [standing_concat, track, if_neg h]

theorem standing_concat_put_of_ne {key other : κ} (h : other ≠ key) (v : ν) (ops : List (Op κ ν)) :
    standing key (ops ++ [.put other v]) = standing key ops := by
  rw [standing_concat, track, if_neg h]

theorem standing_concat_remove (key : κ) (ops : List (Op κ ν)) :
    standing key (ops ++ [.remove key]) = none := by
  rw [standing_concat]
  exact if_pos rfl

theorem standing_concat_put (key : κ) (v : ν) (ops : List (Op κ ν)) :
    standing key (ops ++ [.put key v]) = some ((place key ops).getD ops.length, v) := by
  rw [standing_concat]
  exact if_pos rfl

/-- A key was inserted before now. -/
theorem lt_length_of_place {key : κ} {ops : List (Op κ ν)} {i : ℕ} (h : place key ops = some i) :
    i < ops.length := by
  induction ops using List.reverseRecOn with
  | nil => cases h
  | append_singleton ops op ih =>
    rw [List.length_append, List.length_singleton]
    by_cases hkey : op.key = key
    · subst hkey
      cases op with
      | remove other =>
        rw [place, Op.key, standing_concat_remove] at h
        cases h
      | put other v =>
        rw [place, Op.key, standing_concat_put] at h
        cases hold : place other ops with
        | none =>
          rw [hold] at h
          rw [← Option.some.inj h]
          exact Nat.lt_succ_self _
        | some j =>
          rw [hold] at h
          exact Nat.lt_succ_of_lt (ih (hold.trans h))
    · rw [place, standing_concat_of_ne hkey] at h
      exact Nat.lt_succ_of_lt (ih h)

/-- One key stands before another one: it was inserted earlier. -/
def Earlier (ops : List (Op κ ν)) (a b : κ) : Prop :=
  ∀ i ∈ place a ops, ∀ j ∈ place b ops, i < j

/-- The entries are what the operations leave, in the order of insertion. -/
structure Reflects (ops : List (Op κ ν)) (entries : List (κ × ν)) : Prop where
  nodup : (entries.map Prod.fst).Nodup
  get : ∀ key, Keyed.get Prod.fst key entries = (value key ops).map (key, ·)
  ordered : (entries.map Prod.fst).Pairwise (Earlier ops)

namespace Reflects

variable {ops : List (Op κ ν)} {entries : List (κ × ν)}

theorem nil : Reflects ([] : List (Op κ ν)) ([] : List (κ × ν)) where
  nodup := List.nodup_nil
  get _ := rfl
  ordered := List.Pairwise.nil

/-- The entries are those that the operations leave. -/
theorem mem_iff (h : Reflects ops entries) (key : κ) (v : ν) :
    (key, v) ∈ entries ↔ value key ops = some v := by
  rw [Keyed.mem_iff_get _ h.nodup, h.get, Option.map_eq_some_iff]
  simp

/-- A key is there if the operations leave something of it. -/
theorem mem_keys_iff (h : Reflects ops entries) (key : κ) :
    key ∈ entries.map Prod.fst ↔ (place key ops).isSome := by
  have hplace : (place key ops).isSome = (value key ops).isSome := by
    rw [place, value, Option.isSome_map, Option.isSome_map]
  rw [hplace, Option.isSome_iff_exists, List.mem_map]
  constructor
  · rintro ⟨⟨key, v⟩, hmem, rfl⟩
    exact ⟨v, (h.mem_iff key v).mp hmem⟩
  · rintro ⟨v, hv⟩
    exact ⟨(key, v), (h.mem_iff key v).mpr hv, rfl⟩

theorem remove (h : Reflects ops entries) (key : κ) :
    Reflects (ops ++ [.remove key]) (apply entries (.remove key)) where
  nodup := h.nodup.sublist (List.filter_sublist.map _)
  get other := by
    rw [apply, Keyed.get_filter_ne, value]
    by_cases hkey : other = key
    · rw [if_pos hkey, hkey, standing_concat_remove]
      rfl
    · rw [if_neg hkey, standing_concat_remove_of_ne (Ne.symm hkey)]
      exact h.get other
  ordered := by
    refine (h.ordered.sublist (List.filter_sublist.map _)).imp_of_mem fun {a b} ha hb hab => ?_
    have hne {k : κ} (hk : k ∈ (apply entries (.remove key)).map Prod.fst) : key ≠ k := by
      obtain ⟨e, he, rfl⟩ := List.mem_map.mp hk
      exact Ne.symm (of_decide_eq_true (List.mem_filter.mp he).2)
    rw [Earlier, place, place, standing_concat_remove_of_ne (hne ha),
      standing_concat_remove_of_ne (hne hb)]
    exact hab

theorem put (h : Reflects ops entries) (key : κ) (v : ν) :
    Reflects (ops ++ [.put key v]) (apply entries (.put key v)) where
  nodup := Keyed.nodup_put _ _ h.nodup
  get other := by
    rw [apply, Keyed.get_put, value]
    by_cases hkey : key = other
    · subst hkey
      rw [if_pos rfl, standing_concat_put]
      rfl
    · rw [if_neg hkey, standing_concat_put_of_ne hkey]
      exact h.get other
  ordered := by
    have hold {k : κ} (hk : k ∈ entries.map Prod.fst) :
        place k (ops ++ [.put key v]) = place k ops := by
      by_cases hkey : key = k
      · subst hkey
        obtain ⟨i, hi⟩ := Option.isSome_iff_exists.mp ((h.mem_keys_iff key).mp hk)
        rw [place, standing_concat_put, hi]
        rfl
      · rw [place, standing_concat_put_of_ne hkey, place]
    have hentries : (entries.map Prod.fst).Pairwise (Earlier (ops ++ [.put key v])) := by
      refine h.ordered.imp_of_mem fun {a b} ha hb hab => ?_
      rw [Earlier, hold ha, hold hb]
      exact hab
    rw [apply, Keyed.keys_put]
    by_cases hmem : key ∈ entries.map Prod.fst
    · rw [if_pos hmem]
      exact hentries
    · rw [if_neg hmem, List.pairwise_append]
      refine ⟨hentries, List.pairwise_singleton _ _, fun a ha b hb i hi j hj => ?_⟩
      have hnone : place key ops = none :=
        Option.not_isSome_iff_eq_none.mp fun hsome => hmem ((h.mem_keys_iff key).mpr hsome)
      rw [List.mem_singleton.mp hb, place, standing_concat_put, hnone] at hj
      rw [hold ha] at hi
      rw [← Option.some.inj hj]
      exact lt_length_of_place hi

end Reflects

end Aetheris.InsertionOrder
