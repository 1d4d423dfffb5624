import Mathlib

/-!
# Texts made of segments

A rooted text is a list of segments with a delimiter in front of each, such as `/a/b/`, which has
the segments `a`, `b` and the empty one.  No segment has a delimiter in it, so the segments are
known from the text, and so is where one of them stands.
-/

namespace Aetheris.Segments

variable {α : Type*}

/-- The segments, each with the delimiter in front of it. -/
def rooted (d : α) (segments : List (List α)) : List α := segments.flatMap (d :: ·)

theorem rooted_nil (d : α) : rooted d [] = [] := rfl

theorem rooted_cons (d : α) (s : List α) (segments : List (List α)) :
    rooted d (s :: segments) = d :: (s ++ rooted d segments) := List.flatMap_cons

theorem rooted_append (d : α) (front back : List (List α)) :
    rooted d (front ++ back) = rooted d front ++ rooted d back := List.flatMap_append

theorem rooted_singleton (d : α) (s : List α) : rooted d [s] = d :: s := by
  rw [rooted_cons, rooted_nil, List.append_nil]

theorem rooted_eq_nil_iff {d : α} {segments : List (List α)} :
    rooted d segments = [] ↔ segments = [] := by
  cases segments with
  | nil => exact iff_of_true rfl rfl
  | cons s segments => exact iff_of_false (List.cons_ne_nil _ _) (List.cons_ne_nil _ _)

/-- A rooted text is empty or starts with the delimiter. -/
theorem eq_of_mem_head?_rooted {d c : α} {segments : List (List α)}
    (h : c ∈ (rooted d segments).head?) : c = d := by
  cases segments with
  | nil => cases h
  | cons s segments => exact (Option.some.inj h).symm

/-- Two texts up to the first delimiter. -/
theorem append_inj_of_not_mem {d : α} {s t front back : List α} (hs : d ∉ s) (ht : d ∉ t)
    (hfront : ∀ c ∈ front.head?, c = d) (hback : ∀ c ∈ back.head?, c = d)
    (h : s ++ front = t ++ back) : s = t ∧ front = back := by
  induction s generalizing t with
  | nil =>
    cases t with
    | nil => exact ⟨rfl, h⟩
    | cons c t =>
      rw [List.nil_append, List.cons_append] at h
      rw [h] at hfront
      exact absurd (hfront c rfl ▸ List.mem_cons_self) ht
  | cons c s ih =>
    cases t with
    | nil =>
      rw [List.nil_append, List.cons_append] at h
      rw [← h] at hback
      exact absurd (hback c rfl ▸ List.mem_cons_self) hs
    | cons e t =>
      rw [List.cons_append, List.cons_append, List.cons.injEq] at h
      obtain ⟨heq, hrest⟩ := ih (fun hmem => hs (List.mem_cons_of_mem _ hmem))
        (fun hmem => ht (List.mem_cons_of_mem _ hmem)) h.2
      exact ⟨by rw [h.1, heq], hrest⟩

/-- **The segments are determined by the text.** -/
theorem rooted_injective {d : α} {front back : List (List α)} (hfront : ∀ s ∈ front, d ∉ s)
    (hback : ∀ s ∈ back, d ∉ s) (h : rooted d front = rooted d back) : front = back := by
  induction front generalizing back with
  | nil => exact (rooted_eq_nil_iff.mp (h.symm.trans (rooted_nil d))).symm
  | cons s front ih =>
    cases back with
    | nil => exact absurd h (List.cons_ne_nil _ _)
    | cons t back =>
      rw [rooted_cons, rooted_cons, List.cons.injEq] at h
      obtain ⟨heq, hrest⟩ := append_inj_of_not_mem (hfront s List.mem_cons_self)
        (hback t List.mem_cons_self) (fun c => eq_of_mem_head?_rooted)
        (fun c => eq_of_mem_head?_rooted) h.2
      rw [heq, ih (fun u hu => hfront u (List.mem_cons_of_mem _ hu))
        (fun u hu => hback u (List.mem_cons_of_mem _ hu)) hrest]

section Occurrences

variable {d : α} {s : List α} (hs : d ∉ s)

include hs

/-- The segment and a delimiter stand at the start of the text if it is the first segment of the
text and not the last one. -/
theorem append_delimiter_prefix_iff {t : List α} (ht : d ∉ t) {segments : List (List α)} :
    s ++ [d] <+: t ++ rooted d segments ↔ s = t ∧ segments ≠ [] := by
  constructor
  · rintro ⟨rest, h⟩
    rw [List.append_assoc] at h
    have hhead : ∀ c ∈ ([d] ++ rest).head?, c = d := fun c hc => (Option.some.inj hc).symm
    obtain ⟨heq, hrest⟩ := append_inj_of_not_mem hs ht hhead (fun c => eq_of_mem_head?_rooted) h
    refine ⟨heq, ?_⟩
    rintro rfl
    exact List.cons_ne_nil _ _ hrest
  · rintro ⟨rfl, hne⟩
    cases segments with
    | nil => exact absurd rfl hne
    | cons u segments =>
      rw [rooted_cons, List.prefix_append_right_inj]
      exact List.cons_prefix_cons.mpr ⟨rfl, List.nil_prefix⟩

/-- **Where a segment stands** in a text between two delimiters. -/
theorem prefix_drop_rooted_iff {segments : List (List α)} (hsegments : ∀ t ∈ segments, d ∉ t)
    {j : ℕ} :
    d :: (s ++ [d]) <+: (rooted d segments).drop j ↔
      ∃ front t back, segments = front ++ s :: t :: back ∧ (rooted d front).length = j := by
  induction segments generalizing j with
  | nil =>
    rw [rooted_nil, List.drop_nil]
    refine iff_of_false (fun h => ?_) ?_
    · exact List.cons_ne_nil _ _ (List.prefix_nil.mp h)
    · rintro ⟨front, t, back, h, -⟩
      exact List.cons_ne_nil _ _ (List.append_eq_nil_iff.mp h.symm).2
  | cons x segments ih =>
    have hx := hsegments x List.mem_cons_self
    have hrest : ∀ t ∈ segments, d ∉ t := fun t ht => hsegments t (List.mem_cons_of_mem _ ht)
    rw [rooted_cons]
    cases j with
    | zero =>
      rw [List.drop_zero, List.cons_prefix_cons, append_delimiter_prefix_iff hs hx]
      constructor
      · rintro ⟨-, rfl, hne⟩
        obtain ⟨t, back, rfl⟩ := List.exists_cons_of_ne_nil hne
        exact ⟨[], t, back, rfl, rfl⟩
      · rintro ⟨front, t, back, heq, hlen⟩
        rw [List.length_eq_zero_iff, rooted_eq_nil_iff] at hlen
        rw [hlen, List.nil_append, List.cons.injEq] at heq
        exact ⟨rfl, heq.1.symm, heq.2 ▸ List.cons_ne_nil _ _⟩
    | succ k =>
      rw [List.drop_succ_cons]
      rcases Nat.lt_or_ge k x.length with hlt | hge
      · refine iff_of_false (fun h => ?_) ?_
        · rw [List.drop_append_of_le_length (Nat.le_of_lt hlt), List.drop_eq_getElem_cons hlt,
            List.cons_append] at h
          exact hx ((List.cons_prefix_cons.mp h).1 ▸ List.getElem_mem hlt)
        · rintro ⟨front, t, back, heq, hlen⟩
          cases front with
          | nil => exact absurd hlen (Nat.succ_ne_zero k).symm
          | cons y front =>
            rw [List.cons_append, List.cons.injEq] at heq
            rw [rooted_cons, List.length_cons, List.length_append, ← heq.1] at hlen
            omega
      · rw [List.drop_append, List.drop_of_length_le hge, List.nil_append, ih hrest]
        constructor
        · rintro ⟨front, t, back, heq, hlen⟩
          refine ⟨x :: front, t, back, by rw [heq, List.cons_append], ?_⟩
          rw [rooted_cons, List.length_cons, List.length_append, hlen, Nat.add_sub_cancel' hge]
        · rintro ⟨front, t, back, heq, hlen⟩
          cases front with
          | nil => exact absurd hlen (Nat.succ_ne_zero k).symm
          | cons y front =>
            rw [List.cons_append, List.cons.injEq] at heq
            rw [rooted_cons, List.length_cons, List.length_append, ← heq.1] at hlen
            exact ⟨front, t, back, heq.2, by omega⟩

end Occurrences

/-! ## The segments of a text -/

variable [DecidableEq α]

theorem not_mem_of_mem_splitOn {d : α} {text s : List α} (h : s ∈ text.splitOn d) : d ∉ s := by
  induction text generalizing s with
  | nil =>
    rw [List.splitOn_nil, List.mem_singleton] at h
    rw [h]
    exact List.not_mem_nil
  | cons c text ih =>
    rw [List.splitOn_cons_eq_if_modifyHead] at h
    split at h
    · rcases List.mem_cons.mp h with rfl | h
      · exact List.not_mem_nil
      · exact ih h
    · rename_i hc
      obtain ⟨t, rest, hsplit⟩ := List.exists_cons_of_ne_nil (List.splitOn_ne_nil d text)
      rw [hsplit, List.modifyHead_cons] at h
      rw [hsplit] at ih
      rcases List.mem_cons.mp h with rfl | h
      · rw [List.mem_cons, not_or]
        exact ⟨fun heq => hc (beq_iff_eq.mpr heq.symm), ih List.mem_cons_self⟩
      · exact ih (List.mem_cons_of_mem _ h)

theorem rooted_splitOn (d : α) (text : List α) : rooted d (text.splitOn d) = d :: text := by
  induction text with
  | nil => rw [List.splitOn_nil, rooted_singleton]
  | cons c text ih =>
    rw [List.splitOn_cons_eq_if_modifyHead]
    split
    · rename_i hc
      rw [rooted_cons, List.nil_append, ih, beq_iff_eq.mp hc]
    · obtain ⟨t, rest, hsplit⟩ := List.exists_cons_of_ne_nil (List.splitOn_ne_nil d text)
      rw [hsplit, rooted_cons, List.cons.injEq] at ih
      rw [hsplit, List.modifyHead_cons, rooted_cons, List.cons_append, ih.2]

theorem mem_of_mem_splitOn {d c : α} {text s : List α} (hs : s ∈ text.splitOn d) (hc : c ∈ s) :
    c ∈ text := by
  have hmem : c ∈ rooted d (text.splitOn d) :=
    List.mem_flatMap.mpr ⟨s, hs, List.mem_cons_of_mem _ hc⟩
  rw [rooted_splitOn] at hmem
  refine (List.mem_cons.mp hmem).resolve_left ?_
  rintro rfl
  exact not_mem_of_mem_splitOn hs hc

/-- The segments of two texts behind each other: the last one of the first text and the first
one of the second text are one segment. -/
theorem splitOn_append {d : α} {front back : List (List α)} {s t : List α}
    {text text' : List α} (h : text.splitOn d = front ++ [s])
    (h' : text'.splitOn d = t :: back) :
    (text ++ text').splitOn d = front ++ (s ++ t) :: back := by
  have hmem : ∀ u ∈ front ++ (s ++ t) :: back, d ∉ u := by
    have hfront : ∀ u ∈ front ++ [s], d ∉ u := fun u hu => not_mem_of_mem_splitOn (h ▸ hu)
    have hback : ∀ u ∈ t :: back, d ∉ u := fun u hu => not_mem_of_mem_splitOn (h' ▸ hu)
    intro u hu
    rcases List.mem_append.mp hu with hu | hu
    · exact hfront u (List.mem_append_left _ hu)
    · rcases List.mem_cons.mp hu with rfl | hu
      · rw [List.mem_append, not_or]
        exact ⟨hfront s (List.mem_append_right _ (List.mem_singleton_self s)),
          hback t List.mem_cons_self⟩
      · exact hback u (List.mem_cons_of_mem _ hu)
  refine rooted_injective (fun u hu => not_mem_of_mem_splitOn hu) hmem ?_
  have htext := rooted_splitOn d text
  have htext' := rooted_splitOn d text'
  rw [h, rooted_append, rooted_singleton] at htext
  rw [h', rooted_cons, List.cons.injEq] at htext'
  rw [rooted_splitOn, rooted_append, rooted_cons, ← List.cons_append, ← htext, List.append_assoc,
    List.append_assoc, ← htext'.2, List.cons_append]

end Aetheris.Segments
