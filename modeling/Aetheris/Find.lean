import Aetheris.Bytes

/-!
# Searching in byte strings

`find` gives the first place at which the needle starts, and `rfind` the last place of a byte.  Both
are known by what they give: a place at which there is a match and before (or behind) which there is
none, or no place at all.
-/

namespace Aetheris

theorem find_add_length_le {text needle : Bytes} {i : ℕ} (h : find text needle = some i) :
    i + needle.length ≤ text.length ∧ (text.drop i).take needle.length = needle := by
  induction text generalizing i with
  | nil =>
    rw [find] at h
    split at h
    · rename_i htake
      rw [← Option.some.inj h, List.drop_zero, Nat.zero_add]
      rw [List.take_nil] at htake
      exact ⟨htake ▸ le_rfl, htake ▸ rfl⟩
    · cases h
  | cons c text ih =>
    rw [find] at h
    split at h
    · rename_i htake
      rw [← Option.some.inj h, List.drop_zero, Nat.zero_add]
      refine ⟨?_, htake⟩
      have hlen := congrArg List.length htake
      rw [List.length_take] at hlen
      omega
    · obtain ⟨j, hj, hij⟩ := Option.map_eq_some_iff.mp h
      rw [← hij, List.drop_succ_cons, List.length_cons]
      obtain ⟨hle, htake⟩ := ih hj
      exact ⟨by omega, htake⟩

theorem rfind_lt {text : Bytes} {c : Byte} {i : ℕ} (h : rfind text c = some i) :
    i < text.length := by
  induction text generalizing i with
  | nil => cases h
  | cons d text ih =>
    rw [rfind] at h
    rw [List.length_cons]
    cases hr : rfind text c with
    | none =>
      rw [hr] at h
      dsimp only at h
      split at h
      · rw [← Option.some.inj h]
        exact Nat.succ_pos _
      · cases h
    | some j =>
      rw [hr] at h
      rw [← Option.some.inj h]
      exact Nat.succ_lt_succ (ih hr)

theorem find_of_isPrefix {text needle : Bytes} (h : needle <+: text) : find text needle = some 0 := by
  rw [find.eq_def, if_pos (List.prefix_iff_eq_take.mp h).symm]

theorem find_cons_of_not_isPrefix {text needle : Bytes} {c : Byte} (h : ¬ needle <+: c :: text) :
    find (c :: text) needle = (find text needle).map (· + 1) := by
  rw [find, if_neg fun heq => h (List.prefix_iff_eq_take.mpr heq.symm)]

/-- The first place at which the needle starts. -/
theorem find_eq_some_iff {text needle : Bytes} {i : ℕ} :
    find text needle = some i ↔
      i ≤ text.length ∧ needle <+: text.drop i ∧ ∀ j < i, ¬ needle <+: text.drop j := by
  induction text generalizing i with
  | nil =>
    by_cases hpre : needle <+: []
    · rw [find_of_isPrefix hpre]
      constructor
      · intro h
        rw [← Option.some.inj h]
        exact ⟨Nat.le_refl _, hpre, fun j hj => absurd hj (Nat.not_lt_zero j)⟩
      · rintro ⟨hle, -, -⟩
        rw [Nat.le_zero.mp hle]
    · have hnone : find [] needle = none := by
        rw [find, if_neg fun heq => hpre (List.prefix_iff_eq_take.mpr heq.symm)]
      rw [hnone]
      refine iff_of_false (fun h => nomatch h) ?_
      rintro ⟨-, hpre', -⟩
      rw [List.drop_nil] at hpre'
      exact hpre hpre'
  | cons c text ih =>
    by_cases hpre : needle <+: c :: text
    · rw [find_of_isPrefix hpre]
      constructor
      · intro h
        rw [← Option.some.inj h]
        exact ⟨Nat.zero_le _, hpre, fun j hj => absurd hj (Nat.not_lt_zero j)⟩
      · rintro ⟨-, -, hfirst⟩
        cases i with
        | zero => rfl
        | succ i => exact absurd hpre (hfirst 0 (Nat.succ_pos i))
    · rw [find_cons_of_not_isPrefix hpre]
      cases i with
      | zero =>
        refine iff_of_false (fun h => ?_) (fun h => hpre h.2.1)
        obtain ⟨j, -, hj⟩ := Option.map_eq_some_iff.mp h
        exact Nat.succ_ne_zero j hj
      | succ i =>
        have hsucc : (find text needle).map (· + 1) = some (i + 1) ↔ find text needle = some i := by
          rw [Option.map_eq_some_iff]
          constructor
          · rintro ⟨j, hj, hij⟩
            rw [hj, Nat.succ.inj hij]
          · exact fun h => ⟨i, h, rfl⟩
        rw [hsucc, ih, List.length_cons, Nat.succ_le_succ_iff, List.drop_succ_cons]
        refine and_congr_right fun _ => and_congr_right fun _ => ⟨fun h j hj => ?_, fun h j hj => ?_⟩
        · cases j with
          | zero => exact hpre
          | succ j => exact h j (Nat.lt_of_succ_lt_succ hj)
        · exact h (j + 1) (Nat.succ_lt_succ hj)

theorem find_eq_none_iff {text needle : Bytes} :
    find text needle = none ↔ ∀ j ≤ text.length, ¬ needle <+: text.drop j := by
  constructor
  · intro h j hj hpre
    have hex : ∃ i, needle <+: text.drop i := ⟨j, hpre⟩
    obtain ⟨i, hi, hfirst⟩ : ∃ i, needle <+: text.drop i ∧ ∀ k < i, ¬ needle <+: text.drop k :=
      ⟨Nat.find hex, Nat.find_spec hex, fun k hk => Nat.find_min hex hk⟩
    have hle : i ≤ j := Nat.not_lt.mp fun hlt => hfirst j hlt hpre
    rw [find_eq_some_iff.mpr ⟨hle.trans hj, hi, hfirst⟩] at h
    cases h
  · intro h
    cases hfind : find text needle with
    | none => rfl
    | some i =>
      obtain ⟨hle, hpre, -⟩ := find_eq_some_iff.mp hfind
      exact absurd hpre (h i hle)

/-- A place is not lost when text is added behind it. -/
theorem find_singleton_eq_none_iff {text : Bytes} {c : Byte} : find text [c] = none ↔ c ∉ text := by
  induction text with
  | nil => exact iff_of_true rfl List.not_mem_nil
  | cons d text ih =>
    have hstart : [c] <+: d :: text ↔ c = d := by
      rw [List.cons_prefix_cons]
      exact and_iff_left List.nil_prefix
    by_cases hcd : c = d
    · refine iff_of_false (fun h => ?_) fun h => h (hcd ▸ List.mem_cons_self)
      rw [find_of_isPrefix (hstart.mpr hcd)] at h
      cases h
    · rw [find_cons_of_not_isPrefix fun h => hcd (hstart.mp h), Option.map_eq_none_iff, ih,
        List.mem_cons, not_or]
      exact (and_iff_right hcd).symm

theorem find_singleton_append {a : Bytes} {c : Byte} (hc : c ∉ a) (b : Bytes) :
    find (a ++ c :: b) [c] = some a.length := by
  induction a with
  | nil => exact find_of_isPrefix (List.cons_prefix_cons.mpr ⟨rfl, List.nil_prefix⟩)
  | cons d a ih =>
    obtain ⟨hne, hrest⟩ := not_or.mp fun h => hc (List.mem_cons.mpr h)
    rw [List.cons_append, find_cons_of_not_isPrefix, ih hrest]
    · rfl
    · exact fun h => hne (List.cons_prefix_cons.mp h).1

theorem find_append {text needle : Bytes} {i : ℕ} (h : find text needle = some i) (rest : Bytes) :
    find (text ++ rest) needle = some i := by
  obtain ⟨hle, hpre, hfirst⟩ := find_eq_some_iff.mp h
  have hlen := (find_add_length_le h).1
  have hdrop : ∀ j ≤ i, (text ++ rest).drop j = text.drop j ++ rest := fun j hj =>
    List.drop_append_of_le_length (hj.trans hle)
  refine find_eq_some_iff.mpr ⟨?_, ?_, fun j hj hpre' => hfirst j hj ?_⟩
  · rw [List.length_append]
    exact hle.trans (Nat.le_add_right _ _)
  · rw [hdrop i (Nat.le_refl i)]
    exact hpre.trans (List.prefix_append _ _)
  · rw [hdrop j (Nat.le_of_lt hj)] at hpre'
    refine List.prefix_of_prefix_length_le hpre' (List.prefix_append _ _) ?_
    rw [List.length_drop]
    omega

theorem rfind_eq_none_iff {text : Bytes} {c : Byte} : rfind text c = none ↔ c ∉ text := by
  induction text with
  | nil => exact iff_of_true rfl List.not_mem_nil
  | cons d text ih =>
    rw [rfind, List.mem_cons]
    cases hr : rfind text c with
    | some i =>
      have hmem : c ∈ text := by
        by_contra hnot
        rw [ih.mpr hnot] at hr
        cases hr
      exact iff_of_false (fun h => nomatch h) fun h => h (Or.inr hmem)
    | none =>
      have hnot := ih.mp hr
      by_cases hd : d = c
      · rw [hd]
        dsimp only
        rw [if_pos rfl]
        exact iff_of_false (fun h => nomatch h) fun h => h (Or.inl rfl)
      · dsimp only
        rw [if_neg hd]
        refine iff_of_true rfl ?_
        rintro (h | h)
        · exact hd h.symm
        · exact hnot h

/-- The last place of the byte. -/
theorem rfind_eq_some_iff {text : Bytes} {c : Byte} {i : ℕ} :
    rfind text c = some i ↔ ∃ front back, text = front ++ c :: back ∧ front.length = i ∧ c ∉ back := by
  induction text generalizing i with
  | nil =>
    refine iff_of_false (fun h => nomatch h) ?_
    rintro ⟨front, back, h, -⟩
    exact nomatch (List.append_eq_nil_iff.mp h.symm).2
  | cons d text ih =>
    rw [rfind]
    cases hr : rfind text c with
    | some j =>
      dsimp only
      constructor
      · intro h
        obtain ⟨front, back, heq, hlen, hnot⟩ := ih.mp hr
        refine ⟨d :: front, back, ?_, ?_, hnot⟩
        · rw [heq, List.cons_append]
        · rw [List.length_cons, hlen]
          exact Option.some.inj h
      · rintro ⟨front, back, heq, hlen, hnot⟩
        cases front with
        | nil =>
          rw [List.nil_append, List.cons.injEq] at heq
          rw [heq.2, rfind_eq_none_iff.mpr hnot] at hr
          cases hr
        | cons e front =>
          rw [List.cons_append, List.cons.injEq] at heq
          rw [ih.mpr ⟨front, back, heq.2, rfl, hnot⟩] at hr
          rw [← hlen, List.length_cons, Option.some.inj hr]
    | none =>
      have hnot := rfind_eq_none_iff.mp hr
      dsimp only
      constructor
      · intro h
        split at h
        · rename_i hd
          exact ⟨[], text, by rw [hd, List.nil_append], Option.some.inj h, hnot⟩
        · cases h
      · rintro ⟨front, back, heq, hlen, -⟩
        cases front with
        | nil =>
          rw [List.nil_append, List.cons.injEq] at heq
          rw [if_pos heq.1, ← hlen]
          rfl
        | cons e front =>
          rw [List.cons_append, List.cons.injEq] at heq
          refine absurd ?_ hnot
          rw [heq.2]
          exact List.mem_append_right _ List.mem_cons_self

/-- A text is cut at the last place of the byte in one way. -/
theorem append_cons_inj {c : Byte} {front front' back back' : Bytes} (hback : c ∉ back)
    (hback' : c ∉ back') (h : front ++ c :: back = front' ++ c :: back') :
    front = front' ∧ back = back' := by
  have hlast : rfind (front ++ c :: back) c = some front.length :=
    rfind_eq_some_iff.mpr ⟨front, back, rfl, rfl, hback⟩
  have hlast' : rfind (front ++ c :: back) c = some front'.length :=
    rfind_eq_some_iff.mpr ⟨front', back', h, rfl, hback'⟩
  obtain ⟨hfront, hcons⟩ := List.append_inj h (Option.some.inj (hlast.symm.trans hlast'))
  exact ⟨hfront, (List.cons.inj hcons).2⟩

end Aetheris
