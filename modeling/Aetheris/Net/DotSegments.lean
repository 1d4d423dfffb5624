import Aetheris.Library.Loop
import Aetheris.Library.Segments
import Aetheris.Net.Url

/-!
# The dot segments of a path

The two loops of `Url::resolve` work on the text of a path.  On its segments they do this: every `.`
but one at the end is dropped, and every `..` but one at the end takes the segment before it away.
A `..` without a segment before it keeps the second loop going for ever.  RFC 3986 treats the dot
segments at the end as well, and lets a `..` at the root be.

A segment is known by the two slashes around it, so one round of a loop on the text is one step on
the list of segments, and both are followed to their ends.
-/

namespace Aetheris.Net

open Segments

/-- The path with the given segments. -/
def pathOf (segments : List Bytes) : Bytes := rooted (chr '/') segments

/-- The segments of a path that starts with a slash. -/
def segmentsOf (path : Bytes) : List Bytes := path.tail.splitOn (chr '/')

/-- Segments have no slash in them. -/
def SlashFree (segments : List Bytes) : Prop := ∀ s ∈ segments, chr '/' ∉ s

/-- What the two loops leave of the segments in front of the last one, behind those they have
left so far. -/
def settle : List Bytes → List Bytes → Option (List Bytes)
  | output, [] => some output
  | output, s :: rest =>
    if s = lit "." then settle output rest
    else if s = lit ".." then
      if output = [] then none else settle output.dropLast rest
    else settle (output ++ [s]) rest

theorem pathOf_segmentsOf {path : Bytes} (h : path.head? = some (chr '/')) :
    pathOf (segmentsOf path) = path := by
  cases path with
  | nil => cases h
  | cons c path =>
    rw [segmentsOf, pathOf, List.tail_cons, rooted_splitOn, ← Option.some.inj h]

theorem slashFree_segmentsOf (path : Bytes) : SlashFree (segmentsOf path) :=
  fun _ hs => not_mem_of_mem_splitOn hs

theorem segmentsOf_pathOf {segments : List Bytes} (hfree : SlashFree segments)
    (hne : segments ≠ []) : segmentsOf (pathOf segments) = segments := by
  refine rooted_injective (slashFree_segmentsOf _) hfree (pathOf_segmentsOf ?_)
  obtain ⟨s, rest, rfl⟩ := List.exists_cons_of_ne_nil hne
  rfl

theorem SlashFree.append {front back : List Bytes} (hfront : SlashFree front)
    (hback : SlashFree back) : SlashFree (front ++ back) := fun s hs =>
  (List.mem_append.mp hs).elim (hfront s) (hback s)

theorem SlashFree.of_subset {front back : List Bytes} (hback : SlashFree back)
    (h : front ⊆ back) : SlashFree front := fun s hs => hback s (h hs)

theorem length_pathOf_append (front back : List Bytes) :
    (pathOf (front ++ back)).length = (pathOf front).length + (pathOf back).length := by
  rw [pathOf, rooted_append, List.length_append]
  rfl

/-! ## Where a dot segment stands -/

section Occurrences

variable {s : Bytes} (hs : chr '/' ∉ s)

include hs

/-- The first place of a segment that is not the last one. -/
theorem find_segment {front back : List Bytes} {t : Bytes}
    (hfree : SlashFree (front ++ s :: t :: back)) (hfront : s ∉ front) :
    find (pathOf (front ++ s :: t :: back)) (chr '/' :: (s ++ [chr '/'])) =
      some (pathOf front).length := by
  refine find_eq_some_iff.mpr ⟨?_, ?_, fun j hj hpre => ?_⟩
  · rw [length_pathOf_append]
    exact Nat.le_add_right _ _
  · exact (prefix_drop_rooted_iff hs hfree).mpr ⟨front, t, back, rfl, rfl⟩
  · obtain ⟨front', t', back', heq, hlen⟩ := (prefix_drop_rooted_iff hs hfree).mp hpre
    rcases List.append_eq_append_iff.mp heq with ⟨middle, hmiddle, -⟩ | ⟨middle, hmiddle, hback⟩
    · rw [← hlen, hmiddle] at hj
      change (pathOf (front ++ middle)).length < _ at hj
      rw [length_pathOf_append] at hj
      exact absurd hj (Nat.not_lt.mpr (Nat.le_add_right _ _))
    · cases middle with
      | nil =>
        rw [List.append_nil] at hmiddle
        rw [← hlen, ← hmiddle] at hj
        exact absurd hj (Nat.lt_irrefl _)
      | cons u middle =>
        rw [List.cons_append, List.cons.injEq] at hback
        refine hfront ?_
        rw [hmiddle, hback.1]
        exact List.mem_append_right _ List.mem_cons_self

theorem find_segment_eq_none {front : List Bytes} {last : Bytes}
    (hfree : SlashFree (front ++ [last])) (hfront : s ∉ front) :
    find (pathOf (front ++ [last])) (chr '/' :: (s ++ [chr '/'])) = none := by
  refine find_eq_none_iff.mpr fun j _ hpre => hfront ?_
  obtain ⟨front', t', back', heq, -⟩ := (prefix_drop_rooted_iff hs hfree).mp hpre
  have hsplit := congrArg List.dropLast heq
  rw [List.dropLast_concat, List.dropLast_append_of_ne_nil (List.cons_ne_nil _ _),
    List.dropLast_cons_of_ne_nil (List.cons_ne_nil _ _)] at hsplit
  rw [hsplit]
  exact List.mem_append_right _ List.mem_cons_self

end Occurrences

/-- What is behind the segment and the slash after it. -/
theorem drop_pathOf_append (front : List Bytes) (s t : Bytes) (back : List Bytes) :
    (pathOf (front ++ s :: t :: back)).drop ((pathOf front).length + (s.length + 2)) =
      t ++ pathOf back := by
  have hcons : rooted (chr '/') (s :: t :: back) =
      (chr '/' :: (s ++ [chr '/'])) ++ (t ++ rooted (chr '/') back) := by
    rw [rooted_cons, rooted_cons, List.cons_append, List.append_assoc, List.singleton_append]
  rw [pathOf, pathOf, pathOf, rooted_append, ← List.drop_drop, List.drop_left, hcons]
  refine List.drop_left' ?_
  rw [List.length_cons, List.length_append, List.length_singleton]

theorem take_pathOf_append (front back : List Bytes) :
    (pathOf (front ++ back)).take (pathOf front).length = pathOf front := by
  rw [pathOf, pathOf, rooted_append, List.take_left]

theorem pathOf_append_cons (front back : List Bytes) (t : Bytes) :
    pathOf front ++ chr '/' :: (t ++ pathOf back) = pathOf (front ++ t :: back) := by
  rw [pathOf, pathOf, pathOf, rooted_append, rooted_cons]

theorem slash_not_mem_dot : chr '/' ∉ lit "." := by decide

theorem slash_not_mem_dotDot : chr '/' ∉ lit ".." := by decide

/-! ## The loops on the segments -/

theorem dotStep_pathOf {front back : List Bytes} {t : Bytes}
    (hfree : SlashFree (front ++ lit "." :: t :: back)) (hfront : lit "." ∉ front) :
    dotStep (pathOf (front ++ lit "." :: t :: back)) = some (pathOf (front ++ t :: back)) := by
  have hfind := find_segment slash_not_mem_dot hfree hfront
  have hdrop := drop_pathOf_append front (lit ".") t back
  change (pathOf (front ++ lit "." :: t :: back)).drop ((pathOf front).length + 3) = _ at hdrop
  rw [dotStep, show lit "/./" = chr '/' :: (lit "." ++ [chr '/']) from rfl, hfind, Option.map_some,
    take_pathOf_append, hdrop, pathOf_append_cons]

theorem dotStep_pathOf_eq_none {front : List Bytes} {last : Bytes}
    (hfree : SlashFree (front ++ [last])) (hfront : lit "." ∉ front) :
    dotStep (pathOf (front ++ [last])) = none := by
  rw [dotStep, show lit "/./" = chr '/' :: (lit "." ++ [chr '/']) from rfl,
    find_segment_eq_none slash_not_mem_dot hfree hfront, Option.map_none]

theorem removeDot_of_none {path : Bytes} (h : dotStep path = none) : removeDot path = path := by
  rw [removeDot]
  split
  · rfl
  · rename_i path' hstep
    rw [h] at hstep
    cases hstep

theorem removeDot_of_some {path path' : Bytes} (h : dotStep path = some path') :
    removeDot path = removeDot path' := by
  rw [removeDot]
  split
  · rename_i hstep
    rw [h] at hstep
    cases hstep
  · rename_i path'' hstep
    rw [h] at hstep
    rw [Option.some.inj hstep]

/-- The first loop drops every `.` but one at the end, by induction on the segments not yet
passed. -/
theorem removeDot_pathOf {front interior : List Bytes} {last : Bytes}
    (hfree : SlashFree (front ++ (interior ++ [last]))) (hfront : lit "." ∉ front) :
    removeDot (pathOf (front ++ (interior ++ [last]))) =
      pathOf (front ++ (interior.filter (· ≠ lit ".") ++ [last])) := by
  induction interior generalizing front with
  | nil => exact removeDot_of_none (dotStep_pathOf_eq_none hfree hfront)
  | cons s interior ih =>
    by_cases hs : s = lit "."
    · obtain ⟨t, back, hback⟩ := List.exists_cons_of_ne_nil
        (List.append_ne_nil_of_right_ne_nil interior (List.cons_ne_nil last []))
      rw [List.filter_cons, if_neg (by rw [decide_eq_true_eq]; exact not_not.mpr hs)]
      rw [List.cons_append, hs, hback] at hfree ⊢
      rw [removeDot_of_some (dotStep_pathOf hfree hfront), ← hback]
      refine ih (hfree.of_subset fun u hu => ?_) hfront
      rw [hback, List.mem_append] at hu
      exact List.mem_append.mpr (hu.imp_right (List.mem_cons_of_mem _))
    · have hassoc : ∀ rest : List Bytes, front ++ s :: rest = (front ++ [s]) ++ rest := fun rest => by
        rw [List.append_assoc, List.singleton_append]
      rw [List.filter_cons, if_pos (decide_eq_true hs), List.cons_append, List.cons_append,
        hassoc (interior ++ [last]), hassoc (interior.filter _ ++ [last])]
      rw [List.cons_append, hassoc] at hfree
      refine ih hfree ?_
      rw [List.mem_append, List.mem_singleton, not_or]
      exact ⟨hfront, fun h => hs h.symm⟩

theorem rfind_pathOf_append {front : List Bytes} {s : Bytes} (hs : chr '/' ∉ s) :
    rfind (pathOf (front ++ [s])) (chr '/') = some (pathOf front).length := by
  refine rfind_eq_some_iff.mpr ⟨pathOf front, s, ?_, rfl, hs⟩
  rw [pathOf, rooted_append, rooted_singleton]
  rfl

theorem dotDotStep_pathOf {front back : List Bytes} {s t : Bytes}
    (hfree : SlashFree (front ++ [s] ++ lit ".." :: t :: back)) (hfront : lit ".." ∉ front ++ [s]) :
    dotDotStep (pathOf (front ++ [s] ++ lit ".." :: t :: back)) =
      some (pathOf (front ++ t :: back)) := by
  have hfind := find_segment slash_not_mem_dotDot hfree hfront
  have hs : chr '/' ∉ s := hfree s
    (List.mem_append_left _ (List.mem_append_right _ (List.mem_singleton_self s)))
  have hne : (pathOf (front ++ [s])).length ≠ 0 := by
    rw [Ne, List.length_eq_zero_iff, pathOf, rooted_eq_nil_iff]
    exact List.append_ne_nil_of_right_ne_nil _ (List.cons_ne_nil _ _)
  have hle : (pathOf front).length ≤ (pathOf (front ++ [s])).length + 4 := by
    rw [length_pathOf_append, Nat.add_assoc]
    exact Nat.le_add_right _ _
  have hdrop := drop_pathOf_append (front ++ [s]) (lit "..") t back
  change (pathOf (front ++ [s] ++ lit ".." :: t :: back)).drop
    ((pathOf (front ++ [s])).length + 4) = _ at hdrop
  have htake : (pathOf (front ++ [s] ++ lit ".." :: t :: back)).take (pathOf front).length =
      pathOf front := by
    rw [List.append_assoc]
    exact take_pathOf_append _ _
  rw [dotDotStep, show lit "/../" = chr '/' :: (lit ".." ++ [chr '/']) from rfl, hfind]
  dsimp only
  rw [if_neg hne, take_pathOf_append, rfind_pathOf_append hs]
  dsimp only
  rw [if_pos hle, htake, hdrop, pathOf_append_cons]

theorem dotDotStep_pathOf_eq_none {front : List Bytes} {last : Bytes}
    (hfree : SlashFree (front ++ [last])) (hfront : lit ".." ∉ front) :
    dotDotStep (pathOf (front ++ [last])) = none := by
  rw [dotDotStep, show lit "/../" = chr '/' :: (lit ".." ++ [chr '/']) from rfl,
    find_segment_eq_none slash_not_mem_dotDot hfree hfront]

/-- The path starts with `/../` exactly if its first segment is `..` and not the last one. -/
theorem take_pathOf_eq_iff {segments : List Bytes} (hfree : SlashFree segments) :
    (pathOf segments).take 4 = lit "/../" ↔ ∃ t back, segments = lit ".." :: t :: back := by
  have hbegin := prefix_drop_rooted_iff slash_not_mem_dotDot hfree (j := 0)
  rw [List.drop_zero, List.prefix_iff_eq_take] at hbegin
  rw [eq_comm]
  refine hbegin.trans ⟨?_, ?_⟩
  · rintro ⟨front, t, back, heq, hlen⟩
    rw [List.length_eq_zero_iff, rooted_eq_nil_iff] at hlen
    exact ⟨t, back, by rw [heq, hlen, List.nil_append]⟩
  · rintro ⟨t, back, rfl⟩
    exact ⟨[], t, back, rfl, rfl⟩

theorem removeDotDot_of_isPrefix {path : Bytes} (h : path.take 4 = lit "/../") :
    removeDotDot path = none := by
  rw [removeDotDot, dif_pos h]

theorem removeDotDot_of_none {path : Bytes} (hstart : path.take 4 ≠ lit "/../")
    (h : dotDotStep path = none) : removeDotDot path = some path := by
  rw [removeDotDot, dif_neg hstart]
  split
  · rfl
  · rename_i path' hstep
    rw [h] at hstep
    cases hstep

theorem removeDotDot_of_some {path path' : Bytes} (hstart : path.take 4 ≠ lit "/../")
    (h : dotDotStep path = some path') : removeDotDot path = removeDotDot path' := by
  rw [removeDotDot, dif_neg hstart]
  split
  · rename_i hstep
    rw [h] at hstep
    cases hstep
  · rename_i path'' hstep
    rw [h] at hstep
    rw [Option.some.inj hstep]

/-- **The second loop is left exactly if the model of it returns.** -/
theorem ends_dotDotStep_iff (path path' : Bytes) :
    Loop.Ends dotDotStep path path' ↔ removeDotDot path = some path' := by
  induction path using removeDotDot.induct with
  | case1 path hstart =>
    rw [removeDotDot_of_isPrefix hstart]
    exact iff_of_false (Loop.not_ends_of_forever (I := fun p => p.take 4 = lit "/../") hstart
      (fun p hp => dotDotStep_of_isPrefix hp) path') (fun h => nomatch h)
  | case2 path hstart hstep =>
    rw [removeDotDot_of_none hstart hstep, Option.some.injEq]
    constructor
    · exact fun h => (Loop.ends_of_none hstep).unique h
    · rintro rfl
      exact Loop.ends_of_none hstep
  | case3 path hstart path'' hstep ih =>
    rw [removeDotDot_of_some hstart hstep, Loop.ends_head_iff hstep, ih]

theorem settle_dot (output rest : List Bytes) :
    settle output (lit "." :: rest) = settle output rest := by
  rw [settle, if_pos rfl]

theorem settle_dotDot (output rest : List Bytes) :
    settle output (lit ".." :: rest) =
      if output = [] then none else settle output.dropLast rest := by
  rw [settle, if_neg (by decide), if_pos rfl]

theorem settle_cons {s : Bytes} (hdot : s ≠ lit ".") (hdotDot : s ≠ lit "..")
    (output rest : List Bytes) : settle output (s :: rest) = settle (output ++ [s]) rest := by
  rw [settle, if_neg hdot, if_neg hdotDot]

theorem settle_append (output front back : List Bytes) :
    settle output (front ++ back) = (settle output front).bind fun out => settle out back := by
  induction front generalizing output with
  | nil => rfl
  | cons s front ih =>
    rw [List.cons_append]
    by_cases hdot : s = lit "."
    · rw [hdot, settle_dot, settle_dot, ih]
    · by_cases hdotDot : s = lit ".."
      · rw [hdotDot, settle_dotDot, settle_dotDot]
        split
        · rfl
        · exact ih _
      · rw [settle_cons hdot hdotDot, settle_cons hdot hdotDot, ih]

/-- Segments that are no dot segments stay. -/
theorem settle_of_forall {segments : List Bytes}
    (h : ∀ s ∈ segments, s ≠ lit "." ∧ s ≠ lit "..") (output : List Bytes) :
    settle output segments = some (output ++ segments) := by
  induction segments generalizing output with
  | nil => rw [settle, List.append_nil]
  | cons s segments ih =>
    obtain ⟨hdot, hdotDot⟩ := h s List.mem_cons_self
    rw [settle_cons hdot hdotDot, ih fun t ht => h t (List.mem_cons_of_mem _ ht),
      List.append_assoc, List.singleton_append]

/-- No dot segment is left. -/
theorem forall_of_settle {output segments out : List Bytes}
    (houtput : ∀ s ∈ output, s ≠ lit "." ∧ s ≠ lit "..")
    (h : settle output segments = some out) : ∀ s ∈ out, s ≠ lit "." ∧ s ≠ lit ".." := by
  induction segments generalizing output with
  | nil => rwa [← Option.some.inj h]
  | cons s segments ih =>
    by_cases hdot : s = lit "."
    · rw [hdot, settle_dot] at h
      exact ih houtput h
    · by_cases hdotDot : s = lit ".."
      · rw [hdotDot, settle_dotDot] at h
        split at h
        · cases h
        · exact ih (fun t ht => houtput t (List.mem_of_mem_dropLast ht)) h
      · rw [settle_cons hdot hdotDot] at h
        refine ih (fun t ht => ?_) h
        rcases List.mem_append.mp ht with ht | ht
        · exact houtput t ht
        · rw [List.mem_singleton.mp ht]
          exact ⟨hdot, hdotDot⟩

/-- What is left was there, in the same order. -/
theorem sublist_of_settle {output segments out : List Bytes}
    (h : settle output segments = some out) : out.Sublist (output ++ segments) := by
  induction segments generalizing output with
  | nil =>
    rw [List.append_nil, ← Option.some.inj h]
  | cons s segments ih =>
    have hskip : (output ++ segments).Sublist (output ++ s :: segments) :=
      (List.sublist_cons_self s segments).append_left output
    by_cases hdot : s = lit "."
    · rw [hdot, settle_dot] at h
      exact (ih h).trans hskip
    · by_cases hdotDot : s = lit ".."
      · rw [hdotDot, settle_dotDot] at h
        split at h
        · cases h
        · have hdrop : (output.dropLast ++ segments).Sublist (output ++ segments) :=
            (List.dropLast_sublist output).append_right segments
          exact ((ih h).trans hdrop).trans hskip
      · rw [settle_cons hdot hdotDot] at h
        have hsublist := ih h
        rwa [List.append_assoc, List.singleton_append] at hsublist

theorem subset_of_settle {output segments out : List Bytes}
    (h : settle output segments = some out) : out ⊆ output ++ segments :=
  (sublist_of_settle h).subset

theorem settle_filter (output segments : List Bytes) :
    settle output (segments.filter (· ≠ lit ".")) = settle output segments := by
  induction segments generalizing output with
  | nil => rfl
  | cons s segments ih =>
    by_cases hdot : s = lit "."
    · rw [hdot, settle_dot, List.filter_cons, if_neg (by decide), ih]
    · rw [List.filter_cons, if_pos (decide_eq_true hdot)]
      by_cases hdotDot : s = lit ".."
      · rw [hdotDot, settle_dotDot, settle_dotDot, ih]
      · rw [settle_cons hdot hdotDot, settle_cons hdot hdotDot, ih]

/-- The second loop, by induction on the segments not yet passed. -/
theorem removeDotDot_pathOf {front interior : List Bytes} {last : Bytes}
    (hfree : SlashFree (front ++ (interior ++ [last]))) (hfront : lit ".." ∉ front)
    (hdot : lit "." ∉ interior) :
    removeDotDot (pathOf (front ++ (interior ++ [last]))) =
      (settle front interior).map fun out => pathOf (out ++ [last]) := by
  induction interior generalizing front with
  | nil =>
    refine removeDotDot_of_none ?_ (dotDotStep_pathOf_eq_none hfree hfront)
    rw [Ne, take_pathOf_eq_iff hfree]
    rintro ⟨t, back, heq⟩
    cases front with
    | nil => exact List.cons_ne_nil _ _ (List.cons.inj heq).2.symm
    | cons u front => exact hfront ((List.cons.inj heq).1 ▸ List.mem_cons_self)
  | cons s interior ih =>
    have hnotDot : s ≠ lit "." := fun h => hdot (h ▸ List.mem_cons_self)
    have hrest : lit "." ∉ interior := fun h => hdot (List.mem_cons_of_mem _ h)
    obtain ⟨t, back, hback⟩ := List.exists_cons_of_ne_nil
      (List.append_ne_nil_of_right_ne_nil interior (List.cons_ne_nil last []))
    by_cases hs : s = lit ".."
    · rw [hs, settle_dotDot]
      rw [List.cons_append, hs, hback] at hfree
      rw [List.cons_append, hback]
      rcases List.eq_nil_or_concat' front with rfl | ⟨before, u, rfl⟩
      · rw [if_pos rfl]
        exact removeDotDot_of_isPrefix ((take_pathOf_eq_iff hfree).mpr ⟨t, back, rfl⟩)
      · have hbefore : lit ".." ∉ before := fun h => hfront (List.mem_append_left _ h)
        have hstart : (pathOf (before ++ [u] ++ lit ".." :: t :: back)).take 4 ≠ lit "/../" := by
          rw [Ne, take_pathOf_eq_iff hfree]
          rintro ⟨t', back', heq⟩
          refine hfront ?_
          cases before with
          | nil => exact (List.cons.inj heq).1 ▸ List.mem_cons_self
          | cons v before => exact (List.cons.inj heq).1 ▸ List.mem_cons_self
        rw [removeDotDot_of_some hstart (dotDotStep_pathOf hfree hfront), ← hback,
          if_neg (List.append_ne_nil_of_right_ne_nil _ (List.cons_ne_nil _ _)),
          List.dropLast_concat]
        refine ih (hfree.of_subset fun v hv => ?_) hbefore hrest
        rw [hback, List.mem_append] at hv
        rw [List.append_assoc]
        exact List.mem_append.mpr (hv.imp_right fun hv =>
          List.mem_append_right _ (List.mem_cons_of_mem _ hv))
    · have hassoc : front ++ (s :: interior ++ [last]) = (front ++ [s]) ++ (interior ++ [last]) := by
        rw [List.append_assoc, List.singleton_append, List.cons_append]
      rw [settle_cons hnotDot hs, hassoc]
      rw [hassoc] at hfree
      refine ih hfree ?_ hrest
      rw [List.mem_append, List.mem_singleton, not_or]
      exact ⟨hfront, fun h => hs h.symm⟩

/-- **The two loops on the segments of a path.** -/
theorem removeDotDot_removeDot {interior : List Bytes} {last : Bytes}
    (hfree : SlashFree (interior ++ [last])) :
    removeDotDot (removeDot (pathOf (interior ++ [last]))) =
      (settle [] interior).map fun out => pathOf (out ++ [last]) := by
  have hdots : removeDot (pathOf ([] ++ (interior ++ [last]))) =
      pathOf ([] ++ (interior.filter (· ≠ lit ".") ++ [last])) :=
    removeDot_pathOf hfree List.not_mem_nil
  have hkept : SlashFree ([] ++ (interior.filter (· ≠ lit ".") ++ [last])) := by
    refine hfree.of_subset fun s hs => ?_
    rw [List.nil_append, List.mem_append] at hs
    exact List.mem_append.mpr (hs.imp_left List.mem_of_mem_filter)
  have hloop := removeDotDot_pathOf hkept List.not_mem_nil
    fun h => of_decide_eq_true (List.mem_filter.mp h).2 rfl
  rw [List.nil_append, List.nil_append] at hdots
  rw [List.nil_append, settle_filter] at hloop
  rw [hdots, hloop]

/-! ## Section 5.2.4 of RFC 3986 -/

/-- The segments that are left of those in front of the last one. -/
def climb (output segments : List Bytes) : List Bytes :=
  segments.foldl (fun output s =>
    if s = lit "." then output else if s = lit ".." then output.dropLast else output ++ [s]) output

/-- What becomes of the last segment. -/
def climbLast (output : List Bytes) (last : Bytes) : List Bytes :=
  if last = lit "." then output ++ [[]]
  else if last = lit ".." then output.dropLast ++ [[]]
  else output ++ [last]

/-- `remove_dot_segments`, for a path that starts with a slash. -/
def removeDotSegments (path : Bytes) : Bytes :=
  pathOf (climbLast (climb [] (segmentsOf path).dropLast) ((segmentsOf path).getLastD []))

example : removeDotSegments (lit "/b/c/../../../g") = lit "/g" := by decide

example : removeDotSegments (lit "/b/c/./g/..") = lit "/b/c/" := by decide

theorem forall_climb {output segments : List Bytes}
    (houtput : ∀ s ∈ output, s ≠ lit "." ∧ s ≠ lit "..") :
    ∀ s ∈ climb output segments, s ≠ lit "." ∧ s ≠ lit ".." := by
  induction segments generalizing output with
  | nil => exact houtput
  | cons s segments ih =>
    rw [climb, List.foldl_cons]
    refine ih fun t ht => ?_
    split at ht
    · exact houtput t ht
    · rename_i hdot
      split at ht
      · exact houtput t (List.mem_of_mem_dropLast ht)
      · rename_i hdotDot
        rcases List.mem_append.mp ht with ht | ht
        · exact houtput t ht
        · rw [List.mem_singleton.mp ht]
          exact ⟨hdot, hdotDot⟩

theorem subset_climb (output segments : List Bytes) :
    climb output segments ⊆ output ++ segments := by
  induction segments generalizing output with
  | nil =>
    rw [List.append_nil]
    exact List.Subset.refl _
  | cons s segments ih =>
    rw [climb, List.foldl_cons]
    intro t ht
    have hmem := ih _ ht
    rw [List.mem_append] at hmem
    rw [List.mem_append, List.mem_cons]
    rcases hmem with hmem | hmem
    · split at hmem
      · exact Or.inl hmem
      · split at hmem
        · exact Or.inl (List.mem_of_mem_dropLast hmem)
        · exact (List.mem_append.mp hmem).imp_right fun hs => Or.inl (List.mem_singleton.mp hs)
    · exact Or.inr (Or.inr hmem)

end Aetheris.Net
