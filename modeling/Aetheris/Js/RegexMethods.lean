import Aetheris.Js.RegexExact

/-!
# The string methods with a regular expression

`split`, `replace` and `match` of `js.cpp` go from match to match.  Behind an empty match they go on
one character later, and `split` and `replace` drop this character; behind an empty match at the end
they cut the receiver at a place that it does not have, where `substr` throws and the result is
`none`.  Each loop is followed through the successive matches, and does what is expected as long as
none of them is empty.
-/

namespace Aetheris.Js.Regex

open Backtrack

/-! ## What is found -/

/-- The first result of a loop from `start` on, and that there is none before it. -/
theorem findSome?_range'_eq_some {ρ : Type*} {f : ℕ → Option ρ} {r : ρ} :
    ∀ {count start : ℕ}, (List.range' start count).findSome? f = some r →
      ∃ p, start ≤ p ∧ p < start + count ∧ f p = some r ∧ ∀ p', start ≤ p' → p' < p → f p' = none
  | 0, start, h => nomatch h
  | count + 1, start, h => by
    rw [List.range'_succ, List.findSome?_cons] at h
    cases hf : f start with
    | some r' =>
      rw [hf] at h
      exact ⟨start, le_refl start, by omega, hf.trans h, fun p' hp hlt => by omega⟩
    | none =>
      rw [hf] at h
      obtain ⟨p, hp, hpc, hr, hbefore⟩ := findSome?_range'_eq_some h
      refine ⟨p, by omega, by omega, hr, fun p' hp' hlt => ?_⟩
      rcases Nat.eq_or_lt_of_le hp' with rfl | hp'
      · exact hf
      · exact hbefore p' hp' hlt

/-- A match begins where the search does or behind it, does not end before it begins, and is in the
text. -/
theorem search_bounds {regex : Regex} {text : Bytes} {position start stop : ℕ}
    (h : regex.search text position = some (start, stop)) :
    position ≤ start ∧ start ≤ stop ∧ stop ≤ text.length := by
  obtain ⟨p, hp, hlt, hmatch, -⟩ := findSome?_range'_eq_some h
  obtain ⟨q, hq, hpair⟩ := Option.map_eq_some_iff.mp hmatch
  obtain ⟨rfl, rfl⟩ := Prod.mk.inj hpair
  have hle : p ≤ text.length := by omega
  -- the walk whose classes answer as the code does has no faults
  have hexplores : Explores (ρ := ℕ) (fun _ => False) text.length
      (matchNode text regex.ignoreCase regex.root)
      (regex.root.trails (inClass · · · regex.ignoreCase) text regex.ignoreCase) :=
    explores_matchNode text regex.ignoreCase (fun _ _ _ hne => hne rfl) regex.root
  obtain ⟨trail, htrail, hresult⟩ := (hexplores.agrees { stop := p } hle some).exists_mem hq
  obtain ⟨hstart, hstop⟩ := hexplores.advances { stop := p } hle trail htrail
  rw [Trail.result, Option.ite_none_right_eq_some] at hresult
  rw [← Option.some.inj hresult.2]
  exact ⟨hp, hstart, hstop⟩

/-- `end > start ? end : start + 1` -/
def resume (start stop : ℕ) : ℕ := if start < stop then stop else start + 1

theorem lt_resume (start stop : ℕ) : start < resume start stop := by
  rw [resume]
  split
  · assumption
  · exact Nat.lt_succ_self start

/-- **The successive matches**, each as far to the left as there is one where the search goes on. -/
def spans (regex : Regex) (text : Bytes) (position : ℕ) : List (ℕ × ℕ) :=
  match _h : regex.search text position with
  | some (start, stop) => (start, stop) :: spans regex text (resume start stop)
  | none => []
termination_by text.length + 1 - position
decreasing_by
  have hbounds := search_bounds _h
  have hresume := lt_resume start stop
  omega

/-! ## The methods -/

/-- `text.substr(position, count)` -/
def substr (text : Bytes) (position count : ℕ) : Option Bytes :=
  if position ≤ text.length then some ((text.drop position).take count) else none

/-- `text.substr(position)` -/
def substrFrom (text : Bytes) (position : ℕ) : Option Bytes :=
  if position ≤ text.length then some (text.drop position) else none

section

variable (regex : Regex) (receiver : Bytes)

/-- `position <= receiver.size() && regex->search(receiver, position, start, end)` -/
def found (position : ℕ) : Option (ℕ × ℕ) :=
  if position ≤ receiver.length then regex.search receiver position else none

theorem found_eq (position : ℕ) : found regex receiver position = regex.search receiver position := by
  rw [found]
  split
  · rfl
  · rename_i h
    rw [search, Nat.sub_eq_zero_of_le (by omega)]
    rfl

theorem length_sub_resume_lt {position start stop : ℕ}
    (h : found regex receiver position = some (start, stop)) :
    receiver.length + 1 - resume start stop < receiver.length + 1 - position := by
  have hbounds := search_bounds ((found_eq regex receiver position).symm.trans h)
  have hresume := lt_resume start stop
  omega

/-- The loop of `split`, and the last piece. -/
def splitLoop (position : ℕ) : Option (List Bytes) :=
  match _h : found regex receiver position with
  | some (start, stop) => do
    let piece ← substr receiver position (start - position)
    let pieces ← splitLoop (resume start stop)
    return piece :: pieces
  | none => do
    let piece ← substrFrom receiver position
    return [piece]
termination_by receiver.length + 1 - position
decreasing_by exact length_sub_resume_lt regex receiver _h

/-- `split`: the pieces. -/
def split : Option (List Bytes) := splitLoop regex receiver 0

/-- The loop of `replace`, and what is behind it. -/
def replaceLoop (replacement : Bytes) (position : ℕ) : Option Bytes :=
  match _h : found regex receiver position with
  | some (start, stop) => do
    let before ← substr receiver position (start - position)
    let behind ←
      if regex.global then replaceLoop replacement (resume start stop)
      else substrFrom receiver (resume start stop)
    return before ++ replacement ++ behind
  | none => substrFrom receiver position
termination_by receiver.length + 1 - position
decreasing_by exact length_sub_resume_lt regex receiver _h

/-- `replace` -/
def replace (replacement : Bytes) : Option Bytes := replaceLoop regex receiver replacement 0

/-- The loop of `match`: the elements, and the property `index`. -/
def matchLoop (position : ℕ) : Option (List Bytes × Option ℕ) :=
  match _h : found regex receiver position with
  | some (start, stop) => do
    let element ← substr receiver start (stop - start)
    if regex.global then
      let (elements, index) ← matchLoop (resume start stop)
      return (element :: elements, index)
    else return ([element], some start)
  | none => return ([], none)
termination_by receiver.length + 1 - position
decreasing_by exact length_sub_resume_lt regex receiver _h

/-- `match`: an array, or `null`. -/
def matchIn : Option (Option (List Bytes × Option ℕ)) := do
  let (elements, index) ← matchLoop regex receiver 0
  return if elements = [] then none else some (elements, index)

end

/-! ## What is expected -/

/-- The text of a match. -/
def matched (text : Bytes) (span : ℕ × ℕ) : Bytes := (text.drop span.1).take (span.2 - span.1)

/-- The pieces, and the separators between them. -/
def interleave (pieces separators : List Bytes) : Bytes :=
  (List.zipWith (· ++ ·) pieces (separators ++ [[]])).flatten

/-- The text from a position on, with matches substituted. -/
def substitute (text replacement : Bytes) : ℕ → List (ℕ × ℕ) → Bytes
  | position, [] => text.drop position
  | position, (start, stop) :: rest =>
    (text.drop position).take (start - position) ++ replacement ++
      substitute text replacement stop rest

/-- **What is expected of the methods.**  None of them cuts the receiver where it has no place; the
pieces of `split` and the matches make up the receiver; `replace` substitutes all matches with `g`,
and the first one without; and `match` lists the matches with `g`. -/
structure Works (regex : Regex) (receiver : Bytes) : Prop where
  split : ∃ pieces, regex.split receiver = some pieces ∧
    pieces.length = (regex.spans receiver 0).length + 1 ∧
      interleave pieces ((regex.spans receiver 0).map (matched receiver)) = receiver
  replace : ∀ replacement, regex.replace receiver replacement =
    some (substitute receiver replacement 0
      (if regex.global then regex.spans receiver 0 else (regex.spans receiver 0).take 1))
  listed : regex.global = true → regex.matchIn receiver =
    some (if regex.spans receiver 0 = [] then none
      else some ((regex.spans receiver 0).map (matched receiver), none))
  first : (regex.matchIn receiver).isSome

/-! ## The loops -/

section

variable {regex : Regex} {receiver : Bytes}

theorem spans_of_none {position : ℕ} (h : regex.search receiver position = none) :
    regex.spans receiver position = [] := by
  rw [spans]
  split
  next heq =>
    rw [h] at heq
    cases heq
  next => rfl

theorem spans_of_some {position start stop : ℕ}
    (h : regex.search receiver position = some (start, stop)) :
    regex.spans receiver position = (start, stop) :: regex.spans receiver (resume start stop) := by
  rw [spans]
  split
  next heq =>
    rw [h] at heq
    obtain ⟨rfl, rfl⟩ := Prod.mk.inj (Option.some.inj heq)
    rfl
  next heq =>
    rw [h] at heq
    cases heq

/-- What holds where nothing is found, and in front of a match if it does where the search goes on,
holds everywhere. -/
theorem search_induction (regex : Regex) (receiver : Bytes) {motive : ℕ → Prop}
    (none : ∀ position, regex.search receiver position = none → motive position)
    (some : ∀ position start stop, regex.search receiver position = some (start, stop) →
      motive (resume start stop) → motive position) (position : ℕ) : motive position :=
  match h : regex.search receiver position with
  | Option.none => none position h
  | Option.some (start, stop) =>
    some position start stop h (search_induction regex receiver none some (resume start stop))
termination_by receiver.length + 1 - position
decreasing_by exact length_sub_resume_lt regex receiver ((found_eq regex receiver position).trans h)

/-- What is cut out in front of a match. -/
theorem substr_before {position start stop : ℕ}
    (h : regex.search receiver position = some (start, stop)) :
    substr receiver position (start - position) =
      some ((receiver.drop position).take (start - position)) := by
  have hbounds := search_bounds h
  exact if_pos (by omega)

theorem substr_matched {position start stop : ℕ}
    (h : regex.search receiver position = some (start, stop)) :
    substr receiver start (stop - start) = some (matched receiver (start, stop)) := by
  have hbounds := search_bounds h
  exact if_pos (by omega)

theorem splitLoop_of_none {position : ℕ} (h : regex.search receiver position = none) :
    splitLoop regex receiver position = (substrFrom receiver position).map fun piece => [piece] := by
  rw [← found_eq] at h
  rw [splitLoop]
  split
  next heq =>
    rw [h] at heq
    cases heq
  next => cases substrFrom receiver position <;> rfl

theorem splitLoop_of_some {position start stop : ℕ}
    (h : regex.search receiver position = some (start, stop)) :
    splitLoop regex receiver position = (splitLoop regex receiver (resume start stop)).map
      fun pieces => (receiver.drop position).take (start - position) :: pieces := by
  have hfound := (found_eq regex receiver position).trans h
  rw [splitLoop]
  split
  next heq =>
    rw [hfound] at heq
    obtain ⟨rfl, rfl⟩ := Prod.mk.inj (Option.some.inj heq)
    rw [substr_before h]
    cases splitLoop regex receiver (resume start stop) <;> rfl
  next heq =>
    rw [hfound] at heq
    cases heq

theorem interleave_cons (piece separator : Bytes) (pieces separators : List Bytes) :
    interleave (piece :: pieces) (separator :: separators) =
      piece ++ separator ++ interleave pieces separators := rfl

theorem interleave_singleton (piece : Bytes) : interleave [piece] [] = piece := by
  rw [interleave, List.nil_append, List.zipWith_cons_cons, List.zipWith_nil_right,
    List.flatten_cons, List.flatten_nil, List.append_nil, List.append_nil]

/-- A piece of a text, what follows it, and the rest. -/
theorem take_append_take_append_drop {text : Bytes} {position start stop : ℕ}
    (hstart : position ≤ start) (hstop : start ≤ stop) :
    (text.drop position).take (start - position) ++ (text.drop start).take (stop - start) ++
      text.drop stop = text.drop position := by
  have hdrop : text.drop start = (text.drop position).drop (start - position) := by
    rw [List.drop_drop, Nat.add_sub_cancel' hstart]
  have hdrop' : text.drop stop = (text.drop start).drop (stop - start) := by
    rw [List.drop_drop, Nat.add_sub_cancel' hstop]
  rw [List.append_assoc, hdrop', List.take_append_drop, hdrop, List.take_append_drop]

/-- Where no match is empty, the pieces of `split` and the matches make up what is left. -/
theorem splitLoop_of_nonempty (regex : Regex) (receiver : Bytes) (position : ℕ)
    (hposition : position ≤ receiver.length)
    (h : ∀ span ∈ regex.spans receiver position, span.1 < span.2) :
    ∃ pieces, splitLoop regex receiver position = some pieces ∧
      pieces.length = (regex.spans receiver position).length + 1 ∧
      interleave pieces ((regex.spans receiver position).map (matched receiver)) =
        receiver.drop position := by
  induction position using search_induction regex receiver with
  | none position hsearch =>
    refine ⟨[receiver.drop position], ?_, ?_, ?_⟩
    · rw [splitLoop_of_none hsearch, substrFrom, if_pos hposition]
      rfl
    · rw [spans_of_none hsearch]
      rfl
    · rw [spans_of_none hsearch]
      exact interleave_singleton _
  | some position start stop hsearch ih =>
    have hbounds := search_bounds hsearch
    rw [spans_of_some hsearch, List.forall_mem_cons] at h
    have hresume : resume start stop = stop := if_pos h.1
    rw [hresume] at ih h
    obtain ⟨pieces, hpieces, hlength, hinterleave⟩ := ih hbounds.2.2 h.2
    refine ⟨(receiver.drop position).take (start - position) :: pieces, ?_, ?_, ?_⟩
    · rw [splitLoop_of_some hsearch, hresume, hpieces]
      rfl
    · rw [spans_of_some hsearch, hresume, List.length_cons, List.length_cons, hlength]
    · rw [spans_of_some hsearch, hresume, List.map_cons, interleave_cons, hinterleave]
      exact take_append_take_append_drop hbounds.1 hbounds.2.1

/-- For each empty match the pieces of `split` lose a character. -/
theorem length_interleave_splitLoop (regex : Regex) (receiver : Bytes) (position : ℕ)
    {pieces : List Bytes} (h : splitLoop regex receiver position = some pieces) :
    position ≤ receiver.length ∧
      (interleave pieces ((regex.spans receiver position).map (matched receiver))).length +
        (regex.spans receiver position).countP (fun span => decide (span.2 ≤ span.1)) =
          receiver.length - position := by
  induction position using search_induction regex receiver generalizing pieces with
  | none position hsearch =>
    rw [splitLoop_of_none hsearch, substrFrom] at h
    split at h
    next hle =>
      rw [← Option.some.inj h, spans_of_none hsearch, List.map_nil, List.countP_nil,
        interleave_singleton, List.length_drop, Nat.add_zero]
      exact ⟨hle, rfl⟩
    next => cases h
  | some position start stop hsearch ih =>
    have hbounds := search_bounds hsearch
    rw [splitLoop_of_some hsearch] at h
    obtain ⟨rest, hrest, rfl⟩ := Option.map_eq_some_iff.mp h
    obtain ⟨hle, hlength⟩ := ih hrest
    refine ⟨by omega, ?_⟩
    rw [spans_of_some hsearch, List.map_cons, interleave_cons, List.length_append,
      List.length_append, List.countP_cons, matched, List.length_take, List.length_take,
      List.length_drop, List.length_drop]
    simp only [decide_eq_true_eq]
    split
    next hempty =>
      have hresume : resume start stop = start + 1 := if_neg (not_lt.mpr hempty)
      omega
    next hsome =>
      have hresume : resume start stop = stop := if_pos (not_le.mp hsome)
      omega

theorem replaceLoop_of_none {position : ℕ} (h : regex.search receiver position = none)
    (replacement : Bytes) :
    replaceLoop regex receiver replacement position = substrFrom receiver position := by
  rw [← found_eq] at h
  rw [replaceLoop]
  split
  next heq =>
    rw [h] at heq
    cases heq
  next => rfl

theorem replaceLoop_of_some {position start stop : ℕ}
    (h : regex.search receiver position = some (start, stop)) (replacement : Bytes) :
    replaceLoop regex receiver replacement position =
      (if regex.global then replaceLoop regex receiver replacement (resume start stop)
        else substrFrom receiver (resume start stop)).map
          fun behind => (receiver.drop position).take (start - position) ++ replacement ++
            behind := by
  have hfound := (found_eq regex receiver position).trans h
  rw [replaceLoop]
  split
  next heq =>
    rw [hfound] at heq
    obtain ⟨rfl, rfl⟩ := Prod.mk.inj (Option.some.inj heq)
    rw [substr_before h]
    split
    · cases replaceLoop regex receiver replacement (resume start stop) <;> rfl
    · cases substrFrom receiver (resume start stop) <;> rfl
  next heq =>
    rw [hfound] at heq
    cases heq

/-- Where no match is empty, `replace` substitutes what it should. -/
theorem replaceLoop_of_nonempty (regex : Regex) (receiver replacement : Bytes) (position : ℕ)
    (hposition : position ≤ receiver.length)
    (h : ∀ span ∈ regex.spans receiver position, span.1 < span.2) :
    replaceLoop regex receiver replacement position =
      some (substitute receiver replacement position
        (if regex.global then regex.spans receiver position
          else (regex.spans receiver position).take 1)) := by
  induction position using search_induction regex receiver with
  | none position hsearch =>
    rw [replaceLoop_of_none hsearch, substrFrom, if_pos hposition, spans_of_none hsearch]
    split <;> rfl
  | some position start stop hsearch ih =>
    have hbounds := search_bounds hsearch
    rw [spans_of_some hsearch, List.forall_mem_cons] at h
    have hresume : resume start stop = stop := if_pos h.1
    rw [hresume] at ih h
    rw [replaceLoop_of_some hsearch, spans_of_some hsearch, hresume]
    split
    next hglobal =>
      rw [ih hbounds.2.2 h.2, if_pos hglobal]
      rfl
    next =>
      rw [substrFrom, if_pos hbounds.2.2]
      rfl

theorem matchLoop_of_none {position : ℕ} (h : regex.search receiver position = none) :
    matchLoop regex receiver position = some ([], none) := by
  rw [← found_eq] at h
  rw [matchLoop]
  split
  next heq =>
    rw [h] at heq
    cases heq
  next => rfl

theorem matchLoop_of_some {position start stop : ℕ}
    (h : regex.search receiver position = some (start, stop)) :
    matchLoop regex receiver position =
      if regex.global then (matchLoop regex receiver (resume start stop)).map
        fun list => (matched receiver (start, stop) :: list.1, list.2)
      else some ([matched receiver (start, stop)], some start) := by
  have hfound := (found_eq regex receiver position).trans h
  rw [matchLoop]
  split
  next heq =>
    rw [hfound] at heq
    obtain ⟨rfl, rfl⟩ := Prod.mk.inj (Option.some.inj heq)
    rw [substr_matched h]
    split
    next => cases matchLoop regex receiver (resume start stop) <;> rfl
    next => rfl
  next heq =>
    rw [hfound] at heq
    cases heq

/-- `match` with `g` lists all matches. -/
theorem matchLoop_of_global (regex : Regex) (receiver : Bytes) (hglobal : regex.global = true)
    (position : ℕ) :
    matchLoop regex receiver position =
      some ((regex.spans receiver position).map (matched receiver), none) := by
  induction position using search_induction regex receiver with
  | none position hsearch =>
    rw [matchLoop_of_none hsearch, spans_of_none hsearch]
    rfl
  | some position start stop hsearch ih =>
    rw [matchLoop_of_some hsearch, if_pos hglobal, ih, spans_of_some hsearch]
    rfl

theorem matchIn_of_global (regex : Regex) (receiver : Bytes) (hglobal : regex.global = true) :
    regex.matchIn receiver = some (if regex.spans receiver 0 = [] then none
      else some ((regex.spans receiver 0).map (matched receiver), none)) := by
  rw [matchIn, matchLoop_of_global regex receiver hglobal]
  show some (if (regex.spans receiver 0).map (matched receiver) = [] then none else _) = _
  simp only [List.map_eq_nil_iff]

/-- `match` never throws. -/
theorem isSome_matchIn (regex : Regex) (receiver : Bytes) :
    (regex.matchIn receiver).isSome = true := by
  cases hglobal : regex.global with
  | true =>
    rw [matchIn_of_global regex receiver hglobal]
    rfl
  | false =>
    rw [matchIn]
    cases hsearch : regex.search receiver 0 with
    | none =>
      rw [matchLoop_of_none hsearch]
      rfl
    | some span =>
      obtain ⟨start, stop⟩ := span
      rw [matchLoop_of_some hsearch, hglobal]
      rfl

end

/-- **When the methods do what is expected**: exactly when none of the successive matches is
empty. -/
theorem methodsWork_iff (regex : Regex) (receiver : Bytes) :
    Works regex receiver ↔ ∀ span ∈ regex.spans receiver 0, span.1 < span.2 := by
  constructor
  · intro h span hspan
    obtain ⟨pieces, hpieces, -, hinterleave⟩ := h.split
    have hlength := (length_interleave_splitLoop regex receiver 0 hpieces).2
    rw [hinterleave, Nat.sub_zero, Nat.add_eq_left, List.countP_eq_zero] at hlength
    have hsome := hlength span hspan
    rw [decide_eq_true_eq] at hsome
    exact not_le.mp hsome
  · intro h
    obtain ⟨pieces, hpieces, hlength, hinterleave⟩ :=
      splitLoop_of_nonempty regex receiver 0 (Nat.zero_le _) h
    exact {
      split := ⟨pieces, hpieces, hlength, hinterleave⟩
      replace := fun replacement =>
        replaceLoop_of_nonempty regex receiver replacement 0 (Nat.zero_le _) h
      listed := matchIn_of_global regex receiver
      first := isSome_matchIn regex receiver }

/-- `"a".split(/x*/)`: both matches are empty, and behind the second one nothing can be cut out. -/
theorem not_forall_works :
    ¬∀ (pattern flags : Bytes) (regex : Regex), Regex.compile pattern flags = some (.ok regex) →
      ∀ receiver : Bytes, Works regex receiver := by
  intro h
  have hrun : (Regex.compile (lit "x*") []).any (fun compiled => compiled.toOption.any
      fun regex => (regex.split (lit "a")).isNone) = true := by
    decide +kernel
  obtain ⟨compiled, hcompiled, hrun⟩ := (Option.any_eq_true _ _).mp hrun
  cases compiled with
  | error message => cases hrun
  | ok regex =>
    obtain ⟨pieces, hpieces, -, -⟩ := (h _ _ regex hcompiled (lit "a")).split
    change (regex.split (lit "a")).isNone = true at hrun
    rw [hpieces] at hrun
    cases hrun

end Aetheris.Js.Regex
