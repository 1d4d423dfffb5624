import Aetheris.Js.RegexReference
import Aetheris.Js.RegexCompile

/-!
# When the matcher does what patterns mean

`match_node` calls its continuation with one place after the other.  It goes the way of the
reference: it asks the same questions in the same order and comes to the same trails, except that it
refuses the trails that are not moving, and that it may answer a question of a class otherwise.
This is shown by an induction over the pattern, with a second one over the counts of a repetition:
an iteration that consumes nothing makes the trail one that is not moving, and this is where the
code has its guard.

The result of `search` is then that of the first moving way, if no class is misjudged before it, and
the reference takes the first way of all.
-/

namespace Aetheris.Js

open Backtrack

/-! ## Repetitions -/

section

variable {ε ρ : Type*} {fault : ε → Prop} {size : ℕ} {body : ℕ → (ℕ → Option ρ) → Option ρ}
  {walk : Trail → Met ε Trail} (hbody : Explores fault size body walk) (minimum : ℕ)
  (maximum : Option ℕ) (greedy : Bool)

/-- The continuation of one more iteration of `repeat`. -/
def again (size minimum : ℕ) (maximum : Option ℕ) (greedy : Bool)
    (body : ℕ → (ℕ → Option ρ) → Option ρ) (continuation : ℕ → Option ρ) (position count : ℕ)
    (next : ℕ) : Option ρ :=
  if next = position then none
  else if position < next ∧ next ≤ size then
    matchRepeat size body minimum maximum greedy continuation next (count + 1)
  else none

theorem matchRepeat_eq (continuation : ℕ → Option ρ) (position count : ℕ) :
    matchRepeat size body minimum maximum greedy continuation position count =
      (let more := if maximum.all (count < ·) then
        body position (again size minimum maximum greedy body continuation position count) else none
      if count < minimum then more
      else if greedy then more.or (continuation position)
      else (continuation position).or more) := by
  rw [matchRepeat]
  simp only [dite_eq_ite]
  rfl

include hbody

/-- One more iteration of `repeat` is one more step of the walk, if what follows it is right. -/
theorem agrees_again {trail : Trail} (htrail : trail.stop ≤ size) (continuation : ℕ → Option ρ)
    (count : ℕ) {following : Trail → Met ε Trail}
    (hstay : ∀ next : Trail, next.stop = trail.stop →
      Agrees fault (Trail.result continuation) none (following next))
    (hfurther : ∀ next : Trail, trail.stop < next.stop → next.stop ≤ size →
      Agrees fault (Trail.result continuation)
        (next.result fun position => matchRepeat size body minimum maximum greedy continuation
          position (count + 1)) (following next)) :
    Agrees fault (Trail.result continuation)
      (trail.result fun position => body position
        (again size minimum maximum greedy body continuation position count))
      (followedBy (walk trail) following) := by
  refine Agrees.followedBy (hbody.agrees trail htrail
    (again size minimum maximum greedy body continuation trail.stop count)) fun next hnext => ?_
  obtain ⟨hle, hlimit⟩ := hbody.advances trail htrail next hnext
  rw [Trail.result, again]
  by_cases hstop : next.stop = trail.stop
  · rw [if_pos hstop, ite_self]
    exact hstay next hstop
  · have hlt : trail.stop < next.stop := lt_of_le_of_ne hle (Ne.symm hstop)
    rw [if_neg hstop, if_pos (And.intro hlt hlimit)]
    exact hfurther next hlt hlimit

/-- `repeat` from the least count on. -/
theorem agrees_star {trail : Trail} (htrail : trail.stop ≤ size) (continuation : ℕ → Option ρ)
    {count : ℕ} (hminimum : minimum ≤ count) (hmaximum : ∀ n ∈ maximum, count ≤ n) :
    Agrees fault (Trail.result continuation)
      (trail.result fun position =>
        matchRepeat size body minimum maximum greedy continuation position count)
      (star size walk greedy (maximum.map (· - count)) trail) := by
  induction hn : size - trail.stop using Nat.strongRecOn generalizing trail count with
  | _ n ih =>
    have hhere : Agrees fault (Trail.result continuation) (trail.result continuation)
        [.inr trail] := explores_here.agrees trail htrail continuation
    -- the budget is used up when no iteration may follow
    have hbudget : maximum.map (· - count) = some 0 ↔ maximum.all (count < ·) = false := by
      cases maximum with
      | none => simp
      | some n =>
        have := hmaximum n rfl
        simp
        omega
    have hmore : Agrees fault (Trail.result continuation)
        (trail.result fun position => if maximum.all (count < ·) then
          body position (again size minimum maximum greedy body continuation position count)
        else none)
        (if maximum.map (· - count) = some 0 then []
        else followedBy (walk trail) fun next =>
          if _ : trail.stop < next.stop ∧ next.stop ≤ size then
            star size walk greedy ((maximum.map (· - count)).map (· - 1)) next
          else []) := by
      cases hcan : maximum.all (count < ·) with
      | false =>
        rw [if_pos (hbudget.mpr hcan)]
        exact ite_self _
      | true =>
        have hleft : ¬maximum.map (· - count) = some 0 := by
          rw [hbudget, hcan]
          decide
        rw [if_neg hleft]
        refine agrees_again hbody minimum maximum greedy htrail continuation count
          (fun next hstop => ?_) fun next hlt hlimit => ?_
        · rw [dif_neg (by omega)]
          rfl
        · have hmaximum' : ∀ n ∈ maximum, count + 1 ≤ n := by
            intro n hn
            rw [Option.mem_def.mp hn, Option.all_some, decide_eq_true_eq] at hcan
            exact hcan
          have hnext : (maximum.map (· - count)).map (· - 1) = maximum.map (· - (count + 1)) := by
            rw [Option.map_map]
            rfl
          rw [dif_pos ⟨hlt, hlimit⟩, hnext]
          exact ih (size - next.stop) (by omega) hlimit (Nat.le_succ_of_le hminimum) hmaximum' rfl
    rw [Backtrack.star]
    simp only [matchRepeat_eq, if_neg (Nat.not_lt.mpr hminimum)]
    cases greedy with
    | true =>
      simp only [if_pos, Trail.result_or]
      exact hmore.append hhere
    | false =>
      simp only [Bool.false_eq_true, if_false, Trail.result_or]
      exact hhere.append hmore

/-- `repeat` before the least count, or the greatest if that is less, is reached. -/
theorem agrees_required {following : Trail → Met ε Trail} {total : ℕ} (hminimum : total ≤ minimum)
    (hmaximum : ∀ n ∈ maximum, total ≤ n) (continuation : ℕ → Option ρ)
    (hfollowing : ∀ trail : Trail, trail.stop ≤ size → Agrees fault (Trail.result continuation)
      (trail.result fun position =>
        matchRepeat size body minimum maximum greedy continuation position total)
      (following trail)) :
    ∀ (left : ℕ) {trail : Trail}, trail.stop ≤ size → left ≤ total →
      Agrees fault (Trail.result continuation)
        (trail.result fun position =>
          matchRepeat size body minimum maximum greedy continuation position (total - left))
        (required walk following left trail)
  | 0, trail, htrail, _ => hfollowing trail htrail
  | left + 1, trail, htrail, hleft => by
    have hcount : total - (left + 1) < minimum := by omega
    have hcan : maximum.all (total - (left + 1) < ·) = true := by
      cases maximum with
      | none => rfl
      | some n =>
        have := hmaximum n rfl
        simp
        omega
    have hnext : total - (left + 1) + 1 = total - left := by omega
    simp only [matchRepeat_eq, if_pos hcount, if_pos hcan]
    refine agrees_again hbody minimum maximum greedy htrail continuation _
      (fun next hstop => ?_) fun next hlt hlimit => ?_
    · -- the trail is no longer moving
      have hafter : (next.after trail.stop).stop ≤ size := hstop ▸ htrail
      have hrest := agrees_required hminimum hmaximum continuation hfollowing left hafter
        (Nat.le_of_succ_le hleft)
      have hmoving : (next.after trail.stop).moving ≠ true := by
        rw [Trail.after, hstop, bne_self_eq_false, Bool.and_false]
        exact Bool.false_ne_true
      rwa [Trail.result, if_neg hmoving] at hrest
    · have hafter : next.after trail.stop = next := by
        rw [Trail.after, bne_iff_ne.mpr hlt.ne', Bool.and_true]
      rw [hafter, hnext]
      exact agrees_required hminimum hmaximum continuation hfollowing left hlimit
        (Nat.le_of_succ_le hleft)

theorem explores_matchRepeat :
    Explores fault size (fun position continuation =>
      matchRepeat size body minimum maximum greedy continuation position 0)
      (repetition size walk minimum maximum greedy) := by
  have hstart {following : Trail → Met ε Trail} {total : ℕ} (hminimum : total ≤ minimum)
      (hmaximum : ∀ n ∈ maximum, total ≤ n)
      (hadvances : ∀ trail : Trail, trail.stop ≤ size → ∀ next, .inr next ∈ following trail →
        trail.stop ≤ next.stop ∧ next.stop ≤ size)
      (hfollowing : ∀ (trail : Trail), trail.stop ≤ size → ∀ continuation,
        Agrees fault (Trail.result continuation)
          (trail.result fun position =>
            matchRepeat size body minimum maximum greedy continuation position total)
          (following trail)) :
      Explores fault size (fun position continuation =>
        matchRepeat size body minimum maximum greedy continuation position 0)
        (required walk following total) := by
    refine ⟨advances_required hbody hadvances total, fun trail htrail continuation => ?_⟩
    have hrequired := agrees_required hbody minimum maximum greedy hminimum hmaximum continuation
      (fun trail htrail => hfollowing trail htrail continuation) total htrail le_rfl
    rwa [Nat.sub_self] at hrequired
  unfold repetition
  split
  next hall =>
    have hmaximum : ∀ n ∈ maximum, minimum ≤ n := by
      intro n hn
      rw [Option.mem_def.mp hn, Option.all_some, decide_eq_true_eq] at hall
      exact hall
    exact hstart le_rfl hmaximum (fun trail htrail next hnext => advances_star htrail hnext)
      fun trail htrail continuation =>
        agrees_star hbody minimum maximum greedy htrail continuation le_rfl hmaximum
  next hall =>
    cases maximum with
    | none => exact absurd rfl hall
    | some n =>
      rw [Option.all_some, decide_eq_true_eq, not_le] at hall
      refine hstart hall.le (fun m hm => (Option.some.inj hm).le)
        (fun _ _ _ h => absurd h List.not_mem_nil) fun trail _ continuation => ?_
      simp only [Option.getD_some, matchRepeat_eq, if_pos hall, Option.all_some, lt_irrefl,
        decide_false, Bool.false_eq_true, if_false]
      exact ite_self _

end

/-! ## Patterns -/

section

variable {ρ : Type*} {fault : Question → Prop} {judge : Bool → List (Byte × Byte) → Byte → Bool}
  (text : Bytes) (ignoreCase : Bool)

variable {text} in
/-- A node that reads a character. -/
theorem explores_onChar {search : ℕ → (ℕ → Option ρ) → Option ρ}
    {step : Byte → Trail → Met Question Trail}
    (hend : ∀ position continuation, text[position]? = none → search position continuation = none)
    (hstop : ∀ c trail next, .inr next ∈ step c trail → next.stop = trail.stop + 1)
    (hstep : ∀ c (trail : Trail) continuation, text[trail.stop]? = some c →
      Agrees fault (Trail.result continuation)
        (if trail.moving then search trail.stop continuation else none) (step c trail)) :
    Explores fault text.length search
      fun trail => onChar text (fun c => step c trail) trail where
  advances trail htrail next hnext := by
    unfold onChar at hnext
    cases hc : text[trail.stop]? with
    | none =>
      rw [hc] at hnext
      exact absurd hnext List.not_mem_nil
    | some c =>
      rw [hc, Option.elim_some] at hnext
      obtain ⟨hlt, -⟩ := List.getElem?_eq_some_iff.mp hc
      rw [hstop c trail next hnext]
      exact ⟨Nat.le_succ _, hlt⟩
  agrees trail htrail continuation := by
    unfold onChar
    rw [Trail.result]
    cases hc : text[trail.stop]? with
    | none =>
      rw [hend _ _ hc, ite_self]
      rfl
    | some c => exact hstep c trail continuation hc

theorem stop_of_mem_eat {accepted : Bool} {trail next : Trail} (h : .inr next ∈ eat accepted trail) :
    next.stop = trail.stop + 1 := by
  rw [eat] at h
  split at h
  · rw [Sum.inr.inj (List.mem_singleton.mp h)]
  · exact absurd h List.not_mem_nil

theorem agrees_eat (accepted : Bool) (trail : Trail)
    (continuation : ℕ → Option ρ) : Agrees fault (Trail.result continuation)
      (if trail.moving then if accepted then continuation (trail.stop + 1) else none else none)
      (eat accepted trail) := by
  cases accepted with
  | false => exact ite_self _
  | true =>
    show (Trail.result continuation { trail with stop := trail.stop + 1 }).elim _ _
    rw [Trail.result]
    simp only [if_true]
    cases (if trail.moving = true then continuation (trail.stop + 1) else none) <;> rfl

theorem explores_charClass {negated : Bool} {ranges : List (Byte × Byte)}
    (hfault : ∀ c, inClass negated ranges c ignoreCase ≠ judge negated ranges c →
      fault ⟨negated, ranges, c, true⟩) :
    Explores (ρ := ρ) fault text.length (matchNode text ignoreCase (.charClass negated ranges))
      ((Node.charClass negated ranges).trails judge text ignoreCase) := by
  refine explores_onChar (fun position continuation h => by rw [matchNode, h])
    (fun c trail next h => stop_of_mem_eat ((List.mem_cons.mp h).resolve_left Sum.inr_ne_inl))
    fun c trail continuation h => ?_
  rw [matchNode, h]
  by_cases hjudged : inClass negated ranges c ignoreCase = judge negated ranges c
  · refine Or.inr ?_
    rw [← hjudged]
    exact agrees_eat (inClass negated ranges c ignoreCase) trail continuation
  · by_cases hmoving : trail.moving = true
    · rw [hmoving]
      exact Or.inl (hfault c hjudged)
    · -- the code is not on this trail, and neither answer has a result
      refine Or.inr ?_
      have heat : Agrees fault (Trail.result continuation) _ _ :=
        agrees_eat (judge negated ranges c) trail continuation
      rw [if_neg hmoving] at heat ⊢
      exact heat

theorem explores_anchor (place : ℕ) :
    Explores (ρ := ρ) fault text.length
      (fun position continuation => if position = place then continuation position else none)
      (anchor place) where
  advances trail htrail next hnext := by
    rw [anchor] at hnext
    split at hnext
    · rw [Sum.inr.inj (List.mem_singleton.mp hnext)]
      exact ⟨le_rfl, htrail⟩
    · exact absurd hnext List.not_mem_nil
  agrees trail htrail continuation := by
    rw [Trail.result, anchor]
    by_cases hplace : trail.stop = place
    · rw [if_pos hplace, if_pos hplace]
      exact explores_here.agrees trail htrail continuation
    · rw [if_neg hplace, if_neg hplace, ite_self]
      rfl

mutual

/-- **`match_node` goes the way of the walk** when a question that it answers otherwise is a fault. -/
theorem explores_matchNode (hfault : ∀ negated ranges c,
      inClass negated ranges c ignoreCase ≠ judge negated ranges c →
        fault ⟨negated, ranges, c, true⟩) : ∀ node : Node,
    Explores (ρ := ρ) fault text.length (matchNode text ignoreCase node)
      (node.trails judge text ignoreCase)
  | .literal literal => by
    refine explores_onChar (fun position continuation h => by rw [matchNode, h])
      (fun c trail next => stop_of_mem_eat) fun c trail continuation h => ?_
    rw [matchNode, h]
    exact agrees_eat (equalChar c literal ignoreCase) trail continuation
  | .any => by
    refine explores_onChar (fun position continuation h => by rw [matchNode, h])
      (fun c trail next => stop_of_mem_eat) fun c trail continuation h => ?_
    rw [matchNode, h]
    have heat : Agrees fault (Trail.result continuation) _ _ :=
      agrees_eat (c != chr '\n') trail continuation
    simpa only [bne_iff_ne] using heat
  | .charClass negated ranges => explores_charClass text ignoreCase (hfault negated ranges)
  | .lineStart => explores_anchor text 0
  | .lineEnd => explores_anchor text text.length
  | .group child => explores_matchNode hfault child
  | .concat children => explores_matchConcat hfault children
  | .alt children => explores_matchAlt hfault children
  | .repetition child minimum maximum greedy =>
    explores_matchRepeat (explores_matchNode hfault child) minimum maximum greedy

theorem explores_matchConcat (hfault : ∀ negated ranges c,
      inClass negated ranges c ignoreCase ≠ judge negated ranges c →
        fault ⟨negated, ranges, c, true⟩) : ∀ children : List Node,
    Explores (ρ := ρ) fault text.length (matchConcat text ignoreCase children)
      (trailsConcat judge text ignoreCase children)
  | [] => explores_here
  | child :: children => (explores_matchNode hfault child).followedBy (explores_matchConcat hfault children)

theorem explores_matchAlt (hfault : ∀ negated ranges c,
      inClass negated ranges c ignoreCase ≠ judge negated ranges c →
        fault ⟨negated, ranges, c, true⟩) : ∀ branches : List Node,
    Explores (ρ := ρ) fault text.length (matchAlt text ignoreCase branches)
      (trailsAlt judge text ignoreCase branches)
  | [] => explores_none
  | branch :: branches => (explores_matchNode hfault branch).append (explores_matchAlt hfault branches)

end

end

/-! ## The search -/

/-- The result of `search` is the span of the first moving way, unless a class is misjudged before
it. -/
theorem agrees_search (regex : Regex) (text : Bytes) (start : ℕ) :
    Agrees (Misjudged regex.ignoreCase) movingSpan (regex.search text start)
      (regex.ways text start) := by
  refine agrees_findSome? fun position hposition => ?_
  have hlimit : position ≤ text.length := by
    have := List.mem_range'_1.mp hposition
    omega
  have hexplores : Explores (ρ := ℕ) (Misjudged regex.ignoreCase) text.length
      (matchNode text regex.ignoreCase regex.root)
      (regex.root.trails (accepts regex.ignoreCase) text regex.ignoreCase) :=
    explores_matchNode text regex.ignoreCase (fun _ _ _ hne => ⟨rfl, hne⟩) regex.root
  have hagrees := hexplores.agrees { stop := position } hlimit some
  refine hagrees.map (fun stop => (position, stop)) (fun trail => (position, trail)) fun trail => ?_
  rw [movingSpan, Trail.result]
  split <;> rfl

/-- The first moving way has the span of the first way of all exactly when nothing is disturbed. -/
theorem findSome?_movingSpan_eq_iff : ∀ ways : Met Question (ℕ × Trail),
    ways.findSome? (Sum.elim (fun _ => none) movingSpan) =
      ways.findSome? (Sum.elim (fun _ => none) (some ∘ span)) ↔ Undisturbed ways
  | [] => iff_of_true rfl trivial
  | .inl _ :: ways => findSome?_movingSpan_eq_iff ways
  | .inr way :: ways => by
    rw [List.findSome?_cons, List.findSome?_cons, Sum.elim_inr, Sum.elim_inr, movingSpan]
    show _ = some (span way) ↔ way.2.moving = true ∨ _
    by_cases hmoving : way.2.moving = true
    · rw [if_pos hmoving]
      exact iff_of_true rfl (Or.inl hmoving)
    · rw [if_neg hmoving]
      exact (or_iff_right hmoving).symm

/-- **When `search` has reference backtracking semantics**: for every pattern tree, with or without
`i`, every text and every start from which no class is misjudged up to the first moving way, `search`
finds what the reference finds if and only if that way has the span of the preferred one. -/
theorem search_eq_reference_iff (regex : Regex) (text : Bytes) (start : ℕ)
    (hjudged : WellJudged regex.ignoreCase (regex.ways text start)) :
    regex.search text start = regex.reference text start ↔
      Undisturbed (regex.ways text start) := by
  rw [(agrees_search regex text start).eq_findSome? hjudged, Regex.reference,
    findSome?_movingSpan_eq_iff]

/-- The pattern `[b-d]+`. -/
def someLetters : Regex where
  source := lit "[b-d]+"
  flags := []
  global := false
  ignoreCase := false
  root := .repetition (.charClass false [(chr 'b', chr 'd')]) 1 none true

theorem search_eq_reference_iff_someLetters :
    someLetters.search (lit "c") 0 = someLetters.reference (lit "c") 0 ↔
      Undisturbed (someLetters.ways (lit "c") 0) := by
  refine search_eq_reference_iff someLetters (lit "c") 0 ?_
  have hways : someLetters.ways (lit "c") 0 =
      [.inl ⟨false, [(chr 'b', chr 'd')], chr 'c', true⟩, .inr (0, ⟨1, true⟩)] := by
    decide +kernel
  rw [hways]
  refine ⟨fun h => h.2 (by decide), fun h => ?_⟩
  exact absurd h (by decide)

/-- `/(a*){2}/` matches `"a"`, the second iteration consuming nothing; `search` finds nothing. -/
theorem not_reference_emptyIteration :
    ¬ ∀ (pattern flags : Bytes) (regex : Regex),
      Regex.compile pattern flags = some (.ok regex) →
        ∀ (text : Bytes) (start : ℕ), regex.search text start = regex.reference text start := by
  intro h
  have hrun : (Regex.compile (lit "(a*){2}") []).any (fun compiled => compiled.toOption.any
      fun regex => regex.search (lit "a") 0 != regex.reference (lit "a") 0) = true := by
    decide +kernel
  obtain ⟨compiled, hcompiled, hrun⟩ := (Option.any_eq_true _ _).mp hrun
  cases compiled with
  | error message => cases hrun
  | ok regex => exact absurd (h _ _ regex hcompiled (lit "a") 0) (bne_iff_ne.mp hrun)

/-- Under `i` the ends of `[!-Z]` are folded to `!` and `z`, and an underscore lies between. -/
example : inClass false [(chr '!', chr 'Z')] (chr '_') true = true ∧
    accepts true false [(chr '!', chr 'Z')] (chr '_') = false := by decide

/-- A `char` is signed: a range up to a byte behind the ASCII characters is empty for the code. -/
example : inClass false [(0x61, 0xc3)] (chr 'b') false = false ∧
    accepts false false [(0x61, 0xc3)] (chr 'b') = true := by decide

end Aetheris.Js
