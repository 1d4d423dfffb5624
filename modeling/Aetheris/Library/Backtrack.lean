import Mathlib

/-!
# Backtracking searches

A backtracking search is a walk over places whose choices are ordered.  From a place the walk meets
a list of things: the trails on which it may end, the preferred one first, and between them the
questions that it asks, each where it is asked.  Walks are put in a row and repeated, a required
number of times and then as often as they get further, up to a limit.  A trail remembers whether
each of its required iterations has got further; nothing depends on it.

A search is often written with a continuation instead: it calls the continuation with one place
after the other, until it is accepted and has a result.  Such a search may answer a question wrongly
and may refuse the trails of one kind.  It `Agrees` with a walk if its result is that of the first
trail which is neither refused nor without a result, unless a question that it answers wrongly comes
before.  The operations on walks respect this relation, and an induction over the programs of a
language then shows that it `Explores` the walk of each.
-/

namespace Aetheris.Backtrack

/-- What a walk meets: questions, and states in which it may end. -/
abbrev Met (ε σ : Type*) := List (ε ⊕ σ)

/-- Each state leads on, and the questions stay where they are. -/
def followedBy {ε σ τ : Type*} (met : Met ε σ) (walk : σ → Met ε τ) : Met ε τ :=
  met.flatMap (Sum.elim (fun question => [.inl question]) walk)

/-- A place, and whether each of the required iterations on the way to it has got further. -/
structure Trail where
  stop : ℕ
  moving : Bool := true
  deriving DecidableEq, Repr

/-- The end of an iteration that began at a place. -/
def Trail.after (trail : Trail) (place : ℕ) : Trail :=
  { trail with moving := trail.moving && trail.stop != place }

section Repetition

variable {ε : Type*} (limit : ℕ) (walk : Trail → Met ε Trail)

/-- So many required iterations, and then what is to follow. -/
def required (following : Trail → Met ε Trail) : ℕ → Trail → Met ε Trail
  | 0, trail => following trail
  | count + 1, trail => followedBy (walk trail) fun next =>
    required following count (next.after trail.stop)

/-- Any number of iterations within the budget, as long as each of them gets further. -/
def star (greedy : Bool) (budget : Option ℕ) (trail : Trail) : Met ε Trail :=
  let more :=
    if budget = some 0 then []
    else followedBy (walk trail) fun next =>
      if _ : trail.stop < next.stop ∧ next.stop ≤ limit then
        star greedy (budget.map (· - 1)) next
      else []
  if greedy then more ++ [.inr trail] else .inr trail :: more
termination_by limit - trail.stop

/-- At least `minimum` iterations and at most `maximum`: if these are too few, the walk gets as far
as they go. -/
def repetition (minimum : ℕ) (maximum : Option ℕ) (greedy : Bool) : Trail → Met ε Trail :=
  if maximum.all (minimum ≤ ·) then
    required walk (star limit walk greedy (maximum.map (· - minimum))) minimum
  else required walk (fun _ => []) (maximum.getD 0)

end Repetition

/-! ## The result of a search -/

section Agrees

variable {ε σ τ ρ ρ' : Type*} {fault : ε → Prop}

/-- `result` is that of the first state for which `accept` has one, or a fault comes before it. -/
def Agrees (fault : ε → Prop) (accept : σ → Option ρ) (result : Option ρ) : Met ε σ → Prop
  | [] => result = none
  | .inl question :: met => fault question ∨ Agrees fault accept result met
  | .inr state :: met =>
    (accept state).elim (Agrees fault accept result met) fun found => result = some found

/-- No question before the first state with a result is a fault. -/
def Faultless (fault : ε → Prop) (accept : σ → Option ρ) : Met ε σ → Prop
  | [] => True
  | .inl question :: met => ¬fault question ∧ Faultless fault accept met
  | .inr state :: met => accept state = none → Faultless fault accept met

variable {accept : σ → Option ρ} {met met' : Met ε σ} {result result' : Option ρ}

theorem Agrees.eq_findSome? (h : Agrees fault accept result met)
    (hfaultless : Faultless fault accept met) :
    result = met.findSome? (Sum.elim (fun _ => none) accept) := by
  induction met with
  | nil => exact h
  | cons entry met ih =>
    rw [List.findSome?_cons]
    cases entry with
    | inl question => exact ih (h.resolve_left hfaultless.1) hfaultless.2
    | inr state =>
      simp only [Agrees, Faultless] at h hfaultless
      rw [Sum.elim_inr]
      cases hstate : accept state with
      | none =>
        rw [hstate] at h
        exact ih h (hfaultless hstate)
      | some found =>
        rw [hstate] at h
        exact h

/-- Without faults a result is that of one of the states. -/
theorem Agrees.exists_mem {found : ρ} (h : Agrees (fun _ : ε => False) accept result met)
    (hfound : result = some found) : ∃ state, .inr state ∈ met ∧ accept state = some found := by
  induction met with
  | nil => cases hfound.symm.trans (h : result = none)
  | cons entry met ih =>
    have hrest (h : Agrees (fun _ : ε => False) accept result met) :
        ∃ state, .inr state ∈ entry :: met ∧ accept state = some found :=
      (ih h).imp fun state hstate => ⟨List.mem_cons_of_mem entry hstate.1, hstate.2⟩
    cases entry with
    | inl question => exact hrest (h.resolve_left id)
    | inr state =>
      simp only [Agrees] at h
      cases hstate : accept state with
      | none =>
        rw [hstate] at h
        exact hrest h
      | some other =>
        rw [hstate] at h
        exact ⟨state, List.mem_cons_self, hstate.trans ((h : result = some other).symm.trans hfound)⟩

theorem Agrees.append (h : Agrees fault accept result met) (h' : Agrees fault accept result' met') :
    Agrees fault accept (result.or result') (met ++ met') := by
  induction met with
  | nil =>
    obtain rfl : result = none := h
    exact h'
  | cons entry met ih =>
    cases entry with
    | inl question => exact h.imp id ih
    | inr state =>
      simp only [Agrees, List.cons_append] at h ⊢
      cases hstate : accept state with
      | none =>
        rw [hstate] at h
        exact ih h
      | some found =>
        rw [hstate] at h
        exact congrArg (Option.or · result') (h : result = some found)

/-- What comes behind a result does not count. -/
theorem Agrees.append_of_some {found : ρ} (h : Agrees fault accept (some found) met) :
    Agrees fault accept (some found) (met ++ met') := by
  induction met with
  | nil => cases (h : some found = none)
  | cons entry met ih =>
    cases entry with
    | inl question => exact h.imp id ih
    | inr state =>
      simp only [Agrees, List.cons_append] at h ⊢
      cases hstate : accept state with
      | none =>
        rw [hstate] at h
        exact ih h
      | some _ =>
        rw [hstate] at h
        exact h

/-- A state that leads on has the result of what it leads to. -/
theorem Agrees.followedBy {accept' : τ → Option ρ} {walk : σ → Met ε τ}
    (h : Agrees fault accept result met)
    (hwalk : ∀ state, .inr state ∈ met → Agrees fault accept' (accept state) (walk state)) :
    Agrees fault accept' result (followedBy met walk) := by
  induction met with
  | nil => exact h
  | cons entry met ih =>
    have hrest (h : Agrees fault accept result met) :=
      ih h fun state hstate => hwalk state (List.mem_cons_of_mem entry hstate)
    cases entry with
    | inl question => exact h.imp id hrest
    | inr state =>
      have hstate := hwalk state List.mem_cons_self
      simp only [Agrees] at h
      cases hfound : accept state with
      | none =>
        rw [hfound] at h hstate
        exact hstate.append (hrest h)
      | some found =>
        rw [hfound] at h hstate
        rw [show result = some found from h]
        exact hstate.append_of_some

/-- The same for a result that is given another form. -/
theorem Agrees.map {accept' : τ → Option ρ'} (f : ρ → ρ') (g : σ → τ)
    (h : Agrees fault accept result met) (haccept : ∀ state, accept' (g state) = (accept state).map f) :
    Agrees fault accept' (result.map f) (Backtrack.followedBy met fun state => [.inr (g state)]) := by
  induction met with
  | nil => exact congrArg (Option.map f) (h : result = none)
  | cons entry met ih =>
    cases entry with
    | inl question => exact h.imp id ih
    | inr state =>
      simp only [Agrees] at h
      show (accept' (g state)).elim _ _
      rw [haccept]
      cases hstate : accept state with
      | none =>
        rw [hstate] at h
        exact ih h
      | some found =>
        rw [hstate] at h
        exact congrArg (Option.map f) (h : result = some found)

/-- One search after the other. -/
theorem agrees_findSome? {α : Type*} {search : α → Option ρ} {walk : α → Met ε σ} :
    ∀ {starts : List α}, (∀ start ∈ starts, Agrees fault accept (search start) (walk start)) →
      Agrees fault accept (starts.findSome? search) (starts.flatMap walk)
  | [], _ => rfl
  | start :: starts, h => by
    have hrest := agrees_findSome? fun other hother => h other (List.mem_cons_of_mem start hother)
    have hboth := (h start List.mem_cons_self).append hrest
    rw [List.findSome?_cons, List.flatMap_cons]
    cases hstart : search start <;> rw [hstart] at hboth <;> exact hboth

end Agrees

/-! ## Searches with a continuation -/

section Explores

variable {ε ρ : Type*} {fault : ε → Prop} {limit : ℕ}

/-- The continuation is called with the places of the trails that have kept moving. -/
def Trail.result (continuation : ℕ → Option ρ) (trail : Trail) : Option ρ :=
  if trail.moving then continuation trail.stop else none

theorem Trail.result_or (trail : Trail) (f g : ℕ → Option ρ) :
    (trail.result fun place => (f place).or (g place)) = (trail.result f).or (trail.result g) := by
  unfold Trail.result
  split <;> rfl

/-- A search goes the way of a walk, which does not go back and does not leave the limit. -/
structure Explores (fault : ε → Prop) (limit : ℕ) (search : ℕ → (ℕ → Option ρ) → Option ρ)
    (walk : Trail → Met ε Trail) : Prop where
  advances : ∀ trail : Trail, trail.stop ≤ limit → ∀ next, .inr next ∈ walk trail →
    trail.stop ≤ next.stop ∧ next.stop ≤ limit
  agrees : ∀ trail : Trail, trail.stop ≤ limit → ∀ continuation,
    Agrees fault (Trail.result continuation)
      (trail.result fun place => search place continuation) (walk trail)

theorem mem_followedBy {σ τ : Type*} {met : Met ε σ} {walk : σ → Met ε τ} {next : τ}
    (h : .inr next ∈ followedBy met walk) : ∃ state, .inr state ∈ met ∧ .inr next ∈ walk state := by
  obtain ⟨entry, hentry, hnext⟩ := List.mem_flatMap.mp h
  cases entry with
  | inl question => cases List.mem_singleton.mp hnext
  | inr state => exact ⟨state, hentry, hnext⟩

variable {search search' : ℕ → (ℕ → Option ρ) → Option ρ} {walk walk' : Trail → Met ε Trail}

theorem explores_none : Explores fault limit (fun _ _ => (none : Option ρ)) fun _ => [] where
  advances _ _ _ h := absurd h List.not_mem_nil
  agrees _ _ _ := ite_self _

theorem explores_here :
    Explores fault limit (fun place continuation => (continuation place : Option ρ))
      fun trail => [.inr trail] where
  advances trail htrail next h := by
    obtain rfl : next = trail := Sum.inr.inj (List.mem_singleton.mp h)
    exact ⟨le_rfl, htrail⟩
  agrees trail _ continuation := by
    show (trail.result continuation).elim _ _
    cases trail.result continuation <;> rfl

theorem Explores.followedBy (h : Explores fault limit search walk)
    (h' : Explores fault limit search' walk') :
    Explores fault limit
      (fun place continuation => search place fun next => search' next continuation)
      fun trail => Backtrack.followedBy (walk trail) walk' where
  advances trail htrail next hnext := by
    obtain ⟨between, hbetween, hnext⟩ := mem_followedBy hnext
    obtain ⟨hle, hlimit⟩ := h.advances trail htrail between hbetween
    obtain ⟨hle', hlimit'⟩ := h'.advances between hlimit next hnext
    exact ⟨hle.trans hle', hlimit'⟩
  agrees trail htrail continuation :=
    (h.agrees trail htrail _).followedBy fun next hnext =>
      h'.agrees next (h.advances trail htrail next hnext).2 continuation

theorem Explores.append (h : Explores fault limit search walk)
    (h' : Explores fault limit search' walk') :
    Explores fault limit
      (fun place continuation => (search place continuation).or (search' place continuation))
      fun trail => walk trail ++ walk' trail where
  advances trail htrail next hnext :=
    (List.mem_append.mp hnext).elim (h.advances trail htrail next) (h'.advances trail htrail next)
  agrees trail htrail continuation := by
    rw [Trail.result_or]
    exact (h.agrees trail htrail continuation).append (h'.agrees trail htrail continuation)

/-- What a repetition ends with is where it begins, or lies behind one more iteration. -/
theorem mem_star {greedy : Bool} {budget : Option ℕ} {trail next : Trail}
    (h : .inr next ∈ star limit walk greedy budget trail) : next = trail ∨ ∃ between : Trail,
      (trail.stop < between.stop ∧ between.stop ≤ limit) ∧
        .inr next ∈ star limit walk greedy (budget.map (· - 1)) between := by
  rw [star] at h
  have hcases : next = trail ∨ .inr next ∈ (if budget = some 0 then []
      else Backtrack.followedBy (walk trail) fun between =>
        if _ : trail.stop < between.stop ∧ between.stop ≤ limit then
          star limit walk greedy (budget.map (· - 1)) between
        else []) := by
    split at h
    · rcases List.mem_append.mp h with h | h
      · exact Or.inr h
      · exact Or.inl (Sum.inr.inj (List.mem_singleton.mp h))
    · exact (List.mem_cons.mp h).imp (Sum.inr.inj ·) id
  refine hcases.imp id fun hmore => ?_
  split at hmore
  · exact absurd hmore List.not_mem_nil
  · obtain ⟨between, -, hnext⟩ := mem_followedBy hmore
    split at hnext
    next hfurther => exact ⟨between, hfurther, hnext⟩
    · exact absurd hnext List.not_mem_nil

theorem advances_star {greedy : Bool} {budget : Option ℕ} {trail next : Trail}
    (htrail : trail.stop ≤ limit) (h : .inr next ∈ star limit walk greedy budget trail) :
    trail.stop ≤ next.stop ∧ next.stop ≤ limit := by
  induction hn : limit - trail.stop using Nat.strongRecOn generalizing trail budget with
  | _ n ih =>
    obtain rfl | ⟨between, hfurther, hnext⟩ := mem_star h
    · exact ⟨le_rfl, htrail⟩
    · obtain ⟨hle, hlimit⟩ := ih (limit - between.stop) (by omega) hfurther.2 hnext rfl
      exact ⟨hfurther.1.le.trans hle, hlimit⟩

/-- Required iterations advance if the walk and what follows them do. -/
theorem advances_required {following : Trail → Met ε Trail} (h : Explores fault limit search walk)
    (hfollowing : ∀ trail : Trail, trail.stop ≤ limit → ∀ next, .inr next ∈ following trail →
      trail.stop ≤ next.stop ∧ next.stop ≤ limit) : ∀ (count : ℕ) (trail : Trail),
      trail.stop ≤ limit → ∀ next, .inr next ∈ required walk following count trail →
        trail.stop ≤ next.stop ∧ next.stop ≤ limit
  | 0, trail, htrail, next, hnext => hfollowing trail htrail next hnext
  | count + 1, trail, htrail, next, hnext => by
    obtain ⟨between, hbetween, hnext⟩ := mem_followedBy hnext
    obtain ⟨hle, hlimit⟩ := h.advances trail htrail between hbetween
    obtain ⟨hle', hlimit'⟩ := advances_required h hfollowing count (between.after trail.stop) hlimit
      next hnext
    exact ⟨hle.trans hle', hlimit'⟩

end Explores

end Aetheris.Backtrack
