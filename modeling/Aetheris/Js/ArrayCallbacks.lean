import Aetheris.Js.Natives

/-!
# Callbacks that change the array

`forEach`, `map`, `filter` and `reduce` ask for the size of the array before each round, so what a
callback has done to the array does no harm.  Only `filter` looks at the element once more behind
the call, without asking.

`dispatch_event_to` goes through the handlers with iterators, which no longer hold when the size of
the vector has changed.  And it does not copy the handler: the pointer to the function that
`call_function` works with is the one in the vector, and behind the body of a function of the script
it is followed once more, to see whether the function is `async`.  A handler that has written
something else to its own place, such as `null`, leaves no function there to be looked at.

What a call does is an event of the run: any value, any writes to the array.  Each loop is a step on
such events that records what it reads, and the conditions are on the state in front of a round.
-/

namespace Aetheris.Js.Script

/-! ## What a call does -/

/-- What a call of a function leaves. -/
structure Outcome where
  value : Heap.Value := .undefined
  /-- What the script has written to the array, in this order. -/
  writes : List Heap.Write := []
  /-- The last pointer to the array is gone. -/
  released : Bool := false
  /-- It was a function of the script and not a native one. -/
  script : Bool := true
  deriving DecidableEq

/-- The array behind a call. -/
def Outcome.apply (e : Outcome) (array : Heap.Object) : Heap.Object :=
  e.writes.foldl Heap.Object.write array

/-- None of the writes changes the size of the vector. -/
def keepsSize : List Heap.Write → Heap.Object → Bool
  | [], _ => true
  | w :: writes, array =>
    (array.write w).elements.length == array.elements.length && keepsSize writes (array.write w)

/-- The iterators of the vector hold behind the call. -/
def Outcome.keepsIterators (e : Outcome) (array : Heap.Object) : Bool :=
  !e.released && keepsSize e.writes array

theorem length_of_keepsSize : ∀ {writes : List Heap.Write} {array : Heap.Object},
    keepsSize writes array = true →
      (writes.foldl Heap.Object.write array).elements.length = array.elements.length
  | [], _, _ => rfl
  | w :: writes, array, h => by
    rw [keepsSize, Bool.and_eq_true, beq_iff_eq] at h
    rw [List.foldl_cons, length_of_keepsSize h.2, h.1]

theorem Outcome.length_apply {e : Outcome} {array : Heap.Object}
    (h : e.keepsIterators array = true) :
    (e.apply array).elements.length = array.elements.length := by
  rw [Outcome.keepsIterators, Bool.and_eq_true] at h
  exact length_of_keepsSize h.2

/-- A read of `elements[index]`, with the elements as they are then. -/
structure Read where
  elements : List Heap.Value
  index : ℕ
  deriving DecidableEq

/-- What is read exists. -/
def Read.InRange (r : Read) : Prop := r.index < r.elements.length

instance (r : Read) : Decidable r.InRange := inferInstanceAs (Decidable (_ < _))

/-! ## The loops -/

/-- `forEach`, `map` and `filter` between two rounds. -/
structure TraverseState where
  array : Heap.Object
  index : ℕ := 0
  /-- All reads so far. -/
  reads : List Read := []
  /-- The elements of the result. -/
  result : List Heap.Value := []
  /-- The elements with which the callback of `filter` has returned something true. -/
  accepted : List Heap.Value := []

/-- A round of `forEach`, `map` and `filter`. -/
def traverseStep (kind : Traversal) (s : TraverseState) (e : Outcome) : Option TraverseState :=
  match s.array.elements[s.index]? with
  | none => none
  | some element =>
    let after := e.apply s.array
    let next := { s with
      array := after
      index := s.index + 1
      reads := s.reads ++ [⟨s.array.elements, s.index⟩] }
    match kind with
    | .forEach => some next
    | .map => some { next with result := s.result ++ [e.value] }
    | .filter =>
      if toBoolean e.value then
        -- the index is not compared with the size again
        some { next with
          reads := next.reads ++ [⟨after.elements, s.index⟩]
          result := s.result ++ [after.elements.getD s.index .undefined]
          accepted := s.accepted ++ [element] }
      else some next

/-- `reduce` between two rounds. -/
structure ReduceState where
  array : Heap.Object
  index : ℕ := 0
  accumulator : Heap.Value
  reads : List Read := []

/-- `reduce`, up to its loop; `none` where it returns before. -/
def reduceStart (array : Heap.Object) : Option Heap.Value → Option ReduceState
  | some accumulator => some { array := array, accumulator := accumulator }
  | none =>
    match array.elements with
    | [] => none
    | first :: _ => some {
        array := array
        index := 1
        accumulator := first
        reads := [⟨array.elements, 0⟩] }

/-- A round of `reduce`. -/
def reduceStep (s : ReduceState) (e : Outcome) : Option ReduceState :=
  match s.array.elements[s.index]? with
  | none => none
  | some _ => some {
      array := e.apply s.array
      index := s.index + 1
      accumulator := e.value
      reads := s.reads ++ [⟨s.array.elements, s.index⟩] }

/-- `dispatch_event_to` between two rounds. -/
structure DispatchState where
  array : Heap.Object
  index : ℕ := 0
  /-- How far the end is from the beginning of the vector. -/
  size : ℕ
  /-- The iterator and the end hold. -/
  valid : Bool := true
  /-- All pointers that were followed were not null. -/
  found : Bool := true
  reads : List Read := []

/-- The value is a pointer to an object. -/
def pointsToObject : Heap.Value → Bool
  | .object (some _) => true
  | _ => false

/-- The iterators of the loop are made. -/
def dispatchStart (array : Heap.Object) : DispatchState :=
  { array := array, size := array.elements.length }

/-- A round of `dispatch_event_to`, up to where the iterator is compared with the end. -/
def dispatchStep (d : DispatchState) (e : Outcome) : Option DispatchState :=
  if d.index < d.size then
    let after := e.apply d.array
    let next := { d with
      array := after
      index := d.index + 1
      valid := d.valid && e.keepsIterators d.array
      reads := d.reads ++ [⟨d.array.elements, d.index⟩] }
    if e.script then
      -- `function->is_async`, where `function` is the pointer in the vector
      some { next with
        found := d.found && pointsToObject (after.elements.getD d.index .undefined)
        reads := next.reads ++ [⟨after.elements, d.index⟩] }
    else some next
  else none

/-! ## What is expected -/

/-- All reads so far were of elements that there were. -/
def AllInRange (reads : List Read) : Prop := ∀ r ∈ reads, r.InRange

theorem AllInRange.append {reads : List Read} {r : Read} (h : AllInRange reads)
    (hr : r.InRange) : AllInRange (reads ++ [r]) := by
  intro r' hr'
  rcases List.mem_append.mp hr' with hmem | hmem
  · exact h r' hmem
  · rwa [List.mem_singleton.mp hmem]

/-- **The condition for a round of `filter`.**  When the callback returns something true, the element
that it was called with is still there. -/
def Leaves (s : TraverseState) (e : Outcome) : Prop :=
  toBoolean e.value = true →
    (e.apply s.array).elements[s.index]? = s.array.elements[s.index]?

/-- **The condition for a round of `dispatch_event_to`.**  The handler does not change the size of the
vector, and where it is a function of the script there is an object in its place behind its body. -/
def LeavesHandlers (d : DispatchState) (e : Outcome) : Prop :=
  e.keepsIterators d.array = true ∧
    (e.script = true → pointsToObject ((e.apply d.array).elements.getD d.index .undefined) = true)

/-! ## The rounds -/

/-- `forEach` and `map` read one element in a round, which there is. -/
theorem traverseStep_inRange {kind : Traversal} (hkind : kind ≠ .filter) {s t : TraverseState}
    {e : Outcome} (hs : AllInRange s.reads) (h : traverseStep kind s e = some t) :
    AllInRange t.reads := by
  rw [traverseStep] at h
  cases helement : s.array.elements[s.index]? with
  | none =>
    rw [helement] at h
    cases h
  | some element =>
    rw [helement] at h
    have hread : AllInRange (s.reads ++ [⟨s.array.elements, s.index⟩]) :=
      hs.append (List.getElem?_eq_some_iff.mp helement).1
    cases kind with
    | forEach =>
      rw [← Option.some.inj h]
      exact hread
    | map =>
      rw [← Option.some.inj h]
      exact hread
    | filter => exact absurd rfl hkind

/-- A round of `reduce` reads one element, which there is. -/
theorem reduceStep_inRange {s t : ReduceState} {e : Outcome} (hs : AllInRange s.reads)
    (h : reduceStep s e = some t) : AllInRange t.reads := by
  rw [reduceStep] at h
  cases helement : s.array.elements[s.index]? with
  | none =>
    rw [helement] at h
    cases h
  | some element =>
    rw [helement] at h
    rw [← Option.some.inj h]
    exact hs.append (List.getElem?_eq_some_iff.mp helement).1

theorem reduceStart_inRange {array : Heap.Object} {initial : Option Heap.Value}
    {start : ReduceState} (h : reduceStart array initial = some start) :
    AllInRange start.reads := by
  cases initial with
  | some accumulator =>
    rw [← Option.some.inj h]
    exact fun r hr => absurd hr List.not_mem_nil
  | none =>
    rw [reduceStart] at h
    split at h
    next => cases h
    next first rest helements =>
      rw [← Option.some.inj h]
      intro r hr
      rw [List.mem_singleton.mp hr, Read.InRange, helements]
      exact Nat.succ_pos _

/-- The elements that `filter` has read and kept so far. -/
def FilterRight (s : TraverseState) : Prop := AllInRange s.reads ∧ s.result = s.accepted

/-- **A round of `filter`** reads what there is and keeps what the callback was called with exactly
when the callback leaves it there. -/
theorem filterStep_iff {s t : TraverseState} {e : Outcome} (hs : FilterRight s)
    (h : traverseStep .filter s e = some t) : FilterRight t ↔ Leaves s e := by
  rw [traverseStep] at h
  cases helement : s.array.elements[s.index]? with
  | none =>
    rw [helement] at h
    cases h
  | some element =>
    rw [helement] at h
    have hread : AllInRange (s.reads ++ [⟨s.array.elements, s.index⟩]) :=
      hs.1.append (List.getElem?_eq_some_iff.mp helement).1
    rw [Leaves, helement]
    dsimp only at h
    split at h
    next htrue =>
      rw [← Option.some.inj h]
      constructor
      · rintro ⟨hreads, hkept⟩ _
        have hrange : s.index < (e.apply s.array).elements.length :=
          hreads ⟨(e.apply s.array).elements, s.index⟩ (List.mem_append_right _ (by simp))
        have hlast := List.append_inj_right' (hkept : s.result ++ [_] = s.accepted ++ [_]) rfl
        rw [List.getElem?_eq_getElem hrange]
        rw [List.getD_eq_getElem _ _ hrange] at hlast
        exact congrArg some (List.singleton_inj.mp hlast)
      · intro hleaves
        have hafter := hleaves htrue
        refine ⟨hread.append (List.getElem?_eq_some_iff.mp hafter).1, ?_⟩
        show s.result ++ [(e.apply s.array).elements.getD s.index .undefined] =
          s.accepted ++ [element]
        rw [hs.2, List.getD_eq_getElem?_getD, hafter]
        rfl
    next hfalse =>
      rw [← Option.some.inj h]
      exact iff_of_true ⟨hread, hs.2⟩ fun htrue => absurd htrue hfalse

/-- The iterators hold and what has been read through them was there. -/
def DispatchRight (d : DispatchState) : Prop :=
  d.valid = true ∧ d.found = true ∧ AllInRange d.reads

/-- **A round of `dispatch_event_to`** finds what it looks for exactly when the handler keeps the size
of the vector and leaves an object in its own place. -/
theorem dispatchStep_iff {d t : DispatchState} {e : Outcome}
    (hd : DispatchRight d ∧ d.size = d.array.elements.length) (h : dispatchStep d e = some t) :
    DispatchRight t ↔ LeavesHandlers d e := by
  obtain ⟨⟨hvalid, hfound, hreads⟩, hsize⟩ := hd
  rw [dispatchStep] at h
  split at h
  next hlt =>
    rw [hsize] at hlt
    have hread : AllInRange (d.reads ++ [⟨d.array.elements, d.index⟩]) := hreads.append hlt
    dsimp only at h
    split at h
    next hscript =>
      rw [← Option.some.inj h, LeavesHandlers, DispatchRight, hvalid, hfound, Bool.true_and,
        Bool.true_and]
      constructor
      · exact fun ⟨hkeeps, hobject, _⟩ => ⟨hkeeps, fun _ => hobject⟩
      · rintro ⟨hkeeps, hobject⟩
        have hplace : d.index < (e.apply d.array).elements.length := by
          rw [Outcome.length_apply hkeeps]
          exact hlt
        exact ⟨hkeeps, hobject hscript, hread.append hplace⟩
    next hnative =>
      rw [← Option.some.inj h, LeavesHandlers, DispatchRight, hvalid, hfound, Bool.true_and]
      exact ⟨fun hright => ⟨hright.1, fun hscript => absurd hscript hnative⟩,
        fun hleaves => ⟨hleaves.1, rfl, hread⟩⟩
  next => cases h

theorem dispatchStep_size {d t : DispatchState} {e : Outcome}
    (hsize : d.size = d.array.elements.length) (hleaves : LeavesHandlers d e)
    (h : dispatchStep d e = some t) : t.size = t.array.elements.length := by
  rw [dispatchStep] at h
  split at h
  next =>
    dsimp only at h
    split at h
    next =>
      rw [← Option.some.inj h]
      exact hsize.trans (Outcome.length_apply hleaves.1).symm
    next =>
      rw [← Option.some.inj h]
      exact hsize.trans (Outcome.length_apply hleaves.1).symm
  next => cases h

/-! ## The runs -/

/-- **When the loops read only what there is**, whatever the calls do to the array.  `forEach`, `map`
and `reduce` always do; `filter` does, and keeps the elements that its callback was called with,
exactly when the callback leaves these in their places; and `dispatch_event_to` does exactly when
no handler changes the size of the vector or leaves nothing in its own place. -/
theorem callbacks_iff (array : Heap.Object) (initial : Option Heap.Value) (es : List Outcome) :
    (∀ kind ≠ Traversal.filter, ∀ s ∈ Runs.states (traverseStep kind) { array := array } es,
      AllInRange s.reads) ∧
    (∀ start, reduceStart array initial = some start →
      ∀ s ∈ Runs.states reduceStep start es, AllInRange s.reads) ∧
    ((∀ s ∈ Runs.states (traverseStep .filter) { array := array } es,
        AllInRange s.reads ∧ s.result = s.accepted) ↔
      Runs.AlongReturning (traverseStep .filter) Leaves { array := array } es) ∧
    ((∀ d ∈ Runs.states dispatchStep (dispatchStart array) es,
        d.valid = true ∧ d.found = true ∧ AllInRange d.reads) ↔
      Runs.AlongReturning dispatchStep LeavesHandlers (dispatchStart array) es) := by
  have hnone : AllInRange [] := fun r hr => absurd hr List.not_mem_nil
  refine ⟨fun kind hkind => ?_, fun start hstart => ?_, ?_, ?_⟩
  · exact Runs.forall_mem_states (P := fun _ _ => True)
      (fun s e t hs _ h => traverseStep_inRange hkind hs h) hnone
      (Runs.alongReturning_of_forall fun _ _ => trivial)
  · exact Runs.forall_mem_states (P := fun _ _ => True)
      (fun s e t hs _ h => reduceStep_inRange hs h) (reduceStart_inRange hstart)
      (Runs.alongReturning_of_forall fun _ _ => trivial)
  · exact Runs.forall_mem_states_iff (I := FilterRight) (fun s hs => hs)
      (fun s e t hs hleaves h => (filterStep_iff hs h).mpr hleaves)
      (fun s e t hs hleaves h hright => hleaves ((filterStep_iff hs h).mp hright)) ⟨hnone, rfl⟩
  · exact Runs.forall_mem_states_iff
      (I := fun d => DispatchRight d ∧ d.size = d.array.elements.length) (fun d hd => hd.1)
      (fun d e t hd hleaves h =>
        ⟨(dispatchStep_iff hd h).mpr hleaves, dispatchStep_size hd.2 hleaves h⟩)
      (fun d e t hd hleaves h hright => hleaves ((dispatchStep_iff hd h).mp hright))
      ⟨⟨rfl, rfl, hnone⟩, rfl⟩

/-- `a.filter(() => { a.pop(); return true })` on an array with one element reads behind its end. -/
theorem not_forall_inRange :
    ¬∀ (array : Heap.Object) (es : List Outcome),
      ∀ s ∈ Runs.states (traverseStep .filter) { array := array } es, AllInRange s.reads := by
  intro h
  have hrange := h { isArray := true, elements := [.null] }
    [{ value := .boolean true, writes := [.pop] }] _ (List.mem_cons_of_mem _ List.mem_cons_self)
  exact absurd (hrange ⟨[], 0⟩ (by decide)) (by decide)

end Aetheris.Js.Script
