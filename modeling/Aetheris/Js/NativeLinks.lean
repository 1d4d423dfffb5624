import Aetheris.Js.References

/-!
# Native functions keep the links

What a native function returns or stores is one of its arguments, a value that it has captured or
that an object holds, or an object that it has just made; and the objects that it makes have no
prototype or `m_object_prototype`.  This is said of an action on the state, and kept when actions
follow each other, so it goes through the table of native functions entry by entry.
-/

namespace Aetheris.Js.Script

open Aetheris.Agree Aetheris.Worlds

section

variable {w : Extent}

/-! ## What native functions get -/

/-- All of the values are there. -/
abbrev KnownAll (w : Extent) (values : List Heap.Value) : Prop := ∀ value ∈ values, Known w value

theorem KnownAll.mono {w' : Extent} (hw : w ≤ w') {values : List Heap.Value}
    (h : KnownAll w values) : KnownAll w' values :=
  fun value hvalue => (h value hvalue).mono hw

/-- An argument that is missing is `undefined`, which is always there. -/
theorem known_getD {values : List Heap.Value} (h : KnownAll w values) (i : ℕ) :
    Known w (values.getD i .undefined) := by
  rw [List.getD_eq_getElem?_getD]
  cases hvalue : values[i]? with
  | none => exact known_undefined
  | some value => exact h value (List.mem_of_getElem? hvalue)

theorem known_headD {values : List Heap.Value} (h : KnownAll w values) :
    Known w (values.headD .undefined) := by
  cases values with
  | nil => exact known_undefined
  | cons value values => exact h value List.mem_cons_self

theorem known_count (n : ℕ) : Known w (count n) := known_of_plain fun _ => nofun

/-- Numbers, strings and the like point to nothing. -/
theorem known_scalar (value : Scalar) : Known w value.1 := known_of_plain value.2

/-- The state is as it was. -/
theorem makesLinked_pure {value : Heap.Value} (h : Known w value) :
    MakesLinked w Known fun s => (value, s) :=
  .pure fun _ hw => h.mono hw

/-- A result that is read off the state. -/
theorem makesLinked_read {f : State → Heap.Value}
    (h : ∀ s : State, s.Linked → w ≤ s.extent → Known s.extent (f s)) :
    MakesLinked w Known fun s => (f s, s) :=
  fun s hs hw => ⟨hs, le_refl _, h s hs hw⟩

/-! ## What they make -/

/-- A new object that holds these values, and nothing else. -/
theorem linked_allocate_contents {contents : Heap.Object} (h : KnownAll w contents.values)
    {object : Object}
    (hobject : object.contents = contents ∧ object.entries = [] ∧ object.promise = none ∧
      object.callee = none) (hprototype : object.prototype = none) :
    MakesLinked w Known (State.allocate object) := by
  refine linked_allocate (fun prototype hmem => ?_) (within_of_contents h hobject)
  rw [hprototype] at hmem
  cases hmem

/-- A new array holds its elements alone, and a new object its properties. -/
theorem linked_newArray {elements : List Heap.Value} (h : KnownAll w elements) :
    MakesLinked w Known (State.newArray elements) := by
  refine linked_allocate_contents (fun value hvalue => ?_) ⟨rfl, rfl, rfl, rfl⟩ rfl
  rw [Heap.Object.values, List.map_nil, List.append_nil] at hvalue
  exact h value hvalue

theorem linked_newObject {properties : List (Bytes × Heap.Value)}
    (h : ∀ property ∈ properties, Known w property.2) :
    MakesLinked w Known (State.allocate { contents := { properties := properties } }) := by
  refine linked_allocate_contents (fun value hvalue => ?_) ⟨rfl, rfl, rfl, rfl⟩ rfl
  obtain ⟨property, hproperty, rfl⟩ := List.mem_map.mp hvalue
  exact h property hproperty

/-- The matches of a regular expression are strings. -/
theorem linked_textArray (found : Option (List Bytes × Option Number)) :
    MakesLinked w Known (State.textArray found) := by
  match found with
  | none => exact makesLinked_pure (known_of_plain fun _ => nofun)
  | some (texts, index) =>
    refine linked_allocate_contents (fun value hvalue => known_of_plain ?_) ⟨rfl, rfl, rfl, rfl⟩ rfl
    rcases List.mem_append.mp hvalue with hvalue | hvalue
    · obtain ⟨text, _, rfl⟩ := List.mem_map.mp hvalue
      exact fun _ => nofun
    · obtain ⟨property, hproperty, rfl⟩ := List.mem_map.mp hvalue
      obtain ⟨number, _, rfl⟩ := Option.map_eq_some_iff.mp (Option.mem_toList.mp hproperty)
      exact fun _ => nofun

/-- By induction on the functions: each is made before it is stored. -/
theorem linked_putNatives (object : Heap.Value) :
    ∀ {natives : List (Bytes × Native)} {w : Extent},
      (∀ native ∈ natives, KnownAll w native.2.captured) →
        KeepsLinks w (State.putNatives object natives)
  | [], _, _ => Moves.refl
  | (name, native) :: natives, w, h => by
    intro s hs hw
    obtain ⟨hs₁, hw₁, hmade⟩ := linked_makeNative (h _ List.mem_cons_self) s hs hw
    obtain ⟨hs₂, hw₂⟩ := linked_putProperty object name hmade _ hs₁ (le_refl _)
    obtain ⟨hs₃, hw₃⟩ := linked_putNatives object
      (fun native' hmem => (h native' (List.mem_cons_of_mem _ hmem)).mono
        (hw.trans (hw₁.trans hw₂))) _ hs₂ (le_refl _)
    exact ⟨hs₃, hw₁.trans (hw₂.trans hw₃)⟩

/-- An object with native functions as its properties. -/
theorem linked_allocate_putNatives (natives : Heap.Value → List (Bytes × Native)) {object : Object}
    (h : MakesLinked w Known (State.allocate object))
    (hnatives : ∀ (w' : Extent) (self : Heap.Value), Known w' self →
      ∀ native ∈ natives self, KnownAll w' native.2.captured) :
    MakesLinked w Known fun s =>
      ((s.allocate object).1, (s.allocate object).2.putNatives (s.allocate object).1
        (natives (s.allocate object).1)) :=
  h.moves (fun _ _ _ hle hself => hself.mono hle) fun w' _ self hself =>
    linked_putNatives self (hnatives w' self hself)

theorem linked_makeDate (ms : Number) : MakesLinked w Known (State.makeDate ms) := by
  refine linked_allocate_putNatives (fun _ => State.dateMembers.map fun name =>
    (name, ⟨lit "Date." ++ name, [.number ms]⟩)) (linked_allocate_contents
      (known_of_values_nil rfl) ⟨rfl, rfl, rfl, rfl⟩ rfl) fun w' self _ native hnative => ?_
  obtain ⟨name, _, rfl⟩ := List.mem_map.mp hnative
  intro value hvalue
  rw [List.mem_singleton.mp hvalue]
  exact known_of_plain fun _ => nofun

theorem linked_handleFor (id : Option Bytes) (text : Bytes) :
    MakesLinked w Known (State.handleFor id text) := by
  refine linked_allocate_putNatives (fun self => List.map (fun name => (name, ⟨name, [self]⟩)) _)
    (linked_allocate_contents (fun value hvalue => ?_) ⟨rfl, rfl, rfl, rfl⟩ rfl)
    fun w' self hself native hnative => ?_
  · have hcases : value = .string (id.getD []) ∨ value = .string text := by
      simpa [Heap.Object.values] using hvalue
    rcases hcases with rfl | rfl
    · exact known_of_plain fun _ => (by rintro ⟨⟩)
    · exact known_of_plain fun _ => (by rintro ⟨⟩)
  · obtain ⟨name, _, rfl⟩ := List.mem_map.mp hnative
    intro value hvalue
    rw [List.mem_singleton.mp hvalue]
    exact hself

/-- The list of listeners is made at the first one. -/
theorem linked_addListener (target : Heap.Value) (key : Bytes) {listener : Heap.Value}
    (h : Known w listener) : KeepsLinks w (State.addListener target key listener) := by
  have hvalues : ∀ {w' : Extent}, w ≤ w' →
      ∀ value ∈ (Heap.Write.push [listener]).values, Known w' value := fun hle value hvalue => by
    rw [List.mem_singleton.mp hvalue]
    exact h.mono hle
  intro s hs hw
  unfold State.addListener
  split
  next array _ => exact linked_write _ _ (hvalues hw) s hs (le_refl _)
  next =>
    obtain ⟨hs₁, hw₁, hmade⟩ :=
      linked_newArray (fun value (hvalue : value ∈ []) => nomatch hvalue) s hs (le_refl _)
    obtain ⟨hs₂, hw₂⟩ := linked_putProperty target key hmade _ hs₁ (le_refl _)
    obtain ⟨hs₃, hw₃⟩ :=
      linked_write _ _ (hvalues (hw.trans (hw₁.trans hw₂))) _ hs₂ (le_refl _)
    exact ⟨hs₃, hw₁.trans (hw₂.trans hw₃)⟩

mutual

/-- The objects of a JSON text; by induction on its value. -/
theorem linked_makeTree : ∀ (tree : ValueTree) {w : Extent},
    MakesLinked w Known (State.makeTree tree)
  | .undefined, _ => makesLinked_pure known_undefined
  | .null, _ => makesLinked_pure (known_of_plain fun _ => nofun)
  | .boolean _, _ => makesLinked_pure (known_of_plain fun _ => nofun)
  | .number _, _ => makesLinked_pure (known_of_plain fun _ => nofun)
  | .string _, _ => makesLinked_pure (known_of_plain fun _ => nofun)
  | .function, _ => makesLinked_pure known_undefined
  | .array elements, _ =>
    (linked_makeElements elements).bind fun _ _ _ helements => linked_newArray helements
  | .object properties, _ =>
    (linked_makeProperties properties).bind fun _ _ _ hproperties => linked_newObject hproperties

theorem linked_makeElements : ∀ (elements : List ValueTree) {w : Extent},
    MakesLinked w KnownAll (State.makeElements elements)
  | [], _ => .pure fun _ _ _ hvalue => nomatch hvalue
  | element :: elements, w => by
    intro s hs hw
    obtain ⟨hs₁, hw₁, hfirst⟩ := linked_makeTree element s hs hw
    obtain ⟨hs₂, hw₂, hrest⟩ := linked_makeElements elements _ hs₁ (le_refl _)
    refine ⟨hs₂, hw₁.trans hw₂, fun value hvalue => ?_⟩
    rcases List.mem_cons.mp hvalue with rfl | hvalue
    · exact hfirst.mono hw₂
    · exact hrest value hvalue

theorem linked_makeProperties : ∀ (properties : List (Bytes × ValueTree)) {w : Extent},
    MakesLinked w (fun w' made => ∀ property ∈ made, Known w' property.2)
      (State.makeProperties properties)
  | [], _ => .pure fun _ _ _ hvalue => nomatch hvalue
  | (name, property) :: properties, w => by
    intro s hs hw
    obtain ⟨hs₁, hw₁, hfirst⟩ := linked_makeTree property s hs hw
    obtain ⟨hs₂, hw₂, hrest⟩ := linked_makeProperties properties _ hs₁ (le_refl _)
    refine ⟨hs₂, hw₁.trans hw₂, fun made hmade => ?_⟩
    rcases List.mem_cons.mp hmade with rfl | hmade
    · exact hfirst.mono hw₂
    · exact hrest made hmade

end

/-! ## Promises -/

/-- A microtask takes its values from the promise and from the call. -/
theorem within_settledTask {derived : ObjectId} (hderived : derived < w.objects)
    {data : PromiseData} (hdata : data.Within w) (handlers : Heap.Value × Heap.Value)
    (hhandlers : Known w handlers.1 ∧ Known w handlers.2) :
    (State.settledTask derived data handlers).Within w := by
  refine ⟨hderived, ?_, hdata.value⟩
  unfold State.settledTask
  dsimp only
  split
  · exact hhandlers.2
  · exact hhandlers.1

/-- `then` stores its handlers, or schedules one of them. -/
theorem linked_promiseThen (self : Heap.Value) {arguments : List Heap.Value}
    (h : KnownAll w arguments) : MakesLinked w Known (State.promiseThen self arguments) := by
  intro s hs hw
  obtain ⟨hs₁, hw₁, hmade⟩ := linked_makePromise s hs hw
  have hhandlers := And.intro (known_getD (h.mono (hw.trans hw₁)) 0)
    (known_getD (h.mono (hw.trans hw₁)) 1)
  have hderived := hmade _ rfl
  unfold State.promiseThen
  dsimp only
  split
  next o data hdata =>
    have hwithin := hs₁.promise hdata
    split
    · obtain ⟨hs₂, hw₂⟩ := linked_addHandlers o (_, _) hhandlers _ hs₁ (le_refl _)
      exact ⟨hs₂, hw₁.trans hw₂, hmade.mono hw₂⟩
    · obtain ⟨hs₂, hw₂⟩ := linked_scheduleMicrotask
        (within_settledTask hderived hwithin (_, _) hhandlers) _ hs₁ (le_refl _)
      exact ⟨hs₂, hw₁.trans hw₂, hmade.mono hw₂⟩
  next => exact ⟨hs₁, hw₁, hmade⟩

theorem linked_promiseCatch (self : Heap.Value) {arguments : List Heap.Value}
    (h : KnownAll w arguments) : MakesLinked w Known (State.promiseCatch self arguments) := by
  intro s hs hw
  obtain ⟨hs₁, hw₁, hmade⟩ := linked_makePromise s hs hw
  have hhandlers : Known s.makePromise.2.extent .undefined ∧ _ :=
    ⟨known_undefined, known_getD (h.mono (hw.trans hw₁)) 0⟩
  have hderived := hmade _ rfl
  unfold State.promiseCatch
  dsimp only
  split
  next o data hdata =>
    have hwithin := hs₁.promise hdata
    split
    · obtain ⟨hs₂, hw₂⟩ := linked_addHandlers o (_, _) hhandlers _ hs₁ (le_refl _)
      exact ⟨hs₂, hw₁.trans hw₂, hmade.mono hw₂⟩
    · split
      · obtain ⟨hs₂, hw₂⟩ := linked_scheduleMicrotask
          (within_settledTask hderived hwithin (_, _) hhandlers) _ hs₁ (le_refl _)
        exact ⟨hs₂, hw₁.trans hw₂, hmade.mono hw₂⟩
      · obtain ⟨hs₂, hw₂⟩ := linked_settlePromise _ false hwithin.value _ hs₁ (le_refl _)
        exact ⟨hs₂, hw₁.trans hw₂, hmade.mono hw₂⟩
  next => exact ⟨hs₁, hw₁, hmade⟩

/-- What a promise is settled with is an argument. -/
theorem linked_settle (rejected : Bool) (self : Heap.Value) {arguments : List Heap.Value}
    (h : KnownAll w arguments) : MakesLinked w Known (State.settle rejected self arguments) := by
  match self with
  | .object (some o) =>
    exact (linked_settlePromise o rejected (known_headD h)).makes fun _ _ => known_undefined
  | .object none | .undefined | .null | .boolean _ | .number _ | .string _ =>
    exact makesLinked_pure known_undefined

theorem linked_settledPromise (rejected : Bool) {value : Heap.Value} (h : Known w value) :
    MakesLinked w Known (State.settledPromise rejected value) := by
  intro s hs hw
  obtain ⟨hs₁, hw₁, hmade⟩ := linked_makePromise s hs hw
  obtain ⟨hs₂, hw₂⟩ := linked_settlePromise s.objects.length rejected h _ hs₁ (hw.trans hw₁)
  exact ⟨hs₂, hw₁.trans hw₂, hmade.mono hw₂⟩

theorem linked_promiseResolve {arguments : List Heap.Value} (h : KnownAll w arguments) :
    MakesLinked w Known (State.promiseResolve arguments) := by
  intro s hs hw
  unfold State.promiseResolve
  dsimp only
  split
  · exact ⟨hs, le_refl _, (known_headD h).mono hw⟩
  · exact linked_settledPromise false (known_headD h) s hs hw

/-- The values of the promises were there already. -/
theorem linked_promiseAll {arguments : List Heap.Value} :
    MakesLinked w Known (State.promiseAll arguments) := by
  intro s hs hw
  obtain ⟨hs₁, hw₁, hmade⟩ := linked_makePromise s hs hw
  -- an item is an element of the array, or what its promise is settled with
  have hvalues {settled : Heap.Value → Heap.Value} {items : List Heap.Value}
      (hsettled : ∀ item ∈ items, Known s.makePromise.2.extent (settled item)) :
      KnownAll s.makePromise.2.extent (items.map settled) := by
    intro value hvalue
    obtain ⟨item, hitem, rfl⟩ := List.mem_map.mp hvalue
    exact hsettled item hitem
  have hlinked {values : List Heap.Value} (hvalues : KnownAll s.makePromise.2.extent values) :
      let array := s.makePromise.2.newArray values
      let after := array.2.settlePromise s.objects.length false array.1
      after.Linked ∧ s.extent ≤ after.extent ∧ Known after.extent s.makePromise.1 := by
    obtain ⟨hs₂, hw₂, harray⟩ := linked_newArray hvalues _ hs₁ (le_refl _)
    obtain ⟨hs₃, hw₃⟩ := linked_settlePromise s.objects.length false harray _ hs₂ (le_refl _)
    exact ⟨hs₃, hw₁.trans (hw₂.trans hw₃), hmade.mono (hw₂.trans hw₃)⟩
  refine hlinked (hvalues fun item hitem => ?_)
  split
  next data hdata => exact (hs₁.promise hdata).value
  next =>
    refine Known.mono hw₁ ?_
    split at hitem
    next object hobject =>
      obtain ⟨argument, _, hobject⟩ := Option.bind_eq_some_iff.mp hobject
      split at hitem
      · exact (hs.objects object (State.object_mem hobject)).contents item
          (List.mem_append_left _ hitem)
      · cases hitem
    next => cases hitem

/-! ## Native functions that call functions -/

/-- What the action calls, makes and returns is there. -/
def Action.Linked : Action → Extent → Prop
  | .done value, w => Known w value
  | .stop, _ => True
  | .look next, w => ∀ s : State, s.Linked → w ≤ s.extent → (next s).Linked s.extent
  | .quiet act next, w =>
    MakesLinked w Known act.1 ∧ ∀ w', w ≤ w' → ∀ value, Known w' value → (next value).Linked w'
  | .call callee arguments this next, w =>
    Known w callee ∧ KnownAll w arguments ∧ Known w this ∧
      ∀ w', w ≤ w' → ∀ value, Known w' value → (next value).Linked w'

theorem linked_quietArray {elements : List Heap.Value} (h : KnownAll w elements) :
    MakesLinked w Known (quietArray elements).1 :=
  linked_newArray h

/-- By induction on the rounds that are left; what a callback returns is there. -/
theorem linked_traverse (kind : Traversal) {array callback : Heap.Value} :
    ∀ (rounds i : ℕ) {result : List Heap.Value} {w : Extent}, Known w callback →
      KnownAll w result → (traverse kind array callback rounds i result).Linked w
  | 0, _, _, _, _, _ => trivial
  | rounds + 1, i, result, w, hcallback, hresult => by
    intro s hs hw
    have happend : ∀ {w' : Extent} {value : Heap.Value}, s.extent ≤ w' → Known w' value →
        KnownAll w' (result ++ [value]) := by
      intro w' value hle hvalue v hv
      rcases List.mem_append.mp hv with hv | hv
      · exact (hresult v hv).mono (hw.trans hle)
      · rw [List.mem_singleton.mp hv]
        exact hvalue
    dsimp only
    split
    next => exact ⟨linked_quietArray (hresult.mono hw), fun _ _ _ hvalue => hvalue⟩
    next element helement =>
      have helement := hs.elementsOf array element (List.mem_of_getElem? helement)
      refine ⟨hcallback.mono hw, ?_, known_undefined, fun w' hw' value hvalue => ?_⟩
      · intro v hv
        rcases List.mem_pair.mp hv with rfl | rfl
        · exact helement
        · exact known_count i
      · have hcallback' := hcallback.mono (hw.trans hw')
        have hresult' := hresult.mono (hw.trans hw')
        dsimp only
        split
        next => exact linked_traverse _ rounds (i + 1) hcallback' hresult'
        next => exact linked_traverse _ rounds (i + 1) hcallback' (happend hw' hvalue)
        next =>
          split
          · intro t ht hle
            exact linked_traverse _ rounds (i + 1) (hcallback'.mono hle)
              (happend (hw'.trans hle) (known_getD (ht.elementsOf array) i))
          · exact linked_traverse _ rounds (i + 1) hcallback' hresult'

theorem linked_traversal (kind : Traversal) (rounds : ℕ) (array : Heap.Value)
    {arguments : List Heap.Value} (h : KnownAll w arguments) :
    (traversal kind rounds array arguments).Linked w := by
  cases arguments with
  | nil => exact ⟨linked_quietArray (fun _ hvalue => nomatch hvalue), fun _ _ _ hvalue => hvalue⟩
  | cons callback arguments =>
    exact linked_traverse kind rounds 0 (h callback List.mem_cons_self)
      fun _ hvalue => nomatch hvalue

/-- The same of the loop of `reduce`, with what it has gathered so far. -/
theorem linked_reduceLoop {array callback : Heap.Value} :
    ∀ (rounds i : ℕ) {accumulator : Heap.Value} {w : Extent}, Known w callback →
      Known w accumulator → (reduceLoop array callback rounds i accumulator).Linked w
  | 0, _, _, _, _, _ => trivial
  | rounds + 1, i, accumulator, w, hcallback, haccumulator => by
    intro s hs hw
    dsimp only
    split
    next => exact haccumulator.mono hw
    next element helement =>
      have helement := hs.elementsOf array element (List.mem_of_getElem? helement)
      refine ⟨hcallback.mono hw, ?_, known_undefined, fun w' hw' value hvalue =>
        linked_reduceLoop rounds (i + 1) (hcallback.mono (hw.trans hw')) hvalue⟩
      intro v hv
      have hcases : v = accumulator ∨ v = element ∨ v = count i := by simpa using hv
      rcases hcases with rfl | rfl | rfl
      · exact haccumulator.mono hw
      · exact helement
      · exact known_count i

theorem linked_reduce (rounds : ℕ) (array : Heap.Value) {arguments : List Heap.Value}
    (h : KnownAll w arguments) : (reduce rounds array arguments).Linked w := by
  match arguments, h with
  | [], _ => exact known_undefined
  | [callback], h =>
    intro s hs hw
    have hcallback := (h callback List.mem_cons_self).mono hw
    have helements := hs.elementsOf array
    dsimp only
    generalize s.elementsOf array = elements at helements
    cases elements with
    | nil => exact known_undefined
    | cons element elements =>
      exact linked_reduceLoop rounds 1 hcallback (helements element List.mem_cons_self)
  | callback :: accumulator :: _, h =>
    exact linked_reduceLoop rounds 0 (h callback List.mem_cons_self)
      (h accumulator (List.mem_cons_of_mem _ List.mem_cons_self))

/-- The callback is called at once, and the promise is returned. -/
theorem linked_promiseFinally {self : Heap.Value} (hself : Known w self)
    {arguments : List Heap.Value} (h : KnownAll w arguments) :
    (promiseFinally self arguments).Linked w := by
  intro s _ hw
  dsimp only
  split
  · exact ⟨(known_headD h).mono hw, (fun _ hvalue => nomatch hvalue), known_undefined,
      fun _ hw' _ _ => hself.mono (hw.trans hw')⟩
  · exact hself.mono hw

theorem linked_quietNative {native : Native} (h : KnownAll w native.captured) :
    MakesLinked w Known (quietNative native).1 :=
  linked_makeNative h

/-- The executor is given two new functions that hold the new promise. -/
theorem linked_promiseConstructor {arguments : List Heap.Value} (h : KnownAll w arguments) :
    (promiseConstructor arguments).Linked w := by
  refine ⟨linked_makePromise, fun w₁ hw₁ promise hpromise s _ hw₂ => ?_⟩
  have hsingle : ∀ {w' : Extent}, w₁ ≤ w' → KnownAll w' [promise] := fun hle value hvalue => by
    rw [List.mem_singleton.mp hvalue]
    exact hpromise.mono hle
  dsimp only
  split
  · refine ⟨linked_quietNative (hsingle hw₂), fun w₃ hw₃ resolve hresolve => ?_⟩
    refine ⟨linked_quietNative (hsingle (hw₂.trans hw₃)), fun w₄ hw₄ reject hreject => ?_⟩
    have hw := hw₂.trans (hw₃.trans hw₄)
    refine ⟨(known_headD h).mono (hw₁.trans hw), ?_, known_undefined,
      fun w₅ hw₅ _ _ => hpromise.mono (hw.trans hw₅)⟩
    intro value hvalue
    rcases List.mem_pair.mp hvalue with rfl | rfl
    · exact hresolve.mono hw₄
    · exact hreject
  · exact hpromise.mono hw₂

/-! ## The table -/

/-- What the native function does with these arguments. -/
def NativeFunction.Linked (w : Extent) (arguments : List Heap.Value) : NativeFunction → Prop
  | .changing act => MakesLinked w Known (act arguments)
  | .calling action => (action arguments).Linked w

/-- The native function, with what it has captured and with its arguments, hands around what is
there. -/
def GoodNative (w : Extent) (function : Heap.Value → NativeFunction) : Prop :=
  ∀ (self : Heap.Value) (arguments : List Heap.Value), Known w self → KnownAll w arguments →
    (function self).Linked w arguments

/-- What is changed in a state, with a result that is read off it. -/
theorem makesLinked_changed {f : State → Heap.Value} {g : State → State}
    (hf : ∀ s : State, s.Linked → w ≤ s.extent → Known s.extent (f s))
    (hg : ∀ s : State, s.Linked → w ≤ s.extent → KeepsLinks s.extent g) :
    MakesLinked w Known fun s => (f s, g s) := by
  intro s hs hw
  obtain ⟨hs', hw'⟩ := hg s hs hw s hs (le_refl _)
  exact ⟨hs', hw', (hf s hs hw).mono hw'⟩

/-- Arrays: an element comes from the arguments, or was in the array. -/
theorem good_arrayPush : GoodNative w fun self => .changing (arrayPush self) :=
  fun self _ _ harguments => makesLinked_changed (fun _ _ _ => known_count _)
    fun _ _ hw => Moves.mono (linked_write self (.push _) harguments) hw

theorem good_arrayPop : GoodNative w fun self => .changing (arrayPop self) := by
  intro self arguments _ _
  refine makesLinked_changed (fun s hs _ => ?_) fun _ _ _ =>
    linked_write self .pop fun _ hvalue => nomatch hvalue
  rw [List.getLastD_eq_getLast?]
  cases hlast : (s.elementsOf self).getLast? with
  | none => exact known_undefined
  | some value => exact hs.elementsOf self value (List.mem_of_getLast? hlast)

/-- A new array of values that are read off the state. -/
theorem linked_newArray_read {f : State → List Heap.Value}
    (h : ∀ s : State, s.Linked → w ≤ s.extent → KnownAll s.extent (f s)) :
    MakesLinked w Known fun s => s.newArray (f s) :=
  fun s hs hw => linked_newArray (h s hs hw) s hs (le_refl _)

theorem good_arraySlice (P : Primitives) :
    GoodNative w fun self => .changing (arraySlice P self) :=
  fun self _ _ _ => linked_newArray_read fun _ hs _ value hvalue =>
    hs.elementsOf self value (List.mem_of_mem_take (List.mem_of_mem_drop hvalue))

theorem good_rearrange {elements : Heap.Value → State → List Heap.Value} :
    GoodNative w fun self => .changing fun _ s =>
      (self, s.write self (.rearrange (elements self s))) := by
  intro self arguments hself _ s hs hw
  obtain ⟨hs', hw'⟩ := linked_write self (.rearrange (elements self s))
    (fun _ hvalue => nomatch hvalue) s hs (le_refl _)
  exact ⟨hs', hw', hself.mono (hw.trans hw')⟩

/-- An array that is spread gives its elements. -/
theorem known_spread {s : State} (hs : s.Linked) {argument : Heap.Value}
    (h : Known s.extent argument) : KnownAll s.extent (spread s argument) := by
  intro value hvalue
  unfold spread at hvalue
  split at hvalue
  next object hobject =>
    split at hvalue
    · exact (hs.objects object (State.object_mem hobject)).contents value
        (List.mem_append_left _ hvalue)
    · rw [List.mem_singleton.mp hvalue]
      exact h
  next =>
    rw [List.mem_singleton.mp hvalue]
    exact h

theorem good_arrayConcat : GoodNative w fun self => .changing (arrayConcat self) := by
  intro self arguments _ harguments
  refine linked_newArray_read fun s hs hw value hvalue => ?_
  rcases List.mem_append.mp hvalue with hvalue | hvalue
  · exact hs.elementsOf self value hvalue
  · obtain ⟨argument, hargument, hvalue⟩ := List.mem_flatMap.mp hvalue
    exact known_spread hs ((harguments argument hargument).mono hw) value hvalue

/-- Maps and sets: an entry comes from the arguments, or was there. -/
theorem good_mapSet : GoodNative w fun self => .changing (mapSet self) := by
  intro self arguments hself harguments s hs hw
  have hentries := hs.entriesOf self
  unfold mapSet
  split
  next key value _ =>
    have hkey := (harguments key List.mem_cons_self).mono hw
    have hvalue := (harguments value (List.mem_cons_of_mem _ List.mem_cons_self)).mono hw
    split
    next i _ =>
      obtain ⟨hs', hw'⟩ := linked_setEntries self
        ((s.entriesOf self).modify i fun entry => (entry.1, value)) (fun entry hentry => by
        obtain ⟨old, hold, rfl | rfl⟩ := exists_of_mem_modify hentry
        · exact hentries _ hold
        · exact ⟨(hentries old hold).1, hvalue⟩) s hs (le_refl _)
      exact ⟨hs', hw', hself.mono (hw.trans hw')⟩
    next =>
      obtain ⟨hs', hw'⟩ := linked_setEntries self (s.entriesOf self ++ [(key, value)]) (fun entry hentry => by
        rcases List.mem_append.mp hentry with hentry | hentry
        · exact hentries entry hentry
        · rw [List.mem_singleton.mp hentry]
          exact ⟨hkey, hvalue⟩) s hs (le_refl _)
      exact ⟨hs', hw', hself.mono (hw.trans hw')⟩
  next => exact ⟨hs, le_refl _, hself.mono hw⟩

theorem good_mapGet : GoodNative w fun self => .changing (mapGet self) := by
  intro self arguments _ _ s hs hw
  cases arguments with
  | nil => exact ⟨hs, le_refl _, known_undefined⟩
  | cons key arguments =>
    unfold mapGet
    refine ⟨hs, le_refl _, ?_⟩
    dsimp only
    cases hfound : (s.entriesOf self).find? fun entry => sameValue entry.1 key with
    | none => exact known_undefined
    | some entry => exact (hs.entriesOf self entry (List.mem_of_find?_eq_some hfound)).2

theorem good_mapDelete : GoodNative w fun self => .changing (mapDelete self) := by
  intro self arguments _ _ s hs hw
  have hentries := hs.entriesOf self
  cases arguments with
  | nil => exact ⟨hs, le_refl _, known_of_plain fun _ => (by rintro ⟨⟩)⟩
  | cons key arguments =>
    unfold mapDelete
    dsimp only
    split
    next i _ =>
      obtain ⟨hs', hw'⟩ := linked_setEntries self _ (fun entry hentry =>
        hentries entry (List.mem_of_mem_eraseIdx hentry)) s hs (le_refl _)
      exact ⟨hs', hw', known_of_plain fun _ => (by rintro ⟨⟩)⟩
    next => exact ⟨hs, le_refl _, known_of_plain fun _ => (by rintro ⟨⟩)⟩

theorem good_mapKeys : GoodNative w fun self => .changing (mapKeys self) := by
  intro self _ _ _
  refine linked_newArray_read fun s hs _ value hvalue => ?_
  obtain ⟨entry, hentry, rfl⟩ := List.mem_map.mp hvalue
  exact (hs.entriesOf self entry hentry).1

theorem good_mapValues : GoodNative w fun self => .changing (mapValues self) := by
  intro self _ _ _
  refine linked_newArray_read fun s hs _ value hvalue => ?_
  obtain ⟨entry, hentry, rfl⟩ := List.mem_map.mp hvalue
  exact (hs.entriesOf self entry hentry).2

theorem good_setAdd : GoodNative w fun self => .changing (setAdd self) := by
  intro self arguments hself harguments s hs hw
  cases arguments with
  | nil => exact ⟨hs, le_refl _, hself.mono hw⟩
  | cons value arguments =>
    unfold setAdd
    dsimp only
    split
    · exact ⟨hs, le_refl _, hself.mono hw⟩
    · obtain ⟨hs', hw'⟩ := linked_write self (.push [value]) (fun v hv => by
        rw [List.mem_singleton.mp hv]
        exact (harguments value List.mem_cons_self).mono hw) s hs (le_refl _)
      exact ⟨hs', hw', hself.mono (hw.trans hw')⟩

theorem good_setDelete : GoodNative w fun self => .changing (setDelete self) := by
  intro self arguments _ _ s hs hw
  unfold setDelete
  split
  next => exact ⟨hs, le_refl _, known_of_plain fun _ => (by rintro ⟨⟩)⟩
  next =>
    split
    next i _ =>
      obtain ⟨hs', hw'⟩ := linked_write self (.erase i) (fun _ hvalue => by cases hvalue) s hs
        (le_refl _)
      exact ⟨hs', hw', known_of_plain fun _ => (by rintro ⟨⟩)⟩
    next => exact ⟨hs, le_refl _, known_of_plain fun _ => (by rintro ⟨⟩)⟩

theorem good_objectConstructor : GoodNative w fun _ => .changing objectConstructor := by
  intro _ arguments _ harguments
  cases arguments with
  | nil => exact linked_newObject fun _ hproperty => nomatch hproperty
  | cons argument arguments => exact makesLinked_pure (harguments argument List.mem_cons_self)

/-- The names of properties are strings. -/
theorem good_objectKeys : GoodNative w fun _ => .changing objectKeys := by
  intro _ arguments _ _
  refine linked_newArray_read fun s _ _ value hvalue => known_of_plain ?_
  split at hvalue
  next =>
    obtain ⟨property, _, rfl⟩ := List.mem_map.mp hvalue
    exact fun _ => nofun
  next => exact nomatch hvalue

theorem good_regExp (P : Primitives) : GoodNative w fun _ => .changing (regExp P) := by
  intro _ arguments _ _ s hs hw
  unfold regExp
  dsimp only
  split
  · exact linked_makeRegex _ s hs hw
  · exact linked_makeRegex none s hs hw

/-- What a text is parsed to is made anew. -/
theorem good_parseJson (P : Primitives) : GoodNative w fun _ => .changing (parseJson P) := by
  intro _ arguments _ _ s hs hw
  cases arguments with
  | nil => exact ⟨hs, le_refl _, known_undefined⟩
  | cons argument arguments =>
    unfold parseJson
    have hmade := linked_makeTree (parse P.strtod (P.toText argument s) {}).1 s hs hw
    dsimp only
    split
    · exact hmade
    · exact ⟨hmade.1, hmade.2.1, known_undefined⟩

theorem good_addEventListener (P : Primitives) :
    GoodNative w fun self => .changing (addEventListener P self) := by
  intro self arguments _ harguments s hs hw
  unfold addEventListener
  split
  next type listener _ =>
    obtain ⟨hs', hw'⟩ := linked_addListener self _
      (harguments listener (List.mem_cons_of_mem _ List.mem_cons_self)) s hs hw
    exact ⟨hs', hw', known_undefined⟩
  next => exact ⟨hs, le_refl _, known_undefined⟩

theorem linked_callHost (calls : List HookCall) : KeepsLinks w (State.callHost calls) :=
  linked_of_eq fun _ => ⟨rfl, rfl, rfl⟩

/-- The handles are those of the page. -/
theorem good_getElementById (P : Primitives) {handles : List (Bytes × Heap.Value)}
    (hhandles : ∀ handle ∈ handles, Known w handle.2) :
    GoodNative w fun _ => .changing (getElementById P handles) := by
  intro _ arguments _ _ s hs hw
  cases arguments with
  | nil => exact ⟨hs, le_refl _, known_undefined⟩
  | cons id arguments =>
    unfold getElementById
    obtain ⟨hs', hw'⟩ := linked_callHost [.elementLookup (P.toText id s)] s hs (le_refl _)
    refine ⟨hs', hw', ?_⟩
    dsimp only
    cases hlookup : handles.lookup (P.toText id s) with
    | none => exact known_undefined
    | some handle =>
      obtain ⟨l₁, l₂, heq, _⟩ := List.lookup_eq_some_iff.mp hlookup
      refine (hhandles (P.toText id s, handle) ?_).mono (hw.trans hw')
      rw [heq]
      simp

theorem good_createElement (P : Primitives) :
    GoodNative w fun _ => .changing (createElement P) := by
  intro _ arguments _ _ s hs hw
  cases arguments with
  | nil => exact ⟨hs, le_refl _, known_undefined⟩
  | cons tag arguments =>
    unfold createElement
    obtain ⟨hs₁, hw₁⟩ := linked_callHost [.createElement (P.toText tag s)] s hs (le_refl _)
    obtain ⟨hs₂, hw₂, hhandle⟩ := linked_handleFor none [] _ hs₁ (le_refl _)
    exact ⟨hs₂, hw₁.trans hw₂, hhandle⟩

/-- A native function that returns `undefined`, whatever the host does. -/
theorem good_callHost {calls : List Heap.Value → State → List HookCall} :
    GoodNative w fun _ => .changing fun arguments s =>
      (.undefined, s.callHost (calls arguments s)) := by
  intro _ arguments _ _ s hs _
  obtain ⟨hs', hw'⟩ := linked_callHost (calls arguments s) s hs (le_refl _)
  exact ⟨hs', hw', known_undefined⟩

/-- An empty `Map`, `Set` or array. -/
theorem good_allocate {object : Object} (hvalues : object.contents.values = [])
    (hobject : object.entries = [] ∧ object.promise = none ∧ object.callee = none)
    (hprototype : object.prototype = none) :
    GoodNative w fun _ => .changing fun _ => State.allocate object :=
  fun _ _ _ _ => linked_allocate_contents (known_of_values_nil hvalues) ⟨rfl, hobject⟩ hprototype

/-- **All native functions of the table hand around what is there.** -/
theorem goodNative_of_mem_nativeTable (P : Primitives) (rounds : ℕ)
    {handles : List (Bytes × Heap.Value)} (hhandles : ∀ handle ∈ handles, Known w handle.2) :
    ∀ entry ∈ nativeTable P rounds handles, GoodNative w entry.2 := by
  unfold nativeTable
  simp only [List.forall_mem_cons]
  refine ⟨good_arrayPush, good_arrayPop, good_arraySlice P, ?_, ?_, ?_, ?_, good_rearrange,
    good_rearrange, good_arrayConcat, good_mapSet, good_mapGet, good_mapDelete, good_mapKeys,
    good_mapValues, good_setAdd, good_setDelete, good_objectConstructor, good_objectKeys,
    good_allocate rfl ⟨rfl, rfl, rfl⟩ rfl, good_allocate rfl ⟨rfl, rfl, rfl⟩ rfl,
    good_allocate rfl ⟨rfl, rfl, rfl⟩ rfl, good_regExp P, good_parseJson P, ?_, ?_, ?_, ?_, ?_, ?_,
    ?_, ?_, ?_, ?_, good_addEventListener P, good_callHost, good_callHost,
    good_getElementById P hhandles, good_createElement P, fun _ hentry => by cases hentry⟩
  · exact fun self _ _ harguments => linked_traversal .forEach rounds self harguments
  · exact fun self _ _ harguments => linked_traversal .map rounds self harguments
  · exact fun self _ _ harguments => linked_traversal .filter rounds self harguments
  · exact fun self _ _ harguments => linked_reduce rounds self harguments
  · exact fun _ _ _ _ s hs hw => linked_makeDate _ s hs hw
  · exact fun _ _ _ harguments => linked_promiseConstructor harguments
  · exact fun _ _ _ harguments => linked_promiseResolve harguments
  · exact fun _ _ _ harguments => linked_settledPromise true (known_headD harguments)
  · exact fun _ _ _ _ => linked_promiseAll
  · exact fun self _ _ harguments => linked_promiseThen self harguments
  · exact fun self _ _ harguments => linked_promiseCatch self harguments
  · exact fun _ _ hself harguments => linked_promiseFinally hself harguments
  · exact fun self _ _ harguments => linked_settle false self harguments
  · exact fun self _ _ harguments => linked_settle true self harguments

/-- **Every native function hands around what is there.** -/
theorem linked_nativeFunction (P : Primitives) (rounds : ℕ) {handles : List (Bytes × Heap.Value)}
    (hhandles : ∀ handle ∈ handles, Known w handle.2) {native : Native}
    (hcaptured : KnownAll w native.captured) {arguments : List Heap.Value}
    (harguments : KnownAll w arguments) :
    (nativeFunction P rounds handles native).Linked w arguments := by
  unfold nativeFunction
  split
  next function hlookup =>
    obtain ⟨l₁, l₂, heq, _⟩ := List.lookup_eq_some_iff.mp hlookup
    refine goodNative_of_mem_nativeTable P rounds hhandles (native.name, function) ?_ _ _
      (known_headD hcaptured) harguments
    rw [heq]
    simp
  next =>
    split
    · exact fun s hs hw => linked_textArray _ s hs hw
    · exact makesLinked_read fun _ _ _ => known_scalar _

end

end Aetheris.Js.Script
