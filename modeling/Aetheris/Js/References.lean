import Aetheris.Js.Handed
import Aetheris.Js.Natives

/-!
# What references lead to

Objects and environments are numbered in the order of creation.  A prototype is there before the
objects that have it and a parent is there before its environments, so their numbers get smaller
along the links.  That what a script stores or passes on is there at all is what has to be known
with it, for a script chooses the prototype of the objects that `new` makes.  An `Extent` says how
much is there, and it only grows.
-/

namespace Aetheris.Js.Script

open Aetheris.Agree Aetheris.Worlds

/-! ## References that lead to something -/

/-- How many environments and objects there are. -/
structure Extent where
  environments : ℕ
  objects : ℕ

instance : Preorder Extent where
  le w w' := w.environments ≤ w'.environments ∧ w.objects ≤ w'.objects
  le_refl w := ⟨le_refl _, le_refl _⟩
  le_trans _ _ _ h h' := ⟨h.1.trans h'.1, h.2.trans h'.2⟩

/-- What the value points to is one of the first objects, as many as there are. -/
def Known (w : Extent) (value : Heap.Value) : Prop :=
  ∀ o, value = .object (some o) → o < w.objects

theorem Known.mono {w w' : Extent} (hw : w ≤ w') {value : Heap.Value} (h : Known w value) :
    Known w' value :=
  fun o ho => (h o ho).trans_le hw.2

theorem known_of_plain {w : Extent} {value : Heap.Value} (h : ∀ o, value ≠ .object (some o)) :
    Known w value :=
  fun o ho => absurd ho (h o)

theorem known_object {w : Extent} {o : ObjectId} (h : o < w.objects) :
    Known w (.object (some o)) := by
  intro o' ho
  cases ho
  exact h

theorem known_undefined {w : Extent} : Known w .undefined := known_of_plain fun _ => nofun

/-- All that a promise refers to is there. -/
structure PromiseData.Within (w : Extent) (data : PromiseData) : Prop where
  value : Known w data.value
  handlers : ∀ handlers ∈ data.handlers, Known w handlers.1 ∧ Known w handlers.2

/-- All that a function refers to is there. -/
def Callee.Within (w : Extent) : Callee → Prop
  | .native function => ∀ value ∈ function.captured, Known w value
  | .script _ _ _ closure => closure < w.environments

/-- All that an object refers to is there. -/
structure Object.Within (w : Extent) (object : Object) : Prop where
  contents : ∀ value ∈ object.contents.values, Known w value
  entries : ∀ entry ∈ object.entries, Known w entry.1 ∧ Known w entry.2
  promise : ∀ data ∈ object.promise, data.Within w
  callee : ∀ callee ∈ object.callee, callee.Within w

/-- All that a microtask refers to is there. -/
structure Microtask.Within (w : Extent) (task : Microtask) : Prop where
  derived : task.derived < w.objects
  handler : Known w task.handler
  value : Known w task.value

section

variable {w w' : Extent} (hw : w ≤ w')

include hw

theorem PromiseData.Within.mono {data : PromiseData} (h : data.Within w) : data.Within w' :=
  ⟨h.value.mono hw, fun handlers hmem =>
    ⟨(h.handlers handlers hmem).1.mono hw, (h.handlers handlers hmem).2.mono hw⟩⟩

theorem Callee.Within.mono {callee : Callee} (h : callee.Within w) : callee.Within w' := by
  cases callee with
  | native native => exact fun value hvalue => (h value hvalue).mono hw
  | script parameters functionBody isAsync closure => exact Nat.lt_of_lt_of_le h hw.1

theorem Object.Within.mono {object : Object} (h : object.Within w) : object.Within w' :=
  ⟨fun value hvalue => (h.contents value hvalue).mono hw,
    fun entry hentry => ⟨(h.entries entry hentry).1.mono hw, (h.entries entry hentry).2.mono hw⟩,
    fun data hdata => (h.promise data hdata).mono hw,
    fun callee hcallee => (h.callee callee hcallee).mono hw⟩

theorem Microtask.Within.mono {task : Microtask} (h : task.Within w) : task.Within w' :=
  ⟨h.derived.trans_le hw.2, h.handler.mono hw, h.value.mono hw⟩

end

namespace State

def extent (s : State) : Extent := ⟨s.environments.length, s.objects.length⟩

/-- The links of a state lead to what was there before, and all other references to what is
there. -/
structure Linked (s : State) : Prop where
  /-- `m_globals` -/
  globals : 0 < s.environments.length
  /-- `m_object_prototype` -/
  root : 0 < s.objects.length
  parents : ∀ (env : EnvironmentId) (scope : Scope), s.environments[env]? = some scope →
    ∀ parent ∈ scope.parent, parent < env
  slots : ∀ scope ∈ s.environments, ∀ slot ∈ scope.slots, Known s.extent slot.2
  prototypes : ∀ (o : ObjectId) (object : Object), s.objects[o]? = some object →
    ∀ prototype ∈ object.prototype, prototype < o
  objects : ∀ object ∈ s.objects, object.Within s.extent
  microtasks : ∀ task ∈ s.microtasks, task.Within s.extent

/-! ## What is read -/

variable {s : State}

theorem object_mem {value : Heap.Value} {object : Object} (h : s.object value = some object) :
    object ∈ s.objects := by
  unfold State.object at h
  split at h
  · exact List.mem_of_getElem? h
  · cases h

namespace Linked

variable (hs : s.Linked)

include hs

theorem elementsOf (value : Heap.Value) : ∀ v ∈ s.elementsOf value, Known s.extent v := by
  intro v hv
  unfold State.elementsOf at hv
  cases hobject : s.object value with
  | none =>
    rw [hobject] at hv
    cases hv
  | some object =>
    rw [hobject] at hv
    exact (hs.objects object (object_mem hobject)).contents v (List.mem_append_left _ hv)

theorem entriesOf (value : Heap.Value) :
    ∀ entry ∈ s.entriesOf value, Known s.extent entry.1 ∧ Known s.extent entry.2 := by
  intro entry hentry
  unfold State.entriesOf at hentry
  cases hobject : s.object value with
  | none =>
    rw [hobject] at hentry
    cases hentry
  | some object =>
    rw [hobject] at hentry
    exact (hs.objects object (object_mem hobject)).entries entry hentry

theorem promise {value : Heap.Value} {data : PromiseData} (h : s.promise value = some data) :
    data.Within s.extent := by
  obtain ⟨object, hobject, hdata⟩ := Option.bind_eq_some_iff.mp h
  exact (hs.objects object (object_mem hobject)).promise data hdata

theorem lookup_property {object : Object} (hobject : object ∈ s.objects) {name : Bytes}
    {value : Heap.Value} (h : object.contents.properties.lookup name = some value) :
    Known s.extent value := by
  refine (hs.objects object hobject).contents value (List.mem_append_right _ ?_)
  obtain ⟨l₁, l₂, heq, _⟩ := List.lookup_eq_some_iff.mp h
  rw [heq]
  simp

theorem property (object : Heap.Value) (name : Bytes) :
    Known s.extent (s.property object name) := by
  unfold State.property
  split
  next object hobject =>
    cases hlookup : object.contents.properties.lookup name with
    | none => exact known_undefined
    | some value => exact hs.lookup_property (object_mem hobject) hlookup
  next => exact known_undefined

theorem fromChain (name : Bytes) : ∀ (fuel : ℕ) (o : ObjectId),
    Known s.extent (s.fromChain name fuel o)
  | 0, _ => known_undefined
  | fuel + 1, o => by
    rw [State.fromChain]
    split
    next => exact known_undefined
    next object hobject =>
      split
      next value _ hlookup => exact hs.lookup_property (List.mem_of_getElem? hobject) hlookup
      next => exact fromChain name fuel _
      next => exact known_undefined

theorem find {env : EnvironmentId} {name : Bytes} {value : Heap.Value}
    (h : s.find env name = some value) : Known s.extent value := by
  obtain ⟨holder, _, h⟩ := Option.bind_eq_some_iff.mp h
  obtain ⟨scope, hscope, h⟩ := Option.bind_eq_some_iff.mp h
  obtain ⟨l₁, l₂, heq, _⟩ := List.lookup_eq_some_iff.mp h
  refine hs.slots scope (List.mem_of_getElem? hscope) (name, value) ?_
  rw [heq]
  simp

theorem callee {value : Heap.Value} {callee : Callee}
    (h : (s.object value).bind Object.callee = some callee) : callee.Within s.extent := by
  obtain ⟨object, hobject, hcallee⟩ := Option.bind_eq_some_iff.mp h
  exact (hs.objects object (object_mem hobject)).callee callee hcallee

end Linked

end State

/-! ## What is changed -/

/-- The entries of two lists, one after the other. -/
theorem getElem?_append_cases {α : Type*} {l l' : List α} {i : ℕ} {a : α}
    (h : (l ++ l')[i]? = some a) : l[i]? = some a ∨ l.length ≤ i ∧ l'[i - l.length]? = some a := by
  rcases Nat.lt_or_ge i l.length with hi | hi
  · rw [List.getElem?_append_left hi] at h
    exact Or.inl h
  · rw [List.getElem?_append_right hi] at h
    exact Or.inr ⟨hi, h⟩

/-- The entries of a list of which one has been changed. -/
theorem exists_of_mem_modify {α : Type*} {f : α → α} {l : List α} {i : ℕ} {a : α}
    (h : a ∈ l.modify i f) : ∃ b ∈ l, a = b ∨ a = f b := by
  obtain ⟨j, hj⟩ := List.mem_iff_getElem?.mp h
  rw [List.getElem?_modify] at hj
  obtain ⟨b, hb, heq⟩ := Option.map_eq_some_iff.mp hj
  refine ⟨b, List.mem_of_getElem? hb, ?_⟩
  split at heq
  · exact Or.inr heq.symm
  · exact Or.inl heq.symm

/-- The change keeps the links of a state, and what is there. -/
abbrev KeepsLinks (w : Extent) (f : State → State) : Prop :=
  Moves State.Linked State.extent w f

/-- The same of a change that makes something good. -/
abbrev MakesLinked {α : Type} (w : Extent) (good : Extent → α → Prop) (f : State → α × State) :
    Prop :=
  Makes State.Linked State.extent w good f

section

variable {w : Extent}

/-- What is no object and no environment plays no part. -/
theorem linked_of_eq {f : State → State}
    (h : ∀ s, (f s).environments = s.environments ∧ (f s).objects = s.objects ∧
      (f s).microtasks = s.microtasks) : KeepsLinks w f := by
  intro s hs _
  obtain ⟨henvironments, hobjects, hmicrotasks⟩ := h s
  have hextent : (f s).extent = s.extent := by
    rw [State.extent, henvironments, hobjects, State.extent]
  refine ⟨⟨?_, ?_, ?_, ?_, ?_, ?_, ?_⟩, hextent ▸ le_refl _⟩
  · rw [henvironments]
    exact hs.globals
  · rw [hobjects]
    exact hs.root
  · rw [henvironments]
    exact hs.parents
  · rw [henvironments, hextent]
    exact hs.slots
  · rw [hobjects]
    exact hs.prototypes
  · rw [hobjects, hextent]
    exact hs.objects
  · rw [hmicrotasks, hextent]
    exact hs.microtasks

theorem linked_error (message : Bytes) : KeepsLinks w (State.error message) := by
  refine linked_of_eq fun s => ?_
  unfold State.error
  split <;> exact ⟨rfl, rfl, rfl⟩

/-! ### Environments -/

/-- A new environment with a parent that is there. -/
theorem linked_scope {parent : EnvironmentId} (hparent : parent < w.environments)
    {slots : List (Bytes × Heap.Value)} (hslots : ∀ slot ∈ slots, Known w slot.2) :
    MakesLinked w (fun w' env => env < w'.environments) fun s =>
      (s.environments.length,
        { s with environments := s.environments ++ [{ parent := some parent, slots := slots }] }) := by
  intro s hs hw
  have hextent : s.extent ≤ ⟨s.environments.length + 1, s.objects.length⟩ :=
    ⟨Nat.le_succ _, le_refl _⟩
  refine ⟨⟨?_, hs.root, ?_, ?_, hs.prototypes, ?_, ?_⟩, ?_, ?_⟩
  · show 0 < (s.environments ++ _).length
    rw [List.length_append]
    exact Nat.lt_of_lt_of_le hs.globals (Nat.le_add_right _ _)
  · intro env scope hscope
    rcases getElem?_append_cases hscope with hscope | ⟨hle, hscope⟩
    · exact hs.parents env scope hscope
    · intro p hp
      rw [List.mem_singleton.mp (List.mem_of_getElem? hscope)] at hp
      cases hp
      exact (hparent.trans_le hw.1).trans_le hle
  · intro scope hscope slot hslot
    rcases List.mem_append.mp hscope with hscope | hscope
    · exact (hs.slots scope hscope slot hslot).mono (by simpa [State.extent] using hextent)
    · rw [List.mem_singleton.mp hscope] at hslot
      exact (hslots slot hslot).mono (hw.trans (by simpa [State.extent] using hextent))
  · intro object hobject
    exact (hs.objects object hobject).mono (by simpa [State.extent] using hextent)
  · intro task htask
    exact (hs.microtasks task htask).mono (by simpa [State.extent] using hextent)
  · simpa [State.extent] using hextent
  · show s.environments.length < (s.environments ++ _).length
    rw [List.length_append]
    exact Nat.lt_succ_self _

theorem mem_setEntry {name : Bytes} {value : Heap.Value} :
    ∀ {slots : List (Bytes × Heap.Value)} {slot : Bytes × Heap.Value},
      slot ∈ Heap.setEntry name value slots → slot.2 = value ∨ ∃ old ∈ slots, old.2 = slot.2 := by
  intro slots slot hslot
  have hmem := Heap.mem_setEntry_iff name value slot.2 (List.mem_map_of_mem hslot)
  exact hmem.imp_right fun h => List.mem_map.mp h

theorem known_setEntry {name : Bytes} {value : Heap.Value} {slots : List (Bytes × Heap.Value)}
    (hvalue : Known w value) (hslots : ∀ slot ∈ slots, Known w slot.2) :
    ∀ slot ∈ Heap.setEntry name value slots, Known w slot.2 := by
  intro slot hslot
  rcases mem_setEntry hslot with heq | ⟨old, hold, heq⟩
  · rw [heq]
    exact hvalue
  · rw [← heq]
    exact hslots old hold

theorem known_bindParameters : ∀ (parameters : List Bytes) {arguments : List Heap.Value}
    {slots : List (Bytes × Heap.Value)}, (∀ value ∈ arguments, Known w value) →
      (∀ slot ∈ slots, Known w slot.2) →
        ∀ slot ∈ State.bindParameters parameters arguments slots, Known w slot.2
  | [], _, _, _, hslots => hslots
  | name :: names, arguments, slots, harguments, hslots => by
    refine known_bindParameters names (fun value hvalue =>
      harguments value (List.mem_of_mem_tail hvalue)) (known_setEntry ?_ hslots)
    cases arguments with
    | nil => exact known_undefined
    | cons value arguments => exact harguments value List.mem_cons_self

theorem linked_declare (env : EnvironmentId) (name : Bytes) {value : Heap.Value}
    (hvalue : Known w value) : KeepsLinks w (State.declare env name value) := by
  intro s hs hw
  have hextent : (s.declare env name value).extent = s.extent := by
    simp [State.extent, State.declare]
  refine ⟨⟨?_, hs.root, ?_, ?_, hs.prototypes, ?_, ?_⟩, hextent ▸ le_refl _⟩
  · simpa [State.declare] using hs.globals
  · intro env' scope hscope
    simp only [State.declare, List.getElem?_modify] at hscope
    obtain ⟨old, hold, heq⟩ := Option.map_eq_some_iff.mp hscope
    have hparent : scope.parent = old.parent := by
      rw [← heq]
      split <;> rfl
    rw [hparent]
    exact hs.parents env' old hold
  · rw [hextent]
    intro scope hscope slot hslot
    obtain ⟨old, hold, rfl | rfl⟩ := exists_of_mem_modify hscope
    · exact hs.slots _ hold slot hslot
    · exact known_setEntry (hvalue.mono hw) (hs.slots old hold) slot hslot
  · rw [hextent]
    exact hs.objects
  · rw [hextent]
    exact hs.microtasks

theorem linked_assign (env : EnvironmentId) (name : Bytes) {value : Heap.Value}
    (hvalue : Known w value) : KeepsLinks w (State.assign env name value) := by
  intro s hs hw
  unfold State.assign
  split
  · exact ⟨hs, le_refl _⟩
  · exact linked_declare _ name hvalue s hs hw

/-! ### Objects -/

/-- New objects: each of them has no prototype or one that is there before, and all that they refer
to is there with them. -/
theorem linked_append {s : State} (hs : s.Linked) (objects : List Object)
    (hprototypes : ∀ object ∈ objects, ∀ prototype ∈ object.prototype,
      prototype < s.objects.length)
    (hwithin : ∀ object ∈ objects,
      object.Within ⟨s.environments.length, s.objects.length + objects.length⟩) :
    { s with objects := s.objects ++ objects }.Linked ∧
      s.extent ≤ { s with objects := s.objects ++ objects }.extent := by
  have hextent : { s with objects := s.objects ++ objects }.extent =
      ⟨s.environments.length, s.objects.length + objects.length⟩ := by
    simp [State.extent]
  have hle : s.extent ≤ ⟨s.environments.length, s.objects.length + objects.length⟩ :=
    ⟨le_refl _, Nat.le_add_right _ _⟩
  refine ⟨⟨hs.globals, ?_, hs.parents, ?_, ?_, ?_, ?_⟩, hextent ▸ hle⟩
  · exact Nat.lt_of_lt_of_le hs.root (by simp)
  · rw [hextent]
    exact fun scope hscope slot hslot => (hs.slots scope hscope slot hslot).mono hle
  · intro o object hobject prototype hprototype
    rcases getElem?_append_cases hobject with hobject | ⟨hge, hobject⟩
    · exact hs.prototypes o object hobject prototype hprototype
    · exact (hprototypes object (List.mem_of_getElem? hobject) prototype hprototype).trans_le hge
  · rw [hextent]
    intro object hobject
    rcases List.mem_append.mp hobject with hobject | hobject
    · exact (hs.objects object hobject).mono hle
    · exact hwithin object hobject
  · rw [hextent]
    exact fun task htask => (hs.microtasks task htask).mono hle

/-- One new object. -/
theorem linked_allocate {object : Object}
    (hprototype : ∀ prototype ∈ object.prototype, prototype = objectPrototype ∨
      prototype < w.objects)
    (hwithin : object.Within w) : MakesLinked w Known (State.allocate object) := by
  intro s hs hw
  have hle : w ≤ ⟨s.environments.length, s.objects.length + 1⟩ :=
    ⟨hw.1, hw.2.trans (Nat.le_succ _)⟩
  have hlinked := linked_append hs [object]
    (fun object' hobject' prototype hprototype' => by
      rw [List.mem_singleton.mp hobject'] at hprototype'
      rcases hprototype prototype hprototype' with rfl | hlt
      · exact hs.root
      · exact hlt.trans_le hw.2)
    (fun object' hobject' => by
      rw [List.mem_singleton.mp hobject']
      exact hwithin.mono hle)
  refine ⟨hlinked.1, hlinked.2, known_object ?_⟩
  show s.objects.length < (s.objects ++ [object]).length
  rw [List.length_append]
  exact Nat.lt_succ_self _

/-- An object is changed, but not its prototype. -/
theorem linked_modifyObject (o : ObjectId) {f : Object → Object}
    (hprototype : ∀ object, (f object).prototype = object.prototype)
    (hwithin : ∀ w' object, w ≤ w' → object.Within w' → (f object).Within w') :
    KeepsLinks w (State.modifyObject o f) := by
  intro s hs hw
  have hextent : (s.modifyObject o f).extent = s.extent := by
    simp [State.extent, State.modifyObject]
  refine ⟨⟨hs.globals, ?_, hs.parents, ?_, ?_, ?_, ?_⟩, hextent ▸ le_refl _⟩
  · simpa [State.modifyObject] using hs.root
  · rw [hextent]
    exact hs.slots
  · intro o' object hobject
    simp only [State.modifyObject, List.getElem?_modify] at hobject
    obtain ⟨old, hold, heq⟩ := Option.map_eq_some_iff.mp hobject
    have hsame : object.prototype = old.prototype := by
      rw [← heq]
      split
      · exact hprototype old
      · rfl
    rw [hsame]
    exact hs.prototypes o' old hold
  · rw [hextent]
    intro object hobject
    obtain ⟨old, hold, rfl | rfl⟩ := exists_of_mem_modify hobject
    · exact hs.objects _ hold
    · exact hwithin _ old hw (hs.objects old hold)
  · rw [hextent]
    exact hs.microtasks

/-- Microtasks that refer to what is there. -/
theorem linked_microtasks {s : State} (hs : s.Linked) {microtasks : List Microtask}
    (h : ∀ task ∈ microtasks, task.Within s.extent) :
    { s with microtasks := microtasks }.Linked :=
  ⟨hs.globals, hs.root, hs.parents, hs.slots, hs.prototypes, hs.objects, h⟩

/-! ### The functions of the interpreter -/

theorem known_of_values_nil {contents : Heap.Object} (h : contents.values = []) :
    ∀ value ∈ contents.values, Known w value := by
  rw [h]
  exact fun _ hvalue => nomatch hvalue

/-- What an object is made with: its contents, and that they are there. -/
theorem within_of_contents {contents : Heap.Object}
    (h : ∀ value ∈ contents.values, Known w value) {object : Object}
    (hobject : object.contents = contents ∧ object.entries = [] ∧ object.promise = none ∧
      object.callee = none) : object.Within w := by
  obtain ⟨hcontents, hentries, hpromise, hcallee⟩ := hobject
  refine ⟨hcontents ▸ h, ?_, ?_, ?_⟩
  · rw [hentries]
    exact fun _ hentry => nomatch hentry
  · rw [hpromise]
    exact fun _ hdata => nomatch hdata
  · rw [hcallee]
    exact fun _ hcallee => nomatch hcallee

theorem linked_newEnvironment {parent : EnvironmentId} (hparent : parent < w.environments) :
    MakesLinked w (fun w' env => env < w'.environments) (State.newEnvironment parent) :=
  linked_scope hparent fun _ hslot => nomatch hslot

theorem linked_callEnvironment {closure : EnvironmentId} (hclosure : closure < w.environments)
    {this : Heap.Value} (hthis : Known w this) (parameters : List Bytes)
    {arguments : List Heap.Value} (harguments : ∀ value ∈ arguments, Known w value) :
    MakesLinked w (fun w' env => env < w'.environments)
      (State.callEnvironment closure this parameters arguments) :=
  linked_scope hclosure <| known_bindParameters parameters harguments fun slot hslot => by
    rw [List.mem_singleton.mp hslot]
    exact hthis

theorem linked_makeArray {elements : List Heap.Value} (h : ∀ value ∈ elements, Known w value) :
    MakesLinked w Known (State.makeArray elements) := by
  refine linked_allocate (fun prototype hprototype => Or.inl ?_)
    (within_of_contents ?_ ⟨rfl, rfl, rfl, rfl⟩)
  · cases hprototype
    rfl
  · intro value hvalue
    rw [Heap.Object.values, List.map_nil, List.append_nil] at hvalue
    exact h value hvalue

theorem known_foldl_setEntry {properties : List (Bytes × Heap.Value)}
    (h : ∀ p ∈ properties, Known w p.2) : ∀ {slots : List (Bytes × Heap.Value)},
      (∀ slot ∈ slots, Known w slot.2) →
        ∀ slot ∈ properties.foldl (fun entries p => Heap.setEntry p.1 p.2 entries) slots,
          Known w slot.2 := by
  induction properties with
  | nil => exact fun hslots => hslots
  | cons p properties ih =>
    exact fun hslots => ih (fun p' hp' => h p' (List.mem_cons_of_mem p hp'))
      (known_setEntry (h p List.mem_cons_self) hslots)

theorem linked_makeObject {properties : List (Bytes × Heap.Value)}
    (h : ∀ p ∈ properties, Known w p.2) : MakesLinked w Known (State.makeObject properties) := by
  refine linked_allocate (fun prototype hprototype => Or.inl ?_)
    (within_of_contents ?_ ⟨rfl, rfl, rfl, rfl⟩)
  · cases hprototype
    rfl
  · intro value hvalue
    obtain ⟨slot, hslot, rfl⟩ := List.mem_map.mp hvalue
    exact known_foldl_setEntry h (fun _ hnil => absurd hnil List.not_mem_nil) slot hslot

theorem linked_makeInstance {prototype : Heap.Value} (h : Known w prototype) :
    MakesLinked w Known (State.makeInstance prototype) := by
  refine linked_allocate (fun o ho => ?_) (within_of_contents ?_ ⟨rfl, rfl, rfl, rfl⟩)
  · split at ho
    next o' =>
      cases ho
      exact Or.inr (h o rfl)
    next =>
      cases ho
      exact Or.inl rfl
  · exact known_of_values_nil rfl

theorem linked_makeNative {native : Native} (h : ∀ value ∈ native.captured, Known w value) :
    MakesLinked w Known (State.makeNative native) := by
  refine linked_allocate (fun _ hprototype => nomatch hprototype) ⟨?_, ?_, ?_, ?_⟩
  · exact known_of_values_nil rfl
  · exact fun _ hentry => nomatch hentry
  · exact fun _ hdata => nomatch hdata
  · intro callee hcallee
    cases hcallee
    exact h

/-- An object and native functions that capture it, all at once. -/
theorem linked_withNatives (names : List Bytes) {self : Object} {s : State} (hs : s.Linked)
    (hprototype : ∀ prototype ∈ self.prototype, prototype = objectPrototype)
    (hself : self.Within ⟨s.environments.length, s.objects.length + (1 + names.length)⟩)
    {t : State} (ht : t = { s with
      objects := s.objects ++ self :: names.map fun name =>
        { contents := { isFunction := true }
          callee := some (.native ⟨name, [.object (some s.objects.length)]⟩) } }) :
    t.Linked ∧ s.extent ≤ t.extent ∧ Known t.extent (.object (some s.objects.length)) := by
  subst ht
  have hlinked := linked_append hs (self :: names.map fun name =>
      { contents := { isFunction := true }
        callee := some (.native ⟨name, [.object (some s.objects.length)]⟩) })
    (fun object hobject prototype hmem => by
      rcases List.mem_cons.mp hobject with rfl | hobject
      · rw [hprototype prototype hmem]
        exact hs.root
      · obtain ⟨name, _, rfl⟩ := List.mem_map.mp hobject
        cases hmem)
    (fun object hobject => by
      rcases List.mem_cons.mp hobject with rfl | hobject
      · simpa [Nat.add_comm] using hself
      · obtain ⟨name, _, rfl⟩ := List.mem_map.mp hobject
        refine ⟨?_, ?_, ?_, ?_⟩
        · exact known_of_values_nil rfl
        · exact fun _ hentry => by cases hentry
        · exact fun _ hdata => by cases hdata
        · intro callee hcallee
          cases hcallee
          intro value hvalue
          rw [List.mem_singleton.mp hvalue]
          exact known_object (Nat.lt_add_of_pos_right (Nat.succ_pos _)))
  refine ⟨hlinked.1, hlinked.2, known_object ?_⟩
  show s.objects.length < (s.objects ++ _).length
  rw [List.length_append]
  exact Nat.lt_add_of_pos_right (Nat.succ_pos _)

theorem linked_makePromise : MakesLinked w Known State.makePromise := by
  intro s hs hw
  refine linked_withNatives [lit "then", lit "catch", lit "finally"] hs
    (fun _ hprototype => (Option.some.inj hprototype).symm) ⟨?_, ?_, ?_, ?_⟩ rfl
  · intro value hvalue
    have hplaces : value = .object (some (s.objects.length + 2)) ∨
        value = .object (some (s.objects.length + 3)) ∨
        value = .object (some (s.objects.length + 1)) := by
      simpa [Heap.Object.values] using hvalue
    rcases hplaces with rfl | rfl | rfl <;> exact known_object (by simp)
  · exact fun _ hentry => nomatch hentry
  · intro data hdata
    cases hdata
    exact ⟨known_undefined, fun _ hhandlers => nomatch hhandlers⟩
  · exact fun _ hcallee => nomatch hcallee

theorem linked_makeRegex (regex : Option Regex) : MakesLinked w Known (State.makeRegex regex) := by
  intro s hs hw
  cases regex with
  | none => exact ⟨hs, le_refl _, known_of_plain fun _ => nofun⟩
  | some regex =>
    refine linked_withNatives [lit "test", lit "exec"] hs
      (fun _ hprototype => by exact nomatch hprototype)
      (within_of_contents (fun value hvalue => ?_) ⟨rfl, rfl, rfl, rfl⟩) rfl
    have hplaces : value = .object (some (s.objects.length + 2)) ∨ value = .string regex.flags ∨
        value = .boolean regex.global ∨ value = .string regex.source ∨
        value = .object (some (s.objects.length + 1)) := by
      simpa [Heap.Object.values] using hvalue
    rcases hplaces with rfl | rfl | rfl | rfl | rfl
    · exact known_object (by simp)
    · exact known_of_plain fun _ => nofun
    · exact known_of_plain fun _ => nofun
    · exact known_of_plain fun _ => nofun
    · exact known_object (by simp)

theorem linked_makeFunction (node : Syntax.Node) {env : EnvironmentId}
    (henv : env < w.environments) : MakesLinked w Known (State.makeFunction node env) := by
  intro s hs hw
  have hclosure : env < s.environments.length := henv.trans_le hw.1
  obtain ⟨parameters, body, boolean, hmade⟩ : ∃ parameters body boolean,
      State.makeFunction node env s = (.object (some s.objects.length), { s with
        objects := s.objects ++
          [{ contents := {
                isFunction := true
                properties := [(lit "prototype", .object (some (s.objects.length + 1)))] }
             prototype := some objectPrototype
             callee := some (.script parameters body boolean env) },
            { prototype := some objectPrototype }] }) := by
    cases node <;> exact ⟨_, _, _, rfl⟩
  rw [hmade]
  have hlinked := linked_append hs
    [{ contents := {
          isFunction := true
          properties := [(lit "prototype", .object (some (s.objects.length + 1)))] }
       prototype := some objectPrototype
       callee := some (.script parameters body boolean env) },
      { prototype := some objectPrototype }] ?_ ?_
  · refine ⟨hlinked.1, hlinked.2, known_object ?_⟩
    show s.objects.length < (s.objects ++ [_, _]).length
    rw [List.length_append]
    exact Nat.lt_add_of_pos_right (Nat.succ_pos _)
  · intro object hobject prototype hprototype
    have hroot : prototype = objectPrototype := by
      rcases List.mem_cons.mp hobject with rfl | hobject
      · exact (Option.some.inj hprototype).symm
      · rw [List.mem_singleton.mp hobject] at hprototype
        exact (Option.some.inj hprototype).symm
    rw [hroot]
    exact hs.root
  · intro object hobject
    rcases List.mem_cons.mp hobject with rfl | hobject
    · refine ⟨?_, (fun _ hentry => by cases hentry), (fun _ hdata => by cases hdata), ?_⟩
      · intro value hvalue
        rw [List.mem_singleton.mp hvalue]
        exact known_object (by simp)
      · intro callee hcallee
        rw [← Option.some.inj hcallee]
        exact hclosure
    · rw [List.mem_singleton.mp hobject]
      exact within_of_contents (known_of_values_nil rfl) ⟨rfl, rfl, rfl, rfl⟩

/-! ### Writes -/

/-- An object is written to, and what is written is there. -/
theorem within_write {w' : Extent} {object : Object} (h : object.Within w') {write : Heap.Write}
    (hvalues : ∀ value ∈ write.values, Known w' value) :
    { object with contents := object.contents.write write }.Within w' := by
  refine ⟨fun value hvalue => ?_, h.entries, h.promise, h.callee⟩
  rcases object.contents.mem_values_write write hvalue with hvalue | hvalue | rfl
  · exact h.contents value hvalue
  · exact hvalues value hvalue
  · exact known_undefined

theorem linked_write (object : Heap.Value) (write : Heap.Write)
    (h : ∀ value ∈ write.values, Known w value) : KeepsLinks w (State.write object write) := by
  match object with
  | .object (some o) =>
    exact linked_modifyObject o (fun _ => rfl) fun w' object hw hobject =>
      within_write hobject fun value hvalue => (h value hvalue).mono hw
  | .object none | .undefined | .null | .boolean _ | .number _ | .string _ =>
    exact fun s hs _ => ⟨hs, le_refl _⟩

theorem linked_putProperty (object : Heap.Value) (name : Bytes) {value : Heap.Value}
    (h : Known w value) : KeepsLinks w (State.putProperty object name value) := by
  have hwrite := linked_write (w := w) object (.property name value) fun v hv => by
    rw [List.mem_singleton.mp hv]
    exact h
  match object with
  | .object (some o) => exact hwrite
  | .object none | .undefined | .null | .boolean _ | .number _ | .string _ => exact hwrite

theorem linked_setProperty (o : ObjectId) (name : Bytes) {value : Heap.Value} (h : Known w value) :
    KeepsLinks w (State.setProperty o name value) := by
  refine linked_modifyObject o (fun _ => rfl) fun w' object hw hobject =>
    within_write hobject fun v hv => ?_
  have heq : v = value := by
    unfold Heap.Object.propertyWrite at hv
    split at hv
    · split at hv <;> exact List.mem_singleton.mp hv
    · exact List.mem_singleton.mp hv
  rw [heq]
  exact h.mono hw

theorem linked_setEntries (object : Heap.Value) (entries : List (Heap.Value × Heap.Value))
    (h : ∀ entry ∈ entries, Known w entry.1 ∧ Known w entry.2) :
    KeepsLinks w (State.setEntries object entries) := by
  match object with
  | .object (some o) =>
    exact linked_modifyObject o (fun _ => rfl) fun w' object hw hobject =>
      ⟨hobject.contents, fun entry hentry =>
        ⟨(h entry hentry).1.mono hw, (h entry hentry).2.mono hw⟩, hobject.promise, hobject.callee⟩
  | .object none | .undefined | .null | .boolean _ | .number _ | .string _ =>
    exact fun s hs _ => ⟨hs, le_refl _⟩

/-! ### Promises -/

theorem linked_setPromise (o : ObjectId) (data : PromiseData) (h : data.Within w) :
    KeepsLinks w (State.setPromise o data) :=
  linked_modifyObject o (fun _ => rfl) fun w' object hw hobject =>
    ⟨hobject.contents, hobject.entries, fun data' hdata => by
      rw [← Option.some.inj hdata]
      exact h.mono hw, hobject.callee⟩

theorem linked_scheduleMicrotask {task : Microtask} (h : task.Within w) :
    KeepsLinks w (State.scheduleMicrotask task) := by
  intro s hs hw
  refine ⟨linked_microtasks hs fun task' htask => ?_, le_refl _⟩
  rcases List.mem_append.mp htask with htask | htask
  · exact hs.microtasks task' htask
  · rw [List.mem_singleton.mp htask]
    exact h.mono hw

theorem linked_addHandlers (o : ObjectId) (handlers : Heap.Value × Heap.Value)
    (h : Known w handlers.1 ∧ Known w handlers.2) :
    KeepsLinks w (State.addHandlers o handlers) := by
  refine linked_modifyObject o (fun _ => rfl) fun w' object hw hobject =>
    ⟨hobject.contents, hobject.entries, fun data hdata => ?_, hobject.callee⟩
  obtain ⟨old, hold, rfl⟩ := Option.map_eq_some_iff.mp hdata
  refine ⟨(hobject.promise old hold).value, fun handlers' hmem => ?_⟩
  rcases List.mem_append.mp hmem with hmem | hmem
  · exact (hobject.promise old hold).handlers handlers' hmem
  · rw [List.mem_singleton.mp hmem]
    exact ⟨h.1.mono hw, h.2.mono hw⟩

theorem promise_lt {s : State} {o : ObjectId} {data : PromiseData}
    (h : s.promise (.object (some o)) = some data) : o < s.objects.length := by
  obtain ⟨object, hobject, _⟩ := Option.bind_eq_some_iff.mp h
  exact (List.getElem?_eq_some_iff.mp hobject).1

theorem linked_settlePromise (o : ObjectId) (rejected : Bool) {value : Heap.Value}
    (hvalue : Known w value) : KeepsLinks w (State.settlePromise o rejected value) := by
  intro s hs hw
  unfold State.settlePromise
  split
  next => exact ⟨hs, le_refl _⟩
  next data hdata =>
    have hwithin := hs.promise hdata
    split
    next =>
      have hset := linked_setPromise (w := s.extent) o
        { status := settledStatus rejected, value := value }
        ⟨hvalue.mono hw, fun _ hhandlers => nomatch hhandlers⟩ s hs (le_refl _)
      refine ⟨linked_microtasks hset.1 fun task htask => ?_, hset.2⟩
      rcases List.mem_append.mp htask with htask | htask
      · exact (hs.microtasks task htask).mono hset.2
      · obtain ⟨handlers, hhandlers, rfl⟩ := List.mem_map.mp htask
        refine Microtask.Within.mono hset.2 ⟨promise_lt hdata, ?_, hvalue.mono hw⟩
        show Known s.extent (if rejected then handlers.2 else handlers.1)
        split
        · exact (hwithin.handlers handlers hhandlers).2
        · exact (hwithin.handlers handlers hhandlers).1
    next => exact ⟨hs, le_refl _⟩

theorem linked_fulfilledPromise {value : Heap.Value} (h : Known w value) :
    MakesLinked w Known (State.fulfilledPromise value) := by
  intro s hs hw
  obtain ⟨hs', hle, hpromise⟩ := linked_makePromise s hs hw
  obtain ⟨hs'', hle'⟩ := linked_settlePromise s.objects.length false h _ hs' (hw.trans hle)
  exact ⟨hs'', hle.trans hle', hpromise.mono hle'⟩

theorem linked_finishHandler {derived : ObjectId} (hderived : derived < w.objects)
    {result : Heap.Value} (hresult : Known w result) :
    KeepsLinks w (State.finishHandler derived result) := by
  intro s hs hw
  have hcaptured : ∀ {w' : Extent} (name : Bytes), w ≤ w' →
      ∀ value ∈ (⟨name, [.object (some derived)]⟩ : Native).captured, Known w' value := by
    intro w' name hle value hvalue
    rw [List.mem_singleton.mp hvalue]
    exact known_object (hderived.trans_le hle.2)
  unfold State.finishHandler
  split
  next returned data hdata =>
    have hwithin := hs.promise hdata
    split
    next =>
      -- a promise that is still pending: `derived` is to follow it
      obtain ⟨hs₁, hle₁, hfulfill⟩ :=
        linked_makeNative (hcaptured (lit "fulfill") hw) s hs (le_refl _)
      obtain ⟨hs₂, hle₂, hreject⟩ := linked_makeNative
        (hcaptured (lit "reject") (hw.trans hle₁)) _ hs₁ (le_refl _)
      have hhandlers : ∀ handlers ∈ data.handlers ++ [(_, _)], _ ∧ _ := fun handlers hmem => by
        rcases List.mem_append.mp hmem with hmem | hmem
        · exact ⟨(hwithin.handlers handlers hmem).1.mono (hle₁.trans hle₂),
            (hwithin.handlers handlers hmem).2.mono (hle₁.trans hle₂)⟩
        · rw [List.mem_singleton.mp hmem]
          exact ⟨hfulfill.mono hle₂, hreject⟩
      obtain ⟨hs₃, hle₃⟩ := linked_setPromise returned
        { data with handlers := data.handlers ++ [(_, _)] }
        ⟨hwithin.value.mono (hle₁.trans hle₂), hhandlers⟩ _ hs₂ (le_refl _)
      exact ⟨hs₃, hle₁.trans (hle₂.trans hle₃)⟩
    next => exact linked_settlePromise derived _ hwithin.value s hs (le_refl _)
  next => exact linked_settlePromise derived false hresult s hs hw

end

end Aetheris.Js.Script
