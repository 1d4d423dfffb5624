import Aetheris.FromChars
import Aetheris.Js.Json
import Aetheris.Library.Descent
import Aetheris.Library.Runs

/-!
# Values in the heap of a script

The values of `js.hpp` as they are: a value that is an object points to it, and a script can write
to an object that it has.  `to_string` and `json_write` follow the pointers, so they may be called
within themselves without end; `fuel` bounds the depth of these calls.

They return for a value exactly if following what is printed of it ends.  An event of a script
breaks this only by storing a value where it would be printed as a part of itself, so a run keeps it
as long as no event does.
-/

namespace Aetheris.Js.Heap

open Aetheris.Descent

/-! ## Values and objects -/

/-- An object, named by its place in the order of creation. -/
abbrev ObjectId := ℕ

/-- `Value`. -/
inductive Value
  | undefined
  | null
  | boolean (value : Bool)
  | number (value : Number)
  | string (value : Bytes)
  /-- `none` is the null pointer. -/
  | object (object : Option ObjectId)
  deriving DecidableEq, Repr

/-- `is_undefined`. -/
def Value.isUndefined (v : Value) : Bool := v == .undefined

theorem not_both_function {b : Bool} (h : false = true) : b = false := by cases h

theorem not_both_array {b : Bool} (_ : b = true) : false = false := rfl

/-- `Object`, without what is not printed. -/
structure Object where
  isArray : Bool := false
  isFunction : Bool := false
  elements : List Value := []
  /-- In the order of `std::map`. -/
  properties : List (Bytes × Value) := []
  /-- Both flags are set where an object is made, and never both of them. -/
  one_kind : isArray = true → isFunction = false := by
    first | exact Aetheris.Js.Heap.not_both_array | exact Aetheris.Js.Heap.not_both_function
  deriving DecidableEq

/-- The objects that there are. -/
abbrev Store := List Object

namespace Store

/-- The object that a value points to. -/
def deref (heap : Store) : Value → Option Object
  | .object (some o) => heap[o]?
  | _ => none

/-- `value.is_object() && value.object && value.object->is_function`. -/
def isFunction (heap : Store) (v : Value) : Bool :=
  match heap.deref v with
  | some object => object.isFunction
  | none => false

/-- A value that there can be: what it points to exists. -/
def knows (heap : Store) : Value → Bool
  | .object (some o) => o < heap.length
  | _ => true

end Store

/-! ## Printing -/

/-- `to_string`. -/
def toText (heap : Store) : ℕ → Value → Option Bytes
  | 0, _ => none
  | fuel + 1, v =>
    match v with
    | .undefined => some (lit "undefined")
    | .null => some (lit "null")
    | .boolean value => some (if value then lit "true" else lit "false")
    | .number value => some (numberToString value)
    | .string value => some value
    | .object _ =>
      match heap.deref v with
      | none => some (lit "[object Object]")
      | some object =>
        if object.isArray then do
          let texts ← object.elements.mapM fun element =>
            if element.isUndefined then some [] else toText heap fuel element
          return chr '[' :: ([chr ','].intercalate texts ++ [chr ']'])
        else if object.isFunction then some (lit "function")
        else some (lit "[object Object]")

/-- `json_write`. -/
def jsonWrite (heap : Store) : ℕ → Value → Option Bytes
  | 0, _ => none
  | fuel + 1, v =>
    match v with
    | .undefined | .null => some (lit "null")
    | .boolean value => some (if value then lit "true" else lit "false")
    | .number value => some (numberToString value)
    | .string value => some (jsonEscape value)
    | .object _ =>
      match heap.deref v with
      | none => some (lit "null")
      | some object =>
        if object.isFunction then some (lit "null")
        else if object.isArray then do
          let texts ← object.elements.mapM (jsonWrite heap fuel)
          return chr '[' :: ([chr ','].intercalate texts ++ [chr ']'])
        else do
          let texts ← (object.properties.filter fun p => !heap.isFunction p.2).mapM fun p => do
            let text ← jsonWrite heap fuel p.2
            return jsonEscape p.1 ++ chr ':' :: text
          return chr '\x7b' :: ([chr ','].intercalate texts ++ [chr '\x7d'])

/-- Both functions return for every value, with a stack that is high enough. -/
def Terminates (heap : Store) : Prop :=
  ∀ v, (∃ fuel, (toText heap fuel v).isSome) ∧ ∃ fuel, (jsonWrite heap fuel v).isSome

/-! ## What a script does -/

/-- The index of an array element that `set_property` takes a name for: `strtol` reads all of it,
and the number is not negative. -/
def arrayIndex (name : Bytes) : Option ℕ :=
  let text := (name.takeWhile (· ≠ 0)).dropWhile isSpace
  let negative := text.head? = some (chr '-')
  let rest := if negative ∨ text.head? = some (chr '+') then text.tail else text
  let digits := leadingDigits 10 rest
  if digits = [] ∨ digits.length ≠ rest.length then none
  else if negative then if numberOf 10 digits = 0 then some 0 else none
  else some (min (2 ^ 63 - 1) (numberOf 10 digits))

/-- `properties[name] = value`, in the order of `std::map`. -/
def setEntry (name : Bytes) (value : Value) : List (Bytes × Value) → List (Bytes × Value)
  | [] => [(name, value)]
  | (other, property) :: rest =>
    if name < other then (name, value) :: (other, property) :: rest
    else if other < name then (other, property) :: setEntry name value rest
    else (other, value) :: rest

/-- What is written to an object. -/
inductive Write
  /-- `elements.resize`, if need be, and `elements[index] = value`. -/
  | element (index : ℕ) (value : Value)
  /-- `properties[name] = value`. -/
  | property (name : Bytes) (value : Value)
  /-- `elements.push_back`, for each of the values. -/
  | push (values : List Value)
  /-- `elements.pop_back`. -/
  | pop
  /-- `elements.erase`. -/
  | erase (index : ℕ)
  /-- `std::reverse` or `std::sort`. -/
  | rearrange (elements : List Value)
  deriving DecidableEq

/-- The values that are written. -/
def Write.values : Write → List Value
  | .element _ value => [value]
  | .property _ value => [value]
  | .push values => values
  | .pop | .erase _ | .rearrange _ => []

namespace Object

/-- The elements, as many as are needed for the index. -/
def resized (object : Object) (index : ℕ) : List Value :=
  object.elements ++ List.replicate (index + 1 - object.elements.length) .undefined

/-- `index + 1`, which is a `long` and only computed for a new element, fits in one. -/
def ResizeFits (object : Object) (index : ℕ) : Prop :=
  index < object.elements.length ∨ index + 1 < 2 ^ 63

/-- An object is written to. -/
def write (object : Object) : Write → Object
  | .element index value =>
    { object with elements := (object.resized index).set index value }
  | .property name value => { object with properties := setEntry name value object.properties }
  | .push values => { object with elements := object.elements ++ values }
  | .pop => { object with elements := object.elements.dropLast }
  | .erase index => { object with elements := object.elements.eraseIdx index }
  | .rearrange elements =>
    if elements.Perm object.elements then { object with elements := elements } else object

/-- What `set_property` writes. -/
def propertyWrite (object : Object) (name : Bytes) (value : Value) : Write :=
  if object.isArray then
    match arrayIndex name with
    | some index => .element index value
    | none => .property name value
  else .property name value

/-- The values that an object holds. -/
def values (object : Object) : List Value :=
  object.elements ++ object.properties.map Prod.snd

end Object

/-- What can happen next. -/
inductive Event
  /-- A new object: a literal, a function, what a native function or `JSON.parse` returns. -/
  | allocate (object : Object)
  /-- `set_property`, in an assignment. -/
  | setProperty (object : Value) (name : Bytes) (value : Value)
  /-- A method of a class, or the first event listener: `properties[name] = value`. -/
  | define (o : ObjectId) (name : Bytes) (value : Value)
  /-- `push` of an array, `add` of a `Set`, or an event listener. -/
  | push (o : ObjectId) (values : List Value)
  /-- `pop` of an array. -/
  | pop (o : ObjectId)
  /-- `delete` of a `Set`. -/
  | erase (o : ObjectId) (index : ℕ)
  /-- `reverse` or `sort` of an array. -/
  | rearrange (o : ObjectId) (elements : List Value)
  deriving DecidableEq

/-- The object that an event writes to, and what it writes. -/
def target (heap : Store) : Event → Option (ObjectId × Write)
  | .allocate _ => none
  | .setProperty (.object (some o)) name value =>
    heap[o]?.map fun object => (o, object.propertyWrite name value)
  | .setProperty _ _ _ => none
  | .define o name value => some (o, .property name value)
  | .push o values => some (o, .push values)
  | .pop o => some (o, .pop)
  | .erase o index => some (o, .erase index)
  | .rearrange o elements => some (o, .rearrange elements)

/-- What an event does; `none` where the script has no such values. -/
def step (heap : Store) (e : Event) : Option Store :=
  match e with
  | .allocate object => if object.values.all heap.knows then some (heap ++ [object]) else none
  | _ =>
    match target heap e with
    | some (o, w) =>
      if w.values.all heap.knows then some (heap.modify o (Object.write · w)) else none
    | none => some heap

/-! ## What is printed of a value -/

section Printing

variable (heap : Store)

/-- The values that `to_string` calls itself on. -/
def textChildren (v : Value) : List Value :=
  match heap.deref v with
  | some object => if object.isArray then object.elements.filter (!·.isUndefined) else []
  | none => []

/-- The values of an object that `json_write` calls itself on. -/
def printed (object : Object) : List Value :=
  if object.isFunction then []
  else if object.isArray then object.elements
  else (object.properties.map Prod.snd).filter (!heap.isFunction ·)

/-- The values that `json_write` calls itself on. -/
def jsonChildren (v : Value) : List Value :=
  match heap.deref v with
  | some object => printed heap object
  | none => []

theorem isSome_mapM {α : Type*} {β γ : Type} {f : α → Option β} {g : List β → γ} :
    ∀ {l : List α}, (l.mapM f >>= fun texts => some (g texts)).isSome ↔ ∀ x ∈ l, (f x).isSome
  | [] => by simp
  | x :: l => by
    rw [List.mapM_cons, List.forall_mem_cons, ← isSome_mapM (g := id)]
    cases f x with
    | none => simp
    | some y =>
      cases l.mapM f with
      | none => simp
      | some ys => simp

/-- **`to_string` returns where its calls are not nested deeper than the stack is high.** -/
theorem isSome_toText_iff {fuel : ℕ} {v : Value} :
    (toText heap fuel v).isSome ↔ Within (textChildren heap) fuel v := by
  induction fuel generalizing v with
  | zero => simp [toText, Within]
  | succ fuel ih =>
    cases v with
    | object o =>
      rw [toText, Within, textChildren]
      cases heap.deref (.object o) with
      | none => simp
      | some object =>
        dsimp only
        by_cases harray : object.isArray
        · rw [if_pos harray, if_pos harray, List.forall_mem_filter]
          refine isSome_mapM.trans (forall₂_congr fun b _ => ?_)
          cases hb : b.isUndefined
          · simp [ih]
          · simp
        · cases hfunction : object.isFunction
          · simp [harray]
          · simp [harray]
    | _ => simp [toText, Within, textChildren, Store.deref]

/-- **`json_write` returns where its calls are not nested deeper than the stack is high.** -/
theorem isSome_jsonWrite_iff {fuel : ℕ} {v : Value} :
    (jsonWrite heap fuel v).isSome ↔ Within (jsonChildren heap) fuel v := by
  induction fuel generalizing v with
  | zero => simp [jsonWrite, Within]
  | succ fuel ih =>
    cases v with
    | object o =>
      rw [jsonWrite, Within, jsonChildren]
      cases heap.deref (.object o) with
      | none => simp
      | some object =>
        dsimp only [printed]
        by_cases hfunction : object.isFunction
        · simp [hfunction]
        · rw [if_neg hfunction, if_neg hfunction]
          by_cases harray : object.isArray
          · rw [if_pos harray, if_pos harray]
            exact isSome_mapM.trans (forall₂_congr fun b _ => ih)
          · rw [if_neg harray, if_neg harray, List.forall_mem_filter, List.forall_mem_map]
            refine isSome_mapM.trans ?_
            rw [List.forall_mem_filter]
            refine forall₂_congr fun p _ => imp_congr_right fun _ => ?_
            rw [← ih]
            cases jsonWrite heap fuel p.2 with
            | none => simp
            | some text => simp
    | _ => simp [jsonWrite, Within, jsonChildren, Store.deref]

/-- What `to_string` follows is followed by `json_write` as well. -/
theorem textChildren_subset (v : Value) : textChildren heap v ⊆ jsonChildren heap v := by
  intro b hb
  unfold textChildren at hb
  unfold jsonChildren printed
  cases hv : heap.deref v with
  | none =>
    rw [hv] at hb
    cases hb
  | some object =>
    simp only [hv] at hb ⊢
    split at hb
    next harray =>
      rw [object.one_kind harray, if_neg Bool.false_ne_true, if_pos harray]
      exact List.mem_of_mem_filter hb
    next => exact nomatch hb

/-- **Both functions return for all values where following what is printed always ends.** -/
theorem terminates_iff : Terminates heap ↔ WellFounded (Below (jsonChildren heap)) := by
  constructor
  · intro h
    refine ⟨fun v => acc_iff_within.mpr ?_⟩
    obtain ⟨fuel, hfuel⟩ := (h v).2
    exact ⟨fuel, (isSome_jsonWrite_iff heap).mp hfuel⟩
  · intro h v
    have hsub : Subrelation (Below (textChildren heap)) (Below (jsonChildren heap)) :=
      fun {b a} hb => textChildren_subset heap a hb
    obtain ⟨m, hm⟩ := acc_iff_within.mp (hsub.accessible (h.apply v))
    obtain ⟨n, hn⟩ := acc_iff_within.mp (h.apply v)
    exact ⟨⟨m, (isSome_toText_iff heap).mpr hm⟩, n, (isSome_jsonWrite_iff heap).mpr hn⟩

end Printing

/-! ## What is stored -/

/-- The values that a write stores where they are printed as a part of the object: an element of
an array, and a property that is no function of an object that is neither an array nor a function
itself. -/
def Object.stored (heap : Store) (object : Object) : Write → List Value
  | .element _ value => if object.isArray then [value] else []
  | .property _ value =>
    if object.isArray || object.isFunction || heap.isFunction value then [] else [value]
  | .push values => if object.isArray then values else []
  | .pop | .erase _ | .rearrange _ => []

/-- The event stores nothing that leads back to the object it is stored in. -/
def Safe (heap : Store) (e : Event) : Prop :=
  ∀ o w object, target heap e = some (o, w) → heap[o]? = some object →
    ∀ v ∈ object.stored heap w, ¬ Leads (jsonChildren heap) v (.object (some o))

theorem mem_setEntry_iff (name : Bytes) (value v : Value) :
    ∀ {properties : List (Bytes × Value)},
      v ∈ (setEntry name value properties).map Prod.snd →
        v = value ∨ v ∈ properties.map Prod.snd
  | [], h => by
    rw [setEntry, List.map_singleton, List.mem_singleton] at h
    exact Or.inl h
  | (other, property) :: rest, h => by
    rw [setEntry] at h
    split at h
    · rw [List.map_cons, List.mem_cons] at h
      exact h
    · split at h
      · rw [List.map_cons, List.mem_cons] at h
        rcases h with rfl | h
        · exact Or.inr List.mem_cons_self
        · exact (mem_setEntry_iff name value v h).imp_right (List.mem_cons_of_mem _)
      · rw [List.map_cons, List.mem_cons] at h
        exact h.imp_right (List.mem_cons_of_mem _)

theorem mem_setEntry_self (name : Bytes) (value : Value) :
    ∀ properties : List (Bytes × Value), value ∈ (setEntry name value properties).map Prod.snd
  | [] => List.mem_singleton_self value
  | (other, property) :: rest => by
    rw [setEntry]
    split
    · exact List.mem_cons_self
    · split
      · exact List.mem_cons_of_mem _ (mem_setEntry_self name value rest)
      · exact List.mem_cons_self

namespace Object

variable (object : Object) (w : Write)

@[simp] theorem isArray_write : (object.write w).isArray = object.isArray := by
  cases w with
  | rearrange elements =>
    rw [write]
    split <;> rfl
  | _ => rfl

@[simp] theorem isFunction_write : (object.write w).isFunction = object.isFunction := by
  cases w with
  | rearrange elements =>
    rw [write]
    split <;> rfl
  | _ => rfl

/-- The elements after a write. -/
theorem mem_elements_write {v : Value} (h : v ∈ (object.write w).elements) :
    v ∈ object.elements ∨ v = .undefined ∨
      match w with
      | .element _ value => v = value
      | .push values => v ∈ values
      | _ => False := by
  cases w with
  | element index value =>
    rcases List.mem_or_eq_of_mem_set h with h | h
    · rcases List.mem_append.mp h with h | h
      · exact Or.inl h
      · exact Or.inr (Or.inl (List.eq_of_mem_replicate h))
    · exact Or.inr (Or.inr h)
  | property name value => exact Or.inl h
  | push values => exact (List.mem_append.mp h).imp_right Or.inr
  | pop => exact Or.inl (List.mem_of_mem_dropLast h)
  | erase index => exact Or.inl (List.mem_of_mem_eraseIdx h)
  | rearrange elements =>
    rw [write] at h
    split at h
    next hperm => exact Or.inl (hperm.mem_iff.mp h)
    next => exact Or.inl h

/-- The properties after a write. -/
theorem mem_properties_write {v : Value} (h : v ∈ (object.write w).properties.map Prod.snd) :
    v ∈ object.properties.map Prod.snd ∨
      match w with
      | .property _ value => v = value
      | _ => False := by
  cases w with
  | property name value => exact (mem_setEntry_iff name value v h).symm
  | rearrange elements =>
    rw [write] at h
    split at h <;> exact Or.inl h
  | _ => exact Or.inl h

/-- Nothing is in an object that was not in it, has not been written, and is not `undefined`. -/
theorem mem_values_write {v : Value} (h : v ∈ (object.write w).values) :
    v ∈ object.values ∨ v ∈ w.values ∨ v = .undefined := by
  rcases List.mem_append.mp h with h | h
  · rcases object.mem_elements_write w h with h | h | h
    · exact Or.inl (List.mem_append_left _ h)
    · exact Or.inr (Or.inr h)
    · refine Or.inr (Or.inl ?_)
      cases w with
      | element index value => exact List.mem_singleton.mpr h
      | push values => exact h
      | _ => exact h.elim
  · rcases object.mem_properties_write w h with h | h
    · exact Or.inl (List.mem_append_right _ h)
    · refine Or.inr (Or.inl ?_)
      cases w with
      | property name value => exact List.mem_singleton.mpr h
      | _ => exact h.elim

/-- What is printed of an object after a write. -/
theorem mem_printed_write (heap : Store) {v : Value} (h : v ∈ printed heap (object.write w)) :
    v ∈ printed heap object ∨ v ∈ object.stored heap w ∨ v = .undefined := by
  unfold printed at h ⊢
  rw [isFunction_write, isArray_write] at h
  split at h
  next => exact nomatch h
  next hfunction =>
    rw [if_neg hfunction]
    split at h
    next harray =>
      rw [if_pos harray]
      rcases object.mem_elements_write w h with h | h | h
      · exact Or.inl h
      · exact Or.inr (Or.inr h)
      · refine Or.inr (Or.inl ?_)
        cases w with
        | element index value =>
          rw [stored, if_pos harray]
          exact List.mem_singleton.mpr h
        | push values =>
          rw [stored, if_pos harray]
          exact h
        | _ => exact h.elim
    next harray =>
      rw [if_neg harray]
      obtain ⟨hv, hkind⟩ := List.mem_filter.mp h
      rcases object.mem_properties_write w hv with hv | hv
      · exact Or.inl (List.mem_filter.mpr ⟨hv, hkind⟩)
      · refine Or.inr (Or.inl ?_)
        cases w with
        | property name value =>
          rw [hv, Bool.not_eq_true'] at hkind
          rw [hv]
          simp [stored, harray, hfunction, hkind]
        | _ => exact hv.elim

/-- What is stored where it is printed is printed. -/
theorem mem_printed_of_mem_stored (heap : Store) {v : Value} (h : v ∈ object.stored heap w) :
    v ∈ printed heap (object.write w) := by
  unfold printed
  rw [isFunction_write, isArray_write]
  cases w with
  | element index value =>
    rw [stored] at h
    split at h
    next harray =>
      rw [object.one_kind harray, if_neg Bool.false_ne_true, if_pos harray,
        List.mem_singleton.mp h]
      have hlength : index < (object.resized index).length := by
        rw [resized, List.length_append, List.length_replicate]
        omega
      exact List.mem_set hlength value
    next => exact nomatch h
  | property name value =>
    rw [stored] at h
    split at h
    next => exact nomatch h
    next hkind =>
      simp only [Bool.or_eq_true, not_or, Bool.not_eq_true] at hkind
      rw [hkind.1.2, hkind.1.1, if_neg Bool.false_ne_true, if_neg Bool.false_ne_true,
        List.mem_singleton.mp h]
      exact List.mem_filter.mpr ⟨mem_setEntry_self name value _, by rw [hkind.2]; rfl⟩
  | push values =>
    rw [stored] at h
    split at h
    next harray =>
      rw [object.one_kind harray, if_neg Bool.false_ne_true, if_pos harray]
      exact List.mem_append_right _ h
    next => exact nomatch h
  | pop => cases h
  | erase index => cases h
  | rearrange elements => cases h

end Object

/-! ## Heaps that belong together -/

section Modify

variable {heap : Store} {o : ObjectId} {object : Object} (ho : heap[o]? = some object) (w : Write)

/-- An object written to is found with what it holds now. -/
theorem deref_modify (v : Value) :
    Store.deref (heap.modify o (Object.write · w)) v =
      if v = .object (some o) then (heap.deref v).map (Object.write · w) else heap.deref v := by
  cases v with
  | object target =>
    cases target with
    | none => simp [Store.deref]
    | some q =>
      rw [Store.deref, Store.deref, List.getElem?_modify]
      by_cases hq : o = q
      · subst hq
        simp
      · have hne : q ≠ o := Ne.symm hq
        simp [hq, hne]
  | _ => simp [Store.deref]

@[simp] theorem isFunction_modify (v : Value) :
    Store.isFunction (heap.modify o (Object.write · w)) v = heap.isFunction v := by
  unfold Store.isFunction
  rw [deref_modify]
  by_cases hv : v = .object (some o)
  · rw [if_pos hv]
    cases heap.deref v with
    | none => rfl
    | some object => exact object.isFunction_write w
  · rw [if_neg hv]

@[simp] theorem printed_modify (object : Object) :
    printed (heap.modify o (Object.write · w)) object = printed heap object := by
  simp only [printed, isFunction_modify]

theorem jsonChildren_modify_of_ne (v : Value) (hv : v ≠ .object (some o)) :
    jsonChildren (heap.modify o (Object.write · w)) v = jsonChildren heap v := by
  simp only [jsonChildren, deref_modify, if_neg hv, printed_modify]

include ho

theorem jsonChildren_modify_self :
    jsonChildren (heap.modify o (Object.write · w)) (.object (some o)) =
      printed heap (object.write w) := by
  rw [jsonChildren, deref_modify, if_pos rfl, Store.deref, ho, Option.map_some]
  exact printed_modify w _

omit ho in
/-- What leads to an object is not `undefined`. -/
theorem not_leads_undefined : ¬ Leads (jsonChildren heap) .undefined (.object (some o)) := by
  intro h
  rcases Relation.ReflTransGen.cases_head h with h | ⟨b, hb, -⟩
  · cases h
  · cases hb

theorem wellFounded_modify (hends : WellFounded (Below (jsonChildren heap)))
    (hsafe : ∀ v ∈ object.stored heap w, ¬ Leads (jsonChildren heap) v (.object (some o))) :
    WellFounded (Below (jsonChildren (heap.modify o (Object.write · w)))) := by
  refine wellFounded_update (jsonChildren_modify_of_ne w) hends fun b hb => ?_
  rw [jsonChildren_modify_self ho w] at hb
  rcases object.mem_printed_write w heap hb with hb | hb | rfl
  · refine Or.inl ?_
    rw [jsonChildren, Store.deref, ho]
    exact hb
  · exact Or.inr (hsafe b hb)
  · exact Or.inr not_leads_undefined

theorem not_wellFounded_modify {v : Value} (hv : v ∈ object.stored heap w)
    (hleads : Leads (jsonChildren heap) v (.object (some o))) :
    ¬ WellFounded (Below (jsonChildren (heap.modify o (Object.write · w)))) := by
  intro h
  refine not_acc_update (jsonChildren_modify_of_ne w) ?_ hleads (h.apply _)
  rw [jsonChildren_modify_self ho w]
  exact object.mem_printed_of_mem_stored w heap hv

end Modify

/-- The invariant: all values in objects are there, and following what is printed always ends. -/
structure Inv (heap : Store) : Prop where
  closed : ∀ object ∈ heap, ∀ v ∈ object.values, heap.knows v = true
  ends : WellFounded (Below (jsonChildren heap))

theorem mem_values_of_mem_printed {heap : Store} {object : Object} {v : Value}
    (h : v ∈ printed heap object) : v ∈ object.values := by
  unfold printed at h
  split at h
  · cases h
  · split at h
    · exact List.mem_append_left _ h
    · exact List.mem_append_right _ (List.mem_of_mem_filter h)

section Allocate

variable {heap : Store} (hclosed : ∀ object ∈ heap, ∀ v ∈ object.values, heap.knows v = true)

theorem deref_append {object : Object} {v : Value} (hv : heap.knows v = true) :
    Store.deref (heap ++ [object]) v = heap.deref v := by
  cases v with
  | object target =>
    cases target with
    | none => rfl
    | some o => exact List.getElem?_append_left (of_decide_eq_true hv)
  | _ => rfl

theorem knows_append {object : Object} {v : Value} (hv : heap.knows v = true) :
    Store.knows (heap ++ [object]) v = true := by
  cases v with
  | object target =>
    cases target with
    | none => rfl
    | some o =>
      simp only [Store.knows, decide_eq_true_eq, List.length_append] at hv ⊢
      exact Nat.lt_add_right _ hv
  | _ => rfl

/-- An object whose values are there is printed in the same way with one object more. -/
theorem printed_append {object old : Object} (hvalues : ∀ v ∈ old.values, heap.knows v = true) :
    printed (heap ++ [object]) old = printed heap old := by
  unfold printed
  have hfilter : (old.properties.map Prod.snd).filter (!Store.isFunction (heap ++ [object]) ·) =
      (old.properties.map Prod.snd).filter (!heap.isFunction ·) := by
    refine List.filter_congr fun v hv => ?_
    rw [Store.isFunction, deref_append (hvalues v (List.mem_append_right _ hv)), Store.isFunction]
  rw [hfilter]

include hclosed

theorem knows_of_leads {a b : Value} (h : Leads (jsonChildren heap) a b)
    (ha : heap.knows a = true) : heap.knows b = true := by
  induction h with
  | refl => exact ha
  | @tail b c _ hbc _ =>
    have hmem : c ∈ jsonChildren heap b := hbc
    unfold jsonChildren at hmem
    split at hmem
    next object hobject =>
      refine hclosed object ?_ c (mem_values_of_mem_printed hmem)
      cases b with
      | object target =>
        cases target with
        | none => cases hobject
        | some o => exact List.mem_of_getElem? hobject
      | _ => cases hobject
    next => exact nomatch hmem

theorem wellFounded_append (hends : WellFounded (Below (jsonChildren heap))) {object : Object}
    (hvalues : ∀ v ∈ object.values, heap.knows v = true) :
    WellFounded (Below (jsonChildren (heap ++ [object]))) := by
  have hagree : ∀ v, v ≠ .object (some heap.length) →
      jsonChildren (heap ++ [object]) v = jsonChildren heap v := by
    intro v hv
    unfold jsonChildren
    have hderef : Store.deref (heap ++ [object]) v = heap.deref v := by
      cases v with
      | object target =>
        cases target with
        | none => rfl
        | some o =>
          have hne : o ≠ heap.length := fun h => hv (h ▸ rfl)
          rcases Nat.lt_or_gt_of_ne hne with ho | ho
          · exact List.getElem?_append_left ho
          · simp only [Store.deref]
            rw [List.getElem?_eq_none (by simp; omega), List.getElem?_eq_none (by omega)]
      | _ => rfl
    rw [hderef]
    cases hobject : heap.deref v with
    | none => rfl
    | some old =>
      refine printed_append (hclosed old ?_)
      cases v with
      | object target =>
        cases target with
        | none => cases hobject
        | some o => exact List.mem_of_getElem? hobject
      | _ => cases hobject
  refine wellFounded_update hagree hends fun b hb => Or.inr fun hleads => ?_
  -- A value that there was cannot lead to the new object.
  have hb' : b ∈ printed (heap ++ [object]) object := by
    have hderef : Store.deref (heap ++ [object]) (.object (some heap.length)) = some object :=
      List.getElem?_concat_length
    rw [jsonChildren, hderef] at hb
    exact hb
  have hknown := knows_of_leads hclosed hleads (hvalues b (mem_values_of_mem_printed hb'))
  exact Nat.lt_irrefl _ (of_decide_eq_true hknown)

end Allocate

/-! ## Steps and runs -/

/-- All that a step can do. -/
theorem step_cases {heap heap' : Store} {e : Event} (h : step heap e = some heap') :
    (∃ object, target heap e = none ∧ (∀ v ∈ object.values, heap.knows v = true) ∧
        heap' = heap ++ [object]) ∨
      (target heap e = none ∧ heap' = heap) ∨
      ∃ o w, target heap e = some (o, w) ∧ (∀ v ∈ w.values, heap.knows v = true) ∧
        heap' = heap.modify o (Object.write · w) := by
  unfold step at h
  split at h
  next object =>
    split at h
    next hvalues =>
      exact Or.inl ⟨object, rfl, List.all_eq_true.mp hvalues, (Option.some.inj h).symm⟩
    next => exact nomatch h
  next =>
    split at h
    next o w htarget =>
      split at h
      next hvalues =>
        exact Or.inr (Or.inr ⟨o, w, htarget, List.all_eq_true.mp hvalues,
          (Option.some.inj h).symm⟩)
      next => exact nomatch h
    next htarget => exact Or.inr (Or.inl ⟨htarget, (Option.some.inj h).symm⟩)

theorem knows_modify {heap : Store} {o : ObjectId} {w : Write} {v : Value}
    (hv : heap.knows v = true) : Store.knows (heap.modify o (Object.write · w)) v = true := by
  cases v with
  | object target =>
    cases target with
    | none => rfl
    | some q =>
      rw [Store.knows, List.length_modify]
      exact hv
  | _ => rfl

/-- A safe step keeps the invariant. -/
theorem step_inv {heap heap' : Store} {e : Event} (h : Inv heap) (hsafe : Safe heap e)
    (hstep : step heap e = some heap') : Inv heap' := by
  rcases step_cases hstep with ⟨object, -, hvalues, rfl⟩ | ⟨-, rfl⟩ | ⟨o, w, htarget, hvalues, rfl⟩
  · refine ⟨fun old hold v hv => knows_append ?_, wellFounded_append h.closed h.ends hvalues⟩
    rcases List.mem_append.mp hold with hold | hold
    · exact h.closed old hold v hv
    · exact hvalues v (List.mem_singleton.mp hold ▸ hv)
  · exact h
  · cases ho : heap[o]? with
    | none =>
      rw [List.modify_eq_self (List.getElem?_eq_none_iff.mp ho)]
      exact h
    | some object =>
      refine ⟨fun new hnew v hv => knows_modify ?_,
        wellFounded_modify ho w h.ends (hsafe o w object htarget ho)⟩
      obtain ⟨q, hq⟩ := List.mem_iff_getElem?.mp hnew
      rw [List.getElem?_modify] at hq
      obtain ⟨old, hold, hnew⟩ := Option.map_eq_some_iff.mp hq
      have hclosed := h.closed old (List.mem_of_getElem? hold)
      split at hnew
      · subst hnew
        rcases old.mem_values_write w hv with hv | hv | rfl
        · exact hclosed v hv
        · exact hvalues v hv
        · rfl
      · exact hclosed v (hnew ▸ hv)

/-- After a step that is not safe one of the functions does not return for some value. -/
theorem not_terminates_step {heap heap' : Store} {e : Event} (hsafe : ¬ Safe heap e)
    (hstep : step heap e = some heap') : ¬ Terminates heap' := by
  unfold Safe at hsafe
  push Not at hsafe
  obtain ⟨o, w, object, htarget, ho, v, hv, hleads⟩ := hsafe
  rw [terminates_iff]
  rcases step_cases hstep with ⟨object, hnone, -⟩ | ⟨hnone, -⟩ | ⟨o', w', htarget', -, rfl⟩
  · rw [hnone] at htarget
    cases htarget
  · rw [hnone] at htarget
    cases htarget
  · rw [htarget] at htarget'
    obtain ⟨rfl, rfl⟩ := Prod.mk.inj (Option.some.inj htarget')
    exact not_wellFounded_modify ho w hv hleads

theorem inv_nil : Inv [] where
  closed := List.forall_mem_nil _
  ends := by
    refine ⟨fun v => ⟨v, fun b hb => ?_⟩⟩
    have hnone : jsonChildren [] v = [] := by
      unfold jsonChildren Store.deref
      cases v with
      | object target => cases target <;> rfl
      | _ => rfl
    exact absurd (hnone ▸ hb : b ∈ []) List.not_mem_nil

/-- **Printing returns in all heaps of a run exactly when nothing is ever stored in itself.**  The
run begins before `setup_globals`, which makes its objects in the same way as a script. -/
theorem terminates_runs_iff (es : List Event) :
    (∀ heap ∈ Runs.states step [] es, Terminates heap) ↔
      Runs.AlongReturning step Safe [] es :=
  Runs.forall_mem_states_iff (fun heap h => (terminates_iff heap).mpr h.ends)
    (fun _ _ _ h hsafe hstep => step_inv h hsafe hstep)
    (fun _ _ _ _ hsafe hstep => not_terminates_step hsafe hstep) inv_nil

/-- `var a = []; a.push(a)` -/
theorem not_forall_terminates :
    ¬ ∀ es : List Event, ∀ heap ∈ Runs.states step [] es, Terminates heap := by
  intro h
  let array : Object := { isArray := true }
  have hheap := h [.allocate array, .push 0 [.object (some 0)]]
    [array.write (.push [.object (some 0)])] (by decide)
  obtain ⟨fuel, hfuel⟩ := (hheap (.object (some 0))).1
  have hnone : ∀ fuel, toText [array.write (.push [.object (some 0)])] fuel (.object (some 0)) =
      none := by
    intro fuel
    induction fuel with
    | zero => rfl
    | succ fuel ih =>
      rw [toText]
      show (([Value.object (some 0)].mapM fun element => if element.isUndefined then some [] else
        toText [array.write (.push [.object (some 0)])] fuel element) >>= _) = none
      rw [List.mapM_cons, if_neg (by decide), ih]
      rfl
  rw [hnone] at hfuel
  cases hfuel

end Aetheris.Js.Heap
