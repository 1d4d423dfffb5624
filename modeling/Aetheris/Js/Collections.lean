import Aetheris.Js.Natives
import Aetheris.Library.InsertionOrder

/-!
# Maps and sets

The methods of `Map` and `Set` in `js.cpp` look a key up by `same_value`, which compares numbers
with `==` and so does not find a NaN again.  For all other keys it is the SameValueZero of
JavaScript, and a run of calls keeps the entries as the list operations of JavaScript leave them,
different and in the order of insertion, whatever happens to other objects in between.
-/

namespace Aetheris.Js.Script

open InsertionOrder

/-! ## Calls -/

/-- `has` of a `Map`. -/
def mapHas (self : Heap.Value) (arguments : List Heap.Value) (s : State) : Heap.Value × State :=
  match arguments with
  | [] => (.boolean false, s)
  | key :: _ => (.boolean ((s.entriesOf self).any fun entry => sameValue entry.1 key), s)

/-- `has` of a `Set`. -/
def setHas (self : Heap.Value) (arguments : List Heap.Value) (s : State) : Heap.Value × State :=
  match arguments with
  | [] => (.boolean false, s)
  | value :: _ => (.boolean ((s.elementsOf self).any (sameValue · value)), s)

/-- SameValueZero: a NaN is equal to itself. -/
def sameValueZero (a b : Heap.Value) : Bool :=
  sameValue a b || (a == .number .nan && b == .number .nan)

theorem sameValueZero_iff {a b : Heap.Value} : sameValueZero a b = true ↔ a = b := by
  rw [sameValueZero, sameValue, Bool.or_eq_true, Bool.and_eq_true, beq_iff_eq, beq_iff_eq,
    decide_eq_true_iff]
  by_cases ha : a = .number .nan
  · simp [ha, eq_comm]
  · simp [ha]

/-- With something else than NaN the two ways to compare are the same. -/
theorem sameValue_eq {a : Heap.Value} (ha : a ≠ .number .nan) (key : Heap.Value) :
    sameValue a key = decide (a = key) := by
  rw [sameValue, decide_eq_decide]
  exact and_iff_left ha

/-- A call that may change a `Map` or a `Set`. -/
inductive CollectionCall
  | mapSet (arguments : List Heap.Value)
  | mapDelete (arguments : List Heap.Value)
  | setAdd (arguments : List Heap.Value)
  | setDelete (arguments : List Heap.Value)
  deriving DecidableEq

namespace CollectionCall

/-- What the method does. -/
def act (self : Heap.Value) : CollectionCall → State → Heap.Value × State
  | .mapSet arguments => Script.mapSet self arguments
  | .mapDelete arguments => Script.mapDelete self arguments
  | .setAdd arguments => Script.setAdd self arguments
  | .setDelete arguments => Script.setDelete self arguments

/-- What JavaScript makes of a call on a `Map`: a missing argument is `undefined`. -/
def mapOp : CollectionCall → Option (Op Heap.Value Heap.Value)
  | .mapSet arguments => some (.put (arguments.getD 0 .undefined) (arguments.getD 1 .undefined))
  | .mapDelete arguments => some (.remove (arguments.getD 0 .undefined))
  | _ => none

/-- What JavaScript makes of a call on a `Set`. -/
def setOp : CollectionCall → Option (Op Heap.Value Unit)
  | .setAdd arguments => some (.put (arguments.getD 0 .undefined) ())
  | .setDelete arguments => some (.remove (arguments.getD 0 .undefined))
  | _ => none

/-- No argument is left out, and no NaN is put in. -/
def Proper : CollectionCall → Prop
  | .mapSet arguments => 2 ≤ arguments.length ∧ arguments.head? ≠ some (.number .nan)
  | .setAdd arguments => 1 ≤ arguments.length ∧ arguments.head? ≠ some (.number .nan)
  | .mapDelete arguments | .setDelete arguments => 1 ≤ arguments.length

end CollectionCall

/-- The state after calls on objects, one after the other. -/
def afterCalls (s : State) (calls : List (ObjectId × CollectionCall)) : State :=
  calls.foldl (fun s call => (call.2.act (.object (some call.1)) s).2) s

/-- What JavaScript makes of the calls on a `Map`. -/
def mapOps (o : ObjectId) (calls : List (ObjectId × CollectionCall)) :
    List (Op Heap.Value Heap.Value) :=
  calls.filterMap fun call => if call.1 = o then call.2.mapOp else none

/-- What JavaScript makes of the calls on a `Set`. -/
def setOps (o : ObjectId) (calls : List (ObjectId × CollectionCall)) : List (Op Heap.Value Unit) :=
  calls.filterMap fun call => if call.1 = o then call.2.setOp else none

/-- A `Map` is what the calls leave. -/
structure MapAgrees (o : ObjectId) (calls : List (ObjectId × CollectionCall)) (s : State) :
    Prop where
  different : ((s.entriesOf (.object (some o))).map Prod.fst).Pairwise fun a b =>
    sameValueZero a b = false
  reflects : Reflects (mapOps o calls) (s.entriesOf (.object (some o)))
  get : ∀ key, (mapGet (.object (some o)) [key] s).1 =
    (Keyed.get Prod.fst key (s.entriesOf (.object (some o)))).elim .undefined Prod.snd
  has : ∀ key, (mapHas (.object (some o)) [key] s).1 =
    .boolean (key ∈ (s.entriesOf (.object (some o))).map Prod.fst)
  size : member (.object (some o)) (lit "size") s =
    .value (count (s.entriesOf (.object (some o))).length)

/-- A `Set` is what the calls leave. -/
structure SetAgrees (o : ObjectId) (calls : List (ObjectId × CollectionCall)) (s : State) :
    Prop where
  different : (s.elementsOf (.object (some o))).Pairwise fun a b => sameValueZero a b = false
  reflects : Reflects (setOps o calls) ((s.elementsOf (.object (some o))).map (·, ()))
  has : ∀ value, (setHas (.object (some o)) [value] s).1 =
    .boolean (value ∈ s.elementsOf (.object (some o)))
  size : member (.object (some o)) (lit "size") s =
    .value (count (s.elementsOf (.object (some o))).length)

/-! ## What the calls do -/

/-- A list without a NaN is searched as JavaScript does. -/
theorem findIdx?_sameValue {α : Type*} {f : α → Heap.Value} {values : List α}
    (h : .number .nan ∉ values.map f) (key : Heap.Value) :
    values.findIdx? (fun a => sameValue (f a) key) = values.findIdx? fun a => f a = key := by
  induction values with
  | nil => rfl
  | cons a values ih =>
    rw [List.map_cons, List.mem_cons, not_or] at h
    rw [List.findIdx?_cons, List.findIdx?_cons, ih h.2, sameValue_eq (Ne.symm h.1)]

theorem any_sameValue {values : List Heap.Value} (h : .number .nan ∉ values)
    (key : Heap.Value) : values.any (sameValue · key) = decide (key ∈ values) := by
  rw [Bool.eq_iff_iff, List.any_eq_true, decide_eq_true_iff]
  constructor
  · rintro ⟨a, ha, hsame⟩
    rw [sameValue_eq (fun heq => h (heq ▸ ha)), decide_eq_true_iff] at hsame
    exact hsame ▸ ha
  · intro hmem
    refine ⟨key, hmem, ?_⟩
    rw [sameValue_eq (fun heq => h (heq ▸ hmem))]
    exact decide_eq_true rfl

/-- The entries and the elements of an object are what the calls leave of them. -/
structure Kept (o : ObjectId) (calls : List (ObjectId × CollectionCall)) (object : Object) :
    Prop where
  entries : Reflects (mapOps o calls) object.entries
  elements : Reflects (setOps o calls) (object.contents.elements.map (·, ()))
  entries_nan : .number .nan ∉ object.entries.map Prod.fst
  elements_nan : .number .nan ∉ object.contents.elements

section Effects

variable {s : State} {o : ObjectId} {object : Object}

theorem objects_setEntries (h : s.objects[o]? = some object)
    (entries : List (Heap.Value × Heap.Value)) :
    (s.setEntries (.object (some o)) entries).objects[o]? =
      some { object with entries := entries } := by
  rw [State.setEntries, State.modifyObject, List.getElem?_modify, h]
  exact congrArg some (if_pos rfl)

theorem objects_write (h : s.objects[o]? = some object) (w : Heap.Write) :
    (s.write (.object (some o)) w).objects[o]? =
      some { object with contents := object.contents.write w } := by
  rw [State.write, State.modifyObject, List.getElem?_modify, h]
  exact congrArg some (if_pos rfl)

theorem entriesOf_eq (h : s.objects[o]? = some object) :
    s.entriesOf (.object (some o)) = object.entries := by
  rw [State.entriesOf, State.object, h]
  rfl

theorem elementsOf_eq (h : s.objects[o]? = some object) :
    s.elementsOf (.object (some o)) = object.contents.elements := by
  rw [State.elementsOf, State.object, h]
  rfl

theorem objects_mapSet (h : s.objects[o]? = some object)
    (hnan : .number .nan ∉ object.entries.map Prod.fst) (key value : Heap.Value)
    (rest : List Heap.Value) :
    (mapSet (.object (some o)) (key :: value :: rest) s).2.objects[o]? =
      some { object with entries := apply object.entries (.put key value) } := by
  rw [mapSet, findEntry, entriesOf_eq h, findIdx?_sameValue hnan, apply_put_eq]
  cases object.entries.findIdx? fun entry => entry.1 = key with
  | some i => exact objects_setEntries h _
  | none => exact objects_setEntries h _

theorem objects_mapDelete (h : s.objects[o]? = some object)
    (hnan : .number .nan ∉ object.entries.map Prod.fst)
    (hnodup : (object.entries.map Prod.fst).Nodup) (key : Heap.Value) (rest : List Heap.Value) :
    (mapDelete (.object (some o)) (key :: rest) s).2.objects[o]? =
      some { object with entries := apply object.entries (.remove key) } := by
  rw [mapDelete, findEntry, entriesOf_eq h, findIdx?_sameValue hnan, apply_remove_eq hnodup]
  cases object.entries.findIdx? fun entry => entry.1 = key with
  | some i => exact objects_setEntries h _
  | none => exact h

theorem objects_setAdd (h : s.objects[o]? = some object)
    (hnan : .number .nan ∉ object.contents.elements) (value : Heap.Value)
    (rest : List Heap.Value) :
    ∃ elements, elements.map (·, ()) =
        apply (object.contents.elements.map (·, ())) (.put value ()) ∧
      (setAdd (.object (some o)) (value :: rest) s).2.objects[o]? =
        some { object with contents := { object.contents with elements := elements } } := by
  rw [setAdd, elementsOf_eq h, any_sameValue hnan, apply_put_unit]
  by_cases hmem : value ∈ object.contents.elements
  · refine ⟨object.contents.elements, by rw [if_pos hmem], ?_⟩
    rw [decide_eq_true hmem, if_pos rfl]
    exact h
  · refine ⟨object.contents.elements ++ [value], by rw [if_neg hmem], ?_⟩
    rw [decide_eq_false hmem, if_neg Bool.false_ne_true]
    exact objects_write h _

theorem objects_setDelete (h : s.objects[o]? = some object)
    (hnan : .number .nan ∉ object.contents.elements) (hnodup : object.contents.elements.Nodup)
    (value : Heap.Value) (rest : List Heap.Value) :
    ∃ elements, elements.map (·, ()) =
        apply (object.contents.elements.map (·, ())) (.remove value) ∧
      (setDelete (.object (some o)) (value :: rest) s).2.objects[o]? =
        some { object with contents := { object.contents with elements := elements } } := by
  have hsame := findIdx?_sameValue (f := id) (by rwa [List.map_id]) value
  have hkeys : ((object.contents.elements.map (·, ())).map Prod.fst).Nodup := by
    rwa [map_fst_unit]
  rw [setDelete, elementsOf_eq h, apply_remove_eq hkeys, List.findIdx?_map]
  simp only [id] at hsame
  rw [hsame]
  simp only [Function.comp_def]
  cases object.contents.elements.findIdx? fun element => element = value with
  | some i => exact ⟨object.contents.elements.eraseIdx i, (List.eraseIdx_map _ _ _).symm, objects_write h _⟩
  | none => exact ⟨object.contents.elements, rfl, h⟩

end Effects

/-- A call on another object leaves this one as it is. -/
theorem objects_act_of_ne {o p : ObjectId} (hne : p ≠ o) (call : CollectionCall) (s : State) :
    (call.act (.object (some p)) s).2.objects[o]? = s.objects[o]? := by
  have hmodify (t : State) (f : Object → Object) :
      (t.modifyObject p f).objects[o]? = t.objects[o]? := by
    rw [State.modifyObject, List.getElem?_modify]
    simp [hne]
  cases call with
  | mapSet arguments =>
    rw [CollectionCall.act, mapSet.eq_def]
    split
    · split
      · exact hmodify s _
      · exact hmodify s _
    · rfl
  | mapDelete arguments =>
    rw [CollectionCall.act, mapDelete.eq_def]
    split
    · rfl
    · split
      · exact hmodify s _
      · rfl
  | setAdd arguments =>
    rw [CollectionCall.act, setAdd.eq_def]
    split
    · rfl
    · split
      · rfl
      · exact hmodify s _
  | setDelete arguments =>
    rw [CollectionCall.act, setDelete.eq_def]
    split
    · rfl
    · split
      · exact hmodify s _
      · rfl

section Runs

variable {o : ObjectId} {calls : List (ObjectId × CollectionCall)} {object : Object}

theorem mapOps_concat (o : ObjectId) (calls : List (ObjectId × CollectionCall))
    (call : ObjectId × CollectionCall) :
    mapOps o (calls ++ [call]) =
      mapOps o calls ++ (if call.1 = o then call.2.mapOp else none).toList := by
  rw [mapOps, List.filterMap_append, List.filterMap_cons, List.filterMap_nil]
  cases if call.1 = o then call.2.mapOp else none with
  | none => rfl
  | some op => rfl

theorem setOps_concat (o : ObjectId) (calls : List (ObjectId × CollectionCall))
    (call : ObjectId × CollectionCall) :
    setOps o (calls ++ [call]) =
      setOps o calls ++ (if call.1 = o then call.2.setOp else none).toList := by
  rw [setOps, List.filterMap_append, List.filterMap_cons, List.filterMap_nil]
  cases if call.1 = o then call.2.setOp else none with
  | none => rfl
  | some op => rfl

/-- A call on another object. -/
theorem Kept.other (h : Kept o calls object) {call : ObjectId × CollectionCall}
    (hne : call.1 ≠ o) : Kept o (calls ++ [call]) object where
  entries := by
    rw [mapOps_concat, if_neg hne]
    exact (List.append_nil _).symm ▸ h.entries
  elements := by
    rw [setOps_concat, if_neg hne]
    exact (List.append_nil _).symm ▸ h.elements
  entries_nan := h.entries_nan
  elements_nan := h.elements_nan

/-- A call that changes the entries. -/
theorem Kept.withEntries (h : Kept o calls object) {call : CollectionCall}
    {op : Op Heap.Value Heap.Value} (hop : call.mapOp = some op) (hset : call.setOp = none)
    (hentries : Reflects (mapOps o calls ++ [op]) (apply object.entries op))
    (hnan : .number .nan ∉ (apply object.entries op).map Prod.fst) :
    Kept o (calls ++ [(o, call)]) { object with entries := apply object.entries op } where
  entries := by
    rw [mapOps_concat, if_pos rfl, hop]
    exact hentries
  elements := by
    rw [setOps_concat, if_pos rfl, hset]
    exact (List.append_nil _).symm ▸ h.elements
  entries_nan := hnan
  elements_nan := h.elements_nan

/-- A call that changes the elements. -/
theorem Kept.withElements (h : Kept o calls object) {call : CollectionCall}
    {op : Op Heap.Value Unit} (hop : call.setOp = some op) (hmap : call.mapOp = none)
    {elements : List Heap.Value}
    (happly : elements.map (·, ()) = apply (object.contents.elements.map (·, ())) op)
    (helements : Reflects (setOps o calls ++ [op])
      (apply (object.contents.elements.map (·, ())) op))
    (hnan : .number .nan ∉ elements) :
    Kept o (calls ++ [(o, call)])
      { object with contents := { object.contents with elements := elements } } where
  entries := by
    rw [mapOps_concat, if_pos rfl, hmap]
    exact (List.append_nil _).symm ▸ h.entries
  elements := by
    rw [setOps_concat, if_pos rfl, hop]
    exact happly ▸ helements
  entries_nan := h.entries_nan
  elements_nan := hnan

/-- The kind of an object. -/
def Object.kind (object : Object) : Bool × Bool × Bool :=
  (object.contents.isArray, object.isMap, object.isSet)

/-- What a proper call leaves of its object. -/
theorem Kept.act (h : Kept o calls object) {s : State} (hobject : s.objects[o]? = some object)
    {call : CollectionCall} (hproper : call.Proper) :
    ∃ after, (call.act (.object (some o)) s).2.objects[o]? = some after ∧
      Kept o (calls ++ [(o, call)]) after ∧ after.kind = object.kind := by
  cases call with
  | mapSet arguments =>
    obtain ⟨hlength, hnan⟩ := hproper
    obtain ⟨key, value, rest, rfl⟩ : ∃ key value rest, arguments = key :: value :: rest := by
      rcases arguments with _ | ⟨key, _ | ⟨value, rest⟩⟩
      · exact absurd hlength (Nat.not_succ_le_zero 1)
      · exact absurd (Nat.le_of_succ_le_succ hlength) (Nat.not_succ_le_zero 0)
      · exact ⟨key, value, rest, rfl⟩
    · refine ⟨_, objects_mapSet hobject h.entries_nan key value rest,
        h.withEntries rfl rfl (h.entries.put key value) ?_, rfl⟩
      rw [apply, Keyed.keys_put]
      split
      · exact h.entries_nan
      · rw [List.mem_append, List.mem_singleton, not_or]
        exact ⟨h.entries_nan, fun heq => hnan (congrArg some heq.symm)⟩
  | mapDelete arguments =>
    cases arguments with
    | nil => exact absurd hproper (Nat.not_succ_le_zero 0)
    | cons key rest =>
      exact ⟨_, objects_mapDelete hobject h.entries_nan h.entries.nodup key rest,
        h.withEntries rfl rfl (h.entries.remove key) fun hmem =>
          h.entries_nan (List.map_subset _ (List.filter_subset_self _) hmem), rfl⟩
  | setAdd arguments =>
    obtain ⟨hlength, hnan⟩ := hproper
    cases arguments with
    | nil => exact absurd hlength (by decide)
    | cons value rest =>
      obtain ⟨elements, happly, hafter⟩ := objects_setAdd hobject h.elements_nan value rest
      refine ⟨_, hafter, h.withElements rfl rfl happly (h.elements.put value ()) ?_, rfl⟩
      have hkeys := congrArg (List.map Prod.fst) happly
      rw [map_fst_unit, apply_put_unit, map_fst_unit] at hkeys
      rw [hkeys]
      split
      · exact h.elements_nan
      · rw [List.mem_append, List.mem_singleton, not_or]
        exact ⟨h.elements_nan, fun heq => hnan (congrArg some heq.symm)⟩
  | setDelete arguments =>
    cases arguments with
    | nil => exact absurd hproper (Nat.not_succ_le_zero 0)
    | cons value rest =>
      have hnodup := h.elements.nodup
      rw [map_fst_unit] at hnodup
      obtain ⟨elements, happly, hafter⟩ :=
        objects_setDelete hobject h.elements_nan hnodup value rest
      refine ⟨_, hafter, h.withElements rfl rfl happly (h.elements.remove value) ?_, rfl⟩
      have hkeys := congrArg (List.map Prod.fst) happly
      rw [map_fst_unit] at hkeys
      rw [hkeys, apply]
      intro hmem
      have hold := List.map_subset _ (List.filter_subset_self _) hmem
      rw [map_fst_unit] at hold
      exact h.elements_nan hold

/-- What a run of calls leaves of an object that was empty. -/
theorem kept_afterCalls {s : State} (hobject : s.objects[o]? = some object)
    (hentries : object.entries = []) (helements : object.contents.elements = [])
    (hproper : ∀ call ∈ calls, call.1 = o → call.2.Proper) :
    ∃ after, (afterCalls s calls).objects[o]? = some after ∧ Kept o calls after ∧
      after.kind = object.kind := by
  induction calls using List.reverseRecOn with
  | nil =>
    refine ⟨object, hobject, ⟨?_, ?_, ?_, ?_⟩, rfl⟩
    · rw [hentries]
      exact .nil
    · rw [helements]
      exact .nil
    · simp [hentries]
    · simp [helements]
  | append_singleton calls call ih =>
    obtain ⟨before, hbefore, hkept, hkind⟩ :=
      ih fun call hcall => hproper call (List.mem_append_left _ hcall)
    rw [afterCalls, List.foldl_append, List.foldl_cons, List.foldl_nil]
    obtain ⟨p, call⟩ := call
    by_cases hp : p = o
    · subst hp
      obtain ⟨after, hafter, hkept, hsame⟩ :=
        hkept.act hbefore (hproper (p, call) (by simp) rfl)
      exact ⟨after, hafter, hkept, hsame.trans hkind⟩
    · exact ⟨before, (objects_act_of_ne hp call _).trans hbefore, hkept.other hp, hkind⟩

/-- A `Map` that keeps its entries is read as JavaScript does. -/
theorem Kept.map {s : State} (h : Kept o calls object) (hobject : s.objects[o]? = some object)
    (hkind : object.kind = (false, true, false)) : MapAgrees o calls s := by
  obtain ⟨harray, hrest⟩ := Prod.mk.inj hkind
  have hentries := entriesOf_eq hobject
  refine ⟨?_, hentries.symm ▸ h.entries, fun key => ?_, fun key => ?_, ?_⟩
  · rw [hentries]
    exact h.entries.nodup.imp fun hne => Bool.eq_false_iff.mpr (mt sameValueZero_iff.mp hne)
  · have hfind : object.entries.find? (fun entry => sameValue entry.1 key) =
        Keyed.get Prod.fst key object.entries := by
      refine List.find?_congr fun entry hentry => sameValue_eq (fun hnan => ?_) key
      exact h.entries_nan (hnan ▸ List.mem_map_of_mem hentry)
    rw [mapGet, hentries, hfind]
    cases Keyed.get Prod.fst key object.entries with
    | none => rfl
    | some entry => rfl
  · have hany := any_sameValue h.entries_nan key
    rw [List.any_map] at hany
    rw [mapHas, hentries]
    exact congrArg Heap.Value.boolean hany
  · simp only [member, State.object, hobject]
    rw [harray, (Prod.mk.inj hrest).1, hentries]
    rfl

/-- A `Set` that keeps its elements is read as JavaScript does. -/
theorem Kept.set {s : State} (h : Kept o calls object) (hobject : s.objects[o]? = some object)
    (hkind : object.kind = (false, false, true)) : SetAgrees o calls s := by
  obtain ⟨harray, hrest⟩ := Prod.mk.inj hkind
  have helements := elementsOf_eq hobject
  have hnodup := h.elements.nodup
  rw [map_fst_unit] at hnodup
  refine ⟨?_, helements.symm ▸ h.elements, fun value => ?_, ?_⟩
  · rw [helements]
    exact hnodup.imp fun hne => Bool.eq_false_iff.mpr (mt sameValueZero_iff.mp hne)
  · rw [setHas, helements]
    exact congrArg Heap.Value.boolean (any_sameValue h.elements_nan value)
  · simp only [member, State.object, hobject]
    rw [harray, (Prod.mk.inj hrest).1, (Prod.mk.inj hrest).2, helements]
    rfl

end Runs

/-- **A `Map` and a `Set` that no NaN is put into are what the calls leave.**  Whatever happens to
other objects in between, the keys are different and in the order of insertion, and `get`, `has` and
`size` agree with them. -/
theorem collections_contract (s : State) (o : ObjectId)
    (calls : List (ObjectId × CollectionCall))
    (hproper : ∀ call ∈ calls, call.1 = o → call.2.Proper) :
    (s.objects[o]? = some { isMap := true } → MapAgrees o calls (afterCalls s calls)) ∧
      (s.objects[o]? = some { isSet := true } → SetAgrees o calls (afterCalls s calls)) := by
  constructor
  · intro hobject
    obtain ⟨after, hafter, hkept, hkind⟩ := kept_afterCalls hobject rfl rfl hproper
    exact hkept.map hafter hkind
  · intro hobject
    obtain ⟨after, hafter, hkept, hkind⟩ := kept_afterCalls hobject rfl rfl hproper
    exact hkept.set hafter hkind

/-- A key that was deleted goes to the end when it is set again. -/
theorem collections_contract_sample :
    MapAgrees 1
      [(1, .mapSet [.string (lit "a"), .null]), (1, .mapSet [.string (lit "b"), .null]),
        (1, .mapDelete [.string (lit "a")]), (1, .mapSet [.string (lit "a"), .boolean true])]
      (afterCalls { objects := [{}, { isMap := true }] }
        [(1, .mapSet [.string (lit "a"), .null]), (1, .mapSet [.string (lit "b"), .null]),
          (1, .mapDelete [.string (lit "a")]), (1, .mapSet [.string (lit "a"), .boolean true])]) :=
  (collections_contract { objects := [{}, { isMap := true }] } 1 _ (by
    simp [CollectionCall.Proper])).1 rfl

/-- A NaN is not found again: `set(NaN, null)` twice makes two entries with it. -/
theorem not_forall_collections_agree :
    ¬∀ (s : State) (o : ObjectId) (calls : List (ObjectId × CollectionCall)),
      (s.objects[o]? = some { isMap := true } → MapAgrees o calls (afterCalls s calls)) ∧
        (s.objects[o]? = some { isSet := true } → SetAgrees o calls (afterCalls s calls)) := by
  intro h
  have hagrees := (h { objects := [{}, { isMap := true }] } 1
    [(1, .mapSet [.number .nan, .null]), (1, .mapSet [.number .nan, .null])]).1 rfl
  have hnodup : ([Heap.Value.number .nan, .number .nan] : List Heap.Value).Nodup :=
    hagrees.reflects.nodup
  exact absurd hnodup (by decide)

end Aetheris.Js.Script
