import Aetheris.Js.Collections
import Aetheris.Js.Decimal
import Aetheris.Js.Links

/-!
# Properties of arrays

`set_property` takes a name for an index where `strtol` reads all of it, up to a NUL: with a sign,
with white space or with zeros in front, and as `LONG_MAX` where it is too large.  `get_property`
takes it for an index where all of it are digits.  So one element has many names, and some of the
names that write to it do not read it.

A name that `strtol` does not take for an index is a property like those of other objects.  An index
in its usual form is written to the elements and read from them; what is read under any other name
is as before, except under those that are read as the same number (`propertyValue_setElement`).  As
there are always such names, with zeros in front, the whole of what is expected (`SetsAndGets`) only
holds of an index if the element does not change.
-/

namespace Aetheris.Js

/-! ## Indices -/

theorem isDigit_of_isSpace {c : Byte} (h : isSpace c = true) : isDigit c = false :=
  forall_byte (P := fun c => isSpace c = true → isDigit c = false) (by decide +kernel) c h

/-- Digits are read to their end by `strtol`, which has no result above `LONG_MAX`. -/
theorem Heap.arrayIndex_of_isDigit {name : Bytes} (hne : name ≠ [])
    (hdigits : ∀ c ∈ name, isDigit c = true) :
    Heap.arrayIndex name = some (min (2 ^ 63 - 1) (numberOf 10 (leadingDigits 10 name))) := by
  have hnul : name.takeWhile (· ≠ 0) = name := by
    refine List.takeWhile_eq_self_iff.mpr fun c hc => decide_eq_true fun hzero => ?_
    rw [hzero] at hc
    exact absurd (hdigits 0 hc) (by decide)
  obtain ⟨c, rest, rfl⟩ := List.exists_cons_of_ne_nil hne
  have hc := hdigits c List.mem_cons_self
  have hspace : isSpace c = false := by
    by_contra h
    rw [isDigit_of_isSpace (Bool.eq_true_of_not_eq_false h)] at hc
    exact absurd hc (by decide)
  have hsign : ∀ d, isDigit d = false → (c :: rest).head? ≠ some d := by
    intro d hd hhead
    rw [← Option.some.inj hhead, hc] at hd
    exact absurd hd (by decide)
  have hlength := length_leadingDigits hdigits
  have hdigitsNe := leadingDigits_ne_nil hne fun d hd => digitValue_isSome_of_isDigit (hdigits d hd)
  rw [Heap.arrayIndex]
  simp only [hnul, List.dropWhile_cons_of_neg (Bool.eq_false_iff.mp hspace),
    hsign (chr '-') (by decide), hsign (chr '+') (by decide), or_self, if_false, hdigitsNe,
    hlength, ne_eq, not_true, or_self]

/-- A written index that fits is read as it is. -/
theorem Heap.arrayIndex_natDecimal {n : ℕ} (hn : n < 2 ^ 63) :
    Heap.arrayIndex (natDecimal n) = some n := by
  rw [Heap.arrayIndex_of_isDigit (natDecimal_ne_nil n) fun c hc => isDigit_of_mem_natDecimal n hc,
    numberOf_natDecimal, Nat.min_eq_right (by omega)]

namespace Script

/-- Digits are read to their end by `strtoul` as well. -/
theorem indexName_of_isDigit {name : Bytes} (hne : name ≠ [])
    (hdigits : ∀ c ∈ name, isDigit c = true) :
    indexName name = some (min (2 ^ 64 - 1) (numberOf 10 (leadingDigits 10 name))) :=
  if_pos ⟨hne, List.all_eq_true.mpr hdigits⟩

/-- What is not a name of digits is no index for `get_property`. -/
theorem isDigit_of_indexName {name : Bytes} {i : ℕ} (h : indexName name = some i) :
    name ≠ [] ∧ ∀ c ∈ name, isDigit c = true := by
  rw [indexName] at h
  split at h
  next hname => exact ⟨hname.1, List.all_eq_true.mp hname.2⟩
  next => cases h

/-- What `get_property` takes for an index, `set_property` does too. -/
theorem indexName_eq_none {name : Bytes} (h : Heap.arrayIndex name = none) :
    indexName name = none := by
  cases hindex : indexName name with
  | none => rfl
  | some i =>
    obtain ⟨hne, hdigits⟩ := isDigit_of_indexName hindex
    rw [Heap.arrayIndex_of_isDigit hne hdigits] at h
    cases h

theorem indexName_natDecimal {n : ℕ} (hn : n < 2 ^ 63) : indexName (natDecimal n) = some n := by
  rw [indexName_of_isDigit (natDecimal_ne_nil n) fun c hc => isDigit_of_mem_natDecimal n hc,
    numberOf_natDecimal, Nat.min_eq_right (by omega)]

/-- Another name of an index. -/
def zeroName (n : ℕ) : Bytes := chr '0' :: natDecimal n

theorem isDigit_of_mem_zeroName {c : Byte} (n : ℕ) (hc : c ∈ zeroName n) : isDigit c = true := by
  rcases List.mem_cons.mp hc with rfl | hc
  · decide
  · exact isDigit_of_mem_natDecimal n hc

theorem indexName_zeroName {n : ℕ} (hn : n < 2 ^ 63) : indexName (zeroName n) = some n := by
  have hne : zeroName n ≠ [] := List.cons_ne_nil _ _
  rw [indexName_of_isDigit hne fun c hc => isDigit_of_mem_zeroName n hc, zeroName,
    numberOf_leadingDigits_zero, numberOf_natDecimal, Nat.min_eq_right (by omega)]

theorem zeroName_ne (n : ℕ) : zeroName n ≠ natDecimal n := by
  intro h
  have hlength := congrArg List.length h
  rw [zeroName, List.length_cons] at hlength
  omega

/-! ## What is expected -/

/-- The names that are built into arrays. -/
def arrayNames : List Bytes := lit "length" :: arrayMethods

theorem notMem_arrayNames {name : Bytes} (h : ∀ c ∈ name, isDigit c = true) :
    name ∉ arrayNames := by
  intro hmem
  have hnames : ∀ name ∈ arrayNames, name.any fun c => !isDigit c := by decide
  obtain ⟨c, hc, hdigit⟩ := List.any_eq_true.mp (hnames name hmem)
  rw [h c hc] at hdigit
  exact absurd hdigit (by decide)

section

variable (P : Primitives) (rounds : ℕ) (handles : List (Bytes × Heap.Value))

/-- The value that `get_property` returns. -/
def propertyValue (object : Heap.Value) (name : Bytes) (s : State) : Heap.Value :=
  (State.getProperty (pageBuiltins P rounds handles) object name s).1

/-- `set_property` of an array: the size does not overflow, the name has the value, every other name
has the value that it had, and an index is written to the elements, another name to the properties. -/
structure SetsAndGets (s : State) (o : ObjectId) (object : Object) (name : Bytes)
    (value : Heap.Value) : Prop where
  fits : ∀ n, object.contents.propertyWrite name value = .element n value →
    object.contents.ResizeFits n
  same : propertyValue P rounds handles (.object (some o)) name (s.setProperty o name value) = value
  other : ∀ name', name' ≠ name → name' ∉ arrayNames →
    propertyValue P rounds handles (.object (some o)) name' (s.setProperty o name value) =
      propertyValue P rounds handles (.object (some o)) name' s
  element : ∀ n < 2 ^ 63, name = natDecimal n →
    object.contents.propertyWrite name value = .element n value
  property : (∀ n < 2 ^ 63, name ≠ natDecimal n) →
    object.contents.propertyWrite name value = .property name value

end

/-! ## What is written -/

theorem lookup_setEntry_self (name : Bytes) (value : Heap.Value) :
    ∀ entries : List (Bytes × Heap.Value),
      (Heap.setEntry name value entries).lookup name = some value
  | [] => by rw [Heap.setEntry, List.lookup_cons_self]
  | (other, property) :: rest => by
    rw [Heap.setEntry]
    split
    next => exact List.lookup_cons_self
    next hbefore =>
      split
      next hbehind =>
        have hne : (name == other) = false :=
          beq_eq_false_iff_ne.mpr fun heq => List.lt_irrefl other (heq ▸ hbehind)
        rw [List.lookup_cons, hne]
        exact lookup_setEntry_self name value rest
      next hbehind =>
        have hother : other = name := List.le_antisymm hbefore hbehind
        rw [hother, List.lookup_cons_self]

theorem lookup_setEntry_of_ne {name other : Bytes} (hne : other ≠ name) (value : Heap.Value) :
    ∀ entries : List (Bytes × Heap.Value),
      (Heap.setEntry name value entries).lookup other = entries.lookup other
  | [] => by rw [Heap.setEntry, List.lookup_cons, beq_eq_false_iff_ne.mpr hne]
  | (entry, property) :: rest => by
    have hother : (other == name) = false := beq_eq_false_iff_ne.mpr hne
    rw [Heap.setEntry]
    split
    next => rw [List.lookup_cons, hother]
    next hbefore =>
      split
      next => rw [List.lookup_cons, List.lookup_cons, lookup_setEntry_of_ne hne value rest]
      next hbehind =>
        have hentry : entry = name := List.le_antisymm hbefore hbehind
        rw [List.lookup_cons, List.lookup_cons, hentry, hother]

/-- A search along the prototypes finds the same where the objects have the same property of the
name and the same prototypes. -/
theorem fromChain_congr {s t : State} {name : Bytes}
    (h : ∀ o : ℕ, (t.objects[o]?.map fun object : Object =>
        (object.contents.properties.lookup name, object.prototype)) =
      s.objects[o]?.map fun object : Object =>
        (object.contents.properties.lookup name, object.prototype)) :
    ∀ (fuel : ℕ) (o : ObjectId), t.fromChain name fuel o = s.fromChain name fuel o
  | 0, _ => rfl
  | fuel + 1, o => by
    have ho := h o
    rw [State.fromChain, State.fromChain]
    cases ht : t.objects[o]? with
    | none =>
      rw [ht] at ho
      rw [Option.map_eq_none_iff.mp ho.symm]
    | some after =>
      cases hs : s.objects[o]? with
      | none =>
        rw [ht, hs] at ho
        cases ho
      | some before =>
        rw [ht, hs] at ho
        obtain ⟨hlookup, hprototype⟩ := Prod.mk.inj (Option.some.inj ho)
        dsimp only
        rw [hlookup, hprototype]
        split
        next => rfl
        next => exact fromChain_congr h fuel _
        next => rfl

section

variable {P : Primitives} {rounds : ℕ} {handles : List (Bytes × Heap.Value)} {s : State}
  {o : ObjectId} {object : Object}

theorem objects_setProperty (hobject : s.objects[o]? = some object) (name : Bytes)
    (value : Heap.Value) :
    (s.setProperty o name value).objects[o]? = some { object with
      contents := object.contents.write (object.contents.propertyWrite name value) } := by
  rw [State.setProperty, State.modifyObject, List.getElem?_modify, hobject]
  exact congrArg some (if_pos rfl)

/-- `get_property` of an array, for a name that is not built in. -/
theorem propertyValue_array (hobject : s.objects[o]? = some object)
    (harray : object.contents.isArray = true) {name : Bytes} (hname : name ∉ arrayNames) :
    propertyValue P rounds handles (.object (some o)) name s =
      match indexName name with
      | some i => object.contents.elements.getD i .undefined
      | none => s.fromChain name s.objects.length o := by
  have hlength : name ≠ lit "length" := fun h => hname (h ▸ List.mem_cons_self)
  have hmethod : name ∉ arrayMethods := fun h => hname (List.mem_cons_of_mem _ h)
  have hbuiltin : (pageBuiltins P rounds handles).member = member := rfl
  cases hindex : indexName name with
  | none =>
    have hmember : member (.object (some o)) name s = .inherited := by
      simp only [member, State.object, hobject, harray, if_true, if_neg hlength, if_neg hmethod,
        hindex]
    simp only [propertyValue, State.getProperty, hbuiltin, hmember]
  | some i =>
    have hmember : member (.object (some o)) name s =
        .value (object.contents.elements.getD i .undefined) := by
      simp only [member, State.object, hobject, harray, if_true, if_neg hlength, if_neg hmethod,
        hindex]
    simp only [propertyValue, State.getProperty, hbuiltin, hmember]

/-- The elements behind a write, with the gaps before it. -/
theorem getD_set_resized (contents : Heap.Object) (n i : ℕ) (value : Heap.Value) :
    ((contents.resized n).set n value).getD i .undefined =
      if i = n then value else contents.elements.getD i .undefined := by
  have hlength : n < (contents.resized n).length := by
    rw [Heap.Object.resized, List.length_append, List.length_replicate]
    omega
  by_cases hi : i = n
  · rw [if_pos hi, hi, List.getD_eq_getElem?_getD, List.getElem?_set_self hlength]
    rfl
  · rw [if_neg hi, List.getD_eq_getElem?_getD, List.getElem?_set_ne (Ne.symm hi),
      List.getD_eq_getElem?_getD, Heap.Object.resized, List.getElem?_append]
    split
    next => rfl
    next hge =>
      rw [List.getElem?_eq_none (not_lt.mp hge), List.getElem?_replicate]
      split <;> rfl

/-- What is read behind `set_property`: an element of the array, or what a search finds that meets
the new property first. -/
theorem propertyValue_setProperty (hobject : s.objects[o]? = some object)
    (harray : object.contents.isArray = true) {name : Bytes} (value : Heap.Value) {name' : Bytes}
    (hname' : name' ∉ arrayNames) :
    propertyValue P rounds handles (.object (some o)) name' (s.setProperty o name value) =
      match indexName name' with
      | some i => (object.contents.write
          (object.contents.propertyWrite name value)).elements.getD i .undefined
      | none => (s.setProperty o name value).fromChain name' s.objects.length o := by
  have hlength : (s.setProperty o name value).objects.length = s.objects.length := by
    rw [State.setProperty, State.modifyObject, List.length_modify]
  rw [propertyValue_array (objects_setProperty hobject name value) ?_ hname', hlength]
  rw [← harray]
  exact Heap.Object.isArray_write _ _

/-- A search along the prototypes is not changed by what is written to the elements, nor by what is
written under another name. -/
theorem fromChain_setProperty (hobject : s.objects[o]? = some object) {name name' : Bytes}
    (value : Heap.Value)
    (h : (object.contents.write (object.contents.propertyWrite name value)).properties.lookup
      name' = object.contents.properties.lookup name') (fuel : ℕ) (p : ObjectId) :
    (s.setProperty o name value).fromChain name' fuel p = s.fromChain name' fuel p := by
  refine fromChain_congr (fun q => ?_) fuel p
  by_cases hq : q = o
  · rw [hq, objects_setProperty hobject, hobject]
    exact congrArg some (Prod.ext h rfl)
  · have hother : (s.setProperty o name value).objects[q]? = s.objects[q]? := by
      rw [State.setProperty, State.modifyObject]
      exact List.getElem?_modify_ne _ _ (Ne.symm hq)
    rw [hother]

/-! ## The two cases -/

/-- A name that `strtol` does not take for an index is a property like others. -/
theorem setsAndGets_property (hobject : s.objects[o]? = some object)
    (harray : object.contents.isArray = true) {name : Bytes} (hname : name ∉ arrayNames)
    (hindex : Heap.arrayIndex name = none) (value : Heap.Value) :
    SetsAndGets P rounds handles s o object name value := by
  have hwrite : object.contents.propertyWrite name value = .property name value := by
    rw [Heap.Object.propertyWrite, if_pos harray, hindex]
  have hpositive : s.objects.length ≠ 0 := by
    rintro hzero
    rw [List.getElem?_eq_none (by omega)] at hobject
    cases hobject
  refine ⟨fun n heq => ?_, ?_, fun name' hne hname' => ?_, fun n hn heq => ?_, fun _ => hwrite⟩
  · rw [hwrite] at heq
    cases heq
  · rw [propertyValue_setProperty hobject harray value hname, indexName_eq_none hindex]
    obtain ⟨fuel, hfuel⟩ := Nat.exists_eq_succ_of_ne_zero hpositive
    dsimp only
    rw [hfuel, State.fromChain, objects_setProperty hobject, hwrite]
    dsimp only [Heap.Object.write]
    rw [lookup_setEntry_self]
  · rw [propertyValue_setProperty hobject harray value hname',
      propertyValue_array hobject harray hname']
    cases indexName name' with
    | some i =>
      dsimp only
      rw [hwrite]
      rfl
    | none =>
      refine fromChain_setProperty hobject value ?_ _ _
      rw [hwrite]
      exact lookup_setEntry_of_ne hne value _
  · rw [heq, Heap.arrayIndex_natDecimal hn] at hindex
    cases hindex

theorem propertyWrite_natDecimal (harray : object.contents.isArray = true) {n : ℕ}
    (hn : n < 2 ^ 63) (value : Heap.Value) :
    object.contents.propertyWrite (natDecimal n) value = .element n value := by
  rw [Heap.Object.propertyWrite, if_pos harray, Heap.arrayIndex_natDecimal hn]

/-- **An index is written to its element.**  The names that are read as this index have the value
then, and every other name has the value that it had. -/
theorem propertyValue_setElement (hobject : s.objects[o]? = some object)
    (harray : object.contents.isArray = true) {n : ℕ} (hn : n < 2 ^ 63) (value : Heap.Value)
    {name' : Bytes} (hname' : name' ∉ arrayNames) :
    propertyValue P rounds handles (.object (some o)) name'
        (s.setProperty o (natDecimal n) value) =
      if indexName name' = some n then value
      else propertyValue P rounds handles (.object (some o)) name' s := by
  have hwrite := propertyWrite_natDecimal harray hn value
  rw [propertyValue_setProperty hobject harray value hname',
    propertyValue_array hobject harray hname', hwrite]
  cases hindex : indexName name' with
  | some i =>
    dsimp only [Heap.Object.write]
    rw [getD_set_resized]
    exact if_congr Option.some_inj.symm rfl rfl
  | none =>
    have hne : ¬(none : Option ℕ) = some n := fun h => by cases h
    rw [if_neg hne]
    refine fromChain_setProperty hobject value ?_ _ _
    rw [hwrite]
    rfl

/-- All of the names of an element change with it. -/
theorem setsAndGets_element_iff (hobject : s.objects[o]? = some object)
    (harray : object.contents.isArray = true) {n : ℕ} (hn : n < 2 ^ 63) (value : Heap.Value) :
    SetsAndGets P rounds handles s o object (natDecimal n) value ↔
      object.contents.ResizeFits n ∧ object.contents.elements.getD n .undefined = value := by
  have hwrite := propertyWrite_natDecimal harray hn value
  have hname : natDecimal n ∉ arrayNames :=
    notMem_arrayNames fun c hc => isDigit_of_mem_natDecimal n hc
  have hzero : zeroName n ∉ arrayNames :=
    notMem_arrayNames fun c hc => isDigit_of_mem_zeroName n hc
  constructor
  · intro h
    have hother := h.other (zeroName n) (zeroName_ne n) hzero
    rw [propertyValue_setElement hobject harray hn value hzero, if_pos (indexName_zeroName hn),
      propertyValue_array hobject harray hzero, indexName_zeroName hn] at hother
    exact ⟨h.fits n hwrite, hother.symm⟩
  · rintro ⟨hfits, hvalue⟩
    refine ⟨fun m heq => ?_, ?_, fun name' _ hname' => ?_, fun m hm heq => ?_,
      fun h => absurd rfl (h n hn)⟩
    · rw [hwrite] at heq
      cases heq
      exact hfits
    · rw [propertyValue_setElement hobject harray hn value hname, if_pos (indexName_natDecimal hn)]
    · rw [propertyValue_setElement hobject harray hn value hname']
      split
      next hindex =>
        rw [propertyValue_array hobject harray hname', hindex]
        exact hvalue.symm
      next => rfl
    · have hindex := Heap.arrayIndex_natDecimal hm
      rw [← heq, Heap.arrayIndex_natDecimal hn] at hindex
      rw [← Option.some.inj hindex, hwrite]

end

/-- A script that has made one array, with one element. -/
def oneArray : Object := { contents := { isArray := true, elements := [.null] } }

end Script

end Aetheris.Js
