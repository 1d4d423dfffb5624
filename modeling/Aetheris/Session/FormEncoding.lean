import Aetheris.Session.FormOperations

/-!
# The form encoding is read back

The body of a submission is `application/x-www-form-urlencoded`.  A byte is read back from its
encoding, which has no `&` and no `=` in it, and so are a name, a value and the list of the fields.
-/

namespace Aetheris.Session

open Dom Net

/-! ## Reading a form -/

/-- The value of a hexadecimal digit of either case. -/
def hexDigitValue (c : Byte) : Option ℕ :=
  if isDigit c then some (c.toNat - 0x30)
  else if 0x41 ≤ c ∧ c ≤ 0x46 then some (c.toNat - 0x37)
  else if 0x61 ≤ c ∧ c ≤ 0x66 then some (c.toNat - 0x57)
  else none

/-- The byte that a percent sign with this text behind it stands for. -/
def percentByte : Bytes → Option Byte
  | hi :: lo :: _ =>
    match hexDigitValue hi, hexDigitValue lo with
    | some a, some b => some (UInt8.ofNat (16 * a + b))
    | _, _ => none
  | _ => none

/-- A `+` is a space and a percent sign with two hexadecimal digits is the byte they give. -/
def decodeText : Bytes → Bytes
  | [] => []
  | c :: rest =>
    if c = chr '+' then chr ' ' :: decodeText rest
    else if c = chr '%' then
      match percentByte rest with
      | some byte => byte :: decodeText (rest.drop 2)
      | none => c :: decodeText rest
    else c :: decodeText rest
termination_by text => text.length
decreasing_by all_goals (simp only [List.length_drop, List.length_cons]; omega)

/-- A piece is a name and a value, with the first `=` between them. -/
def decodeField (piece : Bytes) : Bytes × Bytes :=
  (decodeText (piece.takeWhile (· != chr '=')),
    decodeText ((piece.dropWhile (· != chr '=')).drop 1))

/-- The pieces of a body stand between `&`s, and those with nothing in them are no fields. -/
def decodeForm (body : Bytes) : List (Bytes × Bytes) :=
  ((body.splitOn (chr '&')).filter (· ≠ [])).map decodeField

/-! ## One byte -/

theorem decodeText_plain {c : Byte} (hplus : c ≠ chr '+') (hpercent : c ≠ chr '%')
    (rest : Bytes) : decodeText (c :: rest) = c :: decodeText rest := by
  rw [decodeText, if_neg hplus, if_neg hpercent]

theorem decodeText_plus (rest : Bytes) :
    decodeText (chr '+' :: rest) = chr ' ' :: decodeText rest := by
  rw [decodeText, if_pos rfl]

theorem decodeText_percent {hi lo : Byte} {a b : ℕ} (ha : hexDigitValue hi = some a)
    (hb : hexDigitValue lo = some b) (rest : Bytes) :
    decodeText (chr '%' :: hi :: lo :: rest) = UInt8.ofNat (16 * a + b) :: decodeText rest := by
  rw [decodeText, if_neg (by decide), if_pos rfl, percentByte, ha, hb]
  rfl

/-- The bytes that stand for themselves are neither of the two that do not. -/
theorem plain_of_unreserved (c : Byte) :
    (isAlnum c || c == chr '-' || c == chr '_' || c == chr '.' || c == chr '~') = true →
      c ≠ chr '+' ∧ c ≠ chr '%' :=
  forall_byte (P := fun c =>
    (isAlnum c || c == chr '-' || c == chr '_' || c == chr '.' || c == chr '~') = true →
      c ≠ chr '+' ∧ c ≠ chr '%') (by decide) c

theorem hexDigitValue_high (c : Byte) :
    hexDigitValue ((lit "0123456789ABCDEF").getD (c >>> 4).toNat 0) = some (c.toNat / 16) :=
  forall_byte (P := fun c =>
    hexDigitValue ((lit "0123456789ABCDEF").getD (c >>> 4).toNat 0) = some (c.toNat / 16))
    (by decide) c

theorem hexDigitValue_low (c : Byte) :
    hexDigitValue ((lit "0123456789ABCDEF").getD (c &&& 15).toNat 0) = some (c.toNat % 16) :=
  forall_byte (P := fun c =>
    hexDigitValue ((lit "0123456789ABCDEF").getD (c &&& 15).toNat 0) = some (c.toNat % 16))
    (by decide) c

theorem decodeText_encodeByte (c : Byte) (rest : Bytes) :
    decodeText (encodeByte c ++ rest) = c :: decodeText rest := by
  rw [encodeByte]
  split
  · rename_i hunreserved
    obtain ⟨hplus, hpercent⟩ := plain_of_unreserved c hunreserved
    exact decodeText_plain hplus hpercent rest
  · split
    · rename_i hspace
      rw [beq_iff_eq.mp hspace]
      exact decodeText_plus rest
    · refine (decodeText_percent (hexDigitValue_high c) (hexDigitValue_low c) rest).trans ?_
      rw [Nat.div_add_mod, UInt8.ofNat_toNat]

/-- **A text is read back from its encoding.** -/
theorem decodeText_urlEncode (value : Bytes) : decodeText (urlEncode value) = value := by
  induction value with
  | nil => rw [urlEncode, List.flatMap_nil, decodeText]
  | cons c value ih =>
    rw [urlEncode, List.flatMap_cons, decodeText_encodeByte]
    exact congrArg (c :: ·) ih

/-! ## The list of fields -/

theorem ne_of_mem_encodeByte (c : Byte) :
    ∀ d ∈ encodeByte c, d ≠ chr '&' ∧ d ≠ chr '=' :=
  forall_byte (P := fun c => ∀ d ∈ encodeByte c, d ≠ chr '&' ∧ d ≠ chr '=')
    (by decide) c

theorem ne_of_mem_urlEncode {value : Bytes} {d : Byte} (hd : d ∈ urlEncode value) :
    d ≠ chr '&' ∧ d ≠ chr '=' := by
  obtain ⟨c, -, hd⟩ := List.mem_flatMap.mp hd
  exact ne_of_mem_encodeByte c d hd

/-- What `submit` writes for one field. -/
def encodeField (field : Bytes × Bytes) : Bytes :=
  urlEncode field.1 ++ chr '=' :: urlEncode field.2

theorem decodeField_encodeField (field : Bytes × Bytes) :
    decodeField (encodeField field) = field := by
  have hname : ∀ d ∈ urlEncode field.1, (d != chr '=') = true :=
    fun d hd => bne_iff_ne.mpr (ne_of_mem_urlEncode hd).2
  have hstop : (chr '=' != chr '=') = false := by decide
  rw [decodeField, encodeField, List.takeWhile_append_of_pos hname,
    List.dropWhile_append_of_pos hname, List.takeWhile_cons, List.dropWhile_cons, hstop,
    if_neg Bool.false_ne_true, if_neg Bool.false_ne_true, List.append_nil, List.drop_one,
    List.tail_cons, decodeText_urlEncode, decodeText_urlEncode]

theorem not_mem_encodeField (field : Bytes × Bytes) : chr '&' ∉ encodeField field := by
  rw [encodeField, List.mem_append, List.mem_cons, not_or, not_or]
  exact ⟨fun h => (ne_of_mem_urlEncode h).1 rfl, by decide,
    fun h => (ne_of_mem_urlEncode h).1 rfl⟩

theorem encodeField_ne_nil (field : Bytes × Bytes) : encodeField field ≠ [] :=
  List.append_ne_nil_of_right_ne_nil _ (List.cons_ne_nil _ _)

theorem encodeFields_cons (field : Bytes × Bytes) (fields : List (Bytes × Bytes)) :
    encodeFields true (field :: fields) = encodeField field ++ encodeFields false fields := by
  rw [encodeFields, if_pos rfl, List.nil_append]
  rfl

theorem encodeFields_false_cons (field : Bytes × Bytes) (fields : List (Bytes × Bytes)) :
    encodeFields false (field :: fields) = chr '&' :: encodeFields true (field :: fields) := by
  rw [encodeFields_cons, encodeFields, if_neg Bool.false_ne_true]
  rfl

/-- The loop writes the fields with `&`s between them. -/
theorem encodeFields_eq_intercalate (fields : List (Bytes × Bytes)) :
    encodeFields true fields = [chr '&'].intercalate (fields.map encodeField) := by
  induction fields with
  | nil => rfl
  | cons field fields ih =>
    cases fields with
    | nil =>
      rw [List.map_singleton, List.intercalate_singleton, encodeFields_cons, encodeFields,
        List.append_nil]
    | cons next fields =>
      rw [encodeFields_cons, encodeFields_false_cons, ih, List.map_cons (l := next :: fields),
        List.intercalate_cons_of_ne_nil (by exact List.cons_ne_nil _ _), List.append_assoc,
        List.singleton_append]

/-- **A list of fields is read back from its encoding.** -/
theorem decodeForm_encodeFields (fields : List (Bytes × Bytes)) :
    decodeForm (encodeFields true fields) = fields := by
  cases hfields : fields with
  | nil => rfl
  | cons field rest =>
    rw [← hfields, decodeForm, encodeFields_eq_intercalate, List.splitOn_intercalate,
      List.filter_eq_self.mpr, List.map_map]
    · exact (List.map_congr_left fun field _ => decodeField_encodeField field).trans
        (List.map_id fields)
    · intro piece hpiece
      obtain ⟨field, -, rfl⟩ := List.mem_map.mp hpiece
      exact decide_eq_true (encodeField_ne_nil field)
    · intro piece hpiece
      obtain ⟨field, -, rfl⟩ := List.mem_map.mp hpiece
      exact not_mem_encodeField field
    · rw [hfields]
      exact List.cons_ne_nil _ _

/-! ## Submissions -/

/-- **The form encoding is lossless.**  Every list of fields is read back from its encoding, and
the body of a submission is the encoding of the fields that were collected. -/
theorem decodeForm_submit :
    (∀ fields, decodeForm (encodeFields true fields) = fields) ∧
      ∀ h (runtime : FormRuntime) index documentUrl submission,
        runtime.submit h index documentUrl = some (some submission) →
          decodeForm submission.encodedBody = runtime.collectFields index := by
  refine ⟨decodeForm_encodeFields, fun h runtime index documentUrl submission hsubmit => ?_⟩
  obtain ⟨_, _, _, -, -, -, -, rfl⟩ := FormRuntime.submit_eq_some_iff.mp hsubmit
  exact decodeForm_encodeFields _

/-- A text control and a submit button outside of all forms. -/
theorem decodeForm_submit_unowned :
    decodeForm (lit "a%26=+%3D") = [(lit "a&", lit " =")] :=
  decodeForm_submit.2 Heap.empty
    { controls :=
        [{ node := 0, kind := .text, name := lit "a&", value := lit " =" },
          { node := 1, kind := .submit }]
      controlForms := [none, none] } 1 {}
    { action := {}, encodedBody := lit "a%26=+%3D" } (by decide)

end Aetheris.Session
