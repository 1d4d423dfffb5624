import Aetheris.Net.Url
import Aetheris.Session.FormRuntime

/-!
# The operations of the form runtime

After `discover` the lists of controls, forms and owners keep their lengths: the operations only
write the fields of single controls, and answer whether they did.  `Effect` says what a call of any
of them may do, and is all that is used of them in runs.
-/

namespace Aetheris.Session

open Dom Net

/-- The three kinds that `insert_text` and `backspace` write to. -/
def FormControlKind.takesText (kind : FormControlKind) : Bool :=
  kind == .text || kind == .password || kind == .textArea

namespace FormRuntime

variable (runtime : FormRuntime)

/-- A write to one control. -/
def modifyControl (index : ℕ) (f : FormControlState → FormControlState) : FormRuntime :=
  { runtime with controls := runtime.controls.modify index f }

/-- The first write of `focus`: the old focus is taken away. -/
def clearFocus : FormRuntime :=
  match runtime.focused with
  | some old => runtime.modifyControl old fun control => { control with focused := false }
  | none => runtime

/-- The writes of `focus`. -/
def moveFocus (index : ℕ) : FormRuntime :=
  FormRuntime.modifyControl { runtime.clearFocus with focused := some index } index
    fun control => { control with focused := true }

/-- `focus`. -/
def focus (index : ℕ) : Bool × FormRuntime :=
  match runtime.controls[index]? with
  | none => (false, runtime)
  | some control => if control.disabled then (false, runtime) else (true, runtime.moveFocus index)

/-- `insert_text`. -/
def insertText (text : Bytes) : Bool × FormRuntime :=
  match runtime.focused with
  | none => (false, runtime)
  | some index =>
    match runtime.controls[index]? with
    | none => (false, runtime)
    | some control =>
      if control.disabled || control.readOnly || !control.kind.takesText then (false, runtime)
      else
        (true, runtime.modifyControl index fun control =>
          { control with value := control.value ++ text })

/-- `backspace`. -/
def backspace : Bool × FormRuntime :=
  match runtime.focused with
  | none => (false, runtime)
  | some index =>
    match runtime.controls[index]? with
    | none => (false, runtime)
    | some control =>
      if control.disabled || control.readOnly || control.value.isEmpty then (false, runtime)
      else if !control.kind.takesText then (false, runtime)
      else
        (true, runtime.modifyControl index fun control =>
          { control with value := control.value.dropLast })

/-- `set_value`. -/
def setValue (index : ℕ) (value : Bytes) : Bool × FormRuntime :=
  match runtime.controls[index]? with
  | none => (false, runtime)
  | some control =>
    if control.disabled || control.readOnly then (false, runtime)
    else if control.kind == .select && !control.options.contains value then (false, runtime)
    else (true, runtime.modifyControl index fun control => { control with value := value })

/-- `form_owner`. -/
def formOwner (controlIndex : ℕ) : Option ℕ := runtime.controlForms.getD controlIndex none

/-- The loop of `activate` over the radio buttons of one owner and name. -/
def uncheckOthers (index : ℕ) (name : Bytes) : FormRuntime :=
  { runtime with
    controls := runtime.controls.mapIdx fun i control =>
      if i = index ∨ control.kind ≠ .radio ∨ control.name ≠ name then control
      else if runtime.formOwner i = runtime.formOwner index then { control with checked := false }
      else control }

/-- `activate`. -/
def activate (index : ℕ) : Bool × FormRuntime :=
  match runtime.controls[index]? with
  | none => (false, runtime)
  | some control =>
    if control.disabled then (false, runtime)
    else if control.kind = .checkbox then
      (true, runtime.modifyControl index fun control => { control with checked := !control.checked })
    else if control.kind = .radio then
      (true, (runtime.uncheckOthers index control.name).modifyControl index fun control =>
        { control with checked := true })
    else (control.kind == .submit || control.kind == .button, runtime)

end FormRuntime

/-! ## Submission -/

/-- `is_successful`. -/
def isSuccessful (control : FormControlState) : Bool :=
  if control.disabled || control.name.isEmpty then false
  else if (control.kind == .checkbox || control.kind == .radio) && !control.checked then false
  else control.kind != .button && control.kind != .submit

/-- `FormSubmission::Method`. -/
inductive Method where
  | get
  | post
  deriving DecidableEq, Repr

/-- `FormSubmission`. -/
structure FormSubmission where
  method : Method := .get
  action : Url
  encodedBody : Bytes
  deriving DecidableEq, Repr

/-- What `url_encode` writes for one byte. -/
def encodeByte (ch : Byte) : Bytes :=
  if isAlnum ch || ch == chr '-' || ch == chr '_' || ch == chr '.' || ch == chr '~' then [ch]
  else if ch == chr ' ' then [chr '+']
  else
    let hex := lit "0123456789ABCDEF"
    [chr '%', hex.getD (ch >>> 4).toNat 0, hex.getD (ch &&& 15).toNat 0]

/-- `url_encode`. -/
def urlEncode (value : Bytes) : Bytes := value.flatMap encodeByte

/-- The loop of `submit` over the fields. -/
def encodeFields (first : Bool) : List (Bytes × Bytes) → Bytes
  | [] => []
  | (name, value) :: fields =>
    (if first then [] else [chr '&']) ++ urlEncode name ++ chr '=' :: urlEncode value ++
      encodeFields false fields

namespace FormRuntime

variable (h : Heap) (runtime : FormRuntime)

/-- `collect_fields`. -/
def collectFields (controlIndex : ℕ) : List (Bytes × Bytes) :=
  (runtime.controls.zipIdx.filter fun (control, i) =>
      runtime.formOwner i = runtime.formOwner controlIndex ∧ isSuccessful control).map
    fun (control, _) => (control.name, control.value)

/-- The action and the method that a form gives a submission, or the lack of one.  It is `none`
when `Url::resolve` does not return, or when the node of the form is gone. -/
def formTarget (documentUrl : Url) : Option NodeId → Option (Url × Method)
  | none => some (documentUrl, .get)
  | some id =>
    match h.nodes id with
    | none => none
    | some form =>
      let action :=
        match form.attributeValue (lit "action") with
        | some raw => if raw.isEmpty then some documentUrl else Url.resolve documentUrl raw
        | none => some documentUrl
      let method :=
        match form.attributeValue (lit "method") with
        | some raw => if lower raw = lit "post" then .post else .get
        | none => .get
      action.map (·, method)

/-- The form that an owner stands for. -/
def formOf (owner : Option ℕ) : Option NodeId := owner.bind (runtime.forms[·]?)

/-- `submit`; the outer `none` is that of `formTarget`. -/
def submit (submitControlIndex : ℕ) (documentUrl : Url) : Option (Option FormSubmission) :=
  match runtime.controls[submitControlIndex]? with
  | none => some none
  | some control =>
    if control.disabled || (control.kind != .submit && control.kind != .button) then some none
    else
      (formTarget h documentUrl (runtime.formOf (runtime.formOwner submitControlIndex))).map
        fun (action, method) =>
          some
            { method := method
              action := action
              encodedBody := encodeFields true (runtime.collectFields submitControlIndex) }

section Submissions

variable {h : Heap} {runtime : FormRuntime} {index : ℕ} {documentUrl : Url}

/-- The submissions that are made. -/
theorem submit_eq_some_iff {submission : FormSubmission} :
    runtime.submit h index documentUrl = some (some submission) ↔
      ∃ control action method, runtime.controls[index]? = some control ∧
        control.disabled = false ∧ (control.kind = .submit ∨ control.kind = .button) ∧
        formTarget h documentUrl (runtime.formOf (runtime.formOwner index)) =
          some (action, method) ∧
        submission = ⟨method, action, encodeFields true (runtime.collectFields index)⟩ := by
  rw [submit]
  cases runtime.controls[index]? with
  | none => exact iff_of_false nofun (fun ⟨_, _, _, h, _⟩ => nomatch h)
  | some control =>
    dsimp only
    split
    · rename_i hguard
      refine iff_of_false nofun ?_
      rintro ⟨_, _, _, hcontrol, hdisabled, hkind, -⟩
      rw [← Option.some.inj hcontrol] at hdisabled hkind
      rw [hdisabled] at hguard
      rcases hkind with hkind | hkind <;> rw [hkind] at hguard <;> exact absurd hguard (by decide)
    · rename_i hguard
      rw [Bool.or_eq_true, Bool.and_eq_true, bne_iff_ne, bne_iff_ne, not_or, not_and_or, not_not,
        not_not, Bool.not_eq_true] at hguard
      constructor
      · intro hsome
        obtain ⟨⟨action, method⟩, htarget, hsubmission⟩ := Option.map_eq_some_iff.mp hsome
        exact ⟨control, action, method, rfl, hguard.1, hguard.2, htarget,
          (Option.some.inj hsubmission).symm⟩
      · rintro ⟨_, action, method, -, -, -, htarget, rfl⟩
        rw [htarget]
        rfl

end Submissions

/-! ## Runs -/

/-- A call of one of the operations. -/
inductive FormOperation where
  | focus (index : ℕ)
  | insertText (text : Bytes)
  | backspace
  | setValue (index : ℕ) (value : Bytes)
  | activate (index : ℕ)
  deriving DecidableEq, Repr

/-- The form runtime after such a call. -/
def formStep (runtime : FormRuntime) : FormOperation → FormRuntime
  | .focus index => (runtime.focus index).2
  | .insertText text => (runtime.insertText text).2
  | .backspace => (runtime.backspace).2
  | .setValue index value => (runtime.setValue index value).2
  | .activate index => (runtime.activate index).2

end FormRuntime

/-! ## What an operation does -/

namespace FormRuntime

variable {runtime : FormRuntime}

/-- The writes of the operations, and when they are made. -/
inductive Effect (runtime : FormRuntime) : FormRuntime → Prop
  | same : Effect runtime runtime
  | focus {index : ℕ} {control : FormControlState}
      (hcontrol : runtime.controls[index]? = some control) :
      Effect runtime (runtime.moveFocus index)
  | value {index : ℕ} {control : FormControlState} {value : Bytes}
      (hcontrol : runtime.controls[index]? = some control) (hdisabled : control.disabled = false)
      (hreadOnly : control.readOnly = false)
      (hoption : control.kind = .select → value ∈ control.options) :
      Effect runtime (runtime.modifyControl index fun control => { control with value := value })
  | toggle {index : ℕ} {control : FormControlState}
      (hcontrol : runtime.controls[index]? = some control) (hkind : control.kind = .checkbox) :
      Effect runtime
        (runtime.modifyControl index fun control => { control with checked := !control.checked })
  | check {index : ℕ} {control : FormControlState}
      (hcontrol : runtime.controls[index]? = some control) (hkind : control.kind = .radio) :
      Effect runtime
        ((runtime.uncheckOthers index control.name).modifyControl index fun control =>
          { control with checked := true })

theorem getElem?_modifyControl (index : ℕ) (f : FormControlState → FormControlState) (i : ℕ) :
    (runtime.modifyControl index f).controls[i]? =
      (runtime.controls[i]?).map fun control => if index = i then f control else control :=
  List.getElem?_modify f index runtime.controls i

theorem modifyControl_congr {index : ℕ} {control : FormControlState}
    {f g : FormControlState → FormControlState}
    (hcontrol : runtime.controls[index]? = some control) (hfg : f control = g control) :
    runtime.modifyControl index f = runtime.modifyControl index g := by
  refine congrArg (fun controls => { runtime with controls := controls })
    (List.ext_getElem? fun i => ?_)
  rw [List.getElem?_modify, List.getElem?_modify]
  by_cases hi : index = i
  · rw [← hi, hcontrol]
    show some (if index = index then f control else control) =
      some (if index = index then g control else control)
    rw [if_pos rfl, if_pos rfl, hfg]
  · simp only [if_neg hi]

/-- A kind that takes text is not a list of options. -/
theorem ne_select_of_takesText {kind : FormControlKind} (h : kind.takesText = true) :
    kind ≠ .select := by
  rintro rfl
  exact absurd h (by decide)

/-- **What one operation does.** -/
theorem effect_formStep (operation : FormOperation) :
    Effect runtime (runtime.formStep operation) := by
  cases operation with
  | focus index =>
    rw [formStep, focus]
    cases hcontrol : runtime.controls[index]? with
    | none => exact .same
    | some control =>
      dsimp only
      split
      · exact .same
      · exact .focus hcontrol
  | insertText text =>
    rw [formStep, insertText]
    cases runtime.focused with
    | none => exact .same
    | some index =>
      dsimp only
      cases hcontrol : runtime.controls[index]? with
      | none => exact .same
      | some control =>
        dsimp only
        split
        · exact .same
        · rename_i hguard
          simp only [Bool.or_eq_true, Bool.not_eq_true', not_or, Bool.not_eq_true,
            Bool.not_eq_false] at hguard
          rw [modifyControl_congr (g := fun c => { c with value := control.value ++ text }) hcontrol
            rfl]
          exact .value hcontrol hguard.1.1 hguard.1.2
            fun hkind => absurd hkind (ne_select_of_takesText hguard.2)
  | backspace =>
    rw [formStep, backspace]
    cases runtime.focused with
    | none => exact .same
    | some index =>
      dsimp only
      cases hcontrol : runtime.controls[index]? with
      | none => exact .same
      | some control =>
        dsimp only
        split
        · exact .same
        · rename_i hguard
          split
          · exact .same
          · rename_i htext
            simp only [Bool.or_eq_true, not_or, Bool.not_eq_true] at hguard
            rw [Bool.not_eq_true', Bool.not_eq_false] at htext
            rw [modifyControl_congr (g := fun c => { c with value := control.value.dropLast })
              hcontrol rfl]
            exact .value hcontrol hguard.1.1 hguard.1.2
              fun hkind => absurd hkind (ne_select_of_takesText htext)
  | setValue index value =>
    rw [formStep, setValue]
    cases hcontrol : runtime.controls[index]? with
    | none => exact .same
    | some control =>
      dsimp only
      split
      · exact .same
      · rename_i hguard
        split
        · exact .same
        · rename_i hoption
          simp only [Bool.or_eq_true, not_or, Bool.not_eq_true] at hguard
          refine .value hcontrol hguard.1 hguard.2 fun hkind => ?_
          by_contra hmem
          refine hoption ?_
          rw [hkind, Bool.and_eq_true, Bool.not_eq_true', List.contains_eq_mem,
            decide_eq_false_iff_not]
          exact ⟨rfl, hmem⟩
  | activate index =>
    rw [formStep, activate]
    cases hcontrol : runtime.controls[index]? with
    | none => exact .same
    | some control =>
      dsimp only
      split
      · exact .same
      · split
        · exact .toggle hcontrol ‹_›
        · split
          · exact .check hcontrol ‹_›
          · exact .same

end FormRuntime

/-! ## What stays as it is -/

/-- A control without what the operations write. -/
def FormControlState.markup (control : FormControlState) : FormControlState :=
  { control with value := [], checked := false, focused := false }

namespace FormRuntime

/-- The same forms, owners and controls, up to what the operations write. -/
structure SameMarkup (runtime runtime' : FormRuntime) : Prop where
  controls : runtime'.controls.map (·.markup) = runtime.controls.map (·.markup)
  forms : runtime'.forms = runtime.forms
  controlForms : runtime'.controlForms = runtime.controlForms

theorem SameMarkup.refl (runtime : FormRuntime) : SameMarkup runtime runtime := ⟨rfl, rfl, rfl⟩

theorem SameMarkup.trans {a b c : FormRuntime} (hab : SameMarkup a b) (hbc : SameMarkup b c) :
    SameMarkup a c :=
  ⟨hbc.controls.trans hab.controls, hbc.forms.trans hab.forms,
    hbc.controlForms.trans hab.controlForms⟩

variable {runtime : FormRuntime}

theorem SameMarkup.modifyControl (index : ℕ) {f : FormControlState → FormControlState}
    (hf : ∀ control, (f control).markup = control.markup) :
    SameMarkup runtime (runtime.modifyControl index f) := by
  refine ⟨List.ext_getElem? fun i => ?_, rfl, rfl⟩
  rw [List.getElem?_map, List.getElem?_map, getElem?_modifyControl, Option.map_map]
  refine congrArg (Option.map · _) (funext fun control => ?_)
  dsimp only [Function.comp]
  split
  · exact hf control
  · rfl

theorem SameMarkup.uncheckOthers (index : ℕ) (name : Bytes) :
    SameMarkup runtime (runtime.uncheckOthers index name) := by
  refine ⟨List.ext_getElem? fun i => ?_, rfl, rfl⟩
  rw [FormRuntime.uncheckOthers, List.getElem?_map, List.getElem?_map, List.getElem?_mapIdx,
    Option.map_map]
  refine congrArg (Option.map · _) (funext fun control => ?_)
  dsimp only [Function.comp]
  split
  · rfl
  · split <;> rfl

theorem SameMarkup.clearFocus : SameMarkup runtime runtime.clearFocus := by
  rw [FormRuntime.clearFocus]
  cases runtime.focused with
  | none => exact .refl runtime
  | some old => exact .modifyControl old fun _ => rfl

theorem SameMarkup.moveFocus (index : ℕ) : SameMarkup runtime (runtime.moveFocus index) :=
  SameMarkup.trans (b := { runtime.clearFocus with focused := some index })
    ⟨SameMarkup.clearFocus.controls, SameMarkup.clearFocus.forms,
      SameMarkup.clearFocus.controlForms⟩ (.modifyControl index fun _ => rfl)

/-- **No operation changes the markup.** -/
theorem Effect.sameMarkup {runtime' : FormRuntime} (h : Effect runtime runtime') :
    SameMarkup runtime runtime' := by
  cases h with
  | same => exact .refl runtime
  | focus _ => exact .moveFocus _
  | value _ _ _ _ => exact .modifyControl _ fun _ => rfl
  | toggle _ _ => exact .modifyControl _ fun _ => rfl
  | check _ _ => exact (SameMarkup.uncheckOthers _ _).trans (.modifyControl _ fun _ => rfl)

end FormRuntime

end Aetheris.Session
