import Aetheris.Html.TreeBuilder
import Aetheris.Library.Runs
import Aetheris.Session.FormDiscovery

/-!
# Invariants of form controls

The operations keep what is true of the controls when they have been found, but discovery copies the
markup: it checks every radio button that is marked as checked, and gives a `select` the value in
its `value` attribute.  So the invariants hold in all runs exactly if they hold in the beginning,
which is a condition on the markup.
-/

namespace Aetheris.Session

open Dom

/-! ## The invariants -/

/-- At most one radio button of each owner and name is checked. -/
def RadiosOk (runtime : FormRuntime) : Prop :=
  ∀ i j c d, runtime.controls[i]? = some c → runtime.controls[j]? = some d →
    c.kind = .radio → d.kind = .radio → c.checked = true → d.checked = true →
      runtime.formOwner i = runtime.formOwner j → c.name = d.name → i = j

/-- Exactly the control that has the focus has its flag set, and it is one of the controls. -/
structure FocusOk (runtime : FormRuntime) : Prop where
  lt : ∀ i, runtime.focused = some i → i < runtime.controls.length
  iff : ∀ i c, runtime.controls[i]? = some c → (c.focused = true ↔ runtime.focused = some i)

/-- A control that is disabled or read-only has its initial value. -/
def ValuesOk (initial runtime : FormRuntime) : Prop :=
  ∀ (i : ℕ) (c : FormControlState), runtime.controls[i]? = some c →
    c.disabled = true ∨ c.readOnly = true →
      ∃ c₀ : FormControlState, initial.controls[i]? = some c₀ ∧ c.value = c₀.value

/-- The value of a `select` with options is one of them. -/
def SelectsOk (runtime : FormRuntime) : Prop :=
  ∀ c ∈ runtime.controls, c.kind = .select → c.options ≠ [] → c.value ∈ c.options

/-- The four together. -/
structure FormInvariants (initial runtime : FormRuntime) : Prop where
  radios : RadiosOk runtime
  focus : FocusOk runtime
  values : ValuesOk initial runtime
  selects : SelectsOk runtime

/-! ## Writes to one control -/

section Modify

variable {initial runtime : FormRuntime} {index : ℕ} {f : FormControlState → FormControlState}

/-- A control after a write is the old one, or what was written at its place. -/
theorem getElem?_modifyControl_cases {i : ℕ} {c : FormControlState}
    (hc : (runtime.modifyControl index f).controls[i]? = some c) :
    (index ≠ i ∧ runtime.controls[i]? = some c) ∨
      index = i ∧ ∃ old, runtime.controls[i]? = some old ∧ c = f old := by
  rw [FormRuntime.getElem?_modifyControl, Option.map_eq_some_iff] at hc
  obtain ⟨old, hold, hc⟩ := hc
  split at hc
  · rename_i hi
    exact Or.inr ⟨hi, old, hold, hc.symm⟩
  · rename_i hi
    exact Or.inl ⟨hi, hold.trans (congrArg some hc)⟩

/-- Writes that check no radio button. -/
theorem RadiosOk.modifyControl (h : RadiosOk runtime)
    (hf : ∀ c, runtime.controls[index]? = some c →
      (f c).kind = .radio → (f c).checked = true →
        c.kind = .radio ∧ c.checked = true ∧ (f c).name = c.name) :
    RadiosOk (runtime.modifyControl index f) := by
  have hback (i : ℕ) (c : FormControlState)
      (hc : (runtime.modifyControl index f).controls[i]? = some c) (hkind : c.kind = .radio)
      (hchecked : c.checked = true) :
      ∃ old, runtime.controls[i]? = some old ∧ old.kind = .radio ∧ old.checked = true ∧
        c.name = old.name := by
    rcases getElem?_modifyControl_cases hc with ⟨-, hold⟩ | ⟨rfl, old, hold, rfl⟩
    · exact ⟨c, hold, hkind, hchecked, rfl⟩
    · exact ⟨old, hold, hf old hold hkind hchecked⟩
  intro i j c d hc hd hckind hdkind hcchecked hdchecked howner hname
  obtain ⟨c₀, hc₀, hc₀kind, hc₀checked, hcname⟩ := hback i c hc hckind hcchecked
  obtain ⟨d₀, hd₀, hd₀kind, hd₀checked, hdname⟩ := hback j d hd hdkind hdchecked
  exact h i j c₀ d₀ hc₀ hd₀ hc₀kind hd₀kind hc₀checked hd₀checked howner
    (hcname.symm.trans (hname.trans hdname))

/-- Writes that leave the flags alone. -/
theorem FocusOk.modifyControl (h : FocusOk runtime) (hf : ∀ c, (f c).focused = c.focused) :
    FocusOk (runtime.modifyControl index f) := by
  refine ⟨fun i hi => ?_, fun i c hc => ?_⟩
  · rw [FormRuntime.modifyControl, List.length_modify]
    exact h.lt i hi
  · rcases getElem?_modifyControl_cases hc with ⟨-, hold⟩ | ⟨rfl, old, hold, rfl⟩
    · exact h.iff i c hold
    · rw [hf]
      exact h.iff _ old hold

/-- Writes that leave the values of disabled and read-only controls alone. -/
theorem ValuesOk.modifyControl (h : ValuesOk initial runtime)
    (hf : ∀ c, runtime.controls[index]? = some c → (f c).disabled = true ∨ (f c).readOnly = true →
      (c.disabled = true ∨ c.readOnly = true) ∧ (f c).value = c.value) :
    ValuesOk initial (runtime.modifyControl index f) := by
  intro i c hc hfixed
  rcases getElem?_modifyControl_cases hc with ⟨-, hold⟩ | ⟨rfl, old, hold, rfl⟩
  · exact h i c hold hfixed
  · obtain ⟨hfixed, hvalue⟩ := hf old hold hfixed
    rw [hvalue]
    exact h _ old hold hfixed

/-- Writes that give a `select` one of its options, or leave its value alone. -/
theorem SelectsOk.modifyControl (h : SelectsOk runtime)
    (hf : ∀ c, runtime.controls[index]? = some c → (f c).kind = .select →
      (f c).value ∈ (f c).options ∨
        c.kind = .select ∧ (f c).options = c.options ∧ (f c).value = c.value) :
    SelectsOk (runtime.modifyControl index f) := by
  intro c hc hkind hoptions
  obtain ⟨i, hi⟩ := List.mem_iff_getElem?.mp hc
  rcases getElem?_modifyControl_cases hi with ⟨-, hold⟩ | ⟨rfl, old, hold, rfl⟩
  · exact h c (List.mem_of_getElem? hold) hkind hoptions
  · rcases hf old hold hkind with hmem | ⟨hkind, heq, hvalue⟩
    · exact hmem
    · rw [heq] at hoptions ⊢
      rw [hvalue]
      exact h old (List.mem_of_getElem? hold) hkind hoptions

end Modify

/-! ## The operations -/

section Effects

variable {initial runtime runtime' : FormRuntime} {index : ℕ}

/-- No flag is set once the old focus is taken away. -/
theorem FocusOk.clearFocus (h : FocusOk runtime) {i : ℕ} {c : FormControlState}
    (hc : runtime.clearFocus.controls[i]? = some c) : c.focused = false := by
  rw [← Bool.not_eq_true]
  intro hfocused
  rw [FormRuntime.clearFocus] at hc
  cases hold : runtime.focused with
  | none =>
    rw [hold] at hc
    cases ((h.iff i c hc).mp hfocused).symm.trans hold
  | some old =>
    rw [hold] at hc
    rcases getElem?_modifyControl_cases hc with ⟨hne, hc⟩ | ⟨rfl, c, hc, rfl⟩
    · exact hne (Option.some.inj (hold.symm.trans ((h.iff i c hc).mp hfocused)))
    · exact Bool.false_ne_true hfocused

theorem length_clearFocus : runtime.clearFocus.controls.length = runtime.controls.length := by
  rw [FormRuntime.clearFocus]
  cases runtime.focused with
  | none => rfl
  | some old => exact List.length_modify ..

/-- The new focus. -/
theorem FocusOk.moveFocus (h : FocusOk runtime) (hindex : index < runtime.controls.length) :
    FocusOk (runtime.moveFocus index) := by
  refine ⟨fun i hi => ?_, fun i c hc => ?_⟩
  · rw [FormRuntime.moveFocus, FormRuntime.modifyControl, List.length_modify,
      ← Option.some.inj (show some index = some i from hi)]
    exact length_clearFocus.symm ▸ hindex
  · show c.focused = true ↔ some index = some i
    rw [Option.some.injEq]
    rcases getElem?_modifyControl_cases hc with ⟨hne, hc⟩ | ⟨rfl, c, hc, rfl⟩
    · refine iff_of_false ?_ hne
      rw [h.clearFocus hc]
      exact Bool.false_ne_true
    · exact iff_of_true rfl rfl

/-- Flags are nothing to the other invariants. -/
theorem FormInvariants.moveFocus (h : FormInvariants initial runtime)
    (hindex : index < runtime.controls.length) :
    FormInvariants initial (runtime.moveFocus index) := by
  have hradios : RadiosOk runtime.clearFocus := by
    rw [FormRuntime.clearFocus]
    split
    · exact h.radios.modifyControl fun c _ hkind hchecked => ⟨hkind, hchecked, rfl⟩
    · exact h.radios
  have hvalues : ValuesOk initial runtime.clearFocus := by
    rw [FormRuntime.clearFocus]
    split
    · exact h.values.modifyControl fun c _ hfixed => ⟨hfixed, rfl⟩
    · exact h.values
  have hselects : SelectsOk runtime.clearFocus := by
    rw [FormRuntime.clearFocus]
    split
    · exact h.selects.modifyControl fun c _ hkind => Or.inr ⟨hkind, rfl, rfl⟩
    · exact h.selects
  refine ⟨?_, h.focus.moveFocus hindex, ?_, ?_⟩
  · exact RadiosOk.modifyControl hradios fun c _ hkind hchecked => ⟨hkind, hchecked, rfl⟩
  · exact ValuesOk.modifyControl hvalues fun c _ hfixed => ⟨hfixed, rfl⟩
  · exact SelectsOk.modifyControl hselects fun c _ hkind => Or.inr ⟨hkind, rfl, rfl⟩

theorem FormInvariants.setValue (h : FormInvariants initial runtime) {control : FormControlState}
    {value : Bytes} (hcontrol : runtime.controls[index]? = some control)
    (hdisabled : control.disabled = false) (hreadOnly : control.readOnly = false)
    (hoption : control.kind = .select → value ∈ control.options) :
    FormInvariants initial
      (runtime.modifyControl index fun control => { control with value := value }) := by
  refine ⟨?_, ?_, ?_, ?_⟩
  · exact h.radios.modifyControl fun c _ hkind hchecked => ⟨hkind, hchecked, rfl⟩
  · exact h.focus.modifyControl fun c => rfl
  · refine h.values.modifyControl fun c hc hfixed => ?_
    rw [Option.some.inj (hc.symm.trans hcontrol)] at hfixed
    rcases hfixed with hfixed | hfixed
    · exact absurd (hfixed.symm.trans hdisabled) (by decide)
    · exact absurd (hfixed.symm.trans hreadOnly) (by decide)
  · refine h.selects.modifyControl fun c hc hkind => Or.inl ?_
    rw [Option.some.inj (hc.symm.trans hcontrol)] at hkind ⊢
    exact hoption hkind

theorem FormInvariants.toggle (h : FormInvariants initial runtime) {control : FormControlState}
    (hcontrol : runtime.controls[index]? = some control) (hkind : control.kind = .checkbox) :
    FormInvariants initial
      (runtime.modifyControl index fun control => { control with checked := !control.checked }) := by
  refine ⟨?_, ?_, ?_, ?_⟩
  · refine h.radios.modifyControl fun c hc hradio _ => ?_
    rw [Option.some.inj (hc.symm.trans hcontrol)] at hradio
    exact nomatch hkind.symm.trans hradio
  · exact h.focus.modifyControl fun c => rfl
  · exact h.values.modifyControl fun c _ hfixed => ⟨hfixed, rfl⟩
  · exact h.selects.modifyControl fun c _ hkind => Or.inr ⟨hkind, rfl, rfl⟩

/-- A control once the others of its group are unchecked. -/
theorem getElem?_uncheckOthers_cases {name : Bytes} {i : ℕ} {c : FormControlState}
    (hc : (runtime.uncheckOthers index name).controls[i]? = some c) :
    ∃ old, runtime.controls[i]? = some old ∧ (c = old ∨ c = { old with checked := false }) ∧
      (i ≠ index → c.kind = .radio → c.name = name →
        runtime.formOwner i = runtime.formOwner index → c.checked = false) := by
  rw [FormRuntime.uncheckOthers, List.getElem?_mapIdx, Option.map_eq_some_iff] at hc
  obtain ⟨old, hold, rfl⟩ := hc
  refine ⟨old, hold, ?_⟩
  split
  · rename_i hskip
    refine ⟨Or.inl rfl, fun hne hkind hname _ => ?_⟩
    rcases hskip with hi | hkind' | hname'
    · exact absurd hi hne
    · exact absurd hkind hkind'
    · exact absurd hname hname'
  · split
    · exact ⟨Or.inr rfl, fun _ _ _ _ => rfl⟩
    · rename_i howner
      exact ⟨Or.inl rfl, fun _ _ _ h => absurd h howner⟩

/-- A radio button is checked, and the others of its group are not. -/
theorem FormInvariants.check (h : FormInvariants initial runtime) {control : FormControlState}
    (hcontrol : runtime.controls[index]? = some control) :
    FormInvariants initial
      ((runtime.uncheckOthers index control.name).modifyControl index fun control =>
        { control with checked := true }) := by
  have hfocus : FocusOk (runtime.uncheckOthers index control.name) := by
    refine ⟨fun i hi => ?_, fun i c hc => ?_⟩
    · rw [FormRuntime.uncheckOthers, List.length_mapIdx]
      exact h.focus.lt i hi
    · obtain ⟨old, hold, rfl | rfl, -⟩ := getElem?_uncheckOthers_cases hc
      · exact h.focus.iff i c hold
      · exact h.focus.iff i old hold
  have hvalues : ValuesOk initial (runtime.uncheckOthers index control.name) := by
    intro i c hc
    obtain ⟨old, hold, rfl | rfl, -⟩ := getElem?_uncheckOthers_cases hc
    · exact h.values i c hold
    · exact h.values i old hold
  have hselects : SelectsOk (runtime.uncheckOthers index control.name) := by
    intro c hc
    obtain ⟨i, hi⟩ := List.mem_iff_getElem?.mp hc
    obtain ⟨old, hold, rfl | rfl, -⟩ := getElem?_uncheckOthers_cases hi
    · exact h.selects c (List.mem_of_getElem? hold)
    · exact h.selects old (List.mem_of_getElem? hold)
  -- the control that is checked has the name its group was unchecked with
  have hname (c : FormControlState)
      (hc : (runtime.uncheckOthers index control.name).controls[index]? = some c) :
      c.name = control.name := by
    obtain ⟨old, hold, hcase, -⟩ := getElem?_uncheckOthers_cases hc
    rw [hcontrol] at hold
    rcases hcase with rfl | rfl
    · rw [Option.some.inj hold]
    · rw [Option.some.inj hold]
  refine ⟨?_, hfocus.modifyControl fun c => rfl, ?_, ?_⟩
  · intro i j c d hc hd hckind hdkind hcchecked hdchecked howner hcd
    rcases getElem?_modifyControl_cases hc with ⟨hi, hc⟩ | ⟨rfl, c₀, hc₀, rfl⟩
    · rcases getElem?_modifyControl_cases hd with ⟨hj, hd⟩ | ⟨rfl, d₀, hd₀, rfl⟩
      · obtain ⟨c₀, hc₀, hccase, -⟩ := getElem?_uncheckOthers_cases hc
        obtain ⟨d₀, hd₀, hdcase, -⟩ := getElem?_uncheckOthers_cases hd
        rcases hccase with rfl | rfl
        · rcases hdcase with rfl | rfl
          · exact h.radios i j c d hc₀ hd₀ hckind hdkind hcchecked hdchecked howner hcd
          · exact absurd hdchecked Bool.false_ne_true
        · exact absurd hcchecked Bool.false_ne_true
      · obtain ⟨_, -, -, hothers⟩ := getElem?_uncheckOthers_cases hc
        have hunchecked := hothers hi.symm hckind (hcd.trans (hname d₀ hd₀)) howner
        cases hcchecked.symm.trans hunchecked
    · rcases getElem?_modifyControl_cases hd with ⟨hj, hd⟩ | ⟨rfl, -⟩
      · obtain ⟨_, -, -, hothers⟩ := getElem?_uncheckOthers_cases hd
        have hunchecked := hothers hj.symm hdkind (hcd.symm.trans (hname c₀ hc₀)) howner.symm
        cases hdchecked.symm.trans hunchecked
      · rfl
  · exact hvalues.modifyControl fun c _ hfixed => ⟨hfixed, rfl⟩
  · exact hselects.modifyControl fun c _ hkind => Or.inr ⟨hkind, rfl, rfl⟩

/-- **The operations keep the invariants.** -/
theorem FormInvariants.effect (h : FormInvariants initial runtime)
    (heffect : FormRuntime.Effect runtime runtime') : FormInvariants initial runtime' := by
  cases heffect with
  | same => exact h
  | focus hcontrol => exact h.moveFocus (List.getElem?_eq_some_iff.mp hcontrol).1
  | value hcontrol hdisabled hreadOnly hoption =>
    exact h.setValue hcontrol hdisabled hreadOnly hoption
  | toggle hcontrol hkind => exact h.toggle hcontrol hkind
  | check hcontrol _ => exact h.check hcontrol

end Effects

/-! ## What discovery copies -/

section Markup

variable {h : Heap}

/-- The node is an `option`. -/
def isOption (h : Heap) (id : NodeId) : Bool :=
  match h.nodes id with
  | some node => node.type = .element ∧ lower node.name = lit "option"
  | none => false

/-- The value of an `option`, and whether it is selected. -/
def optionOf (h : Heap) (child : NodeId) : Option (Bytes × Bool) :=
  if isOption h child then
    (h.nodes child).map fun option =>
      (attributeOr option (lit "value") option.data,
        (option.attributeValue (lit "selected")).isSome)
  else none

/-- The options of a `select`. -/
def optionsOf (h : Heap) (node : DomNode) : List (Bytes × Bool) :=
  node.children.filterMap (optionOf h)

/-- The value of the last option that is selected, or else the one that is given. -/
def lastSelected (options : List (Bytes × Bool)) (value : Bytes) : Bytes :=
  options.foldl (fun value option => if option.2 then option.1 else value) value

theorem foldl_readOption (children : List NodeId) (state : FormControlState) :
    children.foldl (readOption h) state =
      { state with
        options := state.options ++ (children.filterMap (optionOf h)).map (·.1)
        value := lastSelected (children.filterMap (optionOf h)) state.value } := by
  induction children generalizing state with
  | nil =>
    rw [List.foldl_nil, List.filterMap_nil, List.map_nil, List.append_nil]
    rfl
  | cons child children ih =>
    have hread : readOption h state child =
        match optionOf h child with
        | none => state
        | some option =>
          { state with
            options := state.options ++ [option.1]
            value := if option.2 then option.1 else state.value } := by
      rw [readOption, optionOf, isOption]
      cases h.nodes child with
      | none => rfl
      | some option =>
        simp only [decide_eq_true_eq]
        split <;> rfl
    rw [List.foldl_cons, ih, hread, List.filterMap_cons]
    cases optionOf h child with
    | none => rfl
    | some option =>
      dsimp only
      rw [List.map_cons, List.append_assoc, List.singleton_append]
      rfl

/-- An option that is selected gives the value. -/
theorem lastSelected_mem {options : List (Bytes × Bool)} (value : Bytes)
    (hselected : ∃ option ∈ options, option.2 = true) :
    lastSelected options value ∈ options.map (·.1) := by
  induction options using List.reverseRecOn with
  | nil =>
    obtain ⟨option, hmem, -⟩ := hselected
    exact absurd hmem List.not_mem_nil
  | append_singleton options option ih =>
    rw [lastSelected, List.foldl_append, List.foldl_cons, List.foldl_nil, List.map_append,
      List.mem_append]
    split
    · exact Or.inr (List.mem_singleton_self _)
    · rename_i hoption
      obtain ⟨found, hmem, hfound⟩ := hselected
      rcases List.mem_append.mp hmem with hmem | hmem
      · exact Or.inl (ih ⟨found, hmem, hfound⟩)
      · rw [List.mem_singleton.mp hmem] at hfound
        exact absurd hfound hoption

theorem lastSelected_of_not {options : List (Bytes × Bool)} (value : Bytes)
    (hselected : ¬ ∃ option ∈ options, option.2 = true) : lastSelected options value = value := by
  induction options with
  | nil => rfl
  | cons option options ih =>
    rw [lastSelected, List.foldl_cons,
      if_neg fun h => hselected ⟨option, List.mem_cons_self, h⟩]
    exact ih fun ⟨found, hmem, hfound⟩ => hselected ⟨found, List.mem_cons_of_mem _ hmem, hfound⟩

/-- The value that discovery gives a `select`. -/
def selectValue (h : Heap) (node : DomNode) : Bytes :=
  let value := lastSelected (optionsOf h node) (attributeOr node (lit "value") [])
  if value = [] then ((optionsOf h node).map (·.1)).headD [] else value

/-- **The control that discovery makes of a node.** -/
theorem controlState_eq (id : NodeId) (node : DomNode) (kind : FormControlKind) :
    controlState h id node kind =
      { node := id
        kind := kind
        name := attributeOr node (lit "name") []
        value :=
          if kind = .select then selectValue h node
          else if kind = .textArea then node.data
          else attributeOr node (lit "value") []
        checked := (node.attributeValue (lit "checked")).isSome
        disabled := (node.attributeValue (lit "disabled")).isSome
        readOnly := (node.attributeValue (lit "readonly")).isSome
        options := if kind = .select then (optionsOf h node).map (·.1) else [] } := by
  rw [controlState]
  dsimp only
  by_cases hkind : kind = .select
  · subst hkind
    have hvalue : (if (FormControlKind.select) = .textArea then node.data
        else attributeOr node (lit "value") []) = attributeOr node (lit "value") [] :=
      if_neg (by decide)
    rw [if_pos rfl, if_pos rfl, if_pos rfl, foldl_readOption, hvalue, selectValue,
      optionsOf]
    dsimp only
    rw [List.nil_append]
    split <;> rfl
  · rw [if_neg hkind, if_neg hkind, if_neg hkind]

/-- A `select` of the markup has no options, or one of them is selected, or the value it has is
empty or one of them. -/
def SelectMarkup (h : Heap) (node : DomNode) : Prop :=
  optionsOf h node = [] ∨ (∃ option ∈ optionsOf h node, option.2 = true) ∨
    attributeOr node (lit "value") [] = [] ∨
      attributeOr node (lit "value") [] ∈ (optionsOf h node).map (·.1)

/-- **When the value of a `select` is one of its options.** -/
theorem selectValue_mem_iff (node : DomNode) (hoptions : optionsOf h node ≠ []) :
    selectValue h node ∈ (optionsOf h node).map (·.1) ↔ SelectMarkup h node := by
  have hhead : ((optionsOf h node).map (·.1)).headD [] ∈ (optionsOf h node).map (·.1) := by
    cases hcases : optionsOf h node with
    | nil => exact absurd hcases hoptions
    | cons option options => exact List.mem_cons_self
  rw [selectValue, SelectMarkup, or_iff_right hoptions]
  by_cases hselected : ∃ option ∈ optionsOf h node, option.2 = true
  · refine iff_of_true ?_ (Or.inl hselected)
    split
    · exact hhead
    · exact lastSelected_mem _ hselected
  · rw [lastSelected_of_not _ hselected, or_iff_right hselected]
    by_cases hempty : attributeOr node (lit "value") [] = []
    · rw [if_pos hempty]
      exact iff_of_true hhead (Or.inl hempty)
    · rw [if_neg hempty, or_iff_right hempty]

/-- The node is a radio button with this name that the markup checks. -/
def CheckedRadio (h : Heap) (name : Bytes) (x : NodeId) : Prop :=
  ∃ node, h.nodes x = some node ∧ kindFor node = some .radio ∧
    (node.attributeValue (lit "checked")).isSome ∧ attributeOr node (lit "name") [] = name

theorem checkedRadio_iff {x : NodeId} {c : FormControlState} (hc : controlAt h x = some c)
    (name : Bytes) :
    CheckedRadio h name x ↔ c.kind = .radio ∧ c.checked = true ∧ c.name = name := by
  obtain ⟨node, hnode, hc⟩ := Option.bind_eq_some_iff.mp hc
  obtain ⟨kind, hkind, rfl⟩ := Option.map_eq_some_iff.mp hc
  rw [controlState_eq]
  constructor
  · rintro ⟨node', hnode', hkind', hchecked, hname⟩
    rw [← Option.some.inj (hnode.symm.trans hnode')] at hkind' hchecked hname
    exact ⟨Option.some.inj (hkind.symm.trans hkind'), hchecked, hname⟩
  · rintro ⟨hradio, hchecked, hname⟩
    exact ⟨node, hnode, hkind.trans (congrArg some hradio), hchecked, hname⟩

end Markup

/-! ## Whole runs -/

section Runs

variable (doc : Document)

/-- The owner of a node that is a control. -/
def ownerOf (x : NodeId) : Option ℕ :=
  (FormRuntime.ofDocument doc).formOwner
    (((FormRuntime.ofDocument doc).controls.map (·.node)).idxOf x)

/-- The markup checks at most one radio button of each owner and name, and gives each `select`
with options the value of one of them. -/
structure MarkupOk : Prop where
  radios : ∀ x ∈ doc.toTree.tree.preorder, ∀ y ∈ doc.toTree.tree.preorder, ∀ name,
    CheckedRadio doc.heap name x → CheckedRadio doc.heap name y → ownerOf doc x = ownerOf doc y →
      x = y
  selects : ∀ x ∈ doc.toTree.tree.preorder, ∀ node, doc.heap.nodes x = some node →
    kindFor node = some .select → SelectMarkup doc.heap node

theorem nodup_nodes_ofDocument : ((FormRuntime.ofDocument doc).controls.map (·.node)).Nodup := by
  rw [controls_ofDocument, List.map_filterMap]
  refine List.Nodup.sublist ?_ doc.toTree.nodup_preorder_tree
  induction doc.toTree.tree.preorder with
  | nil => exact List.Sublist.refl _
  | cons x xs ih =>
    rw [List.filterMap_cons]
    cases hc : controlAt doc.heap x with
    | none => exact ih.cons x
    | some c =>
      rw [Option.map_some, node_of_controlAt hc]
      exact ih.cons_cons x

variable {doc}

theorem ownerOf_eq {i : ℕ} {c : FormControlState}
    (hc : (FormRuntime.ofDocument doc).controls[i]? = some c) :
    ownerOf doc c.node = (FormRuntime.ofDocument doc).formOwner i := by
  obtain ⟨hi, hget⟩ := List.getElem?_eq_some_iff.mp hc
  have hlt : i < ((FormRuntime.ofDocument doc).controls.map (·.node)).length := by
    rw [List.length_map]
    exact hi
  have hidx := (nodup_nodes_ofDocument doc).idxOf_getElem i hlt
  rw [List.getElem_map, hget] at hidx
  rw [ownerOf, hidx]

variable (doc)

theorem exists_getElem?_ofDocument {x : NodeId} (hx : x ∈ doc.toTree.tree.preorder)
    {c : FormControlState} (hc : controlAt doc.heap x = some c) :
    ∃ i : ℕ, (FormRuntime.ofDocument doc).controls[i]? = some c := by
  rw [← List.mem_iff_getElem?, controls_ofDocument]
  exact List.mem_filterMap.mpr ⟨x, hx, hc⟩

theorem exists_of_getElem?_ofDocument {i : ℕ} {c : FormControlState}
    (hc : (FormRuntime.ofDocument doc).controls[i]? = some c) :
    ∃ x ∈ doc.toTree.tree.preorder, controlAt doc.heap x = some c := by
  have hmem := List.mem_of_getElem? hc
  rw [controls_ofDocument] at hmem
  exact List.mem_filterMap.mp hmem

theorem radiosOk_ofDocument_iff :
    RadiosOk (FormRuntime.ofDocument doc) ↔
      ∀ x ∈ doc.toTree.tree.preorder, ∀ y ∈ doc.toTree.tree.preorder, ∀ name,
        CheckedRadio doc.heap name x → CheckedRadio doc.heap name y →
          ownerOf doc x = ownerOf doc y → x = y := by
  have hcontrol {x : NodeId} {name : Bytes} (hx : CheckedRadio doc.heap name x) :
      ∃ c, controlAt doc.heap x = some c := by
    obtain ⟨node, hnode, hkind, -⟩ := hx
    exact ⟨controlState doc.heap x node .radio, by rw [controlAt, hnode, Option.bind_some, hkind]; rfl⟩
  constructor
  · intro h x hx y hy name hxr hyr howner
    obtain ⟨c, hc⟩ := hcontrol hxr
    obtain ⟨d, hd⟩ := hcontrol hyr
    obtain ⟨i, hi⟩ := exists_getElem?_ofDocument doc hx hc
    obtain ⟨j, hj⟩ := exists_getElem?_ofDocument doc hy hd
    obtain ⟨hckind, hcchecked, hcname⟩ := (checkedRadio_iff hc name).mp hxr
    obtain ⟨hdkind, hdchecked, hdname⟩ := (checkedRadio_iff hd name).mp hyr
    rw [← node_of_controlAt hc, ← node_of_controlAt hd, ownerOf_eq hi, ownerOf_eq hj] at howner
    have hij := h i j c d hi hj hckind hdkind hcchecked hdchecked howner
      (hcname.trans hdname.symm)
    rw [hij, hj] at hi
    rw [← node_of_controlAt hc, ← node_of_controlAt hd, Option.some.inj hi]
  · intro h i j c d hi hj hckind hdkind hcchecked hdchecked howner hname
    obtain ⟨x, hx, hc⟩ := exists_of_getElem?_ofDocument doc hi
    obtain ⟨y, hy, hd⟩ := exists_of_getElem?_ofDocument doc hj
    have hxy := h x hx y hy c.name ((checkedRadio_iff hc _).mpr ⟨hckind, hcchecked, rfl⟩)
      ((checkedRadio_iff hd _).mpr ⟨hdkind, hdchecked, hname.symm⟩) (by
        rw [← node_of_controlAt hc, ← node_of_controlAt hd, ownerOf_eq hi, ownerOf_eq hj]
        exact howner)
    rw [hxy, hd] at hc
    rw [← Option.some.inj hc] at hi
    have hlt := (List.getElem?_eq_some_iff.mp hi).1
    refine (List.getElem?_inj hlt (List.Nodup.of_map _ (nodup_nodes_ofDocument doc))).mp ?_
    rw [hi, hj]

theorem selectsOk_ofDocument_iff :
    SelectsOk (FormRuntime.ofDocument doc) ↔
      ∀ x ∈ doc.toTree.tree.preorder, ∀ node, doc.heap.nodes x = some node →
        kindFor node = some .select → SelectMarkup doc.heap node := by
  constructor
  · intro h x hx node hnode hkind
    have hc : controlAt doc.heap x = some (controlState doc.heap x node .select) := by
      rw [controlAt, hnode, Option.bind_some, hkind]
      rfl
    obtain ⟨i, hi⟩ := exists_getElem?_ofDocument doc hx hc
    have hselect := h _ (List.mem_of_getElem? hi)
    rw [controlState_eq] at hselect
    dsimp only at hselect
    rw [if_pos rfl, if_pos rfl] at hselect
    by_cases hoptions : optionsOf doc.heap node = []
    · exact Or.inl hoptions
    · exact (selectValue_mem_iff node hoptions).mp
        (hselect rfl fun hnil => hoptions (List.map_eq_nil_iff.mp hnil))
  · intro h c hc hkind hoptions
    obtain ⟨i, hi⟩ := List.mem_iff_getElem?.mp hc
    obtain ⟨x, hx, hc⟩ := exists_of_getElem?_ofDocument doc hi
    obtain ⟨node, hnode, hc⟩ := Option.bind_eq_some_iff.mp hc
    obtain ⟨kind, hkind', rfl⟩ := Option.map_eq_some_iff.mp hc
    rw [controlState_eq] at hkind hoptions ⊢
    dsimp only at hkind hoptions ⊢
    rw [if_pos hkind] at hoptions
    rw [if_pos hkind, if_pos hkind]
    refine (selectValue_mem_iff node fun hnil => hoptions (List.map_eq_nil_iff.mpr hnil)).mpr ?_
    exact h x hx node hnode (hkind'.trans (congrArg some hkind))

/-- Discovery sets no flag. -/
theorem focused_of_mem_ofDocument {c : FormControlState}
    (hc : c ∈ (FormRuntime.ofDocument doc).controls) : c.focused = false := by
  obtain ⟨i, hi⟩ := List.mem_iff_getElem?.mp hc
  obtain ⟨x, -, hc⟩ := exists_of_getElem?_ofDocument doc hi
  obtain ⟨node, -, hc⟩ := Option.bind_eq_some_iff.mp hc
  obtain ⟨kind, -, rfl⟩ := Option.map_eq_some_iff.mp hc
  rw [controlState_eq]

theorem focused_ofDocument : (FormRuntime.ofDocument doc).focused = none := by
  rw [FormRuntime.ofDocument, focused_discover]

/-- **The invariants when the controls have been found.** -/
theorem formInvariants_ofDocument :
    FormInvariants (FormRuntime.ofDocument doc) (FormRuntime.ofDocument doc) ↔ MarkupOk doc := by
  constructor
  · intro h
    exact ⟨(radiosOk_ofDocument_iff doc).mp h.radios, (selectsOk_ofDocument_iff doc).mp h.selects⟩
  · intro h
    refine ⟨(radiosOk_ofDocument_iff doc).mpr h.radios, ⟨fun i hi => ?_, fun i c hc => ?_⟩,
      fun i c hc _ => ⟨c, hc, rfl⟩, (selectsOk_ofDocument_iff doc).mpr h.selects⟩
    · exact nomatch (focused_ofDocument doc).symm.trans hi
    · rw [focused_of_mem_ofDocument doc (List.mem_of_getElem? hc), focused_ofDocument]
      exact iff_of_false Bool.false_ne_true nofun

/-- **When the invariants hold.**  They hold in all states of every run exactly if the markup
checks at most one radio button of each owner and name and gives each `select` one of its
options. -/
theorem formInvariants_iff (run : List FormRuntime.FormOperation) :
    (∀ runtime ∈ run.scanl FormRuntime.formStep (FormRuntime.ofDocument doc),
      FormInvariants (FormRuntime.ofDocument doc) runtime) ↔ MarkupOk doc := by
  rw [← formInvariants_ofDocument]
  constructor
  · exact fun h => h _ (Runs.mem_scanl_self _ _)
  · exact fun h => Runs.forall_mem_scanl (P := fun _ _ => True)
      (fun _ operation hok _ => hok.effect (FormRuntime.effect_formStep operation)) h
      (Runs.along_of_forall fun _ _ => trivial)

/-- Two radio buttons of one name, both checked. -/
def twoChecked : Document :=
  Html.parseHtml (lit "<input type=radio name=a checked><input type=radio name=a checked>")

/-- They are both checked when they have been found. -/
theorem not_formInvariants_twoChecked :
    ¬ ∀ (doc : Document) (run : List FormRuntime.FormOperation),
      ∀ runtime ∈ run.scanl FormRuntime.formStep (FormRuntime.ofDocument doc),
        FormInvariants (FormRuntime.ofDocument doc) runtime := by
  intro h
  have hfirst : (FormRuntime.ofDocument twoChecked).controls[0]? =
      some { node := 1, kind := .radio, name := lit "a", checked := true } := by decide +kernel
  have hsecond : (FormRuntime.ofDocument twoChecked).controls[1]? =
      some { node := 2, kind := .radio, name := lit "a", checked := true } := by decide +kernel
  have hradios := (h twoChecked [] _ (Runs.mem_scanl_self _ _)).radios
  exact absurd (hradios 0 1 _ _ hfirst hsecond rfl rfl rfl rfl (by decide +kernel) rfl)
    Nat.zero_ne_one

end Runs

end Aetheris.Session
