import Aetheris.Session.BrowserApplication
import Aetheris.Session.FormInvariants
import Aetheris.Session.History

/-!
# Two records of the focus

The visual state of a session and its form runtime each keep the focus.  `activate_control_at` sets
the one in the visual state, and nothing in the application calls `FormRuntime::focus`, so the one
in the form runtime is never set: the records agree only as long as both are empty, and no text is
ever typed into a control.

That both are empty is the invariant.  The only event that breaks it is a primary press on a control
that is enabled and not a `select`, and such a press breaks the contract at once.
-/

namespace Aetheris.Session

open Dom Net

namespace BrowserApplication

variable {F L W : Type*} [Zero F] [Add F] [Sub F] [LT F] [DecidableLT F] [LE F] [DecidableLE F]
  [BEq F] (renderer : Renderer F L) (page : PageLayout F L)

/-- What the user does. -/
inductive UserEvent (F W : Type*) where
  | navigate (request : NavigationRequest F) (loader : ResourceLoader W)
  | move (x y : F)
  | press (x y : F) (button : PointerButton) (loader : ResourceLoader W)
  | release (button : PointerButton)
  | textInput (text : Bytes)
  | backspace

/-- The application after such an event. -/
def userStep (app : BrowserApplication F L) : UserEvent F W → Option (BrowserApplication F L)
  | .navigate request loader => (app.navigate renderer request loader).map (·.2.1)
  | .move x y => (app.pointerMove page x y).map (·.2)
  | .press x y button loader => (app.pointerPress renderer page x y button loader).map (·.2.1)
  | .release button => some (app.pointerRelease button).2
  | .textInput text => some (app.textInput text).2
  | .backspace => some app.backspace.2

/-! ## The contract -/

/-- The node of the control that the form runtime reports as focused. -/
def focusedNode (s : BrowserSession F L) : Option NodeId :=
  s.formRuntime.bind fun runtime =>
    runtime.focused.bind fun i => (runtime.controls[i]?).map (·.node)

/-- The two records of the focus agree. -/
def FocusAgrees (app : BrowserApplication F L) : Prop :=
  ∀ s, app.activeSession = some s → s.visualState.focused = focusedNode s

/-- A control of the page that is shown. -/
def control (app : BrowserApplication F L) (i : ℕ) : Option FormControlState :=
  (app.activeSession.bind (·.formRuntime)).bind (·.controls[i]?)

/-- The control under the pointer. -/
def hitControl (app : BrowserApplication F L) (x y : F) : Option (ℕ × FormControlState) :=
  app.activeSession.bind fun s =>
    (s.hitTest page x y).bind fun hit =>
      (hit.domNode.bind s.controlOf).bind fun i => (app.control i).map fun control => (i, control)

/-- After a primary press on an enabled control that takes text, `text_input` and `backspace` edit
its value. -/
def PressEdits (app : BrowserApplication F L) (event : UserEvent F W) : Prop :=
  ∀ x y loader i c app', event = .press x y .primary loader → hitControl page app x y = some (i, c) →
    c.disabled = false → c.kind.takesText = true → userStep renderer page app event = some app' →
      (∀ text, ((app'.textInput text).2.control i).map (·.value) = some (c.value ++ text)) ∧
        (app'.backspace.2.control i).map (·.value) = some c.value.dropLast

/-! ## The conditions -/

/-- A primary press hits no enabled control of the kinds that `activate` acts on. -/
def PressesNoButton (app : BrowserApplication F L) (event : UserEvent F W) : Prop :=
  ∀ x y loader i c, event = .press x y .primary loader → hitControl page app x y = some (i, c) →
    c.disabled = true ∨ c.kind.takesText = true ∨ c.kind = .select

/-- A primary press hits no enabled control that takes text. -/
def PressesNoText (app : BrowserApplication F L) (event : UserEvent F W) : Prop :=
  ∀ x y loader i c, event = .press x y .primary loader → hitControl page app x y = some (i, c) →
    c.disabled = true ∨ c.kind.takesText = false

/-- A primary press hits no enabled control other than a `select`. -/
def PressesNoControl (app : BrowserApplication F L) (event : UserEvent F W) : Prop :=
  ∀ x y loader i c, event = .press x y .primary loader → hitControl page app x y = some (i, c) →
    c.disabled = true ∨ c.kind = .select

omit [Sub F] [LT F] [DecidableLT F] [LE F] [DecidableLE F] [BEq F] in
theorem pressesNoControl_iff {app : BrowserApplication F L} {event : UserEvent F W} :
    PressesNoControl page app event ↔
      PressesNoButton page app event ∧ PressesNoText page app event := by
  constructor
  · intro h
    refine ⟨fun x y loader i c hevent hhit => ?_, fun x y loader i c hevent hhit => ?_⟩
    · exact (h x y loader i c hevent hhit).imp_right Or.inr
    · exact (h x y loader i c hevent hhit).imp_right fun hkind => by rw [hkind]; rfl
  · rintro ⟨hbutton, htext⟩ x y loader i c hevent hhit
    rcases htext x y loader i c hevent hhit with hdisabled | hkind
    · exact Or.inl hdisabled
    · rcases hbutton x y loader i c hevent hhit with hdisabled | htakes | hselect
      · exact Or.inl hdisabled
      · exact nomatch htakes.symm.trans hkind
      · exact Or.inr hselect

/-! ## The invariant -/

/-- Neither record is set, and no control has its flag set. -/
structure SessionUnfocused (s : BrowserSession F L) : Prop where
  visual : s.visualState.focused = none
  runtime : ∀ runtime, s.formRuntime = some runtime → runtime.focused = none
  controls : ∀ runtime, s.formRuntime = some runtime → ∀ c ∈ runtime.controls, c.focused = false

/-- So it is in every tab. -/
def Unfocused (app : BrowserApplication F L) : Prop :=
  ∀ tab ∈ app.tabs, SessionUnfocused tab.session

/-! ## What `activate` answers -/

theorem activate_fst_iff {runtime : FormRuntime} {i : ℕ} :
    (runtime.activate i).1 = true ↔
      ∃ c, runtime.controls[i]? = some c ∧ c.disabled = false ∧ c.kind.takesText = false ∧
        c.kind ≠ .select := by
  rw [FormRuntime.activate]
  cases runtime.controls[i]? with
  | none => exact iff_of_false Bool.false_ne_true (by rintro ⟨_, ⟨⟩, _⟩)
  | some c =>
    have hexists : (∃ d, some c = some d ∧ d.disabled = false ∧ d.kind.takesText = false ∧
        d.kind ≠ .select) ↔ c.disabled = false ∧ c.kind.takesText = false ∧ c.kind ≠ .select := by
      constructor
      · rintro ⟨d, heq, h⟩
        obtain rfl := Option.some.inj heq
        exact h
      · exact fun h => ⟨c, rfl, h⟩
    rw [hexists]
    dsimp only
    cases c.disabled with
    | true => exact iff_of_false Bool.false_ne_true fun h => by cases h.1
    | false =>
      rw [if_neg Bool.false_ne_true, apply_ite Prod.fst, apply_ite Prod.fst]
      dsimp only
      cases c.kind <;> decide

theorem activate_snd_of_fst_eq_false {runtime : FormRuntime} {i : ℕ}
    (h : (runtime.activate i).1 = false) : (runtime.activate i).2 = runtime := by
  rw [FormRuntime.activate] at h ⊢
  cases hc : runtime.controls[i]? with
  | none => rfl
  | some c =>
    rw [hc] at h
    dsimp only at h ⊢
    split
    · rfl
    · rename_i hdisabled
      rw [if_neg hdisabled] at h
      split
      · rename_i hkind
        rw [if_pos hkind] at h
        cases h
      · rename_i hkind
        rw [if_neg hkind] at h
        split
        · rename_i hradio
          rw [if_pos hradio] at h
          cases h
        · rfl

theorem focused_activate (runtime : FormRuntime) (i : ℕ) :
    (runtime.activate i).2.focused = runtime.focused := by
  rw [FormRuntime.activate]
  cases runtime.controls[i]? with
  | none => rfl
  | some c =>
    dsimp only
    split
    · rfl
    · split
      · rfl
      · split <;> rfl

/-! ## Sessions -/

section Sessions

variable {renderer page} {s s' : BrowserSession F L} {x y : F}

omit [Add F] [LE F] [DecidableLE F] in
theorem sessionUnfocused_showPage (s : BrowserSession F L) (request : NavigationRequest F)
    (metadata : PageMetadata) : SessionUnfocused (showPage renderer s request metadata) := by
  rw [showPage]
  dsimp only
  cases s.navigation.currentDocument with
  | none => exact ⟨rfl, (fun _ h => by cases h), (fun _ h => by cases h)⟩
  | some document =>
    refine ⟨rfl, fun runtime h => ?_, fun runtime h => ?_⟩
    · rw [← Option.some.inj (show some _ = some runtime from h)]
      exact focused_ofDocument document.document
    · rw [← Option.some.inj (show some _ = some runtime from h)]
      exact fun c => focused_of_mem_ofDocument document.document

omit [Add F] in
theorem SessionUnfocused.navigateTo (h : SessionUnfocused s) {request : NavigationRequest F}
    {loader loader' : ResourceLoader W} {result : NavigationResult}
    (hnavigate : navigateTo renderer s request loader = some (result, s', loader')) :
    SessionUnfocused s' := by
  obtain ⟨⟨result₁, navigation, loader₁⟩, -, hcommit⟩ := Option.map_eq_some_iff.mp hnavigate
  dsimp only at hcommit
  split at hcommit
  · rw [← (Prod.mk.inj (Prod.mk.inj hcommit).2).1]
    exact ⟨h.visual, h.runtime, h.controls⟩
  · rw [← (Prod.mk.inj (Prod.mk.inj hcommit).2).1]
    exact sessionUnfocused_showPage _ _ _

omit [Add F] [LE F] [DecidableLE F] [BEq F] in
theorem SessionUnfocused.scrollToFragment (h : SessionUnfocused s) (fragment : Bytes) :
    SessionUnfocused (s.scrollToFragment page fragment).2 := by
  rw [BrowserSession.scrollToFragment]
  split
  · exact h
  · exact ⟨h.visual, h.runtime, h.controls⟩

theorem SessionUnfocused.activateAt (h : SessionUnfocused s) {loader loader' : ResourceLoader W}
    {result : NavigationResult}
    (hactivate : s.activateAt renderer page x y loader = some (result, s', loader')) :
    SessionUnfocused s' := by
  have hsame {r : NavigationResult} {t : BrowserSession F L} (ht : SessionUnfocused t)
      (heq : some (r, t, loader) = some (result, s', loader')) : SessionUnfocused s' := by
    rw [← (Prod.mk.inj (Prod.mk.inj (Option.some.inj heq)).2).1]
    exact ht
  rw [BrowserSession.activateAt] at hactivate
  split at hactivate
  · exact hsame h hactivate
  · obtain ⟨hit, -, hactivate⟩ := Option.bind_eq_some_iff.mp hactivate
    split at hactivate
    · exact hsame h hactivate
    · dsimp only at hactivate
      split at hactivate
      · split at hactivate
        · exact hsame (h.scrollToFragment _) hactivate
        · exact hsame (h.scrollToFragment _) hactivate
      · exact h.navigateTo hactivate

omit [Sub F] [LT F] [DecidableLT F] [LE F] [DecidableLE F] [BEq F] in
theorem SessionUnfocused.hoverAt (h : SessionUnfocused s) {changed : Bool}
    (hhover : s.hoverAt page x y = some (changed, s')) : SessionUnfocused s' := by
  obtain ⟨hit, -, hhover⟩ := Option.map_eq_some_iff.mp hhover
  rw [← (Prod.mk.inj hhover).2]
  refine ⟨?_, h.runtime, h.controls⟩
  show (s.visualState.setHovered hit.domNode).focused = none
  rw [VisualInteractionState.setHovered, VisualInteractionState.setNode]
  split
  · exact h.visual
  · exact h.visual

omit [Sub F] [LT F] [DecidableLT F] [LE F] [DecidableLE F] [BEq F] in
/-- What `activate_control_at` does: nothing, or it acts on the control under the pointer and
takes the focus of the visual state there. -/
theorem activateControlAt_cases {activated : Bool}
    (h : s.activateControlAt page x y = some (activated, s')) :
    (activated = false ∧ s' = s ∧
      ∀ hit node runtime i c, s.hitTest page x y = some hit → hit.domNode = some node →
        s.formRuntime = some runtime → s.controlOf node = some i → runtime.controls[i]? = some c →
          c.disabled = true ∨ c.kind.takesText = true ∨ c.kind = .select) ∨
      activated = true ∧ ∃ hit node runtime i c, s.hitTest page x y = some hit ∧
        hit.domNode = some node ∧ s.formRuntime = some runtime ∧ s.controlOf node = some i ∧
          runtime.controls[i]? = some c ∧
            ¬ (c.disabled = true ∨ c.kind.takesText = true ∨ c.kind = .select) ∧
              s'.visualState.focused = some node ∧
                s'.formRuntime = some (runtime.activate i).2 := by
  obtain ⟨hit, hhit, h⟩ := Option.map_eq_some_iff.mp h
  cases hnode : hit.domNode with
  | none =>
    rw [hnode] at h
    refine Or.inl ⟨(Prod.mk.inj h).1.symm, (Prod.mk.inj h).2.symm, ?_⟩
    intro hit' node runtime i c hhit' hnode'
    rw [← Option.some.inj (hhit.symm.trans hhit'), hnode] at hnode'
    cases hnode'
  | some node =>
    cases hruntime : s.formRuntime with
    | none =>
      rw [hnode, hruntime] at h
      exact Or.inl ⟨(Prod.mk.inj h).1.symm, (Prod.mk.inj h).2.symm,
        fun _ _ _ _ _ _ _ hruntime' => by cases hruntime'⟩
    | some runtime =>
      rw [hnode, hruntime] at h
      dsimp only at h
      cases hindex : s.controlOf node with
      | none =>
        rw [hindex] at h
        refine Or.inl ⟨(Prod.mk.inj h).1.symm, (Prod.mk.inj h).2.symm, ?_⟩
        intro hit' node' runtime' i c hhit' hnode' _ hindex'
        rw [← Option.some.inj (hhit.symm.trans hhit'), hnode] at hnode'
        rw [← Option.some.inj hnode', hindex] at hindex'
        cases hindex'
      | some i =>
        rw [hindex] at h
        dsimp only at h
        by_cases hactivate : (runtime.activate i).1 = true
        · rw [if_pos hactivate] at h
          obtain ⟨c, hc, hdisabled, htext, hselect⟩ := activate_fst_iff.mp hactivate
          refine Or.inr ⟨(Prod.mk.inj h).1.symm, hit, node, runtime, i, c, hhit, hnode, rfl,
            hindex, hc, ?_, ?_, ?_⟩
          · rintro (hdisabled' | htext' | hselect')
            · cases hdisabled.symm.trans hdisabled'
            · cases htext.symm.trans htext'
            · exact hselect hselect'
          · rw [← (Prod.mk.inj h).2]
            show (s.visualState.setFocused (some node)).focused = some node
            rw [VisualInteractionState.setFocused, VisualInteractionState.setNode]
            split
            · rename_i hsame
              exact hsame
            · rfl
          · rw [← (Prod.mk.inj h).2]
        · rw [if_neg hactivate] at h
          refine Or.inl ⟨(Prod.mk.inj h).1.symm, ?_, ?_⟩
          · rw [← (Prod.mk.inj h).2,
              activate_snd_of_fst_eq_false (Bool.eq_false_of_not_eq_true hactivate), ← hruntime]
          · intro hit' node' runtime' i' c hhit' hnode' hruntime' hindex' hc
            rw [← Option.some.inj (hhit.symm.trans hhit'), hnode] at hnode'
            rw [← Option.some.inj hnode', hindex] at hindex'
            rw [← Option.some.inj hruntime', ← Option.some.inj hindex'] at hc
            by_contra hnot
            rw [not_or, not_or, Bool.not_eq_true, Bool.not_eq_true] at hnot
            exact hactivate (activate_fst_iff.mpr ⟨c, hc, hnot.1, hnot.2.1, hnot.2.2⟩)

end Sessions

/-! ## The application -/

section Application

variable {renderer page} {app app' : BrowserApplication F L} {s s' : BrowserSession F L}

omit [Add F] [Sub F] [LT F] [DecidableLT F] [LE F] [DecidableLE F] [BEq F] in
theorem Unfocused.activeSession (h : Unfocused app) (hs : app.activeSession = some s) :
    SessionUnfocused s := by
  obtain ⟨tab, htab, rfl⟩ := Option.map_eq_some_iff.mp hs
  obtain ⟨i, -, hget⟩ := Option.bind_eq_some_iff.mp htab
  exact h tab (List.mem_of_getElem? hget)

omit [Add F] [Sub F] [LT F] [DecidableLT F] [LE F] [DecidableLE F] [BEq F] in
theorem Unfocused.setActiveSession (h : Unfocused app) (hs : SessionUnfocused s) :
    Unfocused (app.setActiveSession s) := by
  rw [BrowserApplication.setActiveSession]
  split
  · exact h
  · rename_i i _
    intro tab htab
    obtain ⟨j, hj⟩ := List.mem_iff_getElem?.mp htab
    rw [List.getElem?_modify, Option.map_eq_map, Option.map_eq_some_iff] at hj
    obtain ⟨old, hold, rfl⟩ := hj
    split
    · exact hs
    · exact h old (List.mem_of_getElem? hold)

omit [Add F] [Sub F] [LT F] [DecidableLT F] [LE F] [DecidableLE F] [BEq F] in
theorem activeSession_setActiveSession (hs : app.activeSession = some s) :
    (app.setActiveSession s').activeSession = some s' := by
  obtain ⟨tab, htab, -⟩ := Option.map_eq_some_iff.mp hs
  obtain ⟨i, hi, hget⟩ := Option.bind_eq_some_iff.mp htab
  rw [BrowserApplication.setActiveSession, hi, BrowserApplication.activeSession, activeTab]
  dsimp only
  rw [Option.bind_some, List.getElem?_modify, hget, Option.map_eq_map, Option.map_some,
    if_pos rfl, Option.map_some]

omit [Add F] [Sub F] [LT F] [DecidableLT F] [LE F] [DecidableLE F] [BEq F] in
theorem Unfocused.focusAgrees (h : Unfocused app) : FocusAgrees app := by
  intro s hs
  have hsession := h.activeSession hs
  rw [hsession.visual, focusedNode]
  cases hruntime : s.formRuntime with
  | none => rfl
  | some runtime =>
    rw [Option.bind_some, hsession.runtime runtime hruntime]
    rfl

omit [Add F] [Sub F] [LT F] [DecidableLT F] [LE F] [DecidableLE F] [BEq F] in
/-- **Without a focus there is nothing to edit.** -/
theorem Unfocused.edit (h : Unfocused app) (operation : FormRuntime → Bool × FormRuntime) :
    (app.edit operation).2 = app := by
  rw [BrowserApplication.edit]
  cases hs : app.activeSession with
  | none => rfl
  | some s =>
    dsimp only
    cases hruntime : s.formRuntime with
    | none => rfl
    | some runtime =>
      dsimp only
      rw [if_neg]
      rw [List.any_eq_true, not_exists]
      rintro c ⟨hc, hfocused⟩
      exact nomatch hfocused.symm.trans
        ((h.activeSession hs).controls runtime hruntime c hc)

omit [Sub F] [LT F] [DecidableLT F] [LE F] [DecidableLE F] [BEq F] in
theorem hitControl_eq {x y : F} {hit : HitTestResult} {node : NodeId} {runtime : FormRuntime}
    {i : ℕ} {c : FormControlState} (hs : app.activeSession = some s)
    (hhit : s.hitTest page x y = some hit) (hnode : hit.domNode = some node)
    (hruntime : s.formRuntime = some runtime) (hindex : s.controlOf node = some i)
    (hc : runtime.controls[i]? = some c) : hitControl page app x y = some (i, c) := by
  rw [hitControl, hs, Option.bind_some, hhit, Option.bind_some, hnode, Option.bind_some, hindex,
    Option.bind_some, control, hs, Option.bind_some, hruntime, Option.bind_some, hc,
    Option.map_some]

omit [Sub F] [LT F] [DecidableLT F] [LE F] [DecidableLE F] [BEq F] in
theorem exists_of_hitControl {x y : F} {i : ℕ} {c : FormControlState}
    (h : hitControl page app x y = some (i, c)) :
    ∃ s hit node runtime, app.activeSession = some s ∧ s.hitTest page x y = some hit ∧
      hit.domNode = some node ∧ s.formRuntime = some runtime ∧ s.controlOf node = some i ∧
        runtime.controls[i]? = some c := by
  obtain ⟨s, hs, h⟩ := Option.bind_eq_some_iff.mp h
  obtain ⟨hit, hhit, h⟩ := Option.bind_eq_some_iff.mp h
  obtain ⟨j, hj, h⟩ := Option.bind_eq_some_iff.mp h
  obtain ⟨d, hd, heq⟩ := Option.map_eq_some_iff.mp h
  obtain ⟨node, hnode, hindex⟩ := Option.bind_eq_some_iff.mp hj
  rw [Prod.mk.injEq] at heq
  rw [heq.1] at hd hindex
  rw [heq.2, control, hs, Option.bind_some] at hd
  obtain ⟨runtime, hruntime, hc⟩ := Option.bind_eq_some_iff.mp hd
  exact ⟨s, hit, node, runtime, hs, hhit, hnode, hruntime, hindex, hc⟩

/-- **What a primary press does**: it is handed to the active session as a press on a control, and
if there is nothing to activate, on with a search for a link. -/
theorem pointerPress_cases {x y : F} {loader loader' : ResourceLoader W}
    {result : NavigationResult}
    (h : app.pointerPress renderer page x y .primary loader = some (result, app', loader')) :
    (app.activeSession = none ∧ app' = { app with primaryPressed := true }) ∨
      ∃ s activated s₁, app.activeSession = some s ∧
        s.activateControlAt page x y = some (activated, s₁) ∧
          ((activated = true ∧
              app' = setActiveSession { app with primaryPressed := true } s₁) ∨
            activated = false ∧ ∃ s₂ result' loader₂,
              s₁.activateAt renderer page x y loader = some (result', s₂, loader₂) ∧
                app' = setActiveSession { app with primaryPressed := true } s₂) := by
  rw [pointerPress, if_neg (not_not.mpr rfl)] at h
  dsimp only at h
  have hactive : BrowserApplication.activeSession { app with primaryPressed := true } =
      app.activeSession := rfl
  rw [hactive] at h
  cases hs : app.activeSession with
  | none =>
    rw [hs] at h
    exact Or.inl ⟨rfl, (Prod.mk.inj (Prod.mk.inj (Option.some.inj h)).2).1.symm⟩
  | some s =>
    rw [hs] at h
    obtain ⟨⟨activated, s₁⟩, hcontrol, h⟩ := Option.bind_eq_some_iff.mp h
    refine Or.inr ⟨s, activated, s₁, rfl, hcontrol, ?_⟩
    dsimp only at h
    split at h
    · rename_i hactivated
      exact Or.inl ⟨hactivated, (Prod.mk.inj (Prod.mk.inj (Option.some.inj h)).2).1.symm⟩
    · rename_i hactivated
      obtain ⟨⟨result', s₂, loader₂⟩, hlink, h⟩ := Option.map_eq_some_iff.mp h
      exact Or.inr ⟨Bool.eq_false_of_not_eq_true hactivated, s₂, result', loader₂, hlink,
        (Prod.mk.inj (Prod.mk.inj h).2).1.symm⟩

/-- **An event that presses no button keeps both records empty.** -/
theorem Unfocused.userStep (h : Unfocused app) {event : UserEvent F W}
    (hevent : PressesNoButton page app event)
    (hstep : userStep renderer page app event = some app') : Unfocused app' := by
  cases event with
  | navigate request loader =>
    obtain ⟨⟨result, app₁, loader₁⟩, hnavigate, rfl⟩ := Option.map_eq_some_iff.mp hstep
    rw [BrowserApplication.navigate] at hnavigate
    split at hnavigate
    · rw [← (Prod.mk.inj (Prod.mk.inj (Option.some.inj hnavigate)).2).1]
      exact h
    · rename_i s hs
      obtain ⟨⟨result', s', loader'⟩, hnavigate', heq⟩ := Option.map_eq_some_iff.mp hnavigate
      rw [← (Prod.mk.inj (Prod.mk.inj heq).2).1]
      exact h.setActiveSession ((h.activeSession hs).navigateTo hnavigate')
  | move x y =>
    obtain ⟨⟨changed, app₁⟩, hmove, rfl⟩ := Option.map_eq_some_iff.mp hstep
    rw [pointerMove] at hmove
    split at hmove
    · rw [← (Prod.mk.inj (Option.some.inj hmove)).2]
      exact h
    · rename_i s hs
      obtain ⟨⟨changed', s'⟩, hhover, heq⟩ := Option.map_eq_some_iff.mp hmove
      rw [← (Prod.mk.inj heq).2]
      exact h.setActiveSession ((h.activeSession hs).hoverAt hhover)
  | press x y button loader =>
    obtain ⟨⟨result, app₁, loader₁⟩, hpress, rfl⟩ := Option.map_eq_some_iff.mp hstep
    by_cases hbutton : button = .primary
    · subst hbutton
      have hpressed : Unfocused ({ app with primaryPressed := true } : BrowserApplication F L) := h
      rcases pointerPress_cases hpress with ⟨-, rfl⟩ | ⟨s, activated, s₁, hs, hcontrol, hcases⟩
      · exact hpressed
      · have hsession := h.activeSession hs
        rcases activateControlAt_cases hcontrol with ⟨rfl, rfl, -⟩ |
          ⟨rfl, hit, node, runtime, i, c, hhit, hnode, hruntime, hindex, hc, hnot, -⟩
        · rcases hcases with ⟨hactivated, -⟩ | ⟨-, s₂, result', loader₂, hlink, rfl⟩
          · cases hactivated
          · exact hpressed.setActiveSession (hsession.activateAt hlink)
        · exact absurd (hevent x y loader i c rfl
            (hitControl_eq hs hhit hnode hruntime hindex hc)) hnot
    · rw [pointerPress, if_pos hbutton] at hpress
      rw [← (Prod.mk.inj (Prod.mk.inj (Option.some.inj hpress)).2).1]
      exact h
  | release button =>
    rw [← Option.some.inj hstep, pointerRelease]
    split
    · exact h
    · exact h
  | textInput text =>
    rw [← Option.some.inj hstep, textInput, h.edit]
    exact h
  | backspace =>
    rw [← Option.some.inj hstep, backspace, h.edit]
    exact h

/-- **A press on a button sets one record only.** -/
theorem Unfocused.not_focusAgrees (h : Unfocused app) {event : UserEvent F W}
    (hevent : ¬ PressesNoButton page app event)
    (hstep : BrowserApplication.userStep renderer page app event = some app') :
    ¬ FocusAgrees app' := by
  rw [PressesNoButton] at hevent
  push Not at hevent
  obtain ⟨x, y, loader, i, c, rfl, hhitControl, hdisabled, htext, hselect⟩ := hevent
  obtain ⟨s, hit, node, runtime, hs, hhit, hnode, hruntime, hindex, hc⟩ :=
    exists_of_hitControl hhitControl
  obtain ⟨⟨result, app₁, loader₁⟩, hpress, rfl⟩ := Option.map_eq_some_iff.mp hstep
  have hnot : ¬ (c.disabled = true ∨ c.kind.takesText = true ∨ c.kind = .select) := by
    rintro (h | h | h)
    · exact hdisabled h
    · exact htext h
    · exact hselect h
  rcases pointerPress_cases hpress with ⟨hnone, -⟩ | ⟨s', activated, s₁, hs', hcontrol, hcases⟩
  · exact nomatch hnone.symm.trans hs
  · obtain rfl := Option.some.inj (hs.symm.trans hs')
    rcases activateControlAt_cases hcontrol with ⟨-, -, hnone⟩ |
      ⟨rfl, _, node', runtime', j, -, -, -, hruntime', -, -, -, hvisual, hform⟩
    · exact absurd (hnone hit node runtime i c hhit hnode hruntime hindex hc) hnot
    · rcases hcases with ⟨-, rfl⟩ | ⟨hactivated, -⟩
      · intro hagrees
        have hpressed : BrowserApplication.activeSession
            ({ app with primaryPressed := true } : BrowserApplication F L) = some s := hs
        have heq := hagrees s₁ (activeSession_setActiveSession hpressed)
        rw [hvisual, focusedNode, hform, Option.bind_some, focused_activate,
          (h.activeSession hs).runtime runtime' hruntime', Option.bind_none] at heq
        cases heq
      · cases hactivated

/-- Without a focus, a press on a control that takes text does not make it take any. -/
theorem Unfocused.pressEdits_iff (h : Unfocused app) {event : UserEvent F W}
    (hevent : PressesNoButton page app event)
    (hstep : BrowserApplication.userStep renderer page app event = some app') :
    PressEdits renderer page app event ↔ PressesNoText page app event := by
  constructor
  · intro hedits x y loader i c hpress hhit
    by_contra hnot
    rw [not_or, Bool.not_eq_true, Bool.not_eq_false] at hnot
    have htyped := (hedits x y loader i c app' hpress hhit hnot.1 hnot.2 hstep).1
    have hunfocused := h.userStep hevent hstep
    have hsame (text : Bytes) : (app'.textInput text).2 = app' := hunfocused.edit _
    have hnone := htyped []
    have hone := htyped [0]
    rw [hsame] at hnone hone
    rw [hnone, Option.some.injEq, List.append_right_inj] at hone
    cases hone
  · intro htext x y loader i c _ hpress hhit hdisabled htakes _
    rcases htext x y loader i c hpress hhit with h | h
    · cases h.symm.trans hdisabled
    · cases h.symm.trans htakes

end Application

/-- **The contract of the focus.**  In every run of an application that has just been opened, the
two records agree in all states and every press on an enabled control that takes text makes it
take what is typed next, exactly if no primary press of the run hits an enabled control other
than a `select`. -/
theorem focus_contract_iff (width height : F) (events : List (UserEvent F W)) :
    ((∀ app ∈ Runs.states (userStep renderer page) (make renderer width height) events,
        FocusAgrees app) ∧
      Runs.AlongReturning (userStep renderer page) (PressEdits renderer page)
        (make renderer width height) events) ↔
      Runs.AlongReturning (userStep renderer page) (PressesNoControl page)
        (make renderer width height) events := by
  have hstart : Unfocused (make renderer width height : BrowserApplication F L) := by
    intro tab htab
    rw [List.mem_singleton.mp (show tab ∈ [_] from htab)]
    exact ⟨rfl, nofun, nofun⟩
  have hkeeps : ∀ app event app', Unfocused app → PressesNoButton page app event →
      userStep renderer page app event = some app' → Unfocused app' :=
    fun _ (_ : UserEvent F W) _ h hevent hstep => h.userStep hevent hstep
  have hagrees : (∀ app ∈ Runs.states (userStep renderer page) (make renderer width height) events,
      FocusAgrees app) ↔ _ :=
    Runs.forall_mem_states_iff (fun _ h => Unfocused.focusAgrees h) hkeeps
      (fun app event app' h hevent hstep => h.not_focusAgrees hevent hstep) hstart
  have hcontrol : PressesNoControl (W := W) page = fun app event =>
      PressesNoButton page app event ∧ PressesNoText page app event :=
    funext fun app => funext fun event => propext (pressesNoControl_iff page)
  rw [hagrees, hcontrol, Runs.alongReturning_and]
  exact and_congr_right fun hbutton => Runs.alongReturning_congr hkeeps
    (fun app event app' h hevent hstep => h.pressEdits_iff hevent hstep) hstart hbutton

/-- A loader whose fetcher knows a page with a check box and its stylesheet. -/
def checkboxPage : ResourceLoader Unit where
  cache _ := none
  fetcher := some fun _ url =>
    (if url.serialized = lit "http://test/a" then
        some
          { type := .document, url := url.serialized
            bytes := lit "<link rel=\"stylesheet\" href=\"site.css\"><input type=\"checkbox\">" }
      else if url.serialized = lit "http://test/site.css" then
        some { type := .stylesheet, url := url.serialized, bytes := lit "p \x7b \x7d" }
      else none, ())
  world := ()

/-- A page that is covered by the third node of its document. -/
def coveredBy : PageLayout ℤ Unit where
  hitTestNode _ _ _ := some (some 2)
  findLayoutNode _ _ := none

/-- The page is shown, and the check box is pressed. -/
def pressCheckbox : List (UserEvent ℤ Unit) :=
  [.navigate
      { documentUrl := (Url.parse (lit "http://test/a")).getD {}, stylesheetUrl := none,
        viewportWidth := 800 } checkboxPage,
    .press 1 1 .primary checkboxPage]

/-- After that the visual state has the focus at the check box and the form runtime has none. -/
theorem not_focus_contract_pressCheckbox :
    ¬ ∀ (renderer : Renderer ℤ Unit) (page : PageLayout ℤ Unit) (width height : ℤ)
      (events : List (UserEvent ℤ Unit)),
        (∀ app ∈ Runs.states (userStep renderer page) (make renderer width height) events,
          FocusAgrees app) ∧
          Runs.AlongReturning (userStep renderer page) (PressEdits renderer page)
            (make renderer width height) events := by
  intro h
  have hagrees := (h fixedRenderer coveredBy 800 600 pressCheckbox).1
  have hbad : (Runs.states (userStep fixedRenderer coveredBy) (make fixedRenderer 800 600)
      pressCheckbox).any (fun app => app.activeSession.any fun s =>
        decide (s.visualState.focused ≠ focusedNode s)) = true := by
    decide +kernel
  obtain ⟨app, happ, hany⟩ := List.any_eq_true.mp hbad
  obtain ⟨s, hs, hne⟩ := (Option.any_eq_true _ _).mp hany
  exact of_decide_eq_true hne (hagrees app happ s hs)

end BrowserApplication

end Aetheris.Session
