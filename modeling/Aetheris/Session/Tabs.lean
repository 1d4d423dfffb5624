import Aetheris.Session.BrowserApplication

/-!
# Tabs

`close_tab` erases the tab and then looks only whether the active index is still that of a tab.
When a tab in front of the active one is closed, the sessions behind it move and the index stays.
So the index is that of a tab in all runs, but of another one than before if a tab in front of it is
closed and there is one behind it; tabs are told apart by serial numbers, which no two of them
share.
-/

namespace Aetheris.Session

namespace BrowserApplication

variable {F L : Type*} [Zero F] [Sub F] [LT F] [DecidableLT F] (renderer : Renderer F L)

/-- A call of one of the operations on tabs. -/
inductive TabOperation where
  | newTab
  | closeTab (i : ℕ)
  | switchToTab (i : ℕ)
  deriving DecidableEq, Repr

/-- The application after such a call. -/
def tabStep (app : BrowserApplication F L) : TabOperation → BrowserApplication F L
  | .newTab => newTab renderer app
  | .closeTab i => (app.closeTab i).2
  | .switchToTab i => (app.switchToTab i).2

variable {app : BrowserApplication F L} {i : ℕ}

omit [Sub F] [LT F] [DecidableLT F] in
/-- What `close_tab` does. -/
theorem closeTab_of_lt (hi : i < app.tabs.length) :
    (app.closeTab i).2 =
      { app with
        tabs := app.tabs.eraseIdx i
        active :=
          if app.tabs.length = 1 then none
          else if app.tabs.length ≤ app.active.getD 0 + 1 then some (app.tabs.length - 2)
          else app.active } := by
  have hlength : (app.tabs.eraseIdx i).length = app.tabs.length - 1 :=
    List.length_eraseIdx_of_lt hi
  have hempty : (app.tabs.eraseIdx i).isEmpty ↔ app.tabs.length = 1 := by
    rw [List.isEmpty_iff_length_eq_zero, hlength]
    omega
  rw [closeTab, if_neg (not_le.mpr hi)]
  dsimp only
  by_cases hone : app.tabs.length = 1
  · rw [if_pos (hempty.mpr hone), if_pos hone]
  · rw [if_neg (fun h => hone (hempty.mp h)), if_neg hone, hlength]
    by_cases hlast : app.tabs.length ≤ app.active.getD 0 + 1
    · rw [if_pos (by omega), if_pos hlast, Nat.sub_sub]
    · rw [if_neg (by omega), if_neg hlast]

/-! ## The active index -/

/-- The active index is set exactly when there is a tab, and then it is that of a tab. -/
structure ActiveOk (app : BrowserApplication F L) : Prop where
  isSome_iff : app.active.isSome ↔ app.tabs ≠ []
  lt : ∀ a, app.active = some a → a < app.tabs.length

/-- No two tabs have the same serial number, and new ones get new numbers. -/
structure SerialsOk (app : BrowserApplication F L) : Prop where
  nodup : (app.tabs.map (·.serial)).Nodup
  lt : ∀ tab ∈ app.tabs, tab.serial < app.opened

theorem activeOk_newTab : ActiveOk (newTab renderer app) := by
  refine ⟨iff_of_true rfl (List.append_ne_nil_of_right_ne_nil _ (List.cons_ne_nil _ _)),
    fun a ha => ?_⟩
  rw [← Option.some.inj ha, newTab, List.length_append, List.length_singleton]
  exact Nat.lt_succ_self _

omit [Sub F] [LT F] [DecidableLT F] in
theorem ActiveOk.closeTab (h : ActiveOk app) : ActiveOk (app.closeTab i).2 := by
  rcases Nat.lt_or_ge i app.tabs.length with hi | hi
  · rw [closeTab_of_lt hi]
    have hlength : (app.tabs.eraseIdx i).length = app.tabs.length - 1 :=
      List.length_eraseIdx_of_lt hi
    refine ⟨?_, fun a ha => ?_⟩
    · dsimp only
      rw [← List.length_pos_iff, hlength]
      split
      · rename_i hone
        exact iff_of_false Bool.false_ne_true (by omega)
      · rename_i hone
        split
        · exact iff_of_true rfl (by omega)
        · refine iff_of_true (h.isSome_iff.mpr ?_) (by omega)
          exact List.ne_nil_of_length_pos (by omega)
    · dsimp only at ha ⊢
      rw [hlength]
      split at ha
      · cases ha
      · split at ha
        · rw [← Option.some.inj ha]
          omega
        · rename_i hlast
          rw [ha, Option.getD_some] at hlast
          omega
  · rw [BrowserApplication.closeTab, if_pos hi]
    exact h

omit [Sub F] [LT F] [DecidableLT F] in
theorem ActiveOk.switchToTab (h : ActiveOk app) : ActiveOk (app.switchToTab i).2 := by
  rw [BrowserApplication.switchToTab]
  split
  · exact h
  · rename_i hi
    have hlt : i < app.tabs.length := not_le.mp hi
    refine ⟨iff_of_true rfl (List.ne_nil_of_length_pos (Nat.zero_lt_of_lt hlt)), fun a ha => ?_⟩
    rw [← Option.some.inj ha]
    exact hlt

theorem SerialsOk.newTab (h : SerialsOk app) : SerialsOk (newTab renderer app) := by
  refine ⟨?_, fun tab htab => ?_⟩
  · rw [BrowserApplication.newTab, List.map_append, List.nodup_append]
    refine ⟨h.nodup, List.nodup_singleton _, fun n hn m hm => ?_⟩
    obtain ⟨tab, htab, rfl⟩ := List.mem_map.mp hn
    rw [List.map_singleton, List.mem_singleton] at hm
    rw [hm]
    exact (h.lt tab htab).ne
  · rcases List.mem_append.mp htab with htab | htab
    · exact Nat.lt_succ_of_lt (h.lt tab htab)
    · rw [List.mem_singleton.mp htab]
      exact Nat.lt_succ_self _

omit [Sub F] [LT F] [DecidableLT F] in
theorem SerialsOk.closeTab (h : SerialsOk app) : SerialsOk (app.closeTab i).2 := by
  rcases Nat.lt_or_ge i app.tabs.length with hi | hi
  · rw [closeTab_of_lt hi]
    refine ⟨?_, fun tab htab => h.lt tab (List.mem_of_mem_eraseIdx htab)⟩
    exact h.nodup.sublist ((List.eraseIdx_sublist app.tabs i).map _)
  · rw [BrowserApplication.closeTab, if_pos hi]
    exact h

omit [Sub F] [LT F] [DecidableLT F] in
theorem SerialsOk.switchToTab (h : SerialsOk app) : SerialsOk (app.switchToTab i).2 := by
  rw [BrowserApplication.switchToTab]
  split
  · exact h
  · exact ⟨h.nodup, h.lt⟩

/-- **What holds in all runs.** -/
theorem ok_of_mem_scanl (width height : F) (run : List TabOperation) :
    ∀ app ∈ run.scanl (tabStep renderer) (make renderer width height),
      ActiveOk app ∧ SerialsOk app := by
  refine Runs.forall_mem_scanl (P := fun _ _ => True) (fun app operation h _ => ?_)
    ⟨activeOk_newTab renderer, ?_⟩ (Runs.along_of_forall fun _ _ => trivial)
  · cases operation with
    | newTab => exact ⟨activeOk_newTab renderer, h.2.newTab renderer⟩
    | closeTab i => exact ⟨h.1.closeTab, h.2.closeTab⟩
    | switchToTab i => exact ⟨h.1.switchToTab, h.2.switchToTab⟩
  · exact SerialsOk.newTab renderer ⟨List.nodup_nil, fun tab htab => absurd htab List.not_mem_nil⟩

/-! ## Closing a tab -/

/-- Closing the tab leaves the active session and all other sessions. -/
structure ClosesOnly (app : BrowserApplication F L) (i : ℕ) : Prop where
  active : (app.closeTab i).2.activeTab = app.activeTab
  others : ∀ tab, tab ∈ (app.closeTab i).2.tabs ↔ tab ∈ app.tabs ∧ app.tabs[i]? ≠ some tab

omit [Sub F] [LT F] [DecidableLT F] in
theorem SerialsOk.getElem?_inj (h : SerialsOk app) {j k : ℕ} {tab : Tab F L}
    (hj : app.tabs[j]? = some tab) (hk : app.tabs[k]? = some tab) : j = k := by
  have hnodup : app.tabs.Nodup := List.Nodup.of_map _ h.nodup
  obtain ⟨hj', -⟩ := List.getElem?_eq_some_iff.mp hj
  exact (List.getElem?_inj hj' hnodup).mp (hj.trans hk.symm)

omit [Sub F] [LT F] [DecidableLT F] in
theorem SerialsOk.mem_eraseIdx_iff (h : SerialsOk app) {tab : Tab F L} :
    tab ∈ app.tabs.eraseIdx i ↔ tab ∈ app.tabs ∧ app.tabs[i]? ≠ some tab := by
  rw [List.mem_eraseIdx_iff_getElem?, List.mem_iff_getElem?]
  constructor
  · rintro ⟨j, hne, hj⟩
    exact ⟨⟨j, hj⟩, fun hi => hne (h.getElem?_inj hj hi)⟩
  · rintro ⟨⟨j, hj⟩, hne⟩
    refine ⟨j, ?_, hj⟩
    rintro rfl
    exact hne hj

omit [Sub F] [LT F] [DecidableLT F] in
/-- **When the active session stays.** -/
theorem closesOnly_iff (hactive : ActiveOk app) (hserials : SerialsOk app) {a : ℕ}
    (ha : app.active = some a) (hi : i < app.tabs.length) (hne : i ≠ a) :
    ClosesOnly app i ↔ ¬ (i < a ∧ a + 1 < app.tabs.length) := by
  have hlt := hactive.lt a ha
  have hothers : ∀ tab, tab ∈ (app.closeTab i).2.tabs ↔ tab ∈ app.tabs ∧ app.tabs[i]? ≠ some tab := by
    intro tab
    rw [closeTab_of_lt hi]
    exact hserials.mem_eraseIdx_iff
  have htab : app.activeTab = app.tabs[a]? := by
    rw [activeTab, ha]
    rfl
  have hclosed : (app.closeTab i).2.activeTab =
      if app.tabs.length ≤ a + 1 then (app.tabs.eraseIdx i)[app.tabs.length - 2]?
      else (app.tabs.eraseIdx i)[a]? := by
    rw [closeTab_of_lt hi, activeTab]
    dsimp only
    rw [if_neg (by omega), ha, Option.getD_some]
    split <;> rfl
  have hiff : (app.closeTab i).2.activeTab = app.activeTab ↔
      ¬ (i < a ∧ a + 1 < app.tabs.length) := by
    rw [hclosed, htab]
    by_cases hlast : app.tabs.length ≤ a + 1
    · -- the last tab is active, and the index follows it
      rw [if_pos hlast, List.getElem?_eraseIdx, if_neg (by omega),
        show app.tabs.length - 2 + 1 = a by omega]
      exact iff_of_true rfl (by omega)
    · rw [if_neg hlast, List.getElem?_eraseIdx]
      by_cases hbefore : a < i
      · rw [if_pos hbefore]
        exact iff_of_true rfl (by omega)
      · -- the index is now that of the next tab
        rw [if_neg hbefore]
        refine iff_of_false (fun heq => ?_) (fun h => h ⟨by omega, by omega⟩)
        have hsome := List.getElem?_eq_getElem hlt
        exact absurd (hserials.getElem?_inj (heq.trans hsome) hsome) (Nat.succ_ne_self a)
  exact ⟨fun h => hiff.mp h.active, fun h => ⟨hiff.mpr h, hothers⟩⟩

/-- **The contract of the tabs.**  In every state of every run the active index is set exactly
when there is a tab, and is that of a tab; and closing a tab other than the active one leaves
the same session active, and every other session as it is, exactly when the tab is not in front
of an active tab that is not the last. -/
theorem tabs_contract (width height : F) (run : List TabOperation) :
    ∀ app ∈ run.scanl (tabStep renderer) (make renderer width height),
      ActiveOk app ∧
        ∀ i a, i < app.tabs.length → app.active = some a → i ≠ a →
          (ClosesOnly app i ↔ ¬ (i < a ∧ a + 1 < app.tabs.length)) := by
  intro app happ
  obtain ⟨hactive, hserials⟩ := ok_of_mem_scanl renderer width height run app happ
  exact ⟨hactive, fun i a hi ha hne => closesOnly_iff hactive hserials ha hi hne⟩

/-- Two more tabs, and then the second of the three is shown. -/
def threeTabs : List TabOperation := [.newTab, .newTab, .switchToTab 1]

/-- An engine without a layout. -/
def noLayout : Renderer ℤ Unit := ⟨fun _ _ _ _ => (), fun _ => (0, 0)⟩

/-- The third of the three tabs can be closed. -/
theorem tabs_contract_threeTabs :
    ∃ app ∈ threeTabs.scanl (tabStep noLayout) (make noLayout 800 600),
      ActiveOk app ∧ ClosesOnly app 2 := by
  refine ⟨threeTabs.foldl (tabStep noLayout) (make noLayout 800 600),
    List.mem_of_getElem? (show _[3]? = _ from rfl), ?_⟩
  obtain ⟨hactive, hcloses⟩ := tabs_contract noLayout 800 600 threeTabs _
    (List.mem_of_getElem? (show _[3]? = _ from rfl))
  exact ⟨hactive, (hcloses 2 1 (by decide) rfl (by decide)).mpr (by decide)⟩

/-- When the first of them is closed, the third one is shown in place of the second. -/
theorem not_closesOnly_threeTabs :
    ¬ ∀ (renderer : Renderer ℤ Unit) (width height : ℤ) (run : List TabOperation),
      ∀ app ∈ run.scanl (tabStep renderer) (make renderer width height),
        ActiveOk app ∧
          ∀ i a, i < app.tabs.length → app.active = some a → i ≠ a → ClosesOnly app i := by
  intro h
  obtain ⟨-, hcloses⟩ := h noLayout 800 600 threeTabs _
    (List.mem_of_getElem? (show _[3]? = some (threeTabs.foldl (tabStep noLayout)
      (make noLayout 800 600)) from rfl))
  have hsame := congrArg (Option.map (·.serial)) (hcloses 0 1 (by decide) rfl (by decide)).active
  exact absurd hsame (by decide)

end BrowserApplication

end Aetheris.Session
