import Aetheris.Library.Runs
import Aetheris.Session.BrowserSession

/-!
# The history of a session

`commit` mutates nothing before the navigation has succeeded, so a call that fails leaves all that
the session shows.  But `back` and `forward` let it write while the index is still the old one: the
entry that is left gets the metadata of the entry that is entered.

The index is that of an entry in all states.  That the metadata agree with the requests is kept by a
call exactly if it is no successful `back` or `forward` to the page of another URL, so it holds
along a run exactly if no call of the run is one.
-/

namespace Aetheris.Session

open Net

/-! ## The history -/

section History

variable {F L : Type*} [Zero F] {s s' : BrowserSession F L} {request : NavigationRequest F}
  {metadata : PageMetadata} {appendHistory : Bool}

/-- What a session shows and remembers is the same. -/
structure Unchanged (s s' : BrowserSession F L) : Prop where
  history : s'.history = s.history
  currentHistoryIndex : s'.currentHistoryIndex = s.currentHistoryIndex
  currentPage : s'.currentPage = s.currentPage
  currentDocument : s'.navigation.currentDocument = s.navigation.currentDocument
  formRuntime : s'.formRuntime = s.formRuntime
  visualState : s'.visualState = s.visualState
  viewport : s'.viewport = s.viewport

theorem Unchanged.refl (s : BrowserSession F L) : Unchanged s s :=
  ⟨rfl, rfl, rfl, rfl, rfl, rfl, rfl⟩

/-- The metadata of a page that has been loaded. -/
def pageMetadata (request : NavigationRequest F) (title : Bytes) : PageMetadata :=
  { url := request.documentUrl
    title := title
    lifecycle := { state := .complete, url := request.documentUrl } }

theorem writeHistory_navigation (s : BrowserSession F L) (navigation : NavigationController F L)
    (metadata : PageMetadata) :
    writeHistory { s with navigation := navigation } request metadata appendHistory =
      { writeHistory s request metadata appendHistory with navigation := navigation } := by
  rcases s with ⟨_, _, _ | index, _, _, _, _⟩ <;> cases appendHistory <;> rfl

/-- What a successful `commit` does to the history and the page. -/
structure Committed (s : BrowserSession F L) (request : NavigationRequest F)
    (metadata : PageMetadata) (appendHistory : Bool) (s' : BrowserSession F L) : Prop where
  history : s'.history = (writeHistory s request metadata appendHistory).history
  index : s'.currentHistoryIndex =
    (writeHistory s request metadata appendHistory).currentHistoryIndex
  page : s'.currentPage = some metadata

/-- The entries up to the current one. -/
def upToIndex (s : BrowserSession F L) : List (HistoryEntry F) :=
  match s.currentHistoryIndex with
  | some index => s.history.take (index + 1)
  | none => []

/-- The current index is that of an entry, and unset only when there is none. -/
structure IndexOk (s : BrowserSession F L) : Prop where
  lt : ∀ index, s.currentHistoryIndex = some index → index < s.history.length
  nil : s.currentHistoryIndex = none → s.history = []

theorem Committed.append (h : Committed s request metadata true s') (hs : IndexOk s) :
    s'.history = upToIndex s ++ [{ request := request, metadata := metadata }] ∧
      s'.currentHistoryIndex = some (upToIndex s).length := by
  rw [h.history, h.index, writeHistory, if_pos rfl, upToIndex]
  cases hindex : s.currentHistoryIndex with
  | none => exact ⟨by rw [hs.nil hindex], by rw [hs.nil hindex]⟩
  | some index =>
    have hkept : (if index + 1 < s.history.length then s.history.take (index + 1)
        else s.history) = s.history.take (index + 1) := by
      split
      · rfl
      · rename_i hge
        rw [List.take_of_length_le (not_lt.mp hge)]
    dsimp only
    rw [hkept]
    exact ⟨rfl, rfl⟩

theorem Committed.replace (h : Committed s request metadata false s') {index : ℕ}
    (hindex : s.currentHistoryIndex = some index) :
    (∀ i, s'.history[i]? =
        (s.history[i]?).map fun entry =>
          if index = i then { entry with metadata := metadata } else entry) ∧
      s'.history.length = s.history.length ∧ s'.currentHistoryIndex = some index := by
  have hhistory : s'.history =
      s.history.modify index fun entry => { entry with metadata := metadata } := by
    rw [h.history, writeHistory, if_neg Bool.false_ne_true, hindex]
  refine ⟨fun i => ?_, ?_, ?_⟩
  · rw [hhistory, List.getElem?_modify]
    rfl
  · rw [hhistory, List.length_modify]
  · rw [h.index, writeHistory, if_neg Bool.false_ne_true, hindex]

/-- The entry that `back` or `forward` goes to, if it may go. -/
def moveTarget (s : BrowserSession F L) : Operation F → Option ℕ
  | .back => if canGoBack s then some (s.currentHistoryIndex.getD 0 - 1) else none
  | .forward => if canGoForward s then some (s.currentHistoryIndex.getD 0 + 1) else none
  | _ => none

theorem moveTarget_back {target : ℕ} :
    moveTarget s (.back : Operation F) = some target ↔
      s.currentHistoryIndex = some (target + 1) := by
  rw [moveTarget, canGoBack]
  cases s.currentHistoryIndex with
  | none => exact iff_of_false nofun nofun
  | some index =>
    dsimp only
    rw [Option.getD_some, Option.some.injEq]
    split
    · rename_i hpos
      rw [decide_eq_true_eq] at hpos
      rw [Option.some.injEq]
      omega
    · rename_i hpos
      rw [decide_eq_true_eq] at hpos
      exact iff_of_false nofun (by omega)

theorem moveTarget_forward {target : ℕ} :
    moveTarget s (.forward : Operation F) = some target ↔
      ∃ index, s.currentHistoryIndex = some index ∧ index + 1 = target ∧
        target < s.history.length := by
  rw [moveTarget, canGoForward]
  cases s.currentHistoryIndex with
  | none => exact iff_of_false nofun (fun ⟨_, h, _⟩ => nomatch h)
  | some index =>
    dsimp only
    rw [Option.getD_some]
    split
    · rename_i hlt
      rw [decide_eq_true_eq] at hlt
      rw [Option.some.injEq]
      exact ⟨fun h => ⟨index, rfl, h, h ▸ hlt⟩,
        fun ⟨i, hi, h, _⟩ => (Option.some.inj hi) ▸ h⟩
    · rename_i hlt
      rw [decide_eq_true_eq] at hlt
      refine iff_of_false nofun fun ⟨i, hi, h, hlen⟩ => hlt ?_
      rw [Option.some.inj hi, h]
      exact hlen

theorem moveTarget_ne {operation : Operation F} {target : ℕ}
    (h : moveTarget s operation = some target) :
    ∃ index, s.currentHistoryIndex = some index ∧ index ≠ target := by
  cases operation with
  | navigate request => cases h
  | reload => cases h
  | back => exact ⟨target + 1, moveTarget_back.mp h, Nat.succ_ne_self target⟩
  | forward =>
    obtain ⟨index, hindex, rfl, -⟩ := moveTarget_forward.mp h
    exact ⟨index, hindex, (Nat.succ_ne_self index).symm⟩

/-- Every entry is about the page of its request, and the page is that of the current entry. -/
structure HistoryAgrees (s : BrowserSession F L) : Prop where
  url : ∀ entry ∈ s.history, entry.metadata.url = entry.request.documentUrl
  page : s.currentPage =
    s.currentHistoryIndex.bind fun index => (s.history[index]?).map (·.metadata)

/-- The invariant of the runs along which the history agrees: all metadata are those of a page
that has been loaded. -/
structure HistoryOk (s : BrowserSession F L) : Prop extends IndexOk s where
  loaded : ∀ (index : ℕ) (entry : HistoryEntry F), s.history[index]? = some entry →
    entry.metadata = pageMetadata entry.request entry.metadata.title
  page : s.currentPage =
    s.currentHistoryIndex.bind fun index => (s.history[index]?).map (·.metadata)

theorem HistoryOk.historyAgrees (h : HistoryOk s) : HistoryAgrees s where
  url entry hentry := by
    obtain ⟨index, hindex⟩ := List.mem_iff_getElem?.mp hentry
    rw [h.loaded index entry hindex]
    rfl
  page := h.page

theorem indexOk_start : IndexOk ({} : BrowserSession F L) := ⟨nofun, fun _ => rfl⟩

theorem historyOk_start : HistoryOk ({} : BrowserSession F L) where
  toIndexOk := indexOk_start
  loaded := nofun
  page := rfl

theorem Unchanged.indexOk (h : Unchanged s s') (hs : IndexOk s) : IndexOk s' := by
  refine ⟨?_, ?_⟩ <;> rw [h.currentHistoryIndex, h.history]
  · exact hs.lt
  · exact hs.nil

theorem Unchanged.historyOk (h : Unchanged s s') (hs : HistoryOk s) : HistoryOk s' := by
  refine ⟨h.indexOk hs.toIndexOk, ?_, ?_⟩
  · rw [h.history]
    exact hs.loaded
  · rw [h.currentPage, h.currentHistoryIndex, h.history]
    exact hs.page

end History

section Show

variable {F L : Type*} [Zero F] [Sub F] [LT F] [DecidableLT F] [BEq F] {renderer : Renderer F L}
  {s : BrowserSession F L} {request : NavigationRequest F} {metadata : PageMetadata}

theorem history_showPage :
    (showPage renderer s request metadata).history = s.history := by
  rw [showPage]
  split <;> rfl

theorem currentHistoryIndex_showPage :
    (showPage renderer s request metadata).currentHistoryIndex = s.currentHistoryIndex := by
  rw [showPage]
  split <;> rfl

theorem currentPage_showPage :
    (showPage renderer s request metadata).currentPage = some metadata := by
  rw [showPage]
  split <;> rfl

end Show

/-! ## The calls -/

section Commit

variable {F L W : Type*} [Zero F] [Sub F] [LT F] [DecidableLT F] [LE F] [DecidableLE F] [BEq F]
  {renderer : Renderer F L} {s s' : BrowserSession F L} {request : NavigationRequest F}
  {loader loader' : ResourceLoader W} {result : NavigationResult} {appendHistory : Bool}

theorem commit_fails (h : commit renderer s request loader appendHistory =
      some (result, s', loader')) (hfails : result.succeeded = false) : Unchanged s s' := by
  obtain ⟨⟨result₁, navigation, loader₁⟩, hnavigate, hcommit⟩ := Option.map_eq_some_iff.mp h
  obtain ⟨⟨outcome, loader₂⟩, -, houtcome⟩ := Option.map_eq_some_iff.mp hnavigate
  dsimp only at hcommit houtcome
  split at hcommit
  · rw [← (Prod.mk.inj (Prod.mk.inj hcommit).2).1]
    refine ⟨rfl, rfl, rfl, ?_, rfl, rfl, rfl⟩
    rename_i hnot
    split at houtcome
    · rw [← (Prod.mk.inj (Prod.mk.inj houtcome).2).1]
    · rw [← (Prod.mk.inj houtcome).1] at hnot
      exact absurd hnot Bool.false_ne_true
  · rename_i hnot
    rw [(Prod.mk.inj hcommit).1, hfails] at hnot
    exact absurd rfl hnot

/-- A failing call leaves what the session shows and remembers. -/
theorem unchanged_perform {operation : Operation F}
    (h : perform renderer s operation loader = some (result, s', loader'))
    (hfails : result.succeeded = false) : Unchanged s s' := by
  have hself : ∀ {r : NavigationResult} {l : ResourceLoader W},
      some (r, s, l) = some (result, s', loader') → Unchanged s s' := by
    intro r l heq
    rw [← (Prod.mk.inj (Prod.mk.inj (Option.some.inj heq)).2).1]
    exact .refl s
  have hmove : ∀ {target : ℕ}, moveTo renderer s target loader = some (result, s', loader') →
      Unchanged s s' := by
    intro target heq
    rw [moveTo] at heq
    split at heq
    · cases heq
    · obtain ⟨⟨result₁, s₁, loader₁⟩, hcommit, heq⟩ := Option.map_eq_some_iff.mp heq
      dsimp only at heq
      rw [(Prod.mk.inj heq).1] at hcommit heq
      rw [hfails, if_neg Bool.false_ne_true] at heq
      rw [← (Prod.mk.inj (Prod.mk.inj heq).2).1]
      exact commit_fails hcommit hfails
  cases operation with
  | navigate request => exact commit_fails h hfails
  | reload =>
    rw [perform, reload] at h
    split at h
    · exact hself h
    · split at h
      · cases h
      · exact commit_fails h hfails
  | back =>
    rw [perform, back] at h
    split at h
    · exact hself h
    · exact hmove h
  | forward =>
    rw [perform, forward] at h
    split at h
    · exact hself h
    · exact hmove h

/-! ## Calls that succeed -/

/-- The title of the document that the loader delivers for the request. -/
def deliveredTitle (request : NavigationRequest F) (loader : ResourceLoader W) : Bytes :=
  titleOf (((loader.load .document request.documentUrl).1.delivered.map (·.bytes)).getD [])

/-- The loader has all parts of the page. -/
def Loads (renderer : Renderer F L) (request : NavigationRequest F) (loader : ResourceLoader W) :
    Prop :=
  ∃ rendered loader', prepare renderer request loader = some (.ok rendered, loader')

theorem commit_succeeds (h : commit renderer s request loader appendHistory =
      some (result, s', loader')) (hsucceeds : result.succeeded = true) :
    Loads renderer request loader ∧
      Committed s request (pageMetadata request (deliveredTitle request loader)) appendHistory
        s' := by
  obtain ⟨⟨result₁, navigation, loader₁⟩, hnavigate, hcommit⟩ := Option.map_eq_some_iff.mp h
  obtain ⟨⟨outcome, loader₂⟩, hprepare, houtcome⟩ := Option.map_eq_some_iff.mp hnavigate
  dsimp only at hcommit houtcome
  split at hcommit
  · rename_i hnot
    rw [(Prod.mk.inj hcommit).1, hsucceeds] at hnot
    exact absurd hnot Bool.false_ne_true
  · rename_i hnot
    split at houtcome
    · rename_i result₂
      rw [← (Prod.mk.inj houtcome).1, error_of_prepare hprepare] at hnot
      exact absurd rfl hnot
    · rename_i rendered
      refine ⟨⟨rendered, loader₂, hprepare⟩, ?_⟩
      obtain ⟨data, hdelivered, hcache⟩ := prepare_document hprepare
      have htitle : extractTitle loader₂.cache request.documentUrl =
          deliveredTitle request loader := by
        rw [extractTitle, ResourceCache.getText, hcache, deliveredTitle, hdelivered]
      obtain ⟨hnavigation, hloader⟩ := Prod.mk.inj (Prod.mk.inj houtcome).2
      rw [← hnavigation, ← hloader] at hcommit
      dsimp only at hcommit
      rw [htitle] at hcommit
      rw [← (Prod.mk.inj (Prod.mk.inj hcommit).2).1]
      refine ⟨?_, ?_, currentPage_showPage⟩
      · rw [history_showPage, writeHistory_navigation]
        rfl
      · rw [currentHistoryIndex_showPage, writeHistory_navigation]
        rfl

/-- What a call that succeeds does. -/
inductive Moved (renderer : Renderer F L) (s : BrowserSession F L) (loader : ResourceLoader W) :
    Operation F → BrowserSession F L → Prop
  | navigate {request : NavigationRequest F} {s' : BrowserSession F L}
      (committed : Committed s request
        (pageMetadata request (deliveredTitle request loader)) true s') :
      Moved renderer s loader (.navigate request) s'
  | reload {index : ℕ} {entry : HistoryEntry F} {s' : BrowserSession F L}
      (current : s.currentHistoryIndex = some index) (found : s.history[index]? = some entry)
      (committed : Committed s entry.request
        (pageMetadata entry.request (deliveredTitle entry.request loader)) false s') :
      Moved renderer s loader .reload s'
  | move {operation : Operation F} {target : ℕ} {entry : HistoryEntry F}
      {s' : BrowserSession F L} (goes : moveTarget s operation = some target)
      (found : s.history[target]? = some entry) (loads : Loads renderer entry.request loader)
      (committed : Committed s entry.request
        (pageMetadata entry.request (deliveredTitle entry.request loader)) false s') :
      Moved renderer s loader operation { s' with currentHistoryIndex := some target }

theorem moved_of_perform {operation : Operation F}
    (h : perform renderer s operation loader = some (result, s', loader'))
    (hsucceeds : result.succeeded = true) : Moved renderer s loader operation s' := by
  have hfail : ∀ {error : NavigationError} {message : Bytes} {P : Prop}, error ≠ .none →
      some (({ error := error, message := message } : NavigationResult), s, loader) =
        some (result, s', loader') → P := by
    intro error message P hne heq
    rw [← (Prod.mk.inj (Option.some.inj heq)).1] at hsucceeds
    exact absurd (beq_iff_eq.mp hsucceeds) hne
  have hmove : ∀ {target : ℕ}, moveTarget s operation = some target →
      moveTo renderer s target loader = some (result, s', loader') →
        Moved renderer s loader operation s' := by
    intro target htarget heq
    rw [moveTo] at heq
    split at heq
    · cases heq
    · rename_i entry hentry
      obtain ⟨⟨result₁, s₁, loader₁⟩, hcommit, heq⟩ := Option.map_eq_some_iff.mp heq
      dsimp only at heq
      rw [(Prod.mk.inj heq).1] at hcommit heq
      rw [hsucceeds, if_pos rfl] at heq
      rw [← (Prod.mk.inj (Prod.mk.inj heq).2).1]
      obtain ⟨hloads, hcommitted⟩ := commit_succeeds hcommit hsucceeds
      exact .move htarget hentry hloads hcommitted
  cases operation with
  | navigate request => exact .navigate (commit_succeeds h hsucceeds).2
  | reload =>
    rw [perform, reload] at h
    split at h
    · exact hfail NavigationError.noConfusion h
    · rename_i index hindex
      split at h
      · cases h
      · rename_i entry hentry
        exact .reload hindex hentry (commit_succeeds h hsucceeds).2
  | back =>
    rw [perform, back] at h
    split at h
    · exact hfail NavigationError.noConfusion h
    · rename_i hgo
      rw [Bool.not_eq_true', Bool.not_eq_false] at hgo
      exact hmove (by rw [moveTarget, if_pos hgo]) h
  | forward =>
    rw [perform, forward] at h
    split at h
    · exact hfail NavigationError.noConfusion h
    · rename_i hgo
      rw [Bool.not_eq_true', Bool.not_eq_false] at hgo
      exact hmove (by rw [moveTarget, if_pos hgo]) h

/-- If the call moves to another entry, then to one with the same URL and the title that the
loaded document has. -/
def StaysOnPage (renderer : Renderer F L) (s : BrowserSession F L) (call : SessionCall F W) :
    Prop :=
  ∀ index target current entry, s.currentHistoryIndex = some index →
    moveTarget s call.1 = some target → s.history[index]? = some current →
      s.history[target]? = some entry → Loads renderer entry.request call.2 →
        entry.request.documentUrl = current.request.documentUrl ∧
          entry.metadata.title = deliveredTitle entry.request call.2

theorem commit_of_loads (h : Loads renderer request loader)
    (hcommit : commit renderer s request loader appendHistory = some (result, s', loader')) :
    result.succeeded = true := by
  obtain ⟨rendered, loader₁, hprepare⟩ := h
  obtain ⟨⟨result₁, navigation, loader₂⟩, hnavigate, heq⟩ := Option.map_eq_some_iff.mp hcommit
  rw [navigate, hprepare, Option.map_some, Option.some.injEq] at hnavigate
  dsimp only at heq
  rw [← (Prod.mk.inj hnavigate).1] at heq
  rw [← (Prod.mk.inj heq).1]
  rfl

/-- A call that fails does not move. -/
theorem staysOnPage_of_fails {operation : Operation F}
    (h : perform renderer s operation loader = some (result, s', loader'))
    (hfails : result.succeeded = false) : StaysOnPage renderer s (operation, loader) := by
  intro index target current entry _ goes _ found loads
  have hmove : moveTo renderer s target loader = some (result, s', loader') → False := by
    intro heq
    rw [moveTo, found] at heq
    obtain ⟨⟨result₁, s₁, loader₁⟩, hcommit, heq⟩ := Option.map_eq_some_iff.mp heq
    dsimp only at heq
    rw [← (Prod.mk.inj heq).1, commit_of_loads loads hcommit] at hfails
    exact Bool.noConfusion hfails
  cases operation with
  | navigate request => cases goes
  | reload => cases goes
  | back =>
    rw [moveTarget] at goes
    split at goes
    · rename_i hgo
      rw [perform, back, hgo, if_neg (by decide), Option.some.inj goes] at h
      exact (hmove h).elim
    · cases goes
  | forward =>
    rw [moveTarget] at goes
    split at goes
    · rename_i hgo
      rw [perform, forward, hgo, if_neg (by decide), Option.some.inj goes] at h
      exact (hmove h).elim
    · cases goes

/-- A call that returns changes nothing, and then has not moved, or succeeds. -/
theorem sessionStep_cases {call : SessionCall F W} (h : sessionStep renderer s call = some s') :
    Unchanged s s' ∧ StaysOnPage renderer s call ∨ Moved renderer s call.2 call.1 s' := by
  obtain ⟨⟨result, s₁, loader₁⟩, hperform, heq⟩ := Option.map_eq_some_iff.mp h
  dsimp only at heq
  rw [heq] at hperform
  cases hsucceeds : result.succeeded with
  | true => exact Or.inr (moved_of_perform hperform hsucceeds)
  | false =>
    exact Or.inl ⟨unchanged_perform hperform hsucceeds, staysOnPage_of_fails hperform hsucceeds⟩

/-! ## The index -/

omit [Sub F] [LT F] [DecidableLT F] [BEq F] in
theorem Moved.indexOk {operation : Operation F} (h : Moved renderer s loader operation s')
    (hs : IndexOk s) : IndexOk s' := by
  cases h with
  | navigate committed =>
    obtain ⟨hhistory, hindex⟩ := committed.append hs
    refine ⟨fun index h => ?_, fun h => ?_⟩
    · rw [hindex] at h
      rw [← Option.some.inj h, hhistory, List.length_append]
      exact Nat.lt_succ_self _
    · rw [hindex] at h
      cases h
  | reload current found committed =>
    obtain ⟨-, hlength, hindex⟩ := committed.replace current
    refine ⟨fun index h => ?_, fun h => ?_⟩
    · rw [hindex, ← current] at h
      rw [hlength]
      exact hs.lt index h
    · rw [hindex] at h
      cases h
  | move goes found loads committed =>
    obtain ⟨index, hindex, -⟩ := moveTarget_ne goes
    obtain ⟨-, hlength, -⟩ := committed.replace hindex
    refine ⟨fun i h => ?_, nofun⟩
    rw [← Option.some.inj h, hlength]
    exact (List.getElem?_eq_some_iff.mp found).1

/-- In every state of a run the index is that of an entry. -/
theorem indexOk_states (calls : List (SessionCall F W)) :
    ∀ t ∈ Runs.states (sessionStep renderer) {} calls, IndexOk t := by
  refine Runs.forall_mem_states (P := fun _ _ => True) (fun t call u ht _ hstep => ?_)
    indexOk_start (Runs.alongReturning_of_forall fun _ _ => trivial)
  rcases sessionStep_cases hstep with ⟨h, -⟩ | h
  · exact h.indexOk ht
  · exact h.indexOk ht

/-- **What failing and succeeding calls do.**  A call that fails leaves what the session shows
and remembers.  In every state of a run the index is that of an entry, a successful `navigate`
keeps the entries up to the index and adds its own, and `back` followed by `forward` restores
the index. -/
theorem session_contract (renderer : Renderer F L) (calls : List (SessionCall F W)) :
    (∀ (s s' : BrowserSession F L) (operation : Operation F) (loader loader' : ResourceLoader W)
        (result : NavigationResult),
        perform renderer s operation loader = some (result, s', loader') →
          result.succeeded = false → Unchanged s s') ∧
      ∀ s ∈ Runs.states (sessionStep renderer) {} calls,
        (∀ index, s.currentHistoryIndex = some index → index < s.history.length) ∧
        (∀ (request : NavigationRequest F) (loader loader' : ResourceLoader W)
            (result : NavigationResult) (s' : BrowserSession F L),
            navigateTo renderer s request loader = some (result, s', loader') →
              result.succeeded = true →
                ∃ metadata, s'.history =
                    upToIndex s ++ [{ request := request, metadata := metadata }] ∧
                  s'.currentHistoryIndex = some (upToIndex s).length) ∧
        (∀ (loader₁ loader₁' loader₂ loader₂' : ResourceLoader W)
            (result₁ result₂ : NavigationResult) (s₁ s₂ : BrowserSession F L),
            back renderer s loader₁ = some (result₁, s₁, loader₁') →
              result₁.succeeded = true →
                forward renderer s₁ loader₂ = some (result₂, s₂, loader₂') →
                  result₂.succeeded = true →
                    s₂.currentHistoryIndex = s.currentHistoryIndex) := by
  refine ⟨fun s s' operation loader loader' result => unchanged_perform, fun s hs => ?_⟩
  have hok := indexOk_states calls s hs
  refine ⟨hok.lt, ?_, ?_⟩
  · intro request loader loader' result s' h hsucceeds
    exact ⟨_, (commit_succeeds h hsucceeds).2.append hok⟩
  · intro loader₁ loader₁' loader₂ loader₂' result₁ result₂ s₁ s₂ hback hback' hforward hforward'
    have hmoved₁ : Moved renderer s loader₁ .back s₁ := moved_of_perform hback hback'
    have hmoved₂ : Moved renderer s₁ loader₂ .forward s₂ := moved_of_perform hforward hforward'
    cases hmoved₁ with
    | move goes =>
      cases hmoved₂ with
      | move goes' =>
        obtain ⟨index, hindex, htarget, -⟩ := moveTarget_forward.mp goes'
        rw [moveTarget_back.mp goes, ← htarget, ← Option.some.inj hindex]

/-- A layout engine that gives every document the same size. -/
def fixedRenderer : Renderer ℤ Unit where
  layout _ _ _ _ := ()
  rootRect _ := (800, 600)

/-- A page with a title and a linked stylesheet. -/
def titledPage (title : Bytes) : Bytes :=
  lit "<title>" ++ title ++ lit "</title><link rel=\"stylesheet\" href=\"site.css\">"

/-- A loader whose fetcher knows two pages and their stylesheet. -/
def twoPages : ResourceLoader Unit where
  cache _ := none
  fetcher := some fun _ url =>
    (if url.serialized = lit "http://test/a" then
        some { type := .document, url := url.serialized, bytes := titledPage (lit "A") }
      else if url.serialized = lit "http://test/b" then
        some { type := .document, url := url.serialized, bytes := titledPage (lit "B") }
      else if url.serialized = lit "http://test/site.css" then
        some { type := .stylesheet, url := url.serialized, bytes := lit "p { }" }
      else none, ())
  world := ()

/-- A `navigate` to a URL. -/
def goTo (url : Bytes) : SessionCall ℤ Unit :=
  (.navigate { documentUrl := (Url.parse url).getD {}, stylesheetUrl := none,
               viewportWidth := 800 }, twoPages)

/-- A failing call, a third page, and `back` and `forward`, after two pages. -/
theorem session_contract_twoPages :
    ∃ s ∈ Runs.states (sessionStep fixedRenderer) {}
        [goTo (lit "http://test/a"), goTo (lit "http://test/b")],
      (∃ result s' loader', perform fixedRenderer s (goTo (lit "http://test/missing")).1 twoPages =
          some (result, s', loader') ∧ Unchanged s s') ∧
        (∃ request result s' loader' metadata,
          navigateTo fixedRenderer s request twoPages = some (result, s', loader') ∧
            s'.history = upToIndex s ++ [{ request := request, metadata := metadata }]) ∧
        ∃ result₁ s₁ loader₁ result₂ s₂ loader₂,
          back fixedRenderer s twoPages = some (result₁, s₁, loader₁) ∧
            forward fixedRenderer s₁ twoPages = some (result₂, s₂, loader₂) ∧
              s₂.currentHistoryIndex = s.currentHistoryIndex := by
  set request : NavigationRequest ℤ :=
    { documentUrl := (Url.parse (lit "http://test/a")).getD {}, stylesheetUrl := none,
      viewportWidth := 800 }
  have hcheck : ((Runs.states (sessionStep fixedRenderer) {}
      [goTo (lit "http://test/a"), goTo (lit "http://test/b")])[2]?).any (fun s =>
        (perform fixedRenderer s (goTo (lit "http://test/missing")).1 twoPages).any
            (fun o => !o.1.succeeded) &&
          (navigateTo fixedRenderer s request twoPages).any (fun o => o.1.succeeded) &&
            (back fixedRenderer s twoPages).any fun o => o.1.succeeded &&
              (forward fixedRenderer o.2.1 twoPages).any fun o => o.1.succeeded) = true := by
    decide +kernel
  obtain ⟨s, hs, hcheck⟩ := (Option.any_eq_true _ _).mp hcheck
  simp only [Bool.and_eq_true, Option.any_eq_true, Bool.not_eq_true'] at hcheck
  obtain ⟨⟨⟨⟨r, s', l'⟩, hmissing, hfails⟩, ⟨r₀, s₀, l₀⟩, hnavigate, hr₀⟩,
    ⟨r₁, s₁, l₁⟩, hback, hr₁, ⟨r₂, s₂, l₂⟩, hforward, hr₂⟩ := hcheck
  have hmem := List.mem_of_getElem? hs
  obtain ⟨hunchanged, hruns⟩ := session_contract fixedRenderer
    [goTo (lit "http://test/a"), goTo (lit "http://test/b")]
  obtain ⟨-, happend, hrestore⟩ := hruns s hmem
  obtain ⟨metadata, hhistory, -⟩ := happend request twoPages l₀ r₀ s₀ hnavigate hr₀
  refine ⟨s, hmem, ⟨r, s', l', hmissing, hunchanged _ _ _ _ _ _ hmissing hfails⟩,
    ⟨request, r₀, s₀, l₀, metadata, hnavigate, hhistory⟩,
    r₁, s₁, l₁, r₂, s₂, l₂, hback, hforward, ?_⟩
  exact hrestore twoPages l₁ twoPages l₂ r₁ r₂ s₁ s₂ hback hr₁ hforward hr₂

/-! ## The metadata -/

omit [Sub F] [LT F] [DecidableLT F] [BEq F] in
theorem Moved.historyOk {call : SessionCall F W} (h : Moved renderer s call.2 call.1 s')
    (hs : HistoryOk s) (hstays : StaysOnPage renderer s call) : HistoryOk s' := by
  obtain ⟨operation, loader⟩ := call
  have hindexOk := h.indexOk hs.toIndexOk
  cases h with
  | @navigate request s' committed =>
    obtain ⟨hhistory, hindex⟩ := committed.append hs.toIndexOk
    refine ⟨hindexOk, fun i e he => ?_, ?_⟩
    · rw [hhistory] at he
      rcases List.mem_append.mp (List.mem_of_getElem? he) with hmem | hmem
      · have hold : e ∈ s.history := by
          rw [upToIndex] at hmem
          split at hmem
          · exact List.mem_of_mem_take hmem
          · exact absurd hmem List.not_mem_nil
        obtain ⟨j, hj⟩ := List.mem_iff_getElem?.mp hold
        exact hs.loaded j e hj
      · rw [List.mem_singleton.mp hmem]
        rfl
    · rw [committed.page, hindex, hhistory]
      show _ = ((upToIndex s ++ _)[(upToIndex s).length]?).map _
      rw [List.getElem?_concat_length]
      rfl
  | @reload index entry s' current found committed =>
    obtain ⟨hhistory, -, hindex⟩ := committed.replace current
    refine ⟨hindexOk, fun i e he => ?_, ?_⟩
    · rw [hhistory] at he
      obtain ⟨old, hold, rfl⟩ := Option.map_eq_some_iff.mp he
      split
      · rename_i hi
        rw [← hi, found] at hold
        rw [← Option.some.inj hold]
        rfl
      · exact hs.loaded i old hold
    · rw [committed.page, hindex]
      show _ = (s'.history[index]?).map _
      rw [hhistory, found, Option.map_some, if_pos rfl]
      rfl
  | @move _ target entry s' goes found loads committed =>
    obtain ⟨index, hcurrent, hne⟩ := moveTarget_ne goes
    obtain ⟨hhistory, -, -⟩ := committed.replace hcurrent
    obtain ⟨current, hfound⟩ : ∃ current, s.history[index]? = some current :=
      ⟨_, List.getElem?_eq_getElem (hs.lt index hcurrent)⟩
    obtain ⟨hurl, htitle⟩ := hstays index target current entry hcurrent goes hfound found loads
    refine ⟨hindexOk, fun i e he => ?_, ?_⟩
    · rw [hhistory] at he
      obtain ⟨old, hold, rfl⟩ := Option.map_eq_some_iff.mp he
      split
      · rename_i hi
        rw [← hi, hfound] at hold
        rw [← Option.some.inj hold]
        dsimp only
        rw [pageMetadata, hurl]
        rfl
      · exact hs.loaded i old hold
    · rw [committed.page]
      show _ = (s'.history[target]?).map _
      rw [hhistory, found, Option.map_some, if_neg hne, Option.map_some, ← htitle,
        ← hs.loaded target entry found]

omit [Sub F] [LT F] [DecidableLT F] [BEq F] in
/-- A move to another page leaves its metadata in the entry of the page that was left. -/
theorem Moved.not_historyAgrees {call : SessionCall F W}
    (h : Moved renderer s call.2 call.1 s')
    (hleaves : ¬ StaysOnPage renderer s call) : ¬ HistoryAgrees s' := by
  intro hagrees
  refine hleaves fun index target current entry hcurrent goes hfound found loads => ?_
  obtain ⟨operation, loader⟩ := call
  cases h with
  | navigate committed => cases goes
  | reload current found committed => cases goes
  | @move _ target' entry' s' goes' found' loads' committed =>
    obtain rfl := Option.some.inj (goes.symm.trans goes')
    obtain rfl := Option.some.inj (found.symm.trans found')
    obtain ⟨index', hcurrent', hne⟩ := moveTarget_ne goes
    obtain rfl := Option.some.inj (hcurrent.symm.trans hcurrent')
    obtain ⟨hhistory, -, -⟩ := committed.replace hcurrent
    refine ⟨?_, ?_⟩
    · have hleft := hhistory index
      rw [hfound, Option.map_some, if_pos rfl] at hleft
      exact hagrees.url _ (List.mem_of_getElem? hleft)
    · have hpage := hagrees.page
      change s'.currentPage = (s'.history[target]?).map (·.metadata) at hpage
      rw [committed.page, hhistory, found, Option.map_some, if_neg hne, Option.map_some] at hpage
      rw [← Option.some.inj hpage]
      rfl

/-- **The history over whole runs.**  In every state of a run every entry is about the page of
its request and the current page is that of the current entry, exactly when every `back` or
`forward` of the run that succeeds goes to an entry with the URL of the one it leaves, and
loads a document with the title that the entry has. -/
theorem historyAgrees_iff_staysOnPage (renderer : Renderer F L) (calls : List (SessionCall F W)) :
    (∀ t ∈ Runs.states (sessionStep renderer) {} calls, HistoryAgrees t) ↔
      Runs.AlongReturning (sessionStep renderer) (StaysOnPage renderer) {} calls := by
  refine Runs.forall_mem_states_iff (fun _ h => HistoryOk.historyAgrees h) ?_ ?_ historyOk_start
  · intro t call u ht hstays hstep
    rcases sessionStep_cases hstep with ⟨h, -⟩ | h
    · exact h.historyOk ht
    · exact h.historyOk ht hstays
  · intro t call u ht hleaves hstep
    rcases sessionStep_cases hstep with ⟨-, hstays⟩ | h
    · exact absurd hstays hleaves
    · exact h.not_historyAgrees hleaves

/-- After two pages and `back`, the entry of the second page has the metadata of the first. -/
theorem not_historyAgrees_back :
    ¬ ∀ (renderer : Renderer ℤ Unit) (calls : List (SessionCall ℤ Unit)),
      ∀ t ∈ Runs.states (sessionStep renderer) {} calls, HistoryAgrees t := by
  intro h
  have hbad : (Runs.states (sessionStep fixedRenderer) {}
      [goTo (lit "http://test/a"), goTo (lit "http://test/b"), (.back, twoPages)]).any
        (fun t => t.history.any fun e => e.metadata.url ≠ e.request.documentUrl) = true := by
    decide +kernel
  obtain ⟨t, ht, hany⟩ := List.any_eq_true.mp hbad
  obtain ⟨entry, hentry, hne⟩ := List.any_eq_true.mp hany
  exact of_decide_eq_true hne ((h _ _ t ht).url entry hentry)

end Commit

end Aetheris.Session
