import Aetheris.Session.FormRuntime
import Aetheris.Session.Navigation

/-!
# Browser sessions

`BrowserSession` of `browser_session.cpp` keeps a history, the place in it, and what is shown.  All
four ways to move go through `commit`, which navigates and then, if that has succeeded, writes the
entry at the index and shows the page.
-/

namespace Aetheris.Session

open Dom Html Net

/-! ## The viewport -/

section Viewport

variable {F : Type*} [Zero F] [Sub F] [LT F] [DecidableLT F]

/-- `std::max`. -/
def stdMax (a b : F) : F := if a < b then b else a

/-- `std::clamp`. -/
def stdClamp (v lo hi : F) : F := if v < lo then lo else if hi < v then hi else v

/-- `Viewport`. -/
structure Viewport (F : Type*) [Zero F] where
  width : F := 0
  height : F := 0
  documentWidth : F := 0
  documentHeight : F := 0
  scrollX : F := 0
  scrollY : F := 0

namespace Viewport

/-- `clamp_scroll`. -/
def clampScroll (v : Viewport F) : Viewport F :=
  { v with
    scrollX := stdClamp v.scrollX 0 (stdMax 0 (v.documentWidth - v.width))
    scrollY := stdClamp v.scrollY 0 (stdMax 0 (v.documentHeight - v.height)) }

/-- `set_size`. -/
def setSize (v : Viewport F) (width height : F) : Viewport F :=
  clampScroll { v with width := stdMax 0 width, height := stdMax 0 height }

/-- `set_document_size`. -/
def setDocumentSize (v : Viewport F) (width height : F) : Viewport F :=
  clampScroll { v with documentWidth := stdMax 0 width, documentHeight := stdMax 0 height }

end Viewport

end Viewport

/-! ## Titles -/

/-- The text of the first `title` at a node or below it. -/
def titleBelow (h : Heap) : ℕ → NodeId → Option Bytes
  | 0, _ => none
  | depth + 1, id =>
    match h.nodes id with
    | none => none
    | some node =>
      if node.type = .element ∧ node.name = lit "title" then
        some (node.children.flatMap (nodeText h depth))
      else node.children.findSome? (titleBelow h depth)

/-- The title in the text of a document. -/
def titleOf (source : Bytes) : Bytes :=
  if source = [] then []
  else
    let document := parseHtml source
    (titleBelow document.heap document.heap.next document.root).getD []

/-- `extract_title`. -/
def extractTitle (cache : ResourceCache) (url : Url) : Bytes :=
  titleOf (cache.getText url.serialized)

/-! ## The session -/

/-- `PageMetadata`. -/
structure PageMetadata where
  url : Url
  title : Bytes
  lifecycle : PageLifecycleState
  deriving DecidableEq, Repr

/-- `HistoryEntry`. -/
structure HistoryEntry (F : Type*) where
  request : NavigationRequest F
  metadata : PageMetadata

/-- `BrowserSession`. -/
structure BrowserSession (F L : Type*) [Zero F] where
  navigation : NavigationController F L := {}
  history : List (HistoryEntry F) := []
  currentHistoryIndex : Option ℕ := none
  currentPage : Option PageMetadata := none
  viewport : Viewport F := {}
  visualState : VisualInteractionState := {}
  formRuntime : Option FormRuntime := none

section Operations

variable {F L W : Type*} [Zero F] [Sub F] [LT F] [DecidableLT F] [LE F] [DecidableLE F] [BEq F]
  (renderer : Renderer F L)

/-- `can_go_back`. -/
def canGoBack (s : BrowserSession F L) : Bool :=
  match s.currentHistoryIndex with
  | some index => 0 < index
  | none => false

/-- `can_go_forward`. -/
def canGoForward (s : BrowserSession F L) : Bool :=
  match s.currentHistoryIndex with
  | some index => index + 1 < s.history.length
  | none => false

/-- The writes of `commit` to the history. -/
def writeHistory (s : BrowserSession F L) (request : NavigationRequest F)
    (metadata : PageMetadata) (appendHistory : Bool) : BrowserSession F L :=
  if appendHistory then
    let history :=
      match s.currentHistoryIndex with
      | some index =>
        if index + 1 < s.history.length then s.history.take (index + 1) else s.history
      | none => s.history
    { s with
      history := history ++ [{ request := request, metadata := metadata }]
      currentHistoryIndex := some history.length }
  else
    match s.currentHistoryIndex with
    | some index =>
      { s with
        history := s.history.modify index fun entry => { entry with metadata := metadata } }
    | none => s

/-- The rest of `commit`: the page, the visual state, the form runtime and the viewport. -/
def showPage (s : BrowserSession F L) (request : NavigationRequest F) (metadata : PageMetadata) :
    BrowserSession F L :=
  let s := { s with currentPage := some metadata, visualState := {} }
  match s.navigation.currentDocument with
  | some document =>
    let rect := renderer.rootRect document.layoutRoot
    let viewport := s.viewport.setDocumentSize rect.1 rect.2
    { s with
      formRuntime := some (FormRuntime.ofDocument document.document)
      viewport :=
        if viewport.width == 0 then viewport.setSize request.viewportWidth rect.2 else viewport }
  | none => { s with formRuntime := none }

/-- `commit`. -/
def commit (s : BrowserSession F L) (request : NavigationRequest F) (loader : ResourceLoader W)
    (appendHistory : Bool) :
    Option (NavigationResult × BrowserSession F L × ResourceLoader W) :=
  (navigate renderer s.navigation request loader).map fun (result, navigation, loader) =>
    let s := { s with navigation := navigation }
    if !result.succeeded then (result, s, loader)
    else
      let metadata : PageMetadata :=
        { url := navigation.currentUrl
          title := extractTitle loader.cache navigation.currentUrl
          lifecycle := navigation.lifecycle }
      (result, showPage renderer (writeHistory s request metadata appendHistory) request metadata,
        loader)

/-- `navigate`. -/
def navigateTo (s : BrowserSession F L) (request : NavigationRequest F)
    (loader : ResourceLoader W) :
    Option (NavigationResult × BrowserSession F L × ResourceLoader W) :=
  commit renderer s request loader true

/-- `reload`.  An index outside the history, which no run reaches, is an access out of bounds. -/
def reload (s : BrowserSession F L) (loader : ResourceLoader W) :
    Option (NavigationResult × BrowserSession F L × ResourceLoader W) :=
  match s.currentHistoryIndex with
  | none =>
    some ({ error := .invalidUrl,
            message := lit "No successful navigation is available to reload" }, s, loader)
  | some index =>
    match s.history[index]? with
    | none => none
    | some entry => commit renderer s entry.request loader false

/-- The rest of `back` and `forward`, once the target is known. -/
def moveTo (s : BrowserSession F L) (target : ℕ) (loader : ResourceLoader W) :
    Option (NavigationResult × BrowserSession F L × ResourceLoader W) :=
  match s.history[target]? with
  | none => none
  | some entry =>
    (commit renderer s entry.request loader false).map fun (result, s, loader) =>
      (result, if result.succeeded then { s with currentHistoryIndex := some target } else s,
        loader)

/-- `back`. -/
def back (s : BrowserSession F L) (loader : ResourceLoader W) :
    Option (NavigationResult × BrowserSession F L × ResourceLoader W) :=
  if !canGoBack s then
    some ({ error := .invalidUrl, message := lit "No previous history entry is available" }, s,
      loader)
  else moveTo renderer s (s.currentHistoryIndex.getD 0 - 1) loader

/-- `forward`. -/
def forward (s : BrowserSession F L) (loader : ResourceLoader W) :
    Option (NavigationResult × BrowserSession F L × ResourceLoader W) :=
  if !canGoForward s then
    some ({ error := .invalidUrl, message := lit "No forward history entry is available" }, s,
      loader)
  else moveTo renderer s (s.currentHistoryIndex.getD 0 + 1) loader

/-- A way to move. -/
inductive Operation (F : Type*) where
  | navigate (request : NavigationRequest F)
  | reload
  | back
  | forward

/-- One operation; `none` when it does not return. -/
def perform (s : BrowserSession F L) (operation : Operation F) (loader : ResourceLoader W) :
    Option (NavigationResult × BrowserSession F L × ResourceLoader W) :=
  match operation with
  | .navigate request => navigateTo renderer s request loader
  | .reload => Session.reload renderer s loader
  | .back => Session.back renderer s loader
  | .forward => Session.forward renderer s loader

/-- An operation and the loader it is called with. -/
abbrev SessionCall (F W : Type*) := Operation F × ResourceLoader W

/-- The session after a call that returns. -/
def sessionStep (s : BrowserSession F L) (call : SessionCall F W) :
    Option (BrowserSession F L) :=
  (perform renderer s call.1 call.2).map fun outcome => outcome.2.1

end Operations

end Aetheris.Session
