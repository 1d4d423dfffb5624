import Aetheris.Paint.RenderDocument
import Aetheris.Session.BrowserSession
import Aetheris.Session.FormOperations

/-!
# The browser application

`BrowserApplication` of `browser_application.cpp` keeps a session for each tab and hands what the
user does to the session of the active tab.  A press looks for a control under the pointer first,
and if there is nothing to activate, for a link.
-/

namespace Aetheris.Session

open Dom Html Net

/-! ## What is under the pointer -/

/-- `HitTestResult`.  Of the layout node only whether there is one matters. -/
structure HitTestResult where
  hit : Bool := false
  domNode : Option NodeId := none
  linkUrl : Option Url := none
  deriving DecidableEq, Repr

/-- What the pointer asks of a laid out page, whose form is a parameter of the session: the
`dom_node` of the layout node that `hit_test_node` finds at a point, and the corner of the
rectangle of the one that `find_layout_node` finds for a node. -/
structure PageLayout (F L : Type*) where
  hitTestNode : L → F → F → Option (Option NodeId)
  findLayoutNode : L → NodeId → Option (F × F)

/-- `nearest_link`, up to the given height. -/
def nearestLink (h : Heap) : ℕ → Option NodeId → Option DomNode
  | 0, _ => none
  | _, none => none
  | height + 1, some id =>
    match h.nodes id with
    | none => none
    | some node =>
      if node.type = .element ∧ node.name = lit "a" ∧
          (node.attributeValue (lit "href")).isSome then some node
      else nearestLink h height node.parent

/-- The search of `fragment_target` for a node, down to the given depth. -/
def findTarget (h : Heap) (fragment : Bytes) : ℕ → NodeId → Option NodeId
  | 0, _ => none
  | depth + 1, id =>
    match h.nodes id with
    | none => none
    | some node =>
      if node.type = .element ∧ (node.attributeValue (lit "id") = some fragment ∨
          node.attributeValue (lit "name") = some fragment) then some id
      else node.children.findSome? (findTarget h fragment depth)

section Session

variable {F L W : Type*} [Zero F] [Add F] [Sub F] [LT F] [DecidableLT F] [LE F] [DecidableLE F]
  [BEq F] (renderer : Renderer F L) (page : PageLayout F L)

/-- `DocumentInteraction::hit_test`; `none` when the URL of a link is not resolved. -/
def hitTestDocument (document : RenderDocument F L) (viewport : Viewport F) (x y : F) :
    Option HitTestResult :=
  match page.hitTestNode document.layoutRoot (x + viewport.scrollX) (y + viewport.scrollY) with
  | none => some {}
  | some domNode =>
    let heap := document.document.heap
    match (nearestLink heap (heap.next + 1) domNode).bind (·.attributeValue (lit "href")) with
    | none => some { hit := true, domNode := domNode }
    | some href =>
      if href.isEmpty then some { hit := true, domNode := domNode }
      else
        (Url.parse document.sourceUrl).bind fun base =>
          (Url.resolve base href).map fun url =>
            { hit := true, domNode := domNode, linkUrl := some url }

/-- `fragment_target`. -/
def fragmentTarget (document : RenderDocument F L) (fragment : Bytes) : Option (F × F) :=
  if fragment.isEmpty then none
  else
    let heap := document.document.heap
    (findTarget heap fragment heap.next document.document.root).bind
      (page.findLayoutNode document.layoutRoot)

/-- `Viewport::scroll_to`. -/
def Viewport.scrollTo (viewport : Viewport F) (x y : F) : Viewport F :=
  Viewport.clampScroll { viewport with scrollX := x, scrollY := y }

namespace BrowserSession

variable (s : BrowserSession F L)

/-- `hit_test`. -/
def hitTest (x y : F) : Option HitTestResult :=
  match s.navigation.currentDocument with
  | none => some {}
  | some document => hitTestDocument page document s.viewport x y

/-- `hover_at`. -/
def hoverAt (x y : F) : Option (Bool × BrowserSession F L) :=
  (s.hitTest page x y).map fun hit =>
    (s.visualState.hovered ≠ hit.domNode,
      { s with visualState := s.visualState.setHovered hit.domNode })

/-- The control of a node: the one the loop of `activate_control_at` comes to first. -/
def controlOf (node : NodeId) : Option ℕ :=
  s.formRuntime.bind fun runtime => runtime.controls.findIdx? (·.node = node)

/-- `activate_control_at`. -/
def activateControlAt (x y : F) : Option (Bool × BrowserSession F L) :=
  (s.hitTest page x y).map fun hit =>
    match hit.domNode, s.formRuntime with
    | some node, some runtime =>
      match s.controlOf node with
      | none => (false, s)
      | some i =>
        let activated := runtime.activate i
        let s := { s with formRuntime := some activated.2 }
        if activated.1 then
          (true,
            { s with visualState := (s.visualState.setFocused (some node)).markLayoutDirty })
        else (false, s)
    | _, _ => (false, s)

/-- `scroll_to_fragment`. -/
def scrollToFragment (fragment : Bytes) : Bool × BrowserSession F L :=
  match s.navigation.currentDocument.bind (fragmentTarget page · fragment) with
  | none => (false, s)
  | some (x, y) => (true, { s with viewport := s.viewport.scrollTo x y })

/-- `activate_at`. -/
def activateAt (x y : F) (loader : ResourceLoader W) :
    Option (NavigationResult × BrowserSession F L × ResourceLoader W) :=
  match s.navigation.currentDocument with
  | none =>
    some ({ error := .invalidUrl, message := lit "No document is available for interaction" }, s,
      loader)
  | some _ =>
    (s.hitTest page x y).bind fun hit =>
      match hit.linkUrl with
      | none =>
        some ({ error := .invalidUrl, message := lit "No navigable hyperlink was activated" }, s,
          loader)
      | some destination =>
        let base := s.navigation.currentUrl.serialized.takeWhile (· != chr '#')
        let targetBase := destination.serialized.takeWhile (· != chr '#')
        if destination.hasFragment && targetBase == base then
          let scrolled := s.scrollToFragment page destination.fragment
          if scrolled.1 then some ({}, scrolled.2, loader)
          else
            some ({ error := .invalidUrl, message := lit "Fragment target was not found" },
              scrolled.2, loader)
        else
          navigateTo renderer s
            { documentUrl := destination, stylesheetUrl := none,
              viewportWidth := s.viewport.width } loader

/-- `set_viewport`. -/
def setViewport (width height : F) : BrowserSession F L :=
  let viewport := s.viewport.setSize width height
  { s with
    viewport :=
      match s.navigation.currentDocument with
      | some document =>
        let rect := renderer.rootRect document.layoutRoot
        viewport.setDocumentSize rect.1 rect.2
      | none => viewport }

end BrowserSession

end Session

/-! ## Tabs -/

/-- `BrowserApplication::Tab`.  The serial number is not in the source: it tells which session is
which while the vector moves them, and counts the tabs that were opened before. -/
structure Tab (F L : Type*) [Zero F] where
  serial : ℕ
  session : BrowserSession F L

/-- `BrowserApplication`, with the number of tabs that were opened. -/
structure BrowserApplication (F L : Type*) [Zero F] where
  tabs : List (Tab F L) := []
  active : Option ℕ := none
  width : F
  height : F
  primaryPressed : Bool := false
  opened : ℕ := 0

/-- `PointerButton`. -/
inductive PointerButton where
  | primary
  | secondary
  | middle
  deriving DecidableEq, Repr

namespace BrowserApplication

variable {F L W : Type*} [Zero F] [Add F] [Sub F] [LT F] [DecidableLT F] [LE F] [DecidableLE F]
  [BEq F] (renderer : Renderer F L) (page : PageLayout F L)

section Tabs

variable (app : BrowserApplication F L)

/-- `new_tab`. -/
def newTab : BrowserApplication F L :=
  let tab : Tab F L :=
    { serial := app.opened
      session := ({} : BrowserSession F L).setViewport renderer app.width app.height }
  { app with
    tabs := app.tabs ++ [tab]
    active := some app.tabs.length
    opened := app.opened + 1 }

/-- `BrowserApplication::BrowserApplication`. -/
def make (width height : F) : BrowserApplication F L :=
  newTab renderer { width := width, height := height }

/-- `close_tab`. -/
def closeTab (i : ℕ) : Bool × BrowserApplication F L :=
  if app.tabs.length ≤ i then (false, app)
  else
    let tabs := app.tabs.eraseIdx i
    if tabs.isEmpty then (true, { app with tabs := tabs, active := none })
    else if tabs.length ≤ app.active.getD 0 then
      (true, { app with tabs := tabs, active := some (tabs.length - 1) })
    else (true, { app with tabs := tabs })

/-- `switch_to_tab`. -/
def switchToTab (i : ℕ) : Bool × BrowserApplication F L :=
  if app.tabs.length ≤ i then (false, app) else (true, { app with active := some i })

/-- The tab of `active_session`. -/
def activeTab : Option (Tab F L) := app.active.bind (app.tabs[·]?)

/-- `active_session`. -/
def activeSession : Option (BrowserSession F L) := app.activeTab.map (·.session)

/-- A write to the active session. -/
def setActiveSession (session : BrowserSession F L) : BrowserApplication F L :=
  match app.active with
  | none => app
  | some i => { app with tabs := app.tabs.modify i fun tab => { tab with session := session } }

end Tabs

/-! ## What the user does -/

variable (app : BrowserApplication F L)

/-- The result without a tab. -/
def noActiveTab : NavigationResult :=
  { error := .invalidUrl, message := lit "No active tab" }

/-- `navigate`. -/
def navigate (request : NavigationRequest F) (loader : ResourceLoader W) :
    Option (NavigationResult × BrowserApplication F L × ResourceLoader W) :=
  match app.activeSession with
  | none => some (noActiveTab, app, loader)
  | some s =>
    (navigateTo renderer s request loader).map fun (result, s, loader) =>
      (result, app.setActiveSession s, loader)

/-- `pointer_move`. -/
def pointerMove (x y : F) : Option (Bool × BrowserApplication F L) :=
  match app.activeSession with
  | none => some (false, app)
  | some s => (s.hoverAt page x y).map fun (changed, s) => (changed, app.setActiveSession s)

/-- `pointer_press`. -/
def pointerPress (x y : F) (button : PointerButton) (loader : ResourceLoader W) :
    Option (NavigationResult × BrowserApplication F L × ResourceLoader W) :=
  if button ≠ .primary then some ({}, app, loader)
  else
    let app := { app with primaryPressed := true }
    match app.activeSession with
    | none => some (noActiveTab, app, loader)
    | some s =>
      (s.activateControlAt page x y).bind fun (activated, s) =>
        if activated then some ({}, app.setActiveSession s, loader)
        else
          (s.activateAt renderer page x y loader).map fun (result, s, loader) =>
            (result, app.setActiveSession s, loader)

/-- `pointer_release`. -/
def pointerRelease (button : PointerButton) : Bool × BrowserApplication F L :=
  if button ≠ .primary then (false, app)
  else (app.primaryPressed, { app with primaryPressed := false })

/-- What `text_input` and `backspace` do: an operation of the form runtime, if one of its controls
has the focus. -/
def edit (operation : FormRuntime → Bool × FormRuntime) : Bool × BrowserApplication F L :=
  match app.activeSession with
  | none => (false, app)
  | some s =>
    match s.formRuntime with
    | none => (false, app)
    | some runtime =>
      if runtime.controls.any (·.focused) then
        ((operation runtime).1,
          app.setActiveSession { s with formRuntime := some (operation runtime).2 })
      else (false, app)

/-- `text_input`. -/
def textInput (text : Bytes) : Bool × BrowserApplication F L := app.edit (·.insertText text)

/-- `backspace`. -/
def backspace : Bool × BrowserApplication F L := app.edit (·.backspace)

end BrowserApplication

end Aetheris.Session
