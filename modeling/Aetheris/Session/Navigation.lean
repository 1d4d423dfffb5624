import Aetheris.Html.TreeBuilder
import Aetheris.Net.ResourceLoader

/-!
# Navigation

`NavigationController::navigate` of `navigation.cpp` loads a document with its stylesheets and
images and builds a render document from them; the controller keeps what the last successful
navigation built.  Numbers of type `float` are of a type `F` with the operations the code uses.  The
style and layout engines are a parameter: of what they compute the navigation looks at nothing, and
the session at the size of the root box.
-/

namespace Aetheris.Session

open Dom Html Net

/-- `NavigationError`. -/
inductive NavigationError where
  | none
  | invalidUrl
  | missingDocument
  | missingStylesheet
  | invalidResourceType
  | documentCreationFailed
  deriving DecidableEq, Repr

/-- `NavigationRequest`. -/
structure NavigationRequest (F : Type*) where
  documentUrl : Url
  stylesheetUrl : Option Url
  viewportWidth : F

/-- `NavigationResult`. -/
structure NavigationResult where
  error : NavigationError := .none
  message : Bytes := []
  deriving DecidableEq, Repr

/-- `NavigationResult::succeeded`. -/
def NavigationResult.succeeded (r : NavigationResult) : Bool := r.error == .none

/-- `PageLoadState`. -/
inductive PageLoadState where
  | idle
  | loading
  | complete
  | failed
  deriving DecidableEq, Repr

/-- `PageLifecycleState`. -/
structure PageLifecycleState where
  state : PageLoadState := .idle
  url : Url := {}
  message : Bytes := []
  deriving DecidableEq, Repr

/-! ## Render documents -/

/-- The style and layout engines: the layout tree of a document under a stylesheet, a viewport
width and the resources, and the width and height of its root box. -/
structure Renderer (F L : Type*) where
  layout : Document → Bytes → F → ResourceCache → L
  rootRect : L → F × F

/-- `RenderDocument`, as far as it is read here. -/
structure RenderDocument (F L : Type*) where
  document : Document
  layoutRoot : L
  viewportWidth : F
  resources : ResourceCache
  sourceUrl : Bytes

section Render

variable {F L : Type*}

/-- The stylesheets joined by line breaks; `none` if one of them is missing. -/
def joinStylesheets (resources : ResourceCache) : List Bytes → Bytes → Option Bytes
  | [], css => some css
  | stylesheetUrl :: stylesheetUrls, css =>
    match resources stylesheetUrl with
    | none => none
    | some stylesheet =>
      if stylesheet.type ≠ .stylesheet then none
      else
        joinStylesheets resources stylesheetUrls
          ((if css = [] then css else css ++ [chr '\n']) ++ resources.getText stylesheetUrl)

/-- `RenderDocument::create_from_resources` for a list of stylesheets. -/
def createFromResources (renderer : Renderer F L) (documentUrl : Bytes)
    (stylesheetUrls : List Bytes) (viewportWidth : F) (resources : ResourceCache) :
    Option (RenderDocument F L) :=
  match resources documentUrl with
  | none => none
  | some data =>
    if data.type ≠ .document then none
    else
      (joinStylesheets resources stylesheetUrls []).map fun css =>
        let document := parseHtml (resources.getText data.url)
        { document := document
          layoutRoot := renderer.layout document css viewportWidth resources
          viewportWidth := viewportWidth
          resources := resources
          sourceUrl := documentUrl }

end Render

/-! ## Loading the parts -/

section Load

variable {W : Type*}

/-- The stylesheet that a node links to. -/
def stylesheetLink (base : Url) (node : DomNode) : Option (List Url) :=
  if node.type = .element ∧ node.name = lit "link" then
    match node.attributeValue (lit "rel"), node.attributeValue (lit "href") with
    | some rel, some href =>
      if rel = lit "stylesheet" then (Url.resolve base href).map ([·]) else some []
    | _, _ => some []
  else some []

/-- The stylesheets linked to from a node or below it, in document order. -/
def stylesheetLinks (h : Heap) (base : Url) : ℕ → NodeId → Option (List Url)
  | 0, _ => some []
  | depth + 1, id =>
    match h.nodes id with
    | none => some []
    | some node =>
      (stylesheetLink base node).bind fun own =>
        (node.children.mapM (stylesheetLinks h base depth)).map fun below => own ++ below.flatten

/-- The stylesheets of a request. -/
def styles {F : Type*} (request : NavigationRequest F) (html : Bytes) : Option (List Url) :=
  match request.stylesheetUrl with
  | some stylesheetUrl =>
    if stylesheetUrl.isAbsolute then some [stylesheetUrl]
    else (Url.resolve request.documentUrl stylesheetUrl.serialized).map ([·])
  | none =>
    let parsed := parseHtml html
    stylesheetLinks parsed.heap request.documentUrl parsed.heap.next parsed.root

/-- The loop that loads the stylesheets: their URLs, each once, or the message of the first
failure. -/
def loadStyles : List Url → List Bytes → ResourceLoader W →
    Except Bytes (List Bytes) × ResourceLoader W
  | [], stylesheetUrls, loader => (.ok stylesheetUrls, loader)
  | styleUrl :: styles, stylesheetUrls, loader =>
    if !styleUrl.isValid then loadStyles styles stylesheetUrls loader
    else if stylesheetUrls.contains styleUrl.serialized then
      loadStyles styles stylesheetUrls loader
    else
      let stylesheet := loader.load .stylesheet styleUrl
      match stylesheet.1.delivered with
      | none => (.error stylesheet.1.message, stylesheet.2)
      | some _ => loadStyles styles (stylesheetUrls ++ [styleUrl.serialized]) stylesheet.2

/-- The image of a node: whether it could be loaded. -/
def loadImage (base : Url) (node : DomNode) (loader : ResourceLoader W) :
    Option (Except Bytes Unit × ResourceLoader W) :=
  if node.type = .element ∧ node.name = lit "img" then
    match node.attributeValue (lit "src") with
    | none => some (.ok (), loader)
    | some src =>
      (Url.resolve base src).map fun url =>
        let result := loader.load .image url
        match result.1.delivered with
        | none => (.error result.1.message, result.2)
        | some _ => (.ok (), result.2)
  else some (.ok (), loader)

/-- One node after the other, up to the first failure. -/
def loadEach (loadOne : NodeId → ResourceLoader W → Option (Except Bytes Unit × ResourceLoader W)) :
    List NodeId → ResourceLoader W → Option (Except Bytes Unit × ResourceLoader W)
  | [], loader => some (.ok (), loader)
  | id :: ids, loader =>
    match loadOne id loader with
    | none => none
    | some (.error message, loader) => some (.error message, loader)
    | some (.ok _, loader) => loadEach loadOne ids loader

/-- `load_images`, down to the given depth. -/
def loadImages (h : Heap) (base : Url) :
    ℕ → NodeId → ResourceLoader W → Option (Except Bytes Unit × ResourceLoader W)
  | 0, _, loader => some (.ok (), loader)
  | depth + 1, id, loader =>
    match h.nodes id with
    | none => some (.ok (), loader)
    | some node =>
      match loadImage base node loader with
      | none => none
      | some (.error message, loader) => some (.error message, loader)
      | some (.ok _, loader) => loadEach (loadImages h base depth) node.children loader

end Load

/-! ## The pipeline -/

/-- `NavigationController`. -/
structure NavigationController (F L : Type*) where
  currentDocument : Option (RenderDocument F L) := none
  currentUrl : Url := {}
  lifecycle : PageLifecycleState := {}
  lastRequest : Option (NavigationRequest F) := none

section Navigate

variable {F L W : Type*} [Zero F] [LE F] [DecidableLE F] (renderer : Renderer F L)

/-- The part of `navigate` between the two changes of the controller: the result of the exit that
is taken, or the render document. -/
def prepare (request : NavigationRequest F) (loader : ResourceLoader W) :
    Option (Except NavigationResult (RenderDocument F L) × ResourceLoader W) :=
  let fail (error : NavigationError) (message : Bytes) (loader : ResourceLoader W) :
      Option (Except NavigationResult (RenderDocument F L) × ResourceLoader W) :=
    some (.error { error := error, message := message }, loader)
  if !request.documentUrl.isValid then
    fail .invalidUrl (lit "Navigation requires a document URL") loader
  else if request.viewportWidth ≤ 0 then
    fail .documentCreationFailed (lit "Navigation requires a positive viewport width") loader
  else
    let document := loader.load .document request.documentUrl
    let loader := document.2
    match document.1.delivered with
    | none => fail .missingDocument document.1.message loader
    | some _ =>
      (styles request (loader.cache.getText request.documentUrl.serialized)).bind fun styles =>
        match loadStyles styles [] loader with
        | (.error message, loader) => fail .missingStylesheet message loader
        | (.ok stylesheetUrls, loader) =>
          if stylesheetUrls = [] then
            fail .missingStylesheet (lit "No stylesheet resources were discovered") loader
          else
            let parsed := parseHtml (loader.cache.getText request.documentUrl.serialized)
            (loadImages parsed.heap request.documentUrl parsed.heap.next parsed.root loader).bind
              fun (images, loader) =>
                match images with
                | .error message => fail .documentCreationFailed message loader
                | .ok _ =>
                  match createFromResources renderer request.documentUrl.serialized
                      stylesheetUrls request.viewportWidth loader.cache with
                  | none =>
                    fail .documentCreationFailed
                      (lit "Unable to create render document from navigation resources") loader
                  | some rendered => some (.ok rendered, loader)

/-- `NavigationController::navigate` with a loader.  Every failing exit stores its message in the
lifecycle. -/
def navigate (controller : NavigationController F L) (request : NavigationRequest F)
    (loader : ResourceLoader W) :
    Option (NavigationResult × NavigationController F L × ResourceLoader W) :=
  (prepare renderer request loader).map fun (outcome, loader) =>
    match outcome with
    | .error result =>
      (result,
        { controller with
          lifecycle :=
            { state := .failed, url := request.documentUrl, message := result.message } },
        loader)
    | .ok rendered =>
      ({},
        { currentDocument := some rendered
          currentUrl := request.documentUrl
          lastRequest := some request
          lifecycle := { state := .complete, url := request.documentUrl } },
        loader)

end Navigate

/-! ## What a navigation leaves -/

section Cache

variable {W : Type*} {key : Bytes} {data : ResourceData}

theorem cache_loadStyles_of_some :
    ∀ (styles : List Url) (stylesheetUrls : List Bytes) (loader : ResourceLoader W),
      loader.cache key = some data →
        (loadStyles styles stylesheetUrls loader).2.cache key = some data
  | [], _, _, h => h
  | styleUrl :: styles, stylesheetUrls, loader, h => by
    rw [loadStyles]
    split
    · exact cache_loadStyles_of_some styles _ loader h
    · split
      · exact cache_loadStyles_of_some styles _ loader h
      · dsimp only
        have hload : (loader.load .stylesheet styleUrl).2.cache key = some data :=
          ResourceLoader.cache_load_of_some h
        split
        · exact hload
        · exact cache_loadStyles_of_some styles _ _ hload

theorem cache_loadImage_of_some {base : Url} {node : DomNode} {loader loader' : ResourceLoader W}
    {r : Except Bytes Unit} (h : loader.cache key = some data)
    (hload : loadImage base node loader = some (r, loader')) : loader'.cache key = some data := by
  rw [loadImage] at hload
  split at hload
  · split at hload
    · rw [← (Prod.mk.inj (Option.some.inj hload)).2]
      exact h
    · obtain ⟨url, -, heq⟩ := Option.map_eq_some_iff.mp hload
      dsimp only at heq
      have hnext : (loader.load .image url).2.cache key = some data :=
        ResourceLoader.cache_load_of_some h
      split at heq <;> rw [← (Prod.mk.inj heq).2] <;> exact hnext
  · rw [← (Prod.mk.inj (Option.some.inj hload)).2]
    exact h

theorem cache_loadEach_of_some
    {loadOne : NodeId → ResourceLoader W → Option (Except Bytes Unit × ResourceLoader W)}
    (hone : ∀ id loader r loader', loader.cache key = some data →
      loadOne id loader = some (r, loader') → loader'.cache key = some data) :
    ∀ (ids : List NodeId) (loader : ResourceLoader W) (r : Except Bytes Unit)
      (loader' : ResourceLoader W), loader.cache key = some data →
        loadEach loadOne ids loader = some (r, loader') → loader'.cache key = some data
  | [], loader, r, loader', h, hload => by
    rw [loadEach] at hload
    rw [← (Prod.mk.inj (Option.some.inj hload)).2]
    exact h
  | id :: ids, loader, r, loader', h, hload => by
    rw [loadEach] at hload
    split at hload
    · cases hload
    · rename_i message loader₁ hfirst
      rw [← (Prod.mk.inj (Option.some.inj hload)).2]
      exact hone id loader _ loader₁ h hfirst
    · rename_i u loader₁ hfirst
      exact cache_loadEach_of_some hone ids loader₁ r loader' (hone id loader _ loader₁ h hfirst)
        hload

theorem cache_loadImages_of_some {h : Heap} {base : Url} (depth : ℕ) :
    ∀ (id : NodeId) (loader : ResourceLoader W) (r : Except Bytes Unit)
      (loader' : ResourceLoader W), loader.cache key = some data →
        loadImages h base depth id loader = some (r, loader') → loader'.cache key = some data := by
  induction depth with
  | zero =>
    intro id loader r loader' hcache hload
    rw [loadImages] at hload
    rw [← (Prod.mk.inj (Option.some.inj hload)).2]
    exact hcache
  | succ depth ih =>
    intro id loader r loader' hcache hload
    rw [loadImages] at hload
    split at hload
    · rw [← (Prod.mk.inj (Option.some.inj hload)).2]
      exact hcache
    · split at hload
      · cases hload
      · rename_i message loader₁ himage
        rw [← (Prod.mk.inj (Option.some.inj hload)).2]
        exact cache_loadImage_of_some hcache himage
      · rename_i u loader₁ himage
        exact cache_loadEach_of_some ih _ loader₁ r loader'
          (cache_loadImage_of_some hcache himage) hload

end Cache

section Prepared

variable {F L W : Type*} [Zero F] [LE F] [DecidableLE F] {renderer : Renderer F L}
  {request : NavigationRequest F} {loader loader' : ResourceLoader W}

/-- An exit that does not build a render document reports an error. -/
theorem error_of_prepare {result : NavigationResult}
    (h : prepare renderer request loader = some (.error result, loader')) :
    result.succeeded = false := by
  have hfail : ∀ {error : NavigationError} {message : Bytes} {l : ResourceLoader W},
      error ≠ .none →
        some ((Except.error { error := error, message := message } :
          Except NavigationResult (RenderDocument F L)), l) = some (.error result, loader') →
        result.succeeded = false := by
    intro error message l hne heq
    have hresult := (Prod.mk.inj (Option.some.inj heq)).1
    rw [← Except.error.inj hresult, NavigationResult.succeeded]
    exact beq_false_of_ne hne
  rw [prepare] at h
  dsimp only at h
  split at h
  · exact hfail NavigationError.noConfusion h
  · split at h
    · exact hfail NavigationError.noConfusion h
    · split at h
      · exact hfail NavigationError.noConfusion h
      · obtain ⟨styles, -, h⟩ := Option.bind_eq_some_iff.mp h
        split at h
        · exact hfail NavigationError.noConfusion h
        · split at h
          · exact hfail NavigationError.noConfusion h
          · obtain ⟨⟨images, loader₁⟩, -, h⟩ := Option.bind_eq_some_iff.mp h
            dsimp only at h
            split at h
            · exact hfail NavigationError.noConfusion h
            · split at h
              · exact hfail NavigationError.noConfusion h
              · exact nomatch (Prod.mk.inj (Option.some.inj h)).1

/-- The document of a navigation that succeeds is the one the loader delivers, and it is still in
the cache at the end. -/
theorem prepare_document {rendered : RenderDocument F L}
    (h : prepare renderer request loader = some (.ok rendered, loader')) :
    ∃ data, (loader.load .document request.documentUrl).1.delivered = some data ∧
      loader'.cache request.documentUrl.serialized = some data := by
  have hfail : ∀ {result : NavigationResult} {l : ResourceLoader W} {P : Prop},
      some ((Except.error result : Except NavigationResult (RenderDocument F L)), l) =
        some (.ok rendered, loader') → P := by
    intro result l P heq
    exact nomatch (Prod.mk.inj (Option.some.inj heq)).1
  rw [prepare] at h
  dsimp only at h
  split at h
  · exact hfail h
  · split at h
    · exact hfail h
    · cases hdelivered : (loader.load .document request.documentUrl).1.delivered with
      | none =>
        rw [hdelivered] at h
        exact hfail h
      | some data =>
        rw [hdelivered] at h
        dsimp only at h
        refine ⟨data, rfl, ?_⟩
        have hcache := ResourceLoader.cache_load_of_delivered hdelivered
        obtain ⟨styles, -, h⟩ := Option.bind_eq_some_iff.mp h
        split at h
        · exact hfail h
        · rename_i stylesheetUrls loader₁ hstyles
          have hcache₁ := cache_loadStyles_of_some styles [] _ hcache
          rw [hstyles] at hcache₁
          split at h
          · exact hfail h
          · obtain ⟨⟨images, loader₂⟩, himages, h⟩ := Option.bind_eq_some_iff.mp h
            have hcache₂ := cache_loadImages_of_some _ _ _ _ _ hcache₁ himages
            dsimp only at h
            split at h
            · exact hfail h
            · split at h
              · exact hfail h
              · rw [← (Prod.mk.inj (Option.some.inj h)).2]
                exact hcache₂

end Prepared

end Aetheris.Session
