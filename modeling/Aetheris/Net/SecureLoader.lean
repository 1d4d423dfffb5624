import Aetheris.Net.Reference
import Aetheris.Net.ResourceLoader

/-!
# The secure loader

`SecureResourceLoader` asks the `SecurityPolicy` whether a document may have a resource, and then
the loader.  Several loaders may share one cache, and the embedder may put resources into it.  What
every load does is said after any history of loads and of calls of the cache; the invariant is that
every resource is stored under its own URL.
-/

namespace Aetheris.Net

/-! ## The policy -/

/-- `ResourceRequestContext`. -/
inductive ResourceRequestContext where
  | document
  | subresource
  | script
  | style
  | image
  | formSubmission
  deriving DecidableEq, Repr

namespace SecurityPolicy

/-- `lower`. -/
def lower (value : Bytes) : Bytes := value.map toLower

/-- `is_secure_scheme`. -/
def isSecureScheme (url : Url) : Bool := lower url.scheme == lit "https"

/-- `is_supported_scheme`. -/
def isSupportedScheme (url : Url) : Bool :=
  let scheme := lower url.scheme
  scheme == lit "http" || scheme == lit "https" || scheme == lit "file"

/-- `allows_mixed_content`. -/
def allowsMixedContent (documentUrl resourceUrl : Url) (context : ResourceRequestContext) : Bool :=
  if !isSecureScheme documentUrl || lower resourceUrl.scheme != lit "http" then true
  else context == .image

/-- `allows_resource`, which gives the reason if it does not allow the resource. -/
def allowsResource (documentUrl resourceUrl : Url) (context : ResourceRequestContext) :
    Except Bytes Unit :=
  if !resourceUrl.isValid then .error (lit "Invalid resource URL")
  else if !isSupportedScheme resourceUrl then .error (lit "Unsupported resource scheme")
  else if !allowsMixedContent documentUrl resourceUrl context then
    .error (lit "Blocked insecure active content from a secure document")
  else if lower documentUrl.scheme == lit "file" && resourceUrl.isAbsolute &&
      lower resourceUrl.scheme != lit "file" then
    .error (lit "Blocked network resource from file document")
  else .ok ()

end SecurityPolicy

/-- `SecureResourceLoader`; the loader that it has a reference to is passed to `load`. -/
structure SecureResourceLoader where
  documentUrl : Url

variable {W : Type*}

/-- `SecureResourceLoader::load`. -/
def SecureResourceLoader.load (secure : SecureResourceLoader) (loader : ResourceLoader W)
    (context : ResourceRequestContext) (url : Url) : ResourceLoadResult × ResourceLoader W :=
  match SecurityPolicy.allowsResource secure.documentUrl url context with
  | .error reason => ({ state := .failed, message := reason }, loader)
  | .ok () => loader.loadUrl url

/-! ## Histories -/

/-- Where a loader gets resources from. -/
structure Sources (W : Type*) where
  fetcher : Option (W → Url → Option ResourceData × W)
  backends : List (Option (ResourceBackend W))

/-- A loader with other sources on the same cache. -/
def ResourceLoader.withSources (loader : ResourceLoader W) (sources : Sources W) :
    ResourceLoader W :=
  { loader with fetcher := sources.fetcher, backends := sources.backends }

/-- A load, by a loader with the sources. -/
inductive LoadCall (W : Type*)
  | load (sources : Sources W) (url : ParsedUrl)
  | loadTyped (sources : Sources W) (expectedType : ResourceType) (url : ParsedUrl)
  | secureLoad (sources : Sources W) (secure : SecureResourceLoader)
      (context : ResourceRequestContext) (url : ParsedUrl)

/-- What a load leaves. -/
def LoadCall.apply (loader : ResourceLoader W) : LoadCall W → ResourceLoader W
  | load sources url => ((loader.withSources sources).loadUrl url.1).2
  | loadTyped sources expectedType url => ((loader.withSources sources).load expectedType url.1).2
  | secureLoad sources secure context url =>
    (secure.load (loader.withSources sources) context url.1).2

/-- A load, or a change that the embedder makes to the cache. -/
inductive CacheCall (W : Type*)
  | load (call : LoadCall W)
  | put (data : ResourceData)
  | clear

/-- What a call leaves. -/
def CacheCall.apply (loader : ResourceLoader W) : CacheCall W → ResourceLoader W
  | load call => call.apply loader
  | put data => { loader with cache := loader.cache.put data }
  | clear => { loader with cache := fun _ => none }

/-- The loader after some loads. -/
def runLoads (loader : ResourceLoader W) (calls : List (LoadCall W)) : ResourceLoader W :=
  calls.foldl LoadCall.apply loader

/-- The loader after a history that begins with an empty cache. -/
def loaderAfter (world : W) (history : List (CacheCall W)) : ResourceLoader W :=
  history.foldl CacheCall.apply { cache := fun _ => none, world := world }

/-! ## The cache -/

/-- Every resource is stored under its own URL. -/
def OwnUrls (cache : ResourceCache) : Prop :=
  ∀ key data, cache key = some data → data.url = key

theorem OwnUrls.put {cache : ResourceCache} (h : OwnUrls cache) (data : ResourceData) :
    OwnUrls (cache.put data) := by
  intro key data' hput
  rw [ResourceCache.put] at hput
  by_cases hkey : key = data.url
  · rw [hkey, Function.update_self] at hput
    rw [hkey, ← Option.some.inj hput]
  · rw [Function.update_of_ne hkey] at hput
    exact h key data' hput

theorem OwnUrls.loadUrl {loader : ResourceLoader W} (h : OwnUrls loader.cache) (url : Url) :
    OwnUrls (loader.loadUrl url).2.cache := by
  rcases loader.loadUrl_cases url with ⟨-, hcache⟩ | ⟨data, -, ⟨-, hsame⟩ | ⟨-, -, hcache⟩⟩
  · rwa [hcache]
  · rwa [hsame]
  · rw [hcache]
    exact h.put data

/-- What a secure load does is nothing, or what the load does. -/
theorem SecureResourceLoader.load_cases (secure : SecureResourceLoader) (loader : ResourceLoader W)
    (context : ResourceRequestContext) (url : Url) :
    ((secure.load loader context url).1.state ≠ .ready ∧
        (secure.load loader context url).2 = loader) ∨
      (SecurityPolicy.allowsResource secure.documentUrl url context = .ok () ∧
        secure.load loader context url = loader.loadUrl url) := by
  rw [SecureResourceLoader.load]
  cases SecurityPolicy.allowsResource secure.documentUrl url context with
  | error reason => exact Or.inl ⟨nofun, rfl⟩
  | ok _ => exact Or.inr ⟨rfl, rfl⟩

theorem OwnUrls.loadCall {loader : ResourceLoader W} (h : OwnUrls loader.cache)
    (call : LoadCall W) : OwnUrls (call.apply loader).cache := by
  have hsources (sources : Sources W) : OwnUrls (loader.withSources sources).cache := h
  cases call with
  | load sources url => exact (hsources sources).loadUrl url.1
  | loadTyped sources expectedType url =>
    rw [LoadCall.apply, ResourceLoader.snd_load]
    exact (hsources sources).loadUrl url.1
  | secureLoad sources secure context url =>
    rw [LoadCall.apply]
    rcases secure.load_cases (loader.withSources sources) context url.1 with ⟨-, hsame⟩ | ⟨-, heq⟩
    · rw [hsame]
      exact hsources sources
    · rw [heq]
      exact (hsources sources).loadUrl url.1

theorem OwnUrls.cacheCall {loader : ResourceLoader W} (h : OwnUrls loader.cache)
    (call : CacheCall W) : OwnUrls (call.apply loader).cache := by
  cases call with
  | load call => exact h.loadCall call
  | put data => exact h.put data
  | clear => exact nofun

/-- **Every resource is stored under its own URL after any history.** -/
theorem ownUrls_loaderAfter (world : W) (history : List (CacheCall W)) :
    OwnUrls (loaderAfter world history).cache := by
  induction history using List.reverseRecOn with
  | nil => exact nofun
  | append_singleton history call ih =>
    rw [loaderAfter, List.foldl_append]
    exact ih.cacheCall call

/-! ## Loads -/

/-- No load changes an entry that is there. -/
theorem cache_loadCall_of_some {loader : ResourceLoader W} {key : Bytes} {data : ResourceData}
    (h : loader.cache key = some data) (call : LoadCall W) :
    (call.apply loader).cache key = some data := by
  have hsources (sources : Sources W) : (loader.withSources sources).cache key = some data := h
  cases call with
  | load sources url => exact ResourceLoader.cache_loadUrl_of_some (hsources sources)
  | loadTyped sources expectedType url =>
    exact ResourceLoader.cache_load_of_some (hsources sources)
  | secureLoad sources secure context url =>
    rw [LoadCall.apply]
    rcases secure.load_cases (loader.withSources sources) context url.1 with ⟨-, hsame⟩ | ⟨-, heq⟩
    · rw [hsame]
      exact hsources sources
    · rw [heq]
      exact ResourceLoader.cache_loadUrl_of_some (hsources sources)

theorem cache_runLoads_of_some {loader : ResourceLoader W} {key : Bytes} {data : ResourceData}
    (h : loader.cache key = some data) (calls : List (LoadCall W)) :
    (runLoads loader calls).cache key = some data := by
  induction calls generalizing loader with
  | nil => exact h
  | cons call calls ih => exact ih (cache_loadCall_of_some h call)

/-- **Once it is Ready, a resource is loaded from the cache**, whatever is loaded in between. -/
theorem loadUrl_runLoads {loader : ResourceLoader W} {url : Url}
    (h : (loader.loadUrl url).1.state = .ready) :
    ∃ data, (loader.loadUrl url).1 = { state := .ready, resource := some data } ∧
      ∀ (later : List (LoadCall W)) (sources : Sources W),
        let next := (runLoads (loader.loadUrl url).2 later).withSources sources
        next.loadUrl url = ({ state := .ready, resource := some data }, next) := by
  have hvalid : url.isValid = true := by
    by_contra hvalid
    rw [ResourceLoader.loadUrl_of_not_valid hvalid] at h
    cases h
  obtain ⟨data, hresult, hcache⟩ := ResourceLoader.cache_loadUrl_of_ready h
  exact ⟨data, hresult, fun later sources =>
    ResourceLoader.loadUrl_of_some hvalid (cache_runLoads_of_some hcache later)⟩

/-- A Ready resource has the URL it was asked for, and nothing is stored under another one. -/
theorem url_of_ready {loader : ResourceLoader W} (hown : OwnUrls loader.cache) {url : Url}
    {data : ResourceData}
    (h : (loader.loadUrl url).1 = { state := .ready, resource := some data }) :
    data.url = url.serialized ∧
      ∀ key ≠ url.serialized, (loader.loadUrl url).2.cache key = loader.cache key := by
  rcases loader.loadUrl_cases url with
    ⟨hstate, -⟩ | ⟨data', hresult, ⟨hcached, hsame⟩ | ⟨-, hurl, hcache⟩⟩
  · rw [h] at hstate
    exact absurd rfl hstate
  · rw [h] at hresult
    obtain rfl : data = data' := Option.some.inj (congrArg ResourceLoadResult.resource hresult)
    exact ⟨hown _ _ hcached, fun key _ => by rw [hsame]⟩
  · rw [h] at hresult
    obtain rfl : data = data' := Option.some.inj (congrArg ResourceLoadResult.resource hresult)
    refine ⟨hurl, fun key hne => ?_⟩
    rw [hcache, ResourceCache.put, hurl]
    exact Function.update_of_ne hne ..

theorem parse_serialized (url : ParsedUrl) : Url.parse url.1.serialized = some url.1 := by
  obtain ⟨url, text, hparse⟩ := url
  rw [serialized_of_parse hparse]
  exact hparse

/-- **What holds of every load after any history**, with any fetchers and any backends. -/
theorem loads_contract (world : W) (history : List (CacheCall W)) :
    let loader := loaderAfter world history
    (∀ key data, loader.cache key = some data → data.url = key) ∧
    (∀ (sources : Sources W) (url : ParsedUrl),
      let result := (loader.withSources sources).loadUrl url.1
      (result.1.state = .ready → ∃ data : ResourceData, result.1.resource = some data ∧
        data.url = url.1.serialized ∧
        (∀ key ≠ url.1.serialized, result.2.cache key = loader.cache key) ∧
        ∀ (later : List (LoadCall W)) (sources' : Sources W),
          let next := (runLoads result.2 later).withSources sources'
          next.loadUrl url.1 = ({ state := .ready, resource := some data }, next)) ∧
      (result.1.state ≠ .ready → result.2.cache = loader.cache)) ∧
    ∀ (sources : Sources W) (secure : SecureResourceLoader) (context : ResourceRequestContext)
      (url : ParsedUrl),
      let result := secure.load (loader.withSources sources) context url.1
      result.1.state = .ready → ∃ (data : ResourceData) (resourceUrl : Url),
        result.1.resource = some data ∧ Url.parse data.url = some resourceUrl ∧
          SecurityPolicy.allowsResource secure.documentUrl resourceUrl context = .ok () := by
  intro loader
  have hown : OwnUrls loader.cache := ownUrls_loaderAfter world history
  refine ⟨hown, fun sources url => ⟨fun hready => ?_, fun hstate => ?_⟩,
    fun sources secure context url hready => ?_⟩
  · obtain ⟨data, hresult, hlater⟩ := loadUrl_runLoads hready
    have hsources : OwnUrls (loader.withSources sources).cache := hown
    obtain ⟨hurl, hkeys⟩ := url_of_ready hsources hresult
    exact ⟨data, congrArg ResourceLoadResult.resource hresult, hurl, hkeys, hlater⟩
  · rcases (loader.withSources sources).loadUrl_cases url.1 with ⟨-, hcache⟩ | ⟨data, hresult, -⟩
    · exact hcache
    · rw [hresult] at hstate
      exact absurd rfl hstate
  · rcases secure.load_cases (loader.withSources sources) context url.1 with
      ⟨hstate, -⟩ | ⟨hallows, heq⟩
    · exact absurd hready hstate
    · rw [heq] at hready ⊢
      obtain ⟨data, hdata, -⟩ := loadUrl_runLoads hready
      have hsources : OwnUrls (loader.withSources sources).cache := hown
      refine ⟨data, url.1, congrArg ResourceLoadResult.resource hdata, ?_, hallows⟩
      rw [(url_of_ready hsources hdata).1]
      exact parse_serialized url

end Aetheris.Net
