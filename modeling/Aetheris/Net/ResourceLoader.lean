import Aetheris.Net.Url

/-!
# The resource cache and the loader

`ResourceLoader` of `resource_loader.cpp` looks into the cache, asks the fetcher, and then asks the
backends one after the other.  Fetcher and backends are code of the embedder that may keep a state
of its own, the type `W`.  Whatever they do, a load is not Ready and leaves the cache, or finds the
resource there, or puts it there; an entry of the cache is never replaced by loading.
-/

namespace Aetheris.Net

/-- `ResourceType`. -/
inductive ResourceType where
  | document
  | stylesheet
  | image
  | font
  | binary
  deriving DecidableEq, Repr

/-- `ResourceData`. -/
structure ResourceData where
  type : ResourceType
  url : Bytes
  bytes : Bytes
  deriving DecidableEq, Repr

/-- `ResourceCache`: what is stored for each URL. -/
abbrev ResourceCache := Bytes → Option ResourceData

namespace ResourceCache

/-- `ResourceCache::put`. -/
def put (cache : ResourceCache) (data : ResourceData) : ResourceCache :=
  Function.update cache data.url (some data)

/-- `ResourceCache::get_text`. -/
def getText (cache : ResourceCache) (url : Bytes) : Bytes := ((cache url).map (·.bytes)).getD []

end ResourceCache

/-- `ResourceBackendState`. -/
inductive ResourceBackendState where
  | ready
  | unsupported
  | missing
  | failed
  deriving DecidableEq, Repr

/-- `ResourceBackendResult`. -/
structure ResourceBackendResult where
  state : ResourceBackendState := .unsupported
  resource : Option ResourceData := none
  message : Bytes := []
  deriving DecidableEq, Repr

/-- `ResourceBackendResult::succeeded`, with the resource. -/
def ResourceBackendResult.delivered (r : ResourceBackendResult) : Option ResourceData :=
  if r.state = .ready then r.resource else none

/-- `ResourceBackend`. -/
structure ResourceBackend (W : Type*) where
  supports : W → Url → Bool
  load : W → Url → ResourceBackendResult × W

/-- `ResourceLoader`: a null fetcher or backend is `none`. -/
structure ResourceLoader (W : Type*) where
  cache : ResourceCache
  fetcher : Option (W → Url → Option ResourceData × W) := none
  backends : List (Option (ResourceBackend W)) := []
  world : W

/-- `ResourceLoadState`. -/
inductive ResourceLoadState where
  | ready
  | missing
  | failed
  deriving DecidableEq, Repr

/-- `ResourceLoadResult`. -/
structure ResourceLoadResult where
  state : ResourceLoadState := .missing
  resource : Option ResourceData := none
  message : Bytes := []
  deriving DecidableEq, Repr

/-- `ResourceLoadResult::succeeded`, with the resource. -/
def ResourceLoadResult.delivered (r : ResourceLoadResult) : Option ResourceData :=
  if r.state = .ready then r.resource else none

namespace ResourceLoader

variable {W : Type*}

/-- A resource without URL gets the one it was asked for. -/
def withUrl (fetched : ResourceData) (url : Url) : ResourceData :=
  if fetched.url = [] then { fetched with url := url.serialized } else fetched

/-- What is done with a resource that the fetcher or a backend has delivered. -/
def accept (loader : ResourceLoader W) (url : Url) (fetched : ResourceData) :
    ResourceLoadResult × ResourceLoader W :=
  if (withUrl fetched url).url ≠ url.serialized then
    ({ state := .failed, message := lit "Loaded resource URL does not match request" }, loader)
  else
    let cache := ResourceCache.put loader.cache (withUrl fetched url)
    ({ state := .ready, resource := cache url.serialized }, { loader with cache := cache })

/-- The loop over the backends; `supported` and `failure` are its local variables. -/
def tryBackends (url : Url) (supported : Bool) (failure : Bytes) :
    List (Option (ResourceBackend W)) → ResourceLoader W →
      ResourceLoadResult × ResourceLoader W
  | [], loader =>
    if !supported then
      ({ message := lit "Resource is not cached and no backend supports the URL" }, loader)
    else
      ({ message :=
          if failure = [] then lit "Resource backend did not provide the requested resource"
          else failure }, loader)
  | none :: backends, loader => tryBackends url supported failure backends loader
  | some backend :: backends, loader =>
    if !backend.supports loader.world url then
      tryBackends url supported failure backends loader
    else
      let result := backend.load loader.world url
      let loader := { loader with world := result.2 }
      match result.1.delivered with
      | some fetched => loader.accept url fetched
      | none =>
        tryBackends url true (if result.1.message ≠ [] then result.1.message else failure)
          backends loader

/-- `ResourceLoader::load(url)`. -/
def loadUrl (loader : ResourceLoader W) (url : Url) : ResourceLoadResult × ResourceLoader W :=
  if !url.isValid then
    ({ state := .failed, message := lit "Invalid resource URL" }, loader)
  else
    match loader.cache url.serialized with
    | some cached => ({ state := .ready, resource := some cached }, loader)
    | none =>
      match loader.fetcher with
      | none => tryBackends url false [] loader.backends loader
      | some fetcher =>
        let fetched := fetcher loader.world url
        let loader := { loader with world := fetched.2 }
        match fetched.1 with
        | some fetched => loader.accept url fetched
        | none => tryBackends url false [] loader.backends loader

/-- `ResourceLoader::load(expected_type, url)`. -/
def load (loader : ResourceLoader W) (expectedType : ResourceType) (url : Url) :
    ResourceLoadResult × ResourceLoader W :=
  let result := loader.loadUrl url
  match result.1.delivered with
  | none => result
  | some resource =>
    if resource.type ≠ expectedType then
      ({ state := .failed, message := lit "Loaded resource has an unexpected type" }, result.2)
    else result

/-! ## What loading does to the cache -/

/-- What a load that goes past the cache may come to: nothing is Ready and the cache is as it was,
or a resource is Ready that is put into the cache under the URL it was asked for. -/
def Outcome (url : Url) (cache : ResourceCache) (result : ResourceLoadResult × ResourceLoader W) :
    Prop :=
  (result.1.state ≠ .ready ∧ result.2.cache = cache) ∨
    ∃ data : ResourceData, data.url = url.serialized ∧
      result.1 = { state := .ready, resource := some data } ∧ result.2.cache = cache.put data

theorem outcome_accept (loader : ResourceLoader W) (url : Url) (fetched : ResourceData) :
    Outcome url loader.cache (loader.accept url fetched) := by
  rw [accept]
  split
  · exact Or.inl ⟨nofun, rfl⟩
  · rename_i hurl
    rw [not_not] at hurl
    have hstored : loader.cache.put (withUrl fetched url) url.serialized =
        some (withUrl fetched url) := by
      rw [ResourceCache.put, hurl]
      exact Function.update_self ..
    refine Or.inr ⟨withUrl fetched url, hurl, ?_, rfl⟩
    dsimp only
    rw [hstored]

theorem outcome_tryBackends (url : Url) :
    ∀ (backends : List (Option (ResourceBackend W))) (supported : Bool) (failure : Bytes)
      (loader : ResourceLoader W),
      Outcome url loader.cache (tryBackends url supported failure backends loader)
  | [], supported, failure, loader => by
    rw [tryBackends]
    split <;> exact Or.inl ⟨nofun, rfl⟩
  | none :: backends, supported, failure, loader => by
    rw [tryBackends]
    exact outcome_tryBackends url backends supported failure loader
  | some backend :: backends, supported, failure, loader => by
    rw [tryBackends]
    split
    · exact outcome_tryBackends url backends supported failure loader
    · dsimp only
      split
      · exact outcome_accept _ url _
      · exact outcome_tryBackends url backends _ _ _

/-- What is in the cache is Ready, and neither the fetcher nor a backend is asked. -/
theorem loadUrl_of_some {loader : ResourceLoader W} {url : Url} (hvalid : url.isValid = true)
    {data : ResourceData} (h : loader.cache url.serialized = some data) :
    loader.loadUrl url = ({ state := .ready, resource := some data }, loader) := by
  rw [loadUrl, hvalid, Bool.not_true, if_neg Bool.false_ne_true, h]

theorem loadUrl_of_not_valid {loader : ResourceLoader W} {url : Url}
    (hvalid : ¬ url.isValid = true) :
    loader.loadUrl url =
      ({ state := .failed, message := lit "Invalid resource URL" }, loader) := by
  rw [loadUrl, Bool.eq_false_iff.mpr hvalid, Bool.not_false, if_pos rfl]

theorem outcome_loadUrl {loader : ResourceLoader W} {url : Url}
    (h : loader.cache url.serialized = none) :
    Outcome url loader.cache (loader.loadUrl url) := by
  rw [loadUrl, h]
  split
  · exact Or.inl ⟨nofun, rfl⟩
  · dsimp only
    split
    · exact outcome_tryBackends url _ _ _ loader
    · split
      · exact outcome_accept _ url _
      · exact outcome_tryBackends url _ _ _ _

/-- **What `load(url)` does**: it is not Ready and leaves the cache, it finds the resource in the
cache, or it puts it there. -/
theorem loadUrl_cases (loader : ResourceLoader W) (url : Url) :
    ((loader.loadUrl url).1.state ≠ .ready ∧ (loader.loadUrl url).2.cache = loader.cache) ∨
      ∃ data : ResourceData, (loader.loadUrl url).1 = { state := .ready, resource := some data } ∧
        ((loader.cache url.serialized = some data ∧ (loader.loadUrl url).2 = loader) ∨
          (loader.cache url.serialized = none ∧ data.url = url.serialized ∧
            (loader.loadUrl url).2.cache = loader.cache.put data)) := by
  by_cases hvalid : url.isValid = true
  · cases hcached : loader.cache url.serialized with
    | some data =>
      rw [loadUrl_of_some hvalid hcached]
      exact Or.inr ⟨data, rfl, Or.inl ⟨rfl, rfl⟩⟩
    | none =>
      rcases outcome_loadUrl hcached with h | ⟨data, hurl, hresult, hcache⟩
      · exact Or.inl h
      · exact Or.inr ⟨data, hresult, Or.inr ⟨rfl, hurl, hcache⟩⟩
  · rw [loadUrl_of_not_valid hvalid]
    exact Or.inl ⟨nofun, rfl⟩

/-- Loading a URL does not change an entry that is there. -/
theorem cache_loadUrl_of_some {loader : ResourceLoader W} {url : Url} {key : Bytes}
    {data : ResourceData} (h : loader.cache key = some data) :
    (loader.loadUrl url).2.cache key = some data := by
  rcases loadUrl_cases loader url with ⟨-, hcache⟩ | ⟨loaded, -, ⟨-, hsame⟩ | ⟨hnone, hurl, hcache⟩⟩
  · rwa [hcache]
  · rwa [hsame]
  · have hne : key ≠ loaded.url := by
      rintro rfl
      rw [hurl, hnone] at h
      cases h
    rw [hcache, ResourceCache.put, Function.update_of_ne hne, h]

theorem snd_load (loader : ResourceLoader W) (expectedType : ResourceType) (url : Url) :
    (loader.load expectedType url).2 = (loader.loadUrl url).2 := by
  rw [load]
  split
  · rfl
  · split <;> rfl

/-- An entry of the cache stays as it is. -/
theorem cache_load_of_some {loader : ResourceLoader W} {expectedType : ResourceType} {url : Url}
    {key : Bytes} {data : ResourceData} (h : loader.cache key = some data) :
    (loader.load expectedType url).2.cache key = some data := by
  rw [snd_load]
  exact cache_loadUrl_of_some h

/-- What is Ready is in the cache afterwards under the URL it was asked for. -/
theorem cache_loadUrl_of_ready {loader : ResourceLoader W} {url : Url}
    (h : (loader.loadUrl url).1.state = .ready) :
    ∃ data, (loader.loadUrl url).1 = { state := .ready, resource := some data } ∧
      (loader.loadUrl url).2.cache url.serialized = some data := by
  rcases loadUrl_cases loader url with
    ⟨hstate, -⟩ | ⟨data, hresult, ⟨hcached, hsame⟩ | ⟨-, hurl, hcache⟩⟩
  · exact absurd h hstate
  · exact ⟨data, hresult, by rwa [hsame]⟩
  · refine ⟨data, hresult, ?_⟩
    rw [hcache, ResourceCache.put, hurl]
    exact Function.update_self ..

/-- What has been delivered is in the cache under the URL it was asked for. -/
theorem cache_load_of_delivered {loader : ResourceLoader W} {expectedType : ResourceType}
    {url : Url} {data : ResourceData}
    (h : (loader.load expectedType url).1.delivered = some data) :
    (loader.load expectedType url).2.cache url.serialized = some data := by
  rw [snd_load]
  have hload : (loader.loadUrl url).1.delivered = some data := by
    rw [load] at h
    split at h
    · exact h
    · split at h
      · cases h
      · exact h
  have hready : (loader.loadUrl url).1.state = .ready := by
    by_contra hstate
    rw [ResourceLoadResult.delivered, if_neg hstate] at hload
    cases hload
  obtain ⟨data', hresult, hcache⟩ := cache_loadUrl_of_ready hready
  rw [hresult, ResourceLoadResult.delivered, if_pos rfl] at hload
  rw [hcache]
  exact hload

end ResourceLoader

end Aetheris.Net
