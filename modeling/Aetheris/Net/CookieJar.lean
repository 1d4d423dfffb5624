import Aetheris.Library.Keyed
import Aetheris.Net.Reference

/-!
# Cookies

`CookieJar` keeps cookies by the origin of the URL they were set for.  A `Set-Cookie` header is read
part by part between semicolons.

What the jar holds for an origin, a name and a path is the last cookie that a history of calls has
set there.  Whether it is sent is a comparison of paths, in which the code takes a path that only
begins with another one for one below it.
-/

namespace Aetheris.Net

open Segments

/-! ## The jar -/

/-- `Cookie`. -/
structure Cookie where
  name : Bytes
  value : Bytes
  domain : Bytes := []
  path : Bytes := lit "/"
  secure : Bool := false
  deriving DecidableEq, Repr

/-- `origin_key`. -/
def originKey (url : Url) : Bytes := url.scheme ++ lit "://" ++ url.authority

/-- `CookieJar`: the cookies of each origin. -/
structure CookieJar where
  cookies : Bytes → List Cookie := fun _ => []

/-- Cookies of one origin take each other's place if they have the same name and path. -/
def Cookie.key (cookie : Cookie) : Bytes × Bytes := (cookie.name, cookie.path)

/-- `set`. -/
def CookieJar.set (jar : CookieJar) (url : Url) (cookie : Cookie) : CookieJar × Bool :=
  if !url.isValid || cookie.name.isEmpty then (jar, false)
  else
    let cookie := if cookie.domain.isEmpty then { cookie with domain := url.authority } else cookie
    let key := originKey url
    ({ cookies := fun origin =>
        if origin = key then Keyed.put Cookie.key cookie (jar.cookies key)
        else jar.cookies origin },
      true)

/-- The name of an attribute, without the spaces in front. -/
def attributeKey (part : Bytes) : Bytes :=
  (((part.findIdx? (· == chr '=')).map part.take).getD part).dropWhile (· == chr ' ')

/-- The value of an attribute. -/
def attributeValue (part : Bytes) : Bytes :=
  ((part.findIdx? (· == chr '=')).map fun e => part.drop (e + 1)).getD []

/-- What an attribute changes in its cookie. -/
def Cookie.readAttribute (cookie : Cookie) (part : Bytes) : Cookie :=
  let cookie :=
    if attributeKey part = lit "Path" then { cookie with path := attributeValue part } else cookie
  if attributeKey part = lit "Secure" then { cookie with secure := true } else cookie

/-- The loop over the attributes. -/
def Cookie.readAttributes (cookie : Cookie) (rest : Bytes) : Cookie :=
  if rest = [] then cookie
  else
    match _ : rest.findIdx? (· == chr ';') with
    | none => cookie.readAttribute rest
    | some n => (cookie.readAttribute (rest.take n)).readAttributes (rest.drop (n + 1))
termination_by rest.length
decreasing_by
  have hlt := (List.findIdx?_eq_some_iff_getElem.mp ‹_›).1
  rw [List.length_drop]
  omega

/-- The cookie of a `Set-Cookie` header. -/
def parseSetCookie (url : Url) (header : Bytes) : Option Cookie :=
  let semi := header.findIdx? (· == chr ';')
  let pair := (semi.map header.take).getD header
  match pair.findIdx? (· == chr '=') with
  | none => none
  | some eq =>
    if eq = 0 then none
    else
      let cookie : Cookie :=
        { name := pair.take eq, value := pair.drop (eq + 1), domain := url.authority }
      some (match semi with
        | none => cookie
        | some semi => cookie.readAttributes (header.drop (semi + 1)))

/-- `set_from_header`. -/
def CookieJar.setFromHeader (jar : CookieJar) (url : Url) (header : Bytes) : CookieJar × Bool :=
  match parseSetCookie url header with
  | none => (jar, false)
  | some cookie => jar.set url cookie

/-- `cookies_for`. -/
def CookieJar.cookiesFor (jar : CookieJar) (url : Url) : List Cookie :=
  (jar.cookies (originKey url)).filter fun cookie =>
    (!cookie.secure || url.scheme == lit "https") && cookie.path.isPrefixOf url.path

/-! ## What a header says -/

theorem findIdx?_eq_length {front : Bytes} {c : Byte} (hfront : c ∉ front) (back : Bytes) :
    (front ++ c :: back).findIdx? (· == c) = some front.length := by
  have hfree : ∀ d ∈ front, ¬ (d == c) = true := fun d hd heq => hfront (beq_iff_eq.mp heq ▸ hd)
  have hself : (c == c) = true := beq_iff_eq.mpr rfl
  exact findIdx?_of_not_mem hfree hself back

/-- A text without the byte, or its first place. -/
theorem findIdx?_cases (text : Bytes) (c : Byte) :
    (c ∉ text ∧ text.findIdx? (· == c) = none) ∨
      ∃ front back, text = front ++ c :: back ∧ c ∉ front ∧
        text.findIdx? (· == c) = some front.length := by
  by_cases h : c ∈ text
  · obtain ⟨front, back, rfl, hfront⟩ := List.eq_append_cons_of_mem h
    exact Or.inr ⟨front, back, rfl, hfront, findIdx?_eq_length hfront back⟩
  · refine Or.inl ⟨h, List.findIdx?_eq_none_iff.mpr fun d hd => ?_⟩
    exact Bool.eq_false_iff.mpr fun heq => h (beq_iff_eq.mp heq ▸ hd)

theorem drop_length_succ (front : Bytes) (c : Byte) (back : Bytes) :
    (front ++ c :: back).drop (front.length + 1) = back := by
  rw [← List.drop_drop, List.drop_left, List.drop_one, List.tail_cons]

/-- The loop goes over the parts between semicolons. -/
theorem readAttributes_eq_foldl (cookie : Cookie) (rest : Bytes) :
    cookie.readAttributes rest = (rest.splitOn (chr ';')).foldl Cookie.readAttribute cookie := by
  induction cookie, rest using Cookie.readAttributes.induct with
  | case1 cookie =>
    rw [Cookie.readAttributes, if_pos rfl]
    rfl
  | case2 cookie rest hne hfind =>
    rw [Cookie.readAttributes, if_neg hne]
    rcases findIdx?_cases rest (chr ';') with ⟨hfree, hnone⟩ | ⟨front, back, -, -, hsome⟩
    · rw [List.splitOn_eq_singleton hfree]
      split
      · rfl
      · rename_i n hsome
        exact nomatch hnone.symm.trans hsome
    · exact nomatch hfind.symm.trans hsome
  | case3 cookie rest hne n hfind ih =>
    rw [Cookie.readAttributes, if_neg hne]
    rcases findIdx?_cases rest (chr ';') with ⟨-, hnone⟩ | ⟨front, back, rfl, hfront, hsome⟩
    · exact nomatch hfind.symm.trans hnone
    · obtain rfl := Option.some.inj (hfind.symm.trans hsome)
      rw [List.take_left, drop_length_succ] at ih
      split
      · rename_i hnone
        exact nomatch hfind.symm.trans hnone
      · rename_i n hn
        obtain rfl := Option.some.inj (hfind.symm.trans hn)
        rw [List.take_left, drop_length_succ, ih, List.splitOn_append_cons_self_of_not_mem hfront, List.foldl_cons]

/-- The path that the attributes give: that of the last one named `Path`. -/
def attributePath (attributes : List Bytes) : Bytes :=
  (((attributes.filter fun part => attributeKey part = lit "Path").getLast?).map
    attributeValue).getD (lit "/")

/-- What is read attribute by attribute does not depend on their order, but for two paths. -/
theorem foldl_readAttribute (cookie : Cookie) (attributes : List Bytes) :
    attributes.foldl Cookie.readAttribute cookie = { cookie with
      path := (((attributes.filter fun part => attributeKey part = lit "Path").getLast?).map
        attributeValue).getD cookie.path
      secure := cookie.secure || attributes.any fun part => attributeKey part = lit "Secure" } := by
  induction attributes using List.reverseRecOn with
  | nil =>
    show cookie = { cookie with path := cookie.path, secure := cookie.secure || false }
    rw [Bool.or_false]
  | append_singleton attributes part ih =>
    rw [List.foldl_append, List.foldl_cons, List.foldl_nil, ih, Cookie.readAttribute,
      List.filter_append, List.any_append, List.any_cons, List.any_nil, Bool.or_false,
      List.filter_cons, List.filter_nil]
    by_cases hpath : attributeKey part = lit "Path"
    · have hsecure : ¬ attributeKey part = lit "Secure" := by
        rw [hpath]
        decide
      rw [if_pos hpath, if_neg hsecure, if_pos (decide_eq_true hpath), List.getLast?_concat,
        decide_eq_false hsecure, Bool.or_false]
      rfl
    · have hskip : ¬ decide (attributeKey part = lit "Path") = true := by
        rwa [decide_eq_true_iff]
      rw [if_neg hpath, if_neg hskip, List.append_nil]
      by_cases hsecure : attributeKey part = lit "Secure"
      · rw [if_pos hsecure, decide_eq_true hsecure, Bool.or_true, Bool.or_true]
      · rw [if_neg hsecure, decide_eq_false hsecure, Bool.or_false]

/-- The cookie that a header has, once it is cut at its semicolons. -/
theorem parseSetCookie_of_splitOn {url : Url} {header pair : Bytes} {attributes : List Bytes}
    (hsplit : header.splitOn (chr ';') = pair :: attributes) :
    parseSetCookie url header = (pair.findIdx? (· == chr '=')).bind fun eq =>
      if eq = 0 then none
      else some {
        name := pair.take eq
        value := pair.drop (eq + 1)
        domain := url.authority
        path := attributePath attributes
        secure := attributes.any fun part => attributeKey part = lit "Secure" } := by
  rcases findIdx?_cases header (chr ';') with ⟨hfree, hnone⟩ | ⟨front, back, rfl, hfront, hsome⟩
  · rw [List.splitOn_eq_singleton hfree, List.cons.injEq] at hsplit
    obtain ⟨rfl, rfl⟩ := hsplit
    rw [parseSetCookie, hnone]
    dsimp only [Option.map_none, Option.getD_none]
    cases header.findIdx? (· == chr '=') with
    | none => rfl
    | some eq =>
      dsimp only [Option.bind_some]
      rfl
  · rw [List.splitOn_append_cons_self_of_not_mem hfront, List.cons.injEq] at hsplit
    obtain ⟨rfl, rfl⟩ := hsplit
    rw [parseSetCookie, hsome]
    dsimp only [Option.map_some, Option.getD_some]
    rw [List.take_left]
    cases front.findIdx? (· == chr '=') with
    | none => rfl
    | some eq =>
      dsimp only [Option.bind_some]
      rw [drop_length_succ, readAttributes_eq_foldl, foldl_readAttribute]
      rfl

/-- **What a header says**: a name and a value in front of the first semicolon, the last path, and
whether there is a `Secure`. -/
theorem parseSetCookie_eq_some_iff {url : Url} {header : Bytes} {cookie : Cookie} :
    parseSetCookie url header = some cookie ↔
      ∃ name value attributes, name ≠ [] ∧ chr '=' ∉ name ∧
        header.splitOn (chr ';') = (name ++ chr '=' :: value) :: attributes ∧
        cookie = {
          name := name
          value := value
          domain := url.authority
          path := attributePath attributes
          secure := attributes.any fun part => attributeKey part = lit "Secure" } := by
  obtain ⟨pair, attributes, hsplit⟩ := List.exists_cons_of_ne_nil
    (List.splitOn_ne_nil (chr ';') header)
  rw [parseSetCookie_of_splitOn hsplit]
  constructor
  · intro h
    obtain ⟨eq, heq, hcookie⟩ := Option.bind_eq_some_iff.mp h
    rcases findIdx?_cases pair (chr '=') with ⟨-, hnone⟩ | ⟨name, value, rfl, hname, hsome⟩
    · exact nomatch hnone.symm.trans heq
    · obtain rfl := Option.some.inj (hsome.symm.trans heq)
      split at hcookie
      · cases hcookie
      · rename_i hne
        rw [List.take_left, drop_length_succ] at hcookie
        exact ⟨name, value, attributes, fun h => hne (List.length_eq_zero_iff.mpr h), hname, hsplit,
          (Option.some.inj hcookie).symm⟩
  · rintro ⟨name, value, attributes', hne, hname, hsplit', rfl⟩
    rw [hsplit, List.cons.injEq] at hsplit'
    obtain ⟨rfl, rfl⟩ := hsplit'
    rw [findIdx?_eq_length hname, Option.bind_some,
      if_neg fun h => hne (List.length_eq_zero_iff.mp h), List.take_left, drop_length_succ]

/-! ## Histories of calls -/

/-- A call that changes a jar. -/
inductive CookieCall
  | set (url : ParsedUrl) (cookie : Cookie)
  | setFromHeader (url : ParsedUrl) (header : Bytes)

/-- What a call does. -/
def CookieCall.apply (jar : CookieJar) : CookieCall → CookieJar
  | set url cookie => (jar.set url.1 cookie).1
  | setFromHeader url header => (jar.setFromHeader url.1 header).1

/-- The jar after the calls. -/
def jarAfter (history : List CookieCall) : CookieJar := history.foldl CookieCall.apply {}

/-- The cookie that `set` keeps, if it keeps one. -/
def Cookie.kept (cookie : Cookie) (url : Url) : Option Cookie :=
  if !url.isValid || cookie.name.isEmpty then none
  else if cookie.domain.isEmpty then some { cookie with domain := url.authority }
  else some cookie

/-- The URL of a call. -/
def CookieCall.url : CookieCall → ParsedUrl
  | set url _ => url
  | setFromHeader url _ => url

/-- The cookie that a call sets, if it sets one. -/
def CookieCall.kept : CookieCall → Option Cookie
  | set url cookie => cookie.kept url.1
  | setFromHeader url header => (parseSetCookie url.1 header).bind fun cookie => cookie.kept url.1

/-- The cookie that a call sets for the scheme and the authority of a URL, under a name and a
path. -/
def CookieCall.sets (call : CookieCall) (url : Url) (key : Bytes × Bytes) : Option Cookie :=
  if call.url.1.scheme = url.scheme ∧ call.url.1.authority = url.authority then
    call.kept.filter fun cookie => cookie.key = key
  else none

/-- The last cookie that was set so. -/
def lastSet (history : List CookieCall) (url : Url) (key : Bytes × Bytes) : Option Cookie :=
  history.reverse.findSome? fun call => call.sets url key

/-- The authority of a URL has no slash, and so the key of an origin has both parts in it. -/
theorem originKey_eq_iff (url url' : ParsedUrl) :
    originKey url.1 = originKey url'.1 ↔
      url.1.scheme = url'.1.scheme ∧ url.1.authority = url'.1.authority := by
  obtain ⟨url, text, hparse⟩ := url
  obtain ⟨url', text', hparse'⟩ := url'
  constructor
  · intro h
    have hkey (u : Url) : originKey u = (u.scheme ++ lit ":/") ++ chr '/' :: u.authority := by
      rw [originKey, List.append_assoc, List.append_assoc]
      rfl
    rw [hkey, hkey] at h
    obtain ⟨hscheme, hauthority⟩ := append_cons_inj (slash_not_mem_authority_of_parse hparse)
      (slash_not_mem_authority_of_parse hparse') h
    exact ⟨List.append_cancel_right hscheme, hauthority⟩
  · rintro ⟨hscheme, hauthority⟩
    rw [originKey, originKey, hscheme, hauthority]

theorem set_eq (jar : CookieJar) (url : Url) (cookie : Cookie) :
    jar.set url cookie = match cookie.kept url with
      | none => (jar, false)
      | some kept => ({ cookies := fun origin =>
          if origin = originKey url then Keyed.put Cookie.key kept (jar.cookies (originKey url))
          else jar.cookies origin }, true) := by
  rw [CookieJar.set, Cookie.kept]
  split
  · rfl
  · split <;> rfl

/-- A jar after a call: the cookie that the call sets takes its place. -/
theorem cookies_apply (jar : CookieJar) (call : CookieCall) (origin : Bytes) :
    (call.apply jar).cookies origin = match call.kept with
      | none => jar.cookies origin
      | some kept =>
        if origin = originKey call.url.1 then Keyed.put Cookie.key kept (jar.cookies origin)
        else jar.cookies origin := by
  have hset (url : Url) (cookie : Cookie) : (jar.set url cookie).1.cookies origin =
      match cookie.kept url with
      | none => jar.cookies origin
      | some kept =>
        if origin = originKey url then Keyed.put Cookie.key kept (jar.cookies origin)
        else jar.cookies origin := by
    rw [set_eq]
    cases cookie.kept url with
    | none => rfl
    | some kept =>
      dsimp only
      split
      · rename_i horigin
        rw [horigin]
      · rfl
  cases call with
  | set url cookie => exact hset url.1 cookie
  | setFromHeader url header =>
    rw [CookieCall.apply, CookieJar.setFromHeader, CookieCall.kept]
    cases parseSetCookie url.1 header with
    | none => rfl
    | some cookie => exact hset url.1 cookie

/-- What is found under a name and a path after a call. -/
theorem get_apply (jar : CookieJar) (call : CookieCall) (url : ParsedUrl) (key : Bytes × Bytes) :
    Keyed.get Cookie.key key ((call.apply jar).cookies (originKey url.1)) =
      (call.sets url.1 key).or (Keyed.get Cookie.key key (jar.cookies (originKey url.1))) := by
  rw [cookies_apply, CookieCall.sets]
  cases hkept : call.kept with
  | none =>
    rw [Option.filter_none, ite_self, Option.none_or]
  | some kept =>
    dsimp only
    by_cases horigin : originKey url.1 = originKey call.url.1
    · obtain ⟨hscheme, hauthority⟩ := (originKey_eq_iff url call.url).mp horigin
      rw [if_pos horigin, if_pos ⟨hscheme.symm, hauthority.symm⟩, Keyed.get_put]
      rw [Option.filter_some]
      by_cases hkey : kept.key = key
      · rw [if_pos hkey, if_pos (decide_eq_true hkey), Option.some_or]
      · have hother : ¬ decide (kept.key = key) = true := by rwa [decide_eq_true_iff]
        rw [if_neg hkey, if_neg hother, Option.none_or]
    · rw [if_neg horigin, if_neg, Option.none_or]
      rintro ⟨hscheme, hauthority⟩
      exact horigin ((originKey_eq_iff url call.url).mpr ⟨hscheme.symm, hauthority.symm⟩)

/-- The cookies of an origin have different names or paths. -/
theorem nodup_apply {jar : CookieJar} (h : ∀ origin, ((jar.cookies origin).map Cookie.key).Nodup)
    (call : CookieCall) (origin : Bytes) :
    (((call.apply jar).cookies origin).map Cookie.key).Nodup := by
  rw [cookies_apply]
  split
  · exact h origin
  · split
    · exact Keyed.nodup_put Cookie.key _ (h origin)
    · exact h origin

theorem jarAfter_append (history : List CookieCall) (call : CookieCall) :
    jarAfter (history ++ [call]) = call.apply (jarAfter history) := by
  rw [jarAfter, List.foldl_append]
  rfl

theorem nodup_jarAfter (history : List CookieCall) (origin : Bytes) :
    (((jarAfter history).cookies origin).map Cookie.key).Nodup := by
  induction history using List.reverseRecOn generalizing origin with
  | nil => exact List.nodup_nil
  | append_singleton history call ih =>
    rw [jarAfter_append]
    exact nodup_apply ih call origin

/-- **What is found is what was set last.** -/
theorem get_jarAfter (history : List CookieCall) (url : ParsedUrl) (key : Bytes × Bytes) :
    Keyed.get Cookie.key key ((jarAfter history).cookies (originKey url.1)) =
      lastSet history url.1 key := by
  induction history using List.reverseRecOn with
  | nil => rfl
  | append_singleton history call ih =>
    rw [jarAfter_append, get_apply, ih, lastSet, lastSet, List.reverse_append,
      List.reverse_singleton, List.singleton_append, List.findSome?_cons]
    cases call.sets url.1 key with
    | none => exact Option.none_or
    | some cookie => exact Option.some_or

/-! ## Which cookies are sent -/

/-- `path-match` of RFC 6265, section 5.1.4. -/
def PathMatches (path cookiePath : Bytes) : Prop :=
  path = cookiePath ∨ cookiePath <+: path ∧
    (cookiePath.getLast? = some (chr '/') ∨
      (path.drop cookiePath.length).head? = some (chr '/'))

instance (path cookiePath : Bytes) : Decidable (PathMatches path cookiePath) :=
  inferInstanceAs (Decidable (_ ∨ _ ∧ (_ ∨ _)))

/-- The path without the query. -/
def Url.requestPath (url : Url) : Bytes := url.path.takeWhile (· != chr '?')

/-- A cookie belongs to a request of the URL. -/
def Cookie.Applies (cookie : Cookie) (url : Url) : Prop :=
  PathMatches url.requestPath cookie.path ∧ (cookie.secure = true → url.scheme = lit "https")

instance (cookie : Cookie) (url : Url) : Decidable (cookie.Applies url) :=
  inferInstanceAs (Decidable (_ ∧ (_ → _)))

/-- The test of `cookies_for`. -/
theorem sent_iff {cookie : Cookie} {url : Url} :
    ((!cookie.secure || url.scheme == lit "https") && cookie.path.isPrefixOf url.path) = true ↔
      (cookie.secure = true → url.scheme = lit "https") ∧ cookie.path <+: url.path := by
  rw [Bool.and_eq_true, Bool.or_eq_true, Bool.not_eq_true', beq_iff_eq, List.isPrefixOf_iff_prefix]
  refine and_congr_left fun _ => ?_
  cases cookie.secure with
  | false => exact iff_of_true (Or.inl rfl) fun h => by cases h
  | true => exact ⟨fun h _ => h.resolve_left (by decide), fun h => Or.inr (h rfl)⟩

/-- A cookie that belongs to a request is sent. -/
theorem Cookie.Applies.sent {cookie : Cookie} {url : Url} (h : cookie.Applies url) :
    cookie.path <+: url.path := by
  have hrequest : url.requestPath <+: url.path := List.takeWhile_prefix _
  rcases h.1 with heq | ⟨hpre, -⟩
  · exact heq ▸ hrequest
  · exact hpre.trans hrequest

theorem filter_singleton_eq_iff {α : Type*} {p q : α → Bool} {a : α} :
    [a].filter p = [a].filter q ↔ (p a = true ↔ q a = true) := by
  rw [List.filter_singleton, List.filter_singleton]
  cases p a <;> cases q a <;> simp

/-- **The cookies returned are the last ones set that belong to the request** exactly if none of
them has a path that the URL's path only begins with. -/
theorem cookiesFor_iff (history : List CookieCall) (url : ParsedUrl) :
    (∀ key, ((jarAfter history).cookiesFor url.1).filter (fun cookie => cookie.key = key) =
        (lastSet history url.1 key).toList.filter fun cookie => cookie.Applies url.1) ↔
      ∀ key cookie, lastSet history url.1 key = some cookie →
        (cookie.secure = true → url.1.scheme = lit "https") → cookie.path <+: url.1.path →
          PathMatches url.1.requestPath cookie.path := by
  have hsent (key : Bytes × Bytes) :
      ((jarAfter history).cookiesFor url.1).filter (fun cookie => cookie.key = key) =
        (lastSet history url.1 key).toList.filter fun cookie =>
          (!cookie.secure || url.1.scheme == lit "https") && cookie.path.isPrefixOf url.1.path := by
    rw [← get_jarAfter, ← Keyed.filter_eq_toList_get Cookie.key (nodup_jarAfter history _),
      CookieJar.cookiesFor, List.filter_filter, List.filter_filter]
    exact List.filter_congr fun cookie _ => Bool.and_comm _ _
  refine forall_congr' fun key => ?_
  rw [hsent key]
  cases lastSet history url.1 key with
  | none => exact iff_of_true rfl fun cookie h => nomatch h
  | some cookie =>
    rw [Option.toList_some, filter_singleton_eq_iff, sent_iff, decide_eq_true_iff]
    constructor
    · intro h cookie' hcookie hsecure hpath
      obtain rfl := Option.some.inj hcookie
      exact (h.mp ⟨hsecure, hpath⟩).1
    · intro h
      constructor
      · rintro ⟨hsecure, hpath⟩
        exact ⟨h cookie rfl hsecure hpath, hsecure⟩
      · exact fun happlies => ⟨happlies.2, happlies.sent⟩

/-- `http://h/`. -/
def rootUrl : ParsedUrl := ⟨{
  serialized := lit "http://h/"
  scheme := lit "http"
  authority := lit "h"
  path := lit "/" }, lit "http://h/", by decide +kernel⟩

/-- `http://h/ab`. -/
def longerUrl : ParsedUrl := ⟨{
  serialized := lit "http://h/ab"
  scheme := lit "http"
  authority := lit "h"
  path := lit "/ab" }, lit "http://h/ab", by decide +kernel⟩

/-- A cookie for `/a` is sent with a request for `/ab`. -/
theorem not_cookiesFor_beginning :
    ¬ ∀ (history : List CookieCall) (url : ParsedUrl) (key : Bytes × Bytes),
      ((jarAfter history).cookiesFor url.1).filter (fun cookie => cookie.key = key) =
        (lastSet history url.1 key).toList.filter fun cookie => cookie.Applies url.1 := by
  intro h
  have hfilter := h [.setFromHeader rootUrl (lit "n=v; Path=/a")] longerUrl (lit "n", lit "/a")
  have hsent : ((jarAfter [.setFromHeader rootUrl (lit "n=v; Path=/a")]).cookiesFor
      longerUrl.1).filter (fun cookie => cookie.key = (lit "n", lit "/a")) ≠ [] := by
    decide +kernel
  have hnone : (lastSet [.setFromHeader rootUrl (lit "n=v; Path=/a")] longerUrl.1
      (lit "n", lit "/a")).toList.filter (fun cookie => cookie.Applies longerUrl.1) = [] := by
    decide +kernel
  exact hsent (hfilter.trans hnone)

end Aetheris.Net
