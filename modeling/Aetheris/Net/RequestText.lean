import Aetheris.Library.Segments
import Aetheris.Net.HeaderLines

/-!
# The text of a request

`request_once` puts the URL, the cookies and the headers into the text of a request as they are.
Neither `parse_http_url` nor the cookie store looks at the bytes, so what a URL holds behind its
scheme goes into the request line and the `Host` line, and what a response has put into a cookie
goes into the `Cookie` line of later requests to the same host.

The text is always the lines of `requestLines`, each with its line end, then the empty line and the
body.  It is `WellFormed` if a reader finds these lines again and the three fields of the request
line.  By `splitHead_lines_iff` the lines are found exactly if none of them has a carriage return or
a line feed in it; the caller's headers have none, and so the question is about three texts, the
host, the path and the cookies for the host.  The state of the client in front of a request has all
of them, which makes the answer one about every request of every run, redirects included.
-/

namespace Aetheris.Net

/-! ## The lines of a request -/

/-- The request line. -/
def requestLine (method path : Bytes) : Bytes := method ++ lit " " ++ path ++ lit " HTTP/1.1"

/-- The line of a header. -/
def headerLine (header : HttpHeader) : Bytes := header.name ++ lit ": " ++ header.value

/-- The lines that a request is meant to have. -/
def requestLines (jar : List HttpCookie) (parsed : ParsedHttpUrl) (method : Bytes)
    (headers : List HttpHeader) (body : Bytes) : List Bytes :=
  [requestLine method parsed.path, lit "Host: " ++ parsed.host, lit "User-Agent: Aetheris/1.0",
    lit "Accept: */*"] ++
    (if httpCookieHeader parsed.host jar = [] then []
      else [lit "Cookie: " ++ httpCookieHeader parsed.host jar]) ++
    [lit "Connection: close"] ++ headers.map headerLine ++
    (if body = [] then [] else [lit "Content-Length: " ++ Js.natDecimal body.length])

theorem requestText_eq (jar : List HttpCookie) (parsed : ParsedHttpUrl) (method : Bytes)
    (headers : List HttpHeader) (body : Bytes) :
    requestText jar parsed method headers body =
      (requestLines jar parsed method headers body).flatMap (· ++ crlf) ++ (crlf ++ body) := by
  have hversion : lit " HTTP/1.1\r\n" = lit " HTTP/1.1" ++ crlf := by decide
  have hagent : lit "User-Agent: Aetheris/1.0\r\n" = lit "User-Agent: Aetheris/1.0" ++ crlf := by
    decide
  have haccept : lit "Accept: */*\r\n" = lit "Accept: */*" ++ crlf := by decide
  have hclose : lit "Connection: close\r\n" = lit "Connection: close" ++ crlf := by decide
  have hheaders : headers.flatMap (fun header => header.name ++ lit ": " ++ header.value ++ crlf) =
      (headers.map headerLine).flatMap (· ++ crlf) := by
    rw [List.flatMap_map]
    rfl
  rw [requestText, requestLines, hversion, hagent, haccept, hclose, hheaders]
  split_ifs <;>
    simp only [requestLine, List.flatMap_append, List.flatMap_cons, List.flatMap_nil,
      List.append_nil, List.append_assoc]

/-- What holds of each line. -/
theorem forall_requestLines_iff {P : Bytes → Prop} {jar : List HttpCookie}
    {parsed : ParsedHttpUrl} {method : Bytes} {headers : List HttpHeader} {body : Bytes} :
    (∀ line ∈ requestLines jar parsed method headers body, P line) ↔
      P (requestLine method parsed.path) ∧ P (lit "Host: " ++ parsed.host) ∧
        P (lit "User-Agent: Aetheris/1.0") ∧ P (lit "Accept: */*") ∧
          (httpCookieHeader parsed.host jar ≠ [] →
            P (lit "Cookie: " ++ httpCookieHeader parsed.host jar)) ∧
              P (lit "Connection: close") ∧ (∀ header ∈ headers, P (headerLine header)) ∧
                (body ≠ [] → P (lit "Content-Length: " ++ Js.natDecimal body.length)) := by
  rw [requestLines]
  simp only [List.forall_mem_append, List.forall_mem_cons, List.forall_mem_map, and_assoc]
  by_cases hcookie : httpCookieHeader parsed.host jar = [] <;> by_cases hbody : body = [] <;>
    simp [hcookie, hbody]

theorem ne_nil_of_mem_requestLines (jar : List HttpCookie) (parsed : ParsedHttpUrl)
    (method : Bytes) (headers : List HttpHeader) (body : Bytes) :
    ∀ line ∈ requestLines jar parsed method headers body, line ≠ [] := by
  have hleft : ∀ {front back : Bytes}, front ≠ [] → front ++ back ≠ [] := fun h =>
    List.append_ne_nil_of_left_ne_nil h _
  have hright : ∀ {front back : Bytes}, back ≠ [] → front ++ back ≠ [] := fun h =>
    List.append_ne_nil_of_right_ne_nil _ h
  rw [forall_requestLines_iff]
  refine ⟨hright (by decide), hleft (by decide), by decide, by decide, fun _ => hleft (by decide),
    by decide, fun header _ => hleft (hright (by decide)), fun _ => hleft (by decide)⟩

/-- **The request is read as it was meant**: its lines are the request line, the lines of the
headers and then the empty one, and the request line has its three fields. -/
structure WellFormed (jar : List HttpCookie) (parsed : ParsedHttpUrl) (method : Bytes)
    (headers : List HttpHeader) (body text : Bytes) : Prop where
  lines : splitHead text = some (requestLines jar parsed method headers body, body)
  fields : (requestLine method parsed.path).splitOn (chr ' ') =
    [method, parsed.path, lit "HTTP/1.1"]

theorem splitOn_requestLine_iff {method path : Bytes} :
    (requestLine method path).splitOn (chr ' ') = [method, path, lit "HTTP/1.1"] ↔
      chr ' ' ∉ method ∧ chr ' ' ∉ path := by
  constructor
  · intro h
    have hmem : ∀ s ∈ [method, path, lit "HTTP/1.1"], chr ' ' ∉ s := fun s hs =>
      Segments.not_mem_of_mem_splitOn (h ▸ hs)
    exact ⟨hmem _ List.mem_cons_self, hmem _ (List.mem_cons_of_mem _ List.mem_cons_self)⟩
  · rintro ⟨hmethod, hpath⟩
    have hline : requestLine method path =
        method ++ chr ' ' :: (path ++ chr ' ' :: lit "HTTP/1.1") := by
      rw [requestLine, List.append_assoc, List.append_assoc]
      rfl
    rw [hline, List.splitOn_append_cons_self_of_not_mem hmethod,
      List.splitOn_append_cons_self_of_not_mem hpath, List.splitOn_eq_singleton (by decide)]

/-- The digits of a number are no line end. -/
theorem unbroken_natDecimal (n : ℕ) : Unbroken (Js.natDecimal n) := by
  have hdigit : ∀ d < 10, Js.digitChar d ≠ 0x0d ∧ Js.digitChar d ≠ 0x0a := by decide
  induction n using Js.natDecimal.induct with
  | case1 n hlt =>
    rw [Js.natDecimal, if_pos hlt, Unbroken, List.forall_mem_singleton]
    exact hdigit n hlt
  | case2 n hge ih =>
    rw [Js.natDecimal, if_neg hge, unbroken_append_iff]
    exact ⟨ih, List.forall_mem_singleton.mpr (hdigit _ (Nat.mod_lt _ (by decide)))⟩

/-- The cookies for the host have no line end. -/
def UnbrokenCookies (jar : List HttpCookie) (host : Bytes) : Prop :=
  ∀ cookie ∈ jar, cookie.host = host → Unbroken cookie.name ∧ Unbroken cookie.value

/-- **The `Cookie` line has a line end exactly if a cookie for the host has one.** -/
theorem unbroken_httpCookieHeader_iff {jar : List HttpCookie} {host : Bytes} :
    Unbroken (httpCookieHeader host jar) ↔ UnbrokenCookies jar host := by
  have hfold (cookies : List HttpCookie) : ∀ result : Bytes,
      Unbroken (cookies.foldl (fun result cookie =>
        (if result = [] then result else result ++ lit "; ") ++ cookie.name ++
          chr '=' :: cookie.value) result) ↔
        Unbroken result ∧ ∀ cookie ∈ cookies, Unbroken cookie.name ∧ Unbroken cookie.value := by
    induction cookies with
    | nil => exact fun result => (and_iff_left fun _ h => absurd h List.not_mem_nil).symm
    | cons cookie cookies ih =>
      intro result
      have hbegin : Unbroken (if result = [] then result else result ++ lit "; ") ↔
          Unbroken result := by
        split
        · rfl
        · exact unbroken_append_iff.trans (and_iff_left (by decide))
      have hvalue : Unbroken (chr '=' :: cookie.value) ↔ Unbroken cookie.value :=
        List.forall_mem_cons.trans (and_iff_right (by decide))
      rw [List.foldl_cons, ih, unbroken_append_iff, unbroken_append_iff, hbegin, hvalue,
        List.forall_mem_cons, and_assoc, and_assoc, and_assoc]
  rw [httpCookieHeader, hfold, UnbrokenCookies]
  simp only [List.mem_filter, beq_iff_eq, and_imp]
  exact and_iff_right unbroken_nil

/-- The method and the headers of the caller are free of carriage returns and line feeds. -/
structure UnbrokenRequest (method : Bytes) (headers : List HttpHeader) : Prop where
  method : Unbroken method
  name : ∀ header ∈ headers, Unbroken header.name
  value : ∀ header ∈ headers, Unbroken header.value

/-- **When one request is read as it was meant.** -/
theorem wellFormed_requestText_iff {jar : List HttpCookie} {parsed : ParsedHttpUrl}
    {method : Bytes} {headers : List HttpHeader} (h : UnbrokenRequest method headers)
    (body : Bytes) :
    WellFormed jar parsed method headers body (requestText jar parsed method headers body) ↔
      Unbroken parsed.host ∧ Unbroken parsed.path ∧ UnbrokenCookies jar parsed.host ∧
        chr ' ' ∉ parsed.path ∧ chr ' ' ∉ method := by
  have hbehind {front text : Bytes} (hfront : Unbroken front) :
      Unbroken (front ++ text) ↔ Unbroken text := unbroken_append_iff.trans (and_iff_right hfront)
  have hline : Unbroken (requestLine method parsed.path) ↔ Unbroken parsed.path := by
    rw [requestLine, unbroken_append_iff, List.append_assoc, hbehind h.method,
      hbehind (by decide : Unbroken (lit " "))]
    exact and_iff_left (by decide)
  have hcookie : (httpCookieHeader parsed.host jar ≠ [] →
      Unbroken (lit "Cookie: " ++ httpCookieHeader parsed.host jar)) ↔
        UnbrokenCookies jar parsed.host := by
    rw [hbehind (by decide), ← unbroken_httpCookieHeader_iff]
    refine ⟨fun hsent => ?_, fun hall _ => hall⟩
    by_cases hnil : httpCookieHeader parsed.host jar = []
    · rw [hnil]
      exact unbroken_nil
    · exact hsent hnil
  have hheaders : ∀ header ∈ headers, Unbroken (headerLine header) := fun header hmem =>
    unbroken_append_iff.mpr ⟨unbroken_append_iff.mpr ⟨h.name header hmem, by decide⟩,
      h.value header hmem⟩
  have hlines : (∀ line ∈ requestLines jar parsed method headers body, Unbroken line) ↔
      Unbroken parsed.host ∧ Unbroken parsed.path ∧ UnbrokenCookies jar parsed.host := by
    rw [forall_requestLines_iff, hline, hbehind (by decide), hcookie]
    constructor
    · exact fun hall => ⟨hall.2.1, hall.1, hall.2.2.2.2.1⟩
    · rintro ⟨hhost, hpath, hcookies⟩
      exact ⟨hpath, hhost, by decide, by decide, hcookies, by decide, hheaders,
        fun _ => (hbehind (by decide)).mpr (unbroken_natDecimal _)⟩
  have hread := splitHead_lines_iff (ne_nil_of_mem_requestLines jar parsed method headers body) body
  rw [← requestText_eq] at hread
  constructor
  · rintro ⟨hlinesRead, hfields⟩
    obtain ⟨hhost, hpath, hcookies⟩ := hlines.mp (hread.mp hlinesRead)
    obtain ⟨hmethod, hspace⟩ := splitOn_requestLine_iff.mp hfields
    exact ⟨hhost, hpath, hcookies, hspace, hmethod⟩
  · rintro ⟨hhost, hpath, hcookies, hspace, hmethod⟩
    exact ⟨hread.mpr (hlines.mpr ⟨hhost, hpath, hcookies⟩),
      splitOn_requestLine_iff.mpr ⟨hmethod, hspace⟩⟩

/-! ## Runs -/

/-- A call of `request`. -/
structure Call where
  url : Bytes
  method : Bytes
  headers : List HttpHeader
  body : Bytes
  network : ℕ → Connection
  fuel : ℕ

/-- The first request of the call. -/
def Call.start (call : Call) (jar : List HttpCookie) : RequestState :=
  ⟨call.url, call.method, call.body, jar⟩

/-- The requests of a chain of redirects. -/
def requestsOf (fuel : ℕ) : List Connection → RequestState → List (Connection × RequestState)
  | [], _ => []
  | connection :: connections, s =>
    (connection, s) ::
      match requestOnce fuel connection s with
      | some answer =>
        match redirect s answer.1 answer.2 with
        | some next => requestsOf fuel connections next
        | none => []
      | none => []

/-- The cookies after the call, if it returns. -/
def callStep (jar : List HttpCookie) (call : Call) : Option (List HttpCookie) :=
  (request call.fuel call.network (call.start jar)).map (·.2)

/-- The requests of a run of calls. -/
def requestsOfRun : List HttpCookie → List Call → List (Call × Connection × RequestState)
  | _, [] => []
  | jar, call :: calls =>
    (requestsOf call.fuel ((List.range 6).map call.network) (call.start jar)).map (call, ·) ++
      match callStep jar call with
      | some jar => requestsOfRun jar calls
      | none => []

/-- The method is the one of the caller, or the one after a redirect with status 303. -/
def KeepsMethod (call : Call) (s : RequestState) : Prop :=
  s.method = call.method ∨ s.method = lit "GET"

/-- One redirect. -/
theorem KeepsMethod.redirect {call : Call} {s next : RequestState} (h : KeepsMethod call s)
    {response : HttpResponseData} {jar : List HttpCookie}
    (hnext : redirect s response jar = some next) : KeepsMethod call next := by
  rw [Net.redirect] at hnext
  split at hnext
  · cases hnext
  · split at hnext
    · dsimp only at hnext
      split at hnext
      · cases hnext
      · rw [← Option.some.inj hnext, KeepsMethod]
        dsimp only
        split
        · exact Or.inr rfl
        · exact h
    · cases hnext

/-- A whole chain, by induction on what the network does in its hops. -/
theorem keepsMethod_requestsOf {call : Call} {fuel : ℕ} {connections : List Connection}
    {s : RequestState} (h : KeepsMethod call s) :
    ∀ r ∈ requestsOf fuel connections s, KeepsMethod call r.2 := by
  induction connections generalizing s with
  | nil => exact fun r hr => absurd hr List.not_mem_nil
  | cons connection connections ih =>
    intro r hr
    rw [requestsOf] at hr
    rcases List.mem_cons.mp hr with rfl | hr
    · exact h
    · split at hr
      · split at hr
        · rename_i hnext
          exact ih (h.redirect hnext) r hr
        · exact absurd hr List.not_mem_nil
      · exact absurd hr List.not_mem_nil

/-- A whole run, by induction on its calls. -/
theorem keepsMethod_requestsOfRun {calls : List Call} {jar : List HttpCookie} :
    ∀ r ∈ requestsOfRun jar calls, r.1 ∈ calls ∧ KeepsMethod r.1 r.2.2 := by
  induction calls generalizing jar with
  | nil => exact fun r hr => absurd hr List.not_mem_nil
  | cons call calls ih =>
    intro r hr
    rw [requestsOfRun] at hr
    rcases List.mem_append.mp hr with hr | hr
    · obtain ⟨request, hrequest, rfl⟩ := List.mem_map.mp hr
      have hstart : KeepsMethod call (call.start jar) := Or.inl rfl
      exact ⟨List.mem_cons_self, keepsMethod_requestsOf hstart request hrequest⟩
    · split at hr
      · exact (ih r hr).imp_left (List.mem_cons_of_mem _)
      · exact absurd hr List.not_mem_nil

/-- **Every request of every run** is read as it was meant exactly if the host and the path of its
URL and the cookies for the host have no line end, and the path and the method have no space. -/
theorem wellFormed_iff (calls : List Call)
    (hcalls : ∀ call ∈ calls, UnbrokenRequest call.method call.headers) :
    ∀ r ∈ requestsOfRun [] calls, ∀ text, sentText r.2.1 r.1.headers r.2.2 = some text →
      (WellFormed r.2.2.jar (parseHttpUrl r.2.2.url) r.2.2.method r.1.headers r.2.2.body text ↔
        Unbroken (parseHttpUrl r.2.2.url).host ∧ Unbroken (parseHttpUrl r.2.2.url).path ∧
          UnbrokenCookies r.2.2.jar (parseHttpUrl r.2.2.url).host ∧
            chr ' ' ∉ (parseHttpUrl r.2.2.url).path ∧ chr ' ' ∉ r.2.2.method) := by
  intro r hr text htext
  obtain ⟨hmem, hchain⟩ := keepsMethod_requestsOfRun r hr
  have hunbroken := hcalls r.1 hmem
  have hmethod : Unbroken r.2.2.method := by
    rcases hchain with h | h
    · rw [h]
      exact hunbroken.method
    · rw [h]
      decide
  rw [sentText] at htext
  split at htext
  · cases htext
  · rw [← Option.some.inj htext]
    exact wellFormed_requestText_iff ⟨hmethod, hunbroken.name, hunbroken.value⟩ _

/-- A call for the URL that is answered with nothing. -/
def getCall (url : Bytes) : Call :=
  ⟨url, lit "GET", [], [], fun _ => ⟨false, none, true, true, []⟩, 0⟩

theorem mem_requestsOfRun_getCall (url : Bytes) :
    (getCall url, ⟨false, none, true, true, []⟩, (getCall url).start []) ∈
      requestsOfRun [] [getCall url] :=
  List.mem_append_left _ (List.mem_map.mpr ⟨_, List.mem_cons_self, rfl⟩)

theorem unbrokenRequest_getCall (url : Bytes) :
    ∀ call ∈ [getCall url], UnbrokenRequest call.method call.headers := by
  intro call hcall
  rw [List.mem_singleton.mp hcall]
  refine ⟨?_, fun header hheader => ?_, fun header hheader => ?_⟩
  · show ∀ c ∈ lit "GET", c ≠ 0x0d ∧ c ≠ 0x0a
    decide
  · exact absurd hheader List.not_mem_nil
  · exact absurd hheader List.not_mem_nil

/-- The request for `http://h/a`. -/
theorem wellFormed_getCall :
    WellFormed [] (parseHttpUrl (lit "http://h/a")) (lit "GET") [] []
      (requestText [] (parseHttpUrl (lit "http://h/a")) (lit "GET") [] []) := by
  have hsent : sentText ⟨false, none, true, true, []⟩ (getCall (lit "http://h/a")).headers
      ((getCall (lit "http://h/a")).start []) =
        some (requestText [] (parseHttpUrl (lit "http://h/a")) (lit "GET") [] []) := by
    have herror : connectError (parseHttpUrl (lit "http://h/a"))
        ⟨false, none, true, true, []⟩ = none := by decide +kernel
    rw [sentText, Call.start, getCall]
    dsimp only
    rw [herror]
  exact (wellFormed_iff _ (unbrokenRequest_getCall _) _ (mem_requestsOfRun_getCall _) _ hsent).mpr
    ⟨by decide +kernel, by decide +kernel, fun _ hcookie => absurd hcookie List.not_mem_nil,
      by decide +kernel, by decide +kernel⟩

/-- The path of `http://h/\r\nX:y` makes a line of its own. -/
theorem not_wellFormed_lineEnd :
    ¬ ∀ calls : List Call,
      (∀ call ∈ calls, UnbrokenRequest call.method call.headers) →
      ∀ r ∈ requestsOfRun [] calls, ∀ text, sentText r.2.1 r.1.headers r.2.2 = some text →
        WellFormed r.2.2.jar (parseHttpUrl r.2.2.url) r.2.2.method r.1.headers r.2.2.body text := by
  intro h
  have hsent : sentText ⟨false, none, true, true, []⟩ (getCall (lit "http://h/\r\nX:y")).headers
      ((getCall (lit "http://h/\r\nX:y")).start []) =
        some (requestText [] (parseHttpUrl (lit "http://h/\r\nX:y")) (lit "GET") [] []) := by
    have herror : connectError (parseHttpUrl (lit "http://h/\r\nX:y"))
        ⟨false, none, true, true, []⟩ = none := by decide +kernel
    rw [sentText, Call.start, getCall]
    dsimp only
    rw [herror]
  have hwellFormed := h _ (unbrokenRequest_getCall _) _ (mem_requestsOfRun_getCall _) _ hsent
  have hunbroken := unbrokenRequest_getCall (lit "http://h/\r\nX:y") _ List.mem_cons_self
  have hpath := ((wellFormed_requestText_iff hunbroken []).mp hwellFormed).2.1
  exact absurd hpath (by decide +kernel)

end Aetheris.Net
