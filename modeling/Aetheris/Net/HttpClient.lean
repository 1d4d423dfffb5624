import Aetheris.Net.Chunked
import Aetheris.Net.HttpUrl

/-!
# The HTTP client

`HttpClient` of `http_client.hpp` sends a request over a connection, reads the headers of the
response, and then as much of the body as they announce.  What the network does in one request is an
input of the model: whether the connection is made, and what each `recv` gives.  A chunked body may
keep `decode_chunked` busy for ever, so the number of its rounds is bounded.  A redirect is a
request again, up to a number of them.
-/

namespace Aetheris.Net

/-- The empty line behind the headers, with the end of the last one. -/
def headerEnd : Bytes := crlf ++ crlf

/-- Two texts that differ in case at most. -/
def lowerEquals (value expected : Bytes) : Bool := value.map toLower == expected.map toLower

/-- `HttpHeader`. -/
structure HttpHeader where
  name : Bytes
  value : Bytes
  deriving DecidableEq, Repr

/-- `HttpResponseData`. -/
structure HttpResponseData where
  status : ℤ := 0
  statusLine : Bytes := []
  headers : List HttpHeader := []
  body : Bytes := []
  error : Bytes := []
  deriving DecidableEq, Repr

/-- `header`: the first header with the name. -/
def HttpResponseData.header (response : HttpResponseData) (name : Bytes) : Bytes :=
  match response.headers.find? (lowerEquals ·.name name) with
  | some header => header.value
  | none => []

/-! ## The headers of a response -/

/-- One header line: what is in front of the first colon, and what is behind it and its spaces. -/
def headerOfLine (line : Bytes) : Option HttpHeader :=
  (line.findIdx? (· == chr ':')).map fun colon =>
    let value := line.drop (colon + 1)
    let trimmed := value.dropWhile fun c => c == chr ' ' || c == chr '\t'
    -- a value of spaces only is kept
    { name := line.take colon, value := if trimmed = [] then value else trimmed }

/-- The header lines from a position on. -/
def headersFrom (section_ : Bytes) (pos : ℕ) : List HttpHeader :=
  if pos < section_.length then
    let length := (find (section_.drop pos) crlf).getD (section_.length - pos)
    (headerOfLine ((section_.drop pos).take length)).toList ++ headersFrom section_ (pos + length + 2)
  else []
termination_by section_.length - pos

/-- `HttpSniffer::parse_response_headers`: the status line and the headers. -/
def parseResponseHeaders (raw : Bytes) : Bytes × List HttpHeader :=
  match find raw headerEnd with
  | none => ([], [])
  | some end_ =>
    let section_ := raw.take end_
    match find section_ crlf with
    | some lineEnd => (section_.take lineEnd, headersFrom section_ (lineEnd + 2))
    -- without a line end the position is `npos + 2`
    | none => ([], headersFrom section_ 1)

/-! ## Cookies -/

/-- `HttpCookie`. -/
structure HttpCookie where
  host : Bytes
  name : Bytes
  value : Bytes
  deriving DecidableEq, Repr

/-- The white space that `http_trim` takes away. -/
def isTrimmed (c : Byte) : Bool := c == chr ' ' || c == chr '\t' || c == chr '\r' || c == chr '\n'

/-- `http_trim`. -/
def httpTrim (text : Bytes) : Bytes :=
  ((text.dropWhile isTrimmed).reverse.dropWhile isTrimmed).reverse

/-- The name and the value in a `Set-Cookie` header. -/
def cookiePair (value : Bytes) : Option (Bytes × Bytes) :=
  let pair := value.takeWhile (· != chr ';')
  (pair.findIdx? (· == chr '=')).bind fun equals =>
    let name := httpTrim (pair.take equals)
    if name = [] then none else some (name, httpTrim (pair.drop (equals + 1)))

/-- The cookie with the name gets the value, or there is a new one. -/
def storeCookie (host : Bytes) (jar : List HttpCookie) (pair : Bytes × Bytes) : List HttpCookie :=
  if jar.any fun cookie => cookie.host == host && cookie.name == pair.1 then
    jar.map fun cookie =>
      if cookie.host = host ∧ cookie.name = pair.1 then { cookie with value := pair.2 } else cookie
  else jar ++ [{ host := host, name := pair.1, value := pair.2 }]

/-- `http_store_cookies`. -/
def httpStoreCookies (host : Bytes) (jar : List HttpCookie) (response : HttpResponseData) :
    List HttpCookie :=
  response.headers.foldl (fun jar header =>
    if header.name.map toLower = lit "set-cookie" then
      match cookiePair header.value with
      | some pair => storeCookie host jar pair
      | none => jar
    else jar) jar

/-- `http_cookie_header`. -/
def httpCookieHeader (host : Bytes) (jar : List HttpCookie) : Bytes :=
  (jar.filter (·.host == host)).foldl (fun result cookie =>
    (if result = [] then result else result ++ lit "; ") ++ cookie.name ++ chr '=' :: cookie.value) []

/-! ## One request -/

/-- What the network does in one request: whether TLS is built in, why no connection is made,
whether the request is sent, and what each `recv` gives, nothing for an error.  Once there are no
more results `recv` gives no bytes, as it does after the other side has closed. -/
structure Connection where
  tlsAvailable : Bool
  tlsError : Option Bytes
  connected : Bool
  sent : Bool
  received : List (Option Bytes)
  deriving DecidableEq, Repr

/-- The text that `request_once` sends. -/
def requestText (jar : List HttpCookie) (parsed : ParsedHttpUrl) (method : Bytes)
    (headers : List HttpHeader) (body : Bytes) : Bytes :=
  let cookieHeader := httpCookieHeader parsed.host jar
  method ++ lit " " ++ parsed.path ++ lit " HTTP/1.1\r\n" ++
    lit "Host: " ++ parsed.host ++ crlf ++
    lit "User-Agent: Aetheris/1.0\r\n" ++
    lit "Accept: */*\r\n" ++
    (if cookieHeader = [] then [] else lit "Cookie: " ++ cookieHeader ++ crlf) ++
    lit "Connection: close\r\n" ++
    headers.flatMap (fun header => header.name ++ lit ": " ++ header.value ++ crlf) ++
    (if body = [] then [] else lit "Content-Length: " ++ Js.natDecimal body.length ++ crlf) ++
    crlf ++ body

/-- `read_headers`: an error, or what has been read, and the results of `recv` that are left. -/
def readHeaders (received : List (Option Bytes)) (out : Bytes) :
    Except Bytes (Bytes × List (Option Bytes)) :=
  if (find out headerEnd).isSome then .ok (out, received)
  else
    match received with
    | [] => .ok (out, [])
    | none :: _ => .error (lit "Failed while reading response")
    | some bytes :: received =>
      if bytes = [] then .ok (out, received)
      else if 256 * 1024 < (out ++ bytes).length ∧ (find (out ++ bytes) headerEnd).isNone then
        .error (lit "Response headers too large")
      else readHeaders received (out ++ bytes)

/-- `read_until`. -/
def readUntil (wanted : ℕ) : List (Option Bytes) → Bytes → Bytes
  | some bytes :: received, out =>
    if out.length < wanted ∧ bytes ≠ [] then readUntil wanted received (out ++ bytes) else out
  | _, out => out

/-- `read_remaining`. -/
def readRemaining : List (Option Bytes) → Bytes → Bytes
  | some bytes :: received, out =>
    if bytes ≠ [] then readRemaining received (out ++ bytes) else out
  | _, out => out

/-- `parse_size`. -/
def parseSize (text : Bytes) : ℕ := (fromChars 10 (2 ^ 64) text).getD 0

/-- The status in the status line. -/
def statusOf (statusLine : Bytes) : ℤ :=
  match statusLine.findIdx? (· == chr ' ') with
  | some space => (fromCharsSigned (statusLine.drop (space + 1))).getD 0
  | none => 0

/-- The body, from what has been read behind the headers and what is left to be read. -/
def readBody (fuel : ℕ) (response : HttpResponseData) (received : List (Option Bytes))
    (remainder : Bytes) : Option Bytes :=
  if lowerEquals (response.header (lit "Transfer-Encoding")) (lit "chunked") then
    decodeChunked fuel (readRemaining received remainder)
  else
    let contentLength := response.header (lit "Content-Length")
    if contentLength ≠ [] then
      some ((readUntil (parseSize contentLength) received remainder).take (parseSize contentLength))
    else some (readRemaining received remainder)

/-- What `request_once` does once the request has been sent. -/
def readResponse (fuel : ℕ) (received : List (Option Bytes)) : Option HttpResponseData :=
  match readHeaders received [] with
  | .error error => some { error := error }
  | .ok (raw, received) =>
    match find raw headerEnd with
    | none => some { error := lit "Malformed response" }
    | some end_ =>
      let metadata := parseResponseHeaders (raw.take (end_ + 4))
      let response : HttpResponseData :=
        { status := statusOf metadata.1, statusLine := metadata.1, headers := metadata.2 }
      (readBody fuel response received (raw.drop (end_ + 4))).map fun body =>
        { response with body := body }

/-- Why the request is not sent. -/
def connectError (parsed : ParsedHttpUrl) (connection : Connection) : Option Bytes :=
  if !parsed.valid then some (lit "Invalid or unsupported URL")
  else if parsed.scheme = lit "https" then
    if !connection.tlsAvailable then some (lit "TLS support is not built in")
    else connection.tlsError
  else if !connection.connected then some (lit "Could not connect to " ++ parsed.host)
  else none

/-- A request, and the cookies there are. -/
structure RequestState where
  url : Bytes
  method : Bytes
  body : Bytes
  jar : List HttpCookie
  deriving DecidableEq, Repr

/-- The text that `request_once` sends, if it comes to that. -/
def sentText (connection : Connection) (headers : List HttpHeader) (s : RequestState) :
    Option Bytes :=
  match connectError (parseHttpUrl s.url) connection with
  | some _ => none
  | none => some (requestText s.jar (parseHttpUrl s.url) s.method headers s.body)

/-- `request_once`: the response and the cookies. -/
def requestOnce (fuel : ℕ) (connection : Connection) (s : RequestState) :
    Option (HttpResponseData × List HttpCookie) :=
  match connectError (parseHttpUrl s.url) connection with
  | some error => some ({ error := error }, s.jar)
  | none =>
    if !connection.sent then some ({ error := lit "Failed to send request" }, s.jar)
    else
      (readResponse fuel connection.received).map fun response =>
        -- the early returns of a response with an error leave the cookies alone
        if response.error = [] then
          (response, httpStoreCookies (parseHttpUrl s.url).host s.jar response)
        else (response, s.jar)

/-! ## Redirects -/

/-- The status of a redirect. -/
def isRedirect (status : ℤ) : Bool :=
  status == 301 || status == 302 || status == 303 || status == 307 || status == 308

/-- The next request of a chain of redirects, if there is one. -/
def redirect (s : RequestState) (response : HttpResponseData) (jar : List HttpCookie) :
    Option RequestState :=
  if response.error ≠ [] then none
  else if isRedirect response.status then
    let location := response.header (lit "Location")
    if location = [] then none
    else
      some {
        url := httpResolveUrl s.url location
        method := if response.status = 303 then lit "GET" else s.method
        body := if response.status = 303 then [] else s.body
        jar := jar }
  else none

/-- The loop of `request`, with what the network does in each hop. -/
def requestLoop (fuel : ℕ) :
    List Connection → RequestState → Option (HttpResponseData × List HttpCookie)
  | [], s => some ({ error := lit "Too many redirects" }, s.jar)
  | connection :: connections, s =>
    (requestOnce fuel connection s).bind fun answer =>
      match redirect s answer.1 answer.2 with
      | some next => requestLoop fuel connections next
      | none => some answer

/-- `request`, which follows up to five redirects. -/
def request (fuel : ℕ) (network : ℕ → Connection) (s : RequestState) :
    Option (HttpResponseData × List HttpCookie) :=
  requestLoop fuel ((List.range 6).map network) s

end Aetheris.Net
