import Aetheris.Find
import Aetheris.FromChars
import Aetheris.Js.Value

/-!
# The URLs of the HTTP client

`http_client.hpp` has URL functions of its own, apart from `Url`: what it connects to and asks for
is taken apart by `parse_http_url` into scheme, host, port and path, and the target of a redirect is
found by `http_resolve_url`, from a `Location` and the URL of the request.
-/

namespace Aetheris.Net

/-! ## Authority and path -/

theorem findIdx?_of_not_mem {p : Byte → Bool} {front : Bytes} (hfront : ∀ c ∈ front, ¬ p c)
    {c : Byte} (hc : p c) (back : Bytes) :
    (front ++ c :: back).findIdx? p = some front.length := by
  have hnone : front.findIdx? p = none :=
    List.findIdx?_eq_none_iff.mpr fun d hd => Bool.eq_false_iff.mpr (hfront d hd)
  rw [List.findIdx?_append, hnone, List.findIdx?_cons, if_pos hc]
  exact congrArg some (Nat.zero_add _)

/-- The authority and the path in what is behind the scheme, for both classes of URLs. -/
def splitAuthority (text : Bytes) : Bytes × Bytes :=
  match text.findIdx? (· == chr '/') with
  | none => (text, lit "/")
  | some pathStart => (text.take pathStart, text.drop pathStart)

theorem splitAuthority_append {authority path : Bytes} (hauthority : chr '/' ∉ authority)
    (hpath : path.head? = some (chr '/')) : splitAuthority (authority ++ path) = (authority, path) := by
  cases path with
  | nil => cases hpath
  | cons c path =>
    have hc : (c == chr '/') = true := beq_iff_eq.mpr (Option.some.inj hpath)
    have hfree : ∀ d ∈ authority, ¬ (d == chr '/') = true := fun d hd h =>
      hauthority (beq_iff_eq.mp h ▸ hd)
    have hfind : (authority ++ c :: path).findIdx? (· == chr '/') = some authority.length :=
      findIdx?_of_not_mem hfree hc path
    rw [splitAuthority, hfind]
    dsimp only
    rw [List.take_left, List.drop_left]

theorem splitAuthority_of_not_mem {authority : Bytes} (hauthority : chr '/' ∉ authority) :
    splitAuthority authority = (authority, lit "/") := by
  have hnone : authority.findIdx? (· == chr '/') = none :=
    List.findIdx?_eq_none_iff.mpr fun d hd =>
      Bool.eq_false_iff.mpr fun h => hauthority (beq_iff_eq.mp h ▸ hd)
  rw [splitAuthority, hnone]

/-- A path is found in any case. -/
theorem head?_splitAuthority (text : Bytes) :
    (splitAuthority text).2.head? = some (chr '/') := by
  rw [splitAuthority]
  cases hfind : text.findIdx? (· == chr '/') with
  | none => rfl
  | some pathStart =>
    obtain ⟨hlt, hget, -⟩ := List.findIdx?_eq_some_iff_getElem.mp hfind
    dsimp only
    rw [List.drop_eq_getElem_cons hlt, List.head?_cons, beq_iff_eq.mp hget]

theorem splitAuthority_append_left {front : Bytes} (hfront : chr '/' ∉ front) (back : Bytes) :
    splitAuthority (front ++ back) =
      (front ++ (splitAuthority back).1, (splitAuthority back).2) := by
  have hnone : front.findIdx? (· == chr '/') = none :=
    List.findIdx?_eq_none_iff.mpr fun d hd =>
      Bool.eq_false_iff.mpr fun h => hfront (beq_iff_eq.mp h ▸ hd)
  rw [splitAuthority, splitAuthority, List.findIdx?_append, hnone]
  cases back.findIdx? (· == chr '/') with
  | none => rfl
  | some pathStart =>
    rw [Option.map_some, Option.none_or]
    dsimp only
    rw [Nat.add_comm, List.take_length_add_append, List.drop_length_add_append]

/-- A text without a slash, or its first slash. -/
theorem slash_cases (text : Bytes) : chr '/' ∉ text ∨
    ∃ front back, text = front ++ chr '/' :: back ∧ chr '/' ∉ front := by
  by_cases h : chr '/' ∈ text
  · exact Or.inr (List.eq_append_cons_of_mem h)
  · exact Or.inl h

theorem slash_not_mem_splitAuthority (text : Bytes) : chr '/' ∉ (splitAuthority text).1 := by
  rcases slash_cases text with h | ⟨front, back, rfl, hfront⟩
  · rwa [splitAuthority_of_not_mem h]
  · rwa [splitAuthority_append hfront rfl]

theorem length_splitAuthority_le (text : Bytes) :
    (splitAuthority text).2.length ≤ max 1 text.length := by
  rcases slash_cases text with h | ⟨front, back, rfl, hfront⟩
  · rw [splitAuthority_of_not_mem h]
    exact Nat.le_max_left _ _
  · rw [splitAuthority_append hfront rfl, List.length_append]
    exact (Nat.le_add_left _ _).trans (Nat.le_max_right _ _)

/-! ## The functions of the client -/

/-- `ParsedHttpUrl`. -/
structure ParsedHttpUrl where
  scheme : Bytes := []
  host : Bytes := []
  path : Bytes := []
  port : ℕ := 80
  valid : Bool := false
  deriving DecidableEq, Repr

/-- The port of a URL that names none. -/
def defaultPort (scheme : Bytes) : ℕ := if scheme = lit "https" then 443 else 80

/-- `parse_http_url`. -/
def parseHttpUrl (url : Bytes) : ParsedHttpUrl :=
  match find url (lit "://") with
  | none => {}
  | some schemeEnd =>
    let scheme := (url.take schemeEnd).map toLower
    if scheme ≠ lit "http" ∧ scheme ≠ lit "https" then { scheme := scheme }
    else
      let rest := url.drop (schemeEnd + 3)
      let authority := (splitAuthority rest).1
      let path := (splitAuthority rest).2
      match rfind authority (chr ':') with
      | some colon =>
        let host := authority.take colon
        -- the port is an `unsigned int` that is cut to 16 bits
        let port :=
          match fromChars 10 (2 ^ 32) (authority.drop (colon + 1)) with
          | some parsedPort => parsedPort % 2 ^ 16
          | none => defaultPort scheme
        { scheme := scheme, host := host, path := path, port := port, valid := !host.isEmpty }
      | none =>
        { scheme := scheme, host := authority, path := path, port := defaultPort scheme,
          valid := !authority.isEmpty }

/-- The scheme, the host and the port, as `http_resolve_url` writes them. -/
def ParsedHttpUrl.origin (parsed : ParsedHttpUrl) : Bytes :=
  parsed.scheme ++ lit "://" ++ parsed.host ++
    if (parsed.scheme = lit "http" ∧ parsed.port ≠ 80) ∨
        (parsed.scheme = lit "https" ∧ parsed.port ≠ 443) then
      chr ':' :: Js.natDecimal parsed.port
    else []

/-- `http_resolve_url`. -/
def httpResolveUrl (base location : Bytes) : Bytes :=
  if location.take 7 = lit "http://" ∨ location.take 8 = lit "https://" then location
  else
    let parsed := parseHttpUrl base
    if !parsed.valid then location
    else if location.head? = some (chr '/') then parsed.origin ++ location
    else
      let directory :=
        match rfind parsed.path (chr '/') with
        | none => lit "/"
        | some slash => parsed.path.take (slash + 1)
      parsed.origin ++ directory ++ location

end Aetheris.Net
