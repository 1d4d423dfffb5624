import Aetheris.Net.Resolvers

/-!
# URLs as they are written

`parse_http_url` cuts a URL at the first `://`, the first `/` and the last `:`.  An authority ends
at a `?` or a `#` as well, may begin with user info, and may have colons in the brackets of an
address; the number behind the last colon is read as far as it goes and cut to 16 bits.

The parts that are written are named first, and the condition says that none of them has a byte at
which it would be cut differently.  Then port, host and authority are compared from the right.
-/

namespace Aetheris.Net

/-! ## The parts of a URL -/

/-- What is in front of the first `://`. -/
def schemeText (url : Bytes) : Bytes :=
  match find url (lit "://") with
  | some schemeEnd => url.take schemeEnd
  | none => []

/-- What is behind the first `://`. -/
def behindScheme (url : Bytes) : Bytes :=
  match find url (lit "://") with
  | some schemeEnd => url.drop (schemeEnd + 3)
  | none => []

/-- The bytes of an authority: it ends at a path, a query or a fragment. -/
def inAuthority (c : Byte) : Bool := c != chr '/' && c != chr '?' && c != chr '#'

/-- The authority at the start of what is behind the scheme. -/
def writtenAuthority (rest : Bytes) : Bytes := rest.takeWhile inAuthority

/-- The path and the query, without the fragment; a path that is left out is a slash. -/
def writtenTarget (rest : Bytes) : Bytes :=
  let target := (rest.dropWhile inAuthority).takeWhile (· != chr '#')
  if target.head? = some (chr '/') then target else chr '/' :: target

/-- An authority behind its user info. -/
def withoutUserInfo (authority : Bytes) : Bytes :=
  match rfind authority (chr '@') with
  | some userEnd => authority.drop (userEnd + 1)
  | none => authority

/-- The host and the text of the port.  A colon in the brackets of an address is part of the host. -/
def writtenHostPort (text : Bytes) : Bytes × Bytes :=
  match rfind text (chr ':') with
  | some colon =>
    if chr ']' ∈ text.drop (colon + 1) then (text, []) else (text.take colon, text.drop (colon + 1))
  | none => (text, [])

/-- The text of a decimal number that is a port. -/
def IsPort (text : Bytes) : Prop :=
  text ≠ [] ∧ (∀ c ∈ text, isDigit c = true) ∧ numberOf 10 (leadingDigits 10 text) < 2 ^ 16

/-- The port is the number that is written, or that of the scheme if none is. -/
def PortWritten (scheme text : Bytes) (port : ℕ) : Prop :=
  (text = [] ∧ port = defaultPort scheme) ∨
    (IsPort text ∧ port = numberOf 10 (leadingDigits 10 text))

/-- **What a valid result is to be**: the parts of the URL. -/
structure CutAsWritten (rest : Bytes) (parsed : ParsedHttpUrl) : Prop where
  scheme : parsed.scheme = lit "http" ∨ parsed.scheme = lit "https"
  host_ne_nil : parsed.host ≠ []
  host : parsed.host = (writtenHostPort (withoutUserInfo (writtenAuthority rest))).1
  port : PortWritten parsed.scheme (writtenHostPort (withoutUserInfo (writtenAuthority rest))).2
    parsed.port
  path : parsed.path.head? = some (chr '/')
  target : writtenTarget rest <+: parsed.path

/-! ## The condition -/

/-- No user info, and no query or fragment instead of a path. -/
def Plain (text : Bytes) : Prop := chr '@' ∉ text ∧ ∀ c ∈ text, inAuthority c = true

/-- The text behind the last colon is a port, or nothing.  The last colon may also be in the user
info: then host and port are right by chance, if the user name is the host. -/
def ReadsPort (scheme host text : Bytes) : Prop :=
  (text.takeWhile inAuthority = [] ∨ IsPort (text.takeWhile inAuthority)) ∨
    (chr '@' :: host <:+ text.takeWhile inAuthority ∧ portOf scheme text = defaultPort scheme)

/-- No query is right behind the authority.  It is found in the path by chance, if it is repeated
behind a slash of the fragment. -/
def ReadsTarget (rest : Bytes) : Prop :=
  (rest.dropWhile inAuthority).head? = some (chr '?') →
    chr '/' :: (rest.dropWhile inAuthority).takeWhile (· != chr '#') <+: (splitAuthority rest).2

/-- No part has a byte at which it would be cut differently. -/
def ReadsPlainly (scheme rest : Bytes) : Prop :=
  match rfind (splitAuthority rest).1 (chr ':') with
  | none => Plain (splitAuthority rest).1
  | some colon =>
    (splitAuthority rest).1.take colon = [] ∨
      (Plain ((splitAuthority rest).1.take colon) ∧
        ReadsPort scheme ((splitAuthority rest).1.take colon)
          ((splitAuthority rest).1.drop (colon + 1)) ∧
        ReadsTarget rest)

/-! ## Ports -/

theorem digitValue_isSome_of_isDigit {c : Byte} (h : isDigit c = true) :
    (digitValue 10 c).isSome := by
  have hvalue : c.toNat - 0x30 < 10 := by
    rw [isDigit, Bool.and_eq_true, decide_eq_true_iff, decide_eq_true_iff] at h
    have hhigh : c.toNat ≤ 0x39 := UInt8.le_iff_toNat_le.mp h.2
    omega
  rw [digitValue, if_pos h, if_pos hvalue]
  exact Option.isSome_some

theorem portOf_of_isPort (scheme : Bytes) {text : Bytes} (h : IsPort text) :
    portOf scheme text = numberOf 10 (leadingDigits 10 text) := by
  obtain ⟨hne, hdigits, hlt⟩ := h
  have hread := fromChars_append hne (fun c hc => digitValue_isSome_of_isDigit (hdigits c hc))
    (fun c (hc : c ∈ ([] : Bytes).head?) => nomatch hc) (hlt.trans (by decide : 2 ^ 16 < 2 ^ 32))
  rw [List.append_nil] at hread
  rw [portOf, hread]
  exact Nat.mod_eq_of_lt hlt

/-- What is read behind a colon is what is written there. -/
theorem portWritten_portOf_iff (scheme text : Bytes) :
    PortWritten scheme text (portOf scheme text) ↔ text = [] ∨ IsPort text := by
  refine or_congr ⟨fun h => h.1, fun h => ⟨h, ?_⟩⟩ ⟨fun h => h.1, fun h => ⟨h, ?_⟩⟩
  · rw [h]
    rfl
  · exact portOf_of_isPort scheme h

/-! ## Hosts -/

theorem withoutUserInfo_of_not_mem {authority : Bytes} (h : chr '@' ∉ authority) :
    withoutUserInfo authority = authority := by
  rw [withoutUserInfo, rfind_eq_none_iff.mpr h]

theorem withoutUserInfo_append (user : Bytes) {host : Bytes} (h : chr '@' ∉ host) :
    withoutUserInfo (user ++ chr '@' :: host) = host := by
  rw [withoutUserInfo, rfind_eq_some_iff.mpr ⟨user, host, rfl, rfl, h⟩]
  dsimp only
  rw [← List.drop_drop, List.drop_left, List.drop_one, List.tail_cons]

/-- An authority without user info, or with it. -/
theorem user_cases (authority : Bytes) :
    chr '@' ∉ authority ∨ ∃ user host, authority = user ++ chr '@' :: host ∧ chr '@' ∉ host := by
  cases h : rfind authority (chr '@') with
  | none => exact Or.inl (rfind_eq_none_iff.mp h)
  | some userEnd =>
    obtain ⟨user, host, heq, -, hhost⟩ := rfind_eq_some_iff.mp h
    exact Or.inr ⟨user, host, heq, hhost⟩

theorem withoutUserInfo_subset (authority : Bytes) : withoutUserInfo authority ⊆ authority := by
  rcases user_cases authority with h | ⟨user, host, rfl, hhost⟩
  · rw [withoutUserInfo_of_not_mem h]
    exact List.Subset.refl _
  · rw [withoutUserInfo_append user hhost]
    exact fun c hc => List.mem_append_right _ (List.mem_cons_of_mem _ hc)

theorem at_not_mem_withoutUserInfo (authority : Bytes) : chr '@' ∉ withoutUserInfo authority := by
  rcases user_cases authority with h | ⟨user, host, rfl, hhost⟩
  · rwa [withoutUserInfo_of_not_mem h]
  · rwa [withoutUserInfo_append user hhost]

theorem writtenHostPort_of_not_mem {text : Bytes} (h : chr ':' ∉ text) :
    writtenHostPort text = (text, []) := by
  rw [writtenHostPort, rfind_eq_none_iff.mpr h]

theorem writtenHostPort_append (host : Bytes) {port : Bytes} (h : chr ':' ∉ port) :
    writtenHostPort (host ++ chr ':' :: port) =
      if chr ']' ∈ port then (host ++ chr ':' :: port, []) else (host, port) := by
  have hdrop : (host ++ chr ':' :: port).drop (host.length + 1) = port := by
    rw [← List.drop_drop, List.drop_left, List.drop_one, List.tail_cons]
  rw [writtenHostPort, rfind_eq_some_iff.mpr ⟨host, port, rfl, rfl, h⟩]
  dsimp only
  rw [List.take_left, hdrop]

theorem writtenHostPort_fst_subset (text : Bytes) : (writtenHostPort text).1 ⊆ text := by
  rcases colon_cases text with h | ⟨host, port, rfl, hport⟩
  · rw [writtenHostPort_of_not_mem h]
    exact List.Subset.refl _
  · rw [writtenHostPort_append host hport]
    split
    · exact List.Subset.refl _
    · exact List.subset_append_left _ _

/-- The host of a URL has none of the bytes that end a part in front of it or behind it. -/
theorem plain_writtenHost (rest : Bytes) :
    Plain (writtenHostPort (withoutUserInfo (writtenAuthority rest))).1 := by
  have hsubset := writtenHostPort_fst_subset (withoutUserInfo (writtenAuthority rest))
  refine ⟨fun h => at_not_mem_withoutUserInfo _ (hsubset h), fun c hc => ?_⟩
  exact List.mem_takeWhile_imp (p := inAuthority) (withoutUserInfo_subset _ (hsubset hc))

/-! ## Where the authority ends -/

/-- The client looks for a slash only. -/
theorem writtenAuthority_eq (rest : Bytes) :
    writtenAuthority rest = (splitAuthority rest).1.takeWhile inAuthority := by
  rcases slash_cases rest with h | ⟨front, back, rfl, hfront⟩
  · rw [splitAuthority_of_not_mem h]
    rfl
  · rw [splitAuthority_append hfront rfl, writtenAuthority, List.takeWhile_append,
      List.takeWhile_cons_of_neg (by decide), List.append_nil]
    split
    next hlength => exact ((List.takeWhile_prefix _).eq_of_length hlength).symm
    next => rfl

/-- Not a digit. -/
theorem digitValue_of_not_inAuthority (c : Byte) (h : ¬ inAuthority c = true) :
    digitValue 10 c = none := by
  rw [inAuthority, Bool.and_eq_true, Bool.and_eq_true, bne_iff_ne, bne_iff_ne, bne_iff_ne,
    not_and_or, not_and_or, not_not, not_not, not_not] at h
  rcases h with (h | h) | h
  all_goals rw [h]; decide

/-- A query that is right behind the authority is the one that is not found in the path. -/
theorem writtenTarget_isPrefix_iff (rest : Bytes) :
    writtenTarget rest <+: (splitAuthority rest).2 ↔ ReadsTarget rest := by
  have hslash : [chr '/'] <+: (splitAuthority rest).2 := by
    have hhead := head?_splitAuthority rest
    cases hpath : (splitAuthority rest).2 with
    | nil =>
      rw [hpath] at hhead
      cases hhead
    | cons c path =>
      rw [hpath] at hhead
      rw [Option.some.inj hhead]
      exact List.prefix_append [chr '/'] path
  cases htail : rest.dropWhile inAuthority with
  | nil =>
    refine iff_of_true ?_ fun h => ?_
    · rw [writtenTarget, htail]
      exact hslash
    · rw [htail] at h
      cases h
  | cons c tail =>
    have hend : ¬ inAuthority c = true := by
      have hhead := List.head?_dropWhile_not inAuthority rest
      rw [htail] at hhead
      exact Bool.not_eq_true _ ▸ hhead
    rw [inAuthority, Bool.and_eq_true, Bool.and_eq_true, bne_iff_ne, bne_iff_ne, bne_iff_ne,
      not_and_or, not_and_or, not_not, not_not, not_not] at hend
    rcases hend with (rfl | rfl) | rfl
    · -- a path
      refine iff_of_true ?_ fun h => ?_
      · have hrest : rest = writtenAuthority rest ++ chr '/' :: tail := by
          rw [← htail]
          exact (List.takeWhile_append_dropWhile).symm
        have hfree : chr '/' ∉ writtenAuthority rest := fun h =>
          absurd (List.mem_takeWhile_imp (p := inAuthority) h) (by decide)
        have hpath : (splitAuthority rest).2 = chr '/' :: tail := by
          rw [hrest, splitAuthority_append hfree rfl]
        rw [writtenTarget, htail, hpath, List.takeWhile_cons_of_pos (by decide),
          List.head?_cons, if_pos rfl, List.cons_prefix_cons]
        exact ⟨rfl, List.takeWhile_prefix _⟩
      · rw [htail] at h
        exact absurd (Option.some.inj h) (by decide)
    · -- a query
      rw [ReadsTarget, htail, forall_prop_of_true List.head?_cons, writtenTarget, htail,
        List.takeWhile_cons_of_pos (by decide), List.head?_cons, if_neg (by decide)]
    · -- a fragment
      refine iff_of_true ?_ fun h => ?_
      · rw [writtenTarget, htail, List.takeWhile_cons_of_neg (by decide)]
        exact hslash
      · rw [htail] at h
        exact absurd (Option.some.inj h) (by decide)

/-! ## What the client finds -/

theorem not_isPort_of_mem {text : Bytes} {c : Byte} (hmem : c ∈ text) (hc : isDigit c = false) :
    ¬ IsPort text := fun h => absurd (h.2.1 c hmem) (Bool.eq_false_iff.mp hc)

/-- **Behind the last colon**: host and port are those that are written. -/
theorem readsPort_iff (scheme : Bytes) {host text : Bytes} (hplain : Plain host)
    (htext : chr ':' ∉ text) {authority : Bytes}
    (hauthority : authority = host ++ chr ':' :: text.takeWhile inAuthority) :
    (host = (writtenHostPort (withoutUserInfo authority)).1 ∧
        PortWritten scheme (writtenHostPort (withoutUserInfo authority)).2 (portOf scheme text)) ↔
      ReadsPort scheme host text := by
  have hport : portOf scheme text = portOf scheme (text.takeWhile inAuthority) :=
    (portOf_takeWhile_of digitValue_of_not_inAuthority scheme text).symm
  have hcolon : chr ':' ∉ text.takeWhile inAuthority := fun h =>
    htext ((List.takeWhile_prefix _).subset h)
  rw [ReadsPort, hport, hauthority]
  generalize text.takeWhile inAuthority = port at hcolon ⊢
  rcases user_cases port with hat | ⟨user, behind, rfl, hbehind⟩
  · -- no user info
    have hnone : ¬ (chr '@' :: host <:+ port ∧ portOf scheme port = defaultPort scheme) := fun h =>
      hat (h.1.subset List.mem_cons_self)
    have hfree : chr '@' ∉ host ++ chr ':' :: port := by
      rw [List.mem_append, List.mem_cons, not_or, not_or]
      exact ⟨hplain.1, by decide, hat⟩
    rw [or_iff_left hnone, withoutUserInfo_of_not_mem hfree, writtenHostPort_append host hcolon]
    split
    next hbracket =>
      -- the colon is one of an address
      refine iff_of_false (fun h => ?_) ?_
      · have hlength : host.length = (host ++ chr ':' :: port).length := congrArg List.length h.1
        rw [List.length_append, List.length_cons] at hlength
        omega
      · rintro (h | h)
        · rw [h] at hbracket
          cases hbracket
        · exact not_isPort_of_mem hbracket (by decide) h
    next hbracket =>
      rw [and_iff_right rfl]
      exact portWritten_portOf_iff scheme port
  · -- the colon is in the user info
    have hno : ¬ (user ++ chr '@' :: behind = [] ∨ IsPort (user ++ chr '@' :: behind)) := by
      have hmem : chr '@' ∈ user ++ chr '@' :: behind :=
        List.mem_append_right _ List.mem_cons_self
      rintro (h | h)
      · rw [h] at hmem
        cases hmem
      · exact not_isPort_of_mem hmem (by decide) h
    have hsplit : host ++ chr ':' :: (user ++ chr '@' :: behind) =
        (host ++ chr ':' :: user) ++ chr '@' :: behind := by
      rw [List.append_assoc, List.cons_append]
    have hcolon' : chr ':' ∉ behind := fun h =>
      hcolon (List.mem_append_right _ (List.mem_cons_of_mem _ h))
    have hwritten : PortWritten scheme [] (portOf scheme (user ++ chr '@' :: behind)) ↔
        portOf scheme (user ++ chr '@' :: behind) = defaultPort scheme := by
      rw [PortWritten, and_iff_right rfl]
      exact or_iff_left fun h => h.1.1 rfl
    have hsuffix : host = behind ↔ chr '@' :: host <:+ user ++ chr '@' :: behind := by
      refine ⟨fun h => h ▸ List.suffix_append _ _, ?_⟩
      rintro ⟨front, h⟩
      exact (append_cons_inj hplain.1 hbehind h).2
    rw [or_iff_right hno, hsplit, withoutUserInfo_append _ hbehind,
      writtenHostPort_of_not_mem hcolon']
    exact and_congr hsuffix hwritten

/-- Without a colon the host is the whole authority. -/
theorem plain_iff {authority : Bytes} (scheme : Bytes) (hcolon : chr ':' ∉ authority)
    {rest : Bytes} (hrest : (splitAuthority rest).1 = authority) :
    (authority = (writtenHostPort (withoutUserInfo (writtenAuthority rest))).1 ∧
      PortWritten scheme (writtenHostPort (withoutUserInfo (writtenAuthority rest))).2
        (defaultPort scheme)) ↔ Plain authority := by
  constructor
  · intro h
    rw [h.1]
    exact plain_writtenHost rest
  · intro hplain
    have hwhole : writtenAuthority rest = authority := by
      rw [writtenAuthority_eq, hrest]
      exact List.takeWhile_eq_self_iff.mpr hplain.2
    rw [hwhole, withoutUserInfo_of_not_mem hplain.1, writtenHostPort_of_not_mem hcolon]
    exact ⟨rfl, Or.inl ⟨rfl, rfl⟩⟩

/-- A query instead of a path is part of what the client takes for the authority. -/
theorem readsTarget_of_plain {rest : Bytes} (h : Plain (splitAuthority rest).1) :
    ReadsTarget rest := by
  intro hhead
  obtain ⟨query, hquery⟩ : ∃ query, rest.dropWhile inAuthority = chr '?' :: query := by
    cases htail : rest.dropWhile inAuthority with
    | nil =>
      rw [htail] at hhead
      cases hhead
    | cons c query =>
      rw [htail] at hhead
      exact ⟨query, by rw [Option.some.inj hhead]⟩
  have hrest : rest = (writtenAuthority rest ++ [chr '?']) ++ query := by
    rw [List.append_assoc, List.singleton_append, ← hquery]
    exact (List.takeWhile_append_dropWhile).symm
  have hfree : chr '/' ∉ writtenAuthority rest ++ [chr '?'] := by
    rw [List.mem_append, List.mem_singleton, not_or]
    exact ⟨fun h => absurd (List.mem_takeWhile_imp (p := inAuthority) h) (by decide), by decide⟩
  have hmem : chr '?' ∈ (splitAuthority rest).1 := by
    rw [hrest, splitAuthority_append_left hfree]
    exact List.mem_append_left _ (List.mem_append_right _ (List.mem_singleton.mpr rfl))
  exact absurd (h.2 _ hmem) (by decide)

/-- A scheme of the client, and what is behind it. -/
theorem eq_parts {url : Bytes} (h : IsHttp (schemeText url)) :
    url = schemeText url ++ (lit "://" ++ behindScheme url) := by
  rw [schemeText, behindScheme]
  rw [schemeText] at h
  cases hfind : find url (lit "://") with
  | none =>
    rw [hfind] at h
    dsimp only at h
    rcases h with h | h
    · exact absurd h (by decide)
    · exact absurd h (by decide)
  | some schemeEnd =>
    obtain ⟨-, hneedle⟩ := find_add_length_le hfind
    have hback := List.take_append_drop (lit "://").length (url.drop schemeEnd)
    rw [hneedle, List.drop_drop] at hback
    exact (List.take_append_drop schemeEnd url).symm.trans (congrArg _ hback.symm)

theorem isHttp_of_valid {url : Bytes} (h : (parseHttpUrl url).valid = true) :
    IsHttp (schemeText url) := by
  obtain ⟨scheme, body, fragment, hscheme, -, -, rfl⟩ := exists_parts_of_valid h
  rw [schemeText, List.append_assoc, List.append_assoc,
    find_scheme (hscheme.not_mem (by decide))]
  dsimp only
  rwa [List.take_left]

/-- What is behind the scheme is cut as it is written. -/
theorem cutAsWritten_parts_iff {scheme : Bytes} (hscheme : IsHttp scheme) (rest : Bytes) :
    ((parseHttpUrl (scheme ++ (lit "://" ++ rest))).valid = true →
        CutAsWritten rest (parseHttpUrl (scheme ++ (lit "://" ++ rest)))) ↔
      ReadsPlainly (scheme.map toLower) rest := by
  rw [parseHttpUrl_of_parts hscheme]
  generalize hauthority : (splitAuthority rest).1 = authority
  -- what the client finds in any URL is settled, and what the path has is settled by its own lemma
  have hcut (host : Bytes) (port : ℕ) :
      ((!host.isEmpty) = true → CutAsWritten rest
          ⟨scheme.map toLower, host, (splitAuthority rest).2, port, !host.isEmpty⟩) ↔
        host = [] ∨ (host = (writtenHostPort (withoutUserInfo (writtenAuthority rest))).1 ∧
          PortWritten (scheme.map toLower)
            (writtenHostPort (withoutUserInfo (writtenAuthority rest))).2 port) ∧
          ReadsTarget rest := by
    rw [Bool.not_eq_true', List.isEmpty_eq_false_iff, ← writtenTarget_isPrefix_iff, ne_eq,
      ← or_iff_not_imp_left]
    by_cases hhost : host = []
    · exact iff_of_true (Or.inl hhost) (Or.inl hhost)
    · refine or_congr_right ⟨fun h => ⟨⟨h.host, h.port⟩, h.target⟩, fun h => ?_⟩
      exact ⟨hscheme, hhost, h.1.1, h.1.2, head?_splitAuthority rest, h.2⟩
  rw [hcut]
  rcases colon_cases authority with hcolon | ⟨host, port, rfl, hport⟩
  · rw [hostPort_of_not_mem hcolon, plain_iff (scheme.map toLower) hcolon hauthority, ReadsPlainly,
      hauthority, rfind_eq_none_iff.mpr hcolon]
    dsimp only
    constructor
    · rintro (h | h)
      · rw [h]
        exact ⟨List.not_mem_nil, fun c hc => nomatch hc⟩
      · exact h.1
    · intro h
      refine Or.inr ⟨h, readsTarget_of_plain ?_⟩
      rwa [hauthority]
  · have hdrop : (host ++ chr ':' :: port).drop (host.length + 1) = port := by
      rw [← List.drop_drop, List.drop_left, List.drop_one, List.tail_cons]
    rw [hostPort_append _ _ hport, ReadsPlainly, hauthority,
      rfind_eq_some_iff.mpr ⟨host, port, rfl, rfl, hport⟩]
    dsimp only
    rw [List.take_left, hdrop]
    refine or_congr_right ?_
    rw [← and_assoc]
    refine and_congr_left fun _ => ?_
    by_cases hplain : Plain host
    · rw [and_iff_right hplain]
      refine readsPort_iff _ hplain hport ?_
      rw [writtenAuthority_eq, hauthority, List.takeWhile_append_of_pos hplain.2,
        List.takeWhile_cons_of_pos (by decide)]
    · refine iff_of_false (fun h => hplain ?_) fun h => hplain h.1
      rw [h.1]
      exact plain_writtenHost rest

/-- **When a URL is cut as it is written**: exactly if it has none of the parts that the client does
not look for, and the number behind the last colon is a port. -/
theorem cutAsWritten_iff (url : Bytes) :
    ((parseHttpUrl url).valid = true → CutAsWritten (behindScheme url) (parseHttpUrl url)) ↔
      (IsHttp (schemeText url) →
        ReadsPlainly ((schemeText url).map toLower) (behindScheme url)) := by
  by_cases hhttp : IsHttp (schemeText url)
  · rw [forall_prop_of_true hhttp, ← cutAsWritten_parts_iff hhttp, ← eq_parts hhttp]
  · exact iff_of_true (fun h => absurd (isHttp_of_valid h) hhttp) fun h => absurd h hhttp

/-- A port that does not fit into 16 bits: the URL is valid, with another port. -/
theorem not_forall_cutAsWritten :
    ¬∀ url : Bytes, (parseHttpUrl url).valid = true →
      CutAsWritten (behindScheme url) (parseHttpUrl url) := by
  intro h
  have hcut := h (lit "http://h:65616/") (by decide +kernel)
  have hwritten : writtenHostPort (withoutUserInfo (writtenAuthority
      (behindScheme (lit "http://h:65616/")))) = (lit "h", lit "65616") := by decide +kernel
  have hlarge : numberOf 10 (leadingDigits 10 (lit "65616")) = 65616 := by decide
  rcases hwritten ▸ hcut.port with hnone | hnumber
  · exact absurd hnone.1 (by decide)
  · have hlt := hnumber.1.2.2
    rw [hlarge] at hlt
    exact absurd hlt (by decide)

end Aetheris.Net
