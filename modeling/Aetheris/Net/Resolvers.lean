import Aetheris.Js.Decimal
import Aetheris.Net.Reference

/-!
# The two resolvers

The engine resolves references twice: `Url::resolve` for the documents, and `http_resolve_url` for
the redirects of the HTTP client.  The two find other parts in a base: the client keeps the query
and the fragment in the path, takes the port out of the authority and writes it again, and knows
neither dot segments nor a reference that begins with an authority or a scheme.

Two targets are the same if the client finds equal parts in them.  So what the client finds is said
of a text that is put together from a scheme, an authority and a path, and then of both targets.
-/

namespace Aetheris.Net

open Segments

/-! ## Ports -/

/-- The port behind the last colon of an authority. -/
def portOf (scheme text : Bytes) : ℕ :=
  match fromChars 10 (2 ^ 32) text with
  | some port => port % 2 ^ 16
  | none => defaultPort scheme

theorem portOf_natDecimal (scheme : Bytes) {port : ℕ} (h : port < 2 ^ 16) :
    portOf scheme (Js.natDecimal port) = port := by
  rw [portOf, fromChars_natDecimal (h.trans (by decide))]
  exact Nat.mod_eq_of_lt h

theorem portOf_lt (scheme text : Bytes) : portOf scheme text < 2 ^ 16 := by
  rw [portOf]
  split
  · exact Nat.mod_lt _ (by decide)
  · rw [defaultPort]
    split <;> decide

/-- The digits are in front of the first byte that is none. -/
theorem leadingDigits_takeWhile {base : ℕ} {p : Byte → Bool}
    (hp : ∀ c, ¬ p c → digitValue base c = none) (text : Bytes) :
    leadingDigits base (text.takeWhile p) = leadingDigits base text := by
  induction text with
  | nil => rfl
  | cons c text ih =>
    by_cases hc : p c
    · rw [List.takeWhile_cons_of_pos hc, leadingDigits, leadingDigits, ih]
    · rw [List.takeWhile_cons_of_neg hc]
      exact (leadingDigits_eq_nil fun d hd => Option.some.inj hd ▸ hp c hc).symm

theorem portOf_takeWhile_of {p : Byte → Bool} (hp : ∀ c, ¬ p c → digitValue 10 c = none)
    (scheme text : Bytes) : portOf scheme (text.takeWhile p) = portOf scheme text := by
  rw [portOf, portOf, fromChars, fromChars, leadingDigits_takeWhile hp]

/-- What is behind a `#` is not read. -/
theorem portOf_takeWhile (scheme text : Bytes) :
    portOf scheme (text.takeWhile (· != chr '#')) = portOf scheme text := by
  refine portOf_takeWhile_of (fun c hc => ?_) scheme text
  rw [Bool.not_eq_true, bne_eq_false_iff_eq] at hc
  rw [hc]
  decide

/-! ## Authorities -/

/-- The host and the port in an authority. -/
def hostPort (scheme authority : Bytes) : Bytes × ℕ :=
  match rfind authority (chr ':') with
  | some colon => (authority.take colon, portOf scheme (authority.drop (colon + 1)))
  | none => (authority, defaultPort scheme)

theorem hostPort_of_not_mem {scheme authority : Bytes} (h : chr ':' ∉ authority) :
    hostPort scheme authority = (authority, defaultPort scheme) := by
  rw [hostPort, rfind_eq_none_iff.mpr h]

theorem hostPort_append (scheme host : Bytes) {port : Bytes} (h : chr ':' ∉ port) :
    hostPort scheme (host ++ chr ':' :: port) = (host, portOf scheme port) := by
  have hdrop : (host ++ chr ':' :: port).drop (host.length + 1) = port := by
    rw [← List.drop_drop, List.drop_left, List.drop_one, List.tail_cons]
  rw [hostPort, rfind_eq_some_iff.mpr ⟨host, port, rfl, rfl, h⟩]
  dsimp only
  rw [List.take_left, hdrop]

/-- An authority without a colon, or its last colon. -/
theorem colon_cases (authority : Bytes) :
    chr ':' ∉ authority ∨ ∃ host port, authority = host ++ chr ':' :: port ∧ chr ':' ∉ port := by
  cases h : rfind authority (chr ':') with
  | none => exact Or.inl (rfind_eq_none_iff.mp h)
  | some colon =>
    obtain ⟨host, port, heq, -, hport⟩ := rfind_eq_some_iff.mp h
    exact Or.inr ⟨host, port, heq, hport⟩

theorem hostPort_fst_isPrefix (scheme authority : Bytes) :
    (hostPort scheme authority).1 <+: authority := by
  rcases colon_cases authority with h | ⟨host, port, rfl, hport⟩
  · rw [hostPort_of_not_mem h]
  · rw [hostPort_append scheme host hport]
    exact List.prefix_append _ _

theorem hostPort_fst_ne {authority : Bytes} (h : chr ':' ∈ authority) (scheme : Bytes) :
    (hostPort scheme authority).1 ≠ authority := by
  rcases colon_cases authority with hnot | ⟨host, port, rfl, hport⟩
  · exact absurd h hnot
  · rw [hostPort_append scheme host hport]
    intro heq
    have hlength : host.length = (host ++ chr ':' :: port).length := congrArg List.length heq
    rw [List.length_append, List.length_cons] at hlength
    omega

theorem hostPort_snd_lt (scheme authority : Bytes) : (hostPort scheme authority).2 < 2 ^ 16 := by
  rcases colon_cases authority with h | ⟨host, port, rfl, hport⟩
  · rw [hostPort_of_not_mem h]
    show defaultPort scheme < 2 ^ 16
    rw [defaultPort]
    split <;> decide
  · rw [hostPort_append scheme host hport]
    exact portOf_lt scheme port

theorem takeWhile_hash_of_not_mem {text : Bytes} (h : chr '#' ∉ text) :
    text.takeWhile (· != chr '#') = text :=
  List.takeWhile_eq_self_iff.mpr fun _ hc => bne_iff_ne.mpr fun heq => h (heq ▸ hc)

theorem hash_not_mem_takeWhile (text : Bytes) : chr '#' ∉ text.takeWhile (· != chr '#') :=
  fun h => absurd (List.mem_takeWhile_imp (p := (· != chr '#')) h) (by decide)

/-- In front of the first `#` the same host and port are found exactly if the host has none. -/
theorem hostPort_takeWhile_eq_iff (scheme authority : Bytes) :
    hostPort scheme (authority.takeWhile (· != chr '#')) = hostPort scheme authority ↔
      chr '#' ∉ (hostPort scheme authority).1 := by
  constructor
  · intro h hmem
    rw [← h] at hmem
    exact hash_not_mem_takeWhile authority ((hostPort_fst_isPrefix _ _).subset hmem)
  · intro h
    rcases colon_cases authority with hnot | ⟨host, port, rfl, hport⟩
    · rw [hostPort_of_not_mem hnot] at h
      rw [takeWhile_hash_of_not_mem h]
    · rw [hostPort_append scheme host hport] at h ⊢
      have hhost : ∀ c ∈ host, (c != chr '#') = true :=
        fun c hc => bne_iff_ne.mpr fun heq => h (heq ▸ hc)
      have hport' : chr ':' ∉ port.takeWhile (· != chr '#') :=
        fun hmem => hport ((List.takeWhile_prefix _).subset hmem)
      rw [List.takeWhile_append_of_pos hhost, List.takeWhile_cons_of_pos (by decide),
        hostPort_append scheme host hport', portOf_takeWhile]

/-- The authority that the client writes: the port only if it is another than that of the scheme. -/
def ParsedHttpUrl.written (parsed : ParsedHttpUrl) : Bytes :=
  parsed.host ++
    if parsed.port = defaultPort parsed.scheme then [] else chr ':' :: Js.natDecimal parsed.port

/-- **When the client connects to where `Url` says**: the host is taken from in front of the `#` of
a fragment, and a port is left out only behind a host without a colon. -/
def KeepsAuthority (parsed : ParsedHttpUrl) : Prop :=
  (¬ (parsed.port = defaultPort parsed.scheme ∧ chr ':' ∈ parsed.host) ∧ chr '#' ∉ parsed.host) ∨
    ((parsed.port = defaultPort parsed.scheme ∧ chr ':' ∈ parsed.host) ∧
      chr '#' ∈ parsed.host ∧ chr '#' ∉ (hostPort parsed.scheme parsed.host).1)

instance : DecidablePred KeepsAuthority := fun parsed => inferInstanceAs
  (Decidable ((¬ (parsed.port = defaultPort parsed.scheme ∧ chr ':' ∈ parsed.host) ∧
    chr '#' ∉ parsed.host) ∨ ((parsed.port = defaultPort parsed.scheme ∧ chr ':' ∈ parsed.host) ∧
      chr '#' ∈ parsed.host ∧ chr '#' ∉ (hostPort parsed.scheme parsed.host).1)))

theorem colon_not_mem_natDecimal (n : ℕ) : chr ':' ∉ Js.natDecimal n := fun h =>
  absurd (digitValue_isSome_natDecimal n _ h) (by decide)

/-- The authority that is written is read as it was, if no colon is left in the host alone. -/
theorem hostPort_written {parsed : ParsedHttpUrl} (hport : parsed.port < 2 ^ 16)
    (h : ¬ (parsed.port = defaultPort parsed.scheme ∧ chr ':' ∈ parsed.host)) :
    hostPort parsed.scheme parsed.written = (parsed.host, parsed.port) := by
  rw [ParsedHttpUrl.written]
  by_cases hdefault : parsed.port = defaultPort parsed.scheme
  · have hcolon : chr ':' ∉ parsed.host := fun hmem => h ⟨hdefault, hmem⟩
    rw [if_pos hdefault, List.append_nil, hostPort_of_not_mem hcolon, hdefault]
  · rw [if_neg hdefault, hostPort_append _ _ (colon_not_mem_natDecimal _),
      portOf_natDecimal _ hport]

theorem hostPort_written_eq_iff {parsed : ParsedHttpUrl} {authority : Bytes}
    (h : hostPort parsed.scheme authority = (parsed.host, parsed.port)) :
    hostPort parsed.scheme parsed.written =
        hostPort parsed.scheme (authority.takeWhile (· != chr '#')) ↔ KeepsAuthority parsed := by
  have hport : parsed.port < 2 ^ 16 := by
    have hlt := hostPort_snd_lt parsed.scheme authority
    rwa [h] at hlt
  have hcut := hostPort_takeWhile_eq_iff parsed.scheme authority
  rw [h] at hcut
  rw [KeepsAuthority]
  by_cases hlost : parsed.port = defaultPort parsed.scheme ∧ chr ':' ∈ parsed.host
  · rw [or_iff_right fun h => h.1 hlost, and_iff_right hlost, ParsedHttpUrl.written,
      if_pos hlost.1, List.append_nil]
    by_cases hhash : chr '#' ∈ parsed.host
    · -- in front of the `#` the authority and the host are the same
      obtain ⟨rest, hrest⟩ : parsed.host <+: authority := by
        have hpre := hostPort_fst_isPrefix parsed.scheme authority
        rwa [h] at hpre
      have htake : authority.takeWhile (· != chr '#') = parsed.host.takeWhile (· != chr '#') := by
        rw [← hrest, List.takeWhile_append, if_neg]
        intro hlength
        have heq := (List.takeWhile_prefix (l := parsed.host) (· != chr '#')).eq_of_length hlength
        exact hash_not_mem_takeWhile parsed.host (heq.symm ▸ hhash)
      rw [htake, eq_comm, hostPort_takeWhile_eq_iff]
      exact (and_iff_right hhash).symm
    · rw [hcut.mpr hhash]
      refine iff_of_false (fun heq => ?_) fun hand => hhash hand.1
      exact hostPort_fst_ne hlost.2 parsed.scheme (congrArg Prod.fst heq)
  · rw [or_iff_left fun h => hlost h.1, and_iff_right hlost, hostPort_written hport hlost, eq_comm]
    exact hcut

/-! ## What the client finds in a URL -/

/-- The two schemes of the client. -/
def IsHttp (scheme : Bytes) : Prop :=
  scheme.map toLower = lit "http" ∨ scheme.map toLower = lit "https"

theorem IsHttp.map_toLower {scheme : Bytes} (h : IsHttp scheme) : IsHttp (scheme.map toLower) := by
  rcases h with h | h
  · rw [h]
    exact Or.inl (by decide)
  · rw [h]
    exact Or.inr (by decide)

theorem IsHttp.map_map {scheme : Bytes} (h : IsHttp scheme) :
    (scheme.map toLower).map toLower = scheme.map toLower := by
  rcases h with h | h <;> rw [h] <;> decide

theorem IsHttp.not_mem {scheme : Bytes} (h : IsHttp scheme) {c : Byte} (hc : toLower c ∉ lit "https") :
    c ∉ scheme := by
  intro hmem
  have hlower : toLower c ∈ scheme.map toLower := List.mem_map_of_mem hmem
  rcases h with h | h
  · rw [h] at hlower
    exact hc ((by decide : lit "http" ⊆ lit "https") hlower)
  · rw [h] at hlower
    exact hc hlower

/-- **What the client finds behind one of its schemes.** -/
theorem parseHttpUrl_of_parts {scheme : Bytes} (hscheme : IsHttp scheme) (rest : Bytes) :
    parseHttpUrl (scheme ++ (lit "://" ++ rest)) = {
      scheme := scheme.map toLower
      host := (hostPort (scheme.map toLower) (splitAuthority rest).1).1
      path := (splitAuthority rest).2
      port := (hostPort (scheme.map toLower) (splitAuthority rest).1).2
      valid := !(hostPort (scheme.map toLower) (splitAuthority rest).1).1.isEmpty } := by
  have hdrop : (scheme ++ (lit "://" ++ rest)).drop (scheme.length + 3) = rest := by
    rw [← List.drop_drop, List.drop_left]
    exact List.drop_left' rfl
  have htest : ¬ (scheme.map toLower ≠ lit "http" ∧ scheme.map toLower ≠ lit "https") := by
    rintro ⟨hhttp, hhttps⟩
    exact hscheme.elim hhttp hhttps
  rw [parseHttpUrl, find_scheme (hscheme.not_mem (by decide))]
  dsimp only
  rw [List.take_left, if_neg htest, hdrop, hostPort]
  cases rfind (splitAuthority rest).1 (chr ':') with
  | none => rfl
  | some colon => rfl

/-- A URL that the client accepts, in its parts. -/
theorem exists_parts_of_valid {text : Bytes} (h : (parseHttpUrl text).valid = true) :
    ∃ scheme body fragment, IsHttp scheme ∧ chr '#' ∉ body ∧
      (∀ c ∈ fragment.head?, c = chr '#') ∧ text = scheme ++ (lit "://" ++ body) ++ fragment := by
  rw [parseHttpUrl] at h
  cases hfind : find text (lit "://") with
  | none =>
    rw [hfind] at h
    cases h
  | some schemeEnd =>
    rw [hfind] at h
    dsimp only at h
    split at h
    · cases h
    · rename_i hscheme
      obtain ⟨hle, hneedle⟩ := find_add_length_le hfind
      obtain ⟨rest, hrest⟩ : ∃ rest, text = text.take schemeEnd ++ (lit "://" ++ rest) := by
        refine ⟨(text.drop schemeEnd).drop (lit "://").length, ?_⟩
        have hback := List.take_append_drop (lit "://").length (text.drop schemeEnd)
        rw [hneedle] at hback
        rw [hback, List.take_append_drop]
      refine ⟨text.take schemeEnd, rest.takeWhile (· != chr '#'), rest.dropWhile (· != chr '#'), ?_,
        hash_not_mem_takeWhile rest, fun c hc => ?_, ?_⟩
      · by_contra hnot
        exact hscheme ⟨fun hhttp => hnot (Or.inl hhttp), fun hhttps => hnot (Or.inr hhttps)⟩
      · have hhead := List.head?_dropWhile_not (· != chr '#') rest
        rw [Option.mem_def.mp hc] at hhead
        exact bne_eq_false_iff_eq.mp hhead
      · rw [List.append_assoc, List.append_assoc, List.takeWhile_append_dropWhile]
        exact hrest

/-! ## Authorities and paths of one base -/

/-- The path of the client is no longer than the text. -/
theorem length_path_parseHttpUrl_le (text : Bytes) :
    (parseHttpUrl text).path.length ≤ max 1 text.length := by
  have hrest (n : ℕ) : (splitAuthority (text.drop n)).2.length ≤ max 1 text.length := by
    refine (length_splitAuthority_le _).trans (max_le_max le_rfl ?_)
    rw [List.length_drop]
    exact Nat.sub_le _ _
  rw [parseHttpUrl]
  cases find text (lit "://") with
  | none => exact Nat.zero_le _
  | some schemeEnd =>
    dsimp only
    split
    · exact Nat.zero_le _
    · split
      · exact hrest _
      · exact hrest _

/-- The authority that `Url` finds is that of the client in front of the fragment. -/
theorem takeWhile_splitAuthority {body fragment : Bytes} (hbody : chr '#' ∉ body)
    (hfragment : ∀ c ∈ fragment.head?, c = chr '#') :
    (splitAuthority (body ++ fragment)).1.takeWhile (· != chr '#') = (splitAuthority body).1 := by
  rcases slash_cases body with h | ⟨front, back, rfl, hfront⟩
  · have hcut : (splitAuthority fragment).1.takeWhile (· != chr '#') = [] := by
      cases fragment with
      | nil => rfl
      | cons c fragment =>
        have hfront : chr '/' ∉ [chr '#'] := by decide
        rw [hfragment c rfl, ← List.singleton_append, splitAuthority_append_left hfront]
        exact List.takeWhile_cons_of_neg (by decide)
    have hall : ∀ c ∈ body, (c != chr '#') = true :=
      fun c hc => bne_iff_ne.mpr fun heq => hbody (heq ▸ hc)
    rw [splitAuthority_append_left h, splitAuthority_of_not_mem h,
      List.takeWhile_append_of_pos hall, hcut, List.append_nil]
  · rw [List.append_assoc, splitAuthority_append hfront rfl, splitAuthority_append hfront rfl]
    exact takeWhile_hash_of_not_mem fun hmem => hbody (List.mem_append_left _ hmem)

/-- A path up to its last slash. -/
def directoryOf (path : Bytes) : Bytes :=
  match rfind path (chr '/') with
  | none => lit "/"
  | some slash => path.take (slash + 1)

theorem directoryOf_append (front : Bytes) {last : Bytes} (hlast : chr '/' ∉ last) :
    directoryOf (front ++ chr '/' :: last) = front ++ [chr '/'] := by
  rw [directoryOf, rfind_eq_some_iff.mpr ⟨front, last, rfl, rfl, hlast⟩]
  dsimp only
  rw [List.take_length_add_append, List.take_succ_cons, List.take_zero]

/-- A text without a slash, or its last slash. -/
theorem lastSlash_cases (text : Bytes) : chr '/' ∉ text ∨
    ∃ front last, text = front ++ chr '/' :: last ∧ chr '/' ∉ last := by
  cases h : rfind text (chr '/') with
  | none => exact Or.inl (rfind_eq_none_iff.mp h)
  | some slash =>
    obtain ⟨front, last, heq, -, hlast⟩ := rfind_eq_some_iff.mp h
    exact Or.inr ⟨front, last, heq, hlast⟩

theorem directoryOf_append_of_not_mem {path rest : Bytes} (hpath : chr '/' ∈ path)
    (hrest : chr '/' ∉ rest) : directoryOf (path ++ rest) = directoryOf path := by
  obtain ⟨front, last, rfl, hlast⟩ := (lastSlash_cases path).resolve_left fun h => h hpath
  have hboth : chr '/' ∉ last ++ rest := fun h => (List.mem_append.mp h).elim hlast hrest
  rw [List.append_assoc, List.cons_append, directoryOf_append front hboth,
    directoryOf_append front hlast]

theorem directoryOf_append_of_mem (path : Bytes) {rest : Bytes} (hrest : chr '/' ∈ rest) :
    directoryOf (path ++ rest) = path ++ directoryOf rest := by
  obtain ⟨front, last, rfl, hlast⟩ := (lastSlash_cases rest).resolve_left fun h => h hrest
  rw [← List.append_assoc, directoryOf_append _ hlast, directoryOf_append _ hlast,
    List.append_assoc]

theorem directoryOf_isPrefix {path : Bytes} (h : chr '/' ∈ path) : directoryOf path <+: path := by
  obtain ⟨front, last, rfl, hlast⟩ := (lastSlash_cases path).resolve_left fun hnot => hnot h
  rw [directoryOf_append front hlast]
  exact ⟨last, by rw [List.append_assoc, List.singleton_append]⟩

theorem getLast?_directoryOf (path : Bytes) : (directoryOf path).getLast? = some (chr '/') := by
  rcases lastSlash_cases path with h | ⟨front, last, rfl, hlast⟩
  · rw [directoryOf, rfind_eq_none_iff.mpr h]
    rfl
  · rw [directoryOf_append front hlast, List.getLast?_concat]

theorem directoryOf_eq_self_iff (path : Bytes) :
    directoryOf path = path ↔ path.getLast? = some (chr '/') := by
  constructor
  · intro h
    rw [← h]
    exact getLast?_directoryOf path
  · intro h
    obtain ⟨front, rfl⟩ := List.getLast?_eq_some_iff.mp h
    exact directoryOf_append front List.not_mem_nil

theorem head?_directoryOf {path : Bytes} (h : path.head? = some (chr '/')) :
    (directoryOf path).head? = some (chr '/') := by
  have hmem : chr '/' ∈ path := List.mem_of_mem_head? h
  obtain ⟨c, rest, hcons⟩ := List.exists_cons_of_ne_nil (l := directoryOf path) (by
    intro hnil
    have hlast := getLast?_directoryOf path
    rw [hnil] at hlast
    exact nomatch hlast)
  obtain ⟨back, hback⟩ := directoryOf_isPrefix hmem
  rw [← hback, hcons] at h
  rw [hcons]
  exact h

theorem directoryOf_append_eq_iff {path : Bytes} (hpath : chr '/' ∈ path) (rest : Bytes) :
    directoryOf (path ++ rest) = path ↔
      path.getLast? = some (chr '/') ∧ chr '/' ∉ rest := by
  by_cases hrest : chr '/' ∈ rest
  · refine iff_of_false (fun h => ?_) fun h => h.2 hrest
    rw [directoryOf_append_of_mem path hrest, List.append_right_eq_self] at h
    have hlast := getLast?_directoryOf rest
    rw [h] at hlast
    cases hlast
  · rw [directoryOf_append_of_not_mem hpath hrest, directoryOf_eq_self_iff, and_iff_left hrest]

theorem directoryOf_append_eq_directoryOf_iff {path : Bytes} (hpath : chr '/' ∈ path)
    (rest : Bytes) : directoryOf (path ++ rest) = directoryOf path ↔ chr '/' ∉ rest := by
  refine ⟨fun h hrest => ?_, directoryOf_append_of_not_mem hpath⟩
  rw [directoryOf_append_of_mem path hrest] at h
  have hlength := congrArg List.length h
  have hle := (directoryOf_isPrefix hpath).length_le
  have hlast := getLast?_directoryOf rest
  rw [List.length_append] at hlength
  have hnil : directoryOf rest = [] := List.eq_nil_of_length_eq_zero (by omega)
  rw [hnil] at hlast
  cases hlast

/-- The client's directory is the other one and more, if a fragment has slashes. -/
theorem directoryOf_splitAuthority (body fragment : Bytes) :
    directoryOf (splitAuthority body).2 <+: directoryOf (splitAuthority (body ++ fragment)).2 ∧
      (directoryOf (splitAuthority (body ++ fragment)).2 = directoryOf (splitAuthority body).2 ↔
        fragment.count (chr '/') ≤ if chr '/' ∈ body then 0 else 1) := by
  rcases slash_cases body with hbody | ⟨front, back, rfl, hfront⟩
  · rw [splitAuthority_append_left hbody, splitAuthority_of_not_mem hbody, if_neg hbody]
    show lit "/" <+: directoryOf (splitAuthority fragment).2 ∧
      (directoryOf (splitAuthority fragment).2 = lit "/" ↔ fragment.count (chr '/') ≤ 1)
    rcases slash_cases fragment with hfragment | ⟨front, back, rfl, hfront⟩
    · rw [splitAuthority_of_not_mem hfragment]
      refine ⟨List.prefix_refl _, iff_of_true rfl ?_⟩
      rw [List.count_eq_zero_of_not_mem hfragment]
      exact Nat.zero_le 1
    · have hhead : (directoryOf (chr '/' :: back)).head? = some (chr '/') := head?_directoryOf rfl
      have hroot : chr '/' ∈ lit "/" := by decide
      have hiff := directoryOf_append_eq_iff hroot back
      rw [splitAuthority_append hfront rfl]
      constructor
      · obtain ⟨rest, hrest⟩ := List.head?_eq_some_iff.mp hhead
        rw [hrest]
        exact ⟨rest, rfl⟩
      · rw [List.count_append, List.count_eq_zero_of_not_mem hfront, List.count_cons_self,
          Nat.zero_add, Nat.succ_le_succ_iff, Nat.le_zero, List.count_eq_zero]
        exact hiff.trans (and_iff_right rfl)
  · have hmem : chr '/' ∈ front ++ chr '/' :: back :=
      List.mem_append_right _ List.mem_cons_self
    rw [if_pos hmem, List.append_assoc, splitAuthority_append hfront rfl,
      splitAuthority_append hfront rfl, Nat.le_zero, List.count_eq_zero,
      directoryOf_append_eq_directoryOf_iff List.mem_cons_self]
    refine ⟨?_, Iff.rfl⟩
    by_cases hfragment : chr '/' ∈ fragment
    · rw [directoryOf_append_of_mem _ hfragment]
      exact (directoryOf_isPrefix List.mem_cons_self).trans (List.prefix_append _ _)
    · rw [directoryOf_append_of_not_mem List.mem_cons_self hfragment]

/-! ## The same target -/

/-- Equal parts for the client. -/
def SameTarget (a b : ParsedHttpUrl) : Prop :=
  a.scheme = b.scheme ∧ a.host = b.host ∧ a.port = b.port ∧ a.path = b.path

theorem ParsedHttpUrl.origin_eq {parsed : ParsedHttpUrl}
    (h : parsed.scheme = lit "http" ∨ parsed.scheme = lit "https") :
    parsed.origin = parsed.scheme ++ (lit "://" ++ parsed.written) := by
  have hport : ((parsed.scheme = lit "http" ∧ parsed.port ≠ 80) ∨
      (parsed.scheme = lit "https" ∧ parsed.port ≠ 443)) ↔
        ¬ parsed.port = defaultPort parsed.scheme := by
    rcases h with h | h
    · have hne : ¬ lit "http" = lit "https" := by decide
      rw [h, defaultPort, if_neg hne]
      simp [hne]
    · have hne : ¬ lit "https" = lit "http" := by decide
      rw [h, defaultPort, if_pos rfl]
      simp [hne]
  rw [ParsedHttpUrl.origin, ParsedHttpUrl.written, if_congr hport rfl rfl, ite_not,
    List.append_assoc, List.append_assoc]

section Parts

variable {scheme body fragment : Bytes} (hscheme : IsHttp scheme) (hbody : chr '#' ∉ body)
  (hfragment : ∀ c ∈ fragment.head?, c = chr '#')

theorem parseHttpUrl_text :
    parseHttpUrl (scheme ++ (lit "://" ++ body) ++ fragment) =
      parseHttpUrl (scheme ++ (lit "://" ++ (body ++ fragment))) := by
  rw [List.append_assoc, List.append_assoc]

include hscheme

theorem slash_not_mem_written {rest : Bytes} :
    chr '/' ∉ (parseHttpUrl (scheme ++ (lit "://" ++ rest))).written := by
  rw [parseHttpUrl_of_parts hscheme, ParsedHttpUrl.written, List.mem_append, not_or]
  refine ⟨fun h => slash_not_mem_splitAuthority rest ((hostPort_fst_isPrefix _ _).subset h), ?_⟩
  split
  · exact List.not_mem_nil
  · intro h
    rcases List.mem_cons.mp h with h | h
    · exact absurd h (by decide)
    · exact absurd (digitValue_isSome_natDecimal _ _ h) (by decide)

/-- What the client finds in a URL that it has written itself. -/
theorem parseHttpUrl_origin_append (rest : Bytes) {path : Bytes}
    (hpath : path.head? = some (chr '/')) :
    let parsed := parseHttpUrl (scheme ++ (lit "://" ++ rest))
    parseHttpUrl (parsed.origin ++ path) = {
      scheme := parsed.scheme
      host := (hostPort parsed.scheme parsed.written).1
      path := path
      port := (hostPort parsed.scheme parsed.written).2
      valid := !(hostPort parsed.scheme parsed.written).1.isEmpty } := by
  intro parsed
  have hlower : parsed.scheme = scheme.map toLower := by
    show (parseHttpUrl _).scheme = _
    rw [parseHttpUrl_of_parts hscheme]
  have hwritten : chr '/' ∉ parsed.written := slash_not_mem_written hscheme
  rw [ParsedHttpUrl.origin_eq (hlower ▸ hscheme), List.append_assoc, List.append_assoc, hlower,
    parseHttpUrl_of_parts hscheme.map_toLower, hscheme.map_map, splitAuthority_append hwritten hpath]

theorem path_origin_append {path : Bytes} (hpath : path.head? = some (chr '/')) :
    (parseHttpUrl
      ((parseHttpUrl (scheme ++ (lit "://" ++ body) ++ fragment)).origin ++ path)).path = path := by
  rw [parseHttpUrl_text, parseHttpUrl_origin_append hscheme _ hpath]

include hbody hfragment

/-- **The two targets behind one base**, each with a path of its own. -/
theorem sameTarget_append_iff {path path' : Bytes} (hpath : path.head? = some (chr '/'))
    (hpath' : path'.head? = some (chr '/')) :
    SameTarget
        (parseHttpUrl ((parseHttpUrl (scheme ++ (lit "://" ++ body) ++ fragment)).origin ++ path))
        (parseHttpUrl (scheme ++ (lit "://" ++ ((splitAuthority body).1 ++ path')))) ↔
      KeepsAuthority (parseHttpUrl (scheme ++ (lit "://" ++ body) ++ fragment)) ∧
        path = path' := by
  rw [parseHttpUrl_text, parseHttpUrl_origin_append hscheme _ hpath]
  have hparsed := parseHttpUrl_of_parts hscheme (body ++ fragment)
  have hread : hostPort (parseHttpUrl (scheme ++ (lit "://" ++ (body ++ fragment)))).scheme
      (splitAuthority (body ++ fragment)).1 =
        ((parseHttpUrl (scheme ++ (lit "://" ++ (body ++ fragment)))).host,
          (parseHttpUrl (scheme ++ (lit "://" ++ (body ++ fragment)))).port) := by rw [hparsed]
  have hkeeps := hostPort_written_eq_iff hread
  rw [takeWhile_splitAuthority hbody hfragment] at hkeeps
  have hlower : (parseHttpUrl (scheme ++ (lit "://" ++ (body ++ fragment)))).scheme =
      scheme.map toLower := by rw [hparsed]
  rw [parseHttpUrl_of_parts hscheme ((splitAuthority body).1 ++ path'),
    splitAuthority_append (slash_not_mem_splitAuthority body) hpath', SameTarget, ← hkeeps, hlower,
    Prod.ext_iff, eq_self_iff_true, true_and, and_assoc]

end Parts

/-- What is between the scheme and the fragment. -/
def Url.hierPart (base : Url) : Bytes :=
  (base.serialized.takeWhile (· != chr '#')).drop (base.scheme.length + 3)

/-- **When the two resolvers name the same target.**  A reference that begins with `http://` or
`https://` is the target for both of them.  In any other case the authority of the base has to
survive; then they agree on a reference that begins with one slash, on a fragment behind a base
that ends in a slash, and on a reference without a scheme where nothing is to be removed. -/
def Agree (text : Bytes) (base : Url) (reference : Bytes) : Prop :=
  (reference.take 7 = lit "http://" ∨ reference.take 8 = lit "https://") ∨
    KeepsAuthority (parseHttpUrl text) ∧
      ((reference.head? = some (chr '/') ∧ reference.take 2 ≠ lit "//") ∨
        (reference.head? = some (chr '#') ∧ base.hierPart.getLast? = some (chr '/') ∧
          chr '/' ∉ base.fragment) ∨
        (reference.head? ≠ some (chr '/') ∧ reference.head? ≠ some (chr '#') ∧
          ¬ hasScheme reference ∧
          base.fragment.count (chr '/') ≤ (if chr '/' ∈ base.hierPart then 0 else 1) ∧
          ∀ s ∈ (segmentsOf base.path).dropLast ++ (reference.splitOn (chr '/')).dropLast,
            s ≠ lit "." ∧ s ≠ lit ".."))

/-- The path of the client's target. -/
theorem httpResolveUrl_eq {text : Bytes} (hvalid : (parseHttpUrl text).valid = true)
    {reference : Bytes}
    (h : ¬ (reference.take 7 = lit "http://" ∨ reference.take 8 = lit "https://")) :
    httpResolveUrl text reference = (parseHttpUrl text).origin ++
      if reference.head? = some (chr '/') then reference
      else directoryOf (parseHttpUrl text).path ++ reference := by
  rw [httpResolveUrl, if_neg h]
  dsimp only
  rw [hvalid, Bool.not_true, if_neg Bool.false_ne_true]
  split
  · rfl
  · rw [List.append_assoc]
    rfl

/-- A path that is too short for the client's directory and the reference. -/
theorem ne_of_length_le {path reference target : Bytes} (hpath : path.head? = some (chr '/'))
    (hne : reference ≠ []) (htarget : target.length ≤ max 1 reference.length) :
    directoryOf path ++ reference ≠ target := by
  rintro rfl
  have hdirectory : 0 < (directoryOf path).length := by
    obtain ⟨rest, hrest⟩ := List.head?_eq_some_iff.mp (head?_directoryOf hpath)
    rw [hrest]
    exact Nat.succ_pos _
  have hreference := List.length_pos_iff.mpr hne
  rw [List.length_append] at htarget
  omega

/-- The loops remove nothing exactly if there is no dot segment. -/
theorem settle_eq_self_iff {segments : List Bytes} :
    settle [] segments = some segments ↔ ∀ s ∈ segments, s ≠ lit "." ∧ s ≠ lit ".." := by
  refine ⟨forall_of_settle fun s hs => absurd hs List.not_mem_nil, fun h => ?_⟩
  rw [settle_of_forall h, List.nil_append]

/-- **A relative reference**: the client's path is what the loops leave exactly if it has the same
directory in front and they remove nothing. -/
theorem append_eq_pathOf_settle_iff {directory directory' reference last : Bytes}
    {interior out : List Bytes} (hbegin : directory <+: directory')
    (hmerged : directory ++ reference = pathOf (interior ++ [last]))
    (hfree : SlashFree (interior ++ [last])) (hsettle : settle [] interior = some out) :
    directory' ++ reference = pathOf (out ++ [last]) ↔
      directory' = directory ∧ ∀ s ∈ interior, s ≠ lit "." ∧ s ≠ lit ".." := by
  have hsublist : (out ++ [last]).Sublist (interior ++ [last]) :=
    (sublist_of_settle hsettle).append_right _
  constructor
  · intro h
    have hshorter : (pathOf (out ++ [last])).length ≤ (pathOf (interior ++ [last])).length :=
      (hsublist.flatMap _).length_le
    rw [← h, ← hmerged, List.length_append, List.length_append] at hshorter
    have hsame : directory = directory' :=
      hbegin.eq_of_length (Nat.le_antisymm hbegin.length_le (by omega))
    rw [← hsame, hmerged] at h
    have hsegments := rooted_injective hfree (hfree.of_subset hsublist.subset) h
    rw [← List.append_cancel_right hsegments] at hsettle
    exact ⟨hsame.symm, settle_eq_self_iff.mp hsettle⟩
  · rintro ⟨hsame, hdots⟩
    rw [settle_eq_self_iff.mpr hdots] at hsettle
    rw [hsame, hmerged, Option.some.inj hsettle]

section Shapes

variable {scheme body fragment : Bytes} (hscheme : IsHttp scheme) (hbody : chr '#' ∉ body)
  (hfragment : ∀ c ∈ fragment.head?, c = chr '#')

include hscheme hbody hfragment

/-- What both classes find in the base. -/
theorem parse_text_of_parts :
    Url.parse (scheme ++ (lit "://" ++ body) ++ fragment) = some {
      serialized := scheme ++ (lit "://" ++ body) ++ fragment
      scheme := scheme
      authority := (splitAuthority body).1
      path := (splitAuthority body).2
      fragment := fragment.tail } ∧
    (scheme ++ (lit "://" ++ body) ++ fragment).takeWhile (· != chr '#') =
      scheme ++ (lit "://" ++ body) ∧
    (parseHttpUrl (scheme ++ (lit "://" ++ body) ++ fragment)).path =
      (splitAuthority (body ++ fragment)).2 := by
  have hhash : chr '#' ∉ scheme ++ (lit "://" ++ body) := by
    rw [List.mem_append, List.mem_append, not_or, not_or]
    exact ⟨hscheme.not_mem (by decide), by decide, hbody⟩
  refine ⟨parse_of_parts (hscheme.not_mem (by decide)) hhash hfragment, ?_, ?_⟩
  · have hall : ∀ c ∈ scheme ++ (lit "://" ++ body), (c != chr '#') = true :=
      fun c hc => bne_iff_ne.mpr fun heq => hhash (heq ▸ hc)
    rw [List.takeWhile_append_of_pos hall]
    cases fragment with
    | nil => rw [List.takeWhile_nil, List.append_nil]
    | cons c fragment =>
      rw [hfragment c rfl, List.takeWhile_cons_of_neg (by decide), List.append_nil]
  · rw [parseHttpUrl_text, parseHttpUrl_of_parts hscheme]

/-- A fragment is put behind the directory by the client, and behind the path by `Url`. -/
theorem sameTarget_hash_iff {reference : Bytes} (hhash : reference.head? = some (chr '#')) :
    let parsed := parseHttpUrl (scheme ++ (lit "://" ++ body) ++ fragment)
    SameTarget (parseHttpUrl (parsed.origin ++ (directoryOf parsed.path ++ reference)))
        (parseHttpUrl (scheme ++ (lit "://" ++ body) ++ reference)) ↔
      KeepsAuthority parsed ∧ body.getLast? = some (chr '/') ∧ chr '/' ∉ fragment := by
  intro parsed
  have hpath : parsed.path = (splitAuthority (body ++ fragment)).2 :=
    (parse_text_of_parts hscheme hbody hfragment).2.2
  have hhead : parsed.path.head? = some (chr '/') := hpath ▸ head?_splitAuthority _
  have hdirectory := head?_directoryOf hhead
  have hmerged : (directoryOf parsed.path ++ reference).head? = some (chr '/') := by
    rw [List.head?_append, hdirectory, Option.some_or]
  rcases slash_cases body with hslash | ⟨front, back, rfl, hfront⟩
  · -- behind the authority `Url` has no path for the fragment
    refine iff_of_false (fun h => ?_) fun h => hslash (List.mem_of_getLast? h.2.1)
    refine ne_of_length_le hhead (fun hnil => ?_) ?_
      ((path_origin_append hscheme hmerged).symm.trans h.2.2.2)
    · rw [hnil] at hhash
      cases hhash
    · rw [parseHttpUrl_text, parseHttpUrl_of_parts hscheme, splitAuthority_append_left hslash]
      exact length_splitAuthority_le reference
  · have hpath' : ((chr '/' :: back) ++ reference).head? = some (chr '/') := rfl
    have hiff := sameTarget_append_iff hscheme hbody hfragment hmerged hpath'
    rw [splitAuthority_append hfront rfl, ← List.append_assoc front] at hiff
    have hmem : chr '/' ∈ chr '/' :: back := List.mem_cons_self
    have hpath'' : parsed.path = (chr '/' :: back) ++ fragment := by
      rw [hpath, List.append_assoc, splitAuthority_append hfront rfl]
    rw [List.append_assoc scheme, List.append_assoc (lit "://"), hiff, List.append_left_inj, hpath'',
      directoryOf_append_eq_iff hmem, List.getLast?_append_cons]

/-- A path is put behind the authority by both. -/
theorem sameTarget_slash_iff {reference : Bytes} (hslash : reference.head? = some (chr '/')) :
    let parsed := parseHttpUrl (scheme ++ (lit "://" ++ body) ++ fragment)
    SameTarget (parseHttpUrl (parsed.origin ++ reference))
        (parseHttpUrl (scheme ++ (lit "://" ++ ((splitAuthority body).1 ++ reference)))) ↔
      KeepsAuthority parsed :=
  (sameTarget_append_iff hscheme hbody hfragment hslash hslash).trans (and_iff_left rfl)

/-- A relative reference is put behind the directory by both, and `Url` removes dot segments. -/
theorem sameTarget_relative_iff {reference last : Bytes} {interior out : List Bytes}
    (hsegments : (segmentsOf (splitAuthority body).2).dropLast ++ reference.splitOn (chr '/') =
      interior ++ [last]) (hsettle : settle [] interior = some out) :
    let parsed := parseHttpUrl (scheme ++ (lit "://" ++ body) ++ fragment)
    SameTarget (parseHttpUrl (parsed.origin ++ (directoryOf parsed.path ++ reference)))
        (parseHttpUrl
          (scheme ++ (lit "://" ++ ((splitAuthority body).1 ++ pathOf (out ++ [last]))))) ↔
      KeepsAuthority parsed ∧ fragment.count (chr '/') ≤ (if chr '/' ∈ body then 0 else 1) ∧
        ∀ s ∈ interior, s ≠ lit "." ∧ s ≠ lit ".." := by
  intro parsed
  obtain ⟨hparse, -, hpath⟩ := parse_text_of_parts hscheme hbody hfragment
  have hhead : parsed.path.head? = some (chr '/') := hpath ▸ head?_splitAuthority _
  have hmerged : (directoryOf parsed.path ++ reference).head? = some (chr '/') := by
    rw [List.head?_append, head?_directoryOf hhead, Option.some_or]
  have hleft : (pathOf (out ++ [last])).head? = some (chr '/') := by
    obtain ⟨s, rest, hcons⟩ := List.exists_cons_of_ne_nil (List.concat_ne_nil last out)
    rw [hcons]
    rfl
  have hdirectory : directoryOf (splitAuthority body).2 ++ reference = pathOf (interior ++ [last]) := by
    have hhead : ({ path := (splitAuthority body).2 } : Url).path.head? = some (chr '/') :=
      head?_splitAuthority body
    rw [← hsegments]
    exact directory_append hhead reference
  have hfree : SlashFree (interior ++ [last]) := by
    rw [← hsegments]
    refine SlashFree.append (fun s hs => ?_) fun s hs => not_mem_of_mem_splitOn hs
    exact slashFree_segmentsOf _ s (List.mem_of_mem_dropLast hs)
  obtain ⟨hbegin, hcount⟩ := directoryOf_splitAuthority body fragment
  rw [← hpath] at hbegin hcount
  rw [sameTarget_append_iff hscheme hbody hfragment hmerged hleft,
    append_eq_pathOf_settle_iff hbegin hdirectory hfree hsettle, hcount]

end Shapes

/-- A reference whose target has a path no longer than the reference: no directory is in front of
it. -/
theorem not_sameTarget_of_length_le {scheme body fragment : Bytes} (hscheme : IsHttp scheme)
    {reference text : Bytes} (hne : reference ≠ [])
    (hpath : (parseHttpUrl (scheme ++ (lit "://" ++ body) ++ fragment)).path.head? =
      some (chr '/'))
    (hlength : (parseHttpUrl text).path.length ≤ max 1 reference.length) :
    ¬ SameTarget (parseHttpUrl
      ((parseHttpUrl (scheme ++ (lit "://" ++ body) ++ fragment)).origin ++
        (directoryOf (parseHttpUrl (scheme ++ (lit "://" ++ body) ++ fragment)).path ++ reference)))
      (parseHttpUrl text) := by
  intro h
  have hmerged : (directoryOf (parseHttpUrl (scheme ++ (lit "://" ++ body) ++ fragment)).path ++
      reference).head? = some (chr '/') := by
    rw [List.head?_append, head?_directoryOf hpath, Option.some_or]
  exact ne_of_length_le hpath hne hlength ((path_origin_append hscheme hmerged).symm.trans h.2.2.2)

theorem count_slash_tail {fragment : Bytes} (hfragment : ∀ c ∈ fragment.head?, c = chr '#') :
    fragment.tail.count (chr '/') = fragment.count (chr '/') := by
  cases fragment with
  | nil => rfl
  | cons c fragment =>
    rw [hfragment c rfl, List.tail_cons, List.count_cons_of_ne (by decide)]

/-- `resolve` sees the two schemes of the client. -/
theorem hasScheme_of_take {reference : Bytes}
    (h : reference.take 7 = lit "http://" ∨ reference.take 8 = lit "https://") :
    hasScheme reference = true ∧ reference.head? ≠ some (chr '#') := by
  have hscheme (scheme : Bytes) (hne : scheme ≠ [])
      (hfree : ∀ c ∈ scheme, c ∉ lit ":/?#") (rest : Bytes) :
      hasScheme (scheme ++ (lit "://" ++ rest)) = true := by
    have hcolon : ∀ c ∈ scheme, ¬ (c == chr ':') = true := fun c hc heq =>
      hfree c hc (beq_iff_eq.mp heq ▸ by decide)
    have hdelimiter : ∀ c ∈ scheme ++ [chr ':'],
        ¬ (c == chr '/' || c == chr '?' || c == chr '#') = true := by
      intro c hc htest
      rcases List.mem_append.mp hc with hmem | hmem
      · rw [Bool.or_eq_true, Bool.or_eq_true, beq_iff_eq, beq_iff_eq, beq_iff_eq] at htest
        rcases htest with (rfl | rfl) | rfl <;> exact hfree _ hmem (by decide)
      · rw [List.mem_singleton.mp hmem] at htest
        exact absurd htest (by decide)
    have hfirst : (scheme ++ (lit "://" ++ rest)).findIdx? (· == chr ':') = some scheme.length :=
      findIdx?_of_not_mem hcolon (c := chr ':') (by decide) (lit "//" ++ rest)
    have hsecond : (scheme ++ (lit "://" ++ rest)).findIdx?
        (fun c => c == chr '/' || c == chr '?' || c == chr '#') = some (scheme.length + 1) := by
      have hfound := findIdx?_of_not_mem hdelimiter (c := chr '/') (by decide) (lit "/" ++ rest)
      rw [List.append_assoc, List.length_append] at hfound
      exact hfound
    rw [hasScheme, hfirst]
    dsimp only
    rw [hsecond, Bool.and_eq_true]
    exact ⟨decide_eq_true (List.length_pos_iff.mpr hne), decide_eq_true (Nat.lt_succ_self _)⟩
  rcases h with h | h
  · rw [← List.take_append_drop 7 reference, h]
    exact ⟨hscheme (lit "http") (by decide) (by decide) _, fun h => by cases h⟩
  · rw [← List.take_append_drop 8 reference, h]
    exact ⟨hscheme (lit "https") (by decide) (by decide) _, fun h => by cases h⟩

/-- A reference with an authority in front: `Url` takes it, the client does not. -/
theorem not_sameTarget_slashes {scheme body fragment : Bytes} (hscheme : IsHttp scheme)
    {rest : Bytes} :
    ¬ SameTarget (parseHttpUrl
      ((parseHttpUrl (scheme ++ (lit "://" ++ body) ++ fragment)).origin ++
        chr '/' :: chr '/' :: rest))
      (parseHttpUrl (scheme ++ (lit "://" ++ rest))) := by
  intro h
  have hreference : (chr '/' :: chr '/' :: rest).head? = some (chr '/') := rfl
  have hpath := (path_origin_append hscheme hreference).symm.trans h.2.2.2
  rw [parseHttpUrl_of_parts hscheme] at hpath
  dsimp only at hpath
  have hle := length_splitAuthority_le rest
  rw [← hpath, List.length_cons, List.length_cons] at hle
  omega

theorem eq_of_take_two {front : Byte} {rest : Bytes} (h : (front :: rest).take 2 = lit "//") :
    ∃ back, front :: rest = chr '/' :: chr '/' :: back := by
  refine ⟨(front :: rest).drop 2, ?_⟩
  have happend := List.take_append_drop 2 (front :: rest)
  rw [h] at happend
  exact happend.symm

theorem ne_slash_of_hasScheme {front : Byte} {rest : Bytes} (h : hasScheme (front :: rest) = true) :
    front ≠ chr '/' := by
  rintro rfl
  obtain ⟨scheme, back, heq, hne, hfree⟩ := hasScheme_of_test h
  obtain ⟨c, scheme, rfl⟩ := List.exists_cons_of_ne_nil hne
  rw [List.cons_append, List.cons.injEq] at heq
  exact hfree c List.mem_cons_self (heq.1 ▸ by decide)

/-- **The two resolvers name the same target exactly under the condition.** -/
theorem sameTarget_iff_agree {text : Bytes} (hvalid : (parseHttpUrl text).valid = true) {base : Url}
    (hbase : Url.parse text = some base) {reference : Bytes} (hne : reference ≠ []) {result : Url}
    (hresult : base.resolve reference = some result) :
    SameTarget (parseHttpUrl (httpResolveUrl text reference)) (parseHttpUrl result.serialized) ↔
      Agree text base reference := by
  obtain ⟨scheme, body, fragment, hscheme, hbody, hfragment, rfl⟩ := exists_parts_of_valid hvalid
  obtain ⟨hparse, hwithout, hpath⟩ := parse_text_of_parts hscheme hbody hfragment
  have hparts := Option.some.inj (hbase.symm.trans hparse)
  have hschemeNil : scheme ≠ [] := by
    rintro rfl
    rcases hscheme with h | h <;> exact absurd h (by decide)
  have habsolute : ¬ (!base.isAbsolute) = true := by
    rw [hparts, Url.isAbsolute, Bool.not_not, List.isEmpty_iff]
    exact hschemeNil
  have hpart : base.hierPart = body := by
    rw [hparts, Url.hierPart]
    dsimp only
    rw [hwithout, ← List.drop_drop, List.drop_left]
    exact List.drop_left' rfl
  have hcount : base.fragment.count (chr '/') = fragment.count (chr '/') := by
    rw [hparts]
    exact count_slash_tail hfragment
  have hfree : chr '/' ∈ base.fragment ↔ chr '/' ∈ fragment := by
    rw [← List.count_pos_iff, hcount, List.count_pos_iff]
  have hbasePath : base.path = (splitAuthority body).2 := by rw [hparts]
  have horigin (path : Bytes) : base.scheme ++ lit "://" ++ base.authority ++ path =
      scheme ++ (lit "://" ++ ((splitAuthority body).1 ++ path)) := by
    rw [hparts, List.append_assoc, List.append_assoc]
  obtain ⟨front, rest, rfl⟩ := List.exists_cons_of_ne_nil hne
  rw [Agree, hpart, hfree, hcount, hbasePath]
  rw [resolve_cons, if_neg habsolute] at hresult
  by_cases hbegin : (front :: rest).take 7 = lit "http://" ∨ (front :: rest).take 8 = lit "https://"
  · obtain ⟨hhas, hhash⟩ := hasScheme_of_take hbegin
    rw [List.head?_cons, ne_eq, Option.some.injEq] at hhash
    rw [if_neg hhash, if_pos hhas] at hresult
    rw [httpResolveUrl, if_pos hbegin, serialized_of_parse hresult]
    exact iff_of_true ⟨rfl, rfl, rfl, rfl⟩ (Or.inl hbegin)
  rw [httpResolveUrl_eq hvalid hbegin, or_iff_right hbegin]
  simp only [List.head?_cons, Option.some.injEq, ne_eq]
  have hhead := hpath ▸ head?_splitAuthority (body ++ fragment)
  by_cases hhash : front = chr '#'
  · -- a fragment
    have hother : ¬ chr '#' = chr '/' := by decide
    rw [if_pos hhash] at hresult
    subst hhash
    rw [if_neg hother, serialized_of_parse hresult, hparts]
    dsimp only
    rw [hwithout]
    refine (sameTarget_hash_iff hscheme hbody hfragment rfl).trans (and_congr_right fun _ => ?_)
    simp [hother]
  rw [if_neg hhash] at hresult
  by_cases hhas : hasScheme (front :: rest) = true
  · -- a scheme
    have hother := ne_slash_of_hasScheme hhas
    rw [if_pos hhas] at hresult
    rw [if_neg hother, serialized_of_parse hresult]
    refine iff_of_false (not_sameTarget_of_length_le hscheme hne hhead
      (length_path_parseHttpUrl_le _)) fun h => ?_
    simp [hother, hhash, hhas] at h
  rw [if_neg hhas] at hresult
  by_cases hslashes : (front :: rest).take 2 = lit "//"
  · -- an authority
    obtain ⟨back, hback⟩ := eq_of_take_two hslashes
    obtain ⟨rfl, rfl⟩ := List.cons.inj hback
    have hnil : ¬ base.scheme = [] := hparts ▸ hschemeNil
    rw [if_pos hslashes, if_neg hnil] at hresult
    rw [if_pos rfl, serialized_of_parse hresult, hparts]
    exact iff_of_false (not_sameTarget_slashes hscheme) fun h => by simp [hhash, hslashes] at h
  rw [if_neg hslashes] at hresult
  by_cases hslash : front = chr '/'
  · -- a path
    rw [if_pos hslash] at hresult
    have hhead' : (front :: rest).head? = some (chr '/') := congrArg some hslash
    rw [if_pos hslash, serialized_of_parse hresult, horigin]
    refine (sameTarget_slash_iff hscheme hbody hfragment hhead').trans ?_
    exact (and_iff_left (Or.inl ⟨hslash, hslashes⟩)).symm
  · -- a path behind the directory
    rw [if_neg hslash] at hresult ⊢
    obtain ⟨before, last, hsplit⟩ := exists_splitOn (front :: rest)
    have hsegments : (segmentsOf base.path).dropLast ++ (front :: rest).splitOn (chr '/') =
        ((segmentsOf base.path).dropLast ++ before) ++ [last] := by
      rw [hsplit, List.append_assoc]
    have hslashFree : SlashFree (((segmentsOf base.path).dropLast ++ before) ++ [last]) := by
      rw [← hsegments]
      refine SlashFree.append (fun s hs => ?_) fun s hs => not_mem_of_mem_splitOn hs
      exact slashFree_segmentsOf _ s (List.mem_of_mem_dropLast hs)
    rw [directory_append (hbasePath ▸ head?_splitAuthority body), hsegments,
      removeDotDot_removeDot hslashFree] at hresult
    obtain ⟨path, hpath', hparsed⟩ := Option.bind_eq_some_iff.mp hresult
    obtain ⟨out, hsettle, rfl⟩ := Option.map_eq_some_iff.mp hpath'
    rw [hbasePath] at hsegments hsettle
    have hiff := sameTarget_relative_iff hscheme hbody hfragment hsegments hsettle
    rw [serialized_of_parse hparsed, horigin]
    refine hiff.trans (and_congr_right fun _ => ?_)
    rw [hsplit, List.dropLast_concat]
    simp [hslash, hhash, hhas]

/-- `/c` against `http://h/a/b`. -/
theorem sameTarget_rootPath : ∃ base, Url.parse (lit "http://h/a/b") = some base ∧
    ∃ result, base.resolve (lit "/c") = some result ∧
      SameTarget (parseHttpUrl (httpResolveUrl (lit "http://h/a/b") (lit "/c")))
        (parseHttpUrl result.serialized) := by
  have hbase : Url.parse (lit "http://h/a/b") = some {
      serialized := lit "http://h/a/b"
      scheme := lit "http"
      authority := lit "h"
      path := lit "/a/b" } := by decide +kernel
  have hresult : Url.resolve {
      serialized := lit "http://h/a/b"
      scheme := lit "http"
      authority := lit "h"
      path := lit "/a/b" } (lit "/c") = some {
      serialized := lit "http://h/c"
      scheme := lit "http"
      authority := lit "h"
      path := lit "/c" } := by decide +kernel
  have hvalid : (parseHttpUrl (lit "http://h/a/b")).valid = true := by decide +kernel
  have hkeeps : KeepsAuthority (parseHttpUrl (lit "http://h/a/b")) := by decide +kernel
  have hshape : (lit "/c").head? = some (chr '/') ∧ (lit "/c").take 2 ≠ lit "//" := by decide
  exact ⟨_, hbase, _, hresult, (sameTarget_iff_agree hvalid hbase (by decide) hresult).mpr
    (Or.inr ⟨hkeeps, Or.inl hshape⟩)⟩

/-- For `//g/c` against `http://h/a` the client asks `h` for `//g/c`, and `Url` names `g`. -/
theorem not_sameTarget_authority :
    ¬ ∀ (text : Bytes) (base : Url), (parseHttpUrl text).valid = true →
      Url.parse text = some base → ∀ (reference : Bytes) (result : Url), reference ≠ [] →
        base.resolve reference = some result →
          SameTarget (parseHttpUrl (httpResolveUrl text reference))
            (parseHttpUrl result.serialized) := by
  intro h
  have hbase : Url.parse (lit "http://h/a") = some {
      serialized := lit "http://h/a"
      scheme := lit "http"
      authority := lit "h"
      path := lit "/a" } := by decide +kernel
  have hresult : Url.resolve {
      serialized := lit "http://h/a"
      scheme := lit "http"
      authority := lit "h"
      path := lit "/a" } (lit "//g/c") = some {
      serialized := lit "http://g/c"
      scheme := lit "http"
      authority := lit "g"
      path := lit "/c" } := by decide +kernel
  have hvalid : (parseHttpUrl (lit "http://h/a")).valid = true := by decide +kernel
  have hhosts : (parseHttpUrl (httpResolveUrl (lit "http://h/a") (lit "//g/c"))).host ≠
      (parseHttpUrl (lit "http://g/c")).host := by decide +kernel
  obtain ⟨-, hhost, -⟩ := h _ _ hvalid hbase _ _ (by decide) hresult
  exact hhosts hhost

end Aetheris.Net
