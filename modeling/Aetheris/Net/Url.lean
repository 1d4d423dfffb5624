import Aetheris.Find

/-!
# URLs

`Url` of `url.cpp` keeps the text it was made from and the parts that `parse_components` finds in
it.  Two things in it may not come back: `substr` throws when its start is behind the end of the
text, which nothing catches, and the loop over `/../` may go on for ever.  Both are `none`.  A round
of a loop is a function of its own, and the model of the second loop calls itself on a shorter path.
-/

namespace Aetheris.Net

/-- `Url`. -/
structure Url where
  serialized : Bytes := []
  scheme : Bytes := []
  authority : Bytes := []
  path : Bytes := []
  fragment : Bytes := []
  deriving DecidableEq, Repr

namespace Url

/-- `has_fragment`. -/
def hasFragment (url : Url) : Bool := !url.fragment.isEmpty

/-- `is_absolute`. -/
def isAbsolute (url : Url) : Bool := !url.scheme.isEmpty

/-- `is_valid`. -/
def isValid (url : Url) : Bool := !url.serialized.isEmpty

/-- `Url::parse`: the constructor, which calls `parse_components`. -/
def parse (serialized : Bytes) : Option Url :=
  let hash := serialized.findIdx? (· == chr '#')
  let fragment := (hash.map fun i => serialized.drop (i + 1)).getD []
  let withoutFragment := (hash.map serialized.take).getD serialized
  match find serialized (lit "://") with
  | none =>
    some { serialized := serialized, path := withoutFragment, fragment := fragment }
  | some schemeEnd =>
    let scheme := serialized.take schemeEnd
    let authorityStart := schemeEnd + 3
    -- `find` from a start behind the end gives `npos`, and then `substr` throws
    if withoutFragment.length < authorityStart then none
    else
      let afterScheme := withoutFragment.drop authorityStart
      match afterScheme.findIdx? (· == chr '/') with
      | none =>
        some { serialized := serialized, scheme := scheme, authority := afterScheme,
               path := lit "/", fragment := fragment }
      | some pathStart =>
        some { serialized := serialized, scheme := scheme,
               authority := afterScheme.take pathStart, path := afterScheme.drop pathStart,
               fragment := fragment }

end Url

/-- A URL of the engine: all of them are made by the constructor. -/
abbrev ParsedUrl := { url : Url // ∃ text, Url.parse text = some url }

/-! ## Dot segments -/

/-- One round of the first loop: `path.replace(pos, 3, "/")` at the first `/./`. -/
def dotStep (path : Bytes) : Option Bytes :=
  (find path (lit "/./")).map fun pos => path.take pos ++ chr '/' :: path.drop (pos + 3)

/-- One round of the second loop, at the first `/../`.  At `pos == 0` the last argument of
`rfind` wraps around to `npos`, and so may the number of characters to replace. -/
def dotDotStep (path : Bytes) : Option Bytes :=
  match find path (lit "/../") with
  | none => none
  | some pos =>
    match rfind (if pos = 0 then path else path.take pos) (chr '/') with
    | none => none
    | some previous =>
      let stop := if previous ≤ pos + 4 then pos + 4 else path.length
      some (path.take previous ++ chr '/' :: path.drop stop)

theorem length_dotStep_lt {path path' : Bytes} (h : dotStep path = some path') :
    path'.length < path.length := by
  obtain ⟨pos, hpos, rfl⟩ := Option.map_eq_some_iff.mp h
  have hle := (find_add_length_le hpos).1
  rw [List.length_append, List.length_cons, List.length_take, List.length_drop]
  have hlit : (lit "/./").length = 3 := rfl
  omega

/-- A round at a position other than 0 makes the path shorter. -/
theorem length_dotDotStep_lt {path path' : Bytes} (hstart : path.take 4 ≠ lit "/../")
    (h : dotDotStep path = some path') : path'.length < path.length := by
  rw [dotDotStep] at h
  cases hpos : find path (lit "/../") with
  | none =>
    rw [hpos] at h
    cases h
  | some pos =>
    rw [hpos] at h
    dsimp only at h
    obtain ⟨hle, htake⟩ := find_add_length_le hpos
    have hlit : (lit "/../").length = 4 := rfl
    have hne : pos ≠ 0 := by
      rintro rfl
      exact hstart htake
    rw [if_neg hne] at h
    cases hprevious : rfind (path.take pos) (chr '/') with
    | none =>
      rw [hprevious] at h
      cases h
    | some previous =>
      rw [hprevious] at h
      dsimp only at h
      have hlt := rfind_lt hprevious
      rw [List.length_take] at hlt
      rw [if_pos (by omega)] at h
      rw [← Option.some.inj h, List.length_append, List.length_cons, List.length_take,
        List.length_drop]
      omega

/-- The loop over `/./`. -/
def removeDot (path : Bytes) : Bytes :=
  match _ : dotStep path with
  | none => path
  | some path' => removeDot path'
termination_by path.length
decreasing_by exact length_dotStep_lt ‹_›

/-- The loop over `/../`; once the path starts with `/../` it never ends. -/
def removeDotDot (path : Bytes) : Option Bytes :=
  if _ : path.take 4 = lit "/../" then none
  else
    match _ : dotDotStep path with
    | none => some path
    | some path' => removeDotDot path'
termination_by path.length
decreasing_by exact length_dotDotStep_lt ‹_› ‹_›

/-- At a path that starts with `/../` there is a next round, again at such a path. -/
theorem dotDotStep_of_isPrefix {path : Bytes} (hstart : path.take 4 = lit "/../") :
    ∃ path', dotDotStep path = some path' ∧ path'.take 4 = lit "/../" := by
  obtain ⟨rest, rfl⟩ : ∃ rest, path = lit "/../" ++ rest :=
    ⟨path.drop 4, by rw [← hstart, List.take_append_drop]⟩
  have hfind : find (lit "/../" ++ rest) (lit "/../") = some 0 := by
    have htake : (lit "/../" ++ rest).take (lit "/../").length = lit "/../" := List.take_left
    rw [find.eq_def, if_pos htake]
  -- the last slash is at 3 or behind it
  obtain ⟨previous, hprevious, hge⟩ :
      ∃ previous, rfind (lit "/../" ++ rest) (chr '/') = some previous ∧ 3 ≤ previous := by
    show ∃ previous, rfind (chr '/' :: chr '.' :: chr '.' :: chr '/' :: rest) (chr '/') =
      some previous ∧ 3 ≤ previous
    simp only [rfind]
    cases rfind rest (chr '/') with
    | none => exact ⟨3, rfl, le_rfl⟩
    | some j => exact ⟨j + 1 + 1 + 1 + 1, rfl, by omega⟩
  refine ⟨_, by rw [dotDotStep, hfind]; dsimp only; rw [if_pos rfl, hprevious], ?_⟩
  have hlt := rfind_lt hprevious
  rw [List.take_append]
  have hlen : ((lit "/../" ++ rest).take previous).length = previous := by
    rw [List.length_take]
    omega
  rw [hlen, List.take_take]
  rcases Nat.lt_or_ge 3 previous with hgt | hle
  · rw [min_eq_left (by omega), show 4 - previous = 0 by omega, List.take_zero, List.append_nil]
    exact hstart
  · rw [show previous = 3 by omega]
    rfl

/-! ## References -/

/-- `Url::resolve`. -/
def Url.resolve (base : Url) (reference : Bytes) : Option Url :=
  match reference with
  | [] => some base
  | front :: _ =>
    if front = chr '#' then
      let serialized := (base.serialized.takeWhile (· != chr '#'))
      Url.parse (serialized ++ reference)
    else if
      match reference.findIdx? (· == chr ':') with
      | some schemeEnd =>
        0 < schemeEnd &&
          (match reference.findIdx? (fun c => c == chr '/' || c == chr '?' || c == chr '#') with
            | some delimiter => schemeEnd < delimiter
            | none => true)
      | none => false
    then Url.parse reference
    else if reference.take 2 = lit "//" then
      if base.scheme = [] then Url.parse reference
      else Url.parse (base.scheme ++ chr ':' :: reference)
    else if !base.isAbsolute then Url.parse reference
    else
      let origin := base.scheme ++ lit "://" ++ base.authority
      if front = chr '/' then Url.parse (origin ++ reference)
      else
        let directory :=
          match rfind base.path (chr '/') with
          | none => lit "/"
          | some slash => base.path.take (slash + 1)
        (removeDotDot (removeDot (directory ++ reference))).bind fun path =>
          Url.parse (origin ++ path)

end Aetheris.Net
