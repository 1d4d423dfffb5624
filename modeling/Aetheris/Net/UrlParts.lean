import Aetheris.Net.Reference

/-!
# The parts of a URL

The separator of the scheme is looked for in the whole text, but its place is used in the text in
front of the `#`.  With a `#` before the separator the place is behind the end of what is cut, and
there is no URL; otherwise its parts put together are the text again.
-/

namespace Aetheris.Net

/-- A text in front of its first `#`, and from there on. -/
theorem cut_at_hash (text : Bytes) : ∃ body tail, text = body ++ tail ∧ chr '#' ∉ body ∧
    (tail = [] ∨ ∃ fragment, tail = chr '#' :: fragment) := by
  by_cases h : chr '#' ∈ text
  · obtain ⟨body, fragment, htext, hbody⟩ := List.eq_append_cons_of_mem h
    exact ⟨body, _, htext, hbody, Or.inr ⟨fragment, rfl⟩⟩
  · exact ⟨text, [], (List.append_nil _).symm, h, Or.inl rfl⟩

theorem findIdx?_hash {body : Bytes} (hbody : chr '#' ∉ body) (fragment : Bytes) :
    (body ++ chr '#' :: fragment).findIdx? (· == chr '#') = some body.length :=
  findIdx?_of_not_mem (p := (· == chr '#')) (fun _ hc h => hbody (beq_iff_eq.mp h ▸ hc))
    (beq_self_eq_true (chr '#')) fragment

theorem findIdx?_hash_eq_none {text : Bytes} (h : chr '#' ∉ text) :
    text.findIdx? (· == chr '#') = none :=
  List.findIdx?_eq_none_iff.mpr fun _ hc =>
    Bool.eq_false_iff.mpr fun heq => h (beq_iff_eq.mp heq ▸ hc)

/-- The separator of the scheme comes before any `#`. -/
def SchemeFirst (text : Bytes) : Prop :=
  ∃ schemeEnd, find text (lit "://") = some schemeEnd ∧
    ∀ hash, text.findIdx? (· == chr '#') = some hash → schemeEnd < hash

/-- The `#` of a text and the fragment behind it. -/
def Url.fragmentText (url : Url) : Bytes :=
  if chr '#' ∈ url.serialized then chr '#' :: url.fragment else []

/-- The path, if it was not made up: there is a slash behind the scheme and in front of the `#`. -/
def Url.writtenPath (url : Url) : Bytes :=
  if chr '/' ∈ (url.serialized.takeWhile (· != chr '#')).drop (url.scheme.length + 3) then url.path
  else []

/-- The parts of a URL put together are the text it was made from. -/
structure Reassembles (text : Bytes) (url : Url) : Prop where
  serialized : url.serialized = text
  absolute : SchemeFirst text →
    url.scheme ++ lit "://" ++ url.authority ++ url.writtenPath ++ url.fragmentText = text
  relative : ¬ SchemeFirst text →
    url.scheme = [] ∧ url.authority = [] ∧ url.path ++ url.fragmentText = text

/-- Authority and path, if there is one, are the text that was split. -/
theorem splitAuthority_reassembles (text : Bytes) :
    (splitAuthority text).1 ++ (if chr '/' ∈ text then (splitAuthority text).2 else []) = text := by
  rcases slash_cases text with h | ⟨front, back, rfl, hfront⟩
  · rw [splitAuthority_of_not_mem h, if_neg h, List.append_nil]
  · rw [splitAuthority_append hfront rfl,
      if_pos (List.mem_append_right _ List.mem_cons_self)]

/-- A separator in front of a `#` ends in front of it. -/
theorem separator_le {body tail : Bytes} {schemeEnd : ℕ}
    (htail : tail = [] ∨ ∃ fragment, tail = chr '#' :: fragment)
    (hfind : find (body ++ tail) (lit "://") = some schemeEnd) (hlt : schemeEnd ≤ body.length) :
    schemeEnd + 3 ≤ body.length := by
  obtain ⟨hle, hseparator⟩ := find_add_length_le hfind
  have hlength : (lit "://").length = 3 := rfl
  rcases htail with rfl | ⟨fragment, rfl⟩
  · rwa [List.append_nil, hlength] at hle
  · by_contra hshort
    have hmem : chr '#' ∈ ((body ++ chr '#' :: fragment).drop schemeEnd).take 3 := by
      rw [List.drop_append_of_le_length hlt, List.take_append, List.mem_append]
      refine Or.inr ?_
      obtain ⟨n, hn⟩ : ∃ n, 3 - (body.drop schemeEnd).length = n + 1 := by
        rw [List.length_drop]
        exact ⟨2 - (body.length - schemeEnd), by omega⟩
      rw [hn, List.take_succ_cons]
      exact List.mem_cons_self
    rw [hlength] at hseparator
    rw [hseparator] at hmem
    exact absurd hmem (by decide)

theorem parse_of_find {body tail : Bytes} (hbody : chr '#' ∉ body)
    (htail : tail = [] ∨ ∃ fragment, tail = chr '#' :: fragment) :
    Url.parse (body ++ tail) =
      match find (body ++ tail) (lit "://") with
      | none => some { serialized := body ++ tail, path := body, fragment := tail.tail }
      | some schemeEnd =>
        if body.length < schemeEnd + 3 then none
        else
          some { serialized := body ++ tail
                 scheme := (body ++ tail).take schemeEnd
                 authority := (splitAuthority (body.drop (schemeEnd + 3))).1
                 path := (splitAuthority (body.drop (schemeEnd + 3))).2
                 fragment := tail.tail } := by
  have hcut : (((body ++ tail).findIdx? (· == chr '#')).map (body ++ tail).take).getD (body ++ tail) =
        body ∧ (((body ++ tail).findIdx? (· == chr '#')).map
          fun i => (body ++ tail).drop (i + 1)).getD [] = tail.tail := by
    rcases htail with rfl | ⟨fragment, rfl⟩
    · rw [List.append_nil, findIdx?_hash_eq_none hbody]
      exact ⟨rfl, rfl⟩
    · rw [findIdx?_hash hbody]
      refine ⟨List.take_left, ?_⟩
      rw [Option.map_some, Option.getD_some, ← List.drop_drop, List.drop_left]
      rfl
  rw [Url.parse]
  dsimp only
  rw [hcut.1, hcut.2]
  cases find (body ++ tail) (lit "://") with
  | none => rfl
  | some schemeEnd =>
    dsimp only
    split
    · rfl
    · rw [splitAuthority]
      cases (body.drop (schemeEnd + 3)).findIdx? (· == chr '/') with
      | none => rfl
      | some pathStart => rfl

/-- **When a URL is constructed, and its parts are those of the text**: exactly if no `#` comes
before the separator of the scheme. -/
theorem parse_reassembles_iff (text : Bytes) :
    (∃ url, Url.parse text = some url ∧ Reassembles text url) ↔
      ∀ schemeEnd hash, find text (lit "://") = some schemeEnd →
        text.findIdx? (· == chr '#') = some hash → schemeEnd < hash := by
  obtain ⟨body, tail, rfl, hbody, htail⟩ := cut_at_hash text
  have htake : (body ++ tail).takeWhile (· != chr '#') = body := by
    have hfree : ∀ c ∈ body, (c != chr '#') = true := fun c hc => bne_iff_ne.mpr fun h => hbody (h ▸ hc)
    rw [List.takeWhile_append_of_pos hfree]
    rcases htail with rfl | ⟨fragment, rfl⟩
    · exact List.append_nil _
    · rw [List.takeWhile_cons_of_neg (by decide), List.append_nil]
  have hfragment (url : Url) (hserialized : url.serialized = body ++ tail)
      (htext : url.fragment = tail.tail) : url.fragmentText = tail := by
    rw [Url.fragmentText, hserialized, htext]
    rcases htail with rfl | ⟨fragment, rfl⟩
    · exact if_neg (by rwa [List.append_nil])
    · exact if_pos (List.mem_append_right _ List.mem_cons_self)
  have hhash : ∀ hash, (body ++ tail).findIdx? (· == chr '#') = some hash → tail ≠ [] ∧
      hash = body.length := by
    intro hash h
    rcases htail with rfl | ⟨fragment, rfl⟩
    · rw [List.append_nil, findIdx?_hash_eq_none hbody] at h
      cases h
    · rw [findIdx?_hash hbody] at h
      exact ⟨List.cons_ne_nil _ _, (Option.some.inj h).symm⟩
  rw [parse_of_find hbody htail]
  cases hfind : find (body ++ tail) (lit "://") with
  | none =>
    refine iff_of_true ⟨_, rfl, rfl, ?_, fun _ => ⟨rfl, rfl, ?_⟩⟩ fun _ _ h => nomatch h
    · rintro ⟨schemeEnd, h, -⟩
      exact nomatch hfind.symm.trans h
    · rw [hfragment _ rfl rfl]
  | some schemeEnd =>
    dsimp only
    by_cases hfirst : schemeEnd < body.length ∨ tail = []
    · have hle : schemeEnd ≤ body.length := by
        rcases hfirst with h | rfl
        · exact h.le
        · have hlength := (find_add_length_le hfind).1
          rw [List.append_nil] at hlength
          omega
      have hend := separator_le htail hfind hle
      have hbefore : ∀ hash, (body ++ tail).findIdx? (· == chr '#') = some hash →
          schemeEnd < hash := by
        intro hash h
        obtain ⟨hne, rfl⟩ := hhash hash h
        exact hfirst.resolve_right hne
      have hscheme : (body ++ tail).take schemeEnd = body.take schemeEnd :=
        List.take_append_of_le_length hle
      have hseparator : (body.drop schemeEnd).take 3 = lit "://" := by
        have h := (find_add_length_le hfind).2
        rw [List.drop_append_of_le_length hle, List.take_append_of_le_length] at h
        · exact h
        · rw [List.length_drop]
          show 3 ≤ body.length - schemeEnd
          omega
      rw [if_neg (by omega)]
      refine iff_of_true ⟨_, rfl, rfl, fun _ => ?_, fun h => ?_⟩ ?_
      · rw [hfragment _ rfl rfl, Url.writtenPath]
        dsimp only
        rw [htake, List.length_take, min_eq_left (by rw [List.length_append]; omega),
          List.append_assoc _ (splitAuthority _).1, splitAuthority_reassembles, hscheme,
          ← hseparator, List.append_assoc (body.take schemeEnd), ← List.drop_drop,
          List.take_append_drop, List.take_append_drop]
      · exact absurd ⟨schemeEnd, hfind, hbefore⟩ h
      · rintro _ hash ⟨⟩ h
        exact hbefore hash h
    · obtain ⟨hlt, hne⟩ := not_or.mp hfirst
      rw [if_pos (by omega)]
      refine iff_of_false (fun ⟨_, h, _⟩ => nomatch h) fun h => hlt ?_
      obtain ⟨fragment, rfl⟩ := htail.resolve_left hne
      exact h schemeEnd body.length rfl (findIdx?_hash hbody fragment)

/-- `#://`: the separator is found, but behind the `#`. -/
theorem not_forall_parse_reassembles :
    ¬∀ text : Bytes, ∃ url, Url.parse text = some url ∧ Reassembles text url := by
  intro h
  obtain ⟨url, hparse, -⟩ := h (lit "#://")
  have hnone : Url.parse (lit "#://") = none := by decide
  exact nomatch hnone.symm.trans hparse

end Aetheris.Net
