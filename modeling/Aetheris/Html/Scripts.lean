import Aetheris.Find

/-!
# Scripts in a text

`extract_scripts` of `main.cpp` does not use the tokenizer.  It searches the text for the start of a
start tag, for the end of it and for the start of an end tag, and goes on behind that.

`extractScripts` is the function of the source, over positions of the text.  A search from a
position on is a search in what is left, cut in front of the needle and behind it (`cut`), and
`scriptsIn` is the same function in these terms (`extractScripts_eq`).
-/

namespace Aetheris.Html

/-- `text.find(needle, position)`. -/
def findFrom (text needle : Bytes) (position : ℕ) : Option ℕ :=
  if position ≤ text.length then (find (text.drop position) needle).map (position + ·) else none

theorem findFrom_bounds {text needle : Bytes} {position i : ℕ}
    (h : findFrom text needle position = some i) :
    position ≤ i ∧ i + needle.length ≤ text.length := by
  rw [findFrom] at h
  split at h
  · obtain ⟨j, hj, rfl⟩ := Option.map_eq_some_iff.mp h
    have hlen := (find_add_length_le hj).1
    rw [List.length_drop] at hlen
    omega
  · cases h

/-- The loop of `extract_scripts`. -/
def extractLoop (html : Bytes) (position : ℕ) (scripts : List Bytes) : List Bytes :=
  match _ : findFrom html (lit "<script") position with
  | none => scripts
  | some opening =>
    match _ : findFrom html [chr '>'] opening with
    | none => scripts
    | some tagEnd =>
      match _ : findFrom html (lit "</script") tagEnd with
      | none => scripts
      | some close =>
        extractLoop html (close + 8)
          (scripts ++ [(html.drop (tagEnd + 1)).take (close - tagEnd - 1)])
termination_by html.length - position
decreasing_by
  have hopening := findFrom_bounds ‹findFrom html (lit "<script") position = some opening›
  have htagEnd := findFrom_bounds ‹findFrom html [chr '>'] opening = some tagEnd›
  have hclose := findFrom_bounds ‹findFrom html (lit "</script") tagEnd = some close›
  have hlength : (lit "</script").length = 8 := rfl
  omega

/-- `extract_scripts`. -/
def extractScripts (html : Bytes) : List Bytes := extractLoop html 0 []

/-! ## What is left of the text -/

/-- The text in front of the first place of the needle, and behind it. -/
def cut (needle text : Bytes) : Option (Bytes × Bytes) :=
  (find text needle).map fun i => (text.take i, text.drop (i + needle.length))

theorem cut_eq_some {needle text front back : Bytes} (h : cut needle text = some (front, back)) :
    text = front ++ (needle ++ back) ∧ find text needle = some front.length := by
  obtain ⟨i, hi, heq⟩ := Option.map_eq_some_iff.mp h
  obtain ⟨rfl, rfl⟩ := Prod.mk.inj heq
  obtain ⟨hle, htake⟩ := find_add_length_le hi
  have hlength : (text.take i).length = i := by
    rw [List.length_take]
    omega
  refine ⟨?_, by rw [hlength, hi]⟩
  calc
    text = text.take i ++ text.drop i := (List.take_append_drop i text).symm
    _ = text.take i ++ (needle ++ text.drop (i + needle.length)) := by
      rw [← List.drop_drop]
      exact congrArg _ ((List.take_append_drop needle.length (text.drop i)).symm.trans
        (congrArg (· ++ _) htake))

theorem cut_of_find {needle text front back : Bytes} (htext : text = front ++ (needle ++ back))
    (h : find text needle = some front.length) : cut needle text = some (front, back) := by
  rw [cut, h, htext, Option.map_some, List.take_left, ← List.drop_drop, List.drop_left,
    List.drop_left]

theorem cut_eq_none_iff {needle text : Bytes} : cut needle text = none ↔ ¬ needle <:+: text := by
  rw [cut, Option.map_eq_none_iff, find_eq_none_iff]
  constructor
  · rintro h ⟨front, back, rfl⟩
    refine h front.length ?_ ?_
    · rw [List.append_assoc, List.length_append]
      exact Nat.le_add_right _ _
    · rw [List.append_assoc, List.drop_left]
      exact List.prefix_append _ _
  · exact fun h j _ hpre => h (hpre.isInfix.trans (List.drop_suffix j text).isInfix)

theorem exists_cut {needle text : Bytes} (h : needle <:+: text) :
    ∃ front back, cut needle text = some (front, back) := by
  cases hcut : cut needle text with
  | none => exact absurd h (cut_eq_none_iff.mp hcut)
  | some pair => exact ⟨pair.1, pair.2, rfl⟩

/-- Text behind the needle is left where it is. -/
theorem cut_append {needle text front back : Bytes} (h : cut needle text = some (front, back))
    (rest : Bytes) : cut needle (text ++ rest) = some (front, back ++ rest) := by
  obtain ⟨htext, hfind⟩ := cut_eq_some h
  refine cut_of_find ?_ (find_append hfind rest)
  rw [htext, List.append_assoc, List.append_assoc]

/-- No place of the needle begins in the first part. -/
theorem find_append_of_not_isPrefix {needle text rest : Bytes}
    (h : ∀ j < text.length, ¬ needle <+: text.drop j ++ rest) :
    find (text ++ rest) needle = (find rest needle).map (text.length + ·) := by
  induction text with
  | nil =>
    simp only [List.nil_append, List.length_nil, Nat.zero_add, Option.map_id']
  | cons c text ih =>
    have hhead : ¬ needle <+: c :: (text ++ rest) := h 0 (Nat.succ_pos _)
    rw [List.cons_append, find_cons_of_not_isPrefix hhead,
      ih fun j hj => h (j + 1) (Nat.succ_lt_succ hj), Option.map_map]
    refine congrArg (Option.map · _) (funext fun i => ?_)
    show text.length + i + 1 = text.length + 1 + i
    omega

theorem cut_append_of_not_isPrefix {needle text rest : Bytes}
    (h : ∀ j < text.length, ¬ needle <+: text.drop j ++ rest) :
    cut needle (text ++ rest) = (cut needle rest).map fun pair => (text ++ pair.1, pair.2) := by
  rw [cut, cut, find_append_of_not_isPrefix h, Option.map_map, Option.map_map]
  refine congrArg (Option.map · _) (funext fun i => ?_)
  show ((text ++ rest).take (text.length + i), (text ++ rest).drop (text.length + i + _)) = _
  rw [List.take_length_add_append, Nat.add_assoc, List.drop_length_add_append]
  rfl

theorem length_of_cut {needle text front back : Bytes}
    (h : cut needle text = some (front, back)) :
    text.length = front.length + (needle.length + back.length) := by
  rw [(cut_eq_some h).1, List.length_append, List.length_append]

/-- The scripts of what is left of the text. -/
def scriptsIn (text : Bytes) : List Bytes :=
  match _ : cut (lit "<script") text with
  | none => []
  | some (_, tag) =>
    match _ : cut [chr '>'] tag with
    | none => []
    | some (_, body) =>
      match _ : cut (lit "</script") body with
      | none => []
      | some (script, rest) => script :: scriptsIn rest
termination_by text.length
decreasing_by
  have htag := length_of_cut ‹_ = some (_, tag)›
  have hbody := length_of_cut ‹_ = some (_, body)›
  have hrest := length_of_cut ‹_ = some (script, rest)›
  have hlength : (lit "</script").length = 8 := rfl
  omega

section Rounds

variable {text front tag inTag body script rest : Bytes}

theorem scriptsIn_of_not_isInfix (h : ¬ lit "<script" <:+: text) : scriptsIn text = [] := by
  rw [scriptsIn]
  split
  · rfl
  · rename_i heq
    rw [cut_eq_none_iff.mpr h] at heq
    cases heq

theorem scriptsIn_of_not_closed (hopening : cut (lit "<script") text = some (front, tag))
    (htag : cut [chr '>'] tag = some (inTag, body)) (h : ¬ lit "</script" <:+: body) :
    scriptsIn text = [] := by
  rw [scriptsIn]
  split
  · rfl
  · rename_i heq
    obtain ⟨rfl, rfl⟩ := Prod.mk.inj (Option.some.inj (hopening.symm.trans heq))
    split
    · rfl
    · rename_i heq
      obtain ⟨rfl, rfl⟩ := Prod.mk.inj (Option.some.inj (htag.symm.trans heq))
      split
      · rfl
      · rename_i heq
        rw [cut_eq_none_iff.mpr h] at heq
        cases heq

theorem scriptsIn_of_cuts (hopening : cut (lit "<script") text = some (front, tag))
    (htag : cut [chr '>'] tag = some (inTag, body))
    (hclose : cut (lit "</script") body = some (script, rest)) :
    scriptsIn text = script :: scriptsIn rest := by
  rw [scriptsIn]
  split
  · rename_i heq
    exact nomatch hopening.symm.trans heq
  · rename_i heq
    obtain ⟨rfl, rfl⟩ := Prod.mk.inj (Option.some.inj (hopening.symm.trans heq))
    split
    · rename_i heq
      exact nomatch htag.symm.trans heq
    · rename_i heq
      obtain ⟨rfl, rfl⟩ := Prod.mk.inj (Option.some.inj (htag.symm.trans heq))
      split
      · rename_i heq
        exact nomatch hclose.symm.trans heq
      · rename_i heq
        obtain ⟨rfl, rfl⟩ := Prod.mk.inj (Option.some.inj (hclose.symm.trans heq))
        rfl

theorem scriptsIn_of_open_tag (hopening : cut (lit "<script") text = some (front, tag))
    (h : chr '>' ∉ tag) : scriptsIn text = [] := by
  rw [scriptsIn]
  split
  · rfl
  · rename_i heq
    obtain ⟨rfl, rfl⟩ := Prod.mk.inj (Option.some.inj (hopening.symm.trans heq))
    split
    · rfl
    · rename_i heq
      rw [cut_eq_none_iff.mpr fun hin => h (hin.subset (List.mem_singleton_self _))] at heq
      cases heq

end Rounds

/-! ## The loop -/

/-- A search finds nothing in what it has passed over. -/
theorem findFrom_eq {html needle passed rest : Bytes} {position : ℕ}
    (hhtml : html.drop position = passed ++ rest) (hle : position ≤ html.length)
    (hpassed : ∀ j < passed.length, ¬ needle <+: passed.drop j ++ rest) :
    findFrom html needle position =
      (cut needle rest).map fun pair => position + (passed.length + pair.1.length) := by
  rw [findFrom, if_pos hle, hhtml, find_append_of_not_isPrefix hpassed, cut, Option.map_map,
    Option.map_map]
  cases hfind : find rest needle with
  | none => rfl
  | some i =>
    have hlen := (find_add_length_le hfind).1
    show some (position + (passed.length + i)) =
      some (position + (passed.length + (rest.take i).length))
    rw [List.length_take, Nat.min_eq_left (by omega)]

theorem drop_of_drop {html front back : Bytes} {position : ℕ}
    (h : html.drop position = front ++ back) : html.drop (position + front.length) = back := by
  rw [← List.drop_drop, h, List.drop_left]

theorem le_of_drop {html : Bytes} {position : ℕ} (h : html.drop position ≠ []) :
    position ≤ html.length := by
  by_contra hlt
  exact h (List.drop_eq_nil_of_le (Nat.le_of_lt (Nat.not_le.mp hlt)))

/-- A needle does not begin in a text without its first character. -/
theorem not_isPrefix_of_not_mem {c : Byte} {needle passed : Bytes} (hc : c ∉ passed)
    (rest : Bytes) : ∀ j < passed.length, ¬ c :: needle <+: passed.drop j ++ rest := by
  intro j hj hpre
  rw [List.drop_eq_getElem_cons hj, List.cons_append, List.cons_prefix_cons] at hpre
  exact hc (hpre.1 ▸ List.getElem_mem hj)

section Searches

variable {html front tag inTag body : Bytes} {position opening tagEnd : ℕ}

/-- Where the start of a start tag is found. -/
theorem findFrom_opening (hle : position ≤ html.length) :
    findFrom html (lit "<script") position =
      (cut (lit "<script") (html.drop position)).map fun pair => position + pair.1.length := by
  rw [findFrom_eq (List.nil_append _).symm hle fun j hj => absurd hj (Nat.not_lt_zero j)]
  simp only [List.length_nil, Nat.zero_add]

/-- Where its end is found. -/
theorem findFrom_tagEnd (hhtml : html.drop opening = lit "<script" ++ tag) :
    findFrom html [chr '>'] opening =
      (cut [chr '>'] tag).map fun pair => opening + (7 + pair.1.length) := by
  have hle : opening ≤ html.length := le_of_drop fun hnil => nomatch hhtml.symm.trans hnil
  exact findFrom_eq hhtml hle (not_isPrefix_of_not_mem (by decide) tag)

/-- Where the start of an end tag is found. -/
theorem findFrom_close (hhtml : html.drop tagEnd = [chr '>'] ++ body) :
    findFrom html (lit "</script") tagEnd =
      (cut (lit "</script") body).map fun pair => tagEnd + (1 + pair.1.length) := by
  have hle : tagEnd ≤ html.length := le_of_drop fun hnil => nomatch hhtml.symm.trans hnil
  exact findFrom_eq hhtml hle (not_isPrefix_of_not_mem (by decide) body)

theorem drop_opening (hopening : cut (lit "<script") (html.drop position) = some (front, tag)) :
    html.drop (position + front.length) = lit "<script" ++ tag :=
  drop_of_drop (cut_eq_some hopening).1

theorem drop_tagEnd (hhtml : html.drop opening = lit "<script" ++ tag)
    (htagEnd : cut [chr '>'] tag = some (inTag, body)) :
    html.drop (opening + (7 + inTag.length)) = [chr '>'] ++ body := by
  have htag := (cut_eq_some htagEnd).1
  rw [← Nat.add_assoc]
  exact drop_of_drop ((drop_of_drop hhtml).trans htag)

end Searches

/-- **The loop of `extract_scripts`.** -/
theorem extractLoop_eq (html : Bytes) (position : ℕ) (scripts : List Bytes)
    (hle : position ≤ html.length) :
    extractLoop html position scripts = scripts ++ scriptsIn (html.drop position) := by
  induction position, scripts using extractLoop.induct html with
  | case1 position scripts hopening =>
    rw [extractLoop, hopening]
    rw [findFrom_opening hle, Option.map_eq_none_iff, cut_eq_none_iff] at hopening
    rw [scriptsIn_of_not_isInfix hopening, List.append_nil]
  | case2 position scripts opening hopening htagEnd =>
    rw [extractLoop, hopening]
    dsimp only
    rw [htagEnd]
    rw [findFrom_opening hle] at hopening
    obtain ⟨⟨front, tag⟩, hcut, rfl⟩ := Option.map_eq_some_iff.mp hopening
    rw [findFrom_tagEnd (drop_opening hcut), Option.map_eq_none_iff, cut_eq_none_iff] at htagEnd
    have hnot : chr '>' ∉ tag := fun hmem => htagEnd ((List.singleton_infix_iff _ _).mpr hmem)
    rw [scriptsIn_of_open_tag hcut hnot, List.append_nil]
  | case3 position scripts opening hopening tagEnd htagEnd hclose =>
    rw [extractLoop, hopening]
    dsimp only
    rw [htagEnd]
    dsimp only
    rw [hclose]
    rw [findFrom_opening hle] at hopening
    obtain ⟨⟨front, tag⟩, hcut, rfl⟩ := Option.map_eq_some_iff.mp hopening
    rw [findFrom_tagEnd (drop_opening hcut)] at htagEnd
    obtain ⟨⟨inTag, body⟩, hcut', rfl⟩ := Option.map_eq_some_iff.mp htagEnd
    rw [findFrom_close (drop_tagEnd (drop_opening hcut) hcut'), Option.map_eq_none_iff,
      cut_eq_none_iff] at hclose
    rw [scriptsIn_of_not_closed hcut hcut' hclose, List.append_nil]
  | case4 position scripts opening hopening tagEnd htagEnd close hclose ih =>
    have hlast := (findFrom_bounds hclose).2
    rw [extractLoop, hopening]
    dsimp only
    rw [htagEnd]
    dsimp only
    rw [hclose]
    dsimp only
    rw [ih hlast]
    rw [findFrom_opening hle] at hopening
    obtain ⟨⟨front, tag⟩, hcut, rfl⟩ := Option.map_eq_some_iff.mp hopening
    rw [findFrom_tagEnd (drop_opening hcut)] at htagEnd
    obtain ⟨⟨inTag, body⟩, hcut', rfl⟩ := Option.map_eq_some_iff.mp htagEnd
    have hbody := drop_tagEnd (drop_opening hcut) hcut'
    rw [findFrom_close hbody] at hclose
    obtain ⟨⟨script, rest⟩, hcut'', rfl⟩ := Option.map_eq_some_iff.mp hclose
    have hscript := (cut_eq_some hcut'').1
    rw [scriptsIn_of_cuts hcut hcut' hcut'', List.append_assoc, List.singleton_append]
    dsimp only
    generalize position + front.length + (7 + inTag.length) = tagEnd at hbody
    have hbehind : html.drop (tagEnd + 1) = body := drop_of_drop hbody
    have hcontent : (html.drop (tagEnd + 1)).take (tagEnd + (1 + script.length) - tagEnd - 1) =
        script := by
      rw [hbehind, show tagEnd + (1 + script.length) - tagEnd - 1 = script.length by omega, hscript,
        List.take_left]
    have hrest : html.drop (tagEnd + (1 + script.length) + 8) = rest := by
      rw [← Nat.add_assoc]
      exact drop_of_drop (drop_of_drop (hbehind.trans hscript))
    rw [hcontent, hrest]

/-- The scripts of a text. -/
theorem extractScripts_eq (html : Bytes) : extractScripts html = scriptsIn html :=
  extractLoop_eq html 0 [] (Nat.zero_le _)

end Aetheris.Html
