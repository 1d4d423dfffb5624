import Aetheris.Js.JsonGrammar

/-!
# What `JSON.parse` accepts

The parser reads the values of the wider grammar, with their backslashes dropped, and succeeds on
nothing else: one direction by induction on a value, the other by induction on the calls of the
parser.  The wider grammar has all of JSON, so what is left to say is where a text that begins with
a value of it is JSON too, and denotes the same.
-/

namespace Aetheris.Js

open Lexis

section

variable {strtod : Bytes → Number × ℕ} {round : ℚ → Number} {text : Bytes} {parser : JsonParser}

/-! ## Strings -/

/-- The loop of `parse_string` takes everything that has no quote in it, and goes on behind it. -/
theorem stringBody_unquoted {body : Bytes} (h : Unquoted body) (tail : Bytes) :
    stringBody (body ++ tail) =
      (dropBackslashes body ++ (stringBody tail).1, body.length + (stringBody tail).2) := by
  induction h with
  | nil => simp [dropBackslashes]
  | @escape rest c h ih =>
    rw [List.cons_append, List.cons_append, stringBody, if_neg (by decide), if_pos rfl, ih,
      dropBackslashes, if_pos rfl]
    simp only [List.cons_append, List.length_cons, Prod.mk.injEq, true_and]
    omega
  | @plain rest c hquote hslash h ih =>
    cases rest with
    | nil =>
      cases tail with
      | nil => simp [stringBody, dropBackslashes, hquote]
      | cons d tail =>
        simp [stringBody, dropBackslashes, hquote, hslash, Nat.add_comm]
    | cons d rest =>
      rw [List.cons_append] at ih
      rw [List.cons_append, List.cons_append, stringBody, if_neg hquote, if_neg hslash, ih,
        dropBackslashes, if_neg hslash]
      simp only [List.cons_append, List.length_cons, Prod.mk.injEq, true_and]
      omega

theorem stringBody_quote (rest : Bytes) : stringBody (chr '"' :: rest) = ([], 0) := by
  cases rest <;> simp [stringBody]

theorem dropBackslashes_unquoted {body : Bytes} (h : Unquoted body) :
    dropBackslashes (body ++ [chr '\\']) = dropBackslashes body ++ [chr '\\'] := by
  induction h with
  | nil => rfl
  | @escape rest c h ih =>
    rw [List.cons_append, List.cons_append, dropBackslashes, if_pos rfl, ih, dropBackslashes,
      if_pos rfl, List.cons_append]
  | @plain rest c hquote hslash h ih =>
    cases rest with
    | nil => simp [dropBackslashes, hslash]
    | cons d rest =>
      rw [List.cons_append] at ih
      rw [List.cons_append, List.cons_append, dropBackslashes, if_neg hslash, ih, dropBackslashes,
        if_neg hslash, List.cons_append]

/-- What the loop of `parse_string` makes of a string of the wider grammar. -/
theorem stringBody_lenient {s body rest : Bytes} (h : (lenient strtod).string s body rest) :
    stringBody s = (dropBackslashes body, body.length) ∧ rest = s.drop (body.length + 1) := by
  rcases h with ⟨hbody, rfl⟩ | ⟨rfl, rfl, hbody | ⟨front, hfront, rfl⟩⟩
  · rw [stringBody_unquoted hbody, stringBody_quote, ← List.drop_drop, List.drop_left]
    simp
  · have hloop := stringBody_unquoted hbody []
    rw [List.append_nil] at hloop
    rw [hloop, stringBody]
    simp
  · have hslash : stringBody [chr '\\'] = ([chr '\\'], 1) := rfl
    rw [stringBody_unquoted hfront, dropBackslashes_unquoted hfront, hslash]
    simp

/-- Whatever stands behind a quote is a string of the wider grammar. -/
theorem exists_lenient (s : Bytes) : ∃ body rest, (lenient strtod).string s body rest := by
  have hcases : ∃ body rest, Unquoted body ∧
      (s = body ++ chr '"' :: rest ∨ s = body ∨ s = body ++ [chr '\\']) := by
    induction s using dropBackslashes.induct with
    | case1 => exact ⟨[], [], .nil, Or.inr (Or.inl rfl)⟩
    | case2 c =>
      by_cases hquote : c = chr '"'
      · exact ⟨[], [], .nil, Or.inl (by rw [hquote]; rfl)⟩
      · by_cases hslash : c = chr '\\'
        · exact ⟨[], [], .nil, Or.inr (Or.inr (by rw [hslash]; rfl))⟩
        · exact ⟨[c], [], .plain hquote hslash .nil, Or.inr (Or.inl rfl)⟩
    | case3 d rest ih =>
      obtain ⟨body, tail, hbody, h⟩ := ih
      refine ⟨chr '\\' :: d :: body, tail, .escape d hbody, ?_⟩
      rcases h with h | h | h <;> simp [h]
    | case4 c d rest hslash ih =>
      by_cases hquote : c = chr '"'
      · exact ⟨[], d :: rest, .nil, Or.inl (by rw [hquote]; rfl)⟩
      · obtain ⟨body, tail, hbody, h⟩ := ih
        refine ⟨c :: body, tail, .plain hquote hslash hbody, ?_⟩
        rcases h with h | h | h <;> simp [h]
  obtain ⟨body, rest, hbody, h | h | h⟩ := hcases
  · exact ⟨body, rest, Or.inl ⟨hbody, h⟩⟩
  · exact ⟨body, [], Or.inr ⟨h, rfl, Or.inl hbody⟩⟩
  · exact ⟨s, [], Or.inr ⟨rfl, rfl, Or.inr ⟨body, hbody, h⟩⟩⟩

/-- `parse_string` at a quote. -/
theorem parseString_lenient {s body rest : Bytes} (hdrop : text.drop parser.pos = chr '"' :: s)
    (h : (lenient strtod).string s body rest) :
    ∃ next, parseString text parser = (dropBackslashes body, next) ∧
      text.drop next.pos = rest ∧ next.ok = parser.ok := by
  obtain ⟨hbody, rfl⟩ := stringBody_lenient h
  have hinside : text.drop (parser.pos + 1) = s := drop_advance_one hdrop
  refine ⟨parser.advance (body.length + 2), ?_, ?_, rfl⟩
  · rw [parseString, hinside, hbody]
  · rw [JsonParser.pos_advance, ← hinside, List.drop_drop]
    congr 1
    omega

/-! ## Places -/

theorem drop_length_takeWhile (p : Byte → Bool) :
    ∀ s : Bytes, s.drop (s.takeWhile p).length = s.dropWhile p
  | [] => rfl
  | c :: s => by
    cases hc : p c with
    | false => simp [hc]
    | true => simp [hc, drop_length_takeWhile p s]

/-- What is left behind the white space. -/
theorem drop_skip : text.drop (parser.skip text).pos = (text.drop parser.pos).dropWhile isSpace := by
  rw [JsonParser.skip, JsonParser.pos_advance, ← List.drop_drop, drop_length_takeWhile]

theorem isSpace_of_dropWhile {s rest : Bytes} {c : Byte}
    (h : s.dropWhile isSpace = c :: rest) : isSpace c = false := by
  have hne : s.dropWhile isSpace ≠ [] := by rw [h]; exact List.cons_ne_nil c rest
  have hhead := List.head_dropWhile_not isSpace hne
  simpa only [h, List.head_cons] using hhead

/-- White space is skipped before anything else. -/
theorem parse_skip : parse strtod text (parser.skip text) = parse strtod text parser := by
  have hskip : (parser.skip text).skip text = parser.skip text := by
    have hnone : ((text.drop parser.pos).dropWhile isSpace).takeWhile isSpace = [] := by
      cases h : (text.drop parser.pos).dropWhile isSpace with
      | nil => rfl
      | cons c rest => rw [List.takeWhile_cons, isSpace_of_dropWhile h]; rfl
    rw [JsonParser.skip, drop_skip, hnone]
    rfl
  rw [parse, parse, hskip]

/-- `parse` at the end of the text. -/
theorem parse_end (h : (text.drop parser.pos).dropWhile isSpace = []) :
    parse strtod text parser = (.undefined, (parser.skip text).fail) := by
  have hend : ¬ (parser.skip text).pos < text.length := by
    rw [← drop_skip, List.drop_eq_nil_iff] at h
    exact not_lt.mpr h
  rw [parse]
  simp only [dif_neg hend]

/-! ## The parser reads the wider grammar -/

/-- The parser stands at the rest of the text, and its flag is as before. -/
def Left (text : Bytes) (parser next : JsonParser) (rest : Bytes) : Prop :=
  text.drop next.pos = rest ∧ next.ok = parser.ok

/-- The three words. -/
theorem parse_word {word rest : Bytes} {value : ValueTree}
    (hword : (word, value) ∈ [(lit "true", ValueTree.boolean true),
      (lit "false", ValueTree.boolean false), (lit "null", ValueTree.null)])
    (h : text.drop parser.pos = word ++ rest) :
    parse strtod text parser = (value, parser.advance word.length) := by
  simp only [List.mem_cons, List.not_mem_nil, or_false, Prod.mk.injEq] at hword
  rcases hword with ⟨rfl, rfl⟩ | ⟨rfl, rfl⟩ | ⟨rfl, rfl⟩
  · have hcons : text.drop parser.pos = chr 't' :: (lit "rue" ++ rest) := h
    rw [parse_of_drop hcons (by decide), if_neg (by decide), if_neg (by decide),
      if_neg (by decide), if_pos rfl, parseWord_of_drop _ h]
  · have hcons : text.drop parser.pos = chr 'f' :: (lit "alse" ++ rest) := h
    rw [parse_of_drop hcons (by decide), if_neg (by decide), if_neg (by decide),
      if_neg (by decide), if_neg (by decide), if_pos rfl, parseWord_of_drop _ h]
  · have hcons : text.drop parser.pos = chr 'n' :: (lit "ull" ++ rest) := h
    rw [parse_of_drop hcons (by decide), if_neg (by decide), if_neg (by decide),
      if_neg (by decide), if_neg (by decide), if_neg (by decide), if_pos rfl,
      parseWord_of_drop _ h]

/-- A number, which begins with none of the characters of the other values. -/
theorem parse_number {s rest : Bytes} {n : Number} (hspace : s.dropWhile isSpace = s)
    (h : (lenient strtod).number s n rest) (hdrop : text.drop parser.pos = s) :
    ∃ next, parse strtod text parser = (.number n, next) ∧ Left text parser next rest := by
  obtain ⟨⟨c, hc, hother⟩, count, hread, hcount, rfl⟩ := h
  obtain ⟨tail, rfl⟩ : ∃ tail, s = c :: tail := by
    cases s with
    | nil => cases hc
    | cons d tail => exact ⟨tail, by rw [List.head?_cons, Option.mem_some_iff] at hc; rw [hc]⟩
  have hne : ∀ d ∈ lit "\x7b[\"tfn", c ≠ d := fun d hd heq => hother (heq ▸ hd)
  refine ⟨parser.advance count, ?_, ?_, rfl⟩
  · rw [parse_of_drop hdrop (isSpace_of_dropWhile hspace), if_neg (hne _ (by decide)),
      if_neg (hne _ (by decide)), if_neg (hne _ (by decide)), if_neg (hne _ (by decide)),
      if_neg (hne _ (by decide)), if_neg (hne _ (by decide)), parseNumber, hdrop, hread]
    exact if_neg hcount
  · rw [JsonParser.pos_advance, ← List.drop_drop, hdrop]

theorem value_ne_nil {s rest : Bytes} {x : Raw} (h : (lenient strtod).Value s x rest) : s ≠ [] := by
  cases h with
  | number h =>
    obtain ⟨⟨c, hc, -⟩, -⟩ := h
    rintro rfl
    cases hc
  | _ => exact List.cons_ne_nil _ _

theorem ne_nil_of_skip {s rest : Bytes} {x : Raw}
    (h : (lenient strtod).Value ((lenient strtod).skip s) x rest) : s ≠ [] := by
  rintro rfl
  exact value_ne_nil h rfl

/-- The members of an object begin with a quote, behind white space. -/
theorem head_ne_brace {s rest : Bytes} {ps : List (Bytes × Raw)}
    (h : (lenient strtod).Members s ps rest) : s.head? ≠ some (chr '}') := by
  have hmember : ∀ {p t}, (lenient strtod).Member s p t → s.head? ≠ some (chr '}') := by
    intro p t hp
    cases hp with
    | mk hquote =>
      cases s with
      | nil => exact nofun
      | cons c s =>
        rintro ⟨rfl⟩
        exact absurd (List.cons.inj hquote).1 (by decide)
  cases h with
  | last hp _ => exact hmember hp
  | cut _ hp _ => exact hmember hp
  | cons hp _ _ => exact hmember hp

/-- The loop of `parse_array`, where an element has been read. -/
theorem arrayLoop_parse {value : ValueTree} {next : JsonParser}
    (hne : text.drop parser.pos ≠ []) (h : parse strtod text parser = (value, next)) :
    arrayLoop strtod text parser =
      if text[(next.skip text).pos]? = some (chr ',') then
        (value :: (arrayLoop strtod text ((next.skip text).advance 1)).1,
          (arrayLoop strtod text ((next.skip text).advance 1)).2)
      else if text[(next.skip text).pos]? = some (chr ']') then
        ([value], (next.skip text).advance 1)
      else ([value], (next.skip text).fail) := by
  have hpos : parser.pos < text.length := not_le.mp (List.drop_eq_nil_iff.not.mp hne)
  have hle : parser.pos ≤ next.pos := by
    have hle := le_pos_parse strtod text parser
    rwa [h] at hle
  rw [arrayLoop, if_pos hpos]
  simp only [h, if_pos hle]

theorem arrayLoop_end (h : text.drop parser.pos = []) :
    arrayLoop strtod text parser = ([], parser) := by
  rw [arrayLoop, if_neg (not_lt.mpr (List.drop_eq_nil_iff.mp h))]

/-- The loop of `parse_object`, where a member has been read. -/
theorem objectLoop_parse {found : List (Bytes × ValueTree)} {key : Bytes} {value : ValueTree}
    {quoted next : JsonParser} {s t : Bytes}
    (hquote : text.drop (parser.skip text).pos = chr '"' :: s)
    (hkey : parseString text (parser.skip text) = (key, quoted))
    (hcolon : text.drop (quoted.skip text).pos = chr ':' :: t)
    (h : parse strtod text ((quoted.skip text).advance 1) = (value, next)) :
    objectLoop strtod text found parser =
      if text[(next.skip text).pos]? = some (chr ',') then
        objectLoop strtod text (setProperty key value found) ((next.skip text).advance 1)
      else if text[(next.skip text).pos]? = some (chr '}') then
        (setProperty key value found, (next.skip text).advance 1)
      else (setProperty key value found, (next.skip text).fail) := by
  have hpos : parser.pos < text.length :=
    (le_pos_skip text parser).trans_lt (pos_lt_of_drop hquote)
  have hlt : (quoted.skip text).pos < next.pos := by
    have hle := le_pos_parse strtod text ((quoted.skip text).advance 1)
    rw [h] at hle
    exact hle
  rw [objectLoop, if_pos hpos]
  simp only [getElem?_of_drop hquote, if_true, hkey, getElem?_of_drop hcolon, h, if_pos hlt]

theorem objectLoop_end {found : List (Bytes × ValueTree)} (h : text.drop parser.pos = []) :
    objectLoop strtod text found parser = (found, parser) := by
  rw [objectLoop, if_neg (not_lt.mpr (List.drop_eq_nil_iff.mp h))]

/-- `parse_array` and `parse_object` behind their opening bracket. -/
theorem drop_open {c : Byte} {s : Bytes} (h : text.drop parser.pos = c :: s) :
    text.drop ((parser.advance 1).skip text).pos = s.dropWhile isSpace := by
  rw [drop_skip, drop_advance_one h]

mutual

/-- A value of the wider grammar is read. -/
theorem parse_complete {s rest : Bytes} {x : Raw} :
    (lenient strtod).Value s x rest → ∀ parser : JsonParser,
      (text.drop parser.pos).dropWhile isSpace = s →
      ∃ next, parse strtod text parser = (x.value dropBackslashes, next) ∧
        Left text parser next rest
  | .null rest, parser, h => by
    rw [← drop_skip] at h
    have hparse : parse strtod text (parser.skip text) = (.null, _) := parse_word (by simp) h
    rw [← parse_skip, hparse]
    exact ⟨_, rfl, drop_advance h, rfl⟩
  | .boolean_true rest, parser, h => by
    rw [← drop_skip] at h
    have hparse : parse strtod text (parser.skip text) = (.boolean true, _) :=
      parse_word (by simp) h
    rw [← parse_skip, hparse]
    exact ⟨_, rfl, drop_advance h, rfl⟩
  | .boolean_false rest, parser, h => by
    rw [← drop_skip] at h
    have hparse : parse strtod text (parser.skip text) = (.boolean false, _) :=
      parse_word (by simp) h
    rw [← parse_skip, hparse]
    exact ⟨_, rfl, drop_advance h, rfl⟩
  | .number hn, parser, h => by
    rw [← parse_skip]
    refine parse_number ?_ hn (drop_skip.trans h)
    rw [← h, List.dropWhile_idempotent]
  | .string hbody, parser, h => by
    have hdrop := drop_skip.trans h
    obtain ⟨next, hstring, hleft⟩ := parseString_lenient hdrop hbody
    rw [← parse_skip, parse_of_drop hdrop (by decide), if_neg (by decide), if_neg (by decide),
      if_pos rfl, hstring]
    exact ⟨next, rfl, hleft⟩
  | .array_empty hclose, parser, h => by
    have hdrop := drop_skip.trans h
    have hinside := (drop_open hdrop).trans hclose
    rw [← parse_skip, parse_of_drop hdrop (by decide), if_neg (by decide), if_pos rfl, parseArray]
    simp only [getElem?_of_drop hinside, if_true]
    exact ⟨_, rfl, drop_advance_one hinside, rfl⟩
  | .array_cut _ hend, parser, h => by
    have hdrop := drop_skip.trans h
    have hinside := (drop_open hdrop).trans hend
    rw [← parse_skip, parse_of_drop hdrop (by decide), if_neg (by decide), if_pos rfl, parseArray]
    have hclose : text[((((parser.skip text).advance 1).skip text)).pos]? ≠ some (chr ']') := by
      rw [← List.head?_drop, hinside]
      exact nofun
    simp only [if_neg hclose, arrayLoop_end hinside]
    exact ⟨_, rfl, hinside, rfl⟩
  | .array hopen hxs, parser, h => by
    have hdrop := drop_skip.trans h
    have hinside := drop_open hdrop
    rw [← parse_skip, parse_of_drop hdrop (by decide), if_neg (by decide), if_pos rfl, parseArray]
    have hclose : text[((((parser.skip text).advance 1).skip text)).pos]? ≠ some (chr ']') := by
      rw [← List.head?_drop, hinside]
      exact hopen
    obtain ⟨next, hloop, hleft⟩ := arrayLoop_complete hxs _ hinside
    simp only [if_neg hclose, hloop]
    exact ⟨next, rfl, hleft⟩
  | .object_empty hclose, parser, h => by
    have hdrop := drop_skip.trans h
    have hinside := (drop_open hdrop).trans hclose
    rw [← parse_skip, parse_of_drop hdrop (by decide), if_pos rfl, parseObject]
    simp only [getElem?_of_drop hinside, if_true]
    exact ⟨_, rfl, drop_advance_one hinside, rfl⟩
  | .object_cut _ hend, parser, h => by
    have hdrop := drop_skip.trans h
    have hinside := (drop_open hdrop).trans hend
    rw [← parse_skip, parse_of_drop hdrop (by decide), if_pos rfl, parseObject]
    have hclose : text[((((parser.skip text).advance 1).skip text)).pos]? ≠ some (chr '}') := by
      rw [← List.head?_drop, hinside]
      exact nofun
    simp only [if_neg hclose, objectLoop_end hinside]
    exact ⟨_, rfl, hinside, rfl⟩
  | .object hps, parser, h => by
    have hdrop := drop_skip.trans h
    have hinside := drop_open hdrop
    rw [← parse_skip, parse_of_drop hdrop (by decide), if_pos rfl, parseObject]
    have hclose : text[((((parser.skip text).advance 1).skip text)).pos]? ≠ some (chr '}') := by
      rw [← List.head?_drop, hinside]
      exact head_ne_brace hps
    obtain ⟨next, hloop, hleft⟩ := objectLoop_complete hps [] _ hinside
    simp only [if_neg hclose, hloop]
    exact ⟨next, rfl, hleft⟩

theorem arrayLoop_complete {s rest : Bytes} {xs : List Raw} :
    (lenient strtod).Elements s xs rest → ∀ parser : JsonParser, text.drop parser.pos = s →
      ∃ next, arrayLoop strtod text parser = (Raw.values dropBackslashes xs, next) ∧
        Left text parser next rest
  | .last hx hclose, parser, h => by
    obtain ⟨next, hparse, hnext, hok⟩ := parse_complete hx parser (by rw [h]; rfl)
    have hbracket := drop_skip.trans ((congrArg (List.dropWhile isSpace) hnext).trans hclose)
    rw [arrayLoop_parse (h ▸ ne_nil_of_skip hx) hparse, getElem?_of_drop hbracket,
      if_neg (by decide), if_pos rfl]
    exact ⟨_, rfl, drop_advance_one hbracket, hok⟩
  | .cut _ hx hend, parser, h => by
    obtain ⟨next, hparse, hnext, hok⟩ := parse_complete hx parser (by rw [h]; rfl)
    have hcomma := drop_skip.trans ((congrArg (List.dropWhile isSpace) hnext).trans hend)
    rw [arrayLoop_parse (h ▸ ne_nil_of_skip hx) hparse, getElem?_of_drop hcomma, if_pos rfl,
      arrayLoop_end (drop_advance_one hcomma)]
    exact ⟨_, rfl, drop_advance_one hcomma, hok⟩
  | .cons hx hcomma hxs, parser, h => by
    obtain ⟨next, hparse, hnext, hok⟩ := parse_complete hx parser (by rw [h]; rfl)
    have hcomma := drop_skip.trans ((congrArg (List.dropWhile isSpace) hnext).trans hcomma)
    obtain ⟨last, hloop, hlast, hlastok⟩ := arrayLoop_complete hxs _ (drop_advance_one hcomma)
    rw [arrayLoop_parse (h ▸ ne_nil_of_skip hx) hparse, getElem?_of_drop hcomma, if_pos rfl, hloop]
    exact ⟨_, rfl, hlast, hlastok.trans hok⟩

theorem member_complete {s rest : Bytes} {p : Bytes × Raw} :
    (lenient strtod).Member s p rest → ∀ parser : JsonParser, text.drop parser.pos = s →
      ∃ quoted next s' t', text.drop (parser.skip text).pos = chr '"' :: s' ∧
        parseString text (parser.skip text) = (dropBackslashes p.1, quoted) ∧
        text.drop (quoted.skip text).pos = chr ':' :: t' ∧
        parse strtod text ((quoted.skip text).advance 1) = (p.2.value dropBackslashes, next) ∧
        Left text parser next rest
  | .mk hquote hkey hcolon hx, parser, h => by
    have hquote' := drop_skip.trans ((congrArg (List.dropWhile isSpace) h).trans hquote)
    obtain ⟨quoted, hstring, hquoted, hok⟩ := parseString_lenient hquote' hkey
    have hcolon' := drop_skip.trans ((congrArg (List.dropWhile isSpace) hquoted).trans hcolon)
    obtain ⟨next, hparse, hnext, hnextok⟩ :=
      parse_complete hx ((quoted.skip text).advance 1) (by rw [drop_advance_one hcolon']; rfl)
    exact ⟨quoted, next, _, _, hquote', hstring, hcolon', hparse, hnext, hnextok.trans hok⟩

theorem objectLoop_complete {s rest : Bytes} {ps : List (Bytes × Raw)} :
    (lenient strtod).Members s ps rest → ∀ found, ∀ parser : JsonParser,
      text.drop parser.pos = s →
      ∃ next, objectLoop strtod text found parser =
        (Raw.properties dropBackslashes found ps, next) ∧ Left text parser next rest
  | .last hp hclose, found, parser, h => by
    obtain ⟨quoted, next, _, _, hquote, hkey, hcolon, hparse, hnext, hok⟩ :=
      member_complete hp parser h
    have hbrace := drop_skip.trans ((congrArg (List.dropWhile isSpace) hnext).trans hclose)
    rw [objectLoop_parse hquote hkey hcolon hparse, getElem?_of_drop hbrace, if_neg (by decide),
      if_pos rfl]
    exact ⟨_, rfl, drop_advance_one hbrace, hok⟩
  | .cut _ hp hend, found, parser, h => by
    obtain ⟨quoted, next, _, _, hquote, hkey, hcolon, hparse, hnext, hok⟩ :=
      member_complete hp parser h
    have hcomma := drop_skip.trans ((congrArg (List.dropWhile isSpace) hnext).trans hend)
    rw [objectLoop_parse hquote hkey hcolon hparse, getElem?_of_drop hcomma, if_pos rfl,
      objectLoop_end (drop_advance_one hcomma)]
    exact ⟨_, rfl, drop_advance_one hcomma, hok⟩
  | .cons hp hcomma hps, found, parser, h => by
    obtain ⟨quoted, next, _, _, hquote, hkey, hcolon, hparse, hnext, hok⟩ :=
      member_complete hp parser h
    have hcomma := drop_skip.trans ((congrArg (List.dropWhile isSpace) hnext).trans hcomma)
    obtain ⟨last, hloop, hlast, hlastok⟩ :=
      objectLoop_complete hps _ _ (drop_advance_one hcomma)
    rw [objectLoop_parse hquote hkey hcolon hparse, getElem?_of_drop hcomma, if_pos rfl, hloop]
    exact ⟨_, rfl, hlast, hlastok.trans hok⟩

end

/-! ## The parser succeeds on nothing else -/

variable (strtod text) in
/-- Where `parse` succeeds, there is a value of the wider grammar. -/
def Sound (parser : JsonParser) : Prop :=
  ∀ value next, parse strtod text parser = (value, next) → next.ok = true →
    parser.ok = true ∧ ∃ x, (lenient strtod).Value
      ((text.drop parser.pos).dropWhile isSpace) x (text.drop next.pos) ∧
      x.value dropBackslashes = value

theorem eq_drop_of_getElem? {c : Byte} (h : text[parser.pos]? = some c) :
    text.drop parser.pos = c :: text.drop (parser.advance 1).pos := by
  obtain ⟨hlt, hget⟩ := List.getElem?_eq_some_iff.mp h
  rw [List.drop_eq_getElem_cons hlt, hget]
  rfl

/-- The loop of `parse_array` has read the elements of an array, or there was nothing to read. -/
theorem arrayLoop_sound (parser : JsonParser)
    (hparse : ∀ inner : JsonParser, parser.pos ≤ inner.pos → Sound strtod text inner)
    {values : List ValueTree} {next : JsonParser}
    (h : arrayLoop strtod text parser = (values, next)) (hok : next.ok = true) :
    parser.ok = true ∧ ((text.drop parser.pos = [] ∧ values = [] ∧ text.drop next.pos = []) ∨
      ∃ xs, (lenient strtod).Elements (text.drop parser.pos) xs (text.drop next.pos) ∧
        Raw.values dropBackslashes xs = values) := by
  by_cases hend : text.drop parser.pos = []
  · rw [arrayLoop_end hend] at h
    obtain ⟨rfl, rfl⟩ := Prod.mk.inj h
    exact ⟨hok, Or.inl ⟨hend, rfl, hend⟩⟩
  · cases hinner : parse strtod text parser with | mk value inner => ?_
    have hle : parser.pos ≤ inner.pos := by
      have hle := le_pos_parse strtod text parser
      rwa [hinner] at hle
    have hskip := le_pos_skip text inner
    have hpos : parser.pos < text.length := not_le.mp (List.drop_eq_nil_iff.not.mp hend)
    rw [arrayLoop_parse hend hinner] at h
    split at h
    next hcomma =>
      obtain ⟨rfl, hnext⟩ := Prod.mk.inj h
      have htail := arrayLoop_sound ((inner.skip text).advance 1)
        (fun later hlater => hparse later (by rw [JsonParser.pos_advance] at hlater; omega)) rfl
        (hnext ▸ hok)
      obtain ⟨hinnerok, htail⟩ := htail
      obtain ⟨hparserok, x, hx, rfl⟩ := hparse parser (le_refl _) value inner hinner hinnerok
      have hcomma' := drop_skip.symm.trans (eq_drop_of_getElem? hcomma)
      rw [hnext] at htail
      refine ⟨hparserok, Or.inr ?_⟩
      rcases htail with ⟨hnil, hvalues, hrest⟩ | ⟨xs, hxs, hvalues⟩
      · rw [hnil] at hcomma'
        rw [hrest, hvalues]
        exact ⟨[x], .cut trivial hx hcomma', rfl⟩
      · exact ⟨x :: xs, .cons hx hcomma' hxs, by rw [Raw.values, hvalues]⟩
    next =>
      split at h
      next hbracket =>
        obtain ⟨rfl, rfl⟩ := Prod.mk.inj h
        obtain ⟨hparserok, x, hx, rfl⟩ := hparse parser (le_refl _) value inner hinner hok
        have hbracket' := drop_skip.symm.trans (eq_drop_of_getElem? hbracket)
        exact ⟨hparserok, Or.inr ⟨[x], .last hx hbracket', rfl⟩⟩
      next =>
        obtain ⟨-, rfl⟩ := Prod.mk.inj h
        exact absurd hok Bool.false_ne_true
termination_by text.length - parser.pos
decreasing_by
  exact length_sub_lt text hpos (hle.trans hskip)

/-- The loop of `parse_object` has read the members of an object, or there was nothing to read. -/
theorem objectLoop_sound (parser : JsonParser) (found : List (Bytes × ValueTree))
    (hparse : ∀ inner : JsonParser, parser.pos ≤ inner.pos → Sound strtod text inner)
    {values : List (Bytes × ValueTree)} {next : JsonParser}
    (h : objectLoop strtod text found parser = (values, next)) (hok : next.ok = true) :
    parser.ok = true ∧ ((text.drop parser.pos = [] ∧ values = found ∧ text.drop next.pos = []) ∨
      ∃ ps, (lenient strtod).Members (text.drop parser.pos) ps (text.drop next.pos) ∧
        Raw.properties dropBackslashes found ps = values) := by
  by_cases hend : text.drop parser.pos = []
  · rw [objectLoop_end hend] at h
    obtain ⟨rfl, rfl⟩ := Prod.mk.inj h
    exact ⟨hok, Or.inl ⟨hend, rfl, hend⟩⟩
  · have hpos : parser.pos < text.length := not_le.mp (List.drop_eq_nil_iff.not.mp hend)
    by_cases hquote : text[(parser.skip text).pos]? = some (chr '"')
    · have hquote' := eq_drop_of_getElem? hquote
      obtain ⟨body, rest, hbody⟩ : ∃ body rest, (lenient strtod).string
          (text.drop ((parser.skip text).advance 1).pos) body rest := exists_lenient _
      obtain ⟨quoted, hkey, hquoted, hquotedok⟩ := parseString_lenient hquote' hbody
      have hquotedle : parser.pos ≤ (quoted.skip text).pos := by
        have hle := le_pos_colon text parser
        rwa [hkey] at hle
      by_cases hcolon : text[(quoted.skip text).pos]? = some (chr ':')
      · have hcolon' := eq_drop_of_getElem? hcolon
        cases hinner : parse strtod text ((quoted.skip text).advance 1) with | mk value inner => ?_
        have hle : (quoted.skip text).pos + 1 ≤ inner.pos := by
          have hle := le_pos_parse strtod text ((quoted.skip text).advance 1)
          rwa [hinner] at hle
        have hskip := le_pos_skip text inner
        rw [objectLoop_parse hquote' hkey hcolon' hinner] at h
        have hmember : inner.ok = true → parser.ok = true ∧ ∃ x, (lenient strtod).Member
            (text.drop parser.pos) (body, x) (text.drop inner.pos) ∧
            x.value dropBackslashes = value := by
          intro hinnerok
          obtain ⟨hparserok, x, hx, hvalue⟩ := hparse _ (by
            rw [JsonParser.pos_advance]
            omega) value inner hinner hinnerok
          rw [← hquoted] at hbody
          exact ⟨hquotedok.symm.trans hparserok, x, .mk (drop_skip.symm.trans hquote') hbody
            (drop_skip.symm.trans hcolon') hx, hvalue⟩
        split at h
        next hcomma =>
          have hcomma' := drop_skip.symm.trans (eq_drop_of_getElem? hcomma)
          obtain ⟨hinnerok, htail⟩ := objectLoop_sound ((inner.skip text).advance 1) _
            (fun later hlater => hparse later (by rw [JsonParser.pos_advance] at hlater; omega)) h
            hok
          obtain ⟨hparserok, x, hp, rfl⟩ := hmember hinnerok
          refine ⟨hparserok, Or.inr ?_⟩
          rcases htail with ⟨hnil, hvalues, hrest⟩ | ⟨ps, hps, hvalues⟩
          · rw [hnil] at hcomma'
            rw [hrest, hvalues]
            exact ⟨[(body, x)], .cut trivial hp hcomma', rfl⟩
          · exact ⟨(body, x) :: ps, .cons hp hcomma' hps, hvalues⟩
        next =>
          split at h
          next hbrace =>
            obtain ⟨rfl, rfl⟩ := Prod.mk.inj h
            obtain ⟨hparserok, x, hp, rfl⟩ := hmember hok
            have hbrace' := drop_skip.symm.trans (eq_drop_of_getElem? hbrace)
            exact ⟨hparserok, Or.inr ⟨[(body, x)], .last hp hbrace', rfl⟩⟩
          next =>
            obtain ⟨-, rfl⟩ := Prod.mk.inj h
            exact absurd hok Bool.false_ne_true
      · rw [objectLoop, if_pos hpos] at h
        simp only [if_pos hquote, hkey, if_neg hcolon] at h
        obtain ⟨-, rfl⟩ := Prod.mk.inj h
        exact absurd hok Bool.false_ne_true
    · rw [objectLoop, if_pos hpos] at h
      simp only [if_neg hquote] at h
      obtain ⟨-, rfl⟩ := Prod.mk.inj h
      exact absurd hok Bool.false_ne_true
termination_by text.length - parser.pos
decreasing_by
  exact length_sub_lt text hpos (by omega)

theorem parseWord_sound {word : Bytes} {value found : ValueTree} {next : JsonParser}
    (h : parseWord text word value parser = (found, next)) (hok : next.ok = true) :
    parser.ok = true ∧ text.drop parser.pos = word ++ text.drop next.pos ∧ value = found := by
  unfold parseWord at h
  split at h
  next hword =>
    obtain ⟨rfl, rfl⟩ := Prod.mk.inj h
    refine ⟨hok, ?_, rfl⟩
    rw [JsonParser.pos_advance, ← List.drop_drop]
    nth_rewrite 1 [← List.take_append_drop word.length (text.drop parser.pos)]
    rw [hword]
  next =>
    obtain ⟨-, rfl⟩ := Prod.mk.inj h
    exact absurd hok Bool.false_ne_true

/-- `parse_array`, where its loop has read the elements. -/
theorem parseArray_sound (hlt : parser.pos < text.length)
    (hparse : ∀ inner : JsonParser, parser.pos < inner.pos → Sound strtod text inner)
    {s : Bytes} (hdrop : text.drop parser.pos = chr '[' :: s)
    {value : ValueTree} {next : JsonParser}
    (h : parseArray strtod text parser hlt = (value, next)) (hok : next.ok = true) :
    parser.ok = true ∧ ∃ x, (lenient strtod).Value (chr '[' :: s) x (text.drop next.pos) ∧
      x.value dropBackslashes = value := by
  have hinside := drop_open hdrop
  have hskip := le_pos_skip text (parser.advance 1)
  rw [JsonParser.pos_advance] at hskip
  rw [parseArray] at h
  by_cases hclose : text[((parser.advance 1).skip text).pos]? = some (chr ']')
  · simp only [if_pos hclose] at h
    obtain ⟨rfl, rfl⟩ := Prod.mk.inj h
    exact ⟨hok, .array [], .array_empty (hinside.symm.trans (eq_drop_of_getElem? hclose)), rfl⟩
  · simp only [if_neg hclose] at h
    obtain ⟨rfl, rfl⟩ := Prod.mk.inj h
    obtain ⟨hparserok, htail⟩ := arrayLoop_sound ((parser.advance 1).skip text)
      (fun later hlater => hparse later (by omega)) rfl hok
    refine ⟨hparserok, ?_⟩
    rcases htail with ⟨hnil, hvalues, hrest⟩ | ⟨xs, hxs, hvalues⟩
    · rw [hrest, hvalues]
      exact ⟨.array [], .array_cut trivial (hinside.symm.trans hnil), rfl⟩
    · rw [hinside] at hxs
      rw [← List.head?_drop, hinside] at hclose
      exact ⟨.array xs, .array hclose hxs, by rw [Raw.value, hvalues]⟩

/-- `parse_object`, where its loop has read the members. -/
theorem parseObject_sound (hlt : parser.pos < text.length)
    (hparse : ∀ inner : JsonParser, parser.pos < inner.pos → Sound strtod text inner)
    {s : Bytes} (hdrop : text.drop parser.pos = chr '{' :: s)
    {value : ValueTree} {next : JsonParser}
    (h : parseObject strtod text parser hlt = (value, next)) (hok : next.ok = true) :
    parser.ok = true ∧ ∃ x, (lenient strtod).Value (chr '{' :: s) x (text.drop next.pos) ∧
      x.value dropBackslashes = value := by
  have hinside := drop_open hdrop
  have hskip := le_pos_skip text (parser.advance 1)
  rw [JsonParser.pos_advance] at hskip
  rw [parseObject] at h
  by_cases hclose : text[((parser.advance 1).skip text).pos]? = some (chr '}')
  · simp only [if_pos hclose] at h
    obtain ⟨rfl, rfl⟩ := Prod.mk.inj h
    exact ⟨hok, .object [], .object_empty (hinside.symm.trans (eq_drop_of_getElem? hclose)), rfl⟩
  · simp only [if_neg hclose] at h
    obtain ⟨rfl, rfl⟩ := Prod.mk.inj h
    obtain ⟨hparserok, htail⟩ := objectLoop_sound ((parser.advance 1).skip text) []
      (fun later hlater => hparse later (by omega)) rfl hok
    refine ⟨hparserok, ?_⟩
    rcases htail with ⟨hnil, hvalues, hrest⟩ | ⟨ps, hps, hvalues⟩
    · rw [hrest, hvalues]
      exact ⟨.object [], .object_cut trivial (hinside.symm.trans hnil), rfl⟩
    · rw [hinside] at hps
      exact ⟨.object ps, .object hps, by rw [Raw.value, hvalues]⟩

/-- The end of `parse`. -/
theorem parseNumber_sound {c : Byte} {s : Bytes} (hdrop : text.drop parser.pos = c :: s)
    (hother : c ∉ lit "\x7b[\"tfn") {value : ValueTree} {next : JsonParser}
    (h : parseNumber strtod text parser = (value, next)) (hok : next.ok = true) :
    parser.ok = true ∧ ∃ x, (lenient strtod).Value (c :: s) x (text.drop next.pos) ∧
      x.value dropBackslashes = value := by
  rw [parseNumber, hdrop] at h
  cases hread : strtod (c :: s) with | mk n count => ?_
  simp only [hread] at h
  split at h
  next =>
    obtain ⟨-, rfl⟩ := Prod.mk.inj h
    exact absurd hok Bool.false_ne_true
  next hcount =>
    obtain ⟨rfl, rfl⟩ := Prod.mk.inj h
    have hrest : text.drop (parser.advance count).pos = (c :: s).drop count := by
      rw [JsonParser.pos_advance, ← List.drop_drop, hdrop]
    exact ⟨hok, .number n, .number ⟨⟨c, rfl, hother⟩, count, hread, hcount, hrest⟩, rfl⟩

/-- **Where the parser succeeds, there is a value of the wider grammar**, and the parser returns
what it denotes without its backslashes. -/
theorem parse_sound (parser : JsonParser) : Sound strtod text parser := by
  intro value next h hok
  cases hdrop : (text.drop parser.pos).dropWhile isSpace with
  | nil =>
    rw [parse_end hdrop] at h
    obtain ⟨-, rfl⟩ := Prod.mk.inj h
    exact absurd hok Bool.false_ne_true
  | cons c s =>
    have hstart := drop_skip.trans hdrop
    have hlt := pos_lt_of_drop hstart
    have hle := le_pos_skip text parser
    have hinner : ∀ inner : JsonParser, (parser.skip text).pos < inner.pos →
        Sound strtod text inner := fun inner hpos => parse_sound inner
    rw [← parse_skip, parse_of_drop hstart (isSpace_of_dropWhile hdrop)] at h
    by_cases hbrace : c = chr '{'
    · rw [if_pos hbrace] at h
      subst hbrace
      exact parseObject_sound hlt hinner hstart h hok
    by_cases hbracket : c = chr '['
    · rw [if_neg hbrace, if_pos hbracket] at h
      subst hbracket
      exact parseArray_sound hlt hinner hstart h hok
    by_cases hquote : c = chr '"'
    · rw [if_neg hbrace, if_neg hbracket, if_pos hquote] at h
      subst hquote
      obtain ⟨rfl, rfl⟩ := Prod.mk.inj h
      obtain ⟨body, rest, hbody⟩ : ∃ body rest, (lenient strtod).string s body rest :=
        exists_lenient s
      obtain ⟨next, hstring, hnext, hnextok⟩ := parseString_lenient hstart hbody
      rw [hstring] at hok ⊢
      rw [← hnext] at hbody
      exact ⟨hnextok.symm.trans hok, .string body, .string hbody, rfl⟩
    by_cases ht : c = chr 't'
    · rw [if_neg hbrace, if_neg hbracket, if_neg hquote, if_pos ht] at h
      obtain ⟨hparserok, hword, rfl⟩ := parseWord_sound h hok
      rw [← hstart, hword]
      exact ⟨hparserok, .boolean true, .boolean_true _, rfl⟩
    by_cases hf : c = chr 'f'
    · rw [if_neg hbrace, if_neg hbracket, if_neg hquote, if_neg ht, if_pos hf] at h
      obtain ⟨hparserok, hword, rfl⟩ := parseWord_sound h hok
      rw [← hstart, hword]
      exact ⟨hparserok, .boolean false, .boolean_false _, rfl⟩
    by_cases hn : c = chr 'n'
    · rw [if_neg hbrace, if_neg hbracket, if_neg hquote, if_neg ht, if_neg hf, if_pos hn] at h
      obtain ⟨hparserok, hword, rfl⟩ := parseWord_sound h hok
      rw [← hstart, hword]
      exact ⟨hparserok, .null, .null _, rfl⟩
    rw [if_neg hbrace, if_neg hbracket, if_neg hquote, if_neg ht, if_neg hf, if_neg hn] at h
    have hother : c ∉ lit "\x7b[\"tfn" := by
      have hmem : c ∈ lit "\x7b[\"tfn" → c = chr '{' ∨ c = chr '[' ∨ c = chr '"' ∨ c = chr 't' ∨
          c = chr 'f' ∨ c = chr 'n' := by simp [lit]
      intro hc
      rcases hmem hc with hc | hc | hc | hc | hc | hc <;> contradiction
    exact parseNumber_sound hstart hother h hok
termination_by text.length - parser.pos
decreasing_by
  omega

/-! ## The wider grammar has all of JSON -/

/-- None of the bytes of another character is a quote or a backslash. -/
theorem mem_utf8 {n : ℕ} (hn : n < 0x110000) (hquote : n ≠ 0x22) (hslash : n ≠ 0x5c) {b : Byte}
    (hb : b ∈ utf8 n) : b ≠ chr '"' ∧ b ≠ chr '\\' := by
  have hbyte : ∀ m < 0x100, m ≠ 0x22 → m ≠ 0x5c →
      UInt8.ofNat m ≠ chr '"' ∧ UInt8.ofNat m ≠ chr '\\' := by
    intro m hm hmquote hmslash
    have htoNat : (UInt8.ofNat m).toNat = m := UInt8.toNat_ofNat_of_lt' hm
    exact ⟨fun h => hmquote (htoNat.symm.trans (congrArg UInt8.toNat h)),
      fun h => hmslash (htoNat.symm.trans (congrArg UInt8.toNat h))⟩
  unfold utf8 at hb
  split at hb
  · obtain rfl := List.mem_singleton.mp hb
    exact hbyte n (by omega) hquote hslash
  · split at hb
    · simp only [List.mem_cons, List.not_mem_nil, or_false] at hb
      rcases hb with rfl | rfl <;> exact hbyte _ (by omega) (by omega) (by omega)
    · split at hb
      · simp only [List.mem_cons, List.not_mem_nil, or_false] at hb
        rcases hb with rfl | rfl | rfl <;> exact hbyte _ (by omega) (by omega) (by omega)
      · simp only [List.mem_cons, List.not_mem_nil, or_false] at hb
        rcases hb with rfl | rfl | rfl | rfl <;> exact hbyte _ (by omega) (by omega) (by omega)

theorem Unquoted.append {rest bytes : Bytes} (h : Unquoted rest)
    (hbytes : ∀ b ∈ bytes, b ≠ chr '"' ∧ b ≠ chr '\\') : Unquoted (bytes ++ rest) := by
  induction bytes with
  | nil => exact h
  | cons b bytes ih =>
    have hb := hbytes b List.mem_cons_self
    exact .plain hb.1 hb.2 (ih fun c hc => hbytes c (List.mem_cons_of_mem b hc))

theorem hexDigit_ne : ∀ c : Byte, (hexDigit c).isSome = true → c ≠ chr '"' ∧ c ≠ chr '\\' :=
  forall_byte (by decide)

theorem hexValue_isSome {a b c d : Byte} (h : (hexValue a b c d).isSome) :
    ∀ e ∈ [a, b, c, d], (hexDigit e).isSome = true := by
  unfold hexValue at h
  cases ha : hexDigit a <;> cases hb : hexDigit b <;> cases hc : hexDigit c <;>
    cases hd : hexDigit d <;> simp_all

/-- A string of JSON has no quote but behind a backslash. -/
theorem JsonBody.unquoted {body : Bytes} (h : JsonBody body) : Unquoted body := by
  induction h with
  | nil => exact .nil
  | unescaped c hcontrol hquote hslash h ih =>
    have hquote' : c.toNat ≠ 0x22 := fun hc => hquote (Char.toNat_inj.mp hc)
    have hslash' : c.toNat ≠ 0x5c := fun hc => hslash (Char.toNat_inj.mp hc)
    have hlt : c.toNat < 0x110000 := by
      rcases c.valid with h | h
      · exact lt_trans h (by decide)
      · exact h.2
    exact ih.append fun b => mem_utf8 hlt hquote' hslash'
  | escape hc h ih => exact .escape _ ih
  | @unicode rest a b c d hhex h ih =>
    have hdigits : Unquoted ([a, b, c, d] ++ rest) :=
      ih.append fun e he => hexDigit_ne e (hexValue_isSome hhex e he)
    exact .escape _ hdigits

/-- `strtod` reads a number of JSON, where it ends. -/
def ReadsNumbers (strtod : Bytes → Number × ℕ) (round : ℚ → Number) : Prop :=
  ∀ (n : JsonNumber) (rest : Bytes), Follows rest →
    strtod (n.text ++ rest) = (round n.value, n.text.length)

/-- A number begins with a digit or a minus. -/
theorem JsonNumber.text_eq_cons (n : JsonNumber) :
    ∃ c tail, n.text = c :: tail ∧ isSpace c = false ∧ c ≠ chr ']' ∧ c ∉ lit "\x7b[\"tfn" := by
  have hdigit : ∀ c : Byte, c = chr '-' ∨ isDigit c = true →
      isSpace c = false ∧ c ≠ chr ']' ∧ c ∉ lit "\x7b[\"tfn" := forall_byte (by decide)
  unfold JsonNumber.text
  cases n.negative with
  | true => exact ⟨chr '-', _, rfl, hdigit _ (Or.inl rfl)⟩
  | false =>
    obtain ⟨c, int, hint⟩ := List.exists_cons_of_ne_nil n.int_ne_nil
    have hc := n.int_digits c (hint ▸ List.mem_cons_self)
    exact ⟨c, int ++ (n.fracText ++ n.expText), by rw [hint]; rfl, hdigit c (Or.inr hc)⟩

/-- A value of JSON begins with a character that is neither white space nor a closing bracket. -/
theorem value_eq_cons {s rest : Bytes} {x : Raw} (h : (rfc8259 round).Value s x rest) :
    ∃ c tail, s = c :: tail ∧ isSpace c = false ∧ c ≠ chr ']' := by
  cases h with
  | number h =>
    obtain ⟨n, rfl, -, -⟩ := h
    obtain ⟨c, tail, hcons, hspace, hbracket, -⟩ := n.text_eq_cons
    exact ⟨c, tail ++ rest, by rw [hcons, List.cons_append], hspace, hbracket⟩
  | _ => exact ⟨_, _, rfl, by decide, by decide⟩

/-- The spaces of JSON are white space. -/
theorem skip_eq {s rest : Bytes} {c : Byte} (h : (rfc8259 round).skip s = c :: rest)
    (hc : isSpace c = false) : (lenient strtod).skip s = c :: rest := by
  have hall : ∀ c : Byte, isJsonSpace c = true → isSpace c = true := forall_byte (by decide)
  have hwhile : s.dropWhile isJsonSpace = c :: rest := h
  show s.dropWhile isSpace = c :: rest
  induction s with
  | nil => cases hwhile
  | cons d s ih =>
    rw [List.dropWhile_cons] at hwhile ⊢
    split at hwhile
    next hd =>
      rw [if_pos (hall d hd)]
      exact ih hwhile hwhile
    next =>
      obtain ⟨rfl, rfl⟩ := List.cons.inj hwhile
      rw [if_neg (by rw [hc]; exact Bool.false_ne_true)]

theorem skip_value {s rest : Bytes} {x : Raw}
    (h : (rfc8259 round).Value ((rfc8259 round).skip s) x rest) :
    (lenient strtod).skip s = (rfc8259 round).skip s := by
  obtain ⟨c, tail, hcons, hspace, -⟩ := value_eq_cons h
  rw [hcons]
  exact skip_eq hcons hspace

theorem skip_elements {s rest : Bytes} {xs : List Raw}
    (h : (rfc8259 round).Elements ((rfc8259 round).skip s) xs rest) :
    (lenient strtod).skip s = (rfc8259 round).skip s := by
  have hvalue : ∀ {x t}, (rfc8259 round).Value ((rfc8259 round).skip ((rfc8259 round).skip s)) x t →
      (lenient strtod).skip s = (rfc8259 round).skip s := by
    intro x t hx
    rw [Lexis.skip, Lexis.skip, List.dropWhile_idempotent] at hx
    exact skip_value hx
  cases h with
  | last hx _ => exact hvalue hx
  | cut _ hx _ => exact hvalue hx
  | cons hx _ _ => exact hvalue hx

theorem skip_members {s rest : Bytes} {ps : List (Bytes × Raw)}
    (h : (rfc8259 round).Members ((rfc8259 round).skip s) ps rest) :
    (lenient strtod).skip s = (rfc8259 round).skip s := by
  have hmember : ∀ {p t}, (rfc8259 round).Member ((rfc8259 round).skip s) p t →
      (lenient strtod).skip s = (rfc8259 round).skip s := by
    intro p t hp
    cases hp with
    | mk hquote =>
      rw [Lexis.skip, Lexis.skip, List.dropWhile_idempotent] at hquote
      exact (skip_eq hquote (by decide)).trans hquote.symm
  cases h with
  | last hp _ => exact hmember hp
  | cut _ hp _ => exact hmember hp
  | cons hp _ _ => exact hmember hp

mutual

/-- A value of JSON is one of the wider grammar. -/
theorem lenient_value (hstrtod : ReadsNumbers strtod round) {s rest : Bytes} {x : Raw} :
    (rfc8259 round).Value s x rest → (lenient strtod).Value s x rest
  | .null rest => .null rest
  | .boolean_true rest => .boolean_true rest
  | .boolean_false rest => .boolean_false rest
  | .number ⟨n, hs, hfollows, hvalue⟩ => by
    obtain ⟨c, tail, hcons, -, -, hother⟩ := n.text_eq_cons
    refine .number ⟨⟨c, by rw [hs, hcons]; rfl, hother⟩, n.text.length, ?_, ?_, ?_⟩
    · rw [hs, hvalue, hstrtod n rest hfollows]
    · rw [hcons]
      exact Nat.succ_ne_zero _
    · rw [hs, List.drop_left]
  | .string ⟨hbody, hs⟩ => .string (Or.inl ⟨hbody.unquoted, hs⟩)
  | .array_empty h => .array_empty (skip_eq h (by decide))
  | .array_cut hcut _ => hcut.elim
  | .array hopen hxs => by
    have helements := lenient_elements hstrtod hxs
    rw [← skip_elements hxs] at hopen helements
    exact .array hopen helements
  | .object_empty h => .object_empty (skip_eq h (by decide))
  | .object_cut hcut _ => hcut.elim
  | .object hps => by
    have hmembers := lenient_members hstrtod hps
    rw [← skip_members hps] at hmembers
    exact .object hmembers

theorem lenient_elements (hstrtod : ReadsNumbers strtod round) {s rest : Bytes} {xs : List Raw} :
    (rfc8259 round).Elements s xs rest → (lenient strtod).Elements s xs rest
  | .last hx h => by
    have hvalue := lenient_value hstrtod hx
    rw [← skip_value hx] at hvalue
    exact .last hvalue (skip_eq h (by decide))
  | .cut hcut _ _ => hcut.elim
  | .cons hx h hxs => by
    have hvalue := lenient_value hstrtod hx
    rw [← skip_value hx] at hvalue
    exact .cons hvalue (skip_eq h (by decide)) (lenient_elements hstrtod hxs)

theorem lenient_member (hstrtod : ReadsNumbers strtod round) {s rest : Bytes} {p : Bytes × Raw} :
    (rfc8259 round).Member s p rest → (lenient strtod).Member s p rest
  | .mk hquote ⟨hbody, ht⟩ hcolon hx => by
    have hvalue := lenient_value hstrtod hx
    rw [← skip_value hx] at hvalue
    exact .mk (skip_eq hquote (by decide)) (Or.inl ⟨hbody.unquoted, ht⟩)
      (skip_eq hcolon (by decide)) hvalue

theorem lenient_members (hstrtod : ReadsNumbers strtod round) {s rest : Bytes}
    {ps : List (Bytes × Raw)} :
    (rfc8259 round).Members s ps rest → (lenient strtod).Members s ps rest
  | .last hp h => .last (lenient_member hstrtod hp) (skip_eq h (by decide))
  | .cut hcut _ _ => hcut.elim
  | .cons hp h hps =>
    .cons (lenient_member hstrtod hp) (skip_eq h (by decide)) (lenient_members hstrtod hps)

end

/-- **The wider grammar has all of JSON.** -/
theorem lenient_of_json (hstrtod : ReadsNumbers strtod round) {x : Raw}
    (h : (rfc8259 round).Text text x) : (lenient strtod).Text text x := by
  obtain ⟨rest, hx, -⟩ := h
  have hvalue := lenient_value hstrtod hx
  rw [← skip_value hx] at hvalue
  exact ⟨rest, hvalue, trivial⟩

/-! ## `JSON.parse` -/

theorem jsonParse_of_text {x : Raw} (h : (lenient strtod).Text text x) :
    jsonParse strtod [.string text] = x.value dropBackslashes := by
  obtain ⟨rest, hx, -⟩ := h
  obtain ⟨next, hparse, -, hok⟩ : ∃ next, parse strtod text {} =
      (x.value dropBackslashes, next) ∧ Left text {} next rest := parse_complete hx {} rfl
  simp only [jsonParse, ValueTree.toText, hparse, hok, if_true]

theorem text_of_jsonParse (h : jsonParse strtod [.string text] ≠ .undefined) :
    ∃ x, (lenient strtod).Text text x := by
  cases hparse : parse strtod text {} with | mk value next => ?_
  by_cases hok : next.ok = true
  · obtain ⟨-, x, hx, -⟩ := parse_sound {} value next hparse hok
    exact ⟨x, _, hx, trivial⟩
  · refine absurd ?_ h
    simp only [jsonParse, ValueTree.toText, hparse, if_neg hok]

variable (strtod round text) in
/-- `JSON.parse` returns a value, and not `undefined`, for the texts that are JSON, and for these
the value that they denote. -/
def AcceptsJson : Prop :=
  (jsonParse strtod [.string text] ≠ .undefined ↔ ∃ value, IsJson round text value) ∧
    ∀ value, IsJson round text value → jsonParse strtod [.string text] = value

end

/-- **`JSON.parse` accepts JSON and nothing else** where the text is JSON if it begins with a value
of the wider grammar, and denotes the same without the backslashes of its escapes. -/
theorem acceptsJson_iff {strtod : Bytes → Number × ℕ} {round : ℚ → Number}
    (hstrtod : ReadsNumbers strtod round) (text : Bytes) :
    AcceptsJson strtod round text ↔
      ((∃ x, (lenient strtod).Text text x) → ∃ x, (rfc8259 round).Text text x) ∧
        ∀ x, (rfc8259 round).Text text x → x.value dropBackslashes = x.value decode := by
  constructor
  · rintro ⟨haccepts, hvalue⟩
    refine ⟨fun ⟨x, hx⟩ => ?_, fun x hx => ?_⟩
    · obtain ⟨value, y, hy, -⟩ := haccepts.mp (by
        rw [jsonParse_of_text hx]
        exact x.value_ne_undefined _)
      exact ⟨y, hy⟩
    · rw [← jsonParse_of_text (lenient_of_json hstrtod hx)]
      exact hvalue _ ⟨x, hx, rfl⟩
  · rintro ⟨hjson, hdecode⟩
    have hvalue : ∀ value, IsJson round text value → jsonParse strtod [.string text] = value := by
      rintro value ⟨x, hx, rfl⟩
      rw [jsonParse_of_text (lenient_of_json hstrtod hx), hdecode x hx]
    refine ⟨⟨fun h => ?_, fun ⟨value, h⟩ => ?_⟩, hvalue⟩
    · obtain ⟨x, hx⟩ := hjson (text_of_jsonParse h)
      exact ⟨_, x, hx, rfl⟩
    · rw [hvalue value h]
      obtain ⟨x, -, rfl⟩ := h
      exact x.value_ne_undefined _

/-! ## A reader of numbers -/

/-- The fraction at the beginning of a text, and what is left behind it. -/
def readFrac : Bytes → Option Bytes × Bytes
  | [] => (none, [])
  | c :: s => if c = chr '.' then (some (s.takeWhile isDigit), s.dropWhile isDigit) else (none, c :: s)

/-- The sign of an exponent. -/
def readSign : Bytes → Bytes × Bytes
  | [] => ([], [])
  | c :: s => if c = chr '+' ∨ c = chr '-' then ([c], s) else ([], c :: s)

/-- The exponent at the beginning of a text, and what is left behind it. -/
def readExp : Bytes → Option (Byte × Bytes × Bytes) × Bytes
  | [] => (none, [])
  | c :: s =>
    let (sign, digits) := readSign s
    if (c = chr 'e' ∨ c = chr 'E') ∧ digits.takeWhile isDigit ≠ [] then
      (some (c, sign, digits.takeWhile isDigit), digits.dropWhile isDigit)
    else (none, c :: s)

/-- A number without its sign: what it denotes, and how long it is. -/
def readUnsigned (negative : Bool) (text : Bytes) : Number × ℕ :=
  let int := text.takeWhile isDigit
  if int = [] then (.finite 0, 0)
  else
    let (frac, s) := readFrac (text.dropWhile isDigit)
    let (exp, rest) := readExp s
    (.finite (decimalValue negative int (frac.getD [])
      ((exp.map fun e => e.2.1).getD [] == lit "-") ((exp.map fun e => e.2.2).getD [])),
      text.length - rest.length)

/-- What `strtod` does with a text that begins with a decimal number whose first digit stands
before the point, without rounding. -/
def readNumber : Bytes → Number × ℕ
  | [] => (.finite 0, 0)
  | c :: s =>
    if c = chr '-' then
      let (n, count) := readUnsigned true s
      (n, if count = 0 then 0 else count + 1)
    else readUnsigned false (c :: s)

theorem takeWhile_digits {digits rest : Bytes} (h : ∀ c ∈ digits, isDigit c = true)
    (hrest : ∀ c ∈ rest.head?, isDigit c = false) :
    (digits ++ rest).takeWhile isDigit = digits ∧ (digits ++ rest).dropWhile isDigit = rest := by
  have hnone : rest.takeWhile isDigit = [] ∧ rest.dropWhile isDigit = rest := by
    cases rest with
    | nil => exact ⟨rfl, rfl⟩
    | cons c rest => simp [hrest c rfl]
  rw [List.takeWhile_append_of_pos h, List.dropWhile_append_of_pos h, hnone.1, hnone.2,
    List.append_nil]
  exact ⟨rfl, rfl⟩

/-- The character behind a number is neither a digit, nor a point, nor the mark of an exponent. -/
theorem Follows.head {rest : Bytes} (h : Follows rest) {c : Byte} (hc : c ∈ rest.head?) :
    isDigit c = false ∧ c ≠ chr '.' ∧ ¬ (c = chr 'e' ∨ c = chr 'E') := by
  have hall : ∀ c : Byte, (isJsonSpace c = true ∨ c ∈ lit ",]\x7d") →
      isDigit c = false ∧ c ≠ chr '.' ∧ ¬ (c = chr 'e' ∨ c = chr 'E') :=
    forall_byte (by decide)
  exact hall c (h c hc)

theorem readExp_text (n : JsonNumber) {rest : Bytes} (h : Follows rest) :
    readExp (n.expText ++ rest) = (n.exp, rest) := by
  unfold JsonNumber.expText
  cases hexp : n.exp with
  | none =>
    cases rest with
    | nil => rfl
    | cons c rest =>
      have hc : ¬ (c = chr 'e' ∨ c = chr 'E') := (h.head rfl).2.2
      simp [readExp, hc]
  | some e =>
    obtain ⟨mark, sign, digits⟩ := e
    obtain ⟨hmark, hsign, hne, hdigits⟩ := n.exp_digits _ hexp
    obtain ⟨htake, hdrop⟩ := takeWhile_digits hdigits fun c hc => (h.head hc).1
    have hread : readSign (sign ++ (digits ++ rest)) = (sign, digits ++ rest) := by
      simp only [List.mem_cons, List.not_mem_nil, or_false] at hsign
      rcases hsign with rfl | rfl | rfl
      · obtain ⟨d, tail, rfl⟩ := List.exists_cons_of_ne_nil hne
        have hd : ∀ d : Byte, isDigit d = true → ¬ (d = chr '+' ∨ d = chr '-') :=
          forall_byte (by decide)
        exact if_neg (hd d (hdigits d List.mem_cons_self))
      · rfl
      · rfl
    have htext : mark :: (sign ++ digits) ++ rest = mark :: (sign ++ (digits ++ rest)) := by simp
    simp only [htext, readExp, hread, htake, hdrop]
    rw [if_pos ⟨hmark, hne⟩]

theorem head_expText (n : JsonNumber) {rest : Bytes} (h : Follows rest) {c : Byte}
    (hc : c ∈ (n.expText ++ rest).head?) : isDigit c = false ∧ c ≠ chr '.' := by
  unfold JsonNumber.expText at hc
  cases hexp : n.exp with
  | none =>
    rw [hexp] at hc
    exact ⟨(h.head hc).1, (h.head hc).2.1⟩
  | some e =>
    rw [hexp] at hc
    obtain ⟨hmark, -⟩ := n.exp_digits _ hexp
    obtain rfl : e.1 = c := Option.some.inj hc
    rcases hmark with hmark | hmark <;> rw [hmark] <;> decide

theorem readFrac_text (n : JsonNumber) {s : Bytes}
    (h : ∀ c ∈ s.head?, isDigit c = false ∧ c ≠ chr '.') :
    readFrac (n.fracText ++ s) = (n.frac, s) := by
  unfold JsonNumber.fracText
  cases hfrac : n.frac with
  | none =>
    cases s with
    | nil => rfl
    | cons c s => exact if_neg (h c rfl).2
  | some digits =>
    obtain ⟨htake, hdrop⟩ := takeWhile_digits (n.frac_digits _ hfrac).2 fun c hc => (h c hc).1
    simp only [List.cons_append, readFrac, if_true, htake, hdrop]

theorem head_fracText (n : JsonNumber) {s : Bytes} (h : ∀ c ∈ s.head?, isDigit c = false) {c : Byte}
    (hc : c ∈ (n.fracText ++ s).head?) : isDigit c = false := by
  unfold JsonNumber.fracText at hc
  cases hfrac : n.frac with
  | none =>
    rw [hfrac] at hc
    exact h c hc
  | some digits =>
    rw [hfrac] at hc
    obtain rfl : chr '.' = c := Option.some.inj hc
    decide

theorem readUnsigned_text (n : JsonNumber) (negative : Bool) {rest : Bytes} (h : Follows rest) :
    readUnsigned negative (n.int ++ (n.fracText ++ n.expText) ++ rest) =
      (.finite (decimalValue negative n.int (n.frac.getD [])
        ((n.exp.map fun e => e.2.1).getD [] == lit "-") ((n.exp.map fun e => e.2.2).getD [])),
        (n.int ++ (n.fracText ++ n.expText)).length) := by
  have hexphead : ∀ c ∈ (n.expText ++ rest).head?, isDigit c = false ∧ c ≠ chr '.' :=
    fun c hc => head_expText n h hc
  obtain ⟨htake, hdrop⟩ : (n.int ++ (n.fracText ++ (n.expText ++ rest))).takeWhile isDigit = n.int ∧
      (n.int ++ (n.fracText ++ (n.expText ++ rest))).dropWhile isDigit =
        n.fracText ++ (n.expText ++ rest) :=
    takeWhile_digits n.int_digits fun c hc => head_fracText n (fun c hc => (hexphead c hc).1) hc
  have hlength : (n.int ++ (n.fracText ++ (n.expText ++ rest))).length - rest.length =
      (n.int ++ (n.fracText ++ n.expText)).length := by
    simp only [List.length_append]
    omega
  rw [List.append_assoc, List.append_assoc]
  simp only [readUnsigned, htake, hdrop, if_neg n.int_ne_nil, readFrac_text n hexphead,
    readExp_text n h, hlength]

theorem readsNumbers_readNumber : ReadsNumbers readNumber .finite := by
  intro n rest hrest
  have hread := fun negative => readUnsigned_text n negative hrest
  unfold JsonNumber.text JsonNumber.value
  cases hnegative : n.negative with
  | true =>
    have hlength : (n.int ++ (n.fracText ++ n.expText)).length ≠ 0 := by
      rw [List.length_append, ← Nat.pos_iff_ne_zero]
      exact Nat.add_pos_left (List.length_pos_of_ne_nil n.int_ne_nil) _
    simp only [if_true, List.cons_append, List.nil_append, readNumber, hread, if_neg hlength,
      List.length_cons]
  | false =>
    obtain ⟨c, int, hint⟩ := List.exists_cons_of_ne_nil n.int_ne_nil
    have hminus : c ≠ chr '-' := by
      have hall : ∀ c : Byte, isDigit c = true → c ≠ chr '-' := forall_byte (by decide)
      exact hall c (n.int_digits c (hint ▸ List.mem_cons_self))
    have hfalse := hread false
    rw [hint] at hfalse ⊢
    simp only [Bool.false_eq_true, if_false, List.nil_append, List.cons_append, readNumber,
      if_neg hminus] at hfalse ⊢
    exact hfalse

/-- A number and a string with an escape. -/
theorem acceptsJson_iff_literal :
    AcceptsJson readNumber .finite (lit "[1.5e3, \"\\n\"]") ↔
      ((∃ x, (lenient readNumber).Text (lit "[1.5e3, \"\\n\"]") x) →
          ∃ x, (rfc8259 .finite).Text (lit "[1.5e3, \"\\n\"]") x) ∧
        ∀ x, (rfc8259 .finite).Text (lit "[1.5e3, \"\\n\"]") x →
          x.value dropBackslashes = x.value decode :=
  acceptsJson_iff readsNumbers_readNumber _

/-- Something stands behind the value. -/
theorem not_forall_acceptsJson : ¬ ∀ text, AcceptsJson readNumber .finite text := by
  intro h
  have hread : (lenient readNumber).Text (lit "null x") .null :=
    ⟨lit " x", .null _, trivial⟩
  obtain ⟨value, x, ⟨rest, hx, hbehind⟩, -⟩ := (h (lit "null x")).1.mp (by
    rw [jsonParse_of_text hread]
    exact Raw.value_ne_undefined _ _)
  obtain ⟨next, hparse, hnext, -⟩ : ∃ next, parse readNumber (lit "null x") {} =
      (Raw.null.value dropBackslashes, next) ∧ Left (lit "null x") {} next (lit " x") :=
    parse_complete (.null (lit " x")) {} (by decide)
  obtain ⟨next', hparse', hnext', -⟩ : ∃ next, parse readNumber (lit "null x") {} =
      (x.value dropBackslashes, next) ∧ Left (lit "null x") {} next rest :=
    parse_complete (lenient_value readsNumbers_readNumber hx) {} (by decide)
  have hnext_eq : next = next' := (Prod.mk.inj (hparse.symm.trans hparse')).2
  have hrest : rest = lit " x" := by rw [← hnext', ← hnext_eq, hnext]
  rw [hrest] at hbehind
  have hend : (lit " x").dropWhile isJsonSpace = [] := hbehind
  exact absurd hend (by decide)

end Aetheris.Js
