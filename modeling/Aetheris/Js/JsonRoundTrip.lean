import Aetheris.Js.Json

/-!
# What is written as JSON is read back

A plain value is made of null, truth values, integers of up to fifteen digits, strings, arrays, and
objects with their properties in order.  `parse_string` undoes `json_escape` for every byte string,
and a written value is read back wherever it stands, by induction on the value.
-/

namespace Aetheris.Js

/-- A finite tree of nulls, booleans, strings, integers below `10 ^ 15`, arrays and plain objects;
the keys of an object are in the order of `std::map`. -/
inductive Plain : ValueTree → Prop
  | null : Plain .null
  | boolean (value : Bool) : Plain (.boolean value)
  | integer (n : ℤ) (h : |n| < 10 ^ 15) : Plain (.number (.finite n))
  | string (value : Bytes) : Plain (.string value)
  | array (elements : List ValueTree) (h : ∀ element ∈ elements, Plain element) :
      Plain (.array elements)
  | object (properties : List (Bytes × ValueTree))
      (sorted : properties.Pairwise fun p q => p.1 < q.1)
      (h : ∀ property ∈ properties, Plain property.2) : Plain (.object properties)

/-- What may stand behind a written value: nothing, or a separator. -/
def Stops (rest : Bytes) : Prop :=
  ∀ c ∈ rest.head?, c = chr ',' ∨ c = chr ']' ∨ c = chr '}'

/-- `strtod` reads back a printed integer below `10 ^ 15` and stops behind it. -/
def ReadsIntegers (strtod : Bytes → Number × ℕ) : Prop :=
  ∀ (n : ℤ) (rest : Bytes), |n| < 10 ^ 15 → Stops rest →
    strtod (decimal n ++ rest) = (.finite n, (decimal n).length)

theorem stops_nil : Stops [] := by simp [Stops]

theorem stops_comma (rest : Bytes) : Stops (chr ',' :: rest) := by simp [Stops]

theorem stops_bracket (rest : Bytes) : Stops (chr ']' :: rest) := by simp [Stops]

theorem stops_brace (rest : Bytes) : Stops (chr '}' :: rest) := by simp [Stops]

/-! ## Strings -/

/-- A character is written as it is, or behind a backslash as one that stands for it. -/
theorem escapeChar_cases : ∀ c : Byte,
    (escapeChar c = [c] ∧ c ≠ chr '"' ∧ c ≠ chr '\\') ∨
      ∃ d ∈ lit "\"\\ntr", escapeChar c = [chr '\\', d] ∧ unescape d = c :=
  forall_byte (by decide)

/-- One escaped character is read as the character. -/
theorem stringBody_escapeChar (c d : Byte) (rest : Bytes) :
    stringBody (escapeChar c ++ d :: rest) =
      (c :: (stringBody (d :: rest)).1, (escapeChar c).length + (stringBody (d :: rest)).2) := by
  rcases escapeChar_cases c with ⟨hplain, hquote, hslash⟩ | ⟨e, -, hescape, hback⟩
  · rw [hplain, List.singleton_append, stringBody, if_neg hquote, if_neg hslash,
      List.length_singleton, Nat.add_comm 1]
  · rw [hescape, List.cons_append, List.singleton_append, stringBody, if_neg (by decide),
      if_pos rfl, hback, Nat.add_comm]
    rfl

/-- **`parse_string` undoes `json_escape`**, for every byte string. -/
theorem stringBody_escape (value rest : Bytes) :
    stringBody (value.flatMap escapeChar ++ chr '"' :: rest) =
      (value, (value.flatMap escapeChar).length) := by
  induction value with
  | nil =>
    cases rest with
    | nil => simp [stringBody]
    | cons d rest => simp [stringBody]
  | cons c value ih =>
    obtain ⟨d, tail, htail⟩ : ∃ d tail,
        value.flatMap escapeChar ++ chr '"' :: rest = d :: tail :=
      List.exists_cons_of_ne_nil (by simp)
    rw [List.flatMap_cons, List.append_assoc, htail, stringBody_escapeChar, ← htail, ih,
      List.length_append]

/-! ## Places in the text -/

section

variable {strtod : Bytes → Number × ℕ} {text : Bytes} {parser : JsonParser}

theorem pos_lt_of_drop {c : Byte} {rest : Bytes} (h : text.drop parser.pos = c :: rest) :
    parser.pos < text.length := by
  by_contra hlt
  rw [List.drop_eq_nil_of_le (not_lt.mp hlt)] at h
  cases h

theorem getElem?_of_drop {c : Byte} {rest : Bytes} (h : text.drop parser.pos = c :: rest) :
    text[parser.pos]? = some c := by
  rw [← List.head?_drop, h]
  rfl

theorem drop_advance {word rest : Bytes} (h : text.drop parser.pos = word ++ rest) :
    text.drop (parser.advance word.length).pos = rest := by
  rw [JsonParser.pos_advance, ← List.drop_drop, h, List.drop_left]

theorem drop_advance_one {c : Byte} {rest : Bytes} (h : text.drop parser.pos = c :: rest) :
    text.drop (parser.advance 1).pos = rest :=
  drop_advance (show text.drop parser.pos = [c] ++ rest from h)

theorem skip_of_drop {c : Byte} {rest : Bytes} (h : text.drop parser.pos = c :: rest)
    (hc : isSpace c = false) : parser.skip text = parser := by
  unfold JsonParser.skip
  rw [h, List.takeWhile_cons, hc]
  rfl

/-- `parse` at a place where something stands that is not white space. -/
theorem parse_of_drop {c : Byte} {rest : Bytes} (h : text.drop parser.pos = c :: rest)
    (hc : isSpace c = false) :
    parse strtod text parser =
      if c = chr '{' then parseObject strtod text parser (pos_lt_of_drop h)
      else if c = chr '[' then parseArray strtod text parser (pos_lt_of_drop h)
      else if c = chr '"' then
        (.string (parseString text parser).1, (parseString text parser).2)
      else if c = chr 't' then parseWord text (lit "true") (.boolean true) parser
      else if c = chr 'f' then parseWord text (lit "false") (.boolean false) parser
      else if c = chr 'n' then parseWord text (lit "null") .null parser
      else parseNumber strtod text parser := by
  have hlt := pos_lt_of_drop h
  have hget : text[parser.pos] = c := by
    have hsome := getElem?_of_drop h
    rwa [List.getElem?_eq_getElem (pos_lt_of_drop h), Option.some.injEq] at hsome
  rw [parse]
  simp only [skip_of_drop h hc, dif_pos (pos_lt_of_drop h), hget]

theorem parseWord_of_drop {word rest : Bytes} (value : ValueTree)
    (h : text.drop parser.pos = word ++ rest) :
    parseWord text word value parser = (value, parser.advance word.length) := by
  unfold parseWord
  rw [h, List.take_left, if_pos rfl]

theorem parseString_of_drop {value rest : Bytes}
    (h : text.drop parser.pos = jsonEscape value ++ rest) :
    parseString text parser = (value, parser.advance (jsonEscape value).length) := by
  have hbody : text.drop (parser.pos + 1) = value.flatMap escapeChar ++ chr '"' :: rest := by
    have hopen : text.drop parser.pos =
        chr '"' :: (value.flatMap escapeChar ++ chr '"' :: rest) := by
      rw [h, jsonEscape, List.cons_append, List.append_assoc, List.singleton_append]
    exact drop_advance_one hopen
  unfold parseString
  rw [hbody, stringBody_escape, jsonEscape, List.length_cons, List.length_append,
    List.length_singleton]

/-! ## The first character -/

/-- A written value begins with a character that is neither white space nor a closing bracket. -/
theorem jsonWrite_eq_cons {value : ValueTree} (h : Plain value) :
    ∃ c rest, jsonWrite value = c :: rest ∧ isSpace c = false ∧ c ≠ chr ']' := by
  have hdigit : ∀ c : Byte, c = chr '-' ∨ isDigit c = true → isSpace c = false ∧ c ≠ chr ']' :=
    forall_byte (by decide)
  cases h with
  | null => exact ⟨_, _, by rw [jsonWrite]; rfl, by decide, by decide⟩
  | boolean value =>
    cases value with
    | false => exact ⟨_, _, by rw [jsonWrite]; rfl, by decide, by decide⟩
    | true => exact ⟨_, _, by rw [jsonWrite]; rfl, by decide, by decide⟩
  | integer n hn =>
    obtain ⟨c, rest, hcons, hc⟩ := decimal_eq_cons n
    exact ⟨c, rest, by rw [jsonWrite, numberToString_int hn, hcons], hdigit c hc⟩
  | string value => exact ⟨_, _, by rw [jsonWrite, jsonEscape], by decide, by decide⟩
  | array elements _ => exact ⟨_, _, by rw [jsonWrite], by decide, by decide⟩
  | object properties _ _ => exact ⟨_, _, by rw [jsonWrite], by decide, by decide⟩

/-! ## Leaves -/

theorem parse_integer (hread : ReadsIntegers strtod) {n : ℤ} (hn : |n| < 10 ^ 15) {rest : Bytes}
    (hrest : Stops rest) (h : text.drop parser.pos = decimal n ++ rest) :
    parse strtod text parser = (.number (.finite n), parser.advance (decimal n).length) := by
  have hpunctuation : ∀ c : Byte, c = chr '-' ∨ isDigit c = true →
      isSpace c = false ∧ c ≠ chr '{' ∧ c ≠ chr '[' ∧ c ≠ chr '"' := forall_byte (by decide)
  have hletter : ∀ c : Byte, c = chr '-' ∨ isDigit c = true →
      c ≠ chr 't' ∧ c ≠ chr 'f' ∧ c ≠ chr 'n' := forall_byte (by decide)
  obtain ⟨c, tail, hcons, hc⟩ := decimal_eq_cons n
  obtain ⟨hspace, hbrace, hbracket, hquote⟩ := hpunctuation c hc
  obtain ⟨ht, hf, hn'⟩ := hletter c hc
  have hlength : (decimal n).length ≠ 0 := by rw [hcons]; simp
  have hdrop : text.drop parser.pos = c :: (tail ++ rest) := by rw [h, hcons, List.cons_append]
  rw [parse_of_drop hdrop hspace, if_neg hbrace, if_neg hbracket, if_neg hquote, if_neg ht,
    if_neg hf, if_neg hn', parseNumber, h, hread n rest hn hrest]
  exact if_neg hlength

theorem parse_string {value rest : Bytes} (h : text.drop parser.pos = jsonEscape value ++ rest) :
    parse strtod text parser = (.string value, parser.advance (jsonEscape value).length) := by
  have hdrop : text.drop parser.pos =
      chr '"' :: (value.flatMap escapeChar ++ [chr '"'] ++ rest) := by
    rw [h, jsonEscape, List.cons_append]
  rw [parse_of_drop hdrop (by decide), if_neg (by decide), if_neg (by decide), if_pos rfl,
    parseString_of_drop h]

/-! ## Arrays and objects -/

variable (strtod) in
/-- A value is read back wherever it is written. -/
def ReadsBack (value : ValueTree) : Prop :=
  ∀ (text : Bytes) (parser : JsonParser) (rest : Bytes), Stops rest →
    text.drop parser.pos = jsonWrite value ++ rest →
    parse strtod text parser = (value, parser.advance (jsonWrite value).length)

theorem writeElements_cons (element : ValueTree) (elements : List ValueTree) :
    writeElements true (element :: elements) = jsonWrite element ++ writeElements false elements := by
  simp [writeElements]

theorem writeElements_false_cons (element : ValueTree) (elements : List ValueTree) :
    writeElements false (element :: elements) =
      chr ',' :: writeElements true (element :: elements) := by
  simp [writeElements]

/-- One round of the loop of `parse_array`, over an element and the separator behind it. -/
theorem arrayLoop_step {element : ValueTree} (hplain : Plain element)
    (hread : ReadsBack strtod element) {c : Byte} {rest : Bytes}
    (hc : c = chr ',' ∨ c = chr ']') (h : text.drop parser.pos = jsonWrite element ++ c :: rest) :
    arrayLoop strtod text parser =
      if c = chr ',' then
        (element :: (arrayLoop strtod text (parser.advance ((jsonWrite element).length + 1))).1,
          (arrayLoop strtod text (parser.advance ((jsonWrite element).length + 1))).2)
      else ([element], parser.advance ((jsonWrite element).length + 1)) := by
  obtain ⟨d, tail, hcons, -, -⟩ := jsonWrite_eq_cons hplain
  have hpos : parser.pos < text.length :=
    pos_lt_of_drop (show text.drop parser.pos = d :: (tail ++ c :: rest) by
      rw [h, hcons, List.cons_append])
  have hstops : Stops (c :: rest) := by
    rcases hc with rfl | rfl
    · exact stops_comma rest
    · exact stops_bracket rest
  have hspace : isSpace c = false := by
    rcases hc with rfl | rfl <;> decide
  have hnext := drop_advance h
  rw [arrayLoop, if_pos hpos]
  simp only [hread text parser (c :: rest) hstops h, skip_of_drop hnext hspace,
    getElem?_of_drop hnext, Option.some.injEq, JsonParser.advance_advance]
  rw [if_pos (by simp)]
  rcases hc with rfl | rfl
  · simp
  · rw [if_neg (by decide), if_pos rfl, if_neg (by decide)]

/-- **The loop of `parse_array` reads what the loop of `json_write` has written.** -/
theorem arrayLoop_writeElements {element : ValueTree} {elements : List ValueTree}
    (hplain : ∀ e ∈ element :: elements, Plain e)
    (hread : ∀ e ∈ element :: elements, ReadsBack strtod e) {rest : Bytes}
    (h : text.drop parser.pos = writeElements true (element :: elements) ++ chr ']' :: rest) :
    arrayLoop strtod text parser =
      (element :: elements,
        parser.advance ((writeElements true (element :: elements)).length + 1)) := by
  induction elements generalizing element parser with
  | nil =>
    rw [writeElements_cons, writeElements, List.append_nil] at h ⊢
    rw [arrayLoop_step (hplain element (by simp)) (hread element (by simp)) (Or.inr rfl) h,
      if_neg (by decide)]
  | cons next elements ih =>
    rw [writeElements_cons, writeElements_false_cons] at h ⊢
    have hhead : text.drop parser.pos =
        jsonWrite element ++ chr ',' :: (writeElements true (next :: elements) ++
          chr ']' :: rest) := by
      rw [h, List.append_assoc, List.cons_append]
    have htail := drop_advance_one (drop_advance hhead)
    rw [JsonParser.advance_advance] at htail
    have hloop := ih (fun e he => hplain e (List.mem_cons_of_mem _ he))
      (fun e he => hread e (List.mem_cons_of_mem _ he)) htail
    rw [arrayLoop_step (hplain element (by simp)) (hread element (by simp)) (Or.inl rfl) hhead,
      if_pos rfl, hloop, JsonParser.advance_advance, List.length_append, List.length_cons]
    simp only [Nat.add_assoc, Nat.add_comm]

theorem isFunction_of_plain {value : ValueTree} (h : Plain value) : value.isFunction = false := by
  cases h <;> rfl

theorem writeProperties_cons {key : Bytes} {value : ValueTree} (h : Plain value)
    (properties : List (Bytes × ValueTree)) :
    writeProperties true ((key, value) :: properties) =
      jsonEscape key ++ chr ':' :: (jsonWrite value ++ writeProperties false properties) := by
  simp [writeProperties, isFunction_of_plain h]

theorem writeProperties_false_cons {key : Bytes} {value : ValueTree} (h : Plain value)
    (properties : List (Bytes × ValueTree)) :
    writeProperties false ((key, value) :: properties) =
      chr ',' :: writeProperties true ((key, value) :: properties) := by
  simp [writeProperties, isFunction_of_plain h]

/-- A key behind all others is put at the end. -/
theorem setProperty_append {key : Bytes} (value : ValueTree)
    {properties : List (Bytes × ValueTree)} (h : ∀ p ∈ properties, p.1 < key) :
    setProperty key value properties = properties ++ [(key, value)] := by
  induction properties with
  | nil => rfl
  | cons p properties ih =>
    have hkey : p.1 < key := h p (by simp)
    rw [setProperty, if_neg (List.lt_asymm hkey), if_pos hkey,
      ih fun q hq => h q (List.mem_cons_of_mem _ hq), List.cons_append]

/-- One round of the loop of `parse_object`, over a property and the separator behind it. -/
theorem objectLoop_step {found : List (Bytes × ValueTree)} {key : Bytes} {value : ValueTree}
    (hread : ReadsBack strtod value) {c : Byte} {rest : Bytes}
    (hc : c = chr ',' ∨ c = chr '}')
    (h : text.drop parser.pos = jsonEscape key ++ chr ':' :: (jsonWrite value ++ c :: rest)) :
    objectLoop strtod text found parser =
      if c = chr ',' then
        objectLoop strtod text (setProperty key value found)
          (parser.advance ((jsonEscape key).length + 1 + (jsonWrite value).length + 1))
      else
        (setProperty key value found,
          parser.advance ((jsonEscape key).length + 1 + (jsonWrite value).length + 1)) := by
  have hquote : text.drop parser.pos =
      chr '"' :: (key.flatMap escapeChar ++ [chr '"'] ++ chr ':' ::
        (jsonWrite value ++ c :: rest)) := by
    rw [h, jsonEscape, List.cons_append]
  have hcolon := drop_advance h
  have hvalue := drop_advance_one hcolon
  have hnext := drop_advance hvalue
  have hstops : Stops (c :: rest) := by
    rcases hc with rfl | rfl
    · exact stops_comma rest
    · exact stops_brace rest
  have hspace : isSpace c = false := by
    rcases hc with rfl | rfl <;> decide
  rw [objectLoop, if_pos (pos_lt_of_drop hquote)]
  simp only [skip_of_drop hquote (by decide), getElem?_of_drop hquote, parseString_of_drop h,
    skip_of_drop hcolon (by decide), getElem?_of_drop hcolon, if_true,
    hread text _ (c :: rest) hstops hvalue, skip_of_drop hnext hspace, getElem?_of_drop hnext,
    Option.some.injEq]
  simp only [JsonParser.advance_advance]
  rw [if_pos (by simp only [JsonParser.pos_advance]; omega)]
  rcases hc with rfl | rfl
  · simp
  · rw [if_neg (by decide), if_pos rfl, if_neg (by decide)]

/-- **The loop of `parse_object` reads what the loop of `json_write` has written.** -/
theorem objectLoop_writeProperties {found : List (Bytes × ValueTree)} {key : Bytes}
    {value : ValueTree} {properties : List (Bytes × ValueTree)}
    (hsorted : (found ++ (key, value) :: properties).Pairwise fun p q => p.1 < q.1)
    (hplain : ∀ p ∈ (key, value) :: properties, Plain p.2)
    (hread : ∀ p ∈ (key, value) :: properties, ReadsBack strtod p.2) {rest : Bytes}
    (h : text.drop parser.pos =
      writeProperties true ((key, value) :: properties) ++ chr '}' :: rest) :
    objectLoop strtod text found parser =
      (found ++ (key, value) :: properties,
        parser.advance ((writeProperties true ((key, value) :: properties)).length + 1)) := by
  have hset : setProperty key value found = found ++ [(key, value)] :=
    setProperty_append value fun p hp =>
      (List.pairwise_append.mp hsorted).2.2 p hp (key, value) (by simp)
  have hvalue := hplain (key, value) (by simp)
  have hback := hread (key, value) (by simp)
  induction properties generalizing found key value parser with
  | nil =>
    rw [writeProperties_cons hvalue, writeProperties, List.append_nil] at h ⊢
    rw [List.append_assoc, List.cons_append] at h
    have hlength : (jsonEscape key).length + 1 + (jsonWrite value).length + 1 =
        (jsonEscape key ++ chr ':' :: jsonWrite value).length + 1 := by
      simp
      omega
    rw [objectLoop_step hback (Or.inr rfl) h, if_neg (by decide), hset, hlength]
  | cons next properties ih =>
    obtain ⟨nextKey, nextValue⟩ := next
    have hnext : Plain nextValue := hplain (nextKey, nextValue) (by simp)
    rw [writeProperties_cons hvalue, writeProperties_false_cons hnext] at h ⊢
    have hhead : text.drop parser.pos =
        jsonEscape key ++ chr ':' :: (jsonWrite value ++ chr ',' ::
          (writeProperties true ((nextKey, nextValue) :: properties) ++ chr '}' :: rest)) := by
      rw [h]
      simp
    have htail := drop_advance_one (drop_advance (drop_advance_one (drop_advance hhead)))
    simp only [JsonParser.advance_advance] at htail
    rw [objectLoop_step hback (Or.inl rfl) hhead, if_pos rfl, hset]
    rw [List.append_cons] at hsorted
    rw [ih hsorted (fun p hp => hplain p (List.mem_cons_of_mem _ hp))
      (fun p hp => hread p (List.mem_cons_of_mem _ hp)) htail ?_ hnext
      (hread (nextKey, nextValue) (by simp))]
    · have hlength : (jsonEscape key).length + 1 + (jsonWrite value).length + 1 +
            ((writeProperties true ((nextKey, nextValue) :: properties)).length + 1) =
          (jsonEscape key ++ chr ':' :: (jsonWrite value ++ chr ',' ::
            writeProperties true ((nextKey, nextValue) :: properties))).length + 1 := by
        simp
        omega
      rw [JsonParser.advance_advance, hlength, ← List.append_cons]
    · exact setProperty_append _ fun p hp =>
        (List.pairwise_append.mp hsorted).2.2 p hp (nextKey, nextValue) (by simp)

/-! ## Values -/

/-- **A written value is read back wherever it stands**, by induction on the value: the loops of
the parser ask the same of the elements and of the properties. -/
theorem parse_jsonWrite (hread : ReadsIntegers strtod) {value : ValueTree} (h : Plain value) :
    ReadsBack strtod value := by
  induction h with
  | null =>
    intro text parser rest _ h
    rw [jsonWrite] at h ⊢
    have hcons : text.drop parser.pos = chr 'n' :: (lit "ull" ++ rest) := h
    rw [parse_of_drop hcons (by decide), if_neg (by decide), if_neg (by decide),
      if_neg (by decide), if_neg (by decide), if_neg (by decide), if_pos rfl,
      parseWord_of_drop _ h]
  | boolean value =>
    intro text parser rest _ h
    cases value with
    | false =>
      rw [jsonWrite, if_neg (by decide)] at h ⊢
      have hcons : text.drop parser.pos = chr 'f' :: (lit "alse" ++ rest) := h
      rw [parse_of_drop hcons (by decide),
        if_neg (by decide), if_neg (by decide), if_neg (by decide), if_neg (by decide),
        if_pos rfl, parseWord_of_drop _ h]
    | true =>
      rw [jsonWrite, if_pos rfl] at h ⊢
      have hcons : text.drop parser.pos = chr 't' :: (lit "rue" ++ rest) := h
      rw [parse_of_drop hcons (by decide),
        if_neg (by decide), if_neg (by decide), if_neg (by decide), if_pos rfl,
        parseWord_of_drop _ h]
  | integer n hn =>
    intro text parser rest hrest h
    rw [jsonWrite, numberToString_int hn] at h ⊢
    exact parse_integer hread hn hrest h
  | string value =>
    intro text parser rest _ h
    rw [jsonWrite] at h ⊢
    exact parse_string h
  | array elements hplain ih =>
    intro text parser rest _ h
    rw [jsonWrite]
    rw [jsonWrite, List.cons_append] at h
    rw [parse_of_drop h (by decide), if_neg (by decide), if_pos rfl, parseArray]
    have hinside := drop_advance_one h
    cases elements with
    | nil =>
      rw [writeElements, List.nil_append] at hinside ⊢
      simp only [skip_of_drop hinside (by decide), getElem?_of_drop hinside, if_true]
      rfl
    | cons element elements =>
      rw [List.append_assoc, List.singleton_append] at hinside
      obtain ⟨c, tail, hcons, hspace, hc⟩ := jsonWrite_eq_cons (hplain element (by simp))
      have hfirst : text.drop (parser.advance 1).pos =
          c :: (tail ++ writeElements false elements ++ chr ']' :: rest) := by
        rw [hinside, writeElements_cons, hcons]
        simp
      simp only [skip_of_drop hfirst hspace, getElem?_of_drop hfirst, Option.some.injEq, if_neg hc,
        arrayLoop_writeElements hplain ih hinside, JsonParser.advance_advance]
      simp [Nat.add_comm]
  | object properties sorted hplain ih =>
    intro text parser rest _ h
    rw [jsonWrite]
    rw [jsonWrite, List.cons_append] at h
    rw [parse_of_drop h (by decide), if_pos rfl, parseObject]
    have hinside := drop_advance_one h
    cases properties with
    | nil =>
      rw [writeProperties, List.nil_append] at hinside ⊢
      simp only [skip_of_drop hinside (by decide), getElem?_of_drop hinside, if_true]
      rfl
    | cons property properties =>
      obtain ⟨key, value⟩ := property
      rw [List.append_assoc, List.singleton_append] at hinside
      have hfirst : ∃ tail, text.drop (parser.advance 1).pos = chr '"' :: tail := by
        rw [hinside, writeProperties_cons (hplain (key, value) (by simp)), jsonEscape]
        simp only [List.cons_append]
        exact ⟨_, rfl⟩
      obtain ⟨tail, hfirst⟩ := hfirst
      simp only [skip_of_drop hfirst (by decide), getElem?_of_drop hfirst, Option.some.injEq]
      rw [if_neg (by decide), objectLoop_writeProperties sorted hplain ih hinside]
      simp [Nat.add_comm]

/-- **JSON round trip**: a plain value that is stringified and parsed is the value again, and the
parser ends at the end of the text, with nothing gone wrong. -/
theorem jsonParse_jsonStringify (hread : ReadsIntegers strtod) {value : ValueTree}
    (h : Plain value) :
    parse strtod (jsonWrite value) {} = (value, { pos := (jsonWrite value).length, ok := true }) ∧
      jsonParse strtod [jsonStringify [value]] = value := by
  have hparse : parse strtod (jsonWrite value) {} =
      (value, { pos := (jsonWrite value).length, ok := true }) := by
    rw [parse_jsonWrite hread h (jsonWrite value) {} [] stops_nil (by simp)]
    simp [JsonParser.advance]
  refine ⟨hparse, ?_⟩
  rw [jsonStringify, List.headD_cons, jsonParse, ValueTree.toText, hparse]
  rfl

end

/-! ## A reader of integers -/

/-- The number that is written with these digits. -/
def ofDigits (digits : Bytes) : ℕ := digits.foldl (fun n c => 10 * n + (c.toNat - 0x30)) 0

/-- What `strtod` does with a text that begins with an integer. -/
def readInteger (text : Bytes) : Number × ℕ :=
  let digits := (if text.head? = some (chr '-') then text.tail else text).takeWhile isDigit
  if digits = [] then (.finite 0, 0)
  else if text.head? = some (chr '-') then (.finite (-ofDigits digits), digits.length + 1)
  else (.finite (ofDigits digits), digits.length)

theorem ofDigits_natDecimal (n : ℕ) : ofDigits (natDecimal n) = n := by
  rw [natDecimal]
  split
  next h => simp [ofDigits, toNat_digitChar h]
  next h =>
    have hfirst := ofDigits_natDecimal (n / 10)
    unfold ofDigits at hfirst ⊢
    rw [List.foldl_append, hfirst, List.foldl_cons, List.foldl_nil,
      toNat_digitChar (Nat.mod_lt n (by decide)), Nat.div_add_mod]
termination_by n
decreasing_by omega

theorem takeWhile_natDecimal (n : ℕ) {rest : Bytes} (h : Stops rest) :
    (natDecimal n ++ rest).takeWhile isDigit = natDecimal n := by
  have hrest : rest.takeWhile isDigit = [] := by
    cases rest with
    | nil => rfl
    | cons c rest =>
      have hc : isDigit c = false := by
        rcases h c (by simp) with rfl | rfl | rfl <;> decide
      rw [List.takeWhile_cons, hc]
      rfl
  rw [List.takeWhile_append_of_pos fun c hc => isDigit_of_mem_natDecimal n hc, hrest,
    List.append_nil]

/-- The first digit of a number is not a sign. -/
theorem head?_natDecimal_append_ne (n : ℕ) (rest : Bytes) :
    (natDecimal n ++ rest).head? ≠ some (chr '-') := by
  obtain ⟨c, tail, hcons⟩ := List.exists_cons_of_ne_nil (natDecimal_ne_nil n)
  have hdigit := isDigit_of_mem_natDecimal n (c := c) (by simp [hcons])
  rw [hcons, List.cons_append, List.head?_cons]
  rintro ⟨rfl⟩
  exact absurd hdigit (by decide)

theorem readsIntegers_readInteger : ReadsIntegers readInteger := by
  intro n rest _ hrest
  have hne := natDecimal_ne_nil n.natAbs
  unfold decimal
  split
  next hneg =>
    have habs : -((n.natAbs : ℚ)) = n := by
      rw [Nat.cast_natAbs, abs_of_neg hneg, Int.cast_neg, neg_neg]
    simp only [readInteger, List.cons_append, List.head?_cons, if_true, List.tail_cons,
      takeWhile_natDecimal n.natAbs hrest, hne, if_false, ofDigits_natDecimal, habs,
      List.length_cons]
  next hneg =>
    have habs : (n.natAbs : ℚ) = n := by
      rw [Nat.cast_natAbs, abs_of_nonneg (not_lt.mp hneg)]
    simp only [readInteger, head?_natDecimal_append_ne, if_false,
      takeWhile_natDecimal n.natAbs hrest, hne, ofDigits_natDecimal, habs]

/-- An object with an array, a string that has to be escaped and a negative number comes back. -/
theorem jsonParse_jsonStringify_object :
    let value := ValueTree.object
      [(lit "a", .array [.number (.finite 1), .string (lit "\"\n"), .boolean true]),
        (lit "b", .number (.finite (-20)))]
    parse readInteger (jsonWrite value) {} =
        (value, { pos := (jsonWrite value).length, ok := true }) ∧
      jsonParse readInteger [jsonStringify [value]] = value := by
  refine jsonParse_jsonStringify readsIntegers_readInteger (Plain.object _ (by decide) ?_)
  have hone : Plain (.number (.finite 1)) := by exact_mod_cast Plain.integer 1 (by decide)
  have htwenty : Plain (.number (.finite (-20))) := by
    exact_mod_cast Plain.integer (-20) (by decide)
  have harray : Plain (.array [.number (.finite 1), .string (lit "\"\n"), .boolean true]) := by
    refine Plain.array _ ?_
    simp [hone, Plain.string, Plain.boolean]
  simp [harray, htwenty]

end Aetheris.Js
