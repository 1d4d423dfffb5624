import Aetheris.Html.Serialize

/-!
# The tokens of written markup

Each scanner of the tokenizer stops at the character that its token was written to end with.
`Yields` says what the next token is and what is left of the text, and leaves open what is behind
the token; so the tokens of a written text are read one after the other.
-/

namespace Aetheris.Html

/-! ## Characters -/

/-- What is known of the characters of a written name. -/
theorem isTagNameChar_of_name :
    ∀ c : Byte, isLower c ∨ isDigit c ∨ c = chr '-' → isTagNameChar c ∧ ¬ isUpper c :=
  forall_byte (by decide)

theorem of_isLower : ∀ c : Byte, isLower c →
    isAlpha c ∧ c ≠ chr '/' ∧ c ≠ chr '!' ∧ ¬ isWhitespace c :=
  forall_byte (by decide)

theorem of_isAttributeNameChar : ∀ c : Byte, isAttributeNameChar c →
    ¬ isWhitespace c ∧ c ≠ chr '>' ∧ c ≠ chr '/' :=
  forall_byte (by decide)

theorem head_of_isElementName {name : Bytes} (h : IsElementName name) :
    ∃ c name', name = c :: name' ∧ isLower c := by
  obtain ⟨⟨c, hc, hlower⟩, -⟩ := h
  cases name with
  | nil => exact absurd hc (Option.not_mem_none c)
  | cons d name' =>
    rw [← Option.some.inj hc] at hlower
    exact ⟨d, name', rfl, hlower⟩

/-- A written name is not changed by the tokenizer. -/
theorem map_toLower_of_not_isUpper {name : Bytes} (h : ∀ c ∈ name, ¬ isUpper c) :
    name.map toLower = name := by
  refine (List.map_congr_left fun c hc => ?_).trans (List.map_id name)
  rw [toLower, if_neg (h c hc)]
  rfl

/-! ## What the scanners leave -/

namespace HtmlTokenizer

theorem eof_iff (t : HtmlTokenizer) : t.eof ↔ t.rest = [] := List.isEmpty_iff

/-- What the tokenizer looks at is read off what is left. -/
theorem peek_zero_of_cons {t : HtmlTokenizer} {c : Byte} {rest : Bytes} (h : t.rest = c :: rest) :
    t.peek 0 = c := by
  rw [peek, h]
  rfl

theorem peek_one_of_cons {t : HtmlTokenizer} {c d : Byte} {rest : Bytes}
    (h : t.rest = c :: d :: rest) : t.peek 1 = d := by
  rw [peek, h]
  rfl

/-- A loop of the tokenizer takes the longest stretch that passes its test. -/
theorem readWhile_eq (p : Byte → Bool) (t : HtmlTokenizer) :
    (readWhile (fun t => p (t.peek 0)) t).1 = t.rest.takeWhile p ∧
      (readWhile (fun t => p (t.peek 0)) t).2.rest = t.rest.dropWhile p := by
  induction t using readWhile.induct fun t => p (t.peek 0) with
  | case1 t h ih =>
    rw [readWhile, dif_pos h]
    have hne : t.rest ≠ [] := fun hnil => h.1 ((eof_iff t).mpr hnil)
    obtain ⟨c, rest, hrest⟩ := List.exists_cons_of_ne_nil hne
    have hc : t.peek 0 = c := peek_zero_of_cons hrest
    have hp : p c = true := hc ▸ h.2
    rw [rest_consume, hrest, List.tail_cons] at ih
    rw [hrest, List.takeWhile_cons_of_pos hp, List.dropWhile_cons_of_pos hp, hc]
    exact ⟨congrArg (c :: ·) ih.1, ih.2⟩
  | case2 t h =>
    rw [readWhile, dif_neg h]
    cases hrest : t.rest with
    | nil => exact ⟨rfl, rfl⟩
    | cons c rest =>
      have hp : ¬ p c = true := by
        intro hp
        refine h ⟨fun heof => ?_, (peek_zero_of_cons hrest).symm ▸ hp⟩
        rw [eof_iff, hrest] at heof
        exact List.cons_ne_nil _ _ heof
      rw [List.takeWhile_cons_of_neg hp, List.dropWhile_cons_of_neg hp]
      exact ⟨rfl, rfl⟩

theorem rest_skipWhitespace (t : HtmlTokenizer) :
    t.skipWhitespace.rest = t.rest.dropWhile isWhitespace :=
  (readWhile_eq isWhitespace t).2

@[simp] theorem emittedEof_skipWhitespace (t : HtmlTokenizer) :
    t.skipWhitespace.emittedEof = t.emittedEof :=
  emittedEof_readWhile _ t

theorem rest_skipWhitespace_of_cons {t : HtmlTokenizer} {c : Byte} {rest : Bytes}
    (h : t.rest = c :: rest) (hc : ¬ isWhitespace c) : t.skipWhitespace.rest = c :: rest := by
  rw [rest_skipWhitespace, h, List.dropWhile_cons_of_neg hc]

theorem rest_advanceText (t : HtmlTokenizer) (text : Bytes) :
    (t.advanceText text).rest = t.rest.drop text.length := by
  induction text generalizing t with
  | nil => rfl
  | cons c text ih =>
    refine (ih t.consume).trans ?_
    rw [rest_consume, ← List.drop_one, List.drop_drop, List.length_cons, Nat.add_comm]

@[simp] theorem emittedEof_advanceText (t : HtmlTokenizer) (text : Bytes) :
    (t.advanceText text).emittedEof = t.emittedEof := by
  induction text generalizing t with
  | nil => rfl
  | cons c text ih => exact (ih t.consume).trans (emittedEof_consume t)

/-- The loop reads a stretch whose characters pass the test up to one that does not. -/
theorem readWhile_stretch {p : Byte → Bool} {t : HtmlTokenizer} {s rest : Bytes}
    (h : t.rest = s ++ rest) (hs : ∀ c ∈ s, p c) (hrest : ∀ c ∈ rest.head?, ¬ p c) :
    (readWhile (fun t => p (t.peek 0)) t).1 = s ∧
      (readWhile (fun t => p (t.peek 0)) t).2.rest = rest := by
  rw [(readWhile_eq p t).1, (readWhile_eq p t).2, h, List.takeWhile_append_of_pos hs,
    List.dropWhile_append_of_pos hs]
  cases rest with
  | nil => exact ⟨List.append_nil s, rfl⟩
  | cons c rest =>
    have hc : ¬ p c = true := hrest c rfl
    rw [List.takeWhile_cons_of_neg hc, List.dropWhile_cons_of_neg hc]
    exact ⟨List.append_nil s, rfl⟩

/-! ## Tokens -/

/-- The next token, up to its place, and what it leaves. -/
structure Yields (t : HtmlTokenizer) (type : HtmlTokenType) (data : Bytes)
    (attributes : List (Bytes × Bytes)) (rest : Bytes) : Prop where
  type_eq : t.nextToken.1.type = type
  data_eq : t.nextToken.1.data = data
  attributes_eq : t.nextToken.1.attributes = attributes
  rest_eq : t.nextToken.2.rest = rest
  emittedEof : t.nextToken.2.emittedEof = false

/-- The end of the input. -/
theorem nextToken_eof {t : HtmlTokenizer} (h : t.rest = []) : t.nextToken.1.type = .eof := by
  rw [nextToken]
  split
  · rfl
  · rw [if_pos ((eof_iff t).mpr h)]
    rfl

section Tokens

variable {t : HtmlTokenizer} {rest : Bytes} (hemitted : t.emittedEof = false)

include hemitted

/-- A text ends before the next `<`. -/
theorem yields_text {data : Bytes} (h : t.rest = data ++ rest) (hne : data ≠ [])
    (hdata : chr '<' ∉ data) (hrest : ∀ c ∈ rest.head?, c = chr '<') :
    t.Yields .text data [] rest := by
  obtain ⟨c, data', rfl⟩ := List.exists_cons_of_ne_nil hne
  have hc : t.peek 0 ≠ chr '<' := by
    rw [peek_zero_of_cons h]
    exact fun hc => hdata (hc ▸ List.mem_cons_self)
  have heof : ¬ t.eof := by
    rw [eof_iff, h]
    exact List.cons_ne_nil _ _
  have hread := readWhile_stretch (p := (· != chr '<')) h
    (fun d hd => bne_iff_ne.mpr fun hlt => hdata (hlt ▸ hd))
    (fun d hd => by simp [hrest d hd])
  have hnext : t.nextToken = t.parseText := by
    rw [nextToken, hemitted, if_neg Bool.false_ne_true, if_neg heof, if_pos hc]
  refine ⟨?_, ?_, ?_, ?_, ?_⟩ <;> rw [hnext, parseText]
  · rfl
  · exact hread.1
  · rfl
  · exact hread.2
  · exact (emittedEof_readWhile _ t).trans hemitted

/-- The dispatch on a text that starts with `<`. -/
theorem nextToken_of_lt {s : Bytes} (h : t.rest = chr '<' :: s) :
    t.nextToken =
      if t.startsWith (lit "<!--") then t.parseComment t.line t.column
      else if t.startsWith (lit "<!DOCTYPE") || t.startsWith (lit "<!doctype") then
        t.parseDoctype t.line t.column
      else if t.peek 1 = chr '/' then t.parseTag true t.line t.column
      else if isAlpha (t.peek 1) then t.parseTag false t.line t.column
      else (makeToken .text (lit "<") t.line t.column, t.consume) := by
  have heof : ¬ t.eof := by
    rw [eof_iff, h]
    exact List.cons_ne_nil _ _
  rw [nextToken, hemitted, if_neg Bool.false_ne_true, if_neg heof,
    if_neg (not_not_intro (peek_zero_of_cons h))]

omit hemitted in
/-- The loop of `parse_comment` stops at the first `-->`. -/
theorem readWhile_comment {data : Bytes} (h : t.rest = data ++ (lit "-->" ++ rest))
    (hdata : ¬ lit "-->" <:+: data) :
    (readWhile (fun t => !t.startsWith (lit "-->")) t).1 = data ∧
      (readWhile (fun t => !t.startsWith (lit "-->")) t).2.rest = lit "-->" ++ rest := by
  induction data generalizing t with
  | nil =>
    have hstop : t.startsWith (lit "-->") = true := by
      rw [startsWith, h]
      rfl
    rw [readWhile, dif_neg (by rw [hstop]; simp)]
    exact ⟨rfl, h⟩
  | cons c data ih =>
    have heof : ¬ t.eof := by
      rw [eof_iff, h]
      exact List.cons_ne_nil _ _
    have hgo : t.startsWith (lit "-->") = false := by
      rw [startsWith, h]
      refine beq_false_of_ne fun htake => hdata ?_
      -- in the last two characters the closing `-->` is in the way
      rcases data with _ | ⟨d, _ | ⟨e, data⟩⟩
      · exact absurd htake (by simp [lit, chr])
      · exact absurd htake (by simp [lit, chr])
      · have hpre : lit "-->" = [c, d, e] := htake.symm
        rw [hpre]
        exact (List.prefix_append [c, d, e] data).isInfix
    have hread := ih (t := t.consume) (by rw [rest_consume, h]; rfl)
      (fun hdash => hdata (hdash.trans (List.suffix_cons c data).isInfix))
    rw [readWhile, dif_pos ⟨heof, by rw [hgo]; rfl⟩, peek_zero_of_cons h]
    exact ⟨congrArg (c :: ·) hread.1, hread.2⟩

/-- A comment gives its text back, if it does not contain its own end. -/
theorem yields_comment {data : Bytes} (h : t.rest = lit "<!--" ++ (data ++ (lit "-->" ++ rest)))
    (hdata : ¬ lit "-->" <:+: data) : t.Yields .comment data [] rest := by
  have hstart : t.startsWith (lit "<!--") = true := by
    rw [startsWith, h]
    rfl
  have hnext : t.nextToken = t.parseComment t.line t.column := by
    rw [nextToken_of_lt hemitted h, if_pos hstart]
  have hopen : (t.advanceText (lit "<!--")).rest = data ++ (lit "-->" ++ rest) := by
    rw [rest_advanceText, h]
    rfl
  have hread := readWhile_comment hopen hdata
  set s := (readWhile (fun t => !t.startsWith (lit "-->")) (t.advanceText (lit "<!--"))).2 with hs
  have hclose : s.startsWith (lit "-->") = true := by
    rw [startsWith, hread.2]
    rfl
  have hparse : t.parseComment t.line t.column =
      (makeToken .comment data t.line t.column, s.advanceText (lit "-->")) := by
    rw [parseComment]
    dsimp only
    rw [← hs, if_pos hclose, hread.1]
  refine ⟨?_, ?_, ?_, ?_, ?_⟩ <;> rw [hnext, hparse]
  · rfl
  · rfl
  · rfl
  · rw [rest_advanceText, hread.2]
    rfl
  · rw [emittedEof_advanceText, hs, emittedEof_readWhile, emittedEof_advanceText, hemitted]

/-- A doctype gives its text back, without the blanks around it. -/
theorem yields_doctype {data : Bytes}
    (h : t.rest = lit "<!DOCTYPE " ++ (data ++ (chr '>' :: rest))) (hdata : IsDoctype data) :
    t.Yields .doctype data [] rest := by
  obtain ⟨hchars, hhead, hlast⟩ := hdata
  have hnot : t.startsWith (lit "<!--") = false := by
    rw [startsWith, h]
    rfl
  have hstart : t.startsWith (lit "<!DOCTYPE") = true := by
    rw [startsWith, h]
    rfl
  have hnext : t.nextToken = t.parseDoctype t.line t.column := by
    rw [nextToken_of_lt hemitted h, hnot, if_neg Bool.false_ne_true, hstart, Bool.true_or,
      if_pos rfl]
  have hopen : (t.advanceText (lit "<!")).rest =
      lit "DOCTYPE" ++ (chr ' ' :: (data ++ (chr '>' :: rest))) := by
    rw [rest_advanceText, h]
    rfl
  have hword := readWhile_stretch hopen (p := isAlpha) (by decide) (by
    intro c hc
    rw [← Option.some.inj hc]
    decide)
  set s := (readWhile (fun t => isAlpha (t.peek 0)) (t.advanceText (lit "<!"))).2 with hs
  have hskip : s.skipWhitespace.rest = data ++ (chr '>' :: rest) := by
    rw [rest_skipWhitespace, hword.2, List.dropWhile_cons_of_pos (by decide)]
    cases data with
    | nil => exact List.dropWhile_cons_of_neg (by decide)
    | cons c data => exact List.dropWhile_cons_of_neg (hhead c rfl)
  have hread := readWhile_stretch hskip (p := (· != chr '>'))
    (fun c hc => bne_iff_ne.mpr (hchars c hc).1) (by
      intro c hc
      rw [← Option.some.inj hc]
      decide)
  have htrim : data.rdropWhile isWhitespace = data := by
    rw [List.rdropWhile_eq_self_iff]
    intro hne
    exact hlast _ (List.getLast?_eq_some_getLast hne)
  have hlower := map_toLower_of_not_isUpper fun c hc => (hchars c hc).2
  set u := (readWhile (fun t => t.peek 0 != chr '>') s.skipWhitespace).2 with hu
  have hgt : (!u.eof && u.peek 0 == chr '>') = true := by
    rw [peek_zero_of_cons hread.2, eof, hread.2]
    rfl
  have hparse : t.parseDoctype t.line t.column =
      (makeToken .doctype data t.line t.column, u.consume) := by
    rw [parseDoctype]
    dsimp only
    rw [← hs, ← hu, if_pos hgt, hread.1, htrim, hlower]
  refine ⟨?_, ?_, ?_, ?_, ?_⟩ <;> rw [hnext, hparse]
  · rfl
  · rfl
  · rfl
  · rw [rest_consume, hread.2]
    rfl
  · rw [emittedEof_consume, hu, emittedEof_readWhile, emittedEof_skipWhitespace, hs,
      emittedEof_readWhile, emittedEof_advanceText, hemitted]

/-! ## Tags -/

omit hemitted in
/-- The first attribute of a name is kept as it is written. -/
theorem insertOrAssign_of_not_mem {key value : Bytes} {entries : List (Bytes × Bytes)}
    (h : key ∉ entries.map Prod.fst) :
    insertOrAssign key value entries = entries ++ [(key, value)] := by
  induction entries with
  | nil => rfl
  | cons e entries ih =>
    rw [List.map_cons, List.mem_cons, not_or] at h
    rw [insertOrAssign, if_neg (Ne.symm h.1), ih h.2, List.cons_append]

omit hemitted in
/-- The value of an attribute in double quotes. -/
theorem parseAttributeValue_quoted {value : Bytes}
    (h : t.rest = chr '=' :: chr '"' :: (value ++ (chr '"' :: rest))) (hvalue : chr '"' ∉ value) :
    t.parseAttributeValue.1 = value ∧ t.parseAttributeValue.2.rest = rest ∧
      t.parseAttributeValue.2.emittedEof = t.emittedEof := by
  have hconsume : t.consume.rest = chr '"' :: (value ++ (chr '"' :: rest)) := by
    rw [rest_consume, h]
    rfl
  have hskip := rest_skipWhitespace_of_cons hconsume (by decide)
  have hquote : t.consume.skipWhitespace.peek 0 = chr '"' := peek_zero_of_cons hskip
  have hbody : t.consume.skipWhitespace.consume.rest = value ++ (chr '"' :: rest) := by
    rw [rest_consume, hskip]
    rfl
  have hread := readWhile_stretch hbody (p := (· != chr '"'))
    (fun c hc => bne_iff_ne.mpr fun hq => hvalue (hq ▸ hc)) (by
      intro c hc
      rw [← Option.some.inj hc]
      decide)
  rw [parseAttributeValue, if_pos (peek_zero_of_cons h)]
  dsimp only
  rw [if_pos (Or.inl hquote), hquote]
  set s := (readWhile (fun t => t.peek 0 != chr '"') t.consume.skipWhitespace.consume).2 with hs
  have hne : (!s.eof) = true := by
    rw [eof, hread.2]
    rfl
  rw [if_pos hne]
  refine ⟨hread.1, ?_, ?_⟩
  · rw [rest_consume, hread.2]
    rfl
  · rw [emittedEof_consume, hs, emittedEof_readWhile, emittedEof_consume,
      emittedEof_skipWhitespace, emittedEof_consume]

omit hemitted in
/-- The attributes of a tag, up to its `>`. -/
theorem parseAttributes_written (token : HtmlToken) (attributes : List (Bytes × Bytes))
    (h : t.rest = attributes.flatMap attributeText ++ (chr '>' :: rest))
    (hok : ∀ entry ∈ attributes, IsAttributeName entry.1 ∧ chr '"' ∉ entry.2)
    (hnodup : ((token.attributes ++ attributes).map Prod.fst).Nodup) :
    (t.parseAttributes token).1 =
        { token with attributes := token.attributes ++ attributes } ∧
      (t.parseAttributes token).2.rest = rest ∧
      (t.parseAttributes token).2.emittedEof = t.emittedEof := by
  induction attributes generalizing t token with
  | nil =>
    have hskip := rest_skipWhitespace_of_cons h (by decide)
    have heof : ¬ t.eof := by
      rw [eof_iff, h]
      exact List.cons_ne_nil _ _
    rw [parseAttributes, dif_neg heof]
    dsimp only
    rw [if_pos (peek_zero_of_cons hskip)]
    refine ⟨?_, ?_, ?_⟩
    · rw [List.append_nil]
    · rw [rest_consume, hskip]
      rfl
    · rw [emittedEof_consume, emittedEof_skipWhitespace]
  | cons entry attributes ih =>
    obtain ⟨name, value⟩ := entry
    obtain ⟨⟨hne, hchars⟩, hvalue⟩ := hok (name, value) List.mem_cons_self
    dsimp only at hne hchars hvalue
    obtain ⟨c, name', hname⟩ := List.exists_cons_of_ne_nil hne
    have hc := of_isAttributeNameChar c (hchars c (hname ▸ List.mem_cons_self)).1
    set tail := attributes.flatMap attributeText ++ (chr '>' :: rest) with htail
    have hrest : t.rest = chr ' ' ::
        (name ++ (chr '=' :: chr '"' :: (value ++ (chr '"' :: tail)))) := by
      rw [h, List.flatMap_cons, attributeText]
      simp [htail, List.append_assoc]
    have heof : ¬ t.eof := by
      rw [eof_iff, hrest]
      exact List.cons_ne_nil _ _
    have hskip : t.skipWhitespace.rest =
        name ++ (chr '=' :: chr '"' :: (value ++ (chr '"' :: tail))) := by
      rw [rest_skipWhitespace, hrest, List.dropWhile_cons_of_pos (by decide), hname]
      exact List.dropWhile_cons_of_neg hc.1
    have hpeek : t.skipWhitespace.peek 0 = c := by
      rw [hname] at hskip
      exact peek_zero_of_cons hskip
    have hread := readWhile_stretch hskip (p := isAttributeNameChar)
      (fun c hc => (hchars c hc).1) (by
        intro c hc
        rw [← Option.some.inj hc]
        decide)
    have hlower := map_toLower_of_not_isUpper fun c hc => (hchars c hc).2
    have hafter := rest_skipWhitespace_of_cons hread.2 (by decide)
    obtain ⟨hv, hvrest, hvemitted⟩ := parseAttributeValue_quoted hafter hvalue
    have hnew : name ∉ token.attributes.map Prod.fst := by
      rw [List.map_append, List.map_cons] at hnodup
      exact fun hmem => List.disjoint_of_nodup_append hnodup hmem List.mem_cons_self
    have hassoc : token.attributes ++ (name, value) :: attributes =
        (token.attributes ++ [(name, value)]) ++ attributes := by
      rw [List.append_assoc]
      rfl
    rw [hassoc] at hnodup ⊢
    have hih := ih { token with attributes := token.attributes ++ [(name, value)] } hvrest
      (fun e he => hok e (List.mem_cons_of_mem _ he)) hnodup
    rw [parseAttributes, dif_neg heof]
    dsimp only
    rw [if_neg (hpeek ▸ hc.2.1), if_neg fun hslash => hc.2.2 (hpeek ▸ hslash.1),
      dif_neg (hread.1.symm ▸ hne), hread.1, hlower, hv, insertOrAssign_of_not_mem hnew]
    refine ⟨hih.1, hih.2.1, hih.2.2.trans ?_⟩
    rw [hvemitted, emittedEof_skipWhitespace, emittedEof_readWhile, emittedEof_skipWhitespace]

omit hemitted in
/-- The name of a tag, after its `<` or `</`. -/
theorem readWhile_name {name : Bytes} {d : Byte} (hname : IsElementName name)
    (h : t.rest = name ++ (d :: rest)) (hd : ¬ isTagNameChar d) :
    (readWhile (fun t => isTagNameChar (t.peek 0)) t.skipWhitespace).1 = name ∧
      (readWhile (fun t => isTagNameChar (t.peek 0)) t.skipWhitespace).2.rest = d :: rest := by
  obtain ⟨c, name', hcons, hc⟩ := head_of_isElementName hname
  have hskip : t.skipWhitespace.rest = name ++ (d :: rest) := by
    rw [hcons] at h ⊢
    exact rest_skipWhitespace_of_cons h (of_isLower c hc).2.2.2
  refine readWhile_stretch hskip (fun c hc => (isTagNameChar_of_name c (hname.2 c hc)).1) ?_
  intro e he
  rw [← Option.some.inj he]
  exact hd

/-- A start tag gives its name and its attributes back, in order. -/
theorem yields_startTag {name : Bytes} {attributes : List (Bytes × Bytes)}
    (h : t.rest = chr '<' :: (name ++ (attributes.flatMap attributeText ++ (chr '>' :: rest))))
    (hname : IsElementName name)
    (hok : ∀ entry ∈ attributes, IsAttributeName entry.1 ∧ chr '"' ∉ entry.2)
    (hnodup : (attributes.map Prod.fst).Nodup) :
    t.Yields .startTag name attributes rest := by
  obtain ⟨c, name', hcons, hc⟩ := head_of_isElementName hname
  obtain ⟨halpha, hslash, hbang, hspace⟩ := of_isLower c hc
  have hsecond : t.peek 1 = c := by
    rw [hcons] at h
    exact peek_one_of_cons h
  have hstarts : ∀ s : Bytes, t.startsWith (chr '<' :: chr '!' :: s) = false := by
    intro s
    rw [startsWith, h, hcons]
    refine beq_false_of_ne fun heq => hbang ?_
    have htail := (List.cons.inj heq).2
    exact (List.cons.inj htail).1
  have hnext : t.nextToken = t.parseTag false t.line t.column := by
    rw [nextToken_of_lt hemitted h, show lit "<!--" = chr '<' :: chr '!' :: lit "--" from rfl,
      show lit "<!DOCTYPE" = chr '<' :: chr '!' :: lit "DOCTYPE" from rfl,
      show lit "<!doctype" = chr '<' :: chr '!' :: lit "doctype" from rfl,
      hstarts, hstarts, hstarts, hsecond, if_neg hslash, if_pos halpha]
    rfl
  have hconsume : t.consume.rest =
      name ++ (attributes.flatMap attributeText ++ (chr '>' :: rest)) := by
    rw [rest_consume, h]
    rfl
  obtain ⟨d, s, hds, hd⟩ : ∃ d s, attributes.flatMap attributeText ++ (chr '>' :: rest) = d :: s ∧
      ¬ isTagNameChar d := by
    cases attributes with
    | nil => exact ⟨chr '>', rest, rfl, by decide⟩
    | cons entry attributes => exact ⟨chr ' ', _, rfl, by decide⟩
  have hread := readWhile_name hname (hds ▸ hconsume) hd
  rw [← hds] at hread
  have hlower := map_toLower_of_not_isUpper fun c hc => (isTagNameChar_of_name c (hname.2 c hc)).2
  have hattributes := parseAttributes_written (makeToken .startTag name t.line t.column) attributes
    hread.2 hok hnodup
  have hparse : t.parseTag false t.line t.column =
      (readWhile (fun t => isTagNameChar (t.peek 0)) t.consume.skipWhitespace).2.parseAttributes
        (makeToken .startTag name t.line t.column) := by
    rw [parseTag]
    dsimp only
    rw [Bool.false_and, if_neg Bool.false_ne_true, if_neg Bool.false_ne_true,
      if_neg Bool.false_ne_true, hread.1, hlower]
  refine ⟨?_, ?_, ?_, ?_, ?_⟩ <;> rw [hnext, hparse]
  · rw [hattributes.1]
    rfl
  · rw [hattributes.1]
    rfl
  · rw [hattributes.1]
    rfl
  · exact hattributes.2.1
  · rw [hattributes.2.2, emittedEof_readWhile, emittedEof_skipWhitespace, emittedEof_consume,
      hemitted]

theorem yields_endTag {name : Bytes} (h : t.rest = chr '<' :: chr '/' :: (name ++ (chr '>' :: rest)))
    (hname : IsElementName name) : t.Yields .endTag name [] rest := by
  have hslash : t.consume.peek 0 = chr '/' := by
    have hconsume : t.consume.rest = chr '/' :: (name ++ (chr '>' :: rest)) := by
      rw [rest_consume, h]
      rfl
    exact peek_zero_of_cons hconsume
  have hstarts : ∀ s : Bytes, t.startsWith (chr '<' :: chr '!' :: s) = false := by
    intro s
    rw [startsWith, h]
    refine beq_false_of_ne fun heq => ?_
    have htail := (List.cons.inj heq).2
    exact absurd (List.cons.inj htail).1 (by decide)
  have hnext : t.nextToken = t.parseTag true t.line t.column := by
    rw [nextToken_of_lt hemitted h, show lit "<!--" = chr '<' :: chr '!' :: lit "--" from rfl,
      show lit "<!DOCTYPE" = chr '<' :: chr '!' :: lit "DOCTYPE" from rfl,
      show lit "<!doctype" = chr '<' :: chr '!' :: lit "doctype" from rfl,
      hstarts, hstarts, hstarts, if_pos (peek_one_of_cons h)]
    rfl
  have hopen : t.consume.consume.rest = name ++ (chr '>' :: rest) := by
    rw [rest_consume, rest_consume, h]
    rfl
  have hread := readWhile_name hname hopen (by decide)
  set s := (readWhile (fun t => isTagNameChar (t.peek 0)) t.consume.consume.skipWhitespace).2
    with hs
  have hlower := map_toLower_of_not_isUpper fun c hc => (isTagNameChar_of_name c (hname.2 c hc)).2
  have hclose := readWhile_stretch (s := []) (p := (· != chr '>')) hread.2
    (fun c hc => absurd hc List.not_mem_nil) (by
      intro c hc
      rw [← Option.some.inj hc]
      decide)
  set u := (readWhile (fun t => t.peek 0 != chr '>') s).2 with hu
  have hne : (!u.eof) = true := by
    rw [eof, hclose.2]
    rfl
  have hparse : t.parseTag true t.line t.column =
      (makeToken .endTag name t.line t.column, u.consume) := by
    rw [parseTag]
    dsimp only
    rw [hslash, if_pos (show (true && chr '/' == chr '/') = true from rfl), ← hs,
      if_pos rfl, if_pos rfl, ← hu, if_pos hne, hread.1, hlower]
  refine ⟨?_, ?_, ?_, ?_, ?_⟩ <;> rw [hnext, hparse]
  · rfl
  · rfl
  · rfl
  · rw [rest_consume, hclose.2]
    rfl
  · rw [emittedEof_consume, hu, emittedEof_readWhile, hs, emittedEof_readWhile,
      emittedEof_skipWhitespace, emittedEof_consume, emittedEof_consume, hemitted]

end Tokens

end HtmlTokenizer

end Aetheris.Html
