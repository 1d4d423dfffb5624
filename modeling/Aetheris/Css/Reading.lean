import Aetheris.Css.Parser

/-!
# What the CSS parser reads

Without quotes, the tokens of a text are the text without its comments, cut into pieces, and the
characters that the parser stops at are tokens of their own.

`Commented` relates a text to one with comments in it, and is read from the left as the tokenizer
reads.  Every scanner of the parser looks for a token of `stopOf`, so it suffices that all other
tokens are `Plain`: then a scanner stops where the text has the character (`exists_split_of_join`).
That nothing is lost is `tokenize_lossless`, for every text.
-/

namespace Aetheris.Css

/-! ## Comments -/

/-- A text, and the same text with comments put into it. -/
inductive Commented : Bytes → Bytes → Prop
  | nil : Commented [] []
  | comment {u t : Bytes} (comment : Bytes) (hcomment : ¬ lit "*/" <:+: comment)
      (h : Commented u t) : Commented u (lit "/*" ++ comment ++ lit "*/" ++ t)
  | char {u t : Bytes} (c : Byte) (hc : ¬ (c = chr '/' ∧ t.head? = some (chr '*')))
      (h : Commented u t) : Commented (c :: u) (c :: t)

theorem not_commentStart {c : Byte} {t : Bytes} (h : ¬ lit "/*" <:+: c :: t) :
    ¬ (c = chr '/' ∧ t.head? = some (chr '*')) := by
  rintro ⟨rfl, hhead⟩
  cases t with
  | nil => cases hhead
  | cons d t =>
    obtain rfl : d = chr '*' := Option.some.inj hhead
    exact h ⟨[], t, rfl⟩

/-- A text in which no comment begins. -/
theorem Commented.refl {t : Bytes} (h : ¬ lit "/*" <:+: t) : Commented t t := by
  induction t with
  | nil => exact .nil
  | cons c t ih =>
    exact .char c (not_commentStart h)
      (ih fun hinfix => h (List.infix_cons_iff.mpr (Or.inr hinfix)))

theorem skipComment_append {comment : Bytes} (hcomment : ¬ lit "*/" <:+: comment) (t : Bytes) :
    skipComment (comment ++ lit "*/" ++ t) = t := by
  induction comment with
  | nil => rfl
  | cons c comment ih =>
    have hstart : ¬ (c = chr '*' ∧ (comment ++ lit "*/" ++ t).head? = some (chr '/')) := by
      rintro ⟨rfl, hhead⟩
      cases comment with
      | nil => exact absurd (Option.some.inj hhead) (by decide)
      | cons d comment =>
        obtain rfl : d = chr '/' := Option.some.inj hhead
        exact hcomment ⟨[], comment, rfl⟩
    rw [List.cons_append, List.cons_append, skipComment, if_neg hstart]
    exact ih fun h => hcomment (h.trans (List.infix_cons_iff.mpr (Or.inr List.infix_rfl)))

/-- A comment does not stand between the characters that are read together. -/
theorem Commented.takeWhile {p : Byte → Bool} (hp : p (chr '/') = false) {u t : Bytes}
    (h : Commented u t) :
    ∃ u', u = t.takeWhile p ++ u' ∧ Commented u' (t.dropWhile p) := by
  induction h with
  | nil => exact ⟨[], rfl, .nil⟩
  | @comment u t comment hcomment h ih =>
    refine ⟨u, ?_, ?_⟩
    · show u = ((chr '/' :: _ : Bytes).takeWhile p) ++ u
      rw [List.takeWhile_cons_of_neg (Bool.eq_false_iff.mp hp), List.nil_append]
    · have hdrop : (lit "/*" ++ comment ++ lit "*/" ++ t).dropWhile p =
          lit "/*" ++ comment ++ lit "*/" ++ t :=
        List.dropWhile_cons_of_neg (Bool.eq_false_iff.mp hp)
      rw [hdrop]
      exact .comment comment hcomment h
  | @char u t c hc h ih =>
    by_cases hpc : p c = true
    · obtain ⟨u', hu, h'⟩ := ih
      rw [List.takeWhile_cons_of_pos hpc, List.dropWhile_cons_of_pos hpc]
      exact ⟨u', congrArg _ hu, h'⟩
    · rw [List.takeWhile_cons_of_neg hpc, List.dropWhile_cons_of_neg hpc]
      exact ⟨c :: u, rfl, .char c hc h⟩

/-! ## Tokens -/

/-- The characters that the parser stops at. -/
def stopOf : CssTokenType → Option Byte
  | .colon => some (chr ':')
  | .semicolon => some (chr ';')
  | .comma => some (chr ',')
  | .openBrace => some (chr '\x7b')
  | .closeBrace => some (chr '\x7d')
  | _ => none

@[simp] theorem stopOf_colon : stopOf .colon = some (chr ':') := rfl

@[simp] theorem stopOf_semicolon : stopOf .semicolon = some (chr ';') := rfl

@[simp] theorem stopOf_comma : stopOf .comma = some (chr ',') := rfl

@[simp] theorem stopOf_openBrace : stopOf .openBrace = some (chr '\x7b') := rfl

@[simp] theorem stopOf_closeBrace : stopOf .closeBrace = some (chr '\x7d') := rfl

/-- All of them. -/
def stops : Bytes := lit ":;,\x7b\x7d"

/-- A token that the parser stops at, or a text without the characters that it stops at. -/
def Plain (token : CssToken) : Prop :=
  match stopOf token.type with
  | some c => token.value = [c]
  | none => token.type ≠ .endOfFile ∧ (∀ c ∈ token.value, c ∉ stops) ∧
    (token.type = .whitespace → ∀ c ∈ token.value, isSpace c = true)

/-- A text without quotes. -/
def Unquoted (text : Bytes) : Prop := ∀ c ∈ text, ¬ (c = 0x22 ∨ c = 0x27)

theorem not_mem_stops_of {p : Byte → Bool} (hp : ∀ c ∈ stops, p c = false) {c : Byte}
    (hc : p c = true) : c ∉ stops := fun hmem => Bool.eq_false_iff.mp (hp c hmem) hc

/-- A text of characters that the parser does not stop at. -/
theorem plain_of_forall {type : CssTokenType} {value : Bytes} (hstop : stopOf type = none)
    (htype : type ≠ .endOfFile) {p : Byte → Bool} (hp : ∀ c ∈ stops, p c = false)
    (hvalue : ∀ c ∈ value, p c = true)
    (hblank : type = .whitespace → ∀ c ∈ value, isSpace c = true) : Plain ⟨type, value⟩ := by
  unfold Plain
  simp only [hstop]
  exact ⟨htype, fun c hc => not_mem_stops_of hp (hvalue c hc), hblank⟩

theorem plain_delimiter (c : Byte) : Plain ⟨delimiterType c, [c]⟩ := by
  by_cases hmem : c ∈ lit ":;,\x7b\x7d()>*"
  · have hall : ∀ c ∈ lit ":;,\x7b\x7d()>*", stopOf (delimiterType c) = some c ∨
        stopOf (delimiterType c) = none ∧ delimiterType c ≠ .endOfFile ∧ c ∉ stops ∧
          delimiterType c ≠ .whitespace := by
      decide
    unfold Plain
    rcases hall c hmem with hstop | ⟨hstop, htype, hc, hblank⟩
    · simp only [hstop]
    · simp only [hstop]
      exact ⟨htype, fun d hd => List.mem_singleton.mp hd ▸ hc, fun h => absurd h hblank⟩
  · have hne (d : Byte) (hd : d ∈ lit ":;,\x7b\x7d()>*") : c ≠ d := fun heq => hmem (heq ▸ hd)
    have htype : delimiterType c = .delimiter := by
      simp only [delimiterType, hne (chr ':') (by decide), hne (chr ';') (by decide),
        hne (chr ',') (by decide), hne (chr '\x7b') (by decide), hne (chr '\x7d') (by decide),
        hne (chr '(') (by decide), hne (chr ')') (by decide), hne (chr '>') (by decide),
        hne (chr '*') (by decide), if_false]
    rw [htype]
    refine ⟨nofun, fun d hd => ?_, nofun⟩
    rw [List.mem_singleton.mp hd]
    exact fun hstop => hmem (List.mem_append_left (lit "()>*") hstop)

theorem forall_mem_cons_takeWhile {p : Byte → Bool} {c : Byte} (hc : p c = true) (t : Bytes) :
    ∀ d ∈ c :: t.takeWhile p, p d = true := by
  intro d hd
  rcases List.mem_cons.mp hd with rfl | hd
  · exact hc
  · exact List.all_eq_true.mp List.all_takeWhile d hd

theorem isSpace_of_isWhitespace {c : Byte} (h : isWhitespace c = true) : isSpace c = true := by
  revert h
  exact forall_byte (P := fun c => isWhitespace c = true → isSpace c = true) (by decide) c

/-- **One token.** -/
theorem Commented.nextToken {c : Byte} {u t : Bytes}
    (hc : ¬ (c = chr '/' ∧ t.head? = some (chr '*'))) (h : Commented u t)
    (hquote : ¬ (c = 0x22 ∨ c = 0x27)) :
    ∃ token u', (nextToken c t).1 = some token ∧ Plain token ∧ c :: u = token.value ++ u' ∧
      Commented u' (nextToken c t).2 := by
  rw [Css.nextToken, if_neg hc]
  by_cases hblank : isWhitespace c = true
  · obtain ⟨u', hu, h'⟩ := h.takeWhile (p := isWhitespace) (by decide)
    rw [if_pos hblank]
    have hall := forall_mem_cons_takeWhile hblank t
    exact ⟨_, u', rfl, plain_of_forall rfl (by rintro ⟨⟩) (p := isWhitespace) (by decide) hall
      fun _ d hd => isSpace_of_isWhitespace (hall d hd), congrArg _ hu, h'⟩
  rw [if_neg hblank]
  by_cases hident : isIdentifierStart c = true
  · obtain ⟨u', hu, h'⟩ := h.takeWhile (p := isIdentifierChar) (by decide)
    have hchar : isIdentifierChar c = true := Bool.or_eq_true_iff.mpr (Or.inl hident)
    rw [if_pos hident]
    exact ⟨_, u', rfl, plain_of_forall rfl (by rintro ⟨⟩) (p := isIdentifierChar) (by decide)
      (forall_mem_cons_takeWhile hchar t) (by rintro ⟨⟩), congrArg _ hu, h'⟩
  rw [if_neg hident]
  by_cases hnumber : (isDigit c || isSigned c t) = true
  · obtain ⟨u', hu, h'⟩ := h.takeWhile (p := isNumberChar) (by decide)
    rw [if_pos hnumber, takeNumber]
    by_cases hsign : c = chr '+' ∨ c = chr '-'
    · rw [if_pos hsign]
      refine ⟨_, u', rfl, ?_, congrArg _ hu, h'⟩
      refine plain_of_forall rfl (by rintro ⟨⟩) (p := fun c => isNumberChar c || c == chr '+' || c == chr '-')
        (by decide) (fun d hd => ?_) (by rintro ⟨⟩)
      rcases List.mem_cons.mp hd with rfl | hd
      · rcases hsign with rfl | rfl <;> decide
      · rw [List.all_eq_true.mp List.all_takeWhile d hd]
        rfl
    · have hdigit := isNumberChar_of_number hnumber hsign
      rw [if_neg hsign, List.takeWhile_cons_of_pos hdigit, List.dropWhile_cons_of_pos hdigit]
      exact ⟨_, u', rfl, plain_of_forall rfl (by rintro ⟨⟩) (p := isNumberChar) (by decide)
        (forall_mem_cons_takeWhile hdigit t) (by rintro ⟨⟩), congrArg _ hu, h'⟩
  rw [if_neg hnumber, if_neg hquote]
  exact ⟨_, u, rfl, plain_delimiter c, rfl, h⟩

/-- **The tokens of a text with comments in it** are the text, and each of them is plain. -/
theorem plain_tokenizeText {u t : Bytes} (h : Commented u t) (hquote : Unquoted u) :
    joinValue (tokenizeText t) = u ∧ ∀ token ∈ tokenizeText t, Plain token := by
  induction hlength : t.length using Nat.strong_induction_on generalizing u t with
  | h n ih =>
    subst hlength
    cases h with
    | nil =>
      rw [tokenizeText]
      exact ⟨rfl, fun token hmem => absurd hmem List.not_mem_nil⟩
    | @comment _ t comment hcomment h =>
      have hnext : Css.nextToken (chr '/') (chr '*' :: (comment ++ lit "*/" ++ t)) = (none, t) := by
        rw [Css.nextToken, if_pos ⟨rfl, rfl⟩]
        exact congrArg (Prod.mk _) (skipComment_append hcomment t)
      have hlt := length_nextToken_lt (chr '/') (chr '*' :: (comment ++ lit "*/" ++ t))
      have htokens : tokenizeText (lit "/*" ++ comment ++ lit "*/" ++ t) = tokenizeText t := by
        show tokenizeText (chr '/' :: chr '*' :: (comment ++ lit "*/" ++ t)) = _
        rw [tokenizeText, hnext]
      rw [hnext] at hlt
      rw [htokens]
      exact ih t.length hlt h hquote rfl
    | @char u t c hc h =>
      obtain ⟨token, u', htoken, hplain, hu, h'⟩ :=
        h.nextToken hc (hquote c List.mem_cons_self)
      have hquote' : Unquoted u' := fun d hd =>
        hquote d (hu ▸ List.mem_append_right _ hd)
      obtain ⟨hjoin, hrest⟩ := ih _ (length_nextToken_lt c t) h' hquote' rfl
      have htokens : tokenizeText (c :: t) = token :: tokenizeText (Css.nextToken c t).2 := by
        rw [tokenizeText, htoken]
      rw [htokens]
      refine ⟨?_, List.forall_mem_cons.mpr ⟨hplain, hrest⟩⟩
      rw [hu, ← hjoin]
      rfl

theorem stopOf_inj {type type' : CssTokenType} {c : Byte} (h : stopOf type = some c)
    (h' : stopOf type' = some c) : type = type' := by
  cases type <;> cases h <;> cases type' <;> first | rfl | exact absurd h' (by decide)

theorem mem_stops_of_stopOf {type : CssTokenType} {c : Byte} (h : stopOf type = some c) :
    c ∈ stops := by
  cases type <;> cases h <;> decide

/-- **The tokens around a character that the parser stops at.** -/
theorem exists_split_of_join {tokens : List CssToken} (hplain : ∀ token ∈ tokens, Plain token)
    {type : CssTokenType} {c : Byte} (hstop : stopOf type = some c) {a b : Bytes}
    (hjoin : joinValue tokens = a ++ c :: b) :
    ∃ before behind, tokens = before ++ ⟨type, [c]⟩ :: behind ∧ joinValue before = a ∧
      joinValue behind = b := by
  induction tokens generalizing a with
  | nil => exact absurd hjoin (List.append_ne_nil_of_right_ne_nil _ (List.cons_ne_nil _ _)).symm
  | cons token tokens ih =>
    obtain ⟨hfirst, hrest⟩ := List.forall_mem_cons.mp hplain
    obtain ⟨tokenType, value⟩ := token
    change value ++ joinValue tokens = a ++ c :: b at hjoin
    cases hvalue : stopOf tokenType with
    | some d =>
      obtain rfl : value = [d] := by simpa [Plain, hvalue] using hfirst
      cases a with
      | nil =>
        obtain ⟨rfl, rfl⟩ := List.cons.inj hjoin
        rw [stopOf_inj hvalue hstop]
        exact ⟨[], tokens, rfl, rfl, rfl⟩
      | cons d' a =>
        obtain ⟨rfl, htail⟩ := List.cons.inj hjoin
        obtain ⟨before, behind, rfl, rfl, hb⟩ := ih hrest htail
        exact ⟨⟨tokenType, [d]⟩ :: before, behind, rfl, rfl, hb⟩
    | none =>
      have hfree : c ∉ value := by
        have hall : ∀ c ∈ value, c ∉ stops := by
          simp only [Plain, hvalue] at hfirst
          exact hfirst.2.1
        exact fun hmem => hall c hmem (mem_stops_of_stopOf hstop)
      rcases List.append_eq_append_iff.mp hjoin with ⟨a', rfl, htail⟩ | ⟨rest, rfl, htail⟩
      · obtain ⟨before, behind, rfl, rfl, hb⟩ := ih hrest htail
        exact ⟨⟨tokenType, value⟩ :: before, behind, rfl, rfl, hb⟩
      · cases rest with
        | nil =>
          rw [List.append_nil] at hfree hfirst ⊢
          obtain ⟨before, behind, rfl, hbefore, hb⟩ := ih (a := []) hrest htail.symm
          refine ⟨⟨tokenType, a⟩ :: before, behind, rfl, ?_, hb⟩
          show a ++ joinValue before = a
          rw [hbefore, List.append_nil]
        | cons d rest =>
          obtain rfl : c = d := (List.cons.inj htail).1
          exact absurd (List.mem_append_right a List.mem_cons_self) hfree

/-! ## Texts with quotes -/

/-- A character that the parser stops at is read where it stands. -/
theorem nextToken_stop {c d : Byte} {rest : Bytes} {token : CssToken}
    (h : (Css.nextToken c rest).1 = some token) (hstop : stopOf token.type = some d) : c = d := by
  have hdelimiter (hstop : stopOf (delimiterType c) = some d) : c = d := by
    unfold delimiterType at hstop
    split_ifs at hstop <;> simp only [stopOf, Option.some.injEq, reduceCtorEq] at hstop <;>
      (rw [← hstop]; assumption)
  rw [Css.nextToken] at h
  split_ifs at h <;> cases h
  · exact absurd hstop (by rintro ⟨⟩)
  · exact absurd hstop (by rintro ⟨⟩)
  · exact absurd hstop (by rintro ⟨⟩)
  · exact absurd hstop (by rintro ⟨⟩)
  · exact hdelimiter hstop

theorem mem_of_mem_tokenizeText {t : Bytes} {token : CssToken} (h : token ∈ tokenizeText t)
    {c : Byte} (hstop : stopOf token.type = some c) : c ∈ t := by
  induction t using tokenizeText.induct with
  | case1 =>
    rw [tokenizeText] at h
    exact absurd h List.not_mem_nil
  | case2 d rest hnext ih =>
    rw [tokenizeText, hnext] at h
    exact List.mem_cons_of_mem _ ((nextToken_suffix d rest).subset (ih h))
  | case3 d rest first hnext ih =>
    rw [tokenizeText, hnext] at h
    rcases List.mem_cons.mp h with rfl | h
    · rw [nextToken_stop hnext hstop]
      exact List.mem_cons_self
    · exact List.mem_cons_of_mem _ ((nextToken_suffix d rest).subset (ih h))

theorem nextToken_whitespace {c : Byte} {rest : Bytes} {token : CssToken}
    (h : (Css.nextToken c rest).1 = some token) (htype : token.type = .whitespace) :
    ∀ d ∈ token.value, isSpace d = true := by
  have hdelimiter : delimiterType c ≠ .whitespace := by
    unfold delimiterType
    split_ifs <;> exact nofun
  rw [Css.nextToken] at h
  split_ifs at h with hcomment hblank <;> cases h
  · exact fun d hd => isSpace_of_isWhitespace (forall_mem_cons_takeWhile hblank rest d hd)
  · cases htype
  · cases htype
  · cases htype
  · exact absurd htype hdelimiter

theorem blank_of_mem_tokenizeText {t : Bytes} {token : CssToken} (h : token ∈ tokenizeText t)
    (htype : token.type = .whitespace) : ∀ c ∈ token.value, isSpace c = true := by
  induction t using tokenizeText.induct with
  | case1 =>
    rw [tokenizeText] at h
    exact absurd h List.not_mem_nil
  | case2 d rest hnext ih =>
    rw [tokenizeText, hnext] at h
    exact ih h
  | case3 d rest first hnext ih =>
    rw [tokenizeText, hnext] at h
    rcases List.mem_cons.mp h with rfl | h
    · exact nextToken_whitespace hnext htype
    · exact ih h

theorem tokenizeText_stop {type : CssTokenType} {c : Byte} (hstop : stopOf type = some c)
    (rest : Bytes) : tokenizeText (c :: rest) = ⟨type, [c]⟩ :: tokenizeText rest := by
  have hnext : Css.nextToken c rest = (some ⟨type, [c]⟩, rest) := by
    cases type <;> cases hstop <;> rfl
  rw [tokenizeText, hnext]

theorem takeWhile_append_stop {p : Byte → Bool} {c : Byte} (hc : p c = false) (t rest : Bytes) :
    (t ++ c :: rest).takeWhile p = t.takeWhile p ∧
      (t ++ c :: rest).dropWhile p = t.dropWhile p ++ c :: rest := by
  induction t with
  | nil =>
    rw [List.nil_append, List.takeWhile_cons_of_neg (Bool.eq_false_iff.mp hc),
      List.dropWhile_cons_of_neg (Bool.eq_false_iff.mp hc)]
    exact ⟨rfl, rfl⟩
  | cons d t ih =>
    rw [List.cons_append]
    by_cases hd : p d = true
    · rw [List.takeWhile_cons_of_pos hd, List.dropWhile_cons_of_pos hd,
        List.takeWhile_cons_of_pos hd, List.dropWhile_cons_of_pos hd, ih.1, ih.2]
      exact ⟨rfl, rfl⟩
    · rw [List.takeWhile_cons_of_neg hd, List.dropWhile_cons_of_neg hd,
        List.takeWhile_cons_of_neg hd, List.dropWhile_cons_of_neg hd]
      exact ⟨rfl, rfl⟩

/-- A token ends before a character that the parser stops at. -/
theorem nextToken_append {c : Byte} {t : Bytes}
    (hcomment : ¬ (c = chr '/' ∧ t.head? = some (chr '*'))) (hquote : ¬ (c = 0x22 ∨ c = 0x27))
    {d : Byte} (hd : d ∈ stops) (rest : Bytes) :
    Css.nextToken c (t ++ d :: rest) =
      ((Css.nextToken c t).1, (Css.nextToken c t).2 ++ d :: rest) := by
  have hnot {p : Byte → Bool} (hp : ∀ c ∈ stops, p c = false) := takeWhile_append_stop (hp d hd) t rest
  have hcomment' : ¬ (c = chr '/' ∧ (t ++ d :: rest).head? = some (chr '*')) := by
    cases t with
    | nil =>
      rintro ⟨-, hhead⟩
      obtain rfl : d = chr '*' := Option.some.inj hhead
      exact absurd hd (by decide)
    | cons e t => exact hcomment
  have hsigned : isSigned c (t ++ d :: rest) = isSigned c t := by
    cases t with
    | nil =>
      have hnumber : isNumberChar d = false :=
        (by decide : ∀ c ∈ stops, isNumberChar c = false) d hd
      rw [isSigned, isSigned]
      simp [hnumber]
    | cons e t => rfl
  rw [Css.nextToken, Css.nextToken, if_neg hcomment, if_neg hcomment', hsigned, if_neg hquote,
    if_neg hquote]
  by_cases hblank : isWhitespace c = true
  · have happend := hnot (p := isWhitespace) (by decide)
    rw [if_pos hblank, if_pos hblank, happend.1, happend.2]
  rw [if_neg hblank, if_neg hblank]
  by_cases hident : isIdentifierStart c = true
  · have happend := hnot (p := isIdentifierChar) (by decide)
    rw [if_pos hident, if_pos hident, happend.1, happend.2]
  rw [if_neg hident, if_neg hident]
  by_cases hnumber : (isDigit c || isSigned c t) = true
  · have happend := hnot (p := isNumberChar) (by decide)
    rw [if_pos hnumber, if_pos hnumber, takeNumber, takeNumber]
    by_cases hsign : c = chr '+' ∨ c = chr '-'
    · rw [if_pos hsign, if_pos hsign, happend.1, happend.2]
    · rw [if_neg hsign, if_neg hsign, ← List.cons_append,
        (takeWhile_append_stop ((by decide : ∀ c ∈ stops, isNumberChar c = false) d hd)
          (c :: t) rest).1,
        (takeWhile_append_stop ((by decide : ∀ c ∈ stops, isNumberChar c = false) d hd)
          (c :: t) rest).2]
  · rw [if_neg hnumber, if_neg hnumber]

/-- **Two texts**, the second of which begins with a character that the parser stops at. -/
theorem tokenizeText_append {t : Bytes} (hcomment : ¬ lit "/*" <:+: t) (hquote : Unquoted t)
    {d : Byte} (hd : d ∈ stops) (rest : Bytes) :
    tokenizeText (t ++ d :: rest) = tokenizeText t ++ tokenizeText (d :: rest) := by
  induction t using tokenizeText.induct with
  | case1 =>
    rw [tokenizeText.eq_def []]
    rfl
  | case2 c t hnext ih =>
    obtain ⟨token, _, htoken, -⟩ := (Commented.refl fun h => hcomment
      (List.infix_cons_iff.mpr (Or.inr h))).nextToken (not_commentStart hcomment)
      (hquote c List.mem_cons_self)
    exact nomatch hnext.symm.trans htoken
  | case3 c t token hnext ih =>
    have hsuffix := nextToken_suffix c t
    have hrest := ih (fun h => hcomment ((h.trans hsuffix.isInfix).trans (List.suffix_cons c t).isInfix))
      fun d hd => hquote d (List.mem_cons_of_mem _ (hsuffix.subset hd))
    rw [List.cons_append, tokenizeText,
      nextToken_append (not_commentStart hcomment) (hquote c List.mem_cons_self) hd rest, hnext,
      tokenizeText.eq_def (c :: t)]
    dsimp only
    rw [hnext, hrest]
    rfl

/-! ## The scanners of the parser -/

/-- A character that the parser stops at is not passed over. -/
theorem type_ne_of_not_mem {tokens : List CssToken} (hplain : ∀ token ∈ tokens, Plain token)
    {type : CssTokenType} {c : Byte} (hstop : stopOf type = some c) (hc : c ∉ joinValue tokens) :
    ∀ token ∈ tokens, token.type ≠ type := by
  intro token htoken heq
  have hvalue := hplain token htoken
  simp only [Plain, heq, hstop] at hvalue
  refine hc (List.mem_flatMap.mpr ⟨token, htoken, ?_⟩)
  rw [hvalue]
  exact List.mem_cons_self

theorem isSpace_of_whitespace {token : CssToken} (h : Plain token) (htype : token.type = .whitespace) :
    ∀ c ∈ token.value, isSpace c = true := by
  simp only [Plain, htype, stopOf] at h
  exact h.2.2 trivial

theorem type_ne_endOfFile {token : CssToken} (h : Plain token) : token.type ≠ .endOfFile := by
  intro heq
  simp only [Plain, heq, stopOf] at h
  exact h.1 rfl

/-! ## Nothing is lost -/

theorem delimiterType_ne_endOfFile (c : Byte) : delimiterType c ≠ .endOfFile := by
  unfold delimiterType
  split_ifs <;> exact nofun

/-- No round makes the token at the end of the file. -/
theorem nextToken_type_ne {c : Byte} {rest : Bytes} {token : CssToken}
    (h : (Css.nextToken c rest).1 = some token) : token.type ≠ .endOfFile := by
  rw [Css.nextToken] at h
  split_ifs at h <;> cases h
  · exact fun h => by cases h
  · exact fun h => by cases h
  · exact fun h => by cases h
  · exact fun h => by cases h
  · exact delimiterType_ne_endOfFile c

/-- A token is empty for two quotes only, with nothing in between. -/
theorem nextToken_value_ne_nil {c : Byte} {rest : Bytes} {token : CssToken}
    (hquote : ¬ (c = 0x22 ∨ c = 0x27)) (h : (Css.nextToken c rest).1 = some token) :
    token.value ≠ [] := by
  rw [Css.nextToken] at h
  split_ifs at h with hcomment hblank hident hnumber <;> cases h
  · exact List.cons_ne_nil _ _
  · exact List.cons_ne_nil _ _
  · show (takeNumber c rest).1 ≠ []
    rw [takeNumber]
    split_ifs with hsign
    · exact List.cons_ne_nil _ _
    · rw [List.takeWhile_cons_of_pos (isNumberChar_of_number hnumber hsign)]
      exact List.cons_ne_nil _ _
  · exact List.cons_ne_nil _ _

/-- The tokens before the end: none of them ends the file, and there are not more of them than
characters. -/
theorem tokenizeText_spec (t : Bytes) :
    (∀ token ∈ tokenizeText t, token.type ≠ .endOfFile) ∧ (tokenizeText t).length ≤ t.length := by
  induction t using tokenizeText.induct with
  | case1 =>
    rw [tokenizeText]
    exact ⟨fun token hmem => absurd hmem List.not_mem_nil, Nat.le_refl 0⟩
  | case2 c rest hnext ih =>
    rw [tokenizeText, hnext]
    exact ⟨ih.1, ih.2.trans (Nat.le_of_lt (length_nextToken_lt c rest))⟩
  | case3 c rest first hnext ih =>
    rw [tokenizeText, hnext]
    exact ⟨List.forall_mem_cons.mpr ⟨nextToken_type_ne hnext, ih.1⟩,
      Nat.succ_le_of_lt (ih.2.trans_lt (length_nextToken_lt c rest))⟩

theorem tokenizeText_value_ne_nil {t : Bytes} (hquote : Unquoted t) :
    ∀ token ∈ tokenizeText t, token.value ≠ [] := by
  induction t using tokenizeText.induct with
  | case1 =>
    rw [tokenizeText]
    exact fun token hmem => absurd hmem List.not_mem_nil
  | case2 c rest hnext ih =>
    rw [tokenizeText, hnext]
    exact ih fun d hd => hquote d (List.mem_cons_of_mem c ((nextToken_suffix c rest).subset hd))
  | case3 c rest first hnext ih =>
    rw [tokenizeText, hnext]
    refine List.forall_mem_cons.mpr
      ⟨nextToken_value_ne_nil (hquote c List.mem_cons_self) hnext, ?_⟩
    exact ih fun d hd => hquote d (List.mem_cons_of_mem c ((nextToken_suffix c rest).subset hd))

/-- **The tokenizer is lossless.**  There is one token at the end of the file, behind at most one
token for each character; without quotes and comments the tokens are the text, cut into pieces that
are not empty. -/
theorem tokenize_lossless (text : Bytes) :
    (∃ tokens, tokenize text = tokens ++ [⟨.endOfFile, []⟩] ∧
      (∀ token ∈ tokens, token.type ≠ .endOfFile) ∧ tokens.length ≤ text.length) ∧
      (Unquoted text → ¬ lit "/*" <:+: text →
        joinValue (tokenize text) = text ∧
          ∀ token ∈ tokenize text, token.type ≠ .endOfFile → token.value ≠ []) := by
  refine ⟨⟨tokenizeText text, rfl, tokenizeText_spec text⟩, fun hquote hcomment => ?_⟩
  obtain ⟨hjoin, -⟩ := plain_tokenizeText (Commented.refl hcomment) hquote
  refine ⟨?_, fun token hmem htype => ?_⟩
  · have hend : joinValue [⟨.endOfFile, []⟩] = [] := rfl
    rw [tokenize, joinValue, List.flatMap_append, ← joinValue, hjoin, ← joinValue, hend,
      List.append_nil]
  · rcases List.mem_append.mp hmem with hmem | hmem
    · exact tokenizeText_value_ne_nil hquote token hmem
    · rw [List.mem_singleton.mp hmem] at htype
      exact absurd rfl htype

/-- A rule with a sign and a dot in it. -/
theorem tokenize_lossless_rule :
    joinValue (tokenize (lit "a{b:-.5e+#x}")) = lit "a{b:-.5e+#x}" :=
  ((tokenize_lossless (lit "a{b:-.5e+#x}")).2 (by unfold Unquoted; decide) (by decide)).1

end Aetheris.Css
