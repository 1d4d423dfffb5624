import Aetheris.Html.WrittenTokens

/-!
# Where the tokens of the HTML tokenizer stand

All that moves the tokenizer on is `consume`, so what it has gone through is known from what is
left, and its line and its column with it (`lineBehind`, `columnBehind`).  `Advances` says of a
function that it moves on by consuming and no other way; every scanner does, since loops and
sequences of such functions do.  The calls of `next_token` one after the other are `after` and
`tokenAt`, and `calls_spec` counts them and finds their places.
-/

namespace Aetheris.Html

/-- The line of the character behind a text. -/
def lineBehind (text : Bytes) : ℕ := text.count (chr '\n') + 1

/-- The column of the character behind a text: one more than what stands behind the last newline. -/
def columnBehind (text : Bytes) : ℕ := (text.rtakeWhile (· != chr '\n')).length + 1

namespace HtmlTokenizer

/-! ## Moving on -/

/-- The tokenizer comes from `t` to `t'` by consuming. -/
def Advances (t t' : HtmlTokenizer) : Prop := ∃ n, t' = consume^[n] t

theorem Advances.refl (t : HtmlTokenizer) : Advances t t := ⟨0, rfl⟩

theorem Advances.trans {t t' t'' : HtmlTokenizer} (h : Advances t t') (h' : Advances t' t'') :
    Advances t t'' := by
  obtain ⟨n, rfl⟩ := h
  obtain ⟨m, rfl⟩ := h'
  exact ⟨m + n, (Function.iterate_add_apply consume m n t).symm⟩

theorem advances_consume (t : HtmlTokenizer) : Advances t t.consume := ⟨1, rfl⟩

theorem advances_ite (t : HtmlTokenizer) (b : Bool) : Advances t (if b then t.consume else t) := by
  split
  · exact advances_consume t
  · exact .refl t

theorem advances_readWhile (cond : HtmlTokenizer → Bool) (t : HtmlTokenizer) :
    Advances t (readWhile cond t).2 := by
  induction t using readWhile.induct cond with
  | case1 t h ih =>
    rw [readWhile, dif_pos h]
    exact (advances_consume t).trans ih
  | case2 t h =>
    rw [readWhile, dif_neg h]
    exact .refl t

theorem advances_skipWhitespace (t : HtmlTokenizer) : Advances t t.skipWhitespace :=
  advances_readWhile _ t

theorem advances_advanceText (t : HtmlTokenizer) (text : Bytes) :
    Advances t (t.advanceText text) := by
  induction text generalizing t with
  | nil => exact .refl t
  | cons c text ih => exact (advances_consume t).trans (ih t.consume)

theorem advances_parseAttributeValue (t : HtmlTokenizer) : Advances t t.parseAttributeValue.2 := by
  rw [parseAttributeValue]
  split
  · have hstart := (advances_consume t).trans (advances_skipWhitespace t.consume)
    dsimp only
    split
    · exact ((hstart.trans (advances_consume _)).trans (advances_readWhile _ _)).trans
        (advances_ite _ _)
    · exact hstart.trans (advances_readWhile _ _)
  · exact .refl t

theorem advances_parseAttributes (t : HtmlTokenizer) (token : HtmlToken) :
    Advances t (t.parseAttributes token).2 := by
  induction t, token using parseAttributes.induct with
  | case1 t token h =>
    rw [parseAttributes, dif_pos h]
    exact .refl t
  | case2 t token h s hs =>
    rw [parseAttributes, dif_neg h, if_pos hs]
    exact (advances_skipWhitespace t).trans (advances_consume _)
  | case3 t token h s hs hs' =>
    rw [parseAttributes, dif_neg h, if_neg hs, if_pos hs']
    exact ((advances_skipWhitespace t).trans (advances_consume _)).trans (advances_consume _)
  | case4 t token h s hs hs' name hname ih =>
    rw [parseAttributes, dif_neg h, if_neg hs, if_neg hs', dif_pos hname]
    exact (((advances_skipWhitespace t).trans (advances_readWhile _ _)).trans
      (advances_consume _)).trans ih
  | case5 t token h s hs hs' name hname value ih =>
    rw [parseAttributes, dif_neg h, if_neg hs, if_neg hs', dif_neg hname]
    exact ((((advances_skipWhitespace t).trans (advances_readWhile _ _)).trans
      (advances_skipWhitespace _)).trans (advances_parseAttributeValue _)).trans ih

theorem advances_parseComment (t : HtmlTokenizer) (line column : ℕ) :
    Advances t (t.parseComment line column).2 := by
  have hdata := (advances_advanceText t (lit "<!--")).trans
    (advances_readWhile (fun t => !t.startsWith (lit "-->")) _)
  rw [parseComment]
  dsimp only
  split
  · exact hdata.trans (advances_advanceText _ _)
  · exact hdata

theorem advances_parseDoctype (t : HtmlTokenizer) (line column : ℕ) :
    Advances t (t.parseDoctype line column).2 := by
  have hname := ((advances_advanceText t (lit "<!")).trans
    (advances_readWhile (fun t => isAlpha (t.peek 0)) _)).trans (advances_skipWhitespace _)
  rw [parseDoctype]
  exact (hname.trans (advances_readWhile _ _)).trans (advances_ite _ _)

theorem advances_parseTag (t : HtmlTokenizer) (isEndTag : Bool) (line column : ℕ) :
    Advances t (t.parseTag isEndTag line column).2 := by
  have hname := (((advances_consume t).trans
    (advances_ite _ (isEndTag && t.consume.peek 0 == chr '/'))).trans
    (advances_skipWhitespace _)).trans (advances_readWhile (fun t => isTagNameChar (t.peek 0)) _)
  rw [parseTag]
  dsimp only
  split
  · exact (hname.trans (advances_readWhile _ _)).trans (advances_ite _ _)
  · exact hname.trans (advances_parseAttributes _ _)

/-- The line and the column of a token are not changed by its attributes. -/
theorem place_parseAttributes (t : HtmlTokenizer) (token : HtmlToken) :
    (t.parseAttributes token).1.line = token.line ∧
      (t.parseAttributes token).1.column = token.column ∧
        ((t.parseAttributes token).1.type = token.type ∨
          (t.parseAttributes token).1.type = .selfClosingTag) := by
  induction t, token using parseAttributes.induct with
  | case1 t token h =>
    rw [parseAttributes, dif_pos h]
    exact ⟨rfl, rfl, Or.inl rfl⟩
  | case2 t token h s hs =>
    rw [parseAttributes, dif_neg h, if_pos hs]
    exact ⟨rfl, rfl, Or.inl rfl⟩
  | case3 t token h s hs hs' =>
    rw [parseAttributes, dif_neg h, if_neg hs, if_pos hs']
    exact ⟨rfl, rfl, Or.inr rfl⟩
  | case4 t token h s hs hs' name hname ih =>
    rw [parseAttributes, dif_neg h, if_neg hs, if_neg hs', dif_pos hname]
    exact ih
  | case5 t token h s hs hs' name hname value ih =>
    rw [parseAttributes, dif_neg h, if_neg hs, if_neg hs', dif_neg hname]
    exact ih

theorem place_parseTag (t : HtmlTokenizer) (isEndTag : Bool) (line column : ℕ) :
    (t.parseTag isEndTag line column).1.line = line ∧
      (t.parseTag isEndTag line column).1.column = column ∧
        (t.parseTag isEndTag line column).1.type ≠ .eof := by
  rw [parseTag]
  dsimp only
  cases isEndTag with
  | true =>
    rw [if_pos rfl]
    exact ⟨rfl, rfl, fun h => by cases h⟩
  | false =>
    rw [if_neg Bool.false_ne_true, if_neg Bool.false_ne_true]
    obtain ⟨hline, hcolumn, htype⟩ := place_parseAttributes _ _
    refine ⟨hline, hcolumn, ?_⟩
    rcases htype with htype | htype <;> rw [htype] <;> exact fun h => by cases h

/-- **One call before the end of the input**: the tokenizer moves on, and the token has its line and
its column. -/
theorem nextToken_spec {t : HtmlTokenizer} (hemitted : t.emittedEof = false) (h : t.rest ≠ []) :
    Advances t t.nextToken.2 ∧ t.nextToken.1.line = t.line ∧ t.nextToken.1.column = t.column ∧
      t.nextToken.1.type ≠ .eof := by
  have heof : ¬ t.eof := fun heof => h ((eof_iff t).mp heof)
  rw [nextToken, hemitted, if_neg Bool.false_ne_true, if_neg heof]
  split
  · exact ⟨advances_readWhile _ t, rfl, rfl, fun h => by cases h⟩
  · split
    · exact ⟨advances_parseComment t _ _, rfl, rfl, fun h => by cases h⟩
    · split
      · exact ⟨advances_parseDoctype t _ _, rfl, rfl, fun h => by cases h⟩
      · split
        · exact ⟨advances_parseTag t _ _ _, place_parseTag t _ _ _⟩
        · split
          · exact ⟨advances_parseTag t _ _ _, place_parseTag t _ _ _⟩
          · exact ⟨advances_consume t, rfl, rfl, fun h => by cases h⟩

/-- A call at the end of the input leaves the tokenizer there. -/
theorem nextToken_of_end {t : HtmlTokenizer} (h : t.rest = []) :
    t.nextToken = (makeToken .eof [] t.line t.column, { t with emittedEof := true }) := by
  rw [nextToken]
  split
  · rename_i hemitted
    rw [← hemitted]
  · rw [if_pos ((eof_iff t).mpr h)]

/-! ## Places -/

/-- The tokenizer has gone through a part of the input and knows where it is. -/
structure Placed (input : Bytes) (t : HtmlTokenizer) : Prop where
  exists_consumed : ∃ consumed, input = consumed ++ t.rest ∧ t.line = lineBehind consumed ∧
    t.column = columnBehind consumed
  rest_eq_nil : t.emittedEof = true → t.rest = []

theorem placed_start (input : Bytes) : Placed input { rest := input } :=
  ⟨⟨[], rfl, rfl, rfl⟩, fun h => absurd h Bool.false_ne_true⟩

theorem Placed.consume {input : Bytes} {t : HtmlTokenizer} (h : Placed input t) :
    Placed input t.consume := by
  obtain ⟨⟨consumed, hinput, hline, hcolumn⟩, heof⟩ := h
  refine ⟨?_, fun hemitted => ?_⟩
  · rw [HtmlTokenizer.consume]
    cases hrest : t.rest with
    | nil => exact ⟨consumed, hinput, hline, hcolumn⟩
    | cons c rest =>
      refine ⟨consumed ++ [c], ?_, ?_⟩
      · rw [hinput, hrest, List.append_assoc, List.singleton_append]
        dsimp only
        split <;> rfl
      · rw [lineBehind, columnBehind, List.count_append]
        dsimp only
        by_cases hc : c = chr '\n'
        · have hstop := List.rtakeWhile_concat_neg (· != chr '\n') consumed c
            (by rw [hc]; decide)
          rw [if_pos hc, hstop, hc]
          exact ⟨congrArg (· + 1) hline, rfl⟩
        · have hgo := List.rtakeWhile_concat_pos (· != chr '\n') consumed c (bne_iff_ne.mpr hc)
          rw [if_neg hc, hgo, List.length_append, List.count_singleton,
            if_neg (fun h => hc (beq_iff_eq.mp h))]
          exact ⟨hline, congrArg (· + 1) hcolumn⟩
  · rw [rest_consume, heof (emittedEof_consume t ▸ hemitted)]
    rfl

theorem Placed.advances {input : Bytes} {t t' : HtmlTokenizer} (h : Placed input t)
    (hadvances : Advances t t') : Placed input t' := by
  obtain ⟨n, rfl⟩ := hadvances
  induction n with
  | zero => exact h
  | succ n ih =>
    rw [Function.iterate_succ_apply']
    exact ih.consume

/-- A call of `next_token` keeps the place. -/
theorem Placed.nextToken {input : Bytes} {t : HtmlTokenizer} (h : Placed input t) :
    Placed input t.nextToken.2 := by
  by_cases hrest : t.rest = []
  · rw [nextToken_of_end hrest]
    exact ⟨h.exists_consumed, fun _ => hrest⟩
  · have hemitted : t.emittedEof = false :=
      Bool.eq_false_iff.mpr fun hemitted => hrest (h.rest_eq_nil hemitted)
    exact h.advances (nextToken_spec hemitted hrest).1

end HtmlTokenizer

/-! ## The calls -/

open HtmlTokenizer

/-- The tokenizer after `n` calls of `next_token`. -/
def after (input : Bytes) (n : ℕ) : HtmlTokenizer :=
  (fun t => t.nextToken.2)^[n] { rest := input }

/-- What the call behind these returns. -/
def tokenAt (input : Bytes) (n : ℕ) : HtmlToken := (after input n).nextToken.1

theorem after_succ (input : Bytes) (n : ℕ) : after input (n + 1) = (after input n).nextToken.2 :=
  Function.iterate_succ_apply' _ n _

theorem placed_after (input : Bytes) (n : ℕ) : Placed input (after input n) := by
  induction n with
  | zero => exact placed_start input
  | succ n ih =>
    rw [after_succ]
    exact ih.nextToken

theorem length_after_le (input : Bytes) (n : ℕ) :
    (after input n).rest = [] ∨ (after input n).rest.length + n ≤ input.length := by
  induction n with
  | zero => exact Or.inr (Nat.le_refl _)
  | succ n ih =>
    rw [after_succ]
    by_cases hrest : (after input n).rest = []
    · rw [nextToken_of_end hrest]
      exact Or.inl hrest
    · have hplaced := placed_after input n
      have hemitted : (after input n).emittedEof = false :=
        Bool.eq_false_iff.mpr fun hemitted => hrest (hplaced.rest_eq_nil hemitted)
      have hlt := length_rest_nextToken_lt (nextToken_spec hemitted hrest).2.2.2
      have hle := ih.resolve_left hrest
      exact Or.inr (by omega)

/-- At the end of the input the calls stay there. -/
theorem rest_after_of_le {input : Bytes} {m n : ℕ} (hmn : m ≤ n)
    (h : (after input m).rest = []) : (after input n).rest = [] := by
  induction n, hmn using Nat.le_induction with
  | base => exact h
  | succ n _ ih =>
    rw [after_succ, nextToken_of_end ih]
    exact ih

/-- Without a `<` the first call reads the whole input. -/
theorem nextToken_start {input : Bytes} (hne : input ≠ []) (hlt : chr '<' ∉ input) :
    (after input 0).nextToken.1 = makeToken .text input 1 1 ∧ (after input 1).rest = [] := by
  obtain ⟨c, rest, hinput⟩ := List.exists_cons_of_ne_nil hne
  set t : HtmlTokenizer := { rest := input } with ht
  have hpeek : t.peek 0 ≠ chr '<' := by
    rw [peek_zero_of_cons (show t.rest = c :: rest from hinput)]
    exact fun hc => hlt (hinput ▸ hc ▸ List.mem_cons_self)
  have hnext : t.nextToken = t.parseText := by
    rw [nextToken, if_neg Bool.false_ne_true, if_neg fun heof => hne ((eof_iff t).mp heof),
      if_pos hpeek]
  have hall : ∀ d ∈ input, (d != chr '<') = true := fun d hd =>
    bne_iff_ne.mpr fun heq => hlt (heq ▸ hd)
  have hread := readWhile_eq (· != chr '<') t
  rw [show t.rest = input from rfl, List.takeWhile_eq_self_iff.mpr hall,
    List.dropWhile_eq_nil_iff.mpr hall] at hread
  refine ⟨?_, ?_⟩
  · show t.nextToken.1 = _
    rw [hnext, parseText]
    dsimp only
    rw [hread.1]
  · show t.nextToken.2.rest = []
    rw [hnext, parseText]
    exact hread.2

/-- **Progress and places.**  Each call before the end of the input consumes a character and gives a
token; after at most as many calls as there are characters the end is reached; every token, also the
one at the end, has the line and the column of what comes behind the characters consumed before; and
without a `<` the only other token is the input. -/
theorem calls_spec (input : Bytes) :
    (∀ n, (after input n).rest ≠ [] → (tokenAt input n).type ≠ .eof ∧
      (after input (n + 1)).rest.length < (after input n).rest.length) ∧
      (∃ n ≤ input.length, (tokenAt input n).type = .eof) ∧
      (∀ n, ∃ consumed, input = consumed ++ (after input n).rest ∧
        (tokenAt input n).line = lineBehind consumed ∧
          (tokenAt input n).column = columnBehind consumed) ∧
      (chr '<' ∉ input → ∀ n, (tokenAt input n).type ≠ .eof →
        n = 0 ∧ tokenAt input n = makeToken .text input 1 1) := by
  have hcall (n : ℕ) (hrest : (after input n).rest ≠ []) :
      (after input n).emittedEof = false :=
    Bool.eq_false_iff.mpr fun hemitted => hrest ((placed_after input n).rest_eq_nil hemitted)
  refine ⟨fun n hrest => ?_, ⟨input.length, Nat.le_refl _, ?_⟩, fun n => ?_, fun hlt n htype => ?_⟩
  · have hspec := nextToken_spec (hcall n hrest) hrest
    rw [after_succ]
    exact ⟨hspec.2.2.2, length_rest_nextToken_lt hspec.2.2.2⟩
  · have hend : (after input input.length).rest = [] := by
      rcases length_after_le input input.length with h | h
      · exact h
      · exact List.eq_nil_of_length_eq_zero (by omega)
    exact nextToken_eof hend
  · obtain ⟨consumed, hinput, hline, hcolumn⟩ := (placed_after input n).exists_consumed
    refine ⟨consumed, hinput, ?_⟩
    rw [tokenAt, ← hline, ← hcolumn]
    by_cases hrest : (after input n).rest = []
    · rw [nextToken_of_end hrest]
      exact ⟨rfl, rfl⟩
    · have hspec := nextToken_spec (hcall n hrest) hrest
      exact ⟨hspec.2.1, hspec.2.2.1⟩
  · have hrest : (after input n).rest ≠ [] := fun hrest => htype (nextToken_eof hrest)
    have hne : input ≠ [] := by
      rintro rfl
      exact hrest (rest_after_of_le (Nat.zero_le n) rfl)
    obtain ⟨htoken, hend⟩ := nextToken_start hne hlt
    obtain rfl : n = 0 := by
      by_contra hn
      exact hrest (rest_after_of_le (Nat.one_le_iff_ne_zero.mpr hn) hend)
    exact ⟨rfl, htoken⟩

/-- Two lines without a tag. -/
theorem calls_spec_lines : tokenAt (lit "a\nb") 0 = makeToken .text (lit "a\nb") 1 1 :=
  ((calls_spec (lit "a\nb")).2.2.2 (by decide) 0
    ((calls_spec (lit "a\nb")).1 0 (by decide)).1).2

end Aetheris.Html
