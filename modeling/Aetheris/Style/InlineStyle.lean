import Aetheris.Css.Recovery
import Aetheris.Library.Segments
import Aetheris.Style.Resolver

/-!
# A `style` attribute and a rule with the same text

`StyleResolver::resolve` cuts a `style` attribute at its semicolons, and `CssParser` reads the
tokens of a rule.  Without quotes and comments in front of the last colon both come to the same
pieces, as long as the semicolons separate the declarations and none is left over; the two ways of
reading are compared piece by piece.
-/

namespace Aetheris.Style

open Css Segments

/-! ## The two ways to read a text -/

/-- The text of a rule. -/
def ruleText (selector : Field (lit ",\x7b")) (body : Bytes) : Bytes :=
  selector.written ++ chr '\x7b' :: (body ++ [chr '\x7d'])

/-- A declaration with a property and a value. -/
def filled (d : CssDeclaration) : Bool := d.property ≠ [] ∧ d.value ≠ []

/-- The rule has the declarations of the `style` attribute, up to those without a property or a
value. -/
def Agrees (selector : Field (lit ",\x7b")) (body : Bytes) : Prop :=
  ∃ declarations, parse (ruleText selector body) = ⟨[⟨[selector.text], declarations, 0⟩]⟩ ∧
    declarations.filter filled = inlineDeclarations body

/-- There are no quotes and no comments before the semicolon behind the last colon. -/
def Unmarked (body : Bytes) : Prop :=
  ∃ front back, body = front ++ back ∧ Unquoted front ∧ ¬ lit "/*" <:+: front ∧
    chr ':' ∉ back ∧ (front = [] ∨ back = [] ∨ back.head? = some (chr ';'))

/-- A piece with a value behind its colon. -/
def HasValue (piece : Bytes) : Prop :=
  ∃ colon ∈ find piece (lit ":"), trim (piece.drop (colon + 1)) ≠ []

instance : DecidablePred HasValue := fun _ => inferInstanceAs (Decidable (∃ _ ∈ _, _))

/-- No piece without a colon stands right before one with a value, and the properties and the
values of the `style` attribute have no vertical tabs and no form feeds at their ends. -/
structure Separated (body : Bytes) : Prop where
  chain : (body.splitOn (chr ';')).IsChain fun before piece => HasValue piece → chr ':' ∈ before
  trimmed : ∀ piece ∈ body.splitOn (chr ';'), ∀ d ∈ inlineDeclaration piece,
    trim d.property = d.property ∧ trim d.value = d.value

/-! ## Trimmed texts -/

/-- Both functions cut a text at both ends. -/
theorem exists_trim (p : Byte → Bool) (text : Bytes) :
    ∃ a b, text = a ++ ((text.dropWhile p).reverse.dropWhile p).reverse ++ b ∧
      (∀ c ∈ a, p c = true) ∧ ∀ c ∈ b, p c = true := by
  refine ⟨text.takeWhile p, ((text.dropWhile p).reverse.takeWhile p).reverse, ?_,
    List.all_eq_true.mp List.all_takeWhile, fun c hc =>
      List.all_eq_true.mp List.all_takeWhile c (List.mem_reverse.mp hc)⟩
  rw [List.append_assoc, ← List.reverse_append, List.takeWhile_append_dropWhile,
    List.reverse_reverse, List.takeWhile_append_dropWhile]

theorem trim_trim (text : Bytes) : trim (trim text) = trim text := by
  obtain ⟨a, b, htext, ha, hb⟩ := exists_trim isSpace text
  change text = a ++ trim text ++ b at htext
  conv_rhs => rw [htext]
  rw [trim_append_right _ hb, trim_append_left ha]

theorem trim_trimInline (text : Bytes) : trim (trimInline text) = trim text := by
  have hspace (c : Byte) (hc : (c == 0x20 || c == 0x09 || c == 0x0d || c == 0x0a) = true) :
      isSpace c = true := by
    simp only [Bool.or_eq_true, beq_iff_eq] at hc
    rcases hc with ((rfl | rfl) | rfl) | rfl <;> rfl
  obtain ⟨a, b, htext, ha, hb⟩ :=
    exists_trim (fun c => c == 0x20 || c == 0x09 || c == 0x0d || c == 0x0a) text
  change text = a ++ trimInline text ++ b at htext
  conv_rhs => rw [htext]
  rw [trim_append_right _ fun c hc => hspace c (hb c hc),
    trim_append_left fun c hc => hspace c (ha c hc)]

theorem trim_eq_nil_of_trimInline {text : Bytes} (h : trimInline text = []) : trim text = [] := by
  rw [← trim_trimInline, h]
  rfl

/-! ## The pieces -/

theorem inlineDeclarations_eq (body : Bytes) :
    inlineDeclarations body = (body.splitOn (chr ';')).filterMap inlineDeclaration := by
  rw [inlineDeclarations, getlines]
  split
  next hlast =>
    obtain ⟨front, hfront⟩ := List.getLast?_eq_some_iff.mp hlast
    have hnone : [([] : Bytes)].filterMap inlineDeclaration = [] := rfl
    rw [hfront, List.dropLast_concat, List.filterMap_append, hnone, List.append_nil]
  · rfl

/-- Pieces without a colon at the end do not matter. -/
theorem filterMap_pieceDeclarations_of_not_mem {pieces : List Bytes}
    (hpieces : ∀ piece ∈ pieces, chr ':' ∉ piece) (carry : Bytes) :
    (pieceDeclarations carry pieces).filterMap id = [] := by
  induction pieces generalizing carry with
  | nil => rfl
  | cons piece pieces ih =>
    obtain ⟨hpiece, hrest⟩ := List.forall_mem_cons.mp hpieces
    have hnone : find piece (lit ":") = none := find_singleton_eq_none_iff.mpr hpiece
    rw [pieceDeclarations, hnone]
    exact ih hrest _

theorem filterMap_pieceDeclarations_append {behind : List Bytes}
    (hbehind : ∀ piece ∈ behind, chr ':' ∉ piece) (carry : Bytes) (pieces : List Bytes) :
    (pieceDeclarations carry (pieces ++ behind)).filterMap id =
      (pieceDeclarations carry pieces).filterMap id := by
  induction pieces generalizing carry with
  | nil => exact filterMap_pieceDeclarations_of_not_mem hbehind carry
  | cons piece pieces ih =>
    rw [List.cons_append, pieceDeclarations, pieceDeclarations]
    split
    · exact ih _
    · rw [filterMap_id_cons, filterMap_id_cons, ih]

/-! ## The rule -/

theorem readSelectors_written_one {selector : Field (lit ",\x7b")} {tokens : List CssToken}
    (hplain : ∀ token ∈ tokens, Plain token) (hjoin : joinValue tokens = selector.written)
    (behind : List CssToken) :
    readSelectors [] [] (tokens ++ ⟨.openBrace, [chr '\x7b']⟩ :: behind) =
      some ([selector.text], behind) := by
  have hfree : chr ',' ∉ joinValue tokens ∧ chr '\x7b' ∉ joinValue tokens := by
    rw [hjoin]
    exact ⟨selector.not_mem_written (by decide) (by decide),
      selector.not_mem_written (by decide) (by decide)⟩
  rw [readSelectors_append hplain hfree, List.nil_append, hjoin, readSelectors, addSelector,
    selector.trim_written, if_neg selector.text_ne_nil]
  rfl

/-- The tokens of the body, and what the parser reads of them. -/
theorem readDeclarations_body {body : Bytes}
    (hbraces : chr '\x7b' ∉ body ∧ chr '\x7d' ∉ body) (hunmarked : Unmarked body) :
    ∃ behind, readDeclarations (tokenizeText (body ++ [chr '\x7d']) ++ [⟨.endOfFile, []⟩]) [] =
        ((pieceDeclarations [] (body.splitOn (chr ';'))).filterMap id, behind) ∧
      behind <:+ tokenizeText (body ++ [chr '\x7d']) ++ [⟨.endOfFile, []⟩] := by
  obtain ⟨front, back, rfl, hquote, hcomment, hback, hcases⟩ := hunmarked
  have hcolon {text : Bytes} (htext : chr ':' ∉ text) :
      ∀ token ∈ tokenizeText text ++ [⟨.endOfFile, []⟩], token.type ≠ .colon := by
    intro token htoken htype
    rcases List.mem_append.mp htoken with htoken | htoken
    · exact htext (mem_of_mem_tokenizeText htoken (by rw [htype]; rfl))
    · rw [List.mem_singleton.mp htoken] at htype
      cases htype
  have hbrace : chr ':' ∉ back ++ [chr '\x7d'] := by
    rw [List.mem_append, not_or]
    exact ⟨hback, by decide⟩
  by_cases hfront : front = []
  · subst hfront
    have hpieces : ∀ piece ∈ ([] ++ back).splitOn (chr ';'), chr ':' ∉ piece :=
      fun piece hpiece hmem => hback (mem_of_mem_splitOn hpiece hmem)
    rw [filterMap_pieceDeclarations_of_not_mem hpieces]
    exact readDeclarations_of_no_colon (hcolon hbrace) []
  · obtain ⟨type, c, rest, hrest, hstop, hends⟩ : ∃ type c rest,
        back ++ [chr '\x7d'] = c :: rest ∧ stopOf type = some c ∧
          endsValue ⟨type, [c]⟩ = true := by
      rcases hcases.resolve_left hfront with rfl | hhead
      · exact ⟨.closeBrace, chr '\x7d', [], rfl, rfl, rfl⟩
      · obtain ⟨back, rfl⟩ := List.head?_eq_some_iff.mp hhead
        exact ⟨.semicolon, chr ';', back ++ [chr '\x7d'], rfl, rfl, rfl⟩
    obtain ⟨hjoin, hplain⟩ := plain_tokenizeText (Commented.refl hcomment) hquote
    have htokens : tokenizeText (front ++ back ++ [chr '\x7d']) ++ [⟨.endOfFile, []⟩] =
        tokenizeText front ++ ⟨type, [c]⟩ :: (tokenizeText rest ++ [⟨.endOfFile, []⟩]) := by
      rw [List.append_assoc, hrest, tokenizeText_append hcomment hquote (mem_stops_of_stopOf hstop),
        tokenizeText_stop hstop, List.append_assoc, List.cons_append]
    have hmore := hcolon hbrace
    rw [hrest, tokenizeText_stop hstop, List.cons_append] at hmore
    have hpieces : ∀ piece ∈ front.splitOn (chr ';'), chr ';' ∉ piece ∧ chr '\x7d' ∉ piece :=
      fun piece hpiece => ⟨not_mem_of_mem_splitOn hpiece, fun hmem =>
        hbraces.2 (List.mem_append_left _ (mem_of_mem_splitOn hpiece hmem))⟩
    have hsplit : (pieceDeclarations [] ((front ++ back).splitOn (chr ';'))).filterMap id =
        (pieceDeclarations [] (front.splitOn (chr ';'))).filterMap id := by
      rcases hcases.resolve_left hfront with rfl | hhead
      · rw [List.append_nil]
      · obtain ⟨back, rfl⟩ := List.head?_eq_some_iff.mp hhead
        rw [List.splitOn_append_cons_self]
        exact filterMap_pieceDeclarations_append (fun piece hpiece hmem =>
          hback (List.mem_cons_of_mem _ (mem_of_mem_splitOn hpiece hmem))) [] _
    obtain ⟨behind, hread, hsuffix⟩ := readDeclarations_pieces (bodyEnd_of_no_colon hends hmore)
      hpieces not_mem_nil_and hplain
      (hjoin.trans (List.intercalate_splitOn (chr ';')).symm) []
    rw [htokens, hsplit]
    exact ⟨behind, hread, hsuffix.trans (List.suffix_append _ _)⟩

/-- **The rule that the parser reads.** -/
theorem parse_ruleText {selector : Field (lit ",\x7b")}
    (hselector : ¬ lit "/*" <:+: selector.written) {body : Bytes}
    (hbraces : chr '\x7b' ∉ body ∧ chr '\x7d' ∉ body) (hunmarked : Unmarked body) :
    parse (ruleText selector body) = ⟨[⟨[selector.text],
      (pieceDeclarations [] (body.splitOn (chr ';'))).filterMap id, 0⟩]⟩ := by
  obtain ⟨behind, hread, hsuffix⟩ := readDeclarations_body hbraces hunmarked
  obtain ⟨hjoin, hplain⟩ := plain_tokenizeText (Commented.refl hselector) selector.unquoted_written
  have htokens : tokenize (ruleText selector body) = tokenizeText selector.written ++
      ⟨.openBrace, [chr '\x7b']⟩ ::
        (tokenizeText (body ++ [chr '\x7d']) ++ [⟨.endOfFile, []⟩]) := by
    rw [tokenize, ruleText, tokenizeText_append hselector selector.unquoted_written (by decide),
      tokenizeText_stop stopOf_openBrace, List.append_assoc, List.cons_append]
  have hblank : ∀ token ∈ tokenize (ruleText selector body), token.type = .whitespace →
      ∀ c ∈ token.value, isSpace c = true := by
    intro token htoken htype
    rcases List.mem_append.mp htoken with htoken | htoken
    · exact blank_of_mem_tokenizeText htoken htype
    · rw [List.mem_singleton.mp htoken] at htype
      cases htype
  have hnil : tokenizeText selector.written ≠ [] := by
    intro hnil
    rw [hnil] at hjoin
    exact selector.text_ne_nil (by rw [← selector.trim_written, ← hjoin]; rfl)
  have hleft : ∀ token ∈ behind, token.type ≠ .openBrace := by
    intro token htoken htype
    rcases List.mem_append.mp (hsuffix.subset htoken) with htoken | htoken
    · have hmem : chr '\x7b' ∈ body ++ [chr '\x7d'] :=
        mem_of_mem_tokenizeText htoken (by rw [htype]; rfl)
      rcases List.mem_append.mp hmem with hmem | hmem
      · exact hbraces.1 hmem
      · exact absurd hmem (by decide)
    · rw [List.mem_singleton.mp htoken] at htype
      cases htype
  rw [parse, parseTokens, parseRules, readSelectors_dropWhile hblank, htokens,
    if_neg (not_at_end hplain hnil _), readSelectors_written_one hplain hjoin]
  dsimp only
  rw [hread]
  dsimp only
  rw [parseRules_of_no_brace hleft, if_neg (List.cons_ne_nil _ _), List.nil_append]

/-! ## One piece -/

theorem inlineDeclaration_of_not_mem {piece : Bytes} (h : chr ':' ∉ piece) :
    inlineDeclaration piece = none := by
  have hnone : find piece (lit ":") = none := find_singleton_eq_none_iff.mpr h
  rw [inlineDeclaration, hnone]

theorem not_hasValue_of_not_mem {piece : Bytes} (h : chr ':' ∉ piece) : ¬ HasValue piece := by
  rintro ⟨colon, hcolon, -⟩
  have hnone : find piece (lit ":") = none := find_singleton_eq_none_iff.mpr h
  exact nomatch hnone.symm.trans hcolon

theorem pieceDeclarations_of_not_mem {piece : Bytes} (h : chr ':' ∉ piece) (carry : Bytes)
    (pieces : List Bytes) :
    pieceDeclarations carry (piece :: pieces) =
      none :: pieceDeclarations (carry ++ piece ++ lit ";") pieces := by
  have hnone : find piece (lit ":") = none := find_singleton_eq_none_iff.mpr h
  rw [pieceDeclarations, hnone]

section Colon

variable {a : Bytes} (ha : chr ':' ∉ a) (value : Bytes)

include ha

theorem find_colon : find (a ++ chr ':' :: value) (lit ":") = some a.length :=
  find_singleton_append ha value

theorem inlineDeclaration_colon :
    inlineDeclaration (a ++ chr ':' :: value) =
      if trimInline a = [] ∨ trimInline value = [] then none
      else some ⟨trimInline a, trimInline value⟩ := by
  rw [inlineDeclaration, find_colon ha]
  dsimp only
  rw [List.take_left' rfl, drop_append_cons]

theorem hasValue_colon : HasValue (a ++ chr ':' :: value) ↔ trim value ≠ [] := by
  constructor
  · rintro ⟨colon, hcolon, hvalue⟩
    obtain rfl := Option.some.inj ((find_colon ha value).symm.trans hcolon)
    rwa [drop_append_cons] at hvalue
  · intro hvalue
    exact ⟨a.length, find_colon ha value, by rwa [drop_append_cons]⟩

/-- What the parser reads of a piece, without the declarations that have no value. -/
theorem map_filter_pieceDeclarations_colon (carry : Bytes) (pieces : List Bytes) :
    (pieceDeclarations carry ((a ++ chr ':' :: value) :: pieces)).map (Option.filter filled) =
      (if trim (carry ++ a) = [] ∨ trim value = [] then none
        else some ⟨trim (carry ++ a), trim value⟩) ::
        (pieceDeclarations [] pieces).map (Option.filter filled) := by
  rw [pieceDeclarations, find_colon ha]
  dsimp only
  rw [List.take_left' rfl, drop_append_cons, List.map_cons]
  congr 1
  by_cases hproperty : trim (carry ++ a) = []
  · rw [if_pos hproperty, if_pos (Or.inl hproperty)]
    rfl
  · by_cases hvalue : trim value = []
    · rw [if_neg hproperty, if_pos (Or.inr hvalue), Option.filter_some]
      simp [filled, hvalue]
    · rw [if_neg hproperty, if_neg (not_or.mpr ⟨hproperty, hvalue⟩), Option.filter_some]
      simp [filled, hproperty, hvalue]

end Colon

/-! ## All pieces -/

/-- The pieces of a separated text. -/
theorem map_filter_pieceDeclarations {pieces : List Bytes} {carry : Bytes}
    (hcarry : carry = [] ∨ ∀ piece ∈ pieces.head?, ¬ HasValue piece)
    (hchain : pieces.IsChain fun before piece => HasValue piece → chr ':' ∈ before)
    (htrimmed : ∀ piece ∈ pieces, ∀ d ∈ inlineDeclaration piece,
      trim d.property = d.property ∧ trim d.value = d.value) :
    (pieceDeclarations carry pieces).map (Option.filter filled) =
      pieces.map inlineDeclaration := by
  induction pieces generalizing carry with
  | nil => rfl
  | cons piece pieces ih =>
    obtain ⟨hfirst, hrestTrimmed⟩ := List.forall_mem_cons.mp htrimmed
    obtain ⟨hnext, hrestChain⟩ := List.isChain_cons.mp hchain
    by_cases hcolon : chr ':' ∈ piece
    · obtain ⟨a, value, rfl, ha⟩ := List.eq_append_cons_of_mem hcolon
      rw [map_filter_pieceDeclarations_colon ha, List.map_cons,
        ih (Or.inl rfl) hrestChain hrestTrimmed]
      congr 1
      rw [inlineDeclaration_colon ha] at hfirst ⊢
      by_cases hinline : trimInline a = [] ∨ trimInline value = []
      · rw [if_pos hinline, if_pos]
        rcases hinline with hinline | hinline
        · by_cases hvalue : trim value = []
          · exact Or.inr hvalue
          · rcases hcarry with rfl | hcarry
            · exact Or.inl (trim_eq_nil_of_trimInline hinline)
            · exact absurd ((hasValue_colon ha value).mpr hvalue) (hcarry _ rfl)
        · exact Or.inr (trim_eq_nil_of_trimInline hinline)
      · rw [if_neg hinline] at hfirst ⊢
        obtain ⟨hproperty, hvalue⟩ := hfirst _ rfl
        change trim (trimInline a) = trimInline a at hproperty
        change trim (trimInline value) = trimInline value at hvalue
        rw [trim_trimInline] at hproperty hvalue
        rw [← hproperty, ← hvalue] at hinline ⊢
        have hcarry' : carry = [] := hcarry.resolve_right fun hcarry =>
          hcarry _ rfl ((hasValue_colon ha value).mpr fun h => hinline (Or.inr h))
        rw [hcarry', List.nil_append, if_neg hinline]
    · have hcarry' : ∀ next ∈ pieces.head?, ¬ HasValue next := fun next hhead hvalue =>
        hcolon (hnext next hhead hvalue)
      rw [pieceDeclarations_of_not_mem hcolon, List.map_cons, List.map_cons,
        inlineDeclaration_of_not_mem hcolon, ih (Or.inr hcarry') hrestChain hrestTrimmed]
      rfl

/-- The pieces of a text without semicolons in the properties that are read. -/
theorem chain_of_properties {pieces : List Bytes} {carry : Bytes}
    (hcarry : carry = [] ∨ chr ';' ∈ carry)
    (hproperties : ∀ d, some d ∈ (pieceDeclarations carry pieces).map (Option.filter filled) →
      chr ';' ∉ d.property) :
    (chr ';' ∈ carry → ∀ piece ∈ pieces.head?, ¬ HasValue piece) ∧
      (pieces.IsChain fun before piece => HasValue piece → chr ':' ∈ before) ∧
      List.Forall₂ (fun x y : Option CssDeclaration => x.isSome → y.isSome)
        ((pieceDeclarations carry pieces).map (Option.filter filled))
        (pieces.map inlineDeclaration) := by
  induction pieces generalizing carry with
  | nil => exact ⟨fun _ _ h => (nomatch h), .nil, .nil⟩
  | cons piece pieces ih =>
    by_cases hcolon : chr ':' ∈ piece
    · obtain ⟨a, value, rfl, ha⟩ := List.eq_append_cons_of_mem hcolon
      rw [map_filter_pieceDeclarations_colon ha] at hproperties ⊢
      obtain ⟨-, hchain, hrest⟩ := ih (Or.inl rfl) fun d hd =>
        hproperties d (List.mem_cons_of_mem _ hd)
      have hvalue : chr ';' ∈ carry → trim value = [] := by
        intro hmem
        by_contra hne
        have hmem' : chr ';' ∈ trim (carry ++ a) :=
          mem_trim (by decide) (List.mem_append_left _ hmem)
        refine hproperties ⟨trim (carry ++ a), trim value⟩ ?_ hmem'
        rw [if_neg (not_or.mpr ⟨List.ne_nil_of_mem hmem', hne⟩)]
        exact List.mem_cons_self
      refine ⟨fun hmem piece hpiece => ?_, List.isChain_cons.mpr ⟨fun next _ _ => hcolon, hchain⟩,
        .cons (fun hsome => ?_) hrest⟩
      · obtain rfl := Option.some.inj hpiece
        exact fun h => (hasValue_colon ha value).mp h (hvalue hmem)
      · by_cases hfilled : trim (carry ++ a) = [] ∨ trim value = []
        · rw [if_pos hfilled] at hsome
          cases hsome
        · rcases hcarry with rfl | hmem
          · rw [List.nil_append] at hfilled
            rw [inlineDeclaration_colon ha, if_neg fun h => hfilled
              (h.imp trim_eq_nil_of_trimInline trim_eq_nil_of_trimInline)]
            rfl
          · exact absurd (hvalue hmem) fun h => hfilled (Or.inr h)
    · rw [pieceDeclarations_of_not_mem hcolon] at hproperties ⊢
      have hmem : chr ';' ∈ carry ++ piece ++ lit ";" :=
        List.mem_append_right _ List.mem_cons_self
      obtain ⟨hhead, hchain, hrest⟩ := ih (Or.inr hmem) fun d hd =>
        hproperties d (List.mem_cons_of_mem _ hd)
      refine ⟨fun _ piece hpiece => ?_, List.isChain_cons.mpr ⟨fun next hnext hvalue => ?_, hchain⟩,
        .cons (fun hsome => (nomatch hsome)) hrest⟩
      · obtain rfl := Option.some.inj hpiece
        exact not_hasValue_of_not_mem hcolon
      · exact absurd hvalue (hhead hmem next hnext)

/-- What the parser reads is trimmed. -/
theorem trimmed_of_mem_pieceDeclarations {carry : Bytes} {pieces : List Bytes} {d : CssDeclaration}
    (h : some d ∈ pieceDeclarations carry pieces) :
    trim d.property = d.property ∧ trim d.value = d.value := by
  induction pieces generalizing carry with
  | nil => exact absurd h List.not_mem_nil
  | cons piece pieces ih =>
    rw [pieceDeclarations] at h
    split at h
    · rcases List.mem_cons.mp h with h | h
      · cases h
      · exact ih h
    · rcases List.mem_cons.mp h with h | h
      · split at h
        · cases h
        · cases h
          exact ⟨trim_trim _, trim_trim _⟩
      · exact ih h

/-- Two lists with the same entries are the same when the second one has an entry wherever the
first one has one. -/
theorem eq_of_filterMap_eq {α : Type*} {xs ys : List (Option α)}
    (h : List.Forall₂ (fun x y : Option α => x.isSome → y.isSome) xs ys)
    (heq : xs.filterMap id = ys.filterMap id) : xs = ys := by
  have hlength {xs ys : List (Option α)}
      (h : List.Forall₂ (fun x y : Option α => x.isSome → y.isSome) xs ys) :
      (xs.filterMap id).length ≤ (ys.filterMap id).length := by
    induction h with
    | nil => exact le_rfl
    | @cons x y xs ys hxy _ ih =>
      rw [filterMap_id_cons, filterMap_id_cons, List.length_append, List.length_append]
      refine Nat.add_le_add ?_ ih
      cases x with
      | none => exact Nat.zero_le _
      | some x =>
        obtain ⟨y, rfl⟩ := Option.isSome_iff_exists.mp (hxy rfl)
        exact le_rfl
  induction h with
  | nil => rfl
  | @cons x y xs ys hxy hrest ih =>
    rw [filterMap_id_cons, filterMap_id_cons] at heq
    cases x with
    | some x =>
      obtain ⟨y, rfl⟩ := Option.isSome_iff_exists.mp (hxy rfl)
      obtain ⟨rfl, heq'⟩ := List.cons.inj heq
      rw [ih heq']
    | none =>
      cases y with
      | none => rw [ih heq]
      | some y =>
        have hle := hlength hrest
        have hlen := congrArg List.length heq
        rw [List.length_append, List.length_append] at hlen
        change 0 + _ = 1 + _ at hlen
        omega

/-! ## The texts -/

theorem not_mem_property {piece : Bytes} {d : CssDeclaration} {c : Byte} (hc : c ∉ piece)
    (h : inlineDeclaration piece = some d) : c ∉ d.property := by
  by_cases hcolon : chr ':' ∈ piece
  · obtain ⟨a, value, rfl, ha⟩ := List.eq_append_cons_of_mem hcolon
    rw [inlineDeclaration_colon ha] at h
    split at h
    · cases h
    · cases h
      obtain ⟨before, after, hsplit, -, -⟩ :=
        exists_trim (fun c => c == 0x20 || c == 0x09 || c == 0x0d || c == 0x0a) a
      change a = before ++ trimInline a ++ after at hsplit
      intro hmem
      rw [hsplit] at hc
      exact hc (List.mem_append_left _ (List.mem_append_left _ (List.mem_append_right _ hmem)))
  · rw [inlineDeclaration_of_not_mem hcolon] at h
    cases h

theorem filter_filterMap_id (ds : List (Option CssDeclaration)) :
    (ds.filterMap id).filter filled = (ds.map (Option.filter filled)).filterMap id := by
  rw [List.filter_filterMap, List.filterMap_map]
  rfl

/-- What the parser reads without the declarations that have no value. -/
theorem separated_iff (body : Bytes) :
    ((pieceDeclarations [] (body.splitOn (chr ';'))).filterMap id).filter filled =
        inlineDeclarations body ↔ Separated body := by
  rw [filter_filterMap_id, inlineDeclarations_eq]
  constructor
  · intro heq
    have hinline : (body.splitOn (chr ';')).filterMap inlineDeclaration =
        ((body.splitOn (chr ';')).map inlineDeclaration).filterMap id := by
      rw [List.filterMap_map]
      rfl
    have hproperties (d : CssDeclaration) (hd : some d ∈ (pieceDeclarations []
        (body.splitOn (chr ';'))).map (Option.filter filled)) : chr ';' ∉ d.property := by
      have hmem : d ∈ (body.splitOn (chr ';')).filterMap inlineDeclaration := by
        rw [← heq]
        exact List.mem_filterMap.mpr ⟨some d, hd, rfl⟩
      obtain ⟨piece, hpiece, hd⟩ := List.mem_filterMap.mp hmem
      exact not_mem_property (not_mem_of_mem_splitOn hpiece) hd
    obtain ⟨-, hchain, hforall⟩ := chain_of_properties (Or.inl rfl) hproperties
    have hsame := eq_of_filterMap_eq hforall (heq.trans hinline)
    refine ⟨hchain, fun piece hpiece d hd => ?_⟩
    have hmem : some d ∈ (pieceDeclarations [] (body.splitOn (chr ';'))).map
        (Option.filter filled) := by
      rw [hsame, ← Option.mem_def.mp hd]
      exact List.mem_map_of_mem hpiece
    obtain ⟨found, hfound, hfilled⟩ := List.mem_map.mp hmem
    obtain ⟨rfl, -⟩ := Option.filter_eq_some_iff.mp hfilled
    exact trimmed_of_mem_pieceDeclarations hfound
  · rintro ⟨hchain, htrimmed⟩
    rw [map_filter_pieceDeclarations (Or.inl rfl) hchain htrimmed, List.filterMap_map]
    rfl

/-- **Two ways to read a text**: without quotes and comments before the semicolon behind the last
colon, the `style` attribute and the rule agree exactly on the separated texts. -/
theorem agrees_iff_separated {selector : Field (lit ",\x7b")}
    (hselector : ¬ lit "/*" <:+: selector.written) {body : Bytes}
    (hbraces : chr '\x7b' ∉ body ∧ chr '\x7d' ∉ body) :
    (Unmarked body ∧ Separated body → Agrees selector body) ∧
      (Unmarked body → Agrees selector body → Separated body) := by
  have hread (hunmarked : Unmarked body) : Agrees selector body ↔ Separated body := by
    rw [← separated_iff, Agrees, parse_ruleText hselector hbraces hunmarked]
    constructor
    · rintro ⟨declarations, hparse, hagree⟩
      simp only [CssStyleSheet.mk.injEq, List.cons.injEq, CssRule.mk.injEq, and_true,
        true_and] at hparse
      rwa [hparse]
    · exact fun hagree => ⟨_, rfl, hagree⟩
  exact ⟨fun h => (hread h.1).mpr h.2, fun hunmarked => (hread hunmarked).mp⟩

theorem trim_paragraphs : trim (lit "p") = lit "p" := by decide

theorem paragraphs_ne_nil : lit "p" ≠ [] := by decide

theorem free_paragraphs : ∀ c ∈ lit "p", ¬ (c = 0x22 ∨ c = 0x27) ∧ c ∉ lit ",\x7b" := by decide

/-- The selector of the paragraphs. -/
def paragraphs : Field (lit ",\x7b") :=
  .bare (lit "p") trim_paragraphs paragraphs_ne_nil free_paragraphs

/-- A text with one semicolon. -/
theorem splitOn_pair {a b : Bytes} (ha : chr ';' ∉ a) (hb : chr ';' ∉ b) :
    (a ++ chr ';' :: b).splitOn (chr ';') = [a, b] := by
  rw [List.splitOn_append_cons_self_of_not_mem ha, List.splitOn_eq_singleton hb]

theorem agrees_iff_separated_comment : Agrees paragraphs (lit "color:red;/* \"blue\" */") := by
  have hunmarked : Unmarked (lit "color:red;/* \"blue\" */") :=
    ⟨lit "color:red", lit ";/* \"blue\" */", rfl, fun c hc => by revert c; decide, by decide,
      by decide, Or.inr (Or.inr rfl)⟩
  refine (agrees_iff_separated (by decide) ⟨by decide, by decide⟩).1 ⟨hunmarked, ?_⟩
  have hsplit : (lit "color:red;/* \"blue\" */").splitOn (chr ';') =
      [lit "color:red", lit "/* \"blue\" */"] :=
    splitOn_pair (a := lit "color:red") (b := lit "/* \"blue\" */") (by decide) (by decide)
  constructor
  · rw [hsplit, List.isChain_pair]
    decide +kernel
  · rw [hsplit]
    decide +kernel

/-- **An extra semicolon** is skipped in a `style` attribute only. -/
theorem not_forall_agrees :
    ¬ ∀ (selector : Field (lit ",\x7b")) (body : Bytes), ¬ lit "/*" <:+: selector.written →
      chr '\x7b' ∉ body ∧ chr '\x7d' ∉ body → Agrees selector body := by
  intro hall
  have hunmarked : Unmarked (lit ";color:red") :=
    ⟨lit ";color:red", [], rfl, fun c hc => by revert c; decide, by decide, List.not_mem_nil,
      Or.inr (Or.inl rfl)⟩
  obtain ⟨declarations, hparse, hagree⟩ :=
    hall paragraphs (lit ";color:red") (by decide) ⟨by decide, by decide⟩
  have hsplit : (lit ";color:red").splitOn (chr ';') = [[], lit "color:red"] :=
    splitOn_pair (a := []) (b := lit "color:red") List.not_mem_nil (by decide)
  rw [parse_ruleText (by decide) ⟨by decide, by decide⟩ hunmarked, hsplit] at hparse
  simp only [CssStyleSheet.mk.injEq, List.cons.injEq, CssRule.mk.injEq, and_true,
    true_and] at hparse
  rw [← hparse, inlineDeclarations_eq, hsplit] at hagree
  revert hagree
  decide +kernel

end Aetheris.Style
