import Aetheris.Css.Body

/-!
# Recovery

Style sheets that are printed with blanks, comments, empty declarations and malformed ones, and what
the parser makes of them.  A `Field` is a text with blanks around it, and what is printed is a list
of `SourceRule`s with an `Entry` for each declaration.

The selectors are read back always.  The body is a fold over its pieces, and it gives the
declarations that are meant as long as nothing is skipped in front of one of them; this is the
condition of `parse_written_iff`.
-/

namespace Aetheris.Css

/-! ## Trimmed texts -/

theorem trim_append_right (a : Bytes) {b : Bytes} (hb : ∀ c ∈ b, isSpace c = true) :
    trim (a ++ b) = trim a := by
  have hdrop : b.dropWhile isSpace = [] := by
    rw [← List.append_nil b, dropWhile_append_of_forall hb, List.dropWhile_nil]
  have hreverse : ∀ c ∈ b.reverse, isSpace c = true := fun c hc => hb c (List.mem_reverse.mp hc)
  rw [trim, trim, List.dropWhile_append]
  split
  next hempty =>
    rw [hdrop, List.isEmpty_iff.mp hempty]
  · rw [List.reverse_append, dropWhile_append_of_forall hreverse]

theorem mem_dropWhile_of_not {p : Byte → Bool} {c : Byte} (hc : p c = false) {text : Bytes}
    (h : c ∈ text) : c ∈ text.dropWhile p := by
  induction text with
  | nil => exact h
  | cons d text ih =>
    by_cases hd : p d = true
    · rw [List.dropWhile_cons_of_pos hd]
      rcases List.mem_cons.mp h with rfl | h
      · exact absurd hd (Bool.eq_false_iff.mp hc)
      · exact ih h
    · rwa [List.dropWhile_cons_of_neg hd]

/-- What is not a blank stays. -/
theorem mem_trim {c : Byte} (hc : isSpace c = false) {text : Bytes} (h : c ∈ text) :
    c ∈ trim text := by
  rw [trim, List.mem_reverse]
  exact mem_dropWhile_of_not hc (List.mem_reverse.mpr (mem_dropWhile_of_not hc h))

/-! ## Printed style sheets -/

/-- A text with blanks around it: it is not empty, without quotes and without some other
characters. -/
structure Field (without : Bytes) where
  before : Bytes
  text : Bytes
  after : Bytes
  blank_before : ∀ c ∈ before, isSpace c = true
  blank_after : ∀ c ∈ after, isSpace c = true
  trim_text : trim text = text
  text_ne_nil : text ≠ []
  unquoted : Unquoted text
  free : ∀ c ∈ text, c ∉ without

namespace Field

variable {without : Bytes} (field : Field without)

/-- The text as it is printed. -/
def written : Bytes := field.before ++ field.text ++ field.after

theorem trim_written : trim field.written = field.text := by
  rw [written, trim_append_right _ field.blank_after, trim_append_left field.blank_before,
    field.trim_text]

theorem forall_mem_written {P : Byte → Prop} (hblank : ∀ c, isSpace c = true → P c)
    (htext : ∀ c ∈ field.text, P c) : ∀ c ∈ field.written, P c := by
  intro c hc
  rw [written, List.mem_append, List.mem_append] at hc
  rcases hc with (hc | hc) | hc
  · exact hblank c (field.blank_before c hc)
  · exact htext c hc
  · exact hblank c (field.blank_after c hc)

theorem not_mem_written {c : Byte} (hc : c ∈ without) (hspace : isSpace c = false) :
    c ∉ field.written := fun hmem =>
  field.forall_mem_written (P := (· ≠ c))
    (fun _ hd heq => Bool.eq_false_iff.mp hspace (heq ▸ hd))
    (fun d hd heq => field.free d hd (heq ▸ hc)) c hmem rfl

theorem unquoted_of_isSpace {c : Byte} (hc : isSpace c = true) : ¬ (c = 0x22 ∨ c = 0x27) := by
  rintro (rfl | rfl) <;> exact absurd hc (by decide)

theorem unquoted_written : Unquoted field.written :=
  field.forall_mem_written (fun _ => unquoted_of_isSpace) field.unquoted

end Field

/-- What stands between the semicolons of a rule. -/
inductive Entry
  /-- A well-formed declaration. -/
  | declaration (property : Field (lit ":;\x7b\x7d")) (value : Field (lit ";\x7b\x7d"))
  /-- Nothing, or a malformed declaration. -/
  | skipped (text : Bytes) (unquoted : Unquoted text) (free : ∀ c ∈ text, c ∉ lit ":;\x7b\x7d")

namespace Entry

/-- The text of an entry. -/
def written : Entry → Bytes
  | declaration property value => property.written ++ chr ':' :: value.written
  | skipped text _ _ => text

/-- The declaration that an entry is. -/
def declaration? : Entry → Option CssDeclaration
  | declaration property value => some ⟨property.text, value.text⟩
  | skipped _ _ _ => none

theorem not_mem_written (entry : Entry) : chr ';' ∉ entry.written ∧ chr '\x7d' ∉ entry.written := by
  cases entry with
  | declaration property value =>
    rw [written, List.mem_append, List.mem_append, List.mem_cons, List.mem_cons]
    have hproperty (c : Byte) (hc : c ∈ lit ";\x7d") : c ∉ property.written :=
      property.not_mem_written (by revert c; decide) (by revert c; decide)
    have hvalue (c : Byte) (hc : c ∈ lit ";\x7d") : c ∉ value.written :=
      value.not_mem_written (by revert c; decide) (by revert c; decide)
    constructor <;>
    · rintro (h | h | h)
      · exact hproperty _ (by decide) h
      · exact absurd h (by decide)
      · exact hvalue _ (by decide) h
  | skipped text _ free => exact ⟨fun h => free _ h (by decide), fun h => free _ h (by decide)⟩

theorem unquoted_written (entry : Entry) : Unquoted entry.written := by
  cases entry with
  | declaration property value =>
    intro c hc
    rw [written, List.mem_append, List.mem_cons] at hc
    rcases hc with hc | rfl | hc
    · exact property.unquoted_written c hc
    · decide
    · exact value.unquoted_written c hc
  | skipped text unquoted _ => exact unquoted

end Entry

/-- A rule as it is printed. -/
structure SourceRule where
  selectors : List (Field (lit ",\x7b"))
  selectors_ne_nil : selectors ≠ []
  entries : List Entry

namespace SourceRule

/-- The text of a rule. -/
def written (rule : SourceRule) : Bytes :=
  (lit ",").intercalate (rule.selectors.map Field.written) ++ chr '\x7b' ::
    ((lit ";").intercalate (rule.entries.map Entry.written) ++ [chr '\x7d'])

/-- The rule that is meant. -/
def rule (rule : SourceRule) (sourceOrder : ℕ) : CssRule :=
  ⟨rule.selectors.map Field.text, rule.entries.filterMap Entry.declaration?, sourceOrder⟩

end SourceRule

/-- The text of a style sheet, and blanks behind it. -/
def writtenSheet (sheet : List SourceRule) (blank : Bytes) : Bytes :=
  sheet.flatMap SourceRule.written ++ blank

/-- The style sheet that is meant. -/
def sourceSheet (sheet : List SourceRule) : CssStyleSheet :=
  ⟨sheet.mapIdx fun sourceOrder rule => rule.rule sourceOrder⟩

/-! ## Selectors -/

/-- Blanks before a selector do not matter. -/
theorem readSelectors_append_left {blank : Bytes} (hblank : ∀ c ∈ blank, isSpace c = true)
    (selectors : List Bytes) (selector : Bytes) (tokens : List CssToken) :
    readSelectors selectors (blank ++ selector) tokens = readSelectors selectors selector tokens := by
  induction tokens generalizing selector with
  | nil => rfl
  | cons token tokens ih =>
    have hadd : addSelector selectors (blank ++ selector) = addSelector selectors selector := by
      rw [addSelector, addSelector, trim_append_left hblank]
    rw [readSelectors, readSelectors, hadd]
    split
    · rfl
    · rfl
    · rfl
    · rw [List.append_assoc]
      exact ih _

theorem readSelectors_dropWhile {tokens : List CssToken}
    (hblank : ∀ token ∈ tokens, token.type = .whitespace → ∀ c ∈ token.value, isSpace c = true)
    (selectors : List Bytes) :
    readSelectors selectors [] (tokens.dropWhile fun token => token.type == .whitespace) =
      readSelectors selectors [] tokens := by
  induction tokens with
  | nil => rfl
  | cons token tokens ih =>
    obtain ⟨hfirst, hrest⟩ := List.forall_mem_cons.mp hblank
    by_cases htype : token.type = .whitespace
    · have hvalue := readSelectors_append_left (hfirst htype) selectors [] tokens
      rw [List.append_nil] at hvalue
      have hdrop : (token :: tokens).dropWhile (fun token => token.type == .whitespace) =
          tokens.dropWhile (fun token => token.type == .whitespace) :=
        List.dropWhile_cons_of_pos (by simpa using htype)
      rw [hdrop, ih hrest, readSelectors, htype]
      exact hvalue.symm
    · rw [List.dropWhile_cons_of_neg (by simpa using htype)]

theorem readSelectors_append {before : List CssToken} (hplain : ∀ token ∈ before, Plain token)
    (hbefore : chr ',' ∉ joinValue before ∧ chr '\x7b' ∉ joinValue before)
    (selectors : List Bytes) (selector : Bytes) (tokens : List CssToken) :
    readSelectors selectors selector (before ++ tokens) =
      readSelectors selectors (selector ++ joinValue before) tokens := by
  induction before generalizing selector with
  | nil => rw [joinValue, List.flatMap_nil, List.append_nil, List.nil_append]
  | cons token before ih =>
    have hcomma := type_ne_of_not_mem hplain stopOf_comma hbefore.1 token
      List.mem_cons_self
    have hbrace := type_ne_of_not_mem hplain stopOf_openBrace hbefore.2 token
      List.mem_cons_self
    have hend := type_ne_endOfFile (hplain token List.mem_cons_self)
    have hrest : chr ',' ∉ joinValue before ∧ chr '\x7b' ∉ joinValue before :=
      ⟨fun h => hbefore.1 (List.mem_append_right _ h),
        fun h => hbefore.2 (List.mem_append_right _ h)⟩
    have hround : readSelectors selectors selector (token :: (before ++ tokens)) =
        readSelectors selectors (selector ++ token.value) (before ++ tokens) := by
      rw [readSelectors]
      cases htype : token.type <;> first | rfl | exact absurd htype ‹_›
    rw [List.cons_append, hround,
      ih (fun t ht => hplain t (List.mem_cons_of_mem _ ht)) hrest, List.append_assoc]
    rfl

/-- **The selectors of a rule.** -/
theorem readSelectors_written {fields : List (Field (lit ",\x7b"))} (hne : fields ≠ [])
    {tokens : List CssToken} (hplain : ∀ token ∈ tokens, Plain token) {rest : Bytes}
    (hjoin : joinValue tokens =
      (lit ",").intercalate (fields.map Field.written) ++ chr '\x7b' :: rest)
    (tail : List CssToken) (selectors : List Bytes) :
    ∃ behind, readSelectors selectors [] (tokens ++ tail) =
        some (selectors ++ fields.map Field.text, behind ++ tail) ∧
      (∀ token ∈ behind, Plain token) ∧ joinValue behind = rest := by
  induction fields generalizing tokens selectors with
  | nil => exact absurd rfl hne
  | cons field fields ih =>
    have hfree : chr ',' ∉ field.written ∧ chr '\x7b' ∉ field.written :=
      ⟨field.not_mem_written (by decide) (by decide), field.not_mem_written (by decide) (by decide)⟩
    have hadd : addSelector selectors field.written = selectors ++ [field.text] := by
      rw [addSelector, field.trim_written, if_neg field.text_ne_nil]
    cases fields with
    | nil =>
      rw [List.map_singleton, List.intercalate_singleton] at hjoin
      obtain ⟨before, behind, rfl, hbefore, hrest⟩ :=
        exists_split_of_join hplain stopOf_openBrace hjoin
      rw [← hbefore] at hfree hadd
      refine ⟨behind, ?_, fun token h => hplain token (List.mem_append_right _
        (List.mem_cons_of_mem _ h)), hrest⟩
      rw [List.append_assoc, readSelectors_append
        (fun token h => hplain token (List.mem_append_left _ h)) hfree, List.nil_append,
        List.cons_append, readSelectors, hadd]
      rfl
    | cons next fields =>
      have hjoin' : joinValue tokens = field.written ++ chr ',' ::
          ((lit ",").intercalate ((next :: fields).map Field.written) ++ chr '\x7b' :: rest) := by
        rw [hjoin, List.map_cons, List.map_cons, List.intercalate_cons_cons, List.append_assoc,
          List.append_assoc]
        rfl
      obtain ⟨before, behind, rfl, hbefore, hrest⟩ :=
        exists_split_of_join hplain stopOf_comma hjoin'
      rw [← hbefore] at hfree hadd
      obtain ⟨behind', hread, hbehind'⟩ := ih (List.cons_ne_nil _ _)
        (fun token h => hplain token (List.mem_append_right _ (List.mem_cons_of_mem _ h))) hrest
        (selectors ++ [field.text])
      refine ⟨behind', ?_, hbehind'⟩
      rw [List.append_assoc, readSelectors_append
        (fun token h => hplain token (List.mem_append_left _ h)) hfree, List.nil_append,
        List.cons_append, readSelectors, hadd, hread, List.append_assoc]
      rfl

/-! ## Declarations -/

/-- A property with a semicolon is not one that is meant. -/
theorem carried_ne {carry : Bytes} (hcarry : chr ';' ∈ carry)
    (property : Field (lit ":;\x7b\x7d")) (behind : Bytes) :
    trim (carry ++ behind) ≠ property.text := fun heq =>
  property.free _ (heq ▸ mem_trim (by decide) (List.mem_append_left _ hcarry)) (by decide)

theorem find_written (property : Field (lit ":;\x7b\x7d")) (value : Field (lit ";\x7b\x7d")) :
    find (Entry.declaration property value).written (lit ":") = some property.written.length :=
  find_singleton_append (property.not_mem_written (by decide) (by decide)) value.written

theorem pieceDeclarations_declaration (carry : Bytes) (property : Field (lit ":;\x7b\x7d"))
    (value : Field (lit ";\x7b\x7d")) (pieces : List Bytes) :
    pieceDeclarations carry ((Entry.declaration property value).written :: pieces) =
      (if trim (carry ++ property.written) = [] then none
        else some ⟨trim (carry ++ property.written), value.text⟩) ::
        pieceDeclarations [] pieces := by
  rw [pieceDeclarations, find_written]
  dsimp only
  rw [Entry.written, List.take_left' rfl, drop_append_cons, value.trim_written]

theorem pieceDeclarations_skipped {carry text : Bytes} {unquoted : Unquoted text}
    {free : ∀ c ∈ text, c ∉ lit ":;\x7b\x7d"} (pieces : List Bytes) :
    pieceDeclarations carry ((Entry.skipped text unquoted free).written :: pieces) =
      none :: pieceDeclarations (carry ++ text ++ lit ";") pieces := by
  have hnone : find text (lit ":") = none :=
    find_singleton_eq_none_iff.mpr fun h => free _ h (by decide)
  rw [pieceDeclarations, Entry.written, hnone]

/-- What is carried spoils the next declaration. -/
theorem pieceDeclarations_carry_iff {carry : Bytes} (hcarry : chr ';' ∈ carry)
    (entries : List Entry) :
    (pieceDeclarations carry (entries.map Entry.written)).filterMap id =
        entries.filterMap Entry.declaration? ↔
      ∀ entry ∈ entries, entry.declaration? = none := by
  induction entries generalizing carry with
  | nil => exact ⟨fun _ _ h => absurd h List.not_mem_nil, fun _ => rfl⟩
  | cons entry entries ih =>
    rw [List.forall_mem_cons, List.map_cons]
    cases entry with
    | declaration property value =>
      have hne : trim (carry ++ property.written) ≠ [] :=
        List.ne_nil_of_mem (mem_trim (by decide) (List.mem_append_left _ hcarry))
      rw [pieceDeclarations_declaration, if_neg hne]
      refine ⟨fun heq => ?_, fun hall => nomatch hall.1⟩
      have hfirst := (List.cons.inj heq).1
      exact absurd (congrArg CssDeclaration.property hfirst) (carried_ne hcarry property _)
    | skipped text unquoted free =>
      rw [pieceDeclarations_skipped]
      refine (ih (List.mem_append_left _ (List.mem_append_left _ hcarry))).trans ?_
      exact ⟨fun hall => ⟨rfl, hall⟩, And.right⟩

/-- **The declarations of a rule** are the ones that are meant when nothing is skipped before one
of them. -/
theorem pieceDeclarations_written_iff (entries : List Entry) :
    (pieceDeclarations [] (entries.map Entry.written)).filterMap id =
        entries.filterMap Entry.declaration? ↔
      entries.Pairwise fun a b => b.declaration?.isSome → a.declaration?.isSome := by
  induction entries with
  | nil => exact ⟨fun _ => .nil, fun _ => rfl⟩
  | cons entry entries ih =>
    rw [List.pairwise_cons, List.map_cons]
    cases entry with
    | declaration property value =>
      have hne : trim ([] ++ property.written) ≠ [] := by
        rw [List.nil_append, property.trim_written]
        exact property.text_ne_nil
      rw [pieceDeclarations_declaration, if_neg hne, List.nil_append, property.trim_written]
      show _ :: _ = _ :: _ ↔ _
      rw [List.cons_inj_right, ih]
      exact ⟨fun h => ⟨fun _ _ _ => rfl, h⟩, And.right⟩
    | skipped text unquoted free =>
      rw [pieceDeclarations_skipped]
      refine (pieceDeclarations_carry_iff (List.mem_append_right _ List.mem_cons_self)
        entries).trans ?_
      constructor
      · intro hall
        have hnone (b : Entry) (hb : b ∈ entries) : b.declaration?.isSome ≠ true := by
          rw [hall b hb]
          exact Bool.false_ne_true
        exact ⟨fun b hb hsome => absurd hsome (hnone b hb),
          List.pairwise_of_forall_mem_list fun _ _ b hb hsome => absurd hsome (hnone b hb)⟩
      · rintro ⟨hall, -⟩ b hb
        exact Option.not_isSome_iff_eq_none.mp fun hsome => nomatch hall b hb hsome

/-! ## Style sheets -/

/-- A rule with the declarations that are read. -/
def SourceRule.read (rule : SourceRule) (sourceOrder : ℕ) : CssRule :=
  ⟨rule.selectors.map Field.text,
    (pieceDeclarations [] (rule.entries.map Entry.written)).filterMap id, sourceOrder⟩

theorem unquoted_intercalate {c : Byte} (hc : Unquoted [c]) {pieces : List Bytes}
    (hpieces : ∀ piece ∈ pieces, Unquoted piece) : Unquoted ([c].intercalate pieces) := by
  induction pieces with
  | nil => exact fun d hd => absurd hd List.not_mem_nil
  | cons piece pieces ih =>
    obtain ⟨hpiece, hrest⟩ := List.forall_mem_cons.mp hpieces
    cases pieces with
    | nil =>
      rw [List.intercalate_singleton]
      exact hpiece
    | cons next pieces =>
      rw [List.intercalate_cons_cons]
      intro d hd
      rw [List.mem_append, List.mem_append] at hd
      rcases hd with (hd | hd) | hd
      · exact hpiece d hd
      · exact hc d hd
      · exact ih hrest d hd

theorem SourceRule.unquoted_written (rule : SourceRule) : Unquoted rule.written := by
  have hselectors : Unquoted ((lit ",").intercalate (rule.selectors.map Field.written)) := by
    refine unquoted_intercalate (c := chr ',') (fun c hc => ?_) fun piece hpiece => ?_
    · rw [List.mem_singleton.mp hc]
      decide
    · obtain ⟨field, -, rfl⟩ := List.mem_map.mp hpiece
      exact field.unquoted_written
  have hentries : Unquoted ((lit ";").intercalate (rule.entries.map Entry.written)) := by
    refine unquoted_intercalate (c := chr ';') (fun c hc => ?_) fun piece hpiece => ?_
    · rw [List.mem_singleton.mp hc]
      decide
    · obtain ⟨entry, -, rfl⟩ := List.mem_map.mp hpiece
      exact entry.unquoted_written
  intro c hc
  rw [written, List.mem_append, List.mem_cons, List.mem_append, List.mem_singleton] at hc
  rcases hc with hc | rfl | hc | rfl
  · exact hselectors c hc
  · decide
  · exact hentries c hc
  · decide

theorem unquoted_writtenSheet (sheet : List SourceRule) {blank : Bytes}
    (hblank : ∀ c ∈ blank, isSpace c = true) : Unquoted (writtenSheet sheet blank) := by
  intro c hc
  rcases List.mem_append.mp hc with hc | hc
  · obtain ⟨rule, -, hc⟩ := List.mem_flatMap.mp hc
    exact rule.unquoted_written c hc
  · exact Field.unquoted_of_isSpace (hblank c hc)

/-- Without a brace there is no rule. -/
theorem readSelectors_eq_none {tokens : List CssToken}
    (htokens : ∀ token ∈ tokens, token.type ≠ .openBrace) (selectors : List Bytes)
    (selector : Bytes) : readSelectors selectors selector tokens = none := by
  induction tokens generalizing selectors selector with
  | nil => rfl
  | cons token tokens ih =>
    obtain ⟨hfirst, hrest⟩ := List.forall_mem_cons.mp htokens
    rw [readSelectors]
    split
    · rfl
    · exact absurd ‹_› hfirst
    · exact ih hrest _ _
    · exact ih hrest _ _

theorem parseRules_of_no_brace {tokens : List CssToken}
    (htokens : ∀ token ∈ tokens, token.type ≠ .openBrace) (rules : List CssRule)
    (sourceOrder : ℕ) : parseRules tokens rules sourceOrder = rules := by
  rw [parseRules]
  split
  · rfl
  · rw [readSelectors_eq_none fun token h => htokens token ((List.dropWhile_suffix _).subset h)]

theorem blank_of_whitespace {tokens : List CssToken} (hplain : ∀ token ∈ tokens, Plain token) :
    ∀ token ∈ tokens ++ [⟨.endOfFile, []⟩], token.type = .whitespace →
      ∀ c ∈ token.value, isSpace c = true := by
  intro token htoken htype
  rcases List.mem_append.mp htoken with htoken | htoken
  · exact isSpace_of_whitespace (hplain token htoken) htype
  · rw [List.mem_singleton.mp htoken] at htype
    cases htype

/-- **The loop over the rules.** -/
theorem parseRules_written (sheet : List SourceRule) {blank : Bytes}
    (hblank : ∀ c ∈ blank, isSpace c = true) {tokens : List CssToken}
    (hplain : ∀ token ∈ tokens, Plain token) (hjoin : joinValue tokens = writtenSheet sheet blank)
    (rules : List CssRule) (sourceOrder : ℕ) :
    parseRules (tokens ++ [⟨.endOfFile, []⟩]) rules sourceOrder =
      rules ++ sheet.mapIdx fun i rule => rule.read (sourceOrder + i) := by
  induction sheet generalizing tokens rules sourceOrder with
  | nil =>
    rw [List.mapIdx_nil, List.append_nil]
    refine parseRules_of_no_brace (fun token htoken => ?_) _ _
    rcases List.mem_append.mp htoken with htoken | htoken
    · refine type_ne_of_not_mem hplain rfl (fun hmem => ?_) token htoken
      rw [hjoin] at hmem
      exact absurd (hblank _ hmem) (by decide)
    · rw [List.mem_singleton.mp htoken]
      exact nofun
  | cons rule sheet ih =>
    have hjoin' : joinValue tokens =
        (lit ",").intercalate (rule.selectors.map Field.written) ++ chr '\x7b' ::
          ((lit ";").intercalate (rule.entries.map Entry.written) ++ chr '\x7d' ::
            writtenSheet sheet blank) := by
      rw [hjoin, writtenSheet, List.flatMap_cons, SourceRule.written, writtenSheet]
      simp only [List.append_assoc, List.cons_append, List.nil_append]
    have hnil : tokens ≠ [] := by
      rintro rfl
      exact absurd hjoin' (List.append_ne_nil_of_right_ne_nil _ (List.cons_ne_nil _ _)).symm
    obtain ⟨body, hselectors, hbody, hbodyJoin⟩ := readSelectors_written rule.selectors_ne_nil
      hplain hjoin' [⟨.endOfFile, []⟩] []
    have hpieces : ∀ piece ∈ rule.entries.map Entry.written,
        chr ';' ∉ piece ∧ chr '\x7d' ∉ piece := by
      intro piece hpiece
      obtain ⟨entry, -, rfl⟩ := List.mem_map.mp hpiece
      exact entry.not_mem_written
    obtain ⟨inner, behind, rfl, hinnerJoin, hbehindJoin⟩ :=
      exists_split_of_join hbody stopOf_closeBrace hbodyJoin
    have hinner : ∀ token ∈ inner, Plain token := fun token h =>
      hbody token (List.mem_append_left _ h)
    have hbehind : ∀ token ∈ behind, Plain token := fun token h =>
      hbody token (List.mem_append_right _ (List.mem_cons_of_mem _ h))
    obtain ⟨_, hdeclarations, rfl⟩ := readDeclarations_pieces
      (bodyEnd_closeBrace [chr '\x7d'] (behind ++ [⟨.endOfFile, []⟩])) hpieces
      not_mem_nil_and hinner hinnerJoin []
    have hne : rule.selectors.map Field.text ≠ [] :=
      fun h => rule.selectors_ne_nil (List.map_eq_nil_iff.mp h)
    rw [parseRules, if_neg (not_at_end hplain hnil _),
      readSelectors_dropWhile (blank_of_whitespace hplain), hselectors]
    dsimp only
    rw [List.append_assoc, List.cons_append, hdeclarations, List.nil_append, List.nil_append,
      if_neg hne, ih hbehind hbehindJoin]
    rw [List.mapIdx_cons, List.append_assoc]
    simp only [Nat.add_assoc, Nat.add_comm 1, Nat.add_zero]
    rfl

/-- What is read of a printed style sheet, with comments anywhere in it. -/
theorem parse_written (sheet : List SourceRule) {blank : Bytes}
    (hblank : ∀ c ∈ blank, isSpace c = true) {text : Bytes}
    (h : Commented (writtenSheet sheet blank) text) :
    parse text = ⟨sheet.mapIdx fun sourceOrder rule => rule.read sourceOrder⟩ := by
  obtain ⟨hjoin, hplain⟩ := plain_tokenizeText h (unquoted_writtenSheet sheet hblank)
  rw [parse, parseTokens, tokenize, parseRules_written sheet hblank hplain hjoin, List.nil_append]
  simp only [Nat.zero_add]

/-- **A printed style sheet**, with comments anywhere in it, is read as it is meant exactly when no
empty and no malformed declaration stands before a well-formed one of the same rule. -/
theorem parse_written_iff (sheet : List SourceRule) {blank : Bytes}
    (hblank : ∀ c ∈ blank, isSpace c = true) {text : Bytes}
    (h : Commented (writtenSheet sheet blank) text) :
    parse text = sourceSheet sheet ↔
      ∀ rule ∈ sheet,
        rule.entries.Pairwise fun a b => b.declaration?.isSome → a.declaration?.isSome := by
  have hrule (i : ℕ) (rule : SourceRule) : rule.read i = rule.rule i ↔
      rule.entries.Pairwise fun a b => b.declaration?.isSome → a.declaration?.isSome := by
    rw [← pieceDeclarations_written_iff, SourceRule.read, SourceRule.rule, CssRule.mk.injEq]
    exact ⟨fun h => h.2.1, fun h => ⟨rfl, h, rfl⟩⟩
  rw [parse_written sheet hblank h, sourceSheet, CssStyleSheet.mk.injEq,
    List.mapIdx_eq_mapIdx_iff, List.forall_mem_iff_forall_getElem]
  exact forall₂_congr fun i hi => hrule i sheet[i]

/-- A text without blanks. -/
def Field.bare {without : Bytes} (text : Bytes) (htrim : trim text = text) (hne : text ≠ [])
    (hfree : ∀ c ∈ text, ¬ (c = 0x22 ∨ c = 0x27) ∧ c ∉ without) : Field without where
  before := []
  text := text
  after := []
  blank_before := blank_nil
  blank_after := blank_nil
  trim_text := htrim
  text_ne_nil := hne
  unquoted := fun c hc => (hfree c hc).1
  free := fun c hc => (hfree c hc).2

/-- The declaration of a red text. -/
def redEntry : Entry :=
  .declaration (.bare (lit "color") (by decide) (by decide) (by decide))
    (.bare (lit "red") (by decide) (by decide) (by decide))

/-- A rule for the paragraphs. -/
def paragraphRule (entries : List Entry) : SourceRule where
  selectors := [.bare (lit "p") (by decide) (by decide) (by decide)]
  selectors_ne_nil := List.cons_ne_nil _ _
  entries := entries

theorem parse_written_iff_comment :
    parse (lit "/*a;b*/p\x7bcolor:red;;\x7d") = ⟨[⟨[lit "p"], [⟨lit "color", lit "red"⟩], 0⟩]⟩ := by
  refine (parse_written_iff [paragraphRule [redEntry, .skipped [] nofun nofun,
    .skipped [] nofun nofun]] (List.forall_mem_nil fun c => isSpace c = true) (.comment (lit "a;b") (by decide)
    (Commented.refl (t := lit "p\x7bcolor:red;;\x7d") (by decide)))).mpr ?_
  simp [paragraphRule, redEntry, Entry.declaration?]

/-- **An extra semicolon** spoils the declaration behind it. -/
theorem not_forall_parse_written :
    ¬ ∀ (sheet : List SourceRule) (blank text : Bytes), (∀ c ∈ blank, isSpace c = true) →
      Commented (writtenSheet sheet blank) text → parse text = sourceSheet sheet := by
  intro hall
  have htext : Commented (writtenSheet [paragraphRule [.skipped [] nofun nofun, redEntry]] [])
      (lit "p\x7b;color:red\x7d") := Commented.refl (by decide)
  have hempty : ∀ c ∈ ([] : Bytes), isSpace c = true := by decide
  have heq := hall _ [] _ hempty htext
  rw [parse_written _ hempty htext] at heq
  revert heq
  decide

end Aetheris.Css
