import Aetheris.Css.Reading
import Aetheris.Find

/-!
# The body of a rule

The parser looks for a colon across semicolons: a piece without a colon becomes a part of the
property of the next declaration.  So the body of a rule is cut at its semicolons, and a fold over
the pieces (`pieceDeclarations`) carries what has been read without a colon.  One round of the
parser takes a piece or several, and by induction on the pieces it reads what the fold says
(`readDeclarations_pieces`).
-/

namespace Aetheris.Css

/-! ## Blanks -/

theorem dropWhile_append_of_forall {α : Type*} {p : α → Bool} {a : List α} (ha : ∀ c ∈ a, p c = true)
    (b : List α) : (a ++ b).dropWhile p = b.dropWhile p := by
  induction a with
  | nil => rfl
  | cons c a ih =>
    obtain ⟨hc, hrest⟩ := List.forall_mem_cons.mp ha
    rw [List.cons_append, List.dropWhile_cons_of_pos hc, ih hrest]

theorem trim_append_left {a : Bytes} (ha : ∀ c ∈ a, isSpace c = true) (b : Bytes) :
    trim (a ++ b) = trim b := by
  rw [trim, dropWhile_append_of_forall ha, trim]

/-! ## The colon of a piece -/

theorem exists_of_find_singleton {piece : Bytes} {c : Byte} {i : ℕ} (h : find piece [c] = some i) :
    ∃ a b, piece = a ++ c :: b ∧ c ∉ a ∧ i = a.length := by
  have hmem : c ∈ piece := by
    by_contra hnot
    exact nomatch (find_singleton_eq_none_iff.mpr hnot).symm.trans h
  obtain ⟨a, b, rfl, ha⟩ := List.eq_append_cons_of_mem hmem
  exact ⟨a, b, rfl, ha, (Option.some.inj ((find_singleton_append ha b).symm.trans h)).symm⟩

theorem drop_append_cons {α : Type*} (a : List α) (c : α) (b : List α) :
    (a ++ c :: b).drop (a.length + 1) = b := by
  rw [List.drop_append, List.drop_eq_nil_of_le (Nat.le_succ _), Nat.add_sub_cancel_left]
  rfl

/-! ## The rounds -/

/-- The declarations that end in each of the pieces; `carry` is what has been read of a property. -/
def pieceDeclarations : Bytes → List Bytes → List (Option CssDeclaration)
  | _, [] => []
  | carry, piece :: pieces =>
    match find piece (lit ":") with
    | none => none :: pieceDeclarations (carry ++ piece ++ lit ";") pieces
    | some colon =>
      let property := trim (carry ++ piece.take colon)
      (if property = [] then none else some ⟨property, trim (piece.drop (colon + 1))⟩) ::
        pieceDeclarations [] pieces

theorem filterMap_id_cons {α : Type*} (a : Option α) (l : List (Option α)) :
    (a :: l).filterMap id = a.toList ++ l.filterMap id := by
  cases a <;> rfl

theorem dropWhile_blank_append (before : List CssToken) {token : CssToken}
    (htoken : token.type ≠ .whitespace) (behind : List CssToken) :
    (before ++ token :: behind).dropWhile (fun token => token.type == .whitespace) =
      before.dropWhile (fun token => token.type == .whitespace) ++ token :: behind := by
  have hstop : (token :: behind).dropWhile (fun token => token.type == .whitespace) =
      token :: behind := List.dropWhile_cons_of_neg (by simpa using htoken)
  rw [List.dropWhile_append, hstop]
  split
  next hempty =>
    rw [List.isEmpty_iff.mp hempty, List.nil_append]
  · rfl

theorem takeWhile_not_append {p : CssToken → Bool} {before : List CssToken}
    (hbefore : ∀ token ∈ before, p token = false) {token : CssToken} (htoken : p token = true)
    (behind : List CssToken) :
    (before ++ token :: behind).takeWhile (fun t => !p t) = before ∧
      (before ++ token :: behind).dropWhile (fun t => !p t) = token :: behind := by
  have hall : ∀ t ∈ before, (!p t) = true := fun t ht => by rw [hbefore t ht]; rfl
  have hstop : ¬ (!p token) = true := by simp [htoken]
  refine ⟨?_, ?_⟩
  · rw [List.takeWhile_append_of_pos hall, List.takeWhile_cons_of_neg (p := fun t => !p t) hstop,
      List.append_nil]
  · rw [dropWhile_append_of_forall hall, List.dropWhile_cons_of_neg (p := fun t => !p t) hstop]

/-- A property that is not there. -/
theorem readDeclaration_stop {before : List CssToken}
    (hbefore : ∀ token ∈ before, endsProperty token = false) (value : Bytes)
    (behind : List CssToken) :
    readDeclaration (before ++ ⟨.closeBrace, value⟩ :: behind) = .stop behind := by
  have hrest : ∀ token ∈ before.dropWhile (fun token => token.type == .whitespace),
      endsProperty token = false := fun token htoken =>
    hbefore token (List.dropWhile_suffix _ |>.subset htoken)
  rw [readDeclaration,
    dropWhile_blank_append before (show CssTokenType.closeBrace ≠ .whitespace by decide)]
  generalize before.dropWhile (fun token => token.type == .whitespace) = left at hrest
  cases left with
  | nil => rfl
  | cons token left =>
    have hne : token.type ≠ .closeBrace := by
      have hends := hrest token List.mem_cons_self
      rw [endsProperty, Bool.or_eq_false_iff, beq_eq_false_iff_ne, beq_eq_false_iff_ne] at hends
      exact hends.2
    have hdrop := (takeWhile_not_append hrest (show endsProperty ⟨.closeBrace, value⟩ = true from rfl)
      behind).2
    rw [List.cons_append] at hdrop ⊢
    simp only [if_neg hne, hdrop, if_true]

/-- A declaration. -/
theorem readDeclaration_colon {before inner : List CssToken}
    (hplain : ∀ token ∈ before, Plain token)
    (hbefore : ∀ token ∈ before, endsProperty token = false)
    (hinner : ∀ token ∈ inner, endsValue token = false) {last : CssToken}
    (hlast : endsValue last = true) (value : Bytes) (behind : List CssToken) :
    readDeclaration (before ++ ⟨.colon, value⟩ :: (inner ++ last :: behind)) =
      .declaration (if trim (joinValue before) = [] then none
        else some ⟨trim (joinValue before), trim (joinValue inner)⟩) (last.type == .semicolon)
        behind := by
  have hrest : ∀ token ∈ before.dropWhile (fun token => token.type == .whitespace),
      endsProperty token = false := fun token htoken =>
    hbefore token (List.dropWhile_suffix _ |>.subset htoken)
  have htrim : trim (joinValue (before.dropWhile fun token => token.type == .whitespace)) =
      trim (joinValue before) := by
    have hblank : ∀ c ∈ joinValue (before.takeWhile fun token => token.type == .whitespace),
        isSpace c = true := by
      intro c hc
      obtain ⟨token, htoken, hc⟩ := List.mem_flatMap.mp hc
      have htype := List.all_eq_true.mp List.all_takeWhile token htoken
      exact isSpace_of_whitespace (hplain token (List.takeWhile_prefix _ |>.subset htoken))
        (beq_iff_eq.mp htype) c hc
    rw [← trim_append_left hblank, joinValue, joinValue, ← List.flatMap_append,
      List.takeWhile_append_dropWhile]
    rfl
  have hvalue := takeWhile_not_append hinner hlast behind
  rw [readDeclaration,
    dropWhile_blank_append before (show CssTokenType.colon ≠ .whitespace by decide), ← htrim]
  generalize before.dropWhile (fun token => token.type == .whitespace) = left at hrest
  have hproperty := takeWhile_not_append hrest (show endsProperty ⟨.colon, value⟩ = true from rfl)
    (inner ++ last :: behind)
  cases left with
  | nil =>
    rw [List.nil_append] at hproperty ⊢
    simp only [hproperty, hvalue]
    rfl
  | cons token left =>
    have hne : token.type ≠ .closeBrace := by
      have hends := hrest token List.mem_cons_self
      rw [endsProperty, Bool.or_eq_false_iff, beq_eq_false_iff_ne, beq_eq_false_iff_ne] at hends
      exact hends.2
    rw [List.cons_append] at hproperty ⊢
    simp only [if_neg hne, hproperty, hvalue]
    rfl

section Readers

variable {tokens : List CssToken} (hplain : ∀ token ∈ tokens, Plain token)

include hplain

theorem not_at_end (htokens : tokens ≠ []) (tail : List CssToken) :
    ¬ (tokens ++ tail = [] ∨ (tokens ++ tail).head?.map (·.type) = some .endOfFile) := by
  cases tokens with
  | nil => exact absurd rfl htokens
  | cons token tokens =>
    rintro (hnil | hend)
    · exact List.cons_ne_nil _ _ hnil
    · exact type_ne_endOfFile (hplain token List.mem_cons_self) (Option.some.inj hend)

theorem endsProperty_of_not_mem (ha : chr ':' ∉ joinValue tokens ∧ chr '\x7d' ∉ joinValue tokens) :
    ∀ token ∈ tokens, endsProperty token = false := by
  intro token htoken
  have hcolon := type_ne_of_not_mem hplain stopOf_colon ha.1 token htoken
  have hbrace := type_ne_of_not_mem hplain stopOf_closeBrace ha.2 token htoken
  rw [endsProperty, Bool.or_eq_false_iff, beq_eq_false_iff_ne, beq_eq_false_iff_ne]
  exact ⟨hcolon, hbrace⟩

theorem endsValue_of_not_mem (ha : chr ';' ∉ joinValue tokens ∧ chr '\x7d' ∉ joinValue tokens) :
    ∀ token ∈ tokens, endsValue token = false := by
  intro token htoken
  have hsemicolon := type_ne_of_not_mem hplain stopOf_semicolon ha.1 token htoken
  have hbrace := type_ne_of_not_mem hplain stopOf_closeBrace ha.2 token htoken
  rw [endsValue, Bool.or_eq_false_iff, beq_eq_false_iff_ne, beq_eq_false_iff_ne]
  exact ⟨hsemicolon, hbrace⟩

end Readers

/-! ## The end of the body -/

/-- The token that ends the last declaration of a body, and what is behind it: no declaration
follows, and `Left` is what is known of the tokens that are left. -/
structure BodyEnd (Left : List CssToken → Prop) (last : CssToken) (more : List CssToken) : Prop where
  ends_value : endsValue last = true
  stop : ∀ {before : List CssToken}, (∀ token ∈ before, Plain token) →
    (∀ token ∈ before, endsProperty token = false) → ∀ declarations : List CssDeclaration,
      ∃ behind, readDeclarations (before ++ last :: more) declarations = (declarations, behind) ∧
        Left behind
  semicolon : last.type = .semicolon → ∀ declarations : List CssDeclaration,
    ∃ behind, readDeclarations more declarations = (declarations, behind) ∧ Left behind
  closeBrace : last.type ≠ .semicolon → Left more

/-- The body ends at a brace. -/
theorem bodyEnd_closeBrace (value : Bytes) (more : List CssToken) :
    BodyEnd (· = more) ⟨.closeBrace, value⟩ more where
  ends_value := rfl
  stop := by
    intro before hplain hbefore declarations
    refine ⟨more, ?_, rfl⟩
    have hend : ¬ (before ++ (⟨.closeBrace, value⟩ : CssToken) :: more = [] ∨
        (before ++ (⟨.closeBrace, value⟩ : CssToken) :: more).head?.map (·.type) =
          some .endOfFile) := by
      by_cases hnil : before = []
      · rw [hnil]
        exact fun h => h.elim (List.cons_ne_nil _ _) nofun
      · exact not_at_end hplain hnil _
    rw [readDeclarations, if_neg hend, readDeclaration_stop hbefore]
  semicolon := nofun
  closeBrace := fun _ => rfl

/-- Without a colon there is no declaration. -/
theorem readDeclaration_of_no_colon {before tokens : List CssToken}
    (hbefore : ∀ token ∈ before, endsProperty token = false)
    (htokens : ∀ token ∈ tokens, token.type ≠ .colon) :
    ∃ behind, readDeclaration (before ++ tokens) = .stop behind ∧ behind <:+ tokens := by
  have hsplit : ∃ before' tokens', (before ++ tokens).dropWhile (fun token =>
      token.type == .whitespace) = before' ++ tokens' ∧
      (∀ token ∈ before', endsProperty token = false) ∧ tokens' <:+ tokens := by
    rw [List.dropWhile_append]
    split
    · exact ⟨[], _, rfl, fun _ h => absurd h List.not_mem_nil, List.dropWhile_suffix _⟩
    · exact ⟨_, tokens, rfl, fun token h => hbefore token ((List.dropWhile_suffix _).subset h),
        List.suffix_rfl⟩
  obtain ⟨before', tokens', hdrop, hbefore', hsuffix⟩ := hsplit
  have hproperty : (before' ++ tokens').dropWhile (fun t => !endsProperty t) =
      tokens'.dropWhile (fun t => !endsProperty t) :=
    dropWhile_append_of_forall (fun token h => by rw [hbefore' token h]; rfl) tokens'
  rw [readDeclaration, hdrop]
  cases hleft : before' ++ tokens' with
  | nil => exact ⟨[], rfl, List.nil_suffix⟩
  | cons token rest =>
    rw [hleft] at hproperty
    dsimp only
    by_cases hbrace : token.type = .closeBrace
    · rw [if_pos hbrace]
      cases before' with
      | nil =>
        rw [List.nil_append] at hleft
        rw [hleft] at hsuffix
        exact ⟨rest, rfl, (List.suffix_cons _ _).trans hsuffix⟩
      | cons token' before' =>
        obtain rfl := (List.cons.inj hleft).1
        have hends := hbefore' token' List.mem_cons_self
        rw [endsProperty, hbrace] at hends
        cases hends
    rw [if_neg hbrace, hproperty]
    have hlast := List.dropWhile_suffix (fun token => !endsProperty token) (l := tokens')
    cases hstop : tokens'.dropWhile fun t => !endsProperty t with
    | nil => exact ⟨[], rfl, List.nil_suffix⟩
    | cons stop behind =>
      rw [hstop] at hlast
      have hends : endsProperty stop = true := by
        have hhead := List.head?_dropWhile_not (fun t => !endsProperty t) tokens'
        rw [hstop] at hhead
        simpa using hhead
      have hcolon : stop.type ≠ .colon :=
        htokens stop ((hlast.trans hsuffix).subset List.mem_cons_self)
      have htype : stop.type = .closeBrace := by
        simpa [endsProperty, hcolon] using hends
      dsimp only
      rw [if_pos htype]
      exact ⟨behind, rfl, (List.suffix_cons _ _).trans (hlast.trans hsuffix)⟩

theorem readDeclarations_of_no_colon {tokens : List CssToken}
    (htokens : ∀ token ∈ tokens, token.type ≠ .colon) (declarations : List CssDeclaration) :
    ∃ behind, readDeclarations tokens declarations = (declarations, behind) ∧
      behind <:+ tokens := by
  rw [readDeclarations]
  by_cases hend : tokens = [] ∨ tokens.head?.map (·.type) = some .endOfFile
  · rw [if_pos hend]
    exact ⟨tokens, rfl, List.suffix_rfl⟩
  · obtain ⟨behind, hround, hsuffix⟩ := readDeclaration_of_no_colon
      (List.forall_mem_nil fun token => endsProperty token = false) htokens
    rw [List.nil_append] at hround
    rw [if_neg hend, hround]
    exact ⟨behind, rfl, hsuffix⟩

/-- The body has no colon any more. -/
theorem bodyEnd_of_no_colon {last : CssToken} {more : List CssToken}
    (hlast : endsValue last = true) (hmore : ∀ token ∈ last :: more, token.type ≠ .colon) :
    BodyEnd (· <:+ last :: more) last more where
  ends_value := hlast
  stop := by
    intro before hplain hbefore declarations
    have hend : ¬ (before ++ last :: more = [] ∨
        (before ++ last :: more).head?.map (·.type) = some .endOfFile) := by
      by_cases hnil : before = []
      · rw [hnil]
        refine fun h => h.elim (List.cons_ne_nil _ _) fun htype => ?_
        have htype : last.type = .endOfFile := Option.some.inj htype
        rw [endsValue, htype] at hlast
        cases hlast
      · exact not_at_end hplain hnil _
    obtain ⟨behind, hround, hsuffix⟩ := readDeclaration_of_no_colon hbefore hmore
    rw [readDeclarations, if_neg hend, hround]
    exact ⟨behind, rfl, hsuffix⟩
  semicolon := by
    intro _ declarations
    obtain ⟨behind, hread, hsuffix⟩ := readDeclarations_of_no_colon
      (fun token h => hmore token (List.mem_cons_of_mem _ h)) declarations
    exact ⟨behind, hread, hsuffix.trans (List.suffix_cons _ _)⟩
  closeBrace := fun _ => List.suffix_cons _ _

/-- A declaration, and what ends it. -/
theorem readDeclarations_colon {tokens : List CssToken} (hplain : ∀ token ∈ tokens, Plain token)
    {a value : Bytes} (ha : chr ':' ∉ a ∧ chr '\x7d' ∉ a)
    (hvalue : chr ';' ∉ value ∧ chr '\x7d' ∉ value) (hjoin : joinValue tokens = a ++ chr ':' :: value)
    {last : CssToken} (hlast : endsValue last = true) (more : List CssToken)
    (declarations : List CssDeclaration) :
    readDeclarations (tokens ++ last :: more) declarations =
      if last.type = .semicolon then
        readDeclarations more (declarations ++
          (if trim a = [] then none else some (⟨trim a, trim value⟩ : CssDeclaration)).toList)
      else (declarations ++
        (if trim a = [] then none else some (⟨trim a, trim value⟩ : CssDeclaration)).toList, more) := by
  obtain ⟨before, inner, rfl, rfl, rfl⟩ := exists_split_of_join hplain stopOf_colon hjoin
  have hbefore : ∀ token ∈ before, Plain token := fun token htoken =>
    hplain token (List.mem_append_left _ htoken)
  have hinner : ∀ token ∈ inner, Plain token := fun token htoken =>
    hplain token (List.mem_append_right _ (List.mem_cons_of_mem _ htoken))
  have hround := readDeclaration_colon hbefore (endsProperty_of_not_mem hbefore ha)
    (endsValue_of_not_mem hinner hvalue) hlast [chr ':'] more
  rw [← List.cons_append, ← List.append_assoc] at hround
  rw [readDeclarations, if_neg (not_at_end hplain (by simp) _), hround]
  by_cases htype : last.type = .semicolon
  · rw [if_pos htype, beq_iff_eq.mpr htype]
  · rw [if_neg htype, beq_false_of_ne htype]

theorem not_mem_nil_and : chr ':' ∉ ([] : Bytes) ∧ chr '\x7d' ∉ ([] : Bytes) :=
  ⟨List.not_mem_nil, List.not_mem_nil⟩

/-- **The body of a rule**, cut at the semicolons. -/
theorem readDeclarations_pieces {Left : List CssToken → Prop} {last : CssToken}
    {more : List CssToken} (hend : BodyEnd Left last more) {pieces : List Bytes}
    (hpieces : ∀ piece ∈ pieces, chr ';' ∉ piece ∧ chr '\x7d' ∉ piece) {carry : Bytes}
    (hcarry : chr ':' ∉ carry ∧ chr '\x7d' ∉ carry) {tokens : List CssToken}
    (hplain : ∀ token ∈ tokens, Plain token)
    (hjoin : joinValue tokens = carry ++ (lit ";").intercalate pieces)
    (declarations : List CssDeclaration) :
    ∃ behind, readDeclarations (tokens ++ last :: more) declarations =
        (declarations ++ (pieceDeclarations carry pieces).filterMap id, behind) ∧
      Left behind := by
  induction pieces generalizing carry tokens declarations with
  | nil =>
    rw [List.intercalate_nil, List.append_nil] at hjoin
    rw [pieceDeclarations, List.filterMap_nil, List.append_nil]
    rw [← hjoin] at hcarry
    exact hend.stop hplain (endsProperty_of_not_mem hplain hcarry) declarations
  | cons piece pieces ih =>
    obtain ⟨hpiece, hrestPieces⟩ := List.forall_mem_cons.mp hpieces
    rw [pieceDeclarations]
    cases hcolon : find piece (lit ":") with
    | none =>
      have hnot : chr ':' ∉ carry ++ piece ∧ chr '\x7d' ∉ carry ++ piece := by
        rw [List.mem_append, List.mem_append, not_or, not_or]
        exact ⟨⟨hcarry.1, find_singleton_eq_none_iff.mp hcolon⟩, hcarry.2, hpiece.2⟩
      cases pieces with
      | nil =>
        rw [List.intercalate_singleton] at hjoin
        rw [← hjoin] at hnot
        obtain ⟨behind, hread, hleft⟩ :=
          hend.stop hplain (endsProperty_of_not_mem hplain hnot) declarations
        refine ⟨behind, ?_, hleft⟩
        rw [hread]
        exact congrArg (Prod.mk · _) (List.append_nil _).symm
      | cons next pieces =>
        rw [List.intercalate_cons_cons, ← List.append_assoc, ← List.append_assoc] at hjoin
        refine ih hrestPieces ⟨?_, ?_⟩ hplain hjoin declarations
        · rw [List.mem_append, not_or]
          exact ⟨hnot.1, by decide⟩
        · rw [List.mem_append, not_or]
          exact ⟨hnot.2, by decide⟩
    | some colon =>
      obtain ⟨a, value, rfl, ha, rfl⟩ := exists_of_find_singleton hcolon
      have hfirst : chr ':' ∉ carry ++ a ∧ chr '\x7d' ∉ carry ++ a := by
        rw [List.mem_append, List.mem_append, not_or, not_or]
        exact ⟨⟨hcarry.1, ha⟩, hcarry.2, fun h => hpiece.2 (List.mem_append_left _ h)⟩
      have hvalue : chr ';' ∉ value ∧ chr '\x7d' ∉ value :=
        ⟨fun h => hpiece.1 (List.mem_append_right _ (List.mem_cons_of_mem _ h)),
          fun h => hpiece.2 (List.mem_append_right _ (List.mem_cons_of_mem _ h))⟩
      dsimp only
      rw [List.take_left' rfl, drop_append_cons]
      cases pieces with
      | nil =>
        rw [List.intercalate_singleton, ← List.append_assoc] at hjoin
        rw [readDeclarations_colon hplain hfirst hvalue hjoin hend.ends_value, filterMap_id_cons,
          pieceDeclarations, List.filterMap_nil, List.append_nil]
        by_cases htype : last.type = .semicolon
        · rw [if_pos htype]
          exact hend.semicolon htype _
        · rw [if_neg htype]
          exact ⟨more, rfl, hend.closeBrace htype⟩
      | cons next pieces =>
        have hjoin' : joinValue tokens = (carry ++ (a ++ chr ':' :: value)) ++ chr ';' ::
            (lit ";").intercalate (next :: pieces) := by
          rw [hjoin, List.intercalate_cons_cons]
          simp only [List.append_assoc, List.cons_append]
          rfl
        obtain ⟨first, behind, rfl, hjoinFirst, hjoinBehind⟩ :=
          exists_split_of_join hplain stopOf_semicolon hjoin'
        rw [← List.append_assoc] at hjoinFirst
        have hplainFirst : ∀ token ∈ first, Plain token := fun token h =>
          hplain token (List.mem_append_left _ h)
        have hplainBehind : ∀ token ∈ behind, Plain token := fun token h =>
          hplain token (List.mem_append_right _ (List.mem_cons_of_mem _ h))
        rw [List.append_assoc, List.cons_append, readDeclarations_colon hplainFirst hfirst hvalue
          hjoinFirst rfl, if_pos rfl, filterMap_id_cons, ← List.append_assoc]
        exact ih hrestPieces not_mem_nil_and hplainBehind hjoinBehind _

end Aetheris.Css
