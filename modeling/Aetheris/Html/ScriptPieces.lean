import Aetheris.Html.Scripts
import Aetheris.Library.Segments

/-!
# Scripts in pieces of markup

Markup is a list of pieces: tags, comments and texts, and the script elements as a whole.  In a
piece that is no text, every `<` has a `>` behind it (`Closed`), so a search that starts in a piece
ends its tag there.

`Agrees` is the condition under which the search finds the scripts.  It is followed piece by piece,
from the first place at which the search could start.  Where it fails, the search takes a script
that has markup in it, or loses one, and then there are fewer scripts than in the pieces
(`length_scriptsOf_le`); so the condition is exact (`scriptsIn_textOf_iff`).
-/

namespace Aetheris.Html

/-! ## Markup in pieces -/

/-- A part of the markup of a tree. -/
inductive Piece
  /-- A tag, a comment, a doctype or a text. -/
  | markup (text : Bytes)
  /-- The start tag of a script element, its content and its end tag. -/
  | script (tag content : Bytes)

/-- What is written. -/
def Piece.text : Piece → Bytes
  | .markup text => text
  | .script tag content => tag ++ (content ++ lit "</script>")

/-- What is written for pieces. -/
def textOf (ps : List Piece) : Bytes := ps.flatMap Piece.text

/-- The script of a piece. -/
def Piece.scripts : Piece → List Bytes
  | .markup _ => []
  | .script _ content => [content]

/-- The scripts of pieces. -/
def scriptsOf (ps : List Piece) : List Bytes := ps.flatMap Piece.scripts

/-! ## The condition -/

/-- What is behind the first `>` that is behind the first `<script`. -/
def behindTag (text : Bytes) : Option Bytes :=
  (cut (lit "<script") text).bind fun pair => (cut [chr '>'] pair.2).map Prod.snd

/-- **When the search finds the scripts.**  Behind a `<script` that starts no script element, there
is no `</script` any more.  The start tag of a script element ends at its first `>`; or what the tag
has behind that up to a `</script` is the script once more, and there is no `<script` behind it in
the tag. -/
def Agrees : List Piece → Prop
  | [] => True
  | .markup text :: ps =>
    match behindTag text with
    | none => Agrees ps
    | some back => ¬ lit "</script" <:+: back ++ textOf ps
  | .script tag content :: ps =>
    (behindTag tag = some [] ∨
      ∃ inTag, behindTag tag = some (content ++ (lit "</script" ++ inTag)) ∧
        ¬ lit "<script" <:+: inTag) ∧ Agrees ps

/-! ## Texts whose tags are closed -/

/-- Every `<` has a `>` behind it. -/
def Closed (text : Bytes) : Prop := ∀ front back, text = front ++ chr '<' :: back → chr '>' ∈ back

theorem closed_of_not_mem {text : Bytes} (h : chr '<' ∉ text) : Closed text := by
  rintro front back rfl
  exact absurd (List.mem_append_right _ List.mem_cons_self) h

theorem closed_append_gt (text : Bytes) : Closed (text ++ [chr '>']) := by
  intro front back h
  rcases List.eq_nil_or_concat' back with rfl | ⟨back, c, rfl⟩
  · have hlast := (List.append_inj' h rfl).2
    exact absurd (List.cons.inj hlast).1 (by decide)
  · rw [← List.cons_append, ← List.append_assoc] at h
    have hlast := (List.append_inj' h rfl).2
    rw [← hlast]
    exact List.mem_append_right _ List.mem_cons_self

theorem Closed.of_append {front back : Bytes} (h : Closed (front ++ back)) : Closed back := by
  rintro front' back' rfl
  exact h (front ++ front') back' (List.append_assoc _ _ _).symm

theorem Closed.append {text text' : Bytes} (h : Closed text) (h' : Closed text') :
    Closed (text ++ text') := by
  intro front back heq
  rcases List.append_eq_append_iff.mp heq with ⟨middle, rfl, hback⟩ | ⟨middle, rfl, hback⟩
  · exact h' middle back hback
  · cases middle with
    | nil => exact h' [] back hback.symm
    | cons c middle =>
      obtain ⟨rfl, rfl⟩ := List.cons.inj hback
      exact List.mem_append_left _ (h front middle rfl)

/-- A needle without `>` that begins in a closed text is in it. -/
theorem Closed.not_isPrefix {text needle : Bytes} (h : Closed text) (hneedle : chr '>' ∉ needle)
    (hhead : needle.head? = some (chr '<')) (hnot : ¬ needle <:+: text) (rest : Bytes) :
    ∀ j < text.length, ¬ needle <+: text.drop j ++ rest := by
  intro j hj hpre
  rcases List.prefix_or_prefix_of_prefix hpre (List.prefix_append (text.drop j) rest) with
    hin | ⟨behind, hout⟩
  · exact hnot (hin.isInfix.trans (List.drop_suffix j text).isInfix)
  · rw [List.drop_eq_getElem_cons hj] at hout
    rw [← hout] at hhead
    have hlt : text[j] = chr '<' := Option.some.inj hhead
    have hsplit : text = text.take j ++ chr '<' :: text.drop (j + 1) := by
      rw [← hlt, ← List.drop_eq_getElem_cons hj, List.take_append_drop]
    refine hneedle ?_
    rw [← hout]
    exact List.mem_append_left _ (List.mem_cons_of_mem _ (h _ _ hsplit))

/-! ## Searches in closed texts -/

section Searches

variable {text rest back : Bytes}

/-- The search depends on what is behind the start of the tag. -/
theorem scriptsIn_congr {text' front front' tag : Bytes}
    (h : cut (lit "<script") text = some (front, tag))
    (h' : cut (lit "<script") text' = some (front', tag)) : scriptsIn text = scriptsIn text' := by
  by_cases hgt : chr '>' ∈ tag
  · obtain ⟨inTag, body, htag⟩ := exists_cut ((List.singleton_infix_iff _ _).mpr hgt)
    by_cases hclose : lit "</script" <:+: body
    · obtain ⟨script, rest, hscript⟩ := exists_cut hclose
      rw [scriptsIn_of_cuts h htag hscript, scriptsIn_of_cuts h' htag hscript]
    · rw [scriptsIn_of_not_closed h htag hclose, scriptsIn_of_not_closed h' htag hclose]
  · rw [scriptsIn_of_open_tag h hgt, scriptsIn_of_open_tag h' hgt]

theorem behindTag_eq_none_iff (h : Closed text) :
    behindTag text = none ↔ ¬ lit "<script" <:+: text := by
  rw [behindTag, ← cut_eq_none_iff]
  cases hcut : cut (lit "<script") text with
  | none => exact iff_of_true rfl rfl
  | some pair =>
    refine iff_of_false (fun hnone => ?_) nofun
    have hgt : chr '>' ∈ pair.2 := by
      have hmem : chr '>' ∈ lit "script" ++ pair.2 :=
        h pair.1 (lit "script" ++ pair.2) (cut_eq_some hcut).1
      exact (List.mem_append.mp hmem).resolve_left (by decide)
    obtain ⟨inTag, body, htag⟩ := exists_cut ((List.singleton_infix_iff _ _).mpr hgt)
    rw [Option.bind_some, htag] at hnone
    cases hnone

/-- A text with no start of a script is passed over. -/
theorem scriptsIn_append_of_none (h : Closed text) (hnone : behindTag text = none) (rest : Bytes) :
    scriptsIn (text ++ rest) = scriptsIn rest := by
  have hnot := (behindTag_eq_none_iff h).mp hnone
  have hcut := cut_append_of_not_isPrefix (h.not_isPrefix (by decide) rfl hnot rest)
  by_cases hin : lit "<script" <:+: rest
  · obtain ⟨front, tag, hrest⟩ := exists_cut hin
    rw [hrest] at hcut
    exact scriptsIn_congr hcut hrest
  · rw [cut_eq_none_iff.mpr hin] at hcut
    rw [scriptsIn_of_not_isInfix hin, scriptsIn_of_not_isInfix (cut_eq_none_iff.mp hcut)]

/-- A start of a script in a text is found. -/
theorem scriptsIn_append_of_some (h : behindTag text = some back) (rest : Bytes) :
    (¬ lit "</script" <:+: back ++ rest → scriptsIn (text ++ rest) = []) ∧
      ∀ script behind, cut (lit "</script") (back ++ rest) = some (script, behind) →
        scriptsIn (text ++ rest) = script :: scriptsIn behind := by
  obtain ⟨⟨front, tag⟩, hopening, htag⟩ := Option.bind_eq_some_iff.mp h
  obtain ⟨⟨inTag, body⟩, htagEnd, rfl⟩ := Option.map_eq_some_iff.mp htag
  have hopening' := cut_append hopening rest
  have htagEnd' := cut_append htagEnd rest
  exact ⟨scriptsIn_of_not_closed hopening' htagEnd',
    fun script behind hclose => scriptsIn_of_cuts hopening' htagEnd' hclose⟩

theorem closed_behindTag (h : Closed text) (hback : behindTag text = some back) : Closed back := by
  obtain ⟨⟨front, tag⟩, hopening, htag⟩ := Option.bind_eq_some_iff.mp hback
  obtain ⟨⟨inTag, body⟩, htagEnd, rfl⟩ := Option.map_eq_some_iff.mp htag
  have htext := (cut_eq_some hopening).1.trans
    (congrArg (fun tag => front ++ (lit "<script" ++ tag)) (cut_eq_some htagEnd).1)
  exact (htext ▸ h).of_append.of_append.of_append.of_append

theorem length_behindTag (hback : behindTag text = some back) :
    back.length + 8 ≤ text.length := by
  obtain ⟨⟨front, tag⟩, hopening, htag⟩ := Option.bind_eq_some_iff.mp hback
  obtain ⟨⟨inTag, body⟩, htagEnd, rfl⟩ := Option.map_eq_some_iff.mp htag
  have hlength := length_of_cut hopening
  have hlength' := length_of_cut htagEnd
  have hneedle : (lit "<script").length = 7 := rfl
  have hgt : [chr '>'].length = 1 := rfl
  dsimp only at hlength' ⊢
  omega

end Searches

/-! ## Pieces -/

/-- A piece has closed tags, and no markup in a script. -/
def Piece.Sound : Piece → Prop
  | .markup text => Closed text
  | .script tag content => Closed tag ∧ (∃ rest, tag = lit "<script" ++ rest) ∧ chr '<' ∉ content

theorem textOf_cons (p : Piece) (ps : List Piece) : textOf (p :: ps) = p.text ++ textOf ps :=
  List.flatMap_cons

theorem scriptsOf_cons (p : Piece) (ps : List Piece) :
    scriptsOf (p :: ps) = p.scripts ++ scriptsOf ps := List.flatMap_cons

/-- The content of a script element and its end tag are no start of a script. -/
theorem textOf_script (tag content : Bytes) (ps : List Piece) :
    textOf (.script tag content :: ps) =
      tag ++ textOf (.markup (content ++ lit "</script>") :: ps) := by
  rw [textOf_cons, textOf_cons, Piece.text, Piece.text, List.append_assoc]

theorem closed_content {content : Bytes} (h : chr '<' ∉ content) :
    Closed (content ++ lit "</script>") :=
  (closed_of_not_mem h).append (closed_append_gt (lit "</script"))

theorem not_isInfix_content {content : Bytes} (h : chr '<' ∉ content) :
    ¬ lit "<script" <:+: content ++ lit "</script>" := by
  rintro ⟨front, back, heq⟩
  rw [List.append_assoc] at heq
  rcases List.append_eq_append_iff.mp heq with ⟨middle, rfl, hback⟩ | ⟨middle, rfl, hback⟩
  · cases middle with
    | nil => exact absurd (List.cons.inj (List.cons.inj hback).2).1 (by decide)
    | cons c middle =>
      obtain ⟨rfl, -⟩ := List.cons.inj hback
      exact h (List.mem_append_right _ List.mem_cons_self)
  · cases middle with
    | nil => exact absurd (List.cons.inj (List.cons.inj hback).2).1 (by decide)
    | cons c middle =>
      have hmem : chr '<' ∈ lit "/script>" := by
        rw [show lit "/script>" = middle ++ (lit "<script" ++ back) from (List.cons.inj hback).2]
        exact List.mem_append_right _ List.mem_cons_self
      exact absurd hmem (by decide)

section Sound

variable {ps : List Piece} (hps : ∀ p ∈ ps, p.Sound)
include hps

theorem not_mem_of_mem_scriptsOf : ∀ script ∈ scriptsOf ps, chr '<' ∉ script := by
  intro script hscript
  obtain ⟨p, hp, hmem⟩ := List.mem_flatMap.mp hscript
  cases p with
  | markup text => exact absurd hmem List.not_mem_nil
  | script tag content =>
    rw [List.mem_singleton.mp hmem]
    exact (hps _ hp).2.2

omit hps in
/-- Behind a script element there is an end tag. -/
theorem isInfix_of_scriptsOf (h : scriptsOf ps ≠ []) : lit "</script" <:+: textOf ps := by
  obtain ⟨script, hscript⟩ := List.exists_mem_of_ne_nil _ h
  obtain ⟨p, hp, hmem⟩ := List.mem_flatMap.mp hscript
  have hin : p.text <:+: textOf ps := by
    obtain ⟨front, back, rfl⟩ := List.append_of_mem hp
    exact ⟨textOf front, textOf back, by rw [textOf, textOf, textOf, List.flatMap_append,
      List.flatMap_cons, List.append_assoc]⟩
  cases p with
  | markup text => exact absurd hmem List.not_mem_nil
  | script tag content =>
    refine List.IsInfix.trans ⟨tag ++ content, [chr '>'], ?_⟩ hin
    rw [Piece.text, List.append_assoc, List.append_assoc]
    rfl

end Sound

/-! ## Scripts that are found -/

/-- What is behind a script without markup is a closed text and pieces with the same scripts. -/
theorem exists_pieces_behind {ps : List Piece} (hps : ∀ p ∈ ps, p.Sound) {text script rest : Bytes}
    (htext : Closed text) (hscript : chr '<' ∉ script)
    (h : text ++ textOf ps = script ++ (lit "</script" ++ rest)) :
    ∃ text' ps', Closed text' ∧ (∀ p ∈ ps', p.Sound) ∧ rest = text' ++ textOf ps' ∧
      scriptsOf ps' = scriptsOf ps := by
  induction ps generalizing text script with
  | nil =>
    rw [textOf, List.flatMap_nil, List.append_nil] at h
    rw [h] at htext
    exact ⟨rest, [], htext.of_append.of_append, nofun, (List.append_nil rest).symm, rfl⟩
  | cons p ps ih =>
    by_cases hlt : chr '<' ∈ text
    · -- the end tag is in the closed text
      obtain ⟨front, back, rfl, hfront⟩ := List.eq_append_cons_of_mem hlt
      rw [List.append_assoc, List.cons_append] at h
      have h' : front ++ chr '<' :: (back ++ textOf (p :: ps)) =
          script ++ chr '<' :: (lit "/script" ++ rest) := h
      have hhead (l : Bytes) : ∀ c ∈ (chr '<' :: l).head?, c = chr '<' :=
        fun c hc => (Option.some.inj hc).symm
      obtain ⟨rfl, hback⟩ := Segments.append_inj_of_not_mem hfront hscript (hhead _) (hhead _) h'
      have hback' : back ++ textOf (p :: ps) = lit "/script" ++ rest := (List.cons.inj hback).2
      have hgt : chr '>' ∈ back := htext front back rfl
      rcases List.append_eq_append_iff.mp hback' with ⟨middle, hmiddle, -⟩ | ⟨middle, rfl, hrest⟩
      · exact absurd (hmiddle ▸ List.mem_append_left middle hgt) (by decide)
      · have hsplit : front ++ chr '<' :: (lit "/script" ++ middle) =
            front ++ (lit "</script" ++ middle) := rfl
        exact ⟨middle, p :: ps, (hsplit ▸ htext).of_append.of_append, hps, hrest, rfl⟩
    · -- the text is in front of it
      obtain ⟨script', rfl⟩ : text <+: script := by
        rcases List.append_eq_append_iff.mp h with ⟨middle, hmiddle, -⟩ | ⟨middle, rfl, hmiddle⟩
        · exact ⟨middle, hmiddle.symm⟩
        · cases middle with
          | nil => exact ⟨[], by rw [List.append_nil, List.append_nil]⟩
          | cons c middle =>
            obtain ⟨rfl, -⟩ := List.cons.inj hmiddle
            exact absurd (List.mem_append_right _ List.mem_cons_self) hlt
      rw [List.append_assoc, List.append_cancel_left_eq, textOf_cons] at h
      have hscript' : chr '<' ∉ script' := fun hmem => hscript (List.mem_append_right _ hmem)
      have hrest := fun q hq => hps q (List.mem_cons_of_mem p hq)
      cases p with
      | markup text' =>
        obtain ⟨text'', ps', htext'', hps', heq, hscripts⟩ :=
          ih hrest (hps _ List.mem_cons_self) hscript' h
        exact ⟨text'', ps', htext'', hps', heq, hscripts⟩
      | script tag content =>
        obtain ⟨-, ⟨inTag, rfl⟩, -⟩ := hps _ List.mem_cons_self
        rw [Piece.text, List.append_assoc, List.append_assoc] at h
        cases script' with
        | nil => exact absurd (List.cons.inj (List.cons.inj h).2).1 (by decide)
        | cons c script' =>
          obtain ⟨rfl, -⟩ := List.cons.inj h
          exact absurd List.mem_cons_self hscript'

/-- The start tag of a script element is found. -/
theorem exists_behindTag {tag : Bytes} (htag : Closed tag)
    (hstart : ∃ rest, tag = lit "<script" ++ rest) : ∃ back, behindTag tag = some back := by
  obtain ⟨rest, rfl⟩ := hstart
  refine Option.ne_none_iff_exists'.mp fun hnone => ?_
  exact (behindTag_eq_none_iff htag).mp hnone (List.prefix_append _ _).isInfix

theorem isInfix_content (front content : Bytes) (ps : List Piece) :
    lit "</script" <:+: front ++ textOf (.markup (content ++ lit "</script>") :: ps) := by
  refine ⟨front ++ content, chr '>' :: textOf ps, ?_⟩
  rw [textOf_cons, Piece.text, List.append_assoc, List.append_assoc, List.append_assoc]
  rfl

/-- A script that is found has one in the tree behind it at least. -/
theorem length_scriptsOf_lt {text back : Bytes} {ps : List Piece} (htext : Closed text)
    (hps : ∀ p ∈ ps, p.Sound) (hback : behindTag text = some back)
    (hclose : lit "</script" <:+: back ++ textOf ps)
    (hplain : ∀ script ∈ scriptsIn (text ++ textOf ps), chr '<' ∉ script)
    (ih : ∀ text' ps', (text' ++ textOf ps').length < (text ++ textOf ps).length → Closed text' →
      (∀ p ∈ ps', p.Sound) → (∀ script ∈ scriptsIn (text' ++ textOf ps'), chr '<' ∉ script) →
      (scriptsOf ps').length ≤ (scriptsIn (text' ++ textOf ps')).length) :
    (scriptsOf ps).length < (scriptsIn (text ++ textOf ps)).length := by
  obtain ⟨script, rest, hcut⟩ := exists_cut hclose
  rw [(scriptsIn_append_of_some hback (textOf ps)).2 script rest hcut] at hplain ⊢
  obtain ⟨hscript, hplain⟩ := List.forall_mem_cons.mp hplain
  obtain ⟨text', ps', htext', hps', rfl, hscripts⟩ := exists_pieces_behind hps
    (closed_behindTag htext hback) hscript (cut_eq_some hcut).1
  have hshorter : (text' ++ textOf ps').length < (text ++ textOf ps).length := by
    have hlength := length_of_cut hcut
    have hback' := length_behindTag hback
    rw [List.length_append] at hlength ⊢
    rw [List.length_append]
    rw [List.length_append] at hlength
    have hneedle : (lit "</script").length = 8 := rfl
    omega
  have hle := ih text' ps' hshorter htext' hps' hplain
  rw [hscripts] at hle
  exact Nat.lt_succ_of_le hle

/-- **No script of the tree is passed over** if the scripts that are found have no markup. -/
theorem length_scriptsOf_le (n : ℕ) : ∀ (text : Bytes) (ps : List Piece),
    (text ++ textOf ps).length < n → Closed text → (∀ p ∈ ps, p.Sound) →
    (∀ script ∈ scriptsIn (text ++ textOf ps), chr '<' ∉ script) →
    (scriptsOf ps).length ≤ (scriptsIn (text ++ textOf ps)).length := by
  induction n with
  | zero => exact fun text ps hlt => absurd hlt (Nat.not_lt_zero _)
  | succ n ih =>
    intro text ps hlt htext hps hplain
    have hfound {text back : Bytes} {ps : List Piece} (hlt : (text ++ textOf ps).length < n + 1)
        (htext : Closed text) (hps : ∀ p ∈ ps, p.Sound) (hback : behindTag text = some back)
        (hclose : lit "</script" <:+: back ++ textOf ps)
        (hplain : ∀ script ∈ scriptsIn (text ++ textOf ps), chr '<' ∉ script) :
        (scriptsOf ps).length < (scriptsIn (text ++ textOf ps)).length :=
      length_scriptsOf_lt htext hps hback hclose hplain fun text' ps' hlt' =>
        ih text' ps' (by omega)
    induction ps generalizing text with
    | nil => exact Nat.zero_le _
    | cons p ps ihps =>
      cases hback : behindTag text with
      | none =>
        rw [scriptsIn_append_of_none htext hback] at hplain ⊢
        rw [textOf_cons, List.length_append] at hlt
        have hrest := fun q hq => hps q (List.mem_cons_of_mem p hq)
        cases p with
        | markup text' =>
          rw [textOf_cons] at hplain ⊢
          exact ihps text' (Nat.lt_of_le_of_lt (Nat.le_add_left _ _) hlt) (hps _ List.mem_cons_self)
            hrest hplain
        | script tag content =>
          obtain ⟨htag, hstart, hcontent⟩ := hps _ List.mem_cons_self
          obtain ⟨back, hback⟩ := exists_behindTag htag hstart
          have hsound : ∀ p ∈ Piece.markup (content ++ lit "</script>") :: ps, p.Sound :=
            List.forall_mem_cons.mpr ⟨closed_content hcontent, hrest⟩
          rw [← textOf_cons] at hlt
          rw [textOf_script] at hlt hplain ⊢
          exact hfound (by omega) htag hsound hback (isInfix_content back content ps) hplain
      | some back =>
        by_cases hclose : lit "</script" <:+: back ++ textOf (p :: ps)
        · exact (hfound hlt htext hps hback hclose hplain).le
        · have hnil : scriptsOf (p :: ps) = [] := by
            by_contra hne
            exact hclose ((isInfix_of_scriptsOf hne).trans (List.suffix_append _ _).isInfix)
          rw [hnil]
          exact Nat.zero_le _

/-- A script that is found where the tree has none is one too many. -/
theorem scriptsIn_ne_of_found {text back : Bytes} {ps : List Piece} (htext : Closed text)
    (hps : ∀ p ∈ ps, p.Sound) (hback : behindTag text = some back)
    (hclose : lit "</script" <:+: back ++ textOf ps) :
    scriptsIn (text ++ textOf ps) ≠ scriptsOf ps := by
  intro heq
  have hplain := not_mem_of_mem_scriptsOf hps
  rw [← heq] at hplain
  have hlt := length_scriptsOf_lt htext hps hback hclose hplain fun text' ps' _ =>
    length_scriptsOf_le _ text' ps' (Nat.lt_succ_self _)
  rw [heq] at hlt
  exact absurd hlt (lt_irrefl _)

/-- The needle is behind a text without its first character. -/
theorem cut_of_not_mem {c : Byte} {needle front back : Bytes} (h : c ∉ front) :
    cut (c :: needle) (front ++ (c :: needle ++ back)) = some (front, back) := by
  have hstart : cut (c :: needle) (c :: needle ++ back) = some ([], back) :=
    cut_of_find rfl (find_of_isPrefix (List.prefix_append _ _))
  rw [cut_append_of_not_isPrefix (not_isPrefix_of_not_mem h _), hstart, Option.map_some,
    List.append_nil]

/-- A script element is found, with another `>` in its start tag or not. -/
theorem scriptsIn_script_iff {tag content : Bytes} {ps : List Piece}
    (hpiece : (Piece.script tag content).Sound) (hps : ∀ p ∈ ps, p.Sound) :
    scriptsIn (textOf (.script tag content :: ps)) = content :: scriptsOf ps ↔
      (behindTag tag = some [] ∨ ∃ inTag,
        behindTag tag = some (content ++ (lit "</script" ++ inTag)) ∧
          ¬ lit "<script" <:+: inTag) ∧ scriptsIn (textOf ps) = scriptsOf ps := by
  obtain ⟨htag, hstart, hcontent⟩ := hpiece
  obtain ⟨back, hback⟩ := exists_behindTag htag hstart
  have hpassed : scriptsIn (content ++ lit "</script>" ++ textOf ps) = scriptsIn (textOf ps) :=
    scriptsIn_append_of_none (closed_content hcontent)
      ((behindTag_eq_none_iff (closed_content hcontent)).mpr (not_isInfix_content hcontent)) _
  obtain ⟨script, rest, hcut⟩ := exists_cut (isInfix_content back content ps)
  rw [textOf_script, (scriptsIn_append_of_some hback _).2 script rest hcut, hback,
    List.cons.injEq]
  simp only [Option.some.injEq]
  have hclosed := closed_behindTag htag hback
  by_cases hin : lit "</script" <:+: back
  · -- the end of the script is found in the start tag
    obtain ⟨content', inTag, hcut'⟩ := exists_cut hin
    obtain ⟨rfl, rfl⟩ := Prod.mk.inj (Option.some.inj (hcut.symm.trans (cut_append hcut' _)))
    have hback' := (cut_eq_some hcut').1
    have hinTag : Closed inTag := (hback' ▸ hclosed).of_append.of_append
    have hne : back ≠ [] := fun hnil => by
      rw [hnil] at hin
      exact absurd (List.infix_nil.mp hin) (by decide)
    have hsame (inTag' : Bytes) : back = content ++ (lit "</script" ++ inTag') ↔
        script = content ∧ inTag = inTag' := by
      constructor
      · intro heq
        have hcut'' : cut (lit "</script") (content ++ (lit "</script" ++ inTag')) =
            some (content, inTag') := cut_of_not_mem hcontent
        exact Prod.mk.inj (Option.some.inj (hcut'.symm.trans (heq ▸ hcut'')))
      · rintro ⟨rfl, rfl⟩
        exact hback'
    simp only [hne, false_or, hsame]
    by_cases hstart' : lit "<script" <:+: inTag
    · obtain ⟨back', hfound⟩ := Option.ne_none_iff_exists'.mp fun hnone =>
        (behindTag_eq_none_iff hinTag).mp hnone hstart'
      have hsound : ∀ p ∈ Piece.markup (content ++ lit "</script>") :: ps, p.Sound :=
        List.forall_mem_cons.mpr ⟨closed_content hcontent, hps⟩
      have hmany := scriptsIn_ne_of_found hinTag hsound hfound (isInfix_content back' content ps)
      refine iff_of_false (fun h => hmany h.2) ?_
      rintro ⟨⟨inTag', ⟨-, rfl⟩, hnot⟩, -⟩
      exact hnot hstart'
    · rw [scriptsIn_append_of_none hinTag ((behindTag_eq_none_iff hinTag).mpr hstart'), textOf_cons,
        Piece.text, hpassed]
      refine and_congr_left fun _ => ⟨fun h => ⟨inTag, ⟨h, rfl⟩, hstart'⟩, ?_⟩
      rintro ⟨inTag', ⟨h, -⟩, -⟩
      exact h
  · -- the end of the script is that of the element
    have hcontent' : cut (lit "</script") (textOf (.markup (content ++ lit "</script>") :: ps)) =
        some (content, chr '>' :: textOf ps) := by
      rw [textOf_cons, Piece.text, List.append_assoc]
      exact cut_of_not_mem hcontent
    have hwhole := cut_append_of_not_isPrefix (hclosed.not_isPrefix (by decide) rfl hin
      (textOf (.markup (content ++ lit "</script>") :: ps)))
    rw [hcontent', Option.map_some] at hwhole
    obtain ⟨rfl, rfl⟩ := Prod.mk.inj (Option.some.inj (hcut.symm.trans hwhole))
    have hgt : scriptsIn (chr '>' :: textOf ps) = scriptsIn (textOf ps) :=
      scriptsIn_append_of_none (closed_append_gt []) (by decide) (textOf ps)
    rw [hgt]
    refine and_congr_left fun _ => ⟨fun h => .inl (List.append_left_eq_self.mp h), ?_⟩
    rintro (rfl | ⟨inTag, rfl, -⟩)
    · rfl
    · exact absurd ⟨content, inTag, List.append_assoc _ _ _⟩ hin

/-- **The scripts of pieces agree under the condition.** -/
theorem scriptsIn_textOf_iff (ps : List Piece) (hps : ∀ p ∈ ps, p.Sound) :
    scriptsIn (textOf ps) = scriptsOf ps ↔ Agrees ps := by
  induction ps with
  | nil => exact iff_of_true (scriptsIn_of_not_isInfix (by decide)) trivial
  | cons p ps ih =>
    have hrest := fun q hq => hps q (List.mem_cons_of_mem p hq)
    have ih := ih hrest
    cases p with
    | markup text =>
      have htext : Closed text := hps _ List.mem_cons_self
      have hscripts : scriptsOf (.markup text :: ps) = scriptsOf ps := rfl
      rw [hscripts, textOf_cons, Piece.text, Agrees]
      cases hback : behindTag text with
      | none => rw [scriptsIn_append_of_none htext hback, ih]
      | some back =>
        by_cases hclose : lit "</script" <:+: back ++ textOf ps
        · exact iff_of_false (scriptsIn_ne_of_found htext hrest hback hclose) (not_not.mpr hclose)
        · have hnil : scriptsOf ps = [] := by
            by_contra hne
            exact hclose ((isInfix_of_scriptsOf hne).trans (List.suffix_append _ _).isInfix)
          rw [(scriptsIn_append_of_some hback _).1 hclose, hnil]
          exact iff_of_true rfl hclose
    | script tag content =>
      rw [Agrees, ← ih]
      exact scriptsIn_script_iff (hps _ List.mem_cons_self) hrest

end Aetheris.Html
