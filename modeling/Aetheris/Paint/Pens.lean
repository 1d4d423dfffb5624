import Aetheris.Layout.Preformatted
import Aetheris.Paint.Surface

/-!
# Drawn text

`draw_text` goes on by one cell after each character, and a cell is as wide as the advance that
`measure_text` adds.  The spacing between letters, which `measure_text` adds as well, is not passed
on, so that text with a spacing is drawn narrower or wider than it has been laid out.

A fragment has no blank (`word_of_mem_textLayout`), so its width is the number of its characters
times one width; the places of the pen are multiples of the cell.  Both sequences are equal as soon
as the first step is (`first_step`).  The pen and the cell are `int`s: an advance that is no `int`
is cut, and a pen that leaves the range wraps around, which no width of a fragment does.
-/

namespace Aetheris.Layout

open Style Length

/-! ## The texts of the fragments -/

/-- Some characters without a blank. -/
def Word (text : Bytes) : Prop := text ≠ [] ∧ ∀ c ∈ text, isSpace c = false

/-- A blank or a word. -/
def Token (text : Bytes) : Prop := text = lit " " ∨ Word text

theorem forall_mem_flushToken {line : List Bytes} {token : Bytes} (hline : ∀ t ∈ line, Token t)
    (htoken : ∀ c ∈ token, isSpace c = false) : ∀ t ∈ flushToken line token, Token t := by
  rw [flushToken]
  split
  · exact hline
  next hne =>
    rw [List.forall_mem_append, List.forall_mem_singleton]
    exact ⟨hline, Or.inr ⟨hne, htoken⟩⟩

/-- Lines are made of blanks and words. -/
theorem forall_mem_splitLines (pre : Bool) {lines : List (List Bytes)} {line : List Bytes}
    {token : Bytes} (text : Bytes) (hlines : ∀ l ∈ lines, ∀ t ∈ l, Token t)
    (hline : ∀ t ∈ line, Token t) (htoken : ∀ c ∈ token, isSpace c = false) :
    ∀ l ∈ splitLines pre lines line token text, ∀ t ∈ l, Token t := by
  have hnone : ∀ c ∈ ([] : Bytes), isSpace c = false := fun c hc => absurd hc List.not_mem_nil
  have hflush := forall_mem_flushToken hline htoken
  induction text generalizing lines line token with
  | nil =>
    rw [splitLines, List.forall_mem_append, List.forall_mem_singleton]
    exact ⟨hlines, hflush⟩
  | cons c text ih =>
    rw [splitLines]
    split
    · refine ih ?_ (fun t ht => absurd ht List.not_mem_nil) hnone
        (forall_mem_flushToken (fun t ht => absurd ht List.not_mem_nil) hnone)
      rw [List.forall_mem_append, List.forall_mem_singleton]
      exact ⟨hlines, hflush⟩
    · split
      · have hnext : ∀ t ∈ if pre = true then flushToken line token ++ [lit " "] else
            flushToken line token, Token t := by
          split
          · rw [List.forall_mem_append, List.forall_mem_singleton]
            exact ⟨hflush, Or.inl rfl⟩
          · exact hflush
        exact ih hlines hnext hnone (forall_mem_flushToken hnext hnone)
      next hc =>
        have hlonger : ∀ d ∈ token ++ [c], isSpace d = false := by
          rw [List.forall_mem_append, List.forall_mem_singleton]
          exact ⟨htoken, Bool.eq_false_iff.mpr hc⟩
        exact ih hlines hline hlonger (forall_mem_flushToken hline hlonger)

section Measures

variable {F : Type} [Length F] {style : StyleProperties}

/-- Wrapping puts nothing but blanks between the tokens. -/
theorem forall_mem_wrapLine (wraps : Bool) (available : F) {tokens : List Bytes}
    (htokens : ∀ t ∈ tokens, Token t) :
    ∀ line ∈ wrapLine style wraps available tokens, ∀ t ∈ line, Token t := by
  have hrun (s : Wrapping F) (hs : ∀ line ∈ s.lines ++ [s.line], ∀ t ∈ line, Token t) :
      ∀ line ∈ (tokens.foldl (wrapWord style wraps available) s).lines ++
        [(tokens.foldl (wrapWord style wraps available) s).line], ∀ t ∈ line, Token t := by
    induction tokens generalizing s with
    | nil => exact hs
    | cons token tokens ih =>
      obtain ⟨htoken, htokens⟩ := List.forall_mem_cons.mp htokens
      refine ih htokens _ ?_
      rw [List.forall_mem_append, List.forall_mem_singleton] at hs
      rw [wrapWord]
      generalize (if s.line = [] then (0 : F) else measureText style (lit " ")) = space
      split
      · rw [List.forall_mem_append, List.forall_mem_append, List.forall_mem_singleton,
          List.forall_mem_singleton, List.forall_mem_singleton]
        exact ⟨hs, htoken⟩
      · rw [List.forall_mem_append, List.forall_mem_singleton]
        split
        · rw [List.forall_mem_append, List.forall_mem_cons, List.forall_mem_singleton]
          exact ⟨hs.1, hs.2, Or.inl rfl, htoken⟩
        · rw [List.forall_mem_append, List.forall_mem_singleton]
          exact ⟨hs.1, hs.2, htoken⟩
  refine hrun { width := 0 } fun line hline t ht => ?_
  rw [List.mem_singleton.mp hline] at ht
  exact absurd ht List.not_mem_nil

theorem word_of_mem_placeWords {y x : F} {tokens : List Bytes} (htokens : ∀ t ∈ tokens, Token t) :
    ∀ fragment ∈ placeWords style y x tokens,
      Word fragment.text ∧ fragment.rect.width = measureText style fragment.text := by
  induction tokens generalizing x with
  | nil => exact fun fragment h => absurd h List.not_mem_nil
  | cons token tokens ih =>
    obtain ⟨htoken, htokens⟩ := List.forall_mem_cons.mp htokens
    rw [placeWords]
    split
    · exact ih htokens
    next hne =>
      rw [List.forall_mem_cons]
      exact ⟨⟨htoken.resolve_left hne, rfl⟩, ih htokens⟩

theorem word_of_mem_placeLines {x available y : F} {lines : List (List Bytes)}
    (hlines : ∀ line ∈ lines, ∀ t ∈ line, Token t) :
    ∀ fragment ∈ placeLines style x available y lines,
      Word fragment.text ∧ fragment.rect.width = measureText style fragment.text := by
  induction lines generalizing y with
  | nil => exact fun fragment h => absurd h List.not_mem_nil
  | cons line lines ih =>
    obtain ⟨hline, hlines⟩ := List.forall_mem_cons.mp hlines
    rw [placeLines, List.forall_mem_append]
    exact ⟨word_of_mem_placeWords hline, ih hlines⟩

/-- A fragment is a word with its width. -/
theorem word_of_mem_textLayout {source : Bytes} {x y available : F} {fragment : TextFragment F}
    (h : fragment ∈ textLayout source x y available style) :
    Word fragment.text ∧ fragment.rect.width = measureText style fragment.text := by
  rw [textLayout] at h
  split at h
  · exact absurd h List.not_mem_nil
  · refine word_of_mem_placeLines (fun line hline => ?_) fragment h
    obtain ⟨tokens, htokens, hline⟩ := List.mem_flatMap.mp hline
    have hnone {β : Type} (p : β → Prop) : ∀ b ∈ ([] : List β), p b :=
      fun b hb => absurd hb List.not_mem_nil
    exact forall_mem_wrapLine _ _
      (forall_mem_splitLines _ _ (hnone _) (hnone _) (hnone _) tokens htokens) line hline

end Measures

end Aetheris.Layout

namespace Aetheris.Paint

open Layout Raster Style SoftwareSurface

/-! ## The pen -/

/-- Where the pen is after a text. -/
def penAfter (cellWidth penX : ℤ) (text : Bytes) : ℤ :=
  text.foldl (fun penX _ => wrapInt (penX + cellWidth)) penX

/-- **Every character is drawn where the characters before it end**, and the pen goes on by the width
of the fragment. -/
structure PensMeasured (style : StyleProperties) (command : PaintCommand ℚ) : Prop where
  positions : (drawnPens command.rect command.text command.fontSize).map
      (fun pen => ((pen.1 : ℚ), pen.2)) =
    command.text.zipIdx.map fun place =>
      (command.rect.x + measureText style (command.text.take place.2), place.1)
  advance : (penAfter (cellWidth command.fontSize) (wrapInt (lround command.rect.x)) command.text -
    wrapInt (lround command.rect.x) : ℚ) = command.rect.width

/-- The pen goes on by one cell after each character, as long as it is an `int`. -/
theorem penAfter_eq {cellWidth penX : ℤ} (hcell : 0 ≤ cellWidth) {text : Bytes}
    (hfirst : FitsInt penX) (hlast : FitsInt (penX + text.length * cellWidth)) :
    penAfter cellWidth penX text = penX + text.length * cellWidth := by
  induction text generalizing penX with
  | nil => simp [penAfter]
  | cons c text ih =>
    have hlength : penX + (c :: text).length * cellWidth =
        penX + cellWidth + text.length * cellWidth := by
      rw [List.length_cons]
      push_cast
      ring
    have hrest : 0 ≤ text.length * cellWidth := by positivity
    rw [hlength] at hlast ⊢
    have hnext : FitsInt (penX + cellWidth) := hfirst.mono hlast (by omega) (by omega)
    rw [penAfter, List.foldl_cons, wrapInt_of_fits hnext]
    exact ih hnext hlast

/-- The places of the pen, as long as they are `int`s. -/
theorem pens_eq {cellWidth penX : ℤ} (hcell : 0 ≤ cellWidth) {text : Bytes}
    (hfirst : FitsInt penX) (hlast : FitsInt (penX + text.length * cellWidth)) :
    pens cellWidth penX text =
      text.zipIdx.map fun place => (penX + place.2 * cellWidth, place.1) := by
  have hrun (n : ℕ) (hn : FitsInt (penX + n * cellWidth))
      (hend : FitsInt (penX + n * cellWidth + text.length * cellWidth)) :
      pens cellWidth (penX + n * cellWidth) text =
        (text.zipIdx n).map fun place => (penX + place.2 * cellWidth, place.1) := by
    clear hfirst hlast
    induction text generalizing n with
    | nil => rfl
    | cons c text ih =>
      have hnext : penX + n * cellWidth + cellWidth = penX + (n + 1 : ℕ) * cellWidth := by
        push_cast
        ring
      have hlength : penX + n * cellWidth + (c :: text).length * cellWidth =
          penX + (n + 1 : ℕ) * cellWidth + text.length * cellWidth := by
        rw [List.length_cons]
        push_cast
        ring
      have hrest : 0 ≤ text.length * cellWidth := by positivity
      rw [hlength] at hend
      have hfits : FitsInt (penX + (n + 1 : ℕ) * cellWidth) :=
        hn.mono hend (by omega) (by omega)
      rw [pens, List.zipIdx_cons, List.map_cons, hnext, wrapInt_of_fits hfits, ih _ hfits hend]
  have hstart := hrun 0
  rw [Nat.cast_zero, zero_mul, add_zero] at hstart
  exact hstart hfirst hlast

/-- Rounding, as a number. -/
theorem roundRat_eq (value : ℚ) : roundRat value = lround value := by
  rw [roundRat, lround]
  split
  · rw [Int.cast_neg]
  · rfl

theorem lround_intCast (n : ℤ) : lround n = n := by
  have hhalf (m : ℤ) : ⌊(m : ℚ) + 1 / 2⌋ = m :=
    Int.floor_eq_iff.mpr ⟨by linarith, by linarith⟩
  rw [lround, ← Int.cast_neg, hhalf, hhalf, neg_neg, ite_self]

/-- The spacing between letters with which characters are measured as wide as a cell: none, unless
the advance is cut when it is cast to `int`. -/
def fittingSpacing (style : StyleProperties) : ℚ :=
  if (Layout.advance style : ℚ) < 2 ^ 31 then 0
  else max 1 (wrapInt (lround (Layout.advance style))) - Layout.advance style

/-- **A cell is as wide as the advance that is measured**, if that is an `int`. -/
theorem cellWidth_fontSize (style : StyleProperties) :
    (cellWidth (fontSize style) : ℚ) = Layout.advance style + fittingSpacing style := by
  have hmax : fmax 1 (roundRat (fontSize style * (3 / 5))) =
      (max 1 (lround (fontSize style * (3 / 5))) : ℤ) := by
    rw [fmax_rat, roundRat_eq]
    push_cast
    rfl
  have hadvance : (Layout.advance style : ℚ) = (max 1 (lround (fontSize style * (3 / 5))) : ℤ) := by
    rw [← hmax]
    rfl
  have hpos : 1 ≤ max 1 (lround (fontSize style * (3 / 5))) := le_max_left _ _
  rw [cellWidth, bitmapAdvance, fittingSpacing, hadvance, hmax, lround_intCast]
  generalize max 1 (lround (fontSize style * (3 / 5))) = advance at hpos
  split
  next hlt =>
    have hlt' : advance < 2 ^ 31 := by exact_mod_cast hlt
    rw [wrapInt_of_fits ⟨by omega, hlt'⟩, max_eq_right hpos, add_zero]
  next =>
    push_cast
    ring

theorem fitsInt_cellWidth (size : ℚ) : 1 ≤ cellWidth size ∧ FitsInt (cellWidth size) := by
  have hwrap := fitsInt_wrapInt (lround (bitmapAdvance size))
  refine ⟨le_max_left _ _, ?_⟩
  rw [cellWidth]
  rcases max_choice 1 (wrapInt (lround (bitmapAdvance size))) with hmax | hmax
  · rw [hmax]
    exact ⟨by decide, by decide⟩
  · rw [hmax]
    exact hwrap

/-- A text is drawn with the rectangle of its fragment and the font size of the node. -/
theorem fragment_of_mem_textCommands {node : LayoutFields ℚ} {opacity : ℚ}
    {command : PaintCommand ℚ} (h : command ∈ textCommands node opacity)
    (htype : command.type = .drawText) :
    ∃ fragment ∈ node.textFragments, command.text = fragment.text ∧
      command.rect = fragment.rect ∧ command.fontSize = fontSize node.style := by
  obtain ⟨fragment, hfragment, h⟩ := List.mem_flatMap.mp h
  refine ⟨fragment, hfragment, ?_⟩
  dsimp only at h
  split at h
  · rw [List.mem_singleton.mp h]
    exact ⟨rfl, rfl, rfl⟩
  · split at h
    · rw [List.mem_singleton.mp h]
      exact ⟨rfl, rfl, rfl⟩
    · rcases List.mem_pair.mp h with rfl | rfl
      · exact ⟨rfl, rfl, rfl⟩
      · cases htype

/-- The beginning of a word. -/
theorem measureText_take (style : StyleProperties) {text : Bytes} (hword : Word text) {n : ℕ}
    (hn : n ≤ text.length) :
    (measureText style (text.take n) : ℚ) = n * max 0 (letterWidth style) := by
  rw [measureText_word style fun c hc => hword.2 c (List.mem_of_mem_take hc), List.length_take,
    min_eq_left hn]

/-- The pen is an `int` at the end. -/
theorem fitsInt_penAfter (cellWidth : ℤ) {penX : ℤ} (hfirst : FitsInt penX) (text : Bytes) :
    FitsInt (penAfter cellWidth penX text) := by
  induction text generalizing penX with
  | nil => exact hfirst
  | cons c text ih => exact ih (fitsInt_wrapInt _)

/-- Where the pen begins, and its first step, if it goes on by one width. -/
theorem first_step {cellWidth penX : ℤ} {text : Bytes} {x width : ℚ} (hne : text ≠ [])
    (hpositions : (pens cellWidth penX text).map (fun pen => ((pen.1 : ℚ), pen.2)) =
      text.zipIdx.map fun place => (x + place.2 * width, place.1))
    (hafter : (penAfter cellWidth penX text - penX : ℚ) = text.length * width) :
    x = penX ∧ (wrapInt (penX + cellWidth) : ℚ) = penX + width := by
  obtain ⟨c, text, rfl⟩ := List.exists_cons_of_ne_nil hne
  rw [pens, List.map_cons, List.zipIdx_cons, List.map_cons, List.cons.injEq, Prod.mk.injEq]
    at hpositions
  obtain ⟨⟨hfirst, -⟩, hrest⟩ := hpositions
  have hx : x = penX := by simpa using hfirst.symm
  refine ⟨hx, ?_⟩
  cases text with
  | nil =>
    have hone : (wrapInt (penX + cellWidth) - penX : ℚ) = width := by simpa [penAfter] using hafter
    linarith
  | cons d text =>
    rw [pens, List.map_cons, List.zipIdx_cons, List.map_cons, List.cons.injEq, Prod.mk.injEq, hx]
      at hrest
    simpa using hrest.1.1

/-- **Exactly when measured text is drawn text**: the spacing between the letters is the one that
fits, which is none; and the fragment begins at an integer place and ends where the pen can get. -/
theorem pensMeasured_iff {node : LayoutFields ℚ} {source : Bytes} {x y available : ℚ}
    (hfragments : node.textFragments = textLayout source x y available node.style)
    (hsize : 1 ≤ (fontSize node.style : ℚ)) {opacity : ℚ} {command : PaintCommand ℚ}
    (hcommand : command ∈ textCommands node opacity) (htype : command.type = .drawText) :
    PensMeasured node.style command ↔
      parsePx (node.style.get (lit "letter-spacing")) (0 : ℚ) = fittingSpacing node.style ∧
        ∃ place : ℤ, command.rect.x = place ∧ -2 ^ 31 ≤ place ∧
          command.rect.x + command.rect.width < 2 ^ 31 := by
  obtain ⟨fragment, hfragment, htext, hrect, hfont⟩ := fragment_of_mem_textCommands hcommand htype
  rw [hfragments] at hfragment
  obtain ⟨hword, hwidth⟩ := word_of_mem_textLayout hfragment
  rw [← htext, ← hrect] at hwidth
  rw [← htext] at hword
  obtain ⟨hcellPos, hcellFits⟩ := fitsInt_cellWidth command.fontSize
  have hcell : (cellWidth command.fontSize : ℚ) =
      Layout.advance node.style + fittingSpacing node.style := by
    rw [hfont, cellWidth_fontSize]
  have hdrawn : drawnPens command.rect command.text command.fontSize =
      pens (cellWidth command.fontSize) (wrapInt (lround command.rect.x)) command.text :=
    if_neg (not_or.mpr ⟨hword.1, by rw [hfont]; linarith⟩)
  have hlength : 0 < command.text.length := List.length_pos_iff.mpr hword.1
  have htotal : command.rect.width =
      command.text.length * max 0 (letterWidth node.style) := by
    rw [hwidth, measureText_word node.style hword.2]
  have hmeasured : (command.text.zipIdx.map fun place =>
      (command.rect.x + measureText node.style (command.text.take place.2), place.1)) =
        command.text.zipIdx.map fun place =>
          (command.rect.x + place.2 * max 0 (letterWidth node.style), place.1) := by
    refine List.map_congr_left fun place hplace => ?_
    obtain ⟨-, hlt, -⟩ := List.mem_zipIdx hplace
    rw [measureText_take node.style hword (by omega)]
  -- a character is measured as wide as a cell
  have hspacing : max 0 (letterWidth node.style) = cellWidth command.fontSize ↔
      parsePx (node.style.get (lit "letter-spacing")) (0 : ℚ) = fittingSpacing node.style := by
    have hpos : (1 : ℚ) ≤ cellWidth command.fontSize := by exact_mod_cast hcellPos
    rw [letterWidth]
    generalize parsePx (node.style.get (lit "letter-spacing")) (0 : ℚ) = letter
    constructor
    · intro h
      rcases max_choice 0 (Layout.advance node.style + letter) with hmax | hmax
      · linarith
      · linarith
    · rintro rfl
      rw [← hcell, max_eq_right (by linarith)]
  have hwidthPos : 0 ≤ max 0 (letterWidth node.style) := le_max_left _ _
  have hlengthPos : (0 : ℚ) < command.text.length := Nat.cast_pos.mpr hlength
  constructor
  · rintro ⟨hpositions, htravel⟩
    rw [hdrawn, hmeasured] at hpositions
    rw [htotal] at htravel
    obtain ⟨hplace, hstep⟩ := first_step hword.1 hpositions htravel
    have hstart := fitsInt_wrapInt (lround command.rect.x)
    have hend := fitsInt_penAfter (cellWidth command.fontSize) hstart command.text
    generalize wrapInt (lround command.rect.x) = place at hplace hstep hstart hend htravel
    -- the pen does not go back, so it has not wrapped around
    have hfits : FitsInt (place + cellWidth command.fontSize) := by
      by_contra hno
      have hback : wrapInt (place + cellWidth command.fontSize) < place := by
        have hrange := fitsInt_wrapInt (place + cellWidth command.fontSize)
        have hmod : wrapInt (place + cellWidth command.fontSize) % 2 ^ 32 =
            (place + cellWidth command.fontSize) % 2 ^ 32 := Int.bmod_emod
        rw [FitsInt] at hno hrange hstart hcellFits
        omega
      have hback' : (wrapInt (place + cellWidth command.fontSize) : ℚ) < place := by
        exact_mod_cast hback
      linarith
    refine ⟨hspacing.mp ?_, place, hplace, hstart.1, ?_⟩
    · rw [wrapInt_of_fits hfits] at hstep
      push_cast at hstep
      linarith
    · have hlast : (penAfter (cellWidth command.fontSize) place command.text : ℚ) < 2 ^ 31 := by
        exact_mod_cast hend.2
      linarith
  · rintro ⟨hletter, place, hplace, hlow, hhigh⟩
    have hcellWidth := hspacing.mpr hletter
    rw [htotal, hplace, hcellWidth] at hhigh
    have hhigh' : place + command.text.length * cellWidth command.fontSize < 2 ^ 31 := by
      exact_mod_cast hhigh
    have hmore : 0 ≤ command.text.length * cellWidth command.fontSize := by positivity
    have hlast : FitsInt (place + command.text.length * cellWidth command.fontSize) :=
      ⟨by omega, hhigh'⟩
    have hfirst : FitsInt place := ⟨hlow, by omega⟩
    have hround : wrapInt (lround command.rect.x) = place := by
      rw [hplace, lround_intCast, wrapInt_of_fits hfirst]
    constructor
    · rw [hdrawn, hmeasured, hround, pens_eq (by omega) hfirst hlast, List.map_map, hplace,
        hcellWidth]
      refine List.map_congr_left fun character _ => ?_
      dsimp only [Function.comp_apply]
      push_cast
      rfl
    · rw [hround, penAfter_eq (by omega) hfirst hlast, htotal, hcellWidth]
      push_cast
      ring

/-- A text that has been laid out in a corner. -/
def textNode (style : StyleProperties) (source : Bytes) : LayoutFields ℚ :=
  { sampleNode 1 style ⟨0, 0, 100, 20⟩ with
    dom := { type := .text, name := lit "#text" }
    textFragments := textLayout source 0 0 100 style }

/-- The command for the first fragment of a text in a corner. -/
def firstCommand (style : StyleProperties) (source : Bytes) : PaintCommand ℚ :=
  (textCommands (textNode style source) 1).headD {}

theorem firstCommand_mem {style : StyleProperties} {source : Bytes}
    (hsome : (textCommands (textNode style source) 1).isEmpty = false) :
    firstCommand style source ∈ textCommands (textNode style source) 1 := by
  rw [firstCommand]
  generalize textCommands (textNode style source) 1 = commands at hsome
  cases commands with
  | nil => cases hsome
  | cons command commands => exact List.mem_cons_self

theorem pensMeasured_iff_plain :
    PensMeasured {} (firstCommand {} (lit "ab")) ↔
      parsePx (({} : StyleProperties).get (lit "letter-spacing")) (0 : ℚ) = fittingSpacing {} ∧
        ∃ place : ℤ, (firstCommand {} (lit "ab")).rect.x = place ∧ -2 ^ 31 ≤ place ∧
          (firstCommand {} (lit "ab")).rect.x + (firstCommand {} (lit "ab")).rect.width <
            2 ^ 31 :=
  @pensMeasured_iff (textNode {} (lit "ab")) (lit "ab") 0 0 100 rfl (by decide +kernel) 1
    (firstCommand {} (lit "ab")) (firstCommand_mem (by decide +kernel)) (by decide +kernel)

/-- A style with space between the letters. -/
def spacedStyle : StyleProperties := ({} : StyleProperties).set (lit "letter-spacing") (lit "1px")

/-- Two letters with a pixel between them: the text is two pixels wider than what is drawn. -/
theorem not_forall_pensMeasured :
    ¬∀ (node : LayoutFields ℚ) (source : Bytes) (x y available opacity : ℚ)
      (command : PaintCommand ℚ) (letter word place : ℤ),
      node.textFragments = textLayout source x y available node.style →
        1 ≤ (fontSize node.style : ℚ) →
          parsePx (node.style.get (lit "letter-spacing")) (0 : ℚ) = letter →
            parsePx (node.style.get (lit "word-spacing")) (0 : ℚ) = word →
              command ∈ textCommands node opacity → command.type = .drawText →
                command.rect.x = place → PensMeasured node.style command := by
  intro h
  have htravel := (h (textNode spacedStyle (lit "ab")) (lit "ab") 0 0 100 1
    (firstCommand spacedStyle (lit "ab")) 1 0 0 rfl (by decide +kernel) (by decide +kernel)
    (by decide +kernel) (firstCommand_mem (by decide +kernel)) (by decide +kernel)
    (by decide +kernel)).advance
  exact absurd htravel (by decide +kernel)

end Aetheris.Paint
