import Aetheris.Layout.TextLayout
import Aetheris.Library.Greedy

/-!
# Line breaking

With normal white space `TextLayout::layout` collapses a text, takes it apart, puts its words on
lines with a blank between them, and places the words of each line.  What comes out of the four
passes is said from the words alone: a word goes on the line if the line with it fits, and the
fragments of a line stand one behind the other.
-/

namespace Aetheris.Layout

open Style Length Greedy

variable {style : StyleProperties} {available : ℚ}

/-- The width of words with one blank between any two of them. -/
def lineWidth (style : StyleProperties) (line : List Bytes) : ℚ :=
  (line.map (measureText style)).sum + (line.length - 1 : ℕ) * measureText style (lit " ")

/-- The words fit in the available width. -/
def Fits (style : StyleProperties) (available : ℚ) (line : List Bytes) : Prop :=
  lineWidth style line ≤ available

/-- Where a line begins, from the left edge. -/
def alignmentShift (style : StyleProperties) (available width : ℚ) : ℚ :=
  if style.get (lit "text-align") = some (lit "center") then max 0 ((available - width) / 2)
  else if style.get (lit "text-align") = some (lit "right") ∨
      style.get (lit "text-align") = some (lit "end") then max 0 (available - width)
  else 0

/-- The fragments of a line: each begins where the word before and a blank end. -/
structure LineLaid (style : StyleProperties) (x y : ℚ) (line : List Bytes)
    (fragments : List (TextFragment ℚ)) : Prop where
  texts : fragments.map TextFragment.text = line
  first : ∀ fragment ∈ fragments.head?, fragment.rect.x = x
  next : fragments.IsChain fun a b =>
    b.rect.x = a.rect.x + a.rect.width + measureText style (lit " ")
  ordered : fragments.Pairwise fun a b => a.rect.x + a.rect.width ≤ b.rect.x
  sizes : ∀ fragment ∈ fragments, fragment.rect.width = measureText style fragment.text ∧
    fragment.rect.y = y ∧ fragment.rect.height = lineHeight style ∧
      fragment.baseline = y + fontSize style

/-! ## Widths -/

theorem measureText_nonneg (style : StyleProperties) (text : Bytes) :
    (0 : ℚ) ≤ measureText style text := by
  rw [measureText, fmax_rat]
  exact le_max_left _ _

theorem lineWidth_singleton (style : StyleProperties) (word : Bytes) :
    lineWidth style [word] = measureText style word := by
  rw [lineWidth, List.map_singleton, List.sum_singleton, List.length_singleton]
  simp

theorem lineWidth_concat {line : List Bytes} (hline : line ≠ []) (word : Bytes) :
    lineWidth style (line ++ [word]) =
      lineWidth style line + measureText style (lit " ") + measureText style word := by
  have hlength : line.length - 1 + 1 = line.length :=
    Nat.sub_add_cancel (List.length_pos_iff.mpr hline)
  rw [lineWidth, lineWidth, List.map_append, List.sum_append, List.map_singleton,
    List.sum_singleton, List.length_append, List.length_singleton, Nat.add_sub_cancel, ← hlength]
  push_cast
  ring

/-- The words of a line as the code keeps them: with blanks between them. -/
def spaced (line : List Bytes) : List Bytes := line.intersperse (lit " ")

theorem spaced_concat {line : List Bytes} (hline : line ≠ []) (word : Bytes) :
    spaced (line ++ [word]) = spaced line ++ [lit " ", word] := by
  induction line with
  | nil => exact absurd rfl hline
  | cons first line ih =>
    cases line with
    | nil => rfl
    | cons second line =>
      have hrest := ih (List.cons_ne_nil _ _)
      rw [spaced, spaced] at hrest ⊢
      rw [List.cons_append, List.cons_append, List.intersperse_cons_cons, ← List.cons_append, hrest,
        List.intersperse_cons_cons]
      rfl

theorem spaced_eq_nil_iff {line : List Bytes} : spaced line = [] ↔ line = [] := by
  rw [spaced]
  cases line with
  | nil => simp
  | cons word line => cases line <;> simp

/-- The width that is measured word by word, with the blanks. -/
theorem sum_spaced (style : StyleProperties) (line : List Bytes) :
    ((spaced line).map (measureText style)).sum = lineWidth style line := by
  induction line using List.reverseRecOn with
  | nil => simp [spaced, lineWidth]
  | append_singleton line word ih =>
    by_cases hline : line = []
    · rw [hline, List.nil_append, lineWidth_singleton]
      exact List.sum_singleton
    · rw [spaced_concat hline, lineWidth_concat hline, List.map_append, List.sum_append, ih]
      simp [add_assoc]

/-! ## Wrapping -/

/-- What the loop over the words of a text keeps: the lines with their blanks, and the width of the
last one. -/
structure Wrapped (style : StyleProperties) (available : ℚ) (words : List Bytes) (s : Wrapping ℚ)
    (lines : List (List Bytes)) (line : List Bytes) : Prop where
  filled : Filled (Fits style available) words (lines ++ [line])
  lines_eq : s.lines = lines.map spaced
  line_eq : s.line = spaced line
  width_eq : s.width = lineWidth style line

/-- The first word. -/
theorem wrapped_first (word : Bytes) :
    Wrapped style available [word] (wrapWord style true available { width := 0 } word) [] [word] := by
  have hstep : wrapWord style true available { width := 0 } word =
      { lines := [], line := [word], width := 0 + measureText style word } := by
    simp [wrapWord]
  rw [hstep]
  exact ⟨.singleton _ word, rfl, rfl, (zero_add _).trans (lineWidth_singleton style word).symm⟩

/-- Another word goes on the last line if it fits there, with a blank before it. -/
theorem Wrapped.wrapWord {words : List Bytes} {s : Wrapping ℚ} {lines : List (List Bytes)}
    {line : List Bytes} (h : Wrapped style available words s lines line) {word : Bytes}
    (hword : word ≠ lit " ") :
    ∃ lines line, Wrapped style available (words ++ [word])
      (wrapWord style true available s word) lines line := by
  have hline : line ≠ [] := fun heq => h.filled.ne_nil (by simp [heq])
  have hne : s.line ≠ [] := by rw [h.line_eq, Ne, spaced_eq_nil_iff]; exact hline
  have hwidth : s.width + measureText style (lit " ") + measureText style word =
      lineWidth style (line ++ [word]) := by rw [h.width_eq, lineWidth_concat hline]
  rw [Layout.wrapWord]
  simp only [if_neg hne]
  rw [hwidth]
  by_cases hfits : Fits style available (line ++ [word])
  · rw [if_neg fun hnew => not_lt.mpr hfits hnew.2.2, if_pos ⟨hne, hword⟩]
    refine ⟨lines, line ++ [word], h.filled.extend hfits, h.lines_eq, ?_, rfl⟩
    rw [spaced_concat hline, ← h.line_eq]
  · rw [if_pos ⟨trivial, hne, not_le.mp hfits⟩]
    refine ⟨lines ++ [line], [word], h.filled.begin hfits, ?_, rfl, ?_⟩
    · rw [List.map_append, ← h.lines_eq, List.map_singleton, ← h.line_eq]
    · exact (zero_add _).trans (lineWidth_singleton style word).symm

/-- The words of a text are put on greedy lines. -/
theorem wrapLine_filled {words : List Bytes} (hne : words ≠ []) (hwords : lit " " ∉ words) :
    ∃ lines, Filled (Fits style available) words lines ∧
      wrapLine style true available words = lines.map spaced := by
  have hrun : ∃ lines line, Wrapped style available words
      (words.foldl (wrapWord style true available) { width := 0 }) lines line := by
    induction words using List.reverseRecOn with
    | nil => exact absurd rfl hne
    | append_singleton words word ih =>
      rw [List.mem_append, List.mem_singleton, not_or] at hwords
      rw [List.foldl_append, List.foldl_cons, List.foldl_nil]
      by_cases hfirst : words = []
      · rw [hfirst]
        exact ⟨_, _, wrapped_first word⟩
      · obtain ⟨lines, line, h⟩ := ih hfirst hwords.1
        exact h.wrapWord (Ne.symm hwords.2)
  obtain ⟨lines, line, h⟩ := hrun
  refine ⟨lines ++ [line], h.filled, ?_⟩
  rw [wrapLine, h.lines_eq, h.line_eq, List.map_append, List.map_singleton]

/-! ## Placing -/

/-- No fragment of a line is to the left of where it begins. -/
theorem LineLaid.le_x {x y : ℚ} {line : List Bytes} {fragments : List (TextFragment ℚ)}
    (h : LineLaid style x y line fragments) : ∀ fragment ∈ fragments, x ≤ fragment.rect.x := by
  cases fragments with
  | nil => exact fun fragment hfragment => absurd hfragment List.not_mem_nil
  | cons first rest =>
    have hfirst : first.rect.x = x := h.first first rfl
    have hwidth : 0 ≤ first.rect.width := by
      rw [(h.sizes first List.mem_cons_self).1]
      exact measureText_nonneg style _
    rw [List.forall_mem_cons]
    refine ⟨hfirst.ge, fun fragment hfragment => ?_⟩
    have hafter := (List.pairwise_cons.mp h.ordered).1 fragment hfragment
    linarith

/-- The words of a line are placed from left to right. -/
theorem lineLaid_placeWords (style : StyleProperties) (y x : ℚ) {line : List Bytes}
    (hline : lit " " ∉ line) : LineLaid style x y line (placeWords style y x (spaced line)) := by
  induction line generalizing x with
  | nil =>
    rw [spaced, List.intersperse_nil, placeWords]
    exact ⟨rfl, by simp, List.IsChain.nil, List.Pairwise.nil, by simp⟩
  | cons word line ih =>
    rw [List.mem_cons, not_or] at hline
    cases line with
    | nil =>
      rw [spaced, List.intersperse_singleton, placeWords, if_neg (Ne.symm hline.1), placeWords]
      exact ⟨rfl, by simp, List.isChain_singleton _, List.pairwise_singleton _ _, by simp⟩
    | cons second line =>
      have hrest := ih (x + measureText style word + measureText style (lit " ")) hline.2
      rw [spaced, List.intersperse_cons_cons, placeWords, if_neg (Ne.symm hline.1), placeWords,
        if_pos rfl]
      refine ⟨?_, by simp, ?_, ?_, ?_⟩
      · rw [List.map_cons]
        exact congrArg _ hrest.texts
      · rw [List.isChain_cons]
        exact ⟨hrest.first, hrest.next⟩
      · refine List.pairwise_cons.mpr ⟨fun fragment hfragment => ?_, hrest.ordered⟩
        exact (le_add_of_nonneg_right (measureText_nonneg style _)).trans
          (hrest.le_x fragment hfragment)
      · rw [List.forall_mem_cons]
        exact ⟨⟨rfl, rfl, rfl, rfl⟩, hrest.sizes⟩

/-- The lines are placed one below the other, each with its own shift. -/
theorem placeLines_laid (style : StyleProperties) (x y available : ℚ) {lines : List (List Bytes)}
    (hlines : lit " " ∉ lines.flatten) :
    ∃ laid : List (List (TextFragment ℚ)),
      placeLines style x available y (lines.map spaced) = laid.flatten ∧
        laid.length = lines.length ∧
        ∀ (i : ℕ) (line : List Bytes) (fragments : List (TextFragment ℚ)),
          lines[i]? = some line → laid[i]? = some fragments →
            LineLaid style (x + alignmentShift style available (lineWidth style line))
              (y + i * lineHeight style) line fragments := by
  induction lines generalizing y with
  | nil => exact ⟨[], rfl, rfl, fun i line fragments h => absurd h (by simp)⟩
  | cons first lines ih =>
    rw [List.flatten_cons, List.mem_append, not_or] at hlines
    obtain ⟨laid, hplace, hlength, hlaid⟩ := ih (y + lineHeight style) hlines.2
    have hbegin : (if style.get (lit "text-align") = some (lit "center") then
          x + fmax 0 ((available - lineWidth style first) / ofRat 2)
        else if style.get (lit "text-align") = some (lit "right") ∨
            style.get (lit "text-align") = some (lit "end") then
          x + fmax 0 (available - lineWidth style first)
        else x) = x + alignmentShift style available (lineWidth style first) := by
      rw [alignmentShift, fmax_rat, fmax_rat]
      split
      · rfl
      · split
        · rfl
        · exact (add_zero x).symm
    have hwidth : (spaced first).foldl (fun width word => width + measureText style word) 0 =
        lineWidth style first := by
      rw [← sum_spaced, List.sum_eq_foldl, List.foldl_map]
    rw [List.map_cons, placeLines, hplace]
    simp only [hwidth, hbegin]
    refine ⟨_ :: laid, rfl, congrArg (· + 1) hlength, fun i line fragments hline hfragments => ?_⟩
    cases i with
    | zero =>
      obtain rfl := Option.some.inj hline
      obtain rfl := Option.some.inj hfragments
      rw [Nat.cast_zero, zero_mul, add_zero]
      exact lineLaid_placeWords style y _ hlines.1
    | succ i =>
      have hi := hlaid i line fragments hline hfragments
      rw [add_assoc, add_comm (lineHeight style)] at hi
      rw [Nat.cast_succ, add_mul, one_mul]
      exact hi

/-- **A text with normal white space is on greedy lines.**  Its words are in order; a line with more
than one word fits in the available width; it ends only where the next word and a blank would not
fit; and the fragments of the lines run from left to right, one line height below each other. -/
theorem textLayout_normal (source : Bytes) (x y available : ℚ) (style : StyleProperties)
    (hnormal : ∀ value ∈ style.get (lit "white-space"), value = lit "normal")
    (havailable : 0 < available) :
    ∃ (lines : List (List Bytes)) (laid : List (List (TextFragment ℚ))),
      Filled (Fits style available) (words source) lines ∧
        textLayout source x y available style = laid.flatten ∧ laid.length = lines.length ∧
        ∀ (i : ℕ) (line : List Bytes) (fragments : List (TextFragment ℚ)),
          lines[i]? = some line → laid[i]? = some fragments →
            LineLaid style (x + alignmentShift style available (lineWidth style line))
              (y + i * lineHeight style) line fragments := by
  rw [textLayout_of_normal source x y available hnormal]
  by_cases hwords : words source = []
  · rw [if_pos (Or.inr hwords), hwords]
    exact ⟨[], [], .nil _, rfl, rfl, fun i line fragments h => absurd h (by simp)⟩
  · rw [if_neg (not_or.mpr ⟨not_le.mpr havailable, hwords⟩)]
    obtain ⟨lines, hfilled, hwrap⟩ := wrapLine_filled hwords (not_mem_words source)
    obtain ⟨laid, hplace, hlength, hlaid⟩ :=
      placeLines_laid style x y available (hfilled.flatten.symm ▸ not_mem_words source)
    exact ⟨lines, laid, hfilled, hwrap ▸ hplace, hlength, hlaid⟩

/-- Two words that do not fit on one line. -/
theorem textLayout_normal_narrow :
    ∃ (lines : List (List Bytes)) (laid : List (List (TextFragment ℚ))),
      Filled (Fits {} 25) (words (lit "ab  cd")) lines ∧
        textLayout (lit "ab  cd") 0 0 25 {} = laid.flatten ∧ laid.length = lines.length ∧
        ∀ (i : ℕ) (line : List Bytes) (fragments : List (TextFragment ℚ)),
          lines[i]? = some line → laid[i]? = some fragments →
            LineLaid {} (0 + alignmentShift {} 25 (lineWidth {} line)) (0 + i * lineHeight {})
              line fragments :=
  textLayout_normal (lit "ab  cd") 0 0 25 {} (fun value hvalue => by cases hvalue) (by norm_num)

example : (textLayout (lit "ab  cd") 0 0 25 {} : List (TextFragment ℚ)).map
    (fun fragment => (fragment.text, fragment.rect.y)) =
      [(lit "ab", 0), (lit "cd", 96 / 5)] := by
  decide +kernel

end Aetheris.Layout
