import Aetheris.Layout.Length
import Aetheris.Layout.Node

/-!
# Text layout

`TextLayout` of `rendering/text_layout.cpp`, with the metrics of `rendering/font.cpp`: a text is
taken apart into words, the words are put on lines, and the words of a line are placed.
-/

namespace Aetheris.Layout

open Style Length

/-! ## Words -/

/-- `TextLayout::collapse_whitespace` without `preserve`, from a result and a pending blank on. -/
def collapseFrom (result : Bytes) (pending : Bool) : Bytes → Bytes
  | [] => result
  | c :: text =>
    if isSpace c then collapseFrom result (result ≠ []) text
    else collapseFrom ((if pending then result ++ lit " " else result) ++ [c]) false text

/-- `TextLayout::collapse_whitespace`. -/
def collapseWhitespace (text : Bytes) (preserve : Bool) : Bytes :=
  if preserve then text else collapseFrom [] false text

/-- The `flush` lambda. -/
def flushToken (line : List Bytes) (token : Bytes) : List Bytes :=
  if token = [] then line else line ++ [token]

/-- The loop over the characters: `lines` are complete, `line` is the last of them. -/
def splitLines (pre : Bool) (lines : List (List Bytes)) (line : List Bytes) (token : Bytes) :
    Bytes → List (List Bytes)
  | [] => lines ++ [flushToken line token]
  | c :: text =>
    if c = 0x0a ∧ pre then splitLines pre (lines ++ [flushToken line token]) [] [] text
    else if isSpace c then
      splitLines pre lines
        (if pre then flushToken line token ++ [lit " "] else flushToken line token) [] text
    else splitLines pre lines line (token ++ [c]) text

section Measures

variable {F : Type} [Length F]

/-! ## Sizes -/

/-- `TextLayout::font_size`. -/
def fontSize (style : StyleProperties) : F :=
  numberOr (style.get (lit "font-size")) (ofRat 16)

/-- `FontMetrics::advance`, of every character. -/
def advance (style : StyleProperties) : F :=
  fmax (ofRat 1) (round (fontSize style * ofRat (3 / 5)))

/-- `parse_px`. -/
def parsePx (value : Option Bytes) (fallback : F) : F :=
  match value with
  | none => fallback
  | some value =>
    if value = [] ∨ value = lit "normal" then fallback
    else (strtof value).elim fallback Prod.fst

/-- `TextLayout::line_height`. -/
def lineHeight (style : StyleProperties) : F :=
  let size : F := fontSize style
  match style.get (lit "line-height") with
  | none => size * ofRat (6 / 5)
  | some value =>
    if value = lit "normal" then size * ofRat (6 / 5)
    else
      match (strtof value : Option (F × Bytes)) with
      | none => size * ofRat (6 / 5)
      | some (parsed, rest) => if rest.head?.getD 0 = 0 then parsed * size else parsed

/-- `TextLayout::measure_text`. -/
def measureText (style : StyleProperties) (text : Bytes) : F :=
  let letter : F := parsePx (style.get (lit "letter-spacing")) 0
  let word : F := parsePx (style.get (lit "word-spacing")) 0
  let width := text.foldl (fun width c =>
    let width := width + advance style
    let width := if c = chr ' ' then width + word else width
    width + letter) 0
  fmax 0 width

/-! ## Lines -/

/-- The lines that are complete, the words of the last line, and its width. -/
structure Wrapping (F : Type) where
  lines : List (List Bytes) := []
  line : List Bytes := []
  width : F

/-- One word is put on the last line, or on a new one. -/
def wrapWord (style : StyleProperties) (wraps : Bool) (available : F) (s : Wrapping F)
    (word : Bytes) : Wrapping F :=
  let wordWidth := measureText style word
  let space : F := if s.line = [] then 0 else measureText style (lit " ")
  if wraps ∧ s.line ≠ [] ∧ available < s.width + space + wordWidth then
    { lines := s.lines ++ [s.line], line := [word], width := 0 + wordWidth }
  else if s.line ≠ [] ∧ word ≠ lit " " then
    { s with line := s.line ++ [lit " ", word], width := s.width + space + wordWidth }
  else { s with line := s.line ++ [word], width := s.width + wordWidth }

/-- A line as one or more lines that fit. -/
def wrapLine (style : StyleProperties) (wraps : Bool) (available : F) (words : List Bytes) :
    List (List Bytes) :=
  let s := words.foldl (wrapWord style wraps available) { width := 0 }
  s.lines ++ [s.line]

/-- The fragments of a line from `x` on. -/
def placeWords (style : StyleProperties) (y : F) : F → List Bytes → List (TextFragment F)
  | _, [] => []
  | x, word :: words =>
    let width := measureText style word
    let rest := placeWords style y (x + width) words
    if word = lit " " then rest
    else ⟨word, ⟨x, y, width, lineHeight style⟩, y + fontSize style⟩ :: rest

/-- The fragments of lines from `y` on. -/
def placeLines (style : StyleProperties) (x available : F) :
    F → List (List Bytes) → List (TextFragment F)
  | _, [] => []
  | y, line :: lines =>
    let width := line.foldl (fun width word => width + measureText style word) 0
    let align := style.get (lit "text-align")
    let begin :=
      if align = some (lit "center") then x + fmax 0 ((available - width) / ofRat 2)
      else if align = some (lit "right") ∨ align = some (lit "end") then
        x + fmax 0 (available - width)
      else x
    placeWords style y begin line ++ placeLines style x available (y + lineHeight style) lines

/-- `TextLayout::layout`. -/
def textLayout (source : Bytes) (x y available : F) (style : StyleProperties) :
    List (TextFragment F) :=
  let whiteSpace := style.get (lit "white-space")
  let pre := whiteSpace = some (lit "pre") ∨ whiteSpace = some (lit "pre-wrap")
  let nowrap := whiteSpace = some (lit "nowrap") ∨ whiteSpace = some (lit "pre")
  let prewrap := whiteSpace = some (lit "pre-wrap")
  let text := collapseWhitespace source pre
  if text = [] ∨ available ≤ 0 then []
  else
    placeLines style x available y
      ((splitLines pre [] [] [] text).flatMap (wrapLine style (¬ nowrap ∧ ¬ prewrap) available))

end Measures

/-! ## The words of a text -/

/-- The words of a text, of which the first one has begun. -/
def wordsFrom (token : Bytes) : Bytes → List Bytes
  | [] => flushToken [] token
  | c :: text =>
    if isSpace c then flushToken [] token ++ wordsFrom [] text else wordsFrom (token ++ [c]) text

theorem flushToken_append (line : List Bytes) (token : Bytes) :
    flushToken line token = line ++ flushToken [] token := by
  rw [flushToken, flushToken]
  split
  · rw [List.append_nil]
  · rw [List.nil_append]

theorem wordsFrom_append {token : Bytes} (rest : Bytes) :
    wordsFrom token rest =
      flushToken [] (token ++ rest.takeWhile fun c => !isSpace c) ++
        wordsFrom [] (rest.dropWhile fun c => !isSpace c) := by
  induction rest generalizing token with
  | nil =>
    rw [List.takeWhile_nil, List.dropWhile_nil, List.append_nil, wordsFrom, wordsFrom]
    exact (List.append_nil _).symm
  | cons c rest ih =>
    by_cases hc : isSpace c = true
    · rw [List.takeWhile_cons_of_neg (by simp [hc]), List.dropWhile_cons_of_neg (by simp [hc]),
        List.append_nil, wordsFrom, if_pos hc, wordsFrom, if_pos hc]
      rfl
    · rw [List.takeWhile_cons_of_pos (by simp [hc]), List.dropWhile_cons_of_pos (by simp [hc]),
        wordsFrom, if_neg hc, ih, List.append_assoc, List.singleton_append]

theorem wordsFrom_dropWhile (text : Bytes) : wordsFrom [] (text.dropWhile isSpace) = wordsFrom [] text := by
  induction text with
  | nil => rfl
  | cons c text ih =>
    by_cases hc : isSpace c = true
    · rw [List.dropWhile_cons_of_pos hc, ih, wordsFrom, if_pos hc]
      rfl
    · rw [List.dropWhile_cons_of_neg hc]

/-- The words are those that the stream reads. -/
theorem words_eq_wordsFrom (text : Bytes) : words text = wordsFrom [] text := by
  induction text using words.induct with
  | case1 text h => rw [words, h, ← wordsFrom_dropWhile, h]; rfl
  | case2 text c rest h ih =>
    have hc : ¬ isSpace c = true := by
      have hhead := List.head?_dropWhile_not isSpace text
      rw [h] at hhead
      simpa using hhead
    rw [words, h, ← wordsFrom_dropWhile, h, wordsFrom, if_neg hc, wordsFrom_append, ← ih]
    rfl

theorem splitLines_normal (lines : List (List Bytes)) (line : List Bytes) (token text : Bytes) :
    splitLines false lines line token text = lines ++ [line ++ wordsFrom token text] := by
  induction text generalizing line token with
  | nil => rw [splitLines, wordsFrom, flushToken_append]
  | cons c text ih =>
    rw [splitLines, wordsFrom, if_neg (fun h => Bool.false_ne_true h.2)]
    by_cases hc : isSpace c = true
    · rw [if_pos hc, if_pos hc, if_neg Bool.false_ne_true, ih, flushToken_append line,
        List.append_assoc]
    · rw [if_neg hc, if_neg hc, ih]

theorem wordsFrom_append_space {c : Byte} (hc : isSpace c = true) (token a b : Bytes) :
    wordsFrom token (a ++ c :: b) = wordsFrom token a ++ wordsFrom [] b := by
  induction a generalizing token with
  | nil => rw [List.nil_append, wordsFrom, wordsFrom, if_pos hc]
  | cons d a ih =>
    rw [List.cons_append, wordsFrom, wordsFrom]
    split
    · rw [ih, List.append_assoc]
    · exact ih _

/-- Collapsing keeps the words. -/
theorem wordsFrom_collapseFrom (result : Bytes) (pending : Bool) (text : Bytes)
    (hpending : pending = true → result ≠ []) :
    wordsFrom [] (collapseFrom result pending text) =
      wordsFrom [] (result ++ (if pending then lit " " else []) ++ text) := by
  have hblank : isSpace (chr ' ') = true := by decide
  induction text generalizing result pending with
  | nil =>
    rw [collapseFrom, List.append_nil]
    split
    · exact ((wordsFrom_append_space hblank [] result []).trans (List.append_nil _)).symm
    · rw [List.append_nil]
  | cons c text ih =>
    rw [collapseFrom]
    by_cases hc : isSpace c = true
    · have hsplit (r : Bytes) (p : Bool) : wordsFrom [] (r ++ (if p then lit " " else []) ++ c :: text) =
          wordsFrom [] r ++ wordsFrom [] text := by
        rw [wordsFrom_append_space hc]
        split
        · rw [show lit " " = chr ' ' :: [] from rfl, wordsFrom_append_space hblank]
          exact congrArg (· ++ _) (List.append_nil _)
        · rw [List.append_nil]
      rw [if_pos hc, ih _ _ fun h => of_decide_eq_true h, hsplit]
      by_cases hresult : result = []
      · rw [hresult]
        rfl
      · rw [decide_eq_true hresult, if_pos rfl, show lit " " = chr ' ' :: [] from rfl,
          List.append_assoc, List.singleton_append, wordsFrom_append_space hblank]
    · rw [if_neg hc, ih _ _ fun h => absurd h Bool.false_ne_true, if_neg Bool.false_ne_true,
        List.append_nil, List.append_assoc]
      split
      · rfl
      · rw [List.append_nil]
        rfl

theorem not_mem_wordsFrom {token : Bytes} (htoken : ∀ c ∈ token, isSpace c = false) (text : Bytes) :
    lit " " ∉ wordsFrom token text := by
  have hflush {t : Bytes} (ht : ∀ c ∈ t, isSpace c = false) : lit " " ∉ flushToken [] t := by
    rw [flushToken]
    split
    · exact List.not_mem_nil
    · rw [List.nil_append, List.mem_singleton]
      rintro rfl
      exact absurd (ht (chr ' ') List.mem_cons_self) (by decide)
  induction text generalizing token with
  | nil => exact hflush htoken
  | cons c text ih =>
    rw [wordsFrom]
    split
    · rw [List.mem_append, not_or]
      exact ⟨hflush htoken, ih fun c hc => absurd hc List.not_mem_nil⟩
    next hc =>
      refine ih fun d hd => ?_
      rcases List.mem_append.mp hd with hd | hd
      · exact htoken d hd
      · rw [List.mem_singleton.mp hd]
        exact Bool.eq_false_iff.mpr hc

theorem not_mem_words (text : Bytes) : lit " " ∉ words text := by
  rw [words_eq_wordsFrom]
  exact not_mem_wordsFrom (fun c hc => absurd hc List.not_mem_nil) text

theorem wordsFrom_ne_nil {token : Bytes} (htoken : token ≠ []) (text : Bytes) :
    wordsFrom token text ≠ [] := by
  rw [wordsFrom_append, flushToken, if_neg fun h => htoken (List.append_eq_nil_iff.mp h).1]
  exact List.cons_ne_nil _ _

/-- Collapsing leaves no blank at the beginning. -/
theorem isSpace_head_collapseFrom {result : Bytes} {pending : Bool} (text : Bytes)
    (hresult : ∀ c ∈ result.head?, isSpace c = false) (hpending : pending = true → result ≠ []) :
    ∀ c ∈ (collapseFrom result pending text).head?, isSpace c = false := by
  induction text generalizing result pending with
  | nil => exact hresult
  | cons c text ih =>
    rw [collapseFrom]
    by_cases hc : isSpace c = true
    · rw [if_pos hc]
      exact ih hresult of_decide_eq_true
    · rw [if_neg hc]
      refine ih (fun d hd => ?_) fun h => absurd h Bool.false_ne_true
      by_cases hnil : result = []
      · have hnone : pending = false := Bool.eq_false_iff.mpr fun h => hpending h hnil
        rw [hnil, hnone] at hd
        rw [← Option.some.inj hd]
        exact Bool.eq_false_iff.mpr hc
      · refine hresult d ?_
        rw [List.head?_append_of_ne_nil _ (by split <;> simp [hnil])] at hd
        split at hd
        · rwa [List.head?_append_of_ne_nil _ hnil] at hd
        · exact hd

/-- What is collapsed has a word, if it is not empty. -/
theorem wordsFrom_collapse_eq_nil_iff (text : Bytes) :
    collapseWhitespace text false = [] ↔ wordsFrom [] (collapseWhitespace text false) = [] := by
  have hhead : ∀ c ∈ (collapseFrom [] false text).head?, isSpace c = false :=
    isSpace_head_collapseFrom text (by simp) (by simp)
  rw [collapseWhitespace, if_neg Bool.false_ne_true]
  generalize collapseFrom [] false text = collapsed at hhead
  cases collapsed with
  | nil => exact iff_of_true rfl rfl
  | cons c collapsed =>
    refine iff_of_false (List.cons_ne_nil _ _) ?_
    rw [wordsFrom, if_neg (Bool.eq_false_iff.mp (hhead c rfl))]
    exact wordsFrom_ne_nil (List.cons_ne_nil _ _) _

section Measures

variable {F : Type} [Length F] {style : StyleProperties} {wraps : Bool} {available : F}

/-- The words on some lines. -/
def lineWords (lines : List (List Bytes)) : List Bytes :=
  lines.flatten.filter fun word => word ≠ lit " "

theorem lineWords_append (as bs : List (List Bytes)) :
    lineWords (as ++ bs) = lineWords as ++ lineWords bs := by
  rw [lineWords, List.flatten_append, List.filter_append]
  rfl

theorem lineWords_singleton (line : List Bytes) :
    lineWords [line] = line.filter fun word => word ≠ lit " " := by
  rw [lineWords, List.flatten_singleton]

/-- Each word is put on a line once. -/
theorem lineWords_wrapWord (s : Wrapping F) (word : Bytes) :
    lineWords ((wrapWord style wraps available s word).lines ++
      [(wrapWord style wraps available s word).line]) =
        lineWords (s.lines ++ [s.line]) ++ lineWords [[word]] := by
  rw [wrapWord]
  generalize (if s.line = [] then (0 : F) else measureText style (lit " ")) = space
  split
  · exact lineWords_append _ _
  · rw [lineWords_append s.lines, List.append_assoc]
    split
    · refine (lineWords_append _ _).trans (congrArg _ ?_)
      simp only [lineWords_singleton, List.filter_append]
      rfl
    · refine (lineWords_append _ _).trans (congrArg _ ?_)
      simp only [lineWords_singleton, List.filter_append]

theorem lineWords_wrapLine (words : List Bytes) :
    lineWords (wrapLine style wraps available words) = lineWords [words] := by
  have hrun (s : Wrapping F) : lineWords ((words.foldl (wrapWord style wraps available) s).lines ++
      [(words.foldl (wrapWord style wraps available) s).line]) =
        lineWords (s.lines ++ [s.line]) ++ lineWords [words] := by
    induction words generalizing s with
    | nil => exact (List.append_nil _).symm
    | cons word words ih =>
      rw [List.foldl_cons, ih, lineWords_wrapWord, List.append_assoc]
      refine congrArg _ ?_
      rw [lineWords_singleton, lineWords_singleton, lineWords_singleton, ← List.filter_append,
        List.singleton_append]
  exact hrun _

theorem lineWords_flatMap_wrapLine (lines : List (List Bytes)) :
    lineWords (lines.flatMap (wrapLine style wraps available)) = lineWords lines := by
  induction lines with
  | nil => rfl
  | cons line lines ih =>
    rw [List.flatMap_cons, lineWords_append, lineWords_wrapLine, ih, ← lineWords_append,
      List.singleton_append]

/-- The lines of a text have its words, whether blanks are kept or not. -/
theorem lineWords_splitLines (pre : Bool) (lines : List (List Bytes)) (line : List Bytes)
    {token : Bytes} (htoken : ∀ c ∈ token, isSpace c = false) (text : Bytes) :
    lineWords (splitLines pre lines line token text) =
      lineWords (lines ++ [line]) ++ wordsFrom token text := by
  have hflush {t : Bytes} (ht : ∀ c ∈ t, isSpace c = false) (l : List Bytes) :
      lineWords [flushToken l t] = lineWords [l] ++ flushToken [] t := by
    rw [flushToken, flushToken]
    split
    · exact (List.append_nil _).symm
    · have hword : t ≠ lit " " := by
        rintro rfl
        exact absurd (ht (chr ' ') List.mem_cons_self) (by decide)
      simp [lineWords_singleton, hword]
  induction text generalizing lines line token with
  | nil => rw [splitLines, wordsFrom, lineWords_append, lineWords_append, hflush htoken, List.append_assoc]
  | cons c text ih =>
    have hnil : ∀ c ∈ ([] : Bytes), isSpace c = false := fun c hc => absurd hc List.not_mem_nil
    rw [splitLines, wordsFrom]
    split
    next hline =>
      have hspace : isSpace c = true := by rw [hline.1]; decide
      rw [if_pos hspace, ih _ _ hnil, lineWords_append, lineWords_append, lineWords_append,
        hflush htoken]
      simp [lineWords_singleton]
    · split
      · rw [ih _ _ hnil, lineWords_append, lineWords_append, List.append_assoc, List.append_assoc]
        refine congrArg _ ?_
        rw [← List.append_assoc, ← hflush htoken]
        split
        · simp [lineWords_singleton]
        · rfl
      next hspace =>
        refine ih _ _ fun d hd => ?_
        rcases List.mem_append.mp hd with hd | hd
        · exact htoken d hd
        · rw [List.mem_singleton.mp hd]
          exact Bool.eq_false_iff.mpr hspace

theorem texts_placeWords (y x : F) (words : List Bytes) :
    (placeWords style y x words).map TextFragment.text = words.filter fun word => word ≠ lit " " := by
  induction words generalizing x with
  | nil => rfl
  | cons word words ih =>
    rw [placeWords]
    split
    next heq => rw [ih, List.filter_cons_of_neg (by simp [heq])]
    next hne => rw [List.map_cons, ih, List.filter_cons_of_pos (by simp [hne])]

theorem texts_placeLines (x y : F) (lines : List (List Bytes)) :
    (placeLines style x available y lines).map TextFragment.text = lineWords lines := by
  induction lines generalizing y with
  | nil => rfl
  | cons line lines ih =>
    rw [placeLines]
    rw [List.map_append, texts_placeWords, ih, lineWords, lineWords, List.flatten_cons,
      List.filter_append]

/-- With normal white space the words of a text are put on lines and placed. -/
theorem textLayout_of_normal (source : Bytes) (x y available : F)
    (hnormal : ∀ value ∈ style.get (lit "white-space"), value = lit "normal") :
    textLayout source x y available style =
      if available ≤ 0 ∨ words source = [] then []
      else placeLines style x available y (wrapLine style true available (words source)) := by
  have hne (value : Bytes) (h : value ≠ lit "normal") :
      ¬ style.get (lit "white-space") = some value := fun heq => h (hnormal value heq)
  have hpre : ¬ (style.get (lit "white-space") = some (lit "pre") ∨
      style.get (lit "white-space") = some (lit "pre-wrap")) :=
    not_or.mpr ⟨hne _ (by decide), hne _ (by decide)⟩
  have hwraps : ¬ (style.get (lit "white-space") = some (lit "nowrap") ∨
      style.get (lit "white-space") = some (lit "pre")) ∧
      ¬ style.get (lit "white-space") = some (lit "pre-wrap") :=
    ⟨not_or.mpr ⟨hne _ (by decide), hne _ (by decide)⟩, hne _ (by decide)⟩
  have hwords : wordsFrom [] (collapseWhitespace source false) = words source := by
    rw [collapseWhitespace, if_neg Bool.false_ne_true, wordsFrom_collapseFrom _ _ _ (by simp),
      words_eq_wordsFrom]
    rfl
  have hempty : collapseWhitespace source false = [] ↔ words source = [] := by
    rw [← hwords]
    exact wordsFrom_collapse_eq_nil_iff source
  rw [textLayout]
  simp only [decide_eq_false hpre, decide_eq_true hwraps, hempty]
  rw [splitLines_normal, List.nil_append, List.nil_append, List.flatMap_singleton, hwords]
  exact if_congr or_comm rfl rfl

/-- **A text is laid out word by word**, if there is room at all. -/
theorem texts_textLayout (source : Bytes) (x y : F) (available : F) (style : StyleProperties) :
    (textLayout source x y available style).map TextFragment.text =
      if available ≤ 0 then [] else words source := by
  have hcollapse (pre : Bool) : wordsFrom [] (collapseWhitespace source pre) = words source := by
    rw [collapseWhitespace, words_eq_wordsFrom]
    split
    · rfl
    · rw [wordsFrom_collapseFrom _ _ _ (by simp)]
      rfl
  rw [textLayout]
  split
  next hempty =>
    by_cases havailable : available ≤ 0
    · rw [if_pos havailable, List.map_nil]
    · rw [if_neg havailable, List.map_nil, ← hcollapse, hempty.resolve_right havailable]
      rfl
  next hroom =>
    rw [if_neg fun havailable => hroom (Or.inr havailable), texts_placeLines,
      lineWords_flatMap_wrapLine, lineWords_splitLines _ _ _ (fun c hc => absurd hc List.not_mem_nil),
      hcollapse]
    rfl

/-- What is horizontal about a fragment. -/
def TextFragment.span (fragment : TextFragment F) : F × F := (fragment.rect.x, fragment.rect.width)

/-- The lines of a text are as wide at one height as at another. -/
theorem map_span_textLayout (source : Bytes) (x y y' available : F) (style : StyleProperties) :
    (textLayout source x y available style).map TextFragment.span =
      (textLayout source x y' available style).map TextFragment.span := by
  have hwords (y y' x : F) (words : List Bytes) :
      (placeWords style y x words).map TextFragment.span =
        (placeWords style y' x words).map TextFragment.span := by
    induction words generalizing x with
    | nil => rfl
    | cons word words ih =>
      rw [placeWords, placeWords]
      split
      · exact ih _
      · rw [List.map_cons, List.map_cons, ih]
        rfl
  have hlines (lines : List (List Bytes)) (y y' : F) :
      (placeLines style x available y lines).map TextFragment.span =
        (placeLines style x available y' lines).map TextFragment.span := by
    induction lines generalizing y y' with
    | nil => rfl
    | cons line lines ih =>
      rw [placeLines, placeLines, List.map_append, List.map_append, hwords _ y',
        ih _ (y' + lineHeight style)]
  rw [textLayout, textLayout]
  split
  · rfl
  · exact hlines _ _ _

end Measures

end Aetheris.Layout
