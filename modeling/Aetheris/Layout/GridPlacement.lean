import Aetheris.Layout.Flow
import Aetheris.Library.Tracks

/-!
# Grid placement

The items of a grid go from the left to the right and from the top to the bottom.  Each is laid out
at its cell while the rows are still growing; since a row is complete before the next one begins,
the places are those of the final rows.  The loop keeps that the items so far are in the cells of
the rows so far, and the tracks with their gaps make up the width.
-/

namespace Aetheris.Layout

open Dom Style Length Tracks

/-! ## Cells -/

/-- The cell of an item: the columns are given, and the rows, and the place of the first cell. -/
def cell (x y gapX gapY : ℚ) (columns rows : List ℚ) (i : ℕ) : LayoutRect ℚ where
  x := x + offset gapX columns (i % columns.length)
  y := y + offset gapY rows (i / columns.length)
  width := columns.getD (i % columns.length) 0
  height := rows.getD (i / columns.length) 0

/-- One rectangle is beside another one, or above or below it. -/
def Apart (a b : LayoutRect ℚ) : Prop :=
  a.x + a.width ≤ b.x ∨ b.x + b.width ≤ a.x ∨ a.y + a.height ≤ b.y ∨ b.y + b.height ≤ a.y

/-- Items in the cells of some rows, each laid out at its cell. -/
structure Placed (recurse : Recurse ℚ) (x y gapX gapY : ℚ) (columns : List ℚ)
    (items cells : List (LayoutNode ℚ)) (rows : List ℚ) : Prop where
  count : rows.length = (items.length + (columns.length - 1)) / columns.length
  placed : ∀ i item, items[i]? = some item → cells[i]? =
    some (recurse (cell x y gapX gapY columns rows i).x (cell x y gapX gapY columns rows i).y
      (cell x y gapX gapY columns rows i).width item)
  length_eq : cells.length = items.length
  nonneg : ∀ row, 0 ≤ rows.getD row 0
  le : ∀ i item, cells[i]? = some item →
    item.value.rect.height ≤ rows.getD (i / columns.length) 0
  attained : ∀ row, rows.getD row 0 = 0 ∨ ∃ i item, i / columns.length = row ∧
    cells[i]? = some item ∧ item.value.rect.height = rows.getD row 0

/-- A row grows, and the rows before it are there. -/
def grow (rows : List ℚ) (row : ℕ) (height : ℚ) : List ℚ :=
  (rows ++ List.replicate (row + 1 - rows.length) 0).set row (max (rows.getD row 0) height)

theorem length_grow {rows : List ℚ} {row : ℕ} (h : rows.length ≤ row + 1) (height : ℚ) :
    (grow rows row height).length = row + 1 := by
  rw [grow, List.length_set, List.length_append, List.length_replicate]
  omega

theorem getD_append_replicate (rows : List ℚ) (m row : ℕ) :
    (rows ++ List.replicate m 0).getD row 0 = rows.getD row 0 := by
  by_cases hrow : row < rows.length
  · exact List.getD_append _ _ _ _ hrow
  · rw [List.getD_append_right _ _ _ _ (not_lt.mp hrow), List.getD_eq_default _ _ (not_lt.mp hrow),
      List.getD_eq_getElem?_getD, List.getElem?_replicate]
    split <;> rfl

theorem getD_grow {rows : List ℚ} {row : ℕ} (height : ℚ) (r : ℕ) :
    (grow rows row height).getD r 0 =
      if r = row then max (rows.getD row 0) height else rows.getD r 0 := by
  by_cases hr : r = row
  · subst hr
    rw [if_pos rfl, grow, List.getD_eq_getElem?_getD, List.getElem?_set_self]
    · rfl
    · rw [List.length_append, List.length_replicate]
      omega
  · rw [if_neg hr, grow, List.getD_eq_getElem?_getD, List.getElem?_set_ne (Ne.symm hr),
      ← List.getD_eq_getElem?_getD, getD_append_replicate]

theorem take_grow {rows : List ℚ} {row r : ℕ} (height : ℚ) (hrow : r ≤ row)
    (hr : r ≤ rows.length) : (grow rows row height).take r = rows.take r := by
  rw [grow, List.take_set_of_le hrow, List.take_append_of_le_length hr]

theorem gridStep_eq (recurse : Recurse ℚ) (x y gapX gapY : ℚ) (columns rows : List ℚ) (i : ℕ)
    (item : LayoutNode ℚ) (hrow : i / columns.length ≤ rows.length) :
    gridStep recurse x y gapX gapY columns (i, rows) item =
      let laid := recurse (cell x y gapX gapY columns rows i).x
        (cell x y gapX gapY columns rows i).y (cell x y gapX gapY columns rows i).width item
      ((i + 1, grow rows (i / columns.length) laid.value.rect.height), laid) := by
  simp only [gridStep, cell, foldl_eq_offset, getD_append_replicate, fmax_rat, grow]
  have htake : offset gapY (rows ++ List.replicate (i / columns.length + 1 - rows.length) 0)
      (i / columns.length) = offset gapY rows (i / columns.length) :=
    offset_congr (List.take_append_of_le_length hrow)
  rw [htake]

section Step

variable {recurse : Recurse ℚ} {x y gapX gapY : ℚ} {columns : List ℚ}
  {items cells : List (LayoutNode ℚ)} {rows : List ℚ}

theorem Placed.nil (recurse : Recurse ℚ) (x y gapX gapY : ℚ) (hcolumns : columns ≠ []) :
    Placed recurse x y gapX gapY columns [] [] [] where
  count := by
    have hpos := List.length_pos_iff.mpr hcolumns
    rw [List.length_nil, List.length_nil, Nat.zero_add, Nat.div_eq_of_lt (by omega)]
  placed i item h := absurd h (by simp)
  length_eq := rfl
  nonneg row := le_refl _
  le i item h := absurd h (by simp)
  attained row := Or.inl rfl

/-- The row of an item is there. -/
theorem Placed.row_lt (h : Placed recurse x y gapX gapY columns items cells rows)
    (hcolumns : columns ≠ []) {i : ℕ} (hi : i < items.length) :
    i / columns.length < rows.length := by
  have hpos := List.length_pos_iff.mpr hcolumns
  rw [h.count, Nat.lt_div_iff_mul_lt hpos]
  have hle := Nat.div_mul_le_self i columns.length
  omega

/-- One more item: its row is there or is the next one, and grows if the item is higher. -/
theorem gridStep_placed (h : Placed recurse x y gapX gapY columns items cells rows)
    (hcolumns : columns ≠ []) (item : LayoutNode ℚ) :
    Placed recurse x y gapX gapY columns (items ++ [item])
      (cells ++ [(gridStep recurse x y gapX gapY columns (items.length, rows) item).2])
      (gridStep recurse x y gapX gapY columns (items.length, rows) item).1.2 := by
  have hpos := List.length_pos_iff.mpr hcolumns
  have hlast : items.length / columns.length ≤ rows.length := by
    rw [h.count]
    exact Nat.div_le_div_right (Nat.le_add_right _ _)
  have hrows : rows.length ≤ items.length / columns.length + 1 := by
    rw [h.count, ← Nat.add_div_right _ hpos]
    exact Nat.div_le_div_right (by omega)
  rw [gridStep_eq _ _ _ _ _ _ _ _ _ hlast]
  dsimp only
  generalize hlaid : recurse (cell x y gapX gapY columns rows items.length).x
    (cell x y gapX gapY columns rows items.length).y
    (cell x y gapX gapY columns rows items.length).width item = laid
  have hplace (i : ℕ) (hi : i ≤ items.length) (hrow : i / columns.length ≤ rows.length) :
      (cell x y gapX gapY columns
        (grow rows (items.length / columns.length) laid.value.rect.height) i).y =
          (cell x y gapX gapY columns rows i).y :=
    congrArg (y + ·) (offset_congr (take_grow _ (Nat.div_le_div_right hi) hrow))
  constructor
  · rw [length_grow hrows, List.length_append, List.length_singleton, ← Nat.add_div_right _ hpos]
    congr 1
    omega
  · intro i other hother
    rcases Nat.lt_or_ge i items.length with hi | hi
    · rw [List.getElem?_append_left hi] at hother
      rw [List.getElem?_append_left (h.length_eq ▸ hi), h.placed i other hother,
        hplace i hi.le (h.row_lt hcolumns hi).le]
      rfl
    · rw [List.getElem?_append_right hi, List.getElem?_singleton] at hother
      split at hother
      next heq =>
        obtain rfl : i = items.length := by omega
        obtain rfl := Option.some.inj hother
        rw [← h.length_eq, List.getElem?_concat_length, h.length_eq, hplace _ le_rfl hlast, ← hlaid]
        rfl
      · cases hother
  · rw [List.length_append, List.length_append, h.length_eq]
    rfl
  · intro row
    rw [getD_grow]
    split
    · exact (h.nonneg _).trans (le_max_left _ _)
    · exact h.nonneg row
  · intro i other hother
    rw [getD_grow]
    rcases Nat.lt_or_ge i cells.length with hi | hi
    · rw [List.getElem?_append_left hi] at hother
      split
      next heq => exact (heq ▸ h.le i other hother).trans (le_max_left _ _)
      · exact h.le i other hother
    · rw [List.getElem?_append_right hi, List.getElem?_singleton] at hother
      split at hother
      next heq =>
        obtain rfl := Option.some.inj hother
        rw [if_pos (by rw [← h.length_eq]; congr 1; omega)]
        exact le_max_right _ _
      · cases hother
  · intro row
    rw [getD_grow]
    have hold (r : ℕ) : rows.getD r 0 = 0 ∨ ∃ i item, i / columns.length = r ∧
        (cells ++ [laid])[i]? = some item ∧ item.value.rect.height = rows.getD r 0 := by
      refine (h.attained r).imp_right ?_
      rintro ⟨i, other, hrow, hother, hheight⟩
      refine ⟨i, other, hrow, ?_, hheight⟩
      rw [List.getElem?_append_left (List.getElem?_eq_some_iff.mp hother).1, hother]
    split
    next heq =>
      subst heq
      rcases max_choice (rows.getD (items.length / columns.length) 0) laid.value.rect.height with
        hmax | hmax
      · rw [hmax]
        exact hold _
      · rw [hmax]
        refine Or.inr ⟨items.length, laid, rfl, ?_, rfl⟩
        rw [← h.length_eq, List.getElem?_concat_length]
    · exact hold row

/-- All items. -/
theorem placed_sweep (recurse : Recurse ℚ) (x y gapX gapY : ℚ) (hcolumns : columns ≠ [])
    (items : List (LayoutNode ℚ)) :
    (sweep (gridStep recurse x y gapX gapY columns) (0, []) items).1.1 = items.length ∧
      Placed recurse x y gapX gapY columns items
        (sweep (gridStep recurse x y gapX gapY columns) (0, []) items).2
        (sweep (gridStep recurse x y gapX gapY columns) (0, []) items).1.2 := by
  induction items using List.reverseRecOn with
  | nil => exact ⟨rfl, .nil recurse x y gapX gapY hcolumns⟩
  | append_singleton items item ih =>
    obtain ⟨hcount, hplaced⟩ := ih
    have hstep := gridStep_placed hplaced hcolumns item
    rw [← hcount] at hstep
    rw [sweep_append, sweep_cons, sweep_nil, List.length_append, ← hcount]
    exact ⟨rfl, hstep⟩

end Step

/-! ## Tracks -/

/-- A track of `grid-template-columns`. -/
inductive Track
  | length (value : ℚ)
  | fraction (factor : ℚ)

namespace Track

/-- The length of a track that has one. -/
def fixed : Track → ℚ
  | length value => value
  | fraction _ => 0

/-- The factor of a track that takes a share of what is left. -/
def share : Track → ℚ
  | length _ => 0
  | fraction factor => factor

/-- The length or the factor is not negative. -/
def Nonneg : Track → Prop
  | length value => 0 ≤ value
  | fraction factor => 0 ≤ factor

instance (track : Track) : Decidable track.Nonneg :=
  match track with
  | length value => inferInstanceAs (Decidable (0 ≤ value))
  | fraction factor => inferInstanceAs (Decidable (0 ≤ factor))

/-- The code keeps a factor as a negative number. -/
def encode : Track → ℚ
  | length value => value
  | fraction factor => -factor

/-- A track as it is written. -/
def read (available : ℚ) (token : Bytes) : Track :=
  if 2 ≤ token.length ∧ token.drop (token.length - 2) = lit "fr" then
    fraction ((strtof token : Option (ℚ × Bytes)).elim 0 Prod.fst)
  else length (parseLength (some token) 0 available)

end Track

/-- The tracks that a value of `grid-template-columns` names. -/
def readTracks (available : ℚ) (value : Option Bytes) : List Track :=
  value.elim [] fun value =>
    ((value.splitOnP fun c => c == chr ' ' || c == chr '\t').filter (· ≠ [])).map
      (Track.read available)

/-- What the lengths and the gaps of some tracks leave. -/
def remainingWidth (available gap : ℚ) (tracks : List Track) : ℚ :=
  max 0 (available - (tracks.map Track.fixed).sum - (tracks.length - 1 : ℕ) * gap)

/-- The width of a track: its length, or its share of what is left. -/
def trackWidth (available gap : ℚ) (tracks : List Track) : Track → ℚ
  | .length value => value
  | .fraction factor =>
    remainingWidth available gap tracks * factor / (tracks.map Track.share).sum

theorem foldl_readTrack (available : ℚ) (tokens : List Bytes)
    (htokens : ∀ track ∈ tokens.map (Track.read available), track.Nonneg) (s : List ℚ × ℚ) :
    tokens.foldl (readTrack available) s =
      (s.1 ++ (tokens.map (Track.read available)).map Track.encode,
        s.2 + ((tokens.map (Track.read available)).map Track.fixed).sum) := by
  induction tokens generalizing s with
  | nil => simp
  | cons token tokens ih =>
    rw [List.map_cons, List.forall_mem_cons] at htokens
    obtain ⟨htoken, htokens⟩ := htokens
    have hstep : readTrack available s token =
        (s.1 ++ [(Track.read available token).encode], s.2 + (Track.read available token).fixed) := by
      rw [readTrack, Track.read] at *
      split
      next hfraction =>
        rw [if_pos hfraction] at htoken
        rw [fmax_rat, max_eq_right htoken]
        exact Prod.ext rfl (add_zero s.2).symm
      · rfl
    rw [List.foldl_cons, ih htokens, hstep]
    simp [add_assoc]

theorem foldl_shares {tracks : List Track} (h : ∀ track ∈ tracks, track.Nonneg) (total : ℚ) :
    (tracks.map Track.encode).foldl (fun total v => if v < 0 then total + -v else total) total =
      total + (tracks.map Track.share).sum := by
  induction tracks generalizing total with
  | nil => exact (add_zero total).symm
  | cons track tracks ih =>
    obtain ⟨htrack, htracks⟩ := List.forall_mem_cons.mp h
    rw [List.map_cons, List.foldl_cons, ih htracks, List.map_cons, List.sum_cons, ← add_assoc]
    congr 1
    cases track with
    | length value => exact (if_neg (not_lt.mpr htrack)).trans (add_zero total).symm
    | fraction factor =>
      show (if -factor < 0 then total + - -factor else total) = total + factor
      split
      · rw [neg_neg]
      next hfactor =>
        have hzero : factor = 0 := le_antisymm (by linarith) htrack
        rw [hzero, add_zero]

theorem share_nonneg {track : Track} (h : track.Nonneg) : 0 ≤ track.share := by
  cases track with
  | length value => exact le_refl _
  | fraction factor => exact h

/-- **The tracks have their lengths and their shares of what is left.** -/
theorem parseTracks_eq (node : LayoutFields ℚ) (available : ℚ) (value : Option Bytes)
    (h : ∀ track ∈ readTracks available value, track.Nonneg) :
    parseTracks node available value =
      (readTracks available value).map (trackWidth available
        (gridGap node (lit "column-gap") available) (readTracks available value)) := by
  cases value with
  | none => rfl
  | some value =>
    rw [parseTracks]
    dsimp only
    rw [foldl_readTrack available _ h]
    have hread : ((value.splitOnP fun c => c == chr ' ' || c == chr '\t').filter (· ≠ [])).map
        (Track.read available) = readTracks available (some value) := rfl
    rw [hread] at *
    generalize readTracks available (some value) = tracks at *
    dsimp only
    rw [List.nil_append, foldl_shares h, zero_add, zero_add, List.length_map, List.map_map]
    refine List.map_congr_left fun track htrack => ?_
    have hle : track.share ≤ (tracks.map Track.share).sum :=
      List.single_le_sum (fun share hshare => by
        obtain ⟨other, hother, rfl⟩ := List.mem_map.mp hshare
        exact share_nonneg (h other hother)) _ (List.mem_map_of_mem htrack)
    cases track with
    | length value => exact if_neg (not_lt.mpr (h _ htrack))
    | fraction factor =>
      have hfactor : 0 ≤ factor := h _ htrack
      show (if -factor < 0 then _ else -factor) = _
      rw [trackWidth, remainingWidth, fmax_rat]
      rcases hfactor.eq_or_lt with hzero | hpos
      · rw [← hzero]
        simp
      · rw [if_pos (by linarith), if_pos (lt_of_lt_of_le hpos hle), Track.encode, neg_neg,
          mul_comm (gridGap node (lit "column-gap") available)]
        rfl

theorem trackWidth_nonneg {available gap : ℚ} {tracks : List Track}
    (h : ∀ track ∈ tracks, track.Nonneg) {track : Track} (htrack : track.Nonneg) :
    0 ≤ trackWidth available gap tracks track := by
  cases track with
  | length value => exact htrack
  | fraction factor =>
    refine div_nonneg (mul_nonneg (le_max_left _ _) htrack) (List.sum_nonneg fun share hshare => ?_)
    obtain ⟨other, hother, rfl⟩ := List.mem_map.mp hshare
    exact share_nonneg (h other hother)

/-- **The tracks and the gaps take the whole width**, if some track takes a share of what is left,
and something is left. -/
theorem extent_trackWidth {available gap : ℚ} {tracks : List Track}
    (hshare : 0 < (tracks.map Track.share).sum)
    (hfits : (tracks.map Track.fixed).sum + (tracks.length - 1 : ℕ) * gap ≤ available) :
    extent gap (tracks.map (trackWidth available gap tracks)) = available := by
  have hsum (some : List Track) : (some.map (trackWidth available gap tracks)).sum =
      (some.map Track.fixed).sum + remainingWidth available gap tracks *
        (some.map Track.share).sum / (tracks.map Track.share).sum := by
    induction some with
    | nil => simp
    | cons track some ih =>
      rw [List.map_cons, List.sum_cons, ih, List.map_cons, List.sum_cons, List.map_cons,
        List.sum_cons]
      cases track with
      | length value =>
        simp only [trackWidth, Track.fixed, Track.share]
        ring
      | fraction factor =>
        simp only [trackWidth, Track.fixed, Track.share]
        ring
  rw [extent, hsum, mul_div_assoc, div_self hshare.ne', mul_one, remainingWidth,
    max_eq_right (by linarith), List.length_map, nsmul_eq_mul]
  ring

/-! ## A grid -/

/-- The tracks of a grid: without any there is one of the whole width. -/
def gridTracks (node : LayoutFields ℚ) (available : ℚ) : List Track :=
  let tracks := readTracks available (node.style.get (lit "grid-template-columns"))
  if tracks = [] then [.length available] else tracks

theorem gridColumns_eq (node : LayoutFields ℚ) (available : ℚ)
    (h : ∀ track ∈ gridTracks node available, track.Nonneg) :
    gridColumns node available = (gridTracks node available).map (trackWidth available
      (gridGap node (lit "column-gap") available) (gridTracks node available)) := by
  rw [gridColumns, gridTracks] at *
  by_cases hnil : readTracks available (node.style.get (lit "grid-template-columns")) = []
  · have hparse := parseTracks_eq node available (node.style.get (lit "grid-template-columns"))
      (by simp [hnil])
    rw [hparse, hnil]
    rfl
  · rw [if_neg hnil] at h
    rw [parseTracks_eq _ _ _ h, if_neg hnil, if_neg]
    rwa [List.map_eq_nil_iff]

/-- The gap between the columns. -/
def columnGap (node : LayoutFields ℚ) (frame : Frame ℚ) : ℚ :=
  gridGap node (lit "column-gap") frame.width

/-- The gap between the rows. -/
def rowGap (node : LayoutFields ℚ) (frame : Frame ℚ) : ℚ :=
  gridGap node (lit "row-gap") frame.width

/-- The cell of an item of a grid. -/
def gridCell (node : LayoutFields ℚ) (frame : Frame ℚ) (rows : List ℚ) (i : ℕ) : LayoutRect ℚ :=
  cell frame.x frame.y (columnGap node frame) (rowGap node frame) (gridColumns node frame.width)
    rows i

/-- What a grid makes of its items. -/
structure GridLaid (recurse : Recurse ℚ) (node : LayoutFields ℚ) (frame : Frame ℚ)
    (items : List (LayoutNode ℚ)) (laid : LayoutNode ℚ) (rows : List ℚ) : Prop
    extends Placed recurse frame.x frame.y (columnGap node frame) (rowGap node frame)
      (gridColumns node frame.width) items (inFlow laid.children) rows where
  apart : ∀ i j, i < items.length → j < items.length → i ≠ j →
    Apart (gridCell node frame rows i) (gridCell node frame rows j)
  maximum : ∀ row < rows.length, ∃ i item, i / (gridColumns node frame.width).length = row ∧
    (inFlow laid.children)[i]? = some item ∧ item.value.rect.height = rows.getD row 0
  height : laid.value.box.content.height =
    blockHeight node.style frame.width (extent (rowGap node frame) rows)
  columns : gridColumns node frame.width = (gridTracks node frame.width).map
    (trackWidth frame.width (columnGap node frame) (gridTracks node frame.width))
  width : 0 < ((gridTracks node frame.width).map Track.share).sum →
    ((gridTracks node frame.width).map Track.fixed).sum +
        ((gridTracks node frame.width).length - 1 : ℕ) * columnGap node frame ≤ frame.width →
      extent (columnGap node frame) (gridColumns node frame.width) = frame.width

section Apart

variable {x y gapX gapY : ℚ} {columns rows : List ℚ}

theorem cell_apart_of_lt (hgapX : 0 ≤ gapX) (hgapY : 0 ≤ gapY) (hcolumns : ∀ size ∈ columns, 0 ≤ size)
    (hrows : ∀ size ∈ rows, 0 ≤ size) {i j : ℕ} (hij : i < j)
    (hi : i / columns.length < rows.length) (hcount : columns ≠ []) :
    Apart (cell x y gapX gapY columns rows i) (cell x y gapX gapY columns rows j) := by
  have hpos := List.length_pos_iff.mpr hcount
  have hget {sizes : List ℚ} {k : ℕ} (hk : k < sizes.length) :
      sizes[k]? = some (sizes.getD k 0) := by
    rw [List.getD_eq_getElem _ _ hk, List.getElem?_eq_getElem hk]
  rcases (Nat.div_le_div_right hij.le : i / columns.length ≤ j / columns.length).lt_or_eq with
    hlt | heq
  · have hle := offset_add_le hgapY hrows hlt (hget hi)
    refine Or.inr (Or.inr (Or.inl ?_))
    show y + offset gapY rows (i / columns.length) + rows.getD (i / columns.length) 0 ≤
      y + offset gapY rows (j / columns.length)
    linarith
  · -- In one row the columns are different.
    have hlt : i % columns.length < j % columns.length := by
      have hi := Nat.div_add_mod i columns.length
      have hj := Nat.div_add_mod j columns.length
      rw [heq] at hi
      omega
    have hle := offset_add_le hgapX hcolumns hlt (hget (Nat.mod_lt i hpos))
    refine Or.inl ?_
    show x + offset gapX columns (i % columns.length) + columns.getD (i % columns.length) 0 ≤
      x + offset gapX columns (j % columns.length)
    linarith

theorem Apart.symm {a b : LayoutRect ℚ} (h : Apart a b) : Apart b a := by
  unfold Apart at *
  tauto

end Apart

/-- The items and the height of a grid, from the items alone. -/
theorem layoutGridChildren_eq (depth : ℕ) (node : LayoutFields ℚ) (frame : Frame ℚ)
    (children : List (LayoutNode ℚ)) :
    let swept := sweep (gridStep (layoutNode depth) frame.x frame.y (columnGap node frame)
      (rowGap node frame) (gridColumns node frame.width)) (0, []) (inFlow children)
    inFlow (layoutGridChildren (layoutNode depth) node frame children).2 = swept.2 ∧
      (layoutGridChildren (layoutNode depth) node frame children).1.1 =
        frame.y + extent (rowGap node frame) swept.1.2 := by
  dsimp only
  rw [layoutGridChildren]
  by_cases hnil : inFlow children = []
  · rw [if_pos hnil, hnil]
    exact ⟨rfl, by simp [extent]⟩
  · rw [if_neg hnil, inFlow_sweep (still_gridStep (still_layoutNode depth) _ _ _ _ _)]
    refine ⟨rfl, ?_⟩
    show _ + (_ + _) = _
    rw [← List.sum_eq_foldl, extent, nsmul_eq_mul, mul_comm (gridGap _ _ _)]
    rfl

/-- **The items of a grid are in its cells.**  A grid with tracks, gaps and items that are not
negative gives its item `i` the column `i % n` and the row `i / n`, behind the tracks, the rows and
the gaps before; the cells do not overlap; a row is as high as its highest item; the content is as
high as the rows and the gaps; and if a track takes a share of what is left, and the others fit, the
tracks and the gaps are as wide as the grid. -/
theorem grid_placement (depth : ℕ) (x y available : ℚ) (node : LayoutFields ℚ)
    (children : List (LayoutNode ℚ)) (hcontents : hasContents node = true)
    (hgrid : node.display = .grid)
    (htracks : ∀ track ∈ gridTracks node.still (frame node.style x y available).width,
      track.Nonneg)
    (hcolumnGap : 0 ≤ columnGap node.still (frame node.style x y available))
    (hrowGap : 0 ≤ rowGap node.still (frame node.style x y available))
    (hsizes : ∀ item ∈ inFlow (layoutNode (depth + 1) x y available (.node node children)).children,
      0 ≤ item.value.rect.height) :
    ∃ rows, GridLaid (layoutNode depth) node.still (frame node.style x y available)
      (inFlow children) (layoutNode (depth + 1) x y available (.node node children)) rows := by
  have hflow : flow (layoutNode depth) node.still (frame node.style x y available) children =
      layoutGridChildren (layoutNode depth) node.still (frame node.style x y available) children :=
    flow_grid hgrid _ _
  obtain ⟨hitems, hheight⟩ := layoutGridChildren_eq depth node.still (frame node.style x y available) children
  have hcolumns := gridColumns_eq _ _ htracks
  have hne : gridColumns node.still (frame node.style x y available).width ≠ [] := by
    rw [gridColumns]
    split
    · exact List.cons_ne_nil _ _
    · assumption
  obtain ⟨-, hplaced⟩ := placed_sweep (layoutNode depth) (frame node.style x y available).x
    (frame node.style x y available).y (columnGap node.still (frame node.style x y available))
    (rowGap node.still (frame node.style x y available)) hne (inFlow children)
  have hchildren := inFlow_layoutNode hcontents depth x y available children
  rw [hflow, hitems] at hchildren
  rw [← hchildren] at hplaced
  generalize (sweep (gridStep (layoutNode depth) (frame node.style x y available).x
    (frame node.style x y available).y (columnGap node.still (frame node.style x y available))
    (rowGap node.still (frame node.style x y available))
    (gridColumns node.still (frame node.style x y available).width)) (0, [])
    (inFlow children)).1.2 = rows at hheight hplaced
  have hrows : ∀ size ∈ rows, 0 ≤ size := fun size hsize => by
    obtain ⟨row, hrow⟩ := List.mem_iff_getElem?.mp hsize
    have hnonneg := hplaced.nonneg row
    rwa [List.getD_eq_getElem?_getD, hrow] at hnonneg
  have hsizes' : ∀ size ∈ gridColumns node.still (frame node.style x y available).width,
      0 ≤ size := fun size hsize => by
    rw [hcolumns] at hsize
    obtain ⟨track, htrack, rfl⟩ := List.mem_map.mp hsize
    exact trackWidth_nonneg htracks (htracks track htrack)
  refine ⟨rows, hplaced, fun i j hi hj hij => ?_, fun row hrow => ?_, ?_, hcolumns, fun hshare hfits => ?_⟩
  · rcases Nat.lt_or_gt_of_ne hij with hlt | hlt
    · exact cell_apart_of_lt hcolumnGap hrowGap hsizes' hrows hlt (hplaced.row_lt hne hi) hne
    · exact (cell_apart_of_lt hcolumnGap hrowGap hsizes' hrows hlt (hplaced.row_lt hne hj) hne).symm
  · have hpos := List.length_pos_iff.mpr hne
    rcases hplaced.attained row with hzero | hattained
    · -- The first item of the row is there, and is as high as the row, too.
      have hfirst : row * (gridColumns node.still (frame node.style x y available).width).length <
          (inFlow children).length := by
        rw [hplaced.count, Nat.lt_div_iff_mul_lt hpos] at hrow
        omega
      rw [← hplaced.length_eq] at hfirst
      have hrowEq := Nat.mul_div_cancel row hpos
      have hle := hplaced.le _ _ (List.getElem?_eq_getElem hfirst)
      rw [hrowEq, hzero] at hle
      refine ⟨_, _, hrowEq, List.getElem?_eq_getElem hfirst, ?_⟩
      rw [hzero]
      exact le_antisymm hle (hsizes _ (List.getElem_mem hfirst))
    · exact hattained
  · rw [layoutNode_eq hcontents]
    dsimp only
    rw [Rose.value, placed_height, contentsHeight, hflow, hheight, add_sub_cancel_left]
  · rw [hcolumns]
    exact extent_trackWidth hshare hfits

/-- A grid with a column of twenty pixels and one for the rest. -/
def twoColumns : LayoutFields ℚ :=
  unlaid { type := .element, name := lit "div" } .grid
    [(lit "grid-template-columns", lit "1fr 20px"), (lit "gap", lit "10px")]

/-- Three items of different heights. -/
def threeItems : List (LayoutNode ℚ) :=
  [element (lit "div") .block [(lit "height", lit "5px")] [],
    element (lit "div") .block [(lit "height", lit "7px")] [],
    element (lit "div") .block [] []]

theorem grid_placement_twoColumns :
    ∃ rows, GridLaid (layoutNode 1) twoColumns.still (frame twoColumns.style 0 0 100)
      (inFlow threeItems) (layoutNode 2 0 0 100 (.node twoColumns threeItems)) rows :=
  grid_placement 1 0 0 100 twoColumns threeItems (by decide) rfl (by decide +kernel)
    (by decide +kernel) (by decide +kernel) (by decide +kernel)

end Aetheris.Layout
