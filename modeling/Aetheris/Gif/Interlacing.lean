import Aetheris.Gif.Decoder
import Aetheris.Gif.LzwRoundTrip
import Aetheris.Library.Grid
import Aetheris.Library.LastWrite

/-!
# Interlaced GIF files

A screen with one frame is a function from its pixels to colors (`Contents.color`), which knows no
order of the rows.  A `File` holds such a screen in one of the two orders, with everything else that
the format leaves open: the version, other extensions, the sub-blocks that the codes are cut into
and the codes themselves, which may be those of any encoder.

The decoder reads the parts of a file one after the other, and each is read as it has been written.
The rows of the loops are those of the format (`rowOrder_eq`): each row of the frame comes exactly
once, so that what is written to a pixel last is its color, whatever the order.
-/

namespace Aetheris.Gif

/-! ## The contents -/

/-- A color table, of a size that three bits can say. -/
structure Palette where
  bits : Fin 8
  colors : List (Byte × Byte × Byte)
  length_eq : colors.length = 2 ^ (bits.val + 1)

/-- The colors. -/
def Palette.table (palette : Palette) : List Color :=
  palette.colors.map fun c => ⟨c.1, c.2.1, c.2.2, 255⟩

/-- A width or a height. -/
abbrev Extent := { n : ℕ // 0 < n ∧ n < 2 ^ 16 }

/-- A screen with one frame. -/
structure Contents where
  screenWidth : Extent
  screenHeight : Extent
  left : Fin (2 ^ 16)
  top : Fin (2 ^ 16)
  width : Extent
  height : Extent
  globalTable : Option Palette
  localTable : Option Palette
  transparent : Option Byte
  /-- The index in a column and a row. -/
  index : ℕ → ℕ → Byte

namespace Contents

variable (contents : Contents)

/-- The colors of the frame. -/
def table : List Color :=
  match contents.localTable.or contents.globalTable with
  | some palette => palette.table
  | none => []

/-- A color that is fully transparent. -/
def clear : Color := ⟨0, 0, 0, 0⟩

/-- The color of an index. -/
def colorOf (index : Byte) : Color :=
  if some index = contents.transparent then clear else contents.table.getD index.toNat clear

/-- The color of a pixel of the screen. -/
def color (x y : ℕ) : Color :=
  if (contents.left ≤ x ∧ x < contents.left + contents.width) ∧
      contents.top ≤ y ∧ y < contents.top + contents.height then
    contents.colorOf (contents.index (x - contents.left) (y - contents.top))
  else clear

/-- What is seen. -/
def image : Image where
  width := contents.screenWidth
  height := contents.screenHeight
  pixels := (List.range (contents.screenWidth * contents.screenHeight)).map fun i =>
    contents.color (i % contents.screenWidth) (i / contents.screenWidth)

end Contents

/-- The order of the rows: from top to bottom; or first every eighth row, then those in the middle
between two of them, then those in the middle between two of these, then the rest. -/
def rows (interlaced : Bool) (height : ℕ) : List ℕ :=
  if interlaced then
    (List.range height).filter (fun y => y % 8 = 0) ++
      (List.range height).filter (fun y => y % 8 = 4) ++
      (List.range height).filter (fun y => y % 4 = 2) ++
      (List.range height).filter (fun y => y % 2 = 1)
  else List.range height

/-- The indices of a row. -/
def Contents.rowIndices (contents : Contents) (y : ℕ) : Bytes :=
  (List.range contents.width).map fun x => contents.index x y

/-- The indices in the order of the rows. -/
def Contents.indices (contents : Contents) (interlaced : Bool) : Bytes :=
  (rows interlaced contents.height).flatMap contents.rowIndices

/-! ## The files -/

/-- A number in two bytes. -/
def u16 (n : ℕ) : Bytes := [UInt8.ofNat n, UInt8.ofNat (n / 2 ^ 8)]

/-- The bytes of a color table, if there is one. -/
def tableBytes : Option Palette → Bytes
  | none => []
  | some palette => palette.colors.flatMap fun c => [c.1, c.2.1, c.2.2]

/-- A packed byte that says whether there is a color table, and its size. -/
def Announces (packed : Byte) : Option Palette → Prop
  | none => packed &&& 0x80 = 0
  | some palette => packed &&& 0x80 ≠ 0 ∧ (packed &&& 0x07).toNat = palette.bits

/-- Data in sub-blocks. -/
structure SubBlocks where
  blocks : List Bytes
  sizes : ∀ block ∈ blocks, 0 < block.length ∧ block.length < 2 ^ 8

/-- The bytes of the sub-blocks, with the terminator. -/
def SubBlocks.bytes (data : SubBlocks) : Bytes :=
  (data.blocks.flatMap fun block => UInt8.ofNat block.length :: block) ++ [0]

/-- An extension of another kind than a graphic control extension. -/
structure Extension where
  label : Byte
  label_ne : label ≠ 0xF9
  data : SubBlocks

/-- The bytes of an extension. -/
def Extension.bytes (e : Extension) : Bytes := 0x21 :: e.label :: e.data.bytes

/-- A graphic control extension. -/
structure Control where
  flags : Byte
  delay : Byte × Byte
  index : Byte

/-- The index that a graphic control extension makes transparent. -/
def Control.transparent (control : Control) : Option Byte :=
  if control.flags &&& 0x01 ≠ 0 then some control.index else none

/-- The bytes of a graphic control extension. -/
def Control.bytes (control : Control) : Bytes :=
  [0x21, 0xF9, 4, control.flags, control.delay.1, control.delay.2, control.index, 0]

/-- A file with the frame, in one of the orders of the rows. -/
structure File (contents : Contents) (interlaced : Bool) where
  version : Bytes
  version_mem : version ∈ [lit "GIF87a", lit "GIF89a"]
  packed : Byte
  packed_announces : Announces packed contents.globalTable
  background : Byte
  aspect : Byte
  before : List Extension
  control : Option Control
  control_eq : control.bind Control.transparent = contents.transparent
  between : List Extension
  framePacked : Byte
  framePacked_announces : Announces framePacked contents.localTable
  framePacked_interlaced : (framePacked &&& 0x40 != 0) = interlaced
  minCodeSize : Byte
  two_le : 2 ≤ minCodeSize.toNat
  le_eight : minCodeSize.toNat ≤ 8
  data : SubBlocks
  data_encoding : Encoding minCodeSize.toNat (contents.indices interlaced) data.blocks.flatten
  behind : Bytes

namespace File

variable {contents : Contents} {interlaced : Bool} (file : File contents interlaced)

/-- The image descriptor, and what is behind it. -/
def descriptor : Bytes :=
  u16 contents.left ++ (u16 contents.top ++ (u16 contents.width ++ (u16 contents.height ++
    ([file.framePacked] ++ (tableBytes contents.localTable ++ ([file.minCodeSize] ++
      (file.data.bytes ++ file.behind)))))))

/-- The blocks. -/
def blocks : Bytes :=
  file.before.flatMap Extension.bytes ++ (file.control.elim [] Control.bytes ++
    (file.between.flatMap Extension.bytes ++ 0x2C :: file.descriptor))

/-- The bytes of the file. -/
def bytes : Bytes :=
  file.version ++ (u16 contents.screenWidth ++ (u16 contents.screenHeight ++
    ([file.packed, file.background, file.aspect] ++
      (tableBytes contents.globalTable ++ file.blocks))))

end File

/-! ## The order of the rows -/

theorem mem_passRows {height step : ℕ} (hstep : 0 < step) {y z : ℕ} :
    z ∈ passRows height step y ↔ z < height ∧ y ≤ z ∧ z % step = y % step := by
  induction y using passRows.induct height step with
  | case1 y h ih =>
    rw [passRows, if_pos h, List.mem_cons, ih, Nat.add_mod_right]
    constructor
    · rintro (rfl | ⟨hlt, hle, hmod⟩)
      · exact ⟨h.2, le_rfl, rfl⟩
      · exact ⟨hlt, by omega, hmod⟩
    · rintro ⟨hlt, hle, hmod⟩
      rcases hle.eq_or_lt with heq | hgt
      · exact Or.inl heq.symm
      · -- the next row with the same remainder is a whole step further on
        obtain ⟨k, hk⟩ := (Nat.modEq_iff_dvd' hle).mp hmod.symm
        have hpos : 0 < k := Nat.pos_of_ne_zero fun h => by
          rw [h, Nat.mul_zero] at hk
          omega
        have hstep_le : step ≤ step * k := Nat.le_mul_of_pos_right step hpos
        exact Or.inr ⟨hlt, by omega, hmod⟩
  | case2 y h =>
    rw [passRows, if_neg h]
    simp only [List.not_mem_nil, false_iff]
    rintro ⟨hlt, hle, -⟩
    exact h ⟨hstep, hle.trans_lt hlt⟩

theorem pairwise_passRows (height step y : ℕ) : (passRows height step y).Pairwise (· < ·) := by
  induction y using passRows.induct height step with
  | case1 y h ih =>
    rw [passRows, if_pos h]
    refine List.pairwise_cons.mpr ⟨fun z hz => ?_, ih⟩
    have hle := ((mem_passRows h.1).mp hz).2.1
    omega
  | case2 y h =>
    rw [passRows, if_neg h]
    exact List.Pairwise.nil

/-- A pass goes through the rows with one remainder, from top to bottom. -/
theorem passRows_eq (height : ℕ) {step y : ℕ} (h : y < step) :
    passRows height step y = (List.range height).filter fun z => z % step = y := by
  refine (pairwise_passRows height step y).eq_of_mem_iff
    (List.pairwise_lt_range.filter _) fun z => ?_
  rw [mem_passRows (Nat.zero_lt_of_lt h), List.mem_filter, List.mem_range, decide_eq_true_eq,
    Nat.mod_eq_of_lt h]
  refine and_congr_right fun _ => ⟨fun hz => hz.2, fun hz => ⟨?_, hz⟩⟩
  rw [← hz]
  exact Nat.mod_le z step

/-- **The loops go through the rows in the order of the format.** -/
theorem rowOrder_eq (interlaced : Bool) (height : ℕ) :
    rowOrder interlaced height = rows interlaced height := by
  cases interlaced with
  | false => rfl
  | true =>
    rw [rowOrder, rows, if_pos rfl, if_pos rfl, passes]
    simp only [List.flatMap_cons, List.flatMap_nil, List.append_nil, List.append_assoc]
    rw [passRows_eq height (by decide : 0 < 8), passRows_eq height (by decide : 4 < 8),
      passRows_eq height (by decide : 2 < 4), passRows_eq height (by decide : 1 < 2)]

/-- Both orders go through all rows. -/
theorem mem_rows {interlaced : Bool} {height y : ℕ} : y ∈ rows interlaced height ↔ y < height := by
  cases interlaced with
  | false => exact List.mem_range
  | true =>
    rw [rows, if_pos rfl]
    simp only [List.mem_append, List.mem_filter, List.mem_range, decide_eq_true_eq]
    omega

/-! ## Reading the parts -/

theorem readU16Le_u16 {n : ℕ} (h : n < 2 ^ 16) (rest : Bytes) : readU16Le (u16 n ++ rest) 0 = n := by
  have hhigh : n / 2 ^ 8 < 2 ^ 8 := by omega
  have hlow : n % 2 ^ 8 < 2 ^ 8 := Nat.mod_lt _ (by decide)
  show (UInt8.ofNat n).toNat ||| (UInt8.ofNat (n / 2 ^ 8)).toNat <<< 8 = n
  rw [UInt8.toNat_ofNat', UInt8.toNat_ofNat', Nat.mod_eq_of_lt hhigh, Nat.or_comm,
    ← Nat.shiftLeft_add_eq_or_of_lt hlow, Nat.shiftLeft_eq]
  omega

theorem length_u16 (n : ℕ) : (u16 n).length = 2 := rfl

section

variable (a b c d : ℕ) (rest : Bytes)

theorem readU16Le_two : readU16Le (u16 a ++ rest) 2 = readU16Le rest 0 := rfl

theorem readU16Le_four : readU16Le (u16 a ++ (u16 b ++ rest)) 4 = readU16Le rest 0 := rfl

theorem readU16Le_six : readU16Le (u16 a ++ (u16 b ++ (u16 c ++ rest))) 6 = readU16Le rest 0 := rfl

theorem getD_eight (packed : Byte) :
    (u16 a ++ (u16 b ++ (u16 c ++ (u16 d ++ ([packed] ++ rest))))).getD 8 0 = packed := rfl

theorem drop_seven (packed background aspect : Byte) :
    (u16 a ++ (u16 b ++ ([packed, background, aspect] ++ rest))).drop 7 = rest := rfl

theorem drop_nine (packed : Byte) :
    (u16 a ++ (u16 b ++ (u16 c ++ (u16 d ++ ([packed] ++ rest))))).drop 9 = rest := rfl

end

theorem readColorTable_colors (rest : Bytes) : ∀ colors : List (Byte × Byte × Byte),
    readColorTable ((colors.flatMap fun c => [c.1, c.2.1, c.2.2]) ++ rest) colors.length =
      colors.map fun c => ⟨c.1, c.2.1, c.2.2, 255⟩
  | [] => rfl
  | c :: colors => by
    have ih := readColorTable_colors rest colors
    rw [readColorTable] at ih
    rw [readColorTable, List.length_cons, List.range_succ_eq_map, List.map_cons, List.map_map,
      List.map_cons, ← ih]
    refine congrArg₂ List.cons rfl (List.map_congr_left fun i _ => ?_)
    have hfront : (i + 1) * 3 = i * 3 + 3 := Nat.succ_mul i 3
    rw [Function.comp_apply, Nat.succ_eq_add_one, hfront]
    rfl

theorem Palette.table_ne_nil (palette : Palette) : palette.table ≠ [] := by
  intro h
  have hlength := congrArg List.length h
  rw [Palette.table, List.length_map, palette.length_eq, List.length_nil] at hlength
  exact absurd hlength (by positivity)

/-- A color table is read where it is announced. -/
theorem colorTable_tableBytes {packed : Byte} {palette : Option Palette}
    (h : Announces packed palette) (rest : Bytes) :
    colorTable packed (tableBytes palette ++ rest) =
      some (palette.elim [] Palette.table, rest) := by
  cases palette with
  | none =>
    have hzero : packed &&& 0x80 = 0 := h
    rw [colorTable, if_neg (not_not_intro hzero)]
    rfl
  | some palette =>
    have hsize : 1 <<< ((packed &&& 0x07).toNat + 1) = palette.colors.length := by
      rw [h.2, palette.length_eq, Nat.one_shiftLeft]
    have hlength : (tableBytes (some palette)).length = palette.colors.length * 3 := by
      rw [tableBytes, List.length_flatMap]
      simp only [List.length_cons, List.length_nil, List.map_const', List.sum_replicate]
      rfl
    rw [colorTable, if_pos h.1]
    simp only [hsize]
    rw [if_neg (by rw [List.length_append]; omega), ← hlength, List.drop_left, tableBytes,
      readColorTable_colors]
    rfl

/-- Sub-blocks are read up to the terminator. -/
theorem readSubBlocks_blocks (rest : Bytes) : ∀ (blocks : List Bytes) (out : Bytes),
    (∀ block ∈ blocks, 0 < block.length ∧ block.length < 2 ^ 8) →
      readSubBlocks out ((blocks.flatMap fun block => UInt8.ofNat block.length :: block) ++
        0 :: rest) = some (out ++ blocks.flatten, rest)
  | [], out, _ => by
    rw [List.flatMap_nil, List.nil_append, readSubBlocks, if_pos rfl, List.flatten_nil,
      List.append_nil]
  | block :: blocks, out, h => by
    obtain ⟨hpos, hlt⟩ := h block List.mem_cons_self
    have hlength : (UInt8.ofNat block.length).toNat = block.length := UInt8.toNat_ofNat_of_lt' hlt
    have hne : UInt8.ofNat block.length ≠ 0 := fun hzero => by
      rw [hzero] at hlength
      exact hpos.ne hlength
    rw [List.flatMap_cons, List.cons_append, List.cons_append, readSubBlocks, if_neg hne, hlength,
      List.append_assoc, if_neg (by rw [List.length_append]; omega), List.take_left,
      List.drop_left, readSubBlocks_blocks rest blocks _ fun b hb => h b (List.mem_cons_of_mem _ hb),
      List.flatten_cons, List.append_assoc]

theorem readSubBlocks_bytes (data : SubBlocks) (rest : Bytes) :
    readSubBlocks [] (data.bytes ++ rest) = some (data.blocks.flatten, rest) := by
  rw [SubBlocks.bytes, List.append_assoc]
  exact readSubBlocks_blocks rest data.blocks [] data.sizes

/-! ## The blocks in front of the frame -/

section

variable (screenWidth screenHeight : ℕ) (globalTable : List Color) (out : Image)
  (transparentIndex : Option Byte)

theorem blockLoop_extension (e : Extension) (rest : Bytes) :
    blockLoop screenWidth screenHeight globalTable out transparentIndex (e.bytes ++ rest) =
      blockLoop screenWidth screenHeight globalTable out transparentIndex rest := by
  rw [Extension.bytes, List.cons_append, List.cons_append, blockLoop, if_neg (by decide),
    if_pos rfl]
  simp only [if_neg e.label_ne]
  split <;> rename_i hread <;> rw [readSubBlocks_bytes] at hread <;> cases hread
  rfl

theorem blockLoop_extensions (rest : Bytes) : ∀ es : List Extension,
    blockLoop screenWidth screenHeight globalTable out transparentIndex
        (es.flatMap Extension.bytes ++ rest) =
      blockLoop screenWidth screenHeight globalTable out transparentIndex rest
  | [] => rfl
  | e :: es => by
    rw [List.flatMap_cons, List.append_assoc, blockLoop_extension, blockLoop_extensions rest es]

/-- A graphic control extension, which can set the transparent index. -/
theorem blockLoop_control (control : Option Control) (rest : Bytes) :
    blockLoop screenWidth screenHeight globalTable out none
        (control.elim [] Control.bytes ++ rest) =
      blockLoop screenWidth screenHeight globalTable out (control.bind Control.transparent)
        rest := by
  cases control with
  | none => rfl
  | some control =>
    show blockLoop screenWidth screenHeight globalTable out none (control.bytes ++ rest) = _
    rw [Control.bytes, List.cons_append, List.cons_append, blockLoop, if_neg (by decide),
      if_pos rfl]
    simp only [if_true]
    rw [if_neg (by simp)]
    rfl

end

/-! ## Drawing the frame -/

namespace Frame

variable (frame : Frame)

/-- Each pixel of a row takes an index. -/
theorem drawRow_append (index : ℕ → ℕ → Byte) (y : ℕ) (rest : Bytes) (pixels : List Color) :
    frame.drawRow (((List.range frame.width).map fun x => index x y) ++ rest, pixels) y =
      (rest, (List.range frame.width).foldl
        (fun pixels x => frame.drawPixel y pixels x (index x y)) pixels) := by
  rw [drawRow]
  generalize List.range frame.width = xs
  induction xs generalizing pixels with
  | nil => rfl
  | cons x xs ih => exact ih _

/-- The columns and rows that the loops go through. -/
def places (order : List ℕ) : List (ℕ × ℕ) :=
  order.flatMap fun y => (List.range frame.width).map fun x => (x, y)

theorem places_cons (y : ℕ) (order : List ℕ) : frame.places (y :: order) =
    ((List.range frame.width).map fun x => (x, y)) ++ frame.places order := List.flatMap_cons

theorem mem_places {order : List ℕ} {q : ℕ × ℕ} :
    q ∈ frame.places order ↔ q.1 < frame.width ∧ q.2 ∈ order := by
  rw [places, List.mem_flatMap]
  constructor
  · rintro ⟨y, hy, hq⟩
    obtain ⟨x, hx, rfl⟩ := List.mem_map.mp hq
    exact ⟨List.mem_range.mp hx, hy⟩
  · rintro ⟨hx, hy⟩
    exact ⟨q.2, hy, List.mem_map.mpr ⟨q.1, List.mem_range.mpr hx, rfl⟩⟩

/-- All pixels that the loops go through are drawn. -/
theorem foldl_drawRow (index : ℕ → ℕ → Byte) (order : List ℕ) (pixels : List Color) :
    order.foldl frame.drawRow
        (order.flatMap fun y => (List.range frame.width).map fun x => index x y, pixels) =
      ([], (frame.places order).foldl
        (fun pixels q => frame.drawPixel q.2 pixels q.1 (index q.1 q.2)) pixels) := by
  induction order generalizing pixels with
  | nil => rfl
  | cons y order ih =>
    rw [List.foldl_cons, List.flatMap_cons, drawRow_append, ih, places_cons, List.foldl_append,
      List.foldl_map]

/-- What a pixel of the frame writes on a place. -/
def written (index : ℕ → ℕ → Byte) (place : ℕ) (q : ℕ × ℕ) : Option Color :=
  if (frame.left + q.1 < frame.screenWidth ∧ frame.top + q.2 < frame.screenHeight) ∧
      some (index q.1 q.2) ≠ frame.transparent ∧
      (frame.top + q.2) * frame.screenWidth + (frame.left + q.1) = place then
    frame.table[(index q.1 q.2).toNat]?
  else none

theorem getElem?_drawPixel (index : ℕ → ℕ → Byte) {place : ℕ} {pixels : List Color}
    (h : place < pixels.length) (q : ℕ × ℕ) :
    (frame.drawPixel q.2 pixels q.1 (index q.1 q.2))[place]? =
      (frame.written index place q).or pixels[place]? := by
  rw [drawPixel, written]
  by_cases hout : frame.screenWidth ≤ frame.left + q.1 ∨ frame.screenHeight ≤ frame.top + q.2
  · rw [if_pos hout, if_neg fun hin => by omega, Option.none_or]
  · rw [if_neg hout]
    by_cases htransparent : some (index q.1 q.2) = frame.transparent
    · rw [if_pos htransparent, if_neg fun hin => hin.2.1 htransparent, Option.none_or]
    · rw [if_neg htransparent]
      by_cases hplace : (frame.top + q.2) * frame.screenWidth + (frame.left + q.1) = place
      · rw [if_pos ⟨⟨by omega, by omega⟩, htransparent, hplace⟩]
        cases frame.table[(index q.1 q.2).toNat]? with
        | none => exact (Option.none_or).symm
        | some color =>
          show (pixels.set _ color)[place]? = _
          rw [hplace, List.getElem?_set_self h, Option.some_or]
      · rw [if_neg fun hin => hplace hin.2.2, Option.none_or]
        cases frame.table[(index q.1 q.2).toNat]? with
        | none => rfl
        | some color => exact List.getElem?_set_ne hplace

/-- **A place holds the last color that is written on it.** -/
theorem getElem?_drawRows (index : ℕ → ℕ → Byte) (order : List ℕ) {place : ℕ}
    (h : place < frame.screenWidth * frame.screenHeight) :
    (frame.drawRows order
        (order.flatMap fun y => (List.range frame.width).map fun x => index x y))[place]? =
      (lastWrite (frame.written index place) (frame.places order)).or
        (some Contents.clear) := by
  rw [drawRows, foldl_drawRow]
  rw [foldl_lastWrite_of_invariant (fun pixels : List Color => pixels[place]?)
    (fun pixels => place < pixels.length)
    (fun pixels hpixels q _ => by rw [length_drawPixel]; exact hpixels)
    (fun pixels hpixels q _ => frame.getElem?_drawPixel index hpixels q)
    (by rw [List.length_replicate]; exact h), List.getElem?_replicate, if_pos h]
  rfl

end Frame

/-! ## Decoding a file -/

namespace Contents

variable (contents : Contents)

/-- The frame, as the loops read it. -/
def frame : Frame where
  screenWidth := contents.screenWidth
  screenHeight := contents.screenHeight
  left := contents.left
  top := contents.top
  width := contents.width
  height := contents.height
  table := contents.table
  transparent := contents.transparent

/-- What the last write on a pixel is. -/
theorem lastWrite_written {order : List ℕ} (horder : ∀ y, y ∈ order ↔ y < contents.height)
    {x y : ℕ} (hx : x < contents.screenWidth) (hy : y < contents.screenHeight) :
    (lastWrite (contents.frame.written contents.index (y * contents.screenWidth + x))
      (contents.frame.places order)).or (some clear) = some (contents.color x y) := by
  have hplace : ∀ q, contents.frame.written contents.index (y * contents.screenWidth + x) q ≠ none →
      contents.left + q.1 = x ∧ contents.top + q.2 = y := by
    intro q hq
    rw [Frame.written] at hq
    have hin := (ite_ne_right_iff.mp hq).1
    exact (Grid.cell_eq_iff hin.1.1 hx).mp hin.2.2
  rw [color]
  by_cases hframe : (contents.left ≤ x ∧ x < contents.left + contents.width) ∧
      contents.top ≤ y ∧ y < contents.top + contents.height
  · obtain ⟨⟨hleft, hright⟩, htop, hbottom⟩ := hframe
    have hmem : (x - contents.left, y - contents.top) ∈ contents.frame.places order :=
      (Frame.mem_places _).mpr ⟨Nat.sub_lt_left_of_lt_add hleft hright,
        (horder _).mpr (Nat.sub_lt_left_of_lt_add htop hbottom)⟩
    rw [if_pos ⟨⟨hleft, hright⟩, htop, hbottom⟩, lastWrite_eq_of_forall hmem, Frame.written, colorOf]
    · have hx' : contents.left + (x - contents.left) = x := Nat.add_sub_cancel' hleft
      have hy' : contents.top + (y - contents.top) = y := Nat.add_sub_cancel' htop
      by_cases htransparent :
          some (contents.index (x - contents.left) (y - contents.top)) = contents.transparent
      · rw [if_neg fun h => h.2.1 htransparent, if_pos htransparent, Option.none_or]
      · rw [if_pos ⟨⟨hx'.trans_lt hx, hy'.trans_lt hy⟩, htransparent, by
          show (contents.top + (y - contents.top)) * _ + (contents.left + (x - contents.left)) = _
          rw [hx', hy']
          rfl⟩, if_neg htransparent, List.getD_eq_getElem?_getD]
        show contents.table[_]?.or _ = _
        cases contents.table[(contents.index (x - contents.left) (y - contents.top)).toNat]? with
        | none => rfl
        | some color => rfl
    · intro q _ hne
      by_contra hwritten
      obtain ⟨hqx, hqy⟩ := hplace q hwritten
      exact hne (Prod.ext (by omega) (by omega))
  · rw [if_neg hframe, lastWrite_eq_none_iff.mpr, Option.none_or]
    intro q hq
    by_contra hwritten
    obtain ⟨hqx, hqy⟩ := hplace q hwritten
    obtain ⟨hwidth, hheight⟩ := (Frame.mem_places _).mp hq
    have hheight' := (horder _).mp hheight
    have hwidth' : q.1 < contents.width := hwidth
    exact hframe (by omega)

theorem length_pixels :
    contents.image.pixels.length = contents.screenWidth * contents.screenHeight := by
  rw [image, List.length_map, List.length_range]

/-- The pixels that are drawn from the indices in one of the orders. -/
theorem drawRows_eq (interlaced : Bool) :
    contents.frame.drawRows (rowOrder interlaced contents.height) (contents.indices interlaced) =
      contents.image.pixels := by
  rw [rowOrder_eq, indices]
  refine List.ext_getElem? fun i => ?_
  by_cases hi : i < contents.screenWidth * contents.screenHeight
  · have hpos : 0 < (contents.screenWidth : ℕ) := contents.screenWidth.2.1
    have hx : i % contents.screenWidth < contents.screenWidth := Nat.mod_lt i hpos
    have hy : i / contents.screenWidth < contents.screenHeight := Nat.div_lt_of_lt_mul hi
    have hplace : i / contents.screenWidth * contents.screenWidth + i % contents.screenWidth = i := by
      rw [Nat.mul_comm]
      exact Nat.div_add_mod _ _
    have hwritten := contents.lastWrite_written (fun _ => @mem_rows interlaced _ _) hx hy
    rw [hplace] at hwritten
    rw [image, List.getElem?_map, List.getElem?_range hi, Option.map_some, ← hwritten]
    exact contents.frame.getElem?_drawRows contents.index _ hi
  · have hdrawn := contents.frame.length_drawRows (rows interlaced contents.height)
      (contents.indices interlaced)
    have hpixels := contents.length_pixels
    rw [List.getElem?_eq_none (hpixels.trans_le (not_lt.mp hi)), List.getElem?_eq_none]
    exact hdrawn.trans_le (not_lt.mp hi)

end Contents

namespace File

variable {contents : Contents} {interlaced : Bool} (file : File contents interlaced)

/-- The indices are read. -/
theorem lzwDecode_data :
    lzwDecode file.data.blocks.flatten file.minCodeSize.toNat [] =
      (true, contents.indices interlaced) := by
  obtain ⟨commands, padding, hencodes, hbits⟩ := file.data_encoding
  have hdecode := hencodes.decode (Lzw.Lags.start (format file.minCodeSize.toNat) _)
  have hin : ¬(file.minCodeSize.toNat < 2 ∨ 8 < file.minCodeSize.toNat) :=
    not_or_intro (not_lt.mpr file.two_le) (not_lt.mpr file.le_eight)
  rw [lzwDecode, if_neg hin, @lzwLoop_packed _ _ _ _ _ padding file.two_le file.le_eight
    (.clear :: commands) _ (represents_start file.two_le file.le_eight []) hdecode hbits]
  rfl

theorem imageDescriptor_descriptor (out : Image) :
    imageDescriptor contents.screenWidth contents.screenHeight
        (contents.globalTable.elim [] Palette.table) contents.transparent out file.descriptor =
      (true, contents.image) := by
  have hlzw := file.lzwDecode_data
  have hleft := readU16Le_u16 contents.left.isLt
  have htop := readU16Le_u16 contents.top.isLt
  have hwidth := readU16Le_u16 contents.width.2.2
  have hheight := readU16Le_u16 contents.height.2.2
  have htable : (if contents.localTable.elim [] Palette.table = [] then
      contents.globalTable.elim [] Palette.table else contents.localTable.elim [] Palette.table) =
      contents.table := by
    rw [Contents.table]
    cases contents.localTable with
    | none =>
      rw [Option.elim_none, if_pos rfl, Option.none_or]
      cases contents.globalTable with
      | none => rfl
      | some palette => rfl
    | some palette => exact if_neg palette.table_ne_nil
  have hlength : 9 ≤ file.descriptor.length := by
    simp only [descriptor, List.length_append, length_u16, List.length_singleton]
    omega
  have hpos : ¬((contents.width : ℕ) = 0 ∨ (contents.height : ℕ) = 0) :=
    not_or_intro contents.width.2.1.ne' contents.height.2.1.ne'
  rw [imageDescriptor, if_neg (not_lt.mpr hlength), descriptor]
  simp only [hleft, readU16Le_two, readU16Le_four, readU16Le_six, htop, hwidth, hheight,
    getD_eight, drop_nine]
  rw [if_neg hpos, colorTable_tableBytes file.framePacked_announces]
  simp only [List.singleton_append, readSubBlocks_bytes, hlzw, htable, file.framePacked_interlaced]
  exact congrArg (fun pixels => (true, (⟨contents.screenWidth, contents.screenHeight, pixels⟩ : Image)))
    (contents.drawRows_eq interlaced)

/-- **What is decoded.** -/
theorem decodeGif_bytes (out : Image) : decodeGif file.bytes out = (true, contents.image) := by
  have hwidth := readU16Le_u16 contents.screenWidth.2.2
  have hheight := readU16Le_u16 contents.screenHeight.2.2
  have hversion : file.version.length = 6 := by
    rcases List.mem_pair.mp file.version_mem with h | h
    · rw [h]
      rfl
    · rw [h]
      rfl
  have hgif : isGif file.bytes = true := by
    rw [isGif, decide_eq_true_eq, bytes, List.take_left' hversion]
    refine ⟨?_, List.mem_pair.mp file.version_mem⟩
    rw [List.length_append]
    omega
  have hrest : 7 ≤ (u16 contents.screenWidth ++ (u16 contents.screenHeight ++
      ([file.packed, file.background, file.aspect] ++
        (tableBytes contents.globalTable ++ file.blocks)))).length := by
    simp only [List.length_append, length_u16, List.length_cons]
    omega
  have hpos : ¬((contents.screenWidth : ℕ) = 0 ∨ (contents.screenHeight : ℕ) = 0) :=
    not_or_intro contents.screenWidth.2.1.ne' contents.screenHeight.2.1.ne'
  have htable : colorTable ((u16 contents.screenWidth ++ (u16 contents.screenHeight ++
      ([file.packed, file.background, file.aspect] ++
        (tableBytes contents.globalTable ++ file.blocks)))).getD 4 0)
      (tableBytes contents.globalTable ++ file.blocks) =
        some (contents.globalTable.elim [] Palette.table, file.blocks) :=
    colorTable_tableBytes file.packed_announces file.blocks
  rw [decodeGif, if_neg (not_not_intro hgif), bytes, List.drop_left' hversion]
  rw [if_neg (not_lt.mpr hrest)]
  simp only [hwidth, readU16Le_two, hheight, drop_seven, htable]
  rw [if_neg hpos]
  rw [blocks, blockLoop_extensions, blockLoop_control, file.control_eq, blockLoop_extensions,
    blockLoop.eq_def]
  exact file.imageDescriptor_descriptor out

end File

/-- **Both orders of the rows are decoded to the same image**, the one that is seen. -/
theorem decodeGif_interlaced {contents : Contents} (sequential : File contents false)
    (interlaced : File contents true) (out out' : Image) :
    decodeGif sequential.bytes out = (true, contents.image) ∧
      decodeGif interlaced.bytes out' = (true, contents.image) :=
  ⟨sequential.decodeGif_bytes out, interlaced.decodeGif_bytes out'⟩

/-- A column of three pixels: black, white and black. -/
def column : Contents where
  screenWidth := ⟨1, by decide⟩
  screenHeight := ⟨3, by decide⟩
  left := 0
  top := 0
  width := ⟨1, by decide⟩
  height := ⟨3, by decide⟩
  globalTable := some ⟨0, [(0, 0, 0), (255, 255, 255)], rfl⟩
  localTable := none
  transparent := none
  index _ y := if y = 1 then 1 else 0

/-- The column in a file.  In the order of an interlaced file the white pixel is the last one. -/
def columnFile (interlaced : Bool) : File column interlaced where
  version := lit "GIF89a"
  version_mem := by decide
  packed := 0x80
  packed_announces := ⟨by decide, by decide⟩
  background := 0
  aspect := 0
  before := []
  control := none
  control_eq := rfl
  between := []
  framePacked := if interlaced then 0x40 else 0
  framePacked_announces := by cases interlaced <;> rfl
  framePacked_interlaced := by cases interlaced <;> rfl
  minCodeSize := 2
  two_le := by decide
  le_eight := by decide
  data := ⟨[if interlaced then [0x04, 0x52] else [0x44, 0x50]], by cases interlaced <;> decide⟩
  data_encoding := by
    cases interlaced with
    | false =>
      have hencodes : Lzw.Encodes (format 2) [] ([0] ++ ([1] ++ ([0] ++ [])))
          [.emit 0, .emit 1, .emit 0] :=
        .emit (by decide) (.emit (by decide) (.emit (by decide) (.nil _)))
      exact ⟨_, [], hencodes, by decide⟩
    | true =>
      have hencodes : Lzw.Encodes (format 2) [] ([0] ++ ([0] ++ ([1] ++ [])))
          [.emit 0, .emit 0, .emit 1] :=
        .emit (by decide) (.emit (by decide) (.emit (by decide) (.nil _)))
      exact ⟨_, [], hencodes, by decide⟩
  behind := [0x3B]

theorem decodeGif_interlaced_column :
    decodeGif (columnFile false).bytes ⟨0, 0, []⟩ = (true, column.image) ∧
      decodeGif (columnFile true).bytes ⟨0, 0, []⟩ = (true, column.image) :=
  decodeGif_interlaced (columnFile false) (columnFile true) ⟨0, 0, []⟩ ⟨0, 0, []⟩

/-- The pixels of the image, row by row. -/
theorem Contents.getElem?_image (contents : Contents) {x y : ℕ} (hx : x < contents.screenWidth)
    (hy : y < contents.screenHeight) :
    contents.image.pixels[y * contents.screenWidth + x]? = some (contents.color x y) := by
  have hlt : y * contents.screenWidth + x < contents.screenWidth * contents.screenHeight := by
    have hrows := Nat.mul_le_mul_right contents.screenWidth.val (Nat.succ_le_of_lt hy)
    linarith [Nat.succ_mul y contents.screenWidth]
  have hrow : (y * contents.screenWidth + x) / contents.screenWidth = y := by
    rw [Nat.mul_comm, Nat.mul_add_div contents.screenWidth.2.1, Nat.div_eq_of_lt hx, Nat.add_zero]
  rw [image, List.getElem?_map, List.getElem?_range hlt, Option.map_some, hrow,
    Nat.mul_add_mod_of_lt hx]

/-- **The image does not depend on the order of the rows**, and each pixel of the screen has the color
of its index, if it lies in the frame and the index is in the palette and not transparent, and is
fully transparent otherwise. -/
theorem decodeGif_rowOrders {contents : Contents} (sequential : File contents false)
    (interlaced : File contents true) (out out' : Image) :
    ∃ image : Image, decodeGif sequential.bytes out = (true, image) ∧
      decodeGif interlaced.bytes out' = (true, image) ∧
        image.width = contents.screenWidth ∧ image.height = contents.screenHeight ∧
          ∀ x < contents.screenWidth.val, ∀ y < contents.screenHeight.val,
            image.pixels[y * contents.screenWidth + x]? = some (contents.color x y) :=
  ⟨contents.image, sequential.decodeGif_bytes out, interlaced.decodeGif_bytes out', rfl, rfl,
    fun _ hx _ hy => contents.getElem?_image hx hy⟩

end Aetheris.Gif
