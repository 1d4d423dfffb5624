import Aetheris.Gif.Lzw
import Aetheris.Image

/-!
# GIF files

`decode_gif` of `rendering/gif.cpp`.  The position in the bytes is given by the rest of the bytes
behind it.  A frame is drawn row by row in the order of `rowOrder`, and a pixel outside of the
screen is passed over.

No write goes to a place that the image does not have, and the decoder assigns `out` only at its
end, so it gives a whole image or leaves the old one (`allOrNothing_decodeGif`).
-/

namespace Aetheris.Gif

/-! ## The parts of a file -/

/-- `read_u16_le`. -/
def readU16Le (bytes : Bytes) (i : ℕ) : ℕ :=
  (bytes.getD i 0).toNat ||| (bytes.getD (i + 1) 0).toNat <<< 8

/-- `read_color_table`. -/
def readColorTable (data : Bytes) (size : ℕ) : List Color :=
  (List.range size).map fun i =>
    { red := data.getD (i * 3) 0
      green := data.getD (i * 3 + 1) 0
      blue := data.getD (i * 3 + 2) 0
      alpha := 255 }

/-- The color table that a packed byte announces, and the rest behind it. -/
def colorTable (packed : Byte) (rest : Bytes) : Option (List Color × Bytes) :=
  if packed &&& 0x80 ≠ 0 then
    let size := 1 <<< ((packed &&& 0x07).toNat + 1)
    if rest.length < size * 3 then none
    else some (readColorTable rest size, rest.drop (size * 3))
  else some ([], rest)

/-- `read_sub_blocks`: the data with `out` in front, and the rest behind it. -/
def readSubBlocks (out : Bytes) : Bytes → Option (Bytes × Bytes)
  | [] => none
  | length :: rest =>
    if length = 0 then some (out, rest)
    else if rest.length < length.toNat then none
    else readSubBlocks (out ++ rest.take length.toNat) (rest.drop length.toNat)
termination_by rest => rest.length
decreasing_by
  rw [List.length_drop, List.length_cons]
  omega

theorem readSubBlocks_length {out : Bytes} {rest : Bytes} {r : Bytes × Bytes}
    (h : readSubBlocks out rest = some r) : r.2.length < rest.length := by
  induction out, rest using readSubBlocks.induct with
  | case1 out =>
    rw [readSubBlocks] at h
    cases h
  | case2 out rest =>
    rw [readSubBlocks, if_pos rfl] at h
    rw [← Option.some.inj h]
    exact Nat.lt_succ_self _
  | case3 out length rest hne hlt =>
    rw [readSubBlocks, if_neg hne, if_pos hlt] at h
    cases h
  | case4 out length rest hne hlt ih =>
    rw [readSubBlocks, if_neg hne, if_neg hlt] at h
    have hle := ih h
    rw [List.length_drop] at hle
    rw [List.length_cons]
    omega

/-! ## The frame -/

/-- A loop over `y` from a first row on. -/
def passRows (height step y : ℕ) : List ℕ :=
  if 0 < step ∧ y < height then y :: passRows height step (y + step) else []
termination_by height - y

/-- `starts` and `steps`. -/
def passes : List (ℕ × ℕ) := [(0, 8), (4, 8), (2, 4), (1, 2)]

/-- `row_order`. -/
def rowOrder (interlaced : Bool) (height : ℕ) : List ℕ :=
  if interlaced then passes.flatMap fun pass => passRows height pass.2 pass.1
  else List.range height

/-- What the loop over the pixels reads. -/
structure Frame where
  screenWidth : ℕ
  screenHeight : ℕ
  left : ℕ
  top : ℕ
  width : ℕ
  height : ℕ
  table : List Color
  transparent : Option Byte

namespace Frame

variable (frame : Frame)

/-- The pixels of the frame, with one of them drawn. -/
def drawPixel (y : ℕ) (pixels : List Color) (x : ℕ) (paletteIndex : Byte) : List Color :=
  let px := frame.left + x
  let py := frame.top + y
  if frame.screenWidth ≤ px ∨ frame.screenHeight ≤ py then pixels
  else if some paletteIndex = frame.transparent then pixels
  else
    match frame.table[paletteIndex.toNat]? with
    | some color => pixels.set (py * frame.screenWidth + px) color
    | none => pixels

/-- The loop over `x`, with the indices that are left and the pixels.  Behind the last index, each
turn is the `break`. -/
def drawRow (s : Bytes × List Color) (y : ℕ) : Bytes × List Color :=
  (List.range frame.width).foldl (fun s x =>
    match s.1 with
    | [] => s
    | paletteIndex :: indices => (indices, frame.drawPixel y s.2 x paletteIndex)) s

/-- The loop over the rows. -/
def drawRows (order : List ℕ) (indices : Bytes) : List Color :=
  (order.foldl frame.drawRow
    (indices, List.replicate (frame.screenWidth * frame.screenHeight) ⟨0, 0, 0, 0⟩)).2

end Frame

/-! ## The decoder -/

/-- An image descriptor: the result, with `out` behind it. -/
def imageDescriptor (screenWidth screenHeight : ℕ) (globalTable : List Color)
    (transparentIndex : Option Byte) (out : Image) (rest : Bytes) : Bool × Image :=
  if rest.length < 9 then (false, out)
  else
    let frameLeft := readU16Le rest 0
    let frameTop := readU16Le rest 2
    let frameWidth := readU16Le rest 4
    let frameHeight := readU16Le rest 6
    let framePacked := rest.getD 8 0
    if frameWidth = 0 ∨ frameHeight = 0 then (false, out)
    else
      match colorTable framePacked (rest.drop 9) with
      | none => (false, out)
      | some (localTable, rest) =>
        let table := if localTable = [] then globalTable else localTable
        match rest with
        | [] => (false, out)
        | minCodeSize :: rest =>
          match readSubBlocks [] rest with
          | none => (false, out)
          | some (compressed, _) =>
            match lzwDecode compressed minCodeSize.toNat [] with
            | (false, _) => (false, out)
            | (true, indices) =>
              let frame : Frame :=
                { screenWidth := screenWidth
                  screenHeight := screenHeight
                  left := frameLeft
                  top := frameTop
                  width := frameWidth
                  height := frameHeight
                  table := table
                  transparent := transparentIndex }
              (true,
                { width := screenWidth
                  height := screenHeight
                  pixels := frame.drawRows (rowOrder (framePacked &&& 0x40 != 0) frameHeight)
                    indices })

/-- The loop over the blocks. -/
def blockLoop (screenWidth screenHeight : ℕ) (globalTable : List Color) (out : Image)
    (transparentIndex : Option Byte) : Bytes → Bool × Image
  | [] => (false, out)
  | block :: rest =>
    if block = 0x3B then (false, out)
    else if block = 0x21 then
      match rest with
      | [] => (false, out)
      | label :: rest =>
        if label = 0xF9 then
          if rest.length < 6 then (false, out)
          else
            let flags := rest.getD 1 0
            let transparentIndex :=
              if flags &&& 0x01 ≠ 0 then some (rest.getD 4 0) else transparentIndex
            let behind := rest.drop (1 + (rest.getD 0 0).toNat)
            blockLoop screenWidth screenHeight globalTable out transparentIndex
              (if behind.head? = some 0 then behind.tail else behind)
        else
          match h : readSubBlocks [] rest with
          | none => (false, out)
          | some (_, behind) =>
            have := readSubBlocks_length h
            blockLoop screenWidth screenHeight globalTable out transparentIndex behind
    else if block = 0x2C then
      imageDescriptor screenWidth screenHeight globalTable transparentIndex out rest
    else (false, out)
termination_by rest => rest.length
decreasing_by
  · simp only [List.length_cons]
    split
    · rw [List.length_tail, List.length_drop]
      omega
    · rw [List.length_drop]
      omega
  · dsimp only at this
    simp only [List.length_cons]
    omega

/-- `is_gif`. -/
def isGif (bytes : Bytes) : Bool :=
  decide (6 ≤ bytes.length ∧ (bytes.take 6 = lit "GIF87a" ∨ bytes.take 6 = lit "GIF89a"))

/-- `decode_gif`: the result, and `out` behind it. -/
def decodeGif (bytes : Bytes) (out : Image) : Bool × Image :=
  if ¬isGif bytes then (false, out)
  else
    let rest := bytes.drop 6
    if rest.length < 7 then (false, out)
    else
      let screenWidth := readU16Le rest 0
      let screenHeight := readU16Le rest 2
      if screenWidth = 0 ∨ screenHeight = 0 then (false, out)
      else
        match colorTable (rest.getD 4 0) (rest.drop 7) with
        | none => (false, out)
        | some (globalTable, rest) =>
          blockLoop screenWidth screenHeight globalTable out none rest

/-! ## Success and failure -/

theorem Frame.length_drawPixel (frame : Frame) (y : ℕ) (pixels : List Color) (x : ℕ)
    (paletteIndex : Byte) : (frame.drawPixel y pixels x paletteIndex).length = pixels.length := by
  rw [drawPixel]
  split
  · rfl
  · split
    · rfl
    · split
      · exact List.length_set
      · rfl

theorem Frame.length_drawRow (frame : Frame) (s : Bytes × List Color) (y : ℕ) :
    (frame.drawRow s y).2.length = s.2.length := by
  rw [drawRow]
  refine List.foldlRecOn (motive := fun t : Bytes × List Color => t.2.length = s.2.length) _ _ rfl
    fun t ht x _ => ?_
  split
  · exact ht
  · exact (frame.length_drawPixel y t.2 x _).trans ht

/-- However many indices there are, every pixel of the screen is there. -/
theorem Frame.length_drawRows (frame : Frame) (order : List ℕ) (indices : Bytes) :
    (frame.drawRows order indices).length = frame.screenWidth * frame.screenHeight := by
  rw [drawRows]
  refine List.foldlRecOn (motive := fun t : Bytes × List Color => t.2.length = _) _ _
    List.length_replicate fun t ht y _ => ?_
  exact (frame.length_drawRow t y).trans ht

theorem allOrNothing_imageDescriptor {screenWidth screenHeight : ℕ} (hwidth : 0 < screenWidth)
    (hheight : 0 < screenHeight) (globalTable : List Color) (transparentIndex : Option Byte)
    (out : Image) (rest : Bytes) :
    AllOrNothing out
      (imageDescriptor screenWidth screenHeight globalTable transparentIndex out rest) := by
  rw [imageDescriptor]
  split
  · exact Or.inl rfl
  · dsimp only
    split
    · exact Or.inl rfl
    · split
      · exact Or.inl rfl
      · split
        · exact Or.inl rfl
        · split
          · exact Or.inl rfl
          · split
            · exact Or.inl rfl
            · refine Or.inr ⟨rfl, Int.natCast_pos.mpr hwidth, Int.natCast_pos.mpr hheight, ?_⟩
              dsimp only
              rw [Frame.length_drawRows, Int.natCast_mul]

theorem allOrNothing_blockLoop {screenWidth screenHeight : ℕ} (hwidth : 0 < screenWidth)
    (hheight : 0 < screenHeight) (globalTable : List Color) (out : Image)
    (transparentIndex : Option Byte) (rest : Bytes) :
    AllOrNothing out
      (blockLoop screenWidth screenHeight globalTable out transparentIndex rest) := by
  fun_induction blockLoop screenWidth screenHeight globalTable out transparentIndex rest
  case case5 ih => exact ih
  case case7 ih => exact ih
  case case8 => exact allOrNothing_imageDescriptor hwidth hheight _ _ _ _
  all_goals exact Or.inl rfl

/-- **`decode_gif` gives a whole image, or leaves `out` as it is**, whatever the bytes are. -/
theorem allOrNothing_decodeGif (bytes : Bytes) (out : Image) :
    AllOrNothing out (decodeGif bytes out) := by
  rw [decodeGif]
  split
  · exact Or.inl rfl
  · dsimp only
    split
    · exact Or.inl rfl
    · split
      · exact Or.inl rfl
      · rename_i hsize
        split
        · exact Or.inl rfl
        · exact allOrNothing_blockLoop (by omega) (by omega) _ _ _ _

end Aetheris.Gif
