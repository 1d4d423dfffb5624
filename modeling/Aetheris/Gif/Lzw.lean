import Aetheris.Library.Lzw
import Aetheris.Png.BitReader

/-!
# LZW in GIF files

`lzw_decode` of `gif.cpp`, and what GIF says about the codes: their width grows with the table, and
they are packed into bytes with the least significant bit first.  The decoder is written as in the
source, over bit positions.  The format is stated apart from it: an `Encoding` is any list of codes
that stands for a text, with clear codes anywhere, and `packed` are its bits.
-/

namespace Aetheris.Gif

open BitString Png Lzw

/-! ## The decoder -/

/-- `read_code`, from the bit `i` on: the code, and the bit position behind it. -/
def readCode (data : Bytes) (size i code bitPosition : ℕ) : Option (ℕ × ℕ) :=
  if i < size then
    match data[bitPosition >>> 3]? with
    | none => none
    | some byte =>
      let bit := byte.toNat >>> (bitPosition &&& 7) &&& 1
      readCode data size (i + 1) (code ||| bit <<< i) (bitPosition + 1)
  else some (code, bitPosition)
termination_by size - i

/-- `clear_code` -/
def clearCode (minCodeSize : ℕ) : ℕ := 1 <<< minCodeSize

/-- `end_code` -/
def endCode (minCodeSize : ℕ) : ℕ := clearCode minCodeSize + 1

/-- The variables of `lzw_decode`. -/
structure LzwDecoder where
  codeSize : ℕ
  nextCode : ℕ
  dictionary : List Bytes
  bitPosition : ℕ := 0
  previous : Bytes := []
  out : Bytes
  /-- Every code has a bit. -/
  codeSize_pos : 0 < codeSize

namespace LzwDecoder

/-- The variables at the beginning. -/
def start (minCodeSize : ℕ) (out : Bytes) : LzwDecoder where
  codeSize := minCodeSize + 1
  nextCode := endCode minCodeSize + 1
  dictionary := (List.range 4096).map fun i =>
    if i < clearCode minCodeSize then [UInt8.ofNat i] else []
  out := out
  codeSize_pos := Nat.succ_pos minCodeSize

/-- The clear code. -/
def clear (d : LzwDecoder) (minCodeSize bitPosition : ℕ) : LzwDecoder :=
  { d with
    codeSize := minCodeSize + 1
    nextCode := endCode minCodeSize + 1
    bitPosition := bitPosition
    previous := []
    codeSize_pos := Nat.succ_pos minCodeSize }

/-- The entry of a code. -/
def entry (d : LzwDecoder) (code : ℕ) : Option Bytes :=
  if code < d.nextCode ∧ d.dictionary.getD code [] ≠ [] then some (d.dictionary.getD code [])
  else
    match d.previous with
    | [] => none
    | front :: rest => some (front :: rest ++ [front])

/-- The next code, after which it may become wider. -/
def create (d : LzwDecoder) (created : Bytes) : LzwDecoder :=
  { d with
    codeSize :=
      if d.nextCode + 1 = 1 <<< d.codeSize ∧ d.codeSize < 12 then d.codeSize + 1 else d.codeSize
    nextCode := d.nextCode + 1
    dictionary := d.dictionary.set d.nextCode created
    codeSize_pos := by
      split
      · exact Nat.succ_pos _
      · exact d.codeSize_pos }

/-- An entry is put out. -/
def emit (d : LzwDecoder) (entry : Bytes) (bitPosition : ℕ) : LzwDecoder :=
  let d' :=
    if d.previous ≠ [] ∧ d.nextCode < 4096 then d.create (d.previous ++ entry.take 1) else d
  { d' with bitPosition := bitPosition, previous := entry, out := d.out ++ entry }

end LzwDecoder

/-- A code that is read ends further on, and within the data. -/
theorem readCode_le {data : Bytes} {size i code bitPosition : ℕ} {r : ℕ × ℕ}
    (h : readCode data size i code bitPosition = some r) (hi : i < size) :
    bitPosition < r.2 ∧ r.2 ≤ 8 * data.length := by
  induction hn : size - i generalizing i code bitPosition with
  | zero => omega
  | succ n ih =>
    rw [readCode, if_pos hi] at h
    split at h
    · cases h
    · rename_i byte hbyte
      have hlt := (List.getElem?_eq_some_iff.mp hbyte).1
      rw [Nat.shiftRight_eq_div_pow] at hlt
      by_cases hnext : i + 1 < size
      · obtain ⟨hlt', hle⟩ := ih h hnext (by omega)
        exact ⟨by omega, hle⟩
      · rw [readCode, if_neg hnext] at h
        rw [← Option.some.inj h]
        exact ⟨Nat.lt_succ_self _, by dsimp only; omega⟩

/-- The loop over the codes. -/
def lzwLoop (data : Bytes) (minCodeSize : ℕ) (d : LzwDecoder) : Bytes :=
  match h : readCode data d.codeSize 0 0 d.bitPosition with
  | none => d.out
  | some (code, bitPosition) =>
    have := readCode_le h d.codeSize_pos
    if code = clearCode minCodeSize then lzwLoop data minCodeSize (d.clear minCodeSize bitPosition)
    else if code = endCode minCodeSize then d.out
    else
      match d.entry code with
      | none => d.out
      | some entry => lzwLoop data minCodeSize (d.emit entry bitPosition)
termination_by 8 * data.length - d.bitPosition
decreasing_by
  · dsimp only [LzwDecoder.clear]
    omega
  · dsimp only [LzwDecoder.emit]
    omega

/-- `lzw_decode`: whether it succeeds, and `out` behind it. -/
def lzwDecode (data : Bytes) (minCodeSize : ℕ) (out : Bytes) : Bool × Bytes :=
  if minCodeSize < 2 ∨ 8 < minCodeSize then (false, out)
  else (true, lzwLoop data minCodeSize (.start minCodeSize out))

/-! ## The format -/

/-- The codes: the colors, the clear code and the end code, and the words of the table. -/
def format (minCodeSize : ℕ) : Format Byte where
  letters := (List.range (clearCode minCodeSize)).map UInt8.ofNat
  reserved := 2
  capacity := 4096

/-- The width of a code that is the `n`-th one behind a clear code: the largest code of the table,
which has grown with every code, has room in it, but it is 12 at most. -/
def width (minCodeSize n : ℕ) : ℕ := min 12 (Nat.size (endCode minCodeSize + n))

/-- The bits of the codes, up to the end code; `n` codes have come behind the last clear code. -/
def packed (minCodeSize : ℕ) : ℕ → List Command → List Bool
  | n, [] => littleEndian (width minCodeSize n) (endCode minCodeSize)
  | n, .clear :: commands =>
    littleEndian (width minCodeSize n) (clearCode minCodeSize) ++ packed minCodeSize 0 commands
  | n, .emit code :: commands =>
    littleEndian (width minCodeSize n) code ++ packed minCodeSize (n + 1) commands

/-- The data of an image: the codes of a text behind a clear code, in bytes; what is in the rest of
the last byte, or behind it, is left open. -/
def Encoding (minCodeSize : ℕ) (text : Bytes) (data : Bytes) : Prop :=
  ∃ commands padding, Encodes (format minCodeSize) [] text commands ∧
    bytesBits data = packed minCodeSize 0 (.clear :: commands) ++ padding

end Aetheris.Gif
