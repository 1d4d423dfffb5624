import Aetheris.Bytes
import Aetheris.Library.Meets

/-!
# The entropy-coded data of a JPEG

The bit reader of `rendering/jpeg.cpp`, its code tables, and the coefficients of one block.  A
function of the source that returns `false` stops every caller up to `decode_jpeg`; an access
outside an array is kept apart from that (`Stop`), and every access is a `slot`.  The values of
coefficients are of the types `short` and `int`; a shift by 32 or more, which C++ leaves open, takes
the count modulo 32.  A block is read by `decodeDc` and `decodeAc`, whose later passes correct what
the first ones have read.
-/

namespace Aetheris.Jpeg

open Aetheris.Computation

/-- Why a call stops. -/
inductive Stop
  /-- `false` is returned. -/
  | failed
  /-- An access outside an array or a segment. -/
  | outOfBounds
  deriving DecidableEq, Repr

/-- What a call ends with. -/
abbrev Checked (α : Type) := Except Stop α

/-- An access to an array. -/
def slot {α : Type} {n : ℕ} (xs : Vector α n) (i : ℕ) : Checked α :=
  if h : i < n then .ok (xs.get ⟨i, h⟩) else .error .outOfBounds

/-- An access to a segment or a `std::vector`. -/
def item {α : Type} (xs : List α) (i : ℕ) : Checked α :=
  match xs[i]? with
  | some a => .ok a
  | none => .error .outOfBounds

/-- `kZigZag`. -/
def kZigZag : Vector ℕ 64 := #v[
  0, 1, 8, 16, 9, 2, 3, 10, 17, 24, 32, 25, 18, 11, 4, 5,
  12, 19, 26, 33, 40, 48, 41, 34, 27, 20, 13, 6, 7, 14, 21, 28,
  35, 42, 49, 56, 57, 50, 43, 36, 29, 22, 15, 23, 30, 37, 44, 51,
  58, 59, 52, 45, 38, 31, 39, 46, 53, 60, 61, 54, 47, 55, 62, 63]

/-! ## Bits -/

/-- The position of the decoder and its bit buffer. -/
structure Reader where
  pos : ℕ := 0
  bitBuffer : ℕ := 0
  bitCount : ℕ := 0
  deriving DecidableEq, Repr

/-- `read_byte`; `-1` is `none`. -/
def readByte (data : Bytes) (reader : Reader) : Option ℕ × Reader :=
  match data[reader.pos]? with
  | none => (none, reader)
  | some b =>
    if b = 0xff then
      match data[reader.pos + 1]? with
      | none => (none, reader)
      | some next =>
        if next = 0 then (some 0xff, { reader with pos := reader.pos + 2 }) else (none, reader)
    else (some b.toNat, { reader with pos := reader.pos + 1 })

/-- The end of `read_bit`. -/
def takeBit (reader : Reader) : Option ℕ × Reader :=
  let bitCount := reader.bitCount - 1
  (some (reader.bitBuffer >>> bitCount &&& 1), { reader with bitCount := bitCount })

/-- `read_bit`. -/
def readBit (data : Bytes) (reader : Reader) : Option ℕ × Reader :=
  if reader.bitCount = 0 then
    match readByte data reader with
    | (none, reader) => (none, reader)
    | (some b, reader) => takeBit { reader with bitBuffer := b, bitCount := 8 }
  else takeBit reader

/-- The loop of `read_bits`. -/
def readBitsLoop (data : Bytes) : ℕ → Int32 → Reader → Int32 × Reader
  | 0, value, reader => (value, reader)
  | count + 1, value, reader =>
    match readBit data reader with
    | (none, reader) => (-1, reader)
    | (some b, reader) => readBitsLoop data count (value <<< 1 ||| Int32.ofNat b) reader

/-- `read_bits`. -/
def readBits (data : Bytes) (count : ℕ) (reader : Reader) : Int32 × Reader :=
  readBitsLoop data count 0 reader

/-! ## Codes -/

/-- `min_code`, `max_code` and `val_ptr` of one length. -/
structure CodeRange where
  minCode : ℤ := 0
  maxCode : ℤ := 0
  valPtr : ℤ := 0
  deriving DecidableEq, Repr

/-- `HuffTable`, with its entries for the lengths from 1 to 16. -/
structure HuffTable where
  codes : List CodeRange := List.replicate 16 {}
  values : Bytes := []
  deriving DecidableEq, Repr

/-- The loop of `build_huffman`. -/
def codeRanges (code k : ℤ) : List ℕ → List CodeRange
  | [] => []
  | count :: counts =>
    if count = 0 then { minCode := 0, maxCode := -1, valPtr := 0 } :: codeRanges (code * 2) k counts
    else
      { minCode := code, maxCode := code + count - 1, valPtr := k } ::
        codeRanges ((code + count) * 2) (k + count) counts

/-- `build_huffman`. -/
def buildHuffman (counts : List ℕ) (values : Bytes) : HuffTable :=
  { codes := codeRanges 0 0 counts, values := values }

/-- The loop of `decode_huffman`. -/
def decodeHuffmanLoop (data values : Bytes) : List CodeRange → ℤ → Reader → Option ℕ × Reader
  | [], _, reader => (none, reader)
  | range :: ranges, code, reader =>
    match readBit data reader with
    | (none, reader) => (none, reader)
    | (some b, reader) =>
      let code := code * 2 + b
      if 0 ≤ range.maxCode ∧ code ≤ range.maxCode then
        let index := range.valPtr + code - range.minCode
        (if 0 ≤ index then values[index.toNat]?.map (·.toNat) else none, reader)
      else decodeHuffmanLoop data values ranges code reader

/-- `decode_huffman`. -/
def decodeHuffman (data : Bytes) (table : HuffTable) (reader : Reader) : Option ℕ × Reader :=
  decodeHuffmanLoop data table.values table.codes 0 reader

/-- `extend`. -/
def extend (value : Int32) (bits : ℕ) : Int32 :=
  if bits = 0 then 0
  else
    let threshold : Int32 := 1 <<< Int32.ofNat (bits - 1)
    if value < threshold then value + ((-1) <<< Int32.ofNat bits + 1) else value

/-! ## Components and scans -/

theorem component_lt (c : Fin 4) : c.1 < 4 := c.isLt

theorem no_coefficients : ([] : List Int16).length = 0 * 0 * 64 := rfl

/-- `Component`.  Its planes are eight times as wide and as high as it has blocks. -/
structure Component where
  id : ℕ := 0
  h : ℕ := 1
  v : ℕ := 1
  quantId : ℕ := 0
  dcTable : ℕ := 0
  acTable : ℕ := 0
  blocksW : ℕ := 0
  blocksH : ℕ := 0
  dcPred : Int32 := 0
  coefficients : List Int16 := []
  plane : Bytes := []
  /-- There are 64 coefficients in each block. -/
  length_coefficients : coefficients.length = blocksW * blocksH * 64 := by
    exact no_coefficients

namespace Component

/-- `plane_width`. -/
def planeWidth (component : Component) : ℕ := component.blocksW * 8

/-- `plane_height`. -/
def planeHeight (component : Component) : ℕ := component.blocksH * 8

/-- `block[z]` of the block that begins at `block`. -/
def load (component : Component) (block z : ℕ) : Checked Int16 :=
  if z < 64 then item component.coefficients (block + z) else .error .outOfBounds

/-- `block[z] = value`. -/
def store (component : Component) (block z : ℕ) (value : Int16) : Checked Component :=
  if z < 64 ∧ block + z < component.coefficients.length then
    .ok { component with
      coefficients := component.coefficients.set (block + z) value
      length_coefficients := List.length_set.trans component.length_coefficients }
  else .error .outOfBounds

end Component

/-- The state of a scan that its header sets. -/
structure Scan where
  components : List (Fin 4) := []
  specStart : ℕ := 0
  specEnd : ℕ := 0
  succHigh : ℕ := 0
  succLow : ℕ := 0
  deriving DecidableEq, Repr

/-- What is changed while a block is read. -/
structure BlockState where
  reader : Reader
  eobRun : Int32
  component : Component

/-! ## The DC coefficient -/

/-- `decode_dc`. -/
def decodeDc (data : Bytes) (scan : Scan) (dcTables : Vector HuffTable 4) (s : BlockState)
    (block : ℕ) : Checked BlockState :=
  if scan.succHigh = 0 then do
    let table ← slot dcTables s.component.dcTable
    match decodeHuffman data table s.reader with
    | (none, _) => .error .failed
    | (some bits, reader) =>
      let (value, reader) := if bits = 0 then (0, reader) else readBits data bits reader
      if bits ≠ 0 ∧ value < 0 then .error .failed
      else
        let dcPred := s.component.dcPred + extend value bits
        let component ← Component.store { s.component with dcPred := dcPred } block 0
          (dcPred <<< Int32.ofNat scan.succLow).toInt16
        return { s with reader := reader, component := component }
  else
    match readBit data s.reader with
    | (none, _) => .error .failed
    | (some bit, reader) =>
      if bit ≠ 0 then do
        let old ← s.component.load block 0
        let component ← s.component.store block 0
          (old ||| ((1 : Int32) <<< Int32.ofNat scan.succLow).toInt16)
        return { s with reader := reader, component := component }
      else return { s with reader := reader }

/-! ## The first pass over AC coefficients -/

/-- The loop of `decode_ac` where `succ_high` is zero. -/
def acFirst (data : Bytes) (scan : Scan) (acTables : Vector HuffTable 4) (s : BlockState)
    (block k : ℕ) : Checked BlockState := do
  let table ← slot acTables s.component.acTable
  match decodeHuffman data table s.reader with
  | (none, _) => .error .failed
  | (some rs, reader) =>
    let run := rs / 16
    let size := rs % 16
    if size = 0 then
      if run < 15 then
        let (more, reader) := if run ≠ 0 then readBits data run reader else (0, reader)
        return { s with
          reader := reader
          eobRun := (1 : Int32) <<< Int32.ofNat run + more - 1 }
      else if _ : k + 16 ≤ scan.specEnd then
        acFirst data scan acTables { s with reader := reader } block (k + 16)
      else return { s with reader := reader }
    else if scan.specEnd < k + run then .error .failed
    else
      let (value, reader) := readBits data size reader
      if value < 0 then .error .failed
      else
        let z ← slot kZigZag (k + run)
        let component ← s.component.store block z
          (extend value size <<< Int32.ofNat scan.succLow).toInt16
        let s := { s with reader := reader, component := component }
        if _ : k + run + 1 ≤ scan.specEnd then
          acFirst data scan acTables s block (k + run + 1)
        else return s
termination_by scan.specEnd - k

/-! ## The later passes -/

/-- A coefficient that is not zero is corrected. -/
def correct (data : Bytes) (bit : Int32) (s : BlockState) (block z : ℕ) (p : Int16) :
    Checked BlockState :=
  match readBit data s.reader with
  | (none, _) => .error .failed
  | (some correction, reader) =>
    if correction ≠ 0 ∧ p.toInt32 &&& bit = 0 then do
      let component ← s.component.store block z
        (if 0 < p then p.toInt32 + bit else p.toInt32 - bit).toInt16
      return { s with reader := reader, component := component }
    else return { s with reader := reader }

/-- The loop of `decode_ac` over the coefficients of a block in an end-of-band run. -/
def refineBand (data : Bytes) (scan : Scan) (bit : Int32) (s : BlockState) (block k : ℕ) :
    Checked BlockState :=
  if k ≤ scan.specEnd then do
    let z ← slot kZigZag k
    let p ← s.component.load block z
    let s ← if p ≠ 0 then correct data bit s block z p else pure s
    refineBand data scan bit s block (k + 1)
  else return s
termination_by scan.specEnd + 1 - k

/-- The inner loop of `decode_ac`, up to the coefficient that becomes `newValue`. -/
def refineRun (data : Bytes) (scan : Scan) (bit newValue : Int32) (s : BlockState)
    (block k run : ℕ) : Checked (BlockState × ℕ) :=
  if k ≤ scan.specEnd then do
    let z ← slot kZigZag k
    let p ← s.component.load block z
    if p ≠ 0 then
      let s ← correct data bit s block z p
      refineRun data scan bit newValue s block (k + 1) run
    else if run = 0 then
      let component ← s.component.store block z newValue.toInt16
      return ({ s with component := component }, k + 1)
    else refineRun data scan bit newValue s block (k + 1) (run - 1)
  else return (s, k)
termination_by scan.specEnd + 1 - k

/-- The inner loop goes on, unless the band is at its end. -/
theorem meets_refineRun_lt (data : Bytes) (scan : Scan) (bit newValue : Int32) (s : BlockState)
    (block k run : ℕ) :
    Meets (fun _ => True) (refineRun data scan bit newValue s block k run) fun result =>
      k ≤ result.2 ∧ (k ≤ scan.specEnd → k < result.2) := by
  induction s, k, run using refineRun.induct scan with
  | case1 s k run hle ihCorrect ihRest =>
    rw [refineRun, if_pos hle]
    refine (meets_true _).bind fun z _ => (meets_true _).bind fun p _ => ?_
    refine meets_ite (fun _ => ?_) fun _ => meets_ite (fun _ => ?_) fun _ => ?_
    · exact (meets_true _).bind fun s' _ => (ihCorrect s').mono fun result h =>
        ⟨Nat.le_of_succ_le h.1, fun _ => h.1⟩
    · exact (meets_true _).bind fun component _ =>
        meets_pure ⟨Nat.le_succ k, fun _ => Nat.lt_succ_self k⟩
    · exact ihRest.mono fun result h => ⟨Nat.le_of_succ_le h.1, fun _ => h.1⟩
  | case2 s k run hle =>
    rw [refineRun, if_neg hle]
    exact meets_pure ⟨Nat.le_refl k, fun h => absurd h hle⟩

/-- The loop of `decode_ac` that puts in new coefficients. -/
def acRefine (data : Bytes) (scan : Scan) (bit : Int32) (acTables : Vector HuffTable 4)
    (s : BlockState) (block k : ℕ) : Checked BlockState := do
  let table ← slot acTables s.component.acTable
  match decodeHuffman data table s.reader with
  | (none, _) => .error .failed
  | (some rs, reader) =>
    let run := rs / 16
    let size := rs % 16
    if size = 0 ∧ run < 15 then
      let (more, reader) := if run ≠ 0 then readBits data run reader else (0, reader)
      return { s with reader := reader, eobRun := (1 : Int32) <<< Int32.ofNat run + more }
    else if size ≠ 0 ∧ size ≠ 1 then .error .failed
    else
      let (sign, reader) := if size = 0 then (some 0, reader) else readBit data reader
      match sign with
      | none => .error .failed
      | some sign =>
        let newValue := if size = 0 then 0 else if sign ≠ 0 then bit else -bit
        match _ : refineRun data scan bit newValue { s with reader := reader } block k run with
        | .error stop => .error stop
        | .ok (s, k') =>
          if _ : k' ≤ scan.specEnd then acRefine data scan bit acTables s block k' else return s
termination_by scan.specEnd - k
decreasing_by
  have hlt := (meets_refineRun_lt data scan bit _ _ block k _).of_eq_ok ‹_›
  dsimp only at hlt
  omega

/-- `decode_ac`. -/
def decodeAc (data : Bytes) (scan : Scan) (acTables : Vector HuffTable 4) (s : BlockState)
    (block : ℕ) : Checked BlockState :=
  let k := if 0 < scan.specStart then scan.specStart else 1
  if scan.succHigh = 0 then
    if 0 < s.eobRun then .ok { s with eobRun := s.eobRun - 1 }
    else acFirst data scan acTables s block k
  else
    let bit := (1 : Int32) <<< Int32.ofNat scan.succLow
    if 0 < s.eobRun then
      refineBand data scan bit { s with eobRun := s.eobRun - 1 } block scan.specStart
    else acRefine data scan bit acTables s block k

end Aetheris.Jpeg
