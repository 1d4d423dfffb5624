import Aetheris.Bytes

/-!
# The inflater of the PNG decoder

`inflate_codes` of `rendering/png.cpp` and the functions it calls, an adaptation of the `puff`
reference decoder.  A function that returns a negative `int` (or, where `construct` finds a code
incomplete, a positive one) stops every caller up to `decode_png`, which throws the partial output
away; that is an error of the `Except` monad here.  An access outside a table is kept apart from the
returned codes.

`unsigned long` has 64 bits.  The bit buffer never holds more than twenty, and no shift loses one,
so it is a natural number.  The loops over symbols and blocks end because each round takes bits that
are no longer there.
-/

namespace Aetheris.Png

def kMaxBits : ℕ := 15
def kMaxLens : ℕ := 288
def kMaxDists : ℕ := 30

/-- `Huffman`: how many codes of each length there are, and the symbols in the order of their
codes. -/
structure Huffman where
  count : List ℕ := List.replicate (kMaxBits + 1) 0
  symbol : List ℕ := List.replicate kMaxLens 0
  deriving DecidableEq, Repr

/-- `Inflater`.  Its flag `overflow` is never read or written. -/
structure Inflater where
  input : Bytes := []
  inCursor : ℕ := 0
  bitBuffer : ℕ := 0
  bitCount : ℕ := 0
  out : Bytes := []
  deriving DecidableEq, Repr

/-- Why a call does not end well. -/
inductive Fault
  /-- A returned `int` other than zero. -/
  | returned (code : Int)
  /-- An access outside an array. -/
  | outOfBounds
  deriving DecidableEq, Repr

/-- What a call ends with. -/
abbrev Outcome (α : Type) := Except Fault α

/-- The bits that have not been read. -/
def Inflater.remaining (state : Inflater) : ℕ :=
  state.bitCount + 8 * (state.input.length - state.inCursor)

/-! ## Bits and code tables -/

/-- The loop of `bits`, with `value` as it is filled. -/
def fillBits (state : Inflater) (value need : ℕ) : Outcome (ℕ × Inflater) :=
  if state.bitCount < need then
    match state.input[state.inCursor]? with
    | none => .error (.returned (-1))
    | some byte =>
      fillBits { state with inCursor := state.inCursor + 1, bitCount := state.bitCount + 8 }
        (value ||| byte.toNat <<< state.bitCount) need
  else .ok (value, state)
termination_by need - state.bitCount

/-- `bits`: the next `need` bits as a number, the first one least significant. -/
def bits (state : Inflater) (need : ℕ) : Outcome (ℕ × Inflater) := do
  let (value, state) ← fillBits state state.bitBuffer need
  return (value &&& (1 <<< need - 1),
    { state with bitBuffer := value >>> need, bitCount := state.bitCount - need })

/-- The loop of `decode_symbol` from a code length on.  `code` is never below `first`. -/
def decodeFrom (table : Huffman) (state : Inflater) (length code first index : ℕ) :
    Outcome (ℕ × Inflater) :=
  if length ≤ kMaxBits then do
    let (bit, state) ← bits state 1
    let code := code ||| bit
    let count := table.count.getD length 0
    -- `code - count < first` of the source, where the difference may be negative
    if code < first + count then
      match table.symbol[index + (code - first)]? with
      | some symbol => return (symbol, state)
      | none => .error .outOfBounds
    else decodeFrom table state (length + 1) (code <<< 1) ((first + count) <<< 1) (index + count)
  else .error (.returned (-1))
termination_by kMaxBits + 1 - length

/-- `decode_symbol`. -/
def decodeSymbol (state : Inflater) (table : Huffman) : Outcome (ℕ × Inflater) :=
  decodeFrom table state 1 0 0 0

/-- The first loops of `construct`: `count`. -/
def countLengths (lengths : List ℕ) : List ℕ :=
  lengths.foldl (fun count length => count.modify length (· + 1))
    (List.replicate (kMaxBits + 1) 0)

/-- The loop of `construct` over the counts of the lengths from one on: how many codes of the
greatest length are left over, or the first negative number on the way. -/
def codesLeft (left : Int) : List ℕ → Int
  | [] => left
  | count :: counts =>
    let left := 2 * left - count
    if left < 0 then left else codesLeft left counts

/-- The last loop of `construct`, from a symbol on: the symbols in the order of their codes. -/
def sortSymbols (offsets symbols : List ℕ) (symbol : ℕ) : List ℕ → List ℕ
  | [] => symbols
  | length :: lengths =>
    if length ≠ 0 then
      sortSymbols (offsets.modify length (· + 1))
        (symbols.set (offsets.getD length 0) symbol) (symbol + 1) lengths
    else sortSymbols offsets symbols (symbol + 1) lengths

/-- `construct`: the returned `int`, and the table as it is left. -/
def construct (table : Huffman) (lengths : List ℕ) : Int × Huffman :=
  let count := countLengths lengths
  let table := { table with count }
  if count.getD 0 0 = lengths.length then (0, table)
  else
    let left := codesLeft 1 count.tail
    if left < 0 then (left, table)
    else
      -- `offsets[1] = 0`, and each later offset adds a count; `offsets[0]` is never used
      let offsets := 0 :: (count.tail.dropLast).scanl (· + ·) 0
      (left, { table with symbol := sortSymbols offsets table.symbol 0 lengths })

/-! ## The symbols of a block -/

def lengthBase : List ℕ :=
  [3, 4, 5, 6, 7, 8, 9, 10, 11, 13, 15, 17, 19, 23, 27, 31, 35, 43, 51, 59, 67, 83, 99, 115, 131,
    163, 195, 227, 258]

def lengthExtra : List ℕ :=
  [0, 0, 0, 0, 0, 0, 0, 0, 1, 1, 1, 1, 2, 2, 2, 2, 3, 3, 3, 3, 4, 4, 4, 4, 5, 5, 5, 5, 0]

def distanceBase : List ℕ :=
  [1, 2, 3, 4, 5, 7, 9, 13, 17, 25, 33, 49, 65, 97, 129, 193, 257, 385, 513, 769, 1025, 1537,
    2049, 3073, 4097, 6145, 8193, 12289, 16385, 24577]

def distanceExtra : List ℕ :=
  [0, 0, 0, 0, 1, 1, 2, 2, 3, 3, 4, 4, 5, 5, 6, 6, 7, 7, 8, 8, 9, 9, 10, 10, 11, 11, 12, 12, 13,
    13]

/-- The copying loop: each byte is looked up in the output as it has grown. -/
def copyBytes (out : Bytes) (distance : ℕ) : ℕ → Bytes
  | 0 => out
  | length + 1 => copyBytes (out ++ [out.getD (out.length - distance) 0]) distance length

/-- The test `distance > static_cast<int>(state.out->size())`. -/
def tooFar (distance size : ℕ) : Prop := Int.bmod size (2 ^ 32) < distance

instance (distance size : ℕ) : Decidable (tooFar distance size) :=
  inferInstanceAs (Decidable (_ < _))

/-- A back-reference, whose length symbol has been read. -/
def copyMatch (state : Inflater) (symbol : ℕ) (distanceTable : Huffman) : Outcome Inflater := do
  if 29 ≤ symbol then .error (.returned (-10))
  else
    let (extra, state) ← bits state (lengthExtra.getD symbol 0)
    let length := lengthBase.getD symbol 0 + extra
    let (distanceSymbol, state) ← decodeSymbol state distanceTable
    if 30 ≤ distanceSymbol then .error (.returned (-11))
    else
      let (distanceExtraBits, state) ← bits state (distanceExtra.getD distanceSymbol 0)
      let distance := distanceBase.getD distanceSymbol 0 + distanceExtraBits
      if tooFar distance state.out.length then .error (.returned (-12))
      else return { state with out := copyBytes state.out distance length }

/-- One round of the loop of `inflate_block`, and whether there is another. -/
def inflateSymbol (state : Inflater) (lengthTable distanceTable : Huffman) :
    Outcome (Bool × Inflater) := do
  let (symbol, state) ← decodeSymbol state lengthTable
  if symbol < 256 then return (true, { state with out := state.out ++ [UInt8.ofNat symbol] })
  else if 256 < symbol then
    let state ← copyMatch state (symbol - 257) distanceTable
    return (true, state)
  else return (false, state)

/-! ## What is read is no longer there -/

theorem bind_eq_ok {α β : Type} {x : Outcome α} {f : α → Outcome β} {b : β} :
    x >>= f = .ok b ↔ ∃ a, x = .ok a ∧ f a = .ok b := by
  cases x with
  | error e => exact ⟨fun h => (nomatch h), fun ⟨_, h, _⟩ => (nomatch h)⟩
  | ok a => exact ⟨fun h => ⟨a, rfl, h⟩, fun ⟨_, h, hf⟩ => Except.ok.inj h ▸ hf⟩

theorem remaining_fillBits {state state' : Inflater} {value need v : ℕ}
    (h : fillBits state value need = .ok (v, state')) :
    state'.remaining = state.remaining ∧ need ≤ state'.bitCount := by
  induction hn : need - state.bitCount using Nat.strongRecOn generalizing state value with
  | ind n ih =>
    rw [fillBits] at h
    by_cases hlt : state.bitCount < need
    · rw [if_pos hlt] at h
      split at h
      · cases h
      · rename_i byte hbyte
        have hcursor := (List.getElem?_eq_some_iff.mp hbyte).1
        obtain ⟨hrem, hle⟩ := ih _ (by dsimp only; omega) h rfl
        refine ⟨hrem.trans ?_, hle⟩
        rw [Inflater.remaining, Inflater.remaining]
        dsimp only
        omega
    · rw [if_neg hlt] at h
      obtain ⟨-, rfl⟩ := Prod.mk.inj (Except.ok.inj h)
      exact ⟨rfl, Nat.le_of_not_lt hlt⟩

/-- **`bits` takes as many bits as it is asked for.** -/
theorem remaining_bits {state state' : Inflater} {need v : ℕ}
    (h : bits state need = .ok (v, state')) :
    state'.remaining + need = state.remaining := by
  rw [bits] at h
  obtain ⟨⟨value, filled⟩, hfill, hret⟩ := bind_eq_ok.mp h
  obtain ⟨-, rfl⟩ := Prod.mk.inj (Except.ok.inj hret)
  obtain ⟨hrem, hle⟩ := remaining_fillBits hfill
  rw [← hrem, Inflater.remaining, Inflater.remaining]
  dsimp only
  omega

theorem remaining_decodeFrom {table : Huffman} {state state' : Inflater}
    {length code first index symbol : ℕ}
    (h : decodeFrom table state length code first index = .ok (symbol, state')) :
    state'.remaining < state.remaining := by
  induction hn : kMaxBits + 1 - length using Nat.strongRecOn
    generalizing state length code first index with
  | ind n ih =>
    rw [decodeFrom] at h
    by_cases hle : length ≤ kMaxBits
    · rw [if_pos hle] at h
      obtain ⟨⟨bit, next⟩, hbit, hret⟩ := bind_eq_ok.mp h
      have hrem := remaining_bits hbit
      dsimp only at hret
      split at hret
      · split at hret
        · obtain ⟨-, rfl⟩ := Prod.mk.inj (Except.ok.inj hret)
          omega
        · cases hret
      · have hlt := ih _ (by omega) hret rfl
        omega
    · rw [if_neg hle] at h
      cases h

/-- **A symbol takes at least one bit.** -/
theorem remaining_decodeSymbol {table : Huffman} {state state' : Inflater} {symbol : ℕ}
    (h : decodeSymbol state table = .ok (symbol, state')) :
    state'.remaining < state.remaining :=
  remaining_decodeFrom h

theorem remaining_copyMatch {state state' : Inflater} {symbol : ℕ} {distanceTable : Huffman}
    (h : copyMatch state symbol distanceTable = .ok state') :
    state'.remaining ≤ state.remaining := by
  rw [copyMatch] at h
  split at h
  · cases h
  · obtain ⟨⟨extra, s₁⟩, h₁, h⟩ := bind_eq_ok.mp h
    obtain ⟨⟨distanceSymbol, s₂⟩, h₂, h⟩ := bind_eq_ok.mp h
    have hrem₁ := remaining_bits h₁
    have hrem₂ := remaining_decodeSymbol h₂
    dsimp only at h hrem₂
    split at h
    · cases h
    · obtain ⟨⟨extraBits, s₃⟩, h₃, h⟩ := bind_eq_ok.mp h
      have hrem₃ := remaining_bits h₃
      dsimp only at h
      split at h
      · cases h
      · rw [← Except.ok.inj h]
        change s₃.remaining ≤ state.remaining
        omega

theorem remaining_inflateSymbol {state state' : Inflater} {lengthTable distanceTable : Huffman}
    {more : Bool} (h : inflateSymbol state lengthTable distanceTable = .ok (more, state')) :
    state'.remaining < state.remaining := by
  rw [inflateSymbol] at h
  obtain ⟨⟨symbol, next⟩, hsymbol, h⟩ := bind_eq_ok.mp h
  have hlt := remaining_decodeSymbol hsymbol
  dsimp only at h
  split at h
  · obtain ⟨-, rfl⟩ := Prod.mk.inj (Except.ok.inj h)
    exact hlt
  · split at h
    · obtain ⟨copied, hcopied, h⟩ := bind_eq_ok.mp h
      obtain ⟨-, rfl⟩ := Prod.mk.inj (Except.ok.inj h)
      exact (remaining_copyMatch hcopied).trans_lt hlt
    · obtain ⟨-, rfl⟩ := Prod.mk.inj (Except.ok.inj h)
      exact hlt

/-- `inflate_block`: the symbols up to the end-of-block symbol. -/
def inflateBlock (state : Inflater) (lengthTable distanceTable : Huffman) : Outcome Inflater :=
  match _h : inflateSymbol state lengthTable distanceTable with
  | .error e => .error e
  | .ok (true, next) => inflateBlock next lengthTable distanceTable
  | .ok (false, next) => .ok next
termination_by state.remaining
decreasing_by exact remaining_inflateSymbol _h

/-! ## The blocks -/

/-- A stored block: the rest of the byte is thrown away, and the data follow their length. -/
def storedBlock (state : Inflater) : Outcome Inflater :=
  let cursor := state.inCursor
  if cursor + 4 > state.input.length then .error (.returned (-5))
  else
    let byte i := (state.input.getD (cursor + i) 0).toNat
    let len := byte 0 ||| byte 1 <<< 8
    let nlen := byte 2 ||| byte 3 <<< 8
    if len ^^^ 0xFFFF ≠ nlen then .error (.returned (-6))
    else if cursor + 4 + len > state.input.length then .error (.returned (-7))
    else
      return { state with
        bitBuffer := 0
        bitCount := 0
        inCursor := cursor + 4 + len
        out := state.out ++ (state.input.drop (cursor + 4)).take len }

/-- `fixed_lengths`. -/
def fixedLengths : List ℕ :=
  List.replicate 144 8 ++ List.replicate 112 9 ++ List.replicate 24 7 ++ List.replicate 8 8

/-- `fixed_distances`. -/
def fixedDistances : List ℕ := List.replicate kMaxDists 5

/-- `order`. -/
def order : List ℕ := [16, 17, 18, 0, 8, 7, 9, 6, 10, 5, 11, 4, 12, 3, 13, 2, 14, 1, 15]

/-- The lengths of the code length code, for the given places of `code_lengths`. -/
def readCodeLengths (state : Inflater) (codeLengths : List ℕ) :
    List ℕ → Outcome (List ℕ × Inflater)
  | [] => return (codeLengths, state)
  | place :: places => do
    let (value, state) ← bits state 3
    readCodeLengths state (codeLengths.set place value) places

/-- What a symbol from 16 on stands for: a value, and how often it is repeated. -/
def readRepeat (state : Inflater) (lengths : List ℕ) (symbol : ℕ) :
    Outcome ((ℕ × ℕ) × Inflater) :=
  if symbol = 16 then
    match lengths.getLast? with
    | none => .error (.returned (-3))
    | some value => do
      let (repeats, state) ← bits state 2
      return ((value, repeats + 3), state)
  else if symbol = 17 then do
    let (repeats, state) ← bits state 3
    return ((0, repeats + 3), state)
  else do
    let (repeats, state) ← bits state 7
    return ((0, repeats + 11), state)

/-- One round of the loop over `lengths`, which is the list of the lengths up to `index`. -/
def readLength (state : Inflater) (codeTable : Huffman) (total : ℕ) (lengths : List ℕ) :
    Outcome (List ℕ × Inflater) := do
  let (symbol, state) ← decodeSymbol state codeTable
  if symbol < 16 then return (lengths ++ [symbol], state)
  else
    let ((value, repeats), state) ← readRepeat state lengths symbol
    if lengths.length + repeats > total then .error (.returned (-4))
    else return (lengths ++ List.replicate repeats value, state)

theorem remaining_readCodeLengths {places : List ℕ} :
    ∀ {state state' : Inflater} {codeLengths result : List ℕ},
      readCodeLengths state codeLengths places = .ok (result, state') →
      state'.remaining ≤ state.remaining := by
  induction places with
  | nil =>
    intro state state' codeLengths result h
    obtain ⟨-, rfl⟩ := Prod.mk.inj (Except.ok.inj h)
    exact Nat.le_refl _
  | cons place places ih =>
    intro state state' codeLengths result h
    rw [readCodeLengths] at h
    obtain ⟨⟨value, next⟩, hbits, h⟩ := bind_eq_ok.mp h
    have hrem := remaining_bits hbits
    exact (ih h).trans (by omega)

theorem remaining_readRepeat {state state' : Inflater} {lengths : List ℕ} {symbol : ℕ}
    {result : ℕ × ℕ} (h : readRepeat state lengths symbol = .ok (result, state')) :
    state'.remaining ≤ state.remaining := by
  have hread : ∃ need n, bits state need = .ok (n, state') := by
    rw [readRepeat] at h
    split at h
    · split at h
      · cases h
      · obtain ⟨⟨n, next⟩, hbits, hret⟩ := bind_eq_ok.mp h
        obtain ⟨-, rfl⟩ := Prod.mk.inj (Except.ok.inj hret)
        exact ⟨2, n, hbits⟩
    · split at h
      · obtain ⟨⟨n, next⟩, hbits, hret⟩ := bind_eq_ok.mp h
        obtain ⟨-, rfl⟩ := Prod.mk.inj (Except.ok.inj hret)
        exact ⟨3, n, hbits⟩
      · obtain ⟨⟨n, next⟩, hbits, hret⟩ := bind_eq_ok.mp h
        obtain ⟨-, rfl⟩ := Prod.mk.inj (Except.ok.inj hret)
        exact ⟨7, n, hbits⟩
  obtain ⟨need, n, hbits⟩ := hread
  have hrem := remaining_bits hbits
  omega

theorem remaining_readLength {state state' : Inflater} {codeTable : Huffman} {total : ℕ}
    {lengths result : List ℕ} (h : readLength state codeTable total lengths = .ok (result, state')) :
    state'.remaining < state.remaining := by
  rw [readLength] at h
  obtain ⟨⟨symbol, next⟩, hsymbol, h⟩ := bind_eq_ok.mp h
  have hlt := remaining_decodeSymbol hsymbol
  dsimp only at h
  split at h
  · obtain ⟨-, rfl⟩ := Prod.mk.inj (Except.ok.inj h)
    exact hlt
  · obtain ⟨⟨⟨value, repeats⟩, last⟩, hrepeat, h⟩ := bind_eq_ok.mp h
    have hle := remaining_readRepeat hrepeat
    dsimp only at h
    split at h
    · cases h
    · obtain ⟨-, rfl⟩ := Prod.mk.inj (Except.ok.inj h)
      exact hle.trans_lt hlt

/-- The loop over `lengths`. -/
def readLengths (state : Inflater) (codeTable : Huffman) (total : ℕ) (lengths : List ℕ) :
    Outcome (List ℕ × Inflater) :=
  if lengths.length < total then
    match _h : readLength state codeTable total lengths with
    | .error e => .error e
    | .ok (lengths, next) => readLengths next codeTable total lengths
  else .ok (lengths, state)
termination_by state.remaining
decreasing_by exact remaining_readLength _h

theorem remaining_readLengths {state state' : Inflater} {codeTable : Huffman} {total : ℕ}
    {lengths result : List ℕ}
    (h : readLengths state codeTable total lengths = .ok (result, state')) :
    state'.remaining ≤ state.remaining := by
  induction hn : state.remaining using Nat.strongRecOn generalizing state lengths with
  | ind n ih =>
    rw [readLengths] at h
    split at h
    · split at h
      · cases h
      · rename_i hread
        have hlt := remaining_readLength hread
        exact (ih _ (hn ▸ hlt) h rfl).trans (hn ▸ hlt.le)
    · obtain ⟨-, rfl⟩ := Prod.mk.inj (Except.ok.inj h)
      exact hn.le

theorem remaining_inflateBlock {state state' : Inflater} {lengthTable distanceTable : Huffman}
    (h : inflateBlock state lengthTable distanceTable = .ok state') :
    state'.remaining < state.remaining := by
  induction hn : state.remaining using Nat.strongRecOn generalizing state with
  | ind n ih =>
    rw [inflateBlock] at h
    split at h
    · cases h
    · rename_i hstep
      have hlt := remaining_inflateSymbol hstep
      exact (ih _ (hn ▸ hlt) h rfl).trans (hn ▸ hlt)
    · rename_i hstep
      rw [← Except.ok.inj h]
      exact hn ▸ remaining_inflateSymbol hstep

/-- The two tables of `inflate_codes`, which live across the blocks. -/
structure Tables where
  lengthTable : Huffman := {}
  distanceTable : Huffman := {}
  deriving DecidableEq, Repr

/-- The returned `int` of a call that stops the caller unless it is zero. -/
def check (result : Int) : Outcome Unit := if result ≠ 0 then .error (.returned result) else .ok ()

/-- The header of a dynamic block: the lengths of its two codes. -/
def readHeader (state : Inflater) : Outcome ((List ℕ × List ℕ) × Inflater) := do
  let (hlit, state) ← bits state 5
  let (hdist, state) ← bits state 5
  let (hclen, state) ← bits state 4
  let hlit := hlit + 257
  let hdist := hdist + 1
  let hclen := hclen + 4
  if hlit > kMaxLens ∨ hdist > kMaxDists then .error (.returned (-2))
  else
    let (codeLengths, state) ← readCodeLengths state (List.replicate 19 0) (order.take hclen)
    let (result, codeTable) := construct {} codeLengths
    check result
    let (lengths, state) ← readLengths state codeTable (hlit + hdist) []
    return ((lengths.take hlit, (lengths.drop hlit).take hdist), state)

/-- One round of the loop of `inflate_codes`: whether the block was the last one, and what it
leaves. -/
def inflateOne (state : Inflater) (tables : Tables) : Outcome (Bool × Tables × Inflater) := do
  let (last, state) ← bits state 1
  let (type, state) ← bits state 2
  if type = 0 then
    let state ← storedBlock state
    return (last ≠ 0, tables, state)
  else if type = 1 then
    -- what `construct` returns is ignored here: the distance code leaves two words unused
    let lengthTable := (construct tables.lengthTable fixedLengths).2
    let distanceTable := (construct tables.distanceTable fixedDistances).2
    let state ← inflateBlock state lengthTable distanceTable
    return (last ≠ 0, { lengthTable, distanceTable }, state)
  else if type = 2 then
    let ((lengths, distances), state) ← readHeader state
    let (result, lengthTable) := construct tables.lengthTable lengths
    check result
    let (result, distanceTable) := construct tables.distanceTable distances
    check result
    let state ← inflateBlock state lengthTable distanceTable
    return (last ≠ 0, { lengthTable, distanceTable }, state)
  else .error (.returned (-8))

theorem remaining_storedBlock {state state' : Inflater} (h : storedBlock state = .ok state') :
    state'.remaining ≤ state.remaining := by
  rw [storedBlock] at h
  split at h
  · cases h
  · dsimp only at h
    split at h
    · cases h
    · split at h
      · cases h
      · rw [← Except.ok.inj h, Inflater.remaining, Inflater.remaining]
        dsimp only
        omega

theorem remaining_readHeader {state state' : Inflater} {result : List ℕ × List ℕ}
    (h : readHeader state = .ok (result, state')) : state'.remaining ≤ state.remaining := by
  rw [readHeader] at h
  obtain ⟨⟨hlit, s₁⟩, h₁, h⟩ := bind_eq_ok.mp h
  obtain ⟨⟨hdist, s₂⟩, h₂, h⟩ := bind_eq_ok.mp h
  obtain ⟨⟨hclen, s₃⟩, h₃, h⟩ := bind_eq_ok.mp h
  have hrem₁ := remaining_bits h₁
  have hrem₂ := remaining_bits h₂
  have hrem₃ := remaining_bits h₃
  dsimp only at h hrem₂ hrem₃
  split at h
  · cases h
  · obtain ⟨⟨codeLengths, s₄⟩, h₄, h⟩ := bind_eq_ok.mp h
    obtain ⟨-, -, h⟩ := bind_eq_ok.mp h
    obtain ⟨⟨lengths, s₅⟩, h₅, h⟩ := bind_eq_ok.mp h
    have hrem₄ := remaining_readCodeLengths h₄
    have hrem₅ := remaining_readLengths h₅
    obtain ⟨-, rfl⟩ := Prod.mk.inj (Except.ok.inj h)
    dsimp only at hrem₅ ⊢
    omega

/-- **A block takes at least its three first bits.** -/
theorem remaining_inflateOne {state state' : Inflater} {tables tables' : Tables} {last : Bool}
    (h : inflateOne state tables = .ok (last, tables', state')) :
    state'.remaining < state.remaining := by
  rw [inflateOne] at h
  obtain ⟨⟨lastBit, s₁⟩, h₁, h⟩ := bind_eq_ok.mp h
  obtain ⟨⟨type, s₂⟩, h₂, h⟩ := bind_eq_ok.mp h
  have hrem₁ := remaining_bits h₁
  have hrem₂ := remaining_bits h₂
  dsimp only at h hrem₂
  split at h
  · obtain ⟨s₃, h₃, h⟩ := bind_eq_ok.mp h
    obtain ⟨-, hret⟩ := Prod.mk.inj (Except.ok.inj h)
    obtain ⟨-, rfl⟩ := Prod.mk.inj hret
    have hrem₃ := remaining_storedBlock h₃
    omega
  · split at h
    · obtain ⟨s₃, h₃, h⟩ := bind_eq_ok.mp h
      obtain ⟨-, hret⟩ := Prod.mk.inj (Except.ok.inj h)
      obtain ⟨-, rfl⟩ := Prod.mk.inj hret
      have hrem₃ := remaining_inflateBlock h₃
      omega
    · split at h
      · obtain ⟨⟨⟨lengths, distances⟩, s₃⟩, h₃, h⟩ := bind_eq_ok.mp h
        obtain ⟨-, -, h⟩ := bind_eq_ok.mp h
        obtain ⟨-, -, h⟩ := bind_eq_ok.mp h
        obtain ⟨s₄, h₄, h⟩ := bind_eq_ok.mp h
        obtain ⟨-, hret⟩ := Prod.mk.inj (Except.ok.inj h)
        obtain ⟨-, rfl⟩ := Prod.mk.inj hret
        have hrem₃ := remaining_readHeader h₃
        have hrem₄ := remaining_inflateBlock h₄
        dsimp only at hrem₄
        omega
      · cases h

/-- The loop of `inflate_codes`. -/
def inflateLoop (state : Inflater) (tables : Tables) : Outcome Inflater :=
  match _h : inflateOne state tables with
  | .error e => .error e
  | .ok (true, _, next) => .ok next
  | .ok (false, tables, next) => inflateLoop next tables
termination_by state.remaining
decreasing_by exact remaining_inflateOne _h

/-- `inflate_codes`: zero is returned exactly when there is a result. -/
def inflateCodes (state : Inflater) (data : Bytes) : Outcome Inflater :=
  inflateLoop { state with input := data, inCursor := 0, bitBuffer := 0, bitCount := 0 } {}

end Aetheris.Png
