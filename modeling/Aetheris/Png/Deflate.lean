import Aetheris.Bytes
import Aetheris.Library.CanonicalCode

/-!
# DEFLATE streams

What RFC 1951 means, apart from any decoder: a stream is a list of blocks, it is written as a string
of bits, and it stands for a string of bytes.  The bits of a byte are read from the least
significant one on; so are numbers, while the words of the codes start with their most significant
bit.

A block is stored or a list of items, literal bytes and back-references, under fixed or under
described codes.  Its codes need not be complete: a stream is valid as soon as they are not
over-subscribed and have words for what is written with them.
-/

namespace Aetheris.Png

open BitString CanonicalCode

/-- The bits of a string of bytes. -/
def bytesBits (data : Bytes) : List Bool := data.flatMap fun byte => littleEndian 8 byte.toNat

namespace Deflate

/-- The greatest length of a code word. -/
def maxBits : ℕ := 15

/-! ## Items -/

/-- How many extra bits follow the length symbol `257 + i`. -/
def lengthExtraBits (i : ℕ) : ℕ := if i < 8 ∨ i = 28 then 0 else i / 4 - 1

/-- The least length of the length symbol `257 + i`; each symbol covers the lengths of its extra
bits, and the last one stands for the greatest length alone. -/
def lengthStart (i : ℕ) : ℕ :=
  if i = 28 then 258 else 3 + ((List.range i).map fun j => 2 ^ lengthExtraBits j).sum

/-- How many extra bits follow the distance symbol `i`. -/
def distanceExtraBits (i : ℕ) : ℕ := i / 2 - 1

/-- The least distance of the distance symbol `i`. -/
def distanceStart (i : ℕ) : ℕ := 1 + ((List.range i).map fun j => 2 ^ distanceExtraBits j).sum

/-- A back-reference as it is written. -/
structure Copy where
  lengthSymbol : Fin 29
  lengthRest : Fin (2 ^ lengthExtraBits lengthSymbol)
  distanceSymbol : Fin 30
  distanceRest : Fin (2 ^ distanceExtraBits distanceSymbol)

def Copy.length (c : Copy) : ℕ := lengthStart c.lengthSymbol + c.lengthRest

def Copy.distance (c : Copy) : ℕ := distanceStart c.distanceSymbol + c.distanceRest

theorem Copy.distance_pos (c : Copy) : 0 < c.distance := by
  rw [Copy.distance, distanceStart]
  omega

/-- One entry of a compressed block. -/
inductive Item
  | literal (byte : Byte)
  | copy (c : Copy)

/-- The bytes that a back-reference adds: the bytes at the distance, over and over if it is less
than the length. -/
def copied (out : Bytes) (distance length : ℕ) : Bytes :=
  (List.range length).map fun i => out.getD (out.length - distance + i % distance) 0

/-- The output after an item. -/
def Item.append (out : Bytes) : Item → Bytes
  | .literal byte => out ++ [byte]
  | .copy c => out ++ copied out c.distance c.length

/-- A back-reference does not reach beyond the start of the output. -/
def Item.InRange (out : Bytes) : Item → Prop
  | .literal _ => True
  | .copy c => c.distance ≤ out.length

/-- The codes have words for the item. -/
def Item.Coded (lengths distances : List ℕ) : Item → Prop
  | .literal byte => width lengths byte.toNat ≠ 0
  | .copy c => width lengths (257 + c.lengthSymbol) ≠ 0 ∧ width distances c.distanceSymbol ≠ 0

instance (out : Bytes) : (item : Item) → Decidable (item.InRange out)
  | .literal _ => inferInstanceAs (Decidable True)
  | .copy _ => inferInstanceAs (Decidable (_ ≤ _))

instance (lengths distances : List ℕ) : (item : Item) → Decidable (item.Coded lengths distances)
  | .literal _ => inferInstanceAs (Decidable (_ ≠ _))
  | .copy _ => inferInstanceAs (Decidable (_ ∧ _))

/-- An item in the two codes of its block. -/
def Item.bits (lengths distances : List ℕ) : Item → List Bool
  | .literal byte => word lengths byte.toNat
  | .copy c =>
    word lengths (257 + c.lengthSymbol) ++
      (littleEndian (lengthExtraBits c.lengthSymbol) c.lengthRest ++
        (word distances c.distanceSymbol ++
          littleEndian (distanceExtraBits c.distanceSymbol) c.distanceRest))

/-- The items of a block can be written, one after the other, where the output is `out`. -/
def ItemsValid (lengths distances : List ℕ) : Bytes → List Item → Prop
  | _, [] => True
  | out, item :: items =>
    item.Coded lengths distances ∧ item.InRange out ∧
      ItemsValid lengths distances (item.append out) items

instance decidableItemsValid (lengths distances : List ℕ) :
    (out : Bytes) → (items : List Item) → Decidable (ItemsValid lengths distances out items)
  | _, [] => inferInstanceAs (Decidable True)
  | out, item :: items =>
    have := decidableItemsValid lengths distances (item.append out) items
    inferInstanceAs (Decidable (_ ∧ _ ∧ _))

/-- The output after the items of a block. -/
def itemsOutput (out : Bytes) (items : List Item) : Bytes := items.foldl Item.append out

/-- The items of a block and the end-of-block symbol. -/
def itemsBits (lengths distances : List ℕ) (items : List Item) : List Bool :=
  items.flatMap (Item.bits lengths distances) ++ word lengths 256

/-! ## Blocks -/

/-- One entry of the description of the codes. -/
inductive LengthOp
  /-- A length. -/
  | length (ℓ : Fin 16)
  /-- Three to six times the previous length. -/
  | copyPrevious (n : Fin 4)
  /-- Three to ten zeros. -/
  | zeros (n : Fin 8)
  /-- Eleven to 138 zeros. -/
  | manyZeros (n : Fin 128)

/-- The symbol of an entry in the code length code. -/
def LengthOp.symbol : LengthOp → ℕ
  | .length ℓ => ℓ
  | .copyPrevious _ => 16
  | .zeros _ => 17
  | .manyZeros _ => 18

/-- What follows the symbol of an entry. -/
def LengthOp.extraBits : LengthOp → List Bool
  | .length _ => []
  | .copyPrevious n => littleEndian 2 n
  | .zeros n => littleEndian 3 n
  | .manyZeros n => littleEndian 7 n

/-- The lengths after an entry; there is no previous length at the start. -/
def LengthOp.apply (lengths : List ℕ) : LengthOp → Option (List ℕ)
  | .length ℓ => some (lengths ++ [ℓ.val])
  | .copyPrevious n => lengths.getLast?.map fun ℓ => lengths ++ List.replicate (n + 3) ℓ
  | .zeros n => some (lengths ++ List.replicate (n + 3) 0)
  | .manyZeros n => some (lengths ++ List.replicate (n + 11) 0)

/-- The order in which the lengths of the code length code are written. -/
def codeLengthOrder : List ℕ :=
  [16, 17, 18, 0, 8, 7, 9, 6, 10, 5, 11, 4, 12, 3, 13, 2, 14, 1, 15]

/-- The two codes of a dynamic block, and how they are described. -/
structure Header where
  /-- The literal/length code. -/
  lengths : List ℕ
  /-- The distance code. -/
  distances : List ℕ
  /-- The code length code. -/
  codeLengths : List ℕ
  /-- How many lengths of the code length code are written. -/
  written : ℕ
  ops : List LengthOp
  length_lengths : 257 ≤ lengths.length ∧ lengths.length ≤ 286
  length_distances : 1 ≤ distances.length ∧ distances.length ≤ 32
  length_codeLengths : codeLengths.length = 19
  written_range : 4 ≤ written ∧ written ≤ 19
  unwritten : ∀ place ∈ codeLengthOrder.drop written, width codeLengths place = 0
  codeLengths_lt : ∀ ℓ ∈ codeLengths, ℓ < 8
  codeLengths_fits : Fits codeLengths maxBits
  lengths_fits : Fits lengths maxBits
  distances_fits : Fits distances maxBits
  ops_coded : ∀ op ∈ ops, width codeLengths op.symbol ≠ 0
  ops_lengths : ops.foldlM LengthOp.apply [] = some (lengths ++ distances)
  endOfBlock_coded : width lengths 256 ≠ 0

def Header.bits (header : Header) : List Bool :=
  littleEndian 5 (header.lengths.length - 257) ++
    (littleEndian 5 (header.distances.length - 1) ++
      (littleEndian 4 (header.written - 4) ++
        ((codeLengthOrder.take header.written).flatMap
            (fun place => littleEndian 3 (width header.codeLengths place)) ++
          header.ops.flatMap fun op => word header.codeLengths op.symbol ++ op.extraBits)))

/-- The literal/length code of fixed blocks. -/
def fixedLengthCode : List ℕ :=
  List.replicate 144 8 ++ List.replicate 112 9 ++ List.replicate 24 7 ++ List.replicate 8 8

/-- The distance code of fixed blocks; its last two words do not occur. -/
def fixedDistanceCode : List ℕ := List.replicate 32 5

inductive Block
  /-- The bits up to the next byte, and some bytes. -/
  | stored (padding : List Bool) (data : Bytes)
  | fixed (items : List Item)
  | dynamic (header : Header) (items : List Item)

/-- `BTYPE`. -/
def Block.type : Block → ℕ
  | .stored _ _ => 0
  | .fixed _ => 1
  | .dynamic _ _ => 2

/-- What follows the three first bits of a block. -/
def Block.body : Block → List Bool
  | .stored padding data =>
    padding ++ (littleEndian 16 data.length ++
      (littleEndian 16 (2 ^ 16 - 1 - data.length) ++ bytesBits data))
  | .fixed items => itemsBits fixedLengthCode fixedDistanceCode items
  | .dynamic header items => header.bits ++ itemsBits header.lengths header.distances items

/-- The output after a block. -/
def Block.output (out : Bytes) : Block → Bytes
  | .stored _ data => out ++ data
  | .fixed items => itemsOutput out items
  | .dynamic _ items => itemsOutput out items

/-- A block can be written from a bit position on, where the output is `out`. -/
def Block.Valid (position : ℕ) (out : Bytes) : Block → Prop
  | .stored padding data =>
    (position + 3 + padding.length) % 8 = 0 ∧ padding.length < 8 ∧ data.length < 2 ^ 16
  | .fixed items => ItemsValid fixedLengthCode fixedDistanceCode out items
  | .dynamic header items => ItemsValid header.lengths header.distances out items

instance (position : ℕ) (out : Bytes) : (block : Block) → Decidable (block.Valid position out)
  | .stored _ _ => inferInstanceAs (Decidable (_ ∧ _ ∧ _))
  | .fixed _ => inferInstanceAs (Decidable (ItemsValid _ _ _ _))
  | .dynamic _ _ => inferInstanceAs (Decidable (ItemsValid _ _ _ _))

/-! ## Streams -/

/-- Blocks, one after the other; the last one says that it is. -/
def blocksBits : List Block → List Bool
  | [] => []
  | block :: blocks =>
    blocks.isEmpty :: (littleEndian 2 block.type ++ (block.body ++ blocksBits blocks))

/-- The output after some blocks. -/
def blocksOutput (out : Bytes) (blocks : List Block) : Bytes := blocks.foldl Block.output out

/-- Blocks can be written one after the other. -/
def BlocksValid : ℕ → Bytes → List Block → Prop
  | _, _, [] => True
  | position, out, block :: blocks =>
    block.Valid position out ∧
      BlocksValid (position + 3 + block.body.length) (block.output out) blocks

instance decidableBlocksValid :
    (position : ℕ) → (out : Bytes) → (blocks : List Block) →
      Decidable (BlocksValid position out blocks)
  | _, _, [] => inferInstanceAs (Decidable True)
  | position, out, block :: blocks =>
    have := decidableBlocksValid (position + 3 + block.body.length) (block.output out) blocks
    inferInstanceAs (Decidable (_ ∧ _))

/-- **A DEFLATE stream.** -/
structure Stream where
  blocks : List Block
  blocks_ne_nil : blocks ≠ []
  valid : BlocksValid 0 [] blocks

def Stream.bits (stream : Stream) : List Bool := blocksBits stream.blocks

/-- The bytes that the stream stands for. -/
def Stream.output (stream : Stream) : Bytes := blocksOutput [] stream.blocks

end Deflate

end Aetheris.Png
