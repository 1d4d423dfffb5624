import Aetheris.Png.HuffmanTable

/-!
# Which DEFLATE streams are inflated

The inflater follows the format but for three tests of its own.  It takes no code that leaves words
unused, as the distance code with a single word of one bit does; it takes no more than thirty
lengths for the distance code, though the header has room for 32; and it compares a distance with
the size of its output as a 32-bit `int`.  A stream is inflated, to the bytes that it stands for,
exactly if none of them turns it down.

The parts of a block are followed one by one.  Each is read as it was written, or a test turns the
stream down there, and by induction over the items and the blocks this is so for the stream.
-/

namespace Aetheris.Png

open BitString CanonicalCode Deflate

/-! ## The tests of the inflater -/

namespace Deflate

/-- The distance is not too far for the size of the output as an `int`. -/
def Item.Accepted (out : Bytes) : Item → Prop
  | .literal _ => True
  | .copy c => ¬ tooFar c.distance out.length

instance (out : Bytes) : (item : Item) → Decidable (item.Accepted out)
  | .literal _ => inferInstanceAs (Decidable True)
  | .copy _ => inferInstanceAs (Decidable (¬ _))

def ItemsAccepted : Bytes → List Item → Prop
  | _, [] => True
  | out, item :: items => item.Accepted out ∧ ItemsAccepted (item.append out) items

instance decidableItemsAccepted :
    (out : Bytes) → (items : List Item) → Decidable (ItemsAccepted out items)
  | _, [] => inferInstanceAs (Decidable True)
  | out, item :: items =>
    have := decidableItemsAccepted (item.append out) items
    inferInstanceAs (Decidable (_ ∧ _))

/-- A code that leaves no word unused, or has no word. -/
def Settled (lengths : List ℕ) : Prop := Complete lengths kMaxBits ∨ Unused lengths

instance (lengths : List ℕ) : Decidable (Settled lengths) :=
  inferInstanceAs (Decidable (_ ∨ _))

def Header.Accepted (header : Header) : Prop :=
  header.distances.length ≤ kMaxDists ∧ Settled header.codeLengths ∧ Settled header.lengths ∧
    Settled header.distances

def Block.Accepted (out : Bytes) : Block → Prop
  | .stored _ _ => True
  | .fixed items => ItemsAccepted out items
  | .dynamic header items => header.Accepted ∧ ItemsAccepted out items

instance (header : Header) : Decidable header.Accepted :=
  inferInstanceAs (Decidable (_ ∧ _ ∧ _ ∧ _))

instance (out : Bytes) : (block : Block) → Decidable (block.Accepted out)
  | .stored _ _ => inferInstanceAs (Decidable True)
  | .fixed _ => inferInstanceAs (Decidable (ItemsAccepted _ _))
  | .dynamic _ _ => inferInstanceAs (Decidable (_ ∧ _))

def BlocksAccepted : Bytes → List Block → Prop
  | _, [] => True
  | out, block :: blocks => block.Accepted out ∧ BlocksAccepted (block.output out) blocks

instance decidableBlocksAccepted :
    (out : Bytes) → (blocks : List Block) → Decidable (BlocksAccepted out blocks)
  | _, [] => inferInstanceAs (Decidable True)
  | out, block :: blocks =>
    have := decidableBlocksAccepted (block.output out) blocks
    inferInstanceAs (Decidable (_ ∧ _))

/-- **No test of the inflater turns the stream down.** -/
def Stream.Accepted (stream : Stream) : Prop := BlocksAccepted [] stream.blocks

instance (stream : Stream) : Decidable stream.Accepted :=
  inferInstanceAs (Decidable (BlocksAccepted _ _))

end Deflate

variable {data : Bytes} {state : Inflater} {rest : List Bool} {out : Bytes}

theorem ok_bind {α β : Type} (a : α) (f : α → Outcome β) :
    ((Except.ok a : Outcome α) >>= f) = f a := rfl

theorem error_bind {α β : Type} (e : Fault) (f : α → Outcome β) :
    ((Except.error e : Outcome α) >>= f) = .error e := rfl

/-! ## Back-references -/

theorem lengthBase_getD : ∀ i < 29, lengthBase.getD i 0 = lengthStart i := by decide

theorem lengthExtra_getD : ∀ i < 29, lengthExtra.getD i 0 = lengthExtraBits i := by decide

theorem distanceBase_getD : ∀ i < 30, distanceBase.getD i 0 = distanceStart i := by
  decide

theorem distanceExtra_getD : ∀ i < 30, distanceExtra.getD i 0 = distanceExtraBits i := by decide

theorem copied_succ (out : Bytes) (distance n : ℕ) :
    copied out distance (n + 1) =
      copied out distance n ++ [out.getD (out.length - distance + n % distance) 0] := by
  rw [copied, List.range_succ, List.map_append, ← copied]
  rfl

/-- The copying loop, by induction on the bytes to come: the byte at the distance is the next
one of the periodic sequence. -/
theorem copyBytes_copied {distance : ℕ} (hpos : 0 < distance) (hle : distance ≤ out.length)
    (length done : ℕ) :
    copyBytes (out ++ copied out distance done) distance length =
      out ++ copied out distance (done + length) := by
  induction length generalizing done with
  | zero => rfl
  | succ length ih =>
    have hsize : (copied out distance done).length = done := by
      rw [copied, List.length_map, List.length_range]
    have hbyte : (out ++ copied out distance done).getD
        ((out ++ copied out distance done).length - distance) 0 =
          out.getD (out.length - distance + done % distance) 0 := by
      rw [List.length_append, hsize, List.getD_eq_getElem?_getD, List.getD_eq_getElem?_getD]
      by_cases hlt : done < distance
      · rw [List.getElem?_append_left (by omega), Nat.mod_eq_of_lt hlt]
        congr 2
        omega
      · have hmod : done % distance = (done - distance) % distance := by
          rw [Nat.mod_eq_sub_mod (Nat.le_of_not_lt hlt)]
        have hindex : out.length + done - distance - out.length = done - distance := by omega
        rw [List.getElem?_append_right (by omega), hindex, copied, List.getElem?_map,
          List.getElem?_range (by omega), Option.map_some, Option.getD_some, hmod,
          List.getD_eq_getElem?_getD]
    rw [copyBytes, hbyte, List.append_assoc, ← copied_succ, ih (done + 1)]
    congr 2
    omega

/-- What a call makes of something that the tests of the inflater let pass or not: the call
fails, or what is left to read is `rest` and the output is `out`. -/
def Ends (accepted : Prop) (result : Outcome Inflater) (data : Bytes) (rest : List Bool)
    (out : Bytes) : Prop :=
  (accepted → ∃ state, result = .ok state ∧ Reading data state rest out) ∧
    (¬ accepted → ∃ e, result = .error e)

theorem Ends.of_error {accepted : Prop} {result : Outcome Inflater} (hnot : ¬ accepted) {e : Fault}
    (h : result = .error e) : Ends accepted result data rest out :=
  ⟨fun hacc => absurd hacc hnot, fun _ => ⟨e, h⟩⟩

theorem Ends.of_ok {accepted : Prop} {result : Outcome Inflater} (hacc : accepted)
    (h : result = .ok state) (hreading : Reading data state rest out) :
    Ends accepted result data rest out :=
  ⟨fun _ => ⟨state, h, hreading⟩, fun hnot => absurd hacc hnot⟩

theorem Reading.withOut (h : Reading data state rest out) (out' : Bytes) :
    Reading data { state with out := out' } rest out' :=
  ⟨h.input_eq, h.cursor_le, h.buffer_lt, h.count_lt, h.rest_eq, rfl⟩

/-- **A back-reference is copied, or it is found too far.** -/
theorem Reading.copyMatch {distances : List ℕ} {distanceTable : Huffman} {c : Copy}
    (htable : Represents distanceTable distances) (hfits : Fits distances kMaxBits)
    (hcoded : width distances c.distanceSymbol ≠ 0) (hrange : c.distance ≤ out.length)
    (h : Reading data state
      (littleEndian (lengthExtraBits c.lengthSymbol) c.lengthRest ++
        (word distances c.distanceSymbol ++
          (littleEndian (distanceExtraBits c.distanceSymbol) c.distanceRest ++ rest))) out) :
    Ends (¬ tooFar c.distance out.length) (Png.copyMatch state c.lengthSymbol distanceTable)
      data rest (out ++ copied out c.distance c.length) := by
  obtain ⟨s₁, h₁, hr₁⟩ := h.bits c.lengthRest.isLt
  obtain ⟨s₂, h₂, hr₂⟩ := hr₁.decodeSymbol htable hfits hcoded
  obtain ⟨s₃, h₃, hr₃⟩ := hr₂.bits c.distanceRest.isLt
  have hresult : Png.copyMatch state c.lengthSymbol distanceTable =
      if tooFar c.distance out.length then .error (.returned (-12))
      else .ok { s₃ with out := out ++ copied out c.distance c.length } := by
    have hcopy := copyBytes_copied c.distance_pos hrange c.length 0
    rw [copied, List.range_zero, List.map_nil, List.append_nil, Nat.zero_add] at hcopy
    rw [Png.copyMatch, if_neg (Nat.not_le.mpr c.lengthSymbol.isLt),
      lengthExtra_getD _ c.lengthSymbol.isLt, h₁, ok_bind]
    dsimp only
    rw [h₂, ok_bind]
    dsimp only
    rw [if_neg (Nat.not_le.mpr c.distanceSymbol.isLt),
      distanceExtra_getD _ c.distanceSymbol.isLt, h₃, ok_bind]
    dsimp only
    rw [lengthBase_getD _ c.lengthSymbol.isLt, distanceBase_getD _ c.distanceSymbol.isLt,
      hr₃.out_eq, ← Copy.length, ← Copy.distance, hcopy]
    rfl
  by_cases hfar : tooFar c.distance out.length
  · exact Ends.of_error (not_not.mpr hfar) (hresult.trans (if_pos hfar))
  · exact Ends.of_ok hfar (hresult.trans (if_neg hfar)) (hr₃.withOut _)

/-! ## The items of a block -/

theorem inflateBlock_eq (state : Inflater) (lengthTable distanceTable : Huffman) :
    inflateBlock state lengthTable distanceTable =
      match inflateSymbol state lengthTable distanceTable with
      | .error e => .error e
      | .ok (true, next) => inflateBlock next lengthTable distanceTable
      | .ok (false, next) => .ok next := by
  rw [inflateBlock]
  split
  · rename_i h
    rw [h]
  · rename_i h
    rw [h]
  · rename_i h
    rw [h]

section

variable {lengths distances : List ℕ} {lengthTable distanceTable : Huffman}

/-- One item is inflated, or its distance is found too far. -/
theorem Reading.inflateSymbol (hlengths : Represents lengthTable lengths)
    (hdistances : Represents distanceTable distances) (hfits : Fits lengths kMaxBits)
    (hfits' : Fits distances kMaxBits) {item : Item} (hcoded : item.Coded lengths distances)
    (hrange : item.InRange out)
    (h : Reading data state (item.bits lengths distances ++ rest) out) :
    (item.Accepted out → ∃ next,
      Png.inflateSymbol state lengthTable distanceTable = .ok (true, next) ∧
        Reading data next rest (item.append out)) ∧
      (¬ item.Accepted out → ∃ e,
        Png.inflateSymbol state lengthTable distanceTable = .error e) := by
  cases item with
  | literal byte =>
    obtain ⟨next, hnext, hreading⟩ := h.decodeSymbol hlengths hfits hcoded
    refine ⟨fun _ => ?_, fun hnot => absurd trivial hnot⟩
    refine ⟨{ next with out := next.out ++ [UInt8.ofNat byte.toNat] }, ?_, ?_⟩
    · rw [Png.inflateSymbol, hnext, ok_bind]
      dsimp only
      rw [if_pos byte.toNat_lt]
      rfl
    · rw [hreading.out_eq, UInt8.ofNat_toNat]
      exact hreading.withOut _
  | copy c =>
    rw [Item.bits, List.append_assoc, List.append_assoc, List.append_assoc] at h
    obtain ⟨next, hnext, hreading⟩ := h.decodeSymbol hlengths hfits hcoded.1
    have hsymbol : Png.inflateSymbol state lengthTable distanceTable =
        Png.copyMatch next c.lengthSymbol distanceTable >>= fun copied => .ok (true, copied) := by
      rw [Png.inflateSymbol, hnext, ok_bind]
      dsimp only
      rw [if_neg (by omega), if_pos (by omega), Nat.add_sub_cancel_left]
      rfl
    obtain ⟨hok, herror⟩ := hreading.copyMatch hdistances hfits' hcoded.2 hrange
    refine ⟨fun hacc => ?_, fun hnot => ?_⟩
    · obtain ⟨copied, hcopied, hcopy⟩ := hok hacc
      exact ⟨copied, by rw [hsymbol, hcopied, ok_bind], hcopy⟩
    · obtain ⟨e, he⟩ := herror hnot
      exact ⟨e, by rw [hsymbol, he, error_bind]⟩

/-- **The items of a block are inflated, or one of them is found too far**; by induction on the
items. -/
theorem Reading.inflateBlock (hlengths : Represents lengthTable lengths)
    (hdistances : Represents distanceTable distances) (hfits : Fits lengths kMaxBits)
    (hfits' : Fits distances kMaxBits) (hend : width lengths 256 ≠ 0) {items : List Item}
    (hvalid : ItemsValid lengths distances out items)
    (h : Reading data state (itemsBits lengths distances items ++ rest) out) :
    Ends (ItemsAccepted out items) (Png.inflateBlock state lengthTable distanceTable) data rest
      (itemsOutput out items) := by
  induction items generalizing state out with
  | nil =>
    obtain ⟨next, hnext, hreading⟩ := h.decodeSymbol hlengths hfits hend
    refine Ends.of_ok trivial ?_ hreading
    rw [inflateBlock_eq, Png.inflateSymbol, hnext, ok_bind]
    rfl
  | cons item items ih =>
    obtain ⟨hcoded, hrange, hvalid⟩ := hvalid
    rw [itemsBits, List.flatMap_cons, List.append_assoc, List.append_assoc,
      ← List.append_assoc _ _ rest, ← itemsBits] at h
    obtain ⟨hok, herror⟩ := h.inflateSymbol hlengths hdistances hfits hfits' hcoded hrange
    by_cases hacc : item.Accepted out
    · obtain ⟨next, hnext, hreading⟩ := hok hacc
      obtain ⟨hrest, hfail⟩ := ih hvalid hreading
      have heq : Png.inflateBlock state lengthTable distanceTable =
          Png.inflateBlock next lengthTable distanceTable := by
        rw [inflateBlock_eq, hnext]
      rw [Ends, heq]
      exact ⟨fun hall => hrest hall.2, fun hnot => hfail fun hall => hnot ⟨hacc, hall⟩⟩
    · obtain ⟨e, he⟩ := herror hacc
      exact Ends.of_error (fun hall => hacc hall.1) (by rw [inflateBlock_eq, he])

end

/-! ## The description of the codes -/

theorem length_lt_of_apply {op : LengthOp} {lengths lengths' : List ℕ}
    (h : op.apply lengths = some lengths') : lengths.length < lengths'.length := by
  cases op with
  | length ℓ =>
    rw [← Option.some.inj h, List.length_append, List.length_singleton]
    exact Nat.lt_succ_self _
  | copyPrevious n =>
    obtain ⟨ℓ, -, rfl⟩ := Option.map_eq_some_iff.mp h
    rw [List.length_append, List.length_replicate]
    omega
  | zeros n =>
    rw [← Option.some.inj h, List.length_append, List.length_replicate]
    omega
  | manyZeros n =>
    rw [← Option.some.inj h, List.length_append, List.length_replicate]
    omega

theorem length_le_of_foldlM {ops : List LengthOp} {lengths final : List ℕ}
    (h : ops.foldlM LengthOp.apply lengths = some final) : lengths.length ≤ final.length := by
  induction ops generalizing lengths with
  | nil => rw [← Option.some.inj h]
  | cons op ops ih =>
    rw [List.foldlM_cons] at h
    obtain ⟨next, hnext, hrest⟩ := Option.bind_eq_some_iff.mp h
    exact (length_lt_of_apply hnext).le.trans (ih hrest)

/-- A repetition is read. -/
theorem Reading.readRepeat {op : LengthOp} {lengths lengths' : List ℕ}
    (happly : op.apply lengths = some lengths') (hop : 16 ≤ op.symbol)
    (h : Reading data state (op.extraBits ++ rest) out) :
    ∃ value repeats next,
      Png.readRepeat state lengths op.symbol = .ok ((value, repeats), next) ∧
        lengths' = lengths ++ List.replicate repeats value ∧ Reading data next rest out := by
  cases op with
  | length ℓ => exact absurd hop (Nat.not_le.mpr ℓ.isLt)
  | copyPrevious n =>
    obtain ⟨ℓ, hlast, rfl⟩ := Option.map_eq_some_iff.mp happly
    obtain ⟨next, hbits, hreading⟩ := h.bits n.isLt
    refine ⟨ℓ, n + 3, next, ?_, rfl, hreading⟩
    rw [Png.readRepeat, LengthOp.symbol, if_pos rfl, hlast]
    dsimp only
    rw [hbits]
    rfl
  | zeros n =>
    obtain ⟨next, hbits, hreading⟩ := h.bits n.isLt
    refine ⟨0, n + 3, next, ?_, (Option.some.inj happly).symm, hreading⟩
    rw [Png.readRepeat, LengthOp.symbol, if_neg (by decide), if_pos rfl, hbits]
    rfl
  | manyZeros n =>
    obtain ⟨next, hbits, hreading⟩ := h.bits n.isLt
    refine ⟨0, n + 11, next, ?_, (Option.some.inj happly).symm, hreading⟩
    rw [Png.readRepeat, LengthOp.symbol, if_neg (by decide), if_neg (by decide), hbits]
    rfl

section

variable {codeLengths : List ℕ} {codeTable : Huffman}

/-- One entry of the description is read. -/
theorem Reading.readLength (htable : Represents codeTable codeLengths)
    (hfits : Fits codeLengths kMaxBits) {op : LengthOp} (hcoded : width codeLengths op.symbol ≠ 0)
    {lengths lengths' : List ℕ} (happly : op.apply lengths = some lengths') {total : ℕ}
    (htotal : lengths'.length ≤ total)
    (h : Reading data state (word codeLengths op.symbol ++ (op.extraBits ++ rest)) out) :
    ∃ next, Png.readLength state codeTable total lengths = .ok (lengths', next) ∧
      Reading data next rest out := by
  obtain ⟨next, hnext, hreading⟩ := h.decodeSymbol htable hfits hcoded
  rw [Png.readLength, hnext, ok_bind]
  dsimp only
  by_cases hop : op.symbol < 16
  · rw [if_pos hop]
    cases op with
    | length ℓ => exact ⟨next, congrArg (fun l => Except.ok (l, next)) (Option.some.inj happly),
        hreading⟩
    | copyPrevious n => exact absurd hop (by rw [LengthOp.symbol]; decide)
    | zeros n => exact absurd hop (by rw [LengthOp.symbol]; decide)
    | manyZeros n => exact absurd hop (by rw [LengthOp.symbol]; decide)
  · obtain ⟨value, repeats, last, hrepeat, rfl, hlast⟩ :=
      hreading.readRepeat happly (Nat.le_of_not_lt hop)
    rw [List.length_append, List.length_replicate] at htotal
    refine ⟨last, ?_, hlast⟩
    rw [if_neg hop, hrepeat, ok_bind]
    dsimp only
    rw [if_neg (Nat.not_lt.mpr htotal)]
    rfl

theorem readLengths_eq (state : Inflater) (codeTable : Huffman) (total : ℕ) (lengths : List ℕ) :
    Png.readLengths state codeTable total lengths =
      if lengths.length < total then
        match Png.readLength state codeTable total lengths with
        | .error e => .error e
        | .ok (lengths, next) => Png.readLengths next codeTable total lengths
      else .ok (lengths, state) := by
  rw [Png.readLengths]
  split
  · split
    · rename_i h
      rw [h]
    · rename_i h
      rw [h]
  · rfl

/-- The entries of the description are read, by induction on them; none goes past the end. -/
theorem Reading.readLengths (htable : Represents codeTable codeLengths)
    (hfits : Fits codeLengths kMaxBits) {ops : List LengthOp}
    (hcoded : ∀ op ∈ ops, width codeLengths op.symbol ≠ 0) {lengths final : List ℕ}
    (hops : ops.foldlM LengthOp.apply lengths = some final)
    (h : Reading data state
      (ops.flatMap (fun op => word codeLengths op.symbol ++ op.extraBits) ++ rest) out) :
    ∃ next, Png.readLengths state codeTable final.length lengths = .ok (final, next) ∧
      Reading data next rest out := by
  induction ops generalizing state lengths with
  | nil =>
    rw [readLengths_eq, Option.some.inj hops, if_neg (Nat.lt_irrefl _)]
    exact ⟨state, rfl, h⟩
  | cons op ops ih =>
    rw [List.foldlM_cons] at hops
    obtain ⟨lengths', happly, hrest⟩ := Option.bind_eq_some_iff.mp hops
    have hle := length_le_of_foldlM hrest
    rw [List.flatMap_cons, List.append_assoc, List.append_assoc] at h
    obtain ⟨next, hnext, hreading⟩ :=
      h.readLength htable hfits (hcoded op List.mem_cons_self) happly hle
    rw [readLengths_eq, if_pos ((length_lt_of_apply happly).trans_le hle), hnext]
    exact ih (fun op hop => hcoded op (List.mem_cons_of_mem _ hop)) hrest hreading

end

/-- The lengths of the code length code are read to their places, by induction on these. -/
theorem Reading.readCodeLengths {codeLengths : List ℕ} (hlt : ∀ ℓ ∈ codeLengths, ℓ < 8)
    {places : List ℕ} (read : List ℕ)
    (h : Reading data state
      (places.flatMap (fun place => littleEndian 3 (width codeLengths place)) ++ rest) out) :
    ∃ result next, Png.readCodeLengths state read places = .ok (result, next) ∧
      Reading data next rest out ∧ result.length = read.length ∧
      ∀ i < read.length,
        result[i]? = if i ∈ places then some (width codeLengths i) else read[i]? := by
  induction places generalizing state read with
  | nil => exact ⟨read, state, rfl, h, rfl, fun i _ => (if_neg List.not_mem_nil).symm⟩
  | cons place places ih =>
    rw [List.flatMap_cons, List.append_assoc] at h
    have hwidth : width codeLengths place < 2 ^ 3 := by
      by_cases hzero : width codeLengths place = 0
      · rw [hzero]
        decide
      · exact hlt _ (width_mem hzero).2
    obtain ⟨next, hbits, hreading⟩ := h.bits hwidth
    obtain ⟨result, last, hresult, hlast, hsize, hget⟩ := ih _ hreading
    rw [List.length_set] at hsize hget
    refine ⟨result, last, ?_, hlast, hsize, fun i hi => ?_⟩
    · rw [Png.readCodeLengths, hbits, ok_bind]
      exact hresult
    · rw [hget i hi]
      by_cases hmem : i ∈ places
      · rw [if_pos hmem, if_pos (List.mem_cons_of_mem _ hmem)]
      · rw [if_neg hmem, List.getElem?_set]
        by_cases hplace : place = i
        · rw [if_pos hplace, if_pos (hplace ▸ hi), if_pos (hplace ▸ List.mem_cons_self), hplace]
        · rw [if_neg hplace, if_neg]
          exact fun hcons => (List.mem_cons.mp hcons).elim (fun h => hplace h.symm) hmem

/-- Every symbol of the code length code has its place in the order. -/
theorem mem_codeLengthOrder : ∀ i < 19, i ∈ codeLengthOrder := by decide

theorem Represents.ofConstruct (table : Huffman) {lengths : List ℕ} (hfits : Fits lengths kMaxBits)
    (hlength : lengths.length ≤ kMaxLens) (hsize : table.symbol.length = kMaxLens) :
    Represents (construct table lengths).2 lengths :=
  (represents_construct hfits hlength hsize).1

theorem check_construct (table : Huffman) {lengths : List ℕ} (hfits : Fits lengths kMaxBits) :
    (Settled lengths → check (construct table lengths).1 = .ok ()) ∧
      (¬ Settled lengths →
        check (construct table lengths).1 = .error (.returned (construct table lengths).1)) := by
  rw [check]
  refine ⟨fun h => ?_, fun h => ?_⟩
  · rw [if_neg (not_not.mpr ((construct_eq_zero_iff hfits).mpr h))]
  · rw [if_pos fun hzero => h ((construct_eq_zero_iff hfits).mp hzero)]

/-- **The description of the codes is read**, or it is turned down for the number of distances or
for its own code. -/
theorem Reading.readHeader {header : Header}
    (h : Reading data state (header.bits ++ rest) out) :
    (header.distances.length ≤ kMaxDists ∧ Settled header.codeLengths → ∃ next,
      Png.readHeader state = .ok ((header.lengths, header.distances), next) ∧
        Reading data next rest out) ∧
      (¬ (header.distances.length ≤ kMaxDists ∧ Settled header.codeLengths) → ∃ e,
        Png.readHeader state = .error e) := by
  obtain ⟨hlen, hlen'⟩ := header.length_lengths
  obtain ⟨hdist, hdist'⟩ := header.length_distances
  obtain ⟨hwritten, hwritten'⟩ := header.written_range
  rw [Header.bits, List.append_assoc, List.append_assoc, List.append_assoc, List.append_assoc] at h
  obtain ⟨s₁, h₁, hr₁⟩ := h.bits (by omega)
  obtain ⟨s₂, h₂, hr₂⟩ := hr₁.bits (by omega)
  obtain ⟨s₃, h₃, hr₃⟩ := hr₂.bits (by omega)
  obtain ⟨result, s₄, h₄, hr₄, hsize, hget⟩ :=
    hr₃.readCodeLengths header.codeLengths_lt (List.replicate 19 0)
  have hresult : result = header.codeLengths := by
    refine List.ext_getElem? fun i => ?_
    rw [List.length_replicate] at hsize hget
    by_cases hi : i < 19
    · have hcode : header.codeLengths[i]? = some (width header.codeLengths i) := by
        have hlt : i < header.codeLengths.length := header.length_codeLengths ▸ hi
        rw [width, List.getD_eq_getElem?_getD, List.getElem?_eq_getElem hlt, Option.getD_some]
      rw [hget i hi, hcode, List.getElem?_replicate, if_pos hi]
      have hmem := mem_codeLengthOrder i hi
      rw [← List.take_append_drop header.written codeLengthOrder, List.mem_append] at hmem
      by_cases htake : i ∈ codeLengthOrder.take header.written
      · rw [if_pos htake]
      · rw [if_neg htake, header.unwritten i (hmem.resolve_left htake)]
    · rw [List.getElem?_eq_none (by omega),
        List.getElem?_eq_none (by rw [header.length_codeLengths]; omega)]
  have hread : Png.readHeader state =
      if header.lengths.length > kMaxLens ∨ header.distances.length > kMaxDists then
        .error (.returned (-2))
      else
        check (construct {} header.codeLengths).1 >>= fun _ =>
          Png.readLengths s₄ (construct {} header.codeLengths).2
            (header.lengths.length + header.distances.length) [] >>= fun read =>
            .ok ((read.1.take header.lengths.length,
              (read.1.drop header.lengths.length).take header.distances.length), read.2) := by
    rw [Png.readHeader, h₁, ok_bind]
    dsimp only
    rw [h₂, ok_bind]
    dsimp only
    rw [h₃, ok_bind]
    dsimp only
    rw [Nat.sub_add_cancel hlen, Nat.sub_add_cancel hdist, Nat.sub_add_cancel hwritten]
    split
    · rfl
    · change Png.readCodeLengths s₃ (List.replicate 19 0) (codeLengthOrder.take header.written) >>= _
        = _
      rw [h₄, ok_bind, hresult]
      rfl
  obtain ⟨hsettled, hunsettled⟩ := check_construct {} header.codeLengths_fits
  refine ⟨fun hacc => ?_, fun hnot => ?_⟩
  · have htable := Represents.ofConstruct {} header.codeLengths_fits
      (by rw [header.length_codeLengths]; decide) (List.length_replicate)
    obtain ⟨s₅, h₅, hr₅⟩ :=
      hr₄.readLengths htable header.codeLengths_fits header.ops_coded header.ops_lengths
    refine ⟨s₅, ?_, hr₅⟩
    rw [List.length_append] at h₅
    have hmany := hacc.1
    rw [hread, if_neg (by unfold kMaxLens; omega), hsettled hacc.2, ok_bind, h₅, ok_bind]
    dsimp only
    rw [List.take_left, List.drop_left, List.take_length]
  · by_cases hmany : header.distances.length ≤ kMaxDists
    · have hincomplete : ¬ Settled header.codeLengths := fun hs => hnot ⟨hmany, hs⟩
      refine ⟨.returned (construct {} header.codeLengths).1, ?_⟩
      rw [hread, if_neg (by unfold kMaxLens; omega), hunsettled hincomplete, error_bind]
    · refine ⟨.returned (-2), ?_⟩
      rw [hread, if_pos (Or.inr (Nat.lt_of_not_le hmany))]

/-! ## Stored blocks -/

/-- The two bytes of a 16-bit number. -/
theorem littleEndian_sixteen (v : ℕ) :
    littleEndian 16 v = bytesBits [UInt8.ofNat v, UInt8.ofNat (v / 2 ^ 8)] := by
  rw [bytesBits_cons, bytesBits_cons, bytesBits_nil, List.append_nil, UInt8.toNat_ofNat',
    UInt8.toNat_ofNat', littleEndian_mod, littleEndian_mod, ← littleEndian_add]

/-- A 16-bit number is put together from its bytes. -/
theorem or_bytes {v : ℕ} (hv : v < 2 ^ 16) :
    (UInt8.ofNat v).toNat ||| (UInt8.ofNat (v / 2 ^ 8)).toNat <<< 8 = v := by
  have hlow : v % 2 ^ 8 < 2 ^ 8 := Nat.mod_lt _ (Nat.two_pow_pos 8)
  rw [UInt8.toNat_ofNat', UInt8.toNat_ofNat', Nat.shiftLeft_eq, Nat.or_comm, Nat.mul_comm,
    ← Nat.two_pow_add_eq_or_of_lt hlow]
  omega

/-- The one's complement of a 16-bit number. -/
theorem xor_complement {v : ℕ} (hv : v < 2 ^ 16) : v ^^^ 0xFFFF = 2 ^ 16 - 1 - v := by
  refine Nat.eq_of_testBit_eq fun i => ?_
  have hsub : 2 ^ 16 - 1 - v = 2 ^ 16 - (v + 1) := by omega
  rw [hsub, Nat.testBit_two_pow_sub_succ hv, Nat.testBit_xor,
    show (0xFFFF : ℕ) = 2 ^ 16 - 1 from rfl, Nat.testBit_two_pow_sub_one]
  by_cases hi : i < 16
  · rw [decide_eq_true hi, Bool.xor_true, Bool.true_and]
  · rw [decide_eq_false hi, Bool.xor_false, Bool.false_and]
    exact Nat.testBit_lt_two_pow (hv.trans_le (Nat.pow_le_pow_right Nat.two_pos (by omega)))

/-- **A stored block is copied from where the next byte starts.** -/
theorem Reading.storedBlock {padding : List Bool} {bytes : Bytes} (hpadding : padding.length < 8)
    (hbytes : bytes.length < 2 ^ 16)
    (haligned : (littleEndian 16 bytes.length ++ (littleEndian 16 (2 ^ 16 - 1 - bytes.length) ++
      (bytesBits bytes ++ rest))).length % 8 = 0)
    (h : Reading data state (padding ++ (littleEndian 16 bytes.length ++
      (littleEndian 16 (2 ^ 16 - 1 - bytes.length) ++ (bytesBits bytes ++ rest)))) out) :
    ∃ next, Png.storedBlock state = .ok next ∧ Reading data next rest (out ++ bytes) := by
  have hbits := h.aligned hpadding haligned
  rw [littleEndian_sixteen, littleEndian_sixteen, ← List.append_assoc, ← List.append_assoc] at hbits
  have hfront : bytesBits (data.drop state.inCursor) =
      bytesBits (UInt8.ofNat bytes.length :: UInt8.ofNat (bytes.length / 2 ^ 8) ::
        UInt8.ofNat (2 ^ 16 - 1 - bytes.length) ::
          UInt8.ofNat ((2 ^ 16 - 1 - bytes.length) / 2 ^ 8) :: bytes) ++ rest := by
    rw [hbits]
    simp [bytesBits]
  obtain ⟨back, hdrop, hback⟩ := exists_of_bytesBits_eq_append hfront
  have hsize := congrArg List.length hdrop
  rw [List.length_drop, List.length_append, List.length_cons, List.length_cons, List.length_cons,
    List.length_cons] at hsize
  have hget : ∀ i, data.getD (state.inCursor + i) 0 = (data.drop state.inCursor).getD i 0 := by
    intro i
    rw [List.getD_eq_getElem?_getD, List.getD_eq_getElem?_getD, List.getElem?_drop]
  have hlen : (data.getD (state.inCursor + 0) 0).toNat |||
      (data.getD (state.inCursor + 1) 0).toNat <<< 8 = bytes.length := by
    rw [hget, hget, hdrop]
    exact or_bytes hbytes
  have hnlen : (data.getD (state.inCursor + 2) 0).toNat |||
      (data.getD (state.inCursor + 3) 0).toNat <<< 8 = 2 ^ 16 - 1 - bytes.length := by
    rw [hget, hget, hdrop]
    exact or_bytes (by omega)
  have hbehind : data.drop (state.inCursor + 4) = bytes ++ back := by
    rw [← List.drop_drop, hdrop]
    rfl
  refine ⟨{ state with
    bitBuffer := 0, bitCount := 0, inCursor := state.inCursor + 4 + bytes.length,
    out := state.out ++ bytes }, ?_, h.input_eq, ?_, ?_, ?_, ?_, ?_⟩
  · rw [Png.storedBlock, h.input_eq]
    dsimp only
    rw [hlen, hnlen, xor_complement hbytes, if_neg (by omega), if_neg (not_not.mpr rfl),
      if_neg (by omega), hbehind, List.take_left]
    rfl
  · dsimp only
    omega
  · exact Nat.one_pos
  · exact Nat.succ_pos 7
  · rw [littleEndian_zero, List.nil_append]
    dsimp only
    rw [← List.drop_drop, hbehind, List.drop_left, hback]
  · rw [h.out_eq]

/-! ## Blocks -/

theorem fixedLengths_eq : fixedLengths = fixedLengthCode := rfl

theorem length_fixedLengthCode : fixedLengthCode.length ≤ kMaxLens := by decide +kernel

theorem fits_fixedLengths : Fits fixedLengthCode kMaxBits := by decide +kernel

theorem fits_fixedDistances : Fits fixedDistances kMaxBits := by decide

/-- The words of the distances are the same for thirty lengths and for 32. -/
theorem word_fixedDistances :
    ∀ i < 30, width fixedDistanceCode i = width fixedDistances i ∧
      word fixedDistanceCode i = word fixedDistances i := by
  decide

theorem itemBits_fixedDistances (item : Item) :
    item.bits fixedLengthCode fixedDistanceCode = item.bits fixedLengthCode fixedDistances := by
  cases item with
  | literal byte => rfl
  | copy c => rw [Item.bits, Item.bits, (word_fixedDistances _ c.distanceSymbol.isLt).2]

theorem itemsValid_fixedDistances {items : List Item}
    (h : ItemsValid fixedLengthCode fixedDistanceCode out items) :
    ItemsValid fixedLengthCode fixedDistances out items := by
  induction items generalizing out with
  | nil => trivial
  | cons item items ih =>
    obtain ⟨hcoded, hrange, hrest⟩ := h
    refine ⟨?_, hrange, ih hrest⟩
    cases item with
    | literal byte => exact hcoded
    | copy c =>
      refine ⟨hcoded.1, ?_⟩
      rw [← (word_fixedDistances _ c.distanceSymbol.isLt).1]
      exact hcoded.2

/-- The tables have room for all symbols. -/
def Tables.Sized (tables : Tables) : Prop :=
  tables.lengthTable.symbol.length = kMaxLens ∧ tables.distanceTable.symbol.length = kMaxLens

/-- **A block is inflated, or a test of the inflater turns it down.** -/
theorem Reading.inflateOne {tables : Tables} (hsized : tables.Sized) {block : Block} {last : Bool}
    {position : ℕ} (hvalid : block.Valid position out)
    (h : Reading data state
      (last :: (littleEndian 2 block.type ++ (block.body ++ rest))) out)
    (hposition : position + 3 + (block.body ++ rest).length = 8 * data.length) :
    (block.Accepted out → ∃ tables' next,
      Png.inflateOne state tables = .ok (last, tables', next) ∧ tables'.Sized ∧
        Reading data next rest (block.output out)) ∧
      (¬ block.Accepted out → ∃ e, Png.inflateOne state tables = .error e) := by
  have htype : block.type < 2 ^ 2 := by cases block <;> simp [Block.type]
  obtain ⟨s₁, h₁, hr₁⟩ := h.bit
  obtain ⟨s₂, h₂, hr₂⟩ := hr₁.bits htype
  have hlast : decide (last.toNat ≠ 0) = last := by cases last <;> rfl
  rw [Png.inflateOne, h₁, ok_bind]
  dsimp only
  rw [h₂, ok_bind]
  dsimp only
  rw [hlast]
  cases block with
  | stored padding bytes =>
    obtain ⟨haligned, hpadding, hbytes⟩ := hvalid
    rw [Block.body, List.append_assoc] at hposition
    rw [Block.body, List.append_assoc, List.append_assoc, List.append_assoc] at hr₂
    rw [List.append_assoc, List.append_assoc, List.length_append] at hposition
    obtain ⟨next, hnext, hreading⟩ := hr₂.storedBlock hpadding hbytes (by omega)
    refine ⟨fun _ => ⟨tables, next, ?_, hsized, hreading⟩, fun hnot => absurd trivial hnot⟩
    rw [Block.type, if_pos rfl, hnext]
    rfl
  | fixed items =>
    have hlengths := represents_construct fits_fixedLengths length_fixedLengthCode hsized.1
    have hdistances := represents_construct fits_fixedDistances (by decide) hsized.2
    have hbits : itemsBits fixedLengthCode fixedDistanceCode items =
        itemsBits fixedLengthCode fixedDistances items := by
      rw [itemsBits, itemsBits, funext itemBits_fixedDistances]
    rw [Block.body, hbits] at hr₂
    obtain ⟨hok, herror⟩ := hr₂.inflateBlock hlengths.1 hdistances.1 fits_fixedLengths
      fits_fixedDistances (by decide) (itemsValid_fixedDistances hvalid)
    rw [Block.type, if_neg (by decide), if_pos rfl, fixedLengths_eq]
    generalize (construct tables.lengthTable fixedLengthCode).2 = lengthTable at *
    generalize (construct tables.distanceTable fixedDistances).2 = distanceTable at *
    refine ⟨fun hacc => ?_, fun hnot => ?_⟩
    · obtain ⟨next, hnext, hreading⟩ := hok hacc
      refine ⟨⟨lengthTable, distanceTable⟩, next, ?_, ⟨hlengths.2, hdistances.2⟩, hreading⟩
      rw [hnext]
      rfl
    · obtain ⟨e, he⟩ := herror hnot
      exact ⟨e, by rw [he]; rfl⟩
  | dynamic header items =>
    rw [Block.body, List.append_assoc] at hr₂
    obtain ⟨hok, herror⟩ := hr₂.readHeader
    rw [Block.type, if_neg (by decide), if_neg (by decide), if_pos rfl]
    by_cases hheader : header.distances.length ≤ kMaxDists ∧ Settled header.codeLengths
    · obtain ⟨s₃, h₃, hr₃⟩ := hok hheader
      have hlen := header.length_lengths.2
      have hdist := hheader.1
      have hlengths := represents_construct header.lengths_fits (by unfold kMaxLens; omega) hsized.1
      have hdistances := represents_construct header.distances_fits
        (by unfold kMaxLens; unfold kMaxDists at hdist; omega) hsized.2
      obtain ⟨hsettled, hunsettled⟩ := check_construct tables.lengthTable header.lengths_fits
      obtain ⟨hsettled', hunsettled'⟩ :=
        check_construct tables.distanceTable header.distances_fits
      obtain ⟨hitems, hfar⟩ := hr₃.inflateBlock hlengths.1 hdistances.1 header.lengths_fits
        header.distances_fits header.endOfBlock_coded hvalid
      rw [h₃, ok_bind]
      dsimp only
      by_cases hcode : Settled header.lengths
      · rw [hsettled hcode, ok_bind]
        by_cases hcode' : Settled header.distances
        · rw [hsettled' hcode', ok_bind]
          refine ⟨fun hacc => ?_, fun hnot => ?_⟩
          · obtain ⟨next, hnext, hreading⟩ := hitems hacc.2
            refine ⟨⟨(construct tables.lengthTable header.lengths).2,
              (construct tables.distanceTable header.distances).2⟩, next, ?_,
              ⟨hlengths.2, hdistances.2⟩, hreading⟩
            rw [hnext]
            rfl
          · obtain ⟨e, he⟩ := hfar fun hall => hnot ⟨⟨hdist, hheader.2, hcode, hcode'⟩, hall⟩
            exact ⟨e, by rw [he]; rfl⟩
        · rw [hunsettled' hcode', error_bind]
          exact ⟨fun hacc => absurd hacc.1.2.2.2 hcode', fun _ => ⟨_, rfl⟩⟩
      · rw [hunsettled hcode, error_bind]
        exact ⟨fun hacc => absurd hacc.1.2.2.1 hcode, fun _ => ⟨_, rfl⟩⟩
    · obtain ⟨e, he⟩ := herror hheader
      rw [he, error_bind]
      exact ⟨fun hacc => absurd ⟨hacc.1.1, hacc.1.2.1⟩ hheader, fun _ => ⟨e, rfl⟩⟩

/-! ## Streams -/

theorem inflateLoop_eq (state : Inflater) (tables : Tables) :
    inflateLoop state tables =
      match inflateOne state tables with
      | .error e => .error e
      | .ok (true, _, next) => .ok next
      | .ok (false, tables, next) => inflateLoop next tables := by
  rw [inflateLoop]
  split
  · rename_i h
    rw [h]
  · rename_i h
    rw [h]
  · rename_i h
    rw [h]

/-- The blocks are inflated, or a test turns one of them down; by induction on the blocks. -/
theorem Reading.inflateLoop {tables : Tables} (hsized : tables.Sized) {blocks : List Block}
    (hne : blocks ≠ []) {position : ℕ} (hvalid : BlocksValid position out blocks)
    (h : Reading data state (blocksBits blocks ++ rest) out)
    (hposition : position + (blocksBits blocks ++ rest).length = 8 * data.length) :
    Ends (BlocksAccepted out blocks) (Png.inflateLoop state tables) data rest
      (blocksOutput out blocks) := by
  induction blocks generalizing state tables out position with
  | nil => exact absurd rfl hne
  | cons block blocks ih =>
    obtain ⟨hblock, hblocks⟩ := hvalid
    have hsplit : blocksBits (block :: blocks) ++ rest =
        blocks.isEmpty ::
          (littleEndian 2 block.type ++ (block.body ++ (blocksBits blocks ++ rest))) := by
      rw [blocksBits, List.cons_append, List.append_assoc, List.append_assoc]
    rw [hsplit] at h hposition
    rw [List.length_cons, List.length_append, length_littleEndian] at hposition
    obtain ⟨hok, herror⟩ := h.inflateOne hsized hblock (by omega)
    by_cases hacc : block.Accepted out
    · obtain ⟨tables', next, hnext, hsized', hreading⟩ := hok hacc
      cases blocks with
      | nil =>
        refine Ends.of_ok ⟨hacc, trivial⟩ ?_ hreading
        rw [inflateLoop_eq, hnext]
        rfl
      | cons following blocks =>
        rw [List.length_append] at hposition
        obtain ⟨hrest, hfail⟩ :=
          ih hsized' (List.cons_ne_nil _ _) hblocks hreading (by omega)
        have heq : Png.inflateLoop state tables = Png.inflateLoop next tables' := by
          rw [inflateLoop_eq, hnext]
          rfl
        rw [Ends, heq]
        exact ⟨fun hall => hrest hall.2, fun hnot => hfail fun hall => hnot ⟨hacc, hall⟩⟩
    · obtain ⟨e, he⟩ := herror hacc
      exact Ends.of_error (fun hall => hacc hall.1) (by rw [inflateLoop_eq, he])

/-- **A stream is inflated to the bytes that it stands for exactly if no test of the inflater
turns it down.** -/
theorem inflates_iff_accepted (stream : Stream) (state : Inflater) (data : Bytes)
    (hout : state.out = []) (hbits : stream.bits <+: bytesBits data) :
    (∃ final, inflateCodes state data = .ok final ∧ final.out = stream.output) ↔
      stream.Accepted := by
  obtain ⟨rest, hrest⟩ := hbits
  have hreading : Reading data
      { state with
        input := data
        inCursor := 0
        bitBuffer := 0
        bitCount := 0 }
      (blocksBits stream.blocks ++ rest) [] :=
    ⟨rfl, Nat.zero_le _, Nat.one_pos, Nat.succ_pos 7, hrest.symm, hout⟩
  have hlength : 0 + (blocksBits stream.blocks ++ rest).length = 8 * data.length := by
    rw [Nat.zero_add, ← length_bytesBits, ← hrest]
    rfl
  have hsized : Tables.Sized {} := ⟨List.length_replicate, List.length_replicate⟩
  obtain ⟨hok, herror⟩ := hreading.inflateLoop hsized stream.blocks_ne_nil stream.valid hlength
  refine ⟨fun ⟨final, hfinal, _⟩ => ?_, fun hacc => ?_⟩
  · by_contra hnot
    obtain ⟨e, he⟩ := herror hnot
    exact nomatch hfinal.symm.trans he
  · obtain ⟨final, hfinal, hread⟩ := hok hacc
    exact ⟨final, hfinal, hread.out_eq⟩

/-- A literal and a back-reference that overlaps what it copies. -/
def overlappingStream : Stream where
  blocks := [.fixed [.literal 97, .copy ⟨0, 0, 0, 0⟩]]
  blocks_ne_nil := List.cons_ne_nil _ _
  valid := by decide

theorem inflates_iff_accepted_overlapping :
    ∃ final, inflateCodes {} [75, 4, 2, 0] = .ok final ∧ final.out = [97, 97, 97, 97] :=
  (inflates_iff_accepted overlappingStream {} [75, 4, 2, 0] rfl (by decide +kernel)).mpr
    (by decide)

/-- Three words for the literals and lengths, and a distance code with a single word of one bit. -/
def singleDistanceHeader : Header where
  lengths := List.replicate 97 0 ++ 1 :: (List.replicate 158 0 ++ [2, 2])
  distances := [1]
  codeLengths := [0, 2, 2, 0, 0, 0, 0, 0, 0, 0, 0, 0, 0, 0, 0, 0, 0, 0, 1]
  written := 18
  ops := [.manyZeros 86, .length 1, .manyZeros 127, .manyZeros 9, .length 2, .length 2, .length 1]
  length_lengths := by decide +kernel
  length_distances := by decide
  length_codeLengths := rfl
  written_range := by decide
  unwritten := by decide
  codeLengths_lt := by decide
  codeLengths_fits := by decide
  lengths_fits := by decide +kernel
  distances_fits := by decide
  ops_coded := by decide
  ops_lengths := by decide +kernel
  endOfBlock_coded := by decide

/-- The same literal and back-reference, in those codes. -/
def singleDistanceStream : Stream where
  blocks := [.dynamic singleDistanceHeader [.literal 97, .copy ⟨0, 0, 0, 0⟩]]
  blocks_ne_nil := List.cons_ne_nil _ _
  valid := by decide

/-- **A distance code with a single word is turned down.** -/
theorem not_inflates_singleDistance :
    ¬ ∀ (stream : Stream) (data : Bytes), stream.bits <+: bytesBits data →
      ∃ final, inflateCodes {} data = .ok final ∧ final.out = stream.output := by
  intro h
  obtain ⟨final, hfinal, -⟩ := h singleDistanceStream
    [13, 192, 129, 0, 0, 0, 0, 128, 32, 214, 252, 37, 62, 11] (by decide +kernel)
  have herror : (match inflateCodes {}
      [13, 192, 129, 0, 0, 0, 0, 128, 32, 214, 252, 37, 62, 11] with
    | .ok _ => true
    | .error _ => false) = false := by decide +kernel
  rw [hfinal] at herror
  exact Bool.noConfusion herror

end Aetheris.Png
