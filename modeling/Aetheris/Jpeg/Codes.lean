import Aetheris.Jpeg.Refinement
import Aetheris.Library.CanonicalCode

/-!
# The codes and the values of an entropy-coded segment

A DHT segment gives the number of codes of each length and the values in the order of their codes.
The codes themselves are those of T.81, Annex C: consecutive numbers, with a zero appended where the
length grows (`sizes`, `Specification`).  `build_huffman` keeps, for each length, its least and its
greatest code and the place of its first value.  A zero is stuffed behind every byte `0xFF` of the
segment, so the bits of a code may lie on both sides of one.

`Pending` are the bits between a reader and what stands behind the segment, and reading a bit takes
the first of them.  The loop of `decode_huffman` goes on as long as the bits are greater than all
codes of their length, so it stops at the code that was written.  `extend` undoes what `magnitude`
does to a value of a `category`.
-/

namespace Aetheris.Jpeg

open BitString CanonicalCode

/-! ## Stuffed bytes -/

/-- Bytes as they stand in a segment. -/
def stuffed (bytes : Bytes) : Bytes := bytes.flatMap fun b => if b = 0xff then [0xff, 0] else [b]

/-- The bits of bytes, the highest one of each first. -/
def byteBits (bytes : Bytes) : List Bool := bytes.flatMap fun b => bigEndian 8 b.toNat

/-- The bits that are left to a reader, up to `tail`. -/
def Pending (data tail : Bytes) (reader : Reader) (bits : List Bool) : Prop :=
  ∃ bytes, data.drop reader.pos = stuffed bytes ++ tail ∧
    bigEndian reader.bitCount reader.bitBuffer ++ byteBits bytes = bits

theorem stuffed_cons (b : UInt8) (bytes : Bytes) :
    stuffed (b :: bytes) = (if b = 0xff then [0xff, 0] else [b]) ++ stuffed bytes :=
  List.flatMap_cons

theorem byteBits_cons (b : UInt8) (bytes : Bytes) :
    byteBits (b :: bytes) = bigEndian 8 b.toNat ++ byteBits bytes :=
  List.flatMap_cons

variable {data tail : Bytes} {reader : Reader} {rest : List Bool}

/-! ## Reading bits -/

/-- `read_byte` takes a byte with the zero behind it. -/
theorem readByte_of_drop {b : UInt8} {bytes : Bytes}
    (h : data.drop reader.pos = stuffed (b :: bytes) ++ tail) :
    ∃ pos, readByte data reader = (some b.toNat, { reader with pos := pos }) ∧
      data.drop pos = stuffed bytes ++ tail := by
  rw [stuffed_cons] at h
  have hget (i : ℕ) : data[reader.pos + i]? = (data.drop reader.pos)[i]? := by
    rw [List.getElem?_drop]
  have hfirst := hget 0
  rw [Nat.add_zero] at hfirst
  by_cases hb : b = 0xff
  · rw [if_pos hb, List.append_assoc] at h
    have hsecond := hget 1
    rw [h] at hfirst hsecond
    refine ⟨reader.pos + 2, ?_, ?_⟩
    · rw [readByte, hfirst, hb]
      dsimp only [List.cons_append, List.getElem?_cons_zero]
      rw [if_pos rfl, hsecond]
      rfl
    · rw [← List.drop_drop, h]
      rfl
  · rw [if_neg hb, List.append_assoc] at h
    rw [h] at hfirst
    refine ⟨reader.pos + 1, ?_, ?_⟩
    · rw [readByte, hfirst]
      exact if_neg hb
    · rw [← List.drop_drop, h]
      rfl

theorem takeBit_eq (count : ℕ) (h : reader.bitCount = count + 1) :
    takeBit reader = (some (reader.bitBuffer.testBit count).toNat,
      { reader with bitCount := count }) := by
  rw [takeBit, h, Nat.add_sub_cancel, Nat.toNat_testBit, Nat.and_one_is_mod,
    Nat.shiftRight_eq_div_pow]

/-- **`read_bit` takes the next bit.** -/
theorem Pending.readBit {b : Bool} (h : Pending data tail reader (b :: rest)) :
    ∃ reader', Jpeg.readBit data reader = (some b.toNat, reader') ∧
      Pending data tail reader' rest := by
  obtain ⟨bytes, hdrop, hbits⟩ := h
  rw [Jpeg.readBit]
  cases hcount : reader.bitCount with
  | zero =>
    rw [hcount, bigEndian_zero, List.nil_append] at hbits
    cases bytes with
    | nil => cases hbits
    | cons x bytes =>
      obtain ⟨pos, hbyte, hnext⟩ := readByte_of_drop hdrop
      rw [byteBits_cons, bigEndian, List.cons_append, List.cons.injEq] at hbits
      rw [if_pos rfl, hbyte]
      dsimp only
      rw [takeBit_eq 7 rfl, hbits.1]
      exact ⟨_, rfl, bytes, hnext, hbits.2⟩
  | succ count =>
    rw [hcount, bigEndian, List.cons_append, List.cons.injEq] at hbits
    rw [if_neg (Nat.succ_ne_zero count), takeBit_eq count hcount, hbits.1]
    exact ⟨_, rfl, bytes, hdrop, hbits.2⟩

/-- A number is read bit by bit. -/
theorem Pending.nextBits {x : ℕ} {count : ℕ}
    (h : Pending data tail reader (bigEndian count x ++ rest)) :
    ∃ reader', Jpeg.nextBits data count (x / 2 ^ count) reader = some (x, reader') ∧
      Pending data tail reader' rest := by
  induction count generalizing reader with
  | zero => exact ⟨reader, by rw [Nat.pow_zero, Nat.div_one]; rfl, h⟩
  | succ count ih =>
    obtain ⟨next, hbit, hnext⟩ := h.readBit
    rw [Jpeg.nextBits, hbit]
    dsimp only
    rw [← div_two_pow_eq]
    exact ih hnext

theorem Pending.readBits {x count : ℕ} (hx : x < 2 ^ count) (hcount : count ≤ 31)
    (h : Pending data tail reader (bigEndian count x ++ rest)) :
    ∃ reader', Jpeg.readBits data count reader = (Int32.ofNat x, reader') ∧
      Pending data tail reader' rest := by
  obtain ⟨reader', hnext, hrest⟩ := h.nextBits
  rw [Nat.div_eq_of_lt hx] at hnext
  exact ⟨reader', (readBitsLoop_of_nextBits (m := 0) Nat.one_pos (by omega) hnext).1, hrest⟩

/-! ## The codes of a table -/

/-- The lengths of the codes from `length` on, in the order of the values. -/
def sizesFrom : ℕ → List ℕ → List ℕ
  | _, [] => []
  | length, count :: counts => List.replicate count length ++ sizesFrom (length + 1) counts

/-- **The lengths of the codes of a table**, `HUFFSIZE` of T.81, C.2. -/
def sizes (counts : List ℕ) : List ℕ := sizesFrom 1 counts

/-- What a DHT segment says of one table. -/
structure Specification where
  /-- How many codes there are of each length from 1 to 16. -/
  counts : List ℕ
  /-- The values, in the order of their codes. -/
  values : Bytes
  length_counts : counts.length = 16
  length_values : values.length = counts.sum

theorem le_of_mem_sizesFrom {length ℓ : ℕ} {counts : List ℕ} (h : ℓ ∈ sizesFrom length counts) :
    length ≤ ℓ := by
  induction counts generalizing length with
  | nil => cases h
  | cons count counts ih =>
    rcases List.mem_append.mp h with h | h
    · exact Nat.le_of_eq (List.eq_of_mem_replicate h).symm
    · exact Nat.le_of_succ_le (ih h)

theorem pairwise_sizesFrom (length : ℕ) (counts : List ℕ) :
    (sizesFrom length counts).Pairwise (· ≤ ·) := by
  induction counts generalizing length with
  | nil => exact List.Pairwise.nil
  | cons count counts ih =>
    refine List.pairwise_append.mpr ⟨List.pairwise_replicate_of_refl, ih _, ?_⟩
    intro k hk ℓ hℓ
    rw [List.eq_of_mem_replicate hk]
    exact Nat.le_of_succ_le (le_of_mem_sizesFrom hℓ)

theorem length_sizesFrom (length : ℕ) (counts : List ℕ) :
    (sizesFrom length counts).length = counts.sum := by
  induction counts generalizing length with
  | nil => rfl
  | cons count counts ih =>
    rw [sizesFrom, List.length_append, List.length_replicate, ih, List.sum_cons]

/-- The codes of each length are as many as the segment says. -/
theorem map_count_sizesFrom (length : ℕ) (counts : List ℕ) :
    (List.range' length counts.length).map (sizesFrom length counts).count = counts := by
  induction counts generalizing length with
  | nil => rfl
  | cons count counts ih =>
    have hfirst : (sizesFrom (length + 1) counts).count length = 0 :=
      List.count_eq_zero_of_not_mem fun h => Nat.not_succ_le_self length (le_of_mem_sizesFrom h)
    rw [List.length_cons, List.range'_succ, List.map_cons, sizesFrom, List.count_append,
      List.count_replicate_self, hfirst, Nat.add_zero]
    congr 1
    refine Eq.trans (List.map_congr_left fun ℓ hℓ => ?_) (ih (length + 1))
    have hne : ℓ ≠ length := by
      have hle := (List.mem_range'_1.mp hℓ).1
      omega
    rw [List.count_append, List.count_replicate, if_neg (by simpa using hne.symm), Nat.zero_add]

theorem counts_eq (counts : List ℕ) :
    (List.range' 1 counts.length).map (count (sizes counts)) = counts := by
  refine Eq.trans (List.map_congr_left fun ℓ hℓ => ?_) (map_count_sizesFrom 1 counts)
  have hle := (List.mem_range'_1.mp hℓ).1
  exact count_of_pos (by omega)

namespace Specification

variable (spec : Specification)

theorem length_sizes : (sizes spec.counts).length = spec.values.length :=
  (length_sizesFrom 1 spec.counts).trans spec.length_values.symm

theorem sizes_ne_zero : ∀ ℓ ∈ sizes spec.counts, ℓ ≠ 0 := fun _ h =>
  Nat.ne_of_gt (le_of_mem_sizesFrom h)

theorem position_eq {k : ℕ} (hk : k < spec.values.length) :
    position (sizes spec.counts) k = k :=
  position_eq_self (pairwise_sizesFrom 1 spec.counts) spec.sizes_ne_zero
    (spec.length_sizes ▸ hk)

theorem width_ne_zero {k : ℕ} (hk : k < spec.values.length) :
    width (sizes spec.counts) k ≠ 0 := by
  have hlt : k < (sizes spec.counts).length := spec.length_sizes ▸ hk
  rw [width, List.getD_eq_getElem?_getD, List.getElem?_eq_getElem hlt, Option.getD_some]
  exact spec.sizes_ne_zero _ (List.getElem_mem hlt)

end Specification

/-! ## Decoding -/

/-- The entry of `build_huffman` for one length. -/
def codeRange (code k : ℤ) (count : ℕ) : CodeRange :=
  if count = 0 then { minCode := 0, maxCode := -1, valPtr := 0 }
  else { minCode := code, maxCode := code + count - 1, valPtr := k }

theorem codeRanges_cons (code k : ℤ) (count : ℕ) (counts : List ℕ) :
    codeRanges code k (count :: counts) =
      codeRange code k count :: codeRanges ((code + count) * 2) (k + count) counts := by
  rw [codeRanges, codeRange]
  split
  · rename_i h
    rw [h, Nat.cast_zero, add_zero, add_zero]
  · rfl

/-- A number past the shorter codes is a code of a length if it is below the last one of them. -/
theorem le_maxCode_iff {first k c count : ℕ} (hle : first ≤ c) :
    (0 ≤ (codeRange first k count).maxCode ∧ (c : ℤ) ≤ (codeRange first k count).maxCode) ↔
      c < first + count := by
  rw [codeRange]
  split <;> dsimp only <;> omega

/-- One round of the loop of `decode_huffman`. -/
theorem decodeHuffmanLoop_step {values : Bytes} {next : Reader} {bit : Bool} {c c' : ℕ}
    {first k count : ℕ} {counts : List ℕ} (hbit : readBit data reader = (some bit.toNat, next))
    (hc : 2 * c + bit.toNat = c') (hle : first ≤ c') :
    decodeHuffmanLoop data values (codeRanges first k (count :: counts)) c reader =
      if c' < first + count then (values[k + (c' - first)]?.map (·.toNat), next)
      else decodeHuffmanLoop data values
        (codeRanges ((2 * (first + count) : ℕ) : ℤ) ((k + count : ℕ) : ℤ) counts) c' next := by
  have hcast : (c : ℤ) * 2 + (bit.toNat : ℤ) = (c' : ℤ) := by omega
  have hfirst : ((first : ℤ) + count) * 2 = ((2 * (first + count) : ℕ) : ℤ) := by
    push_cast
    ring
  rw [codeRanges_cons, decodeHuffmanLoop, hbit]
  dsimp only
  rw [hcast, hfirst, ← Nat.cast_add]
  by_cases h : c' < first + count
  · have hindex : (codeRange first k count).valPtr + c' - (codeRange first k count).minCode =
        ((k + (c' - first) : ℕ) : ℤ) := by
      rw [codeRange, if_neg (by omega)]
      dsimp only
      omega
    rw [if_pos ((le_maxCode_iff hle).mpr h), if_pos h, hindex, if_pos (Int.natCast_nonneg _),
      Int.toNat_natCast]
  · rw [if_neg (mt (le_maxCode_iff hle).mp h), if_neg h]

/-- The loop of `decode_huffman`, by induction on the bits of the word that are left: the bits
read so far are a prefix of the word, and so past all codes of their length. -/
theorem decodeHuffmanLoop_reads {lengths : List ℕ} {symbol : ℕ} (values : Bytes)
    (hsymbol : width lengths symbol ≠ 0) (left length more : ℕ)
    (hlength : length + left = width lengths symbol) (hmore : left < more)
    (h : Pending data tail reader (bigEndian (left + 1) (code lengths symbol) ++ rest)) :
    ∃ reader',
      decodeHuffmanLoop data values
          (codeRanges (firstCode lengths length) (before lengths length)
            ((List.range' length more).map (count lengths)))
          ((code lengths symbol / 2 ^ (left + 1) : ℕ) : ℤ) reader =
        (values[position lengths symbol]?.map (·.toNat), reader') ∧
      Pending data tail reader' rest := by
  induction left generalizing reader length more with
  | zero =>
    obtain ⟨more, rfl⟩ := Nat.exists_eq_succ_of_ne_zero (Nat.ne_zero_of_lt hmore)
    obtain ⟨next, hbit, hnext⟩ := h.readBit
    have hc : 2 * (code lengths symbol / 2 ^ (0 + 1)) +
        ((code lengths symbol).testBit 0).toNat = code lengths symbol := by
      rw [← div_two_pow_eq, Nat.pow_zero, Nat.div_one]
    rw [Nat.add_zero] at hlength
    have hlt := code_lt hsymbol
    rw [List.range'_succ, List.map_cons,
      decodeHuffmanLoop_step hbit hc (by rw [hlength]; exact Nat.le_add_right _ _),
      if_pos (by rw [hlength]; exact hlt), hlength, code, Nat.add_sub_cancel_left, position]
    exact ⟨next, rfl, hnext⟩
  | succ left ih =>
    obtain ⟨more, rfl⟩ := Nat.exists_eq_succ_of_ne_zero (Nat.ne_zero_of_lt hmore)
    obtain ⟨next, hbit, hnext⟩ := h.readBit
    have hc := (div_two_pow_eq (code lengths symbol) (left + 1)).symm
    have hge : firstCode lengths length + count lengths length ≤
        code lengths symbol / 2 ^ (left + 1) := by
      have hleft : width lengths symbol - length = left + 1 := by omega
      rw [← hleft]
      exact le_prefix (by omega)
    rw [List.range'_succ, List.map_cons,
      decodeHuffmanLoop_step hbit hc ((Nat.le_add_right _ _).trans hge),
      if_neg (Nat.not_lt.mpr hge)]
    exact ih (length + 1) more (by omega) (by omega) hnext

/-- **`decode_huffman` reads the code of a value.** -/
theorem Specification.decodeHuffman (spec : Specification) (hfits : Fits (sizes spec.counts) 16)
    {k : ℕ} (hk : k < spec.values.length)
    (h : Pending data tail reader (word (sizes spec.counts) k ++ rest)) :
    ∃ reader',
      Jpeg.decodeHuffman data (buildHuffman spec.counts spec.values) reader =
        (some spec.values[k].toNat, reader') ∧ Pending data tail reader' rest := by
  have hwidth := spec.width_ne_zero hk
  have hle := width_le hfits hwidth
  obtain ⟨left, hleft⟩ := Nat.exists_eq_succ_of_ne_zero hwidth
  have hzero : code (sizes spec.counts) k / 2 ^ (left + 1) = 0 := by
    rw [← Nat.succ_eq_add_one, ← hleft]
    exact Nat.div_eq_of_lt (code_lt_two_pow hfits hwidth)
  have hfirst : firstCode (sizes spec.counts) 1 = 0 := by rw [firstCode, firstCode, count_zero]
  have hbefore : before (sizes spec.counts) 1 = 0 := by rw [before, before, count_zero]
  rw [word, hleft] at h
  have hloop := decodeHuffmanLoop_reads spec.values hwidth left 1 16 (by omega) (by omega) h
  have hcounts := counts_eq spec.counts
  rw [spec.length_counts] at hcounts
  rwa [hzero, hfirst, hbefore, hcounts, spec.position_eq hk, List.getElem?_eq_getElem hk] at hloop

/-! ## Signed values -/

/-- The category of a value: how many bits its magnitude has. -/
def category (v : ℤ) : ℕ := v.natAbs.size

/-- The bits of a value, as a number: those of a negative one are all inverted. -/
def magnitude (v : ℤ) : ℕ := if 0 ≤ v then v.natAbs else 2 ^ category v - 1 - v.natAbs

theorem natAbs_lt_two_pow (v : ℤ) : v.natAbs < 2 ^ category v := Nat.lt_size_self _

theorem magnitude_lt (v : ℤ) : magnitude v < 2 ^ category v := by
  have hlt := natAbs_lt_two_pow v
  rw [magnitude]
  split <;> omega

theorem category_le {v : ℤ} (hv : |v| < 2 ^ 31) : category v ≤ 31 := by
  refine Nat.size_le.mpr ?_
  zify
  exact hv

theorem neg_one_shiftLeft {bits : ℕ} (h : bits ≤ 31) :
    (-1 : Int32) <<< Int32.ofNat bits = Int32.ofInt (-2 ^ bits) := by
  have hall : ∀ n ≤ 31, (-1 : Int32) <<< Int32.ofNat n = Int32.ofInt (-2 ^ n) := by decide
  exact hall bits h

/-- **`extend` recovers a value from its bits.** -/
theorem toInt_extend_magnitude {v : ℤ} (hv : |v| < 2 ^ 31) :
    (extend (Int32.ofNat (magnitude v)) (category v)).toInt = v := by
  have hle := category_le hv
  have hlt := natAbs_lt_two_pow v
  cases hbits : category v with
  | zero =>
    rw [hbits, Nat.pow_zero] at hlt
    rw [extend, if_pos rfl]
    have hzero : v = 0 := by omega
    exact hzero.symm
  | succ bits =>
    have hlow : 2 ^ bits ≤ v.natAbs :=
      Nat.lt_size.mp (Nat.lt_of_lt_of_eq (Nat.lt_succ_self bits) hbits.symm)
    have hpow : 2 ^ (bits + 1) = 2 * 2 ^ bits := Nat.pow_succ'
    have hcast : ((2 ^ bits : ℕ) : ℤ) = 2 ^ bits := Nat.cast_pow 2 bits
    have hpow' : (2 : ℤ) ^ (bits + 1) = 2 * 2 ^ bits := pow_succ' 2 bits
    have hmagnitude := magnitude_lt v
    rw [hbits] at hle hlt hmagnitude
    have hmax : 2 ^ (bits + 1) ≤ 2 ^ 31 := Nat.pow_le_pow_right Nat.two_pos hle
    have hvalue : (Int32.ofNat (magnitude v)).toInt = magnitude v :=
      Int32.toInt_ofNat_of_lt (hmagnitude.trans_le hmax)
    rw [extend, if_neg (Nat.succ_ne_zero bits)]
    dsimp only
    have hiff : Int32.ofNat (magnitude v) < 1 <<< Int32.ofNat bits ↔
        (magnitude v : ℤ) < 2 ^ bits := by
      rw [Int32.lt_iff_toInt_lt, hvalue, toInt_one_shiftLeft hle]
    rw [Nat.add_sub_cancel, neg_one_shiftLeft hle]
    rcases le_or_gt 0 v with hsign | hsign
    · have hpos : magnitude v = v.natAbs := if_pos hsign
      rw [if_neg (mt hiff.mp (by omega)), hvalue, hpos]
      exact Int.natAbs_of_nonneg hsign
    · have hneg : magnitude v = 2 ^ (bits + 1) - 1 - v.natAbs := by
        rw [magnitude, if_neg (Int.not_le.mpr hsign), hbits]
      have hsum : Int32.ofNat (magnitude v) + (Int32.ofInt (-2 ^ (bits + 1)) + 1) =
          Int32.ofInt v := by
        have hone : (1 : Int32) = Int32.ofInt 1 := rfl
        have hnat : Int32.ofNat (magnitude v) = Int32.ofInt (magnitude v : ℤ) := rfl
        rw [hone, hnat, ← Int32.ofInt_add, ← Int32.ofInt_add]
        congr 1
        omega
      rw [if_pos (hiff.mpr (by omega)), hsum]
      exact Int32.toInt_ofInt_of_le (by omega) (by omega)

/-- **Codes and values are read back.**  The code of a value that has one is decoded to it, and
a signed value is read from the bits of its category; both leave the bits behind them. -/
theorem decodeHuffman_and_extend :
    (∀ spec : Specification, Fits (sizes spec.counts) 16 →
      ∀ (k : ℕ) (hk : k < spec.values.length) (data tail : Bytes) (reader : Reader)
        (rest : List Bool),
        Pending data tail reader (word (sizes spec.counts) k ++ rest) →
        ∃ reader',
          decodeHuffman data (buildHuffman spec.counts spec.values) reader =
            (some spec.values[k].toNat, reader') ∧ Pending data tail reader' rest) ∧
    ∀ v : ℤ, |v| < 2 ^ 31 →
      ∀ (data tail : Bytes) (reader : Reader) (rest : List Bool),
        Pending data tail reader (bigEndian (category v) (magnitude v) ++ rest) →
        ∃ value reader',
          readBits data (category v) reader = (value, reader') ∧
            (extend value (category v)).toInt = v ∧ Pending data tail reader' rest := by
  constructor
  · intro spec hfits k hk data tail reader rest h
    exact spec.decodeHuffman hfits hk h
  · intro v hv data tail reader rest h
    obtain ⟨reader', hread, hrest⟩ := h.readBits (magnitude_lt v) (category_le hv)
    exact ⟨_, reader', hread, toInt_extend_magnitude hv, hrest⟩

/-- The codes `0`, `10`, `110` and so on, up to nine bits. -/
def exampleSpecification : Specification where
  counts := [1, 1, 1, 1, 1, 1, 1, 1, 1, 0, 0, 0, 0, 0, 0, 0]
  values := [10, 11, 12, 13, 14, 15, 16, 17, 18]
  length_counts := rfl
  length_values := rfl

/-- A stuffed byte lies inside the code `111111110`, and `010` are the bits of -5. -/
theorem decodeHuffman_and_extend_stuffed :
    (∃ reader',
      decodeHuffman [0xff, 0, 0x7f, 0xff, 0xd9]
          (buildHuffman exampleSpecification.counts exampleSpecification.values) {} =
        (some 18, reader') ∧
      Pending [0xff, 0, 0x7f, 0xff, 0xd9] [0xff, 0xd9] reader' (List.replicate 7 true)) ∧
    ∃ value reader',
      readBits [0x5f] 3 {} = (value, reader') ∧ (extend value 3).toInt = -5 ∧
        Pending [0x5f] [] reader' (List.replicate 5 true) :=
  ⟨decodeHuffman_and_extend.1 exampleSpecification (by decide) 8 (by decide) _ _ _ _
      ⟨[0xff, 0x7f], rfl, by decide⟩,
    decodeHuffman_and_extend.2 (-5) (by decide) _ _ _ _ ⟨[0x5f], rfl, by decide⟩⟩

end Aetheris.Jpeg
