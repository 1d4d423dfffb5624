import Aetheris.Png.BitReader

/-!
# The code tables

`construct` builds, from the lengths of a canonical code, how many words of each length there are
and the symbols in the order of their words; `decode_symbol` finds a symbol from its word by
comparing prefixes with the words of their length.

`Represents` is what a table says about a code, whichever way it was built.  With it the prefixes of
a word are passed over and the word itself is found; and `construct` leaves such a table for every
code that fits, whatever was in it before.
-/

namespace Aetheris.Png

open BitString CanonicalCode

/-- **The table describes the canonical code.** -/
structure Represents (table : Huffman) (lengths : List ℕ) : Prop where
  count_eq : ∀ ℓ, ℓ ≠ 0 → ℓ ≤ kMaxBits → table.count.getD ℓ 0 = count lengths ℓ
  symbol_eq : ∀ n, width lengths n ≠ 0 → table.symbol[position lengths n]? = some n

variable {data : Bytes} {state : Inflater} {rest : List Bool} {out : Bytes}

/-! ## Decoding -/

/-- One round of the loop of `decode_symbol`. -/
theorem decodeFrom_step {table : Huffman} {next : Inflater} {length bit : ℕ}
    (hle : length ≤ kMaxBits) (hbit : bits state 1 = .ok (bit, next)) (prior first index : ℕ) :
    decodeFrom table state length prior first index =
      if prior ||| bit < first + table.count.getD length 0 then
        match table.symbol[index + ((prior ||| bit) - first)]? with
        | some symbol => .ok (symbol, next)
        | none => .error .outOfBounds
      else
        decodeFrom table next (length + 1) ((prior ||| bit) <<< 1)
          ((first + table.count.getD length 0) <<< 1) (index + table.count.getD length 0) := by
  rw [decodeFrom, if_pos hle, hbit]
  rfl

/-- The loop of `decode_symbol`, by induction on the bits of the word that are left: the bits
read so far are a prefix of the word, and so past all words of their length. -/
theorem decodeFrom_reads {table : Huffman} {lengths : List ℕ} {symbol : ℕ}
    (htable : Represents table lengths) (hfits : Fits lengths kMaxBits)
    (hsymbol : width lengths symbol ≠ 0) (left length : ℕ)
    (hlength : length + left = width lengths symbol)
    (h : Reading data state (bigEndian (left + 1) (code lengths symbol) ++ rest) out)
    (hpos : 0 < length) :
    ∃ state',
      decodeFrom table state length ((code lengths symbol / 2 ^ (left + 1)) <<< 1)
          (firstCode lengths length) (before lengths length) = .ok (symbol, state') ∧
        Reading data state' rest out := by
  have hle := width_le hfits hsymbol
  induction left generalizing state length with
  | zero =>
    obtain ⟨next, hbit, hnext⟩ := h.bit
    have hcode : (code lengths symbol / 2 ^ (0 + 1)) <<< 1 |||
        ((code lengths symbol).testBit 0).toNat = code lengths symbol := by
      rw [← div_two_pow_pred, Nat.pow_zero, Nat.div_one]
    rw [Nat.add_zero] at hlength
    have hcount := htable.count_eq length (by omega) (by omega)
    have hlt := code_lt hsymbol
    have hget : table.symbol[before lengths length +
        (code lengths symbol - firstCode lengths length)]? = some symbol := by
      rw [← htable.symbol_eq symbol hsymbol, hlength, code, Nat.add_sub_cancel_left, position]
    rw [decodeFrom_step (by omega) hbit, hcode, hcount, if_pos (by rw [hlength]; exact hlt), hget]
    exact ⟨next, rfl, hnext⟩
  | succ left ih =>
    obtain ⟨next, hbit, hnext⟩ := h.bit
    have hcode := div_two_pow_pred (code lengths symbol) (left + 1)
    have hcount := htable.count_eq length (by omega) (by omega)
    have hge : firstCode lengths length + count lengths length ≤
        code lengths symbol / 2 ^ (left + 1) := by
      have hleft : width lengths symbol - length = left + 1 := by omega
      rw [← hleft]
      exact le_prefix (by omega)
    have hfirst : (firstCode lengths length + count lengths length) <<< 1 =
        firstCode lengths (length + 1) := by
      rw [firstCode, Nat.shiftLeft_eq, Nat.pow_one, Nat.mul_comm]
    rw [decodeFrom_step (by omega) hbit, ← hcode, hcount, if_neg (Nat.not_lt.mpr hge), hfirst]
    exact ih (length + 1) (by omega) hnext (Nat.succ_pos _)

/-- **`decode_symbol` reads the word of a symbol.** -/
theorem Reading.decodeSymbol {table : Huffman} {lengths : List ℕ} {symbol : ℕ}
    (h : Reading data state (word lengths symbol ++ rest) out)
    (htable : Represents table lengths) (hfits : Fits lengths kMaxBits)
    (hsymbol : width lengths symbol ≠ 0) :
    ∃ state', Png.decodeSymbol state table = .ok (symbol, state') ∧
      Reading data state' rest out := by
  obtain ⟨left, hleft⟩ := Nat.exists_eq_succ_of_ne_zero hsymbol
  rw [word, hleft] at h
  have hzero : (code lengths symbol / 2 ^ (left + 1)) <<< 1 = 0 := by
    have hlt := code_lt_two_pow hfits hsymbol
    rw [hleft] at hlt
    rw [Nat.div_eq_of_lt hlt, Nat.zero_shiftLeft]
  have hfirst : firstCode lengths 1 = 0 := by rw [firstCode, firstCode, count_zero]
  have hbefore : before lengths 1 = 0 := by rw [before, before, count_zero]
  have hloop := decodeFrom_reads htable hfits hsymbol left 1 (by omega) h Nat.one_pos
  rwa [hzero, hfirst, hbefore] at hloop

/-! ## Counting the lengths -/

theorem length_countLengths (lengths : List ℕ) : (countLengths lengths).length = kMaxBits + 1 := by
  have hfold : ∀ (lengths counts : List ℕ),
      (lengths.foldl (fun count length => count.modify length (· + 1)) counts).length =
        counts.length := by
    intro lengths
    induction lengths with
    | nil => exact fun counts => rfl
    | cons ℓ lengths ih =>
      intro counts
      rw [List.foldl_cons, ih, List.length_modify]
  rw [countLengths, hfold, List.length_replicate]

theorem getElem?_countLengths (lengths : List ℕ) {ℓ : ℕ} (hℓ : ℓ ≤ kMaxBits) :
    (countLengths lengths)[ℓ]? = some (lengths.count ℓ) := by
  have hfold : ∀ (lengths counts : List ℕ) (n : ℕ), counts[ℓ]? = some n →
      (lengths.foldl (fun count length => count.modify length (· + 1)) counts)[ℓ]? =
        some (n + lengths.count ℓ) := by
    intro lengths
    induction lengths with
    | nil => exact fun counts n h => h
    | cons k lengths ih =>
      intro counts n h
      rw [List.foldl_cons]
      by_cases hk : k = ℓ
      · have hget : (counts.modify k (· + 1))[ℓ]? = some (n + 1) := by
          rw [List.getElem?_modify, h, Option.map_eq_map, Option.map_some, if_pos hk]
        rw [ih _ (n + 1) hget, hk, List.count_cons_self, Nat.add_right_comm, Nat.add_assoc]
      · have hget : (counts.modify k (· + 1))[ℓ]? = some n := by
          rw [List.getElem?_modify, h, Option.map_eq_map, Option.map_some, if_neg hk]
        rw [ih _ n hget, List.count_cons_of_ne hk]
  rw [countLengths, hfold lengths _ 0, Nat.zero_add]
  rw [List.getElem?_replicate, if_pos (Nat.lt_succ_of_le hℓ)]

/-- The counts behind the first are those of the words. -/
theorem tail_countLengths (lengths : List ℕ) :
    (countLengths lengths).tail = (List.range' 1 kMaxBits).map (count lengths) := by
  refine List.ext_getElem? fun i => ?_
  rw [List.getElem?_tail, List.getElem?_map]
  by_cases hi : i < kMaxBits
  · rw [getElem?_countLengths lengths hi, List.getElem?_range' hi, Option.map_some, Nat.one_mul,
      Nat.add_comm 1 i, count_of_pos (Nat.succ_ne_zero i)]
  · rw [List.getElem?_eq_none (by rw [length_countLengths]; omega),
      List.getElem?_eq_none (by rw [List.length_range']; omega), Option.map_none]

/-- What is left over, from a length on: the words of each length take some of what the shorter
ones have left. -/
theorem codesLeft_eq {lengths : List ℕ} (hfits : Fits lengths kMaxBits) :
    ∀ n k, k + n = kMaxBits →
      codesLeft (2 ^ k - (firstCode lengths k + count lengths k : ℕ))
          ((List.range' (k + 1) n).map (count lengths)) =
        2 ^ kMaxBits - (firstCode lengths kMaxBits + count lengths kMaxBits : ℕ) := by
  intro n
  induction n with
  | zero =>
    intro k hk
    rw [Nat.add_zero] at hk
    rw [hk]
    rfl
  | succ n ih =>
    intro k hk
    have hle := hfits.firstCode_add_count_le (k := k + 1) (by omega)
    have hstep : (2 * (2 ^ k - (firstCode lengths k + count lengths k : ℕ)) -
        (count lengths (k + 1) : ℕ) : Int) =
        2 ^ (k + 1) - (firstCode lengths (k + 1) + count lengths (k + 1) : ℕ) := by
      rw [firstCode, Int.pow_succ]
      push_cast
      ring
    have hcast : ((firstCode lengths (k + 1) + count lengths (k + 1) : ℕ) : Int) ≤ 2 ^ (k + 1) := by
      exact_mod_cast hle
    rw [List.range'_succ, List.map_cons, codesLeft, hstep, if_neg (by omega)]
    exact ih (k + 1) (by omega)

/-! ## Sorting the symbols -/

/-- The last loop of `construct`, by induction on the symbols to come: each symbol so far is at
its place, and each offset is the place of the next symbol of its length. -/
theorem sortSymbols_spec {lengths : List ℕ} (hfits : Fits lengths kMaxBits)
    (hlength : lengths.length ≤ kMaxLens) :
    ∀ (todo done offsets symbols : List ℕ), lengths = done ++ todo →
      (∀ ℓ, ℓ ≠ 0 → ℓ ≤ kMaxBits → offsets[ℓ]? = some (before lengths ℓ + done.count ℓ)) →
      symbols.length = kMaxLens →
      (∀ n < done.length, width lengths n ≠ 0 → symbols[position lengths n]? = some n) →
      (sortSymbols offsets symbols done.length todo).length = kMaxLens ∧
        ∀ n, width lengths n ≠ 0 →
          (sortSymbols offsets symbols done.length todo)[position lengths n]? = some n := by
  intro todo
  induction todo with
  | nil =>
    intro done offsets symbols hdone _ hsize hsymbols
    rw [List.append_nil] at hdone
    refine ⟨hsize, fun n hn => hsymbols n ?_ hn⟩
    rw [← hdone]
    exact (width_mem hn).1
  | cons ℓ todo ih =>
    intro done offsets symbols hdone hoffsets hsize hsymbols
    have hnext : lengths = (done ++ [ℓ]) ++ todo := by
      rw [hdone, List.append_assoc, List.singleton_append]
    have hsucc : (done ++ [ℓ]).length = done.length + 1 := by
      rw [List.length_append, List.length_singleton]
    have hwidth : width lengths done.length = ℓ := by
      rw [width, hdone, List.getD_eq_getElem?_getD, List.getElem?_append_right (Nat.le_refl _),
        Nat.sub_self]
      rfl
    have hrank : rank lengths done.length = done.count ℓ := by
      rw [rank, hwidth]
      conv_lhs => rw [hdone, List.take_left]
    rw [sortSymbols]
    by_cases hℓ : ℓ = 0
    · rw [if_neg (not_not.mpr hℓ), ← hsucc]
      refine ih (done ++ [ℓ]) offsets symbols hnext (fun k hk hle => ?_) hsize fun n hn hne => ?_
      · rw [hoffsets k hk hle, List.count_append, List.count_singleton, if_neg, Nat.add_zero]
        rw [hℓ]
        exact fun h => hk (beq_iff_eq.mp h).symm
      · rw [hsucc] at hn
        rcases Nat.eq_or_lt_of_le (Nat.le_of_lt_succ hn) with rfl | hlt
        · exact absurd (hwidth.trans hℓ) hne
        · exact hsymbols n hlt hne
    · have hne : width lengths done.length ≠ 0 := hwidth.symm ▸ hℓ
      have hle : ℓ ≤ kMaxBits := hfits.le_maxBits ℓ (hdone ▸ List.mem_append_right _ List.mem_cons_self)
      have hoffset : offsets.getD ℓ 0 = position lengths done.length := by
        rw [List.getD_eq_getElem?_getD, hoffsets ℓ hℓ hle, Option.getD_some, position, hwidth, hrank]
      have hplace : position lengths done.length < symbols.length := by
        have hlt := position_lt hne
        have hbound : before lengths (width lengths done.length + 1) ≤ lengths.length :=
          before_le_length _
        omega
      rw [if_pos hℓ, ← hsucc, hoffset]
      refine ih (done ++ [ℓ]) _ _ hnext (fun k hk hkle => ?_) ?_ fun n hn hnne => ?_
      · rw [List.getElem?_modify, hoffsets k hk hkle, List.count_append, List.count_singleton,
          Option.map_eq_map, Option.map_some]
        by_cases hkℓ : ℓ = k
        · rw [if_pos hkℓ, if_pos (beq_iff_eq.mpr hkℓ), Nat.add_assoc]
        · rw [if_neg hkℓ, if_neg (fun h => hkℓ (beq_iff_eq.mp h)), Nat.add_zero]
      · rw [List.length_set, hsize]
      · rw [hsucc] at hn
        rw [List.getElem?_set]
        rcases Nat.eq_or_lt_of_le (Nat.le_of_lt_succ hn) with rfl | hlt
        · rw [if_pos rfl, if_pos hplace]
        · rw [if_neg fun h => Nat.ne_of_gt hlt (position_inj hne hnne h)]
          exact hsymbols n hlt hnne

/-- The offsets are the places of the first symbols of each length. -/
theorem getElem?_scanl_count (lengths : List ℕ) :
    ∀ n k i, i ≤ n →
      (((List.range' k n).map (count lengths)).scanl (· + ·) (before lengths k))[i]? =
        some (before lengths (k + i)) := by
  intro n
  induction n with
  | zero =>
    intro k i hi
    rw [Nat.le_zero.mp hi]
    rfl
  | succ n ih =>
    intro k i hi
    rw [List.range'_succ, List.map_cons, List.scanl_cons]
    cases i with
    | zero => rfl
    | succ i =>
      rw [List.getElem?_cons_succ, ← before, ih (k + 1) i (Nat.le_of_succ_le_succ hi)]
      congr 2
      omega

theorem getElem?_offsets (lengths : List ℕ) {ℓ : ℕ} (hne : ℓ ≠ 0) (hle : ℓ ≤ kMaxBits) :
    (0 :: ((countLengths lengths).tail.dropLast).scanl (· + ·) 0)[ℓ]? =
      some (before lengths ℓ) := by
  obtain ⟨i, rfl⟩ := Nat.exists_eq_succ_of_ne_zero hne
  have hdrop : (countLengths lengths).tail.dropLast =
      (List.range' 1 (kMaxBits - 1)).map (count lengths) := by
    rw [tail_countLengths]
    rfl
  have hone : before lengths 1 = 0 := by rw [before, before, count_zero]
  have hscan := getElem?_scanl_count lengths (kMaxBits - 1) 1 i (by omega)
  rw [hone] at hscan
  rw [List.getElem?_cons_succ, hdrop, hscan, Nat.add_comm 1 i]

/-! ## The tables -/

variable {table : Huffman} {lengths : List ℕ}

theorem count_zero_eq_length_iff :
    (countLengths lengths).getD 0 0 = lengths.length ↔ Unused lengths := by
  rw [List.getD_eq_getElem?_getD, getElem?_countLengths lengths (Nat.zero_le _), Option.getD_some,
    List.count_eq_length]
  exact forall₂_congr fun ℓ _ => eq_comm

/-- The number of words left over is not negative where the code fits. -/
theorem codesLeft_tail (hfits : Fits lengths kMaxBits) :
    codesLeft 1 (countLengths lengths).tail =
      2 ^ kMaxBits - (firstCode lengths kMaxBits + count lengths kMaxBits : ℕ) := by
  have hleft := codesLeft_eq hfits kMaxBits 0 (Nat.zero_add _)
  rw [firstCode, count_zero, ← tail_countLengths] at hleft
  exact hleft

theorem codesLeft_nonneg (hfits : Fits lengths kMaxBits) :
    ¬ codesLeft 1 (countLengths lengths).tail < 0 := by
  have hle : ((firstCode lengths kMaxBits + count lengths kMaxBits : ℕ) : Int) ≤ 2 ^ kMaxBits := by
    exact_mod_cast hfits.firstCode_add_count_le (Nat.le_refl _)
  rw [codesLeft_tail hfits]
  omega

/-- **`construct` returns zero exactly for complete codes and for codes without words.** -/
theorem construct_eq_zero_iff (hfits : Fits lengths kMaxBits) :
    (construct table lengths).1 = 0 ↔ Complete lengths kMaxBits ∨ Unused lengths := by
  rw [construct]
  dsimp only
  by_cases hunused : Unused lengths
  · rw [if_pos (count_zero_eq_length_iff.mpr hunused)]
    exact iff_of_true rfl (Or.inr hunused)
  · rw [if_neg (fun h => hunused (count_zero_eq_length_iff.mp h)), if_neg (codesLeft_nonneg hfits),
      codesLeft_tail hfits, complete_iff, or_iff_left hunused, sub_eq_zero, eq_comm]
    exact_mod_cast Iff.rfl

/-- **The table that `construct` leaves describes the code**, whatever was in it. -/
theorem represents_construct (hfits : Fits lengths kMaxBits) (hlength : lengths.length ≤ kMaxLens)
    (hsize : table.symbol.length = kMaxLens) :
    Represents (construct table lengths).2 lengths ∧
      (construct table lengths).2.symbol.length = kMaxLens := by
  have hcount : ∀ ℓ, ℓ ≠ 0 → ℓ ≤ kMaxBits →
      (countLengths lengths).getD ℓ 0 = count lengths ℓ := by
    intro ℓ hne hle
    rw [List.getD_eq_getElem?_getD, getElem?_countLengths lengths hle, Option.getD_some,
      count_of_pos hne]
  rw [construct]
  dsimp only
  by_cases hunused : Unused lengths
  · rw [if_pos (count_zero_eq_length_iff.mpr hunused)]
    refine ⟨⟨hcount, fun n hn => ?_⟩, hsize⟩
    exact absurd (hunused _ (width_mem hn).2) hn
  · rw [if_neg (fun h => hunused (count_zero_eq_length_iff.mp h)), if_neg (codesLeft_nonneg hfits)]
    have hsort := sortSymbols_spec hfits hlength lengths []
      (0 :: ((countLengths lengths).tail.dropLast).scanl (· + ·) 0) table.symbol rfl
      (fun ℓ hne hle => by rw [getElem?_offsets lengths hne hle]; rfl) hsize
      (fun n hn => absurd hn (Nat.not_lt_zero n))
    exact ⟨⟨hcount, hsort.2⟩, hsort.1⟩

/-! ## Any bits -/

theorem fillBits_ne_outOfBounds (state : Inflater) (value need : ℕ) :
    fillBits state value need ≠ .error .outOfBounds := by
  induction state, value using fillBits.induct need with
  | case1 state value hlt hget =>
    rw [fillBits, if_pos hlt, hget]
    rintro ⟨⟩
  | case2 state value hlt byte hget ih =>
    rw [fillBits, if_pos hlt, hget]
    exact ih
  | case3 state value hlt =>
    rw [fillBits, if_neg hlt]
    rintro ⟨⟩

theorem bits_ne_outOfBounds (state : Inflater) (need : ℕ) :
    bits state need ≠ .error .outOfBounds := by
  have hfill := fillBits_ne_outOfBounds state state.bitBuffer need
  rw [bits]
  cases hcall : fillBits state state.bitBuffer need with
  | error e =>
    rw [hcall] at hfill
    intro h
    exact hfill (congrArg Except.error (Except.error.inj h))
  | ok result => rintro ⟨⟩

/-- The loop of `decode_symbol` on any bits: what has been read is not below the first word of its
length, so the place that is looked up is one of the places of the symbols. -/
theorem decodeFrom_ne_outOfBounds (hcount : ∀ ℓ, ℓ ≠ 0 → ℓ ≤ kMaxBits →
      table.count.getD ℓ 0 = count lengths ℓ) (hsize : lengths.length ≤ table.symbol.length)
    (state : Inflater) {length prior : ℕ} (hpos : length ≠ 0)
    (hprior : firstCode lengths length ≤ prior) :
    decodeFrom table state length prior (firstCode lengths length) (before lengths length) ≠
      .error .outOfBounds := by
  induction hn : kMaxBits + 1 - length using Nat.strong_induction_on
    generalizing state length prior with
  | h n ih =>
    by_cases hle : length ≤ kMaxBits
    · cases hbit : bits state 1 with
      | error e =>
        have hbits := bits_ne_outOfBounds state 1
        rw [decodeFrom, if_pos hle, hbit]
        rw [hbit] at hbits
        exact fun h => hbits (congrArg Except.error (Except.error.inj h))
      | ok result =>
        obtain ⟨bit, next⟩ := result
        have hge : firstCode lengths length ≤ prior ||| bit := hprior.trans Nat.left_le_or
        rw [decodeFrom_step hle hbit, hcount length hpos hle]
        by_cases hlt : prior ||| bit < firstCode lengths length + count lengths length
        · have hplace : before lengths length + ((prior ||| bit) - firstCode lengths length) <
              table.symbol.length := by
            have hbefore : before lengths (length + 1) ≤ lengths.length := before_le_length _
            rw [before] at hbefore
            omega
          rw [if_pos hlt, List.getElem?_eq_getElem hplace]
          rintro ⟨⟩
        · have hnext : (firstCode lengths length + count lengths length) <<< 1 =
              firstCode lengths (length + 1) := by
            rw [firstCode, Nat.shiftLeft_eq, Nat.pow_one, Nat.mul_comm]
          rw [if_neg hlt, hnext]
          refine ih _ (by omega) next (Nat.succ_ne_zero _) ?_ rfl
          rw [← hnext, Nat.shiftLeft_eq, Nat.shiftLeft_eq]
          exact Nat.mul_le_mul_right _ (Nat.le_of_not_lt hlt)
    · rw [decodeFrom, if_neg hle]
      rintro ⟨⟩

theorem Reading.remaining_eq (h : Reading data state rest out) : state.remaining = rest.length := by
  rw [← h.rest_eq, List.length_append, length_littleEndian, length_bytesBits, List.length_drop,
    Inflater.remaining, h.input_eq]

/-- **Canonical codes.**  With the table of `construct`, `decode_symbol` reads the word of each used
symbol, whatever bits come behind it, and no more bits than those of the word; on no bits at all is a
place outside the table looked up; and `construct` tells whether the code is complete or has no
words. -/
theorem decodeSymbol_construct (hfits : Fits lengths kMaxBits) (hlength : lengths.length ≤ kMaxLens)
    (hsize : table.symbol.length = kMaxLens) :
    (∀ symbol, width lengths symbol ≠ 0 → ∀ data state rest out,
      Reading data state (word lengths symbol ++ rest) out →
        ∃ state', decodeSymbol state (construct table lengths).2 = .ok (symbol, state') ∧
          Reading data state' rest out ∧
            state'.remaining + width lengths symbol = state.remaining) ∧
      (∀ state, decodeSymbol state (construct table lengths).2 ≠ .error .outOfBounds) ∧
      ((construct table lengths).1 = 0 ↔ Complete lengths kMaxBits ∨ Unused lengths) := by
  obtain ⟨htable, hsymbols⟩ := represents_construct hfits hlength hsize
  refine ⟨fun symbol hsymbol data state rest out h => ?_, fun state => ?_,
    construct_eq_zero_iff hfits⟩
  · obtain ⟨state', hdecode, h'⟩ := h.decodeSymbol htable hfits hsymbol
    refine ⟨state', hdecode, h', ?_⟩
    rw [h'.remaining_eq, h.remaining_eq, List.length_append, word, length_bigEndian, Nat.add_comm]
  · have hfirst : firstCode lengths 1 = 0 := by rw [firstCode, firstCode, count_zero]
    have hbefore : before lengths 1 = 0 := by rw [before, before, count_zero]
    have hloop := decodeFrom_ne_outOfBounds htable.count_eq (hlength.trans_eq hsymbols.symm) state
      Nat.one_ne_zero (Nat.le_of_eq hfirst)
    rwa [hfirst, hbefore] at hloop

/-- A code with room left over: the bits `101` are the word of the last of three symbols. -/
theorem decodeSymbol_construct_three :
    ∃ state', decodeSymbol { input := [5] } (construct {} [1, 3, 3]).2 = .ok (2, state') ∧
      state'.remaining + 3 = 8 := by
  have hreading : Reading [5] { input := [5] } (word [1, 3, 3] 2 ++ List.replicate 5 false) [] :=
    ⟨rfl, Nat.zero_le _, by decide, by decide, by decide, rfl⟩
  have hfits : Fits [1, 3, 3] kMaxBits := by decide
  have hsize : ({} : Huffman).symbol.length = kMaxLens := List.length_replicate
  obtain ⟨state', hdecode, -, hremaining⟩ :=
    (decodeSymbol_construct hfits (by decide) hsize).1 2 (by decide) _ _ _ _ hreading
  exact ⟨state', hdecode, hremaining⟩

end Aetheris.Png
