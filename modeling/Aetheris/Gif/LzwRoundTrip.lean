import Aetheris.Gif.Lzw

/-!
# Images in GIF files are read back

`lzw_decode` reads the codes with the widths that they have been written with, and its dictionary is
the table of the decoder of the library.  This is a simulation: `Represents` relates the two
decoders, a code leads from related states to related states, and the width of the next code is the
same on both sides.  So what the library proves of all encodings holds of the source
(`lzwDecode_encoding`).
-/

namespace Aetheris.Gif

open BitString Png Lzw

/-! ## Codes are read -/

/-- The bits of bytes, one by one. -/
theorem getElem?_bytesBits (data : Bytes) (position : ℕ) :
    (bytesBits data)[position]? =
      data[position / 8]?.map fun byte => byte.toNat.testBit (position % 8) := by
  induction data generalizing position with
  | nil => rfl
  | cons byte data ih =>
    rw [bytesBits_cons]
    by_cases hlt : position < 8
    · rw [List.getElem?_append_left (by rw [length_littleEndian]; exact hlt),
        getElem?_littleEndian hlt, Nat.div_eq_of_lt hlt, Nat.mod_eq_of_lt hlt]
      rfl
    · obtain ⟨k, rfl⟩ := Nat.exists_eq_add_of_le (Nat.le_of_not_lt hlt)
      rw [List.getElem?_append_right (by rw [length_littleEndian]; exact Nat.le_add_right 8 k),
        length_littleEndian, Nat.add_sub_cancel_left, ih, Nat.add_div_left _ (by decide),
        Nat.add_mod_left, List.getElem?_cons_succ]

/-- One more bit of a number. -/
theorem mod_two_pow_succ_eq_or (v i : ℕ) :
    v % 2 ^ i ||| (v.testBit i).toNat <<< i = v % 2 ^ (i + 1) := by
  rw [Nat.or_comm, Nat.shiftLeft_eq, Nat.mul_comm,
    ← Nat.two_pow_add_eq_or_of_lt (Nat.mod_lt v (Nat.two_pow_pos i)), Nat.mod_pow_succ,
    Nat.toNat_testBit, Nat.add_comm]

theorem readCode_eq_of_bits {data : Bytes} {size v position : ℕ}
    (hbits : ∀ i < size, (bytesBits data)[position + i]? = some (v.testBit i)) {i : ℕ}
    (hi : i ≤ size) :
    readCode data size i (v % 2 ^ i) (position + i) = some (v % 2 ^ size, position + size) := by
  induction hn : size - i generalizing i with
  | zero =>
    have heq : i = size := by omega
    rw [readCode, if_neg (by omega), heq]
  | succ n ih =>
    have hlt : i < size := by omega
    have hbit := hbits i hlt
    rw [getElem?_bytesBits, Option.map_eq_some_iff] at hbit
    obtain ⟨byte, hbyte, hbit⟩ := hbit
    have hshift : byte.toNat >>> ((position + i) &&& 7) &&& 1 = (v.testBit i).toNat := by
      rw [← hbit, Nat.toNat_testBit, Nat.and_one_is_mod, Nat.shiftRight_eq_div_pow,
        show (7 : ℕ) = 2 ^ 3 - 1 from rfl, Nat.and_two_pow_sub_one_eq_mod]
    rw [readCode, if_pos hlt, Nat.shiftRight_eq_div_pow, show (2 ^ 3 : ℕ) = 8 from rfl, hbyte]
    dsimp only
    rw [hshift, mod_two_pow_succ_eq_or]
    exact ih (by omega) (by omega)

/-- **A code is read.** -/
theorem readCode_eq {data : Bytes} {size v position : ℕ} {rest : List Bool} (hv : v < 2 ^ size)
    (h : (bytesBits data).drop position = littleEndian size v ++ rest) :
    readCode data size 0 0 position = some (v, position + size) ∧
      (bytesBits data).drop (position + size) = rest := by
  constructor
  · have hbits : ∀ i < size, (bytesBits data)[position + i]? = some (v.testBit i) := by
      intro i hi
      rw [← List.getElem?_drop, h,
        List.getElem?_append_left (by rw [length_littleEndian]; exact hi), getElem?_littleEndian hi]
    have hread := readCode_eq_of_bits hbits (Nat.zero_le size)
    rwa [Nat.pow_zero, Nat.mod_one, Nat.add_zero, Nat.mod_eq_of_lt hv] at hread
  · rw [← List.drop_drop, h]
    exact List.drop_left' (length_littleEndian size v)

/-! ## The width of codes -/

theorem size_succ (n : ℕ) :
    Nat.size (n + 1) = if n + 1 = 2 ^ Nat.size n then Nat.size n + 1 else Nat.size n := by
  have hlt : n < 2 ^ Nat.size n := Nat.lt_size_self n
  split
  · rename_i heq
    rw [heq, Nat.size_pow]
  · rename_i hne
    refine le_antisymm (Nat.size_le.mpr (by omega)) (Nat.size_le_size (Nat.le_succ n))

/-- A code becomes wider exactly where the next one needs it. -/
theorem width_succ {minCodeSize n : ℕ} (h : endCode minCodeSize + n < 4096) :
    width minCodeSize (n + 1) =
      if endCode minCodeSize + n + 1 = 1 <<< width minCodeSize n ∧ width minCodeSize n < 12 then
        width minCodeSize n + 1
      else width minCodeSize n := by
  have hsize : Nat.size (endCode minCodeSize + n) ≤ 12 := Nat.size_le.mpr h
  have hwidth : width minCodeSize n = Nat.size (endCode minCodeSize + n) := min_eq_right hsize
  rw [hwidth, width, ← Nat.add_assoc, size_succ, Nat.one_shiftLeft]
  split
  · rename_i heq
    by_cases hlt : Nat.size (endCode minCodeSize + n) < 12
    · rw [if_pos ⟨heq, hlt⟩]
      exact min_eq_right hlt
    · rw [if_neg fun hand => hlt hand.2]
      omega
  · rename_i hne
    rw [if_neg fun hand => hne hand.1]
    exact min_eq_right hsize

/-- Where the table is full, all codes have 12 bits. -/
theorem width_of_le {minCodeSize n : ℕ} (h : 4096 ≤ endCode minCodeSize + n) :
    width minCodeSize n = 12 :=
  min_eq_left (Nat.succ_le_of_lt
    (Nat.lt_size.mpr (show 2 ^ 11 ≤ endCode minCodeSize + n by omega)))

/-- A code of the table fits into its width. -/
theorem lt_two_pow_width {minCodeSize n code : ℕ} (hcode : code ≤ endCode minCodeSize + n)
    (hlt : code < 4096) : code < 2 ^ width minCodeSize n := by
  rw [width]
  rcases Nat.le_total 12 (Nat.size (endCode minCodeSize + n)) with hle | hle
  · rw [min_eq_left hle]
    exact hlt
  · rw [min_eq_right hle]
    exact hcode.trans_lt (Nat.lt_size_self _)

/-! ## The tables -/

theorem clearCode_eq (minCodeSize : ℕ) : clearCode minCodeSize = 2 ^ minCodeSize :=
  Nat.one_shiftLeft minCodeSize

theorem first_format (minCodeSize : ℕ) : (format minCodeSize).first = endCode minCodeSize + 1 := by
  show ((List.range (clearCode minCodeSize)).map UInt8.ofNat).length + 2 = _
  rw [List.length_map, List.length_range, endCode]

/-- A letter is a color. -/
theorem getElem?_letters (minCodeSize code : ℕ) : (format minCodeSize).letters[code]? =
    if code < clearCode minCodeSize then some (UInt8.ofNat code) else none := by
  rw [format, List.getElem?_map]
  split
  · rename_i hlt
    rw [List.getElem?_range hlt]
    rfl
  · rename_i hge
    rw [List.getElem?_eq_none (by rw [List.length_range]; omega)]
    rfl

/-- The decoder of `lzw_decode` has the table of a decoder of the library; `n` codes have come
behind the last clear code. -/
structure Represents (minCodeSize n : ℕ) (d : LzwDecoder) (a : Decoder Byte) : Prop where
  codeSize_eq : d.codeSize = width minCodeSize n
  nextCode_eq : d.nextCode = endCode minCodeSize + 1 + a.table.length
  previous_eq : d.previous = a.previous
  length_eq : d.dictionary.length = 4096
  /-- The dictionary may have more entries, of the time before the last clear code. -/
  dictionary_eq : ∀ code word, (format minCodeSize).word a.table code = some word →
    d.dictionary[code]? = some word
  ne_nil : ∀ word ∈ a.table, word ≠ []
  table_eq : a.table.length = min (n - 1) (4095 - endCode minCodeSize)
  previous_eq_nil_iff : a.previous = [] ↔ n = 0

section

variable {minCodeSize n code bitPosition : ℕ} {d : LzwDecoder} {a : Decoder Byte} {word : Bytes}

/-- A code of a word is below the next one, and neither the clear code nor the end code. -/
theorem lt_of_word_eq {table : List Bytes}
    (h : (format minCodeSize).word table code = some word) :
    code < clearCode minCodeSize ∨
      endCode minCodeSize + 1 ≤ code ∧ code < endCode minCodeSize + 1 + table.length := by
  rw [Format.word, getElem?_letters] at h
  by_cases hlt : code < clearCode minCodeSize
  · exact Or.inl hlt
  · rw [if_neg hlt, first_format] at h
    dsimp only at h
    split at h
    · cases h
    · have hindex := (List.getElem?_eq_some_iff.mp h).1
      exact Or.inr (by omega)

/-- The clear code and the end code are no words. -/
theorem code_ne (hword : a.word (format minCodeSize) code = some word) :
    code ≠ clearCode minCodeSize ∧ code ≠ endCode minCodeSize := by
  have hclear : clearCode minCodeSize < endCode minCodeSize := Nat.lt_succ_self _
  rw [Decoder.word] at hword
  split at hword
  · rename_i known hknown
    rcases lt_of_word_eq hknown with hcolor | hentry
    · omega
    · omega
  · split at hword
    · rename_i hnext
      rw [first_format] at hnext
      omega
    · cases hword

theorem ne_nil_of_word_eq {table : List Bytes} (htable : ∀ word ∈ table, word ≠ [])
    (h : (format minCodeSize).word table code = some word) : word ≠ [] := by
  rw [Format.word] at h
  split at h
  · rw [← Option.some.inj h]
    exact List.cons_ne_nil _ _
  · split at h
    · cases h
    · exact htable word (List.mem_of_getElem? h)

/-- In an empty table there are the colors. -/
theorem dictionary_clear {dictionary : List Bytes} {table : List Bytes}
    (h : ∀ code word, (format minCodeSize).word table code = some word →
      dictionary[code]? = some word) :
    ∀ code word, (format minCodeSize).word [] code = some word → dictionary[code]? = some word := by
  intro code word hword
  refine h code word ?_
  rw [Format.word] at hword ⊢
  split at hword
  · exact hword
  · split at hword
    · cases hword
    · rw [List.getElem?_nil] at hword
      cases hword

/-- Behind a clear code, codes have one bit more than the colors. -/
theorem width_zero (hmin : 2 ≤ minCodeSize) (hmax : minCodeSize ≤ 8) :
    width minCodeSize 0 = minCodeSize + 1 := by
  rw [width, Nat.add_zero, endCode, clearCode_eq]
  interval_cases minCodeSize <;> decide

/-- The second code is as wide as the first one. -/
theorem width_one (hmin : 2 ≤ minCodeSize) (hmax : minCodeSize ≤ 8) :
    width minCodeSize 1 = width minCodeSize 0 := by
  rw [width, width, Nat.add_zero, endCode, clearCode_eq]
  interval_cases minCodeSize <;> decide

/-- The reserved codes leave room for words. -/
theorem endCode_lt (hmax : minCodeSize ≤ 8) : endCode minCodeSize < 258 := by
  rw [endCode, clearCode_eq]
  have hpow : 2 ^ minCodeSize ≤ 2 ^ 8 := Nat.pow_le_pow_right Nat.two_pos hmax
  omega

namespace Represents

theorem clear (h : Represents minCodeSize n d a) (hmin : 2 ≤ minCodeSize) (hmax : minCodeSize ≤ 8)
    (bitPosition : ℕ) : Represents minCodeSize 0 (d.clear minCodeSize bitPosition) {} where
  codeSize_eq := (width_zero hmin hmax).symm
  nextCode_eq := rfl
  previous_eq := rfl
  length_eq := h.length_eq
  dictionary_eq := dictionary_clear h.dictionary_eq
  ne_nil _ hword := nomatch hword
  table_eq := (Nat.zero_min _).symm
  previous_eq_nil_iff := iff_of_true rfl rfl

/-- Both decoders have the same entry for a code. -/
theorem entry_eq (h : Represents minCodeSize n d a)
    (hword : a.word (format minCodeSize) code = some word) : d.entry code = some word := by
  have hclear : clearCode minCodeSize < endCode minCodeSize := Nat.lt_succ_self _
  rw [Decoder.word] at hword
  rw [LzwDecoder.entry]
  split at hword
  · rename_i known hknown
    rw [Option.some.injEq] at hword
    rw [hword] at hknown
    have hlt : code < d.nextCode := by
      rw [h.nextCode_eq]
      rcases lt_of_word_eq hknown with hcolor | hentry
      · omega
      · exact hentry.2
    have hentry : d.dictionary.getD code [] = word := by
      rw [List.getD_eq_getElem?_getD, h.dictionary_eq code word hknown]
      rfl
    rw [hentry, if_pos ⟨hlt, ne_nil_of_word_eq h.ne_nil hknown⟩]
  · split at hword
    · rename_i hnext
      rw [first_format, ← h.nextCode_eq] at hnext
      rw [if_neg fun hand => Nat.lt_irrefl _ (hnext.1 ▸ hand.1), h.previous_eq]
      cases hprevious : a.previous with
      | nil =>
        rw [hprevious] at hword
        cases hword
      | cons front rest =>
        rw [hprevious] at hword
        exact hword
    · cases hword

/-- The next code is not larger than the table that the encoder has. -/
theorem code_le (h : Represents minCodeSize n d a) (hmax : minCodeSize ≤ 8)
    (hword : a.word (format minCodeSize) code = some word) :
    code ≤ endCode minCodeSize + n ∧ code < 4096 := by
  have hclear : clearCode minCodeSize < endCode minCodeSize := Nat.lt_succ_self _
  have hend := endCode_lt hmax
  have htable := h.table_eq
  rw [Decoder.word] at hword
  split at hword
  · rename_i known hknown
    rcases lt_of_word_eq hknown with hcolor | hentry
    · omega
    · omega
  · split at hword
    · rename_i hnext
      rw [first_format] at hnext
      have hpos : n ≠ 0 := by
        intro hzero
        rw [h.previous_eq_nil_iff.mpr hzero] at hword
        cases hword
      exact ⟨by omega, hnext.2⟩
    · cases hword

theorem word_ne_nil (h : Represents minCodeSize n d a)
    (hword : a.word (format minCodeSize) code = some word) : word ≠ [] := by
  rw [Decoder.word] at hword
  split at hword
  · rename_i known hknown
    rw [← Option.some.inj hword]
    exact ne_nil_of_word_eq h.ne_nil hknown
  · split at hword
    · rw [Option.map_eq_some_iff] at hword
      obtain ⟨letter, -, rfl⟩ := hword
      exact List.append_ne_nil_of_right_ne_nil _ (List.cons_ne_nil _ _)
    · cases hword

/-- The first word behind a clear code is not kept, and neither is one for which there is no
room. -/
theorem emit_of_not (h : Represents minCodeSize n d a) (hword : word ≠ [])
    (hcreate : ¬ (d.previous ≠ [] ∧ d.nextCode < 4096))
    (hwidth : width minCodeSize (n + 1) = width minCodeSize n)
    (htable : a.table.length = min n (4095 - endCode minCodeSize)) :
    Represents minCodeSize (n + 1) (d.emit word bitPosition)
      (a.learn (format minCodeSize) word) := by
  have hlearn : (a.learn (format minCodeSize) word).table = a.table := by
    rw [Decoder.learn, Format.insert, first_format, ← h.nextCode_eq]
    dsimp only
    split
    · rfl
    · rename_i hprevious
      refine if_neg fun hlt => hcreate ⟨?_, hlt⟩
      rw [h.previous_eq]
      exact fun hnil => hprevious (by rw [hnil]; rfl)
  rw [LzwDecoder.emit, if_neg hcreate]
  exact {
    codeSize_eq := h.codeSize_eq.trans hwidth.symm
    nextCode_eq := by rw [hlearn]; exact h.nextCode_eq
    previous_eq := rfl
    length_eq := h.length_eq
    dictionary_eq := by rw [hlearn]; exact h.dictionary_eq
    ne_nil := by rw [hlearn]; exact h.ne_nil
    table_eq := by rw [hlearn]; exact htable
    previous_eq_nil_iff := iff_of_false hword (Nat.succ_ne_zero n) }

/-- A word goes into both tables. -/
theorem emit_create (h : Represents minCodeSize n d a) (hword : word ≠ [])
    (hprevious : d.previous ≠ []) (hnext : d.nextCode < 4096) :
    Represents minCodeSize (n + 1) (d.emit word bitPosition)
      (a.learn (format minCodeSize) word) := by
  have hpos : n ≠ 0 := fun hzero =>
    hprevious (h.previous_eq.trans (h.previous_eq_nil_iff.mpr hzero))
  have htable := h.table_eq
  have hnextCode := h.nextCode_eq
  have hlearn : (a.learn (format minCodeSize) word).table =
      a.table ++ [a.previous ++ word.take 1] := by
    rw [Decoder.learn, Format.insert, first_format, ← hnextCode]
    dsimp only
    rw [if_neg fun hempty => hprevious (h.previous_eq.trans (List.isEmpty_iff.mp hempty))]
    exact if_pos hnext
  have hlength : (a.table ++ [a.previous ++ word.take 1]).length = a.table.length + 1 := by
    rw [List.length_append, List.length_singleton]
  rw [LzwDecoder.emit, if_pos ⟨hprevious, hnext⟩]
  exact {
    codeSize_eq := by
      show (if d.nextCode + 1 = 1 <<< d.codeSize ∧ d.codeSize < 12 then d.codeSize + 1
        else d.codeSize) = _
      rw [width_succ (by omega), h.codeSize_eq,
        show d.nextCode + 1 = endCode minCodeSize + n + 1 by omega]
    nextCode_eq := by
      rw [hlearn, hlength]
      show d.nextCode + 1 = _
      omega
    previous_eq := rfl
    length_eq := (List.length_set ..).trans h.length_eq
    dictionary_eq := by
      intro code known hknown
      rw [hlearn, Format.word_append, first_format, ← hnextCode] at hknown
      show (d.dictionary.set d.nextCode (d.previous ++ word.take 1))[code]? = some known
      cases hold : (format minCodeSize).word a.table code with
      | some other =>
        rw [hold, Option.some_or] at hknown
        have hlt : code ≠ d.nextCode := by
          have hclear : clearCode minCodeSize < endCode minCodeSize := Nat.lt_succ_self _
          rcases lt_of_word_eq hold with hcolor | hentry
          · omega
          · omega
        rw [List.getElem?_set_ne hlt.symm, h.dictionary_eq code other hold, hknown]
      | none =>
        rw [hold, Option.none_or] at hknown
        split at hknown
        · rename_i heq
          rw [heq, List.getElem?_set_self (by rw [h.length_eq]; exact hnext), h.previous_eq, hknown]
        · cases hknown
    ne_nil := by
      rw [hlearn]
      intro known hknown
      rcases List.mem_append.mp hknown with hold | hnew
      · exact h.ne_nil known hold
      · rw [List.mem_singleton.mp hnew, ← h.previous_eq]
        exact List.append_ne_nil_of_left_ne_nil hprevious _
    table_eq := by
      rw [hlearn, hlength]
      omega
    previous_eq_nil_iff := iff_of_false hword (Nat.succ_ne_zero n) }

/-- **Both decoders learn the same.** -/
theorem emit (h : Represents minCodeSize n d a) (hmin : 2 ≤ minCodeSize) (hmax : minCodeSize ≤ 8)
    (hword : word ≠ []) (bitPosition : ℕ) :
    Represents minCodeSize (n + 1) (d.emit word bitPosition)
      (a.learn (format minCodeSize) word) := by
  have hend := endCode_lt hmax
  have htable := h.table_eq
  have hnextCode := h.nextCode_eq
  rcases Nat.eq_zero_or_pos n with rfl | hpos
  · have hprevious : d.previous = [] := h.previous_eq.trans (h.previous_eq_nil_iff.mpr rfl)
    exact h.emit_of_not hword (fun hand => hand.1 hprevious) (width_one hmin hmax) (by omega)
  · by_cases hnext : d.nextCode < 4096
    · have hprevious : d.previous ≠ [] := fun hnil =>
        absurd (h.previous_eq_nil_iff.mp (h.previous_eq.symm.trans hnil)) (by omega)
      exact h.emit_create hword hprevious hnext
    · refine h.emit_of_not hword (fun hand => hnext hand.2) ?_ (by omega)
      rw [width_of_le (by omega), width_of_le (by omega)]

end Represents

/-! ## The data of an image -/

theorem lzwLoop_of_read {data : Bytes}
    (hread : readCode data d.codeSize 0 0 d.bitPosition = some (code, bitPosition)) :
    lzwLoop data minCodeSize d =
      if code = clearCode minCodeSize then
        lzwLoop data minCodeSize (d.clear minCodeSize bitPosition)
      else if code = endCode minCodeSize then d.out
      else
        match d.entry code with
        | none => d.out
        | some entry => lzwLoop data minCodeSize (d.emit entry bitPosition) := by
  rw [lzwLoop]
  split
  · rename_i hnone
    rw [hread] at hnone
    cases hnone
  · rename_i other position hsome
    rw [hread, Option.some.injEq, Prod.mk.injEq] at hsome
    obtain ⟨rfl, rfl⟩ := hsome
    rfl

/-- **The loop puts out the text that the codes stand for.** -/
theorem lzwLoop_packed {data : Bytes} {padding : List Bool} (hmin : 2 ≤ minCodeSize)
    (hmax : minCodeSize ≤ 8) {commands : List Command} {text : Bytes}
    (h : Represents minCodeSize n d a) (htext : decode (format minCodeSize) a commands = some text)
    (hbits : (bytesBits data).drop d.bitPosition = packed minCodeSize n commands ++ padding) :
    lzwLoop data minCodeSize d = d.out ++ text := by
  have hend := endCode_lt hmax
  have hclear : clearCode minCodeSize < endCode minCodeSize := Nat.lt_succ_self _
  induction commands generalizing n d a text with
  | nil =>
    rw [packed, ← h.codeSize_eq] at hbits
    have hlt : endCode minCodeSize < 2 ^ d.codeSize := by
      rw [h.codeSize_eq]
      exact lt_two_pow_width (Nat.le_add_right _ _) (by omega)
    obtain ⟨hread, -⟩ := readCode_eq hlt hbits
    rw [lzwLoop_of_read hread, if_neg (by omega), if_pos rfl, ← Option.some.inj htext,
      List.append_nil]
  | cons command commands ih =>
    cases command with
    | clear =>
      rw [packed, ← h.codeSize_eq, List.append_assoc] at hbits
      have hlt : clearCode minCodeSize < 2 ^ d.codeSize := by
        rw [h.codeSize_eq]
        exact lt_two_pow_width (by omega) (by omega)
      obtain ⟨hread, hrest⟩ := readCode_eq hlt hbits
      rw [lzwLoop_of_read hread, if_pos rfl]
      exact ih (h.clear hmin hmax _) htext hrest
    | emit code =>
      rw [decode, Option.bind_eq_bind, Option.bind_eq_some_iff] at htext
      obtain ⟨word, hword, htext⟩ := htext
      rw [Option.bind_eq_some_iff] at htext
      obtain ⟨rest, hdecode, htext⟩ := htext
      rw [packed, ← h.codeSize_eq, List.append_assoc] at hbits
      obtain ⟨hle, hlt⟩ := h.code_le hmax hword
      obtain ⟨hread, hrest⟩ := readCode_eq
        (by rw [h.codeSize_eq]; exact lt_two_pow_width hle hlt) hbits
      obtain ⟨hnotClear, hnotEnd⟩ := code_ne hword
      rw [lzwLoop_of_read hread, if_neg hnotClear, if_neg hnotEnd, h.entry_eq hword]
      dsimp only
      rw [ih (h.emit hmin hmax (h.word_ne_nil hword) _) hdecode hrest, ← Option.some.inj htext]
      exact List.append_assoc _ _ _

theorem represents_start (hmin : 2 ≤ minCodeSize) (hmax : minCodeSize ≤ 8) (out : Bytes) :
    Represents minCodeSize 0 (.start minCodeSize out) {} where
  codeSize_eq := (width_zero hmin hmax).symm
  nextCode_eq := rfl
  previous_eq := rfl
  length_eq := by
    rw [LzwDecoder.start, List.length_map, List.length_range]
  dictionary_eq := by
    intro code word hword
    have hcode := lt_of_word_eq hword
    have hend := endCode_lt hmax
    rw [Format.word, getElem?_letters] at hword
    rcases hcode with hcolor | hentry
    · have hclear : clearCode minCodeSize < endCode minCodeSize := Nat.lt_succ_self _
      rw [if_pos hcolor] at hword
      rw [LzwDecoder.start, List.getElem?_map, List.getElem?_range (by omega), Option.map_some, if_pos hcolor]
      exact hword
    · exact absurd hentry.2 (by rw [List.length_nil]; omega)
  ne_nil _ hword := nomatch hword
  table_eq := (Nat.zero_min _).symm
  previous_eq_nil_iff := iff_of_true rfl rfl

/-- **Every way of writing a text is read back.** -/
theorem lzwDecode_encoding (hmin : 2 ≤ minCodeSize) (hmax : minCodeSize ≤ 8) {text data : Bytes}
    (h : Encoding minCodeSize text data) (out : Bytes) :
    lzwDecode data minCodeSize out = (true, out ++ text) := by
  obtain ⟨commands, padding, hencodes, hbits⟩ := h
  have hdecode := hencodes.decode (Lags.start (format minCodeSize) text)
  rw [lzwDecode, if_neg (by omega), @lzwLoop_packed _ _ _ _ data padding hmin hmax
    (.clear :: commands) text (represents_start hmin hmax out) hdecode hbits]
  rfl

end

/-- `1 1 1`: the second code stands for the word that the decoder does not have yet. -/
theorem lzwDecode_encoding_ones : lzwDecode [0x8c, 0x0b] 2 [] = (true, [] ++ [1, 1, 1]) := by
  have hencodes : Encodes (format 2) [] ([1] ++ ([1, 1] ++ [])) [.emit 1, .emit 6] :=
    .emit (by decide) (.emit (by decide) (.nil _))
  exact lzwDecode_encoding (by decide) (by decide)
    ⟨_, [false, false, false, false], hencodes, by decide⟩ []

end Aetheris.Gif
