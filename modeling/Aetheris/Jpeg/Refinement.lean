import Aetheris.Jpeg.Block
import Aetheris.Library.Window

/-!
# The later passes over the AC coefficients

A later pass adds one bit to the coefficients of a band.  T.81 says in G.1.2.3 what its data mean:
the coefficients that are not zero have a correction bit each, which stands behind the code that
passes over them, and a code has the number of zeros that it passes over.  The specification is
stated over the bits and codes of the reader, and over the coefficients as integers.

Each loop of `decode_ac` is followed through what is prescribed for it.  They do it up to a code for
the end of the band, whose own block is counted once too often.
-/

namespace Aetheris.Jpeg

open Aetheris.Computation Window

/-! ## What is prescribed -/

/-- The next `count` bits behind the bits of `value`, the first one the highest. -/
def nextBits (data : Bytes) : ℕ → ℕ → Reader → Option (ℕ × Reader)
  | 0, value, reader => some (value, reader)
  | count + 1, value, reader =>
    match readBit data reader with
    | (none, _) => none
    | (some b, reader) => nextBits data count (2 * value + b) reader

/-- A coefficient behind its correction bit: a one makes its magnitude greater. -/
def corrected (low : ℕ) (c : ℤ) (bit : ℕ) : ℤ := if bit = 0 then c else c + c.sign * 2 ^ low

/-- A new coefficient and its sign bit. -/
def signed (low : ℕ) (sign : ℕ) : ℤ := if sign = 0 then -2 ^ low else 2 ^ low

/-- The code is `EOBn`. -/
def IsEndOfBand (code : ℕ) : Prop := code % 16 = 0 ∧ code / 16 < 15

/-- Coefficients are passed over: the ones that are not zero are corrected. -/
inductive Corrects (data : Bytes) (low : ℕ) : Reader → List ℤ → Reader → List ℤ → Prop
  | nil (reader : Reader) : Corrects data low reader [] reader []
  | zero {reader reader' : Reader} {band band' : List ℤ}
      (rest : Corrects data low reader band reader' band') :
      Corrects data low reader (0 :: band) reader' (0 :: band')
  | correct {reader mid reader' : Reader} {band band' : List ℤ} {c : ℤ} {bit : ℕ} (hc : c ≠ 0)
      (hbit : readBit data reader = (some bit, mid))
      (rest : Corrects data low mid band reader' band') :
      Corrects data low reader (c :: band) reader' (corrected low c bit :: band')

/-- The rest of a band is read from its codes.  The last number is the length of the end-of-band
run behind the block. -/
inductive Refines (data : Bytes) (table : HuffTable) (low : ℕ) :
    Reader → List ℤ → List ℕ → Reader → List ℤ → ℕ → Prop
  /-- The band is at its end. -/
  | full (reader : Reader) : Refines data table low reader [] [] reader [] 0
  /-- A new coefficient behind some zeros. -/
  | coefficient {reader coded signRead passed reader' : Reader} {zeros sign : ℕ}
      {before before' after after' : List ℤ} {codes : List ℕ} {eobRun : ℕ}
      (hcode : decodeHuffman data table reader = (some (16 * zeros + 1), coded))
      (hsign : readBit data coded = (some sign, signRead)) (hzeros : before.count 0 = zeros)
      (hpass : Corrects data low signRead before passed before')
      (rest : Refines data table low passed after codes reader' after' eobRun) :
      Refines data table low reader (before ++ 0 :: after) ((16 * zeros + 1) :: codes) reader'
        (before' ++ signed low sign :: after') eobRun
  /-- Sixteen zeros are passed over. -/
  | zeros {reader coded passed reader' : Reader} {before before' after after' : List ℤ}
      {codes : List ℕ} {eobRun : ℕ}
      (hcode : decodeHuffman data table reader = (some 0xf0, coded)) (hzeros : before.count 0 = 15)
      (hpass : Corrects data low coded before passed before')
      (rest : Refines data table low passed after codes reader' after' eobRun) :
      Refines data table low reader (before ++ 0 :: after) (0xf0 :: codes) reader'
        (before' ++ 0 :: after') eobRun
  /-- The rest of the band is passed over, and so are the bands of the blocks behind it. -/
  | endOfBand {reader coded counted reader' : Reader} {n more : ℕ} {c : ℤ} {band band' : List ℤ}
      (hn : n < 15) (hcode : decodeHuffman data table reader = (some (16 * n), coded))
      (hmore : nextBits data n 0 coded = some (more, counted))
      (hpass : Corrects data low counted (c :: band) reader' band') :
      Refines data table low reader (c :: band) [16 * n] reader' band' (2 ^ n + more - 1)

/-- **T.81, G.1.2.3, for one block.**  The band of a block in an end-of-band run is passed over. -/
inductive RefinesBlock (data : Bytes) (table : HuffTable) (low : ℕ) (reader : Reader)
    (band : List ℤ) : ℕ → List ℕ → Reader → List ℤ → ℕ → Prop
  | passed {reader' : Reader} {band' : List ℤ} {eobRun : ℕ}
      (hpass : Corrects data low reader band reader' band') :
      RefinesBlock data table low reader band (eobRun + 1) [] reader' band' eobRun
  | read {reader' : Reader} {band' : List ℤ} {codes : List ℕ} {eobRun : ℕ}
      (hread : Refines data table low reader band codes reader' band' eobRun) :
      RefinesBlock data table low reader band 0 codes reader' band' eobRun

theorem Corrects.length_eq {data : Bytes} {low : ℕ} {reader reader' : Reader}
    {band band' : List ℤ} (h : Corrects data low reader band reader' band') :
    band'.length = band.length := by
  induction h with
  | nil => rfl
  | zero rest ih => exact congrArg Nat.succ ih
  | correct hc hbit rest ih => exact congrArg Nat.succ ih

/-- A coefficient that an earlier pass can have left: its lower bits are zero, and with one more
bit it is still a `short`. -/
def Refinable (low : ℕ) (c : ℤ) : Prop := 2 ^ (low + 1) ∣ c ∧ |c| + 2 ^ low < 2 ^ 15

instance (low : ℕ) (c : ℤ) : Decidable (Refinable low c) := inferInstanceAs (Decidable (_ ∧ _))

/-! ## Bits as integers -/

theorem toInt_one_shiftLeft {n : ℕ} (hn : n < 31) :
    ((1 : Int32) <<< Int32.ofNat n).toInt = 2 ^ n := by
  have h : ∀ n < 31, ((1 : Int32) <<< Int32.ofNat n).toInt = 2 ^ n := by decide
  exact h n hn

/-- A bit is put behind the bits of a number. -/
theorem shiftLeft_or_ofNat {v b : ℕ} (hv : v < 2 ^ 30) (hb : b < 2) :
    Int32.ofNat v <<< 1 ||| Int32.ofNat b = Int32.ofNat (2 * v + b) := by
  have hone : (Int32.toBitVec 1).smod 32 = 1#32 := by decide
  have hshift : v <<< 1 = 2 * v := by rw [Nat.shiftLeft_eq, pow_one, mul_comm]
  have hor : 2 * v ||| b = 2 * v + b := by
    rw [← hshift, Nat.shiftLeft_add_eq_or_of_lt (by rwa [pow_one])]
  have hv' : v % 2 ^ 32 = v := Nat.mod_eq_of_lt (by omega)
  have hb' : b % 2 ^ 32 = b := Nat.mod_eq_of_lt (by omega)
  apply Int32.toBitVec_inj.mp
  rw [Int32.toBitVec_or, Int32.toBitVec_shiftLeft, hone]
  apply BitVec.eq_of_toNat_eq
  calc
    (BitVec.ofNat 32 v <<< 1 ||| BitVec.ofNat 32 b).toNat = v <<< 1 % 2 ^ 32 ||| b := by
      rw [BitVec.toNat_or, BitVec.toNat_shiftLeft, BitVec.toNat_ofNat, BitVec.toNat_ofNat, hv', hb']
    _ = 2 * v + b := by rw [hshift, Nat.mod_eq_of_lt (by omega), hor]
    _ = (BitVec.ofNat 32 (2 * v + b)).toNat := by
      rw [BitVec.toNat_ofNat, Nat.mod_eq_of_lt (by omega)]

theorem readBit_lt {data : Bytes} {reader reader' : Reader} {b : ℕ}
    (h : readBit data reader = (some b, reader')) : b < 2 := by
  have htake (r : Reader) (hr : takeBit r = (some b, reader')) : b < 2 := by
    rw [← Option.some.inj (congrArg Prod.fst hr)]
    exact Nat.and_lt_two_pow (n := 1) _ (by decide)
  rw [readBit] at h
  split at h
  · split at h
    · exact absurd (congrArg Prod.fst h) nofun
    · exact htake _ h
  · exact htake _ h

/-- The bits that are read make a number that has as many. -/
theorem readBitsLoop_of_nextBits {data : Bytes} {count v x m : ℕ} {reader reader' : Reader}
    (hv : v < 2 ^ m) (hm : m + count ≤ 31)
    (h : nextBits data count v reader = some (x, reader')) :
    readBitsLoop data count (Int32.ofNat v) reader = (Int32.ofNat x, reader') ∧
      x < 2 ^ (m + count) := by
  induction count generalizing v m reader with
  | zero =>
    obtain ⟨rfl, rfl⟩ := Prod.mk.inj (Option.some.inj h)
    exact ⟨rfl, hv⟩
  | succ count ih =>
    rw [nextBits] at h
    rw [readBitsLoop]
    rcases hbit : readBit data reader with ⟨bit, mid⟩
    cases bit with
    | none =>
      rw [hbit] at h
      cases h
    | some b =>
      rw [hbit] at h
      dsimp only at h ⊢
      have hb := readBit_lt hbit
      have hpow : 2 ^ (m + 1) = 2 * 2 ^ m := Nat.pow_succ'
      have hle : 2 ^ m ≤ 2 ^ 30 := Nat.pow_le_pow_right (by decide) (by omega)
      have hnext : 2 * v + b < 2 ^ (m + 1) := by omega
      rw [shiftLeft_or_ofNat (hv.trans_le hle) hb, ← Nat.add_assoc, Nat.add_right_comm]
      exact ih hnext (by omega) h

theorem readBits_of_nextBits {data : Bytes} {n more : ℕ} {reader reader' : Reader} (hn : n < 15)
    (h : nextBits data n 0 reader = some (more, reader')) :
    readBits data n reader = (Int32.ofNat more, reader') ∧ more < 2 ^ n := by
  have hloop := readBitsLoop_of_nextBits (m := 0) (by decide) (by omega) h
  rw [Nat.zero_add] at hloop
  exact hloop

/-- The end-of-band run of a code `EOBn`. -/
theorem toInt_eobRun {n more : ℕ} (hn : n < 15) (hmore : more < 2 ^ n) :
    ((1 : Int32) <<< Int32.ofNat n + Int32.ofNat more).toInt = 2 ^ n + more := by
  have hle : 2 ^ n ≤ 2 ^ 14 := Nat.pow_le_pow_right (by decide) (by omega)
  have hcast : ((2 ^ n : ℕ) : ℤ) = 2 ^ n := Nat.cast_pow 2 n
  rw [Int32.toInt_add, toInt_one_shiftLeft (by omega), Int32.toInt_ofNat_of_lt (by omega),
    Int.bmod_eq_of_le] <;> omega

/-- The bit of the pass is not set in a coefficient of an earlier one. -/
theorem and_bit_eq_zero {low : ℕ} (hlow : low < 14) {p : Int16}
    (h : (2 : ℤ) ^ (low + 1) ∣ p.toInt) : p.toInt32 &&& (1 : Int32) <<< Int32.ofNat low = 0 := by
  have hbit : (1 : Int32) <<< Int32.ofNat low = ⟨⟨BitVec.twoPow 32 low⟩⟩ := by
    have h : ∀ n < 14, (1 : Int32) <<< Int32.ofNat n = ⟨⟨BitVec.twoPow 32 n⟩⟩ := by decide
    exact h low hlow
  have hdvd : 2 ^ (low + 1) ∣ p.toBitVec.toNat := by
    have hbig : (2 : ℤ) ^ (low + 1) ∣ ((2 ^ 16 : ℕ) : ℤ) := by
      rw [Nat.cast_pow]
      exact pow_dvd_pow 2 (by omega)
    have hint : p.toInt = p.toBitVec.toInt := rfl
    rw [hint, BitVec.toInt_eq_toNat_cond] at h
    rw [← Int.natCast_dvd_natCast, Nat.cast_pow]
    split at h
    · exact h
    · rw [← Int.sub_add_cancel (p.toBitVec.toNat : ℤ) (2 ^ 16 : ℕ)]
      exact Int.dvd_add h hbig
  have hclear : p.toInt32.toBitVec.getLsbD low = false := by
    obtain ⟨m, hm⟩ := hdvd
    rw [Int16.toBitVec_toInt32, BitVec.getLsbD_signExtend, if_pos (by omega), BitVec.getLsbD,
      Nat.testBit_eq_decide_div_mod_eq, hm, pow_succ, mul_assoc,
      Nat.mul_div_cancel_left _ (Nat.two_pow_pos low), Nat.mul_mod_right]
    exact Bool.and_false _
  apply Int32.toBitVec_inj.mp
  rw [hbit, Int32.toBitVec_and]
  show _ &&& BitVec.twoPow 32 low = 0
  rw [BitVec.and_twoPow, hclear]
  rfl

/-- A coefficient with its bit is a `short`. -/
theorem toInt_correction {low : ℕ} (hlow : low < 14) {p : Int16} (hp : p ≠ 0)
    (h : |p.toInt| + 2 ^ low < 2 ^ 15) :
    (if 0 < p then p.toInt32 + (1 : Int32) <<< Int32.ofNat low
      else p.toInt32 - (1 : Int32) <<< Int32.ofNat low).toInt16.toInt =
      p.toInt + p.toInt.sign * 2 ^ low := by
  have hbit := toInt_one_shiftLeft (n := low) (by omega)
  have hpow : 0 < (2 : ℤ) ^ low ∧ (2 : ℤ) ^ low ≤ 2 ^ 13 := by
    have hall : ∀ n < 14, 0 < (2 : ℤ) ^ n ∧ (2 : ℤ) ^ n ≤ 2 ^ 13 := by decide
    exact hall low hlow
  by_cases hpos : 0 < p
  · have hint : 0 < p.toInt := Int16.lt_iff_toInt_lt.mp hpos
    rw [abs_of_pos hint] at h
    rw [if_pos hpos, Int.sign_eq_one_of_pos hint, one_mul, Int32.toInt_toInt16, Int32.toInt_add,
      Int16.toInt_toInt32, hbit, Int.bmod_eq_of_le (n := _ + _), Int.bmod_eq_of_le] <;> omega
  · have hint : p.toInt < 0 := by
      have hle : p.toInt ≤ 0 := Int.not_lt.mp fun hlt => hpos (Int16.lt_iff_toInt_lt.mpr hlt)
      exact lt_of_le_of_ne hle fun heq => hp (Int16.toInt_inj.mp heq)
    rw [abs_of_neg hint] at h
    rw [if_neg hpos, Int.sign_eq_neg_one_of_neg hint, Int32.toInt_toInt16, Int32.toInt_sub,
      Int16.toInt_toInt32, hbit, Int.bmod_eq_of_le (n := _ - _), Int.bmod_eq_of_le] <;> omega

theorem toInt_signed {low sign : ℕ} (hlow : low < 14) :
    (if sign ≠ 0 then (1 : Int32) <<< Int32.ofNat low
      else -((1 : Int32) <<< Int32.ofNat low)).toInt16.toInt = signed low sign := by
  have h : ∀ n < 14, ((1 : Int32) <<< Int32.ofNat n).toInt16.toInt = 2 ^ n ∧
      (-((1 : Int32) <<< Int32.ofNat n)).toInt16.toInt = -2 ^ n := by decide
  rw [signed]
  by_cases hsign : sign = 0
  · rw [if_pos hsign, if_neg (not_not.mpr hsign), (h low hlow).2]
  · rw [if_neg hsign, if_pos hsign, (h low hlow).1]

/-! ## The coefficients of a block -/

/-- Where a coefficient is in its block. -/
def place (k : ℕ) : ℕ := kZigZag.toList.getD k 0

theorem slot_kZigZag {k : ℕ} (hk : k < 64) : slot kZigZag k = .ok (place k) := by
  have h : ∀ k : Fin 64, kZigZag.get k = place k := by decide
  rw [slot, dif_pos hk, h ⟨k, hk⟩]

theorem place_lt {k : ℕ} (hk : k < 64) : place k < 64 := by
  have h : ∀ k : Fin 64, place k < 64 := by decide
  exact h ⟨k, hk⟩

theorem place_inj {j k : ℕ} (hj : j < 64) (hk : k < 64) (h : place j = place k) : j = k := by
  have hnodup : kZigZag.toList.Nodup := by decide
  rw [place, place, List.getD_eq_getElem _ _ hj, List.getD_eq_getElem _ _ hk] at h
  exact hnodup.getElem_inj_iff.mp h

/-- A coefficient of a block, in the order of the zigzag. -/
def Component.coefficient (component : Component) (block k : ℕ) : ℤ :=
  if k < 64 then (component.coefficients.getD (block + place k) 0).toInt else 0

section Block

variable {component : Component} {block k : ℕ}

theorem load_place (hk : k < 64) (hblock : component.HasBlock block) :
    ∃ p : Int16, component.load block (place k) = .ok p ∧
      p.toInt = component.coefficient block k := by
  have hlt : block + place k < component.coefficients.length :=
    (Nat.add_lt_add_left (place_lt hk) block).trans_le hblock
  refine ⟨component.coefficients[block + place k], ?_, ?_⟩
  · rw [Component.load, if_pos (place_lt hk), item, List.getElem?_eq_getElem hlt]
  · rw [Component.coefficient, if_pos hk, List.getD_eq_getElem _ _ hlt]

theorem store_place (value : Int16) (hk : k < 64) (hblock : component.HasBlock block) :
    ∃ component' : Component, component.store block (place k) value = .ok component' ∧
      component.SameShape component' ∧
      component'.coefficient block =
        overlay (component.coefficient block) k [value.toInt] := by
  have hlt : block + place k < component.coefficients.length :=
    (Nat.add_lt_add_left (place_lt hk) block).trans_le hblock
  refine ⟨_, if_pos ⟨place_lt hk, hlt⟩, ⟨rfl, rfl, rfl, rfl, rfl, rfl, rfl, rfl⟩, ?_⟩
  funext j
  rw [overlay, overlay, Component.coefficient]
  dsimp only
  by_cases hjk : j = k
  · subst hjk
    rw [Function.update_self, if_pos hk, List.getD_eq_getElem _ _ (by rwa [List.length_set]),
      List.getElem_set_self]
  · rw [Function.update_of_ne hjk]
    by_cases hj : j < 64
    · have hne : block + place k ≠ block + place j := fun h =>
        hjk (place_inj hj hk (Nat.add_left_cancel h).symm)
      rw [Component.coefficient, if_pos hj, if_pos hj, List.getD_eq_getElem?_getD,
        List.getD_eq_getElem?_getD, List.getElem?_set_ne hne]
    · rw [Component.coefficient, if_neg hj, if_neg hj]

end Block

/-- From the one state to the other the data are read up to a place, and a window of the
coefficients of the block is written. -/
structure Writes (block k : ℕ) (band : List ℤ) (reader : Reader) (s s' : BlockState) : Prop where
  reader_eq : s'.reader = reader
  eobRun_eq : s'.eobRun = s.eobRun
  shape : s.component.SameShape s'.component
  coefficient_eq :
    s'.component.coefficient block = overlay (s.component.coefficient block) k band

section Writes

variable {block k : ℕ} {band band' : List ℤ} {reader reader' : Reader} {s s' s'' : BlockState}

theorem Writes.nil (block k : ℕ) (s : BlockState) : Writes block k [] s.reader s s :=
  ⟨rfl, rfl, .refl _, rfl⟩

/-- One window is written behind the other. -/
theorem Writes.append (h : Writes block k band reader s s')
    (h' : Writes block (k + band.length) band' reader' s' s'') :
    Writes block k (band ++ band') reader' s s'' where
  reader_eq := h'.reader_eq
  eobRun_eq := h'.eobRun_eq.trans h.eobRun_eq
  shape := h.shape.trans h'.shape
  coefficient_eq := by rw [h'.coefficient_eq, h.coefficient_eq, overlay_append]

theorem Writes.cons {c : ℤ} (h : Writes block k [c] reader s s')
    (h' : Writes block (k + 1) band' reader' s' s'') :
    Writes block k (c :: band') reader' s s'' :=
  h.append h'

theorem Writes.hasBlock (h : Writes block k band reader s s')
    (hblock : s.component.HasBlock block) : s'.component.HasBlock block := by
  rw [Component.HasBlock, h.shape.length_eq]
  exact hblock

/-- What is behind the window is read as before. -/
theorem Writes.reads_eq (h : Writes block k band reader s s') {i : ℕ} (n : ℕ)
    (hi : k + band.length ≤ i) :
    reads (s'.component.coefficient block) i n = reads (s.component.coefficient block) i n := by
  rw [h.coefficient_eq, reads_overlay_of_le _ _ _ hi]

/-- What is written is the window. -/
theorem Writes.reads_self (h : Writes block k band reader s s') :
    reads (s'.component.coefficient block) k band.length = band := by
  rw [h.coefficient_eq, reads_overlay]

/-- Nothing is written where the window is as it was. -/
theorem Writes.skip {c : ℤ} (hk : s.component.coefficient block k = c) :
    Writes block k [c] s.reader s s where
  reader_eq := rfl
  eobRun_eq := rfl
  shape := .refl _
  coefficient_eq := by rw [overlay, overlay, ← hk, Function.update_eq_self]

end Writes

/-! ## The loops -/

theorem Checked.ok_bind {α β : Type} (a : α) (f : α → Checked β) :
    ((.ok a : Checked α) >>= f) = f a := rfl

/-- The bit of the pass. -/
def Scan.bit (scan : Scan) : Int32 := (1 : Int32) <<< Int32.ofNat scan.succLow

section Loops

variable {data : Bytes} {scan : Scan} {block k : ℕ} {s : BlockState} {reader reader' : Reader}
  {band band' : List ℤ}

/-- One coefficient of the band as the loops see it. -/
theorem exists_load {c : ℤ} (hk : k < 64) (hblock : s.component.HasBlock block)
    (hc : s.component.coefficient block k = c) :
    ∃ p : Int16, s.component.load block (place k) = .ok p ∧ p.toInt = c ∧ (p = 0 ↔ c = 0) := by
  obtain ⟨p, hload, hp⟩ := load_place hk hblock
  refine ⟨p, hload, hp.trans hc, ?_⟩
  rw [← hc, ← hp]
  exact Int16.toInt_inj.symm

theorem correct_place {p : Int16} {b : ℕ} (hlow : scan.succLow < 14) (hk : k < 64)
    (hblock : s.component.HasBlock block) (hp : s.component.coefficient block k = p.toInt)
    (hne : p ≠ 0) (hfits : Refinable scan.succLow p.toInt)
    (hbit : readBit data s.reader = (some b, reader)) :
    ∃ s', correct data scan.bit s block (place k) p = .ok s' ∧
      Writes block k [corrected scan.succLow p.toInt b] reader s s' := by
  rw [correct, hbit, Scan.bit]
  dsimp only
  rw [and_bit_eq_zero hlow hfits.1]
  by_cases hb : b = 0
  · refine ⟨{ s with reader := reader }, if_neg fun h => h.1 hb, rfl, rfl, .refl _, ?_⟩
    rw [corrected, if_pos hb]
    exact (Writes.skip hp).coefficient_eq
  · obtain ⟨component, hstore, hshape, hcoefficient⟩ := store_place
      (if 0 < p then p.toInt32 + (1 : Int32) <<< Int32.ofNat scan.succLow
        else p.toInt32 - (1 : Int32) <<< Int32.ofNat scan.succLow).toInt16 hk hblock
    rw [if_pos ⟨hb, rfl⟩, hstore]
    refine ⟨{ s with reader := reader, component := component }, rfl, rfl, rfl, hshape, ?_⟩
    rw [hcoefficient, toInt_correction hlow hne hfits.2, corrected, if_neg hb]

/-- A round of the loop over a band in an end-of-band run. -/
theorem refineBand_step {bit : Int32} {p : Int16} (hle : k ≤ scan.specEnd) (hk : k < 64)
    (hload : s.component.load block (place k) = .ok p) :
    refineBand data scan bit s block k =
      if p ≠ 0 then correct data bit s block (place k) p >>= fun s =>
        refineBand data scan bit s block (k + 1)
      else refineBand data scan bit s block (k + 1) := by
  rw [refineBand, if_pos hle, slot_kZigZag hk, Checked.ok_bind, hload, Checked.ok_bind]
  rfl

/-- A round of the loop up to a new coefficient. -/
theorem refineRun_step {bit newValue : Int32} {p : Int16} {run : ℕ} (hle : k ≤ scan.specEnd)
    (hk : k < 64) (hload : s.component.load block (place k) = .ok p) :
    refineRun data scan bit newValue s block k run =
      if p ≠ 0 then correct data bit s block (place k) p >>= fun s =>
        refineRun data scan bit newValue s block (k + 1) run
      else if run = 0 then s.component.store block (place k) newValue.toInt16 >>= fun component =>
        .ok ({ s with component := component }, k + 1)
      else refineRun data scan bit newValue s block (k + 1) (run - 1) := by
  rw [refineRun, if_pos hle, slot_kZigZag hk, Checked.ok_bind, hload, Checked.ok_bind]
  rfl

/-- **The loop over a band in an end-of-band run.** -/
theorem refineBand_of_corrects (hlow : scan.succLow < 14) (hend : scan.specEnd < 64)
    (h : Corrects data scan.succLow reader band reader' band')
    (hfits : ∀ c ∈ band, Refinable scan.succLow c) (hreader : s.reader = reader)
    (hlength : k + band.length = scan.specEnd + 1) (hblock : s.component.HasBlock block)
    (hband : reads (s.component.coefficient block) k band.length = band) :
    ∃ s', refineBand data scan scan.bit s block k = .ok s' ∧
      Writes block k band' reader' s s' := by
  induction h generalizing k s with
  | nil reader =>
    subst hreader
    rw [List.length_nil] at hlength
    rw [refineBand, if_neg (by omega)]
    exact ⟨s, rfl, Writes.nil block k s⟩
  | zero rest ih =>
    subst hreader
    obtain ⟨hc, hbehind⟩ := reads_eq_cons_iff.mp hband
    rw [List.length_cons] at hlength
    obtain ⟨p, hload, -, hzero⟩ := exists_load (by omega) hblock hc
    obtain ⟨s', hrest, hwrites⟩ := ih (fun c hc => hfits c (List.mem_cons_of_mem _ hc)) rfl
      (by omega) hblock hbehind
    refine ⟨s', ?_, (Writes.skip hc).cons hwrites⟩
    rw [refineBand_step (by omega) (by omega) hload, if_neg (not_not.mpr (hzero.mpr rfl)), hrest]
  | correct hne hbit rest ih =>
    subst hreader
    obtain ⟨hc, hbehind⟩ := reads_eq_cons_iff.mp hband
    rw [List.length_cons] at hlength
    obtain ⟨p, hload, rfl, hzero⟩ := exists_load (by omega) hblock hc
    have hp : p ≠ 0 := fun h => hne (hzero.mp h)
    obtain ⟨s₁, hcorrect, hfirst⟩ :=
      correct_place hlow (by omega) hblock hc hp (hfits _ List.mem_cons_self) hbit
    obtain ⟨s', hrest, hwrites⟩ := ih (fun c hc => hfits c (List.mem_cons_of_mem _ hc))
      hfirst.reader_eq (by omega) (hfirst.hasBlock hblock)
      ((hfirst.reads_eq (i := k + 1) _ le_rfl).trans hbehind)
    refine ⟨s', ?_, hfirst.cons hwrites⟩
    rw [refineBand_step (by omega) (by omega) hload, if_pos hp, hcorrect, Checked.ok_bind, hrest]

/-- **The loop up to a new coefficient**, or up to the last zero of a run of sixteen. -/
theorem refineRun_of_corrects (newValue : Int32) {run : ℕ} (hlow : scan.succLow < 14)
    (hend : scan.specEnd < 64) (h : Corrects data scan.succLow reader band reader' band')
    (hfits : ∀ c ∈ band, Refinable scan.succLow c) (hreader : s.reader = reader)
    (hrun : band.count 0 = run) (hlength : k + band.length ≤ scan.specEnd)
    (hblock : s.component.HasBlock block)
    (hband : reads (s.component.coefficient block) k (band ++ [0]).length = band ++ [0]) :
    ∃ s', refineRun data scan scan.bit newValue s block k run =
        .ok (s', k + (band ++ [0]).length) ∧
      Writes block k (band' ++ [newValue.toInt16.toInt]) reader' s s' := by
  induction h generalizing k s run with
  | nil reader =>
    subst hreader hrun
    obtain ⟨hc, -⟩ := reads_eq_cons_iff.mp hband
    rw [List.length_nil] at hlength
    have hk : k < 64 := by omega
    obtain ⟨p, hload, -, hzero⟩ := exists_load hk hblock hc
    obtain ⟨component, hstore, hshape, hcoefficient⟩ := store_place newValue.toInt16 hk hblock
    refine ⟨{ s with component := component }, ?_, rfl, rfl, hshape, hcoefficient⟩
    rw [refineRun_step (by omega) (by omega) hload, if_neg (not_not.mpr (hzero.mpr rfl)),
      if_pos List.count_nil, hstore]
    rfl
  | zero rest ih =>
    subst hreader hrun
    obtain ⟨hc, hbehind⟩ := reads_eq_cons_iff.mp hband
    rw [List.length_cons] at hlength
    obtain ⟨p, hload, -, hzero⟩ := exists_load (by omega) hblock hc
    obtain ⟨s', hrest, hwrites⟩ := ih (fun c hc => hfits c (List.mem_cons_of_mem _ hc)) rfl rfl
      (by omega) hblock hbehind
    refine ⟨s', ?_, (Writes.skip hc).cons hwrites⟩
    rw [refineRun_step (by omega) (by omega) hload, if_neg (not_not.mpr (hzero.mpr rfl)),
      List.count_cons_self, if_neg (Nat.succ_ne_zero _), Nat.add_sub_cancel, hrest,
      List.cons_append, List.length_cons, Nat.add_right_comm, Nat.add_assoc]
  | correct hne hbit rest ih =>
    subst hreader hrun
    obtain ⟨hc, hbehind⟩ := reads_eq_cons_iff.mp hband
    rw [List.length_cons] at hlength
    obtain ⟨p, hload, rfl, hzero⟩ := exists_load (by omega) hblock hc
    have hp : p ≠ 0 := fun h => hne (hzero.mp h)
    obtain ⟨s₁, hcorrect, hfirst⟩ :=
      correct_place hlow (by omega) hblock hc hp (hfits _ List.mem_cons_self) hbit
    obtain ⟨s', hrest, hwrites⟩ := ih (fun c hc => hfits c (List.mem_cons_of_mem _ hc))
      hfirst.reader_eq rfl (by omega) (hfirst.hasBlock hblock)
      ((hfirst.reads_eq (i := k + 1) _ le_rfl).trans hbehind)
    refine ⟨s', ?_, hfirst.cons hwrites⟩
    rw [refineRun_step (by omega) (by omega) hload, if_pos hp, hcorrect, Checked.ok_bind,
      List.count_cons_of_ne hne, hrest, List.cons_append, List.length_cons, Nat.add_right_comm,
      Nat.add_assoc]

end Loops

/-! ## The codes of a block -/

section Codes

variable {data : Bytes} {scan : Scan} {table : HuffTable} {tables : Vector HuffTable 4}
  {block k : ℕ} {s : BlockState} {reader reader' : Reader} {band band' : List ℤ}
  {codes : List ℕ} {eobRun : ℕ}

/-- At a code for the end of the band, the loop leaves the rest of the block as it is. -/
theorem acRefine_endOfBand {bit : Int32} {n more : ℕ} {coded counted : Reader}
    (hslot : slot tables s.component.acTable = .ok table) (hn : n < 15)
    (hcode : decodeHuffman data table s.reader = (some (16 * n), coded))
    (hmore : nextBits data n 0 coded = some (more, counted)) :
    acRefine data scan bit tables s block k = .ok { s with
      reader := counted
      eobRun := (1 : Int32) <<< Int32.ofNat n + Int32.ofNat more } := by
  have hsize : 16 * n % 16 = 0 := Nat.mul_mod_right 16 n
  have hrun : 16 * n / 16 = n := Nat.mul_div_cancel_left n (by decide)
  have hread : (if n ≠ 0 then readBits data n coded else (0, coded)) =
      (Int32.ofNat more, counted) := by
    by_cases hzero : n = 0
    · subst hzero
      obtain ⟨rfl, rfl⟩ := Prod.mk.inj (Option.some.inj hmore)
      rfl
    · rw [if_pos hzero, (readBits_of_nextBits hn hmore).1]
  rw [acRefine, hslot, Checked.ok_bind, hcode]
  dsimp only
  rw [hsize, hrun, if_pos ⟨rfl, hn⟩, hread]
  rfl

/-- A code with a run of zeros, and where the loop goes on. -/
theorem acRefine_run {bit newValue : Int32} {rs k' : ℕ} {coded signRead : Reader} {sign : ℕ}
    {s' : BlockState} (hslot : slot tables s.component.acTable = .ok table)
    (hcode : decodeHuffman data table s.reader = (some rs, coded))
    (hrs : rs = 0xf0 ∧ sign = 0 ∧ signRead = coded ∧ newValue = 0 ∨
      rs % 16 = 1 ∧ readBit data coded = (some sign, signRead) ∧
        newValue = if sign ≠ 0 then bit else -bit)
    (hrun : refineRun data scan bit newValue { s with reader := signRead } block k (rs / 16) =
      .ok (s', k')) :
    acRefine data scan bit tables s block k =
      if k' ≤ scan.specEnd then acRefine data scan bit tables s' block k' else .ok s' := by
  have hend : ¬ (rs % 16 = 0 ∧ rs / 16 < 15) := by omega
  have hsize : ¬ (rs % 16 ≠ 0 ∧ rs % 16 ≠ 1) := by omega
  have hsign : (if rs % 16 = 0 then (some 0, coded) else readBit data coded) =
      (some sign, signRead) := by
    rcases hrs with ⟨rfl, rfl, rfl, -⟩ | ⟨hone, hbit, -⟩
    · rfl
    · rw [if_neg (by omega), hbit]
  have hvalue : (if rs % 16 = 0 then 0 else if sign ≠ 0 then bit else -bit) = newValue := by
    rcases hrs with ⟨rfl, -, -, rfl⟩ | ⟨hone, -, rfl⟩
    · rfl
    · rw [if_neg (by omega)]
  rw [acRefine, hslot, Checked.ok_bind, hcode]
  dsimp only
  rw [if_neg hend, if_neg hsize, hsign]
  dsimp only
  rw [hvalue]
  split
  · rename_i stop hstop
    exact absurd (hstop.symm.trans hrun) nofun
  · rename_i s₁ k₁ hok
    obtain ⟨rfl, rfl⟩ := Prod.mk.inj (Except.ok.inj (hok.symm.trans hrun))
    rfl

/-- What the loop of the code makes of the rest of a band. -/
def ReadsCodes (block k : ℕ) (band : List ℤ) (codes : List ℕ) (reader : Reader) (eobRun : ℕ)
    (s s' : BlockState) : Prop :=
  (∀ code ∈ codes, ¬ IsEndOfBand code) ∧ Writes block k band reader s s' ∧ eobRun = 0 ∨
    (∃ code ∈ codes, IsEndOfBand code) ∧ s'.eobRun.toInt = eobRun + 1

/-- A code that is not for the end of the band stands in front of the others. -/
theorem ReadsCodes.cons {before : List ℤ} {code : ℕ} {mid : Reader} {s₁ s' : BlockState}
    (hcode : ¬ IsEndOfBand code) (hfirst : Writes block k before mid s s₁)
    (h : ReadsCodes block (k + before.length) band codes reader eobRun s₁ s') :
    ReadsCodes block k (before ++ band) (code :: codes) reader eobRun s s' := by
  rcases h with ⟨hcodes, hwrites, heob⟩ | ⟨⟨c, hc, hend⟩, heob⟩
  · exact .inl ⟨List.forall_mem_cons.mpr ⟨hcode, hcodes⟩, hfirst.append hwrites, heob⟩
  · exact .inr ⟨⟨c, List.mem_cons_of_mem _ hc, hend⟩, heob⟩

/-- Nothing is read behind the end of the band. -/
theorem Refines.eq_of_nil {low : ℕ}
    (h : Refines data table low reader [] codes reader' band' eobRun) :
    codes = [] ∧ reader' = reader ∧ band' = [] ∧ eobRun = 0 := by
  generalize hnil : ([] : List ℤ) = nothing at h
  cases h with
  | full => exact ⟨rfl, rfl, rfl, rfl⟩
  | coefficient => exact absurd (congrArg List.length hnil) (by simp)
  | zeros => exact absurd (congrArg List.length hnil) (by simp)
  | endOfBand => exact absurd hnil nofun

/-- A code with a run of zeros, with what is read behind it. -/
theorem exists_acRefine_run (newValue : Int32) {rs sign : ℕ} {coded signRead passed : Reader}
    {before before' after after' : List ℤ} (hlow : scan.succLow < 14) (hend : scan.specEnd < 64)
    (hslot : slot tables s.component.acTable = .ok table)
    (hcode : decodeHuffman data table s.reader = (some rs, coded))
    (hrs : rs = 0xf0 ∧ sign = 0 ∧ signRead = coded ∧ newValue = 0 ∨
      rs % 16 = 1 ∧ readBit data coded = (some sign, signRead) ∧
        newValue = if sign ≠ 0 then scan.bit else -scan.bit)
    (hzeros : before.count 0 = rs / 16)
    (hpass : Corrects data scan.succLow signRead before passed before')
    (hfits : ∀ c ∈ before, Refinable scan.succLow c)
    (hlength : k + (before ++ 0 :: after).length = scan.specEnd + 1)
    (hblock : s.component.HasBlock block)
    (hband : reads (s.component.coefficient block) k (before ++ 0 :: after).length =
      before ++ 0 :: after)
    (hrest : Refines data table scan.succLow passed after codes reader' after' eobRun)
    (ih : ∀ {k : ℕ} {s : BlockState}, slot tables s.component.acTable = .ok table →
      s.reader = passed → k + after.length = scan.specEnd + 1 → k ≤ scan.specEnd →
      s.component.HasBlock block →
      reads (s.component.coefficient block) k after.length = after →
      ∃ s', acRefine data scan scan.bit tables s block k = .ok s' ∧
        ReadsCodes block k after' codes reader' eobRun s s') :
    ∃ s', acRefine data scan scan.bit tables s block k = .ok s' ∧
      ReadsCodes block k (before' ++ newValue.toInt16.toInt :: after') (rs :: codes) reader' eobRun
        s s' := by
  have hnot : ¬ IsEndOfBand rs := by
    rw [IsEndOfBand]
    omega
  rw [List.append_cons] at hlength hband
  obtain ⟨hfront, hbehind⟩ := reads_eq_append_iff.mp hband
  rw [List.length_append] at hlength
  have hlength' : (before ++ [0]).length = before.length + 1 := List.length_append
  obtain ⟨s₁, hrun, hwrites⟩ := refineRun_of_corrects newValue
    (s := { s with reader := signRead }) hlow hend hpass hfits rfl hzeros (by omega) hblock hfront
  have hfirst : Writes block k (before' ++ [newValue.toInt16.toInt]) passed s s₁ :=
    ⟨hwrites.reader_eq, hwrites.eobRun_eq, hwrites.shape, hwrites.coefficient_eq⟩
  have hwritten : (before' ++ [newValue.toInt16.toInt]).length = (before ++ [0]).length := by
    rw [List.length_append, List.length_append, hpass.length_eq]
    rfl
  rw [List.append_cons, acRefine_run hslot hcode hrs hrun]
  by_cases hle : k + (before ++ [0]).length ≤ scan.specEnd
  · have hunread := hfirst.reads_eq (i := k + (before ++ [0]).length) after.length (by omega)
    obtain ⟨s', hloop, hreads⟩ := ih (by rw [hfirst.shape.acTable_eq, hslot]) hfirst.reader_eq
      (by omega) hle (hfirst.hasBlock hblock) (hunread.trans hbehind)
    rw [if_pos hle]
    exact ⟨s', hloop, .cons hnot hfirst (hwritten ▸ hreads)⟩
  · have hafter : after = [] := List.eq_nil_of_length_eq_zero (by omega)
    subst hafter
    obtain ⟨rfl, rfl, rfl, rfl⟩ := hrest.eq_of_nil
    rw [if_neg hle, List.append_nil]
    exact ⟨s₁, rfl, .inl ⟨List.forall_mem_singleton.mpr hnot, hfirst, rfl⟩⟩

/-- **The loop over the codes of a block.**  It does what is prescribed up to a code for the end of
the band, and that code it counts once too often. -/
theorem acRefine_of_refines (hlow : scan.succLow < 14) (hend : scan.specEnd < 64)
    (h : Refines data table scan.succLow reader band codes reader' band' eobRun)
    (hslot : slot tables s.component.acTable = .ok table)
    (hfits : ∀ c ∈ band, Refinable scan.succLow c) (hreader : s.reader = reader)
    (hlength : k + band.length = scan.specEnd + 1) (hk : k ≤ scan.specEnd)
    (hblock : s.component.HasBlock block)
    (hband : reads (s.component.coefficient block) k band.length = band) :
    ∃ s', acRefine data scan scan.bit tables s block k = .ok s' ∧
      ReadsCodes block k band' codes reader' eobRun s s' := by
  induction h generalizing k s with
  | full => exact absurd hlength (by rw [List.length_nil]; omega)
  | @coefficient _ _ _ _ _ _ sign _ _ _ _ _ _ hcode hsign hzeros hpass rest ih =>
    subst hreader
    rw [← toInt_signed hlow]
    refine exists_acRefine_run _ hlow hend hslot hcode (.inr ⟨by omega, hsign, rfl⟩) (by omega) hpass
      (fun c hc => hfits c (List.mem_append_left _ hc)) hlength hblock hband rest ?_
    intro k s hslot hreader hlength hk hblock hband
    exact ih hslot (fun c hc => hfits c (List.mem_append_right _ (List.mem_cons_of_mem _ hc)))
      hreader hlength hk hblock hband
  | zeros hcode hzeros hpass rest ih =>
    subst hreader
    refine exists_acRefine_run 0 hlow hend hslot hcode (.inl ⟨rfl, rfl, rfl, rfl⟩)
      hzeros hpass (fun c hc => hfits c (List.mem_append_left _ hc)) hlength hblock hband rest ?_
    intro k s hslot hreader hlength hk hblock hband
    exact ih hslot (fun c hc => hfits c (List.mem_append_right _ (List.mem_cons_of_mem _ hc)))
      hreader hlength hk hblock hband
  | @endOfBand _ _ _ _ n more _ _ _ hn hcode hmore hpass =>
    subst hreader
    have hpow := Nat.two_pow_pos n
    refine ⟨_, acRefine_endOfBand hslot hn hcode hmore,
      .inr ⟨⟨16 * n, List.mem_singleton_self _, Nat.mul_mod_right 16 n, by omega⟩, ?_⟩⟩
    rw [toInt_eobRun hn (readBits_of_nextBits hn hmore).2, Nat.cast_sub (by omega)]
    push_cast
    omega

end Codes

/-! ## The refinement of a block -/

/-- The scan is a later pass over AC coefficients. -/
structure Scan.IsRefinement (scan : Scan) : Prop where
  start_pos : 0 < scan.specStart
  start_le : scan.specStart ≤ scan.specEnd
  end_lt : scan.specEnd < 64
  high_eq : scan.succHigh = scan.succLow + 1
  low_lt : scan.succLow < 14

/-- The coefficients of a block that a scan is about. -/
def Component.band (component : Component) (scan : Scan) (block : ℕ) : List ℤ :=
  reads (component.coefficient block) scan.specStart (scan.specEnd + 1 - scan.specStart)

section Refinement

variable {data : Bytes} {scan : Scan} {table : HuffTable} {tables : Vector HuffTable 4}
  {block : ℕ} {s : BlockState} {reader' : Reader} {band' : List ℤ} {codes : List ℕ}
  {eobRun eobRun' : ℕ}

theorem Refines.length_eq {low : ℕ} {reader : Reader} {band : List ℤ}
    (h : Refines data table low reader band codes reader' band' eobRun) :
    band'.length = band.length := by
  induction h with
  | full => rfl
  | coefficient hcode hsign hzeros hpass rest ih =>
    rw [List.length_append, List.length_append, List.length_cons, List.length_cons, ih,
      hpass.length_eq]
  | zeros hcode hzeros hpass rest ih =>
    rw [List.length_append, List.length_append, List.length_cons, List.length_cons, ih,
      hpass.length_eq]
  | endOfBand hn hcode hmore hpass => exact hpass.length_eq

/-- A window of the block that is written is the band. -/
theorem Writes.band_eq {s' : BlockState} (h : Writes block scan.specStart band' reader' s s')
    (hlength : band'.length = (s.component.band scan block).length) :
    s'.component.band scan block = band' := by
  rw [Component.band, length_reads] at hlength
  rw [Component.band, ← hlength, h.reads_self]

/-- The band of a block in an end-of-band run. -/
theorem decodeAc_of_passed (hscan : scan.IsRefinement) (hblock : s.component.HasBlock block)
    (hhistory : ∀ c ∈ s.component.band scan block, Refinable scan.succLow c)
    (hrun : s.eobRun.toInt = eobRun + 1)
    (hpass : Corrects data scan.succLow s.reader (s.component.band scan block) reader' band') :
    ∃ s', decodeAc data scan tables s block = .ok s' ∧
      s'.component.band scan block = band' ∧ s'.reader = reader' ∧ s'.eobRun.toInt = eobRun := by
  have hpos : 0 < s.eobRun := Int32.lt_iff_toInt_lt.mpr (by rw [hrun, Int32.toInt_zero]; omega)
  have hhigh : scan.succHigh ≠ 0 := by rw [hscan.high_eq]; exact Nat.succ_ne_zero _
  have hle := hscan.start_le
  have hlength := length_reads (s.component.coefficient block) scan.specStart
    (scan.specEnd + 1 - scan.specStart)
  obtain ⟨s', hloop, hwrites⟩ := refineBand_of_corrects (s := { s with eobRun := s.eobRun - 1 })
    (k := scan.specStart) hscan.low_lt hscan.end_lt hpass hhistory rfl
    (by rw [Component.band]; omega) hblock (by rw [Component.band, length_reads])
  refine ⟨s', ?_, hwrites.band_eq hpass.length_eq, hwrites.reader_eq, ?_⟩
  · rw [decodeAc, if_neg hhigh, if_pos hpos]
    exact hloop
  · have hlt := s.eobRun.toInt_lt
    rw [hwrites.eobRun_eq, Int32.toInt_sub, hrun, Int32.toInt_one, Int.bmod_eq_of_le] <;> omega

/-- The band of a block that has codes. -/
theorem decodeAc_of_refines (hscan : scan.IsRefinement)
    (hslot : slot tables s.component.acTable = .ok table) (hblock : s.component.HasBlock block)
    (hhistory : ∀ c ∈ s.component.band scan block, Refinable scan.succLow c)
    (hrun : s.eobRun.toInt = 0)
    (hread : Refines data table scan.succLow s.reader (s.component.band scan block) codes reader'
      band' eobRun) :
    ∃ s', decodeAc data scan tables s block = .ok s' ∧
      ReadsCodes block scan.specStart band' codes reader' eobRun s s' := by
  have hpos : ¬ 0 < s.eobRun := fun h => by
    have hlt := Int32.lt_iff_toInt_lt.mp h
    rw [hrun, Int32.toInt_zero] at hlt
    exact absurd hlt (lt_irrefl 0)
  have hhigh : scan.succHigh ≠ 0 := by rw [hscan.high_eq]; exact Nat.succ_ne_zero _
  have hle := hscan.start_le
  have hlength := length_reads (s.component.coefficient block) scan.specStart
    (scan.specEnd + 1 - scan.specStart)
  rw [decodeAc, if_pos hscan.start_pos, if_neg hhigh, if_neg hpos]
  exact acRefine_of_refines hscan.low_lt hscan.end_lt hread hslot hhistory rfl
    (by rw [Component.band]; omega) hle hblock (by rw [Component.band, length_reads])

/-- **A later pass over the AC coefficients of a block.**  What T.81 prescribes is done exactly if
the data of the block have no code for the end of the band. -/
theorem decodeAc_refines_iff (hscan : scan.IsRefinement)
    (hslot : slot tables s.component.acTable = .ok table) (hblock : s.component.HasBlock block)
    (hhistory : ∀ c ∈ s.component.band scan block, Refinable scan.succLow c)
    (hrun : s.eobRun.toInt = eobRun)
    (h : RefinesBlock data table scan.succLow s.reader (s.component.band scan block) eobRun codes
      reader' band' eobRun') :
    (∃ s', decodeAc data scan tables s block = .ok s' ∧ s'.component.band scan block = band' ∧
      s'.reader = reader' ∧ s'.eobRun.toInt = eobRun') ↔ ∀ code ∈ codes, ¬ IsEndOfBand code := by
  cases h with
  | passed hpass =>
    rw [Nat.cast_succ] at hrun
    exact iff_of_true (decodeAc_of_passed hscan hblock hhistory hrun hpass) nofun
  | read hread =>
    obtain ⟨s', hloop, hreads⟩ := decodeAc_of_refines hscan hslot hblock hhistory hrun hread
    rcases hreads with ⟨hcodes, hwrites, rfl⟩ | ⟨hcodes, heob⟩
    · refine iff_of_true ⟨s', hloop, hwrites.band_eq hread.length_eq, hwrites.reader_eq, ?_⟩ hcodes
      rw [hwrites.eobRun_eq, hrun]
    · obtain ⟨code, hmem, hend⟩ := hcodes
      refine iff_of_false ?_ fun h => h code hmem hend
      rintro ⟨s'', hloop', -, -, heob'⟩
      obtain rfl := Except.ok.inj (hloop.symm.trans hloop')
      omega

end Refinement

/-! ## Two blocks -/

/-- A block whose first coefficient behind the DC coefficient is 2. -/
def exampleBlock : BlockState where
  reader := {}
  eobRun := 0
  component :=
    { blocksW := 1
      blocksH := 1
      coefficients := 0 :: 2 :: List.replicate 62 0
      length_coefficients := by decide }

/-- A pass over the first two coefficients. -/
def exampleScan : Scan := { specStart := 1, specEnd := 2, succHigh := 1, succLow := 0 }

/-- A table with one code, of one bit. -/
def exampleTable (value : UInt8) : HuffTable := buildHuffman (1 :: List.replicate 15 0) [value]

theorem isRefinement_exampleScan : exampleScan.IsRefinement :=
  ⟨by decide, by decide, by decide, rfl, by decide⟩

theorem band_exampleBlock : exampleBlock.component.band exampleScan 0 = [2, 0] := by decide

theorem slot_exampleTable (value : UInt8) :
    slot (Vector.replicate 4 (exampleTable value)) exampleBlock.component.acTable =
      .ok (exampleTable value) := rfl

theorem hasBlock_exampleBlock : exampleBlock.component.HasBlock 0 := by
  rw [Component.HasBlock]
  decide

/-- The bits 0, 1 and 1 are a code for a new coefficient, its sign, and a correction bit. -/
theorem decodeAc_refines_iff_coefficient :
    (∃ s', decodeAc [0x60] exampleScan (Vector.replicate 4 (exampleTable 1)) exampleBlock 0 =
        .ok s' ∧ s'.component.band exampleScan 0 = [3, 1] ∧
        s'.reader = ⟨1, 0x60, 5⟩ ∧ s'.eobRun.toInt = (0 : ℕ)) ↔
      ∀ code ∈ [1], ¬ IsEndOfBand code := by
  have hcode : decodeHuffman [0x60] (exampleTable 1) {} = (some 1, ⟨1, 0x60, 7⟩) := rfl
  have hsign : readBit [0x60] ⟨1, 0x60, 7⟩ = (some 1, ⟨1, 0x60, 6⟩) := rfl
  have hcorrection : readBit [0x60] ⟨1, 0x60, 6⟩ = (some 1, ⟨1, 0x60, 5⟩) := rfl
  have hzeros : [(2 : ℤ)].count 0 = 0 := rfl
  have hpass : Corrects [0x60] 0 ⟨1, 0x60, 6⟩ [2] ⟨1, 0x60, 5⟩ [3] :=
    .correct (by decide) hcorrection (.nil _)
  have hrun : exampleBlock.eobRun.toInt = (0 : ℕ) := rfl
  refine decodeAc_refines_iff isRefinement_exampleScan (slot_exampleTable 1)
    hasBlock_exampleBlock ?_ hrun ?_
  · rw [band_exampleBlock]
    decide
  · rw [band_exampleBlock]
    exact .read (Refines.coefficient hcode hsign hzeros hpass (.full _))

/-- **The end of the band in the middle of a block.**  Behind the code, the bit 1 is the correction
bit of the coefficient 2; it is not read, and the run is not at its end. -/
theorem decodeAc_endOfBand :
    RefinesBlock [0x40] (exampleTable 0) exampleScan.succLow exampleBlock.reader
        (exampleBlock.component.band exampleScan 0) 0 [0] ⟨1, 0x40, 6⟩ [3, 0] 0 ∧
      ∃ s', decodeAc [0x40] exampleScan (Vector.replicate 4 (exampleTable 0)) exampleBlock 0 =
        .ok s' ∧ s'.component.band exampleScan 0 = [2, 0] ∧ s'.reader = ⟨1, 0x40, 7⟩ ∧
        s'.eobRun = 1 := by
  have hcode : decodeHuffman [0x40] (exampleTable 0) {} = (some (16 * 0), ⟨1, 0x40, 7⟩) := rfl
  have hmore : nextBits [0x40] 0 0 ⟨1, 0x40, 7⟩ = some (0, ⟨1, 0x40, 7⟩) := rfl
  have hcorrection : readBit [0x40] ⟨1, 0x40, 7⟩ = (some 1, ⟨1, 0x40, 6⟩) := rfl
  have hpass : Corrects [0x40] 0 ⟨1, 0x40, 7⟩ [2, 0] ⟨1, 0x40, 6⟩ [3, 0] :=
    .correct (by decide) hcorrection (.zero (.nil _))
  refine ⟨?_, ?_⟩
  · rw [band_exampleBlock]
    exact .read (.endOfBand (by decide) hcode hmore hpass)
  · exact ⟨_, acRefine_endOfBand (slot_exampleTable 0) (by decide) hcode hmore,
      band_exampleBlock, rfl, by decide⟩

end Aetheris.Jpeg
