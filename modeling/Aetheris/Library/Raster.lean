import Mathlib.Algebra.BigOperators.Group.List.Basic
import Mathlib.Algebra.Order.Floor.Ring
import Mathlib.Data.List.Nodup
import Mathlib.Data.Int.Interval
import Mathlib.Data.Int.Range
import Mathlib.Data.Rat.Floor
import Mathlib.Tactic.Linarith

/-!
# Rasters

What a program does that paints by writing to pixels, one after the other.  Pixels are pairs of
integers, and a picture is what a list of writes leaves behind.

The bounds of what is painted are computed with fractions and cast to `int`, which `castInt` follows
out of the range of `int` as well; `FitsInt` is the range.  Two nested loops come to each pixel of
an `area` once (`count_filter_area`), and what a place holds in the end depends on the writes to it
alone, in their order (`foldl_write`).  Where intervals of one size lie one after the other, as
tiles do, `tilesAt` counts those that meet a cell: there is just one if they cover the cell and no
two of them meet inside it (`tilesAt_eq_one_iff`).
-/

namespace Aetheris.Raster

/-! ## Numbers of the machine -/

/-- `static_cast<int>`: what is behind the point is cut off. -/
def truncate (value : ℚ) : ℤ := if value < 0 then -⌊-value⌋ else ⌊value⌋

/-- The numbers that an `int` can hold. -/
def FitsInt (n : ℤ) : Prop := -2 ^ 31 ≤ n ∧ n < 2 ^ 31

instance (n : ℤ) : Decidable (FitsInt n) := inferInstanceAs (Decidable (_ ∧ _))

/-- `static_cast<int>` of a `float`.  A number that an `int` cannot hold has no defined result; x86
makes it the smallest `int`. -/
def castInt (value : ℚ) : ℤ := if FitsInt (truncate value) then truncate value else -2 ^ 31

/-- A `long` that is cast to `int`, and an `int` that is added to, wrap around. -/
def wrapInt (n : ℤ) : ℤ := Int.bmod n (2 ^ 32)

theorem truncate_intCast (n : ℤ) : truncate n = n := by
  rw [truncate, ← Int.cast_neg, Int.floor_intCast, Int.floor_intCast, neg_neg, ite_self]

theorem castInt_intCast {n : ℤ} (h : FitsInt n) : castInt n = n := by
  rw [castInt, truncate_intCast, if_pos h]

theorem wrapInt_of_fits {n : ℤ} (h : FitsInt n) : wrapInt n = n := by
  obtain ⟨hlow, hhigh⟩ := h
  rw [wrapInt, Int.bmod_eq_of_le] <;> omega

theorem fitsInt_wrapInt (n : ℤ) : FitsInt (wrapInt n) := by
  have hlow := Int.le_bmod (x := n) (m := 2 ^ 32) (by decide)
  have hhigh := Int.bmod_lt (x := n) (m := 2 ^ 32) (by decide)
  rw [FitsInt, wrapInt]
  omega

theorem FitsInt.mono {a b c : ℤ} (ha : FitsInt a) (hc : FitsInt c) (hab : a ≤ b) (hbc : b ≤ c) :
    FitsInt b := ⟨ha.1.trans hab, hbc.trans_lt hc.2⟩

/-! ## Rectangles -/

/-- The pixels of a rectangle. -/
def area (left top right bottom : ℤ) : List (ℤ × ℤ) :=
  (Int.range top bottom).flatMap fun y => (Int.range left right).map fun x => (x, y)

theorem mem_area {left top right bottom : ℤ} {p : ℤ × ℤ} :
    p ∈ area left top right bottom ↔
      (left ≤ p.1 ∧ p.1 < right) ∧ top ≤ p.2 ∧ p.2 < bottom := by
  rw [area, List.mem_flatMap]
  constructor
  · rintro ⟨y, hy, h⟩
    obtain ⟨x, hx, rfl⟩ := List.mem_map.mp h
    exact ⟨Int.mem_range_iff.mp hx, Int.mem_range_iff.mp hy⟩
  · rintro ⟨hx, hy⟩
    exact ⟨p.2, Int.mem_range_iff.mpr hy,
      List.mem_map.mpr ⟨p.1, Int.mem_range_iff.mpr hx, rfl⟩⟩

theorem nodup_range (low high : ℤ) : (Int.range low high).Nodup :=
  List.Nodup.map (fun _ _ h => Int.ofNat_inj.mp (add_left_cancel h)) List.nodup_range

theorem nodup_area (left top right bottom : ℤ) : (area left top right bottom).Nodup := by
  rw [area, List.nodup_flatMap]
  refine ⟨fun y _ => (nodup_range _ _).map fun _ _ h => (Prod.ext_iff.mp h).1,
    (nodup_range top bottom).imp fun hne => ?_⟩
  rw [Function.onFun, List.disjoint_left]
  intro p hp hp'
  obtain ⟨x, -, rfl⟩ := List.mem_map.mp hp
  obtain ⟨x', -, heq⟩ := List.mem_map.mp hp'
  exact hne (Prod.ext_iff.mp heq).2.symm

/-- Every pixel of a rectangle that passes a test comes up once. -/
theorem count_filter_area (test : ℤ × ℤ → Bool) {left top right bottom : ℤ} (p : ℤ × ℤ) :
    ((area left top right bottom).filter test).count p =
      if ((left ≤ p.1 ∧ p.1 < right) ∧ top ≤ p.2 ∧ p.2 < bottom) ∧ test p = true then 1 else 0 := by
  rw [(List.Nodup.filter test (nodup_area left top right bottom)).count]
  simp only [List.mem_filter, mem_area]

/-- Rows of pixels: how often one of them comes up. -/
theorem count_rows (row : ℤ → List ℤ) (x y : ℤ) {ys : List ℤ} (h : ys.Nodup) :
    (ys.flatMap fun y' => (row y').map fun x' => (x', y')).count (x, y) =
      if y ∈ ys then (row y).count x else 0 := by
  induction ys with
  | nil => rfl
  | cons y' ys ih =>
    obtain ⟨hnotin, hrest⟩ := List.nodup_cons.mp h
    rw [List.flatMap_cons, List.count_append, ih hrest]
    by_cases heq : y = y'
    · subst heq
      rw [if_neg hnotin, if_pos List.mem_cons_self, add_zero]
      exact List.count_map_of_injective (row y) (fun x' : ℤ => (x', y))
        (fun _ _ h => (Prod.ext_iff.mp h).1) x
    · have hzero : ((row y').map fun x' => (x', y')).count (x, y) = 0 := by
        refine List.count_eq_zero_of_not_mem fun hmem => heq ?_
        obtain ⟨x', -, hx'⟩ := List.mem_map.mp hmem
        exact (Prod.ext_iff.mp hx').2.symm
      rw [hzero, zero_add]
      simp only [List.mem_cons, heq, false_or]

/-! ## Writes -/

section Writes

variable {P V C : Type} [DecidableEq P]

/-- The values that are put on a place. -/
def valuesAt (place : P) (writes : List (P × V)) : List V :=
  (writes.filter fun write => write.1 = place).map Prod.snd

theorem valuesAt_cons (place : P) (write : P × V) (writes : List (P × V)) :
    valuesAt place (write :: writes) =
      if write.1 = place then write.2 :: valuesAt place writes else valuesAt place writes := by
  rw [valuesAt, List.filter_cons]
  simp only [decide_eq_true_eq]
  split
  · rw [List.map_cons]
    rfl
  · rfl

/-- What a place holds after some writes, of which each one combines its value with what its place
holds before. -/
theorem foldl_write {S : Type} {write : S → P × V → S} {combine : V → C → C} (get : S → C)
    (inv : S → Prop) {place : P}
    (hwrite : ∀ s w, inv s → inv (write s w) ∧
      get (write s w) = if w.1 = place then combine w.2 (get s) else get s)
    (writes : List (P × V)) {s : S} (hs : inv s) :
    get (writes.foldl write s) =
      (valuesAt place writes).foldl (fun old value => combine value old) (get s) := by
  induction writes generalizing s with
  | nil => rfl
  | cons w writes ih =>
    obtain ⟨hinv, hget⟩ := hwrite s w hs
    rw [List.foldl_cons, ih hinv, hget, valuesAt_cons]
    split
    · rw [List.foldl_cons]
    · rfl

end Writes

/-! ## Counting -/

/-- The sum of a number over those that pass a test. -/
theorem sum_map_ite {β : Type} (test : β → Prop) [DecidablePred test] (n : ℕ) (l : List β) :
    (l.map fun b => if test b then n else 0).sum = l.countP test * n := by
  induction l with
  | nil => rw [List.map_nil, List.sum_nil, List.countP_nil, Nat.zero_mul]
  | cons b l ih =>
    rw [List.map_cons, List.sum_cons, ih, List.countP_cons, Nat.add_mul, Nat.add_comm]
    simp only [decide_eq_true_eq]
    split
    · rw [Nat.one_mul]
    · rw [Nat.zero_mul]

/-! ## Intervals one after the other -/

section Intervals

variable {K : Type*} [Field K] [LinearOrder K] [IsStrictOrderedRing K] [FloorRing K]

/-- How many of some intervals of one size, the first of which begins at `origin`, meet the cell from
`i` to `i + 1`. -/
def tilesAt (origin size : K) (count i : ℤ) : ℕ :=
  (Int.range 0 count).countP fun k : ℤ =>
    ⌊origin + k * size⌋ ≤ i ∧ i < ⌈origin + k * size + size⌉

/-- The intervals together meet the cell. -/
def Covered (origin size : K) (count i : ℤ) : Prop := origin < i + 1 ∧ i < origin + count * size

/-- Two of the intervals meet each other inside the cell. -/
def Split (origin size : K) (count i : ℤ) : Prop :=
  ∃ k : ℤ, 0 < k ∧ k < count ∧ i < origin + k * size ∧ origin + k * size < i + 1

theorem countP_range (count low high : ℤ) :
    (Int.range 0 count).countP (fun k => low ≤ k ∧ k < high) =
      (min count high - max 0 low).toNat := by
  have hnodup : ((Int.range 0 count).filter fun k => low ≤ k ∧ k < high).Nodup :=
    (nodup_range 0 count).filter _
  have hset : ((Int.range 0 count).filter fun k => low ≤ k ∧ k < high).toFinset =
      Finset.Ico (max 0 low) (min count high) := by
    ext k
    rw [List.mem_toFinset, List.mem_filter, Int.mem_range_iff, Finset.mem_Ico, decide_eq_true_iff]
    omega
  rw [List.countP_eq_length_filter, ← List.toFinset_card_of_nodup hnodup, hset, Int.card_Ico]

variable {origin size : K} {count i : ℤ}

/-- The intervals that meet a cell follow one another. -/
theorem tilesAt_eq (hsize : 0 < size) :
    tilesAt origin size count i =
      (min count ⌈(i + 1 - origin) / size⌉ - max 0 ⌊(i - origin) / size⌋).toNat := by
  rw [tilesAt, ← countP_range]
  refine List.countP_congr fun k _ => ?_
  rw [decide_eq_true_iff, decide_eq_true_iff, Int.lt_ceil, Int.lt_ceil, ← Int.lt_add_one_iff,
    Int.floor_lt, ← Int.lt_add_one_iff (a := ⌊(i - origin) / size⌋), Int.floor_lt,
    lt_div_iff₀ hsize, div_lt_iff₀ hsize]
  push_cast
  rw [add_one_mul]
  constructor
  · rintro ⟨hleft, hright⟩
    exact ⟨by linarith, by linarith⟩
  · rintro ⟨hright, hleft⟩
    exact ⟨by linarith, by linarith⟩

theorem tilesAt_ne_zero_iff (hsize : 0 < size) (hcount : 0 < count) :
    tilesAt origin size count i ≠ 0 ↔ Covered origin size count i := by
  have hquotients : (i - origin) / size < (i + 1 - origin) / size :=
    div_lt_div_of_pos_right (by linarith) hsize
  have hlt : ⌊(i - origin) / size⌋ < ⌈(i + 1 - origin) / size⌉ :=
    Int.floor_lt.mpr (hquotients.trans_le (Int.le_ceil _))
  have hleft : 0 < ⌈(i + 1 - origin) / size⌉ ↔ origin < i + 1 := by
    rw [Int.ceil_pos, div_pos_iff_of_pos_right hsize, sub_pos]
  have hright : ⌊(i - origin) / size⌋ < count ↔ i < origin + count * size := by
    rw [Int.floor_lt, div_lt_iff₀ hsize, sub_lt_iff_lt_add']
  rw [tilesAt_eq hsize, Covered, ← hleft, ← hright]
  omega

theorem two_le_tilesAt_iff (hsize : 0 < size) :
    2 ≤ tilesAt origin size count i ↔ Split origin size count i := by
  have hsplit (k : ℤ) : ⌊(i - origin) / size⌋ < k ∧ k < ⌈(i + 1 - origin) / size⌉ ↔
      i < origin + k * size ∧ origin + k * size < i + 1 := by
    rw [Int.floor_lt, Int.lt_ceil, div_lt_iff₀ hsize, lt_div_iff₀ hsize, sub_lt_iff_lt_add',
      lt_sub_iff_add_lt']
  rw [tilesAt_eq hsize, Split]
  constructor
  · intro h
    refine ⟨max 0 ⌊(i - origin) / size⌋ + 1, by omega, by omega, (hsplit _).mp ⟨by omega, by omega⟩⟩
  · rintro ⟨k, hpos, hlt, h⟩
    obtain ⟨hlow, hhigh⟩ := (hsplit k).mpr h
    omega

/-- **A cell meets one of the intervals exactly** if they cover it and no two of them meet inside
it. -/
theorem tilesAt_eq_one_iff (hsize : 0 < size) (hcount : 0 < count) :
    tilesAt origin size count i = 1 ↔
      Covered origin size count i ∧ ¬Split origin size count i := by
  rw [← tilesAt_ne_zero_iff hsize hcount, ← two_le_tilesAt_iff hsize]
  omega

end Intervals

end Aetheris.Raster
