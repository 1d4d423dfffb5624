import Mathlib

/-!
# Numbers as strings of bits

A packed format writes numbers of a known width into a string of bits, the least significant bit
first for most of them and the most significant bit first for code words.  A wide number is written
as its low part and its high part, and a number within the width is known from its bits.
-/

namespace Aetheris.BitString

/-- The `width` lowest bits of a number, the least significant one first. -/
def littleEndian : ℕ → ℕ → List Bool
  | 0, _ => []
  | width + 1, v => v.testBit 0 :: littleEndian width (v / 2)

/-- The `width` lowest bits of a number, the most significant one first. -/
def bigEndian : ℕ → ℕ → List Bool
  | 0, _ => []
  | width + 1, v => v.testBit width :: bigEndian width v

@[simp] theorem littleEndian_zero (v : ℕ) : littleEndian 0 v = [] := rfl

@[simp] theorem bigEndian_zero (v : ℕ) : bigEndian 0 v = [] := rfl

@[simp] theorem length_littleEndian (width v : ℕ) : (littleEndian width v).length = width := by
  induction width generalizing v with
  | zero => rfl
  | succ width ih => rw [littleEndian, List.length_cons, ih]

@[simp] theorem length_bigEndian (width v : ℕ) : (bigEndian width v).length = width := by
  induction width with
  | zero => rfl
  | succ width ih => rw [bigEndian, List.length_cons, ih]

theorem littleEndian_one (b : Bool) : littleEndian 1 b.toNat = [b] := by
  cases b <;> rfl

/-- The bits of a number, one by one. -/
theorem getElem?_littleEndian {width i : ℕ} (hi : i < width) (v : ℕ) :
    (littleEndian width v)[i]? = some (v.testBit i) := by
  induction width generalizing i v with
  | zero => exact absurd hi (Nat.not_lt_zero i)
  | succ width ih =>
    cases i with
    | zero => rw [littleEndian, List.getElem?_cons_zero]
    | succ i =>
      rw [littleEndian, List.getElem?_cons_succ, ih (Nat.lt_of_succ_lt_succ hi), Nat.testBit_succ]

/-- **A wide number is written as its low part and its high part.** -/
theorem littleEndian_add (width more v : ℕ) :
    littleEndian (width + more) v =
      littleEndian width v ++ littleEndian more (v / 2 ^ width) := by
  induction width generalizing v with
  | zero => rw [Nat.zero_add, littleEndian_zero, List.nil_append, Nat.pow_zero, Nat.div_one]
  | succ width ih =>
    rw [Nat.add_right_comm, littleEndian, littleEndian, ih, List.cons_append, Nat.div_div_eq_div_mul,
      ← Nat.pow_succ']

/-- Only the bits within the width are written. -/
theorem littleEndian_mod (width v : ℕ) :
    littleEndian width (v % 2 ^ width) = littleEndian width v := by
  induction width generalizing v with
  | zero => rfl
  | succ width ih =>
    rw [littleEndian, littleEndian, ← ih (v / 2), Nat.pow_succ', Nat.mod_mul_right_div_self,
      ← Nat.pow_succ']
    congr 1
    rw [Nat.testBit_mod_two_pow]
    exact Bool.and_eq_right_iff_imp.mpr fun _ => decide_eq_true (Nat.succ_pos width)

/-- The two parts of a number, put together with shifts. -/
theorem littleEndian_or_shiftLeft {width low : ℕ} (hlow : low < 2 ^ width) (more high : ℕ) :
    littleEndian (width + more) (low ||| high <<< width) =
      littleEndian width low ++ littleEndian more high := by
  have hsum : low ||| high <<< width = 2 ^ width * high + low := by
    rw [Nat.or_comm, Nat.shiftLeft_eq, Nat.mul_comm, Nat.two_pow_add_eq_or_of_lt hlow]
  have hdiv : (2 ^ width * high + low) / 2 ^ width = high := by
    rw [Nat.mul_add_div (Nat.two_pow_pos width), Nat.div_eq_of_lt hlow, Nat.add_zero]
  rw [hsum, littleEndian_add, hdiv, ← littleEndian_mod width (2 ^ width * high + low),
    Nat.mul_add_mod, littleEndian_mod]

/-- The two parts of a number stay within its width. -/
theorem or_shiftLeft_lt {width more low high : ℕ} (hlow : low < 2 ^ width)
    (hhigh : high < 2 ^ more) : low ||| high <<< width < 2 ^ (width + more) := by
  refine Nat.or_lt_two_pow (hlow.trans_le (Nat.pow_le_pow_right Nat.two_pos (Nat.le_add_right _ _))) ?_
  rw [Nat.shiftLeft_eq, Nat.add_comm, Nat.pow_add]
  exact Nat.mul_lt_mul_of_pos_right hhigh (Nat.two_pow_pos width)

/-- **A number within the width is known from its bits.** -/
theorem littleEndian_inj {width v w : ℕ} (hv : v < 2 ^ width) (hw : w < 2 ^ width)
    (h : littleEndian width v = littleEndian width w) : v = w := by
  induction width generalizing v w with
  | zero =>
    rw [Nat.pow_zero, Nat.lt_one_iff] at hv hw
    rw [hv, hw]
  | succ width ih =>
    rw [littleEndian, littleEndian, List.cons.injEq] at h
    rw [Nat.pow_succ] at hv hw
    have hhalf : v / 2 = w / 2 := ih (by omega) (by omega) h.2
    have hlow := h.1
    rw [Nat.testBit_zero, Nat.testBit_zero, decide_eq_decide] at hlow
    omega

/-- The next bit of a number read from its most significant end. -/
theorem div_two_pow_eq (v width : ℕ) :
    v / 2 ^ width = 2 * (v / 2 ^ (width + 1)) + (v.testBit width).toNat := by
  rw [Nat.toNat_testBit, Nat.pow_succ, ← Nat.div_div_eq_div_mul, Nat.div_add_mod]

theorem div_two_pow_pred (v width : ℕ) :
    v / 2 ^ width = (v / 2 ^ (width + 1)) <<< 1 ||| (v.testBit width).toNat := by
  have hlt : (v.testBit width).toNat < 2 ^ 1 := Bool.toNat_lt _
  rw [Nat.shiftLeft_eq, Nat.mul_comm, ← Nat.two_pow_add_eq_or_of_lt hlt, Nat.pow_one,
    ← div_two_pow_eq]

end Aetheris.BitString
