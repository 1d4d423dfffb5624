import Aetheris.Library.BitString

/-!
# Canonical prefix codes

A canonical code is given by the lengths of its code words alone.  Words of one length are
consecutive numbers in the order of their symbols, and the first word of a length follows the last
word of the length before, with a zero appended.  A symbol of length zero has no word.

The words of at most `k` bits take exactly the code space below the next word.  So if the lengths do
not take more than there is, a word fits in its length, and a proper prefix of it lies past all
words of its own length: no word is a prefix of another one.
-/

namespace Aetheris.CanonicalCode

open BitString

variable (lengths : List ℕ)

/-- How many symbols have words of a length. -/
def count (ℓ : ℕ) : ℕ := if ℓ = 0 then 0 else lengths.count ℓ

/-- The first word of a length. -/
def firstCode : ℕ → ℕ
  | 0 => 0
  | ℓ + 1 => 2 * (firstCode ℓ + count lengths ℓ)

/-- How many symbols have shorter words. -/
def before : ℕ → ℕ
  | 0 => 0
  | ℓ + 1 => before ℓ + count lengths ℓ

/-- The length of the word of a symbol. -/
def width (symbol : ℕ) : ℕ := lengths.getD symbol 0

/-- How many smaller symbols have words of the same length. -/
def rank (symbol : ℕ) : ℕ := (lengths.take symbol).count (width lengths symbol)

/-- The word of a symbol, as a number. -/
def code (symbol : ℕ) : ℕ := firstCode lengths (width lengths symbol) + rank lengths symbol

/-- The word of a symbol. -/
def word (symbol : ℕ) : List Bool := bigEndian (width lengths symbol) (code lengths symbol)

/-- The place of a symbol among the used ones. -/
def position (symbol : ℕ) : ℕ := before lengths (width lengths symbol) + rank lengths symbol

/-- The part of the code space taken by the words of at most `k` bits, in words of `maxBits`
bits. -/
def weight (maxBits k : ℕ) : ℕ :=
  (lengths.map fun ℓ => if ℓ = 0 ∨ k < ℓ then 0 else 2 ^ (maxBits - ℓ)).sum

/-- **The lengths are not over-subscribed.** -/
structure Fits (maxBits : ℕ) : Prop where
  /-- No word is too long. -/
  le_maxBits : ∀ ℓ ∈ lengths, ℓ ≤ maxBits
  /-- The words find room. -/
  weight_le : weight lengths maxBits maxBits ≤ 2 ^ maxBits

/-- Every string of `maxBits` bits starts with a word. -/
def Complete (maxBits : ℕ) : Prop := weight lengths maxBits maxBits = 2 ^ maxBits

/-- No symbol has a word. -/
def Unused : Prop := ∀ ℓ ∈ lengths, ℓ = 0

instance (maxBits : ℕ) : Decidable (Complete lengths maxBits) :=
  inferInstanceAs (Decidable (_ = _))

instance : Decidable (Unused lengths) := inferInstanceAs (Decidable (∀ ℓ ∈ lengths, ℓ = 0))

instance (maxBits : ℕ) : Decidable (Fits lengths maxBits) :=
  decidable_of_iff
    ((∀ ℓ ∈ lengths, ℓ ≤ maxBits) ∧ weight lengths maxBits maxBits ≤ 2 ^ maxBits)
    ⟨fun h => ⟨h.1, h.2⟩, fun h => ⟨h.le_maxBits, h.weight_le⟩⟩

variable {lengths}

/-! ## Counting -/

theorem count_of_pos {ℓ : ℕ} (h : ℓ ≠ 0) : count lengths ℓ = lengths.count ℓ := if_neg h

@[simp] theorem count_zero : count lengths 0 = 0 := if_pos rfl

theorem width_mem {symbol : ℕ} (h : width lengths symbol ≠ 0) :
    symbol < lengths.length ∧ width lengths symbol ∈ lengths := by
  rw [width, List.getD_eq_getElem?_getD] at h ⊢
  by_cases hlt : symbol < lengths.length
  · rw [List.getElem?_eq_getElem hlt, Option.getD_some]
    exact ⟨hlt, List.getElem_mem hlt⟩
  · rw [List.getElem?_eq_none (Nat.le_of_not_lt hlt), Option.getD_none] at h
    exact absurd rfl h

/-- A symbol is one of those that have words of its length. -/
theorem rank_lt_count {symbol : ℕ} (h : width lengths symbol ≠ 0) :
    rank lengths symbol < count lengths (width lengths symbol) := by
  obtain ⟨hlt, -⟩ := width_mem h
  have hget : width lengths symbol = lengths[symbol] := by
    rw [width, List.getD_eq_getElem?_getD, List.getElem?_eq_getElem hlt, Option.getD_some]
  have hsplit : lengths = lengths.take symbol ++ lengths[symbol] :: lengths.drop (symbol + 1) := by
    rw [← List.drop_eq_getElem_cons hlt, List.take_append_drop]
  have hcount := congrArg (List.count (width lengths symbol)) hsplit
  rw [List.count_append, ← hget, List.count_cons_self] at hcount
  rw [count_of_pos h, rank]
  omega

/-- Of two symbols with words of one length the smaller one comes first. -/
theorem rank_lt_rank {s t : ℕ} (hst : s < t) (hs : width lengths s ≠ 0)
    (h : width lengths s = width lengths t) : rank lengths s < rank lengths t := by
  obtain ⟨hlt, -⟩ := width_mem hs
  have hget : lengths[s] = width lengths t := by
    rw [← h, width, List.getD_eq_getElem?_getD, List.getElem?_eq_getElem hlt, Option.getD_some]
  have hsplit : lengths.take (s + 1) = lengths.take s ++ [lengths[s]] :=
    List.take_succ_eq_append_getElem hlt
  have hle : (lengths.take (s + 1)).count (width lengths t)
      ≤ (lengths.take t).count (width lengths t) :=
    (List.take_sublist_take_left (by omega)).count_le _
  rw [hsplit, List.count_append, hget, List.count_singleton_self] at hle
  rw [rank, rank, h]
  omega

theorem before_le_before {j ℓ : ℕ} (h : j < ℓ) :
    before lengths j + count lengths j ≤ before lengths ℓ := by
  induction ℓ with
  | zero => exact absurd h (Nat.not_lt_zero j)
  | succ ℓ ih =>
    rw [before]
    rcases Nat.eq_or_lt_of_le (Nat.le_of_lt_succ h) with rfl | hlt
    · exact Nat.le_refl _
    · exact (ih hlt).trans (Nat.le_add_right _ _)

/-- The symbols with shorter words, counted. -/
theorem before_eq_countP (ℓ : ℕ) :
    before lengths ℓ = lengths.countP fun k => decide (k ≠ 0 ∧ k < ℓ) := by
  induction ℓ with
  | zero =>
    refine (List.countP_eq_zero.mpr fun k _ => ?_).symm
    exact fun h => Nat.not_lt_zero k (of_decide_eq_true h).2
  | succ ℓ ih =>
    rw [before, ih, count]
    by_cases hℓ : ℓ = 0
    · rw [if_pos hℓ, Nat.add_zero]
      exact List.countP_congr fun k _ => by simp only [decide_eq_true_eq]; omega
    · rw [if_neg hℓ]
      clear ih
      induction lengths with
      | nil => rfl
      | cons k lengths ih =>
        rw [List.countP_cons, List.countP_cons, List.count_cons, ← ih]
        have hstep : (if decide (k ≠ 0 ∧ k < ℓ) = true then 1 else 0) +
            (if (k == ℓ) = true then 1 else 0) =
            if decide (k ≠ 0 ∧ k < ℓ + 1) = true then 1 else 0 := by
          simp only [decide_eq_true_eq, beq_iff_eq]
          split_ifs <;> omega
        omega

/-- There are not more places than symbols. -/
theorem before_le_length (ℓ : ℕ) : before lengths ℓ ≤ lengths.length := by
  rw [before_eq_countP]
  exact List.countP_le_length

/-- **Where words get longer with their symbols**, the place of a symbol is the symbol. -/
theorem position_eq_self (hsorted : lengths.Pairwise (· ≤ ·)) (hused : ∀ ℓ ∈ lengths, ℓ ≠ 0)
    {symbol : ℕ} (hlt : symbol < lengths.length) : position lengths symbol = symbol := by
  have hget : width lengths symbol = lengths[symbol] := by
    rw [width, List.getD_eq_getElem?_getD, List.getElem?_eq_getElem hlt, Option.getD_some]
  have hsplit : lengths.take symbol ++ lengths.drop symbol = lengths :=
    List.take_append_drop symbol lengths
  have hdrop : lengths.drop symbol = lengths[symbol] :: lengths.drop (symbol + 1) :=
    List.drop_eq_getElem_cons hlt
  rw [← hsplit, List.pairwise_append] at hsorted
  have hbehind : (lengths.drop symbol).countP
      (fun k => decide (k ≠ 0 ∧ k < width lengths symbol)) = 0 := by
    refine List.countP_eq_zero.mpr fun k hk => ?_
    have hle : lengths[symbol] ≤ k := by
      have hpairwise := hsorted.2.1
      rw [hdrop] at hk hpairwise
      rcases List.mem_cons.mp hk with rfl | hk
      · exact Nat.le_refl _
      · exact List.rel_of_pairwise_cons hpairwise hk
    rw [decide_eq_true_eq, hget]
    omega
  have hfront : ∀ k ∈ lengths.take symbol, k ≠ 0 ∧ k ≤ width lengths symbol := fun k hk =>
    ⟨hused k (List.mem_of_mem_take hk), hget ▸ hsorted.2.2 k hk _ (hdrop ▸ List.mem_cons_self)⟩
  have hcount : ∀ front : List ℕ, (∀ k ∈ front, k ≠ 0 ∧ k ≤ width lengths symbol) →
      front.countP (fun k => decide (k ≠ 0 ∧ k < width lengths symbol)) +
        front.count (width lengths symbol) = front.length := by
    intro front hfront
    induction front with
    | nil => rfl
    | cons k front ih =>
      obtain ⟨hk, hrest⟩ := List.forall_mem_cons.mp hfront
      have ih := ih hrest
      rw [List.countP_cons, List.count_cons, List.length_cons]
      simp only [decide_eq_true_eq, beq_iff_eq]
      split_ifs <;> omega
  have hfull := hcount _ hfront
  have hshorter := congrArg
    (List.countP fun k => decide (k ≠ 0 ∧ k < width lengths symbol)) hsplit
  rw [List.length_take, Nat.min_eq_left (Nat.le_of_lt hlt)] at hfull
  rw [List.countP_append, hbehind] at hshorter
  rw [position, rank, before_eq_countP]
  omega

/-- **No two used symbols share a place.** -/
theorem position_inj {s t : ℕ} (hs : width lengths s ≠ 0) (ht : width lengths t ≠ 0)
    (h : position lengths s = position lengths t) : s = t := by
  have hrs := rank_lt_count hs
  have hrt := rank_lt_count ht
  rw [position, position] at h
  rcases Nat.lt_trichotomy (width lengths s) (width lengths t) with hlt | heq | hlt
  · have hle : before lengths _ + count lengths _ ≤ before lengths _ := before_le_before hlt
    omega
  · rcases Nat.lt_trichotomy s t with hst | hst | hst
    · have hrank := rank_lt_rank hst hs heq
      rw [heq] at h
      omega
    · exact hst
    · have hrank := rank_lt_rank hst ht heq.symm
      rw [heq] at h
      omega
  · have hle : before lengths _ + count lengths _ ≤ before lengths _ := before_le_before hlt
    omega

/-! ## Room for the words -/

theorem weight_succ (maxBits k : ℕ) :
    weight lengths maxBits (k + 1) =
      weight lengths maxBits k + count lengths (k + 1) * 2 ^ (maxBits - (k + 1)) := by
  rw [count_of_pos (Nat.succ_ne_zero k)]
  induction lengths with
  | nil => rw [weight, weight, List.count_nil, Nat.zero_mul]; rfl
  | cons ℓ lengths ih =>
    rw [weight, weight] at ih
    rw [weight, weight, List.map_cons, List.map_cons, List.sum_cons, List.sum_cons, ih,
      List.count_cons]
    rcases Nat.lt_trichotomy ℓ (k + 1) with hlt | rfl | hlt
    · have hne : (ℓ == k + 1) = false := beq_false_of_ne (Nat.ne_of_lt hlt)
      have hiff : (ℓ = 0 ∨ k + 1 < ℓ) ↔ (ℓ = 0 ∨ k < ℓ) := by omega
      rw [if_congr hiff rfl rfl, hne, if_neg Bool.false_ne_true]
      ring
    · rw [if_neg (by omega), if_pos (by omega), beq_self_eq_true, if_pos rfl]
      ring
    · have hne : (ℓ == k + 1) = false := beq_false_of_ne (Nat.ne_of_gt hlt)
      rw [if_pos (by omega), if_pos (by omega), hne, if_neg Bool.false_ne_true]
      ring

theorem weight_zero (maxBits : ℕ) : weight lengths maxBits 0 = 0 := by
  induction lengths with
  | nil => rfl
  | cons ℓ lengths ih =>
    rw [weight] at ih ⊢
    rw [List.map_cons, List.sum_cons, ih, if_pos (by omega)]

/-- **The words of at most `k` bits take exactly the code space below the next word.** -/
theorem firstCode_add_count_mul {maxBits k : ℕ} (hk : k ≤ maxBits) :
    (firstCode lengths k + count lengths k) * 2 ^ (maxBits - k) = weight lengths maxBits k := by
  induction k with
  | zero => rw [firstCode, count_zero, weight_zero, Nat.zero_mul]
  | succ k ih =>
    have hpow : 2 ^ (maxBits - k) = 2 * 2 ^ (maxBits - (k + 1)) := by
      rw [← Nat.pow_succ']
      congr 1
      omega
    rw [weight_succ, ← ih (by omega), hpow, firstCode]
    ring

theorem weight_mono {maxBits j k : ℕ} (h : j ≤ k) :
    weight lengths maxBits j ≤ weight lengths maxBits k := by
  induction k with
  | zero => rw [Nat.le_zero.mp h]
  | succ k ih =>
    rcases Nat.eq_or_lt_of_le h with rfl | hlt
    · exact Nat.le_refl _
    · rw [weight_succ]
      exact (ih (Nat.le_of_lt_succ hlt)).trans (Nat.le_add_right _ _)

/-- Where the lengths fit, every length has its words below `2 ^ k`. -/
theorem Fits.firstCode_add_count_le {maxBits k : ℕ} (h : Fits lengths maxBits)
    (hk : k ≤ maxBits) : firstCode lengths k + count lengths k ≤ 2 ^ k := by
  have hle : (firstCode lengths k + count lengths k) * 2 ^ (maxBits - k)
      ≤ 2 ^ k * 2 ^ (maxBits - k) := by
    rw [firstCode_add_count_mul hk, ← Nat.pow_add, Nat.add_sub_cancel' hk]
    exact (weight_mono hk).trans h.weight_le
  exact Nat.le_of_mul_le_mul_right hle (Nat.two_pow_pos _)

/-- A complete code takes the last word of the greatest length. -/
theorem complete_iff {maxBits : ℕ} :
    Complete lengths maxBits ↔
      firstCode lengths maxBits + count lengths maxBits = 2 ^ maxBits := by
  rw [Complete, ← firstCode_add_count_mul (Nat.le_refl maxBits), Nat.sub_self, Nat.pow_zero,
    Nat.mul_one]

/-! ## Words and their prefixes -/

theorem width_le {maxBits symbol : ℕ} (h : Fits lengths maxBits)
    (hs : width lengths symbol ≠ 0) : width lengths symbol ≤ maxBits :=
  h.le_maxBits _ (width_mem hs).2

theorem firstCode_mul_le {j ℓ : ℕ} (h : j < ℓ) :
    (firstCode lengths j + count lengths j) * 2 ^ (ℓ - j) ≤ firstCode lengths ℓ := by
  induction ℓ with
  | zero => exact absurd h (Nat.not_lt_zero j)
  | succ ℓ ih =>
    rw [firstCode]
    rcases Nat.eq_or_lt_of_le (Nat.le_of_lt_succ h) with rfl | hlt
    · rw [Nat.add_sub_cancel_left, Nat.pow_one, Nat.mul_comm]
    · rw [Nat.succ_sub (Nat.le_of_lt hlt), Nat.pow_succ, ← Nat.mul_assoc, Nat.mul_comm _ 2]
      exact Nat.mul_le_mul_left 2 ((ih hlt).trans (Nat.le_add_right _ _))

/-- **A proper prefix of a word lies past all words of its own length.** -/
theorem le_prefix {j symbol : ℕ} (h : j < width lengths symbol) :
    firstCode lengths j + count lengths j ≤
      code lengths symbol / 2 ^ (width lengths symbol - j) := by
  rw [Nat.le_div_iff_mul_le (Nat.two_pow_pos _)]
  exact (firstCode_mul_le h).trans (Nat.le_add_right _ _)

/-- A word is one of the words of its length. -/
theorem code_lt {symbol : ℕ} (h : width lengths symbol ≠ 0) :
    code lengths symbol <
      firstCode lengths (width lengths symbol) + count lengths (width lengths symbol) :=
  Nat.add_lt_add_left (rank_lt_count h) _

theorem code_lt_two_pow {maxBits symbol : ℕ} (hfits : Fits lengths maxBits)
    (h : width lengths symbol ≠ 0) : code lengths symbol < 2 ^ width lengths symbol :=
  (code_lt h).trans_le (hfits.firstCode_add_count_le (width_le hfits h))

/-- The places are those of the used symbols. -/
theorem position_lt {symbol : ℕ} (h : width lengths symbol ≠ 0) :
    position lengths symbol < before lengths (width lengths symbol + 1) :=
  Nat.add_lt_add_left (rank_lt_count h) _

end Aetheris.CanonicalCode
