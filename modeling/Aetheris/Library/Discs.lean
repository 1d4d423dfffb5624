import Mathlib

/-!
# Discs

A disc of radius `s` whose centre is off by `u` and `v` lies in a disc of radius `r` if and only if
the distance of the centres is at most `r - s`.  One direction adds the two distances, squared; for
the other one a rational point is found near the end of the diameter through both centres.
-/

namespace Aetheris.Discs

/-- The lengths of two vectors, and that of their sum. -/
theorem add_sq_le {K : Type*} [Field K] [LinearOrder K] [IsStrictOrderedRing K] {a b x y r s : K}
    (hr : 0 ≤ r) (hs : 0 ≤ s) (hab : a ^ 2 + b ^ 2 ≤ r ^ 2) (hxy : x ^ 2 + y ^ 2 ≤ s ^ 2) :
    (a + x) ^ 2 + (b + y) ^ 2 ≤ (r + s) ^ 2 := by
  have hproduct : a * x + b * y ≤ r * s := by
    refine abs_le_of_sq_le_sq' ?_ (mul_nonneg hr hs) |>.2
    calc (a * x + b * y) ^ 2 ≤ (a ^ 2 + b ^ 2) * (x ^ 2 + y ^ 2) := by
          linarith [sq_nonneg (a * y - b * x), add_mul (a ^ 2) (b ^ 2) (x ^ 2 + y ^ 2)]
      _ ≤ r ^ 2 * s ^ 2 := mul_le_mul hab hxy (by positivity) (by positivity)
      _ = (r * s) ^ 2 := (mul_pow r s 2).symm
  linarith [add_sq a x, add_sq b y, add_sq r s]

/-- A vector that is longer than each of its parts may be has two parts. -/
theorem pos_of_lt_add_sq {K : Type*} [Field K] [LinearOrder K] [IsStrictOrderedRing K] {u v d : K}
    (hd : 0 ≤ d) (hu : u ≤ d) (hv : v ≤ d) (hfar : d ^ 2 < max 0 u ^ 2 + max 0 v ^ 2) :
    0 < u ∧ 0 < v := by
  have hsq {w : K} (hw : w ≤ d) : max 0 w ^ 2 ≤ d ^ 2 :=
    pow_le_pow_left₀ (le_max_left _ _) (max_le hd hw) 2
  constructor
  · by_contra hneg
    rw [max_eq_left (not_lt.mp hneg), zero_pow two_ne_zero, zero_add] at hfar
    exact hfar.not_ge (hsq hv)
  · by_contra hneg
    rw [max_eq_left (not_lt.mp hneg), zero_pow two_ne_zero, add_zero] at hfar
    exact hfar.not_ge (hsq hu)

theorem exists_rat_mem {points : Set (ℝ × ℝ)} (hopen : IsOpen points) (hne : points.Nonempty) :
    ∃ a b : ℚ, ((a : ℝ), (b : ℝ)) ∈ points := by
  obtain ⟨⟨a, b⟩, h⟩ :=
    (Rat.denseRange_cast.prodMap Rat.denseRange_cast).exists_mem_open hopen hne
  exact ⟨a, b, h⟩

/-- The line through both centres leaves the one disc behind the other one. -/
theorem exists_real_outside {u v r s : ℝ} (hu : 0 < u) (hv : 0 < v) (hs : 0 < s) (hsr : s ≤ r)
    (hfar : (r - s) ^ 2 < u ^ 2 + v ^ 2) :
    ∃ p : ℝ × ℝ, (0 < p.1 ∧ 0 < p.2) ∧ p.1 ^ 2 + p.2 ^ 2 < s ^ 2 ∧
      r ^ 2 < (u + p.1) ^ 2 + (v + p.2) ^ 2 := by
  obtain ⟨d, hd⟩ : ∃ d, d = √(u ^ 2 + v ^ 2) := ⟨_, rfl⟩
  have hsq : d ^ 2 = u ^ 2 + v ^ 2 := by
    rw [hd]
    exact Real.sq_sqrt (by positivity)
  have hdpos : 0 < d := by
    rw [hd]
    exact Real.sqrt_pos.mpr (by positivity)
  have hlt : r - s < d := lt_of_pow_lt_pow_left₀ 2 hdpos.le (hfar.trans_eq hsq.symm)
  have hunit : (u / d) ^ 2 + (v / d) ^ 2 = 1 := by
    rw [div_pow, div_pow, ← add_div, ← hsq, div_self (pow_ne_zero 2 hdpos.ne')]
  -- how far to go: a little less than the radius
  obtain ⟨k, hlow, hks⟩ := exists_between (max_lt (by linarith : r - d < s) hs)
  obtain ⟨hkr, hk⟩ := max_lt_iff.mp hlow
  have hstep (a : ℝ) : a + k * (a / d) = a / d * (d + k) := by
    field_simp
  refine ⟨(k * (u / d), k * (v / d)), ⟨by positivity, by positivity⟩, ?_, ?_⟩
  · rw [mul_pow, mul_pow, ← mul_add, hunit, mul_one]
    exact pow_lt_pow_left₀ hks hk.le two_ne_zero
  · rw [hstep, hstep, mul_pow, mul_pow, ← add_mul, hunit, one_mul]
    exact pow_lt_pow_left₀ (by linarith) (hs.le.trans hsr) two_ne_zero

/-- **A point of the disc around the origin that is not in the other disc**, if the distance of the
centres is more than the difference of the radii. -/
theorem exists_outside {u v r s : ℚ} (hu : 0 < u) (hv : 0 < v) (hs : 0 < s) (hsr : s ≤ r)
    (hfar : (r - s) ^ 2 < u ^ 2 + v ^ 2) :
    ∃ x y : ℚ, (0 < x ∧ 0 < y) ∧ x ^ 2 + y ^ 2 < s ^ 2 ∧ r ^ 2 < (u + x) ^ 2 + (v + y) ^ 2 := by
  let points : Set (ℝ × ℝ) := {p | (0 < p.1 ∧ 0 < p.2) ∧ p.1 ^ 2 + p.2 ^ 2 < (s : ℝ) ^ 2 ∧
    (r : ℝ) ^ 2 < (u + p.1) ^ 2 + (v + p.2) ^ 2}
  have hopen : IsOpen points := by
    have hlt {f g : ℝ × ℝ → ℝ} (hf : Continuous f) (hg : Continuous g) : IsOpen {p | f p < g p} :=
      isOpen_lt hf hg
    refine .and (.and ?_ ?_) (.and ?_ ?_)
    all_goals exact hlt (by fun_prop) (by fun_prop)
  have hne : points.Nonempty := exists_real_outside (Rat.cast_pos.mpr hu) (Rat.cast_pos.mpr hv)
    (Rat.cast_pos.mpr hs) (Rat.cast_le.mpr hsr) (by exact_mod_cast hfar)
  obtain ⟨x, y, hmem⟩ := exists_rat_mem hopen hne
  simp only [points, Set.mem_ofPred_eq] at hmem
  norm_cast at hmem
  exact ⟨x, y, hmem⟩

/-- A disc without a radius: points beside its centre. -/
theorem exists_beside {u v r w h : ℚ} (hu : 0 < u) (hv : 0 < v) (hw : 0 < w) (hh : 0 < h)
    (hfar : r ^ 2 < u ^ 2 + v ^ 2) :
    ∃ e : ℚ, 0 < e ∧ (e < w ∧ e < h) ∧ (e < u ∧ e < v) ∧ r ^ 2 < (u - e) ^ 2 + (v - e) ^ 2 := by
  have hgap : 0 < (u ^ 2 + v ^ 2 - r ^ 2) / (2 * (u + v)) :=
    div_pos (by linarith) (by linarith)
  obtain ⟨e, hpos, he⟩ := exists_between
    (lt_min (lt_min hw hh) (lt_min (lt_min hu hv) hgap))
  simp only [lt_min_iff] at he
  obtain ⟨hsizes, hcentre, hgap⟩ := he
  refine ⟨e, hpos, hsizes, hcentre, ?_⟩
  rw [lt_div_iff₀ (by linarith)] at hgap
  linarith [sq_nonneg e, sub_sq u e, sub_sq v e]

end Aetheris.Discs
