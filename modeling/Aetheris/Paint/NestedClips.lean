import Aetheris.Library.Discs
import Aetheris.Paint.Surface

/-!
# Rounded clips inside each other

`ClipStack` keeps one rectangle, the common area of all rectangles, and one radius, the least one.

How far a point is beyond the straight part of a side is its overhang, and a rounded rectangle is
what has overhangs in a disc.  So a corner of the common area sticks out of a corner of a clip
exactly if one disc is not in another one, which a point of some pixel grid then shows.
-/

namespace Aetheris.Paint

open Layout SoftwareSurface

/-- The stack after some pushes, the last one of which comes first. -/
def stackOf (pushes : List (RoundedRect ℚ)) : ClipStack ℚ :=
  pushes.foldr (fun push clips => clips.push push.rect push.radius) []

/-- `accepts`, where the pixel grid is off by `dx` and `dy`. -/
def acceptsAt (dx dy : ℚ) (p : Pixel) (clip : Option (RoundedRect ℚ)) : Bool :=
  clip.elim true fun clip => clip.contains (p.1 + 1 / 2 + dx) (p.2 + 1 / 2 + dy)

/-- **A pixel centre is accepted only inside of every pushed clip, and inside of all of them if no
radius is positive.** -/
structure NestsAt (dx dy : ℚ) (pushes : List (RoundedRect ℚ)) : Prop where
  inside : ∀ p, acceptsAt dx dy p (stackOf pushes).head? = true →
    ∀ push ∈ pushes, acceptsAt dx dy p (some push) = true
  accepted : (∀ push ∈ pushes, push.radius = 0) →
    ∀ p, (∀ push ∈ pushes, acceptsAt dx dy p (some push) = true) →
      acceptsAt dx dy p (stackOf pushes).head? = true

/-! ## What the stack keeps -/

/-- The area that some rectangles have in common. -/
def commonArea : List (RoundedRect ℚ) → LayoutRect ℚ
  | [] => default
  | [push] => push.rect
  | push :: pushes => intersectRect (commonArea pushes) push.rect

/-- The least radius, if it fits into an area. -/
def leastRadius (area : LayoutRect ℚ) (pushes : List (RoundedRect ℚ)) : ℚ :=
  pushes.foldr (fun push radius => min push.radius radius) (min area.width area.height / 2)

/-! ## Rounded rectangles -/

/-- How far a point of a side is in one of the two rounded parts. -/
def overhang (start size radius x : ℚ) : ℚ :=
  max 0 (max (start + radius - x) (x - (start + size - radius)))

/-- The radius of the corners that are drawn. -/
def cornerRadius (shape : RoundedRect ℚ) : ℚ :=
  min shape.radius (min shape.rect.width shape.rect.height / 2)

theorem radius_normalized {shape : RoundedRect ℚ} (hradius : 0 ≤ shape.radius)
    (hwidth : 0 < shape.rect.width) (hheight : 0 < shape.rect.height) :
    shape.normalized.radius = cornerRadius shape := by
  have hhalf : (0 : ℚ) ≤ min shape.rect.width shape.rect.height / 2 :=
    (half_pos (lt_min hwidth hheight)).le
  have hclamp : shape.normalized.radius =
      clamp shape.radius 0 (min shape.rect.width shape.rect.height / 2) := by
    have hproduct : min shape.rect.width shape.rect.height / 2 =
        min shape.rect.width shape.rect.height * (1 / 2) := by ring
    rw [hproduct, RoundedRect.normalized, fmin_rat]
    rfl
  rw [hclamp, clamp, if_neg hradius.not_gt, cornerRadius]
  split
  next h => rw [min_eq_right h.le]
  next h => rw [min_eq_left (not_lt.mp h)]

theorem overhang_nonneg (start size radius x : ℚ) : 0 ≤ overhang start size radius x :=
  le_max_left _ _

/-- Nothing of a side is rounded. -/
theorem overhang_zero {start size x : ℚ} (hlow : start ≤ x) (hhigh : x < start + size) :
    overhang start size 0 x = 0 :=
  max_eq_left (max_le (by linarith) (by linarith))

/-- The distance to the straight part of a side. -/
theorem sub_clamp_sq {start size radius x : ℚ} (hfits : radius ≤ size / 2) :
    (x - clamp x (start + radius) (start + size - radius)) *
        (x - clamp x (start + radius) (start + size - radius)) =
      overhang start size radius x ^ 2 := by
  rw [clamp, overhang]
  split
  next hlow =>
    have hover : max 0 (max (start + radius - x) (x - (start + size - radius))) =
        start + radius - x := by
      rw [max_eq_left (by linarith : x - (start + size - radius) ≤ start + radius - x),
        max_eq_right (by linarith)]
    rw [hover]
    ring
  next hlow =>
    split
    next hhigh =>
      have hover : max 0 (max (start + radius - x) (x - (start + size - radius))) =
          x - (start + size - radius) := by
        rw [max_eq_right (by linarith : start + radius - x ≤ x - (start + size - radius)),
          max_eq_right (by linarith)]
      rw [hover]
      ring
    next hhigh =>
      rw [max_eq_left (max_le (by linarith) (by linarith)), sub_self, mul_zero,
        zero_pow two_ne_zero]

/-- **A rounded rectangle**: the overhangs are those of a disc. -/
theorem contains_iff_overhang {shape : RoundedRect ℚ} (hradius : 0 ≤ shape.radius)
    (hwidth : 0 < shape.rect.width) (hheight : 0 < shape.rect.height) {x y : ℚ} :
    shape.contains x y = true ↔ inRect shape.rect x y = true ∧
      overhang shape.rect.x shape.rect.width (cornerRadius shape) x ^ 2 +
        overhang shape.rect.y shape.rect.height (cornerRadius shape) y ^ 2 ≤
          cornerRadius shape ^ 2 := by
  have hnormalized := radius_normalized hradius hwidth hheight
  have hnonneg : 0 ≤ cornerRadius shape := le_min hradius (half_pos (lt_min hwidth hheight)).le
  have hsides : cornerRadius shape ≤ shape.rect.width / 2 ∧
      cornerRadius shape ≤ shape.rect.height / 2 :=
    ⟨(min_le_right _ _).trans (div_le_div_of_nonneg_right (min_le_left _ _) zero_le_two),
      (min_le_right _ _).trans (div_le_div_of_nonneg_right (min_le_right _ _) zero_le_two)⟩
  by_cases hinside : inRect shape.rect x y = true
  · obtain ⟨hx, hy, hx', hy'⟩ := inRect_iff.mp hinside
    have hnotout : ¬(x < shape.rect.x ∨ y < shape.rect.y ∨ shape.rect.x + shape.rect.width ≤ x ∨
        shape.rect.y + shape.rect.height ≤ y) := by
      rw [not_or, not_or, not_or]
      exact ⟨hx.not_gt, hy.not_gt, hx'.not_ge, hy'.not_ge⟩
    have hrect : shape.normalized.rect = shape.rect := rfl
    rw [RoundedRect.contains, hrect, hnormalized, if_neg hnotout, and_iff_right hinside]
    by_cases hzero : cornerRadius shape ≤ 0
    · -- without a radius there is no overhang either
      have hradius : cornerRadius shape = 0 := le_antisymm hzero hnonneg
      rw [if_pos hzero, hradius, overhang_zero hx hx', overhang_zero hy hy']
      exact iff_of_true rfl (by norm_num)
    · rw [if_neg hzero]
      dsimp only
      rw [sub_clamp_sq hsides.1, sub_clamp_sq hsides.2, decide_eq_true_iff, sq (cornerRadius shape)]
  · refine iff_of_false (fun h => hinside ?_) fun h => hinside h.1
    exact inRect_of_contains h

/-! ## The summary -/

/-- There is something in a rectangle. -/
def HasArea (rect : LayoutRect ℚ) : Prop := 0 < rect.width ∧ 0 < rect.height

instance (rect : LayoutRect ℚ) : Decidable (HasArea rect) := by
  unfold HasArea
  infer_instance

theorem hasArea_of_inRect {rect : LayoutRect ℚ} {x y : ℚ} (h : inRect rect x y = true) :
    HasArea rect := by
  obtain ⟨hx, hy, hx', hy'⟩ := inRect_iff.mp h
  exact ⟨by linarith, by linarith⟩

theorem intersectRect_comm (a b : LayoutRect ℚ) : intersectRect a b = intersectRect b a := by
  simp only [intersectRect, fmax_rat, fmin_rat, max_comm a.x, max_comm a.y,
    min_comm (a.x + a.width), min_comm (a.y + a.height)]

/-- A rectangle is inside of another one. -/
def Within (inner outer : LayoutRect ℚ) : Prop :=
  (outer.x ≤ inner.x ∧ inner.x + inner.width ≤ outer.x + outer.width) ∧
    outer.y ≤ inner.y ∧ inner.y + inner.height ≤ outer.y + outer.height

theorem Within.trans {a b c : LayoutRect ℚ} (hab : Within a b) (hbc : Within b c) : Within a c :=
  ⟨⟨hbc.1.1.trans hab.1.1, hab.1.2.trans hbc.1.2⟩, hbc.2.1.trans hab.2.1, hab.2.2.trans hbc.2.2⟩

theorem Within.size_le {a b : LayoutRect ℚ} (h : Within a b) :
    a.width ≤ b.width ∧ a.height ≤ b.height := by
  obtain ⟨⟨hx, hx'⟩, hy, hy'⟩ := h
  exact ⟨by linarith, by linarith⟩

theorem within_intersectRect {a b : LayoutRect ℚ} (harea : HasArea (intersectRect a b)) :
    Within (intersectRect a b) a ∧ Within (intersectRect a b) b := by
  have hpos : ¬((intersectRect a b).width ≤ 0 ∨ (intersectRect a b).height ≤ 0) :=
    not_or.mpr ⟨harea.1.not_ge, harea.2.not_ge⟩
  refine ⟨intersectRect_le hpos, ?_⟩
  rw [intersectRect_comm] at hpos ⊢
  exact intersectRect_le hpos

theorem commonArea_cons (push : RoundedRect ℚ) {pushes : List (RoundedRect ℚ)}
    (hne : pushes ≠ []) :
    commonArea (push :: pushes) = intersectRect (commonArea pushes) push.rect := by
  cases pushes with
  | nil => exact absurd rfl hne
  | cons push' pushes => rfl

theorem inRect_commonArea {pushes : List (RoundedRect ℚ)} (hne : pushes ≠ []) {x y : ℚ} :
    inRect (commonArea pushes) x y = true ↔ ∀ push ∈ pushes, inRect push.rect x y = true := by
  induction pushes with
  | nil => exact absurd rfl hne
  | cons push pushes ih =>
    by_cases hpushes : pushes = []
    · rw [hpushes, List.forall_mem_singleton]
      rfl
    · rw [commonArea_cons push hpushes, inRect_intersectRect, ih hpushes, List.forall_mem_cons,
        and_comm]

theorem within_commonArea {pushes : List (RoundedRect ℚ)} (harea : HasArea (commonArea pushes)) :
    ∀ push ∈ pushes, Within (commonArea pushes) push.rect := by
  induction pushes with
  | nil => exact fun push h => absurd h List.not_mem_nil
  | cons push pushes ih =>
    by_cases hpushes : pushes = []
    · rw [hpushes, List.forall_mem_singleton]
      exact ⟨⟨le_rfl, le_rfl⟩, le_rfl, le_rfl⟩
    · rw [commonArea_cons push hpushes] at harea ⊢
      obtain ⟨hrest, hpush⟩ := within_intersectRect harea
      have hrest' : HasArea (commonArea pushes) :=
        ⟨harea.1.trans_le hrest.size_le.1, harea.2.trans_le hrest.size_le.2⟩
      exact List.forall_mem_cons.mpr ⟨hpush, fun below h => hrest.trans (ih hrest' below h)⟩

theorem leastRadius_le (area : LayoutRect ℚ) (pushes : List (RoundedRect ℚ)) :
    (∀ push ∈ pushes, leastRadius area pushes ≤ push.radius) ∧
      leastRadius area pushes ≤ min area.width area.height / 2 := by
  induction pushes with
  | nil => exact ⟨fun push h => absurd h List.not_mem_nil, le_rfl⟩
  | cons push pushes ih =>
    refine ⟨List.forall_mem_cons.mpr ⟨min_le_left _ _, fun below h => ?_⟩, ?_⟩
    · exact (min_le_right _ _).trans (ih.1 below h)
    · exact (min_le_right _ _).trans ih.2

theorem leastRadius_nonneg {area : LayoutRect ℚ} (harea : HasArea area)
    {pushes : List (RoundedRect ℚ)} (hradius : ∀ push ∈ pushes, 0 ≤ push.radius) :
    0 ≤ leastRadius area pushes := by
  induction pushes with
  | nil => exact (half_pos (lt_min harea.1 harea.2)).le
  | cons push pushes ih =>
    obtain ⟨hpush, hradius⟩ := List.forall_mem_cons.mp hradius
    exact le_min hpush (ih hradius)

/-- A smaller area. -/
theorem leastRadius_of_within {inner outer : LayoutRect ℚ} (h : Within inner outer)
    (pushes : List (RoundedRect ℚ)) :
    leastRadius inner pushes =
      min (leastRadius outer pushes) (min inner.width inner.height / 2) := by
  induction pushes with
  | nil =>
    refine (min_eq_right (div_le_div_of_nonneg_right ?_ zero_le_two)).symm
    exact min_le_min h.size_le.1 h.size_le.2
  | cons push pushes ih =>
    have hcons (area : LayoutRect ℚ) : leastRadius area (push :: pushes) =
      min push.radius (leastRadius area pushes) := rfl
    rw [hcons, hcons, ih, min_assoc]

/-- **What the stack keeps**: the common area, and the least radius. -/
theorem head?_stackOf {pushes : List (RoundedRect ℚ)} (hne : pushes ≠ [])
    (hradius : ∀ push ∈ pushes, 0 ≤ push.radius) :
    ∃ clip, (stackOf pushes).head? = some clip ∧ clip.rect = commonArea pushes ∧
      (HasArea (commonArea pushes) → clip.radius = leastRadius (commonArea pushes) pushes) := by
  induction pushes with
  | nil => exact absurd rfl hne
  | cons push pushes ih =>
    obtain ⟨hpush, hradius⟩ := List.forall_mem_cons.mp hradius
    by_cases hpushes : pushes = []
    · subst hpushes
      refine ⟨(RoundedRect.mk push.rect push.radius).normalized, rfl, rfl, fun harea => ?_⟩
      exact radius_normalized hpush harea.1 harea.2
    · obtain ⟨clip, hhead, hrect, hleast⟩ := ih hpushes hradius
      refine ⟨(RoundedRect.mk (intersectRect clip.rect push.rect)
        (fmin clip.radius push.radius)).normalized, ?_, ?_, fun harea => ?_⟩
      · have hstack : stackOf (push :: pushes) =
            (stackOf pushes).push push.rect push.radius := rfl
        rw [hstack, ClipStack.push, hhead]
        rfl
      · rw [commonArea_cons push hpushes, ← hrect]
        rfl
      · rw [commonArea_cons push hpushes] at harea ⊢
        obtain ⟨hrest, -⟩ := within_intersectRect harea
        have hrest' : HasArea (commonArea pushes) :=
          ⟨harea.1.trans_le hrest.size_le.1, harea.2.trans_le hrest.size_le.2⟩
        have hclip := hleast hrest'
        have hnonneg : 0 ≤ clip.radius := hclip ▸ leastRadius_nonneg hrest' hradius
        have hcons : leastRadius (intersectRect (commonArea pushes) push.rect) (push :: pushes) =
            min push.radius (leastRadius (intersectRect (commonArea pushes) push.rect) pushes) := rfl
        rw [hrect, fmin_rat, radius_normalized (le_min hnonneg hpush) harea.1 harea.2, cornerRadius,
          hcons, leastRadius_of_within hrest, hclip, min_comm (leastRadius _ _), min_assoc]

/-- What is accepted after some pushes. -/
theorem acceptsAt_stackOf {pushes : List (RoundedRect ℚ)} (hne : pushes ≠ [])
    (hradius : ∀ push ∈ pushes, 0 ≤ push.radius) (dx dy : ℚ) (p : Pixel) :
    acceptsAt dx dy p (stackOf pushes).head? = true ↔
      inRect (commonArea pushes) (p.1 + 1 / 2 + dx) (p.2 + 1 / 2 + dy) = true ∧
        overhang (commonArea pushes).x (commonArea pushes).width
            (leastRadius (commonArea pushes) pushes) (p.1 + 1 / 2 + dx) ^ 2 +
          overhang (commonArea pushes).y (commonArea pushes).height
            (leastRadius (commonArea pushes) pushes) (p.2 + 1 / 2 + dy) ^ 2 ≤
        leastRadius (commonArea pushes) pushes ^ 2 := by
  obtain ⟨clip, hhead, hrect, hleast⟩ := head?_stackOf hne hradius
  have haccepts : acceptsAt dx dy p (stackOf pushes).head? =
      clip.contains (p.1 + 1 / 2 + dx) (p.2 + 1 / 2 + dy) := by
    rw [hhead]
    rfl
  rw [haccepts]
  by_cases harea : HasArea (commonArea pushes)
  · have hclip := hleast harea
    have hnonneg := leastRadius_nonneg harea hradius
    have hcorner : cornerRadius clip = leastRadius (commonArea pushes) pushes := by
      rw [cornerRadius, hclip, hrect]
      exact min_eq_left (leastRadius_le _ _).2
    rw [contains_iff_overhang (hnonneg.trans_eq hclip.symm) (by rw [hrect]; exact harea.1)
      (by rw [hrect]; exact harea.2), hcorner, hrect]
  · refine iff_of_false (fun h => harea ?_) fun h => harea (hasArea_of_inRect h.1)
    exact hrect ▸ hasArea_of_inRect (inRect_of_contains h)

/-! ## The corners -/

/-- How far a side is inside of another one, at the end where it is less. -/
def inset (start size start' size' : ℚ) : ℚ :=
  min (start' - start) (start + size - (start' + size'))

/-- The corners of an area with rounded corners do not stick out of those of a clip. -/
def CornerFits (area : LayoutRect ℚ) (radius : ℚ) (push : RoundedRect ℚ) : Prop :=
  max 0 (cornerRadius push - inset push.rect.x push.rect.width area.x area.width - radius) ^ 2 +
      max 0 (cornerRadius push - inset push.rect.y push.rect.height area.y area.height - radius) ^ 2 ≤
    (cornerRadius push - radius) ^ 2

instance (area : LayoutRect ℚ) (radius : ℚ) (push : RoundedRect ℚ) :
    Decidable (CornerFits area radius push) := by
  unfold CornerFits
  infer_instance

/-- No corner of the common area sticks out of the corners of a clip. -/
def CornersFit (pushes : List (RoundedRect ℚ)) : Prop :=
  HasArea (commonArea pushes) →
    ∀ push ∈ pushes, CornerFits (commonArea pushes) (leastRadius (commonArea pushes) pushes) push

instance (pushes : List (RoundedRect ℚ)) : Decidable (CornersFit pushes) := by
  unfold CornersFit
  infer_instance

theorem overhang_le (start size start' size' r s x : ℚ) :
    overhang start size r x ≤
      max 0 (r - inset start size start' size' - s) + overhang start' size' s x := by
  have hlow : inset start size start' size' ≤ start' - start := min_le_left _ _
  have hhigh : inset start size start' size' ≤ start + size - (start' + size') := min_le_right _ _
  have hgap := le_max_right 0 (r - inset start size start' size' - s)
  have hover : max (start' + s - x) (x - (start' + size' - s)) ≤ overhang start' size' s x :=
    le_max_right _ _
  obtain ⟨hstart, hend⟩ := max_le_iff.mp hover
  refine max_le (add_nonneg (le_max_left _ _) (overhang_nonneg _ _ _ _)) (max_le ?_ ?_)
  · linarith
  · linarith

/-- A point of a side that is next to the end where it is less inside. -/
theorem exists_overhang (start size start' r s : ℚ) {size' t : ℚ} (ht : 0 < t)
    (hsize : t ≤ size' / 2) :
    ∃ x, (start' ≤ x ∧ x < start' + size') ∧ overhang start' size' s x = max 0 (s - t) ∧
      r - inset start size start' size' - t ≤ overhang start size r x := by
  rcases min_choice (start' - start) (start + size - (start' + size')) with hinset | hinset
  · refine ⟨start' + t, ⟨by linarith, by linarith⟩, ?_, ?_⟩
    · have hend : start' + t - (start' + size' - s) ≤ start' + s - (start' + t) := by linarith
      rw [overhang, max_eq_left hend]
      congr 1
      ring
    · rw [inset, hinset, overhang]
      refine le_trans ?_ ((le_max_left _ _).trans (le_max_right _ _))
      linarith
  · refine ⟨start' + size' - t, ⟨by linarith, by linarith⟩, ?_, ?_⟩
    · have hend : start' + s - (start' + size' - t) ≤ start' + size' - t - (start' + size' - s) := by
        linarith
      rw [overhang, max_eq_right hend]
      congr 1
      ring
    · rw [inset, hinset, overhang]
      refine le_trans ?_ ((le_max_right _ _).trans (le_max_right _ _))
      linarith

theorem leastRadius_le_cornerRadius {pushes : List (RoundedRect ℚ)}
    (harea : HasArea (commonArea pushes)) {push : RoundedRect ℚ} (hmem : push ∈ pushes) :
    leastRadius (commonArea pushes) pushes ≤ cornerRadius push := by
  obtain ⟨hpush, hhalf⟩ := leastRadius_le (commonArea pushes) pushes
  obtain ⟨hwidth, hheight⟩ := (within_commonArea harea push hmem).size_le
  refine le_min (hpush push hmem) (hhalf.trans ?_)
  exact div_le_div_of_nonneg_right (min_le_min hwidth hheight) zero_le_two

/-- Under the condition, what is accepted is inside of every clip. -/
theorem CornersFit.inside {pushes : List (RoundedRect ℚ)} (hfit : CornersFit pushes)
    (hradius : ∀ push ∈ pushes, 0 ≤ push.radius) {dx dy : ℚ} {p : Pixel}
    (haccepted : acceptsAt dx dy p (stackOf pushes).head? = true) :
    ∀ push ∈ pushes, acceptsAt dx dy p (some push) = true := by
  intro push hmem
  have hne : pushes ≠ [] := List.ne_nil_of_mem hmem
  obtain ⟨hinside, hdisc⟩ := (acceptsAt_stackOf hne hradius dx dy p).mp haccepted
  have harea := hasArea_of_inRect hinside
  have hpush := (inRect_commonArea hne).mp hinside push hmem
  obtain ⟨hwidth, hheight⟩ := hasArea_of_inRect hpush
  have hleast := leastRadius_le_cornerRadius harea hmem
  have hsum := Discs.add_sq_le (sub_nonneg.mpr hleast) (leastRadius_nonneg harea hradius)
    (hfit harea push hmem) hdisc
  rw [sub_add_cancel] at hsum
  refine (contains_iff_overhang (hradius push hmem) hwidth hheight).mpr ⟨hpush, le_trans ?_ hsum⟩
  exact add_le_add (pow_le_pow_left₀ (overhang_nonneg _ _ _ _) (overhang_le _ _ _ _ _ _ _) 2)
    (pow_le_pow_left₀ (overhang_nonneg _ _ _ _) (overhang_le _ _ _ _ _ _ _) 2)

/-- Clips without a radius accept what is inside of all of them. -/
theorem acceptsAt_of_forall {pushes : List (RoundedRect ℚ)}
    (hzero : ∀ push ∈ pushes, push.radius = 0) {dx dy : ℚ} {p : Pixel}
    (hinside : ∀ push ∈ pushes, acceptsAt dx dy p (some push) = true) :
    acceptsAt dx dy p (stackOf pushes).head? = true := by
  by_cases hne : pushes = []
  · rw [hne]
    rfl
  have hradius (push) (hmem : push ∈ pushes) : 0 ≤ push.radius := (hzero push hmem).ge
  have hrect : inRect (commonArea pushes) (p.1 + 1 / 2 + dx) (p.2 + 1 / 2 + dy) = true :=
    (inRect_commonArea hne).mpr fun push hmem => inRect_of_contains (hinside push hmem)
  have hleast : leastRadius (commonArea pushes) pushes = 0 := by
    obtain ⟨push, hmem⟩ := List.exists_mem_of_ne_nil pushes hne
    refine le_antisymm ?_ (leastRadius_nonneg (hasArea_of_inRect hrect) hradius)
    exact ((leastRadius_le (commonArea pushes) pushes).1 push hmem).trans_eq (hzero push hmem)
  obtain ⟨hx, hy, hx', hy'⟩ := inRect_iff.mp hrect
  refine (acceptsAt_stackOf hne hradius dx dy p).mpr ⟨hrect, ?_⟩
  rw [hleast, overhang_zero hx hx', overhang_zero hy hy']
  norm_num

/-- A corner of the common area that sticks out of that of a clip: how deep next to its sides there
is a point that the area has and the clip does not have. -/
theorem exists_depth {area : LayoutRect ℚ} (harea : HasArea area) {radius : ℚ}
    (hnonneg : 0 ≤ radius) (hhalf : radius ≤ min area.width area.height / 2)
    {push : RoundedRect ℚ} (hwithin : Within area push.rect) (hleast : radius ≤ cornerRadius push)
    (hout : ¬CornerFits area radius push) :
    ∃ s t : ℚ, (0 < s ∧ s ≤ area.width / 2) ∧ (0 < t ∧ t ≤ area.height / 2) ∧
      max 0 (radius - s) ^ 2 + max 0 (radius - t) ^ 2 ≤ radius ^ 2 ∧
      (0 < cornerRadius push - inset push.rect.x push.rect.width area.x area.width - s ∧
        0 < cornerRadius push - inset push.rect.y push.rect.height area.y area.height - t) ∧
      cornerRadius push ^ 2 <
        (cornerRadius push - inset push.rect.x push.rect.width area.x area.width - s) ^ 2 +
          (cornerRadius push - inset push.rect.y push.rect.height area.y area.height - t) ^ 2 := by
  obtain ⟨u, hu⟩ : ∃ u, u =
    cornerRadius push - inset push.rect.x push.rect.width area.x area.width - radius := ⟨_, rfl⟩
  obtain ⟨v, hv⟩ : ∃ v, v =
    cornerRadius push - inset push.rect.y push.rect.height area.y area.height - radius := ⟨_, rfl⟩
  have hfar : (cornerRadius push - radius) ^ 2 < max 0 u ^ 2 + max 0 v ^ 2 := by
    rw [hu, hv]
    exact not_le.mp hout
  -- the clip is at least as large as the area
  have hgap : 0 ≤ cornerRadius push - radius := sub_nonneg.mpr hleast
  obtain ⟨⟨hx, hx'⟩, hy, hy'⟩ := hwithin
  have hinsetx : 0 ≤ inset push.rect.x push.rect.width area.x area.width :=
    le_min (by linarith) (by linarith)
  have hinsety : 0 ≤ inset push.rect.y push.rect.height area.y area.height :=
    le_min (by linarith) (by linarith)
  obtain ⟨hupos, hvpos⟩ := Discs.pos_of_lt_add_sq hgap (by linarith : u ≤ cornerRadius push - radius)
    (by linarith : v ≤ cornerRadius push - radius) hfar
  rw [max_eq_right hupos.le, max_eq_right hvpos.le] at hfar
  have hhalfx : radius ≤ area.width / 2 :=
    hhalf.trans (div_le_div_of_nonneg_right (min_le_left _ _) zero_le_two)
  have hhalfy : radius ≤ area.height / 2 :=
    hhalf.trans (div_le_div_of_nonneg_right (min_le_right _ _) zero_le_two)
  rcases hnonneg.eq_or_lt with hzero | hpos
  · -- a corner that is not rounded
    subst hzero
    rw [sub_zero] at hfar hu hv
    obtain ⟨e, hpos, ⟨hwidth, hheight⟩, ⟨heu, hev⟩, hout⟩ :=
      Discs.exists_beside hupos hvpos (half_pos harea.1) (half_pos harea.2) hfar
    have hflat : max 0 ((0 : ℚ) - e) = 0 := max_eq_left (by linarith)
    rw [← hu, ← hv]
    refine ⟨e, e, ⟨hpos, hwidth.le⟩, ⟨hpos, hheight.le⟩, ?_, ⟨sub_pos.mpr heu, sub_pos.mpr hev⟩,
      hout⟩
    rw [hflat]
    norm_num
  · obtain ⟨x, y, ⟨hxpos, hypos⟩, hdisc, hout⟩ :=
      Discs.exists_outside hupos hvpos hpos hleast hfar
    have hxlt : x < radius := by
      refine lt_of_pow_lt_pow_left₀ 2 hpos.le (lt_of_le_of_lt ?_ hdisc)
      exact le_add_of_nonneg_right (sq_nonneg y)
    have hylt : y < radius := by
      refine lt_of_pow_lt_pow_left₀ 2 hpos.le (lt_of_le_of_lt ?_ hdisc)
      exact le_add_of_nonneg_left (sq_nonneg x)
    refine ⟨radius - x, radius - y, ⟨by linarith, by linarith⟩, ⟨by linarith, by linarith⟩, ?_, ?_,
      ?_⟩
    · rw [sub_sub_cancel, sub_sub_cancel, max_eq_right hxpos.le, max_eq_right hypos.le]
      exact hdisc.le
    · exact ⟨by linarith, by linarith⟩
    · refine hout.trans_eq ?_
      rw [hu, hv]
      ring

/-- **When rounded clips nest**: wherever the pixel grid is, if and only if no corner of the common
area, with the least radius, sticks out of the corners of a clip. -/
theorem nests_iff {pushes : List (RoundedRect ℚ)} (hradius : ∀ push ∈ pushes, 0 ≤ push.radius) :
    (∀ dx dy, NestsAt dx dy pushes) ↔ CornersFit pushes := by
  refine ⟨fun h harea push hmem => ?_, fun hfit dx dy => ⟨?_, ?_⟩⟩
  · by_contra hout
    have hne : pushes ≠ [] := List.ne_nil_of_mem hmem
    obtain ⟨s, t, ⟨hs, hwidth⟩, ⟨ht, hheight⟩, hdisc, ⟨hspos, htpos⟩, hfar⟩ :=
      exists_depth harea (leastRadius_nonneg harea hradius) (leastRadius_le _ _).2
        (within_commonArea harea push hmem) (leastRadius_le_cornerRadius harea hmem) hout
    obtain ⟨x, ⟨hx, hx'⟩, hoverx, hdeepx⟩ := exists_overhang push.rect.x push.rect.width
      (commonArea pushes).x (cornerRadius push) (leastRadius (commonArea pushes) pushes) hs hwidth
    obtain ⟨y, ⟨hy, hy'⟩, hovery, hdeepy⟩ := exists_overhang push.rect.y push.rect.height
      (commonArea pushes).y (cornerRadius push) (leastRadius (commonArea pushes) pushes) ht hheight
    -- the grid, so that the point is the centre of a pixel
    have hplace (z : ℚ) : ((0 : ℤ) : ℚ) + 1 / 2 + (z - 1 / 2) = z := by
      push_cast
      ring
    have haccepted : acceptsAt (x - 1 / 2) (y - 1 / 2) (0, 0) (stackOf pushes).head? = true := by
      rw [acceptsAt_stackOf hne hradius, hplace, hplace, hoverx, hovery]
      exact ⟨inRect_iff.mpr ⟨hx, hy, hx', hy'⟩, hdisc⟩
    have hinside := (h (x - 1 / 2) (y - 1 / 2)).inside (0, 0) haccepted push hmem
    have hcontains : push.contains x y = true := by
      rw [acceptsAt, hplace, hplace] at hinside
      exact hinside
    obtain ⟨hpushw, hpushh⟩ := hasArea_of_inRect (inRect_of_contains hcontains)
    have hpush := (contains_iff_overhang (hradius push hmem) hpushw hpushh).mp hcontains
    have hsum := add_le_add (pow_le_pow_left₀ hspos.le hdeepx 2) (pow_le_pow_left₀ htpos.le hdeepy 2)
    exact (hsum.trans hpush.2).not_gt hfar
  · exact fun p haccepted => hfit.inside hradius haccepted
  · exact fun hzero p hinside => acceptsAt_of_forall hzero hinside

/-- A card with round corners, and a smaller area in it: the corners are far enough apart. -/
theorem nests_iff_card : NestsAt 0 0 [⟨⟨2, 2, 6, 6⟩, 0⟩, ⟨⟨0, 0, 10, 10⟩, 5⟩] :=
  (nests_iff (by decide +kernel)).mpr (by decide +kernel) 0 0

/-- A sharp clip over a round one of the same size: what is kept has sharp corners. -/
theorem not_forall_nests :
    ¬∀ pushes : List (RoundedRect ℚ), (∀ push ∈ pushes, 0 ≤ push.radius) → NestsAt 0 0 pushes := by
  intro h
  have hnests := h [⟨⟨0, 0, 10, 10⟩, 0⟩, ⟨⟨0, 0, 10, 10⟩, 5⟩] (by decide +kernel)
  have hcorner := hnests.inside (0, 0) (by decide +kernel) ⟨⟨0, 0, 10, 10⟩, 5⟩
    (List.mem_cons_of_mem _ List.mem_cons_self)
  revert hcorner
  decide +kernel

end Aetheris.Paint
