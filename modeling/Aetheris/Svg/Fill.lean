import Aetheris.Library.Raster
import Aetheris.Library.Scanline
import Aetheris.Library.StableSort
import Aetheris.Svg.Geometry

/-!
# Filled polygons

`fill_polygon` goes along the middle of each row of pixels, and fills from one crossing to the next
where the winding number is not zero.  Both ends belong to what is filled: a pixel whose centre is a
crossing is blended from both sides.

The signs of the crossings behind a point add up to the winding number around it
(`windingNumber_eq`), so between two crossings the code keeps the winding number of what is there.
How often a pixel is blended is then the number of spans that hold its centre (`count_fillPolygon`),
and with the crossings in order that number is one for each of the winding numbers next to the
centre that is not zero (`count_fillPolygon_eq_around`).  A pixel is blended once at most exactly if
its centre is next to one part of the polygon at most, and that can be said by the edges through the
centre and the winding number alone (`NextToOne`).

The bounds are rounded and cast to `int` before they are cut to the picture.  `CastsFit` says that
these casts are defined; a polygon for which they are not is not taken to be filled as expected.
-/

namespace Aetheris.Svg

open Raster Scanline

/-! ## The code -/

/-- The edges of a closed polygon. -/
def edges (polygon : Polygon) : List (Point × Point) := polygon.zip (polygon.rotate 1)

/-- Where an edge crosses the middle of a row, and whether it goes to greater `y` there. -/
def crossing (scanY : ℚ) (edge : Point × Point) : Option (Crossing ℚ) :=
  let a := edge.1
  let b := edge.2
  if (a.y ≤ scanY ∧ scanY < b.y) ∨ (b.y ≤ scanY ∧ scanY < a.y) then
    let t := (scanY - a.y) / (b.y - a.y)
    some (a.x + t * (b.x - a.x), if a.y < b.y then 1 else -1)
  else none

/-- `crossings`, before they are sorted. -/
def unsorted (polygon : Polygon) (scanY : ℚ) : List (Crossing ℚ) :=
  (edges polygon).filterMap (crossing scanY)

/-- `crossings` -/
def crossings (polygon : Polygon) (scanY : ℚ) : List (Crossing ℚ) :=
  sortOn (fun c => toLex c) (unsorted polygon scanY)

/-- The loop over the crossings of a row: the pixels that it blends. -/
def rowPixels (width : ℤ) : ℤ → List (Crossing ℚ) → List ℤ
  | winding, c :: d :: rest =>
    let winding := winding + c.2
    (if winding = 0 then []
      else
        Int.range (max 0 (castInt ⌈c.1 - 1 / 2⌉)) (min (width - 1) (castInt ⌊d.1 - 1 / 2⌋) + 1)) ++
      rowPixels width winding (d :: rest)
  | _, _ => []

/-- `min_y` -/
def minY (polygon : Polygon) (first : Point) : ℚ :=
  polygon.foldl (fun low q => min low q.y) first.y

/-- `max_y` -/
def maxY (polygon : Polygon) (first : Point) : ℚ :=
  polygon.foldl (fun high q => max high q.y) first.y

/-- `fill_polygon`: its calls of `blend_pixel`. -/
def fillPolygon (width height : ℤ) (polygon : Polygon) : List (ℤ × ℤ) :=
  match polygon with
  | [] => []
  | p :: _ =>
    if polygon.length < 3 then []
    else
      (Int.range (max 0 (castInt ⌊minY polygon p⌋))
        (min (height - 1) (castInt ⌈maxY polygon p⌉) + 1)).flatMap fun y : ℤ =>
          (rowPixels width 0 (crossings polygon (y + 1 / 2))).map fun x => (x, y)

/-! ## What is expected -/

/-- On which side of an edge a point is: positive on one side, negative on the other. -/
def side (edge : Point × Point) (p : Point) : ℚ :=
  (edge.2.x - edge.1.x) * (p.y - edge.1.y) - (p.x - edge.1.x) * (edge.2.y - edge.1.y)

/-- How an edge passes the ray from a point to greater `x`: once in the one direction, once in the
other, or not at all. -/
def passes (p : Point) (edge : Point × Point) : ℤ :=
  if edge.1.y ≤ p.y ∧ p.y < edge.2.y ∧ 0 < side edge p then 1
  else if edge.2.y ≤ p.y ∧ p.y < edge.1.y ∧ side edge p < 0 then -1
  else 0

/-- The winding number of a closed polygon around a point. -/
def windingNumber (polygon : Polygon) (p : Point) : ℤ := ((edges polygon).map (passes p)).sum

/-- A point on an edge of a closed polygon. -/
def OnEdge (polygon : Polygon) (p : Point) : Prop :=
  ∃ edge ∈ edges polygon, ∃ t : ℚ, 0 ≤ t ∧ t ≤ 1 ∧
    p.x = edge.1.x + t * (edge.2.x - edge.1.x) ∧ p.y = edge.1.y + t * (edge.2.y - edge.1.y)

/-- The edges through a point that go to greater `y`. -/
def ups (polygon : Polygon) (p : Point) : ℕ :=
  (edges polygon).countP fun edge => edge.1.y ≤ p.y ∧ p.y < edge.2.y ∧ side edge p = 0

/-- The edges through a point that go to smaller `y`. -/
def downs (polygon : Polygon) (p : Point) : ℕ :=
  (edges polygon).countP fun edge => edge.2.y ≤ p.y ∧ p.y < edge.1.y ∧ side edge p = 0

/-- A point that is next to one part of the polygon at most: no edge goes through it; or one does,
and the winding number is zero on one of its sides; or two do, in the two directions, and the winding
number is zero on both sides. -/
def NextToOne (polygon : Polygon) (p : Point) : Prop :=
  ups polygon p + downs polygon p = 0 ∨
    ups polygon p + downs polygon p = 1 ∧
      (windingNumber polygon p = 0 ∨
        windingNumber polygon p + ups polygon p - downs polygon p = 0) ∨
    ups polygon p = 1 ∧ downs polygon p = 1 ∧ windingNumber polygon p = 0

/-- The centre of a pixel. -/
def centre (x y : ℤ) : Point := ⟨x + 1 / 2, y + 1 / 2⟩

/-- The casts for a polygon are defined: the least and the greatest `y`, rounded outwards, are `int`s,
and so are, in each row of the picture, the ends of each part inside the polygon, less a half and
rounded inwards. -/
structure CastsFit (height : ℤ) (polygon : Polygon) : Prop where
  top : ∀ p ∈ polygon.head?, FitsInt ⌊minY polygon p⌋
  bottom : ∀ p ∈ polygon.head?, FitsInt ⌈maxY polygon p⌉
  rows : ∀ y : ℤ, 0 ≤ y → y < height → ∀ span ∈ spans 0 (crossings polygon (y + 1 / 2)),
    FitsInt ⌈span.1 - 1 / 2⌉ ∧ FitsInt ⌊span.2 - 1 / 2⌋

/-- **What is expected of `fill_polygon`.**  The casts are defined; only pixels of the picture are
blended, none of them more than once, and those whose centres are not on an edge exactly where the
winding number is not zero. -/
structure FillsRight (width height : ℤ) (polygon : Polygon) : Prop where
  defined : 3 ≤ polygon.length → CastsFit height polygon
  inside : ∀ p ∈ fillPolygon width height polygon,
    (0 ≤ p.1 ∧ p.1 < width) ∧ 0 ≤ p.2 ∧ p.2 < height
  once : ∀ p, (fillPolygon width height polygon).count p ≤ 1
  filled : ∀ x y, (0 ≤ x ∧ x < width) ∧ 0 ≤ y ∧ y < height → ¬OnEdge polygon (centre x y) →
    ((x, y) ∈ fillPolygon width height polygon ↔ windingNumber polygon (centre x y) ≠ 0)

/-! ## The crossings of a row -/

theorem unsorted_perm (polygon : Polygon) (scanY : ℚ) :
    (crossings polygon scanY).Perm (unsorted polygon scanY) := sortOn_perm _ _

theorem sorted_crossings (polygon : Polygon) (scanY : ℚ) :
    (crossings polygon scanY).Pairwise fun c d => c.1 < d.1 ∨ c.1 = d.1 ∧ c.2 ≤ d.2 := by
  have htrue : (unsorted polygon scanY).Pairwise fun _ _ => True :=
    List.pairwise_of_forall fun _ _ => trivial
  refine (pairwise_sortOn (fun c : Crossing ℚ => toLex c) htrue).imp fun {c d} h => ?_
  exact Prod.Lex.le_iff.mp h.key_le

/-- Where an edge crosses a row. -/
def crossingX (y : ℚ) (edge : Point × Point) : ℚ :=
  edge.1.x + (y - edge.1.y) / (edge.2.y - edge.1.y) * (edge.2.x - edge.1.x)

theorem crossing_of_up {y : ℚ} {edge : Point × Point} (h : edge.1.y ≤ y ∧ y < edge.2.y) :
    crossing y edge = some (crossingX y edge, 1) := by
  rw [crossing, if_pos (Or.inl h), if_pos (h.1.trans_lt h.2)]
  rfl

theorem crossing_of_down {y : ℚ} {edge : Point × Point} (h : edge.2.y ≤ y ∧ y < edge.1.y) :
    crossing y edge = some (crossingX y edge, -1) := by
  rw [crossing, if_pos (Or.inr h), if_neg (h.1.trans_lt h.2).not_gt]
  rfl

theorem crossing_of_not {y : ℚ} {edge : Point × Point} (hup : ¬(edge.1.y ≤ y ∧ y < edge.2.y))
    (hdown : ¬(edge.2.y ≤ y ∧ y < edge.1.y)) : crossing y edge = none :=
  if_neg (not_or_intro hup hdown)

theorem crossing_eq_some {y : ℚ} {edge : Point × Point} {c : Crossing ℚ}
    (h : crossing y edge = some c) :
    (edge.1.y ≤ y ∧ y < edge.2.y ∧ c.2 = 1 ∨ edge.2.y ≤ y ∧ y < edge.1.y ∧ c.2 = -1) ∧
      c.1 = crossingX y edge := by
  by_cases hup : edge.1.y ≤ y ∧ y < edge.2.y
  · rw [crossing_of_up hup] at h
    rw [← Option.some.inj h]
    exact ⟨Or.inl ⟨hup.1, hup.2, rfl⟩, rfl⟩
  · by_cases hdown : edge.2.y ≤ y ∧ y < edge.1.y
    · rw [crossing_of_down hdown] at h
      rw [← Option.some.inj h]
      exact ⟨Or.inr ⟨hdown.1, hdown.2, rfl⟩, rfl⟩
    · rw [crossing_of_not hup hdown] at h
      cases h

theorem sign_of_mem_unsorted {polygon : Polygon} {scanY : ℚ} {c : Crossing ℚ}
    (h : c ∈ unsorted polygon scanY) : c.2 = -1 ∨ c.2 = 1 := by
  obtain ⟨edge, -, hc⟩ := List.mem_filterMap.mp h
  rcases (crossing_eq_some hc).1 with ⟨-, -, hsign⟩ | ⟨-, -, hsign⟩
  · exact Or.inr hsign
  · exact Or.inl hsign

/-- 1 below the middle of the row, 0 above it. -/
def below (scanY : ℚ) (p : Point) : ℤ := if scanY < p.y then 1 else 0

/-- An edge goes over to the other side where it crosses. -/
theorem total_crossing (scanY : ℚ) (edge : Point × Point) :
    total (crossing scanY edge).toList = below scanY edge.2 - below scanY edge.1 := by
  rw [below, below]
  by_cases ha : scanY < edge.1.y
  · by_cases hb : scanY < edge.2.y
    · rw [crossing_of_not (fun h => h.1.not_gt ha) fun h => h.1.not_gt hb, if_pos hb, if_pos ha]
      rfl
    · rw [crossing_of_down ⟨not_lt.mp hb, ha⟩, if_neg hb, if_pos ha]
      rfl
  · by_cases hb : scanY < edge.2.y
    · rw [crossing_of_up ⟨not_lt.mp ha, hb⟩, if_pos hb, if_neg ha]
      rfl
    · rw [crossing_of_not (fun h => hb h.2) fun h => ha h.2, if_neg hb, if_neg ha]
      rfl

theorem total_filterMap {ι : Type*} (f : ι → Option (Crossing ℚ)) (l : List ι) :
    total (l.filterMap f) = (l.map fun i => total (f i).toList).sum := by
  induction l with
  | nil => rfl
  | cons i l ih =>
    rw [List.map_cons, List.sum_cons, ← ih]
    cases hi : f i with
    | none =>
      rw [List.filterMap_cons_none hi]
      exact (zero_add _).symm
    | some c =>
      rw [List.filterMap_cons_some hi, total_cons]
      simp [total]

theorem sum_zip (f : Point → ℤ) : ∀ l l' : List Point, l.length = l'.length →
    ((l.zip l').map fun edge => f edge.2 - f edge.1).sum = (l'.map f).sum - (l.map f).sum
  | [], [], _ => rfl
  | p :: l, q :: l', h => by
    have ih := sum_zip f l l' (Nat.succ.inj h)
    simp only [List.zip_cons_cons, List.map_cons, List.sum_cons, ih]
    ring

/-- What changes along the edges of a closed polygon changes back. -/
theorem sum_edges (f : Point → ℤ) (polygon : Polygon) :
    ((edges polygon).map fun edge => f edge.2 - f edge.1).sum = 0 := by
  rw [edges, sum_zip f _ _ (List.length_rotate _ _).symm,
    ((List.rotate_perm polygon 1).map f).sum_eq, sub_self]

/-- **The signs of a closed polygon add up to zero.** -/
theorem total_unsorted (polygon : Polygon) (scanY : ℚ) : total (unsorted polygon scanY) = 0 := by
  rw [unsorted, total_filterMap]
  simp only [total_crossing]
  exact sum_edges (below scanY) polygon

/-! ## The winding number -/

theorem side_eq (p : Point) {edge : Point × Point} (h : edge.2.y - edge.1.y ≠ 0) :
    side edge p = (crossingX p.y edge - p.x) * (edge.2.y - edge.1.y) := by
  rw [side, crossingX]
  field_simp
  ring

/-- An edge passes the ray where it crosses the row behind the point. -/
theorem passes_eq (p : Point) (edge : Point × Point) :
    passes p edge = total ((crossing p.y edge).toList.filter fun c => p.x < c.1) := by
  rw [passes]
  by_cases hup : edge.1.y ≤ p.y ∧ p.y < edge.2.y
  · have hpos : 0 < edge.2.y - edge.1.y := sub_pos.mpr (hup.1.trans_lt hup.2)
    have hside : 0 < side edge p ↔ p.x < crossingX p.y edge := by
      rw [side_eq p hpos.ne', mul_pos_iff_of_pos_right hpos, sub_pos]
    have hdown : ¬(edge.2.y ≤ p.y ∧ p.y < edge.1.y ∧ side edge p < 0) := fun h =>
      (sub_pos.mp hpos).not_gt (h.1.trans_lt h.2.1)
    rw [crossing_of_up hup, if_neg hdown]
    by_cases hlt : p.x < crossingX p.y edge
    · rw [if_pos ⟨hup.1, hup.2, hside.mpr hlt⟩, Option.toList_some,
        List.filter_cons_of_pos (by simpa using hlt)]
      rfl
    · rw [if_neg fun h => hlt (hside.mp h.2.2), Option.toList_some,
        List.filter_cons_of_neg (by simpa using hlt)]
      rfl
  · rw [if_neg fun h => hup ⟨h.1, h.2.1⟩]
    by_cases hdown : edge.2.y ≤ p.y ∧ p.y < edge.1.y
    · have hneg : edge.2.y - edge.1.y < 0 := sub_neg.mpr (hdown.1.trans_lt hdown.2)
      have hside : side edge p < 0 ↔ p.x < crossingX p.y edge := by
        rw [side_eq p hneg.ne]
        exact ⟨fun h => sub_pos.mp ((pos_iff_neg_of_mul_neg h).mpr hneg),
          fun h => mul_neg_of_pos_of_neg (sub_pos.mpr h) hneg⟩
      rw [crossing_of_down hdown]
      by_cases hlt : p.x < crossingX p.y edge
      · rw [if_pos ⟨hdown.1, hdown.2, hside.mpr hlt⟩, Option.toList_some,
          List.filter_cons_of_pos (by simpa using hlt)]
        rfl
      · rw [if_neg fun h => hlt (hside.mp h.2.2), Option.toList_some,
          List.filter_cons_of_neg (by simpa using hlt)]
        rfl
    · rw [if_neg fun h => hdown ⟨h.1, h.2.1⟩, crossing_of_not hup hdown]
      rfl

/-- **The winding number is the sum of the signs behind the point.** -/
theorem windingNumber_eq (polygon : Polygon) (p : Point) :
    windingNumber polygon p = behind p.x (unsorted polygon p.y) := by
  rw [windingNumber, behind, unsorted]
  induction edges polygon with
  | nil => rfl
  | cons edge rest ih =>
    rw [List.map_cons, List.sum_cons, ih, passes_eq]
    cases hedge : crossing p.y edge with
    | none =>
      rw [List.filterMap_cons_none hedge]
      exact zero_add _
    | some c =>
      rw [List.filterMap_cons_some hedge, Option.toList_some, ← total_append,
        ← List.filter_append, List.singleton_append]

/-- A crossing is a point on an edge. -/
theorem onEdge_of_mem_unsorted {polygon : Polygon} {p : Point} {c : Crossing ℚ}
    (h : c ∈ unsorted polygon p.y) (hx : c.1 = p.x) : OnEdge polygon p := by
  obtain ⟨edge, hedge, hc⟩ := List.mem_filterMap.mp h
  obtain ⟨hcross, hc1⟩ := crossing_eq_some hc
  have hne : edge.2.y - edge.1.y ≠ 0 := by
    rcases hcross with ⟨hle, hlt, -⟩ | ⟨hle, hlt, -⟩
    · exact (sub_pos.mpr (hle.trans_lt hlt)).ne'
    · exact (sub_neg.mpr (hle.trans_lt hlt)).ne
  refine ⟨edge, hedge, (p.y - edge.1.y) / (edge.2.y - edge.1.y), ?_, ?_, hx.symm.trans hc1, ?_⟩
  · rcases hcross with ⟨hle, hlt, -⟩ | ⟨hle, hlt, -⟩
    · exact div_nonneg (sub_nonneg.mpr hle) (sub_nonneg.mpr (hle.trans hlt.le))
    · exact div_nonneg_of_nonpos (sub_nonpos.mpr hlt.le) (sub_nonpos.mpr (hle.trans hlt.le))
  · rcases hcross with ⟨hle, hlt, -⟩ | ⟨hle, hlt, -⟩
    · exact div_le_one_of_le₀ (sub_le_sub_right hlt.le _) (sub_nonneg.mpr (hle.trans hlt.le))
    · rw [div_le_one_of_neg (sub_neg.mpr (hle.trans_lt hlt))]
      exact sub_le_sub_right hle _
  · rw [div_mul_cancel₀ _ hne]
    ring

theorem side_eq_zero_iff (p : Point) {edge : Point × Point} (h : edge.1.y ≠ edge.2.y) :
    side edge p = 0 ↔ crossingX p.y edge = p.x := by
  have hne : edge.2.y - edge.1.y ≠ 0 := sub_ne_zero.mpr h.symm
  rw [side_eq p hne, mul_eq_zero_iff_right hne, sub_eq_zero]

theorem ups_eq (polygon : Polygon) (p : Point) :
    ups polygon p = signsHere p.x 1 (unsorted polygon p.y) := by
  rw [ups, signsHere, here, List.countP_filter, unsorted, List.countP_filterMap]
  refine List.countP_congr fun edge _ => ?_
  by_cases hup : edge.1.y ≤ p.y ∧ p.y < edge.2.y
  · rw [crossing_of_up hup]
    simp [hup, side_eq_zero_iff p (hup.1.trans_lt hup.2).ne]
  · by_cases hdown : edge.2.y ≤ p.y ∧ p.y < edge.1.y
    · rw [crossing_of_down hdown]
      simp [hdown.2.not_ge]
    · rw [crossing_of_not hup hdown]
      simp only [Option.map_none, Option.getD_none, decide_eq_true_eq, Bool.false_eq_true, iff_false]
      exact fun h => hup ⟨h.1, h.2.1⟩

theorem downs_eq (polygon : Polygon) (p : Point) :
    downs polygon p = signsHere p.x (-1) (unsorted polygon p.y) := by
  rw [downs, signsHere, here, List.countP_filter, unsorted, List.countP_filterMap]
  refine List.countP_congr fun edge _ => ?_
  by_cases hup : edge.1.y ≤ p.y ∧ p.y < edge.2.y
  · rw [crossing_of_up hup]
    simp [hup.2.not_ge]
  · by_cases hdown : edge.2.y ≤ p.y ∧ p.y < edge.1.y
    · rw [crossing_of_down hdown]
      simp [hdown, side_eq_zero_iff p (hdown.1.trans_lt hdown.2).ne']
    · rw [crossing_of_not hup hdown]
      simp only [Option.map_none, Option.getD_none, decide_eq_true_eq, Bool.false_eq_true, iff_false]
      exact fun h => hdown ⟨h.1, h.2.1⟩

/-- The winding number on the other side of the crossings at a point. -/
theorem before_eq (polygon : Polygon) (p : Point) :
    before p.x (unsorted polygon p.y) =
      -(windingNumber polygon p + ups polygon p - downs polygon p) := by
  have hsigns : ∀ c ∈ here p.x (unsorted polygon p.y), c.2 = -1 ∨ c.2 = 1 := fun c hc =>
    sign_of_mem_unsorted (List.mem_filter.mp hc).1
  have hsum := total_eq p.x (unsorted polygon p.y)
  rw [total_unsorted, total_eq_countP hsigns] at hsum
  rw [windingNumber_eq, ups_eq, downs_eq, signsHere, signsHere]
  omega

theorem nextToOne_iff (polygon : Polygon) (p : Point) :
    NextToOne polygon p ↔ Single p.x (unsorted polygon p.y) := by
  rw [NextToOne, Single, before_eq, ← ups_eq, ← downs_eq]
  omega

/-! ## The pixels -/

theorem count_range (low high x : ℤ) :
    (Int.range low high).count x = if low ≤ x ∧ x < high then 1 else 0 := by
  rw [(nodup_range low high).count]
  simp only [Int.mem_range_iff]

/-- A pixel of a row is blended once for each of the spans that hold its centre. -/
theorem count_rowPixels {width x : ℤ} (hx : 0 ≤ x ∧ x < width) :
    ∀ (winding : ℤ) (cs : List (Crossing ℚ)),
      (∀ span ∈ spans winding cs, FitsInt ⌈span.1 - 1 / 2⌉ ∧ FitsInt ⌊span.2 - 1 / 2⌋) →
        (rowPixels width winding cs).count x = covering ((x : ℚ) + 1 / 2) (spans winding cs)
  | _, [], _ => rfl
  | _, [_], _ => rfl
  | winding, c :: d :: rest, hfits => by
    rw [spans, List.forall_mem_append] at hfits
    rw [rowPixels, covering_spans_cons, List.count_append,
      ← count_rowPixels hx (winding + c.2) (d :: rest) hfits.2]
    congr 1
    by_cases hw : winding + c.2 = 0
    · rw [if_pos hw, nonzero, if_pos hw, ite_self]
      rfl
    · obtain ⟨hfirst, hlast⟩ := hfits.1 (c.1, d.1) (by rw [if_neg hw]; exact List.mem_singleton_self _)
      have hlow : max 0 (castInt ⌈c.1 - 1 / 2⌉) ≤ x ↔ c.1 ≤ (x : ℚ) + 1 / 2 := by
        rw [castInt_intCast hfirst, max_le_iff, and_iff_right hx.1, Int.ceil_le, sub_le_iff_le_add]
      have hhigh : x < min (width - 1) (castInt ⌊d.1 - 1 / 2⌋) + 1 ↔ (x : ℚ) + 1 / 2 ≤ d.1 := by
        rw [castInt_intCast hlast, Int.lt_add_one_iff, le_min_iff,
          and_iff_right (by omega : x ≤ width - 1), Int.le_floor, le_sub_iff_add_le]
      rw [if_neg hw, nonzero, if_neg hw, count_range]
      simp only [hlow, hhigh]

theorem mem_rowPixels {width x : ℤ} : ∀ (winding : ℤ) (cs : List (Crossing ℚ)),
    x ∈ rowPixels width winding cs → 0 ≤ x ∧ x < width
  | _, [], h => absurd h List.not_mem_nil
  | _, [_], h => absurd h List.not_mem_nil
  | winding, c :: d :: rest, h => by
    rw [rowPixels] at h
    rcases List.mem_append.mp h with h | h
    · split at h
      · exact absurd h List.not_mem_nil
      · have hmem := Int.mem_range_iff.mp h
        omega
    · exact mem_rowPixels (winding + c.2) (d :: rest) h

theorem mem_of_mem_edges {polygon : Polygon} {edge : Point × Point} (h : edge ∈ edges polygon) :
    edge.1 ∈ polygon ∧ edge.2 ∈ polygon := by
  obtain ⟨h1, h2⟩ := List.of_mem_zip h
  exact ⟨h1, List.mem_rotate.mp h2⟩

theorem foldl_min_le : ∀ (l : List Point) (v : ℚ),
    l.foldl (fun low q => min low q.y) v ≤ v ∧
      ∀ q ∈ l, l.foldl (fun low q => min low q.y) v ≤ q.y
  | [], v => ⟨le_refl v, fun q h => absurd h List.not_mem_nil⟩
  | p :: l, v => by
    obtain ⟨hv, hl⟩ := foldl_min_le l (min v p.y)
    exact ⟨hv.trans (min_le_left _ _), List.forall_mem_cons.mpr ⟨hv.trans (min_le_right _ _), hl⟩⟩

theorem le_foldl_max : ∀ (l : List Point) (v : ℚ),
    v ≤ l.foldl (fun high q => max high q.y) v ∧
      ∀ q ∈ l, q.y ≤ l.foldl (fun high q => max high q.y) v
  | [], v => ⟨le_refl v, fun q h => absurd h List.not_mem_nil⟩
  | p :: l, v => by
    obtain ⟨hv, hl⟩ := le_foldl_max l (max v p.y)
    exact ⟨(le_max_left _ _).trans hv, List.forall_mem_cons.mpr ⟨(le_max_right _ _).trans hv, hl⟩⟩

/-- The rows that have crossings are gone through. -/
theorem mem_rows {polygon : Polygon} (p : Point) {y : ℤ} (h : unsorted polygon (y + 1 / 2) ≠ []) :
    ⌊minY polygon p⌋ ≤ y ∧ y ≤ ⌈maxY polygon p⌉ := by
  obtain ⟨c, hc⟩ := List.exists_mem_of_ne_nil _ h
  obtain ⟨edge, hedge, hcross⟩ := List.mem_filterMap.mp hc
  obtain ⟨hfirst, hsecond⟩ := mem_of_mem_edges hedge
  have hlow : minY polygon p ≤ y + 1 / 2 := by
    rcases (crossing_eq_some hcross).1 with ⟨hle, -, -⟩ | ⟨hle, -, -⟩
    · exact ((foldl_min_le polygon p.y).2 _ hfirst).trans hle
    · exact ((foldl_min_le polygon p.y).2 _ hsecond).trans hle
  have hhigh : (y : ℚ) + 1 / 2 < maxY polygon p := by
    rcases (crossing_eq_some hcross).1 with ⟨-, hlt, -⟩ | ⟨-, hlt, -⟩
    · exact hlt.trans_le ((le_foldl_max polygon p.y).2 _ hsecond)
    · exact hlt.trans_le ((le_foldl_max polygon p.y).2 _ hfirst)
  constructor
  · refine Int.lt_add_one_iff.mp (Int.floor_lt.mpr ?_)
    push_cast
    linarith
  · refine Int.cast_le.mp (le_trans ?_ (Int.le_ceil _) : (y : ℚ) ≤ _)
    linarith

/-- **How often a pixel is blended.** -/
theorem count_fillPolygon {width height : ℤ} {polygon : Polygon} (hlength : 3 ≤ polygon.length)
    (hfits : CastsFit height polygon) {x y : ℤ} (hx : 0 ≤ x ∧ x < width) (hy : 0 ≤ y ∧ y < height) :
    (fillPolygon width height polygon).count (x, y) =
      covering ((x : ℚ) + 1 / 2) (spans 0 (crossings polygon ((y : ℚ) + 1 / 2))) := by
  rw [← count_rowPixels hx _ _ (hfits.rows y hy.1 hy.2)]
  match polygon with
  | [] => exact absurd hlength (by decide)
  | p :: rest =>
    rw [fillPolygon, if_neg (not_lt.mpr hlength), castInt_intCast (hfits.top p rfl),
      castInt_intCast (hfits.bottom p rfl), count_rows _ _ _ (nodup_range _ _)]
    split
    · rfl
    · rename_i hrow
      have hnone : unsorted (p :: rest) ((y : ℚ) + 1 / 2) = [] := by
        by_contra hne
        have hmem := mem_rows p hne
        refine hrow (Int.mem_range_iff.mpr ?_)
        omega
      have hcrossings : crossings (p :: rest) ((y : ℚ) + 1 / 2) = [] :=
        List.perm_nil.mp (hnone ▸ unsorted_perm _ _)
      rw [hcrossings]
      rfl

theorem mem_fillPolygon {width height : ℤ} {polygon : Polygon} {p : ℤ × ℤ}
    (h : p ∈ fillPolygon width height polygon) :
    (0 ≤ p.1 ∧ p.1 < width) ∧ 0 ≤ p.2 ∧ p.2 < height := by
  match polygon with
  | [] => exact absurd h List.not_mem_nil
  | q :: rest =>
    rw [fillPolygon] at h
    split at h
    · exact absurd h List.not_mem_nil
    · obtain ⟨y, hy, hrow⟩ := List.mem_flatMap.mp h
      obtain ⟨x, hx, rfl⟩ := List.mem_map.mp hrow
      have hy' := Int.mem_range_iff.mp hy
      exact ⟨mem_rowPixels _ _ hx, by omega⟩

/-- A pixel is blended once for each of the sums at its centre that is not zero. -/
theorem count_fillPolygon_eq_around {width height : ℤ} {polygon : Polygon}
    (hlength : 3 ≤ polygon.length) (hfits : CastsFit height polygon) {x y : ℤ}
    (hx : 0 ≤ x ∧ x < width) (hy : 0 ≤ y ∧ y < height) :
    (fillPolygon width height polygon).count (x, y) =
      around ((x : ℚ) + 1 / 2) 0 (crossings polygon ((y : ℚ) + 1 / 2)) := by
  have hsorted : (crossings polygon ((y : ℚ) + 1 / 2)).Pairwise fun c d => c.1 ≤ d.1 :=
    (sorted_crossings polygon _).imp fun h => h.elim le_of_lt fun h => h.1.le
  have htotal : 0 + total (crossings polygon ((y : ℚ) + 1 / 2)) = 0 := by
    rw [zero_add, total_perm (unsorted_perm polygon _), total_unsorted]
  have hcovering := covering_spans ((x : ℚ) + 1 / 2) 0 (crossings polygon ((y : ℚ) + 1 / 2))
    hsorted htotal
  rw [nonzero, if_pos rfl, ite_self, add_zero] at hcovering
  rw [count_fillPolygon hlength hfits hx hy, hcovering]

theorem count_le_one_iff {width height : ℤ} {polygon : Polygon} (hlength : 3 ≤ polygon.length)
    (hfits : CastsFit height polygon) {x y : ℤ} (hx : 0 ≤ x ∧ x < width) (hy : 0 ≤ y ∧ y < height) :
    (fillPolygon width height polygon).count (x, y) ≤ 1 ↔
      Single ((x : ℚ) + 1 / 2) (unsorted polygon ((y : ℚ) + 1 / 2)) := by
  have hsigns : ∀ c ∈ crossings polygon ((y : ℚ) + 1 / 2), c.2 = -1 ∨ c.2 = 1 := fun c hc =>
    sign_of_mem_unsorted ((unsorted_perm polygon _).mem_iff.mp hc)
  rw [count_fillPolygon_eq_around hlength hfits hx hy,
    around_le_one_iff (sorted_crossings polygon _) hsigns, Single.perm (unsorted_perm polygon _)]

/-- No crossing is at a place that is not on an edge. -/
theorem here_eq_nil {polygon : Polygon} {p : Point} (h : ¬OnEdge polygon p) :
    here p.x (unsorted polygon p.y) = [] :=
  List.filter_eq_nil_iff.mpr fun _ hc hx => h (onEdge_of_mem_unsorted hc (of_decide_eq_true hx))

/-- A pixel whose centre is not on an edge is blended where the winding number is not zero. -/
theorem mem_fillPolygon_iff {width height : ℤ} {polygon : Polygon} (hlength : 3 ≤ polygon.length)
    (hfits : CastsFit height polygon) {x y : ℤ} (hx : 0 ≤ x ∧ x < width) (hy : 0 ≤ y ∧ y < height)
    (hedge : ¬OnEdge polygon (centre x y)) :
    (x, y) ∈ fillPolygon width height polygon ↔ windingNumber polygon (centre x y) ≠ 0 := by
  have hnil : here ((x : ℚ) + 1 / 2) (unsorted polygon ((y : ℚ) + 1 / 2)) = [] := here_eq_nil hedge
  have hhere : here ((x : ℚ) + 1 / 2) (crossings polygon ((y : ℚ) + 1 / 2)) = [] :=
    List.perm_nil.mp (hnil ▸ (unsorted_perm polygon _).filter _)
  have hsorted : (crossings polygon ((y : ℚ) + 1 / 2)).Pairwise fun c d => c.1 ≤ d.1 :=
    (sorted_crossings polygon _).imp fun h => h.elim le_of_lt fun h => h.1.le
  have hsum := total_eq ((x : ℚ) + 1 / 2) (unsorted polygon ((y : ℚ) + 1 / 2))
  rw [total_unsorted, hnil, total_nil, add_zero] at hsum
  have hwinding : windingNumber polygon (centre x y) =
      behind ((x : ℚ) + 1 / 2) (unsorted polygon ((y : ℚ) + 1 / 2)) := windingNumber_eq polygon _
  rw [← List.count_pos_iff, count_fillPolygon_eq_around hlength hfits hx hy, around_eq _ _ _ hsorted,
    hhere, zero_add, before_perm (unsorted_perm polygon _), around, nonzero, hwinding]
  split
  · omega
  · omega

/-! ## Polygons with fewer than three points -/

theorem crossingX_swap {y : ℚ} {a b : Point} (h : a.y ≠ b.y) :
    crossingX y (b, a) = crossingX y (a, b) := by
  have hab : b.y - a.y ≠ 0 := sub_ne_zero.mpr h.symm
  have hba : a.y - b.y ≠ 0 := sub_ne_zero.mpr h
  simp only [crossingX]
  field_simp
  ring

theorem crossing_self (y : ℚ) (p : Point) : crossing y (p, p) = none :=
  crossing_of_not (fun h => h.2.not_ge h.1) fun h => h.2.not_ge h.1

/-- The crossings of a polygon with fewer than three points take each other back. -/
theorem unsorted_of_short {polygon : Polygon} (h : polygon.length < 3) (y : ℚ) :
    unsorted polygon y = [] ∨ ∃ x, unsorted polygon y = [(x, 1), (x, -1)] ∨
      unsorted polygon y = [(x, -1), (x, 1)] := by
  match polygon with
  | [] => exact Or.inl rfl
  | [p] =>
    left
    have hedges : edges [p] = [(p, p)] := by simp [edges]
    rw [unsorted, hedges, List.filterMap_cons_none (crossing_self y p), List.filterMap_nil]
  | [p, q] =>
    have hedges : edges [p, q] = [(p, q), (q, p)] := by simp [edges]
    rw [unsorted, hedges]
    by_cases hup : p.y ≤ y ∧ y < q.y
    · right
      refine ⟨crossingX y (p, q), Or.inl ?_⟩
      rw [List.filterMap_cons_some (crossing_of_up hup),
        List.filterMap_cons_some (crossing_of_down hup),
        crossingX_swap (hup.1.trans_lt hup.2).ne, List.filterMap_nil]
    · by_cases hdown : q.y ≤ y ∧ y < p.y
      · right
        refine ⟨crossingX y (p, q), Or.inr ?_⟩
        rw [List.filterMap_cons_some (crossing_of_down hdown),
          List.filterMap_cons_some (crossing_of_up hdown),
          crossingX_swap (hdown.1.trans_lt hdown.2).ne', List.filterMap_nil]
      · left
        rw [List.filterMap_cons_none (crossing_of_not hup hdown),
          List.filterMap_cons_none (crossing_of_not hdown hup), List.filterMap_nil]
  | _ :: _ :: _ :: _ => exact absurd h (by simp)

theorem single_of_short {polygon : Polygon} (h : polygon.length < 3) (x y : ℚ) :
    Single x (unsorted polygon y) := by
  rcases unsorted_of_short h y with h | ⟨x', h⟩
  · rw [h]
    exact Or.inl rfl
  · rcases h with h | h <;> rw [h] <;>
      by_cases hx : x' = x <;> simp [Single, signsHere, here, before, hx]

theorem windingNumber_of_short {polygon : Polygon} (h : polygon.length < 3) (p : Point) :
    windingNumber polygon p = 0 := by
  rw [windingNumber_eq]
  rcases unsorted_of_short h p.y with h | ⟨x, h | h⟩
  · rw [h]
    rfl
  · rw [h]
    by_cases hx : p.x < x <;> simp [behind, hx]
  · rw [h]
    by_cases hx : p.x < x <;> simp [behind, hx]

theorem fillPolygon_of_short {polygon : Polygon} (h : polygon.length < 3) (width height : ℤ) :
    fillPolygon width height polygon = [] := by
  match polygon with
  | [] => rfl
  | _ :: _ => exact if_pos h

/-! ## When the polygon is filled as expected -/

/-- **A polygon is filled as expected exactly when the casts are defined and the centre of each pixel
is next to one part of it at most.** -/
theorem fillsRight_iff (width height : ℤ) (polygon : Polygon) :
    FillsRight width height polygon ↔
      (3 ≤ polygon.length → CastsFit height polygon) ∧
        ∀ x y : ℤ, (0 ≤ x ∧ x < width) ∧ 0 ≤ y ∧ y < height →
          NextToOne polygon (centre x y) := by
  simp only [nextToOne_iff]
  rcases lt_or_ge polygon.length 3 with hshort | hlength
  · refine iff_of_true ⟨fun h => absurd h (not_le.mpr hshort), ?_, ?_, ?_⟩
      ⟨fun h => absurd h (not_le.mpr hshort), fun x y _ => single_of_short hshort _ _⟩
    · rw [fillPolygon_of_short hshort]
      exact fun p hp => absurd hp List.not_mem_nil
    · rw [fillPolygon_of_short hshort]
      exact fun p => Nat.zero_le 1
    · intro x y _ _
      rw [fillPolygon_of_short hshort, windingNumber_of_short hshort]
      exact iff_of_false List.not_mem_nil fun h => h rfl
  · constructor
    · intro h
      exact ⟨h.defined, fun x y hin =>
        (count_le_one_iff hlength (h.defined hlength) hin.1 hin.2).mp (h.once (x, y))⟩
    · rintro ⟨hdefined, h⟩
      have hfits := hdefined hlength
      refine ⟨hdefined, fun p hp => mem_fillPolygon hp, fun p => ?_, fun x y hin hedge => ?_⟩
      · by_cases hp : p ∈ fillPolygon width height polygon
        · have hin := mem_fillPolygon hp
          exact (count_le_one_iff hlength hfits hin.1 hin.2).mpr (h p.1 p.2 hin)
        · rw [List.count_eq_zero_of_not_mem hp]
          exact Nat.zero_le 1
      · exact mem_fillPolygon_iff hlength hfits hin.1 hin.2 hedge

/-- A square with a slit along its middle. -/
def slitSquare : Polygon :=
  [⟨0, 0⟩, ⟨1 / 2, 0⟩, ⟨1 / 2, 1⟩, ⟨1 / 2, 0⟩, ⟨1, 0⟩, ⟨1, 1⟩, ⟨0, 1⟩]

/-- The pixel on the slit is blended from the left, on the slit, and from the right. -/
theorem not_forall_fillsRight :
    ¬∀ (width height : ℤ) (polygon : Polygon), FillsRight width height polygon := fun h => by
  have hthree : (fillPolygon 1 1 slitSquare).count (0, 0) = 3 := by decide +kernel
  have hone := (h 1 1 slitSquare).once (0, 0)
  omega

end Aetheris.Svg
