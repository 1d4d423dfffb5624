import Aetheris.Jpeg.ScanEvents
import Aetheris.Library.Grid

/-!
# The order of the blocks in a scan

T.81 has a scan of several components in MCUs of the frame; a scan of one component has its blocks
in rows, and each block is an MCU.  `decode_scan` has one grid for both, with MCUs as large as the
largest component of the scan makes them.

Both orders are written as lists of visits, a block with the number of restarts in front of it.
Over the frames that `readFrame` lays out, the lists are compared block by block, and a component
that is alone is where they part.
-/

namespace Aetheris.Jpeg

open Aetheris.Computation Grid

/-! ## What is prescribed -/

/-- The number of MCUs in a row of the frame. -/
def Decoder.mcusX (decoder : Decoder) : ℕ := decoder.width ⌈/⌉ (8 * decoder.maxH)

/-- The number of rows of MCUs in the frame. -/
def Decoder.mcusY (decoder : Decoder) : ℕ := decoder.height ⌈/⌉ (8 * decoder.maxV)

/-- The blocks in a row of a component, which has its part of the samples of the frame. -/
def Decoder.columns (decoder : Decoder) (index : Fin 4) : ℕ :=
  decoder.width * (decoder.comp.get index).h ⌈/⌉ decoder.maxH ⌈/⌉ 8

/-- The rows of blocks of a component. -/
def Decoder.rows (decoder : Decoder) (index : Fin 4) : ℕ :=
  decoder.height * (decoder.comp.get index).v ⌈/⌉ decoder.maxV ⌈/⌉ 8

/-- The blocks of one MCU. -/
def mcuVisits (decoder : Decoder) (interval my mx : ℕ) : List Visit :=
  decoder.scan.components.flatMap fun index =>
    (List.range (decoder.comp.get index).v).flatMap fun vertical =>
      (List.range (decoder.comp.get index).h).map fun horizontal =>
        ⟨interval, index, mx * (decoder.comp.get index).h + horizontal,
          my * (decoder.comp.get index).v + vertical⟩

/-- The MCUs of the frame, when so many are counted in a row. -/
def interleaved (decoder : Decoder) (counted : ℕ) : List Visit :=
  (List.range decoder.mcusY).flatMap fun my =>
    (List.range decoder.mcusX).flatMap fun mx =>
      mcuVisits decoder ((my * counted + mx) / decoder.restartInterval) my mx

/-- The blocks of a component in rows, each of them an MCU. -/
def noninterleaved (decoder : Decoder) (index : Fin 4) : List Visit :=
  (List.range (decoder.rows index)).flatMap fun y =>
    (List.range (decoder.columns index)).map fun x =>
      ⟨(y * decoder.columns index + x) / decoder.restartInterval, index, x, y⟩

/-- **The order of T.81, A.2.**  A restart is in front of every MCU whose number the interval
divides, the first one apart; no number is divided by zero. -/
def prescribed (decoder : Decoder) : List Visit :=
  match decoder.scan.components with
  | [index] => noninterleaved decoder index
  | _ => interleaved decoder decoder.mcusX

/-! ## The frame of a scan -/

/-- The largest factors are those of components, and the components of the frame have the blocks of
its MCUs. -/
structure Decoder.LaidOut (decoder : Decoder) : Prop where
  width_pos : 0 < decoder.width
  height_pos : 0 < decoder.height
  maxH_eq : ∃ c : Fin 4, c < decoder.numComponents ∧ (decoder.comp.get c).h = decoder.maxH
  maxV_eq : ∃ c : Fin 4, c < decoder.numComponents ∧ (decoder.comp.get c).v = decoder.maxV
  h_mem (c : Fin 4) : c < decoder.numComponents →
    0 < (decoder.comp.get c).h ∧ (decoder.comp.get c).h ≤ decoder.maxH
  v_mem (c : Fin 4) : c < decoder.numComponents →
    0 < (decoder.comp.get c).v ∧ (decoder.comp.get c).v ≤ decoder.maxV
  blocks_eq (c : Fin 4) : c < decoder.numComponents →
    (decoder.comp.get c).blocksW = decoder.mcusX * (decoder.comp.get c).h ∧
      (decoder.comp.get c).blocksH = decoder.mcusY * (decoder.comp.get c).v

/-- The largest one of the factors of some components, or 1. -/
structure Largest (factor : Component → ℕ) (comp : Vector Component 4) (largest : ℕ)
    (cs : List (Fin 4)) : Prop where
  mem : ∀ c ∈ cs, 0 < factor (comp.get c) ∧ factor (comp.get c) ≤ largest
  eq : largest = 1 ∨ ∃ c ∈ cs, factor (comp.get c) = largest

section Frame

variable {segment : Bytes} {decoder : Decoder} {cs : List (Fin 4)}

theorem Largest.cons {factor : Component → ℕ} {comp : Vector Component 4} {largest : ℕ}
    (h : Largest factor comp largest cs) {c : Fin 4} (hc : c ∉ cs) {component : Component}
    (hpos : 0 < factor component) :
    Largest factor (comp.set c component c.isLt) (max largest (factor component)) (c :: cs) := by
  have hself : (comp.set c component).get c = component := by rw [get_set, if_pos rfl]
  have hsame (c' : Fin 4) (hc' : c' ∈ cs) : (comp.set c component).get c' = comp.get c' := by
    rw [get_set, if_neg fun heq : c = c' => hc (heq ▸ hc')]
  refine ⟨List.forall_mem_cons.mpr ⟨?_, fun c' hc' => ?_⟩, ?_⟩
  · rw [hself]
    exact ⟨hpos, le_max_right _ _⟩
  · rw [hsame c' hc']
    exact ⟨(h.mem c' hc').1, (h.mem c' hc').2.trans (le_max_left _ _)⟩
  · rcases le_total largest (factor component) with hle | hle
    · rw [max_eq_right hle]
      exact .inr ⟨c, List.mem_cons_self, congrArg factor hself⟩
    · rw [max_eq_left hle]
      refine h.eq.imp_right ?_
      rintro ⟨c', hc', heq⟩
      exact ⟨c', List.mem_cons_of_mem c hc', (congrArg factor (hsame c' hc')).trans heq⟩

/-- The factors of some components of a frame have been read. -/
def Decoder.FactorsRead (decoder : Decoder) (cs : List (Fin 4)) : Prop :=
  Largest Component.h decoder.comp decoder.maxH cs ∧
    Largest Component.v decoder.comp decoder.maxV cs

/-- The factors of one more component are read. -/
theorem factorsRead_readComponent {c : Fin 4} (hc : c ∉ cs) (h : decoder.FactorsRead cs) :
    Meets (fun _ => True) (readComponent segment decoder c) fun decoder' =>
      decoder'.FactorsRead (c :: cs) ∧ decoder'.width = decoder.width ∧
        decoder'.height = decoder.height ∧ decoder'.numComponents = decoder.numComponents := by
  rw [readComponent]
  refine meets_ite (fun _ => meets_error trivial) fun _ => ?_
  refine (meets_true _).bind fun id _ => (meets_true _).bind fun factors _ => ?_
  refine (meets_true _).bind fun quantId _ => meets_ite (fun _ => meets_error trivial) fun hfactors => ?_
  let component : Component := { decoder.comp.get c with
    id := id.toNat, h := factors.toNat / 16, v := factors.toNat % 16, quantId := quantId.toNat }
  have hh : 0 < component.h := show 0 < factors.toNat / 16 by omega
  have hv : 0 < component.v := show 0 < factors.toNat % 16 by omega
  exact meets_pure ⟨⟨h.1.cons hc hh, h.2.cons hc hv⟩, rfl, rfl, rfl⟩

/-- The factors of all components are read. -/
theorem factorsRead_components {done : List (Fin 4)} (hnodup : cs.Nodup)
    (hdone : ∀ c ∈ cs, c ∉ done) (h : decoder.FactorsRead done) :
    Meets (fun _ => True) (cs.foldlM (readComponent segment) decoder) fun decoder' =>
      decoder'.FactorsRead (cs.reverse ++ done) ∧ decoder'.width = decoder.width ∧
        decoder'.height = decoder.height ∧ decoder'.numComponents = decoder.numComponents := by
  induction cs generalizing decoder done with
  | nil => exact meets_pure ⟨h, rfl, rfl, rfl⟩
  | cons c cs ih =>
    obtain ⟨hc, hnodup⟩ := List.nodup_cons.mp hnodup
    rw [List.foldlM_cons]
    refine (factorsRead_readComponent (hdone c List.mem_cons_self) h).bind ?_
    rintro decoder' ⟨h', hwidth, hheight, hnum⟩
    have hrest (c' : Fin 4) (hc' : c' ∈ cs) : c' ∉ c :: done := by
      rw [List.mem_cons, not_or]
      exact ⟨fun heq => hc (heq ▸ hc'), hdone c' (List.mem_cons_of_mem c hc')⟩
    refine (ih hnodup hrest h').mono ?_
    rintro decoder'' ⟨h'', hwidth', hheight', hnum'⟩
    rw [List.reverse_cons, List.append_assoc, List.singleton_append]
    exact ⟨h'', hwidth'.trans hwidth, hheight'.trans hheight, hnum'.trans hnum⟩

/-- **The components of a frame.**  They are laid out as soon as its header is read, by a decoder with
the largest factors that it begins with. -/
theorem laidOut_readFrame (segment : Bytes) (decoder : Decoder) :
    Meets (fun _ => True) (readFrame segment { decoder with maxH := 1, maxV := 1 })
      Decoder.LaidOut := by
  rw [readFrame]
  refine meets_ite (fun _ => meets_error trivial) fun _ => ?_
  refine (meets_true _).bind fun precision _ => ?_
  refine meets_ite (fun _ => meets_error trivial) fun _ => ?_
  refine (meets_true _).bind fun height _ => (meets_true _).bind fun width _ => ?_
  refine (meets_true _).bind fun count _ => ?_
  dsimp only
  refine meets_ite (fun _ => meets_error trivial) fun hframe => ?_
  have hnodup : (frameComponents count.toNat).Nodup := (List.nodup_finRange 4).filter _
  have hstart : Decoder.FactorsRead
      { decoder with
        maxH := 1, maxV := 1, width := width, height := height, numComponents := count.toNat } [] :=
    ⟨⟨(fun _ h => by cases h), .inl rfl⟩, (fun _ h => by cases h), .inl rfl⟩
  refine (factorsRead_components hnodup (fun _ _ => List.not_mem_nil) hstart).bind ?_
  rintro d ⟨⟨hlargestH, hlargestV⟩, hwidth, hheight, hnum⟩
  subst hwidth hheight
  dsimp only at hnum
  have hmem (c : Fin 4) :
      c ∈ (frameComponents count.toNat).reverse ++ [] ↔ c < d.numComponents := by
    rw [List.append_nil, List.mem_reverse, frameComponents, List.mem_filter, hnum]
    exact ⟨fun h => of_decide_eq_true h.2, fun h => ⟨List.mem_finRange c, decide_eq_true h⟩⟩
  have hget (c : Fin 4) (hc : c < d.numComponents) (f : ℕ → Component → Component)
      (hf : f = fun c component => if c < count.toNat then component.allocate
        ((d.width + 8 * d.maxH - 1) / (8 * d.maxH)) ((d.height + 8 * d.maxV - 1) / (8 * d.maxV))
        else component) :
      (d.comp.mapIdx f).get c = (d.comp.get c).allocate
        ((d.width + 8 * d.maxH - 1) / (8 * d.maxH)) ((d.height + 8 * d.maxV - 1) / (8 * d.maxV)) := by
    rw [get_mapIdx, hf]
    exact if_pos (hnum ▸ hc)
  -- there is a component, so the largest factor is one of them
  have hlargest {factor : Component → ℕ} {m : ℕ}
      (h : Largest factor d.comp m ((frameComponents count.toNat).reverse ++ [])) :
      ∃ c : Fin 4, c < d.numComponents ∧ factor (d.comp.get c) = m := by
    have hzero : (0 : Fin 4) < d.numComponents := show 0 < d.numComponents by omega
    rcases h.eq with hone | ⟨c, hc, heq⟩
    · have hfactor := h.mem 0 ((hmem 0).mpr hzero)
      exact ⟨0, hzero, by omega⟩
    · exact ⟨c, (hmem c).mp hc, heq⟩
  refine meets_pure ⟨show 0 < d.width by omega, show 0 < d.height by omega, ?_, ?_,
    fun c hc => ?_, fun c hc => ?_, fun c hc => ?_⟩
  · obtain ⟨c, hc, heq⟩ := hlargest hlargestH
    exact ⟨c, hc, (congrArg Component.h (hget c hc _ rfl)).trans heq⟩
  · obtain ⟨c, hc, heq⟩ := hlargest hlargestV
    exact ⟨c, hc, (congrArg Component.v (hget c hc _ rfl)).trans heq⟩
  · exact (congrArg Component.h (hget c hc _ rfl)) ▸ hlargestH.mem c ((hmem c).mpr hc)
  · exact (congrArg Component.v (hget c hc _ rfl)) ▸ hlargestV.mem c ((hmem c).mpr hc)
  · have hall := hget c hc _ rfl
    refine ⟨(congrArg Component.blocksW hall).trans ?_, (congrArg Component.blocksH hall).trans ?_⟩
    · exact congrArg _ (congrArg Component.h hall).symm
    · exact congrArg _ (congrArg Component.v hall).symm

end Frame

/-- The scan is about components of the frame. -/
structure Decoder.ScanReady (decoder : Decoder) : Prop extends decoder.LaidOut where
  components_ne_nil : decoder.scan.components ≠ []
  components_lt : ∀ c ∈ decoder.scan.components, c < decoder.numComponents

section Visited

variable {decoder : Decoder}

/-- The largest factor of the components of a scan. -/
theorem foldl_max_le {f : Fin 4 → ℕ} {cs : List (Fin 4)} {a bound : ℕ} (ha : a ≤ bound)
    (h : ∀ c ∈ cs, f c ≤ bound) : cs.foldl (fun m c => max m (f c)) a ≤ bound := by
  induction cs generalizing a with
  | nil => exact ha
  | cons c cs ih =>
    exact ih (max_le ha (h c List.mem_cons_self)) fun c hc => h c (List.mem_cons_of_mem _ hc)

theorem le_foldl_max {f : Fin 4 → ℕ} {cs : List (Fin 4)} {a : ℕ} :
    a ≤ cs.foldl (fun m c => max m (f c)) a := by
  induction cs generalizing a with
  | nil => exact le_rfl
  | cons c cs ih => exact (le_max_left a (f c)).trans ih

theorem ceilDiv_le_ceilDiv {a b c : ℕ} (hb : 0 < b) (hbc : b ≤ c) : a ⌈/⌉ c ≤ a ⌈/⌉ b := by
  rw [ceilDiv_le_iff_le_mul (hb.trans_le hbc)]
  exact ((ceilDiv_le_iff_le_mul hb).mp le_rfl).trans (Nat.mul_le_mul_right _ hbc)

variable (h : decoder.ScanReady)
include h

theorem scanFactors_mem :
    (0 < decoder.scanH ∧ decoder.scanH ≤ decoder.maxH) ∧
      0 < decoder.scanV ∧ decoder.scanV ≤ decoder.maxV := by
  obtain ⟨c, hc⟩ := List.exists_mem_of_ne_nil _ h.components_ne_nil
  have hh := h.h_mem c (h.components_lt c hc)
  have hv := h.v_mem c (h.components_lt c hc)
  refine ⟨⟨le_foldl_max, ?_⟩, le_foldl_max, ?_⟩
  · exact foldl_max_le (by omega) fun c hc => (h.h_mem c (h.components_lt c hc)).2
  · exact foldl_max_le (by omega) fun c hc => (h.v_mem c (h.components_lt c hc)).2

/-- The grid of the scan is not smaller than the one of the frame. -/
theorem mcus_le : decoder.mcusX ≤ decoder.scanMcusX ∧ decoder.mcusY ≤ decoder.scanMcusY := by
  obtain ⟨⟨hh, hle⟩, hv, hle'⟩ := scanFactors_mem h
  exact ⟨ceilDiv_le_ceilDiv (by omega) (by omega), ceilDiv_le_ceilDiv (by omega) (by omega)⟩

/-- A block of an MCU is one of the component if the MCU is one of the frame. -/
theorem unitEvents_eq {c : Fin 4} (hc : c ∈ decoder.scan.components) {my mx vertical horizontal : ℕ}
    (hvertical : vertical < (decoder.comp.get c).v)
    (hhorizontal : horizontal < (decoder.comp.get c).h) :
    unitEvents decoder my mx c vertical horizontal =
      if mx < decoder.mcusX ∧ my < decoder.mcusY then
        [.block c (mx * (decoder.comp.get c).h + horizontal)
          (my * (decoder.comp.get c).v + vertical)]
      else [] := by
  have hin {n m p k : ℕ} (hk : k < p) : m * p ≤ n * p + k ↔ m ≤ n := by
    constructor
    · intro hle
      by_contra hlt
      have hmul := Nat.mul_le_mul_right p (Nat.not_le.mp hlt)
      rw [Nat.succ_mul] at hmul
      omega
    · exact fun hle => (Nat.mul_le_mul_right p hle).trans (Nat.le_add_right _ _)
  obtain ⟨hw, hh⟩ := h.blocks_eq c (h.components_lt c hc)
  have hx := hin hhorizontal (n := mx) (m := decoder.mcusX)
  have hy := hin hvertical (n := my) (m := decoder.mcusY)
  rw [← hw] at hx
  rw [← hh] at hy
  rw [unitEvents]
  by_cases hout : mx < decoder.mcusX ∧ my < decoder.mcusY
  · rw [if_pos hout, if_neg (by rw [hx, hy]; omega)]
  · rw [if_neg hout, if_pos (by rw [hx, hy]; omega)]

end Visited

section Grid

variable {decoder : Decoder} (h : decoder.ScanReady)
include h

theorem visits_mcuEvents (interval my mx : ℕ) :
    visits interval (mcuEvents decoder my mx) =
      if mx < decoder.mcusX ∧ my < decoder.mcusY then mcuVisits decoder interval my mx else [] := by
  have hunits (c : Fin 4) (hc : c ∈ decoder.scan.components) :
      visits interval ((List.range (decoder.comp.get c).v).flatMap fun vertical =>
        (List.range (decoder.comp.get c).h).flatMap fun horizontal =>
          unitEvents decoder my mx c vertical horizontal) =
        (List.range (decoder.comp.get c).v).flatMap fun vertical =>
          (List.range (decoder.comp.get c).h).flatMap fun horizontal =>
            if mx < decoder.mcusX ∧ my < decoder.mcusY then
              [⟨interval, c, mx * (decoder.comp.get c).h + horizontal,
                my * (decoder.comp.get c).v + vertical⟩]
            else [] := by
    rw [visits_flatMap]
    · refine List.flatMap_congr fun vertical hvertical => ?_
      rw [visits_flatMap _ fun _ _ => restart_notMem_unitEvents decoder my mx c vertical _]
      refine List.flatMap_congr fun horizontal hhorizontal => ?_
      rw [unitEvents_eq h hc (List.mem_range.mp hvertical) (List.mem_range.mp hhorizontal)]
      split
      · rfl
      · rfl
    · intro vertical _ hmem
      obtain ⟨horizontal, -, hmem⟩ := List.mem_flatMap.mp hmem
      exact restart_notMem_unitEvents decoder my mx c vertical horizontal hmem
  have hmcu : visits interval (mcuEvents decoder my mx) = decoder.scan.components.flatMap fun c =>
      visits interval ((List.range (decoder.comp.get c).v).flatMap fun vertical =>
        (List.range (decoder.comp.get c).h).flatMap fun horizontal =>
          unitEvents decoder my mx c vertical horizontal) := by
    refine visits_flatMap _ fun c _ hmem => ?_
    obtain ⟨vertical, -, hmem⟩ := List.mem_flatMap.mp hmem
    obtain ⟨horizontal, -, hmem⟩ := List.mem_flatMap.mp hmem
    exact restart_notMem_unitEvents decoder my mx c vertical horizontal hmem
  rw [hmcu, List.flatMap_congr hunits]
  split
  · refine List.flatMap_congr fun c _ => List.flatMap_congr fun vertical _ => ?_
    exact List.map_eq_flatMap.symm
  · rw [List.flatMap_eq_nil_iff]
    intro c _
    rw [List.flatMap_eq_nil_iff]
    intro vertical _
    rw [List.flatMap_eq_nil_iff]
    exact fun _ _ => rfl

/-- **The blocks that `decode_scan` visits.**  They are those of the MCUs of the frame, and the
interval counts the MCUs of the scan. -/
theorem visits_scanEvents : visits 0 (scanEvents decoder) = interleaved decoder decoder.scanMcusX := by
  have hnumber (j : ℕ) :
      j / decoder.scanMcusX * decoder.scanMcusX + j % decoder.scanMcusX = j :=
    Nat.div_add_mod' j decoder.scanMcusX
  calc
    visits 0 (scanEvents decoder) =
        visits 0 ((List.range (decoder.scanMcusY * decoder.scanMcusX)).flatMap fun j =>
          restartEvents decoder.restartInterval j ++
            mcuEvents decoder (j / decoder.scanMcusX) (j % decoder.scanMcusX)) := by
      rw [scanEvents, range_flatMap_range]
      simp only [hnumber]
    _ = (List.range (decoder.scanMcusY * decoder.scanMcusX)).flatMap fun j =>
          visits ((j / decoder.scanMcusX * decoder.scanMcusX + j % decoder.scanMcusX) /
              decoder.restartInterval)
            (mcuEvents decoder (j / decoder.scanMcusX) (j % decoder.scanMcusX)) := by
      simp only [hnumber]
      exact (visits_restarts _ _ fun j => restart_notMem_mcuEvents decoder _ _).1
    _ = (List.range decoder.scanMcusY).flatMap fun my =>
          (List.range decoder.scanMcusX).flatMap fun mx =>
            visits ((my * decoder.scanMcusX + mx) / decoder.restartInterval)
              (mcuEvents decoder my mx) :=
      (range_flatMap_range _ _ fun my mx =>
        visits ((my * decoder.scanMcusX + mx) / decoder.restartInterval)
          (mcuEvents decoder my mx)).symm
    _ = (List.range decoder.scanMcusY).flatMap fun my =>
          if my < decoder.mcusY then (List.range decoder.mcusX).flatMap fun mx =>
            mcuVisits decoder ((my * decoder.scanMcusX + mx) / decoder.restartInterval) my mx
          else [] := by
      refine List.flatMap_congr fun my _ => ?_
      simp only [visits_mcuEvents h]
      by_cases hmy : my < decoder.mcusY
      · simp only [hmy, and_true, if_true]
        exact range_flatMap_ite (mcus_le h).1 _
      · simp only [hmy, and_false, if_false]
        exact List.flatMap_eq_nil_iff.mpr fun _ _ => rfl
    _ = interleaved decoder decoder.scanMcusX := range_flatMap_ite (mcus_le h).2 _

end Grid

/-! ## When the two are the same -/

/-- The number that a block has in a scan of one component when the MCUs of the scan are
counted. -/
def countedMcu (decoder : Decoder) (index : Fin 4) (m : ℕ) : ℕ :=
  let mcu := m / ((decoder.comp.get index).v * (decoder.comp.get index).h)
  mcu / decoder.mcusX * decoder.scanMcusX + mcu % decoder.mcusX

/-- **When a scan has the order of T.81.**  A component that is alone has to fill the MCUs of the
frame, with one row in each or one MCU in each row, and its blocks have to stand between the same
restarts when the MCUs of the scan are counted.  For several components, the grid of the scan has
to be that of the frame, or the picture has one row of MCUs, or there is no restart in front of its
last MCU. -/
def ScanOrderHolds (decoder : Decoder) : Prop :=
  match decoder.scan.components with
  | [index] =>
    decoder.columns index = decoder.mcusX * (decoder.comp.get index).h ∧
      decoder.rows index = decoder.mcusY * (decoder.comp.get index).v ∧
      ((decoder.comp.get index).v = 1 ∨ decoder.mcusX = 1) ∧
      ∀ m < decoder.rows index * decoder.columns index,
        countedMcu decoder index m / decoder.restartInterval = m / decoder.restartInterval
  | _ =>
    decoder.restartInterval = 0 ∨ decoder.scanMcusX = decoder.mcusX ∨ decoder.mcusY = 1 ∨
      (decoder.mcusY - 1) * decoder.scanMcusX + decoder.mcusX ≤ decoder.restartInterval

/-- MCUs that are counted in longer rows are in the same intervals. -/
theorem intervals_agree_iff {counted columns rows interval : ℕ} (hle : columns ≤ counted)
    (hcolumns : 0 < columns) (hrows : 0 < rows) :
    (∀ my < rows, ∀ mx < columns,
        (my * counted + mx) / interval = (my * columns + mx) / interval) ↔
      interval = 0 ∨ counted = columns ∨ rows = 1 ∨ (rows - 1) * counted + columns ≤ interval := by
  constructor
  · intro h
    by_contra hnot
    obtain ⟨hinterval, hne, hone, hlast⟩ : 0 < interval ∧ columns < counted ∧ 2 ≤ rows ∧
        interval < (rows - 1) * counted + columns := by omega
    -- the last MCU is behind a restart, so there is one among the MCUs of the frame
    have hmany : interval < rows * columns := by
      have hlast' := h (rows - 1) (by omega) (columns - 1) (by omega)
      have hpos : 0 < ((rows - 1) * counted + (columns - 1)) / interval :=
        Nat.div_pos (by omega) hinterval
      rw [hlast'] at hpos
      have hge := (Nat.div_pos_iff.mp hpos).2
      have hmul : rows * columns = (rows - 1) * columns + columns := by
        rw [← Nat.succ_mul, Nat.succ_eq_add_one, Nat.sub_add_cancel (by omega)]
      omega
    -- the first restart behind the first row, and the MCU in front of it
    obtain ⟨k, hk, hk'⟩ : ∃ k, columns < k * interval ∧ k * interval ≤ rows * columns := by
      refine ⟨columns / interval + 1, ?_, ?_⟩
      · rw [Nat.succ_mul]
        exact Nat.lt_div_mul_add hinterval
      · by_cases hshort : interval ≤ columns
        · have htwo : 2 * columns ≤ rows * columns := Nat.mul_le_mul_right _ hone
          have hdiv := Nat.div_mul_le_self columns interval
          rw [Nat.succ_mul]
          omega
        · rw [Nat.div_eq_of_lt (Nat.not_le.mp hshort), Nat.zero_add, Nat.one_mul]
          exact hmany.le
    obtain ⟨m, hm⟩ : ∃ m, m + 1 = k * interval := ⟨k * interval - 1, by omega⟩
    have hsplit := Nat.div_add_mod' m columns
    have hrow : 0 < m / columns := Nat.div_pos (by omega) hcolumns
    have hagree := h (m / columns) ((Nat.div_lt_iff_lt_mul hcolumns).mpr (by omega)) (m % columns)
      (Nat.mod_lt m hcolumns)
    have hshort : m / interval < k := (Nat.div_lt_iff_lt_mul hinterval).mpr (by omega)
    have hlong : k ≤ (m / columns * counted + m % columns) / interval := by
      have hmul : m / columns * (columns + 1) ≤ m / columns * counted :=
        Nat.mul_le_mul_left _ (by omega)
      rw [Nat.mul_succ] at hmul
      exact (Nat.le_div_iff_mul_le hinterval).mpr (by omega)
    rw [hagree, hsplit] at hlong
    omega
  · rintro (rfl | rfl | rfl | hlast) my hmy mx hmx
    · rw [Nat.div_zero, Nat.div_zero]
    · rfl
    · rw [Nat.lt_one_iff.mp hmy, Nat.zero_mul, Nat.zero_mul]
    · have hrow : my * counted ≤ (rows - 1) * counted := Nat.mul_le_mul_right _ (by omega)
      have hcolumn : my * columns ≤ my * counted := Nat.mul_le_mul_left _ hle
      rw [Nat.div_eq_of_lt (by omega), Nat.div_eq_of_lt (by omega)]

section Orders

variable {decoder : Decoder} (h : decoder.ScanReady)
include h

theorem mcusX_pos : 0 < decoder.mcusX ∧ 0 < decoder.mcusY := by
  obtain ⟨⟨hh, hle⟩, hv, hle'⟩ := scanFactors_mem h
  exact ⟨mcus_pos h.width_pos (by omega), mcus_pos h.height_pos (by omega)⟩

/-- The blocks of an MCU are counted in it. -/
theorem mcuVisits_inj {interval interval' my mx : ℕ} :
    mcuVisits decoder interval my mx = mcuVisits decoder interval' my mx ↔
      interval = interval' := by
  refine ⟨fun heq => ?_, congrArg fun interval => mcuVisits decoder interval my mx⟩
  obtain ⟨c, hc⟩ := List.exists_mem_of_ne_nil _ h.components_ne_nil
  have hmem : ∃ visit ∈ mcuVisits decoder interval my mx, visit.interval = interval := by
    refine ⟨_, List.mem_flatMap.mpr ⟨c, hc, List.mem_flatMap.mpr ⟨0, ?_,
      List.mem_map.mpr ⟨0, ?_, rfl⟩⟩⟩, rfl⟩
    · exact List.mem_range.mpr (h.v_mem c (h.components_lt c hc)).1
    · exact List.mem_range.mpr (h.h_mem c (h.components_lt c hc)).1
  obtain ⟨visit, hvisit, rfl⟩ := hmem
  rw [heq] at hvisit
  obtain ⟨c', -, hvisit⟩ := List.mem_flatMap.mp hvisit
  obtain ⟨vertical, -, hvisit⟩ := List.mem_flatMap.mp hvisit
  obtain ⟨horizontal, -, rfl⟩ := List.mem_map.mp hvisit
  rfl

omit h in
theorem length_mcuVisits (decoder : Decoder) (interval interval' my mx : ℕ) :
    (mcuVisits decoder interval my mx).length = (mcuVisits decoder interval' my mx).length := by
  simp only [mcuVisits, List.length_flatMap, List.length_map]

/-- The same MCUs, counted in rows of other lengths. -/
theorem interleaved_eq_iff {counted : ℕ} (hle : decoder.mcusX ≤ counted) :
    interleaved decoder counted = interleaved decoder decoder.mcusX ↔
      decoder.restartInterval = 0 ∨ counted = decoder.mcusX ∨ decoder.mcusY = 1 ∨
        (decoder.mcusY - 1) * counted + decoder.mcusX ≤ decoder.restartInterval := by
  rw [← intervals_agree_iff hle (mcusX_pos h).1 (mcusX_pos h).2, interleaved, interleaved,
    flatMap_eq_iff]
  · refine ⟨fun heq my hmy mx hmx => ?_, fun heq my hmy => ?_⟩
    · have hrow := heq my (List.mem_range.mpr hmy)
      rw [flatMap_eq_iff fun mx _ => length_mcuVisits decoder _ _ my mx] at hrow
      exact (mcuVisits_inj h).mp (hrow mx (List.mem_range.mpr hmx))
    · rw [flatMap_eq_iff fun mx _ => length_mcuVisits decoder _ _ my mx]
      exact fun mx hmx =>
        (mcuVisits_inj h).mpr (heq my (List.mem_range.mp hmy) mx (List.mem_range.mp hmx))
  · intro my _
    simp only [List.length_flatMap]
    exact congrArg List.sum (List.map_congr_left fun mx _ => length_mcuVisits decoder _ _ my mx)

omit h in
/-- The blocks of a scan of one component, numbered as they are visited. -/
theorem interleaved_singleton {c : Fin 4} (hc : decoder.scan.components = [c]) :
    interleaved decoder decoder.scanMcusX =
      (List.range (decoder.mcusY * decoder.mcusX *
        ((decoder.comp.get c).v * (decoder.comp.get c).h))).map fun m =>
          ⟨countedMcu decoder c m / decoder.restartInterval, c,
            m / ((decoder.comp.get c).v * (decoder.comp.get c).h) % decoder.mcusX *
                (decoder.comp.get c).h +
              m % ((decoder.comp.get c).v * (decoder.comp.get c).h) % (decoder.comp.get c).h,
            m / ((decoder.comp.get c).v * (decoder.comp.get c).h) / decoder.mcusX *
                (decoder.comp.get c).v +
              m % ((decoder.comp.get c).v * (decoder.comp.get c).h) / (decoder.comp.get c).h⟩ := by
  have hmcu (interval my mx : ℕ) : mcuVisits decoder interval my mx =
      (List.range ((decoder.comp.get c).v * (decoder.comp.get c).h)).map fun p =>
        ⟨interval, c, mx * (decoder.comp.get c).h + p % (decoder.comp.get c).h,
          my * (decoder.comp.get c).v + p / (decoder.comp.get c).h⟩ := by
    rw [mcuVisits, hc, List.flatMap_singleton]
    exact range_flatMap_map_range _ _ fun vertical horizontal =>
      (⟨interval, c, mx * (decoder.comp.get c).h + horizontal,
        my * (decoder.comp.get c).v + vertical⟩ : Visit)
  rw [interleaved]
  simp only [hmcu]
  rw [range_flatMap_range]
  exact range_flatMap_map_range _ _ fun mcu p =>
    (⟨(mcu / decoder.mcusX * decoder.scanMcusX + mcu % decoder.mcusX) / decoder.restartInterval, c,
      mcu % decoder.mcusX * (decoder.comp.get c).h + p % (decoder.comp.get c).h,
      mcu / decoder.mcusX * (decoder.comp.get c).v + p / (decoder.comp.get c).h⟩ : Visit)

/-- A component has no more blocks than its part of the MCUs. -/
theorem columns_le {c : Fin 4} (hc : c < decoder.numComponents) :
    (0 < decoder.columns c ∧ decoder.columns c ≤ decoder.mcusX * (decoder.comp.get c).h) ∧
      0 < decoder.rows c ∧ decoder.rows c ≤ decoder.mcusY * (decoder.comp.get c).v := by
  have hbound {size factor largest : ℕ} (hsize : 0 < size) (hfactor : 0 < factor)
      (hle : factor ≤ largest) : 0 < size * factor ⌈/⌉ largest ⌈/⌉ 8 ∧
        size * factor ⌈/⌉ largest ⌈/⌉ 8 ≤ size ⌈/⌉ (8 * largest) * factor := by
    have hlargest : 0 < largest := hfactor.trans_le hle
    constructor
    · refine Nat.pos_of_ne_zero fun hzero => ?_
      have hinner := (ceilDiv_le_iff_le_mul (by decide)).mp hzero.le
      rw [Nat.mul_zero, ceilDiv_le_iff_le_mul hlargest, Nat.mul_zero] at hinner
      exact absurd (Nat.mul_pos hsize hfactor) (Nat.not_lt.mpr hinner)
    · rw [ceilDiv_le_iff_le_mul (by decide), ceilDiv_le_iff_le_mul hlargest]
      have hmcus : size ≤ 8 * largest * (size ⌈/⌉ (8 * largest)) :=
        (ceilDiv_le_iff_le_mul (by omega)).mp le_rfl
      calc
        size * factor ≤ 8 * largest * (size ⌈/⌉ (8 * largest)) * factor :=
          Nat.mul_le_mul_right _ hmcus
        _ = largest * (8 * (size ⌈/⌉ (8 * largest) * factor)) := by
          rw [Nat.mul_comm 8 largest, Nat.mul_assoc, Nat.mul_assoc]
  exact ⟨hbound h.width_pos (h.h_mem c hc).1 (h.h_mem c hc).2,
    hbound h.height_pos (h.v_mem c hc).1 (h.v_mem c hc).2⟩

omit h in
/-- The blocks of MCUs with one row of blocks, or with one MCU in a row, are numbered in rows. -/
theorem blocks_in_rows {mcus across down : ℕ} (m : ℕ) (hacross : 0 < across)
    (hrows : down = 1 ∨ mcus = 1) :
    m / (down * across) % mcus * across + m % (down * across) % across = m % (mcus * across) ∧
      m / (down * across) / mcus * down + m % (down * across) / across = m / (mcus * across) := by
  rcases hrows with rfl | rfl
  · rw [Nat.one_mul, Nat.mod_mod, Nat.mul_one, Nat.div_eq_of_lt (Nat.mod_lt m hacross),
      Nat.add_zero, Nat.div_div_eq_div_mul, Nat.mul_comm mcus across, Nat.mod_mul]
    exact ⟨by rw [Nat.add_comm, Nat.mul_comm], rfl⟩
  · rw [Nat.mod_one, Nat.zero_mul, Nat.zero_add, Nat.div_one, Nat.one_mul,
      Nat.mod_mul_left_mod, Nat.mod_mul_left_div_self, Nat.mul_comm down across,
      ← Nat.div_div_eq_div_mul]
    exact ⟨rfl, Nat.div_add_mod' _ _⟩

/-- The blocks of one component. -/
theorem noninterleaved_eq_iff {c : Fin 4} (hc : decoder.scan.components = [c]) :
    interleaved decoder decoder.scanMcusX = noninterleaved decoder c ↔
      decoder.columns c = decoder.mcusX * (decoder.comp.get c).h ∧
        decoder.rows c = decoder.mcusY * (decoder.comp.get c).v ∧
        ((decoder.comp.get c).v = 1 ∨ decoder.mcusX = 1) ∧
        ∀ m < decoder.rows c * decoder.columns c,
          countedMcu decoder c m / decoder.restartInterval = m / decoder.restartInterval := by
  have hmem : c < decoder.numComponents := by
    refine h.components_lt c ?_
    rw [hc]
    exact List.mem_singleton_self c
  obtain ⟨⟨hw, hwle⟩, hh, hhle⟩ := columns_le h hmem
  have hacross := (h.h_mem c hmem).1
  have hdown := (h.v_mem c hmem).1
  rw [interleaved_singleton hc, noninterleaved, range_flatMap_map_range, map_range_eq_iff]
  simp only [Visit.mk.injEq, Nat.div_add_mod', true_and]
  generalize (decoder.comp.get c).h = across at *
  generalize (decoder.comp.get c).v = down at *
  generalize decoder.columns c = columns at *
  generalize decoder.rows c = rows at *
  constructor
  · rintro ⟨hcount, hall⟩
    rw [Nat.mul_mul_mul_comm] at hcount
    obtain ⟨rfl, rfl⟩ := (mul_eq_mul_iff_eq_and_eq_of_pos hhle hwle hh (hw.trans_le hwle)).mp
      hcount.symm
    refine ⟨rfl, rfl, ?_, fun m hm => (hall m (by rwa [Nat.mul_mul_mul_comm])).1⟩
    by_contra hnot
    -- the second row of blocks of the first MCU would be in the first row of the component
    obtain ⟨hmcusX, hmcusY⟩ := mcusX_pos h
    obtain ⟨hdown', hmcus'⟩ : 1 < down ∧ 1 < decoder.mcusX := by omega
    have hlt : across < down * across := (Nat.lt_mul_iff_one_lt_left hacross).mpr hdown'
    have hlt' : across < decoder.mcusX * across := (Nat.lt_mul_iff_one_lt_left hacross).mpr hmcus'
    have hin : across < decoder.mcusY * down * (decoder.mcusX * across) :=
      hlt'.trans_le (Nat.le_mul_of_pos_left _ hh)
    have hblock := hall across (by rwa [Nat.mul_mul_mul_comm])
    rw [Nat.div_eq_of_lt hlt, Nat.mod_eq_of_lt hlt, Nat.mod_self, Nat.zero_mod, Nat.zero_mul,
      Nat.mod_eq_of_lt hlt'] at hblock
    exact absurd hblock.2.1 hacross.ne
  · rintro ⟨rfl, rfl, hrows, hall⟩
    have hcount : decoder.mcusY * decoder.mcusX * (down * across) =
        decoder.mcusY * down * (decoder.mcusX * across) := by
      rw [Nat.mul_mul_mul_comm]
    refine ⟨hcount, fun m hm => ⟨hall m (hcount ▸ hm), ?_⟩⟩
    exact blocks_in_rows m hacross hrows

/-- **The order of the blocks in a scan.**  What `decode_scan` does is a list of events, and their
blocks are in the order of T.81, between the same restarts, exactly under the condition above. -/
theorem scanOrder_iff (data : Bytes) :
    decodeScan data decoder = (scanEvents decoder).foldlM (perform data) decoder.beginScan ∧
      (visits 0 (scanEvents decoder) = prescribed decoder ↔ ScanOrderHolds decoder) := by
  refine ⟨decodeScan_eq data decoder, ?_⟩
  rw [visits_scanEvents h, prescribed, ScanOrderHolds]
  split
  · rename_i c hc
    exact noninterleaved_eq_iff h hc
  · exact interleaved_eq_iff h (mcus_le h).1

end Orders

/-! ## A frame of three components -/

/-- A picture of two MCUs, with half as many samples of the two chrominance components in each
direction. -/
def threeComponents (components : List (Fin 4)) : Decoder where
  width := 32
  height := 16
  numComponents := 3
  maxH := 2
  maxV := 2
  comp := #v[Component.allocate { h := 2, v := 2 } 2 1, Component.allocate {} 2 1,
    Component.allocate {} 2 1, {}]
  scan := { components := components }

theorem laidOut_threeComponents (components : List (Fin 4)) :
    (threeComponents components).LaidOut :=
  have h : (threeComponents []).LaidOut :=
    ⟨by decide, by decide, by decide, by decide, by decide, by decide, by decide⟩
  ⟨h.width_pos, h.height_pos, h.maxH_eq, h.maxV_eq, h.h_mem, h.v_mem, h.blocks_eq⟩

/-- All components are in the scan. -/
theorem scanOrder_iff_interleaved :
    decodeScan [] (threeComponents [0, 1, 2]) =
        (scanEvents (threeComponents [0, 1, 2])).foldlM (perform [])
          (threeComponents [0, 1, 2]).beginScan ∧
      (visits 0 (scanEvents (threeComponents [0, 1, 2])) = prescribed (threeComponents [0, 1, 2]) ↔
        ScanOrderHolds (threeComponents [0, 1, 2])) :=
  scanOrder_iff ⟨laidOut_threeComponents _, by decide, by decide⟩ []

/-- **A scan of the first component alone.**  The blocks are visited in the MCUs of the frame, not
in rows. -/
theorem scanEvents_ne_prescribed :
    (threeComponents [0]).ScanReady ∧
      (∀ data, decodeScan data (threeComponents [0]) =
        (scanEvents (threeComponents [0])).foldlM (perform data)
          (threeComponents [0]).beginScan) ∧
      scanEvents (threeComponents [0]) =
        [.block 0 0 0, .block 0 1 0, .block 0 0 1, .block 0 1 1,
          .block 0 2 0, .block 0 3 0, .block 0 2 1, .block 0 3 1] ∧
      prescribed (threeComponents [0]) =
        [⟨0, 0, 0, 0⟩, ⟨0, 0, 1, 0⟩, ⟨0, 0, 2, 0⟩, ⟨0, 0, 3, 0⟩,
          ⟨0, 0, 0, 1⟩, ⟨0, 0, 1, 1⟩, ⟨0, 0, 2, 1⟩, ⟨0, 0, 3, 1⟩] ∧
      visits 0 (scanEvents (threeComponents [0])) ≠ prescribed (threeComponents [0]) := by
  have hevents : scanEvents (threeComponents [0]) =
      [.block 0 0 0, .block 0 1 0, .block 0 0 1, .block 0 1 1,
        .block 0 2 0, .block 0 3 0, .block 0 2 1, .block 0 3 1] := by decide
  have hprescribed : prescribed (threeComponents [0]) =
      [⟨0, 0, 0, 0⟩, ⟨0, 0, 1, 0⟩, ⟨0, 0, 2, 0⟩, ⟨0, 0, 3, 0⟩,
        ⟨0, 0, 0, 1⟩, ⟨0, 0, 1, 1⟩, ⟨0, 0, 2, 1⟩, ⟨0, 0, 3, 1⟩] := by decide
  refine ⟨⟨laidOut_threeComponents _, by decide, by decide⟩, fun data => decodeScan_eq data _,
    hevents, hprescribed, ?_⟩
  rw [hevents, hprescribed]
  decide

end Aetheris.Jpeg
