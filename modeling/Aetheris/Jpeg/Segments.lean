import Aetheris.Jpeg.Scan

/-!
# The marker segments of a JPEG

The segments that `decode_jpeg` reads between the scans.  Only a DQT segment is read beyond its end,
exactly if its tables do not lie in it; DHT, SOF and SOS segments are not, and the frame that a SOF
segment makes is ready for a scan.
-/

namespace Aetheris.Jpeg

open Aetheris.Computation

/-- Two bytes of a segment as a number. -/
def number (segment : Bytes) (i : ℕ) : Checked ℕ := do
  let high ← item segment i
  let low ← item segment (i + 1)
  return high.toNat * 256 + low.toNat

/-- One table of a DQT segment, from the byte behind its head. -/
def readQuantTable (segment : Bytes) (offset wide : ℕ) (table : Vector ℕ 64) :
    Checked (Vector ℕ 64) :=
  (List.range 64).foldlM (fun table i => do
    let value ←
      (if wide = 0 then (item segment (offset + i)).map (·.toNat)
        else number segment (offset + 2 * i))
    let z ← slot kZigZag i
    if h : z < 64 then return table.set z value h else .error .outOfBounds) table

/-- How many bytes a table of a DQT segment has. -/
def tableLength (pq : ℕ) : ℕ := if pq = 0 then 64 else 128

/-- The loop over the tables of a DQT segment. -/
def readQuant (segment : Bytes) (quant : Vector (Vector ℕ 64) 4) (offset : ℕ) :
    Checked (Vector (Vector ℕ 64) 4) :=
  if offset < segment.length then do
    let head ← item segment offset
    let pq := head.toNat / 16
    let tq := head.toNat % 16
    if h : tq < 4 then do
      let table ← readQuantTable segment (offset + 1) pq (quant.get ⟨tq, h⟩)
      readQuant segment (quant.set tq table h) (offset + 1 + tableLength pq)
    else .error .failed
  else return quant
termination_by segment.length - offset
/-- The loop over the tables of a DHT segment. -/
def readHuffman (segment : Bytes) (decoder : Decoder) (offset : ℕ) : Checked Decoder :=
  if offset < segment.length then do
    let head ← item segment offset
    let tc := head.toNat / 16
    let th := head.toNat % 16
    if h : th < 4 ∧ offset + 1 + 16 ≤ segment.length then do
      let counts ← (List.range 16).mapM fun i => (item segment (offset + 1 + i)).map (·.toNat)
      let total := counts.sum
      if segment.length < offset + 17 + total then .error .failed
      else
        let table := buildHuffman counts ((segment.drop (offset + 17)).take total)
        readHuffman segment
          (if tc = 0 then { decoder with dcTables := decoder.dcTables.set th table h.1 }
          else { decoder with acTables := decoder.acTables.set th table h.1 })
          (offset + 17 + total)
    else .error .failed
  else return decoder
termination_by segment.length - offset
decreasing_by
  omega

/-- The components of a frame. -/
def frameComponents (numComponents : ℕ) : List (Fin 4) :=
  (List.finRange 4).filter fun c => c.1 < numComponents

/-- One component of a frame header. -/
def readComponent (segment : Bytes) (decoder : Decoder) (c : Fin 4) : Checked Decoder :=
  let base := 6 + c.1 * 3
  if segment.length ≤ base + 2 then .error .failed
  else do
    let id ← item segment base
    let factors ← item segment (base + 1)
    let quantId ← item segment (base + 2)
    let h := factors.toNat / 16
    let v := factors.toNat % 16
    if h < 1 ∨ v < 1 ∨ 4 < h ∨ 4 < v then .error .failed
    else return { decoder with
      comp := decoder.comp.set c { decoder.comp.get c with
        id := id.toNat, h := h, v := v, quantId := quantId.toNat } (component_lt c)
      maxH := max decoder.maxH h
      maxV := max decoder.maxV v }

/-- The blocks that a component gets. -/
def Component.allocate (component : Component) (mcusX mcusY : ℕ) : Component :=
  { component with
    blocksW := mcusX * component.h
    blocksH := mcusY * component.v
    dcPred := 0
    coefficients := List.replicate (mcusX * component.h * (mcusY * component.v) * 64) 0
    length_coefficients := List.length_replicate }

/-- A SOF segment. -/
def readFrame (segment : Bytes) (decoder : Decoder) : Checked Decoder :=
  if segment.length < 6 then .error .failed
  else do
    let precision ← item segment 0
    if precision ≠ 8 then .error .failed
    else
      let height ← number segment 1
      let width ← number segment 3
      let count ← item segment 5
      let numComponents := count.toNat
      if width = 0 ∨ height = 0 ∨ numComponents < 1 ∨ 4 < numComponents then .error .failed
      else
        let decoder ← (frameComponents numComponents).foldlM (readComponent segment)
          { decoder with width := width, height := height, numComponents := numComponents }
        let mcusX := (width + 8 * decoder.maxH - 1) / (8 * decoder.maxH)
        let mcusY := (height + 8 * decoder.maxV - 1) / (8 * decoder.maxV)
        return { decoder with
          comp := decoder.comp.mapIdx fun c component =>
            if c < numComponents then component.allocate mcusX mcusY else component }

/-- A component of the frame is in the scan if it has the id. -/
def addScanComponent (id tables : ℕ) (decoder : Decoder) (c : Fin 4) : Decoder :=
  if (decoder.comp.get c).id = id then
    { decoder with
      comp := decoder.comp.set c { decoder.comp.get c with
        dcTable := tables / 16, acTable := tables % 16 } (component_lt c)
      scan := { decoder.scan with components := decoder.scan.components ++ [c] } }
  else decoder

/-- One component of a scan header: the components of the frame with its id. -/
def readScanComponent (segment : Bytes) (decoder : Decoder) (i : ℕ) : Checked Decoder :=
  let base := 1 + i * 2
  if segment.length ≤ base + 1 then .error .failed
  else do
    let id ← item segment base
    let tables ← item segment (base + 1)
    return (frameComponents decoder.numComponents).foldl (addScanComponent id.toNat tables.toNat)
      decoder

/-- The end of a scan header. -/
def readBand (segment : Bytes) (tail : ℕ) (scan : Scan) : Checked Scan :=
  if tail + 2 < segment.length then do
    let specStart ← item segment tail
    let specEnd ← item segment (tail + 1)
    let succ ← item segment (tail + 2)
    return { scan with
      specStart := specStart.toNat
      specEnd := specEnd.toNat
      succHigh := succ.toNat / 16
      succLow := succ.toNat % 16 }
  else return { scan with specStart := 0, specEnd := 63, succHigh := 0, succLow := 0 }

/-- A SOS segment, up to the entropy-coded data. -/
def readScanHeader (segment : Bytes) (decoder : Decoder) : Checked Decoder :=
  if segment.length < 1 then .error .failed
  else do
    let count ← item segment 0
    let decoder ← (List.range count.toNat).foldlM (readScanComponent segment)
      { decoder with scan := { decoder.scan with components := [] } }
    let scan ← readBand segment (1 + count.toNat * 2) decoder.scan
    if scan.components = [] then .error .failed else return { decoder with scan := scan }

/-! ## Tables -/

section Tables

variable {P : Prop} {segment : Bytes}

theorem meets_byte (i : ℕ) :
    Meets (fun stop => stop = .outOfBounds ∧ segment.length ≤ i)
      ((item segment i).map (·.toNat)) fun _ => i < segment.length := by
  rw [item]
  cases hget : segment[i]? with
  | none => exact ⟨rfl, List.getElem?_eq_none_iff.mp hget⟩
  | some b => exact (List.getElem?_eq_some_iff.mp hget).1

theorem meets_number (i : ℕ) :
    Meets (fun stop => stop = .outOfBounds ∧ segment.length ≤ i + 1)
      (number segment i) fun _ => i + 1 < segment.length := by
  rw [number, item, item]
  cases hhigh : segment[i]? with
  | none => exact ⟨rfl, (List.getElem?_eq_none_iff.mp hhigh).trans (Nat.le_succ i)⟩
  | some high =>
    cases hlow : segment[i + 1]? with
    | none => exact ⟨rfl, List.getElem?_eq_none_iff.mp hlow⟩
    | some low => exact (List.getElem?_eq_some_iff.mp hlow).1

theorem safeIf_byte {i : ℕ} (h : P → i < segment.length) :
    SafeIf P ((item segment i).map (·.toNat)) fun _ => True := by
  refine ((meets_byte i).imp ?_).mono fun _ _ => trivial
  exact fun _ hstop _ hP => Nat.not_lt.mpr hstop.2 (h hP)

theorem safeIf_number {i : ℕ} (h : P → i + 1 < segment.length) :
    SafeIf P (number segment i) fun _ => True := by
  refine ((meets_number i).imp ?_).mono fun _ _ => trivial
  exact fun _ hstop _ hP => Nat.not_lt.mpr hstop.2 (h hP)

/-- A number of a table is read if the table lies in the segment; and the last one only then. -/
theorem meets_entry (offset pq : ℕ) {i : ℕ} (hi : i < 64) :
    Meets (fun stop => stop = .outOfBounds ∧ ¬ offset + tableLength pq ≤ segment.length)
      (if pq = 0 then (item segment (offset + i)).map (·.toNat)
        else number segment (offset + 2 * i))
      fun _ => i = 63 → offset + tableLength pq ≤ segment.length := by
  rw [tableLength]
  by_cases hpq : pq = 0
  · rw [if_pos hpq, if_pos hpq]
    refine ((meets_byte (offset + i)).imp ?_).mono ?_
    · rintro stop ⟨rfl, hle⟩
      exact ⟨rfl, by omega⟩
    · intro _ hlt hlast
      omega
  · rw [if_neg hpq, if_neg hpq]
    refine ((meets_number (offset + 2 * i)).imp ?_).mono ?_
    · rintro stop ⟨rfl, hle⟩
      exact ⟨rfl, by omega⟩
    · intro _ hlt hlast
      omega

theorem meets_readQuantTable (offset pq : ℕ) (table : Vector ℕ 64) :
    Meets (fun stop => stop = .outOfBounds ∧ ¬ offset + tableLength pq ≤ segment.length)
      (readQuantTable segment offset pq table)
      fun _ => offset + tableLength pq ≤ segment.length := by
  have hround (i : ℕ) (hi : i < 64) (table : Vector ℕ 64) :
      Meets (fun stop => stop = .outOfBounds ∧ ¬ offset + tableLength pq ≤ segment.length)
        (do
          let value ←
            (if pq = 0 then (item segment (offset + i)).map (·.toNat)
              else number segment (offset + 2 * i))
          let z ← slot kZigZag i
          if h : z < 64 then return table.set z value h else .error .outOfBounds)
        fun _ => i = 63 → offset + tableLength pq ≤ segment.length := by
    refine (meets_entry offset pq hi).bind fun value hlast => ?_
    rw [slot, dif_pos hi]
    show Meets _ (dite _ _ _) _
    rw [dif_pos (kZigZag_lt ⟨i, hi⟩)]
    exact meets_pure hlast
  rw [readQuantTable, List.range_succ, List.foldlM_append]
  refine (Meets.foldlM (fun table i hi (_ : True) => ?_) trivial).bind
    fun table _ => ?_
  · exact (hround i (Nat.lt_succ_of_lt (List.mem_range.mp hi)) table).mono fun _ _ => trivial
  · rw [List.foldlM_cons]
    exact (hround 63 (Nat.lt_succ_self 63) table).bind fun _ hlast => meets_pure (hlast rfl)

/-- The tables of a DQT segment lie in it, from `offset` on, up to one with a wrong number. -/
def tablesFit (segment : Bytes) (offset : ℕ) : Bool :=
  match _ : segment[offset]? with
  | none => true
  | some head =>
    let behind := offset + 1 + tableLength (head.toNat / 16)
    4 ≤ head.toNat % 16 || (behind ≤ segment.length && tablesFit segment behind)
termination_by segment.length - offset
decreasing_by
  have hlt := (List.getElem?_eq_some_iff.mp ‹segment[offset]? = some head›).1
  omega

/-- **Reading a DQT segment.**  It is read beyond its end exactly if its tables do not lie in
it. -/
theorem meets_readQuant (quant : Vector (Vector ℕ 64) 4) (offset : ℕ) :
    Meets (fun stop => stop = .outOfBounds ↔ tablesFit segment offset = false)
      (readQuant segment quant offset) fun _ => tablesFit segment offset = true := by
  induction quant, offset using readQuant.induct segment with
  | case1 quant offset hlt ih =>
    obtain ⟨head, hhead⟩ : ∃ head, segment[offset]? = some head :=
      ⟨_, List.getElem?_eq_getElem hlt⟩
    have hfit : tablesFit segment offset = (decide (4 ≤ head.toNat % 16) ||
        (decide (offset + 1 + tableLength (head.toNat / 16) ≤ segment.length) &&
          tablesFit segment (offset + 1 + tableLength (head.toNat / 16)))) := by
      rw [tablesFit, hhead]
    rw [readQuant, if_pos hlt, item, hhead]
    show Meets _ (dite _ _ _) _
    by_cases htq : head.toNat % 16 < 4
    · rw [decide_eq_false (Nat.not_le.mpr htq), Bool.false_or] at hfit
      rw [dif_pos htq, hfit]
      refine ((meets_readQuantTable _ _ _).imp ?_).bind fun table hin => ?_
      · rintro stop ⟨rfl, hout⟩
        rw [decide_eq_false hout, Bool.false_and]
        exact ⟨fun _ => rfl, fun _ => rfl⟩
      · rw [decide_eq_true hin, Bool.true_and]
        exact ih head htq table
    · rw [decide_eq_true (Nat.not_lt.mp htq), Bool.true_or] at hfit
      rw [dif_neg htq, hfit]
      exact meets_error ⟨(by rintro ⟨⟩), (by rintro ⟨⟩)⟩
  | case2 quant offset hle =>
    rw [readQuant, if_neg hle]
    have hnone := List.getElem?_eq_none_iff.mpr (Nat.not_lt.mp hle)
    refine meets_pure ?_
    rw [tablesFit, hnone]

/-- **Reading a DHT segment.**  It is not read beyond its end. -/
theorem safeIf_readHuffman (decoder : Decoder) (offset : ℕ) :
    SafeIf P (readHuffman segment decoder offset) fun decoder' =>
      decoder'.reader = decoder.reader ∧ decoder'.frame = decoder.frame := by
  induction decoder, offset using readHuffman.induct segment with
  | case1 decoder offset hlt ih =>
    rw [readHuffman, if_pos hlt]
    refine (safeIf_item segment fun _ => hlt).bind fun head _ => ?_
    dsimp only
    split
    · rename_i hcounts
      refine (meets_mapM (p := fun _ => True) fun i hi => ?_).bind fun counts _ => ?_
      · refine safeIf_byte fun _ => ?_
        have hi := List.mem_range.mp hi
        omega
      · refine meets_ite (fun _ => safeIf_failed) fun hvalues => ?_
        refine (ih head hcounts counts hvalues).mono ?_
        rintro decoder' ⟨hreader, hframe⟩
        rw [hreader, hframe]
        split
        · exact ⟨rfl, rfl⟩
        · exact ⟨rfl, rfl⟩
    · exact safeIf_failed
  | case2 decoder offset hle =>
    rw [readHuffman, if_neg hle]
    exact meets_pure ⟨rfl, rfl⟩

end Tables

/-! ## Frames -/

/-- The sampling factors of a frame are positive, and there are no samples yet. -/
structure Frame.Valid (frame : Frame) : Prop where
  maxH_pos : 0 < frame.maxH
  maxV_pos : 0 < frame.maxV
  factors_pos (c : Fin 4) : 0 < (frame.size c).h ∧ 0 < (frame.size c).v
  plane_eq (c : Fin 4) : (frame.size c).plane = []

/-- There is a picture, and every component has a block. -/
structure Frame.Ready (frame : Frame) : Prop where
  width_pos : 0 < frame.width
  height_pos : 0 < frame.height
  numComponents_pos : 0 < frame.numComponents
  numComponents_le : frame.numComponents ≤ 4
  blocks_pos (c : Fin 4) :
    c < frame.numComponents → 0 < (frame.size c).blocksW ∧ 0 < (frame.size c).blocksH

section Frames

variable {P : Prop} {segment : Bytes}

theorem safeIf_readComponent (decoder : Decoder) (c : Fin 4) :
    SafeIf P (readComponent segment decoder c) fun decoder' =>
      (decoder.frame.Valid → decoder'.frame.Valid) ∧ decoder'.reader = decoder.reader ∧
        decoder'.width = decoder.width ∧ decoder'.height = decoder.height ∧
          decoder'.numComponents = decoder.numComponents := by
  rw [readComponent]
  refine meets_ite (fun _ => safeIf_failed) fun hlen => ?_
  refine (safeIf_item segment fun _ => by omega).bind fun id _ => ?_
  refine (safeIf_item segment fun _ => by omega).bind fun factors _ => ?_
  refine (safeIf_item segment fun _ => by omega).bind fun quantId _ => ?_
  dsimp only
  refine meets_ite (fun _ => safeIf_failed) fun hfactors => ?_
  refine meets_pure ⟨fun hvalid => ⟨?_, ?_, ?_, ?_⟩, rfl, rfl, rfl, rfl⟩
  · exact hvalid.maxH_pos.trans_le (le_max_left _ _)
  · exact hvalid.maxV_pos.trans_le (le_max_left _ _)
  · intro c'
    show 0 < ((decoder.comp.set c _ c.isLt).get c').h ∧ 0 < ((decoder.comp.set c _ c.isLt).get c').v
    rw [get_set]
    split
    · dsimp only
      omega
    · exact hvalid.factors_pos c'
  · intro c'
    show ((decoder.comp.set c _ c.isLt).get c').plane = []
    rw [get_set]
    split
    · exact hvalid.plane_eq c
    · exact hvalid.plane_eq c'

/-- The blocks of a component, for its part of the picture. -/
theorem mcus_pos {width maxH : ℕ} (hwidth : 0 < width) (hmaxH : 0 < maxH) :
    0 < (width + 8 * maxH - 1) / (8 * maxH) :=
  Nat.div_pos (by omega) (by omega)

/-- **Reading a SOF segment.**  It is not read beyond its end, and the frame it makes is ready. -/
theorem safeIf_readFrame (decoder : Decoder) :
    SafeIf P (readFrame segment decoder) fun decoder' =>
      decoder'.reader = decoder.reader ∧
        (decoder.frame.Valid → decoder'.frame.Valid ∧ decoder'.frame.Ready) := by
  rw [readFrame]
  refine meets_ite (fun _ => safeIf_failed) fun hlen => ?_
  refine (safeIf_item segment fun _ => by omega).bind fun precision _ => ?_
  refine meets_ite (fun _ => safeIf_failed) fun _ => ?_
  refine (safeIf_number fun _ => by omega).bind fun height _ => ?_
  refine (safeIf_number fun _ => by omega).bind fun width _ => ?_
  refine (safeIf_item segment fun _ => by omega).bind fun count _ => ?_
  dsimp only
  refine meets_ite (fun _ => safeIf_failed) fun hframe => ?_
  obtain ⟨hwidth, hheight, hpos, hle⟩ : 0 < width ∧ 0 < height ∧ 0 < count.toNat ∧
      count.toNat ≤ 4 := by omega
  have hcomponents : SafeIf P ((frameComponents count.toNat).foldlM (readComponent segment)
      { decoder with width := width, height := height, numComponents := count.toNat })
      fun decoder' => (decoder.frame.Valid → decoder'.frame.Valid) ∧
        decoder'.reader = decoder.reader ∧ decoder'.width = width ∧
          decoder'.height = height ∧ decoder'.numComponents = count.toNat := by
    refine Meets.foldlM (fun d c _ hd => ?_) ?_
    · refine (safeIf_readComponent d c).mono ?_
      rintro d' ⟨hvalid', hreader, hw, hh, hn⟩
      exact ⟨fun h => hvalid' (hd.1 h), hreader.trans hd.2.1, hw.trans hd.2.2.1, hh.trans hd.2.2.2.1,
        hn.trans hd.2.2.2.2⟩
    · exact ⟨fun h => ⟨h.1, h.2, h.3, h.4⟩, rfl, rfl, rfl, rfl⟩
  refine hcomponents.bind ?_
  rintro d ⟨hvalid', hreader, hw, hh, hn⟩
  refine meets_pure ⟨hreader, fun hvalid => ?_⟩
  have hvalid' := hvalid' hvalid
  refine ⟨⟨hvalid'.1, hvalid'.2, fun c => ?_, fun c => ?_⟩, ?_⟩
  · simp only [Decoder.frame, get_mapIdx]
    split
    · exact hvalid'.3 c
    · exact hvalid'.3 c
  · simp only [Decoder.frame, get_mapIdx]
    split
    · exact hvalid'.4 c
    · exact hvalid'.4 c
  · refine ⟨?_, ?_, ?_, ?_, fun c hc => ?_⟩
    · exact hw.symm ▸ hwidth
    · exact hh.symm ▸ hheight
    · exact hn.symm ▸ hpos
    · exact hn.symm ▸ hle
    · simp only [Decoder.frame, get_mapIdx]
      rw [if_pos (hn ▸ hc)]
      exact ⟨Nat.mul_pos (mcus_pos hwidth hvalid'.1) (hvalid'.3 c).1,
        Nat.mul_pos (mcus_pos hheight hvalid'.2) (hvalid'.3 c).2⟩

theorem frame_addScanComponent (id tables : ℕ) (decoder : Decoder) (c : Fin 4) :
    (addScanComponent id tables decoder c).frame = decoder.frame := by
  rw [addScanComponent]
  split
  · rw [Decoder.frame, Decoder.frame, Frame.mk.injEq]
    refine ⟨rfl, rfl, rfl, rfl, rfl, funext fun c' => ?_⟩
    dsimp only
    rw [get_set]
    split
    · rename_i heq
      rw [← heq]
      rfl
    · rfl
  · rfl

theorem reader_addScanComponent (id tables : ℕ) (decoder : Decoder) (c : Fin 4) :
    (addScanComponent id tables decoder c).reader = decoder.reader := by
  rw [addScanComponent]
  split
  · rfl
  · rfl

theorem safeIf_readScanComponent (decoder : Decoder) (i : ℕ) :
    SafeIf P (readScanComponent segment decoder i) fun decoder' =>
      decoder'.reader = decoder.reader ∧ decoder'.frame = decoder.frame := by
  rw [readScanComponent]
  refine meets_ite (fun _ => safeIf_failed) fun hlen => ?_
  refine (safeIf_item segment fun _ => by omega).bind fun id _ => ?_
  refine (safeIf_item segment fun _ => by omega).bind fun tables _ => meets_pure ?_
  refine List.foldlRecOn (motive := fun decoder' : Decoder =>
    decoder'.reader = decoder.reader ∧ decoder'.frame = decoder.frame) _ _ ⟨rfl, rfl⟩ ?_
  rintro d ⟨hreader, hframe⟩ c -
  exact ⟨(reader_addScanComponent _ _ d c).trans hreader,
    (frame_addScanComponent _ _ d c).trans hframe⟩

theorem safeIf_readBand (tail : ℕ) (scan : Scan) :
    SafeIf P (readBand segment tail scan) fun _ => True := by
  rw [readBand]
  refine meets_ite (fun hlen => ?_) fun _ => meets_pure trivial
  refine (safeIf_item segment fun _ => by omega).bind fun specStart _ => ?_
  refine (safeIf_item segment fun _ => by omega).bind fun specEnd _ => ?_
  exact (safeIf_item segment fun _ => hlen).bind fun succ _ => meets_pure trivial

/-- **Reading a SOS segment.**  It is not read beyond its end. -/
theorem safeIf_readScanHeader (decoder : Decoder) :
    SafeIf P (readScanHeader segment decoder) fun decoder' =>
      decoder'.reader = decoder.reader ∧ decoder'.frame = decoder.frame := by
  rw [readScanHeader]
  refine meets_ite (fun _ => safeIf_failed) fun hlen => ?_
  refine (safeIf_item segment fun _ => by omega).bind fun count _ => ?_
  have hcomponents : SafeIf P ((List.range count.toNat).foldlM (readScanComponent segment)
      { decoder with scan := { decoder.scan with components := [] } })
      fun decoder' => decoder'.reader = decoder.reader ∧ decoder'.frame = decoder.frame := by
    refine Meets.foldlM (fun d i _ hd => ?_) (And.intro rfl rfl)
    exact (safeIf_readScanComponent d i).mono fun d' hd' =>
      ⟨hd'.1.trans hd.1, hd'.2.trans hd.2⟩
  refine hcomponents.bind fun d hd => (safeIf_readBand _ _).bind fun scan _ => ?_
  exact meets_ite (fun _ => safeIf_failed) fun _ => meets_pure hd

end Frames

end Aetheris.Jpeg
