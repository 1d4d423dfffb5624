import Aetheris.Jpeg.Decoder

/-!
# The accesses of the JPEG decoder

The decoder checks the lengths of its segments, except the length of a DQT segment; and it does
not check the numbers of tables, the end of the band of a scan, nor that there is a third
component.  What is not checked is a condition on the state in front of a round: `quantFits` for the
tables, `scanFits` for a scan that is begun, `pictureFits` for the picture behind the last round.
The invariant `Progress.Valid` leaves no other way out of an array, and so all accesses are in their
arrays and segments exactly if the states that the loop comes to, its `rounds`, meet the conditions
(`decodeJpeg_inBounds_iff`).

The same invariant says that every picture that is decoded is whole.  For this the file is read as
the program reads it, with the tables that leave their segment (`decodeJpegOn`).
-/

namespace Aetheris.Jpeg

open Aetheris.Computation

/-! ## The rounds of the loop -/

/-- The states that the loop comes to from a state on. -/
def roundsFrom (data : Bytes) (p : Progress) : List Progress :=
  match _ : markerStep data p with
  | .ok (some p') => p :: roundsFrom data p'
  | _ => [p]
termination_by data.length - p.decoder.reader.pos
decreasing_by
  have hpos := pos_lt_of_markerStep ‹markerStep data p = .ok (some p')›
  omega

theorem mem_roundsFrom_self (data : Bytes) (p : Progress) : p ∈ roundsFrom data p := by
  rw [roundsFrom]
  split
  · exact List.mem_cons_self
  · exact List.mem_singleton_self p

/-- The states that the loop comes to. -/
def rounds (data : Bytes) : List Progress := if isJpeg data then roundsFrom data .start else []

/-- The tables of a DQT segment lie in it. -/
def quantFits (data : Bytes) (p : Progress) : Bool :=
  match nextSegment data p.decoder.reader.pos with
  | .segment marker segment _ => marker != 0xdb || tablesFit segment 0
  | _ => true

/-- A scan that is begun has its tables, and its band is in a block. -/
def scanFits (data : Bytes) (p : Progress) : Bool :=
  match nextSegment data p.decoder.reader.pos with
  | .segment marker segment pos =>
    marker != 0xda || !p.tablesReady ||
      match readScanHeader segment (p.atPos pos).decoder with
      | .ok decoder => ScanFits decoder
      | .error _ => true
  | _ => true

/-- A picture that is made has tables for its components, and their number is not two. -/
def pictureFits (data : Bytes) (p : Progress) : Bool :=
  match nextSegment data p.decoder.reader.pos with
  | .stop => !p.sawScan || p.decoder.frame.Fits
  | _ => true

/-! ## One round -/

section Rounds

variable {data : Bytes} {p : Progress}

theorem tablesFit_of_quantFits {segment : Bytes} {pos : ℕ} (hfit : quantFits data p = true)
    (h : nextSegment data p.decoder.reader.pos = .segment 0xdb segment pos) :
    tablesFit segment 0 = true := by
  rw [quantFits, h] at hfit
  exact hfit

theorem scanFits_of_header {segment : Bytes} {pos : ℕ} {decoder : Decoder}
    (hfit : scanFits data p = true) (hready : p.tablesReady = true)
    (h : nextSegment data p.decoder.reader.pos = .segment 0xda segment pos)
    (hheader : readScanHeader segment (p.atPos pos).decoder = .ok decoder) : ScanFits decoder := by
  rw [scanFits, h] at hfit
  dsimp only at hfit
  rw [hready, hheader] at hfit
  exact of_decide_eq_true hfit

/-- A DQT segment with a table that does not lie in it is read beyond its end. -/
theorem markerStep_of_not_quantFits (hfit : quantFits data p = false) :
    markerStep data p = .error .outOfBounds := by
  rw [quantFits] at hfit
  split at hfit
  · rename_i marker segment pos hfound
    obtain ⟨hmarker, htables⟩ := Bool.or_eq_false_iff.mp hfit
    obtain rfl : marker = 0xdb := by simpa using hmarker
    have hread : Meets _ (readQuant segment (p.atPos pos).decoder.quant 0) _ := meets_readQuant _ 0
    rw [markerStep, hfound]
    show (readSegment data 0xdb segment (p.atPos pos)).map some = _
    rw [readSegment, if_pos rfl]
    cases hquant : readQuant segment (p.atPos pos).decoder.quant 0 with
    | error stop =>
      rw [(hread.of_eq_error hquant).mpr htables]
      rfl
    | ok quant => exact absurd ((hread.of_eq_ok hquant).symm.trans htables) Bool.false_ne_true.symm
  · exact absurd hfit Bool.false_ne_true.symm

/-- A round is without a wrong access exactly if its tables fit. -/
theorem markerStep_ne_outOfBounds_iff (hscan : scanFits data p = true) :
    markerStep data p ≠ .error .outOfBounds ↔ quantFits data p = true := by
  constructor
  · intro h
    by_contra hfit
    exact h (markerStep_of_not_quantFits (Bool.eq_false_iff.mpr hfit))
  · intro hfit
    have hstep : SafeIf True (markerStep data p) _ := safeIf_markerStep
      (fun _ _ _ hfound => tablesFit_of_quantFits hfit hfound)
      (fun _ hready _ _ _ hfound => scanFits_of_header hscan hready hfound)
    exact hstep.ne_error fun h => h rfl trivial

theorem error_ne_outOfBounds_iff {α : Type} {stop : Stop} :
    (Except.error stop : Checked α) ≠ .error .outOfBounds ↔ stop ≠ .outOfBounds :=
  ⟨fun h heq => h (congrArg Except.error heq), fun h heq => h (Except.error.inj heq)⟩

/-- The loop is left where there is no segment. -/
theorem nextSegment_of_markerStep (h : markerStep data p = .ok none) :
    nextSegment data p.decoder.reader.pos = .stop := by
  rw [markerStep] at h
  split at h
  · assumption
  · cases h
  · cases h
  · rename_i marker segment pos _
    cases hread : readSegment data marker segment (p.atPos pos) with
    | error stop => cases hread ▸ h
    | ok p' => cases hread ▸ h

theorem pictureFits_of_ne_stop (h : nextSegment data p.decoder.reader.pos ≠ .stop) :
    pictureFits data p = true := by
  rw [pictureFits]
  split
  · exact absurd ‹_› h
  · rfl

variable {inverse : List (Int16 × ℕ) → ℕ → Byte} {colour : Byte → Byte → Byte → Color}

/-- The picture is made without a wrong access exactly if its frame fits. -/
theorem finish_ne_outOfBounds_iff (hvalid : p.Valid)
    (hstop : nextSegment data p.decoder.reader.pos = .stop) :
    finish inverse colour p ≠ .error .outOfBounds ↔ pictureFits data p = true := by
  rw [finish, pictureFits, hstop]
  cases hsaw : p.sawScan with
  | false => exact ⟨fun _ => rfl, fun _ => nofun⟩
  | true =>
    have hready := hvalid.frame_ready (hvalid.tables_ready hsaw)
    have hpicture := meets_picture inverse colour hvalid.frame_valid hready
    show picture inverse colour p.decoder ≠ _ ↔ decide _ = true
    rw [decide_eq_true_iff]
    constructor
    · intro h
      cases hresult : picture inverse colour p.decoder with
      | error stop => exact absurd ((hpicture.of_eq_error hresult).1 ▸ hresult) h
      | ok image => exact (hpicture.of_eq_ok hresult).1
    · exact fun hfits => hpicture.ne_error fun h => h.2 hfits

/-- **The rounds of the loop, and the picture.** -/
theorem markerLoop_ne_outOfBounds_iff (hvalid : p.Valid)
    (hscans : ∀ q ∈ roundsFrom data p, scanFits data q = true) :
    markerLoop data p >>= finish inverse colour ≠ .error .outOfBounds ↔
      ∀ q ∈ roundsFrom data p, quantFits data q = true ∧ pictureFits data q = true := by
  induction p using markerLoop.induct data with
  | case1 p stop hstep =>
    have hround := markerStep_ne_outOfBounds_iff (hscans p (mem_roundsFrom_self data p))
    have hne : nextSegment data p.decoder.reader.pos ≠ .stop := fun h => by
      rw [markerStep, h] at hstep
      cases hstep
    rw [markerLoop, roundsFrom, hstep]
    dsimp only
    rw [List.forall_mem_singleton, pictureFits_of_ne_stop hne, ← hround, hstep]
    rw [error_ne_outOfBounds_iff]
    exact (error_ne_outOfBounds_iff (α := Image)).trans (and_iff_left rfl).symm
  | case2 p hstep =>
    have hstop := nextSegment_of_markerStep hstep
    have hround := markerStep_ne_outOfBounds_iff (hscans p (mem_roundsFrom_self data p))
    rw [markerLoop, roundsFrom, hstep]
    dsimp only
    rw [List.forall_mem_singleton, ← hround, hstep]
    rw [← finish_ne_outOfBounds_iff hvalid hstop]
    exact (and_iff_right (by rintro ⟨⟩)).symm
  | case3 p p' hstep ih =>
    have hround := markerStep_ne_outOfBounds_iff (hscans p (mem_roundsFrom_self data p))
    have hne : nextSegment data p.decoder.reader.pos ≠ .stop := fun h => by
      rw [markerStep, h] at hstep
      cases hstep
    have hvalid' : p'.Valid :=
      ((safeIf_markerStep (P := False) (by rintro ⟨⟩) (by rintro ⟨⟩)).of_eq_ok hstep p' rfl).1 hvalid
    have hrounds : roundsFrom data p = p :: roundsFrom data p' := by
      rw [roundsFrom, hstep]
    rw [hrounds] at hscans
    rw [markerLoop, hrounds, hstep]
    dsimp only
    rw [ih hvalid' fun q hq => hscans q (List.mem_cons_of_mem p hq), List.forall_mem_cons,
      pictureFits_of_ne_stop hne, ← hround, hstep]
    exact (and_iff_right ⟨(by rintro ⟨⟩), rfl⟩).symm

theorem valid_start : Progress.start.Valid := by
  have hfactors : ∀ c, 0 < (Progress.start.decoder.frame.size c).h ∧
      0 < (Progress.start.decoder.frame.size c).v := by decide
  have hplane : ∀ c, (Progress.start.decoder.frame.size c).plane = [] := by decide
  exact ⟨⟨by decide, by decide, hfactors, hplane⟩, nofun, nofun⟩

end Rounds

/-- **When the accesses are in their arrays.**  If every scan that is begun fits, no access is
outside an array or a segment exactly if the tables of every DQT segment lie in it and the frame of
a picture that is made fits. -/
theorem decodeJpeg_inBounds_iff (inverse : List (Int16 × ℕ) → ℕ → Byte)
    (colour : Byte → Byte → Byte → Color) (data : Bytes)
    (hscans : ∀ p ∈ rounds data, scanFits data p = true) :
    decodeJpeg inverse colour data ≠ .error .outOfBounds ↔
      ∀ p ∈ rounds data, quantFits data p = true ∧ pictureFits data p = true := by
  rw [decodeJpeg]
  rw [rounds] at hscans ⊢
  cases hjpeg : isJpeg data with
  | false => exact ⟨fun _ p hp => absurd hp List.not_mem_nil, fun _ => nofun⟩
  | true =>
    rw [hjpeg] at hscans
    exact markerLoop_ne_outOfBounds_iff valid_start hscans

/-- The scan of a picture of 8 × 8 pixels fits: it has a frame of one component, a table of each
kind with one code, and one block. -/
theorem decodeJpeg_inBounds_eight :
    decodeJpeg (fun _ _ => 0) (fun _ _ _ => {})
      [0xff, 0xd8, 0xff, 0xc0, 0, 11, 8, 0, 8, 0, 8, 1, 1, 0x11, 0,
        0xff, 0xc4, 0, 20, 0, 1, 0, 0, 0, 0, 0, 0, 0, 0, 0, 0, 0, 0, 0, 0, 0, 0,
        0xff, 0xc4, 0, 20, 0x10, 1, 0, 0, 0, 0, 0, 0, 0, 0, 0, 0, 0, 0, 0, 0, 0, 0,
        0xff, 0xda, 0, 8, 1, 1, 0, 0, 63, 0, 0x3f, 0xff, 0xd9] ≠ .error .outOfBounds := by
  refine (decodeJpeg_inBounds_iff _ _ _ ?_).mpr ?_
  · decide +kernel
  · decide +kernel

/-- A DQT segment of one byte is read beyond its end. -/
theorem decodeJpeg_outOfBounds_shortQuant :
    ¬ ∀ (inverse : List (Int16 × ℕ) → ℕ → Byte) (colour : Byte → Byte → Byte → Color)
      (data : Bytes), decodeJpeg inverse colour data ≠ .error .outOfBounds := by
  intro h
  refine h (fun _ _ => 0) (fun _ _ _ => {}) [0xff, 0xd8, 0xff, 0xdb, 0, 3, 0] ?_
  decide +kernel

/-! ## Reading on behind a segment

The table of a DQT segment that leaves its segment is no end of the program: the segments are parts
of one buffer, the whole file, and the numbers of the table are read from what is behind the segment.
So here only the end of the file ends the reading. -/

/-- The loop over the tables of a DQT segment, in its bytes and those behind it: only the head of a
table must lie in the segment. -/
def readQuantOn (bytes : Bytes) (length : ℕ) (quant : Vector (Vector ℕ 64) 4) (offset : ℕ) :
    Checked (Vector (Vector ℕ 64) 4) :=
  if offset < length then do
    let head ← item bytes offset
    let pq := head.toNat / 16
    let tq := head.toNat % 16
    if h : tq < 4 then do
      let table ← readQuantTable bytes (offset + 1) pq (quant.get ⟨tq, h⟩)
      readQuantOn bytes length (quant.set tq table h) (offset + 1 + tableLength pq)
    else .error .failed
  else return quant
termination_by length - offset

/-- One round of the loop in `decode_jpeg`, with the tables read on. -/
def markerStepOn (data : Bytes) (p : Progress) : Checked (Option Progress) :=
  match nextSegment data p.decoder.reader.pos with
  | .segment marker segment pos =>
    if marker = 0xdb then
      (readQuantOn (segment ++ data.drop pos) segment.length p.decoder.quant 0).map fun quant =>
        let p := p.atPos pos
        some { p with decoder := { p.decoder with quant := quant } }
    else markerStep data p
  | _ => markerStep data p

/-- **One round keeps the invariant**, and goes on in the file. -/
theorem meets_markerStepOn (data : Bytes) (p : Progress) :
    Meets (fun _ => True) (markerStepOn data p) fun result => ∀ p' ∈ result,
      (p.Valid → p'.Valid) ∧ p.decoder.reader.pos < data.length ∧
        p.decoder.reader.pos < p'.decoder.reader.pos := by
  have hstep : Meets (fun _ => True) (markerStep data p) _ :=
    (safeIf_markerStep (P := False) (by rintro ⟨⟩) (by rintro ⟨⟩)).imp fun _ _ => trivial
  have hnext := lt_behind_nextSegment data p.decoder.reader.pos
  rw [markerStepOn]
  split
  · rename_i marker segment pos hfound
    rw [hfound] at hnext
    refine meets_ite (fun _ => ?_) fun _ => hstep
    cases readQuantOn (segment ++ data.drop pos) segment.length p.decoder.quant 0 with
    | error stop => exact meets_error trivial
    | ok quant =>
      refine meets_ok ?_
      rintro p' ⟨⟩
      exact ⟨fun h => ⟨h.1, h.2, h.3⟩, hnext pos rfl⟩
  · exact hstep

/-- The loop in `decode_jpeg`, with the tables read on. -/
def markerLoopOn (data : Bytes) (p : Progress) : Checked Progress :=
  match _ : markerStepOn data p with
  | .error stop => .error stop
  | .ok none => .ok p
  | .ok (some p') => markerLoopOn data p'
termination_by data.length - p.decoder.reader.pos
decreasing_by
  have hpos :=
    ((meets_markerStepOn data p).of_eq_ok ‹markerStepOn data p = .ok (some p')› p' rfl).2
  omega

/-- `decode_jpeg`, with the tables read on. -/
def decodeJpegOn (inverse : List (Int16 × ℕ) → ℕ → Byte) (colour : Byte → Byte → Byte → Color)
    (data : Bytes) : Checked Image :=
  if !isJpeg data then .error .failed
  else markerLoopOn data .start >>= finish inverse colour

/-- The invariant holds where the loop is left. -/
theorem valid_markerLoopOn {data : Bytes} {p : Progress} (hvalid : p.Valid) :
    Meets (fun _ => True) (markerLoopOn data p) Progress.Valid := by
  induction p using markerLoopOn.induct data with
  | case1 p stop hstep =>
    rw [markerLoopOn, hstep]
    exact meets_error trivial
  | case2 p hstep =>
    rw [markerLoopOn, hstep]
    exact meets_ok hvalid
  | case3 p p' hstep ih =>
    rw [markerLoopOn, hstep]
    exact ih (((meets_markerStepOn data p).of_eq_ok hstep p' rfl).1 hvalid)

/-- **Every picture that is decoded is whole**, whatever the segments of the file are. -/
theorem valid_decodeJpegOn (inverse : List (Int16 × ℕ) → ℕ → Byte)
    (colour : Byte → Byte → Byte → Color) (data : Bytes) :
    Meets (fun _ => True) (decodeJpegOn inverse colour data) Image.Valid := by
  rw [decodeJpegOn]
  refine meets_ite (fun _ => meets_error trivial) fun _ => ?_
  refine (valid_markerLoopOn valid_start).bind fun p hvalid => ?_
  refine meets_ite (fun _ => meets_error trivial) fun hsaw => ?_
  have hready := hvalid.frame_ready (hvalid.tables_ready (by simpa using hsaw))
  refine ((meets_picture inverse colour hvalid.frame_valid hready).imp fun _ _ => trivial).mono ?_
  rintro image ⟨-, hwidth, hheight, hlength⟩
  rw [Image.Valid, hwidth, hheight, hlength, Nat.cast_mul]
  exact ⟨Int.natCast_pos.mpr hready.1, Int.natCast_pos.mpr hready.2, rfl⟩

end Aetheris.Jpeg
