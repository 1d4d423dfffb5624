import Aetheris.Jpeg.Picture

/-!
# The JPEG decoder

`decode_jpeg` of `rendering/jpeg.cpp` goes over the marker segments of a file, and makes the samples
and the colours of the picture from the coefficients that its scans give.  What is computed with
`float`s, the inverse transform and the change of colours, is a parameter.

The state of the loop over the segments is a `Progress`, one round is `markerStep`, and
`Progress.Valid` is its invariant: the components have the blocks that the frame says.  A round
keeps it, whatever the segment is (`safeIf_markerStep`).
-/

namespace Aetheris.Jpeg

open Aetheris.Computation

/-! ## The loop over the segments -/

/-- The state of `decode_jpeg` between two segments. -/
structure Progress where
  decoder : Decoder := {}
  sawScan : Bool := false
  tablesReady : Bool := false

/-- The progress at another position. -/
def Progress.atPos (p : Progress) (pos : ℕ) : Progress :=
  { p with decoder := { p.decoder with reader := { p.decoder.reader with pos := pos } } }

/-- What is done with a segment, from the position behind it on. -/
def readSegment (data : Bytes) (marker : Byte) (segment : Bytes) (p : Progress) :
    Checked Progress :=
  if marker = 0xdb then do
    let quant ← readQuant segment p.decoder.quant 0
    return { p with decoder := { p.decoder with quant := quant } }
  else if marker = 0xc0 ∨ marker = 0xc1 ∨ marker = 0xc2 then do
    let decoder ← readFrame segment p.decoder
    return { p with decoder := decoder, tablesReady := true }
  else if marker = 0xc4 then do
    let decoder ← readHuffman segment p.decoder 0
    return { p with decoder := decoder }
  else if marker = 0xdd then
    if segment.length < 2 then .error .failed
    else do
      let interval ← number segment 0
      return { p with decoder := { p.decoder with restartInterval := interval } }
  else if marker = 0xda then
    if !p.tablesReady then .error .failed
    else do
      let decoder ← readScanHeader segment p.decoder
      let decoder ← decodeScan data decoder
      return { p with decoder := decoder, sawScan := true }
  else return p

/-- What the loop finds at its position. -/
inductive Found
  /-- The end of the file or of the image. -/
  | stop
  /-- Nothing to do up to a position. -/
  | skip (pos : ℕ)
  /-- A segment, and the position behind it. -/
  | segment (marker : Byte) (bytes : Bytes) (pos : ℕ)
  /-- A segment that is longer than the file. -/
  | cut
  deriving DecidableEq, Repr

/-- The head of the loop in `decode_jpeg`. -/
def nextSegment (data : Bytes) (pos : ℕ) : Found :=
  match data[pos]?, data[pos + 1]? with
  | some b, some marker =>
    if b ≠ 0xff ∨ marker = 0xff then .skip (pos + 1)
    else if marker = 0xd9 then .stop
    else if marker = 0xd8 ∨ (0xd0 ≤ marker ∧ marker ≤ 0xd7) then .skip (pos + 2)
    else
      match data[pos + 2]?, data[pos + 3]? with
      | some high, some low =>
        let length := high.toNat * 256 + low.toNat
        if length < 2 ∨ data.length < pos + 2 + length then .cut
        else .segment marker ((data.drop (pos + 4)).take (length - 2)) (pos + 2 + length)
      | _, _ => .cut
  | _, _ => .stop

/-- One round of the loop in `decode_jpeg`; `none` where the loop is left. -/
def markerStep (data : Bytes) (p : Progress) : Checked (Option Progress) :=
  match nextSegment data p.decoder.reader.pos with
  | .stop => .ok none
  | .skip pos => .ok (some (p.atPos pos))
  | .cut => .error .failed
  | .segment marker segment pos => (readSegment data marker segment (p.atPos pos)).map some

/-! ## One round of the loop -/

/-- The invariant of the loop. -/
structure Progress.Valid (p : Progress) : Prop where
  frame_valid : p.decoder.frame.Valid
  frame_ready : p.tablesReady = true → p.decoder.frame.Ready
  tables_ready : p.sawScan = true → p.tablesReady = true

section Round

variable {P : Prop} {data : Bytes}

theorem safeIf_readSegment {marker : Byte} {segment : Bytes} {p : Progress}
    (hquant : P → marker = 0xdb → tablesFit segment 0 = true)
    (hscan : P → marker = 0xda → p.tablesReady = true → ∀ decoder,
      readScanHeader segment p.decoder = .ok decoder → ScanFits decoder) :
    SafeIf P (readSegment data marker segment p) fun p' =>
      (p.Valid → p'.Valid) ∧ p.decoder.reader.pos ≤ p'.decoder.reader.pos := by
  rw [readSegment]
  refine meets_ite (fun hmarker => ?_) fun _ => meets_ite (fun _ => ?_) fun _ =>
    meets_ite (fun _ => ?_) fun _ => meets_ite (fun _ => ?_) fun _ =>
      meets_ite (fun hmarker => ?_) fun _ => meets_pure ⟨id, le_rfl⟩
  · have hread : SafeIf P (readQuant segment p.decoder.quant 0) fun _ => True := by
      refine ((meets_readQuant _ _).imp fun stop hiff hstop hP => ?_).mono fun _ _ => trivial
      exact Bool.false_ne_true ((hiff.mp hstop).symm.trans (hquant hP hmarker))
    exact hread.bind fun quant _ => meets_pure ⟨fun h => ⟨h.1, h.2, h.3⟩, le_rfl⟩
  · refine (safeIf_readFrame p.decoder).bind ?_
    rintro decoder ⟨hreader, hframe⟩
    refine meets_pure ⟨fun hvalid => ?_, by rw [hreader]⟩
    obtain ⟨hvalid', hready⟩ := hframe hvalid.frame_valid
    exact ⟨hvalid', fun _ => hready, fun _ => rfl⟩
  · refine (safeIf_readHuffman p.decoder 0).bind ?_
    rintro decoder ⟨hreader, hframe⟩
    refine meets_pure ⟨fun hvalid => ?_, by rw [hreader]⟩
    exact ⟨hframe ▸ hvalid.1, fun h => hframe ▸ hvalid.2 h, hvalid.3⟩
  · refine meets_ite (fun _ => safeIf_failed) fun hlen => ?_
    refine (safeIf_number fun _ => by omega).bind fun interval _ => ?_
    exact meets_pure ⟨fun h => ⟨h.1, h.2, h.3⟩, le_rfl⟩
  · refine meets_ite (fun _ => safeIf_failed) fun hready => ?_
    have hready : p.tablesReady = true := by simpa using hready
    have hheader : SafeIf P (readScanHeader segment p.decoder) _ := safeIf_readScanHeader p.decoder
    cases heq : readScanHeader segment p.decoder with
    | error stop => exact hheader.of_eq_error heq
    | ok decoder =>
      show SafeIf P (decodeScan data decoder >>= _) _
      obtain ⟨hreader, hframe⟩ := hheader.of_eq_ok heq
      refine Meets.bind (safeIf_decodeScan fun hP => hscan hP hmarker hready decoder heq) ?_
      refine fun decoder' hleads => meets_pure ⟨fun hvalid => ?_, hreader ▸ hleads.pos_le⟩
      have hframe' := hleads.frame_eq.trans hframe
      exact ⟨hframe' ▸ hvalid.1, fun h => hframe' ▸ hvalid.2 h, fun _ => hready⟩

/-- The position behind what is found. -/
def Found.behind : Found → Option ℕ
  | .skip pos => some pos
  | .segment _ _ pos => some pos
  | _ => none

theorem lt_behind_nextSegment (data : Bytes) (pos : ℕ) :
    ∀ pos' ∈ (nextSegment data pos).behind, pos < data.length ∧ pos < pos' := by
  rw [nextSegment]
  split
  · rename_i b marker hb _
    have hlt : pos < data.length := (List.getElem?_eq_some_iff.mp hb).1
    split_ifs
    · rintro pos' ⟨⟩
      exact ⟨hlt, Nat.lt_succ_self pos⟩
    · exact nofun
    · rintro pos' ⟨⟩
      exact ⟨hlt, Nat.lt_add_of_pos_right Nat.two_pos⟩
    · split
      · dsimp only
        split_ifs
        · exact nofun
        · rintro pos' ⟨⟩
          exact ⟨hlt, by omega⟩
      · exact nofun
  · exact nofun

/-- **One round of the loop.** -/
theorem safeIf_markerStep {p : Progress}
    (hquant : P → ∀ segment pos, nextSegment data p.decoder.reader.pos = .segment 0xdb segment pos →
      tablesFit segment 0 = true)
    (hscan : P → p.tablesReady = true → ∀ segment pos decoder,
      nextSegment data p.decoder.reader.pos = .segment 0xda segment pos →
        readScanHeader segment (p.atPos pos).decoder = .ok decoder → ScanFits decoder) :
    SafeIf P (markerStep data p) fun result => ∀ p' ∈ result,
      (p.Valid → p'.Valid) ∧ p.decoder.reader.pos < data.length ∧
        p.decoder.reader.pos < p'.decoder.reader.pos := by
  have hnext := lt_behind_nextSegment data p.decoder.reader.pos
  have hat (pos : ℕ) (h : p.Valid) : (p.atPos pos).Valid := ⟨h.1, h.2, h.3⟩
  rw [markerStep]
  cases hfound : nextSegment data p.decoder.reader.pos with
  | stop => exact meets_ok fun p' hp' => nomatch hp'
  | cut => exact safeIf_failed
  | skip pos =>
    rw [hfound] at hnext
    refine meets_ok ?_
    rintro p' ⟨⟩
    exact ⟨hat pos, hnext pos rfl⟩
  | segment marker segment pos =>
    rw [hfound] at hnext
    have hread : SafeIf P (readSegment data marker segment (p.atPos pos)) _ := safeIf_readSegment
      (fun hP hmarker => hquant hP segment pos (hmarker ▸ hfound))
      (fun hP hmarker hready decoder => hscan hP hready segment pos decoder (hmarker ▸ hfound))
    show SafeIf P ((readSegment data marker segment (p.atPos pos)).map some) _
    cases hresult : readSegment data marker segment (p.atPos pos) with
    | error stop => exact hread.of_eq_error hresult
    | ok p' =>
      obtain ⟨hvalid', hle⟩ := hread.of_eq_ok hresult
      refine meets_ok ?_
      rintro p'' ⟨⟩
      exact ⟨fun h => hvalid' (hat pos h), (hnext pos rfl).1, (hnext pos rfl).2.trans_le hle⟩

theorem pos_lt_of_markerStep {p p' : Progress} (h : markerStep data p = .ok (some p')) :
    p.decoder.reader.pos < data.length ∧ p.decoder.reader.pos < p'.decoder.reader.pos :=
  ((safeIf_markerStep (P := False) nofun nofun).of_eq_ok h p' rfl).2

end Round

/-! ## The decoder -/

/-- The loop in `decode_jpeg`. -/
def markerLoop (data : Bytes) (p : Progress) : Checked Progress :=
  match _ : markerStep data p with
  | .error stop => .error stop
  | .ok none => .ok p
  | .ok (some p') => markerLoop data p'
termination_by data.length - p.decoder.reader.pos
decreasing_by
  have hpos := pos_lt_of_markerStep ‹markerStep data p = .ok (some p')›
  omega

/-- `is_jpeg`. -/
def isJpeg (data : Bytes) : Bool := data[0]? == some 0xff && data[1]? == some 0xd8

/-- The state in which the loop is entered. -/
def Progress.start : Progress := { decoder := { reader := { pos := 2 } } }

/-- What is behind the loop. -/
def finish (inverse : List (Int16 × ℕ) → ℕ → Byte) (colour : Byte → Byte → Byte → Color)
    (p : Progress) : Checked Image :=
  if !p.sawScan then .error .failed else picture inverse colour p.decoder

/-- `decode_jpeg`. -/
def decodeJpeg (inverse : List (Int16 × ℕ) → ℕ → Byte) (colour : Byte → Byte → Byte → Color)
    (data : Bytes) : Checked Image :=
  if !isJpeg data then .error .failed
  else markerLoop data .start >>= finish inverse colour

end Aetheris.Jpeg
