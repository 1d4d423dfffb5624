import Aetheris.Jpeg.Block

/-!
# The scans of a JPEG

The state of the decoder of `rendering/jpeg.cpp`, and `decode_scan`, which reads the blocks of the
components that are named in the header of a scan.  Whatever a scan reads, the components keep their
blocks, and the decoder does not go back; so its accesses are in the arrays if its tables and its
band fit when it begins.
-/

namespace Aetheris.Jpeg

open Aetheris.Computation

/-- `Decoder`.  Its fields `progressive`, `mcus_x` and `mcus_y` are read by none of its
functions. -/
structure Decoder where
  reader : Reader := {}
  width : ℕ := 0
  height : ℕ := 0
  numComponents : ℕ := 0
  restartInterval : ℕ := 0
  maxH : ℕ := 1
  maxV : ℕ := 1
  quant : Vector (Vector ℕ 64) 4 := Vector.replicate 4 (Vector.replicate 64 0)
  dcTables : Vector HuffTable 4 := Vector.replicate 4 {}
  acTables : Vector HuffTable 4 := Vector.replicate 4 {}
  comp : Vector Component 4 := Vector.replicate 4 {}
  scan : Scan := {}
  eobRun : Int32 := 0

/-! ## Scans -/

/-- The decoding of one block of a component. -/
def decodeBlock (data : Bytes) (decoder : Decoder) (index : Fin 4) (blockX blockY : ℕ) :
    Checked Decoder := do
  let component := decoder.comp.get index
  let block := (blockY * component.blocksW + blockX) * 64
  let s : BlockState :=
    { reader := decoder.reader, eobRun := decoder.eobRun, component := component }
  let s ←
    (if decoder.scan.specStart = 0 then decodeDc data decoder.scan decoder.dcTables s block
      else pure s)
  let s ←
    (if 0 < decoder.scan.specEnd then decodeAc data decoder.scan decoder.acTables s block
      else pure s)
  return { decoder with
    reader := s.reader
    eobRun := s.eobRun
    comp := decoder.comp.set index s.component (component_lt index) }

/-- The innermost part of `decode_scan`: one block, if there is one. -/
def decodeUnit (data : Bytes) (my mx : ℕ) (index : Fin 4) (vertical horizontal : ℕ)
    (decoder : Decoder) : Checked Decoder :=
  let component := decoder.comp.get index
  let blockX := mx * component.h + horizontal
  let blockY := my * component.v + vertical
  if component.blocksW ≤ blockX ∨ component.blocksH ≤ blockY then .ok decoder
  else decodeBlock data decoder index blockX blockY

/-- What is done at a restart. -/
def restart (data : Bytes) (decoder : Decoder) : Decoder :=
  let pos := decoder.reader.pos
  let isRestart :=
    match data[pos]?, data[pos + 1]? with
    | some b, some marker => b == 0xff && 0xd0 ≤ marker && marker ≤ 0xd7
    | _, _ => false
  { decoder with
    reader := { decoder.reader with pos := if isRestart then pos + 2 else pos, bitCount := 0 }
    comp := decoder.comp.mapIdx fun c component =>
      if c < decoder.numComponents then { component with dcPred := 0 } else component
    eobRun := 0 }

/-- The blocks of one MCU. -/
def decodeMcu (data : Bytes) (my mx : ℕ) (decoder : Decoder) : Checked Decoder :=
  decoder.scan.components.foldlM (fun decoder index =>
    (List.range (decoder.comp.get index).v).foldlM (fun decoder vertical =>
      (List.range (decoder.comp.get index).h).foldlM (fun decoder horizontal =>
        decodeUnit data my mx index vertical horizontal decoder) decoder) decoder) decoder

/-- `decode_scan`. -/
def decodeScan (data : Bytes) (decoder : Decoder) : Checked Decoder :=
  let scanH := decoder.scan.components.foldl (fun h index => max h (decoder.comp.get index).h) 1
  let scanV := decoder.scan.components.foldl (fun v index => max v (decoder.comp.get index).v) 1
  let scanMcusX := (decoder.width + 8 * scanH - 1) / (8 * scanH)
  let scanMcusY := (decoder.height + 8 * scanV - 1) / (8 * scanV)
  let decoder := { decoder with
    reader := { decoder.reader with bitBuffer := 0, bitCount := 0 }
    eobRun := 0 }
  (List.range scanMcusY).foldlM (fun decoder my =>
    (List.range scanMcusX).foldlM (fun decoder mx =>
      let mcuIndex := my * scanMcusX + mx
      decodeMcu data my mx
        (if decoder.restartInterval ≠ 0 ∧ 0 < mcuIndex ∧ mcuIndex % decoder.restartInterval = 0 then
          restart data decoder
        else decoder)) decoder) decoder

/-! ## What a scan leaves as it is -/

theorem get_set {α : Type} {n : ℕ} (xs : Vector α n) (i j : Fin n) (a : α) :
    (xs.set i a i.isLt).get j = if i = j then a else xs.get j := by
  show (xs.set i a i.isLt)[j.1] = _
  rw [Vector.getElem_set]
  by_cases h : i = j
  · rw [if_pos h, if_pos (congrArg Fin.val h)]
  · rw [if_neg h, if_neg fun hval => h (Fin.ext hval)]
    rfl

theorem get_mapIdx {α : Type} {n : ℕ} (xs : Vector α n) (f : ℕ → α → α) (j : Fin n) :
    (xs.mapIdx f).get j = f j (xs.get j) := by
  show (xs.mapIdx f)[j.1] = _
  rw [Vector.getElem_mapIdx]
  rfl

/-- A scan leads from one state of the decoder to the other: it changes the reader, the
end-of-band run and the coefficients. -/
structure Decoder.Leads (d d' : Decoder) : Prop where
  rest : d' = { d with reader := d'.reader, eobRun := d'.eobRun, comp := d'.comp }
  pos_le : d.reader.pos ≤ d'.reader.pos
  shape (c : Fin 4) : (d.comp.get c).SameShape (d'.comp.get c)

theorem Decoder.Leads.refl (d : Decoder) : d.Leads d := ⟨rfl, le_rfl, fun _ => .refl _⟩

theorem Decoder.Leads.trans {d d' d'' : Decoder} (h : d.Leads d') (h' : d'.Leads d'') :
    d.Leads d'' where
  rest := h'.rest.trans (by rw [h.rest])
  pos_le := h.pos_le.trans h'.pos_le
  shape c := (h.shape c).trans (h'.shape c)

theorem Decoder.Leads.scan_eq {d d' : Decoder} (h : d.Leads d') : d'.scan = d.scan := by
  rw [h.rest]

/-- What a frame header says of a component, and its plane, which is empty up to the end. -/
structure Size where
  h : ℕ
  v : ℕ
  quantId : ℕ
  blocksW : ℕ
  blocksH : ℕ
  plane : Bytes

/-- The size of a component. -/
def Component.size (component : Component) : Size :=
  ⟨component.h, component.v, component.quantId, component.blocksW, component.blocksH,
    component.plane⟩

/-- What a frame header says. -/
structure Frame where
  width : ℕ
  height : ℕ
  numComponents : ℕ
  maxH : ℕ
  maxV : ℕ
  size : Fin 4 → Size

/-- The frame of the picture. -/
def Decoder.frame (decoder : Decoder) : Frame :=
  ⟨decoder.width, decoder.height, decoder.numComponents, decoder.maxH, decoder.maxV,
    fun c => (decoder.comp.get c).size⟩

theorem Component.SameShape.size_eq {c c' : Component} (h : c.SameShape c') : c'.size = c.size := by
  rw [Component.size, Component.size, h.h_eq, h.v_eq, h.quantId_eq, h.blocksW_eq, h.blocksH_eq,
    h.plane_eq]

/-- A scan keeps the frame. -/
theorem Decoder.Leads.frame_eq {d d' : Decoder} (h : d.Leads d') : d'.frame = d.frame :=
  calc
    d'.frame = { d.frame with size := fun c => (d'.comp.get c).size } := by
      rw [h.rest]
      rfl
    _ = d.frame := by
      rw [funext fun c => (h.shape c).size_eq]
      rfl

/-- The tables that the scan uses for its components are there, and its band is in a block. -/
def ScanFits (decoder : Decoder) : Prop :=
  ∀ c ∈ decoder.scan.components,
    (decoder.scan.specStart = 0 → decoder.scan.succHigh = 0 → (decoder.comp.get c).dcTable < 4) ∧
      (0 < decoder.scan.specEnd → (decoder.comp.get c).acTable < 4 ∧ decoder.scan.specEnd < 64)

instance (decoder : Decoder) : Decidable (ScanFits decoder) :=
  inferInstanceAs (Decidable (∀ c ∈ decoder.scan.components, _))

theorem ScanFits.of_leads {d d' : Decoder} (hfits : ScanFits d) (h : d.Leads d') :
    ScanFits d' := by
  intro c hc
  rw [h.scan_eq] at hc ⊢
  rw [(h.shape c).dcTable_eq, (h.shape c).acTable_eq]
  exact hfits c hc

/-- A place in rows of the same length. -/
theorem row_lt {width height x y : ℕ} (hx : x < width) (hy : y < height) :
    y * width + x < width * height :=
  calc
    y * width + x < y * width + width := Nat.add_lt_add_left hx _
    _ = width * (y + 1) := by rw [Nat.mul_succ, Nat.mul_comm]
    _ ≤ width * height := Nat.mul_le_mul_left _ hy

/-- A block of the component lies in its coefficients. -/
theorem Component.hasBlock_of_lt (component : Component) {blockX blockY : ℕ}
    (hx : blockX < component.blocksW) (hy : blockY < component.blocksH) :
    component.HasBlock ((blockY * component.blocksW + blockX) * 64) := by
  have hrow := row_lt hx hy
  rw [Component.HasBlock, component.length_coefficients]
  omega

section Steps

variable {P : Prop} {data : Bytes} {my mx : ℕ} {decoder : Decoder}

theorem safeIf_decodeUnit {index : Fin 4} {vertical horizontal : ℕ}
    (hindex : index ∈ decoder.scan.components) (hfits : P → ScanFits decoder) :
    SafeIf P (decodeUnit data my mx index vertical horizontal decoder) decoder.Leads := by
  simp only [decodeUnit, decodeBlock]
  refine meets_ite (fun _ => meets_ok (.refl decoder)) fun hin => ?_
  obtain ⟨hx, hy⟩ := not_or.mp hin
  have hblock := (decoder.comp.get index).hasBlock_of_lt (Nat.not_le.mp hx) (Nat.not_le.mp hy)
  generalize (_ * _ + _) * 64 = block at hblock
  let s : BlockState :=
    { reader := decoder.reader, eobRun := decoder.eobRun, component := decoder.comp.get index }
  have hdc : SafeIf P
      (if decoder.scan.specStart = 0 then decodeDc data decoder.scan decoder.dcTables s block
        else pure s) s.Leads :=
    meets_ite (fun hstart => safeIf_decodeDc (fun hP => (hfits hP index hindex).1 hstart)
      fun _ => hblock) fun _ => meets_pure (.refl s)
  have hac (s' : BlockState) (hs' : s.Leads s') : SafeIf P
      (if 0 < decoder.scan.specEnd then decodeAc data decoder.scan decoder.acTables s' block
        else pure s') s.Leads := by
    refine meets_ite (fun hend => ?_) fun _ => meets_pure hs'
    refine (safeIf_decodeAc (fun hP => ?_) (fun hP => ?_) fun _ => hs'.hasBlock hblock).mono
      fun _ h => hs'.trans h
    · rw [hs'.shape.acTable_eq]
      exact ((hfits hP index hindex).2 hend).1
    · exact ((hfits hP index hindex).2 hend).2
  refine hdc.bind fun s' hs' => (hac s' hs').bind fun s'' hs'' => meets_pure ⟨rfl, hs''.pos_le, ?_⟩
  intro c
  rw [get_set]
  by_cases heq : index = c
  · rw [if_pos heq, ← heq]
    exact hs''.shape
  · rw [if_neg heq]
    exact .refl _

theorem leads_restart (data : Bytes) (decoder : Decoder) :
    decoder.Leads (restart data decoder) where
  rest := rfl
  pos_le := by
    show decoder.reader.pos ≤
      if _ = true then decoder.reader.pos + 2 else decoder.reader.pos
    split_ifs
    · exact Nat.le_add_right _ _
    · exact le_rfl
  shape c := by
    rw [restart, get_mapIdx]
    split
    · exact ⟨rfl, rfl, rfl, rfl, rfl, rfl, rfl, rfl⟩
    · exact .refl _

/-- What is led to by steps from a state that fits is led to, and fits. -/
theorem safeIf_foldlM {α : Type} {f : Decoder → α → Checked Decoder} {xs : List α}
    {decoder' : Decoder} (h : decoder.Leads decoder')
    (hstep : ∀ d, decoder.Leads d → ∀ a ∈ xs, SafeIf P (f d a) d.Leads) :
    SafeIf P (xs.foldlM f decoder') decoder.Leads :=
  Meets.foldlM (fun d a ha hd => (hstep d hd a ha).mono fun _ h => hd.trans h) h

theorem safeIf_decodeMcu (hfits : P → ScanFits decoder) :
    SafeIf P (decodeMcu data my mx decoder) decoder.Leads := by
  refine safeIf_foldlM (.refl decoder) fun d hd index hindex => ?_
  refine safeIf_foldlM (.refl d) fun d' hd' _ _ => ?_
  refine safeIf_foldlM (.refl d') fun d'' hd'' _ _ => ?_
  have hleads := hd.trans (hd'.trans hd'')
  refine safeIf_decodeUnit ?_ fun hP => (hfits hP).of_leads hleads
  rw [hleads.scan_eq]
  exact hindex

/-- **Reading a scan.**  No access is outside an array if the scan fits. -/
theorem safeIf_decodeScan (hfits : P → ScanFits decoder) :
    SafeIf P (decodeScan data decoder) decoder.Leads := by
  rw [decodeScan]
  refine safeIf_foldlM ⟨rfl, le_rfl, fun _ => .refl _⟩ fun d hd my _ => ?_
  refine safeIf_foldlM (.refl d) fun d' hd' mx _ => ?_
  have hleads := hd.trans hd'
  dsimp only
  split
  · have hrestart := leads_restart data d'
    exact Meets.mono (safeIf_decodeMcu fun hP => (hfits hP).of_leads (hleads.trans hrestart))
      fun _ h => hrestart.trans h
  · exact safeIf_decodeMcu fun hP => (hfits hP).of_leads hleads

end Steps

end Aetheris.Jpeg
