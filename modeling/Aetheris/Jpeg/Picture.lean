import Aetheris.Image
import Aetheris.Jpeg.Segments

/-!
# The picture of a JPEG

What `decode_jpeg` of `rendering/jpeg.cpp` does behind its loop: the samples of the components, and
the pixels.  What is computed with `float`s is a parameter: the inverse transform, from the
coefficients of a block and the numbers of its table, and the change of colours.  The accesses are
in the arrays exactly if the frame fits the blocks that its components have.
-/

namespace Aetheris.Jpeg

open Aetheris.Computation

/-- An assignment to an element of a `std::vector`. -/
def write {α : Type} (xs : List α) (i : ℕ) (a : α) : Checked (List α) :=
  if i < xs.length then .ok (xs.set i a) else .error .outOfBounds

section Picture

variable (inverse : List (Int16 × ℕ) → ℕ → Byte) (colour : Byte → Byte → Byte → Color)

/-- The coefficients of a block, each with its number in the table of the component. -/
def dequantize (quant : Vector (Vector ℕ 64) 4) (component : Component) (block : ℕ) :
    Checked (List (Int16 × ℕ)) :=
  (List.range 64).mapM fun i => do
    let coefficient ← component.load block i
    let table ← slot quant component.quantId
    let factor ← slot table i
    return (coefficient, factor)

/-- The samples of one block. -/
def reconstructBlock (quant : Vector (Vector ℕ 64) 4) (component : Component) (plane : Bytes)
    (blockY blockX : ℕ) : Checked Bytes := do
  let values ← dequantize quant component ((blockY * component.blocksW + blockX) * 64)
  (List.range 8).foldlM (fun plane y =>
    (List.range 8).foldlM (fun plane x =>
      write plane ((blockY * 8 + y) * component.planeWidth + (blockX * 8 + x))
        (inverse values (y * 8 + x))) plane) plane

/-- The samples of one component. -/
def reconstructPlane (quant : Vector (Vector ℕ 64) 4) (component : Component) : Checked Bytes :=
  (List.range component.blocksH).foldlM (fun plane blockY =>
    (List.range component.blocksW).foldlM (fun plane blockX =>
      reconstructBlock inverse quant component plane blockY blockX) plane)
    (List.replicate (component.planeWidth * component.planeHeight) 0)

/-- The decoder with a plane of a component. -/
def Decoder.withPlane (decoder : Decoder) (c : Fin 4) (plane : Bytes) : Decoder :=
  { decoder with
    comp := decoder.comp.set c { decoder.comp.get c with plane := plane } (component_lt c) }

/-- The body of the loop in `reconstruct`. -/
def reconstructComponent (decoder : Decoder) (c : Fin 4) : Checked Decoder := do
  let plane ← reconstructPlane inverse decoder.quant (decoder.comp.get c)
  return decoder.withPlane c plane

/-- `reconstruct`. -/
def reconstruct (decoder : Decoder) : Checked Decoder :=
  (frameComponents decoder.numComponents).foldlM (reconstructComponent inverse) decoder

/-- A coordinate in a plane of the given width or height. -/
def clamp (a : ℤ) (size : ℕ) : ℤ := if size ≤ a then (size : ℤ) - 1 else a

/-- `sample`.  The index is of the type `size_t`. -/
def sample (decoder : Decoder) (component : Component) (x y : ℕ) : Checked Byte :=
  let sx := clamp (x * component.h / decoder.maxH) component.planeWidth
  let sy := clamp (y * component.v / decoder.maxV) component.planeHeight
  item component.plane ((sy * component.planeWidth + sx) % 2 ^ 64).toNat

/-- The colour of a pixel. -/
def pixel (decoder : Decoder) (x y : ℕ) : Checked Color :=
  if decoder.numComponents = 1 then do
    let grey ← sample decoder (decoder.comp.get 0) x y
    return { red := grey, green := grey, blue := grey, alpha := 255 }
  else do
    let luminance ← sample decoder (decoder.comp.get 0) x y
    let cb ← sample decoder (decoder.comp.get 1) x y
    let cr ← sample decoder (decoder.comp.get 2) x y
    return colour luminance cb cr

/-- The end of `decode_jpeg`. -/
def picture (decoder : Decoder) : Checked Image := do
  let decoder ← reconstruct inverse decoder
  let pixels ← (List.range decoder.height).foldlM (fun pixels y =>
    (List.range decoder.width).foldlM (fun pixels x => do
      let color ← pixel colour decoder x y
      write pixels (y * decoder.width + x) color) pixels)
    (List.replicate (decoder.width * decoder.height) {})
  return { width := decoder.width, height := decoder.height, pixels := pixels }

end Picture

/-! ## Samples -/

section Samples

variable {inverse : List (Int16 × ℕ) → ℕ → Byte} {quant : Vector (Vector ℕ 64) 4}
  {component : Component}

theorem range_ne_nil {n : ℕ} (hn : 0 < n) : List.range n ≠ [] := fun h =>
  hn.ne' (List.range_eq_nil.mp h)

theorem item_of_lt {α : Type} {xs : List α} {i : ℕ} (h : i < xs.length) :
    item xs i = .ok (xs.get ⟨i, h⟩) := by
  rw [item, List.getElem?_eq_getElem h]
  rfl

theorem meets_write {α : Type} {allowed : Stop → Prop} {xs : List α} {i : ℕ} (a : α)
    (h : i < xs.length) : Meets allowed (write xs i a) fun ys => ys.length = xs.length := by
  rw [write, if_pos h]
  exact meets_ok List.length_set

/-- A block is read exactly if there is a table for the component. -/
theorem meets_dequantize {block : ℕ} (hblock : component.HasBlock block) :
    Meets (fun stop => stop = .outOfBounds ∧ ¬ component.quantId < 4)
      (dequantize quant component block) fun _ => component.quantId < 4 := by
  refine (meets_mapM (p := fun _ => component.quantId < 4) fun i hi => ?_).mono ?_
  · have hi := List.mem_range.mp hi
    rw [Component.load, if_pos hi, item_of_lt ((Nat.add_lt_add_left hi block).trans_le hblock)]
    show Meets _ (slot quant component.quantId >>= _) _
    by_cases hquant : component.quantId < 4
    · rw [slot, dif_pos hquant]
      show Meets _ (slot _ i >>= _) _
      rw [slot, dif_pos hi]
      exact meets_pure hquant
    · rw [slot, dif_neg hquant]
      exact meets_error ⟨rfl, hquant⟩
  · rintro values ⟨hlen, hall⟩
    obtain ⟨value, hvalue⟩ := List.exists_mem_of_ne_nil values (List.ne_nil_of_length_pos
      (hlen.trans_gt (by rw [List.length_range]; decide)))
    exact hall value hvalue

theorem meets_reconstructBlock {plane : Bytes} {blockX blockY : ℕ}
    (hx : blockX < component.blocksW) (hy : blockY < component.blocksH)
    (hplane : plane.length = component.planeWidth * component.planeHeight) :
    Meets (fun stop => stop = .outOfBounds ∧ ¬ component.quantId < 4)
      (reconstructBlock inverse quant component plane blockY blockX)
      fun plane' => plane'.length = component.planeWidth * component.planeHeight ∧
        component.quantId < 4 := by
  refine (meets_dequantize (component.hasBlock_of_lt hx hy)).bind fun values hquant => ?_
  refine Meets.foldlM_of_ne_nil (range_ne_nil (by decide)) (fun plane y hy' hplane => ?_) hplane
  refine Meets.foldlM_of_ne_nil (range_ne_nil (by decide)) (fun plane x hx' hplane => ?_) hplane
  have hx' := List.mem_range.mp hx'
  have hy' := List.mem_range.mp hy'
  have hlt : (blockY * 8 + y) * component.planeWidth + (blockX * 8 + x) <
      component.planeWidth * component.planeHeight :=
    row_lt (by rw [Component.planeWidth]; omega) (by rw [Component.planeHeight]; omega)
  exact (meets_write _ (hplane.symm ▸ hlt)).mono fun _ h => ⟨h.trans hplane, hquant⟩

/-- The plane of a component that has a block is made exactly if there is a table for it. -/
theorem meets_reconstructPlane (hw : 0 < component.blocksW) (hh : 0 < component.blocksH) :
    Meets (fun stop => stop = .outOfBounds ∧ ¬ component.quantId < 4)
      (reconstructPlane inverse quant component)
      fun plane => plane.length = component.planeWidth * component.planeHeight ∧
        component.quantId < 4 := by
  refine Meets.foldlM_of_ne_nil (range_ne_nil hh) (fun plane y hy hplane => ?_) List.length_replicate
  refine Meets.foldlM_of_ne_nil (range_ne_nil hw) (fun plane x hx hplane => ?_) hplane
  exact meets_reconstructBlock (List.mem_range.mp hx) (List.mem_range.mp hy) hplane

end Samples

/-! ## Pixels -/

/-- A size without its plane. -/
def Size.bare (size : Size) : Size := { size with plane := [] }

/-- The plane of a component is there. -/
def Size.Full (size : Size) : Prop :=
  size.plane.length = size.blocksW * 8 * (size.blocksH * 8)

theorem size_withPlane (decoder : Decoder) (c c' : Fin 4) (plane : Bytes) :
    (decoder.withPlane c plane).frame.size c' =
      if c = c' then { decoder.frame.size c with plane := plane } else decoder.frame.size c' := by
  show ((decoder.comp.set c _ c.isLt).get c').size = _
  rw [get_set]
  split
  · rfl
  · rfl

theorem bare_withPlane (decoder : Decoder) (c c' : Fin 4) (plane : Bytes) :
    ((decoder.withPlane c plane).frame.size c').bare = (decoder.frame.size c').bare := by
  rw [size_withPlane]
  split
  · rename_i heq
    rw [heq]
    rfl
  · rfl

section Pixels

variable {inverse : List (Int16 × ℕ) → ℕ → Byte} {colour : Byte → Byte → Byte → Color}
  {decoder : Decoder}

/-- The planes of some components are made one after the other. -/
structure Decoder.Reconstructs (cs : List (Fin 4)) (d d' : Decoder) : Prop where
  rest : d' = { d with comp := d'.comp }
  bare_eq (c : Fin 4) : (d'.frame.size c).bare = (d.frame.size c).bare
  full : ∀ c ∈ cs, (d'.frame.size c).Full ∧ (d.frame.size c).quantId < 4
  size_eq : ∀ c ∉ cs, d'.frame.size c = d.frame.size c

theorem meets_reconstructLoop {cs : List (Fin 4)}
    (hblocks : ∀ c ∈ cs, 0 < (decoder.frame.size c).blocksW ∧ 0 < (decoder.frame.size c).blocksH) :
    Meets (fun stop => stop = .outOfBounds ∧ ∃ c ∈ cs, ¬ (decoder.frame.size c).quantId < 4)
      (cs.foldlM (reconstructComponent inverse) decoder) (decoder.Reconstructs cs) := by
  induction cs generalizing decoder with
  | nil =>
    exact meets_pure ⟨rfl, fun _ => rfl, fun c hc => absurd hc List.not_mem_nil, fun _ _ => rfl⟩
  | cons c cs ih =>
    obtain ⟨hw, hh⟩ := hblocks c List.mem_cons_self
    have hplane : Meets (fun stop => stop = .outOfBounds ∧ ¬ (decoder.comp.get c).quantId < 4)
        (reconstructPlane inverse decoder.quant (decoder.comp.get c)) _ :=
      meets_reconstructPlane hw hh
    have hhead : Meets (fun stop => stop = .outOfBounds ∧
          ∃ c' ∈ c :: cs, ¬ (decoder.frame.size c').quantId < 4)
        (reconstructComponent inverse decoder c) fun d => ∃ plane, d = decoder.withPlane c plane ∧
          ({ decoder.frame.size c with plane := plane } : Size).Full ∧
            (decoder.frame.size c).quantId < 4 := by
      refine (hplane.imp ?_).bind fun plane hfull => meets_pure ⟨plane, rfl, hfull⟩
      rintro stop ⟨rfl, hquant⟩
      exact ⟨rfl, c, List.mem_cons_self, hquant⟩
    rw [List.foldlM_cons]
    refine hhead.bind ?_
    rintro d ⟨plane, rfl, hfull, hquant⟩
    have hbare := fun c' => bare_withPlane decoder c c' plane
    refine ((ih fun c' hc' => ?_).imp ?_).mono fun d' hd' => ⟨hd'.rest, ?_, ?_, ?_⟩
    · have hblocks' := hblocks c' (List.mem_cons_of_mem _ hc')
      exact ⟨(congrArg Size.blocksW (hbare c')).symm ▸ hblocks'.1,
        (congrArg Size.blocksH (hbare c')).symm ▸ hblocks'.2⟩
    · rintro stop ⟨rfl, c', hc', hquant'⟩
      exact ⟨rfl, c', List.mem_cons_of_mem _ hc', (congrArg Size.quantId (hbare c')) ▸ hquant'⟩
    · exact fun c' => (hd'.bare_eq c').trans (hbare c')
    · intro c' hc'
      by_cases hrest : c' ∈ cs
      · exact ⟨(hd'.full c' hrest).1, (congrArg Size.quantId (hbare c')) ▸ (hd'.full c' hrest).2⟩
      · obtain rfl := (List.mem_cons.mp hc').resolve_right hrest
        rw [hd'.size_eq c' hrest, size_withPlane, if_pos rfl]
        exact ⟨hfull, hquant⟩
    · intro c' hc'
      obtain ⟨hne, hrest⟩ := not_or.mp fun h => hc' (List.mem_cons.mpr h)
      rw [hd'.size_eq c' hrest, size_withPlane, if_neg (Ne.symm hne)]

/-- A coordinate of a sample is in its plane. -/
theorem clamp_mem (a : ℤ) {width : ℕ} (ha : 0 ≤ a) (hwidth : 0 < width) :
    0 ≤ clamp a width ∧ clamp a width < width := by
  rw [clamp]
  split
  · omega
  · omega

/-- A component with a block has a sample for every pixel. -/
theorem meets_sample {allowed : Stop → Prop} {c : Fin 4} (x y : ℕ)
    (hw : 0 < (decoder.frame.size c).blocksW) (hh : 0 < (decoder.frame.size c).blocksH)
    (hfull : (decoder.frame.size c).Full) :
    Meets allowed (sample decoder (decoder.comp.get c) x y) fun _ => True := by
  have hpw : 0 < (decoder.comp.get c).planeWidth := Nat.mul_pos hw (by decide)
  have hph : 0 < (decoder.comp.get c).planeHeight := Nat.mul_pos hh (by decide)
  have hpos (a b d : ℕ) : 0 ≤ (a * b / d : ℤ) :=
    Int.ediv_nonneg (Int.mul_nonneg (Int.natCast_nonneg a) (Int.natCast_nonneg b))
      (Int.natCast_nonneg d)
  obtain ⟨hx, hx'⟩ := clamp_mem _ (hpos x (decoder.comp.get c).h decoder.maxH) hpw
  obtain ⟨hy, hy'⟩ := clamp_mem _ (hpos y (decoder.comp.get c).v decoder.maxV) hph
  rw [sample]
  generalize clamp _ (decoder.comp.get c).planeWidth = sx at hx hx' ⊢
  generalize clamp _ (decoder.comp.get c).planeHeight = sy at hy hy' ⊢
  lift sx to ℕ using hx
  lift sy to ℕ using hy
  have hrow := row_lt (Int.ofNat_lt.mp hx') (Int.ofNat_lt.mp hy')
  have hlt : ((sy * (decoder.comp.get c).planeWidth + sx : ℤ) % 2 ^ 64).toNat <
      (decoder.comp.get c).plane.length := by
    refine lt_of_le_of_lt ?_ (hrow.trans_eq hfull.symm)
    have hcast : (sy * (decoder.comp.get c).planeWidth + sx : ℤ) =
        ((sy * (decoder.comp.get c).planeWidth + sx : ℕ) : ℤ) := by
      rw [Int.natCast_add, Int.natCast_mul]
    rw [hcast]
    omega
  rw [item_of_lt hlt]
  exact meets_ok trivial

/-- There is a pixel exactly if the picture does not have two components. -/
theorem meets_pixel (x y : ℕ) (hready : decoder.frame.Ready)
    (hfull : ∀ c : Fin 4, c < decoder.numComponents → (decoder.frame.size c).Full)
    (hplane : decoder.numComponents = 2 → (decoder.frame.size 2).plane = []) :
    Meets (fun stop => stop = .outOfBounds ∧ ¬ decoder.numComponents ≠ 2)
      (pixel colour decoder x y) fun _ => decoder.numComponents ≠ 2 := by
  have hsample {allowed : Stop → Prop} (c : Fin 4) (hc : c < decoder.numComponents) :
      Meets allowed (sample decoder (decoder.comp.get c) x y) fun _ => True :=
    meets_sample x y (hready.blocks_pos c hc).1 (hready.blocks_pos c hc).2 (hfull c hc)
  have hpos : 0 < decoder.numComponents := hready.numComponents_pos
  rw [pixel]
  refine meets_ite (fun hone => ?_) fun hone => ?_
  · exact (hsample 0 hpos).bind fun grey _ => meets_pure (by omega)
  · refine (hsample 0 hpos).bind fun luminance _ => ?_
    refine (hsample 1 (by show 1 < _; omega)).bind fun cb _ => ?_
    by_cases htwo : decoder.numComponents = 2
    · have hnone : sample decoder (decoder.comp.get 2) x y = .error .outOfBounds := by
        have hempty : (decoder.comp.get 2).plane = [] := hplane htwo
        rw [sample, hempty]
        rfl
      rw [hnone]
      exact meets_error ⟨rfl, not_not.mpr htwo⟩
    · exact (hsample 2 (by show 2 < _; omega)).bind fun cr _ => meets_pure htwo

end Pixels

/-- The frame is one that the picture can be made from: there are tables for its components, and
their number is not two. -/
structure Frame.Fits (frame : Frame) : Prop where
  numComponents_ne : frame.numComponents ≠ 2
  quantId_lt (c : Fin 4) : c < frame.numComponents → (frame.size c).quantId < 4

instance (frame : Frame) : Decidable frame.Fits :=
  decidable_of_iff (frame.numComponents ≠ 2 ∧
      ∀ c : Fin 4, c < frame.numComponents → (frame.size c).quantId < 4)
    ⟨fun h => ⟨h.1, h.2⟩, fun h => ⟨h.1, h.2⟩⟩

theorem mem_frameComponents {numComponents : ℕ} {c : Fin 4} :
    c ∈ frameComponents numComponents ↔ c < numComponents := by
  rw [frameComponents, List.mem_filter, decide_eq_true_iff]
  exact and_iff_right (List.mem_finRange c)

/-- **The end of the decoder.**  It has its accesses in the arrays exactly if the frame fits, and
then every pixel is there. -/
theorem meets_picture (inverse : List (Int16 × ℕ) → ℕ → Byte)
    (colour : Byte → Byte → Byte → Color) {decoder : Decoder} (hvalid : decoder.frame.Valid)
    (hready : decoder.frame.Ready) :
    Meets (fun stop => stop = .outOfBounds ∧ ¬ decoder.frame.Fits)
      (picture inverse colour decoder) fun image => decoder.frame.Fits ∧
        image.width = decoder.width ∧ image.height = decoder.height ∧
          image.pixels.length = decoder.width * decoder.height := by
  rw [picture]
  refine Meets.bind (Meets.imp (meets_reconstructLoop fun c hc =>
    hready.blocks_pos c (mem_frameComponents.mp hc)) ?_) fun d hd => ?_
  · rintro stop ⟨rfl, c, hc, hquant⟩
    exact ⟨rfl, fun hfits => hquant (hfits.quantId_lt c (mem_frameComponents.mp hc))⟩
  have hnum : d.frame.numComponents = decoder.frame.numComponents := by
    rw [hd.rest]
    rfl
  have hwidth : d.frame.width = decoder.frame.width := by
    rw [hd.rest]
    rfl
  have hheight : d.frame.height = decoder.frame.height := by
    rw [hd.rest]
    rfl
  have hready' : d.frame.Ready := by
    refine ⟨hwidth ▸ hready.1, hheight ▸ hready.2, hnum ▸ hready.3, hnum ▸ hready.4, ?_⟩
    intro c hc
    have hblocks := hready.blocks_pos c (hnum ▸ hc)
    exact ⟨(congrArg Size.blocksW (hd.bare_eq c)).symm ▸ hblocks.1,
      (congrArg Size.blocksH (hd.bare_eq c)).symm ▸ hblocks.2⟩
  have hfull (c : Fin 4) (hc : c < d.frame.numComponents) : (d.frame.size c).Full :=
    (hd.full c (mem_frameComponents.mpr (hc.trans_eq hnum))).1
  have hplane (htwo : d.frame.numComponents = 2) : (d.frame.size 2).plane = [] := by
    rw [hd.size_eq 2 fun hmem => ?_, hvalid.plane_eq]
    have hlt := mem_frameComponents.mp hmem
    exact Nat.lt_irrefl 2 (hlt.trans_eq (hnum.symm.trans htwo))
  have hpixels : Meets (fun stop => stop = .outOfBounds ∧ ¬ decoder.frame.Fits)
      ((List.range d.height).foldlM (fun pixels y =>
        (List.range d.width).foldlM (fun pixels x => do
          let color ← pixel colour d x y
          write pixels (y * d.width + x) color) pixels)
        (List.replicate (d.width * d.height) {}))
      fun pixels => pixels.length = d.frame.width * d.frame.height ∧
        d.frame.numComponents ≠ 2 := by
    refine Meets.foldlM_of_ne_nil (range_ne_nil hready'.height_pos) (fun pixels y hy hlen => ?_)
      List.length_replicate
    refine Meets.foldlM_of_ne_nil (range_ne_nil hready'.width_pos) (fun pixels x hx hlen => ?_) hlen
    refine ((meets_pixel x y hready' hfull hplane).imp ?_).bind fun color htwo => ?_
    · rintro stop ⟨rfl, htwo⟩
      exact ⟨rfl, fun hfits => htwo fun h => hfits.numComponents_ne (hnum.symm.trans h)⟩
    · have hlt := row_lt (List.mem_range.mp hx) (List.mem_range.mp hy)
      exact (meets_write color (hlen.symm ▸ hlt)).mono fun _ h => ⟨h.trans hlen, htwo⟩
  refine hpixels.bind fun pixels hpixels => meets_pure ⟨⟨hnum ▸ hpixels.2, fun c hc => ?_⟩, ?_⟩
  · exact (hd.full c (mem_frameComponents.mpr hc)).2
  · exact ⟨congrArg Nat.cast hwidth, congrArg Nat.cast hheight,
      hpixels.1.trans (congrArg₂ _ hwidth hheight)⟩

end Aetheris.Jpeg
