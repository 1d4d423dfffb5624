import Aetheris.Jpeg.Entropy

/-!
# What reading a block does

However a block is read, the decoder goes forward in the file, and the component keeps its tables
and the number of its blocks (`BlockState.Leads`).  No access is outside an array if the tables of
the component are there, the band of the scan is in the block, and the block is in the component.

`SafeIf` has both in one statement, the result always and the accesses under a condition, so that
each loop is gone through only once.
-/

namespace Aetheris.Jpeg

open Aetheris.Computation

/-- `post` holds of the result, and if `P` holds there is no access outside an array. -/
def SafeIf {α : Type} (P : Prop) (x : Checked α) (post : α → Prop) : Prop :=
  Meets (fun stop => stop = .outOfBounds → ¬ P) x post

variable {P : Prop} {α : Type}

theorem safeIf_failed {post : α → Prop} : SafeIf P (.error .failed) post :=
  meets_error nofun

/-- A lookup in a table is safe below its length. -/
theorem safeIf_slot {n : ℕ} (xs : Vector α n) {i : ℕ} (h : P → i < n) :
    SafeIf P (slot xs i) fun a => ∃ hlt, a = xs.get ⟨i, hlt⟩ := by
  rw [slot]
  by_cases hlt : i < n
  · rw [dif_pos hlt]
    exact meets_ok ⟨hlt, rfl⟩
  · rw [dif_neg hlt]
    exact meets_error fun _ hP => hlt (h hP)

theorem safeIf_item (xs : List α) {i : ℕ} (h : P → i < xs.length) :
    SafeIf P (item xs i) fun a => xs[i]? = some a := by
  rw [item]
  cases hget : xs[i]? with
  | some a => exact meets_ok rfl
  | none => exact meets_error fun _ hP =>
      absurd (List.getElem?_eq_none_iff.mp hget) (Nat.not_le.mpr (h hP))

/-- The coefficients that the zig-zag order comes to are those of a block. -/
theorem kZigZag_lt (i : Fin 64) : kZigZag.get i < 64 := by
  have h : ∀ i : Fin 64, kZigZag.get i < 64 := by decide
  exact h i

theorem safeIf_kZigZag {k : ℕ} (h : P → k < 64) :
    SafeIf P (slot kZigZag k) fun z => z < 64 := by
  refine (safeIf_slot kZigZag h).mono ?_
  rintro z ⟨hlt, rfl⟩
  exact kZigZag_lt ⟨k, hlt⟩

/-! ## Bits -/

/-- Reading never goes back: a byte, a bit, some bits, a code. -/
theorem le_pos_readByte (data : Bytes) (reader : Reader) :
    reader.pos ≤ (readByte data reader).2.pos := by
  rw [readByte]
  split
  · exact le_rfl
  · split
    · split
      · exact le_rfl
      · split
        · exact Nat.le_add_right _ _
        · exact le_rfl
    · exact Nat.le_add_right _ _

theorem le_pos_readBit (data : Bytes) (reader : Reader) :
    reader.pos ≤ (readBit data reader).2.pos := by
  have hbyte := le_pos_readByte data reader
  rw [readBit]
  split
  · split
    · rename_i heq
      rwa [heq] at hbyte
    · rename_i heq
      rwa [heq] at hbyte
  · exact le_rfl

theorem le_pos_readBitsLoop (data : Bytes) (count : ℕ) (value : Int32) (reader : Reader) :
    reader.pos ≤ (readBitsLoop data count value reader).2.pos := by
  induction count generalizing value reader with
  | zero => exact le_rfl
  | succ count ih =>
    have hbit := le_pos_readBit data reader
    rw [readBitsLoop]
    split
    · rename_i heq
      rwa [heq] at hbit
    · rename_i heq
      rw [heq] at hbit
      exact hbit.trans (ih _ _)

theorem le_pos_readBits (data : Bytes) (count : ℕ) (reader : Reader) :
    reader.pos ≤ (readBits data count reader).2.pos :=
  le_pos_readBitsLoop data count 0 reader

/-- By induction on the lengths of the codes that are left. -/
theorem le_pos_decodeHuffmanLoop (data values : Bytes) (ranges : List CodeRange) (code : ℤ)
    (reader : Reader) :
    reader.pos ≤ (decodeHuffmanLoop data values ranges code reader).2.pos := by
  induction ranges generalizing code reader with
  | nil => exact le_rfl
  | cons range ranges ih =>
    have hbit := le_pos_readBit data reader
    rw [decodeHuffmanLoop]
    split
    · rename_i heq
      rwa [heq] at hbit
    · rename_i heq
      rw [heq] at hbit
      dsimp only
      split
      · exact hbit
      · exact hbit.trans (ih _ _)

theorem le_pos_decodeHuffman (data : Bytes) (table : HuffTable) (reader : Reader) :
    reader.pos ≤ (decodeHuffman data table reader).2.pos :=
  le_pos_decodeHuffmanLoop data table.values table.codes 0 reader

/-! ## Components -/

/-- What reading blocks leaves as it is. -/
structure Component.SameShape (c c' : Component) : Prop where
  h_eq : c'.h = c.h
  v_eq : c'.v = c.v
  quantId_eq : c'.quantId = c.quantId
  dcTable_eq : c'.dcTable = c.dcTable
  acTable_eq : c'.acTable = c.acTable
  blocksW_eq : c'.blocksW = c.blocksW
  blocksH_eq : c'.blocksH = c.blocksH
  plane_eq : c'.plane = c.plane

theorem Component.SameShape.refl (c : Component) : c.SameShape c :=
  ⟨rfl, rfl, rfl, rfl, rfl, rfl, rfl, rfl⟩

theorem Component.SameShape.trans {c c' c'' : Component} (h : c.SameShape c')
    (h' : c'.SameShape c'') : c.SameShape c'' :=
  ⟨h'.h_eq.trans h.h_eq, h'.v_eq.trans h.v_eq, h'.quantId_eq.trans h.quantId_eq,
    h'.dcTable_eq.trans h.dcTable_eq, h'.acTable_eq.trans h.acTable_eq,
    h'.blocksW_eq.trans h.blocksW_eq, h'.blocksH_eq.trans h.blocksH_eq,
    h'.plane_eq.trans h.plane_eq⟩

/-- The array of coefficients does not grow or shrink. -/
theorem Component.SameShape.length_eq {c c' : Component} (h : c.SameShape c') :
    c'.coefficients.length = c.coefficients.length := by
  rw [c'.length_coefficients, c.length_coefficients, h.blocksW_eq, h.blocksH_eq]

/-- The block that begins at `block` is one of the component. -/
def Component.HasBlock (component : Component) (block : ℕ) : Prop :=
  block + 64 ≤ component.coefficients.length

/-- A coefficient of a block of the component is there, and can be written. -/
theorem safeIf_load {component : Component} {block z : ℕ} (hz : P → z < 64)
    (hblock : P → component.HasBlock block) :
    SafeIf P (component.load block z) fun _ => True := by
  rw [Component.load]
  refine meets_ite (fun hlt => ?_) fun hnot => meets_error fun _ hP => hnot (hz hP)
  exact (safeIf_item _ fun hP => (Nat.add_lt_add_left hlt block).trans_le (hblock hP)).mono
    fun _ _ => trivial

theorem safeIf_store {component : Component} {block z : ℕ} {value : Int16} (hz : P → z < 64)
    (hblock : P → component.HasBlock block) :
    SafeIf P (component.store block z value) component.SameShape := by
  rw [Component.store]
  refine meets_ite (fun _ => meets_ok ⟨rfl, rfl, rfl, rfl, rfl, rfl, rfl, rfl⟩) fun hnot => ?_
  exact meets_error fun _ hP =>
    hnot ⟨hz hP, (Nat.add_lt_add_left (hz hP) block).trans_le (hblock hP)⟩

/-- Reading goes from one state to the other. -/
structure BlockState.Leads (s s' : BlockState) : Prop where
  pos_le : s.reader.pos ≤ s'.reader.pos
  shape : s.component.SameShape s'.component

theorem BlockState.Leads.refl (s : BlockState) : s.Leads s := ⟨le_rfl, .refl _⟩

theorem BlockState.Leads.trans {s s' s'' : BlockState} (h : s.Leads s') (h' : s'.Leads s'') :
    s.Leads s'' := ⟨h.pos_le.trans h'.pos_le, h.shape.trans h'.shape⟩

/-- So a block of the component stays one. -/
theorem BlockState.Leads.hasBlock {s s' : BlockState} (h : s.Leads s') {block : ℕ}
    (hblock : s.component.HasBlock block) : s'.component.HasBlock block := by
  rw [Component.HasBlock, h.shape.length_eq]
  exact hblock

/-! ## The coefficients of a block -/

section Coefficients

variable {data : Bytes} {scan : Scan} {tables : Vector HuffTable 4} {s : BlockState} {block : ℕ}

/-- The first scan of the DC coefficient reads a table; a refinement reads one bit. -/
theorem safeIf_decodeDc (htable : P → scan.succHigh = 0 → s.component.dcTable < 4)
    (hblock : P → s.component.HasBlock block) :
    SafeIf P (decodeDc data scan tables s block) s.Leads := by
  have hzero : P → 0 < 64 := fun _ => by decide
  rw [decodeDc]
  refine meets_ite (fun hfirst => ?_) fun _ => ?_
  · refine (safeIf_slot tables fun hP => htable hP hfirst).bind fun table _ => ?_
    have hcode := le_pos_decodeHuffman data table s.reader
    split
    · exact safeIf_failed
    · rename_i bits reader heq
      rw [heq] at hcode
      have hvalue : s.reader.pos ≤
          (if bits = 0 then ((0 : Int32), reader) else readBits data bits reader).2.pos := by
        split
        · exact hcode
        · exact hcode.trans (le_pos_readBits data bits reader)
      dsimp only
      refine meets_ite (fun _ => safeIf_failed) fun _ => ?_
      refine Meets.bind (safeIf_store hzero fun hP => hblock hP) fun component hshape => ?_
      exact meets_pure ⟨hvalue, hshape.h_eq, hshape.v_eq, hshape.quantId_eq, hshape.dcTable_eq,
        hshape.acTable_eq, hshape.blocksW_eq, hshape.blocksH_eq, hshape.plane_eq⟩
  · have hbit := le_pos_readBit data s.reader
    split
    · exact safeIf_failed
    · rename_i bit reader heq
      rw [heq] at hbit
      refine meets_ite (fun _ => ?_) fun _ => meets_pure ⟨hbit, .refl _⟩
      refine (safeIf_load hzero hblock).bind fun old _ => ?_
      exact (safeIf_store hzero hblock).bind fun component hshape => meets_pure ⟨hbit, hshape⟩

/-- By induction on the rounds of the loop, as for the next ones. -/
theorem safeIf_acFirst {k : ℕ} (htable : P → s.component.acTable < 4)
    (hband : P → scan.specEnd < 64) (hblock : P → s.component.HasBlock block) :
    SafeIf P (acFirst data scan tables s block k) s.Leads := by
  induction s, k using acFirst.induct scan with
  | case1 s k ihZeros ihValue =>
    rw [acFirst]
    refine (safeIf_slot tables htable).bind fun table _ => ?_
    have hcode := le_pos_decodeHuffman data table s.reader
    split
    · exact safeIf_failed
    · rename_i rs reader heq
      rw [heq] at hcode
      dsimp only
      refine meets_ite (fun _ => meets_ite (fun _ => meets_pure ⟨?_, .refl _⟩) fun _ => ?_)
        fun _ => meets_ite (fun _ => safeIf_failed) fun hband' => ?_
      · split
        · exact hcode.trans (le_pos_readBits data _ reader)
        · exact hcode
      · have hskip : s.Leads { s with reader := reader } := ⟨hcode, .refl _⟩
        split
        · rename_i hle
          exact (ihZeros reader hle htable hblock).mono fun _ h => hskip.trans h
        · exact meets_pure hskip
      · have hvalue := hcode.trans (le_pos_readBits data (rs % 16) reader)
        refine meets_ite (fun _ => safeIf_failed) fun _ => ?_
        refine (safeIf_kZigZag fun hP => ?_).bind fun z hz => ?_
        · exact (Nat.not_lt.mp hband').trans_lt (hband hP)
        · refine (safeIf_store (fun _ => hz) hblock).bind fun component hshape => ?_
          have hstored : s.Leads { s with
              reader := (readBits data (rs % 16) reader).2, component := component } :=
            ⟨hvalue, hshape⟩
          split
          · rename_i hle
            have hrest := ihValue rs _ component hle
              (fun hP => by rw [hshape.acTable_eq]; exact htable hP)
              (fun hP => hstored.hasBlock (hblock hP))
            exact hrest.mono fun _ h => hstored.trans h
          · exact meets_pure hstored

/-- A coefficient that is not zero is corrected in its place. -/
theorem safeIf_correct {bit : Int32} {z : ℕ} {p : Int16} (hz : P → z < 64)
    (hblock : P → s.component.HasBlock block) :
    SafeIf P (correct data bit s block z p) s.Leads := by
  have hbit := le_pos_readBit data s.reader
  rw [correct]
  split
  · exact safeIf_failed
  · rename_i correction reader heq
    rw [heq] at hbit
    refine meets_ite (fun _ => ?_) fun _ => meets_pure ⟨hbit, .refl _⟩
    exact (safeIf_store hz hblock).bind fun component hshape => meets_pure ⟨hbit, hshape⟩

theorem safeIf_refineBand {bit : Int32} {k : ℕ} (hband : P → scan.specEnd < 64)
    (hblock : P → s.component.HasBlock block) :
    SafeIf P (refineBand data scan bit s block k) s.Leads := by
  induction s, k using refineBand.induct scan with
  | case1 s k hle ih =>
    rw [refineBand, if_pos hle]
    refine (safeIf_kZigZag fun hP => hle.trans_lt (hband hP)).bind fun z hz => ?_
    refine (safeIf_load (fun _ => hz) hblock).bind fun p _ => ?_
    have hrest (s' : BlockState) (hs' : s.Leads s') :
        SafeIf P (refineBand data scan bit s' block (k + 1)) s.Leads :=
      (ih s' fun hP => hs'.hasBlock (hblock hP)).mono fun _ h => hs'.trans h
    exact meets_ite (fun _ => (safeIf_correct (fun _ => hz) hblock).bind hrest)
      fun _ => hrest s (.refl s)
  | case2 s k hle =>
    rw [refineBand, if_neg hle]
    exact meets_pure (.refl s)

/-- The zeros of a run, up to the place of the new coefficient. -/
theorem safeIf_refineRun {bit newValue : Int32} {k run : ℕ} (hband : P → scan.specEnd < 64)
    (hblock : P → s.component.HasBlock block) :
    SafeIf P (refineRun data scan bit newValue s block k run) fun result => s.Leads result.1 := by
  induction s, k, run using refineRun.induct scan with
  | case1 s k run hle ihCorrect ihRest =>
    rw [refineRun, if_pos hle]
    refine (safeIf_kZigZag fun hP => hle.trans_lt (hband hP)).bind fun z hz => ?_
    refine (safeIf_load (fun _ => hz) hblock).bind fun p _ => ?_
    refine meets_ite (fun _ => ?_) fun _ => meets_ite (fun _ => ?_) fun _ => ihRest hblock
    · refine (safeIf_correct (fun _ => hz) hblock).bind fun s' hs' => ?_
      exact (ihCorrect s' fun hP => hs'.hasBlock (hblock hP)).mono fun _ h => hs'.trans h
    · exact (safeIf_store (fun _ => hz) hblock).bind fun component hshape =>
        meets_pure ⟨le_rfl, hshape⟩
  | case2 s k run hle =>
    rw [refineRun, if_neg hle]
    exact meets_pure (.refl s)

/-- The loop over the codes of a refinement. -/
theorem safeIf_acRefine {bit : Int32} {k : ℕ} (htable : P → s.component.acTable < 4)
    (hband : P → scan.specEnd < 64) (hblock : P → s.component.HasBlock block) :
    SafeIf P (acRefine data scan bit tables s block k) s.Leads := by
  induction s, k using acRefine.induct data scan bit block with
  | case1 s k ih =>
    rw [acRefine]
    refine (safeIf_slot tables htable).bind fun table _ => ?_
    have hcode := le_pos_decodeHuffman data table s.reader
    split
    · exact safeIf_failed
    · rename_i rs reader heq
      rw [heq] at hcode
      dsimp only
      refine meets_ite (fun _ => meets_pure ⟨?_, .refl _⟩)
        fun _ => meets_ite (fun _ => safeIf_failed) fun _ => ?_
      · split
        · exact hcode.trans (le_pos_readBits data _ reader)
        · exact hcode
      · have hsign : s.reader.pos ≤
            (if rs % 16 = 0 then (some 0, reader) else readBit data reader).2.pos := by
          split
          · exact hcode
          · exact hcode.trans (le_pos_readBit data reader)
        split
        · exact safeIf_failed
        · rename_i sign hsome
          have hread : s.Leads { s with reader := (if rs % 16 = 0 then (some 0, reader)
              else readBit data reader).2 } := ⟨hsign, .refl _⟩
          have hrun (newValue : Int32) : SafeIf P (refineRun data scan bit newValue
              { s with reader := (if rs % 16 = 0 then (some 0, reader)
                else readBit data reader).2 } block k (rs / 16)) fun result => s.Leads result.1 :=
            Meets.mono (safeIf_refineRun hband fun hP => hblock hP) fun _ h => hread.trans h
          split
          · rename_i stop hrefine
            exact (hrun _).of_eq_error hrefine
          · rename_i s' k' hrefine
            have hleads : s.Leads s' := (hrun _).of_eq_ok hrefine
            split
            · rename_i hle
              have hrest := ih rs _ sign s' k' hrefine hle
                (fun hP => by rw [hleads.shape.acTable_eq]; exact htable hP)
                (fun hP => hleads.hasBlock (hblock hP))
              exact hrest.mono fun _ h => hleads.trans h
            · exact meets_pure hleads

/-- **Reading the AC coefficients of a block.** -/
theorem safeIf_decodeAc (htable : P → s.component.acTable < 4) (hband : P → scan.specEnd < 64)
    (hblock : P → s.component.HasBlock block) :
    SafeIf P (decodeAc data scan tables s block) s.Leads := by
  have hshorter : s.Leads { s with eobRun := s.eobRun - 1 } := ⟨le_rfl, .refl _⟩
  rw [decodeAc]
  dsimp only
  refine meets_ite (fun _ => meets_ite (fun _ => meets_ok hshorter) fun _ => ?_)
    fun _ => meets_ite (fun _ => ?_) fun _ => ?_
  · exact safeIf_acFirst htable hband hblock
  · exact Meets.mono (safeIf_refineBand hband fun hP => hblock hP) fun _ h => hshorter.trans h
  · exact safeIf_acRefine htable hband hblock

end Coefficients

end Aetheris.Jpeg
