import Aetheris.Jpeg.Segments

/-!
# What a scan does

`decode_scan` goes through the MCUs of a grid of its own, whose MCUs are as large as the largest
component of the scan makes them, and in each through the blocks of every component.  What it does
does not depend on what it reads: it is a list of restarts and blocks, and a block is visited behind
a number of restarts.
-/

namespace Aetheris.Jpeg

open Aetheris.Computation

/-! ## What a scan does -/

/-- What happens in a scan. -/
inductive Event
  | restart
  | block (index : Fin 4) (x y : ℕ)
  deriving DecidableEq, Repr

/-- What the decoder does. -/
def perform (data : Bytes) (decoder : Decoder) : Event → Checked Decoder
  | .restart => .ok (restart data decoder)
  | .block index x y => decodeBlock data decoder index x y

/-- The block at a place of an MCU, if the component has it. -/
def unitEvents (decoder : Decoder) (my mx : ℕ) (index : Fin 4) (vertical horizontal : ℕ) :
    List Event :=
  let component := decoder.comp.get index
  let blockX := mx * component.h + horizontal
  let blockY := my * component.v + vertical
  if component.blocksW ≤ blockX ∨ component.blocksH ≤ blockY then []
  else [.block index blockX blockY]

/-- The blocks of an MCU. -/
def mcuEvents (decoder : Decoder) (my mx : ℕ) : List Event :=
  decoder.scan.components.flatMap fun index =>
    (List.range (decoder.comp.get index).v).flatMap fun vertical =>
      (List.range (decoder.comp.get index).h).flatMap fun horizontal =>
        unitEvents decoder my mx index vertical horizontal

/-- What is done in front of an MCU. -/
def restartEvents (interval mcuIndex : ℕ) : List Event :=
  if interval ≠ 0 ∧ 0 < mcuIndex ∧ mcuIndex % interval = 0 then [.restart] else []

/-- `scan_h`. -/
def Decoder.scanH (decoder : Decoder) : ℕ :=
  decoder.scan.components.foldl (fun h index => max h (decoder.comp.get index).h) 1

/-- `scan_v`. -/
def Decoder.scanV (decoder : Decoder) : ℕ :=
  decoder.scan.components.foldl (fun v index => max v (decoder.comp.get index).v) 1

/-- `scan_mcus_x`. -/
def Decoder.scanMcusX (decoder : Decoder) : ℕ :=
  (decoder.width + 8 * decoder.scanH - 1) / (8 * decoder.scanH)

/-- `scan_mcus_y`. -/
def Decoder.scanMcusY (decoder : Decoder) : ℕ :=
  (decoder.height + 8 * decoder.scanV - 1) / (8 * decoder.scanV)

/-- What `decode_scan` does. -/
def scanEvents (decoder : Decoder) : List Event :=
  (List.range decoder.scanMcusY).flatMap fun my =>
    (List.range decoder.scanMcusX).flatMap fun mx =>
      restartEvents decoder.restartInterval (my * decoder.scanMcusX + mx) ++
        mcuEvents decoder my mx

/-- The decoder at the start of a scan. -/
def Decoder.beginScan (decoder : Decoder) : Decoder :=
  { decoder with
    reader := { decoder.reader with bitBuffer := 0, bitCount := 0 }
    eobRun := 0 }

section Performed

variable {data : Bytes} {decoder d : Decoder} {my mx : ℕ}

theorem decodeUnit_eq (h : decoder.Leads d) (index : Fin 4) (vertical horizontal : ℕ) :
    decodeUnit data my mx index vertical horizontal d =
      (unitEvents decoder my mx index vertical horizontal).foldlM (perform data) d := by
  have hshape := h.shape index
  rw [decodeUnit, unitEvents]
  rw [hshape.h_eq, hshape.v_eq, hshape.blocksW_eq, hshape.blocksH_eq]
  split
  · rfl
  · rw [List.foldlM_cons]
    exact (bind_pure _).symm

theorem SafeIf.meets {α : Type} {x : Checked α} {post : α → Prop} (h : SafeIf False x post) :
    Meets (fun _ => True) x post := h.imp fun _ _ => trivial

/-- A loop whose rounds perform events that do not depend on the round performs them all. -/
theorem foldlM_eq_perform {α : Type} {xs : List α} {f : Decoder → α → Checked Decoder}
    {events : α → List Event} (h : decoder.Leads d)
    (hf : ∀ d, ∀ a ∈ xs, decoder.Leads d → f d a = (events a).foldlM (perform data) d ∧
      Meets (fun _ => True) (f d a) decoder.Leads) :
    xs.foldlM f d = (xs.flatMap events).foldlM (perform data) d ∧
      Meets (fun _ => True) (xs.foldlM f d) decoder.Leads := by
  rw [foldlM_flatMap]
  exact ⟨Meets.foldlM_congr decoder.Leads (fun d a ha hd => (hf d a ha hd).1)
    (fun d a ha hd => (hf d a ha hd).2) h, Meets.foldlM (fun d a ha hd => (hf d a ha hd).2) h⟩

/-- The blocks of an MCU are decoded. -/
theorem decodeMcu_eq (data : Bytes) (my mx : ℕ) (h : decoder.Leads d) :
    decodeMcu data my mx d = (mcuEvents decoder my mx).foldlM (perform data) d ∧
      Meets (fun _ => True) (decodeMcu data my mx d) decoder.Leads := by
  rw [decodeMcu, mcuEvents, h.scan_eq]
  refine foldlM_eq_perform h fun d index hindex hd => ?_
  rw [(hd.shape index).v_eq]
  refine foldlM_eq_perform hd fun d vertical _ hd => ?_
  rw [(hd.shape index).h_eq]
  refine foldlM_eq_perform hd fun d horizontal _ hd => ⟨decodeUnit_eq hd index _ _, ?_⟩
  have hleads : SafeIf False (decodeUnit data my mx index vertical horizontal d) d.Leads :=
    safeIf_decodeUnit (hd.scan_eq.symm ▸ hindex) nofun
  exact hleads.meets.mono fun _ h => hd.trans h

/-- A restart, where there is one. -/
theorem restart_eq (data : Bytes) (h : decoder.Leads d) (mcuIndex : ℕ) :
    (restartEvents decoder.restartInterval mcuIndex).foldlM (perform data) d =
        .ok (if d.restartInterval ≠ 0 ∧ 0 < mcuIndex ∧ mcuIndex % d.restartInterval = 0 then
          restart data d else d) ∧
      decoder.Leads (if d.restartInterval ≠ 0 ∧ 0 < mcuIndex ∧ mcuIndex % d.restartInterval = 0 then
        restart data d else d) := by
  have hinterval : d.restartInterval = decoder.restartInterval := by rw [h.rest]
  rw [hinterval, restartEvents]
  split
  · exact ⟨rfl, h.trans (leads_restart data d)⟩
  · exact ⟨rfl, h⟩

/-- **What `decode_scan` does.** -/
theorem decodeScan_eq (data : Bytes) (decoder : Decoder) :
    decodeScan data decoder =
      (scanEvents decoder).foldlM (perform data) decoder.beginScan := by
  have hbegin : decoder.Leads decoder.beginScan := ⟨rfl, le_rfl, fun _ => .refl _⟩
  refine (foldlM_eq_perform hbegin fun d my _ hd => ?_).1
  refine foldlM_eq_perform hd fun d mx _ hd => ?_
  obtain ⟨hrestart, hleads⟩ := restart_eq data hd (my * decoder.scanMcusX + mx)
  obtain ⟨hmcu, hmeets⟩ := decodeMcu_eq data my mx hleads
  refine ⟨?_, hmeets⟩
  rw [List.foldlM_append, hrestart]
  exact hmcu

end Performed

/-! ## The blocks that are visited -/

/-- A block that a scan comes to, and how many restarts are in front of it. -/
structure Visit where
  interval : ℕ
  index : Fin 4
  x : ℕ
  y : ℕ
  deriving DecidableEq, Repr

/-- The blocks of some events, behind some restarts. -/
def visits : ℕ → List Event → List Visit
  | _, [] => []
  | interval, .restart :: events => visits (interval + 1) events
  | interval, .block index x y :: events => ⟨interval, index, x, y⟩ :: visits interval events

theorem visits_append (interval : ℕ) (events events' : List Event) :
    visits interval (events ++ events') =
      visits interval events ++ visits (interval + events.count .restart) events' := by
  induction events generalizing interval with
  | nil => rfl
  | cons event events ih =>
    cases event with
    | restart =>
      rw [List.cons_append, visits, visits, ih, List.count_cons_self, Nat.add_right_comm,
        Nat.add_assoc]
    | block index x y =>
      rw [List.cons_append, visits, visits, ih,
        List.count_cons_of_ne (show Event.block index x y ≠ .restart from nofun), List.cons_append]

/-- A restart is made in front of every MCU whose number the interval divides. -/
theorem visits_restarts (interval n : ℕ) {mcu : ℕ → List Event}
    (hmcu : ∀ j, Event.restart ∉ mcu j) :
    visits 0 ((List.range n).flatMap fun j => restartEvents interval j ++ mcu j) =
        (List.range n).flatMap (fun j => visits (j / interval) (mcu j)) ∧
      ((List.range n).flatMap fun j => restartEvents interval j ++ mcu j).count .restart =
        (n - 1) / interval := by
  induction n with
  | zero => exact ⟨rfl, (Nat.zero_div interval).symm⟩
  | succ n ih =>
    have hrestarts : (n - 1) / interval + (restartEvents interval n).count .restart =
        n / interval := by
      cases n with
      | zero =>
        rw [restartEvents, if_neg (fun h => absurd h.2.1 (lt_irrefl 0)), Nat.zero_sub]
        rfl
      | succ n =>
        rw [Nat.succ_sub_one, Nat.succ_div, restartEvents]
        refine congrArg _ ?_
        by_cases hdvd : interval ∣ n + 1
        · have hne : interval ≠ 0 := by
            rintro rfl
            exact absurd (Nat.zero_dvd.mp hdvd) (Nat.succ_ne_zero n)
          rw [if_pos hdvd, if_pos ⟨hne, Nat.succ_pos n, Nat.mod_eq_zero_of_dvd hdvd⟩]
          rfl
        · rw [if_neg hdvd, if_neg fun h => hdvd (Nat.dvd_of_mod_eq_zero h.2.2)]
          rfl
    have hvisits : visits ((n - 1) / interval) (restartEvents interval n) = [] := by
      rw [restartEvents]
      split
      · rfl
      · rfl
    rw [List.range_succ, List.flatMap_append, List.flatMap_append, List.flatMap_singleton,
      List.flatMap_singleton, visits_append, ih.1, Nat.zero_add, ih.2, visits_append, hvisits,
      hrestarts, List.count_append, List.count_append, ih.2, ← Nat.add_assoc, hrestarts,
      List.count_eq_zero_of_not_mem (hmcu n)]
    exact ⟨rfl, rfl⟩

/-- Blocks with no restart between them are visited behind the same restarts. -/
theorem visits_flatMap {α : Type} (interval : ℕ) {l : List α} {events : α → List Event}
    (hevents : ∀ a ∈ l, Event.restart ∉ events a) :
    visits interval (l.flatMap events) = l.flatMap fun a => visits interval (events a) := by
  induction l with
  | nil => rfl
  | cons a l ih =>
    rw [List.flatMap_cons, List.flatMap_cons, visits_append,
      List.count_eq_zero_of_not_mem (hevents a List.mem_cons_self), Nat.add_zero,
      ih fun b hb => hevents b (List.mem_cons_of_mem _ hb)]

theorem restart_notMem_unitEvents (decoder : Decoder) (my mx : ℕ) (c : Fin 4)
    (vertical horizontal : ℕ) :
    Event.restart ∉ unitEvents decoder my mx c vertical horizontal := by
  rw [unitEvents]
  split
  · exact List.not_mem_nil
  · exact fun hmem => nomatch List.mem_singleton.mp hmem

theorem restart_notMem_mcuEvents (decoder : Decoder) (my mx : ℕ) :
    Event.restart ∉ mcuEvents decoder my mx := by
  intro hmem
  obtain ⟨c, -, hmem⟩ := List.mem_flatMap.mp hmem
  obtain ⟨vertical, -, hmem⟩ := List.mem_flatMap.mp hmem
  obtain ⟨horizontal, -, hmem⟩ := List.mem_flatMap.mp hmem
  exact restart_notMem_unitEvents decoder my mx c vertical horizontal hmem

end Aetheris.Jpeg
