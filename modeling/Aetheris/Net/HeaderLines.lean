import Aetheris.Net.HttpClient

/-!
# Lines of a header block

The sender ends the lines of a request with a carriage return and a line feed.  Receivers are laxer:
many take each of the two bytes alone for the end of a line as well, so a byte of the one or the
other kind inside a line is enough to split it for some of them.  `splitHead` reads a block in the
most lenient of these ways, up to the first empty line.

Lines that were written one after another are read as they were written exactly if they are
`Unbroken`: no line that is read has such a byte in it, and a line without one is taken whole, since
the reader stops at the first of them (`splitHead_lines_iff`).
-/

namespace Aetheris.Net

/-- No carriage return and no line feed. -/
def Unbroken (text : Bytes) : Prop := ∀ c ∈ text, c ≠ 0x0d ∧ c ≠ 0x0a

instance (text : Bytes) : Decidable (Unbroken text) :=
  inferInstanceAs (Decidable (∀ c ∈ text, c ≠ 0x0d ∧ c ≠ 0x0a))

theorem unbroken_append_iff {front back : Bytes} :
    Unbroken (front ++ back) ↔ Unbroken front ∧ Unbroken back := List.forall_mem_append

theorem unbroken_nil : Unbroken [] := fun _ hc => absurd hc List.not_mem_nil

/-- A text without a carriage return has no line end of two bytes. -/
theorem find_crlf_of_forall {text : Bytes} (h : ∀ c ∈ text, c ≠ 0x0d) : find text crlf = none := by
  rw [find_eq_none_iff]
  intro i hi hpre
  exact h 0x0d (List.mem_of_mem_drop (hpre.subset List.mem_cons_self)) rfl

/-! ## Reading lines -/

/-- The byte ends no line. -/
def inLine (c : Byte) : Bool := c != 0x0d && c != 0x0a

theorem inLine_iff {c : Byte} : inLine c = true ↔ c ≠ 0x0d ∧ c ≠ 0x0a := by
  rw [inLine, Bool.and_eq_true, bne_iff_ne, bne_iff_ne]

/-- What is behind a line end: both bytes, or one of them alone. -/
def behindLineEnd : Bytes → Bytes
  | 0x0d :: 0x0a :: rest => rest
  | text => text.tail

theorem length_behindLineEnd_lt {text : Bytes} (h : text ≠ []) :
    (behindLineEnd text).length < text.length := by
  rw [behindLineEnd.eq_def]
  split
  · simp only [List.length_cons]
    omega
  · rw [List.length_tail]
    exact Nat.sub_one_lt_of_lt (List.length_pos_of_ne_nil h)

/-- The lines up to the first empty one, and what is behind that. -/
def splitHead (text : Bytes) : Option (List Bytes × Bytes) :=
  if _h : text.dropWhile inLine = [] then none
  else if text.takeWhile inLine = [] then some ([], behindLineEnd text)
  else
    (splitHead (behindLineEnd (text.dropWhile inLine))).map fun head =>
      (text.takeWhile inLine :: head.1, head.2)
termination_by text.length
decreasing_by
  exact (length_behindLineEnd_lt _h).trans_le (List.dropWhile_suffix inLine).length_le

/-- A line that is read has no line end. -/
theorem forall_of_splitHead {text : Bytes} : ∀ {lines : List Bytes} {body : Bytes},
    splitHead text = some (lines, body) → ∀ line ∈ lines, Unbroken line := by
  induction text using splitHead.induct with
  | case1 text hend =>
    intro lines body h
    rw [splitHead, dif_pos hend] at h
    cases h
  | case2 text hend hline =>
    intro lines body h
    rw [splitHead, dif_neg hend, if_pos hline, Option.some.injEq, Prod.mk.injEq] at h
    rw [← h.1]
    exact fun line hmem => absurd hmem List.not_mem_nil
  | case3 text hend hline ih =>
    intro lines body h
    rw [splitHead, dif_neg hend, if_neg hline] at h
    obtain ⟨head, hhead, heq⟩ := Option.map_eq_some_iff.mp h
    rw [Prod.mk.injEq] at heq
    rw [← heq.1]
    refine List.forall_mem_cons.mpr ⟨fun c hc => ?_, ih hhead⟩
    exact inLine_iff.mp (List.mem_takeWhile_imp hc)

/-- A line without a line end is read as it was written. -/
theorem splitHead_line {line : Bytes} (hne : line ≠ []) (hline : Unbroken line) (rest : Bytes) :
    splitHead (line ++ (crlf ++ rest)) =
      (splitHead rest).map fun head => (line :: head.1, head.2) := by
  have hall : ∀ c ∈ line, inLine c = true := fun c hc => inLine_iff.mpr (hline c hc)
  have hstop : (crlf ++ rest).takeWhile inLine = [] := rfl
  have htake : (line ++ (crlf ++ rest)).takeWhile inLine = line := by
    rw [List.takeWhile_append_of_pos hall, hstop, List.append_nil]
  have hdrop : (line ++ (crlf ++ rest)).dropWhile inLine = crlf ++ rest := by
    rw [List.dropWhile_append_of_pos hall]
    rfl
  have hend : crlf ++ rest ≠ [] := List.cons_ne_nil _ _
  rw [splitHead, hdrop, htake, dif_neg hend, if_neg hne]
  rfl

/-- **Lines are read as they were written** exactly if none of them has a line end. -/
theorem splitHead_lines_iff {lines : List Bytes} (hne : ∀ line ∈ lines, line ≠ []) (body : Bytes) :
    splitHead (lines.flatMap (· ++ crlf) ++ (crlf ++ body)) = some (lines, body) ↔
      ∀ line ∈ lines, Unbroken line := by
  refine ⟨forall_of_splitHead, fun h => ?_⟩
  induction lines with
  | nil =>
    have hdrop : (crlf ++ body).dropWhile inLine ≠ [] := List.cons_ne_nil _ _
    rw [List.flatMap_nil, List.nil_append, splitHead, dif_neg hdrop]
    rfl
  | cons line lines ih =>
    obtain ⟨hline, hlines⟩ := List.forall_mem_cons.mp h
    rw [List.flatMap_cons, List.append_assoc, List.append_assoc,
      splitHead_line (hne line List.mem_cons_self) hline,
      ih (fun other hother => hne other (List.mem_cons_of_mem _ hother)) hlines]
    rfl

end Aetheris.Net
