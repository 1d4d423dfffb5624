import Mathlib

/-!
# Signed crossings on a line

A closed curve crosses a line at some places, upwards or downwards.  With the crossings in order,
the sum of the signs so far says how often the curve winds around the points between two of them.

What is between two crossings that follow each other is a span if the sum there is not zero.  A
place is covered once for each of the sums before, between and behind the crossings there that is
not zero, and so once at most if one of them at most is.
-/

namespace Aetheris.Scanline

variable {α : Type*}

/-- Where a curve crosses the line, and the sign. -/
abbrev Crossing (α : Type*) := α × ℤ

/-- The sum of the signs. -/
def total (cs : List (Crossing α)) : ℤ := (cs.map Prod.snd).sum

@[simp] theorem total_nil : total ([] : List (Crossing α)) = 0 := rfl

@[simp] theorem total_cons (c : Crossing α) (cs : List (Crossing α)) :
    total (c :: cs) = c.2 + total cs := rfl

theorem total_append (cs ds : List (Crossing α)) : total (cs ++ ds) = total cs + total ds := by
  rw [total, List.map_append, List.sum_append]
  rfl

theorem total_perm {cs ds : List (Crossing α)} (h : cs.Perm ds) : total cs = total ds :=
  (h.map Prod.snd).sum_eq

/-- Each crossing has one of the two signs. -/
theorem length_le_countP {cs : List (Crossing α)} (h : ∀ c ∈ cs, c.2 = -1 ∨ c.2 = 1) :
    cs.length ≤ cs.countP (fun c => c.2 = -1) + cs.countP (fun c => c.2 = 1) := by
  induction cs with
  | nil => exact le_refl _
  | cons c cs ih =>
    have hrest := ih fun d hd => h d (List.mem_cons_of_mem _ hd)
    rcases h c List.mem_cons_self with hc | hc <;>
    · simp only [List.countP_cons, List.length_cons, hc]
      simp
      omega

theorem total_eq_countP {cs : List (Crossing α)} (h : ∀ c ∈ cs, c.2 = -1 ∨ c.2 = 1) :
    total cs = (cs.countP fun c => c.2 = 1 : ℕ) - (cs.countP fun c => c.2 = -1 : ℕ) := by
  induction cs with
  | nil => rfl
  | cons c cs ih =>
    have hrest := ih fun d hd => h d (List.mem_cons_of_mem _ hd)
    rw [total_cons, hrest]
    rcases h c List.mem_cons_self with hc | hc
    · simp only [List.countP_cons, hc]
      simp
      omega
    · simp only [List.countP_cons, hc]
      simp
      omega

section

variable [LinearOrder α]

/-- What is between crossings that follow each other, where the sum, which begins with `w`, is not
zero. -/
def spans : ℤ → List (Crossing α) → List (α × α)
  | w, c :: d :: rest =>
    (if w + c.2 = 0 then [] else [(c.1, d.1)]) ++ spans (w + c.2) (d :: rest)
  | _, _ => []

/-- How many of the spans hold the place `x`. -/
def covering (x : α) (l : List (α × α)) : ℕ := l.countP fun s => s.1 ≤ x ∧ x ≤ s.2

/-- 1 for a sum that is not zero. -/
def nonzero (w : ℤ) : ℕ := if w = 0 then 0 else 1

/-- How many of the sums at the place `x` are not zero: the one that comes from the left, and the one
behind each crossing there. -/
def around (x : α) : ℤ → List (Crossing α) → ℕ
  | w, [] => nonzero w
  | w, c :: rest =>
    if c.1 < x then around x (w + c.2) rest
    else if c.1 = x then nonzero w + around x (w + c.2) rest
    else nonzero w

theorem around_of_lt {x : α} {w : ℤ} {c : Crossing α} {rest : List (Crossing α)} (h : c.1 < x) :
    around x w (c :: rest) = around x (w + c.2) rest := if_pos h

theorem around_of_eq {x : α} {w : ℤ} {c : Crossing α} {rest : List (Crossing α)} (h : c.1 = x) :
    around x w (c :: rest) = nonzero w + around x (w + c.2) rest := by
  rw [around, if_neg h.not_lt, if_pos h]

theorem around_of_gt {x : α} {w : ℤ} {c : Crossing α} {rest : List (Crossing α)} (h : x < c.1) :
    around x w (c :: rest) = nonzero w := by
  rw [around, if_neg h.not_gt, if_neg h.ne']

theorem covering_cons (x : α) (s : α × α) (l : List (α × α)) :
    covering x (s :: l) = (if s.1 ≤ x ∧ x ≤ s.2 then 1 else 0) + covering x l := by
  rw [covering, List.countP_cons, ← covering, add_comm]
  congr 1
  simp only [decide_eq_true_eq]

theorem covering_spans_cons (x : α) (w : ℤ) (c d : Crossing α) (rest : List (Crossing α)) :
    covering x (spans w (c :: d :: rest)) =
      (if c.1 ≤ x ∧ x ≤ d.1 then nonzero (w + c.2) else 0) +
        covering x (spans (w + c.2) (d :: rest)) := by
  rw [spans]
  by_cases hw : w + c.2 = 0
  · rw [if_pos hw, List.nil_append, nonzero, if_pos hw, ite_self, zero_add]
  · rw [if_neg hw, List.singleton_append, covering_cons, nonzero, if_neg hw]

/-- **A place is covered once for each of the sums there that is not zero**, the sum that comes from
before the first crossing apart. -/
theorem covering_spans (x : α) : ∀ (w : ℤ) (cs : List (Crossing α)),
    cs.Pairwise (fun c d => c.1 ≤ d.1) → w + total cs = 0 →
      covering x (spans w cs) + (if ∀ c ∈ cs.head?, x ≤ c.1 then nonzero w else 0) = around x w cs
  | w, [], _, _ => by simp [spans, covering, around]
  | w, [c], _, hzero => by
    have hback : nonzero (w + c.2) = 0 := by
      rw [total_cons, total_nil, add_zero] at hzero
      rw [nonzero, if_pos hzero]
    rcases lt_trichotomy c.1 x with hlt | heq | hgt
    · simp [spans, covering, around, hlt, hback]
    · simp [spans, covering, around, heq, hback]
    · simp [spans, covering, around, not_lt.mpr hgt.le, hgt.ne', hgt.le]
  | w, c :: d :: rest, hsorted, hzero => by
    obtain ⟨hc, hrest⟩ := List.pairwise_cons.mp hsorted
    have hcd : c.1 ≤ d.1 := hc d List.mem_cons_self
    have ih := covering_spans x (w + c.2) (d :: rest) hrest (by
      rw [total_cons] at hzero
      omega)
    simp only [List.head?_cons, Option.mem_def, Option.some.injEq, forall_eq'] at ih ⊢
    rw [covering_spans_cons]
    rcases lt_trichotomy c.1 x with hlt | heq | hgt
    · rw [around_of_lt hlt, ← ih, if_neg (not_le.mpr hlt)]
      simp only [hlt.le, true_and]
      omega
    · rw [around_of_eq heq, ← ih, if_pos heq.ge]
      simp only [heq.le, true_and]
      omega
    · rw [around_of_gt (hgt.trans_le hcd), if_pos (hgt.le.trans hcd)] at ih
      rw [around_of_gt hgt, if_pos hgt.le, if_neg fun h => absurd h.1 (not_le.mpr hgt)]
      omega

/-! ## Places that are covered once -/

/-- The sum of the signs of the crossings before a place. -/
def before (x : α) (cs : List (Crossing α)) : ℤ := total (cs.filter fun c => c.1 < x)

/-- The sum of the signs of the crossings behind a place. -/
def behind (x : α) (cs : List (Crossing α)) : ℤ := total (cs.filter fun c => x < c.1)

/-- The crossings at a place. -/
def here (x : α) (cs : List (Crossing α)) : List (Crossing α) := cs.filter fun c => c.1 = x

/-- How many crossings at a place have a sign. -/
def signsHere (x : α) (sign : ℤ) (cs : List (Crossing α)) : ℕ := (here x cs).countP fun c => c.2 = sign

theorem total_eq (x : α) (cs : List (Crossing α)) :
    total cs = before x cs + total (here x cs) + behind x cs := by
  induction cs with
  | nil => rfl
  | cons c cs ih =>
    rw [total_cons, ih]
    simp only [before, here, behind]
    rcases lt_trichotomy c.1 x with h | h | h
    · simp only [h, h.ne, h.not_gt, List.filter_cons, decide_true, decide_false, if_true,
        Bool.false_eq_true, if_false, total_cons]
      omega
    · simp only [h, lt_irrefl, List.filter_cons, decide_true, decide_false, if_true,
        Bool.false_eq_true, if_false, total_cons]
      omega
    · simp only [h, h.ne', h.not_gt, List.filter_cons, decide_true, decide_false, if_true,
        Bool.false_eq_true, if_false, total_cons]
      omega

theorem before_perm {x : α} {cs ds : List (Crossing α)} (h : cs.Perm ds) :
    before x cs = before x ds := total_perm (h.filter _)

theorem signsHere_perm {x : α} {sign : ℤ} {cs ds : List (Crossing α)} (h : cs.Perm ds) :
    signsHere x sign cs = signsHere x sign ds := (h.filter _).countP_eq _

/-- Nothing is before a place where no crossing is. -/
theorem before_eq_zero {x : α} {cs : List (Crossing α)} (h : ∀ c ∈ cs, x ≤ c.1) :
    before x cs = 0 := by
  rw [before, List.filter_eq_nil_iff.mpr fun c hc => by simpa using h c hc]
  rfl

/-- The sums at a place, from the crossings there. -/
theorem around_eq (x : α) : ∀ (w : ℤ) (cs : List (Crossing α)),
    cs.Pairwise (fun c d => c.1 ≤ d.1) → around x w cs = around x (w + before x cs) (here x cs)
  | w, [], _ => by rw [before, here, List.filter_nil, List.filter_nil, total_nil, add_zero]
  | w, c :: rest, hsorted => by
    obtain ⟨hc, hrest⟩ := List.pairwise_cons.mp hsorted
    rcases lt_trichotomy c.1 x with hlt | heq | hgt
    · have hbefore : before x (c :: rest) = c.2 + before x rest := by
        rw [before, List.filter_cons_of_pos (by simpa using hlt), total_cons, before]
      have hhere : here x (c :: rest) = here x rest :=
        List.filter_cons_of_neg (by simpa using hlt.ne)
      rw [around_of_lt hlt, around_eq x (w + c.2) rest hrest, hbefore, hhere, add_assoc]
    · have hbefore : before x (c :: rest) = 0 :=
        before_eq_zero (List.forall_mem_cons.mpr ⟨heq.ge, fun d hd => heq ▸ hc d hd⟩)
      have hhere : here x (c :: rest) = c :: here x rest :=
        List.filter_cons_of_pos (by simpa using heq)
      rw [around_of_eq heq, around_eq x (w + c.2) rest hrest, hbefore, hhere, add_zero,
        around_of_eq heq, before_eq_zero fun d hd => heq ▸ hc d hd, add_zero]
    · have hall : ∀ d ∈ c :: rest, x < d.1 :=
        List.forall_mem_cons.mpr ⟨hgt, fun d hd => hgt.trans_le (hc d hd)⟩
      have hhere : here x (c :: rest) = [] :=
        List.filter_eq_nil_iff.mpr fun d hd => by simpa using (hall d hd).ne'
      rw [around_of_gt hgt, before_eq_zero fun d hd => (hall d hd).le, hhere, add_zero, around]

theorem nonzero_le_around {x : α} (w : ℤ) {cs : List (Crossing α)} (h : ∀ c ∈ cs, c.1 = x) :
    nonzero w ≤ around x w cs := by
  cases cs with
  | nil => exact le_refl _
  | cons c cs =>
    rw [around_of_eq (h c List.mem_cons_self)]
    exact Nat.le_add_right _ _

theorem nonzero_le_one (w : ℤ) : nonzero w ≤ 1 := by
  unfold nonzero
  split <;> decide

/-- **A place at which one sum at most is not zero.**  No crossing is there; or one is, and the sum is
zero on one side; or two are, downwards and upwards, and the sum is zero on both sides. -/
def Single (x : α) (cs : List (Crossing α)) : Prop :=
  signsHere x (-1) cs + signsHere x 1 cs = 0 ∨
    signsHere x (-1) cs + signsHere x 1 cs = 1 ∧
      (before x cs = 0 ∨ before x cs - signsHere x (-1) cs + signsHere x 1 cs = 0) ∨
    signsHere x (-1) cs = 1 ∧ signsHere x 1 cs = 1 ∧ before x cs = 0

theorem Single.perm {x : α} {cs ds : List (Crossing α)} (h : cs.Perm ds) :
    Single x cs ↔ Single x ds := by
  rw [Single, Single, before_perm h, signsHere_perm h, signsHere_perm h]

/-- The crossings at a place, and the sum in front of them. -/
theorem around_here_le_one_iff {x : α} (w : ℤ) : ∀ {cs : List (Crossing α)}, (∀ c ∈ cs, c.1 = x) →
    (∀ c ∈ cs, c.2 = -1 ∨ c.2 = 1) → cs.Pairwise (fun c d => c.2 ≤ d.2) →
      (around x w cs ≤ 1 ↔
        cs.countP (fun c => c.2 = -1) + cs.countP (fun c => c.2 = 1) = 0 ∨
          cs.countP (fun c => c.2 = -1) + cs.countP (fun c => c.2 = 1) = 1 ∧
            (w = 0 ∨ w - cs.countP (fun c => c.2 = -1) + cs.countP (fun c => c.2 = 1) = 0) ∨
          cs.countP (fun c => c.2 = -1) = 1 ∧ cs.countP (fun c => c.2 = 1) = 1 ∧ w = 0)
  | [], _, _, _ => by
    have hle : nonzero w ≤ 1 := nonzero_le_one w
    simp [around, hle]
  | [c], hhere, hsigns, _ => by
    rw [around_of_eq (hhere c List.mem_cons_self), around]
    rcases hsigns c List.mem_cons_self with h | h <;>
    · simp only [h, List.countP_cons, List.countP_nil, nonzero]
      split <;> split <;> simp <;> omega
  | [c, d], hhere, hsigns, hsorted => by
    rw [around_of_eq (hhere c List.mem_cons_self),
      around_of_eq (hhere d (List.mem_cons_of_mem _ List.mem_cons_self)), around]
    have hcd := List.rel_of_pairwise_cons hsorted List.mem_cons_self
    rcases hsigns c List.mem_cons_self with h | h
    · rcases hsigns d (List.mem_cons_of_mem _ List.mem_cons_self) with h' | h' <;>
      · simp only [h, h', List.countP_cons, List.countP_nil, nonzero]
        split <;> split <;> split <;> simp <;> omega
    · rcases hsigns d (List.mem_cons_of_mem _ List.mem_cons_self) with h' | h'
      · omega
      · simp only [h, h', List.countP_cons, List.countP_nil, nonzero]
        split <;> split <;> split <;> simp <;> omega
  | c :: d :: e :: rest, hhere, hsigns, _ => by
    have hd : d ∈ c :: d :: e :: rest := by simp
    have he : e ∈ c :: d :: e :: rest := by simp
    have hrest := nonzero_le_around (w + c.2 + d.2 + e.2)
      fun b hb => hhere b (List.mem_cons_of_mem _ (List.mem_cons_of_mem _ (List.mem_cons_of_mem _ hb)))
    rw [around_of_eq (hhere c List.mem_cons_self), around_of_eq (hhere d hd),
      around_of_eq (hhere e he)]
    have hcount := length_le_countP hsigns
    rw [List.length_cons, List.length_cons, List.length_cons] at hcount
    have htwo : 2 ≤ nonzero w + (nonzero (w + c.2) + nonzero (w + c.2 + d.2)) +
        nonzero (w + c.2 + d.2 + e.2) := by
      have hfirst := hsigns c List.mem_cons_self
      have hthird := hsigns e he
      unfold nonzero
      split <;> split <;> split <;> split <;> omega
    exact iff_of_false (by omega) (by omega)

/-- At most one of the sums at a place is not zero exactly where the place is as said. -/
theorem around_le_one_iff {x : α} {cs : List (Crossing α)}
    (hsorted : cs.Pairwise fun c d => c.1 < d.1 ∨ c.1 = d.1 ∧ c.2 ≤ d.2)
    (hsigns : ∀ c ∈ cs, c.2 = -1 ∨ c.2 = 1) : around x 0 cs ≤ 1 ↔ Single x cs := by
  have hle : cs.Pairwise fun c d => c.1 ≤ d.1 :=
    hsorted.imp fun h => h.elim le_of_lt fun h => h.1.le
  have hhere : ∀ c ∈ here x cs, c.1 = x := fun c hc => of_decide_eq_true (List.mem_filter.mp hc).2
  have hsigns' : ∀ c ∈ here x cs, c.2 = -1 ∨ c.2 = 1 :=
    fun c hc => hsigns c (List.mem_filter.mp hc).1
  have hsorted' : (here x cs).Pairwise fun c d => c.2 ≤ d.2 := by
    refine (hsorted.filter _).imp_of_mem fun {c d} hc hd h => ?_
    have hc' := hhere c hc
    have hd' := hhere d hd
    rcases h with h | h
    · exact absurd (hc'.trans hd'.symm) h.ne
    · exact h.2
  rw [around_eq x 0 cs hle, zero_add, Single, signsHere, signsHere]
  exact around_here_le_one_iff (before x cs) hhere hsigns' hsorted'

end

end Aetheris.Scanline
