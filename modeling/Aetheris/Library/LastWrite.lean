import Mathlib

/-!
# The last write

Elements of a list may each give a value, and the last value given is the one that counts.  It is
what a store holds that each element overwrites or leaves as it is.  If the elements have places,
the value that prevails is the one given at the greatest of them, which is the last write in their
order.
-/

namespace Aetheris

variable {α β κ σ : Type*}

/-- The last value that an element of the list gives. -/
def lastWrite (f : α → Option β) (l : List α) : Option β := (l.filterMap f).getLast?

@[simp] theorem lastWrite_nil (f : α → Option β) : lastWrite f [] = none := rfl

theorem lastWrite_cons (f : α → Option β) (a : α) (l : List α) :
    lastWrite f (a :: l) = (lastWrite f l).or (f a) := by
  rw [lastWrite, lastWrite, List.filterMap_cons]
  cases f a with
  | none => rw [Option.or_none]
  | some b =>
    rw [List.getLast?_cons]
    cases (l.filterMap f).getLast? with
    | none => rfl
    | some c => rfl

theorem lastWrite_eq_none_iff {f : α → Option β} {l : List α} :
    lastWrite f l = none ↔ ∀ a ∈ l, f a = none := by
  rw [lastWrite, List.getLast?_eq_none_iff, List.filterMap_eq_nil_iff]

theorem lastWrite_congr {f g : α → Option β} {l : List α} (h : ∀ a ∈ l, f a = g a) :
    lastWrite f l = lastWrite g l := by
  rw [lastWrite, lastWrite, List.filterMap_congr h]

/-- One element alone can give a value. -/
theorem lastWrite_eq_of_forall {f : α → Option β} {l : List α} {a : α} (ha : a ∈ l)
    (h : ∀ b ∈ l, b ≠ a → f b = none) : lastWrite f l = f a := by
  induction l with
  | nil => exact absurd ha List.not_mem_nil
  | cons b l ih =>
    rw [lastWrite_cons]
    have hl : ∀ c ∈ l, c ≠ a → f c = none := fun c hc => h c (List.mem_cons_of_mem _ hc)
    by_cases hmem : a ∈ l
    · rw [ih hmem hl]
      by_cases heq : b = a
      · rw [heq, Option.or_self]
      · rw [h b List.mem_cons_self heq, Option.or_none]
    · have heq : a = b := (List.mem_cons.mp ha).resolve_right hmem
      have hnone : lastWrite f l = none := lastWrite_eq_none_iff.mpr fun c hc =>
        hl c hc fun hca => hmem (hca ▸ hc)
      rw [hnone, Option.none_or, heq]

/-- Where the first kind of write is made, a write of one of two kinds is made. -/
theorem lastWrite_or_isSome {f g : α → Option β} {l : List α} {b : β}
    (h : lastWrite f l = some b) : ∃ c, lastWrite (fun a => (f a).or (g a)) l = some c := by
  rw [← Option.ne_none_iff_exists']
  intro hnone
  have hf : lastWrite f l = none := lastWrite_eq_none_iff.mpr fun a ha =>
    (Option.or_eq_none_iff.mp (lastWrite_eq_none_iff.mp hnone a ha)).1
  exact Option.some_ne_none b (h.symm.trans hf)

theorem lastWrite_or_of_none {f g : α → Option β} {l : List α} (h : lastWrite f l = none) :
    lastWrite (fun a => (f a).or (g a)) l = lastWrite g l :=
  lastWrite_congr fun a ha => by rw [lastWrite_eq_none_iff.mp h a ha, Option.none_or]

/-! ## Stores -/

/-- Where an invariant of the store says what one element writes, the store holds the last
write. -/
theorem foldl_lastWrite_of_invariant {f : α → Option β} (get : σ → Option β) {step : σ → α → σ}
    {l : List α} (invariant : σ → Prop) (hkept : ∀ s, invariant s → ∀ a ∈ l, invariant (step s a))
    (h : ∀ s, invariant s → ∀ a ∈ l, get (step s a) = (f a).or (get s)) {s : σ}
    (hs : invariant s) : get (l.foldl step s) = (lastWrite f l).or (get s) := by
  induction l generalizing s with
  | nil => rfl
  | cons a l ih =>
    have hstep := ih (fun s hs b hb => hkept s hs b (List.mem_cons_of_mem _ hb))
      (fun s hs b hb => h s hs b (List.mem_cons_of_mem _ hb)) (hkept s hs a List.mem_cons_self)
    rw [List.foldl_cons, hstep, h s hs a List.mem_cons_self, lastWrite_cons, Option.or_assoc]

/-- **A store holds the last write to it.** -/
theorem foldl_lastWrite {f : α → Option β} (get : σ → Option β) {step : σ → α → σ} {l : List α}
    (h : ∀ s, ∀ a ∈ l, get (step s a) = (f a).or (get s)) (s : σ) :
    get (l.foldl step s) = (lastWrite f l).or (get s) :=
  foldl_lastWrite_of_invariant get (fun _ => True) (fun _ _ _ _ => True.intro) (fun s _ => h s)
    True.intro

/-! ## Places -/

variable [LinearOrder κ]

/-- The value that is given at the greatest of the places where one is given; the initial value if
none is given. -/
inductive Prevails (f : α → Option β) (initial : Option β) (entries : List (κ × α)) :
    Option β → Prop
  | given {place : κ} {a : α} {b : β} (mem : (place, a) ∈ entries) (value : f a = some b)
      (last : ∀ entry ∈ entries, (f entry.2).isSome → entry.1 ≤ place) :
      Prevails f initial entries (some b)
  | initial (none_given : ∀ entry ∈ entries, f entry.2 = none) : Prevails f initial entries initial

theorem Prevails.congr {f : α → Option β} {initial value : Option β} {l m : List (κ × α)}
    (hmem : ∀ entry, entry ∈ l ↔ entry ∈ m) (h : Prevails f initial l value) :
    Prevails f initial m value := by
  cases h with
  | given mem value last =>
    exact .given ((hmem _).mp mem) value fun entry hentry => last entry ((hmem _).mpr hentry)
  | initial none_given => exact .initial fun entry hentry => none_given entry ((hmem _).mpr hentry)

/-- In the order of the places the last write is the one at the greatest place. -/
theorem lastWrite_eq_some_iff {f : α → Option β} {l : List (κ × α)}
    (hl : l.Pairwise fun x y => x.1 < y.1) {b : β} :
    lastWrite f (l.map Prod.snd) = some b ↔
      ∃ entry ∈ l, f entry.2 = some b ∧
        ∀ other ∈ l, (f other.2).isSome → other.1 ≤ entry.1 := by
  induction l with
  | nil => simp
  | cons x l ih =>
    obtain ⟨hx, hl'⟩ := List.pairwise_cons.mp hl
    rw [List.map_cons, lastWrite_cons, Option.or_eq_some_iff, ih hl']
    constructor
    · rintro (⟨entry, hentry, hb, hlast⟩ | ⟨hnone, hb⟩)
      · refine ⟨entry, List.mem_cons_of_mem _ hentry, hb, fun other hother hsome => ?_⟩
        rcases List.mem_cons.mp hother with rfl | hother
        · exact (hx entry hentry).le
        · exact hlast other hother hsome
      · refine ⟨x, List.mem_cons_self, hb, fun other hother hsome => ?_⟩
        rcases List.mem_cons.mp hother with rfl | hother
        · exact le_rfl
        · have hother' := lastWrite_eq_none_iff.mp hnone other.2 (List.mem_map_of_mem hother)
          rw [hother'] at hsome
          exact absurd hsome Bool.false_ne_true
    · rintro ⟨entry, hentry, hb, hlast⟩
      rcases List.mem_cons.mp hentry with rfl | hentry
      · refine Or.inr ⟨lastWrite_eq_none_iff.mpr fun a ha => ?_, hb⟩
        obtain ⟨other, hother, rfl⟩ := List.mem_map.mp ha
        -- a later write would be at a greater place
        by_contra hsome
        exact absurd (hlast other (List.mem_cons_of_mem _ hother)
          (Option.isSome_iff_ne_none.mpr hsome)) (not_le.mpr (hx other hother))
      · exact Or.inl ⟨entry, hentry, hb,
          fun other hother => hlast other (List.mem_cons_of_mem _ hother)⟩

/-- **The value that prevails is the last write in the order of the places.** -/
theorem prevails_iff {f : α → Option β} {initial value : Option β} {l : List (κ × α)}
    (hl : l.Pairwise fun x y => x.1 < y.1) :
    Prevails f initial l value ↔ value = (lastWrite f (l.map Prod.snd)).or initial := by
  have hnone : lastWrite f (l.map Prod.snd) = none ↔ ∀ entry ∈ l, f entry.2 = none := by
    rw [lastWrite_eq_none_iff, List.forall_mem_map]
  constructor
  · rintro (⟨mem, hb, last⟩ | none_given)
    · rw [(lastWrite_eq_some_iff hl).mpr ⟨_, mem, hb, last⟩, Option.some_or]
    · rw [hnone.mpr none_given, Option.none_or]
  · rintro rfl
    cases hwrite : lastWrite f (l.map Prod.snd) with
    | none => exact .initial (hnone.mp hwrite)
    | some b =>
      obtain ⟨entry, hentry, hb, hlast⟩ := (lastWrite_eq_some_iff hl).mp hwrite
      exact .given hentry hb hlast

end Aetheris
