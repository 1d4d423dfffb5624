import Mathlib

/-!
# Runs of a deterministic system

A system is a function `step` from a state and an event to the next state.  A run is a list of
events; the states it goes through are those of `List.scanl`.

A condition on events holds along a run if every event meets it in the state it happens in.  What
the steps meeting it preserve holds in all states of the run; and if exactly these steps preserve
it, the run is one along which the condition holds.  For a step that may not return the run is over
then, and the same is true of the states so far.
-/

namespace Aetheris.Runs

variable {σ ε : Type*} (step : σ → ε → σ)

/-- Every event of the run meets the condition in the state before it. -/
def Along (P : σ → ε → Prop) : σ → List ε → Prop
  | _, [] => True
  | s, e :: es => P s e ∧ Along P (step s e) es

variable {step}

theorem along_of_forall {P : σ → ε → Prop} (hP : ∀ s e, P s e) :
    ∀ {es : List ε} {s : σ}, Along step P s es
  | [], _ => trivial
  | e :: _, s => ⟨hP s e, along_of_forall hP⟩

/-- What steps meeting the condition preserve holds in every state of a run along which the
condition is met. -/
theorem forall_mem_scanl {P : σ → ε → Prop} {I : σ → Prop}
    (hstep : ∀ s e, I s → P s e → I (step s e)) :
    ∀ {es : List ε} {s : σ}, I s → Along step P s es → ∀ t ∈ es.scanl step s, I t
  | [], s, hs, _, t, ht => by
    rw [List.scanl_nil, List.mem_singleton] at ht
    rwa [ht]
  | e :: es, s, hs, h, t, ht => by
    rw [List.scanl_cons, List.mem_cons] at ht
    rcases ht with rfl | ht
    · exact hs
    · exact forall_mem_scanl hstep (hstep s e hs h.1) h.2 t ht

theorem mem_scanl_self (es : List ε) (s : σ) : s ∈ es.scanl step s := by
  cases es with
  | nil => exact List.mem_singleton_self s
  | cons e es =>
    rw [List.scanl_cons]
    exact List.mem_cons_self

/-- **An invariant and the steps that keep it.**  `I` is the invariant that carries the proof
and `Q` the part of it that matters: if the steps meeting `P` keep `I` and every other step out
of `I` breaks `Q`, then `Q` holds in all states of a run exactly when all its steps meet `P`. -/
theorem forall_mem_scanl_iff {P : σ → ε → Prop} {I Q : σ → Prop} (hI : ∀ s, I s → Q s)
    (hstep : ∀ s e, I s → P s e → I (step s e))
    (hbreak : ∀ s e, I s → ¬ P s e → ¬ Q (step s e)) :
    ∀ {es : List ε} {s : σ}, I s → ((∀ t ∈ es.scanl step s, Q t) ↔ Along step P s es)
  | [], s, hs => by
    refine iff_of_true (fun t ht => ?_) trivial
    rw [List.scanl_nil, List.mem_singleton] at ht
    rw [ht]
    exact hI s hs
  | e :: es, s, hs => by
    refine ⟨fun h => ?_, fun h t ht => hI t (forall_mem_scanl hstep hs h t ht)⟩
    have htail : ∀ t ∈ es.scanl step (step s e), Q t := fun t ht => by
      refine h t ?_
      rw [List.scanl_cons]
      exact List.mem_cons_of_mem _ ht
    have hP : P s e := by
      by_contra hP
      exact hbreak s e hs hP (htail _ (mem_scanl_self es _))
    exact ⟨hP, (forall_mem_scanl_iff hI hstep hbreak (hstep s e hs hP)).mp htail⟩

/-! ## Steps that may not return -/

section Returning

variable (step : σ → ε → Option σ)

/-- The states a run goes through, up to an event that does not return. -/
def states : σ → List ε → List σ
  | s, [] => [s]
  | s, e :: es =>
    s ::
      match step s e with
      | some t => states t es
      | none => []

/-- Every event of the run that returns meets the condition in the state before it. -/
def AlongReturning (P : σ → ε → Prop) : σ → List ε → Prop
  | _, [] => True
  | s, e :: es => ∀ t, step s e = some t → P s e ∧ AlongReturning P t es

variable {step}

theorem mem_states_self (es : List ε) (s : σ) : s ∈ states step s es := by
  cases es with
  | nil => exact List.mem_singleton_self s
  | cons e es => exact List.mem_cons_self

theorem mem_states_cons {s t u : σ} {e : ε} {es : List ε} (h : step s e = some t) :
    u ∈ states step s (e :: es) ↔ u = s ∨ u ∈ states step t es := by
  rw [states, h, List.mem_cons]

/-- Where a run ends that returns from all its events. -/
theorem mem_states_of_foldlM :
    ∀ {es : List ε} {s t : σ}, es.foldlM step s = some t → t ∈ states step s es
  | [], s, t, h => by
    rw [List.foldlM_nil] at h
    rw [← Option.some.inj h]
    exact mem_states_self [] s
  | e :: es, s, t, h => by
    rw [List.foldlM_cons] at h
    obtain ⟨u, hu, hrest⟩ := Option.bind_eq_some_iff.mp h
    exact (mem_states_cons hu).mpr (Or.inr (mem_states_of_foldlM hrest))

theorem alongReturning_of_forall {P : σ → ε → Prop} (hP : ∀ s e, P s e) :
    ∀ {es : List ε} {s : σ}, AlongReturning step P s es
  | [], _ => trivial
  | e :: _, s => fun _ _ => ⟨hP s e, alongReturning_of_forall hP⟩

/-- What steps meeting the condition preserve holds in every state of a run along which the
condition is met. -/
theorem forall_mem_states {P : σ → ε → Prop} {I : σ → Prop}
    (hstep : ∀ s e t, I s → P s e → step s e = some t → I t) :
    ∀ {es : List ε} {s : σ}, I s → AlongReturning step P s es → ∀ u ∈ states step s es, I u
  | [], s, hs, _, u, hu => by
    rw [states, List.mem_singleton] at hu
    rwa [hu]
  | e :: es, s, hs, h, u, hu => by
    cases ht : step s e with
    | none =>
      rw [states, ht, List.mem_singleton] at hu
      rwa [hu]
    | some t =>
      obtain ⟨hP, hrest⟩ := h t ht
      rcases (mem_states_cons ht).mp hu with rfl | hu
      · exact hs
      · exact forall_mem_states hstep (hstep s e t hs hP ht) hrest u hu

/-- **An invariant and the steps that keep it**, for steps that may not return. -/
theorem forall_mem_states_iff {P : σ → ε → Prop} {I Q : σ → Prop} (hI : ∀ s, I s → Q s)
    (hstep : ∀ s e t, I s → P s e → step s e = some t → I t)
    (hbreak : ∀ s e t, I s → ¬ P s e → step s e = some t → ¬ Q t) :
    ∀ {es : List ε} {s : σ}, I s →
      ((∀ u ∈ states step s es, Q u) ↔ AlongReturning step P s es)
  | [], s, hs => by
    refine iff_of_true (fun u hu => ?_) trivial
    rw [states, List.mem_singleton] at hu
    rw [hu]
    exact hI s hs
  | e :: es, s, hs => by
    refine ⟨fun h t ht => ?_, fun h u hu => hI u (forall_mem_states hstep hs h u hu)⟩
    have htail : ∀ u ∈ states step t es, Q u :=
      fun u hu => h u ((mem_states_cons ht).mpr (Or.inr hu))
    have hP : P s e := by
      by_contra hP
      exact hbreak s e t hs hP ht (htail _ (mem_states_self es _))
    exact ⟨hP, (forall_mem_states_iff hI hstep hbreak (hstep s e t hs hP ht)).mp htail⟩

theorem alongReturning_and {P Q : σ → ε → Prop} :
    ∀ {es : List ε} {s : σ}, AlongReturning step (fun s e => P s e ∧ Q s e) s es ↔
      AlongReturning step P s es ∧ AlongReturning step Q s es
  | [], _ => (and_self_iff).symm
  | e :: es, s => by
    refine ⟨fun h => ⟨fun t ht => ?_, fun t ht => ?_⟩, fun h t ht => ?_⟩
    · exact ⟨(h t ht).1.1, (alongReturning_and.mp (h t ht).2).1⟩
    · exact ⟨(h t ht).1.2, (alongReturning_and.mp (h t ht).2).2⟩
    · exact ⟨⟨(h.1 t ht).1, (h.2 t ht).1⟩, alongReturning_and.mpr ⟨(h.1 t ht).2, (h.2 t ht).2⟩⟩

/-- Along a run that keeps an invariant, conditions that the invariant makes equivalent are. -/
theorem alongReturning_congr {P Q R : σ → ε → Prop} {I : σ → Prop}
    (hstep : ∀ s e t, I s → P s e → step s e = some t → I t)
    (hiff : ∀ s e t, I s → P s e → step s e = some t → (Q s e ↔ R s e)) :
    ∀ {es : List ε} {s : σ}, I s → AlongReturning step P s es →
      (AlongReturning step Q s es ↔ AlongReturning step R s es)
  | [], _, _, _ => Iff.rfl
  | e :: es, s, hs, h => by
    refine forall₂_congr fun t ht => ?_
    obtain ⟨hP, hrest⟩ := h t ht
    rw [hiff s e t hs hP ht, alongReturning_congr hstep hiff (hstep s e t hs hP ht) hrest]

end Returning

end Aetheris.Runs
