import Aetheris.Js.JsonRoundTrip
import Aetheris.Js.LexerIndices
import Aetheris.Js.Parser
import Aetheris.Library.Fuel

/-!
# The parser goes on

Every function of the parser takes tokens off the front of the list or leaves it as it is, and each
loop takes one off in every round, or stops.  The depth of the calls is bounded by the number of the
tokens that are left, and where none is taken off, by the order of the functions.

This gives each function a bound, and all bounds are proved at once by induction on the depth.  With
the lexer, whose tokens end with the end of the input, the front end of a script is total.
-/

namespace Aetheris.Js.Syntax

open Fuel

/-! ## What is left -/

/-- A list of tokens that ends with the end of the input and has it nowhere else; its regular
expressions can be compiled or are rejected. -/
def Ends (tokens : List Token) : Prop :=
  ∃ front, tokens = front ++ [.endOfInput] ∧ .endOfInput ∉ front ∧
    ∀ text flags, .regex text flags ∈ front → Regex.compile text flags ≠ none

/-- The parser `t` stands at least `k` tokens behind `s` in the list of tokens. -/
structure Later (k : ℕ) (s t : Parser) : Prop where
  suffix : t.tokens <:+ s.tokens
  ends : Ends t.tokens
  left : t.tokens.length + k ≤ s.tokens.length

/-- A token, if there is one before the end. -/
def need (s : Parser) : ℕ := if s.atEnd then 0 else 1

theorem need_le (s : Parser) : need s ≤ 1 := by
  rw [need]
  split <;> decide

theorem need_setError (s : Parser) (message : Bytes) : need (s.setError message) = need s := by
  rw [Parser.setError]
  split <;> rfl

theorem Ends.cases {tokens : List Token} (h : Ends tokens) :
    tokens = [.endOfInput] ∨ ∃ t u rest, tokens = t :: u :: rest ∧ t ≠ .endOfInput ∧
      Ends (u :: rest) := by
  obtain ⟨front, rfl, hnot, hregex⟩ := h
  cases front with
  | nil => exact Or.inl rfl
  | cons t front =>
    obtain ⟨hne, hnot⟩ := not_or.mp (mt List.mem_cons.mpr hnot)
    have hrest : Ends (front ++ [.endOfInput]) :=
      ⟨front, rfl, hnot, fun text flags hmem => hregex text flags (List.mem_cons_of_mem _ hmem)⟩
    cases front with
    | nil => exact Or.inr ⟨t, _, _, rfl, fun h => hne h.symm, hrest⟩
    | cons u front => exact Or.inr ⟨t, _, _, rfl, fun h => hne h.symm, hrest⟩

theorem Later.refl {s : Parser} (hs : Ends s.tokens) : Later 0 s s :=
  ⟨List.suffix_rfl, hs, Nat.le_refl _⟩

variable {j k : ℕ} {s t u : Parser}

theorem Later.trans (h : Later j s t) (h' : Later k t u) : Later (j + k) s u :=
  ⟨h'.suffix.trans h.suffix, h'.ends, by
    have hj := h.left
    have hk := h'.left
    omega⟩

theorem Later.mono (h : Later j s t) (hle : k ≤ j) : Later k s t :=
  ⟨h.suffix, h.ends, (Nat.add_le_add_left hle _).trans h.left⟩

/-- **A step over one token**, or none at the end. -/
theorem Later.step (h : Later k s t) : Later (k + need t) s t.advance := by
  refine h.trans ?_
  rcases h.ends.cases with hend | ⟨a, b, rest, htokens, hne, hrest⟩
  · have hadvance : t.advance = t := by rw [Parser.advance, hend]
    have hneed : need t = 0 := by
      rw [need, if_pos]
      rw [Parser.atEnd, Parser.peek, Parser.peekAt, hend]
      rfl
    rw [hadvance, hneed]
    exact Later.refl h.ends
  · have hadvance : t.advance.tokens = b :: rest := by rw [Parser.advance, htokens]
    have hneed := need_le t
    refine ⟨?_, hadvance ▸ hrest, ?_⟩
    · rw [hadvance, htokens]
      exact List.suffix_cons a _
    · rw [hadvance, htokens, List.length_cons (a := a)]
      omega

theorem Later.advance (h : Later k s t) (hnot : t.atEnd = false) :
    Later (k + 1) s t.advance := by
  have hstep := h.step
  rwa [need, hnot, if_neg Bool.false_ne_true] at hstep

theorem Later.advance_le (h : Later k s t) : Later k s t.advance :=
  h.step.mono (Nat.le_add_right _ _)

theorem Later.setError (h : Later k s t) (message : Bytes) : Later k s (t.setError message) := by
  rw [Parser.setError]
  split
  · exact ⟨h.suffix, h.ends, h.left⟩
  · exact h

theorem Later.expect (h : Later k s t) (expected : Bytes) : Later k s (t.expect expected) := by
  rw [Parser.expect]
  split
  · exact h.advance_le
  · exact h.setError _

theorem Later.skip (h : Later k s t) (expected : Bytes) : Later k s (t.skip expected) := by
  rw [Parser.skip]
  split
  · exact h.advance_le
  · exact h

/-! ## What is not the end -/

theorem not_atEnd_of_check {expected : Bytes} (h : s.check expected = true) : s.atEnd = false := by
  rw [Parser.check] at h
  rw [Parser.atEnd]
  cases hpeek : s.peek with
  | endOfInput =>
    rw [hpeek] at h
    exact absurd h Bool.false_ne_true
  | _ => rfl

theorem not_atEnd_of_checkAny {expected : List Bytes} (h : s.checkAny expected = true) :
    s.atEnd = false := by
  obtain ⟨text, -, hcheck⟩ := List.any_eq_true.mp h
  exact not_atEnd_of_check hcheck

theorem not_atEnd_of_atName (h : s.atName = true) : s.atEnd = false := by
  rw [Parser.atName] at h
  rw [Parser.atEnd]
  cases hpeek : s.peek with
  | endOfInput =>
    rw [hpeek] at h
    exact absurd h Bool.false_ne_true
  | _ => rfl

theorem atName_of_atIdentifier (h : s.atIdentifier = true) : s.atName = true := by
  rw [Parser.atIdentifier] at h
  rw [Parser.atName]
  cases hpeek : s.peek with
  | identifier text => rfl
  | keyword text => rfl
  | _ =>
    rw [hpeek] at h
    exact absurd h Bool.false_ne_true

/-! ## Functions within a depth -/

/-- Within the depth `n` the function comes to an end wherever it is called with few enough tokens
left, and takes `gain` of them off; `state` is what it leaves. -/
def Reads (n rank : ℕ) {α : Type} (state : α → Parser) (gain : Parser → ℕ)
    (f : ℕ → Parser → Option α) : Prop :=
  ∀ s, Ends s.tokens → 16 * s.tokens.length + rank ≤ n →
    Settles n (fun a => Later (gain s) s (state a)) (fun fuel => f fuel s)

/-- No token need be taken off. -/
def nothing (_ : Parser) : ℕ := 0

/-- The brace that opens a block, if it is there. -/
def brace (s : Parser) : ℕ := if s.check (lit "\x7b") then 1 else 0

/-- A call behind `k` tokens that have been taken off. -/
theorem Reads.call {n rank rank' : ℕ} {α : Type} {state : α → Parser} {gain : Parser → ℕ}
    {f : ℕ → Parser → Option α} (h : Reads n rank state gain f) (ht : Later k s t)
    (hn : 16 * s.tokens.length + rank' ≤ n + 1) (hrank : rank + 1 ≤ 16 * k + rank') :
    Settles n (fun a => Later (k + gain t) s (state a)) (fun fuel => f fuel t) := by
  have hleft := ht.left
  exact (h t ht.ends (by omega)).mono fun a ha => ht.trans ha

/-- **All functions of the parser**, with a rank for each: a function calls another one of the same
or a greater rank only behind a token that has been taken off. -/
structure Settled (n : ℕ) : Prop where
  parameters : Reads n 1 Prod.snd nothing parameterLoop
  function : ∀ isDeclaration, Reads n 1 Prod.snd nothing fun fuel => parseFunction fuel isDeclaration
  block : Reads n 1 Prod.snd brace parseBlock
  primary : Reads n 2 Prod.snd need parsePrimary
  accesses : ∀ e, Reads n 1 Prod.snd nothing fun fuel => applyPostfix fuel e
  callee : ∀ e, Reads n 1 Prod.snd nothing fun fuel => calleeLoop fuel e
  unary : Reads n 4 Prod.snd need parseUnary
  operators : ∀ p e, Reads n 1 Prod.snd nothing fun fuel => binaryLoop fuel p e
  binary : ∀ p, Reads n 5 Prod.snd need fun fuel => parseBinary fuel p
  conditional : Reads n 6 Prod.snd need parseConditional
  assignment : Reads n 7 Prod.snd need parseAssignment
  arguments : ∀ close stops, Reads n 8 Prod.snd nothing fun fuel => argumentLoop fuel close stops
  properties : Reads n 1 Prod.snd nothing propertyLoop
  classBody : Reads n 1 Prod.snd nothing parseClass
  methods : ∀ left properties,
    Reads n 2 (fun r => r.2.2) nothing fun fuel => methodLoop fuel left properties
  declarations : Reads n 1 (fun r => r.2.2) nothing declarationLoop
  statement : Reads n 12 Prod.snd need parseStatement
  forLoop : Reads n 13 Prod.snd nothing parseFor
  statements : Reads n 13 Prod.snd nothing blockLoop
  switchCases : Reads n 1 (fun r => r.2.2) nothing switchLoop
  caseStatements : Reads n 13 Prod.snd nothing caseLoop

variable {n : ℕ}

/-! ## Expressions -/

theorem reads_parseAssignment (h : Settled n) : Reads (n + 1) 7 Prod.snd need parseAssignment := by
  intro s hs hn
  refine Settles.succ (fun fuel => parseAssignment.eq_2 _ _) ?_
  refine (h.conditional.call (Later.refl hs) hn (by omega)).bind ?_
  rintro ⟨left, t⟩ ht
  dsimp only at ht ⊢
  refine Settles.ite (fun hcheck => ?_) fun _ => ?_
  · refine (h.assignment.call (ht.advance (not_atEnd_of_checkAny hcheck)) hn (by omega)).bind ?_
    rintro ⟨right, u⟩ hu
    exact settles_some (hu.mono (by omega))
  · exact settles_some (ht.mono (by omega))

theorem reads_parseConditional (h : Settled n) : Reads (n + 1) 6 Prod.snd need parseConditional := by
  intro s hs hn
  refine Settles.succ (fun fuel => parseConditional.eq_2 _ _) ?_
  refine ((h.binary 1).call (Later.refl hs) hn (by omega)).bind ?_
  rintro ⟨condition, t⟩ ht
  dsimp only at ht ⊢
  refine Settles.ite (fun hcheck => ?_) fun _ => ?_
  · refine (h.assignment.call (ht.advance (not_atEnd_of_check hcheck)) hn (by omega)).bind ?_
    rintro ⟨right, u⟩ hu
    refine (h.assignment.call (hu.expect _) hn (by omega)).bind ?_
    rintro ⟨third, v⟩ hv
    exact settles_some (hv.mono (by omega))
  · exact settles_some (ht.mono (by omega))

theorem reads_parseBinary (h : Settled n) (p : ℕ) :
    Reads (n + 1) 5 Prod.snd need fun fuel => parseBinary fuel p := by
  intro s hs hn
  refine Settles.succ (fun fuel => parseBinary.eq_2 _ _ _) ?_
  refine (h.unary.call (Later.refl hs) hn (by omega)).bind ?_
  rintro ⟨left, t⟩ ht
  exact ((h.operators p left).call ht hn (by omega)).mono fun r hr => hr.mono (by omega)

theorem reads_binaryLoop (h : Settled n) (p : ℕ) (e : Node) :
    Reads (n + 1) 1 Prod.snd nothing fun fuel => binaryLoop fuel p e := by
  intro s hs hn
  refine Settles.succ (fun fuel => binaryLoop.eq_2 _ _ _ _) ?_
  have hround (op : Bytes) (hnot : s.atEnd = false) :
      Settles n (fun r => Later (nothing s) s r.2) fun fuel =>
        parseBinary fuel (binaryPrecedence op + 1) s.advance >>= fun r =>
          binaryLoop fuel p (binaryNode op e r.1) r.2 := by
    refine ((h.binary _).call ((Later.refl hs).advance hnot) hn (by omega)).bind ?_
    rintro ⟨right, t⟩ ht
    exact ((h.operators p _).call ht hn (by omega)).mono fun r hr => hr.mono (Nat.zero_le _)
  cases hpeek : s.peek with
  | punctuator op =>
    exact Settles.ite (fun _ => settles_some (Later.refl hs)) fun _ =>
      hround op (by rw [Parser.atEnd, hpeek]; rfl)
  | keyword op =>
    exact Settles.ite (fun _ => settles_some (Later.refl hs)) fun _ =>
      hround op (by rw [Parser.atEnd, hpeek]; rfl)
  | _ => exact settles_some (Later.refl hs)

theorem reads_parseUnary (h : Settled n) : Reads (n + 1) 4 Prod.snd need parseUnary := by
  intro s hs hn
  have hneed := need_le s
  refine Settles.succ (fun fuel => parseUnary.eq_2 _ _) ?_
  refine Settles.ite (fun hcheck => ?_) fun _ => Settles.ite (fun hcheck => ?_) fun _ => ?_
  · have hnew := (Later.refl hs).advance (not_atEnd_of_check hcheck)
    refine (h.primary.call hnew hn (by omega)).bind ?_
    rintro ⟨callee, t⟩ ht
    refine ((h.callee callee).call ht hn (by omega)).bind ?_
    rintro ⟨callee, u⟩ hu
    dsimp only at hu ⊢
    refine Settles.ite (fun hparen => ?_) fun _ => ?_
    · refine ((h.arguments _ _).call (hu.advance (not_atEnd_of_check hparen)) hn (by omega)).bind ?_
      rintro ⟨children, v⟩ hv
      exact ((h.accesses _).call (hv.expect _) hn (by omega)).mono fun r hr => hr.mono (by omega)
    · exact ((h.accesses _).call hu hn (by omega)).mono fun r hr => hr.mono (by omega)
  · refine (h.unary.call ((Later.refl hs).advance (not_atEnd_of_checkAny hcheck)) hn
      (by omega)).bind ?_
    rintro ⟨left, t⟩ ht
    exact settles_some (ht.mono (by omega))
  · refine (h.primary.call (Later.refl hs) hn (by omega)).bind ?_
    rintro ⟨expression, t⟩ ht
    exact ((h.accesses _).call ht hn (by omega)).mono fun r hr => hr.mono (by omega)

theorem reads_calleeLoop (h : Settled n) (e : Node) :
    Reads (n + 1) 1 Prod.snd nothing fun fuel => calleeLoop fuel e := by
  intro s hs hn
  refine Settles.succ (fun fuel => calleeLoop.eq_2 _ _ _) ?_
  refine Settles.ite (fun _ => settles_some (Later.refl hs)) fun _ => ?_
  refine Settles.ite (fun hcheck => ?_) fun _ => Settles.ite (fun hcheck => ?_) fun _ => ?_
  · have hdot := (Later.refl hs).advance (not_atEnd_of_check hcheck)
    refine Settles.ite (fun _ => ?_) fun _ => ?_
    · exact ((h.callee _).call hdot.advance_le hn (by omega)).mono fun r hr =>
        hr.mono (Nat.zero_le _)
    · exact ((h.callee _).call (hdot.setError _) hn (by omega)).mono fun r hr =>
        hr.mono (Nat.zero_le _)
  · refine (h.assignment.call ((Later.refl hs).advance (not_atEnd_of_check hcheck)) hn
      (by omega)).bind ?_
    rintro ⟨right, t⟩ ht
    exact ((h.callee _).call (ht.expect _) hn (by omega)).mono fun r hr => hr.mono (Nat.zero_le _)
  · exact settles_some (Later.refl hs)

theorem reads_applyPostfix (h : Settled n) (e : Node) :
    Reads (n + 1) 1 Prod.snd nothing fun fuel => applyPostfix fuel e := by
  intro s hs hn
  refine Settles.succ (fun fuel => applyPostfix.eq_2 _ _ _) ?_
  refine Settles.ite (fun hcheck => ?_) fun _ => Settles.ite (fun hcheck => ?_) fun _ =>
    Settles.ite (fun hcheck => ?_) fun _ => Settles.ite (fun hcheck => ?_) fun _ => ?_
  · have hdot := (Later.refl hs).advance (not_atEnd_of_check hcheck)
    refine Settles.ite (fun _ => ?_) fun _ => ?_
    · exact ((h.accesses _).call hdot.advance_le hn (by omega)).mono fun r hr =>
        hr.mono (Nat.zero_le _)
    · exact settles_some ((hdot.setError _).mono (Nat.zero_le _))
  · refine (h.assignment.call ((Later.refl hs).advance (not_atEnd_of_check hcheck)) hn
      (by omega)).bind ?_
    rintro ⟨right, t⟩ ht
    exact ((h.accesses _).call (ht.expect _) hn (by omega)).mono fun r hr =>
      hr.mono (Nat.zero_le _)
  · refine ((h.arguments _ _).call ((Later.refl hs).advance (not_atEnd_of_check hcheck)) hn
      (by omega)).bind ?_
    rintro ⟨children, t⟩ ht
    exact ((h.accesses _).call (ht.expect _) hn (by omega)).mono fun r hr =>
      hr.mono (Nat.zero_le _)
  · exact ((h.accesses _).call ((Later.refl hs).advance (not_atEnd_of_checkAny hcheck)) hn
      (by omega)).mono fun r hr => hr.mono (Nat.zero_le _)
  · exact settles_some (Later.refl hs)

/-- A comma, and the rest of a list behind it; the function is the loop itself. -/
theorem Reads.call_comma {rank : ℕ} {α : Type} {state : α → Parser}
    {f : ℕ → Parser → Option α} (h : Reads n rank state nothing f) (ht : Later k s t)
    (hcomma : t.check (lit ",") = true) (hn : 16 * s.tokens.length + rank ≤ n + 1) :
    Settles n (fun a => Later 0 s (state a)) (fun fuel => f fuel t.advance) :=
  (h.call (ht.advance (not_atEnd_of_check hcomma)) hn (by omega)).mono fun _ ha =>
    ha.mono (Nat.zero_le _)

theorem reads_argumentLoop (h : Settled n) (close : Bytes) (stops : Bool) :
    Reads (n + 1) 8 Prod.snd nothing fun fuel => argumentLoop fuel close stops := by
  intro s hs hn
  refine Settles.succ (fun fuel => argumentLoop.eq_2 _ _ _ _) ?_
  refine Settles.ite (fun _ => settles_some (Later.refl hs)) fun _ => ?_
  refine (h.assignment.call (Later.refl hs) hn (by omega)).bind ?_
  rintro ⟨child, t⟩ ht
  dsimp only at ht ⊢
  refine Settles.ite (fun hcomma => ?_) fun _ => ?_
  · refine ((h.arguments _ _).call_comma ht hcomma hn).bind ?_
    rintro ⟨children, u⟩ hu
    exact settles_some hu
  · exact settles_some (ht.mono (Nat.zero_le _))

theorem not_atEnd_of_key {key : Bytes}
    (hpeek : s.peek = .identifier key ∨ s.peek = .keyword key ∨ s.peek = .string key) :
    s.atEnd = false := by
  rw [Parser.atEnd]
  rcases hpeek with hpeek | hpeek | hpeek <;> rw [hpeek] <;> rfl

theorem reads_propertyLoop (h : Settled n) : Reads (n + 1) 1 Prod.snd nothing propertyLoop := by
  intro s hs hn
  refine Settles.succ (fun fuel => propertyLoop.eq_2 _ _) ?_
  refine Settles.ite (fun _ => settles_some (Later.refl hs)) fun _ => ?_
  have hproperty (key : Bytes) (hnot : s.atEnd = false) :
      Settles n (fun r => Later (nothing s) s r.2) fun fuel =>
        parseAssignment fuel (s.advance.expect (lit ":")) >>= fun r =>
          if r.2.check (lit ",") then
            propertyLoop fuel r.2.advance >>= fun q => some ((key, r.1) :: q.1, q.2)
          else some ([(key, r.1)], r.2) := by
    refine (h.assignment.call (((Later.refl hs).advance hnot).expect _) hn (by omega)).bind ?_
    rintro ⟨value, t⟩ ht
    dsimp only at ht ⊢
    refine Settles.ite (fun hcomma => ?_) fun _ => ?_
    · refine (h.properties.call_comma ht hcomma hn).bind ?_
      rintro ⟨properties, u⟩ hu
      exact settles_some hu
    · exact settles_some (ht.mono (Nat.zero_le _))
  cases hpeek : s.peek with
  | identifier key => exact hproperty key (not_atEnd_of_key (Or.inl hpeek))
  | keyword key => exact hproperty key (not_atEnd_of_key (Or.inr (Or.inl hpeek)))
  | string key => exact hproperty key (not_atEnd_of_key (Or.inr (Or.inr hpeek)))
  | _ => exact settles_some ((Later.refl hs).setError _)

/-- The regular expressions of the tokens are compiled. -/
theorem compile_of_peek {text flags : Bytes} (hs : Ends s.tokens)
    (hpeek : s.peek = .regex text flags) : Regex.compile text flags ≠ none := by
  obtain ⟨front, htokens, -, hregex⟩ := hs
  refine hregex text flags ?_
  rw [Parser.peek, Parser.peekAt, htokens] at hpeek
  cases front with
  | nil => cases hpeek
  | cons t front => exact hpeek ▸ List.mem_cons_self

theorem reads_parsePrimary (h : Settled n) : Reads (n + 1) 2 Prod.snd need parsePrimary := by
  intro s hs hn
  have hneed := need_le s
  have hstep := (Later.refl hs).step
  rw [Nat.zero_add] at hstep
  have hnext {expected : Bytes} (hcheck : s.check expected = true) : Later 1 s s.advance :=
    (Later.refl hs).advance (not_atEnd_of_check hcheck)
  have hother : Settles n (fun r => Later (need s) s r.2) fun fuel =>
      if text s.peek = lit "true" ∨ text s.peek = lit "false" then
        some (.booleanLiteral (text s.peek = lit "true"), s.advance)
      else if text s.peek = lit "null" then some (.nullLiteral, s.advance)
      else if text s.peek = lit "undefined" then
        some (.identifier (lit "undefined"), s.advance)
      else if text s.peek = lit "function" then parseFunction fuel false s.advance
      else if s.atName then some (.identifier (text s.peek), s.advance)
      else if s.check (lit "(") then
        parseAssignment fuel s.advance >>= fun r => some (r.1, r.2.expect (lit ")"))
      else if s.check (lit "[") then
        argumentLoop fuel (lit "]") false s.advance >>= fun r =>
          some (.arrayLiteral r.1, r.2.expect (lit "]"))
      else if s.check (lit "\x7b") then
        propertyLoop fuel s.advance >>= fun r =>
          some (.objectLiteral r.1, r.2.expect (lit "\x7d"))
      else
        some (.nullLiteral,
          (s.setError (lit "unexpected token '" ++ text s.peek ++ lit "'")).advance) := by
    refine Settles.ite (fun _ => settles_some hstep) fun _ => ?_
    refine Settles.ite (fun _ => settles_some hstep) fun _ => ?_
    refine Settles.ite (fun _ => settles_some hstep) fun _ => ?_
    refine Settles.ite (fun _ => ?_) fun _ => ?_
    · exact ((h.function false).call hstep hn (by omega)).mono fun r hr => hr.mono (by omega)
    refine Settles.ite (fun _ => settles_some hstep) fun _ => ?_
    refine Settles.ite (fun hcheck => ?_) fun _ => ?_
    · refine (h.assignment.call (hnext hcheck) hn (by omega)).bind fun r hr => ?_
      exact settles_some ((hr.expect _).mono (by omega))
    refine Settles.ite (fun hcheck => ?_) fun _ => ?_
    · refine ((h.arguments _ _).call (hnext hcheck) hn (by omega)).bind fun r hr => ?_
      exact settles_some ((hr.expect _).mono (by omega))
    refine Settles.ite (fun hcheck => ?_) fun _ => ?_
    · refine (h.properties.call (hnext hcheck) hn (by omega)).bind fun r hr => ?_
      exact settles_some ((hr.expect _).mono (by omega))
    · refine settles_some ?_
      have herror := ((Later.refl hs).setError
        (lit "unexpected token '" ++ text s.peek ++ lit "'")).step
      rwa [Nat.zero_add, need_setError] at herror
  refine Settles.succ (fun fuel => parsePrimary.eq_2 _ _) ?_
  cases hpeek : s.peek with
  | number text value => exact settles_some hstep
  | string text => exact settles_some hstep
  | regex text flags =>
    cases hcompile : Regex.compile text flags with
    | none => exact absurd hcompile (compile_of_peek hs hpeek)
    | some compiled =>
      cases compiled with
      | ok regex =>
        simp only [hcompile]
        exact settles_some hstep
      | error message =>
        simp only [hcompile]
        exact settles_some (hstep.setError _)
  | _ =>
    rw [hpeek] at hother
    exact hother

/-! ## Statements -/

theorem reads_parameterLoop (h : Settled n) : Reads (n + 1) 1 Prod.snd nothing parameterLoop := by
  intro s hs hn
  refine Settles.succ (fun fuel => parameterLoop.eq_2 _ _) ?_
  refine Settles.ite (fun _ => settles_some (Later.refl hs)) fun _ => ?_
  refine Settles.ite (fun _ => settles_some ((Later.refl hs).setError _)) fun _ => ?_
  refine Settles.ite (fun hcomma => ?_) fun _ => settles_some (Later.refl hs).advance_le
  refine (h.parameters.call_comma (Later.refl hs).advance_le hcomma hn).bind ?_
  rintro ⟨parameters, t⟩ ht
  exact settles_some ht

theorem reads_parseFunction (h : Settled n) (isDeclaration : Bool) :
    Reads (n + 1) 1 Prod.snd nothing fun fuel => parseFunction fuel isDeclaration := by
  intro s hs hn
  refine Settles.succ (fun fuel => parseFunction.eq_2 _ _ _) ?_
  refine Settles.ite (fun _ => settles_some ((Later.refl hs).setError _)) fun _ => ?_
  have hname : Later 0 s (if s.atIdentifier then s.advance else s) := by
    split
    · exact (Later.refl hs).advance_le
    · exact Later.refl hs
  refine Settles.ite (fun _ => settles_some (hname.expect _)) fun hcheck => ?_
  have hparen := hname.advance (not_atEnd_of_check (by simpa using hcheck))
  refine (h.parameters.call hparen hn (by omega)).bind ?_
  rintro ⟨parameters, t⟩ ht
  refine (h.block.call (ht.expect _) hn (by omega)).bind ?_
  rintro ⟨body, u⟩ hu
  exact settles_some (hu.mono (Nat.zero_le _))

theorem reads_parseBlock (h : Settled n) : Reads (n + 1) 1 Prod.snd brace parseBlock := by
  intro s hs hn
  refine Settles.succ (fun fuel => parseBlock.eq_2 _ _) ?_
  refine Settles.ite (fun hcheck => ?_) fun hcheck => ?_
  · have hnot : ¬ s.check (lit "\x7b") = true := by simpa using hcheck
    refine settles_some ?_
    rw [brace, if_neg hnot]
    exact (Later.refl hs).expect _
  · have hbrace : s.check (lit "\x7b") = true := by simpa using hcheck
    refine (h.statements.call ((Later.refl hs).advance (not_atEnd_of_check hbrace)) hn
      (by omega)).bind ?_
    rintro ⟨children, t⟩ ht
    refine settles_some ?_
    rw [brace, if_pos hbrace]
    exact (ht.expect _).mono (by omega)

/-- A statement, and the rest of a loop behind it. -/
theorem Settled.statement_of_not_atEnd (h : Settled n) (hs : Ends s.tokens) (hnot : s.atEnd = false)
    (hn : 16 * s.tokens.length + 13 ≤ n + 1) :
    Settles n (fun r => Later 1 s r.2) (fun fuel => parseStatement fuel s) := by
  refine (h.statement.call (Later.refl hs) hn (by omega)).mono fun r hr => ?_
  rwa [need, hnot, if_neg Bool.false_ne_true, Nat.zero_add] at hr

theorem reads_blockLoop (h : Settled n) : Reads (n + 1) 13 Prod.snd nothing blockLoop := by
  intro s hs hn
  refine Settles.succ (fun fuel => blockLoop.eq_2 _ _) ?_
  refine Settles.ite (fun _ => settles_some (Later.refl hs)) fun hstop => ?_
  simp only [Bool.or_eq_true, not_or, Bool.not_eq_true] at hstop
  refine (h.statement_of_not_atEnd hs hstop.1.2 hn).bind ?_
  rintro ⟨statement, t⟩ ht
  refine (h.statements.call ht hn (by omega)).bind ?_
  rintro ⟨children, u⟩ hu
  exact settles_some (hu.mono (Nat.zero_le _))

theorem reads_caseLoop (h : Settled n) : Reads (n + 1) 13 Prod.snd nothing caseLoop := by
  intro s hs hn
  refine Settles.succ (fun fuel => caseLoop.eq_2 _ _) ?_
  refine Settles.ite (fun _ => settles_some (Later.refl hs)) fun hstop => ?_
  simp only [Bool.or_eq_true, not_or, Bool.not_eq_true] at hstop
  refine (h.statement_of_not_atEnd hs hstop.2 hn).bind ?_
  rintro ⟨statement, t⟩ ht
  refine (h.caseStatements.call ht hn (by omega)).bind ?_
  rintro ⟨children, u⟩ hu
  exact settles_some (hu.mono (Nat.zero_le _))

theorem reads_parseClass (h : Settled n) : Reads (n + 1) 1 Prod.snd nothing parseClass := by
  intro s hs hn
  refine Settles.succ (fun fuel => parseClass.eq_2 _ _) ?_
  refine Settles.ite (fun _ => settles_some ((Later.refl hs).setError _)) fun _ => ?_
  have hname := (Later.refl hs).advance_le
  refine Settles.ite (fun _ => settles_some (hname.expect _)) fun hcheck => ?_
  have hbrace := hname.advance (not_atEnd_of_check (by simpa using hcheck))
  refine ((h.methods _ _).call hbrace hn (by omega)).bind ?_
  rintro ⟨left, properties, t⟩ ht
  exact settles_some ((ht.expect _).mono (Nat.zero_le _))

theorem reads_methodLoop (h : Settled n) (left : Option Node) (properties : List (Bytes × Node)) :
    Reads (n + 1) 2 (fun r => r.2.2) nothing fun fuel => methodLoop fuel left properties := by
  intro s hs hn
  refine Settles.succ (fun fuel => methodLoop.eq_2 _ _ _ _) ?_
  refine Settles.ite (fun _ => settles_some (Later.refl hs)) fun _ => ?_
  refine Settles.ite (fun _ => settles_some ((Later.refl hs).setError _)) fun hname => ?_
  have hmethod := (Later.refl hs).advance (not_atEnd_of_atName (by simpa using hname))
  refine ((h.function false).call hmethod hn (by omega)).bind ?_
  rintro ⟨function, t⟩ ht
  dsimp only at ht ⊢
  refine Settles.ite (fun _ => ?_) fun _ => ?_ <;>
    exact ((h.methods _ _).call ht hn (by omega)).mono fun r hr => hr.mono (Nat.zero_le _)

/-- A part that need not be there. -/
theorem settles_optionally {present : Bool} {p : ℕ → Option (Node × Parser)} (ht : Later k s t)
    (hp : present = true → Settles n (fun r => Later k s r.2) p) :
    Settles n (fun r => Later k s r.2) (fun fuel => optionally present (p fuel) t) := by
  cases present with
  | false => exact settles_some ht
  | true => exact (hp rfl).map fun r hr => hr

theorem reads_declarationLoop (h : Settled n) :
    Reads (n + 1) 1 (fun r => r.2.2) nothing declarationLoop := by
  intro s hs hn
  refine Settles.succ (fun fuel => declarationLoop.eq_2 _ _) ?_
  refine Settles.ite (fun _ => settles_some ((Later.refl hs).setError _)) fun hname => ?_
  have hvariable := (Later.refl hs).advance
    (not_atEnd_of_atName (atName_of_atIdentifier (by simpa using hname)))
  refine (settles_optionally hvariable fun _ => ?_).bind ?_
  · exact (h.assignment.call hvariable.advance_le hn (by omega)).mono fun r hr =>
      hr.mono (by omega)
  rintro ⟨initializer, t⟩ ht
  dsimp only at ht ⊢
  refine Settles.ite (fun hcomma => ?_) fun _ => settles_some (ht.mono (Nat.zero_le _))
  refine (h.declarations.call_comma ht hcomma hn).bind ?_
  rintro ⟨names, initializers, u⟩ hu
  exact settles_some hu

theorem reads_switchLoop (h : Settled n) :
    Reads (n + 1) 1 (fun r => r.2.2) nothing switchLoop := by
  intro s hs hn
  refine Settles.succ (fun fuel => switchLoop.eq_2 _ _) ?_
  refine Settles.ite (fun _ => settles_some (Later.refl hs)) fun hstop => ?_
  simp only [Bool.or_eq_true, not_or, Bool.not_eq_true] at hstop
  refine Settles.ite (fun _ => settles_some ((Later.refl hs).setError _)) fun _ => ?_
  have hcase := (Later.refl hs).advance hstop.1.2
  refine (settles_optionally hcase fun _ => ?_).bind ?_
  · exact (h.assignment.call hcase hn (by omega)).mono fun r hr => hr.mono (by omega)
  rintro ⟨initializer, t⟩ ht
  refine (h.caseStatements.call (ht.expect _) hn (by omega)).bind ?_
  rintro ⟨block, u⟩ hu
  refine (h.switchCases.call hu hn (by omega)).bind ?_
  rintro ⟨initializers, children, v⟩ hv
  exact settles_some (hv.mono (Nat.zero_le _))

theorem reads_parseFor (h : Settled n) : Reads (n + 1) 13 Prod.snd nothing parseFor := by
  intro s hs hn
  refine Settles.succ (fun fuel => parseFor.eq_2 _ _) ?_
  refine Settles.ite (fun hof => ?_) fun _ => ?_
  · have hcheck : s.checkAny [lit "var", lit "let", lit "const"] = true := by
      simp only [Bool.and_eq_true] at hof
      exact hof.1.1
    have hname := ((Later.refl hs).advance (not_atEnd_of_checkAny hcheck)).advance_le
    refine (h.assignment.call hname.advance_le hn (by omega)).bind ?_
    rintro ⟨right, t⟩ ht
    refine (h.statement.call (ht.expect _) hn (by omega)).bind ?_
    rintro ⟨body, u⟩ hu
    exact settles_some (hu.mono (Nat.zero_le _))
  · have hpart {t : Parser} (ht : Later 0 s t) (present : Bool) :
        Settles n (fun r => Later 0 s r.2) fun fuel =>
          optionally present (parseAssignment fuel t) t :=
      settles_optionally ht fun _ =>
        (h.assignment.call ht hn (by omega)).mono fun r hr => hr.mono (Nat.zero_le _)
    have hstatement : Settles n (fun r => Later 0 s r.2) fun fuel =>
        optionally true (parseStatement fuel s) s :=
      settles_optionally (Later.refl hs) fun _ =>
        (h.statement.call (Later.refl hs) hn (by omega)).mono fun r hr => hr.mono (Nat.zero_le _)
    have hexpression : Settles n (fun r => Later 0 s r.2) fun fuel =>
        (optionally (!s.check (lit ";")) (parseAssignment fuel s) s).map fun r =>
          ((r.1.map Node.expressionStatement, r.2.skip (lit ";")) : Option Node × Parser) :=
      (hpart (Later.refl hs) _).map fun r hr => hr.skip _
    -- what stands behind the initialization
    refine Settles.ite (fun _ => hstatement.bind ?_) fun _ => hexpression.bind ?_
    all_goals
      rintro ⟨init, t⟩ ht
      refine (hpart ht _).bind ?_
      rintro ⟨test, u⟩ hu
      refine (hpart (hu.expect _) _).bind ?_
      rintro ⟨update, v⟩ hv
      refine (h.statement.call (hv.expect _) hn (by omega)).bind ?_
      rintro ⟨body, w⟩ hw
      exact settles_some (hw.mono (Nat.zero_le _))

theorem reads_parseStatement (h : Settled n) :
    Reads (n + 1) 12 Prod.snd need parseStatement := by
  intro s hs hn
  have hneed := need_le s
  have hnext {expected : Bytes} (hcheck : s.check expected = true) : Later 1 s s.advance :=
    (Later.refl hs).advance (not_atEnd_of_check hcheck)
  -- a condition in parentheses, and what stands behind it
  have htest {α : Type} {f : ℕ → Node × Parser → Option α} {state : α → Parser}
      {expected : Bytes} (hcheck : s.check expected = true)
      (hf : ∀ r, Later 1 s r.2 → Settles n (fun a => Later (need s) s (state a)) fun fuel => f fuel r) :
      Settles n (fun a => Later (need s) s (state a)) fun fuel =>
        parseAssignment fuel (s.advance.expect (lit "(")) >>= f fuel :=
    (h.assignment.call ((hnext hcheck).expect _) hn (by omega)).bind fun r hr =>
      hf r (hr.mono (by omega))
  refine Settles.succ (fun fuel => parseStatement.eq_2 _ _) ?_
  refine Settles.ite (fun hcheck => ?_) fun _ => ?_
  · refine (h.block.call (Later.refl hs) hn (by omega)).mono fun r hr => hr.mono ?_
    rw [brace, if_pos hcheck]
    omega
  refine Settles.ite (fun hcheck => ?_) fun _ => ?_
  · refine (h.declarations.call ((Later.refl hs).advance (not_atEnd_of_checkAny hcheck)) hn
      (by omega)).bind ?_
    rintro ⟨names, initializers, t⟩ ht
    exact settles_some ((ht.skip _).mono (by omega))
  refine Settles.ite (fun hcheck => ?_) fun _ => ?_
  · exact (h.classBody.call (hnext hcheck) hn (by omega)).mono fun r hr => hr.mono (by omega)
  refine Settles.ite (fun hcheck => ?_) fun _ => ?_
  · have hasync := hnext (Bool.and_eq_true_iff.mp hcheck).1
    refine ((h.function true).call hasync.advance_le hn (by omega)).bind ?_
    rintro ⟨function, t⟩ ht
    exact settles_some (ht.mono (by omega))
  refine Settles.ite (fun hcheck => ?_) fun _ => ?_
  · exact ((h.function true).call (hnext hcheck) hn (by omega)).mono fun r hr =>
      hr.mono (by omega)
  refine Settles.ite (fun hcheck => ?_) fun _ => ?_
  · refine htest hcheck ?_
    rintro ⟨test, t⟩ ht
    refine (h.statement.call (ht.expect _) hn (by omega)).bind ?_
    rintro ⟨body, u⟩ hu
    dsimp only at hu ⊢
    refine Settles.ite (fun helse => ?_) fun _ => settles_some (hu.mono (by omega))
    refine (h.statement.call hu.advance_le hn (by omega)).bind ?_
    rintro ⟨alternate, v⟩ hv
    exact settles_some (hv.mono (by omega))
  refine Settles.ite (fun hcheck => ?_) fun _ => ?_
  · refine htest hcheck ?_
    rintro ⟨test, t⟩ ht
    refine (h.statement.call (ht.expect _) hn (by omega)).bind ?_
    rintro ⟨body, u⟩ hu
    exact settles_some (hu.mono (by omega))
  refine Settles.ite (fun hcheck => ?_) fun _ => ?_
  · exact (h.forLoop.call ((hnext hcheck).expect _) hn (by omega)).mono fun r hr =>
      hr.mono (by omega)
  refine Settles.ite (fun hcheck => ?_) fun _ => ?_
  · have hreturn := hnext hcheck
    refine Settles.ite (fun _ => settles_some ((hreturn.skip _).mono hneed)) fun _ => ?_
    refine (h.assignment.call hreturn hn (by omega)).bind ?_
    rintro ⟨left, t⟩ ht
    exact settles_some ((ht.skip _).mono (by omega))
  refine Settles.ite (fun hcheck => settles_some (((hnext hcheck).skip _).mono hneed)) fun _ => ?_
  refine Settles.ite (fun hcheck => settles_some (((hnext hcheck).skip _).mono hneed)) fun _ => ?_
  refine Settles.ite (fun hcheck => ?_) fun _ => ?_
  · refine htest hcheck ?_
    rintro ⟨test, t⟩ ht
    refine (h.switchCases.call ((ht.expect _).expect _) hn (by omega)).bind ?_
    rintro ⟨initializers, children, u⟩ hu
    exact settles_some ((hu.expect _).mono (by omega))
  refine (h.assignment.call (Later.refl hs) hn (by omega)).bind ?_
  rintro ⟨left, t⟩ ht
  exact settles_some ((ht.skip _).mono (by omega))

/-! ## All functions -/

/-- **Within any depth**, by induction on it: the functions one level deeper are called with fewer
tokens, or with the same ones and of a smaller rank. -/
theorem settled (n : ℕ) : Settled n := by
  induction n with
  | zero =>
    have hno {rank : ℕ} {α : Type} {state : α → Parser} {gain : Parser → ℕ}
        {f : ℕ → Parser → Option α} (hpos : 0 < rank) : Reads 0 rank state gain f := by
      intro s _ hn
      omega
    constructor <;> intros <;> exact hno (by decide)
  | succ n h =>
    exact {
      parameters := reads_parameterLoop h
      function := reads_parseFunction h
      block := reads_parseBlock h
      primary := reads_parsePrimary h
      accesses := reads_applyPostfix h
      callee := reads_calleeLoop h
      unary := reads_parseUnary h
      operators := reads_binaryLoop h
      binary := reads_parseBinary h
      conditional := reads_parseConditional h
      assignment := reads_parseAssignment h
      arguments := reads_argumentLoop h
      properties := reads_propertyLoop h
      classBody := reads_parseClass h
      methods := reads_methodLoop h
      declarations := reads_declarationLoop h
      statement := reads_parseStatement h
      forLoop := reads_parseFor h
      statements := reads_blockLoop h
      switchCases := reads_switchLoop h
      caseStatements := reads_caseLoop h }

/-- The loop of `parse_program` stops at the end of the input or at an error. -/
theorem settles_programLoop (n : ℕ) (s : Parser) (hs : Ends s.tokens)
    (hn : 16 * s.tokens.length + 13 ≤ n) :
    Settles n (fun r => Later 0 s r.2 ∧ (r.2.atEnd = true ∨ r.2.failed = true))
      (fun fuel => programLoop fuel s) := by
  induction n generalizing s with
  | zero => omega
  | succ n ih =>
    refine Settles.succ (fun fuel => programLoop.eq_2 _ _) ?_
    refine Settles.ite (fun hstop => ?_) fun hstop => ?_
    · exact settles_some ⟨Later.refl hs, Bool.or_eq_true_iff.mp hstop⟩
    · simp only [Bool.or_eq_true, not_or, Bool.not_eq_true] at hstop
      refine ((settled n).statement_of_not_atEnd hs hstop.1 hn).bind ?_
      rintro ⟨statement, t⟩ ht
      have hleft : t.tokens.length + 1 ≤ s.tokens.length := ht.left
      refine (ih t ht.ends (by omega)).bind ?_
      rintro ⟨children, u⟩ ⟨hu, hend⟩
      exact settles_some ⟨(ht.trans hu).mono (Nat.zero_le _), hend⟩

theorem tokens_of_atEnd (hs : Ends s.tokens) (hend : s.atEnd = true) : s.tokens = [.endOfInput] := by
  rcases hs.cases with h | ⟨t, u, rest, htokens, hne, -⟩
  · exact h
  · rw [Parser.atEnd, Parser.peek, Parser.peekAt, htokens] at hend
    exact absurd (beq_iff_eq.mp hend) hne

/-! ## The tokens of a script -/

/-- A round does not add the end of the input. -/
theorem lexToken_ne_endOfInput (strtod : Bytes → Number × ℕ) (previous : Option Token) (c : Byte)
    (rest : Bytes) : (lexToken strtod previous c rest).1 ≠ some .endOfInput := by
  have hword : (lexWord strtod c rest).1 ≠ some .endOfInput := by
    rw [lexWord]
    split
    · exact fun h => by cases h
    · split
      · exact fun h => by cases h
      · split
        · dsimp only
          split <;> exact fun h => by cases h
        · split <;> exact fun h => by cases h
  rw [lexToken]
  split
  · exact fun h => by cases h
  · split
    · exact fun h => by cases h
    · split
      · exact fun h => by cases h
      · split
        · exact fun h => by cases h
        · exact hword

theorem exists_tokenizeFrom_eq (strtod : Bytes → Number × ℕ) (previous : Option Token)
    (source : Bytes) :
    ∃ front, tokenizeFrom strtod previous source = front ++ [.endOfInput] ∧
      .endOfInput ∉ front := by
  induction previous, source using tokenizeFrom.induct strtod with
  | case1 previous => exact ⟨[], by rw [tokenizeFrom]; rfl, List.not_mem_nil⟩
  | case2 previous c rest round token htoken ih =>
    obtain ⟨front, hfront, hnot⟩ := ih
    refine ⟨token :: front, ?_, ?_⟩
    · rw [tokenizeFrom_of_some (Prod.ext htoken rfl), hfront, List.cons_append]
    · intro hmem
      rcases List.mem_cons.mp hmem with rfl | hmem
      · exact lexToken_ne_endOfInput strtod previous c rest htoken
      · exact hnot hmem
  | case3 previous c rest round htoken ih =>
    rw [tokenizeFrom_of_none (Prod.ext htoken rfl)]
    exact ih

theorem ends_tokenize {strtod : Bytes → Number × ℕ} {source : Bytes}
    (hregex : ∀ text flags, .regex text flags ∈ tokenize strtod source →
      Regex.compile text flags ≠ none) : Ends (tokenize strtod source) := by
  obtain ⟨front, hfront, hnot⟩ := exists_tokenizeFrom_eq strtod none source
  refine ⟨front, hfront, hnot, fun text flags hmem => hregex text flags ?_⟩
  rw [tokenize, hfront]
  exact List.mem_append_left _ hmem

theorem Ends.suffix {tokens tokens' : List Token} (h : Ends tokens) (hsuffix : tokens' <:+ tokens)
    (hne : tokens' ≠ []) : Ends tokens' := by
  obtain ⟨front, rfl, hnot, hregex⟩ := h
  obtain ⟨before, hbefore⟩ := hsuffix
  obtain ⟨front', last, rfl⟩ := List.eq_nil_or_concat' tokens' |>.resolve_left hne
  rw [← List.append_assoc] at hbefore
  obtain ⟨rfl, hlast⟩ := List.append_inj' hbefore rfl
  refine ⟨front', by rw [hlast], fun h => hnot (List.mem_append_right _ h), fun text flags hmem => ?_⟩
  exact hregex text flags (List.mem_append_right _ hmem)

/-- The index in `m_tokens` at which `peek` reads. -/
def peekIndex (size position offset : ℕ) : ℕ :=
  if size ≤ position + offset then size - 1 else position + offset

/-- **`peek` reads inside the list** when the parser stands inside it. -/
theorem getElem?_peekIndex {tokens : List Token} {position : ℕ} (h : position < tokens.length)
    (offset : ℕ) (error : Bytes) :
    tokens[peekIndex tokens.length position offset]? =
      some (Parser.peekAt { tokens := tokens.drop position, error := error } offset) := by
  rw [peekIndex, Parser.peekAt, List.getD_eq_getElem?_getD, List.getElem?_drop]
  split
  · rename_i hle
    rw [List.getElem?_eq_none hle, Option.getD_none, List.getLastD_eq_getLast?, List.getLast?_drop,
      if_neg (Nat.not_le.mpr h), List.getLast?_eq_getElem?]
    rw [List.getElem?_eq_getElem (by omega), Option.getD_some]
  · rename_i hlt
    rw [List.getElem?_eq_getElem (Nat.not_le.mp hlt), Option.getD_some]

/-- **The front end comes to an end on a text**, and leaves nothing of it. -/
structure FrontEnd (strtod : Bytes → Number × ℕ) (source : Bytes) : Prop where
  /-- The lexer makes no access outside the text. -/
  lexer : tokenizeAt source strtod = some (tokenize strtod source)
  /-- Nor does `peek` outside the tokens, wherever the parser stands. -/
  peek : ∀ position offset error, position < (tokenize strtod source).length →
    (tokenize strtod source)[peekIndex (tokenize strtod source).length position offset]? =
      some (Parser.peekAt
        { tokens := (tokenize strtod source).drop position, error := error } offset)
  /-- A statement takes a token off, unless the parser stands at the end of the input. -/
  statement : ∀ s : Parser, s.tokens <:+ tokenize strtod source → s.tokens ≠ [] →
    ∃ node s',
      (∀ fuel, 16 * s.tokens.length + 12 ≤ fuel → parseStatement fuel s = some (node, s')) ∧
      s'.tokens <:+ s.tokens ∧ s'.tokens ≠ [] ∧
      (s.atEnd = true ∨ s'.tokens.length < s.tokens.length)
  /-- The program takes all tokens off, unless there is an error. -/
  program : ∃ node s',
    (∀ fuel, 16 * (tokenize strtod source).length + 13 ≤ fuel →
      parseProgram fuel (tokenize strtod source) = some (node, s')) ∧
    (s'.failed = false → s'.tokens = [.endOfInput])

/-- **The front end is total**, if the regular expressions of the text are compiled or rejected. -/
theorem frontEnd (strtod : Bytes → Number × ℕ) (source : Bytes)
    (hregex : ∀ text flags, .regex text flags ∈ tokenize strtod source →
      Regex.compile text flags ≠ none) : FrontEnd strtod source := by
  have hends := ends_tokenize hregex
  refine ⟨tokenizeAt_eq source strtod, fun position offset error h =>
    getElem?_peekIndex h offset error, fun s hsuffix hne => ?_, ?_⟩
  · have hs := hends.suffix hsuffix hne
    obtain ⟨⟨node, s'⟩, hlater, hret⟩ := (settled _).statement s hs le_rfl
    refine ⟨node, s', hret, hlater.suffix, ?_, ?_⟩
    · obtain ⟨front, hfront, -⟩ := hlater.ends
      rw [hfront]
      exact List.concat_ne_nil _ _
    · have hleft := hlater.left
      rw [need] at hleft
      split at hleft
      · rename_i hend
        exact Or.inl hend
      · exact Or.inr hleft
  · obtain ⟨⟨children, s'⟩, ⟨hlater, hend⟩, hret⟩ :=
      settles_programLoop _ { tokens := tokenize strtod source } hends le_rfl
    refine ⟨.program children, s', fun fuel hfuel => ?_, fun hsuccess => ?_⟩
    · have hloop : programLoop fuel { tokens := tokenize strtod source } = some (children, s') :=
        hret fuel hfuel
      rw [parseProgram, hloop]
      rfl
    · rcases hend with hend | hfailed
      · exact tokens_of_atEnd hlater.ends hend
      · exact absurd (hsuccess.symm.trans hfailed) Bool.false_ne_true

/-- A script with a regular expression. -/
def regexScript : Bytes := lit "x = /a/;"

theorem tokenize_regexScript :
    tokenize readInteger regexScript =
      [.identifier (lit "x"), .punctuator (lit "="), .regex (lit "a") [], .punctuator (lit ";"),
        .endOfInput] := by
  decide +kernel

theorem frontEnd_regexScript : FrontEnd readInteger regexScript := by
  refine frontEnd readInteger regexScript fun text flags hmem => ?_
  rw [tokenize_regexScript] at hmem
  have hcompile : (Regex.compile (lit "a") []).isSome = true := by decide +kernel
  have heq : text = lit "a" ∧ flags = [] := by simpa using hmem
  rw [heq.1, heq.2]
  exact Option.isSome_iff_ne_none.mp hcompile

end Aetheris.Js.Syntax
