import Aetheris.Js.Lexer

/-!
# The indices of the lexer

`Lexer::tokenize` of `js.cpp` as it goes over its text with an index.  Every access to the text is
checked here, and `none` is one outside of it.  No such access is made, and the tokens are those
that the scans of the text that is left give: each loop over an index is a scan of the text behind
it, and so is each round.
-/

namespace Aetheris.Js

section Loops

variable (source : Bytes)

/-! ## Accesses -/

/-- `m_source[i]` -/
def charAt (i : ℕ) : Option Byte := source[i]?

/-- `i + 1 < m_source.size() && p(m_source[i + 1])` -/
def nextIs (p : Byte → Bool) (i : ℕ) : Option Bool :=
  if i + 1 < source.length then (charAt source (i + 1)).map p else some false

/-- `m_source.substr(pos, count)` -/
def substr (pos count : ℕ) : Option Bytes :=
  if pos ≤ source.length then some ((source.drop pos).take count) else none

/-- `condition && …` -/
def andThen (condition : Bool) (rest : Option Bool) : Option Bool :=
  if condition then rest else some false

/-! ## The loops inside a round -/

/-- The loops over characters of one kind: the end of a line comment, of flags, of a name. -/
def skipWhile (p : Byte → Bool) (i : ℕ) : Option ℕ :=
  if i < source.length then do
    let c ← charAt source i
    if p c then skipWhile p (i + 1) else return i
  else some i
termination_by source.length - i

/-- The loop over a comment between `/*` and `*/`. -/
def skipComment (i : ℕ) : Option ℕ :=
  if i + 1 < source.length then do
    let c ← charAt source i
    let ends ← andThen (c == chr '*') ((charAt source (i + 1)).map (· == chr '/'))
    if ends then return i else skipComment (i + 1)
  else some i
termination_by source.length - i

/-- The loop over a regular expression. -/
def regexEnd (inClass : Bool) (j : ℕ) : Option ℕ :=
  if j < source.length then do
    let rc ← charAt source j
    if rc = chr '\\' then regexEnd inClass (j + 2)
    else if rc = chr '[' then regexEnd true (j + 1)
    else if rc = chr ']' then regexEnd false (j + 1)
    else if rc = chr '/' ∧ inClass = false then return j
    else regexEnd inClass (j + 1)
  else some j
termination_by source.length - j

/-- `i > start && (m_source[i - 1] == 'e' || m_source[i - 1] == 'E')` -/
def isAfterE (start i : ℕ) : Option Bool :=
  andThen (start < i) ((charAt source (i - 1)).map fun e => e == chr 'e' || e == chr 'E')

/-- The loop over a number. -/
def numberEnd (start i : ℕ) : Option ℕ :=
  if i < source.length then do
    let c ← charAt source i
    if isNumberPart c then do
      let stops ← andThen (c == chr '+' || c == chr '-') ((isAfterE source start i).map (!·))
      if stops then return i else numberEnd start (i + 1)
    else return i
  else some i
termination_by source.length - i

/-- The loop over a string: its value, and where it stops. -/
def stringEnd (quote : Byte) (value : Bytes) (i : ℕ) : Option (Bytes × ℕ) :=
  if i < source.length then do
    let c ← charAt source i
    if c = quote then return (value, i)
    else if c = chr '\\' ∧ i + 1 < source.length then do
      let d ← charAt source (i + 1)
      stringEnd quote (value ++ [escaped d]) (i + 2)
    else stringEnd quote (value ++ [c]) (i + 1)
  else some (value, i)
termination_by source.length - i

/-! ## A round -/

/-- The regular expression that a slash opens, if it is closed. -/
def regexAt (i : ℕ) : Option (Option (Token × ℕ)) := do
  let j ← regexEnd source false (i + 1)
  if j < source.length then do
    let text ← substr source (i + 1) (j - (i + 1))
    let k ← skipWhile source isAlpha (j + 1)
    let flags ← substr source (j + 1) (k - (j + 1))
    return some (.regex text flags, k)
  else return none

/-- The loop over the punctuators. -/
def punctuatorAt (i : ℕ) : Option (Option Bytes) :=
  if i ≤ source.length then
    some (punctuators.find? fun text => (source.drop i).take text.length == text)
  else none

/-- The end of a round: a number, a string, a name or a punctuator, or a character that is
skipped. -/
def wordAt (strtod : Bytes → Number × ℕ) (c : Byte) (i : ℕ) : Option (Option Token × ℕ) := do
  let point ← andThen (c == chr '.') (nextIs source isDigit i)
  if isDigit c || point then
    let j ← numberEnd source i i
    let text ← substr source i (j - i)
    return (some (.number text (strtod text).1), j)
  else if c = chr '"' ∨ c = 0x27 then
    let (value, j) ← stringEnd source c [] (i + 1)
    return (some (.string value), j + 1)
  else if isIdentifierStart c then
    let j ← skipWhile source isIdentifierPart i
    let text ← substr source i (j - i)
    return (some (if text ∈ keywords then .keyword text else .identifier text), j)
  else
    match ← punctuatorAt source i with
    | some text => return (some (.punctuator text), i + text.length)
    | none => return (none, i + 1)

/-- A slash where a value is expected. -/
def slashAt (previous : Option Token) (c : Byte) (i : ℕ) : Option (Option (Token × ℕ)) :=
  if c = chr '/' ∧ valueExpected previous then regexAt source i else some none

/-- One round of the loop of `tokenize`: the token that it adds, if any, and the next index. -/
def tokenAt (strtod : Bytes → Number × ℕ) (previous : Option Token) (i : ℕ) :
    Option (Option Token × ℕ) := do
  let c ← charAt source i
  if isSpace c then return (none, i + 1)
  else if ← andThen (c == chr '/') (nextIs source (· == chr '/') i) then
    let j ← skipWhile source (· ≠ chr '\n') i
    return (none, j)
  else if ← andThen (c == chr '/') (nextIs source (· == chr '*') i) then
    let j ← skipComment source (i + 2)
    return (none, j + 2)
  else
    match ← slashAt source previous c i with
    | some (token, j) => return (some token, j)
    | none => wordAt source strtod c i

end Loops

/-! ## The text that is left -/

variable {source : Bytes} {i : ℕ} {c : Byte} {text rest : Bytes}

theorem charAt_of_drop (h : source.drop i = c :: rest) :
    i < source.length ∧ charAt source i = some c ∧ source.drop (i + 1) = rest := by
  have hget : source[i]? = some c := by
    rw [← Nat.add_zero i, ← List.getElem?_drop, h, List.getElem?_cons_zero]
  refine ⟨(List.getElem?_eq_some_iff.mp hget).1, hget, ?_⟩
  rw [← List.drop_drop, h, List.drop_one, List.tail_cons]

theorem andThen_some (condition b : Bool) : andThen condition (some b) = some (condition && b) := by
  cases condition <;> rfl

/-- The next character is the first one of what is left behind this one. -/
theorem nextIs_eq (p : Byte → Bool) (h : source.drop i = c :: rest) :
    nextIs source p i = some (rest.head?.any p) := by
  obtain ⟨hlt, -, hrest⟩ := charAt_of_drop h
  rw [nextIs]
  cases rest with
  | nil =>
    have hle := List.drop_eq_nil_iff.mp hrest
    rw [if_neg (by omega)]
    rfl
  | cons d rest =>
    obtain ⟨hlt, hd, -⟩ := charAt_of_drop hrest
    rw [if_pos hlt, hd]
    rfl

theorem length_of_drop (h : source.drop i = text) : source.length - i = text.length := by
  rw [← h, List.length_drop]

theorem substr_of_drop (h : source.drop i = text ++ rest) (hi : i ≤ source.length) :
    substr source i (i + text.length - i) = some text := by
  rw [substr, if_pos hi, h, Nat.add_sub_cancel_left, List.take_left]

theorem drop_add_of_drop (h : source.drop i = text ++ rest) :
    source.drop (i + text.length) = rest := by
  rw [← List.drop_drop, h, List.drop_left]

theorem skipWhile_eq (p : Byte → Bool) (h : source.drop i = text) :
    skipWhile source p i = some (i + (text.takeWhile p).length) := by
  induction text generalizing i with
  | nil =>
    have hle : ¬ i < source.length := Nat.not_lt.mpr (List.drop_eq_nil_iff.mp h)
    rw [skipWhile, if_neg hle]
    rfl
  | cons c rest ih =>
    obtain ⟨hlt, hc, hrest⟩ := charAt_of_drop h
    rw [skipWhile, if_pos hlt, hc, List.takeWhile_cons]
    show (if p c then skipWhile source p (i + 1) else some i) = _
    split
    · rw [ih hrest, List.length_cons, Nat.add_assoc, Nat.add_comm 1]
    · rfl

theorem skipComment_eq :
    ∀ {i : ℕ} {text : Bytes}, source.drop i = text →
      ∃ j, skipComment source i = some j ∧ source.drop (j + 2) = blockEnd text
  | i, [], h => by
    have hle := List.drop_eq_nil_iff.mp h
    rw [skipComment, if_neg (by omega)]
    exact ⟨i, rfl, List.drop_eq_nil_iff.mpr (by omega)⟩
  | i, [c], h => by
    have hlength := length_of_drop h
    rw [List.length_singleton] at hlength
    rw [skipComment, if_neg (by omega)]
    exact ⟨i, rfl, List.drop_eq_nil_iff.mpr (by omega)⟩
  | i, c :: d :: rest, h => by
    obtain ⟨-, hc, hnext⟩ := charAt_of_drop h
    obtain ⟨hlt, hd, hrest⟩ := charAt_of_drop hnext
    have hloop := skipComment_eq hnext
    have hends : (c = chr '*' ∧ d = chr '/') ↔ (c == chr '*' && d == chr '/') = true := by
      rw [Bool.and_eq_true, beq_iff_eq, beq_iff_eq]
    rw [skipComment, if_pos hlt, hc, blockEnd]
    show ∃ j, (andThen (c == chr '*') ((charAt source (i + 1)).map (· == chr '/')) >>= fun ends =>
      if ends then some i else skipComment source (i + 1)) = some j ∧ _
    rw [hd, Option.map_some, andThen_some, Option.bind_eq_bind, Option.bind_some, if_congr hends rfl rfl]
    split
    · exact ⟨i, rfl, hrest⟩
    · exact hloop

/-- The scan of a regular expression from `i` on stops at `j`: at the closing slash, or at the end
of the text. -/
def StopsAt (source : Bytes) (i j : ℕ) (text : Bytes) : Option (Bytes × Bytes) → Prop
  | some p => j = i + p.1.length ∧ text = p.1 ++ chr '/' :: p.2
  | none => source.length ≤ j

theorem StopsAt.append {j : ℕ} {body : Option (Bytes × Bytes)} (front : Bytes)
    (h : StopsAt source (i + front.length) j rest body) :
    StopsAt source i j (front ++ rest) (body.map fun p => (front ++ p.1, p.2)) := by
  cases body with
  | none => exact h
  | some p =>
    obtain ⟨hj, hrest⟩ := h
    refine ⟨?_, ?_⟩
    · rw [hj, List.length_append, Nat.add_assoc]
    · rw [hrest, List.append_assoc]

theorem regexEnd_of_le {inClass : Bool} (h : source.length ≤ i) :
    regexEnd source inClass i = some i := by
  rw [regexEnd, if_neg (Nat.not_lt.mpr h)]

theorem regexEnd_cons (inClass : Bool) (h : source.drop i = c :: rest) :
    regexEnd source inClass i =
      if c = chr '\\' then regexEnd source inClass (i + 2)
      else if c = chr '[' then regexEnd source true (i + 1)
      else if c = chr ']' then regexEnd source false (i + 1)
      else if c = chr '/' ∧ inClass = false then some i
      else regexEnd source inClass (i + 1) := by
  obtain ⟨hlt, hc, -⟩ := charAt_of_drop h
  rw [regexEnd, if_pos hlt, hc]
  rfl

theorem regexEnd_eq :
    ∀ (inClass : Bool) {i : ℕ} {text : Bytes}, source.drop i = text →
      ∃ j, regexEnd source inClass i = some j ∧ StopsAt source i j text (regexBody inClass text)
  | inClass, i, [], h => ⟨i, regexEnd_of_le (List.drop_eq_nil_iff.mp h), List.drop_eq_nil_iff.mp h⟩
  | inClass, i, [c], h => by
    obtain ⟨-, -, hrest⟩ := charAt_of_drop h
    have hle := List.drop_eq_nil_iff.mp hrest
    have hnone (hslash : ¬ (c = chr '/' ∧ inClass = false)) : regexBody inClass [c] = none := by
      rw [regexBody, if_neg hslash]
    have hstop (next : Bool) {k : ℕ} (hk : i + 1 ≤ k) :
        ∃ j, regexEnd source next k = some j ∧ source.length ≤ j :=
      ⟨k, regexEnd_of_le (hle.trans hk), hle.trans hk⟩
    rw [regexEnd_cons inClass h]
    by_cases hslash : c = chr '/' ∧ inClass = false
    · obtain ⟨rfl, rfl⟩ := hslash
      exact ⟨i, rfl, rfl, rfl⟩
    · rw [hnone hslash, if_neg hslash]
      split
      · exact hstop _ (Nat.le_succ _)
      · split
        · exact hstop _ le_rfl
        · split <;> exact hstop _ le_rfl
  | inClass, i, c :: d :: rest, h => by
    obtain ⟨-, -, hnext⟩ := charAt_of_drop h
    obtain ⟨-, -, hrest⟩ := charAt_of_drop hnext
    have hone (next : Bool) : ∃ j, regexEnd source next (i + 1) = some j ∧
        StopsAt source i j (c :: d :: rest)
          ((regexBody next (d :: rest)).map fun p => (c :: p.1, p.2)) := by
      obtain ⟨j, hj, hstops⟩ := regexEnd_eq next hnext
      exact ⟨j, hj, hstops.append [c]⟩
    rw [regexEnd_cons inClass h, regexBody]
    split
    · obtain ⟨j, hj, hstops⟩ := regexEnd_eq inClass hrest
      exact ⟨j, hj, hstops.append [c, d]⟩
    · split
      · exact hone true
      · split
        · exact hone false
        · split
          · rename_i hslash
            rw [hslash.1]
            exact ⟨i, rfl, rfl, rfl⟩
          · exact hone inClass

theorem numberEnd_cons {start : ℕ} {afterE : Bool}
    (hafter : isAfterE source start i = some afterE) (h : source.drop i = c :: rest) :
    numberEnd source start i =
      if isNumberPart c then
        if (c == chr '+' || c == chr '-') && !afterE then some i else numberEnd source start (i + 1)
      else some i := by
  obtain ⟨hlt, hc, -⟩ := charAt_of_drop h
  rw [numberEnd, if_pos hlt, hc, Option.bind_eq_bind, Option.bind_some, hafter, Option.map_some,
    andThen_some]
  rfl

theorem numberEnd_eq {start : ℕ} {afterE : Bool} (hstart : start ≤ i) (h : source.drop i = text)
    (hafter : isAfterE source start i = some afterE) :
    numberEnd source start i = some (i + (numberRun afterE text).1.length) ∧
      text = (numberRun afterE text).1 ++ (numberRun afterE text).2 := by
  induction text generalizing i afterE with
  | nil =>
    have hle : ¬ i < source.length := Nat.not_lt.mpr (List.drop_eq_nil_iff.mp h)
    rw [numberEnd, if_neg hle]
    exact ⟨rfl, rfl⟩
  | cons c rest ih =>
    obtain ⟨hlt, hc, hrest⟩ := charAt_of_drop h
    have hnext : isAfterE source start (i + 1) = some (c == chr 'e' || c == chr 'E') := by
      rw [isAfterE, andThen, if_pos (decide_eq_true (Nat.lt_succ_of_le hstart)),
        Nat.add_sub_cancel, hc, Option.map_some]
    obtain ⟨hloop, htext⟩ := ih (Nat.le_succ_of_le hstart) hrest hnext
    have hgo : numberEnd source start (i + 1) =
        some (i + (c :: (numberRun (c == chr 'e' || c == chr 'E') rest).1).length) := by
      rw [hloop, List.length_cons, Nat.succ_add_eq_add_succ]
    rw [numberEnd_cons hafter h, numberRun]
    by_cases hpart : isNumberPart c = true
    · have hnot : (!isNumberPart c) = false := by rw [hpart]; rfl
      rw [if_pos hpart, hnot, if_neg Bool.false_ne_true]
      split
      · exact ⟨rfl, rfl⟩
      · exact ⟨hgo, congrArg (c :: ·) htext⟩
    · have hnot : (!isNumberPart c) = true := by rw [Bool.eq_false_iff.mpr hpart]; rfl
      rw [if_neg hpart, if_pos hnot]
      exact ⟨rfl, rfl⟩

theorem stringEnd_cons (quote : Byte) (value : Bytes) (h : source.drop i = c :: rest) :
    stringEnd source quote value i =
      if c = quote then some (value, i)
      else if c = chr '\\' ∧ i + 1 < source.length then
        charAt source (i + 1) >>= fun d => stringEnd source quote (value ++ [escaped d]) (i + 2)
      else stringEnd source quote (value ++ [c]) (i + 1) := by
  obtain ⟨hlt, hc, -⟩ := charAt_of_drop h
  rw [stringEnd, if_pos hlt, hc]
  rfl

theorem stringEnd_eq (quote : Byte) :
    ∀ {i : ℕ} {text : Bytes} (value : Bytes), source.drop i = text →
      ∃ j, stringEnd source quote value i = some (value ++ (quoted quote text).1, j) ∧
        source.drop (j + 1) = (quoted quote text).2
  | i, [], value, h => by
    have hle := List.drop_eq_nil_iff.mp h
    rw [stringEnd, if_neg (by omega)]
    exact ⟨i, by rw [quoted, List.append_nil], List.drop_eq_nil_iff.mpr (by omega)⟩
  | i, [c], value, h => by
    obtain ⟨-, -, hrest⟩ := charAt_of_drop h
    have hle := List.drop_eq_nil_iff.mp hrest
    rw [stringEnd_cons quote value h, quoted]
    split
    · exact ⟨i, by rw [List.append_nil], hrest⟩
    · rw [if_neg (by omega), stringEnd, if_neg (Nat.not_lt.mpr hle)]
      exact ⟨i + 1, rfl, List.drop_eq_nil_iff.mpr (by omega)⟩
  | i, c :: d :: rest, value, h => by
    obtain ⟨-, -, hnext⟩ := charAt_of_drop h
    obtain ⟨hlt, hd, hrest⟩ := charAt_of_drop hnext
    rw [stringEnd_cons quote value h, quoted]
    split
    · exact ⟨i, by rw [List.append_nil], hnext⟩
    · by_cases hbackslash : c = chr '\\'
      · rw [if_pos ⟨hbackslash, hlt⟩, if_pos hbackslash, hd]
        obtain ⟨j, hj, hdrop⟩ := stringEnd_eq quote (value ++ [escaped d]) hrest
        refine ⟨j, ?_, hdrop⟩
        rw [List.append_assoc] at hj
        exact hj
      · rw [if_neg fun h => hbackslash h.1, if_neg hbackslash]
        obtain ⟨j, hj, hdrop⟩ := stringEnd_eq quote (value ++ [c]) hnext
        refine ⟨j, ?_, hdrop⟩
        rw [List.append_assoc] at hj
        exact hj

/-! ## Rounds -/

/-- The loops over characters of one kind, and what they go over. -/
theorem skipWhile_spec (p : Byte → Bool) (h : source.drop i = text) (hi : i ≤ source.length) :
    ∃ j, skipWhile source p i = some j ∧ substr source i (j - i) = some (text.takeWhile p) ∧
      source.drop j = text.dropWhile p := by
  rw [← List.takeWhile_append_dropWhile (p := p) (l := text)] at h
  refine ⟨_, skipWhile_eq p rfl, ?_, ?_⟩
  · rw [h, List.takeWhile_append_dropWhile]
    exact substr_of_drop h hi
  · rw [h, List.takeWhile_append_dropWhile]
    exact drop_add_of_drop h

theorem regexAt_of_none (h : source.drop i = c :: rest) (hbody : regexBody false rest = none) :
    regexAt source i = some none := by
  obtain ⟨-, -, hrest⟩ := charAt_of_drop h
  obtain ⟨j, hj, hstops⟩ := regexEnd_eq false hrest
  rw [hbody] at hstops
  rw [regexAt, hj, Option.bind_eq_bind, Option.bind_some, if_neg (Nat.not_lt.mpr hstops)]
  rfl

theorem regexAt_of_some {body after : Bytes} (h : source.drop i = c :: rest)
    (hbody : regexBody false rest = some (body, after)) :
    ∃ k, regexAt source i = some (some (.regex body (after.takeWhile isAlpha), k)) ∧
      source.drop k = after.dropWhile isAlpha := by
  obtain ⟨hlt, -, hrest⟩ := charAt_of_drop h
  obtain ⟨j, hj, hstops⟩ := regexEnd_eq false hrest
  rw [hbody] at hstops
  obtain ⟨rfl, htext⟩ := hstops
  rw [htext] at hrest
  obtain ⟨hslash, -, hafter⟩ := charAt_of_drop (drop_add_of_drop hrest)
  obtain ⟨k, hk, hflags, hdrop⟩ := skipWhile_spec isAlpha hafter hslash
  refine ⟨k, ?_, hdrop⟩
  rw [regexAt, hj, Option.bind_eq_bind, Option.bind_some, if_pos hslash, substr_of_drop hrest hlt]
  dsimp only [Option.bind_eq_bind, Option.bind_some]
  rw [hk]
  dsimp only [Option.bind_some]
  rw [hflags]
  rfl

theorem punctuatorAt_eq (h : source.drop i = text) (hi : i ≤ source.length) :
    punctuatorAt source i = some (punctuators.find? (·.isPrefixOf text)) := by
  rw [punctuatorAt, if_pos hi, h]
  congr 2
  funext punctuator
  rw [Bool.eq_iff_iff, beq_iff_eq, List.isPrefixOf_iff_prefix, List.prefix_iff_eq_take, eq_comm]

theorem wordAt_eq (strtod : Bytes → Number × ℕ) (h : source.drop i = c :: rest) :
    ∃ j, wordAt source strtod c i = some ((lexWord strtod c rest).1, j) ∧
      source.drop j = (lexWord strtod c rest).2 := by
  obtain ⟨hlt, hc, hrest⟩ := charAt_of_drop h
  rw [wordAt, lexWord, nextIs_eq _ h, andThen_some]
  simp only [Option.bind_eq_bind, Option.bind_some]
  split
  · have hafter : isAfterE source i i = some false := by
      rw [isAfterE, andThen, if_neg (by simp)]
    obtain ⟨hloop, htext⟩ := numberEnd_eq le_rfl h hafter
    have htext' := h.trans htext
    simp only [hloop, Option.bind_some, substr_of_drop htext' hlt.le]
    exact ⟨_, rfl, drop_add_of_drop htext'⟩
  · split
    · obtain ⟨j, hj, hdrop⟩ := stringEnd_eq c [] hrest
      rw [hj]
      exact ⟨_, rfl, hdrop⟩
    · split
      · obtain ⟨j, hj, htext, hdrop⟩ := skipWhile_spec isIdentifierPart h hlt.le
        simp only [hj, Option.bind_some, htext]
        exact ⟨_, rfl, hdrop⟩
      · simp only [punctuatorAt_eq h hlt.le, Option.bind_some]
        cases punctuators.find? (·.isPrefixOf (c :: rest)) with
        | none => exact ⟨_, rfl, hrest⟩
        | some text => exact ⟨_, rfl, by rw [← List.drop_drop, h]⟩

theorem slash_iff (d : Byte) :
    (c == chr '/' && rest.head?.any (· == d)) = true ↔ c = chr '/' ∧ rest.head? = some d := by
  rw [Bool.and_eq_true, beq_iff_eq]
  cases rest with
  | nil => simp
  | cons e rest => simp

/-- **A round** adds the token of the text that is left, and goes on behind it. -/
theorem tokenAt_eq (strtod : Bytes → Number × ℕ) (previous : Option Token)
    (h : source.drop i = c :: rest) :
    ∃ j, tokenAt source strtod previous i = some ((lexToken strtod previous c rest).1, j) ∧
      source.drop j = (lexToken strtod previous c rest).2 := by
  obtain ⟨hlt, hc, hrest⟩ := charAt_of_drop h
  rw [lexToken, tokenAt]
  simp only [hc, nextIs_eq _ h, andThen_some, Option.bind_eq_bind, Option.bind_some, slash_iff]
  split
  · exact ⟨_, rfl, hrest⟩
  split
  · rename_i hcomment
    obtain ⟨j, hj, -, hdrop⟩ := skipWhile_spec (· ≠ chr '\n') h hlt.le
    rw [List.dropWhile_cons_of_pos (by rw [hcomment.1]; decide)] at hdrop
    simp only [hj, Option.bind_some]
    exact ⟨_, rfl, hdrop⟩
  split
  · have htail : source.drop (i + 2) = rest.tail := by
      rw [← List.drop_drop, h, List.drop_succ_cons, List.drop_one]
    obtain ⟨j, hj, hdrop⟩ := skipComment_eq htail
    simp only [hj, Option.bind_some]
    exact ⟨_, rfl, hdrop⟩
  obtain ⟨j, hj, hdrop⟩ := wordAt_eq strtod h
  rw [slashAt, opensRegex]
  by_cases hvalue : c = chr '/' ∧ valueExpected previous = true
  · rw [if_pos hvalue, if_pos hvalue]
    cases hbody : regexBody false rest with
    | none =>
      rw [regexAt_of_none h hbody]
      exact ⟨j, hj, hdrop⟩
    | some body =>
      obtain ⟨k, hk, hdrop⟩ := regexAt_of_some h hbody
      rw [hk]
      exact ⟨k, rfl, hdrop⟩
  · rw [if_neg hvalue, if_neg hvalue]
    exact ⟨j, hj, hdrop⟩

/-- The next index is greater. -/
theorem lt_of_tokenAt {strtod : Bytes → Number × ℕ} {previous : Option Token}
    {round : Option Token × ℕ} (hi : i < source.length)
    (hround : tokenAt source strtod previous i = some round) : i < round.2 := by
  obtain ⟨c, rest, h⟩ := List.exists_cons_of_ne_nil
    (mt List.drop_eq_nil_iff.mp (Nat.not_le.mpr hi))
  obtain ⟨j, hj, hdrop⟩ := tokenAt_eq strtod previous h
  obtain rfl := Option.some.inj (hround.symm.trans hj)
  have hlt := length_lexToken_lt strtod previous c rest
  rw [← hdrop, ← h, List.length_drop, List.length_drop] at hlt
  dsimp only
  omega

/-! ## The lexer -/

section

variable (strtod : Bytes → Number × ℕ) (source)

/-- The loop of `tokenize`. -/
def tokenizeLoop (tokens : List Token) (i : ℕ) : Option (List Token) :=
  if _ : i < source.length then
    match _ : tokenAt source strtod tokens.getLast? i with
    | none => none
    | some (token, next) => tokenizeLoop (tokens ++ token.toList) next
  else some (tokens ++ [.endOfInput])
termination_by source.length - i
decreasing_by
  have hlt := lt_of_tokenAt ‹_› ‹_›
  dsimp only at hlt
  omega

/-- `tokenize` -/
def tokenizeAt : Option (List Token) := tokenizeLoop source strtod [] 0

theorem tokenizeLoop_eq (tokens : List Token) (i : ℕ) :
    tokenizeLoop source strtod tokens i =
      some (tokens ++ tokenizeFrom strtod tokens.getLast? (source.drop i)) := by
  induction tokens, i using tokenizeLoop.induct source strtod with
  | case1 tokens i hi hround =>
    obtain ⟨c, rest, h⟩ := List.exists_cons_of_ne_nil
      (mt List.drop_eq_nil_iff.mp (Nat.not_le.mpr hi))
    obtain ⟨j, hj, -⟩ := tokenAt_eq strtod tokens.getLast? h
    exact absurd (hround.symm.trans hj) nofun
  | case2 tokens i hi token next hround ih =>
    obtain ⟨c, rest, h⟩ := List.exists_cons_of_ne_nil
      (mt List.drop_eq_nil_iff.mp (Nat.not_le.mpr hi))
    obtain ⟨j, hj, hdrop⟩ := tokenAt_eq strtod tokens.getLast? h
    obtain ⟨htoken, rfl⟩ := Prod.mk.inj (Option.some.inj (hround.symm.trans hj))
    have hstep : tokenizeLoop source strtod tokens i =
        tokenizeLoop source strtod (tokens ++ token.toList) next := by
      rw [tokenizeLoop, dif_pos hi]
      split
      · rename_i hnone
        exact absurd (hround.symm.trans hnone) nofun
      · rename_i hsome
        obtain ⟨rfl, rfl⟩ := Prod.mk.inj (Option.some.inj (hround.symm.trans hsome))
        rfl
    rw [hstep, ih, h, hdrop]
    cases token with
    | none => rw [tokenizeFrom_of_none (Prod.ext htoken.symm rfl), Option.toList_none, List.append_nil]
    | some token =>
      rw [tokenizeFrom_of_some (Prod.ext htoken.symm rfl), Option.toList_some, List.getLast?_concat,
        List.append_assoc, List.singleton_append]
  | case3 tokens i hi =>
    rw [tokenizeLoop, dif_neg hi, List.drop_eq_nil_iff.mpr (Nat.not_lt.mp hi), tokenizeFrom]

/-- **No access is made outside the text**, and the tokens are those of the text. -/
theorem tokenizeAt_eq : tokenizeAt source strtod = some (tokenize strtod source) := by
  rw [tokenizeAt, tokenizeLoop_eq, List.nil_append, List.drop_zero]
  rfl

end

end Aetheris.Js
