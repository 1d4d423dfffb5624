import Aetheris.Cache.Lz4RoundTrip

/-!
# The LZ4 shim on its buffers

The shim once more, with its indices: every byte of `src` is read and every byte of `dst` is written
at a place (`readAt`, `put`), and the sums in the capacity tests are `int`s (`addInt`).  An access
outside a buffer and a sum that is no `int` have no meaning in C, and stop the model.  The sums
`i + run` and `i + look` do not pass `srcSize`, so they are left as they are.

Each half is compared with the shim on suffixes, one round at a time.  The compressor goes wrong at
a run with room for two of its three bytes, and it comes to one exactly if a piece of the cut
`Overruns` the buffer.  The decompressor goes wrong only in its sums, which are read off the headers
(`HeaderAt`, `need`, `produced`).  Both together are `respectsBuffers_iff`.
-/

namespace Aetheris.Lz4

open RunLength

/-! ## Accesses -/

/-- What C gives no meaning to. -/
inductive Fault
  /-- A sum of two `int`s that is none. -/
  | overflow
  /-- An access outside a buffer. -/
  | outOfBounds
  deriving DecidableEq, Repr

/-- What a call ends with. -/
abbrev Checked (α : Type) := Except Fault α

/-- `INT_MAX`. -/
def intMax : ℕ := 2147483647

/-- The sum of two `int`s that are not negative. -/
def addInt (a b : ℕ) : Checked ℕ := if a + b ≤ intMax then .ok (a + b) else .error .overflow

/-- `src[i]`. -/
def readAt (src : Bytes) (i : ℕ) : Checked Byte :=
  match src[i]? with
  | some b => .ok b
  | none => .error .outOfBounds

/-- `out[written++] = b`, where `out` has been written. -/
def put (maxDstSize : Int) (out : Bytes) (b : Byte) : Checked Bytes :=
  if (out.length : Int) < maxDstSize then .ok (out ++ [b]) else .error .outOfBounds

/-- Bytes that are handed over with their number as an `int`. -/
structure Source where
  bytes : Bytes
  length_le : bytes.length ≤ intMax

/-! ## Loops over bytes -/

/-- `for (int k = 0; k < count; ++k) out[written++] = src[start + k];`. -/
def copyAt (src : Bytes) (maxDstSize : Int) (start : ℕ) : ℕ → Bytes → Checked Bytes
  | 0, out => .ok out
  | count + 1, out => do
    let b ← readAt src start
    let out ← put maxDstSize out b
    copyAt src maxDstSize (start + 1) count out

/-- `for (int k = 0; k < n; ++k) out[op++] = value;`. -/
def fillAt (maxDstSize : Int) (value : Byte) : ℕ → Bytes → Checked Bytes
  | 0, out => .ok out
  | n + 1, out => do
    let out ← put maxDstSize out value
    fillAt maxDstSize value n out

/-- `while (i + run < srcSize && run < limit && src[i + run] == src[i]) ++run;`. -/
def extendRunAt (src : Bytes) (limit i run : ℕ) : Checked ℕ :=
  if _ : i + run < src.length then
    if run < limit then do
      let b ← readAt src (i + run)
      let first ← readAt src i
      if b = first then extendRunAt src limit i (run + 1) else return run
    else return run
  else return run
termination_by src.length - (i + run)

/-- The literal loop. -/
def gatherLiteralsAt (src : Bytes) (i litCount : ℕ) : Checked ℕ :=
  if _ : i < src.length then do
    let look ← extendRunAt src 4 i 1
    if 4 ≤ look then return litCount
    else if litCount + 1 = 255 then return litCount + 1
    else gatherLiteralsAt src (i + 1) (litCount + 1)
  else return litCount
termination_by src.length - i

/-! ## The entry points -/

/-- The main loop of `LZ4_compress_default`. -/
def compressAt (src : Bytes) (maxDstSize : Int) (i : ℕ) (out : Bytes) : Checked CallResult :=
  if _ : i < src.length then do
    let run ← extendRunAt src (255 + 3) i 1
    if _ : 4 ≤ run then
      if ((← addInt out.length 2 : ℕ) : Int) > maxDstSize then return ⟨0, out⟩
      let out ← put maxDstSize out 0x80
      let out ← put maxDstSize out (UInt8.ofNat (run - 3))
      let out ← put maxDstSize out (← readAt src i)
      if ((← addInt out.length 1 : ℕ) : Int) > maxDstSize then return ⟨0, out⟩
      compressAt src maxDstSize (i + run) out
    else
      let gathered ← gatherLiteralsAt src i 0
      let litCount := if gathered = 0 then 1 else gathered
      if ((← addInt (← addInt out.length 1) litCount : ℕ) : Int) > maxDstSize then return ⟨0, out⟩
      let out ← put maxDstSize out (UInt8.ofNat litCount)
      let out ← copyAt src maxDstSize i litCount out
      compressAt src maxDstSize (i + litCount) out
  else return ⟨out.length, out⟩
termination_by src.length - i
decreasing_by
  · omega
  · split <;> omega

/-- `LZ4_compress_default` on non-null buffers; `srcSize` is the length of `src`. -/
def compressDefaultAt (src : Bytes) (maxDstSize : Int) : Checked CallResult :=
  if maxDstSize ≤ 0 then .ok ⟨0, []⟩ else compressAt src maxDstSize 0 []

/-- The loop of `LZ4_decompress_safe`. -/
def decompressAt (src : Bytes) (maxDstSize : Int) (ip : ℕ) (out : Bytes) : Checked CallResult :=
  if _ : ip < src.length then do
    let token ← readAt src ip
    let ip := ip + 1
    if token &&& 0x80 ≠ 0 then
      if (← addInt ip 2) > src.length then return ⟨-1, out⟩
      let n := (← readAt src ip).toNat + 3
      let value ← readAt src (ip + 1)
      if ((← addInt out.length n : ℕ) : Int) > maxDstSize then return ⟨-1, out⟩
      let out ← fillAt maxDstSize value n out
      decompressAt src maxDstSize (ip + 2) out
    else
      let n := token.toNat
      if n = 0 then return ⟨-1, out⟩
      else if (← addInt ip n) > src.length then return ⟨-1, out⟩
      else if ((← addInt out.length n : ℕ) : Int) > maxDstSize then return ⟨-1, out⟩
      else
        let out ← copyAt src maxDstSize ip n out
        decompressAt src maxDstSize (ip + n) out
  else return ⟨out.length, out⟩
termination_by src.length - ip

/-- `LZ4_decompress_safe` on non-null buffers; `cSize` is the length of `src`. -/
def decompressSafeAt (src : Bytes) (maxDstSize : Int) : Checked CallResult :=
  if maxDstSize < 0 then .ok ⟨-1, []⟩ else decompressAt src maxDstSize 0 []

/-! ## The loops on suffixes -/

variable {src out : Bytes} {maxDstSize : Int}

theorem getElem?_of_drop {i : ℕ} {b : Byte} {rest : Bytes} (h : src.drop i = b :: rest) :
    src[i]? = some b := by
  rw [← Nat.add_zero i, ← List.getElem?_drop, h]
  rfl

theorem readAt_of_drop {i : ℕ} {b : Byte} {rest : Bytes} (h : src.drop i = b :: rest) :
    readAt src i = .ok b := by
  rw [readAt, getElem?_of_drop h]

theorem put_of_lt (h : (out.length : Int) < maxDstSize) (b : Byte) :
    put maxDstSize out b = .ok (out ++ [b]) := if_pos h

theorem drop_succ_of_drop {i : ℕ} {b : Byte} {rest : Bytes} (h : src.drop i = b :: rest) :
    src.drop (i + 1) = rest := by
  rw [← List.drop_drop, h]
  rfl

theorem lt_length_of_drop {i : ℕ} {b : Byte} {rest : Bytes} (h : src.drop i = b :: rest) :
    i < src.length := by
  have hlength := congrArg List.length h
  rw [List.length_drop, List.length_cons] at hlength
  omega

/-- A copy that the source and the buffer have room for. -/
theorem copyAt_eq {start count : ℕ} (hsrc : start + count ≤ src.length)
    (hdst : (out.length + count : ℕ) ≤ maxDstSize) :
    copyAt src maxDstSize start count out = .ok (out ++ (src.drop start).take count) := by
  induction count generalizing start out with
  | zero => rw [copyAt, List.take_zero, List.append_nil]
  | succ count ih =>
    obtain ⟨b, rest, hdrop⟩ := List.exists_cons_of_length_pos
      (show 0 < (src.drop start).length by rw [List.length_drop]; omega)
    have hnext : (out ++ [b]).length = out.length + 1 := List.length_append
    rw [copyAt, readAt_of_drop hdrop]
    show (put maxDstSize out b >>= _) = _
    rw [put_of_lt (by omega)]
    show copyAt src maxDstSize (start + 1) count (out ++ [b]) = _
    rw [ih (by omega) (by rw [hnext]; omega), drop_succ_of_drop hdrop, hdrop, List.take_succ_cons,
      List.append_assoc, List.singleton_append]

/-- A run that the buffer has room for. -/
theorem fillAt_eq {n : ℕ} (value : Byte) (hdst : (out.length + n : ℕ) ≤ maxDstSize) :
    fillAt maxDstSize value n out = .ok (out ++ List.replicate n value) := by
  induction n generalizing out with
  | zero => rw [fillAt, List.replicate_zero, List.append_nil]
  | succ n ih =>
    have hnext : (out ++ [value]).length = out.length + 1 := List.length_append
    rw [fillAt, put_of_lt (by omega)]
    show fillAt maxDstSize value n (out ++ [value]) = _
    rw [ih (by rw [hnext]; omega), List.replicate_succ, List.append_assoc, List.singleton_append]

theorem extendRunAt_eq {limit i : ℕ} {first : Byte} {rest : Bytes}
    (hfirst : src.drop i = first :: rest) (run : ℕ) :
    extendRunAt src limit i run = .ok (extendRun limit first (src.drop (i + run)) run) := by
  induction run using extendRunAt.induct src limit i with
  | case1 run hlt hlimit ih =>
    obtain ⟨b, rest', hdrop⟩ := List.exists_cons_of_length_pos
      (show 0 < (src.drop (i + run)).length by rw [List.length_drop]; omega)
    rw [extendRunAt, dif_pos hlt, if_pos hlimit, readAt_of_drop hdrop, readAt_of_drop hfirst, hdrop,
      extendRun]
    show (if b = first then extendRunAt src limit i (run + 1) else .ok run) = _
    by_cases hb : b = first
    · rw [if_pos hb, if_pos ⟨hlimit, hb⟩, ih, ← drop_succ_of_drop hdrop, Nat.add_assoc]
    · rw [if_neg hb, if_neg fun h => hb h.2]
  | case2 run hlt hlimit =>
    obtain ⟨b, rest', hdrop⟩ := List.exists_cons_of_length_pos
      (show 0 < (src.drop (i + run)).length by rw [List.length_drop]; omega)
    rw [extendRunAt, dif_pos hlt, if_neg hlimit, hdrop, extendRun, if_neg fun h => hlimit h.1]
    rfl
  | case3 run hge =>
    rw [extendRunAt, dif_neg hge, List.drop_of_length_le (Nat.le_of_not_lt hge), extendRun]
    rfl

theorem gatherLiteralsAt_eq (i litCount : ℕ) :
    gatherLiteralsAt src i litCount = .ok (gatherLiterals (src.drop i) litCount) := by
  induction hn : src.length - i generalizing i litCount with
  | zero =>
    have hge : src.length ≤ i := by omega
    rw [gatherLiteralsAt, dif_neg (Nat.not_lt.mpr hge), List.drop_of_length_le hge, gatherLiterals]
    rfl
  | succ n ih =>
    obtain ⟨b, rest, hdrop⟩ := List.exists_cons_of_length_pos
      (show 0 < (src.drop i).length by rw [List.length_drop]; omega)
    rw [gatherLiteralsAt, dif_pos (lt_length_of_drop hdrop), extendRunAt_eq hdrop,
      drop_succ_of_drop hdrop, hdrop, gatherLiterals]
    show (if 4 ≤ extendRun 4 b rest 1 then .ok litCount
      else if litCount + 1 = 255 then .ok (litCount + 1)
      else gatherLiteralsAt src (i + 1) (litCount + 1)) = _
    rw [ih (i + 1) (litCount + 1) (by omega), drop_succ_of_drop hdrop]
    split_ifs <;> rfl

/-! ## One round of the compressor -/

/-- **A run.**  The test in front of the three bytes asks for two. -/
theorem compressAt_run (maxDstSize : Int) (out : Bytes) {i : ℕ} {first : Byte} {rest : Bytes}
    (hdrop : src.drop i = first :: rest) (hrun : 4 ≤ run 258 (src.drop i)) :
    compressAt src maxDstSize i out =
      if intMax < out.length + 2 then .error .overflow
      else if maxDstSize < (out.length + 2 : ℕ) then .ok ⟨0, out⟩
      else if maxDstSize = (out.length + 2 : ℕ) then .error .outOfBounds
      else if intMax < out.length + 4 then .error .overflow
      else
        let out := out ++ [0x80, UInt8.ofNat (run 258 (src.drop i) - 3), first]
        if maxDstSize < (out.length + 1 : ℕ) then .ok ⟨0, out⟩
        else compressAt src maxDstSize (i + run 258 (src.drop i)) out := by
  have hcount : extendRunAt src (255 + 3) i 1 = .ok (run 258 (src.drop i)) := by
    rw [extendRunAt_eq hdrop, drop_succ_of_drop hdrop, extendRun_one (by decide), hdrop]
  rw [compressAt, dif_pos (lt_length_of_drop hdrop), hcount]
  show (if _ : 4 ≤ run 258 (src.drop i) then _ else _) = _
  rw [dif_pos hrun, addInt]
  by_cases hsum : intMax < out.length + 2
  · rw [if_neg (Nat.not_le.mpr hsum), if_pos hsum]
    rfl
  rw [if_pos (Nat.le_of_not_lt hsum), if_neg hsum]
  show (if ((out.length + 2 : ℕ) : Int) > maxDstSize then _ else _) = _
  by_cases htwo : maxDstSize < (out.length + 2 : ℕ)
  · rw [if_pos htwo, if_pos htwo]
    rfl
  rw [if_neg htwo, if_neg htwo, put_of_lt (by omega)]
  show (put maxDstSize (out ++ [0x80]) _ >>= _) = _
  have hone : (out ++ [0x80]).length = out.length + 1 := List.length_append
  rw [put_of_lt (by rw [hone]; omega), readAt_of_drop hdrop]
  set tag : Bytes := out ++ [0x80] ++ [UInt8.ofNat (run 258 (src.drop i) - 3)] with htag
  have hlength : tag.length = out.length + 2 := by
    rw [htag, List.length_append, hone]
    rfl
  show (put maxDstSize tag first >>= _) = _
  by_cases hedge : maxDstSize = (out.length + 2 : ℕ)
  · rw [if_pos hedge, put, if_neg (by rw [hlength]; omega)]
    rfl
  have hthree : tag ++ [first] =
      out ++ [0x80, UInt8.ofNat (run 258 (src.drop i) - 3), first] := by
    rw [htag, List.append_assoc, List.append_assoc]
    rfl
  have hfour : (tag ++ [first]).length = out.length + 3 := by
    rw [List.length_append, hlength]
    rfl
  rw [if_neg hedge, put_of_lt (by rw [hlength]; omega)]
  show (addInt (tag ++ [first]).length 1 >>= _) = _
  rw [addInt, ← hthree]
  by_cases hlast : intMax < out.length + 4
  · rw [if_pos hlast, if_neg (by rw [hfour]; omega)]
    rfl
  · rw [if_neg hlast, if_pos (by rw [hfour]; omega)]
    rfl

/-- **A block of literals.** -/
theorem compressAt_literals (maxDstSize : Int) (out : Bytes) {i : ℕ} {first : Byte} {rest : Bytes}
    (hdrop : src.drop i = first :: rest) (hrun : ¬ 4 ≤ run 258 (src.drop i)) :
    compressAt src maxDstSize i out =
      let litCount := min 255 (stretch 4 (src.drop i))
      if intMax < out.length + 1 + litCount then .error .overflow
      else if maxDstSize < (out.length + 1 + litCount : ℕ) then .ok ⟨0, out⟩
      else
        compressAt src maxDstSize (i + litCount)
          (out ++ UInt8.ofNat litCount :: (src.drop i).take litCount) := by
  have hcount : extendRunAt src (255 + 3) i 1 = .ok (run 258 (src.drop i)) := by
    rw [extendRunAt_eq hdrop, drop_succ_of_drop hdrop, extendRun_one (by decide), hdrop]
  have hgather : gatherLiteralsAt src i 0 = .ok (min 255 (stretch 4 (src.drop i))) := by
    rw [gatherLiteralsAt_eq, gatherLiterals_eq _ 0 (by decide), Nat.add_zero]
  have hpos : min 255 (stretch 4 (src.drop i)) ≠ 0 := by
    have hstretch : 0 < stretch 4 (src.drop i) := by
      rw [hdrop] at hrun ⊢
      exact stretch_pos_of_not_run hrun
    omega
  have hlength : i + min 255 (stretch 4 (src.drop i)) ≤ src.length := by
    have hle := stretch_le_length 4 (src.drop i)
    have hlt := lt_length_of_drop hdrop
    rw [List.length_drop] at hle
    omega
  rw [compressAt, dif_pos (lt_length_of_drop hdrop), hcount]
  show (if _ : 4 ≤ run 258 (src.drop i) then _ else _) = _
  rw [dif_neg hrun, hgather]
  show (addInt out.length 1 >>= _) = _
  set litCount := min 255 (stretch 4 (src.drop i)) with hlit
  by_cases hone : intMax < out.length + 1
  · have hsum : intMax < out.length + 1 + litCount := by omega
    rw [addInt, if_neg (Nat.not_le.mpr hone), if_pos hsum]
    rfl
  rw [addInt, if_pos (Nat.le_of_not_lt hone)]
  show (addInt (out.length + 1) (if litCount = 0 then 1 else litCount) >>= _) = _
  rw [if_neg hpos, addInt]
  by_cases hsum : intMax < out.length + 1 + litCount
  · rw [if_neg (Nat.not_le.mpr hsum), if_pos hsum]
    rfl
  rw [if_pos (Nat.le_of_not_lt hsum), if_neg hsum]
  show (if ((out.length + 1 + litCount : ℕ) : Int) > maxDstSize then _ else _) = _
  by_cases hroom : maxDstSize < (out.length + 1 + litCount : ℕ)
  · rw [if_pos hroom, if_pos hroom]
    rfl
  rw [if_neg hroom, if_neg hroom, put_of_lt (by omega)]
  have hheader : (out ++ [UInt8.ofNat litCount]).length = out.length + 1 := List.length_append
  show (copyAt src maxDstSize i litCount (out ++ [UInt8.ofNat litCount]) >>= _) = _
  rw [copyAt_eq hlength (by rw [hheader]; omega), List.append_assoc, List.singleton_append]
  rfl

/-! ## The pieces of a source -/

/-- What the compressor makes a block of. -/
inductive Piece
  /-- Equal bytes. -/
  | run (length : ℕ)
  /-- Other bytes. -/
  | literals (length : ℕ)
  deriving DecidableEq, Repr

/-- A source is cut into runs of 4 to 258 equal bytes and into at most 255 of the bytes in between. -/
def cut (src : Bytes) : List Piece :=
  match src with
  | [] => []
  | first :: rest =>
    if 4 ≤ run 258 (first :: rest) then
      .run (run 258 (first :: rest)) :: cut (rest.drop (run 258 (first :: rest) - 1))
    else
      .literals (min 255 (stretch 4 (first :: rest))) ::
        cut (rest.drop (min 255 (stretch 4 (first :: rest)) - 1))
termination_by src.length
decreasing_by all_goals simp only [List.length_drop, List.length_cons]; omega

theorem cut_of_run {src : Bytes} (h : 4 ≤ run 258 src) :
    cut src = .run (run 258 src) :: cut (src.drop (run 258 src)) := by
  cases src with
  | nil => exact absurd h (by decide)
  | cons first rest => rw [cut, if_pos h, drop_pred_eq_drop (by omega) first]

theorem cut_of_stretch {first : Byte} {rest : Bytes} (h : ¬ 4 ≤ run 258 (first :: rest)) :
    cut (first :: rest) = .literals (min 255 (stretch 4 (first :: rest))) ::
      cut ((first :: rest).drop (min 255 (stretch 4 (first :: rest)))) := by
  have hpos := stretch_pos_of_not_run h
  rw [cut, if_neg h, drop_pred_eq_drop (by omega) first]

/-- The number of bytes behind the block of a piece, where the tests let it be written.  A run asks
for a byte more than its block has. -/
def advance (maxDstSize : Int) (written : ℕ) : Piece → Option ℕ
  | .run _ => if (written + 4 : ℕ) ≤ maxDstSize then some (written + 3) else none
  | .literals n => if (written + 1 + n : ℕ) ≤ maxDstSize then some (written + 1 + n) else none

/-- The block of a piece is begun though it has no room: a run with room for two of its three bytes,
or a sum in a test that is no `int`. -/
def Overruns (maxDstSize : Int) (written : ℕ) : Piece → Prop
  | .run _ => (written + 2 : ℕ) = maxDstSize ∨ intMax < written + 2 ∨
      intMax < written + 4 ∧ (written + 3 : ℕ) ≤ maxDstSize
  | .literals n => intMax < written + 1 + n

/-- None of the pieces that the compressor comes to overruns the buffer. -/
def NoOverrun (maxDstSize : Int) (written : ℕ) (pieces : List Piece) : Prop :=
  ∀ before piece behind written', pieces = before ++ piece :: behind →
    before.foldlM (advance maxDstSize) written = some written' →
      ¬ Overruns maxDstSize written' piece

theorem noOverrun_nil (maxDstSize : Int) (written : ℕ) : NoOverrun maxDstSize written [] := by
  intro before piece behind written' hsplit
  exact absurd hsplit.symm (List.append_ne_nil_of_right_ne_nil _ (List.cons_ne_nil _ _))

theorem noOverrun_cons {written : ℕ} {piece : Piece} {pieces : List Piece} :
    NoOverrun maxDstSize written (piece :: pieces) ↔
      ¬ Overruns maxDstSize written piece ∧
        ∀ written', advance maxDstSize written piece = some written' →
          NoOverrun maxDstSize written' pieces := by
  constructor
  · intro h
    refine ⟨h [] piece pieces written rfl rfl, fun written' hadvance => ?_⟩
    intro before next behind written'' hsplit hbefore
    refine h (piece :: before) next behind written'' (by rw [hsplit]; rfl) ?_
    rw [List.foldlM_cons, hadvance]
    exact hbefore
  · rintro ⟨hpiece, hpieces⟩ before next behind written' hsplit hbefore
    cases before with
    | nil =>
      obtain ⟨rfl, rfl⟩ := List.cons.inj hsplit
      rwa [← Option.some.inj hbefore]
    | cons first before =>
      obtain ⟨rfl, rfl⟩ := List.cons.inj hsplit
      rw [List.foldlM_cons] at hbefore
      obtain ⟨written'', hadvance, hbefore⟩ := Option.bind_eq_some_iff.mp hbefore
      exact hpieces written'' hadvance before next behind written' rfl hbefore

theorem noOverrun_of_stuck {written : ℕ} {piece : Piece} (pieces : List Piece)
    (h : ¬ Overruns maxDstSize written piece) (hstuck : advance maxDstSize written piece = none) :
    NoOverrun maxDstSize written (piece :: pieces) :=
  noOverrun_cons.mpr ⟨h, fun _ hadvance => absurd (hstuck.symm.trans hadvance) (by rintro ⟨⟩)⟩

theorem noOverrun_cons_of_some {written written' : ℕ} {piece : Piece} {pieces : List Piece}
    (h : ¬ Overruns maxDstSize written piece)
    (hadvance : advance maxDstSize written piece = some written') :
    NoOverrun maxDstSize written (piece :: pieces) ↔ NoOverrun maxDstSize written' pieces := by
  rw [noOverrun_cons]
  constructor
  · exact fun hall => hall.2 written' hadvance
  · intro hall
    refine ⟨h, fun written'' hadvance' => ?_⟩
    rwa [← Option.some.inj (hadvance.symm.trans hadvance')]

/-! ## The compressor -/

/-- The call has a meaning exactly where it is safe, and it ends with this result then. -/
def Means (call : Checked CallResult) (safe : Prop) (result : CallResult) : Prop :=
  (safe → call = .ok result) ∧ (¬ safe → ∃ fault, call = .error fault)

theorem means_ok {safe : Prop} (h : safe) (result : CallResult) : Means (.ok result) safe result :=
  ⟨fun _ => rfl, fun hn => absurd h hn⟩

theorem means_error {safe : Prop} (h : ¬ safe) (fault : Fault) (result : CallResult) :
    Means (.error fault) safe result := ⟨fun hs => absurd hs h, fun _ => ⟨fault, rfl⟩⟩

theorem Means.exists_iff {call : Checked CallResult} {safe : Prop} {result : CallResult}
    (h : Means call safe result) {p : CallResult → Prop} (hp : p result) :
    (∃ r, call = .ok r ∧ p r) ↔ safe := by
  constructor
  · rintro ⟨r, hok, -⟩
    by_contra hunsafe
    obtain ⟨fault, herror⟩ := h.2 hunsafe
    rw [hok] at herror
    cases herror
  · exact fun hsafe => ⟨result, h.1 hsafe, hp⟩

/-- **The compressor has a meaning as long as no piece overruns the buffer**, and it does then what
it does on suffixes. -/
theorem means_compressAt (src : Bytes) (maxDstSize : Int) (i : ℕ) (out : Bytes)
    (hout : out.length ≤ maxDstSize) :
    Means (compressAt src maxDstSize i out)
      (NoOverrun maxDstSize out.length (cut (src.drop i)))
      (compressLoop maxDstSize (src.drop i) out) := by
  induction hn : src.length - i using Nat.strong_induction_on generalizing i out with
  | h n ih =>
    cases hdrop : src.drop i with
    | nil =>
      have hge : ¬ i < src.length := Nat.not_lt.mpr (List.drop_eq_nil_iff.mp hdrop)
      rw [compressAt, dif_neg hge, compressLoop, cut]
      exact means_ok (noOverrun_nil _ _) _
    | cons first rest =>
      have hlt := lt_length_of_drop hdrop
      have hnext (k : ℕ) : src.drop (i + k) = (first :: rest).drop k := by
        rw [← List.drop_drop, hdrop]
      by_cases hrun : 4 ≤ run 258 (first :: rest)
      · have hround := compressAt_run maxDstSize out hdrop (hdrop ▸ hrun)
        rw [hdrop] at hround
        rw [cut_of_run hrun, compressLoop_of_run hrun, hround]
        set k := run 258 (first :: rest) with hk
        by_cases hsum : intMax < out.length + 2
        · rw [if_pos hsum]
          have hbad : Overruns maxDstSize out.length (.run k) := Or.inr (Or.inl hsum)
          exact means_error (fun h => (noOverrun_cons.mp h).1 hbad) _ _
        rw [if_neg hsum]
        by_cases htwo : maxDstSize < (out.length + 2 : ℕ)
        · rw [if_pos htwo, if_pos htwo]
          have hsafe : ¬ Overruns maxDstSize out.length (.run k) := by
            rintro (h | h | h) <;> omega
          have hstuck : advance maxDstSize out.length (.run k) = none := if_neg (by omega)
          exact means_ok (noOverrun_of_stuck _ hsafe hstuck) _
        rw [if_neg htwo, if_neg htwo]
        by_cases hedge : maxDstSize = (out.length + 2 : ℕ)
        · rw [if_pos hedge]
          have hbad : Overruns maxDstSize out.length (.run k) := Or.inl hedge.symm
          exact means_error (fun h => (noOverrun_cons.mp h).1 hbad) _ _
        rw [if_neg hedge]
        by_cases hlast : intMax < out.length + 4
        · rw [if_pos hlast]
          have hbad : Overruns maxDstSize out.length (.run k) :=
            Or.inr (Or.inr ⟨hlast, by omega⟩)
          exact means_error (fun h => (noOverrun_cons.mp h).1 hbad) _ _
        rw [if_neg hlast]
        have hsafe : ¬ Overruns maxDstSize out.length (.run k) := by
          rintro (h | h | h) <;> omega
        have hlength (a b c : Byte) : (out ++ [a, b, c]).length = out.length + 3 :=
          List.length_append
        dsimp only
        rw [hlength]
        by_cases hfour : maxDstSize < (out.length + 4 : ℕ)
        · rw [if_pos (show maxDstSize < (out.length + 3 + 1 : ℕ) from hfour), if_pos hfour]
          have hstuck : advance maxDstSize out.length (.run k) = none := if_neg (by omega)
          exact means_ok (noOverrun_of_stuck _ hsafe hstuck) _
        · have hadvance : advance maxDstSize out.length (.run k) = some (out.length + 3) :=
            if_pos (by omega)
          rw [if_neg (show ¬ maxDstSize < (out.length + 3 + 1 : ℕ) from hfour), if_neg hfour,
            noOverrun_cons_of_some hsafe hadvance, ← hnext, ← hlength 0x80 _ first]
          exact ih _ (by omega) _ _ (by rw [hlength]; omega) rfl
      · have hround := compressAt_literals maxDstSize out hdrop (hdrop ▸ hrun)
        rw [hdrop] at hround
        have hpos := stretch_pos_of_not_run hrun
        rw [cut_of_stretch hrun, compressLoop_of_stretch hrun, hround]
        dsimp only
        set litCount := min 255 (stretch 4 (first :: rest)) with hlit
        by_cases hsum : intMax < out.length + 1 + litCount
        · rw [if_pos hsum]
          have hbad : Overruns maxDstSize out.length (.literals litCount) := hsum
          exact means_error (fun h => (noOverrun_cons.mp h).1 hbad) _ _
        rw [if_neg hsum]
        have hsafe : ¬ Overruns maxDstSize out.length (.literals litCount) := hsum
        by_cases hroom : maxDstSize < (out.length + 1 + litCount : ℕ)
        · rw [if_pos hroom, if_pos hroom]
          have hstuck : advance maxDstSize out.length (.literals litCount) = none :=
            if_neg (by omega)
          exact means_ok (noOverrun_of_stuck _ hsafe hstuck) _
        · have hadvance : advance maxDstSize out.length (.literals litCount) =
              some (out.length + 1 + litCount) := if_pos (by omega)
          have hblock : (out ++ UInt8.ofNat litCount :: (first :: rest).take litCount).length =
              out.length + 1 + litCount := by
            have hle := stretch_le_length 4 (first :: rest)
            rw [List.length_append, List.length_cons, List.length_take]
            omega
          rw [if_neg hroom, if_neg hroom, noOverrun_cons_of_some hsafe hadvance, ← hnext, ← hblock]
          exact ih _ (by omega) _ _ (by rw [hblock]; omega) rfl

/-- The bytes that are written come to 0 as the result where the encoding has no room. -/
theorem compressLoop_ret (src out : Bytes) (hout : out.length ≤ maxDstSize)
    (hroom : maxDstSize < (out ++ encode src).length) : (compressLoop maxDstSize src out).ret = 0 := by
  match src with
  | [] =>
    rw [encode_nil, List.append_nil] at hroom
    omega
  | first :: rest =>
    by_cases hrun : 4 ≤ run 258 (first :: rest)
    · rw [compressLoop_of_run hrun]
      dsimp only
      split_ifs with htwo hfour
      · rfl
      · rfl
      · refine compressLoop_ret _ _ ?_ ?_
        · rw [List.length_append]
          simp only [List.length_cons, List.length_nil]
          omega
        · rw [encode_of_run hrun] at hroom
          rwa [List.append_assoc]
    · rw [compressLoop_of_stretch hrun]
      dsimp only
      split_ifs with hlt
      · rfl
      · refine compressLoop_ret _ _ ?_ ?_
        · rw [List.length_append, List.length_cons, List.length_take]
          omega
        · rw [encode_of_stretch hrun] at hroom
          rwa [List.append_assoc, List.cons_append]
termination_by src.length
decreasing_by
  · simp only [List.length_drop, List.length_cons]
    omega
  · have hpos := stretch_pos_of_not_run hrun
    simp only [List.length_drop, List.length_cons]
    omega

/-! ## The headers of compressed bytes -/

/-- How many bytes belong to a header. -/
def need (token : Byte) : ℕ := if token &&& 0x80 ≠ 0 then 2 else token.toNat

/-- How many bytes the header at `ip` stands for. -/
def produced (src : Bytes) (ip : ℕ) (token : Byte) : ℕ :=
  if token &&& 0x80 ≠ 0 then (src.getD (ip + 1) 0).toNat + 3 else token.toNat

/-- The decompressor comes to a header at `ip`, or to the end, with `op` bytes written. -/
inductive HeaderAt (src : Bytes) (maxDstSize : Int) : ℕ → ℕ → Prop
  | start : HeaderAt src maxDstSize 0 0
  | next {ip op : ℕ} {token : Byte} (h : HeaderAt src maxDstSize ip op)
      (htoken : src[ip]? = some token) (hne : token ≠ 0)
      (hsrc : ip + 1 + need token ≤ src.length)
      (hdst : (op + produced src ip token : ℕ) ≤ maxDstSize) :
      HeaderAt src maxDstSize (ip + 1 + need token) (op + produced src ip token)

/-- The sums in the tests behind a header are `int`s. -/
def SumsFit (src : Bytes) (ip op : ℕ) (token : Byte) : Prop :=
  ip + 1 + need token ≤ intMax ∧
    (ip + 1 + need token ≤ src.length → op + produced src ip token ≤ intMax)

/-- The sums are `int`s behind every header that the decompressor comes to. -/
def AllSumsFit (src : Bytes) (maxDstSize : Int) : Prop :=
  ∀ ip op token, HeaderAt src maxDstSize ip op → src[ip]? = some token → token ≠ 0 →
    SumsFit src ip op token

/-! ## The decompressor -/

theorem toNat_ne_zero {token : Byte} (h : token ≠ 0) : token.toNat ≠ 0 :=
  fun hzero => h (UInt8.toNat_inj.mp hzero)

/-- What is written for the header at `ip`. -/
def blockOf (src : Bytes) (ip : ℕ) (token : Byte) : Bytes :=
  if token &&& 0x80 ≠ 0 then List.replicate (produced src ip token) (src.getD (ip + 2) 0)
  else (src.drop (ip + 1)).take token.toNat

theorem length_blockOf {ip : ℕ} {token : Byte} (h : ip + 1 + need token ≤ src.length) :
    (blockOf src ip token).length = produced src ip token := by
  rw [blockOf]
  split
  · exact List.length_replicate
  · rename_i hrun
    rw [need, if_neg hrun] at h
    rw [produced, if_neg hrun, List.length_take, List.length_drop]
    omega

theorem readAt_of_lt {i : ℕ} (h : i < src.length) : readAt src i = .ok (src.getD i 0) := by
  rw [readAt, List.getElem?_eq_getElem h, List.getD_eq_getElem?_getD, List.getElem?_eq_getElem h,
    Option.getD_some]

/-- **One round of the decompressor.** -/
theorem decompressAt_eq (maxDstSize : Int) (out : Bytes) {ip : ℕ} {token : Byte} {rest : Bytes}
    (hdrop : src.drop ip = token :: rest) (hne : token ≠ 0) :
    decompressAt src maxDstSize ip out =
      if intMax < ip + 1 + need token then .error .overflow
      else if src.length < ip + 1 + need token then .ok ⟨-1, out⟩
      else if intMax < out.length + produced src ip token then .error .overflow
      else if maxDstSize < (out.length + produced src ip token : ℕ) then .ok ⟨-1, out⟩
      else decompressAt src maxDstSize (ip + 1 + need token) (out ++ blockOf src ip token) := by
  rw [decompressAt, dif_pos (lt_length_of_drop hdrop), readAt_of_drop hdrop]
  show (if token &&& 0x80 ≠ 0 then _ else _) = _
  by_cases hrun : token &&& 0x80 ≠ 0
  · rw [if_pos hrun, addInt, need, if_pos hrun]
    by_cases hip : intMax < ip + 1 + 2
    · rw [if_neg (Nat.not_le.mpr hip), if_pos hip]
      rfl
    rw [if_pos (Nat.le_of_not_lt hip), if_neg hip]
    show (if ip + 1 + 2 > src.length then _ else _) = _
    by_cases hsrc : src.length < ip + 1 + 2
    · rw [if_pos hsrc, if_pos hsrc]
      rfl
    have hproduced : produced src ip token = (src.getD (ip + 1) 0).toNat + 3 := if_pos hrun
    rw [if_neg hsrc, if_neg hsrc, readAt_of_lt (show ip + 1 < src.length by omega),
      readAt_of_lt (show ip + 1 + 1 < src.length by omega)]
    show (addInt out.length ((src.getD (ip + 1) 0).toNat + 3) >>= _) = _
    rw [← hproduced, addInt]
    by_cases hop : intMax < out.length + produced src ip token
    · rw [if_neg (Nat.not_le.mpr hop), if_pos hop]
      rfl
    rw [if_pos (Nat.le_of_not_lt hop), if_neg hop]
    show (if ((out.length + produced src ip token : ℕ) : Int) > maxDstSize then _ else _) = _
    by_cases hdst : maxDstSize < (out.length + produced src ip token : ℕ)
    · rw [if_pos hdst, if_pos hdst]
      rfl
    rw [if_neg hdst, if_neg hdst, fillAt_eq _ (by omega), blockOf, if_pos hrun]
    rfl
  · rw [if_neg hrun, if_neg (toNat_ne_zero hne), addInt, need, if_neg hrun]
    by_cases hip : intMax < ip + 1 + token.toNat
    · rw [if_neg (Nat.not_le.mpr hip), if_pos hip]
      rfl
    rw [if_pos (Nat.le_of_not_lt hip), if_neg hip]
    show (if ip + 1 + token.toNat > src.length then _ else _) = _
    by_cases hsrc : src.length < ip + 1 + token.toNat
    · rw [if_pos hsrc, if_pos hsrc]
      rfl
    have hproduced : produced src ip token = token.toNat := if_neg hrun
    rw [if_neg hsrc, if_neg hsrc, hproduced, addInt]
    by_cases hop : intMax < out.length + token.toNat
    · rw [if_neg (Nat.not_le.mpr hop), if_pos hop]
      rfl
    rw [if_pos (Nat.le_of_not_lt hop), if_neg hop]
    show (if ((out.length + token.toNat : ℕ) : Int) > maxDstSize then _ else _) = _
    by_cases hdst : maxDstSize < (out.length + token.toNat : ℕ)
    · rw [if_pos hdst, if_pos hdst]
      rfl
    rw [if_neg hdst, if_neg hdst, copyAt_eq (Nat.le_of_not_lt hsrc) (by omega), blockOf,
      if_neg hrun]
    rfl

/-- The same round on suffixes. -/
theorem decompressLoop_eq (maxDstSize : Int) (out : Bytes) {ip : ℕ} {token : Byte} {rest : Bytes}
    (hdrop : src.drop ip = token :: rest) (hne : token ≠ 0) :
    decompressLoop maxDstSize (src.drop ip) out =
      if src.length < ip + 1 + need token then ⟨-1, out⟩
      else if maxDstSize < (out.length + produced src ip token : ℕ) then ⟨-1, out⟩
      else decompressLoop maxDstSize (src.drop (ip + 1 + need token))
        (out ++ blockOf src ip token) := by
  have hrest : src.drop (ip + 1) = rest := drop_succ_of_drop hdrop
  have hlength : rest.length = src.length - (ip + 1) := by rw [← hrest, List.length_drop]
  have hlt := lt_length_of_drop hdrop
  have hget (k : ℕ) : rest.getD k 0 = src.getD (ip + 1 + k) 0 := by
    rw [← hrest, List.getD_eq_getElem?_getD, List.getElem?_drop, ← List.getD_eq_getElem?_getD]
  rw [hdrop, decompressLoop]
  by_cases hrun : token &&& 0x80 ≠ 0
  · have hproduced : produced src ip token = (src.getD (ip + 1) 0).toNat + 3 := if_pos hrun
    rw [if_pos hrun, need, if_pos hrun, blockOf, if_pos hrun, ← List.drop_drop, hrest, hget 0, hget 1,
      Nat.add_zero, ← hproduced]
    exact ite_congr (by rw [hlength, eq_iff_iff]; omega) (fun _ => rfl) fun _ =>
      ite_congr (by rw [eq_iff_iff]; omega) (fun _ => rfl) fun _ => rfl
  · have hproduced : produced src ip token = token.toNat := if_neg hrun
    have hpos := toNat_ne_zero hne
    rw [if_neg hrun, need, if_neg hrun, blockOf, if_neg hrun, ← List.drop_drop, hrest, hproduced]
    by_cases hsrc : src.length < ip + 1 + token.toNat
    · rw [if_pos hsrc, if_pos (Or.inr (Or.inl (by omega)))]
    rw [if_neg hsrc]
    by_cases hdst : maxDstSize < (out.length + token.toNat : ℕ)
    · rw [if_pos hdst, if_pos (Or.inr (Or.inr (by omega)))]
    · rw [if_neg hdst, if_neg (by omega)]

theorem decompressAt_zero (maxDstSize : Int) (out : Bytes) {ip : ℕ} {rest : Bytes}
    (hdrop : src.drop ip = 0 :: rest) :
    decompressAt src maxDstSize ip out = .ok ⟨-1, out⟩ := by
  rw [decompressAt, dif_pos (lt_length_of_drop hdrop), readAt_of_drop hdrop]
  rfl

theorem decompressAt_end (maxDstSize : Int) (out : Bytes) {ip : ℕ} (hdrop : src.drop ip = []) :
    decompressAt src maxDstSize ip out = .ok ⟨out.length, out⟩ := by
  rw [decompressAt, dif_neg (Nat.not_lt.mpr (List.drop_eq_nil_iff.mp hdrop))]
  rfl

theorem drop_of_getElem? {i : ℕ} {b : Byte} (h : src[i]? = some b) :
    src.drop i = b :: src.drop (i + 1) := by
  obtain ⟨hlt, hget⟩ := List.getElem?_eq_some_iff.mp h
  rw [List.drop_eq_getElem_cons hlt, hget]

/-- A call that has a meaning comes to every header. -/
theorem HeaderAt.exists_decompressAt {ip op : ℕ} (h : HeaderAt src maxDstSize ip op)
    {result : CallResult} (hok : decompressAt src maxDstSize 0 [] = .ok result) :
    ∃ out : Bytes, out.length = op ∧ decompressAt src maxDstSize ip out = .ok result := by
  induction h with
  | start => exact ⟨[], rfl, hok⟩
  | @next ip op token h htoken hne hsrc hdst ih =>
    obtain ⟨out, rfl, hout⟩ := ih
    have hdrop := drop_of_getElem? htoken
    rw [decompressAt_eq maxDstSize out hdrop hne] at hout
    refine ⟨out ++ blockOf src ip token, ?_, ?_⟩
    · rw [List.length_append, length_blockOf hsrc]
    · split_ifs at hout
      · omega
      · omega
      · exact hout

/-- From a header on the call has a meaning, if all sums to come are `int`s. -/
theorem HeaderAt.decompressAt_eq_ok (hsums : AllSumsFit src maxDstSize) {ip : ℕ}
    (h : HeaderAt src maxDstSize ip out.length) :
    decompressAt src maxDstSize ip out =
      .ok (decompressLoop maxDstSize (src.drop ip) out) := by
  induction hn : src.length - ip using Nat.strong_induction_on generalizing ip out with
  | h n ih =>
    cases hdrop : src.drop ip with
    | nil => rw [decompressAt_end _ _ hdrop, decompressLoop]
    | cons token rest =>
      by_cases hne : token = 0
      · rw [hne] at hdrop ⊢
        rw [decompressAt_zero _ _ hdrop, decompressLoop_zero]
      have htoken := getElem?_of_drop hdrop
      have hlt := lt_length_of_drop hdrop
      obtain ⟨hip, hop⟩ := hsums ip out.length token h htoken hne
      rw [← hdrop, decompressAt_eq maxDstSize out hdrop hne, decompressLoop_eq maxDstSize out hdrop hne,
        if_neg (Nat.not_lt.mpr hip)]
      by_cases hsrc : src.length < ip + 1 + need token
      · rw [if_pos hsrc, if_pos hsrc]
      have hle := Nat.le_of_not_lt hsrc
      rw [if_neg hsrc, if_neg hsrc, if_neg (Nat.not_lt.mpr (hop hle))]
      by_cases hdst : maxDstSize < (out.length + produced src ip token : ℕ)
      · rw [if_pos hdst, if_pos hdst]
      · have hblock : (out ++ blockOf src ip token).length = out.length + produced src ip token := by
          rw [List.length_append, length_blockOf hle]
        rw [if_neg hdst, if_neg hdst]
        refine ih _ (by omega) ?_ rfl
        rw [hblock]
        exact h.next htoken hne hle (by omega)

/-- **The decompressor has a meaning as long as the sums in its tests are `int`s**, and it does then
what it does on suffixes. -/
theorem means_decompressAt (src : Bytes) (maxDstSize : Int) :
    Means (decompressAt src maxDstSize 0 []) (AllSumsFit src maxDstSize)
      (decompressLoop maxDstSize src []) := by
  refine ⟨fun hsums => HeaderAt.decompressAt_eq_ok hsums .start, fun hsums => ?_⟩
  cases hcall : decompressAt src maxDstSize 0 [] with
  | error fault => exact ⟨fault, rfl⟩
  | ok result =>
    refine absurd (fun ip op token h htoken hne => ?_) hsums
    obtain ⟨out, rfl, hout⟩ := h.exists_decompressAt hcall
    have hdrop := drop_of_getElem? htoken
    rw [decompressAt_eq maxDstSize out hdrop hne] at hout
    have hip : ip + 1 + need token ≤ intMax := by
      by_contra hip
      rw [if_pos (Nat.not_le.mp hip)] at hout
      cases hout
    refine ⟨hip, fun hle => ?_⟩
    by_contra hop
    rw [if_neg (Nat.not_lt.mpr hip), if_neg (Nat.not_lt.mpr hle), if_pos (Nat.not_le.mp hop)] at hout
    cases hout

/-! ## The two calls -/

/-- `LZ4_compress_default` has a meaning, and returns 0 where the encoding has no room. -/
def CompressRespects (src : Source) (maxDstSize : Int32) : Prop :=
  ∃ result, compressDefaultAt src.bytes maxDstSize.toInt = .ok result ∧
    (maxDstSize.toInt < (encode src.bytes).length → result.ret = 0)

/-- `LZ4_decompress_safe` has a meaning. -/
def DecompressRespects (src : Source) (maxDstSize : Int32) : Prop :=
  ∃ result, decompressSafeAt src.bytes maxDstSize.toInt = .ok result

theorem means_compressDefaultAt (src : Bytes) (maxDstSize : Int) :
    Means (compressDefaultAt src maxDstSize)
      (0 < maxDstSize → NoOverrun maxDstSize 0 (cut src)) (compressDefault src maxDstSize) := by
  rw [compressDefaultAt, compressDefault]
  by_cases hsize : maxDstSize ≤ 0
  · rw [if_pos hsize, if_pos hsize]
    exact means_ok (fun h => absurd h (by omega)) _
  · have hloop := means_compressAt src maxDstSize 0 []
      (by rw [List.length_nil]; omega)
    rw [if_neg hsize, if_neg hsize]
    exact ⟨fun h => hloop.1 (h (by omega)), fun h => hloop.2 fun hsafe => h fun _ => hsafe⟩

theorem means_decompressSafeAt (src : Bytes) (maxDstSize : Int) :
    Means (decompressSafeAt src maxDstSize) (0 ≤ maxDstSize → AllSumsFit src maxDstSize)
      (decompressSafe src maxDstSize) := by
  rw [decompressSafeAt, decompressSafe]
  by_cases hsize : maxDstSize < 0
  · rw [if_pos hsize, if_pos hsize]
    exact means_ok (fun h => absurd h (by omega)) _
  · have hloop := means_decompressAt src maxDstSize
    rw [if_neg hsize, if_neg hsize]
    exact ⟨fun h => hloop.1 (h (by omega)), fun h => hloop.2 fun hsafe => h fun _ => hsafe⟩

theorem compressDefault_ret {src : Bytes} {maxDstSize : Int}
    (h : maxDstSize < (encode src).length) : (compressDefault src maxDstSize).ret = 0 := by
  rw [compressDefault]
  split_ifs with hsize
  · rfl
  · exact compressLoop_ret src [] (by rw [List.length_nil]; omega) h

/-- **When the shim respects its buffers.**  The compressor does as long as no run of its cut begins
with room for two of its three bytes, and both do as long as the sums in their tests are `int`s. -/
theorem respectsBuffers_iff (src compressed : Source) (maxDstSize maxDstSize' : Int32) :
    (CompressRespects src maxDstSize ↔
      (0 < maxDstSize.toInt → NoOverrun maxDstSize.toInt 0 (cut src.bytes))) ∧
      (DecompressRespects compressed maxDstSize' ↔
        (0 ≤ maxDstSize'.toInt → AllSumsFit compressed.bytes maxDstSize'.toInt)) := by
  refine ⟨(means_compressDefaultAt _ _).exists_iff fun h => compressDefault_ret h, ?_⟩
  have hiff := (means_decompressSafeAt compressed.bytes maxDstSize'.toInt).exists_iff
    (p := fun _ => True) trivial
  exact (exists_congr fun result => (and_iff_left trivial).symm).trans hiff

/-- Four equal bytes have a block of three bytes, which is written into a buffer of two. -/
theorem not_compressRespects_two : ¬ CompressRespects ⟨List.replicate 4 0x61, by decide⟩ 2 := by
  have hfault : compressDefaultAt (List.replicate 4 0x61) 2 = .error .outOfBounds := by
    rw [compressDefaultAt, if_neg (by decide), compressAt_run 2 [] rfl (by decide)]
    rfl
  rintro ⟨result, hok, -⟩
  rw [show ((2 : Int32).toInt) = 2 from rfl, hfault] at hok
  cases hok

end Aetheris.Lz4
