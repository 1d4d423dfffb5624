import Aetheris.Png.Inflate
import Aetheris.Png.Deflate

/-!
# Reading bits

What the inflater has not read yet is a string of bits: those in its buffer, and those of the bytes
behind its cursor.  `Reading` states which, and `bits` takes a number off its front; a stored block
begins with the next byte.
-/

namespace Aetheris.Png

open BitString

@[simp] theorem bytesBits_nil : bytesBits [] = [] := rfl

@[simp] theorem bytesBits_cons (byte : Byte) (data : Bytes) :
    bytesBits (byte :: data) = littleEndian 8 byte.toNat ++ bytesBits data := rfl

theorem length_bytesBits (data : Bytes) : (bytesBits data).length = 8 * data.length := by
  induction data with
  | nil => rfl
  | cons byte data ih =>
    rw [bytesBits_cons, List.length_append, length_littleEndian, ih, List.length_cons]
    omega

/-- The bytes are known from their bits. -/
theorem exists_of_bytesBits_eq_append {data front : Bytes} {rest : List Bool}
    (h : bytesBits data = bytesBits front ++ rest) :
    ∃ back, data = front ++ back ∧ bytesBits back = rest := by
  induction front generalizing data with
  | nil => exact ⟨data, rfl, h⟩
  | cons byte front ih =>
    cases data with
    | nil => cases h
    | cons other data =>
      rw [bytesBits_cons, bytesBits_cons, List.append_assoc] at h
      obtain ⟨hbyte, htail⟩ := List.append_inj h (by
        rw [length_littleEndian, length_littleEndian])
      have heq : other = byte :=
        UInt8.toNat_inj.mp (littleEndian_inj other.toNat_lt byte.toNat_lt hbyte)
      obtain ⟨back, rfl, hback⟩ := ih htail
      exact ⟨back, by rw [heq]; rfl, hback⟩

/-- **The inflater has `rest` still to read and has put out `out`.** -/
structure Reading (data : Bytes) (state : Inflater) (rest : List Bool) (out : Bytes) : Prop where
  input_eq : state.input = data
  cursor_le : state.inCursor ≤ data.length
  buffer_lt : state.bitBuffer < 2 ^ state.bitCount
  count_lt : state.bitCount < 8
  rest_eq : littleEndian state.bitCount state.bitBuffer ++
    bytesBits (data.drop state.inCursor) = rest
  out_eq : state.out = out

variable {data : Bytes} {state : Inflater} {rest : List Bool} {out : Bytes}

/-- The loop of `bits` moves bytes into the buffer and leaves what is to be read as it is. -/
theorem fillBits_reads {value need : ℕ} {pending : List Bool} (hinput : state.input = data)
    (hcursor : state.inCursor ≤ data.length) (hvalue : value < 2 ^ state.bitCount)
    (hcount : state.bitCount < need + 8)
    (hpending : littleEndian state.bitCount value ++ bytesBits (data.drop state.inCursor) = pending)
    (hneed : need ≤ pending.length) :
    ∃ value' state', fillBits state value need = .ok (value', state') ∧
      need ≤ state'.bitCount ∧ state'.bitCount < need + 8 ∧ state'.input = data ∧
      state'.inCursor ≤ data.length ∧ value' < 2 ^ state'.bitCount ∧
      littleEndian state'.bitCount value' ++ bytesBits (data.drop state'.inCursor) = pending ∧
      state'.out = state.out := by
  induction hn : need - state.bitCount using Nat.strongRecOn generalizing state value with
  | ind n ih =>
    rw [fillBits]
    by_cases hlt : state.bitCount < need
    · have hcursor' : state.inCursor < data.length := by
        refine Nat.lt_of_le_of_ne hcursor fun heq => ?_
        have hlength := congrArg List.length hpending
        rw [heq, List.drop_length, bytesBits_nil, List.append_nil, length_littleEndian] at hlength
        omega
      rw [if_pos hlt, hinput, List.getElem?_eq_getElem hcursor']
      dsimp only
      rw [List.drop_eq_getElem_cons hcursor', bytesBits_cons, ← List.append_assoc,
        ← littleEndian_or_shiftLeft hvalue] at hpending
      exact ih _ (by dsimp only; omega) rfl hcursor'
        (or_shiftLeft_lt hvalue (data[state.inCursor].toNat_lt)) (by dsimp only; omega) hpending rfl
    · rw [if_neg hlt]
      exact ⟨value, state, rfl, Nat.le_of_not_lt hlt, hcount, hinput, hcursor, hvalue, hpending,
        rfl⟩

/-- **`bits` reads a number.** -/
theorem Reading.bits {need v : ℕ} (hv : v < 2 ^ need)
    (h : Reading data state (littleEndian need v ++ rest) out) :
    ∃ state', bits state need = .ok (v, state') ∧ Reading data state' rest out := by
  have hneed : need ≤ (littleEndian need v ++ rest).length := by
    rw [List.length_append, length_littleEndian]
    exact Nat.le_add_right _ _
  obtain ⟨value, filled, hfill, hge, hlt, hinput, hcursor, hvalue, hpending, hout⟩ :=
    fillBits_reads h.input_eq h.cursor_le h.buffer_lt (by have := h.count_lt; omega) h.rest_eq hneed
  obtain ⟨more, hmore⟩ := Nat.exists_eq_add_of_le hge
  rw [hmore, littleEndian_add, List.append_assoc] at hpending
  obtain ⟨hlow, hrest⟩ := List.append_inj hpending (by
    rw [length_littleEndian, length_littleEndian])
  rw [← littleEndian_mod] at hlow
  have hmod : value % 2 ^ need = v :=
    littleEndian_inj (Nat.mod_lt _ (Nat.two_pow_pos need)) hv hlow
  have hmask : value &&& (1 <<< need - 1) = v := by
    rw [Nat.one_shiftLeft, Nat.and_two_pow_sub_one_eq_mod, hmod]
  refine ⟨{ filled with bitBuffer := value >>> need, bitCount := filled.bitCount - need }, ?_,
    hinput, hcursor, ?_, ?_, ?_, hout.trans h.out_eq⟩
  · rw [Png.bits, hfill]
    rw [← hmask]
    rfl
  · dsimp only
    rw [hmore, Nat.add_sub_cancel_left, Nat.shiftRight_eq_div_pow]
    rw [hmore, Nat.pow_add] at hvalue
    exact Nat.div_lt_of_lt_mul hvalue
  · dsimp only
    omega
  · dsimp only
    rw [hmore, Nat.add_sub_cancel_left, Nat.shiftRight_eq_div_pow]
    exact hrest

/-- One bit is read. -/
theorem Reading.bit {b : Bool} (h : Reading data state (b :: rest) out) :
    ∃ state', Png.bits state 1 = .ok (b.toNat, state') ∧ Reading data state' rest out := by
  have hb : Reading data state (littleEndian 1 b.toNat ++ rest) out := by
    rw [littleEndian_one]
    exact h
  exact hb.bits (Bool.toNat_lt b)

/-- Where less than a byte is skipped and the rest starts at a byte, the buffer is skipped. -/
theorem Reading.aligned {padding : List Bool} (h : Reading data state (padding ++ rest) out)
    (hpadding : padding.length < 8) (hrest : rest.length % 8 = 0) :
    bytesBits (data.drop state.inCursor) = rest := by
  have hlength := congrArg List.length h.rest_eq
  rw [List.length_append, List.length_append, length_littleEndian, length_bytesBits] at hlength
  have hcount := h.count_lt
  exact (List.append_inj h.rest_eq (by rw [length_littleEndian]; omega)).2

end Aetheris.Png
