import Aetheris.FromChars
import Aetheris.Js.Value

/-!
# Written numbers are read back

`numberOf` of the leading digits, and with it `std::from_chars` and the functions of the `strtol`
family, is the inverse of `natDecimal`.
-/

namespace Aetheris

theorem digitValue_digitChar {d : ℕ} (hd : d < 10) : digitValue 10 (Js.digitChar d) = some d := by
  have h : ∀ d < 10, digitValue 10 (Js.digitChar d) = some d := by decide
  exact h d hd

theorem leadingDigits_append_of_digits {base : ℕ} {front : Bytes}
    (hfront : ∀ c ∈ front, (digitValue base c).isSome) (back : Bytes) :
    leadingDigits base (front ++ back) = leadingDigits base front ++ leadingDigits base back := by
  induction front with
  | nil => rfl
  | cons c front ih =>
    obtain ⟨value, hvalue⟩ := Option.isSome_iff_exists.mp (hfront c List.mem_cons_self)
    rw [List.cons_append, leadingDigits, leadingDigits, hvalue]
    dsimp only
    rw [ih fun d hd => hfront d (List.mem_cons_of_mem _ hd), List.cons_append]

theorem digitValue_isSome_natDecimal (n : ℕ) :
    ∀ c ∈ Js.natDecimal n, (digitValue 10 c).isSome := by
  induction n using Js.natDecimal.induct with
  | case1 n hlt =>
    rw [Js.natDecimal, if_pos hlt]
    intro c hc
    rw [List.mem_singleton.mp hc, digitValue_digitChar hlt]
    exact Option.isSome_some
  | case2 n hge ih =>
    rw [Js.natDecimal, if_neg hge]
    intro c hc
    rcases List.mem_append.mp hc with h | h
    · exact ih c h
    · rw [List.mem_singleton.mp h, digitValue_digitChar (Nat.mod_lt n (by decide))]
      exact Option.isSome_some

theorem numberOf_natDecimal (n : ℕ) : numberOf 10 (leadingDigits 10 (Js.natDecimal n)) = n := by
  induction n using Js.natDecimal.induct with
  | case1 n hlt =>
    rw [Js.natDecimal, if_pos hlt, leadingDigits, digitValue_digitChar hlt]
    show numberOf 10 [n] = n
    rw [numberOf, List.foldl_cons, List.foldl_nil, Nat.zero_mul, Nat.zero_add]
  | case2 n hge ih =>
    rw [numberOf] at ih
    rw [Js.natDecimal, if_neg hge,
      leadingDigits_append_of_digits (digitValue_isSome_natDecimal (n / 10)), numberOf,
      List.foldl_append, ih, leadingDigits, digitValue_digitChar (Nat.mod_lt n (by decide))]
    show n / 10 * 10 + n % 10 = n
    exact Nat.div_add_mod' n 10

/-- A number that was written is read back. -/
theorem fromChars_natDecimal {n limit : ℕ} (hn : n < limit) :
    fromChars 10 limit (Js.natDecimal n) = some n := by
  have hlimit : numberOf 10 (leadingDigits 10 (Js.natDecimal n)) < limit := by
    rwa [numberOf_natDecimal]
  have h := fromChars_append (Js.natDecimal_ne_nil n) (digitValue_isSome_natDecimal n)
    (fun c (hc : c ∈ ([] : Bytes).head?) => by cases hc) hlimit
  rwa [List.append_nil, numberOf_natDecimal] at h

theorem digitValue_isSome_of_isDigit {c : Byte} (h : isDigit c = true) :
    (digitValue 10 c).isSome = true :=
  forall_byte (P := fun c => isDigit c = true → (digitValue 10 c).isSome = true)
    (by decide +kernel) c h

/-- A text of digits is read to its end. -/
theorem length_leadingDigits {text : Bytes} (h : ∀ c ∈ text, isDigit c = true) :
    (leadingDigits 10 text).length = text.length := by
  induction text with
  | nil => rfl
  | cons c text ih =>
    obtain ⟨value, hvalue⟩ :=
      Option.isSome_iff_exists.mp (digitValue_isSome_of_isDigit (h c List.mem_cons_self))
    rw [leadingDigits, hvalue]
    exact congrArg Nat.succ (ih fun d hd => h d (List.mem_cons_of_mem _ hd))

/-- A zero in front changes no number. -/
theorem numberOf_leadingDigits_zero (text : Bytes) :
    numberOf 10 (leadingDigits 10 (chr '0' :: text)) = numberOf 10 (leadingDigits 10 text) := by
  have hzero : digitValue 10 (chr '0') = some 0 := by decide
  rw [leadingDigits, hzero]
  rfl

end Aetheris
