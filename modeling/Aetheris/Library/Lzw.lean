import Mathlib

/-!
# Dictionary coding

An encoder and a decoder of LZW keep a table of words.  Behind every word that the encoder emits,
the word with the letter after it goes into the table; the decoder does not have this letter before
the next code, so its table is one word behind, and the next code may already stand for this word.

The encoder may emit any word that it knows, so there are many ways of writing a text.  `Lags` is
the invariant between the two tables: with it the decoder knows the word of every code.
-/

namespace Aetheris.Lzw

variable {α : Type*}

/-! ## Encoding -/

/-- The codes: those of the letters, reserved ones, and behind them those of the words in the table,
all below the capacity. -/
structure Format (α : Type*) where
  letters : List α
  reserved : ℕ
  capacity : ℕ

namespace Format

variable (f : Format α)

/-- The code of the first word in the table. -/
def first : ℕ := f.letters.length + f.reserved

/-- The word that a code stands for. -/
def word (table : List (List α)) (code : ℕ) : Option (List α) :=
  match f.letters[code]? with
  | some letter => some [letter]
  | none => if code < f.first then none else table[code - f.first]?

/-- A word goes into the table if there is room for it. -/
def insert (table : List (List α)) (word : List α) : List (List α) :=
  if f.first + table.length < f.capacity then table ++ [word] else table

/-- Behind a word that is emitted, the word with the next letter goes into the table. -/
def extend (table : List (List α)) (word text : List α) : List (List α) :=
  match text with
  | [] => table
  | letter :: _ => f.insert table (word ++ [letter])

/-- One more word in the table has one more code. -/
theorem word_append (table : List (List α)) (w : List α) (code : ℕ) :
    f.word (table ++ [w]) code =
      (f.word table code).or (if code = f.first + table.length then some w else none) := by
  rw [word, word]
  cases hletter : f.letters[code]? with
  | some letter => rfl
  | none =>
    have hletters := List.getElem?_eq_none_iff.mp hletter
    have hfirst : f.letters.length ≤ f.first := Nat.le_add_right _ _
    dsimp only
    by_cases hlt : code < f.first
    · rw [if_pos hlt, if_pos hlt, if_neg (by omega), Option.or_none]
    · rw [if_neg hlt, if_neg hlt]
      rcases Nat.lt_trichotomy (code - f.first) table.length with hold | hnew | hlate
      · rw [List.getElem?_append_left hold, List.getElem?_eq_getElem hold, Option.some_or]
      · rw [hnew, List.getElem?_concat_length, List.getElem?_eq_none (Nat.le_refl _),
          if_pos (by omega), Option.none_or]
      · rw [List.getElem?_eq_none (by rw [List.length_append, List.length_singleton]; omega),
          List.getElem?_eq_none (by omega), if_neg (by omega), Option.none_or]

end Format

/-- What an encoder writes: a code, or that the table is cleared. -/
inductive Command
  | clear
  | emit (code : ℕ)
  deriving DecidableEq, Repr

/-- The ways of writing a text, with the table that there is: any word of it that the text begins
with may be emitted, and the table may be cleared at any time. -/
inductive Encodes (f : Format α) : List (List α) → List α → List Command → Prop
  | nil (table : List (List α)) : Encodes f table [] []
  | clear {table : List (List α)} {text : List α} {commands : List Command} :
    Encodes f [] text commands → Encodes f table text (.clear :: commands)
  | emit {table : List (List α)} {word text : List α} {code : ℕ} {commands : List Command} :
    f.word table code = some word → Encodes f (f.extend table word text) text commands →
      Encodes f table (word ++ text) (.emit code :: commands)

/-! ## Decoding -/

/-- The table of the decoder, and the last word. -/
structure Decoder (α : Type*) where
  table : List (List α) := []
  previous : List α := []

namespace Decoder

variable (f : Format α)

/-- The word of a code; the one behind the table is the last word with its own first letter. -/
def word (d : Decoder α) (code : ℕ) : Option (List α) :=
  match f.word d.table code with
  | some word => some word
  | none =>
    if code = f.first + d.table.length ∧ code < f.capacity then
      d.previous.head?.map fun letter => d.previous ++ [letter]
    else none

/-- With a word, the last one with its first letter goes into the table. -/
def learn (d : Decoder α) (word : List α) : Decoder α where
  table := if d.previous.isEmpty then d.table else f.insert d.table (d.previous ++ word.take 1)
  previous := word

end Decoder

/-- The text that is written in this way. -/
def decode (f : Format α) : Decoder α → List Command → Option (List α)
  | _, [] => some []
  | _, .clear :: commands => decode f {} commands
  | d, .emit code :: commands => do
    let word ← d.word f code
    let text ← decode f (d.learn f word) commands
    return word ++ text

/-! ## The table of the decoder -/

/-- The decoder is one word behind the encoder. -/
structure Lags (f : Format α) (table : List (List α)) (text : List α) (d : Decoder α) : Prop where
  table_eq : table = if d.previous.isEmpty then d.table else f.extend d.table d.previous text
  ne_nil : ∀ word ∈ d.table, word ≠ []

namespace Lags

variable {f : Format α} {table : List (List α)} {word text : List α} {d : Decoder α} {code : ℕ}

theorem start (f : Format α) (text : List α) : Lags f [] text {} := ⟨rfl, fun _ h => nomatch h⟩

theorem mem_insert {table : List (List α)} {word other : List α} (h : other ∈ f.insert table word) :
    other ∈ table ∨ other = word := by
  rw [Format.insert] at h
  split at h
  · exact (List.mem_append.mp h).imp_right List.mem_singleton.mp
  · exact Or.inl h

theorem table_ne_nil (h : Lags f table text d) : ∀ word ∈ table, word ≠ [] := by
  intro word hword
  rw [h.table_eq] at hword
  split at hword
  · exact h.ne_nil word hword
  · cases text with
    | nil => exact h.ne_nil word hword
    | cons letter text =>
      rcases mem_insert hword with hold | rfl
      · exact h.ne_nil word hold
      · exact List.append_ne_nil_of_right_ne_nil _ (List.cons_ne_nil _ _)

/-- Every word has a letter. -/
theorem word_ne_nil (h : Lags f table text d) (hcode : f.word table code = some word) :
    word ≠ [] := by
  rw [Format.word] at hcode
  split at hcode
  · rw [← Option.some.inj hcode]
    exact List.cons_ne_nil _ _
  · split at hcode
    · cases hcode
    · exact h.table_ne_nil word (List.mem_of_getElem? hcode)

/-- With the next word, the decoder has the table that the encoder had when it wrote its code. -/
theorem learn_table (h : Lags f table (word ++ text) d) (hword : word ≠ []) :
    (d.learn f word).table = table := by
  obtain ⟨letter, letters, rfl⟩ := List.exists_cons_of_ne_nil hword
  exact h.table_eq.symm

/-- **The decoder knows the word of every code that the encoder can write.** -/
theorem word_eq (h : Lags f table (word ++ text) d) (hcode : f.word table code = some word) :
    d.word f code = some word := by
  obtain ⟨letter, letters, rfl⟩ := List.exists_cons_of_ne_nil (h.word_ne_nil hcode)
  have htable := h.table_eq
  rw [List.cons_append, Format.extend, Format.insert] at htable
  rw [Decoder.word]
  by_cases hprevious : d.previous.isEmpty = true
  · rw [if_pos hprevious] at htable
    rw [← htable, hcode]
  · by_cases hroom : f.first + d.table.length < f.capacity
    · rw [if_neg hprevious, if_pos hroom] at htable
      rw [htable, Format.word_append] at hcode
      cases hold : f.word d.table code with
      | some known =>
        rw [hold, Option.some_or] at hcode
        exact hcode
      | none =>
        -- the word that the decoder does not have yet begins with the letter that it ends with
        rw [hold, Option.none_or] at hcode
        by_cases hnext : code = f.first + d.table.length
        · rw [if_pos hnext] at hcode
          obtain ⟨c, cs, hcs⟩ := List.exists_cons_of_ne_nil
            (fun hnil => hprevious (by rw [hnil]; rfl) : d.previous ≠ [])
          rw [hcs, List.cons_append, Option.some.injEq, List.cons.injEq] at hcode
          rw [if_pos ⟨hnext, hnext ▸ hroom⟩, hcs, ← hcode.2, ← hcode.1]
          rfl
        · rw [if_neg hnext] at hcode
          cases hcode
    · rw [if_neg hprevious, if_neg hroom] at htable
      rw [← htable, hcode]

theorem emit (h : Lags f table (word ++ text) d) (hcode : f.word table code = some word) :
    Lags f (f.extend table word text) text (d.learn f word) := by
  have hword := h.word_ne_nil hcode
  have htable := h.learn_table hword
  refine ⟨?_, fun other hother => h.table_ne_nil other (htable ▸ hother)⟩
  have hprevious : ¬ (d.learn f word).previous.isEmpty := fun hempty =>
    hword (List.isEmpty_iff.mp hempty)
  rw [if_neg hprevious, htable]
  rfl

end Lags

/-- **Every way of writing a text is read back.** -/
theorem Encodes.decode {f : Format α} {table : List (List α)} {text : List α}
    {commands : List Command} (h : Encodes f table text commands) {d : Decoder α}
    (hlags : Lags f table text d) : decode f d commands = some text := by
  induction h generalizing d with
  | nil table => rfl
  | clear _ ih => exact ih (Lags.start f _)
  | emit hcode _ ih =>
    rw [Lzw.decode, hlags.word_eq hcode, Option.bind_eq_bind, Option.bind_some,
      ih (hlags.emit hcode)]
    rfl

end Aetheris.Lzw
