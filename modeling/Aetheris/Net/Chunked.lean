import Aetheris.Find
import Aetheris.FromChars
import Aetheris.Library.Loop

/-!
# Chunked bodies

`HttpClient::decode_chunked` of `http_client.hpp` goes from one size line to the next.  Positions
and sizes are `size_t`s, so a size near `2 ^ 64` takes the position back, and the loop may then read
the same line again for ever.  This is the only way in which it goes wrong: without such a size it
is left, with at most as many bytes as it was given, and it decodes what chunks encode.

What is left of the bytes is the variant of the loop, and its invariant says that the output has no
more bytes than have been passed.  Chunks as they are sent are read one by one.
-/

namespace Aetheris.Net

open StateTransition

/-- The line end. -/
def crlf : Bytes := [0x0d, 0x0a]

/-- `size_t` arithmetic. -/
def sizeMod (n : ℕ) : ℕ := n % 2 ^ 64

/-- The variables of the loop. -/
structure ChunkState where
  pos : ℕ := 0
  out : Bytes := []
  deriving DecidableEq, Repr

/-- The line at the position: where it ends, and the size it starts with. -/
def sizeLine (data : Bytes) (pos : ℕ) : Option (ℕ × ℕ) :=
  (find (data.drop pos) crlf).bind fun length =>
    (fromChars 16 (2 ^ 64) ((data.drop pos).take length)).map fun size =>
      (pos + length + 2, size)

/-- One round of the loop. -/
def chunkStep (data : Bytes) (s : ChunkState) : Option ChunkState :=
  if s.pos < data.length then
    match sizeLine data s.pos with
    | none => none
    | some (start, chunkSize) =>
      if chunkSize = 0 then none
      else
        let chunkSize :=
          if data.length < sizeMod (start + chunkSize) then data.length - start else chunkSize
        let next := sizeMod (start + chunkSize)
        some {
          pos := if (data.drop next).take 2 = crlf then next + 2 else next
          -- `append` takes what there is
          out := s.out ++ (data.drop start).take chunkSize }
  else none

/-- `decode_chunked`, with a bound on the rounds. -/
def decodeChunked (fuel : ℕ) (data : Bytes) : Option Bytes :=
  (Loop.run (chunkStep data) fuel {}).map (·.out)

/-- The size does not take the position past `2 ^ 64`, in any line the loop comes to. -/
def NoWrap (data : Bytes) : Prop :=
  ∀ s, Reaches (chunkStep data) {} s → ∀ start chunkSize,
    sizeLine data s.pos = some (start, chunkSize) → start + chunkSize < 2 ^ 64

theorem sizeLine_le {data : Bytes} {pos start chunkSize : ℕ}
    (h : sizeLine data pos = some (start, chunkSize)) :
    pos + 2 ≤ start ∧ start ≤ data.length := by
  obtain ⟨length, hlength, hsize⟩ := Option.bind_eq_some_iff.mp h
  obtain ⟨size, -, heq⟩ := Option.map_eq_some_iff.mp hsize
  have hle := (find_add_length_le hlength).1
  have hcrlf : crlf.length = 2 := rfl
  rw [List.length_drop] at hle
  rw [← (Prod.mk.inj heq).1]
  constructor <;> omega

/-- Behind the line end at `next`, if there is one. -/
theorem le_skip {data : Bytes} {next : ℕ} (hle : next ≤ data.length) :
    next ≤ (if (data.drop next).take 2 = crlf then next + 2 else next) ∧
      (if (data.drop next).take 2 = crlf then next + 2 else next) ≤ data.length := by
  split
  · rename_i htake
    have hlen := congrArg List.length htake
    have hcrlf : crlf.length = 2 := rfl
    rw [List.length_take, List.length_drop] at hlen
    constructor <;> omega
  · exact ⟨Nat.le_refl _, hle⟩

/-! ## Without a wrap -/

/-- A round whose size does not wrap around. -/
theorem chunkStep_of_sizeLine {data : Bytes} (hsize : data.length < 2 ^ 64) {s : ChunkState}
    {start chunkSize : ℕ} (hpos : s.pos < data.length)
    (hline : sizeLine data s.pos = some (start, chunkSize)) (hne : chunkSize ≠ 0)
    (hwrap : start + chunkSize < 2 ^ 64) :
    chunkStep data s =
      some {
        pos :=
          if (data.drop (min (start + chunkSize) data.length)).take 2 = crlf then
            min (start + chunkSize) data.length + 2
          else min (start + chunkSize) data.length
        out := s.out ++ (data.drop start).take chunkSize } := by
  have hstart := (sizeLine_le hline).2
  have hmod : ∀ n, n < 2 ^ 64 → sizeMod n = n := fun n hn => Nat.mod_eq_of_lt hn
  rw [chunkStep, if_pos hpos, hline]
  dsimp only
  rw [if_neg hne, hmod _ hwrap]
  by_cases hlt : data.length < start + chunkSize
  · have hsum : start + (data.length - start) = data.length := Nat.add_sub_of_le hstart
    have htake : (data.drop start).take (data.length - start) =
        (data.drop start).take chunkSize := by
      rw [List.take_of_length_le, List.take_of_length_le]
      · rw [List.length_drop]
        omega
      · rw [List.length_drop]
    rw [if_pos hlt, hsum, hmod _ hsize, min_eq_right (Nat.le_of_lt hlt), htake]
  · rw [if_neg hlt, hmod _ hwrap, min_eq_left (Nat.not_lt.mp hlt)]

/-- What a round without a wrap does: it goes forward, and puts out what it has passed at most. -/
theorem chunkStep_forward {data : Bytes} (hsize : data.length < 2 ^ 64) {s t : ChunkState}
    (hstep : chunkStep data s = some t)
    (hwrap : ∀ start chunkSize, sizeLine data s.pos = some (start, chunkSize) →
      start + chunkSize < 2 ^ 64) :
    s.pos < t.pos ∧ t.pos ≤ data.length ∧ t.out.length + s.pos ≤ s.out.length + t.pos := by
  have hpos : s.pos < data.length := by
    by_contra hnot
    rw [chunkStep, if_neg hnot] at hstep
    cases hstep
  cases hline : sizeLine data s.pos with
  | none =>
    rw [chunkStep, if_pos hpos, hline] at hstep
    cases hstep
  | some line =>
    obtain ⟨start, chunkSize⟩ := line
    by_cases hne : chunkSize = 0
    · rw [chunkStep, if_pos hpos, hline] at hstep
      dsimp only at hstep
      rw [if_pos hne] at hstep
      cases hstep
    · rw [chunkStep_of_sizeLine hsize hpos hline hne (hwrap start chunkSize hline)] at hstep
      obtain ⟨hstart, hle⟩ := sizeLine_le hline
      obtain ⟨hskip, hend⟩ := le_skip (Nat.min_le_right (start + chunkSize) data.length)
      rw [← Option.some.inj hstep]
      dsimp only
      rw [List.length_append, List.length_take, List.length_drop]
      refine ⟨?_, hend, ?_⟩ <;> omega

/-- **Termination**: without a wrap the loop is left, with at most as many bytes as there were. -/
theorem exists_decodeChunked {data : Bytes} (hsize : data.length < 2 ^ 64) (h : NoWrap data) :
    ∃ fuel out, decodeChunked fuel data = some out ∧ out.length ≤ data.length := by
  have hround : ∀ s t, Reaches (chunkStep data) {} s →
      (s.pos ≤ data.length ∧ s.out.length ≤ s.pos) → chunkStep data s = some t →
        (t.pos ≤ data.length ∧ t.out.length ≤ t.pos) ∧
          data.length - t.pos < data.length - s.pos := by
    intro s t hreaches hs hstep
    obtain ⟨hlt, hle, hout⟩ := chunkStep_forward hsize hstep (h s hreaches)
    refine ⟨⟨hle, ?_⟩, ?_⟩ <;> omega
  obtain ⟨t, ⟨fuel, hrun⟩, hle, hout⟩ :=
    Loop.ends_of_decreasing ⟨Nat.zero_le _, Nat.le_refl _⟩ hround
  refine ⟨fuel, t.out, ?_, hout.trans hle⟩
  rw [decodeChunked, hrun, Option.map_some]

/-! ## Chunks -/

/-- A size line: hexadecimal digits, and perhaps an extension. -/
structure SizeLine (n : ℕ) where
  digits : Bytes
  extension : Bytes
  digits_ne_nil : digits ≠ []
  isSome_digit : ∀ c ∈ digits, (digitValue 16 c).isSome
  value : numberOf 16 (leadingDigits 16 digits) = n
  head_extension : ∀ c ∈ extension.head?, digitValue 16 c = none
  find_extension : find extension crlf = none

/-- The line as it is sent. -/
def SizeLine.text {n : ℕ} (line : SizeLine n) : Bytes := line.digits ++ line.extension ++ crlf

/-- A chunk that is not the last one. -/
structure Chunk where
  data : Bytes
  ne_nil : data ≠ []
  line : SizeLine data.length

/-- The chunk as it is sent. -/
def Chunk.encode (chunk : Chunk) : Bytes := chunk.line.text ++ chunk.data ++ crlf

/-- The chunks, the last chunk, and the trailer. -/
def encodeChunks (chunks : List Chunk) (last : SizeLine 0) (trailer : Bytes) : Bytes :=
  chunks.flatMap Chunk.encode ++ (last.text ++ trailer)

theorem find_crlf_of_noLineEnd {line : Bytes} (h : find line crlf = none) (rest : Bytes) :
    find (line ++ (crlf ++ rest)) crlf = some line.length := by
  induction line with
  | nil => exact find_of_isPrefix (List.prefix_append _ _)
  | cons c line ih =>
    have hnot : ¬ crlf <+: c :: line := by
      intro hpre
      rw [find_of_isPrefix hpre] at h
      cases h
    rw [find_cons_of_not_isPrefix hnot, Option.map_eq_none_iff] at h
    have hnot' : ¬ crlf <+: c :: (line ++ (crlf ++ rest)) := by
      intro hpre
      obtain ⟨hc, hpre⟩ := List.cons_prefix_cons.mp hpre
      cases line with
      | nil => exact absurd (List.cons_prefix_cons.mp hpre).1 (by decide)
      | cons d line =>
        refine hnot (List.cons_prefix_cons.mpr ⟨hc, List.cons_prefix_cons.mpr ?_⟩)
        exact ⟨(List.cons_prefix_cons.mp hpre).1, List.nil_prefix⟩
    rw [List.cons_append, find_cons_of_not_isPrefix hnot', ih h]
    rfl

theorem SizeLine.find_eq_none {n : ℕ} (line : SizeLine n) :
    find (line.digits ++ line.extension) crlf = none := by
  have hdigits := line.isSome_digit
  revert hdigits
  induction line.digits with
  | nil => exact fun _ => line.find_extension
  | cons c digits ih =>
    intro hdigits
    rw [List.cons_append, find_cons_of_not_isPrefix, ih fun d hd => hdigits d (List.mem_cons_of_mem _ hd)]
    · rfl
    · intro hpre
      have hc := hdigits c List.mem_cons_self
      rw [← (List.cons_prefix_cons.mp hpre).1] at hc
      exact absurd hc (by decide)

/-- A size line is read as it was written. -/
theorem sizeLine_text {n : ℕ} (hn : n < 2 ^ 64) (line : SizeLine n) (before rest : Bytes) :
    sizeLine (before ++ (line.text ++ rest)) before.length =
      some (before.length + line.text.length, n) := by
  have hfind : find ((before ++ (line.text ++ rest)).drop before.length) crlf =
      some (line.digits ++ line.extension).length := by
    rw [List.drop_left, SizeLine.text, List.append_assoc]
    exact find_crlf_of_noLineEnd line.find_eq_none rest
  have htake : ((before ++ (line.text ++ rest)).drop before.length).take
      (line.digits ++ line.extension).length = line.digits ++ line.extension := by
    rw [List.drop_left, SizeLine.text, List.append_assoc, List.take_left]
  have hlimit : numberOf 16 (leadingDigits 16 line.digits) < 2 ^ 64 := by
    rw [line.value]
    exact hn
  have hvalue := fromChars_append line.digits_ne_nil line.isSome_digit line.head_extension hlimit
  have hlength : line.text.length = (line.digits ++ line.extension).length + 2 := List.length_append
  rw [sizeLine, hfind, Option.bind_some, htake, hvalue, line.value, Option.map_some, hlength,
    Nat.add_assoc]

/-- One chunk. -/
theorem chunkStep_encode {before rest : Bytes} (chunk : Chunk)
    (hsize : (before ++ (chunk.encode ++ rest)).length < 2 ^ 64) (out : Bytes) :
    sizeLine (before ++ (chunk.encode ++ rest)) before.length =
        some (before.length + chunk.line.text.length, chunk.data.length) ∧
      chunkStep (before ++ (chunk.encode ++ rest)) ⟨before.length, out⟩ =
        some ⟨(before ++ chunk.encode).length, out ++ chunk.data⟩ := by
  have hdata : before ++ (chunk.encode ++ rest) =
      before ++ (chunk.line.text ++ (chunk.data ++ (crlf ++ rest))) := by
    rw [Chunk.encode, List.append_assoc, List.append_assoc]
  have hlength : (before ++ (chunk.encode ++ rest)).length =
      before.length + chunk.line.text.length + chunk.data.length + 2 + rest.length := by
    rw [hdata]
    simp only [List.length_append, show crlf.length = 2 from rfl]
    omega
  have hline : sizeLine (before ++ (chunk.encode ++ rest)) before.length =
      some (before.length + chunk.line.text.length, chunk.data.length) := by
    rw [hdata]
    exact sizeLine_text (by omega) chunk.line before _
  refine ⟨hline, ?_⟩
  rw [chunkStep_of_sizeLine hsize (s := ⟨before.length, out⟩) ?_ hline ?_ (by omega)]
  · have hmin : min (before.length + chunk.line.text.length + chunk.data.length)
        (before ++ (chunk.encode ++ rest)).length =
          (before ++ (chunk.line.text ++ chunk.data)).length := by
      rw [hlength, List.length_append, List.length_append]
      omega
    have hskip : ((before ++ (chunk.encode ++ rest)).drop
        (before ++ (chunk.line.text ++ chunk.data)).length).take 2 = crlf := by
      have hsplit : before ++ (chunk.encode ++ rest) =
          before ++ (chunk.line.text ++ chunk.data) ++ (crlf ++ rest) := by
        rw [hdata]
        simp only [List.append_assoc]
      rw [hsplit, List.drop_left]
      rfl
    have htake : ((before ++ (chunk.encode ++ rest)).drop
        (before.length + chunk.line.text.length)).take chunk.data.length = chunk.data := by
      rw [hdata, ← List.length_append, ← List.append_assoc, List.drop_left, List.take_left]
    rw [hmin, if_pos hskip, htake]
    simp only [Chunk.encode, List.length_append, Nat.add_assoc]
    rfl
  · have hpos : 0 < chunk.line.text.length + chunk.data.length + 2 := Nat.succ_pos _
    show before.length < _
    rw [hlength]
    omega
  · exact fun h => chunk.ne_nil (List.length_eq_zero_iff.mp h)

/-- The loop over encoded chunks, by induction on the chunks: no size wraps, and it is left with
their data. -/
theorem ends_encodeChunks (chunks : List Chunk) (last : SizeLine 0) (trailer before out : Bytes)
    (hsize : (before ++ encodeChunks chunks last trailer).length < 2 ^ 64) :
    (∀ s, Reaches (chunkStep (before ++ encodeChunks chunks last trailer)) ⟨before.length, out⟩ s →
      ∀ start chunkSize, sizeLine (before ++ encodeChunks chunks last trailer) s.pos =
        some (start, chunkSize) → start + chunkSize < 2 ^ 64) ∧
      ∃ pos, Loop.Ends (chunkStep (before ++ encodeChunks chunks last trailer))
        ⟨before.length, out⟩ ⟨pos, out ++ chunks.flatMap Chunk.data⟩ := by
  induction chunks generalizing before out with
  | nil =>
    have hline : sizeLine (before ++ encodeChunks [] last trailer) before.length =
        some (before.length + last.text.length, 0) :=
      sizeLine_text (by decide) last before trailer
    have hnone : chunkStep (before ++ encodeChunks [] last trailer) ⟨before.length, out⟩ = none := by
      rw [chunkStep]
      split
      · rw [hline]
        rfl
      · rfl
    refine ⟨fun s hreaches start chunkSize h => ?_, before.length, ?_⟩
    · rcases hreaches.cases_head with rfl | ⟨t, hstep, -⟩
      · rw [hline] at h
        obtain ⟨rfl, rfl⟩ := Prod.mk.inj (Option.some.inj h)
        refine Nat.lt_of_le_of_lt ?_ hsize
        rw [encodeChunks, List.flatMap_nil, List.nil_append, List.length_append,
          List.length_append]
        omega
      · rw [Option.mem_def, hnone] at hstep
        cases hstep
    · rw [List.flatMap_nil, List.append_nil]
      exact Loop.ends_of_none hnone
  | cons chunk chunks ih =>
    have hcons : encodeChunks (chunk :: chunks) last trailer =
        chunk.encode ++ encodeChunks chunks last trailer := by
      rw [encodeChunks, encodeChunks, List.flatMap_cons, List.append_assoc]
    rw [hcons] at hsize ⊢
    obtain ⟨hline, hstep⟩ := chunkStep_encode chunk hsize out
    have hassoc : before ++ (chunk.encode ++ encodeChunks chunks last trailer) =
        before ++ chunk.encode ++ encodeChunks chunks last trailer :=
      (List.append_assoc _ _ _).symm
    obtain ⟨hwrap, pos, hends⟩ := ih (before ++ chunk.encode) (out ++ chunk.data)
      (by rw [← hassoc]; exact hsize)
    rw [← hassoc] at hwrap hends
    refine ⟨fun s hreaches start chunkSize h => ?_, pos, ?_⟩
    · rcases hreaches.cases_head with rfl | ⟨t, ht, hreaches⟩
      · rw [hline] at h
        obtain ⟨rfl, rfl⟩ := Prod.mk.inj (Option.some.inj h)
        refine Nat.lt_of_le_of_lt ?_ hsize
        simp only [Chunk.encode, List.length_append]
        omega
      · rw [Option.mem_def, hstep, Option.some.injEq] at ht
        rw [← ht] at hreaches
        exact hwrap s hreaches start chunkSize h
    · rw [List.flatMap_cons, ← List.append_assoc out]
      exact (Loop.ends_head_iff hstep).mpr hends

/-- **Without a wrap `decode_chunked` returns, with at most as many bytes as it was given; and it
decodes what chunks encode.** -/
theorem decodeChunked_of_noWrap (data : Bytes) (hsize : data.length < 2 ^ 64) :
    (NoWrap data → ∃ fuel out, decodeChunked fuel data = some out ∧ out.length ≤ data.length) ∧
      ∀ (chunks : List Chunk) (last : SizeLine 0) (trailer : Bytes),
        data = encodeChunks chunks last trailer →
          NoWrap data ∧ ∃ fuel, decodeChunked fuel data = some (chunks.flatMap Chunk.data) := by
  refine ⟨exists_decodeChunked hsize, ?_⟩
  rintro chunks last trailer rfl
  obtain ⟨hwrap, pos, fuel, hrun⟩ := ends_encodeChunks chunks last trailer [] [] hsize
  refine ⟨hwrap, fuel, ?_⟩
  rw [decodeChunked]
  exact congrArg (Option.map ChunkState.out) hrun

/-- A chunk with an extension. -/
def helloChunk : Chunk where
  data := lit "hello\r\n0\r\n"
  ne_nil := by decide
  line := {
    digits := lit "0A"
    extension := lit ";a=b"
    digits_ne_nil := by decide
    isSome_digit := by decide
    value := by decide
    head_extension := by decide
    find_extension := by decide }

/-- The last chunk. -/
def lastChunk : SizeLine 0 where
  digits := lit "0"
  extension := []
  digits_ne_nil := by decide
  isSome_digit := by decide
  value := by decide
  head_extension := by decide
  find_extension := by decide

theorem decodeChunked_helloChunk :
    ∃ fuel, decodeChunked fuel (lit "0A;a=b\r\nhello\r\n0\r\n\r\n0\r\n\r\n") =
      some (lit "hello\r\n0\r\n") :=
  ((decodeChunked_of_noWrap _ (by decide +kernel)).2 [helloChunk] lastChunk crlf (by decide)).2

/-- The size `2 ^ 64 - 18` in a line of 18 bytes takes the loop back to the line. -/
theorem not_decodeChunked_wrapped :
    ¬ ∀ data : Bytes, data.length < 2 ^ 64 →
      ∃ fuel out, decodeChunked fuel data = some out ∧ out.length ≤ data.length := by
  intro h
  obtain ⟨fuel, out, hdecode, -⟩ := h (lit "FFFFFFFFFFFFFFEE\r\n") (by decide +kernel)
  obtain ⟨size, hsize, hne, hnext⟩ : ∃ size,
      sizeLine (lit "FFFFFFFFFFFFFFEE\r\n") 0 = some (18, size) ∧ size ≠ 0 ∧
        sizeMod (18 + size) = 0 :=
    ⟨2 ^ 64 - 18, by decide +kernel, by decide +kernel, by decide +kernel⟩
  have hrest : (lit "FFFFFFFFFFFFFFEE\r\n").drop 18 = [] := by decide
  have hskip : ((lit "FFFFFFFFFFFFFFEE\r\n").drop 0).take 2 ≠ crlf := by decide
  have hstep : chunkStep (lit "FFFFFFFFFFFFFFEE\r\n") {} = some {} := by
    rw [chunkStep, if_pos (by decide), hsize]
    dsimp only
    rw [if_neg hne, hnext, if_neg (Nat.not_lt_zero _), hnext, if_neg hskip, hrest,
      List.take_nil, List.append_nil]
  obtain ⟨t, hrun, -⟩ := Option.map_eq_some_iff.mp hdecode
  refine Loop.not_ends_of_forever (I := fun s => s = {}) rfl (fun s hs => ?_) t ⟨fuel, hrun⟩
  rw [hs]
  exact ⟨{}, hstep, rfl⟩

end Aetheris.Net
