import Aetheris.Cache.Lz4Shim
import Aetheris.Library.RunLength

/-!
# When the LZ4 shim round-trips

The compressor cuts its input into runs of 4 to 258 equal bytes and stretches of literals.  A run
becomes `0x80`, its length less 3, and the byte; a stretch becomes one byte counting up to 255
literals, and the literals.  The decompressor takes every header byte from `0x80` on for a run, so a
block of 128 or more literals is read as a run whose length is its first literal.

`encode` is what the compressor emits when there is room for one byte more
(`compressLoop_eq_encode`), and `LZ4_compressBound` leaves this room.  Block by block the
decompressor inverts it where every stretch has at most 127 bytes; behind the first longer one the
lengths no longer agree, so it never does otherwise (`decompressLoop_encode_ne`).  Together this is
`roundTrips_iff_stretches_le`.
-/

namespace Aetheris.Lz4

open RunLength

/-! ## The inner loops -/

theorem extendRun_eq {limit : ℕ} (first : Byte) :
    ∀ (rest : Bytes) (run : ℕ), run ≤ limit → extendRun limit first rest run =
      min limit ((rest.takeWhile fun b => decide (b = first)).length + run)
  | [], run, h => by
    rw [extendRun, List.takeWhile_nil, List.length_nil]
    omega
  | b :: rest, run, h => by
    rw [extendRun, List.takeWhile_cons]
    by_cases hb : b = first
    · rw [if_pos (decide_eq_true hb), List.length_cons]
      by_cases hlt : run < limit
      · rw [if_pos ⟨hlt, hb⟩, extendRun_eq first rest (run + 1) hlt]
        omega
      · rw [if_neg fun h' => hlt h'.1]
        omega
    · rw [if_neg (by simp [hb]), if_neg (by simp [hb]), List.length_nil]
      omega

/-- The run loop counts the run at the front of its input. -/
theorem extendRun_one {limit : ℕ} (h : 0 < limit) (first : Byte) (rest : Bytes) :
    extendRun limit first rest 1 = run limit (first :: rest) := by
  rw [extendRun_eq first rest 1 h, run]

/-- The literal loop counts the stretch at the front of its input, up to 255. -/
theorem gatherLiterals_eq :
    ∀ (src : Bytes) (litCount : ℕ), litCount < 255 →
      gatherLiterals src litCount = min 255 (stretch 4 src + litCount)
  | [], litCount, h => by
    rw [gatherLiterals, stretch]
    omega
  | b :: rest, litCount, h => by
    rw [gatherLiterals, stretch, extendRun_one (by decide)]
    split
    · omega
    · split
      · omega
      · rw [gatherLiterals_eq rest (litCount + 1) (by omega)]
        omega

/-! ## The encoding -/

/-- The bytes the compressor emits for `src` when nothing stops it. -/
def encode (src : Bytes) : Bytes :=
  match src with
  | [] => []
  | first :: rest =>
    if 4 ≤ run 258 (first :: rest) then
      0x80 :: UInt8.ofNat (run 258 (first :: rest) - 3) :: first ::
        encode (rest.drop (run 258 (first :: rest) - 1))
    else
      UInt8.ofNat (min 255 (stretch 4 (first :: rest))) ::
        ((first :: rest).take (min 255 (stretch 4 (first :: rest))) ++
          encode (rest.drop (min 255 (stretch 4 (first :: rest)) - 1)))
termination_by src.length
decreasing_by all_goals simp only [List.length_drop, List.length_cons]; omega

@[simp] theorem encode_nil : encode [] = [] := by rw [encode]

theorem drop_pred_eq_drop {k : ℕ} (hk : 0 < k) (first : Byte) {rest : Bytes} :
    rest.drop (k - 1) = (first :: rest).drop k := by
  conv_rhs => rw [← Nat.sub_add_cancel hk, List.drop_succ_cons]

theorem encode_of_run {first : Byte} {rest : Bytes} (h : 4 ≤ run 258 (first :: rest)) :
    encode (first :: rest) = 0x80 :: UInt8.ofNat (run 258 (first :: rest) - 3) :: first ::
      encode ((first :: rest).drop (run 258 (first :: rest))) := by
  rw [encode, if_pos h, drop_pred_eq_drop (by omega) first]

theorem stretch_pos_of_not_run {first : Byte} {rest : Bytes}
    (h : ¬ 4 ≤ run 258 (first :: rest)) : 0 < stretch 4 (first :: rest) :=
  stretch_pos fun h' => h ((le_run_iff (show 4 ≤ 258 by decide) _).mpr h')

theorem encode_of_stretch {first : Byte} {rest : Bytes} (h : ¬ 4 ≤ run 258 (first :: rest)) :
    encode (first :: rest) = UInt8.ofNat (min 255 (stretch 4 (first :: rest))) ::
      ((first :: rest).take (min 255 (stretch 4 (first :: rest))) ++
        encode ((first :: rest).drop (min 255 (stretch 4 (first :: rest))))) := by
  have hpos := stretch_pos_of_not_run h
  rw [encode, if_neg h, drop_pred_eq_drop (by omega) first]

/-- A run in the main loop: three bytes behind a test for two, and a test for one more. -/
theorem compressLoop_of_run {maxDstSize : Int} {out : Bytes} {first : Byte} {rest : Bytes}
    (h : 4 ≤ run 258 (first :: rest)) :
    compressLoop maxDstSize (first :: rest) out =
      if maxDstSize < (out.length + 2 : ℕ) then ⟨0, out⟩
      else
        let block := [0x80, UInt8.ofNat (run 258 (first :: rest) - 3), first]
        if maxDstSize < (out.length + 4 : ℕ) then ⟨0, out ++ block⟩
        else compressLoop maxDstSize ((first :: rest).drop (run 258 (first :: rest)))
          (out ++ block) := by
  rw [compressLoop]
  simp only [show 255 + 3 = 258 from rfl, extendRun_one (show 0 < 258 by decide)]
  rw [if_pos h, drop_pred_eq_drop (by omega) first]
  have hlength (a b c : Byte) : (out ++ [a, b, c]).length = out.length + 3 := List.length_append
  rw [hlength]
  exact ite_congr (by simp) (fun _ => rfl) fun _ => ite_congr (by simp; omega) (fun _ => rfl)
    fun _ => rfl

/-- A block of literals in the main loop. -/
theorem compressLoop_of_stretch {maxDstSize : Int} {out : Bytes} {first : Byte} {rest : Bytes}
    (h : ¬ 4 ≤ run 258 (first :: rest)) :
    compressLoop maxDstSize (first :: rest) out =
      let litCount := min 255 (stretch 4 (first :: rest))
      if maxDstSize < (out.length + 1 + litCount : ℕ) then ⟨0, out⟩
      else compressLoop maxDstSize ((first :: rest).drop litCount)
        (out ++ UInt8.ofNat litCount :: (first :: rest).take litCount) := by
  have hpos := stretch_pos_of_not_run h
  have hcount : min 255 (stretch 4 (first :: rest)) ≠ 0 := by omega
  rw [compressLoop]
  simp only [show 255 + 3 = 258 from rfl, extendRun_one (show 0 < 258 by decide),
    gatherLiterals_eq (first :: rest) 0 (by decide), Nat.add_zero, if_neg h, if_neg hcount]
  rw [drop_pred_eq_drop (by omega) first]
  exact ite_congr (by simp) (fun _ => rfl) fun _ => rfl

/-- The compressor emits the encoding whenever one byte more than it fits the buffer. -/
theorem compressLoop_eq_encode (maxDstSize : Int) (src out : Bytes)
    (h : ((out ++ encode src).length : Int) + 1 ≤ maxDstSize) :
    compressLoop maxDstSize src out = ⟨(out ++ encode src).length, out ++ encode src⟩ := by
  match src with
  | [] => rw [compressLoop, encode_nil, List.append_nil]
  | first :: rest =>
    by_cases hrun : 4 ≤ run 258 (first :: rest)
    · have henc := encode_of_run hrun
      rw [compressLoop_of_run hrun]
      rw [henc] at h ⊢
      simp only [List.length_append, List.length_cons] at h ⊢
      rw [if_neg (by omega), if_neg (by omega), compressLoop_eq_encode]
      · simp
      · simp only [List.length_append, List.length_cons, List.length_nil]
        omega
    · have henc := encode_of_stretch hrun
      have hpos := stretch_pos_of_not_run hrun
      have hlen := stretch_le_length 4 (first :: rest)
      rw [compressLoop_of_stretch hrun]
      rw [henc] at h ⊢
      simp only [List.length_append, List.length_cons, List.length_take] at h hlen ⊢
      rw [if_neg (by omega), compressLoop_eq_encode]
      · simp
      · simp only [List.length_append, List.length_cons, List.length_take]
        omega
termination_by src.length
decreasing_by all_goals simp only [List.length_drop, List.length_cons]; omega

/-- The encoding has at most one byte more than one header for every 255 bytes allows, and not
even that when it starts with a run: a run saves the header of the stretch before it. -/
theorem length_encode_le (src : Bytes) :
    (encode src).length ≤ src.length + src.length / 255 + 1 ∧
      (src = [] ∨ 4 ≤ run 4 src → (encode src).length ≤ src.length + src.length / 255) := by
  match src with
  | [] => simp
  | first :: rest =>
    have hle := run_le_length 258 (first :: rest)
    by_cases hrun : 4 ≤ run 258 (first :: rest)
    · have ih := (length_encode_le ((first :: rest).drop (run 258 (first :: rest)))).1
      rw [encode_of_run hrun]
      simp only [List.length_cons, List.length_drop] at ih hle ⊢
      omega
    · have hpos := stretch_pos_of_not_run hrun
      have hlen := stretch_le_length 4 (first :: rest)
      have hnot : ¬ (first :: rest = [] ∨ 4 ≤ run 4 (first :: rest)) := by
        rw [← le_run_iff (show 4 ≤ 258 by decide)]
        simp [hrun]
      refine ⟨?_, fun h => absurd h hnot⟩
      have ih := length_encode_le ((first :: rest).drop (min 255 (stretch 4 (first :: rest))))
      rw [encode_of_stretch hrun]
      simp only [List.length_cons, List.length_append, List.length_take, List.length_drop]
        at ih hlen ⊢
      rcases Nat.lt_or_ge (stretch 4 (first :: rest)) 255 with hlt | hge
      · -- a short stretch ends at the end of the input or at a run
        have hmin : min 255 (stretch 4 (first :: rest)) = stretch 4 (first :: rest) := by omega
        have hend := ih.2 (by rw [hmin]; exact drop_stretch 4 (first :: rest))
        omega
      · have hmin : min 255 (stretch 4 (first :: rest)) = 255 := by omega
        have hweak := ih.1
        omega
termination_by src.length
decreasing_by all_goals simp only [List.length_drop, List.length_cons]; omega

theorem encode_ne_nil {src : Bytes} (h : src ≠ []) : encode src ≠ [] := by
  match src with
  | [] => exact absurd rfl h
  | first :: rest =>
    by_cases hrun : 4 ≤ run 258 (first :: rest)
    · rw [encode_of_run hrun]
      exact List.cons_ne_nil _ _
    · rw [encode_of_stretch hrun]
      exact List.cons_ne_nil _ _

/-- The compressor never runs out of a buffer of `LZ4_compressBound` bytes. -/
theorem compressDefault_bound (src : Bytes) :
    compressDefault src (compressBound src.length) =
      ⟨(encode src).length, encode src⟩ := by
  have hle := (length_encode_le src).1
  have hbound : compressBound src.length = src.length + src.length / 255 + 16 := by
    rw [compressBound, if_neg (by omega)]
  rw [compressDefault, if_neg (by omega), compressLoop_eq_encode _ _ _ (by
    rw [List.nil_append]; omega), List.nil_append]

/-! ## The decompressor on whole blocks -/

theorem toNat_ofNat_of_le {n : ℕ} (h : n ≤ 255) : (UInt8.ofNat n).toNat = n := by
  rw [UInt8.toNat_ofNat']
  exact Nat.mod_eq_of_lt (by omega)

/-- The test of the header's high bit. -/
theorem and_high_bit_ne_zero_iff (token : Byte) : token &&& 0x80 ≠ 0 ↔ 128 ≤ token.toNat := by
  have h : ∀ n < 256, (UInt8.ofNat n &&& 0x80 ≠ 0 ↔ 128 ≤ n) := by decide +kernel
  have ht := h token.toNat token.toNat_lt
  rwa [UInt8.ofNat_toNat] at ht

/-- A header from `0x80` on is a run: the next two bytes are its length and its byte. -/
theorem decompressLoop_run (maxDstSize : Int) {token : Byte} (ht : 128 ≤ token.toNat)
    (n value : Byte) (rest out : Bytes) :
    decompressLoop maxDstSize (token :: n :: value :: rest) out =
      if (out.length : Int) + (n.toNat + 3 : ℕ) > maxDstSize then ⟨-1, out⟩
      else decompressLoop maxDstSize rest (out ++ List.replicate (n.toNat + 3) value) := by
  rw [decompressLoop, if_pos ((and_high_bit_ne_zero_iff token).mpr ht)]
  simp

/-- A header below `0x80` counts literals. -/
theorem decompressLoop_literals (maxDstSize : Int) {k : ℕ} (hk : 0 < k) (hk' : k ≤ 127)
    (lits rest out : Bytes) (hlits : lits.length = k)
    (hfit : (out.length : Int) + k ≤ maxDstSize) :
    decompressLoop maxDstSize (UInt8.ofNat k :: (lits ++ rest)) out =
      decompressLoop maxDstSize rest (out ++ lits) := by
  have hn : (UInt8.ofNat k).toNat = k := toNat_ofNat_of_le (by omega)
  rw [decompressLoop, if_neg (by rw [and_high_bit_ne_zero_iff]; omega)]
  simp only [hn, List.length_append, hlits]
  rw [if_neg (by omega), ← hlits, List.drop_left, List.take_left]

/-- A zero header is an error. -/
theorem decompressLoop_zero (maxDstSize : Int) (rest out : Bytes) :
    decompressLoop maxDstSize (0 :: rest) out = ⟨-1, out⟩ := by
  rw [decompressLoop, if_neg (by decide)]
  exact if_pos (Or.inl rfl)

/-- What has been written stays. -/
theorem prefix_decompressLoop (maxDstSize : Int) (src out : Bytes) :
    out <+: (decompressLoop maxDstSize src out).dst := by
  fun_induction decompressLoop maxDstSize src out with
  | case1 => exact List.prefix_rfl
  | case2 => exact List.prefix_rfl
  | case3 => exact List.prefix_rfl
  | case4 _ _ _ _ _ _ _ _ ih => exact (List.prefix_append _ _).trans ih
  | case5 => exact List.prefix_rfl
  | case6 _ _ _ _ _ _ ih => exact (List.prefix_append _ _).trans ih

/-- The decompressor undoes the run block of the encoding. -/
theorem decompressLoop_encode_run (maxDstSize : Int) {first : Byte} {rest : Bytes} (out : Bytes)
    (hrun : 4 ≤ run 258 (first :: rest))
    (hfit : ((out ++ first :: rest).length : Int) ≤ maxDstSize) :
    decompressLoop maxDstSize (encode (first :: rest)) out =
      decompressLoop maxDstSize (encode ((first :: rest).drop (run 258 (first :: rest))))
        (out ++ (first :: rest).take (run 258 (first :: rest))) := by
  have hle := run_le 258 (first :: rest)
  have hlen := run_le_length 258 (first :: rest)
  have hn : (UInt8.ofNat (run 258 (first :: rest) - 3)).toNat + 3 = run 258 (first :: rest) := by
    rw [toNat_ofNat_of_le (by omega)]
    omega
  rw [List.length_append] at hfit
  rw [encode_of_run hrun, decompressLoop_run _ (by decide), hn, if_neg (by omega), ← take_run]

/-- The decompressor undoes a stretch of at most 127 bytes. -/
theorem decompressLoop_encode_stretch (maxDstSize : Int) {first : Byte} {rest : Bytes}
    (out : Bytes) (hrun : ¬ 4 ≤ run 258 (first :: rest))
    (hshort : stretch 4 (first :: rest) ≤ 127)
    (hfit : ((out ++ first :: rest).length : Int) ≤ maxDstSize) :
    decompressLoop maxDstSize (encode (first :: rest)) out =
      decompressLoop maxDstSize (encode ((first :: rest).drop (stretch 4 (first :: rest))))
        (out ++ (first :: rest).take (stretch 4 (first :: rest))) := by
  have hlen := stretch_le_length 4 (first :: rest)
  have hmin : min 255 (stretch 4 (first :: rest)) = stretch 4 (first :: rest) := by omega
  rw [List.length_append] at hfit
  rw [encode_of_stretch hrun, hmin]
  refine decompressLoop_literals _ (stretch_pos_of_not_run hrun) hshort _ _ _ ?_ (by omega)
  rw [List.length_take]
  omega

/-! ## The round trip -/

/-- The decompressor inverts the encoding when every stretch has at most 127 bytes. -/
theorem decompressLoop_encode (maxDstSize : Int) (src out : Bytes)
    (hshort : ∀ n ∈ stretches 4 258 src, n ≤ 127)
    (hfit : ((out ++ src).length : Int) ≤ maxDstSize) :
    decompressLoop maxDstSize (encode src) out = ⟨(out ++ src).length, out ++ src⟩ := by
  match src with
  | [] => rw [encode_nil, decompressLoop, List.append_nil]
  | first :: rest =>
    by_cases hrun : 4 ≤ run 258 (first :: rest)
    · rw [stretches_of_run (show 0 < 4 by decide) hrun] at hshort
      rw [decompressLoop_encode_run _ _ hrun hfit, decompressLoop_encode _ _ _ hshort,
        List.append_assoc, List.take_append_drop]
      rwa [List.append_assoc, List.take_append_drop]
    · rw [stretches_of_stretch (show 4 ≤ 258 by decide) hrun, List.forall_mem_cons] at hshort
      rw [decompressLoop_encode_stretch _ _ hrun hshort.1 hfit,
        decompressLoop_encode _ _ _ hshort.2, List.append_assoc, List.take_append_drop]
      rwa [List.append_assoc, List.take_append_drop]
termination_by src.length
decreasing_by
  · simp only [List.length_drop, List.length_cons]; omega
  · have hpos := stretch_pos_of_not_run hrun
    simp only [List.length_drop, List.length_cons]
    omega

/-- A stretch of 128 bytes or more is misread at its own header: read as a run, it has the
right bytes only if its first literal is `0`, and then the third literal is a zero header. -/
theorem decompressLoop_long_stretch (maxDstSize : Int) {first : Byte} {rest : Bytes} (out : Bytes)
    (hrun : ¬ 4 ≤ run 258 (first :: rest)) (hlong : 128 ≤ stretch 4 (first :: rest)) :
    decompressLoop maxDstSize (encode (first :: rest)) out ≠
      ⟨(out ++ first :: rest).length, out ++ first :: rest⟩ := by
  have hlen := stretch_le_length 4 (first :: rest)
  obtain ⟨l1, l2, l3, rest, rfl⟩ : ∃ l1 l2 l3 tail, rest = l1 :: l2 :: l3 :: tail := by
    match rest with
    | l1 :: l2 :: l3 :: tail => exact ⟨l1, l2, l3, tail, rfl⟩
    | [] | [_] | [_, _] => simp only [List.length_cons, List.length_nil] at hlen; omega
  obtain ⟨more, hmore⟩ : ∃ more, encode (first :: l1 :: l2 :: l3 :: rest) =
      UInt8.ofNat (min 255 (stretch 4 (first :: l1 :: l2 :: l3 :: rest))) ::
        first :: l1 :: l2 :: more := by
    obtain ⟨k, hk⟩ : ∃ k, min 255 (stretch 4 (first :: l1 :: l2 :: l3 :: rest)) = k + 3 :=
      ⟨min 255 (stretch 4 (first :: l1 :: l2 :: l3 :: rest)) - 3, by omega⟩
    rw [encode_of_stretch hrun, hk]
    simp only [List.take_succ_cons, List.cons_append]
    exact ⟨_, rfl⟩
  rw [hmore, decompressLoop_run _ (by rw [toNat_ofNat_of_le (by omega)]; omega)]
  split
  · intro h
    have hret := congrArg CallResult.ret h
    simp only at hret
    omega
  · intro h
    have hpre := prefix_decompressLoop maxDstSize (l2 :: more)
      (out ++ List.replicate (first.toNat + 3) l1)
    rw [h, List.prefix_append_right_inj] at hpre
    obtain ⟨tail, htail⟩ := hpre
    simp only [List.replicate_succ, List.cons_append, List.cons.injEq] at htail
    obtain ⟨h01, -, h12, htail⟩ := htail
    by_cases h0 : first = 0
    · -- the third literal is the next header
      rw [← h12, h01, h0, decompressLoop_zero] at h
      have hret := congrArg CallResult.ret h
      simp only at hret
      omega
    · -- the run that is read has a fourth byte, so the stretch would start with four equal ones
      obtain ⟨k, hk⟩ : ∃ k, first.toNat = k + 1 := by
        refine Nat.exists_eq_succ_of_ne_zero fun hz => h0 ?_
        rw [← UInt8.toNat_inj, hz]
        rfl
      rw [hk, List.replicate_succ, List.cons_append, List.cons.injEq] at htail
      refine hrun ?_
      rw [← h01, ← h12, ← htail.1]
      exact le_run_replicate (show 4 ≤ 258 by decide) l1 rest

/-- The decompressor does not invert the encoding when some stretch has 128 bytes or more. -/
theorem decompressLoop_encode_ne (maxDstSize : Int) (src out : Bytes)
    (hlong : ∃ n ∈ stretches 4 258 src, 128 ≤ n)
    (hfit : ((out ++ src).length : Int) ≤ maxDstSize) :
    decompressLoop maxDstSize (encode src) out ≠ ⟨(out ++ src).length, out ++ src⟩ := by
  match src with
  | [] => simp at hlong
  | first :: rest =>
    by_cases hrun : 4 ≤ run 258 (first :: rest)
    · rw [stretches_of_run (show 0 < 4 by decide) hrun] at hlong
      rw [decompressLoop_encode_run _ _ hrun hfit]
      have ih := decompressLoop_encode_ne maxDstSize _
        (out ++ (first :: rest).take (run 258 (first :: rest))) hlong
      rw [List.append_assoc, List.take_append_drop] at ih
      exact ih hfit
    · by_cases hshort : stretch 4 (first :: rest) ≤ 127
      · rw [stretches_of_stretch (show 4 ≤ 258 by decide) hrun] at hlong
        obtain ⟨n, hn, hn'⟩ := hlong
        rcases List.mem_cons.mp hn with rfl | hn
        · omega
        · rw [decompressLoop_encode_stretch _ _ hrun hshort hfit]
          have ih := decompressLoop_encode_ne maxDstSize _
            (out ++ (first :: rest).take (stretch 4 (first :: rest))) ⟨n, hn, hn'⟩
          rw [List.append_assoc, List.take_append_drop] at ih
          exact ih hfit
      · exact decompressLoop_long_stretch _ _ hrun (by omega)
termination_by src.length
decreasing_by
  · simp only [List.length_drop, List.length_cons]; omega
  · have hpos := stretch_pos_of_not_run hrun
    simp only [List.length_drop, List.length_cons]
    omega

/-- Compressing into `LZ4_compressBound` bytes returns some `c` within that bound, positive for
a non-empty input, and decompressing the first `c` bytes into as many bytes as there were gives
the input back. -/
def RoundTrips (s : Bytes) : Prop :=
  let bound := compressBound s.length
  let c := compressDefault s bound
  c.ret ≤ bound ∧ (0 < s.length → 0 < c.ret) ∧
    decompressSafe (c.dst.take c.ret.toNat) s.length = ⟨s.length, s⟩

instance (s : Bytes) : Decidable (RoundTrips s) := by unfold RoundTrips; infer_instance

/-- **The round trip of the shim.**  It holds exactly for the inputs that the cut into runs of
4 to 258 equal bytes leaves without a stretch of 128 bytes or more. -/
theorem roundTrips_iff_stretches_le (s : Bytes) :
    RoundTrips s ↔ ∀ n ∈ stretches 4 258 s, n ≤ 127 := by
  have hle := (length_encode_le s).1
  have hbound : compressBound s.length = s.length + s.length / 255 + 16 := by
    rw [compressBound, if_neg (by omega)]
  have hfit : (([] ++ s : Bytes).length : Int) ≤ s.length := by rw [List.nil_append]
  simp only [RoundTrips, compressDefault_bound, Int.toNat_natCast, List.take_length,
    decompressSafe, if_neg (show ¬ (s.length : Int) < 0 by omega)]
  constructor
  · rintro ⟨-, -, h⟩ n hn
    by_contra hlong
    exact decompressLoop_encode_ne s.length s [] ⟨n, hn, by omega⟩ hfit h
  · intro hshort
    refine ⟨by omega, fun hpos => ?_, decompressLoop_encode s.length s [] hshort hfit⟩
    have hne := encode_ne_nil (List.ne_nil_of_length_pos hpos)
    have := List.length_pos_of_ne_nil hne
    omega

/-- The bytes `0, 1, …, 127` do not survive: their single block of 128 literals is read as a
run of three bytes `1`. -/
theorem not_roundTrips_range : ¬ RoundTrips ((List.range 128).map UInt8.ofNat) := by
  decide +kernel

end Aetheris.Lz4
