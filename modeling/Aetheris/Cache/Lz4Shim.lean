import Aetheris.Bytes

/-!
# The bundled LZ4 shim

`cmake/fallback/include/lz4.h` stands in for LZ4 where the library is missing: a run-length codec
behind the three entry points the ghost cache calls.  The model keeps the C functions' two results
apart, the returned `int` and the bytes written to `dst`, since a failing call has already written
some.  The index `i` into `src` (and `ip` into the compressed bytes) is the suffix that is still to
be read.  The two inner loops of the compressor, `extendRun` and `gatherLiterals`, have definitions
of their own.
-/

namespace Aetheris.Lz4

/-- What a call returns, and what it leaves in `dst`. -/
structure CallResult where
  /-- The returned `int`. -/
  ret : Int
  /-- The bytes written to `dst`, from its start. -/
  dst : Bytes
  deriving DecidableEq, Repr

/-- `LZ4_compressBound`. -/
def compressBound (isize : Int) : Int :=
  if isize < 0 then 0 else isize + isize / 255 + 16

/-! ## Compression -/

/-- `while (i + run < srcSize && run < limit && src[i + run] == src[i]) ++run;` from the given
value of `run`, where the list is `src` from `i + run` on. -/
def extendRun (limit : ℕ) (first : Byte) : Bytes → ℕ → ℕ
  | [], run => run
  | b :: rest, run =>
    if run < limit ∧ b = first then extendRun limit first rest (run + 1) else run

/-- The literal loop: `lit_count` once it stops, where the list is `src` from `i` on.  It stops
at the end, at four equal bytes, and after the 255th literal. -/
def gatherLiterals : Bytes → ℕ → ℕ
  | [], litCount => litCount
  | b :: rest, litCount =>
    if 4 ≤ extendRun 4 b rest 1 then litCount
    else if litCount + 1 = 255 then litCount + 1
    else gatherLiterals rest (litCount + 1)

/-- The main loop of `LZ4_compress_default`, on the part of `src` from `i` on and with the
bytes written so far. -/
def compressLoop (maxDstSize : Int) (src out : Bytes) : CallResult :=
  match src with
  | [] => ⟨out.length, out⟩
  | first :: rest =>
    if 4 ≤ extendRun (255 + 3) first rest 1 then
      let n := extendRun (255 + 3) first rest 1 - 3
      if (out.length : Int) + 2 > maxDstSize then ⟨0, out⟩
      else
        let out := out ++ [0x80, UInt8.ofNat n, first]
        -- three bytes are written on a check for two; the check for the third comes after it
        if (out.length : Int) + 1 > maxDstSize then ⟨0, out⟩
        else compressLoop maxDstSize (rest.drop (extendRun (255 + 3) first rest 1 - 1)) out
    else
      let gathered := gatherLiterals (first :: rest) 0
      let litCount := if gathered = 0 then 1 else gathered
      if (out.length : Int) + 1 + litCount > maxDstSize then ⟨0, out⟩
      else
        compressLoop maxDstSize (rest.drop (litCount - 1))
          (out ++ UInt8.ofNat litCount :: (first :: rest).take litCount)
termination_by src.length
decreasing_by all_goals simp only [List.length_drop, List.length_cons]; omega

/-- `LZ4_compress_default` on non-null buffers; `srcSize` is the length of `src`. -/
def compressDefault (src : Bytes) (maxDstSize : Int) : CallResult :=
  if maxDstSize ≤ 0 then ⟨0, []⟩ else compressLoop maxDstSize src []

/-! ## Decompression -/

/-- The loop of `LZ4_decompress_safe`, on the compressed bytes from `ip` on and with the bytes
written so far. -/
def decompressLoop (maxDstSize : Int) (src out : Bytes) : CallResult :=
  match src with
  | [] => ⟨out.length, out⟩
  | token :: rest =>
    if token &&& 0x80 ≠ 0 then
      if rest.length < 2 then ⟨-1, out⟩
      else
        let n := (rest.getD 0 0).toNat + 3
        let value := rest.getD 1 0
        if (out.length : Int) + n > maxDstSize then ⟨-1, out⟩
        else decompressLoop maxDstSize (rest.drop 2) (out ++ List.replicate n value)
    else
      let n := token.toNat
      if n = 0 ∨ rest.length < n ∨ (out.length : Int) + n > maxDstSize then ⟨-1, out⟩
      else decompressLoop maxDstSize (rest.drop n) (out ++ rest.take n)
termination_by src.length
decreasing_by all_goals simp only [List.length_drop, List.length_cons]; omega

/-- `LZ4_decompress_safe` on non-null buffers; `cSize` is the length of `src`. -/
def decompressSafe (src : Bytes) (maxDstSize : Int) : CallResult :=
  if maxDstSize < 0 then ⟨-1, []⟩ else decompressLoop maxDstSize src []

end Aetheris.Lz4
