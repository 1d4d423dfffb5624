import Aetheris.Cache.GhostCache

/-!
# What the ghost cache gives back

The length of a text goes through an `int`, so a text of 2³² bytes and more is stored as a shorter
one.

Beside the cache runs a record of what has been stored in each block (`contentsStep`).  A block
`Holds` its text if decompressing it gives the text, by what LZ4 promises (`Documented`); storing
and closing leave the other blocks alone.  So a run gives every text back exactly if no text of this
length gets a block (`retrievable_runs_iff`).
-/

namespace Aetheris.Cache

open Memory Runs

/-- What LZ4 promises: it writes inside the capacity, a negative length has no bound, a text whose
length is an `int` comes back, and not more than the capacity is decompressed. -/
structure Documented (lz4 : Lz4) : Prop where
  writes : ∀ source capacity, (lz4.compressDefault source capacity).dst.length ≤ capacity.toNat
  bound_negative : ∀ isize < 0, lz4.compressBound isize = 0
  ret_le : ∀ source capacity,
    (lz4.compressDefault source capacity).ret.toNat ≤
      (lz4.compressDefault source capacity).dst.length
  roundTrip : ∀ (data : Bytes) (capacity : ℤ), data.length < 2 ^ 31 →
    0 < (lz4.compressDefault data capacity).ret →
      lz4.decompressSafe ((lz4.compressDefault data capacity).dst.take
        (lz4.compressDefault data capacity).ret.toNat) data.length = ⟨data.length, data⟩
  decompress_le : ∀ source capacity, (lz4.decompressSafe source capacity).ret ≤ max capacity 0

/-! ## Reading a block -/

namespace MemoryPool

variable {blockSize maxBlocks : ℕ} {p : MemoryPool}

theorem readBlock_writeBlock (i : ℕ) {bytes : Bytes} {length : ℕ} (h : length ≤ bytes.length) :
    (p.writeBlock blockSize i bytes).readBlock blockSize i length = bytes.take length :=
  read_write _ _ h

theorem readBlock_writeBlock_of_ne {i j : ℕ} (hji : j ≠ i) {bytes : Bytes} {length : ℕ}
    (hlength : length ≤ blockSize) (hbytes : bytes.length ≤ blockSize) :
    (p.writeBlock blockSize i bytes).readBlock blockSize j length =
      p.readBlock blockSize j length :=
  read_congr fun _ hk =>
    write_of_not_mem (block_disjoint hji (Nat.lt_of_lt_of_le hk hlength) hbytes)

theorem readBlock_deallocate_of_ne {i j : ℕ} (hji : j ≠ i) {length : ℕ}
    (hlength : length ≤ blockSize) (hsize : p.blockSizes i ≤ blockSize) :
    (p.deallocate blockSize maxBlocks i).readBlock blockSize j length =
      p.readBlock blockSize j length := by
  rw [deallocate]
  split
  · rfl
  · exact read_congr fun _ hk =>
      fill_of_not_mem 0 (block_disjoint hji (Nat.lt_of_lt_of_le hk hlength) hsize)

end MemoryPool

namespace GhostCache

variable {lz4 : Lz4}

/-! ## A block that holds a text -/

variable (lz4) in
/-- The block holds the text. -/
structure Holds (cache : GhostCache) (i : ℕ) (data : Bytes) : Prop where
  lt : i < poolMaxBlocks
  active : (cache.entryMetadata i).isActive = true
  original : (cache.entryMetadata i).originalSize = data.length
  short : data.length < 2 ^ 31
  fits : (cache.entryMetadata i).compressedSize ≤ poolBlockSize
  decompress : lz4.decompressSafe
    (cache.pool.readBlock poolBlockSize i (cache.entryMetadata i).compressedSize) data.length =
      ⟨data.length, data⟩

theorem toInt_of_lt {n : ℕ} (h : n < 2 ^ 31) : toInt n = n := by
  unfold toInt
  rw [Int.bmod_eq_of_le] <;> omega

theorem toSize_natCast {n : ℕ} (h : n < 2 ^ 64) : toSize n = n := by
  unfold toSize
  omega

/-- **What a block holds is given back.** -/
theorem Holds.retrieve {cache : GhostCache} {i : ℕ} {data : Bytes} (h : Holds lz4 cache i data)
    {bufferSize : ℕ} (hbuffer : data.length ≤ bufferSize) :
    cache.retrieveSessionData lz4 i bufferSize = some (data.length, data) := by
  have hfits : (cache.entryMetadata i).compressedSize < 2 ^ 31 :=
    Nat.lt_of_le_of_lt h.fits (by decide)
  have hactive : ¬ (poolMaxBlocks ≤ i ∨ (cache.entryMetadata i).isActive = false) := by
    rw [h.active]
    exact not_or.mpr ⟨Nat.not_le.mpr h.lt, Bool.false_ne_true.symm⟩
  have hlarge : ¬ bufferSize < (cache.entryMetadata i).originalSize := by
    rw [h.original]
    exact Nat.not_lt.mpr hbuffer
  rw [retrieveSessionData]
  dsimp only
  rw [if_neg hactive, if_neg hlarge, toInt_of_lt hfits, Int.toNat_natCast, h.original,
    toInt_of_lt h.short, h.decompress]
  dsimp only
  rw [if_neg (by omega), toSize_natCast (h.short.trans (by decide))]

/-- What happens elsewhere does not matter. -/
theorem Holds.of_same {cache cache' : GhostCache} {i : ℕ} {data : Bytes}
    (h : Holds lz4 cache i data) (hentry : cache'.entryMetadata i = cache.entryMetadata i)
    (hread : ∀ length ≤ poolBlockSize, cache'.pool.readBlock poolBlockSize i length =
      cache.pool.readBlock poolBlockSize i length) : Holds lz4 cache' i data where
  lt := h.lt
  active := hentry ▸ h.active
  original := hentry ▸ h.original
  short := h.short
  fits := hentry ▸ h.fits
  decompress := by
    rw [hentry, hread _ h.fits]
    exact h.decompress

/-! ## A text that is stored -/

/-- A text that is longer than an `int` is stored only if its length wraps around. -/
theorem short_of_allocate (hlz4 : Documented lz4) {pool pool' : MemoryPool} {n i : ℕ}
    (h : pool.allocate poolBlockSize poolMaxBlocks (toSize (lz4.compressBound (toInt n))) =
      some (pool', i)) (hn : n < 2 ^ 32) : n < 2 ^ 31 := by
  by_contra hlong
  have hnegative : toInt n < 0 := by
    unfold toInt
    rw [Int.bmod_def]
    split <;> omega
  obtain ⟨⟨hpos, -⟩, -⟩ := MemoryPool.allocate_eq_some h
  rw [hlz4.bound_negative _ hnegative] at hpos
  exact absurd hpos (by decide)

/-- What has happened when a block is returned. -/
theorem storeSessionData_eq_some {cache : GhostCache} {data : Bytes}
    {metadata : CacheEntryMetadata} {i : ℕ}
    (h : (cache.storeSessionData lz4 data metadata).2 = some i) :
    ∃ pool, cache.pool.allocate poolBlockSize poolMaxBlocks
        (toSize (lz4.compressBound (toInt data.length))) = some (pool, i) ∧
      0 < (lz4.compressDefault (data.take (toInt data.length).toNat)
        (lz4.compressBound (toInt data.length))).ret ∧
      (cache.storeSessionData lz4 data metadata).1 =
        { pool := pool.writeBlock poolBlockSize i (lz4.compressDefault
            (data.take (toInt data.length).toNat) (lz4.compressBound (toInt data.length))).dst
          entryMetadata := Function.update cache.entryMetadata i
            { metadata with
              compressedSize := toSize (lz4.compressDefault (data.take (toInt data.length).toNat)
                (lz4.compressBound (toInt data.length))).ret
              originalSize := data.length
              isEncrypted := false
              isActive := true } } := by
  rw [storeSessionData] at h ⊢
  cases hallocate : cache.pool.allocate poolBlockSize poolMaxBlocks
      (toSize (lz4.compressBound (toInt data.length))) with
  | none =>
    rw [hallocate] at h
    cases h
  | some allocated =>
    obtain ⟨pool, blockIdx⟩ := allocated
    rw [hallocate] at h
    dsimp only at h ⊢
    split at h
    · cases h
    · rename_i hret
      obtain rfl := Option.some.inj h
      rw [if_neg hret]
      exact ⟨pool, rfl, Int.not_le.mp hret, rfl⟩

/-- **The other blocks** do not notice that a text is stored. -/
theorem Holds.store (hlz4 : Documented lz4) {cache : GhostCache} (htidy : cache.Tidy) {i : ℕ}
    {data : Bytes} (h : Holds lz4 cache i data) (stored : Bytes) (metadata : CacheEntryMetadata) :
    Holds lz4 (cache.storeSessionData lz4 stored metadata).1 i data := by
  rw [storeSessionData]
  cases hallocate : cache.pool.allocate poolBlockSize poolMaxBlocks
      (toSize (lz4.compressBound (toInt stored.length))) with
  | none => exact h
  | some allocated =>
    obtain ⟨pool, blockIdx⟩ := allocated
    obtain ⟨⟨-, hsize⟩, hidx, hfree, rfl⟩ := MemoryPool.allocate_eq_some hallocate
    have hbytes := (hlz4.writes (stored.take (toInt stored.length).toNat)
      (lz4.compressBound (toInt stored.length))).trans
        ((toNat_le_toSize (lz4.compressBound_lt _)).trans hsize)
    have hib : i ≠ blockIdx := by
      rintro rfl
      have huse := htidy.active_iff i h.lt
      rw [h.active, hfree] at huse
      cases huse
    dsimp only
    generalize lz4.compressDefault (stored.take (toInt stored.length).toNat)
      (lz4.compressBound (toInt stored.length)) = compressed at hbytes
    split
    · refine h.of_same rfl fun length hlength => ?_
      have hblock : Function.update cache.pool.blockSizes blockIdx
          (toSize (lz4.compressBound (toInt stored.length))) blockIdx ≤ poolBlockSize := by
        rwa [Function.update_self]
      exact (MemoryPool.readBlock_deallocate_of_ne hib hlength hblock).trans
        (MemoryPool.readBlock_writeBlock_of_ne hib hlength hbytes)
    · exact h.of_same (Function.update_of_ne hib _ _) fun length hlength =>
        MemoryPool.readBlock_writeBlock_of_ne hib hlength hbytes

/-- **A text that has been stored** is held by its block, if its length does not wrap around. -/
theorem holds_of_store (hlz4 : Documented lz4) {cache : GhostCache} {data : Bytes}
    {metadata : CacheEntryMetadata} {i : ℕ}
    (h : (cache.storeSessionData lz4 data metadata).2 = some i) (hlength : data.length < 2 ^ 32) :
    Holds lz4 (cache.storeSessionData lz4 data metadata).1 i data := by
  obtain ⟨pool, hallocate, hpos, hstore⟩ := storeSessionData_eq_some h
  have hshort := short_of_allocate hlz4 hallocate hlength
  obtain ⟨⟨-, hsize⟩, hidx, -, -⟩ := MemoryPool.allocate_eq_some hallocate
  have htake : data.take (toInt data.length).toNat = data := by
    rw [toInt_of_lt hshort, Int.toNat_natCast, List.take_length]
  rw [htake] at hpos hstore
  have hbytes := (hlz4.writes data (lz4.compressBound (toInt data.length))).trans
    ((toNat_le_toSize (lz4.compressBound_lt _)).trans hsize)
  have hret := hlz4.ret_le data (lz4.compressBound (toInt data.length))
  have htrip := hlz4.roundTrip data (lz4.compressBound (toInt data.length)) hshort hpos
  generalize lz4.compressDefault data (lz4.compressBound (toInt data.length)) = compressed
    at hpos hstore hbytes hret htrip
  have hcompressed : toSize compressed.ret = compressed.ret.toNat := by
    have hlt : compressed.ret.toNat < 2 ^ 64 :=
      Nat.lt_of_le_of_lt (hret.trans hbytes) (by decide)
    unfold toSize
    omega
  rw [hstore]
  refine ⟨hidx, ?_, ?_, hshort, ?_, ?_⟩
  · dsimp only
    rw [Function.update_self]
  · dsimp only
    rw [Function.update_self]
  · dsimp only
    rw [Function.update_self]
    exact hcompressed.trans_le (hret.trans hbytes)
  · dsimp only
    rw [Function.update_self]
    dsimp only
    rw [hcompressed, MemoryPool.readBlock_writeBlock _ hret]
    exact htrip

/-- **A text whose length wraps around** is not given back in full. -/
theorem retrieve_of_long (hlz4 : Documented lz4) {cache : GhostCache} {data : Bytes}
    {metadata : CacheEntryMetadata} {i : ℕ}
    (h : (cache.storeSessionData lz4 data metadata).2 = some i) (hlength : 2 ^ 32 ≤ data.length) :
    (cache.storeSessionData lz4 data metadata).1.retrieveSessionData lz4 i data.length ≠
      some (data.length, data) := by
  have hentry : ((cache.storeSessionData lz4 data metadata).1.entryMetadata i).originalSize =
      data.length := by
    obtain ⟨pool, -, -, hstore⟩ := storeSessionData_eq_some h
    rw [hstore]
    dsimp only
    rw [Function.update_self]
  rw [retrieveSessionData]
  dsimp only
  split
  · exact nofun
  split
  · exact nofun
  rw [hentry]
  have hle := hlz4.decompress_le
    ((cache.storeSessionData lz4 data metadata).1.pool.readBlock poolBlockSize i
      (toInt ((cache.storeSessionData lz4 data metadata).1.entryMetadata i).compressedSize).toNat)
    (toInt data.length)
  have hint : toInt data.length < 2 ^ 31 := by
    unfold toInt
    rw [Int.bmod_def]
    split <;> omega
  split
  · exact nofun
  · intro heq
    have hret := (Prod.mk.inj (Option.some.inj heq)).1
    unfold toSize at hret
    omega

/-! ## A tab that is closed -/

theorem Holds.close {cache : GhostCache} (htidy : cache.Tidy) {i : ℕ} {data : Bytes}
    (h : Holds lz4 cache i data) {j : ℕ} (hij : i ≠ j) : Holds lz4 (cache.closeTab j) i data := by
  refine h.of_same (closeTab_isActive_of_ne cache hij) fun length hlength => ?_
  rw [closeTab]
  split
  · rfl
  · rename_i hj
    exact MemoryPool.readBlock_deallocate_of_ne hij hlength
      (htidy.clean.size_le j (Nat.not_le.mp hj))

/-! ## Runs -/

/-- What has been stored in each block and has not been closed since. -/
abbrev Contents := ℕ → Option Bytes

variable (lz4) in
/-- The contents behind a request. -/
def contentsStep (cache : GhostCache) (contents : Contents) : Request → Contents
  | .store data metadata =>
    match (cache.storeSessionData lz4 data metadata).2 with
    | some i => Function.update contents i (some data)
    | none => contents
  | .retrieve _ _ => contents
  | .close blockIndex => Function.update contents blockIndex none
  | .clear => fun _ => none

variable (lz4) in
/-- The cache and the contents behind a request. -/
def recordStep (s : GhostCache × Contents) (request : Request) : GhostCache × Contents :=
  (step lz4 s.1 request, contentsStep lz4 s.1 s.2 request)

variable (lz4) in
/-- Every text that is stored is given back, if the buffer is long enough. -/
def Retrievable (s : GhostCache × Contents) : Prop :=
  ∀ i data, s.2 i = some data → ∀ bufferSize, data.length ≤ bufferSize →
    s.1.retrieveSessionData lz4 i bufferSize = some (data.length, data)

variable (lz4) in
/-- A text that gets a block has less than 2³² bytes. -/
def LengthKept (s : GhostCache × Contents) : Request → Prop
  | .store data metadata =>
    (s.1.storeSessionData lz4 data metadata).2.isSome → data.length < 2 ^ 32
  | _ => True

variable (lz4) in
/-- What carries the proof: each block holds its text. -/
structure Kept (s : GhostCache × Contents) : Prop where
  tidy : s.1.Tidy
  holds : ∀ i data, s.2 i = some data → Holds lz4 s.1 i data

theorem Kept.retrievable {s : GhostCache × Contents} (h : Kept lz4 s) : Retrievable lz4 s :=
  fun i data hdata _ hbuffer => (h.holds i data hdata).retrieve hbuffer

theorem tidy_step (hlz4 : Documented lz4) {cache : GhostCache} (h : cache.Tidy)
    (request : Request) : (step lz4 cache request).Tidy := by
  cases request with
  | store data metadata => exact tidy_storeSessionData hlz4.writes h data metadata
  | retrieve blockIndex bufferSize => exact h
  | close blockIndex => exact tidy_closeTab h blockIndex
  | clear => exact tidy_clearAll h

/-- One request. -/
theorem kept_step (hlz4 : Documented lz4) {s : GhostCache × Contents} {request : Request}
    (h : Kept lz4 s) (hlength : LengthKept lz4 s request) : Kept lz4 (recordStep lz4 s request) := by
  refine ⟨tidy_step hlz4 h.tidy request, fun i data hdata => ?_⟩
  cases request with
  | store stored metadata =>
    change contentsStep lz4 s.1 s.2 (.store stored metadata) i = some data at hdata
    rw [contentsStep] at hdata
    cases hstore : (s.1.storeSessionData lz4 stored metadata).2 with
    | none =>
      rw [hstore] at hdata
      exact (h.holds i data hdata).store hlz4 h.tidy stored metadata
    | some j =>
      rw [hstore] at hdata
      dsimp only at hdata
      by_cases hij : i = j
      · subst hij
        rw [Function.update_self] at hdata
        obtain rfl := Option.some.inj hdata
        exact holds_of_store hlz4 hstore (hlength (Option.isSome_iff_exists.mpr ⟨i, hstore⟩))
      · rw [Function.update_of_ne hij] at hdata
        exact (h.holds i data hdata).store hlz4 h.tidy stored metadata
  | retrieve blockIndex bufferSize => exact h.holds i data hdata
  | close blockIndex =>
    change Function.update s.2 blockIndex none i = some data at hdata
    by_cases hij : i = blockIndex
    · rw [hij, Function.update_self] at hdata
      cases hdata
    · rw [Function.update_of_ne hij] at hdata
      exact (h.holds i data hdata).close h.tidy hij
  | clear => cases hdata

/-- A text whose length wraps around is lost at once. -/
theorem not_retrievable_step (hlz4 : Documented lz4) {s : GhostCache × Contents}
    {request : Request} (hlength : ¬ LengthKept lz4 s request) :
    ¬ Retrievable lz4 (recordStep lz4 s request) := by
  cases request with
  | store data metadata =>
    obtain ⟨hsome, hlong⟩ := Classical.not_imp.mp hlength
    obtain ⟨i, hstore⟩ := Option.isSome_iff_exists.mp hsome
    intro hretrievable
    have hcontents : (recordStep lz4 s (.store data metadata)).2 i = some data := by
      show contentsStep lz4 s.1 s.2 (.store data metadata) i = some data
      rw [contentsStep, hstore]
      exact Function.update_self _ _ _
    exact retrieve_of_long hlz4 hstore (Nat.not_lt.mp hlong)
      (hretrievable i data hcontents data.length (Nat.le_refl _))
  | retrieve _ _ => exact absurd trivial hlength
  | close _ => exact absurd trivial hlength
  | clear => exact absurd trivial hlength

/-- **What is given back in a run**: every text that is stored, at any time until it is closed,
exactly when no text of 2³² bytes or more gets a block. -/
theorem retrievable_runs_iff (hlz4 : Documented lz4) (requests : List Request) :
    (∀ s ∈ requests.scanl (recordStep lz4) ({}, fun _ => none), Retrievable lz4 s) ↔
      Along (recordStep lz4) (LengthKept lz4) ({}, fun _ => none) requests :=
  forall_mem_scanl_iff (I := Kept lz4) (fun _ h => h.retrievable)
    (fun _ _ h hlength => kept_step hlz4 h hlength)
    (fun _ _ _ hlength => not_retrievable_step hlz4 hlength)
    ⟨tidy_init, fun _ _ h => nomatch h⟩

/-- The compressor that copies short texts. -/
theorem documented_literalLz4 : Documented literalLz4 where
  writes := length_compressDefault_le
  bound_negative := fun isize hneg => if_neg fun h => absurd h.1 (Int.not_le.mpr hneg)
  ret_le := fun source capacity => by
    unfold literalLz4
    dsimp only
    split_ifs
    · show ((source.length : ℤ) + 1).toNat ≤ _
      rw [List.length_cons]
      omega
    · exact Nat.zero_le _
  roundTrip := fun data capacity _ hpos => by
    unfold literalLz4 at hpos ⊢
    dsimp only at hpos ⊢
    split_ifs at hpos ⊢ with hshort
    · have htake : (UInt8.ofNat (data.length * 16) :: data).take (data.length + 1 : ℤ).toNat =
          UInt8.ofNat (data.length * 16) :: data := List.take_of_length_le (by
            rw [List.length_cons]
            omega)
      have htoken : (UInt8.ofNat (data.length * 16)).toNat = data.length * 16 := by
        rw [UInt8.toNat_ofNat']
        exact Nat.mod_eq_of_lt (by omega)
      rw [htake]
      exact if_pos ⟨htoken, le_rfl⟩
    · exact absurd hpos (lt_irrefl 0)
  decompress_le := fun source capacity => by
    unfold literalLz4
    dsimp only
    split
    · exact (by decide : (-1 : ℤ) ≤ 0).trans (le_max_right _ _)
    · split_ifs with h
      · exact h.2.trans (le_max_left _ _)
      · exact (by decide : (-1 : ℤ) ≤ 0).trans (le_max_right _ _)

theorem retrievable_runs_iff_literal :
    (∀ s ∈ [Request.store (lit "tab") {}].scanl (recordStep literalLz4) ({}, fun _ => none),
      Retrievable literalLz4 s) ↔
      Along (recordStep literalLz4) (LengthKept literalLz4) ({}, fun _ => none)
        [Request.store (lit "tab") {}] :=
  retrievable_runs_iff documented_literalLz4 _

theorem storeSessionData_wrapped {data : Bytes} (hlength : data.length = 2 ^ 32) :
    (({} : GhostCache).storeSessionData literalLz4 data {}).2 = some 0 := by
  have hint : toInt data.length = 0 := by
    rw [hlength]
    decide
  have hfind : ((List.range poolMaxBlocks).find? fun _ => !false) = some 0 :=
    List.find?_range_eq_some.mpr ⟨rfl, List.mem_range.mpr (by decide), fun j hj => by omega⟩
  have hallocate : ∃ pool, ({} : GhostCache).pool.allocate poolBlockSize poolMaxBlocks
      (toSize (literalLz4.compressBound 0)) = some (pool, 0) := by
    rw [MemoryPool.allocate, if_neg (by decide)]
    exact ⟨_, congrArg (Option.map _) hfind⟩
  obtain ⟨pool, hallocate⟩ := hallocate
  have hempty : data.take (0 : ℤ).toNat = [] := List.take_zero
  rw [storeSessionData, hint, hallocate]
  dsimp only
  rw [hempty, if_neg (by decide)]

/-- **A text of 2³² bytes** is stored as an empty one. -/
theorem not_forall_retrievable :
    ¬ ∀ lz4 : Lz4, Documented lz4 → ∀ requests : List Request,
      ∀ s ∈ requests.scanl (recordStep lz4) ({}, fun _ => none), Retrievable lz4 s := by
  intro hall
  have hlength : (List.replicate (2 ^ 32) (0 : Byte)).length = 2 ^ 32 := List.length_replicate
  generalize List.replicate (2 ^ 32) (0 : Byte) = data at hlength
  have hlong : ¬ LengthKept literalLz4 ({}, fun _ => none) (.store data {}) := by
    intro hkept
    have hlt := hkept (Option.isSome_iff_exists.mpr ⟨0, storeSessionData_wrapped hlength⟩)
    omega
  exact not_retrievable_step documented_literalLz4 hlong
    (hall literalLz4 documented_literalLz4 [.store data {}] _ (List.mem_of_getLast? rfl))

end GhostCache

end Aetheris.Cache
