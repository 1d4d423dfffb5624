import Aetheris.Cache.Lz4Shim
import Aetheris.Cache.MemoryPool
import Aetheris.Library.Runs

/-!
# The ghost cache

`GhostCache` of `ghost_cache.hpp`: compressed texts in the blocks of a memory pool, and an entry of
metadata for each block.  The compressor `Lz4` is a parameter; of it only this is assumed, that it
writes no more than it is given room for.

A cache is `Accounted` for if its entries, its blocks and its counts agree and what is not in use is
zero.  Every request keeps this, whether it succeeds or not, and so it holds in every run
(`accounted_runs`).
-/

namespace Aetheris.Cache

open Memory Runs

/-! ## The cache -/

/-- `POOL_BLOCK_SIZE`. -/
def poolBlockSize : ℕ := 4096

/-- `POOL_MAX_BLOCKS`. -/
def poolMaxBlocks : ℕ := 1024

/-- The three functions of LZ4.  The source is given by its bytes, and what a call leaves in the
destination by the bytes from its start on. -/
structure Lz4 where
  compressBound : ℤ → ℤ
  /-- The result is an `int`. -/
  compressBound_lt : ∀ isize, compressBound isize < 2 ^ 31
  compressDefault : Bytes → ℤ → Lz4.CallResult
  decompressSafe : Bytes → ℤ → Lz4.CallResult

/-- `CacheEntryMetadata`. -/
structure CacheEntryMetadata where
  id : ℕ := 0
  timestamp : ℕ := 0
  originalSize : ℕ := 0
  compressedSize : ℕ := 0
  isEncrypted : Bool := false
  isActive : Bool := false
  urlHash : Bytes := List.replicate 32 0
  deriving DecidableEq, Repr

/-- `GhostCache`. -/
structure GhostCache where
  pool : MemoryPool := {}
  entryMetadata : ℕ → CacheEntryMetadata := fun _ => {}

/-- `static_cast<int>` of a `size_t`. -/
def toInt (n : ℕ) : ℤ := Int.bmod n (2 ^ 32)

/-- `static_cast<size_t>` of an `int`. -/
def toSize (n : ℤ) : ℕ := (n % 2 ^ 64).toNat

namespace GhostCache

variable (lz4 : Lz4)

/-- `store_session_data`. -/
def storeSessionData (cache : GhostCache) (data : Bytes) (metadata : CacheEntryMetadata) :
    GhostCache × Option ℕ :=
  let maxCompressedSize := lz4.compressBound (toInt data.length)
  match cache.pool.allocate poolBlockSize poolMaxBlocks (toSize maxCompressedSize) with
  | none => (cache, none)
  | some (pool, blockIdx) =>
    let compressed :=
      lz4.compressDefault (data.take (toInt data.length).toNat) maxCompressedSize
    let pool := pool.writeBlock poolBlockSize blockIdx compressed.dst
    if compressed.ret ≤ 0 then
      ({ cache with pool := pool.deallocate poolBlockSize poolMaxBlocks blockIdx }, none)
    else
      ({ pool := pool
         entryMetadata := Function.update cache.entryMetadata blockIdx
          { metadata with
            compressedSize := toSize compressed.ret
            originalSize := data.length
            isEncrypted := false
            isActive := true } }, some blockIdx)

/-- `retrieve_session_data` with an output buffer of some size: what is returned, and what is left
in the buffer. -/
def retrieveSessionData (cache : GhostCache) (blockIndex bufferSize : ℕ) : Option (ℕ × Bytes) :=
  let entry := cache.entryMetadata blockIndex
  if poolMaxBlocks ≤ blockIndex ∨ entry.isActive = false then none
  else if bufferSize < entry.originalSize then none
  else
    let decompressed :=
      lz4.decompressSafe
        (cache.pool.readBlock poolBlockSize blockIndex (toInt entry.compressedSize).toNat)
        (toInt entry.originalSize)
    if decompressed.ret < 0 then none else some (toSize decompressed.ret, decompressed.dst)

/-- `close_tab`. -/
def closeTab (cache : GhostCache) (blockIndex : ℕ) : GhostCache :=
  if poolMaxBlocks ≤ blockIndex then cache
  else
    { pool := cache.pool.deallocate poolBlockSize poolMaxBlocks blockIndex
      entryMetadata := Function.update cache.entryMetadata blockIndex {} }

/-- One round of `clear_all`. -/
def closeActive (cache : GhostCache) (i : ℕ) : GhostCache :=
  if (cache.entryMetadata i).isActive then cache.closeTab i else cache

/-- `clear_all`. -/
def clearAll (cache : GhostCache) : GhostCache :=
  let cache := (List.range poolMaxBlocks).foldl closeActive cache
  { cache with pool := cache.pool.clearSecure poolBlockSize poolMaxBlocks }

/-- `active_entries`. -/
def activeEntries (cache : GhostCache) : ℕ :=
  (List.range poolMaxBlocks).countP fun i => (cache.entryMetadata i).isActive

/-! ## Runs -/

/-- What may be asked of the cache. -/
inductive Request
  | store (data : Bytes) (metadata : CacheEntryMetadata)
  | retrieve (blockIndex bufferSize : ℕ)
  | close (blockIndex : ℕ)
  | clear

/-- The cache behind a request. -/
def step (cache : GhostCache) : Request → GhostCache
  | .store data metadata => (cache.storeSessionData lz4 data metadata).1
  | .retrieve _ _ => cache
  | .close blockIndex => cache.closeTab blockIndex
  | .clear => cache.clearAll

/-- An entry is active exactly when its block is in use, the counts are right, and every byte that
is not in use is zero. -/
structure Accounted (cache : GhostCache) : Prop where
  active_iff : ∀ i < poolMaxBlocks,
    (cache.entryMetadata i).isActive = cache.pool.blockInUse i
  count : cache.pool.allocatedCount = (List.range poolMaxBlocks).countP cache.pool.blockInUse
  active : cache.pool.allocatedCount = cache.activeEntries
  free : ∀ i < poolMaxBlocks, cache.pool.blockInUse i = false → ∀ k < poolBlockSize,
    cache.pool.pool (i * poolBlockSize + k) = 0
  beyond : ∀ i < poolMaxBlocks, cache.pool.blockInUse i = true → ∀ k < poolBlockSize,
    cache.pool.blockSizes i ≤ k → cache.pool.pool (i * poolBlockSize + k) = 0

/-- What carries the proof: the pool is clean, and the entries are those of the blocks. -/
structure Tidy (cache : GhostCache) : Prop where
  clean : MemoryPool.Clean poolBlockSize poolMaxBlocks cache.pool
  active_iff : ∀ i < poolMaxBlocks, (cache.entryMetadata i).isActive = cache.pool.blockInUse i

theorem Tidy.accounted {cache : GhostCache} (h : cache.Tidy) : cache.Accounted where
  active_iff := h.active_iff
  count := h.clean.count
  active := by
    rw [h.clean.count, activeEntries]
    refine List.countP_congr fun i hi => ?_
    rw [h.active_iff i (List.mem_range.mp hi)]
  free := fun i hi hfree k hk => h.clean.zero i hi k hk fun huse => by
    rw [hfree] at huse
    cases huse
  beyond := fun i hi _ k hk hle => h.clean.zero i hi k hk fun _ => hle

theorem tidy_init : Tidy {} where
  clean := MemoryPool.clean_init _ _
  active_iff := fun _ _ => rfl

theorem poolMaxBlocks_lt : poolMaxBlocks < 2 ^ 64 := by decide

/-- A closed tab. -/
theorem tidy_closeTab {cache : GhostCache} (h : cache.Tidy) (blockIndex : ℕ) :
    (cache.closeTab blockIndex).Tidy := by
  rw [closeTab]
  split
  · exact h
  · rename_i hlt
    refine ⟨MemoryPool.clean_deallocate poolMaxBlocks_lt h.clean blockIndex, fun i hi => ?_⟩
    show (Function.update cache.entryMetadata blockIndex {} i).isActive = _
    rw [MemoryPool.deallocate]
    by_cases huse : cache.pool.blockInUse blockIndex = false
    · rw [if_pos (Or.inr huse)]
      by_cases hib : i = blockIndex
      · rw [hib, Function.update_self, huse]
      · rw [Function.update_of_ne hib, h.active_iff i hi]
    · rw [if_neg (not_or.mpr ⟨hlt, huse⟩)]
      show _ = Function.update cache.pool.blockInUse blockIndex false i
      by_cases hib : i = blockIndex
      · rw [hib, Function.update_self, Function.update_self]
      · rw [Function.update_of_ne hib, Function.update_of_ne hib, h.active_iff i hi]

theorem closeTab_isActive_self (cache : GhostCache) {i : ℕ} (hi : i < poolMaxBlocks) :
    ((cache.closeTab i).entryMetadata i).isActive = false := by
  rw [closeTab, if_neg (Nat.not_le.mpr hi)]
  show (Function.update cache.entryMetadata i {} i).isActive = false
  rw [Function.update_self]

theorem closeTab_isActive_of_ne (cache : GhostCache) {i j : ℕ} (hij : i ≠ j) :
    ((cache.closeTab j).entryMetadata i) = cache.entryMetadata i := by
  rw [closeTab]
  split
  · rfl
  · exact Function.update_of_ne hij _ _

/-- The rounds of `clear_all`. -/
theorem tidy_foldl_closeActive {cache : GhostCache} (h : cache.Tidy) {n : ℕ}
    (hn : n ≤ poolMaxBlocks) :
    ((List.range n).foldl closeActive cache).Tidy ∧
      ∀ i < n, (((List.range n).foldl closeActive cache).entryMetadata i).isActive = false := by
  induction n with
  | zero => exact ⟨h, fun i hi => absurd hi (Nat.not_lt_zero i)⟩
  | succ n ih =>
    obtain ⟨htidy, hclosed⟩ := ih (Nat.le_of_succ_le hn)
    rw [List.range_succ, List.foldl_append, List.foldl_cons, List.foldl_nil]
    generalize (List.range n).foldl closeActive cache = closed at htidy hclosed
    rw [closeActive]
    by_cases hactive : (closed.entryMetadata n).isActive = true
    · rw [if_pos hactive]
      refine ⟨tidy_closeTab htidy n, fun i hi => ?_⟩
      rcases Nat.lt_succ_iff_lt_or_eq.mp hi with hlt | rfl
      · rw [closeTab_isActive_of_ne closed (Nat.ne_of_lt hlt)]
        exact hclosed i hlt
      · exact closeTab_isActive_self closed hn
    · rw [if_neg hactive]
      refine ⟨htidy, fun i hi => ?_⟩
      rcases Nat.lt_succ_iff_lt_or_eq.mp hi with hlt | rfl
      · exact hclosed i hlt
      · exact Bool.not_eq_true _ ▸ hactive

theorem tidy_clearSecure {cache : GhostCache} (h : cache.Tidy)
    (hclosed : ∀ i < poolMaxBlocks, (cache.entryMetadata i).isActive = false) :
    Tidy { cache with pool := cache.pool.clearSecure poolBlockSize poolMaxBlocks } := by
  obtain ⟨hclean, hfree⟩ := MemoryPool.clean_clearSecure h.clean.toZeroed
  exact ⟨hclean, fun i hi => (hclosed i hi).trans (hfree i hi).symm⟩

theorem tidy_clearAll {cache : GhostCache} (h : cache.Tidy) : cache.clearAll.Tidy := by
  obtain ⟨htidy, hclosed⟩ := tidy_foldl_closeActive h (Nat.le_refl poolMaxBlocks)
  exact tidy_clearSecure htidy hclosed

variable {lz4}

/-- The capacity that is announced is the size of the block. -/
theorem toNat_le_toSize {n : ℤ} (hn : n < 2 ^ 31) : n.toNat ≤ toSize n := by
  unfold toSize
  omega

/-- **A text that is stored.** -/
theorem tidy_storeSessionData
    (hwrites : ∀ source capacity, (lz4.compressDefault source capacity).dst.length ≤ capacity.toNat)
    {cache : GhostCache} (h : cache.Tidy) (data : Bytes) (metadata : CacheEntryMetadata) :
    (cache.storeSessionData lz4 data metadata).1.Tidy := by
  rw [storeSessionData]
  cases hallocate : cache.pool.allocate poolBlockSize poolMaxBlocks
      (toSize (lz4.compressBound (toInt data.length))) with
  | none => exact h
  | some allocated =>
    obtain ⟨pool, blockIdx⟩ := allocated
    have hclean := MemoryPool.clean_allocate poolMaxBlocks_lt h.clean hallocate
    obtain ⟨-, hidx, hfree, rfl⟩ := MemoryPool.allocate_eq_some hallocate
    have hbytes := (hwrites (data.take (toInt data.length).toNat)
      (lz4.compressBound (toInt data.length))).trans (toNat_le_toSize (lz4.compressBound_lt _))
    dsimp only
    generalize lz4.compressDefault (data.take (toInt data.length).toNat)
      (lz4.compressBound (toInt data.length)) = compressed at hbytes
    have hwritten := MemoryPool.clean_writeBlock hclean hidx (Function.update_self _ _ _)
      (hbytes.trans_eq (Function.update_self (f := cache.pool.blockSizes) blockIdx _).symm)
    split
    · refine ⟨MemoryPool.clean_deallocate poolMaxBlocks_lt hwritten blockIdx, fun i hi => ?_⟩
      have huse : ¬ (poolMaxBlocks ≤ blockIdx ∨
          Function.update cache.pool.blockInUse blockIdx true blockIdx = false) := by
        rw [Function.update_self]
        exact not_or.mpr ⟨Nat.not_le.mpr hidx, Bool.false_ne_true.symm⟩
      rw [MemoryPool.deallocate, MemoryPool.writeBlock, if_neg huse]
      show (cache.entryMetadata i).isActive = Function.update
        (Function.update cache.pool.blockInUse blockIdx true) blockIdx false i
      by_cases hib : i = blockIdx
      · rw [hib, Function.update_self, h.active_iff blockIdx hidx, hfree]
      · rw [Function.update_of_ne hib, Function.update_of_ne hib, h.active_iff i hi]
    · refine ⟨hwritten, fun i hi => ?_⟩
      show (Function.update cache.entryMetadata blockIdx _ i).isActive =
        Function.update cache.pool.blockInUse blockIdx true i
      by_cases hib : i = blockIdx
      · rw [hib, Function.update_self, Function.update_self]
      · rw [Function.update_of_ne hib, Function.update_of_ne hib, h.active_iff i hi]

/-- **Every run of requests** leaves the cache accounted for. -/
theorem accounted_runs
    (hwrites : ∀ source capacity, (lz4.compressDefault source capacity).dst.length ≤ capacity.toNat)
    (requests : List Request) : ∀ cache ∈ requests.scanl (step lz4) {}, cache.Accounted := by
  have htidy : ∀ cache ∈ requests.scanl (step lz4) {}, cache.Tidy := by
    refine forall_mem_scanl (P := fun _ _ => True) (fun cache request h _ => ?_) tidy_init
      (along_of_forall fun _ _ => trivial)
    cases request with
    | store data metadata => exact tidy_storeSessionData hwrites h data metadata
    | retrieve blockIndex bufferSize => exact h
    | close blockIndex => exact tidy_closeTab h blockIndex
    | clear => exact tidy_clearAll h
  exact fun cache hcache => (htidy cache hcache).accounted

theorem literalBound_lt (isize : ℤ) :
    (if 0 ≤ isize ∧ isize ≤ 0x7e000000 then isize + isize / 255 + 16 else 0) < 2 ^ 31 := by
  split_ifs <;> omega

/-- A compressor that copies a text of less than 15 bytes behind a token with its length, as LZ4
does, and refuses the longer ones. -/
def literalLz4 : Lz4 where
  compressBound isize :=
    if 0 ≤ isize ∧ isize ≤ 0x7e000000 then isize + isize / 255 + 16 else 0
  compressBound_lt := literalBound_lt
  compressDefault source capacity :=
    if source.length < 15 ∧ (source.length : ℤ) + 1 ≤ capacity then
      ⟨source.length + 1, UInt8.ofNat (source.length * 16) :: source⟩
    else ⟨0, []⟩
  decompressSafe source capacity :=
    match source with
    | [] => ⟨-1, []⟩
    | token :: literals =>
      if token.toNat = literals.length * 16 ∧ (literals.length : ℤ) ≤ capacity then
        ⟨literals.length, literals⟩
      else ⟨-1, []⟩

theorem length_compressDefault_le (source : Bytes) (capacity : ℤ) :
    (literalLz4.compressDefault source capacity).dst.length ≤ capacity.toNat := by
  unfold literalLz4
  dsimp only
  split_ifs with h
  · rw [List.length_cons]
    omega
  · exact Nat.zero_le _

theorem accounted_runs_literal : Accounted
    ((step literalLz4 {} (.store (lit "tab") {})).clearAll) :=
  accounted_runs length_compressDefault_le [.store (lit "tab") {}, .clear] _
    (List.mem_of_getLast? rfl)

end GhostCache

end Aetheris.Cache
