import Aetheris.Bytes
import Aetheris.Library.Memory

/-!
# The memory pool

`StaticMemoryPool` of `ghost_cache.hpp`: a run of blocks of one size, a flag and a size for each of
them, and a count.

The pool is `Clean` if everything that is not in use is zero and the count is right: a block that is
given back is wiped, and one that is written has been zero before.  Each of the operations keeps
this, and the lemma for each says what becomes of one block and that the others stay as they are.
-/

namespace Aetheris.Cache

open Memory

/-! ## The pool -/

/-- `StaticMemoryPool`. -/
structure MemoryPool where
  pool : ℕ → Byte := fun _ => 0
  blockInUse : ℕ → Bool := fun _ => false
  blockSizes : ℕ → ℕ := fun _ => 0
  allocatedCount : ℕ := 0

namespace MemoryPool

/-- `++` of a `size_t`. -/
def increment (n : ℕ) : ℕ := (n + 1) % 2 ^ 64

/-- `--` of a `size_t`. -/
def decrement (n : ℕ) : ℕ := (n + (2 ^ 64 - 1)) % 2 ^ 64

variable (blockSize maxBlocks : ℕ)

/-- `allocate`. -/
def allocate (p : MemoryPool) (sizeBytes : ℕ) : Option (MemoryPool × ℕ) :=
  if sizeBytes = 0 ∨ blockSize < sizeBytes then none
  else
    ((List.range maxBlocks).find? fun i => !p.blockInUse i).map fun i =>
      ({ p with
          blockInUse := Function.update p.blockInUse i true
          blockSizes := Function.update p.blockSizes i sizeBytes
          allocatedCount := increment p.allocatedCount }, i)

/-- `secure_zero_memory` on the block. -/
def wipe (p : MemoryPool) (blockIndex : ℕ) : MemoryPool :=
  { p with pool := fill p.pool (blockIndex * blockSize) (p.blockSizes blockIndex) 0 }

/-- `deallocate`. -/
def deallocate (p : MemoryPool) (blockIndex : ℕ) : MemoryPool :=
  if maxBlocks ≤ blockIndex ∨ p.blockInUse blockIndex = false then p
  else
    { p.wipe blockSize blockIndex with
      blockInUse := Function.update p.blockInUse blockIndex false
      blockSizes := Function.update p.blockSizes blockIndex 0
      allocatedCount := decrement p.allocatedCount }

/-- What is written through `get_block_ptr`. -/
def writeBlock (p : MemoryPool) (blockIndex : ℕ) (bytes : Bytes) : MemoryPool :=
  { p with pool := write p.pool (blockIndex * blockSize) bytes }

/-- What is read through `get_block_ptr`. -/
def readBlock (p : MemoryPool) (blockIndex length : ℕ) : Bytes :=
  read p.pool (blockIndex * blockSize) length

/-- One round of `clear_secure`. -/
def clearBlock (p : MemoryPool) (i : ℕ) : MemoryPool :=
  { (if p.blockInUse i then p.wipe blockSize i else p) with
    blockInUse := Function.update p.blockInUse i false
    blockSizes := Function.update p.blockSizes i 0 }

/-- `clear_secure`. -/
def clearSecure (p : MemoryPool) : MemoryPool :=
  { (List.range maxBlocks).foldl (clearBlock blockSize) p with allocatedCount := 0 }

/-! ## What is not in use is zero -/

/-- Every byte of a free block and every byte of a used block beyond its size is zero. -/
structure Zeroed (p : MemoryPool) : Prop where
  size_le : ∀ i < maxBlocks, p.blockSizes i ≤ blockSize
  zero : ∀ i < maxBlocks, ∀ k < blockSize, (p.blockInUse i = true → p.blockSizes i ≤ k) →
    p.pool (i * blockSize + k) = 0

/-- The number of the blocks in use is known, too. -/
structure Clean (p : MemoryPool) : Prop extends Zeroed blockSize maxBlocks p where
  count : p.allocatedCount = (List.range maxBlocks).countP p.blockInUse

theorem clean_init : Clean blockSize maxBlocks {} where
  size_le := fun _ _ => Nat.zero_le _
  zero := fun _ _ _ _ _ => rfl
  count := (List.countP_eq_zero.mpr fun _ _ => Bool.false_ne_true).symm

variable {blockSize maxBlocks} {p : MemoryPool}

/-- What `allocate` returns. -/
theorem allocate_eq_some {sizeBytes i : ℕ} {q : MemoryPool}
    (h : p.allocate blockSize maxBlocks sizeBytes = some (q, i)) :
    (0 < sizeBytes ∧ sizeBytes ≤ blockSize) ∧ i < maxBlocks ∧ p.blockInUse i = false ∧
      q = { p with
        blockInUse := Function.update p.blockInUse i true
        blockSizes := Function.update p.blockSizes i sizeBytes
        allocatedCount := increment p.allocatedCount } := by
  rw [allocate] at h
  split at h
  · cases h
  · rename_i hsize
    obtain ⟨j, hj, heq⟩ := Option.map_eq_some_iff.mp h
    obtain ⟨rfl, rfl⟩ := Prod.mk.inj heq
    refine ⟨by omega, List.mem_range.mp (List.mem_of_find?_eq_some hj), ?_, rfl⟩
    simpa using List.find?_some hj

/-- A block that has been allocated. -/
theorem clean_allocate {sizeBytes i : ℕ} {q : MemoryPool} (hmax : maxBlocks < 2 ^ 64)
    (hp : Clean blockSize maxBlocks p)
    (h : p.allocate blockSize maxBlocks sizeBytes = some (q, i)) : Clean blockSize maxBlocks q := by
  obtain ⟨⟨-, hsize⟩, hi, hfree, rfl⟩ := allocate_eq_some h
  refine ⟨⟨fun j hj => ?_, fun j hj k hk hbeyond => ?_⟩, ?_⟩
  · show Function.update p.blockSizes i sizeBytes j ≤ blockSize
    by_cases hji : j = i
    · rwa [hji, Function.update_self]
    · rw [Function.update_of_ne hji]
      exact hp.size_le j hj
  · refine hp.zero j hj k hk fun huse => ?_
    by_cases hji : j = i
    · rw [hji, hfree] at huse
      cases huse
    · dsimp only at hbeyond
      rw [Function.update_of_ne hji, Function.update_of_ne hji] at hbeyond
      exact hbeyond huse
  · have hcount := countP_update p.blockInUse hi true
    have hlt := countP_lt hi hfree
    rw [hfree] at hcount
    show increment p.allocatedCount = _
    rw [increment, hp.count, Nat.mod_eq_of_lt (by omega)]
    exact hcount.symm

/-- A block that is zero is free again, and the other blocks stay as they are. -/
theorem zeroed_release {i : ℕ} (hp : Zeroed blockSize maxBlocks p) {pool : ℕ → Byte}
    (hsame : ∀ j ≠ i, ∀ k < blockSize, pool (j * blockSize + k) = p.pool (j * blockSize + k))
    (hzero : ∀ k < blockSize, pool (i * blockSize + k) = 0) (count : ℕ) :
    Zeroed blockSize maxBlocks
      { pool := pool
        blockInUse := Function.update p.blockInUse i false
        blockSizes := Function.update p.blockSizes i 0
        allocatedCount := count } := by
  refine ⟨fun j hj => ?_, fun j hj k hk hbeyond => ?_⟩
  · show Function.update p.blockSizes i 0 j ≤ blockSize
    by_cases hji : j = i
    · rw [hji, Function.update_self]
      exact Nat.zero_le _
    · rw [Function.update_of_ne hji]
      exact hp.size_le j hj
  · show pool (j * blockSize + k) = 0
    by_cases hji : j = i
    · rw [hji]
      exact hzero k hk
    · dsimp only at hbeyond
      rw [Function.update_of_ne hji, Function.update_of_ne hji] at hbeyond
      rw [hsame j hji k hk]
      exact hp.zero j hj k hk hbeyond

/-- Another block than the one that is wiped. -/
theorem wipe_of_ne {i : ℕ} (hp : Zeroed blockSize maxBlocks p) (hi : i < maxBlocks) {j : ℕ}
    (hji : j ≠ i) {k : ℕ} (hk : k < blockSize) :
    (p.wipe blockSize i).pool (j * blockSize + k) = p.pool (j * blockSize + k) :=
  fill_of_not_mem 0 (block_disjoint hji hk (hp.size_le i hi))

/-- **A block that is wiped** is zero. -/
theorem wipe_self {i : ℕ} (hp : Zeroed blockSize maxBlocks p) (hi : i < maxBlocks) {k : ℕ}
    (hk : k < blockSize) : (p.wipe blockSize i).pool (i * blockSize + k) = 0 := by
  by_cases hsize : k < p.blockSizes i
  · exact fill_of_mem 0 (Nat.le_add_right _ _) (Nat.add_lt_add_left hsize _)
  · have hsame : (p.wipe blockSize i).pool (i * blockSize + k) = p.pool (i * blockSize + k) :=
      fill_of_not_mem 0 fun h => hsize (Nat.lt_of_add_lt_add_left h.2)
    rw [hsame]
    exact hp.zero i hi k hk fun _ => Nat.not_lt.mp hsize

/-- **A block that has been deallocated.** -/
theorem clean_deallocate (hmax : maxBlocks < 2 ^ 64) (hp : Clean blockSize maxBlocks p) (i : ℕ) :
    Clean blockSize maxBlocks (p.deallocate blockSize maxBlocks i) := by
  rw [deallocate]
  split
  · exact hp
  · rename_i h
    obtain ⟨hi, huse⟩ := not_or.mp h
    have hi := Nat.not_le.mp hi
    have huse : p.blockInUse i = true := Bool.not_eq_false _ ▸ huse
    refine ⟨zeroed_release hp.toZeroed (fun j hji k hk => wipe_of_ne hp.toZeroed hi hji hk)
      (fun k hk => wipe_self hp.toZeroed hi hk) _, ?_⟩
    have hcount := countP_update p.blockInUse hi false
    have hpos := countP_pos hi huse
    have hle := countP_le p.blockInUse maxBlocks
    rw [huse] at hcount
    simp only [Bool.toNat_true, Bool.toNat_false] at hcount
    show decrement p.allocatedCount =
      (List.range maxBlocks).countP (Function.update p.blockInUse i false)
    rw [decrement, hp.count]
    omega

/-- What is written into a block, up to its size. -/
theorem clean_writeBlock {i : ℕ} {bytes : Bytes} (hp : Clean blockSize maxBlocks p)
    (hi : i < maxBlocks) (huse : p.blockInUse i = true) (hbytes : bytes.length ≤ p.blockSizes i) :
    Clean blockSize maxBlocks (p.writeBlock blockSize i bytes) := by
  refine ⟨⟨hp.size_le, fun j hj k hk hbeyond => ?_⟩, hp.count⟩
  have hwrite : (p.writeBlock blockSize i bytes).pool (j * blockSize + k) =
      p.pool (j * blockSize + k) := by
    refine write_of_not_mem ?_
    by_cases hji : j = i
    · subst hji
      have hsize : p.blockSizes j ≤ k := hbeyond huse
      omega
    · exact block_disjoint hji hk (hbytes.trans (hp.size_le i hi))
  rw [hwrite]
  exact hp.zero j hj k hk hbeyond

/-- The rounds of `clear_secure`. -/
theorem zeroed_foldl_clearBlock (hp : Zeroed blockSize maxBlocks p) {n : ℕ} (hn : n ≤ maxBlocks) :
    Zeroed blockSize maxBlocks ((List.range n).foldl (clearBlock blockSize) p) ∧
      ∀ i < n, ((List.range n).foldl (clearBlock blockSize) p).blockInUse i = false := by
  induction n with
  | zero => exact ⟨hp, fun i hi => absurd hi (Nat.not_lt_zero i)⟩
  | succ n ih =>
    rw [List.range_succ, List.foldl_append, List.foldl_cons, List.foldl_nil]
    obtain ⟨hzeroed, hfree⟩ := ih (Nat.le_of_succ_le hn)
    generalize (List.range n).foldl (clearBlock blockSize) p = q at hzeroed hfree
    refine ⟨?_, fun i hi => ?_⟩
    · rw [clearBlock]
      by_cases huse : q.blockInUse n = true
      · rw [if_pos huse]
        exact zeroed_release hzeroed (fun j hji k hk => wipe_of_ne hzeroed hn hji hk)
          (fun k hk => wipe_self hzeroed hn hk) _
      · rw [if_neg huse]
        exact zeroed_release hzeroed (fun _ _ _ _ => rfl)
          (fun k hk => hzeroed.zero n hn k hk fun h => absurd h huse) _
    · show Function.update q.blockInUse n false i = false
      rcases Nat.lt_succ_iff_lt_or_eq.mp hi with hlt | rfl
      · rw [Function.update_of_ne (Nat.ne_of_lt hlt)]
        exact hfree i hlt
      · exact Function.update_self _ _ _

/-- **The pool that has been cleared.** -/
theorem clean_clearSecure (hp : Zeroed blockSize maxBlocks p) :
    Clean blockSize maxBlocks (p.clearSecure blockSize maxBlocks) ∧
      ∀ i < maxBlocks, (p.clearSecure blockSize maxBlocks).blockInUse i = false := by
  obtain ⟨hzeroed, hfree⟩ := zeroed_foldl_clearBlock hp (Nat.le_refl maxBlocks)
  refine ⟨⟨⟨hzeroed.size_le, hzeroed.zero⟩, (List.countP_eq_zero.mpr fun i hi => ?_).symm⟩, hfree⟩
  exact Bool.eq_false_iff.mp (hfree i (List.mem_range.mp hi))

end MemoryPool

end Aetheris.Cache
