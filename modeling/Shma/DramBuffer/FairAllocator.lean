import Shma.DramBuffer.Block

/-!
# The allocator of DRAM blocks

`DRAM-buffer/FairAllocator.cpp`. Blocks move between two global pools and a clean
and a dirty pool of each process. The per-process pools are unordered sets, here
lists without order of their own. Two things are left open: which element
`*begin()` of such a set is, and the rounding of `(int)(rate*reclaim_pages)`, a
product of doubles. Counters narrower than 64 bits wrap around: `proc_busy_pages`
holds an `int` for each process, and `Release` counts in `unsigned`.
-/
namespace Shma

/-- The choices the source leaves to its platform. -/
structure PoolPolicy where
  /-- `*begin()` of an unordered set. -/
  first : List Nat → Nat
  /-- `(int)((double)proc_busy_size/total_page_count * reclaim_pages)`. -/
  share : (procBusySize totalPageCount : Nat) → (reclaimPages : Int) → Int
  first_mem : ∀ pool, pool ≠ [] → first pool ∈ pool

/-- `(int)(rate*reclaim_pages)` with the quotient taken exactly. -/
def exactShare (procBusySize totalPageCount : Nat) (reclaimPages : Int) : Int :=
  (procBusySize * reclaimPages).tdiv totalPageCount

def PoolPolicy.exact : PoolPolicy where
  first pool := pool.headD 0
  share := exactShare
  first_mem pool h := by
    cases pool with
    | nil => exact absurd rfl h
    | cons b _ => exact mem_cons_self

structure FairAllocator where
  (processCount totalPageCount busyPages minFreePages : Nat)
  procBusyPages : Nat → Int
  (cleanPools dirtyPools : Nat → List Nat)
  (globalCleanPool globalDirtyPool : List Nat)
  bufferArray : Nat → DRAMBufferBlock

namespace FairAllocator

/-- The constructor. `4*sqrt(memory_size)` is taken rounded down. -/
def new (z : Zinfo) (processNum : Nat) (memorySize : Address) : FairAllocator :=
  let total := memorySize >>> z.pageShift
  { processCount := processNum
    totalPageCount := total
    busyPages := 0
    minFreePages := min (max (Nat.sqrt (16 * memorySize)) (2 <<< 17)) (2 <<< 26) / 2^z.pageShift
    procBusyPages := fun _ => 0
    cleanPools := fun _ => []
    dirtyPools := fun _ => []
    globalCleanPool := List.range total
    globalDirtyPool := []
    bufferArray := fun _ => .new }

def shouldReclaim (a : FairAllocator) : Bool := a.totalPageCount - a.busyPages == 1

/-- `n` steps of either loop of `Release`: a block leaves a process's pool for the
end of a global one. -/
def releaseLoop (pol : PoolPolicy) : (n : Nat) → (pool global : List Nat) → List Nat × List Nat
  | 0, pool, global => (pool, global)
  | n+1, pool, global => releaseLoop pol n (pool.erase (pol.first pool)) (global ++ [pol.first pool])

/-- `clean_evict_size`: how many of the blocks released come from the clean pool. -/
def cleanEvictSize (a : FairAllocator) (processId evictSize : Nat) : Nat :=
  let cleanPoolSize := (a.cleanPools processId).length % 2^32
  if evictSize > cleanPoolSize then cleanPoolSize else evictSize

section

variable (pol : PoolPolicy) (a : FairAllocator) (processId evictSize : Nat)

def released : FairAllocator :=
  let cleanEvictSize := a.cleanEvictSize processId evictSize
  let clean := releaseLoop pol cleanEvictSize (a.cleanPools processId) a.globalCleanPool
  let dirty := releaseLoop pol (evictSize - cleanEvictSize) (a.dirtyPools processId) a.globalDirtyPool
  { a with
    cleanPools := update a.cleanPools processId clean.1
    globalCleanPool := clean.2
    dirtyPools := update a.dirtyPools processId dirty.1
    globalDirtyPool := dirty.2
    busyPages := a.busyPages - evictSize
    procBusyPages := update a.procBusyPages processId
      (Int.bmod (a.procBusyPages processId - evictSize) (2^32)) }

def release : Option FairAllocator := do
  assertThat ((a.cleanPools processId).length % 2^32 + (a.dirtyPools processId).length ≥ evictSize)
  let a := a.released pol processId evictSize
  assertThat (a.shouldReclaim = false)
  return a

end

theorem release_eq_some {pol : PoolPolicy} {a a' : FairAllocator} {processId evictSize : Nat} :
    a.release pol processId evictSize = some a' ↔
      evictSize ≤ (a.cleanPools processId).length % 2^32 + (a.dirtyPools processId).length ∧
        (a.released pol processId evictSize).shouldReclaim = false ∧ a' = a.released pol processId evictSize := by
  simp only [release, assertThat, bind_eq_bind, pure_def, ge_iff_le]
  by_cases hsize : evictSize ≤ (a.cleanPools processId).length % 2^32 + (a.dirtyPools processId).length
  · by_cases hfree : (a.released pol processId evictSize).shouldReclaim = false
    · rw [if_pos hsize, bind_some, if_pos hfree, bind_some, some_inj]
      exact ⟨fun h => ⟨hsize, hfree, h.symm⟩, fun h => h.2.2.symm⟩
    · rw [if_pos hsize, if_neg hfree]
      exact ⟨fun h => (nomatch h), fun h => absurd h.2.1 hfree⟩
  · rw [if_neg hsize]
    exact ⟨fun h => (nomatch h), fun h => absurd h.1 hsize⟩

/-- The part of `reclaim_pages` one process gives up, as an `unsigned`. -/
def releaseSize (pol : PoolPolicy) (a : FairAllocator) (processId : Nat) (reclaimPages : Int) : Nat :=
  let procBusySize := (a.cleanPools processId).length + (a.dirtyPools processId).length
  ((pol.share procBusySize a.totalPageCount reclaimPages + 1) % 2^32).toNat

def equalEvictLoop (pol : PoolPolicy) (reclaimPages : Int) : List Nat → FairAllocator → Option FairAllocator
  | [], a => some a
  | i :: is, a =>
    if (a.cleanPools i).length + (a.dirtyPools i).length > 0 then
      (a.release pol i (a.releaseSize pol i reclaimPages)).bind (equalEvictLoop pol reclaimPages is)
    else equalEvictLoop pol reclaimPages is a

/-- `equal_evict`; `reclaim_pages` is an `int`. -/
def equalEvict (pol : PoolPolicy) (a : FairAllocator) : Option FairAllocator :=
  let reclaimPages : Int := Int.bmod ((a.minFreePages : Int) - (a.totalPageCount - a.busyPages : Nat)) (2^32)
  equalEvictLoop pol reclaimPages (List.range a.processCount) a

def evict (pol : PoolPolicy) (a : FairAllocator) : Option FairAllocator := do
  assertThat a.shouldReclaim
  a.equalEvict pol

section

variable (a : FairAllocator)

def allocateOnePage (processId : Nat) : Option (Nat × FairAllocator) :=
  if processId < a.processCount then
    match a.globalCleanPool, a.globalDirtyPool with
    | b :: rest, _ =>
      some (b, { a with
        globalCleanPool := rest
        cleanPools := update a.cleanPools processId (List.insert b (a.cleanPools processId))
        busyPages := a.busyPages + 1
        procBusyPages := update a.procBusyPages processId
          (Int.bmod (a.procBusyPages processId + 1) (2^32)) })
    | [], b :: rest =>
      some (b, { a with
        globalDirtyPool := rest
        cleanPools := update a.cleanPools processId (List.insert b (a.cleanPools processId))
        busyPages := a.busyPages + 1
        procBusyPages := update a.procBusyPages processId
          (Int.bmod (a.procBusyPages processId + 1) (2^32)) })
    | [], [] => none
  else none

def convertToDirty (processId blockId : Nat) : FairAllocator :=
  if blockId ∈ a.cleanPools processId then
    { a with
      cleanPools := update a.cleanPools processId ((a.cleanPools processId).erase blockId)
      dirtyPools := update a.dirtyPools processId (List.insert blockId (a.dirtyPools processId)) }
  else a

/-- `get_page_ptr`: only blocks in some process's pool have one. -/
def getPagePtr (entryId : Nat) : Option Nat :=
  if ∃ i < a.processCount, entryId ∈ a.cleanPools i ∨ entryId ∈ a.dirtyPools i then some entryId else none

def setBlock (blockId : Nat) (b : DRAMBufferBlock) : FairAllocator :=
  { a with bufferArray := update a.bufferArray blockId b }

end

section Frame

variable {pol : PoolPolicy} {a a' : FairAllocator}

theorem equalEvictLoop_keeps {R : FairAllocator → FairAllocator → Prop} (hrefl : ∀ a, R a a)
    (htrans : ∀ {a b c}, R a b → R b c → R a c) {reclaimPages : Int} {is : List Nat}
    (hrelease : ∀ {a a' i n}, i ∈ is → a.release pol i n = some a' → R a a')
    (h : equalEvictLoop pol reclaimPages is a = some a') : R a a' := by
  induction is generalizing a with
  | nil =>
    cases h
    exact hrefl _
  | cons i is ih =>
    have hrest : ∀ {a}, equalEvictLoop pol reclaimPages is a = some a' → R a a' :=
      ih fun hi => hrelease (mem_cons_of_mem i hi)
    rw [equalEvictLoop] at h
    split at h
    · obtain ⟨b, hb, h⟩ := bind_eq_some_iff.mp h
      exact htrans (hrelease mem_cons_self hb) (hrest h)
    · exact hrest h

theorem release_bufferArray {processId evictSize : Nat} (h : a.release pol processId evictSize = some a') :
    a'.bufferArray = a.bufferArray := by
  obtain ⟨-, -, rfl⟩ := release_eq_some.mp h
  rfl

theorem evict_bufferArray (h : a.evict pol = some a') : a'.bufferArray = a.bufferArray := by
  obtain ⟨_, -, h⟩ := bind_eq_some_iff.mp h
  exact equalEvictLoop_keeps (R := fun a a' => a'.bufferArray = a.bufferArray) (fun _ => rfl)
    (fun h h' => h'.trans h) (fun _ => release_bufferArray) h

theorem allocateOnePage_bufferArray {processId blockId : Nat}
    (h : a.allocateOnePage processId = some (blockId, a')) : a'.bufferArray = a.bufferArray := by
  unfold allocateOnePage at h
  split at h
  · split at h <;> simp only [some_inj, Prod.mk.injEq, reduceCtorEq] at h
    all_goals obtain ⟨-, rfl⟩ := h; rfl
  · cases h

@[simp] theorem convertToDirty_bufferArray (a : FairAllocator) (processId blockId : Nat) :
    (a.convertToDirty processId blockId).bufferArray = a.bufferArray := by
  unfold convertToDirty
  split <;> rfl

end Frame

end FairAllocator

end Shma
