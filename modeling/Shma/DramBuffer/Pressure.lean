import Shma.DramBuffer.Ledger

/-!
# Reclaiming blocks

When one block is left, `equal_evict` takes from every process a share of
`min_free_pages - 1` in proportion to what the process holds, rounded down, and one
block more. With the shares taken exactly, no process is asked for more than it
has, and at least one block is freed.
-/
namespace Shma.FairAllocator

open Lib Lib.Run Lib.Family

variable {pol : PoolPolicy} {a a' : FairAllocator}

def reclaimPages (a : FairAllocator) : Int :=
  Int.bmod ((a.minFreePages : Int) - (a.totalPageCount - a.busyPages : Nat)) (2^32)

theorem shouldReclaim_iff : a.shouldReclaim ↔ a.totalPageCount - a.busyPages = 1 := beq_iff_eq

theorem minFreePages_new_le (z : Zinfo) (processNum : Nat) {memorySize : Nat} (h : 2^18 ≤ memorySize) :
    (new z processNum memorySize).minFreePages ≤ memorySize >>> z.pageShift ∧
      (new z processNum memorySize).minFreePages ≤ 2^27 := by
  have hsqrt : Nat.sqrt (16 * memorySize) ≤ memorySize := by
    rw [← Nat.sqrt_eq memorySize]
    apply Nat.sqrt_le_sqrt
    rw [Nat.sqrt_eq]
    exact Nat.mul_le_mul_right memorySize (by omega)
  have hclamp : min (max (Nat.sqrt (16 * memorySize)) (2 <<< 17)) (2 <<< 26) ≤ memorySize := by
    omega
  rw [shiftRight_eq_div_pow]
  constructor
  · exact Nat.div_le_div_right hclamp
  · exact (Nat.div_le_self _ _).trans (by omega)

theorem exactShare_bounds {b total : Nat} {r : Int} (hb : 0 < b) (hlt : b < total) (hlow : -1 ≤ r)
    (hr : r < total) : 0 ≤ exactShare b total r ∧ exactShare b total r < b ∧ exactShare b total r ≤ max r 0 := by
  have htotal : (0 : Int) < total := by omega
  rw [exactShare]
  by_cases hneg : r = -1
  · have hzero : ((b : Int) * r).tdiv total = 0 := by
      rw [hneg, Int.mul_neg, Int.neg_tdiv, Int.tdiv_eq_zero_of_lt (by omega) (by omega), neg_zero]
    omega
  · have hpos : 0 ≤ r := by omega
    have hprod : 0 ≤ (b : Int) * r := Int.mul_nonneg (by omega) hpos
    rw [Int.tdiv_eq_ediv_of_nonneg hprod]
    refine ⟨Int.ediv_nonneg hprod (by omega), Int.ediv_lt_of_lt_mul htotal ?_, ?_⟩
    · exact Int.mul_lt_mul_of_pos_left hr (by omega)
    · have hle : (b : Int) * r / total ≤ r := by
        apply Int.ediv_le_of_le_mul htotal
        rw [Int.mul_comm]
        exact Int.mul_le_mul_of_nonneg_left (by omega) hpos
      omega

structure Reserve (a : FairAllocator) : Prop extends Ledger a where
  least : 2 ≤ a.totalPageCount
  minFree_le : a.minFreePages ≤ a.totalPageCount
  minFree_small : a.minFreePages ≤ 2^27
  free : a.busyPages < a.totalPageCount

theorem Reserve.reclaimPages_eq (h : a.Reserve) (hr : a.shouldReclaim) :
    a.reclaimPages = (a.minFreePages : Int) - 1 := by
  have hone := shouldReclaim_iff.mp hr
  have hsmall := h.minFree_small
  rw [reclaimPages, Int.bmod_eq_iff (by decide)]
  omega

/-- No process is asked for more than it has, and each is asked for something. -/
theorem Reserve.releaseSize_bounds (h : a.Reserve) (hr : a.shouldReclaim) (hshare : pol.share = exactShare)
    {i : Nat} (hi : i < a.processCount) (hne : a.processBlocks i ≠ []) :
    0 < a.releaseSize pol i a.reclaimPages ∧
      a.releaseSize pol i a.reclaimPages ≤ (a.processBlocks i).length := by
  have hpos := List.length_pos_of_ne_nil hne
  have hheld := h.length_processBlocks_le hi
  have hfree := h.free
  have hle := h.minFree_le
  have hsmall := h.minFree_small
  obtain ⟨hlow, hlt, hmax⟩ := @exactShare_bounds _ a.totalPageCount ((a.minFreePages : Int) - 1) hpos (by omega)
    (by omega) (by omega)
  have hlen : (a.cleanPools i).length + (a.dirtyPools i).length = (a.processBlocks i).length :=
    length_append.symm
  rw [releaseSize, h.reclaimPages_eq hr, hshare, hlen]
  omega

/-- No clean pool is too large for an `unsigned` when a reclaim is due. -/
def Narrow (a : FairAllocator) : Prop :=
  a.shouldReclaim → ∀ i < a.processCount, (a.cleanPools i).length < 2^32

theorem Ledger.narrow (h : a.Ledger) (hsize : a.totalPageCount ≤ 2^32) : a.Narrow := by
  intro hr i hi
  have hone := shouldReclaim_iff.mp hr
  have hheld := h.length_processBlocks_le hi
  rw [processBlocks, length_append] at hheld
  omega

theorem release_progress (pol : PoolPolicy) {i n : Nat} (h : a.Ledger) (hi : i < a.processCount)
    (hfree : a.busyPages < a.totalPageCount) (hnarrow : (a.cleanPools i).length < 2^32) (hpos : 0 < n)
    (hn : n ≤ (a.processBlocks i).length) :
    ∃ a', a.release pol i n = some a' ∧ a' = a.released pol i n ∧ a'.Ledger ∧ a'.busyPages + n = a.busyPages := by
  rw [processBlocks, length_append] at hn
  have hsize : n ≤ (a.cleanPools i).length % 2^32 + (a.dirtyPools i).length := by
    rw [mod_eq_of_lt hnarrow]
    exact hn
  obtain ⟨hmoved, hbusy⟩ := released_moved pol hi h hsize
  have htotal := hmoved.totalPageCount
  have hno : (a.released pol i n).shouldReclaim = false := by
    apply eq_false_iff.mpr
    intro hr
    have hone := shouldReclaim_iff.mp hr
    omega
  exact ⟨_, release_eq_some.mpr ⟨hsize, hno, rfl⟩, rfl, hmoved.ledger hi h, hbusy⟩

/-- The loop of `equal_evict` ends if it asks each process for some of what the
process has, and it frees a block if any of them has one. -/
theorem equalEvictLoop_progress (pol : PoolPolicy) {r : Int} {is : List Nat} (h : a.Ledger)
    (hfree : a.busyPages < a.totalPageCount)
    (hnodup : is.Nodup) (his : ∀ i ∈ is, i < a.processCount) (hnarrow : ∀ i ∈ is, (a.cleanPools i).length < 2^32)
    (hsize : ∀ i ∈ is, a.processBlocks i ≠ [] →
      0 < a.releaseSize pol i r ∧ a.releaseSize pol i r ≤ (a.processBlocks i).length) :
    ∃ a', equalEvictLoop pol r is a = some a' ∧ a'.Ledger ∧ a'.minFreePages = a.minFreePages ∧
      a'.busyPages ≤ a.busyPages ∧ ((∃ i ∈ is, a.processBlocks i ≠ []) → a'.busyPages < a.busyPages) := by
  induction is generalizing a with
  | nil => exact ⟨a, rfl, h, rfl, le_rfl, fun ⟨_, hi, _⟩ => nomatch hi⟩
  | cons i is ih =>
    obtain ⟨hfresh, hrest⟩ := nodup_cons.mp hnodup
    have hi := his i mem_cons_self
    rw [equalEvictLoop]
    by_cases hne : a.processBlocks i = []
    · -- a process without blocks is passed over
      have hnone : ¬ (a.cleanPools i).length + (a.dirtyPools i).length > 0 := by
        have hlen := congrArg List.length hne
        rw [processBlocks, length_append, List.length_nil] at hlen
        omega
      rw [if_neg hnone]
      obtain ⟨a', hr, hl, hmin, hle, hlt⟩ := ih h hfree hrest (fun j hj => his j (mem_cons_of_mem i hj))
        (fun j hj => hnarrow j (mem_cons_of_mem i hj)) (fun j hj => hsize j (mem_cons_of_mem i hj))
      refine ⟨a', hr, hl, hmin, hle, ?_⟩
      rintro ⟨j, hj, hblocks⟩
      rcases mem_cons.mp hj with rfl | hj
      · exact absurd hne hblocks
      · exact hlt ⟨j, hj, hblocks⟩
    · obtain ⟨hpos, hle⟩ := hsize i mem_cons_self hne
      have hsome : (a.cleanPools i).length + (a.dirtyPools i).length > 0 := by
        have hlen := List.length_pos_of_ne_nil hne
        rwa [processBlocks, length_append] at hlen
      rw [if_pos hsome]
      obtain ⟨a1, h1, heq, hl1, hbusy⟩ :=
        release_progress pol h hi hfree (hnarrow i mem_cons_self) hpos hle
      -- what the later processes have is as before
      have hsame : ∀ j ∈ is, a1.cleanPools j = a.cleanPools j ∧ a1.dirtyPools j = a.dirtyPools j := by
        intro j hj
        have hji : j ≠ i := fun he => hfresh (he ▸ hj)
        rw [heq]
        exact ⟨update_of_ne hji _ _, update_of_ne hji _ _⟩
      have htotal : a1.totalPageCount = a.totalPageCount := by rw [heq]; rfl
      have hcount : a1.processCount = a.processCount := by rw [heq]; rfl
      have hmin : a1.minFreePages = a.minFreePages := by rw [heq]; rfl
      obtain ⟨a', hr, hl, hmin', hle', -⟩ := ih hl1 (by omega) hrest
        (fun j hj => by rw [hcount]; exact his j (mem_cons_of_mem i hj))
        (fun j hj => by rw [(hsame j hj).1]; exact hnarrow j (mem_cons_of_mem i hj))
        (fun j hj => by
          simp only [processBlocks, releaseSize, (hsame j hj).1, (hsame j hj).2, htotal]
          exact hsize j (mem_cons_of_mem i hj))
      refine ⟨a', ?_, hl, hmin'.trans hmin, by omega, fun _ => by omega⟩
      rw [h1]
      exact hr

theorem Reserve.evict_progress (h : a.Reserve) (hr : a.shouldReclaim) (hshare : pol.share = exactShare)
    (hnarrow : a.Narrow) :
    ∃ a', a.evict pol = some a' ∧ a'.Reserve ∧ a'.totalPageCount = a.totalPageCount ∧
      a'.processCount = a.processCount ∧ a'.shouldReclaim = false := by
  have hone := shouldReclaim_iff.mp hr
  have hleast := h.least
  have hmem : ∀ i ∈ List.range a.processCount, i < a.processCount := fun i hi => mem_range.mp hi
  obtain ⟨a', hloop, hl, hmin, hle, hlt⟩ := equalEvictLoop_progress pol (r := a.reclaimPages) h.toLedger h.free
    nodup_range hmem (fun i hi => hnarrow hr i (hmem i hi))
    (fun i hi hne => h.releaseSize_bounds hr hshare (hmem i hi) hne)
  obtain ⟨htotal, hcount⟩ := (equalEvictLoop_keeps_ledger hloop).1
  -- some process has blocks: all but one are taken
  have hheld : ∃ i ∈ List.range a.processCount, a.processBlocks i ≠ [] := by
    have hpos : 0 < a.pooledBlocks.length := by
      rw [← h.busy]
      omega
    obtain ⟨b, hb⟩ := List.exists_mem_of_length_pos hpos
    obtain ⟨i, hi, hbi⟩ := mem_gather.mp hb
    exact ⟨i, mem_range.mpr hi, List.ne_nil_of_mem hbi⟩
  have hfreed := hlt hheld
  refine ⟨a', ?_, ⟨hl, by omega, ?_, ?_, by omega⟩, htotal, hcount, ?_⟩
  · rw [evict, assertThat_true hr]
    exact hloop
  · rw [hmin, htotal]
    exact h.minFree_le
  · rw [hmin]
    exact h.minFree_small
  · apply eq_false_iff.mpr
    intro hr'
    have hone' := shouldReclaim_iff.mp hr'
    omega

/-- With more than one block free, `allocate_one_page` finds one and leaves one. -/
theorem Reserve.allocate_progress (h : a.Reserve) (hr : a.shouldReclaim = false) {p : Nat} (hp : p < a.processCount) :
    ∃ b a', a.allocateOnePage p = some (b, a') ∧ Allocated p b a a' ∧ a'.Reserve := by
  have hnot : ¬ a.totalPageCount - a.busyPages = 1 := fun hone => by
    rw [shouldReclaim_iff.mpr hone] at hr
    cases hr
  have hsum := h.total
  have hfree := h.free
  have hne : a.freeBlocks ≠ [] := by
    apply List.ne_nil_of_length_pos
    omega
  obtain ⟨⟨b, a'⟩, ha⟩ := isSome_iff_exists.mp (allocateOnePage_isSome hp hne)
  have hal := allocateOnePage_allocated ha
  have htotal := hal.totalPageCount
  have hmin := hal.minFreePages
  have hbusy := hal.busy
  have hle := h.minFree_le
  have hsmall := h.minFree_small
  exact ⟨b, a', ha, hal, (hal.moved h.toLedger).ledger hp h.toLedger, by omega, by omega, by omega, by omega⟩

theorem Reserve.convertToDirty (h : a.Reserve) {p : Nat} (hp : p < a.processCount) (b : Nat) :
    (a.convertToDirty p b).Reserve := by
  have hl := convertToDirty_ledger h.toLedger hp b
  by_cases hb : b ∈ a.cleanPools p
  · rw [FairAllocator.convertToDirty, if_pos hb] at hl ⊢
    exact { h with toLedger := hl }
  · rwa [FairAllocator.convertToDirty, if_neg hb]

theorem reserve_new (z : Zinfo) (processNum : Nat) {memorySize : Nat} (hsize : 2^18 ≤ memorySize)
    (hpages : 2 ≤ memorySize >>> z.pageShift) : (new z processNum memorySize).Reserve := by
  obtain ⟨hle, hsmall⟩ := minFreePages_new_le z processNum hsize
  exact ⟨ledger_new z processNum memorySize, hpages, hle, hsmall, Nat.lt_of_lt_of_le Nat.two_pos hpages⟩

end Shma.FairAllocator
