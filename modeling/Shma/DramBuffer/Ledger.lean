import Mathlib.Data.List.Nodup
import Shma.DramBuffer.Pools
import Shma.Lib.Lists
import Shma.Lib.Run

/-!
# The pools as a ledger of blocks

Every block of the DRAM buffer is in exactly one pool and `busy_pages` counts those
held by processes, whatever sequence of calls was made. The counter of one process
is an `int`: it is the number of blocks the process holds as long as there are
fewer than `2^31` of them.
-/
namespace Shma.FairAllocator

open Lib Lib.Run Lib.Family

inductive PoolOp where
  | allocateOnePage (processId : Nat)
  | convertToDirty (processId blockId : Nat)
  | release (processId evictSize : Nat)
  | evict
  deriving DecidableEq, Repr

def step (pol : PoolPolicy) (a : FairAllocator) : PoolOp → Option FairAllocator
  | .allocateOnePage p => (a.allocateOnePage p).map (·.2)
  | .convertToDirty p b => if p < a.processCount then some (a.convertToDirty p b) else none
  | .release p n => if p < a.processCount then a.release pol p n else none
  | .evict => a.evict pol

def processBlocks (a : FairAllocator) (i : Nat) : List Nat := a.cleanPools i ++ a.dirtyPools i

def pooledBlocks (a : FairAllocator) : List Nat := gather a.processCount a.processBlocks

/-- The pools put together are the block numbers, each once, and the counters are
the sizes of the pools. -/
structure Partitioned (a : FairAllocator) : Prop where
  perm : (a.freeBlocks ++ a.pooledBlocks).Perm (List.range a.totalPageCount)
  busy : a.busyPages = ((List.range a.processCount).map fun i =>
    (a.cleanPools i).length + (a.dirtyPools i).length).sum
  procBusy : ∀ i < a.processCount, a.procBusyPages i = (a.cleanPools i).length + (a.dirtyPools i).length

/-- What holds whatever the sizes: the counter of a process is right up to its
width. -/
structure Ledger (a : FairAllocator) : Prop where
  perm : (a.freeBlocks ++ a.pooledBlocks).Perm (List.range a.totalPageCount)
  busy : a.busyPages = a.pooledBlocks.length
  procBusy : ∀ i < a.processCount, a.procBusyPages i = Int.bmod (a.processBlocks i).length (2^32)

variable {pol : PoolPolicy} {a a' : FairAllocator}

theorem Ledger.nodup (h : a.Ledger) : (a.freeBlocks ++ a.pooledBlocks).Nodup :=
  h.perm.nodup_iff.mpr nodup_range

theorem Ledger.total (h : a.Ledger) : a.freeBlocks.length + a.busyPages = a.totalPageCount := by
  have hlen := h.perm.length_eq
  rwa [length_append, length_range, ← h.busy] at hlen

variable {b i : Nat}

theorem Ledger.notMem_of_free (h : a.Ledger) (hb : b ∈ a.freeBlocks) (hi : i < a.processCount) :
    b ∉ a.processBlocks i := by
  intro hmem
  exact (List.nodup_append'.mp h.nodup).2.2 hb (mem_gather.mpr ⟨i, hi, hmem⟩)

theorem Ledger.nodup_processBlocks (h : a.Ledger) (hi : i < a.processCount) : (a.processBlocks i).Nodup := by
  have hpool : a.pooledBlocks.Nodup := (List.nodup_append'.mp h.nodup).2.1
  have hfront := (gather_perm hi a.processBlocks).nodup_iff.mp hpool
  exact (List.nodup_append'.mp hfront).1

theorem Ledger.length_processBlocks_le (h : a.Ledger) (hi : i < a.processCount) :
    (a.processBlocks i).length ≤ a.busyPages := by
  rw [h.busy]
  exact length_le_gather hi a.processBlocks

/-- Blocks have moved between the global pools and those of one process. -/
structure Moved (i : Nat) (a a' : FairAllocator) : Prop where
  totalPageCount : a'.totalPageCount = a.totalPageCount
  processCount : a'.processCount = a.processCount
  minFreePages : a'.minFreePages = a.minFreePages
  other : ∀ j ≠ i, a'.processBlocks j = a.processBlocks j ∧ a'.procBusyPages j = a.procBusyPages j
  perm : (a'.freeBlocks ++ a'.processBlocks i).Perm (a.freeBlocks ++ a.processBlocks i)
  busy : a'.busyPages + (a.processBlocks i).length = a.busyPages + (a'.processBlocks i).length
  procBusy : a'.procBusyPages i =
    Int.bmod (a.procBusyPages i + ((a'.processBlocks i).length - (a.processBlocks i).length)) (2^32)

theorem Moved.ledger (hm : Moved i a a') (hi : i < a.processCount) (h : a.Ledger) : a'.Ledger := by
  have hother : ∀ j ≠ i, a'.processBlocks j = a.processBlocks j := fun j hj => (hm.other j hj).1
  obtain ⟨rest, hold, hnew⟩ := gather_perm_of_ne hi hother
  have hlen := length_gather_of_ne hi hother
  have hpool : a'.pooledBlocks = gather a.processCount a'.processBlocks := by rw [pooledBlocks, hm.processCount]
  constructor
  · rw [hm.totalPageCount, hpool]
    have hsame : (a'.freeBlocks ++ (a'.processBlocks i ++ rest)).Perm (a.freeBlocks ++ (a.processBlocks i ++ rest)) := by
      simpa only [append_assoc] using hm.perm.append_right rest
    have hback : (a.freeBlocks ++ (a.processBlocks i ++ rest)).Perm (a.freeBlocks ++ a.pooledBlocks) :=
      hold.symm.append_left _
    exact ((hnew.append_left _).trans (hsame.trans hback)).trans h.perm
  · have hbusy := h.busy
    have hmove := hm.busy
    rw [pooledBlocks] at hbusy
    rw [hpool]
    omega
  · intro j hj
    rw [hm.processCount] at hj
    by_cases hji : j = i
    · subst hji
      rw [hm.procBusy, h.procBusy j hj, Int.bmod_add_bmod]
      congr 1
      omega
    · rw [(hm.other j hji).2, (hm.other j hji).1]
      exact h.procBusy j hj

/-! ## The operations -/

variable {processId evictSize : Nat}

theorem released_moved (pol : PoolPolicy) (hp : processId < a.processCount)
    (h : a.Ledger) (hsize : evictSize ≤ (a.cleanPools processId).length % 2^32 + (a.dirtyPools processId).length) :
    Moved processId a (a.released pol processId evictSize) ∧
      (a.released pol processId evictSize).busyPages + evictSize = a.busyPages := by
  obtain ⟨hclean, hdirty⟩ := cleanEvictSize_le hsize
  obtain ⟨cs, hc, hclen, hcperm⟩ := releaseLoop_spec pol (a.cleanPools processId) a.globalCleanPool hclean
  obtain ⟨ds, hd, hdlen, hdperm⟩ := releaseLoop_spec pol (a.dirtyPools processId) a.globalDirtyPool hdirty
  have hcsum := hcperm.length_eq
  have hdsum := hdperm.length_eq
  rw [length_append] at hcsum hdsum
  have hle : a.cleanEvictSize processId evictSize ≤ evictSize := by
    simp only [cleanEvictSize]
    split <;> omega
  have hhold : (a.processBlocks processId).length ≤ a.busyPages := h.length_processBlocks_le hp
  have hlen : ((a.released pol processId evictSize).processBlocks processId).length + evictSize =
      (a.processBlocks processId).length := by
    simp only [released, processBlocks, update_self, length_append]
    omega
  have hbusy : (a.released pol processId evictSize).busyPages = a.busyPages - evictSize := rfl
  refine ⟨⟨rfl, rfl, rfl, fun j hj => ?_, ?_, by omega, ?_⟩, by omega⟩
  · simp [released, processBlocks, update_of_ne hj]
  · simp only [released, processBlocks, freeBlocks, update_self, hc, hd]
    refine (perm_interchange _ _ _ _).trans (.trans (.append ?_ ?_) (perm_interchange _ _ _ _))
    · rw [append_assoc]
      exact hcperm.append_left _
    · rw [append_assoc]
      exact hdperm.append_left _
  · have hcounter : (a.released pol processId evictSize).procBusyPages processId =
        Int.bmod (a.procBusyPages processId - evictSize) (2^32) := update_self _ _ _
    rw [hcounter]
    congr 1
    omega

theorem release_ledger (h : a.Ledger) (hp : processId < a.processCount)
    (hr : a.release pol processId evictSize = some a') : a'.Ledger := by
  obtain ⟨hsize, -, rfl⟩ := release_eq_some.mp hr
  exact (released_moved pol hp h hsize).1.ledger hp h

theorem equalEvictLoop_keeps_ledger {reclaimPages : Int} {is : List Nat}
    (hr : equalEvictLoop pol reclaimPages is a = some a') :
    (a'.totalPageCount = a.totalPageCount ∧ a'.processCount = a.processCount) ∧
      ((∀ i ∈ is, i < a.processCount) → a.Ledger → a'.Ledger) := by
  refine equalEvictLoop_keeps (R := fun a a' =>
    (a'.totalPageCount = a.totalPageCount ∧ a'.processCount = a.processCount) ∧
      ((∀ i ∈ is, i < a.processCount) → a.Ledger → a'.Ledger)) (fun _ => ⟨⟨rfl, rfl⟩, fun _ h => h⟩) ?_ ?_ hr
  · rintro a b c ⟨⟨ht, hp⟩, hl⟩ ⟨⟨ht', hp'⟩, hl'⟩
    exact ⟨⟨ht'.trans ht, hp'.trans hp⟩, fun his h => hl' (hp ▸ his) (hl his h)⟩
  · intro a a' i n hi h1
    refine ⟨?_, fun his h => release_ledger h (his i hi) h1⟩
    obtain ⟨-, -, rfl⟩ := release_eq_some.mp h1
    exact ⟨rfl, rfl⟩

theorem evict_ledger (h : a.Ledger) (hr : a.evict pol = some a') : a'.Ledger := by
  obtain ⟨_, -, hr⟩ := bind_eq_some_iff.mp hr
  exact (equalEvictLoop_keeps_ledger hr).2 (fun i hi => mem_range.mp hi) h

theorem allocateOnePage_isSome (hp : processId < a.processCount) (hfree : a.freeBlocks ≠ []) :
    (a.allocateOnePage processId).isSome := by
  rw [allocateOnePage, if_pos hp]
  cases hclean : a.globalCleanPool with
  | cons b rest => rfl
  | nil =>
    cases hdirty : a.globalDirtyPool with
    | cons b rest => rfl
    | nil => exact absurd (by rw [freeBlocks, hclean, hdirty]; rfl) hfree

theorem Allocated.processBlocks_eq (hal : Allocated processId b a a') (h : a.Ledger) :
    a'.processBlocks processId = b :: a.processBlocks processId := by
  have hb : b ∉ a.cleanPools processId := fun hmem =>
    h.notMem_of_free (by rw [hal.free]; exact mem_cons_self) hal.proc_lt (mem_append_left _ hmem)
  rw [processBlocks, hal.clean, hal.dirty, update_self, List.insert_of_not_mem hb]
  rfl

theorem Allocated.moved (hal : Allocated processId b a a') (h : a.Ledger) : Moved processId a a' := by
  have hblocks := hal.processBlocks_eq h
  refine ⟨hal.totalPageCount, hal.processCount, hal.minFreePages, fun j hj => ?_, ?_, ?_, ?_⟩
  · rw [processBlocks, hal.clean, hal.dirty, hal.procBusy, update_of_ne hj,
      update_of_ne hj]
    exact ⟨rfl, rfl⟩
  · rw [hblocks, hal.free]
    exact perm_middle
  · rw [hblocks, hal.busy, length_cons]
    omega
  · rw [hblocks, hal.procBusy, update_self, length_cons]
    congr 1
    omega

theorem convertToDirty_moved (hp : processId < a.processCount) (h : a.Ledger)
    (hb : b ∈ a.cleanPools processId) : Moved processId a (a.convertToDirty processId b) := by
  have hnodup := h.nodup_processBlocks hp
  have hnew : b ∉ a.dirtyPools processId := fun hd => (List.nodup_append'.mp hnodup).2.2 hb hd
  have hblocks : ((a.convertToDirty processId b).processBlocks processId).Perm (a.processBlocks processId) := by
    rw [convertToDirty, if_pos hb, processBlocks]
    simp only [update_self, List.insert_of_not_mem hnew]
    apply perm_middle.trans
    exact (List.perm_cons_erase hb).symm.append_right _
  have hlen := hblocks.length_eq
  have hcounter : (a.convertToDirty processId b).procBusyPages = a.procBusyPages := by rw [convertToDirty, if_pos hb]
  have hbusy : (a.convertToDirty processId b).busyPages = a.busyPages := by rw [convertToDirty, if_pos hb]
  have hfree : (a.convertToDirty processId b).freeBlocks = a.freeBlocks := by rw [convertToDirty, if_pos hb]; rfl
  refine ⟨?_, ?_, ?_, fun j hj => ⟨?_, by rw [hcounter]⟩, ?_, by omega, ?_⟩
  · rw [convertToDirty, if_pos hb]
  · rw [convertToDirty, if_pos hb]
  · rw [convertToDirty, if_pos hb]
  · rw [convertToDirty, if_pos hb]
    simp [processBlocks, update_of_ne hj]
  · rw [hfree]
    exact hblocks.append_left _
  · rw [hcounter, hlen, sub_self, add_zero, h.procBusy processId hp, Int.bmod_bmod]

theorem convertToDirty_ledger (h : a.Ledger) (hp : processId < a.processCount) (b : Nat) :
    (a.convertToDirty processId b).Ledger := by
  by_cases hb : b ∈ a.cleanPools processId
  · exact (convertToDirty_moved hp h hb).ledger hp h
  · rwa [convertToDirty, if_neg hb]

theorem ledger_new (z : Zinfo) (processNum : Nat) (memorySize : Address) : (new z processNum memorySize).Ledger := by
  have hpool : (new z processNum memorySize).pooledBlocks = [] := by
    simp [pooledBlocks, gather, processBlocks, new]
  constructor
  · rw [hpool, freeBlocks]
    simp [new]
  · rw [hpool]
    rfl
  · exact fun i _ => Int.zero_bmod.symm

variable {op : PoolOp}

theorem step_ledger (h : a.Ledger) (hr : a.step pol op = some a') : a'.Ledger := by
  cases op with
  | allocateOnePage p =>
    obtain ⟨⟨b, a1⟩, h1, rfl⟩ := map_eq_some_iff.mp hr
    have hal := allocateOnePage_allocated h1
    exact (hal.moved h).ledger hal.proc_lt h
  | convertToDirty p b =>
    rw [step] at hr
    split at hr
    · next hp =>
      cases hr
      exact convertToDirty_ledger h hp b
    · cases hr
  | release p n =>
    rw [step] at hr
    split at hr
    · next hp => exact release_ledger h hp hr
    · cases hr
  | evict => exact evict_ledger h hr

theorem step_sizes (hr : a.step pol op = some a') :
    a'.totalPageCount = a.totalPageCount ∧ a'.processCount = a.processCount := by
  cases op with
  | allocateOnePage p =>
    obtain ⟨⟨b, a1⟩, h1, rfl⟩ := map_eq_some_iff.mp hr
    have hal := allocateOnePage_allocated h1
    exact ⟨hal.totalPageCount, hal.processCount⟩
  | convertToDirty p b =>
    rw [step] at hr
    split at hr
    · cases hr
      unfold convertToDirty
      split <;> exact ⟨rfl, rfl⟩
    · cases hr
  | release p n =>
    rw [step] at hr
    split at hr
    · obtain ⟨-, -, rfl⟩ := release_eq_some.mp hr
      exact ⟨rfl, rfl⟩
    · cases hr
  | evict =>
    obtain ⟨_, -, hr⟩ := bind_eq_some_iff.mp hr
    exact (equalEvictLoop_keeps_ledger hr).1

/-! ## Runs -/

variable {processNum : Nat}

theorem run_ledger {z : Zinfo} {memorySize : Address} {ops : List PoolOp}
    (hr : run (step pol) (new z processNum memorySize) ops = some a) :
    a.Ledger ∧ a.totalPageCount = memorySize >>> z.pageShift ∧ a.processCount = processNum := by
  have hstep : ∀ s op t, (s.Ledger ∧ s.totalPageCount = memorySize >>> z.pageShift ∧ s.processCount = processNum) →
      step pol s op = some t →
      (t.Ledger ∧ t.totalPageCount = memorySize >>> z.pageShift ∧ t.processCount = processNum) := by
    intro s op t hs ht
    obtain ⟨htotal, hcount⟩ := step_sizes ht
    exact ⟨step_ledger hs.1 ht, htotal.trans hs.2.1, hcount.trans hs.2.2⟩
  exact run_invariant_of_step (step pol) hstep ops ⟨ledger_new z processNum memorySize, rfl, rfl⟩ hr

/-- The counters are right exactly if no process has too many blocks for an `int`. -/
theorem Ledger.partitioned_iff (h : a.Ledger) :
    a.Partitioned ↔ ∀ i < a.processCount, (a.processBlocks i).length < 2^31 := by
  have hlen : ∀ i, (((a.cleanPools i).length + (a.dirtyPools i).length : Nat) : Int) = (a.processBlocks i).length :=
    fun i => by rw [processBlocks, length_append]
  constructor
  · intro hp i hi
    rw [← bmod_natCast_eq_self_iff, ← h.procBusy i hi, hp.procBusy i hi, ← hlen]
    rfl
  · intro hsize
    refine ⟨h.perm, ?_, fun i hi => ?_⟩
    · rw [h.busy, pooledBlocks, gather, List.length_flatMap]
      simp only [processBlocks, length_append]
    · rw [h.procBusy i hi, (bmod_natCast_eq_self_iff _).mpr (hsize i hi), ← hlen]
      rfl

theorem run_allocations (pol : PoolPolicy) (z : Zinfo) (hp : 0 < processNum)
    (memorySize : Address) {k : Nat} (hk : k ≤ memorySize >>> z.pageShift) :
    ∃ a, run (step pol) (new z processNum memorySize) (List.replicate k (.allocateOnePage 0)) = some a ∧
      (a.processBlocks 0).length = k ∧ a.busyPages = k := by
  induction k with
  | zero => exact ⟨new z processNum memorySize, rfl, rfl, rfl⟩
  | succ k ih =>
    obtain ⟨a, hr, hlen, hbusy⟩ := ih (by omega)
    obtain ⟨hledger, htotal, hcount⟩ := run_ledger hr
    have hfree : a.freeBlocks ≠ [] := by
      have hsum := hledger.total
      apply List.ne_nil_of_length_pos
      omega
    obtain ⟨⟨b, a'⟩, ha⟩ := isSome_iff_exists.mp (allocateOnePage_isSome (hcount ▸ hp) hfree)
    have hal := allocateOnePage_allocated ha
    refine ⟨a', ?_, ?_, by rw [hal.busy, hbusy]⟩
    · rw [List.replicate_succ', run_append, hr, bind_some, run_cons, step, ha]
      rfl
    · rw [hal.processBlocks_eq hledger, length_cons, hlen]

/-- For a number of processes and a memory size, every sequence of calls leaves the
pools partitioned and the counters right exactly if there is no process or there
are fewer than `2^31` blocks. -/
theorem partitioned_iff_countable (pol : PoolPolicy) (z : Zinfo) (processNum : Nat) (memorySize : Address) :
    (∀ ops a, run (step pol) (new z processNum memorySize) ops = some a → a.Partitioned) ↔
      processNum = 0 ∨ memorySize >>> z.pageShift < 2^31 := by
  constructor
  · intro hall
    by_contra hno
    obtain ⟨hp, hwide⟩ := not_or.mp hno
    obtain ⟨a, hr, hlen, -⟩ := run_allocations pol z (Nat.pos_of_ne_zero hp) memorySize (Nat.le_of_not_lt hwide)
    obtain ⟨hledger, -, hcount⟩ := run_ledger hr
    have hsmall := hledger.partitioned_iff.mp (hall _ a hr) 0 (by omega)
    omega
  · intro hcond ops a hr
    obtain ⟨hledger, htotal, hcount⟩ := run_ledger hr
    apply hledger.partitioned_iff.mpr
    intro i hi
    have hheld := hledger.length_processBlocks_le hi
    have hsum := hledger.total
    rcases hcond with hnone | hfew
    · omega
    · have htotal_lt : a.totalPageCount < 2^31 := htotal ▸ hfew
      omega

/-- With 2^31 pages of 4 KB, the counter of a process that takes them all is
negative. -/
theorem counter_of_all_blocks_wraps :
    ¬ ∀ ops a, run (step .exact) (new ⟨12, 12, 2^44, 1⟩ 1 (2^43)) ops = some a → a.Partitioned := by
  intro hall
  obtain ⟨a, hr, hlen, -⟩ := run_allocations .exact ⟨12, 12, 2^44, 1⟩ Nat.one_pos (2^43) (k := 2^31) (by decide)
  obtain ⟨hledger, -, hcount⟩ := run_ledger hr
  have hsmall := hledger.partitioned_iff.mp (hall _ a hr) 0 (by omega)
  omega

end Shma.FairAllocator
