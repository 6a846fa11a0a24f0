import Shma.DramBuffer.Pressure
import Shma.Walker.Boot

/-!
# DRAM allocation under pressure

Runs of `allocate_page`, which reclaims blocks when one is left, mixed with
`convert_to_dirty`. `Release` reads the size of a clean pool into an `unsigned`, so
the runs are those in which no clean pool has `2^32` blocks when a reclaim is due.
-/
namespace Shma.Walker

open Lib.Run FairAllocator
open FairAllocator (new)

inductive BufferOp where
  | allocatePage (processId : Nat)
  | convertToDirty (processId blockId : Nat)
  deriving DecidableEq, Repr

def BufferOp.proc : BufferOp → Nat
  | .allocatePage p => p
  | .convertToDirty p _ => p

variable (cfg : Config) (a : FairAllocator)

def bufferStep : BufferOp → Option FairAllocator
  | .allocatePage p => (System.allocatePage cfg a p).map (·.2)
  | .convertToDirty p b => some (a.convertToDirty p b)

/-- Whatever is called next succeeds: a reclaim that is due asks no process for more
than it has, ends, and leaves none due, and every process gets a block. -/
structure Serves : Prop where
  fits : a.shouldReclaim → ∀ i < a.processCount, a.processBlocks i ≠ [] →
    a.releaseSize cfg.pools i a.reclaimPages ≤ (a.processBlocks i).length
  evicts : a.shouldReclaim → ∃ a', a.evict cfg.pools = some a' ∧ a'.shouldReclaim = false
  allocates : ∀ p < a.processCount, ∃ b a', System.allocatePage cfg a p = some (b, a')

section Steps

variable {cfg : Config} {a : FairAllocator}

variable (hshare : cfg.pools.share = exactShare)
include hshare

section

variable (h : a.Reserve) (hnarrow : a.Narrow)
include h hnarrow

theorem allocatePage_progress {p : Nat} (hp : p < a.processCount) :
    ∃ b a', System.allocatePage cfg a p = some (b, a') ∧ a'.Reserve ∧
      a'.totalPageCount = a.totalPageCount ∧ a'.processCount = a.processCount := by
  by_cases hr : a.shouldReclaim
  · obtain ⟨a1, hevict, h1, htotal, hcount, hno⟩ := h.evict_progress hr hshare hnarrow
    obtain ⟨b, a', ha, hal, h'⟩ := h1.allocate_progress hno (hcount ▸ hp)
    refine ⟨b, a', ?_, h', hal.totalPageCount.trans htotal, hal.processCount.trans hcount⟩
    rw [System.allocatePage, if_pos hr, hevict]
    exact ha
  · obtain ⟨b, a', ha, hal, h'⟩ := h.allocate_progress (eq_false_iff.mpr hr) hp
    refine ⟨b, a', ?_, h', hal.totalPageCount, hal.processCount⟩
    rw [System.allocatePage, if_neg hr]
    exact ha

theorem step_progress {op : BufferOp} (hp : op.proc < a.processCount) :
    ∃ a', bufferStep cfg a op = some a' ∧ a'.Reserve ∧
      a'.totalPageCount = a.totalPageCount ∧ a'.processCount = a.processCount := by
  cases op with
  | allocatePage p =>
    have hlt : p < a.processCount := hp
    obtain ⟨b, a', ha, h', hcount⟩ := allocatePage_progress hshare h hnarrow hlt
    exact ⟨a', by rw [bufferStep, ha]; rfl, h', hcount⟩
  | convertToDirty p b =>
    refine ⟨_, rfl, h.convertToDirty hp b, ?_⟩
    unfold FairAllocator.convertToDirty
    split <;> exact ⟨rfl, rfl⟩

theorem serves_of_reserve : Serves cfg a where
  fits hr i hi hne := (h.releaseSize_bounds hr hshare hi hne).2
  evicts hr := by
    obtain ⟨a', hevict, -, -, -, hno⟩ := h.evict_progress hr hshare hnarrow
    exact ⟨a', hevict, hno⟩
  allocates p hp := by
    obtain ⟨b, a', ha, -⟩ := allocatePage_progress hshare h hnarrow hp
    exact ⟨b, a', ha⟩

end

end Steps

/-- The process numbers of the calls are those of the machine, and no clean pool is too
large when a reclaim is due. -/
def Bounded (op : BufferOp) : Prop := op.proc < a.processCount ∧ a.Narrow

/-- In a buffer of at least 2 pages and `2^18` bytes, with exact shares, every sequence
of calls whose steps find no clean pool of `2^32` blocks when a reclaim is due can be
run, and the state it ends in serves the next call. -/
theorem run_serves (cfg : Config) (hshare : cfg.pools.share = exactShare) (processNum : Nat) {memorySize : Nat}
    (hsize : 2^18 ≤ memorySize) (hpages : 2 ≤ memorySize >>> cfg.z.pageShift) {ops : List BufferOp}
    (hok : AllSteps (bufferStep cfg) Bounded (new cfg.z processNum memorySize) ops) :
    ∃ a, run (bufferStep cfg) (new cfg.z processNum memorySize) ops = some a ∧
      (a.Narrow → Serves cfg a) := by
  have hstep : ∀ a op, Reserve a → Bounded a op → ∃ a', bufferStep cfg a op = some a' ∧ a'.Reserve := by
    intro a op h hb
    obtain ⟨a', ha, h', -⟩ := step_progress hshare h hb.2 hb.1
    exact ⟨a', ha, h'⟩
  obtain ⟨a, hr, h⟩ := run_isSome _ hstep ops (reserve_new cfg.z processNum hsize hpages) hok
  exact ⟨a, hr, fun hnarrow => serves_of_reserve hshare h hnarrow⟩

theorem bounded_of_small (hshare : cfg.pools.share = exactShare) (processNum : Nat)
    {memorySize : Nat} (hsize : 2^18 ≤ memorySize) (hpages : 2 ≤ memorySize >>> cfg.z.pageShift)
    (hsmall : memorySize >>> cfg.z.pageShift ≤ 2^32) {ops : List BufferOp}
    (hops : ∀ op ∈ ops, op.proc < processNum) :
    AllSteps (bufferStep cfg) Bounded (new cfg.z processNum memorySize) ops := by
  let inv := fun a : FairAllocator =>
    a.Reserve ∧ a.totalPageCount ≤ 2^32 ∧ a.processCount = processNum
  have hstep : ∀ a op a', inv a → Bounded a op → bufferStep cfg a op = some a' → inv a' := by
    intro a op a' h hb ha
    obtain ⟨a1, h1, hres, htotal, hcount⟩ := step_progress hshare h.1 hb.2 hb.1
    obtain rfl : a1 = a' := mem_unique h1 ha
    exact ⟨hres, by rw [htotal]; exact h.2.1, hcount.trans h.2.2⟩
  have hbounded : ∀ (a : FairAllocator) (op : BufferOp), inv a → op.proc < processNum → Bounded a op :=
    fun a op h hop => ⟨by rw [h.2.2]; exact hop, h.1.narrow h.2.1⟩
  exact AllSteps.imp _ (fun a op a' h hop => hstep a op a' h (hbounded a op h hop)) hbounded ops
    ⟨reserve_new cfg.z processNum hsize hpages, hsmall, rfl⟩ (AllSteps.of_forall_mem _ ops _ hops)

/-- 64 pages of 4 KB for two processes, of which one takes 200 blocks. -/
theorem run_serves_reclaiming :
    ∃ a, run (bufferStep (sampleConfig .longModeNormal 2 2))
        (new (sampleConfig .longModeNormal 2 2).z 2 (2^18))
        (List.replicate 200 (.allocatePage 0) ++ [.convertToDirty 0 5, .allocatePage 1]) = some a ∧
      (a.Narrow → Serves (sampleConfig .longModeNormal 2 2) a) := by
  refine run_serves (sampleConfig .longModeNormal 2 2) rfl 2 (le_refl (2^18)) (by decide) ?_
  refine bounded_of_small (sampleConfig .longModeNormal 2 2) rfl 2 (le_refl (2^18)) (by decide) (by decide) ?_
  intro op hop
  rcases mem_append.mp hop with hop | hop
  · rw [List.eq_of_mem_replicate hop]
    decide
  · simp only [mem_cons, not_mem_nil, or_false] at hop
    rcases hop with rfl | rfl <;> decide

/-! ## A pool of `2^32` blocks -/

theorem run_fill {processNum : Nat} (hp : 0 < processNum) {memorySize : Nat}
    (hsize : 2^18 ≤ memorySize) (hpages : 2 ≤ memorySize >>> cfg.z.pageShift) {k : Nat}
    (hk : k < memorySize >>> cfg.z.pageShift) :
    ∃ a, run (bufferStep cfg) (new cfg.z processNum memorySize)
        (List.replicate k (.allocatePage 0)) = some a ∧ a.Reserve ∧
      a.totalPageCount = memorySize >>> cfg.z.pageShift ∧ a.processCount = processNum ∧ a.busyPages = k ∧
      (a.cleanPools 0).length = k ∧ a.dirtyPools 0 = [] := by
  induction k with
  | zero => exact ⟨_, rfl, reserve_new cfg.z processNum hsize hpages, rfl, rfl, rfl, rfl, rfl⟩
  | succ k ih =>
    obtain ⟨a, hr, hres, htotal, hcount, hbusy, hclean, hdirty⟩ := ih (by omega)
    have hno : ¬ a.shouldReclaim := fun hr => by
      have hone := shouldReclaim_iff.mp hr
      omega
    obtain ⟨b, a', ha, hal, hres'⟩ := hres.allocate_progress (eq_false_iff.mpr hno) (hcount ▸ hp)
    have hblocks := congrArg List.length (hal.processBlocks_eq hres.toLedger)
    have hdirty' : a'.dirtyPools 0 = [] := by rw [hal.dirty, hdirty]
    refine ⟨a', ?_, hres', hal.totalPageCount.trans htotal, hal.processCount.trans hcount, by rw [hal.busy, hbusy], ?_,
      hdirty'⟩
    · rw [List.replicate_succ', run_append, hr, bind_some, run_cons]
      simp only [bufferStep, System.allocatePage, if_neg hno, bind_some, ha, map_some, run_nil]
    · simp only [processBlocks, hdirty, hdirty', append_nil, length_cons] at hblocks
      omega

/-- With `2^32 + 1` pages of 4 KB and one process, the allocation that has to reclaim
fails: the process has `2^32` clean blocks, which `Release` counts as none. -/
theorem full_clean_pool_fails :
    run (bufferStep (sampleConfig .longModeNormal 1 1))
      (new (sampleConfig .longModeNormal 1 1).z 1 ((2^32 + 1) * 2^12))
      (List.replicate (2^32 + 1) (.allocatePage 0)) = none := by
  have hpages : ((2^32 + 1) * 2^12) >>> (sampleConfig .longModeNormal 1 1).z.pageShift = 2^32 + 1 := by decide
  obtain ⟨a, hr, hres, htotal, hcount, hbusy, hclean, hdirty⟩ :=
    run_fill (sampleConfig .longModeNormal 1 1) Nat.one_pos (show 2^18 ≤ (2^32 + 1) * 2^12 by decide)
      (by rw [hpages]; decide) (k := 2^32) (by rw [hpages]; decide)
  have hreclaim : a.shouldReclaim := shouldReclaim_iff.mpr (by omega)
  have hne : a.processBlocks 0 ≠ [] := by
    apply List.ne_nil_of_length_pos
    rw [processBlocks, length_append]
    omega
  obtain ⟨hpos, -⟩ := hres.releaseSize_bounds hreclaim (show PoolPolicy.exact.share = exactShare from rfl) (by omega) hne
  have hfail : a.release .exact 0 (a.releaseSize .exact 0 a.reclaimPages) = none := by
    apply Option.eq_none_iff_forall_ne_some.mpr
    intro a' hrel
    obtain ⟨hle, -⟩ := release_eq_some.mp hrel
    rw [hdirty, List.length_nil] at hle
    omega
  have hevict : a.evict .exact = none := by
    rw [evict, assertThat_true hreclaim]
    show equalEvictLoop .exact a.reclaimPages (List.range a.processCount) a = none
    rw [hcount, List.range_one, equalEvictLoop, if_pos (by rw [hclean]; omega), hfail]
    rfl
  rw [List.replicate_succ', run_append, hr, bind_some, run_cons]
  have hpools : (sampleConfig .longModeNormal 1 1).pools = .exact := rfl
  simp only [bufferStep, System.allocatePage, if_pos hreclaim, hpools, hevict, Option.bind_none, Option.map_none]

end Shma.Walker
