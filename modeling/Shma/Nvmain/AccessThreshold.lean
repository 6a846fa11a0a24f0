import Mathlib.Algebra.Ring.Rat
import Mathlib.Data.UInt
import Shma.DramBuffer.FairAllocator
import Shma.Lib.Run

/-!
# The threshold of accesses

`adjust_single_process` and `Climbing` of `nvmain_mem_ctrl.cpp`: the threshold of accesses at
which a page of a process is cached in DRAM is adjusted once in each period. While little of the
DRAM buffer is free it is at least doubled, in 32 bits. Otherwise it climbs with the benefit, by
steps that are guarded against going below zero.

Nothing is assumed of the arithmetic of doubles, so a benefit may be infinite or not a number.
-/
namespace Shma

structure DramManager where
  (shouldCherish shouldMoreCherish : Bool)
  deriving DecidableEq, Repr

/-- `BaseDRAMBufferManager`, for a manager that has no answers of its own. -/
def DramManager.base : DramManager := ⟨false, false⟩

/-- The two functions of `FairAllocator`, with `D` for `double`. -/
def FairAllocator.manager (D : Type*) [NatCast D] [OfScientific D] [Mul D] [LE D] [DecidableLE D]
    (a : FairAllocator) : DramManager :=
  let freePages := a.totalPageCount - a.busyPages
  { shouldCherish := (freePages : D) ≤ 0.3 * (a.totalPageCount : D)
    shouldMoreCherish := (freePages : D) ≤ 0.05 * (a.totalPageCount : D) || freePages ≤ a.minFreePages }

namespace Nvmain

open Lib.Run

section Climbing

variable {D : Type*} [Zero D] [Sub D] [LT D] [DecidableLT D] [LE D] [DecidableLE D]

variable (threshold : UInt32)

/-- `Climbing`: the new `threshold`, `previous_benefit` and `last_action`. -/
def climbing (benefit previousBenefit : D) (lastAction : Int) : UInt32 × D × Int :=
  let delta := benefit - previousBenefit
  let (threshold, lastAction) :=
    if benefit < 0 then (threshold + 2, 1)
    else if delta ≥ 0 then
      if lastAction = -1 ∧ threshold > 0 then (threshold - 1, -1)
      else if lastAction = 1 then (threshold + 1, 1)
      else (threshold, lastAction)
    else if delta < 0 then
      if lastAction = 1 ∧ threshold > 0 then (threshold - 1, -1)
      else if lastAction = -1 then (threshold + 1, 1)
      else (threshold, lastAction)
    else (threshold, lastAction)
  (threshold, benefit, lastAction)

def NotBelowZero (threshold threshold' : UInt32) : Prop :=
  ∃ change : Int, -1 ≤ change ∧ change ≤ 2 ∧ 0 ≤ threshold.toNat + change ∧
    (threshold'.toNat : Int) = (threshold.toNat + change) % 2^32

theorem notBelowZero_same : NotBelowZero threshold threshold := by
  have hlt := threshold.toNat_lt
  exact ⟨0, by omega⟩

theorem notBelowZero_add {n : UInt32} (h : n.toNat ≤ 2) (threshold : UInt32) :
    NotBelowZero threshold (threshold + n) := by
  refine ⟨n.toNat, by omega, by omega, by omega, ?_⟩
  rw [UInt32.toNat_add]
  omega

theorem notBelowZero_sub_one {threshold : UInt32} (h : threshold > 0) : NotBelowZero threshold (threshold - 1) := by
  have hpos : 1 ≤ threshold.toNat := UInt32.lt_iff_toNat_lt.mp h
  have hlt := threshold.toNat_lt
  refine ⟨-1, by omega, by omega, by omega, ?_⟩
  have hone : (1 : UInt32) ≤ threshold := UInt32.le_iff_toNat_le.mpr hpos
  rw [UInt32.toNat_sub_of_le _ _ hone, show (1 : UInt32).toNat = 1 from rfl]
  omega

theorem climbing_notBelowZero (benefit previousBenefit : D) (lastAction : Int) :
    NotBelowZero threshold (climbing threshold benefit previousBenefit lastAction).1 := by
  have hone : (1 : UInt32).toNat ≤ 2 := by decide
  have htwo : (2 : UInt32).toNat ≤ 2 := by decide
  rw [climbing]
  split_ifs with hneg hgain hdown hup hloss hturn hback
  · exact notBelowZero_add htwo threshold
  · exact notBelowZero_sub_one hdown.2
  · exact notBelowZero_add hone threshold
  · exact notBelowZero_same threshold
  · exact notBelowZero_sub_one hturn.2
  · exact notBelowZero_add hone threshold
  all_goals exact notBelowZero_same threshold

end Climbing

/-- The members of `NVMainMemory` that the adjustment keeps, and `zinfo->access_threshold`, by
process. -/
structure AccessThresholds (D : Type*) where
  accessThreshold : Nat → UInt32
  lastPeriodHotness : Nat → D
  lastAction : Nat → Int
  previousCaching : Nat

/-- What `adjust_single_process` finds at the end of a period of a process: the accesses to DRAM
pages and the number of pages touched, the manager, whether a page was evicted last, and the cycles
NVMain has spent on caching. The conversion of the weighted average to `unsigned` is `v1`. -/
structure Period where
  (procId periodAccess periodTouch : Nat)
  dramManager : DramManager
  evict : Bool
  cachingCycle : Nat
  v1 : UInt32

namespace AccessThresholds

variable {D : Type*}

/-- As the constructor and `init` leave the members, with the threshold that is configured. -/
def new [Zero D] (threshold : UInt32) : AccessThresholds D where
  accessThreshold := fun _ => threshold
  lastPeriodHotness := fun _ => 0
  lastAction := fun _ => -1
  previousCaching := 0

section Adjust

variable [Zero D] [NatCast D] [Sub D] [Mul D] [Div D] [BEq D] [LT D] [DecidableLT D] [LE D] [DecidableLE D]

variable (s : AccessThresholds D) (p : Period)

def climb (procId : Nat) (benefit : D) : AccessThresholds D :=
  let (threshold, previousBenefit, lastAction) :=
    climbing (s.accessThreshold procId) benefit (s.lastPeriodHotness procId) (s.lastAction procId)
  { s with
    accessThreshold := update s.accessThreshold procId threshold
    lastPeriodHotness := update s.lastPeriodHotness procId previousBenefit
    lastAction := update s.lastAction procId lastAction }

def adjustSingleProcess : AccessThresholds D :=
  let drcAverage : D := (p.periodAccess : D) / (p.periodTouch : D)
  let s :=
    if s.lastPeriodHotness p.procId == 0 then
      { s with lastPeriodHotness := update s.lastPeriodHotness p.procId drcAverage }
    else s
  if p.dramManager.shouldCherish = false then s.climb p.procId drcAverage
  else
    let prefetchBenefit : D := (p.periodAccess : D) * ((15 : Nat) : D) - (s.previousCaching : D)
    let s :=
      if s.previousCaching = 0 then
        { s with lastPeriodHotness := update s.lastPeriodHotness p.procId prefetchBenefit }
      else if prefetchBenefit < 0 ∨ p.dramManager.shouldMoreCherish then
        let v2 := 2 * s.accessThreshold p.procId
        let threshold :=
          if p.evict = false ∧ p.dramManager.shouldMoreCherish = false then min p.v1 v2 else max p.v1 v2
        { s with accessThreshold := update s.accessThreshold p.procId threshold }
      else s.climb p.procId prefetchBenefit
    { s with previousCaching := p.cachingCycle }

def step : Option (AccessThresholds D) := some (s.adjustSingleProcess p)

def Pressed : Prop :=
  p.dramManager.shouldCherish = true ∧ p.dramManager.shouldMoreCherish = true ∧ s.previousCaching ≠ 0
  deriving Decidable

def NotLowered : Prop :=
  ∀ procId, s.accessThreshold procId ≤ (s.adjustSingleProcess p).accessThreshold procId

variable {s : AccessThresholds D} {p : Period}

theorem accessThreshold_of_pressed (h : s.Pressed p) :
    (s.adjustSingleProcess p).accessThreshold =
      update s.accessThreshold p.procId (max p.v1 (2 * s.accessThreshold p.procId)) := by
  obtain ⟨hcherish, hmore, hcaching⟩ := h
  by_cases hhot : (s.lastPeriodHotness p.procId == 0) = true
  all_goals simp [adjustSingleProcess, hcherish, hmore, hcaching, hhot]

theorem le_max_double_iff (v threshold : UInt32) :
    threshold ≤ max v (2 * threshold) ↔ threshold < 2^31 ∨ threshold ≤ v := by
  have hmax : max v (2 * threshold) = if v ≤ 2 * threshold then 2 * threshold else v := rfl
  have hdouble : (2 * threshold).toNat = 2 * threshold.toNat % 2^32 := UInt32.toNat_mul 2 threshold
  have hhalf : ((2 : UInt32)^31).toNat = 2^31 := rfl
  rw [hmax]
  split <;> rename_i hle <;>
    rw [UInt32.le_iff_toNat_le] at hle <;>
    simp only [UInt32.le_iff_toNat_le, UInt32.lt_iff_toNat_lt, hdouble, hhalf] <;> omega

theorem notLowered_iff (h : s.Pressed p) :
    s.NotLowered p ↔ s.accessThreshold p.procId < 2^31 ∨ s.accessThreshold p.procId ≤ p.v1 := by
  rw [← le_max_double_iff, NotLowered, accessThreshold_of_pressed h]
  constructor
  · intro hall
    simpa using hall p.procId
  · intro hle procId
    by_cases hproc : procId = p.procId
    · rwa [hproc, update_self]
    · rw [update_of_ne hproc]
      exact UInt32.le_refl _

/-- Under pressure the threshold of no process goes down in any step exactly if each adjustment
finds a threshold below `2^31` or one that the average reaches. Climbing does not go below zero. -/
theorem never_lowered_iff (s : AccessThresholds D) (ps : List Period) (hpressed : AllSteps step Pressed s ps) :
    (AllSteps step NotLowered s ps ↔
      AllSteps step (fun s p => s.accessThreshold p.procId < 2^31 ∨ s.accessThreshold p.procId ≤ p.v1) s ps) ∧
    ∀ threshold (benefit previousBenefit : D) lastAction,
      NotBelowZero threshold (climbing threshold benefit previousBenefit lastAction).1 := by
  exact ⟨AllSteps.congr_of step (fun s p => notLowered_iff) ps hpressed, climbing_notBelowZero⟩

end Adjust

def starved : Period where
  procId := 0
  periodAccess := 0
  periodTouch := 0
  dramManager := FairAllocator.manager ℚ
    { processCount := 1, totalPageCount := 100, busyPages := 100, minFreePages := 0, procBusyPages := fun _ => 100
      cleanPools := fun _ => List.range 100, dirtyPools := fun _ => [], globalCleanPool := [], globalDirtyPool := []
      bufferArray := fun _ => .new }
  evict := false
  cachingCycle := 1
  v1 := 0

def afterOne : AccessThresholds ℚ := (new 10).adjustSingleProcess starved

/-- Twenty-eight more. -/
theorem never_lowered_iff_starved :
    AllSteps step Pressed afterOne (List.replicate 28 starved) ∧
      AllSteps step NotLowered afterOne (List.replicate 28 starved) := by
  have hpressed : AllSteps step Pressed afterOne (List.replicate 28 starved) := by decide +kernel
  exact ⟨hpressed, (never_lowered_iff afterOne _ hpressed).1.mpr (by decide +kernel)⟩

/-- The twenty-ninth lowers the threshold. -/
theorem lowered_when_starved :
    AllSteps step Pressed afterOne (List.replicate 29 starved) ∧
      ∃ s, run step afterOne (List.replicate 28 starved) = some s ∧ s.accessThreshold 0 = 2684354560 ∧
        (s.adjustSingleProcess starved).accessThreshold 0 = 1073741824 := by
  decide +kernel

end AccessThresholds

end Nvmain

end Shma
