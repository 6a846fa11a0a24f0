import Shma.Cache.FlushRange
import Shma.Walker.DramFault

/-!
# Page flushes in runs of the machine

Cores load and store through the filter arrays of their caches, flush pages and single lines,
and switch threads. What a flush finds is up to the filter arrays of the core that issues it.
-/
namespace Shma.Cache

open Lib.Run MESIState
open Hierarchy (new)
open TimingCore (clflush contextSwitch)
open FilterCache (entry load store)

variable {t : Topology} {h h' : Hierarchy} {p : Path} {a : Address}

/-- The address of a load or a store at a terminal cache, and what the arrays on the way replace. -/
structure LeafRequest (t : Topology) (lineBits : Nat) where
  leaf : Path
  vAddr : BitVec 64
  curCycle : Nat
  noExcl : Bool
  victim : Path → Nat
  node : t.Node leaf
  terminal : t.isTerminal leaf
  victim_mem : ∀ q, q <:+ leaf → victim q ∈ t.ways q (vAddr.toNat >>> lineBits)

inductive CoreOp (t : Topology) (cfg : FlushConfig) (lineBits : Nat) where
  | load (r : LeafRequest t lineBits)
  | store (r : LeafRequest t lineBits)
  | clflush (core : Core t) (page : Page cfg) (startCycle : Nat)
  | clflushCacheline (core : Core t) (startAddr : Address) (startCycle : Nat)
  | contextSwitch (core : Core t)

def coreStep (t : Topology) (cfg : FlushConfig) (lineBits : Nat) (h : Hierarchy) :
    CoreOp t cfg lineBits → Option Hierarchy
  | .load r =>
    (load t r.victim (parent t r.victim r.leaf) r.leaf lineBits r.vAddr.toNat r.curCycle
      { noExcl := r.noExcl } h).map Prod.snd
  | .store r =>
    (store t r.victim (parent t r.victim r.leaf) r.leaf lineBits r.vAddr.toNat r.curCycle
      { noExcl := r.noExcl } h).map Prod.snd
  | .clflush core page startCycle =>
    (clflush t cfg core page.first startCycle h).map TimingCore.Flushing.caches
  | .clflushCacheline core startAddr startCycle =>
    (TimingCore.clflushCacheline t core startAddr startCycle h).map Prod.snd
  | .contextSwitch core => some (contextSwitch core h)

/-! ### Every step keeps the caches orderly -/

namespace Orderly

theorem new : Orderly t new where
  coherent := .new
  writesReads _ _ _ := .inr rfl

theorem setFilter (ho : Orderly t h) {f : Nat → FilterEntry} (hf : WritesReads f) : Orderly t (h.setFilter p f) where
  coherent := ho.coherent.of_onlyLine (OnlyLine.setFilter 0 h p f) fun q => (ho.coherent.line 0 q).setFilter p f
  writesReads q hq := by
    by_cases hqp : q = p
    · subst q
      rw [setFilter_filterArray_self]
      exact hf
    · rw [setFilter_of_ne h f hqp]
      exact ho.writesReads q hq

theorem contextSwitch (ho : Orderly t h) (core : Core t) : Orderly t (contextSwitch core h) :=
  (ho.setFilter fun _ => .inr rfl).setFilter fun _ => .inr rfl

variable {lineBits : Nat}

theorem replace (ho : Orderly t h) (r : LeafRequest t lineBits) (isLoad : Bool) :
    ∃ c h', FilterCache.replace t r.victim (parent t r.victim r.leaf) r.leaf (r.vAddr.toNat >>> lineBits) isLoad
        r.curCycle { noExcl := r.noExcl } h = some (c, h') ∧ Orderly t h' := by
  obtain ⟨c, h1, hacc, hi, hself, hleaves, -⟩ := @access_terminal t h r.leaf (r.vAddr.toNat >>> lineBits) _ r.victim
    r.curCycle { noExcl := r.noExcl } r.terminal r.node r.victim_mem ho.coherent (gets_or_getx isLoad) rfl
  have ho1 : Orderly t h1 := by
    refine ⟨hi, fun q hq => ?_⟩
    by_cases hqp : q = r.leaf
    · rw [hqp]
      exact hself (ho.writesReads r.leaf r.terminal)
    · exact (hleaves q hq hqp).writesReads (ho.writesReads q hq)
  rw [access_eq] at hacc
  rw [FilterCache.replace, hacc]
  refine ⟨c, _, rfl, ho1.setFilter ?_⟩
  apply (ho1.writesReads r.leaf r.terminal).update
  cases isLoad
  · exact .inr rfl
  · exact .inl rfl

theorem clflushCacheline (ho : Orderly t h) (core : Core t) (startAddr : Address) (startCycle : Nat) :
    ∃ c h', TimingCore.clflushCacheline t core startAddr startCycle h = some (c, h') ∧ Orderly t h' := by
  have hturn : ∀ {h h' : Hierarchy}, Orderly t h → Invalidated t .inv [] startAddr h h' ∨ h' = h → Orderly t h' := by
    rintro h h' ho (hinv | rfl)
    · exact hinv.orderly ho
    · exact ho
  obtain ⟨ri, h1, hri, hcase1⟩ := filterClflush_cacheline ho.coherent core.l1i_ne startAddr startCycle
  have ho1 := hturn ho hcase1
  obtain ⟨rd, h2, hrd, hcase2⟩ := filterClflush_cacheline ho1.coherent core.l1d_ne startAddr startCycle
  refine ⟨max (max startCycle ri) rd, h2, ?_, hturn ho1 hcase2⟩
  rw [TimingCore.clflushCacheline, hri, bind_some, hrd]
  rfl

end Orderly

variable {cfg : FlushConfig} {lineBits : Nat}

theorem coreStep_orderly (ho : Orderly t h) (op : CoreOp t cfg lineBits) :
    ∃ h', coreStep t cfg lineBits h op = some h' ∧ Orderly t h' := by
  cases op with
  | load r =>
    simp only [coreStep, load]
    split
    · exact ⟨h, rfl, ho⟩
    · obtain ⟨c, h', hr, ho'⟩ := ho.replace r true
      exact ⟨h', by rw [hr]; rfl, ho'⟩
  | store r =>
    simp only [coreStep, store]
    split
    · exact ⟨h, rfl, ho⟩
    · obtain ⟨c, h', hr, ho'⟩ := ho.replace r false
      exact ⟨h', by rw [hr]; rfl, ho'⟩
  | clflush core page startCycle =>
    obtain ⟨s, hs, hflushed⟩ := clflush_spec ho core page startCycle
    exact ⟨s.caches, by rw [coreStep, hs]; rfl, hflushed.orderly⟩
  | clflushCacheline core startAddr startCycle =>
    obtain ⟨c, h', hr, ho'⟩ := ho.clflushCacheline core startAddr startCycle
    exact ⟨h', by rw [coreStep, hr]; rfl, ho'⟩
  | contextSwitch core => exact ⟨_, rfl, ho.contextSwitch core⟩

theorem run_coreStep_orderly (ops : List (CoreOp t cfg lineBits)) :
    ∃ h, run (coreStep t cfg lineBits) new ops = some h ∧ Orderly t h :=
  run_isSome (coreStep t cfg lineBits) (fun _ op ho _ => coreStep_orderly ho op) ops Orderly.new
    (allSteps_of_forall (coreStep t cfg lineBits) (fun _ _ => trivial) new ops)

/-! ### What a flush leaves behind -/

/-- After any run, a flush of a page takes all its lines out of all caches exactly if each line is
in no cache, or is named by a filter array of the core whose array has it too. -/
theorem clflush_complete_iff (t : Topology) (cfg : FlushConfig) (lineBits : Nat) (ops : List (CoreOp t cfg lineBits)) :
    ∃ h, run (coreStep t cfg lineBits) new ops = some h ∧ ∀ core (page : Page cfg) startCycle,
      ∃ s, clflush t cfg core page.first startCycle h = some s ∧
        ((∀ a ∈ page.lines, ∀ p, stateAt t s.caches p a = .I) ↔
          ∀ a ∈ page.lines, stateAt t h [] a = .I ∨ Acts t core.l1i h a ∨ Acts t core.l1d h a) := by
  obtain ⟨h, hrun, ho⟩ := run_coreStep_orderly ops
  refine ⟨h, hrun, fun core page startCycle => ?_⟩
  obtain ⟨s, hs, hflushed⟩ := clflush_spec ho core page startCycle
  exact ⟨s, hs, forall₂_congr hflushed.gone⟩

/-- Two cores, each with an instruction and a data cache, below a shared cache: `[0]` and `[1]` are
the caches of core 0, `[2]` and `[3]` those of core 1. -/
def dualCore : Topology := sharedCache 4

namespace dualCore

def core (i : Fin 2) : Core dualCore where
  l1i := [2 * i]
  l1d := [2 * i + 1]
  l1i_terminal := rfl
  l1d_terminal := rfl
  l1i_ne := cons_ne_nil _ _
  l1d_ne := cons_ne_nil _ _

def pageConfig : FlushConfig where
  lineNum := 64
  enableSharedMemory := false
  memAccessTime := 100
  issuable _ := true

def request (i : Fin 2) (vAddr : BitVec 64) (v : Fin 2) : LeafRequest dualCore 6 where
  leaf := [2 * i + 1]
  vAddr := vAddr
  curCycle := 0
  noExcl := false
  victim _ := v
  node := by
    have hi := i.isLt
    exact ⟨show 2 * (i : Nat) + 1 < 4 by omega, trivial⟩
  terminal := rfl
  victim_mem q _ := mem_ways_sharedCache v q _

end dualCore

/-- Core 1 has stored to line 65: the flush of its page by core 0 leaves it in M. Nor does core 0
flush a line that it has stored to itself, once it has loaded line 128, of the same set. -/
theorem clflush_leaves_lines_behind :
    (∃ h, run (coreStep dualCore dualCore.pageConfig 6) new [.store (dualCore.request 1 0x1040 0)] = some h ∧
      ∃ s, clflush dualCore dualCore.pageConfig (dualCore.core 0) 64 0 h = some s ∧
        stateAt dualCore s.caches [] 65 = .M ∧ stateAt dualCore s.caches [3] 65 = .M) ∧
    ∃ h, run (coreStep dualCore dualCore.pageConfig 6) new
        [.store (dualCore.request 0 0x1040 0), .load (dualCore.request 0 0x2000 1)] = some h ∧
      ∃ s, clflush dualCore dualCore.pageConfig (dualCore.core 0) 64 0 h = some s ∧
        stateAt dualCore s.caches [1] 65 = .M := by
  decide +kernel

namespace PageTableWalker

/-- If a page number is shifted by what the number of lines in a page takes, the flush of the page
of an address by the walker takes all lines of the page out of all caches exactly if each is in no
cache, or is named by a filter array of the core whose array has it too. -/
theorem clflush_page_complete_iff (t : Topology) (cfg : FlushConfig) (mode : PagingStyle) {lineBits : Nat}
    (hshift : mode.pageShift = 2 * lineBits) (hcfg : cfg.lineNum = lineNum (2^mode.pageShift) (2^lineBits))
    (ops : List (CoreOp t cfg lineBits)) :
    ∃ h, run (coreStep t cfg lineBits) new ops = some h ∧ ∀ core startCycle, ∀ a < 2^64,
      ∃ s, clflush t cfg core mode.pageShift lineBits a startCycle h = some s ∧
        ((∀ line, LineOfPage mode lineBits a line → ∀ p, stateAt t s.caches p line = .I) ↔
          ∀ line, LineOfPage mode lineBits a line →
            stateAt t h [] line = .I ∨ Acts t core.l1i h line ∨ Acts t core.l1d h line) := by
  obtain ⟨h, hrun, ho⟩ := run_coreStep_orderly ops
  refine ⟨h, hrun, fun core startCycle a ha => ?_⟩
  have hle : lineBits ≤ mode.pageShift := by omega
  have hnum := hcfg.trans (lineNum_eq hle)
  have hfits : invAddrInit mode.pageShift lineBits a + cfg.lineNum < 2^64 := by
    rw [invAddrInit_eq hle ha, hnum]
    exact range_lt hle ha
  have hlines : ∀ line, line ∈ Page.lines ⟨_, hfits⟩ ↔ LineOfPage mode lineBits a line := by
    intro line
    show line ∈ List.range' (invAddrInit mode.pageShift lineBits a) cfg.lineNum ↔ _
    rw [lineOfPage_iff hle, invAddrInit_eq hle ha, hnum, show mode.pageShift - lineBits = lineBits by omega]
  obtain ⟨s, hs, hflushed⟩ := clflush_spec ho core ⟨_, hfits⟩ startCycle
  refine ⟨s, hs, ?_⟩
  simp only [← hlines]
  exact forall₂_congr hflushed.gone

/-- Pages of 4 KB in lines of 64 bytes. -/
theorem clflush_page_complete_iff_normal : ∃ h,
    run (coreStep dualCore dualCore.pageConfig 6) new [.store (dualCore.request 1 0x1040 0)] = some h ∧
      ∃ s, clflush dualCore dualCore.pageConfig (dualCore.core 0) 12 6 0x1abc 0 h = some s := by
  obtain ⟨h, hr, hall⟩ := clflush_page_complete_iff dualCore dualCore.pageConfig .longModeNormal rfl rfl
    [.store (dualCore.request 1 0x1040 0)]
  obtain ⟨s, hs, -⟩ := hall (dualCore.core 0) 0 0x1abc (by decide)
  exact ⟨h, hr, s, hs⟩

end PageTableWalker

/-! ### What a flush counts -/

variable (t) in
/-- The flush took modified data of line `a` out of the caches. -/
def Dropped (h h' : Hierarchy) (a : Address) : Prop :=
  (∃ p, stateAt t h p a = .M) ∧ ∀ p, stateAt t h' p a = .I

theorem Orderly.dropped_iff {core : Core t} {page : Page cfg} {startCycle : Nat} {s : TimingCore.Flushing}
    (ho : Orderly t h) (hs : LinesFlushed t core page.lines ⟨startCycle, 0, h⟩ s) (ha : a ∈ page.lines) :
    Dropped t h s.caches a ↔ (∃ p, stateAt t h p a = .M) ∧ (Acts t core.l1i h a ∨ Acts t core.l1d h a) := by
  rw [Dropped, hs.gone a ha]
  refine and_congr_right fun hM => or_iff_right fun hroot => ?_
  obtain ⟨p, hp⟩ := hM
  rw [ho.coherent.all_invalid hroot p] at hp
  cases hp

theorem retire_dirty {cfg : Walker.Config} {sys : Walker.System} {b : Nat} {flush : Walker.Flush}
    (hocc : (sys.dram.bufferArray b).isOccupied) (hcount : flush.dramWriteBacks ≠ 0) (req : MemReq) :
    ((sys.retire cfg b flush req).1.dram.bufferArray b).dirty = true := by
  rw [Walker.System.retire, if_pos hocc, if_pos hcount]
  show (update sys.dram.bufferArray b (sys.dram.bufferArray b).setDirty b).dirty = true
  rw [update_self]
  rfl

/-- After any run, a flush counts every modified line it takes out of the caches, so that
`evict_DRAM_page` marks the block it flushes, exactly if of each line that is modified somewhere and
flushed, the data cache's filter array has a written line: `wrAddr` is the line, and the
instruction cache's turn does not take it from there. -/
theorem clflush_counts_iff (t : Topology) (cfg : FlushConfig) (lineBits : Nat) (ops : List (CoreOp t cfg lineBits)) :
    ∃ h, run (coreStep t cfg lineBits) new ops = some h ∧ ∀ core (page : Page cfg) startCycle,
      ∃ s, clflush t cfg core page.first startCycle h = some s ∧
        ((∀ a ∈ page.lines, Dropped t h s.caches a → Counted t core page startCycle h a) ∧
            ((∃ a ∈ page.lines, Dropped t h s.caches a) →
              ∀ (z : Walker.Config) (sys : Walker.System) b nvmCycle req, (sys.dram.bufferArray b).isOccupied →
                ((sys.retire z b ⟨nvmCycle, s.maxCycle, s.writeBacks⟩ req).1.dram.bufferArray b).dirty = true) ↔
          ∀ a ∈ page.lines, (∃ p, stateAt t h p a = .M) → Acts t core.l1i h a ∨ Acts t core.l1d h a →
            a = (entry t core.l1d h a).wrAddr ∧
              ¬ (Acts t core.l1i h a ∧ stateAt t h core.l1d a ≠ .I)) := by
  obtain ⟨h, hrun, ho⟩ := run_coreStep_orderly ops
  refine ⟨h, hrun, fun core page startCycle => ?_⟩
  obtain ⟨s, hs, hflushed⟩ := clflush_spec ho core page startCycle
  have hline : ∀ a ∈ page.lines, ((Dropped t h s.caches a → Counted t core page startCycle h a) ↔
      ((∃ p, stateAt t h p a = .M) → Acts t core.l1i h a ∨ Acts t core.l1d h a → Noticed t core h a)) := by
    intro a ha
    rw [ho.dropped_iff hflushed ha, counted_iff ho ha, and_imp]
  refine ⟨s, hs, fun hall => (forall₂_congr hline).mp hall.1, fun hcond => ?_⟩
  have hcounted := (forall₂_congr hline).mpr hcond
  refine ⟨hcounted, ?_⟩
  rintro ⟨a, ha, hdropped⟩ z sys b nvmCycle req hocc
  exact retire_dirty hocc ((hcounted a ha hdropped).writeBacks_ne_zero ha hs) req

/-- Core 0 stores to line 65, loads line 128, of the same set, and loads line 65 again: the line is
in M, but its filter entry is that of a load. The flush of its page takes the line out of all five
caches and counts nothing. -/
theorem clflush_drops_store :
    ∃ h, run (coreStep dualCore dualCore.pageConfig 6) new
        [.store (dualCore.request 0 0x1040 0), .load (dualCore.request 0 0x2000 1),
          .load (dualCore.request 0 0x1040 0)] = some h ∧
      stateAt dualCore h [1] 65 = .M ∧
      ∃ s, clflush dualCore dualCore.pageConfig (dualCore.core 0) 64 0 h = some s ∧
        (∀ p ∈ [[], [0], [1], [2], [3]], stateAt dualCore s.caches p 65 = .I) ∧ s.writeBacks = 0 := by
  decide +kernel

end Shma.Cache
