import Shma.Walker.DramFault
import Shma.Walker.PageFault

/-!
# Translations and migrations as steps of one machine

`HotMonitorTlb::access`, `NVMainMemory::filter_based_cache`, the assignment of cores to
processes and the flush of a core's TLBs, in any order on any core.
-/
namespace Shma.Walker

open PageTable Tlb

namespace System

variable (cfg : Config) (s : System) (id : TlbId) (req : MemReq)

/-- The end of a TLB miss: the new entry goes in, and what an eviction leaves behind
is written through. -/
def insertEntry (vpn ppn : Address) (accessCounter : Nat) :
    Option System := do
  let (t, writeBack) ← (s.tlb id).insert cfg.z cfg.counters vpn ppn accessCounter
  let s := s.setTlb id t
  match writeBack with
  | none => return s
  | some req => s.writeThrough cfg id.1 req

/-- What a store that hits a clean DRAM page does: set the dirty bit in the TLB and
through to the page table, and move the block to its process's dirty pool. -/
def markDirty (i : Nat) (cycle : Nat) : Option System := do
  let e := s.entry ⟨id, i⟩
  let s := s.setTlb id ((s.tlb id).setDirty i)
  let s ← s.writeThrough cfg id.1
    { lineAddr := e.vPageNo <<< cfg.z.pageShift, type := .setdirty, childId := 0, cycle }
  let block := cfg.z.dramAddrToBlockId (e.pPageNo <<< cfg.z.pageShift)
  return { s with dram := s.dram.convertToDirty (s.procOf id.1) block }

/-- `HotMonitorTlb::access` on a miss: the physical page, the cycle and the system
after. -/
def tlbMiss : Option (Address × Nat × System) := do
  let (ppn, walked, s) ← s.walkerAccess cfg id.1 req
  let s ← s.insertEntry cfg id (req.lineAddr >>> cfg.z.pageShift) ppn
    (if cfg.counters.multiQueue then walked.childId else 0)
  return (ppn, walked.cycle, s)

/-- `HotMonitorTlb::access` on a hit at the entry with index `i`. -/
def tlbHit (i : Nat) (req : MemReq) : Option (Address × Nat × System) :=
  let e := s.entry ⟨id, i⟩
  let cycle := req.cycle + (s.tlb id).ordinaryTlb.hitLatency
  (if req.type = .putx ∧ e.dirty = false ∧ e.inDram = true then s.markDirty cfg id i cycle else some s).map
    fun s => (e.pPageNo, cycle, s)

def tlbTranslate :
    Option Nat → Option (Address × Nat × System)
  | none => s.tlbMiss cfg id req
  | some i => s.tlbHit cfg id i req

/-- `HotMonitorTlb::access`: the physical address, the request and the system after. -/
def tlbAccess : Option (Address × MemReq × System) :=
  let offset := req.lineAddr &&& (2^cfg.z.pageShift - 1)
  let responseLatency := (s.tlb id).ordinaryTlb.responseLatency
  let (found, t) := (s.tlb id).lookUp (req.lineAddr >>> cfg.z.pageShift) true
  ((s.setTlb id t).tlbTranslate cfg id req found).map fun r =>
    ((r.1 <<< cfg.z.pageShift) ||| offset, { req with cycle := r.2.1 + responseLatency }, r.2.2)

section

variable (core : Nat) (paddr : Address) (isWrite : Bool) (thres : Nat)

/-- `LookupTlb`: the entry of a physical page in the instruction TLB or else in the
data TLB of a core. -/
def lookupTlb : Option EntryRef × TLBSearchResult × System :=
  let ppn := paddr >>> cfg.z.pageShift
  let (found, result, t) := (s.tlb (core, .ins)).lookUpVa cfg.counters ppn isWrite thres
  let s := s.setTlb (core, .ins) t
  match found with
  | some i => (some ⟨(core, .ins), i⟩, result, s)
  | none =>
    let (found, result, t) := (s.tlb (core, .data)).lookUpVa cfg.counters ppn isWrite thres
    (found.map fun i => ⟨(core, .data), i⟩, result, s.setTlb (core, .data) t)

/-- `filter_based_cache`: the address the access event is left with, and the system
after. `thres` is the access threshold in force. -/
def filterBasedCache (cycle : Nat) (flush : Flush) : Option (Address × System) :=
  if cfg.z.isDramAddress paddr then some (paddr, s)
  else
    let (found, result, s) := s.lookupTlb cfg core paddr isWrite thres
    match found, result with
    | some ref, .overThres =>
      (s.doDramPageFault cfg core ref flush { lineAddr := paddr, type := .gets, childId := 0, cycle }).map
        fun r => (r.1, r.2.2.2)
    | _, _ => some (paddr, s)

end

/-- `setCid`: a core starts to run a process, and its walker to use that process's
page table. The TLBs are not flushed here. -/
def setCid (core proc : Nat) : System :=
  { s with walker := update s.walker core { s.walker core with procIdx := proc } }

/-- `contextSwitch(-1)` of a core, which the scheduler calls as it takes a thread off the
core: both TLBs are flushed. -/
def contextSwitch (core : Nat) : System :=
  { s with tlb := fun id => if id.1 = core then (s.tlb id).flushAll else s.tlb id }

end System

inductive Action where
  | access (core : Nat) (side : Side) (req : MemReq)
  | memory (core : Nat) (paddr : Address) (isWrite : Bool) (thres cycle : Nat) (flush : Flush)
  | setCid (core proc : Nat)
  | contextSwitch (core : Nat)
  deriving DecidableEq, Repr

def Action.core : Action → Nat
  | .access c _ _ => c
  | .memory c _ _ _ _ _ => c
  | .setCid c _ => c
  | .contextSwitch c => c

def System.step (cfg : Config) (s : System) (a : Action) : Option System :=
  if a.core < cfg.numCores then
    match a with
    | .access c side req => (s.tlbAccess cfg (c, side) req).map (·.2.2)
    | .memory c paddr isWrite thres cycle flush =>
      (s.filterBasedCache cfg c paddr isWrite thres cycle flush).map (·.2)
    | .setCid c proc => if proc < cfg.numProcs then some (s.setCid c proc) else none
    | .contextSwitch c => some (s.contextSwitch c)
  else none

end Shma.Walker
