import Shma.Walker.System

/-!
# Caching a page in DRAM

`do_dram_page_fault` and what it calls. The TLB entry the fault is for is passed by
reference: the shootdowns on the way may change it. What the flushes of the on-chip
caches cost and find dirty is an input.
-/
namespace Shma.Walker

open PageTable Tlb

/-- The results of the two calls of `clflush`: the cycle after each, and for the one
on the DRAM page the number of lines written back. -/
structure Flush where
  (nvmCycle dramCycle dramWriteBacks : Nat)
  deriving DecidableEq, Repr

structure EntryRef where
  id : TlbId
  index : Nat
  deriving DecidableEq, Repr

namespace System

variable (cfg : Config) (s : System) (core b : Nat) (ref : EntryRef)

def entry : ExtendTlbEntry := (s.tlb ref.id).ordinaryTlb.tlb ref.index

def allocatePage (dram : FairAllocator) (proc : Nat) : Option (Nat × FairAllocator) :=
  (if dram.shouldReclaim then dram.evict cfg.pools else some dram).bind fun dram => dram.allocateOnePage proc

def storePageCost : Nat := if cfg.fetcher then 0 else 200

/-- `remap_page_table` of `tlb/common_func.h`: in the tables of all processes, with
the largest latency. -/
def remapAll (cfg : Config) (ppn dstPpn : Address) (srcDram dstDram : Bool) :
    List Nat → System → Option (System × Nat)
  | [], s => some (s, 0)
  | i :: is, s =>
    ((s.pagingArray i).remapPageTable cfg.z s.buddy.node.mem s.dram ppn dstPpn srcDram dstDram).bind fun r =>
    (remapAll cfg ppn dstPpn srcDram dstDram is (s.setPaging i r.1)).map fun r' => (r'.1, max r.2 r'.2)

/-- The part of `evict_and_fetch` that gives the page of an occupied block back to its
NVM frame. -/
def writeBackMapping : Option (System × Nat) :=
  let block := s.dram.bufferArray b
  if block.isOccupied = false then some (s, 0)
  else if cfg.enableSharedMemory then
    remapAll cfg ((Target.block b).ppn cfg.z) block.originalAddr true false (List.range cfg.numProcs) s
  else
    (s.buddy.node.mem.getPagePtr block.originalAddr).bind fun pagePtr =>
    s.mapPage cfg (s.procOf core) (block.vaddr <<< cfg.z.pageShift) (.page pagePtr)

/-- The part of `evict_and_fetch` that maps the page of the TLB entry to the block. -/
def installMapping (e : ExtendTlbEntry) : Option (System × Nat) :=
  if cfg.enableSharedMemory then
    remapAll cfg e.pPageNo ((Target.block b).ppn cfg.z) false true (List.range cfg.numProcs) s
  else s.mapPage cfg (s.procOf core) (e.vPageNo <<< cfg.z.pageShift) (.block b)

/-- `evict_and_fetch`; the result tells whether a dirty page was written back. -/
def evictAndFetch (req : MemReq) :
    Option (Bool × MemReq × System) := do
  let block := s.dram.bufferArray b
  let dirtyEvict := block.isOccupied && block.dirty
  let transfers := if dirtyEvict then 2 else 1
  let (s, evictOverhead) ← s.writeBackMapping cfg core b
  let e := s.entry ref
  let block ← (if block.isOccupied then block.invalidate else block).validate (req.lineAddr >>> cfg.z.blockShift)
  let s := s.setBlock b ((block.setSrcAddr e.pPageNo).setVaddr e.vPageNo)
  let (s, overhead) ← s.installMapping cfg core b e
  return (dirtyEvict,
    { req with cycle := req.cycle + transfers * storePageCost cfg + evictOverhead + overhead }, s)

/-- The first part of `evict_DRAM_page`, for an occupied block: flush it from the
caches and tell all TLBs where its page goes. -/
def retire (b : Nat) (flush : Flush) (req : MemReq) : System × MemReq :=
  let block := s.dram.bufferArray b
  if block.isOccupied then
    let s := if flush.dramWriteBacks ≠ 0 then s.setBlock b block.setDirty else s
    s.tlbShootdownHscc cfg block.vaddr block.originalAddr false { req with cycle := flush.dramCycle }
  else (s, req)

def evictDRAMPage (flush : Flush) (req : MemReq) :
    Option (Bool × MemReq × System) := do
  let (s, req) := s.retire cfg b flush req
  let (evicted, req, s) ← s.evictAndFetch cfg core b ref req
  let (s, req) := s.tlbShootdownHscc cfg (s.entry ref).vPageNo ((Target.block b).ppn cfg.z) true req
  return (evicted, req, s)

/-- `do_dram_page_fault`: the address of the block, and the rest. -/
def doDramPageFault (core : Nat) (ref : EntryRef) (flush : Flush) (req : MemReq) :
    Option (Address × Bool × MemReq × System) := do
  let (b, dram) ← allocatePage cfg s.dram (s.procOf core)
  let s := { s with dram }
  let (evicted, req, s) ← s.evictDRAMPage cfg core b ref flush { req with cycle := flush.nvmCycle }
  return (cfg.z.blockIdToAddr b, evicted, req, s)

end System

end Shma.Walker
