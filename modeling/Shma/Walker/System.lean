import Shma.Mmu.Buddy
import Shma.PageTable.Paging
import Shma.Tlb.HotMonitorTlb

/-!
# The state that page table walkers share

The objects `zinfo` holds: the page tables of all processes, the buddy allocator
of NVM frames, the allocator of DRAM blocks, and for each core its walker and its
instruction and data TLB. `tlb/page_table_walker.h` works on these.
-/
namespace Shma.Walker

open PageTable Tlb

/-- `Section`, in virtual page numbers. -/
structure Section where
  (start end_ : Address)
  deriving DecidableEq, Repr

/-- The settings of `zinfo` that do not change while the system runs. `fetcher` tells
whether a block fetcher takes page transfers. -/
structure Config where
  z : Zinfo
  mode : PagingStyle
  (numProcs numCores : Nat)
  enableSharedMemory : Bool
  sharedRegion : Nat → List Section
  counters : CounterConfig
  pools : PoolPolicy
  tlbHitLat : Nat
  fetcher : Bool

/-- The fields of `PageTableWalker` that are not statistics. Its page table is the
one of process `proc_idx`. -/
structure PageTableWalker where
  (procIdx mmapCached : Nat)
  deriving DecidableEq, Repr

inductive Side where
  | ins | data
  deriving DecidableEq, Repr

abbrev TlbId := Nat × Side

structure System where
  pagingArray : Nat → Paging
  buddy : Mmu.BuddyAllocator
  dram : FairAllocator
  walker : Nat → PageTableWalker
  tlb : TlbId → HotMonitorTlb

namespace System

variable (cfg : Config) (s : System) (proc : Nat) (vpn : Address) (req : MemReq)

def frames : Frames := ⟨s.buddy.node.mem, s.dram.bufferArray⟩

def setFrames (f : Frames) : System :=
  { s with
    buddy := { s.buddy with node := { s.buddy.node with mem := f.mem } }
    dram := { s.dram with bufferArray := f.block } }

def setPaging (p : Paging) : System :=
  { s with pagingArray := update s.pagingArray proc p }

def setTlb (id : TlbId) (t : HotMonitorTlb) : System := { s with tlb := update s.tlb id t }

def setBlock (b : Nat) (block : DRAMBufferBlock) :
    System := { s with dram := s.dram.setBlock b block }

def procOf (core : Nat) : Nat := (s.walker core).procIdx

def pagingAccess : Option (Walk × System) :=
  ((s.pagingArray proc).access cfg.z s.frames req).map fun r => (r.1, (s.setPaging proc r.2).setFrames r.1.frames)

def mapPage (addr : Address) (pgPtr : Target) : Option (System × Nat) :=
  ((s.pagingArray proc).mapPageTable cfg.z addr pgPtr pgPtr.isBlock).map fun r => (s.setPaging proc r.1, r.2)

def writeThrough (core : Nat) (req : MemReq) : Option System :=
  (s.pagingAccess cfg (s.procOf core) req).map (·.2)

section

variable (act : HotMonitorTlb → Nat → HotMonitorTlb) (vpn : Address)

/-- One TLB's part in a shootdown: look the page up and treat the entry found. -/
def shootTlb (t : HotMonitorTlb) : HotMonitorTlb :=
  match t.lookUp vpn true with
  | (none, t) => t
  | (some i, t) => act t i

/-- The loop of both shootdowns over the TLBs of all cores. -/
def shoot : System :=
  { s with tlb := fun id => if id.1 < cfg.numCores then shootTlb act vpn (s.tlb id) else s.tlb id }

end

/-- The interrupts a shootdown sends, one for each TLB that holds the page. -/
def shootCost : Nat :=
  cfg.tlbHitLat * ((List.range cfg.numCores).flatMap fun c => [(c, Side.ins), (c, Side.data)]).countP
    fun id => ((s.tlb id).ordinaryTlb.tlbTrie vpn).isSome

/-- `tlb_shootdown`: the entries are made invalid but stay in the TLBs. -/
def tlbShootdown : System × MemReq :=
  (s.shoot cfg (fun t i => t.setInvalid i) vpn, { req with cycle := req.cycle + s.shootCost cfg vpn })

/-- `tlb_shootdown_hscc`: the entries are given a new physical page. -/
def tlbShootdownHscc (vaddr ppn : Address) (inDram : Bool) (req : MemReq) :
    System × MemReq :=
  (s.shoot cfg (fun t i => t.remapPpn ppn i inDram) vaddr, { req with cycle := req.cycle + s.shootCost cfg vaddr })

end System

end Shma.Walker
