import Shma.DramBuffer.FairAllocator
import Shma.PageTable.LongMode

/-!
# Paging with an inverse table

`ReversedPaging` of `page-table/reversed_page_table.cpp`: long-mode paging plus a
table from physical page numbers to page-table entries. Its keys are 32-bit
numbers, and only `map_page_table` ever inserts one.
-/
namespace Shma.PageTable

structure Content where
  pgtEntry : Nat × Nat
  vpn : Address
  deriving DecidableEq, Repr

structure ReversedPaging where
  paging : LongModePaging
  reversedPgt : Nat → Option Content

namespace ReversedPaging

def new (mode : PagingStyle) : ReversedPaging := { paging := .new mode, reversedPgt := fun _ => none }

variable (z : Zinfo) (p : ReversedPaging) (ppn : Address)

def key : Nat := ppn % 2^32

/-- The page number `map_page_table` reads from the descriptor it is given. -/
def mappedPpn : Target → Bool → Option Address
  | .block b, true => some (z.blockIdToAddr b >>> z.blockShift)
  | .page n, false => some n
  | _, _ => none

def mapPageTable (addr : Address) (pgPtr : Target) (pbuffer : Bool) :
    Option (ReversedPaging × Nat) := do
  let (paging, latency, mappedEntry) ← p.paging.mapPageTable z addr pgPtr pbuffer
  let ppn ← mappedPpn z pgPtr pbuffer
  match mappedEntry with
  | none => return ({ p with paging }, latency)
  | some entry =>
    assertThat (p.reversedPgt (key ppn) = none)
    return ({ paging, reversedPgt := update p.reversedPgt (key ppn) (some ⟨entry, addr >>> z.pageShift⟩) },
      latency)

/-- The descriptor of a physical page, on either side of a remapping. -/
def framePtr (m : Mmu.MemMap) (dram : FairAllocator) (ppn : Address) (inDram : Bool) :
    Option Target :=
  if inDram then (dram.getPagePtr (z.dramAddrToBlockId (ppn <<< z.blockShift))).map Target.block
  else (m.getPagePtr ppn).map Target.page

/-- One of the two updates of `remap_page_table`: the entry recorded for `ppn`, if
there is one, is pointed to another descriptor. -/
def redirect (ptr : Target) (toDram : Bool) : ReversedPaging × Nat :=
  match p.reversedPgt (key ppn) with
  | none => (p, 0)
  | some c =>
    ({ p with paging := { p.paging with
        tables := p.paging.tables.modify c.pgtEntry.1 c.pgtEntry.2
          fun e => (e.setNextLevelAddress (.target ptr)).setBuffer toDram } }, z.memAccessTime)

/-- `remap_page_table` swaps what two physical pages are mapped to. The keys of the
inverse table stay as they are. -/
def remapPageTable (m : Mmu.MemMap) (dram : FairAllocator) (p : ReversedPaging)
    (ppn dstPpn : Address) (srcDram dstDram : Bool) : Option (ReversedPaging × Nat) := do
  let pagePtr ← framePtr z m dram ppn srcDram
  let dstPtr ← framePtr z m dram dstPpn dstDram
  let (p, srcLatency) := p.redirect z ppn dstPtr dstDram
  let (p, dstLatency) := p.redirect z dstPpn pagePtr srcDram
  return (p, srcLatency + dstLatency)

def unmapPageTable (addr : Address) : Option (ReversedPaging × Bool) :=
  (p.paging.unmapPageTable addr).map fun r => ({ p with paging := r.1 }, r.2)

def allocatePageTable (addr size : Address) : Option (ReversedPaging × Bool) :=
  (p.paging.allocatePageTableRange addr size).map fun r => ({ p with paging := r.1 }, r.2)

/-- `remove_page_table` calls itself; `none` when the fuel is used up. -/
def removePageTable (p : ReversedPaging) (fuel : Nat) (addr size : Address) : Option (ReversedPaging × Bool) :=
  match fuel with
  | 0 => none
  | fuel + 1 => p.removePageTable fuel addr size

def access (f : Frames) (req : MemReq) : Option Walk := p.paging.access z f req

end ReversedPaging

end Shma.PageTable
