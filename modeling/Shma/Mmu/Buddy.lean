import Shma.Mmu.Zone

/-!
# The buddy allocator

Allocation as in `MMU/memory_management.cpp`: the smallest non-empty order that
is large enough is split down to the requested one.
-/
namespace Shma.Mmu

structure Alloc where
  mem : MemMap
  zone : Zone
  freePageNum : Nat

/-- `BuddyAllocator::expand`: hand the upper halves back, from order `high - 1`
down to order `low`. -/
def expand (pageId low : Nat) : (high : Nat) → (size : Nat) → Alloc → Option Alloc
  | 0, _, s => some s
  | high+1, size, s =>
    if low < high+1 then
      let size := size / 2
      let newPageId := pageId + size
      let area := s.zone.freeArea high
      (s.mem.getPagePtr newPageId).bind fun page =>
      (s.mem.pushBlockBack area.blockList page).bind fun r =>
      expand pageId low high size
        { s with
          mem := r.1.setPageOrder newPageId high
          zone := s.zone.setArea high { blockList := r.2, nrFree := area.nrFree + 1 } }
    else some s

variable (s : Alloc) (order : Nat)

/-- The updates made once `page` has left the list of order `cur`, now `rest`. -/
def Alloc.detach (order cur : Nat) (page : Address) (mem : MemMap) (rest : FlexiList Address) :
    Alloc :=
  let zone := s.zone.setArea cur { blockList := rest, nrFree := subU64 (s.zone.freeArea cur).nrFree 1 }
  -- free_pages loses 1UL>>order, free_page_num loses 1UL<<order
  { mem := mem.modify page fun p => { p with mapCount := -1, private_ := 0, count := 1 }
    zone := { zone with freePages := subU64 zone.freePages (1 >>> order) }
    freePageNum := subU64 s.freePageNum (1 <<< order) }

/-- The body of the search loop once a non-empty list of order `cur` is found. -/
def takeBlock (order cur : Nat) : Option (Address × Alloc) :=
  (s.mem.fetchHead (s.zone.freeArea cur).blockList).bind fun (page, mem, rest) =>
  (expand page order cur (2^cur) (s.detach order cur page mem rest)).map fun s => (page, s)

/-- The search loop of `rmqueue_page_smallest` over the orders still to be tried. -/
def rmqueueLoop (s : Alloc) (order : Nat) : List Nat → Option (Option Address × Alloc)
  | [] => some (none, s)
  | cur :: orders =>
    if (s.zone.freeArea cur).blockList.getSize = 0 then rmqueueLoop s order orders
    else (takeBlock s order cur).map fun r => (some r.1, r.2)

/-- `BuddyAllocator::rmqueue_page_smallest`; a null page is the inner `none`. -/
def rmqueuePageSmallest : Option (Option Address × Alloc) :=
  rmqueueLoop s order (List.range' order (maxOrder + 1 - order))

def Alloc.allocatePages : Option (Option Address × Alloc) :=
  rmqueuePageSmallest s order

structure BuddyAllocator where
  node : MemoryNode
  freePageNum : Nat

/-- `BuddyAllocator::gfp_zone`, with its assertion that the normal zone exists. -/
def MemoryNode.gfpZone (n : MemoryNode) (flag : Nat) : Option ZoneType :=
  if (n.nodeZones .dma).isSome ∧ flag &&& gfpDma ≠ 0 then some .dma
  else if (n.nodeZones .dma32).isSome ∧ flag &&& gfpDma32 ≠ 0 then some .dma32
  else if (n.nodeZones .highMem).isSome ∧ flag &&& gfpHighMem ≠ 0 then some .highMem
  else if (n.nodeZones .normal).isSome then some .normal
  else none

def BuddyAllocator.store (b : BuddyAllocator) (zt : ZoneType) (s : Alloc) : BuddyAllocator :=
  { node := { b.node with mem := s.mem, nodeZones := update b.node.nodeZones zt (some s.zone) }
    freePageNum := s.freePageNum }

/-- `BuddyAllocator::allocate_pages(gfp_mask, order)`; a null page is the inner
`none`. -/
def BuddyAllocator.allocatePages (b : BuddyAllocator) (gfpMask order : Nat) :
    Option (Option Address × BuddyAllocator) :=
  if maxOrder ≤ order then some (none, b)
  else
    (b.node.gfpZone gfpMask).bind fun zt =>
    (b.node.nodeZones zt).bind fun zone =>
    (({ mem := b.node.mem, zone, freePageNum := b.freePageNum } : Alloc).allocatePages order).map
      fun r => (r.1, b.store zt r.2)

end Shma.Mmu
