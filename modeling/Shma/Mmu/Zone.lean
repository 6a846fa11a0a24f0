import Shma.Common.Const
import Shma.Common.FlexiList

/-!
# Pages, zones and the memory node

`MMU/page.h`, `MMU/zone.h` and `MMU/zone.cpp`. A `Page*` is identified by its
page number; the descriptors themselves sit in the node's map. An assertion that
does not hold is `none`. Watermarks and per-CPU page sets are left out: nothing
modelled here reads them.
-/
namespace Shma.Mmu

/-- A page descriptor without its link field, which the node's map holds.
`private_` is the order in the buddy system. -/
structure Page where
  pageNo : Address
  count : Nat
  mapCount : Int
  (overlap private_ : Nat)
  deriving DecidableEq, Repr

/-- The constructor; it leaves `private_` unset, read here as zero. -/
def Page.new (pageNo : Address) : Page :=
  { pageNo, count := 0, mapCount := -1, overlap := 0, private_ := 0 }

def pageBuddyMapcountValue : Int := -128

/-- The node's descriptors. `get_page_ptr` creates a descriptor on first use, so
a page that was never asked for has the freshly constructed one. `next` is the
link field of each descriptor. -/
structure MemMap where
  nodePageNum : Nat
  page : Address → Page
  next : Address → Option Address

def MemMap.new (nodePageNum : Nat) : MemMap :=
  { nodePageNum, page := Page.new, next := fun _ => none }

variable (z : Zone) (m : MemMap) (pageId : Address)

def MemMap.getPagePtr : Option Address :=
  if pageId < m.nodePageNum then some pageId else none

def MemMap.modify (f : Page → Page) : MemMap :=
  { m with page := update m.page pageId (f (m.page pageId)) }

def MemMap.setPageOrder (order : Nat) : MemMap :=
  m.modify pageId fun p => { p with private_ := order, mapCount := pageBuddyMapcountValue }

def MemMap.pushBlockBack (l : FlexiList Address) (page : Address) :
    Option (MemMap × FlexiList Address) :=
  (l.pushBlockBack m.next page).map fun r => ({ m with next := r.1 }, r.2)

def MemMap.fetchHead (l : FlexiList Address) : Option (Address × MemMap × FlexiList Address) :=
  (l.fetchHead m.next).map fun r => (r.1, { m with next := r.2.1 }, r.2.2)

structure FreeArea where
  blockList : FlexiList Address
  nrFree : Nat
  deriving DecidableEq, Repr

def FreeArea.new : FreeArea := { blockList := .new, nrFree := 0 }

/-- A zone. `freeArea` is read at indices 0 to `maxOrder`. -/
structure Zone where
  zoneType : ZoneType
  (zoneStartPfn freePages : Nat)
  freeArea : Nat → FreeArea

def Zone.setArea (k : Nat) (a : FreeArea) : Zone :=
  { z with freeArea := update z.freeArea k a }

/-- The inner loop of `free_area_init_zone`: the next `n` blocks of `2^order`
pages, from `pageIndex` on, are appended to the list of that order. -/
def pushBlocks (order : Nat) :
    (n : Nat) → MemMap → (Nat → FreeArea) → (pageIndex : Nat) → Option (MemMap × (Nat → FreeArea) × Nat)
  | 0, m, area, pageIndex => some (m, area, pageIndex)
  | n+1, m, area, pageIndex =>
    (m.getPagePtr pageIndex).bind fun page =>
    (m.pushBlockBack (area order).blockList page).bind fun r =>
    pushBlocks order n r.1 (update area order { area order with blockList := r.2 })
      (pageIndex + 2^order)

/-- The outer loop of `free_area_init_zone`, from order `i` down to order 1. -/
def freeAreaInitLoop :
    (i : Nat) → MemMap → (Nat → FreeArea) → (pageNumber pageIndex : Nat) →
      Option (MemMap × (Nat → FreeArea))
  | 0, m, area, _, _ => some (m, area)
  | i+1, m, area, pageNumber, pageIndex =>
    if pageNumber = 0 then some (m, area)
    else
      let maxBlockNum := pageNumber / 2^(i+1)
      if 0 < maxBlockNum then
        let area := update area (i+1) { area (i+1) with nrFree := maxBlockNum }
        (pushBlocks (i+1) maxBlockNum m area pageIndex).bind fun r =>
        freeAreaInitLoop i r.1 r.2.1 (pageNumber - maxBlockNum * 2^(i+1)) r.2.2
      else freeAreaInitLoop i m area pageNumber pageIndex

def Zone.freeAreaInitZone (pageNumber : Nat) : Option (MemMap × Zone) :=
  (freeAreaInitLoop maxOrder m (fun _ => .new) pageNumber 0).map fun r =>
    (r.1, { z with freeArea := r.2 })

/-- `Zone::memmap_init_zone`: the start frame is not used. -/
def Zone.memmapInitZone (_startPfn size : Nat) : Option (MemMap × Zone) :=
  z.freeAreaInitZone m size

def Zone.new (type : ZoneType) (startPfn endPfn : Nat) : Option Zone :=
  if startPfn < endPfn then
    some { zoneType := type, zoneStartPfn := startPfn, freePages := endPfn - startPfn,
           freeArea := fun _ => .new }
  else none

structure MemoryNode where
  (zoneLowestPossible zoneHighestPossible : ZoneType → Nat)
  mem : MemMap
  nodeZones : ZoneType → Option Zone

/-- `zone_highest_possible` as the constructor's loop fills it: from the second
zone on, the configured end but at least the end of the zone before. -/
def zoneHighest (maxZonePfns : ZoneType → Nat) : ZoneType → Nat
  | .dma => maxZonePfns .dma
  | .dma32 => max (maxZonePfns .dma32) (maxZonePfns .dma)
  | .normal => max (maxZonePfns .normal) (max (maxZonePfns .dma32) (maxZonePfns .dma))
  | .highMem => max (maxZonePfns .highMem)
      (max (maxZonePfns .normal) (max (maxZonePfns .dma32) (maxZonePfns .dma)))

/-- `zone_lowest_possible`: each zone starts where the one before ends. -/
def zoneLowest (nodeStartPfn : Nat) (maxZonePfns : ZoneType → Nat) : ZoneType → Nat
  | .dma => nodeStartPfn
  | .dma32 => zoneHighest maxZonePfns .dma
  | .normal => zoneHighest maxZonePfns .dma32
  | .highMem => zoneHighest maxZonePfns .normal

def allZones : List ZoneType := [.dma, .dma32, .normal, .highMem]

/-- `calculate_total_pages`, with its assertion on every zone. -/
def calculateTotalPages (lowest highest : ZoneType → Nat) : Option Nat :=
  if ∀ z ∈ allZones, lowest z ≤ highest z then
    some ((allZones.map fun z => highest z - lowest z).sum)
  else none

/-- One iteration of `init_zones`: the end frame is passed where
`free_area_init_zone` expects a number of pages. -/
def initZone (lowest highest : ZoneType → Nat) (z : ZoneType) (m : MemMap) : Option (MemMap × Option Zone) :=
  if highest z ≠ lowest z then
    (Zone.new z (lowest z) (highest z)).bind fun zone =>
    (zone.memmapInitZone m (lowest z) (highest z)).map fun r => (r.1, some r.2)
  else some (m, none)

def initZones (lowest highest : ZoneType → Nat) (m : MemMap) :
    List ZoneType → (ZoneType → Option Zone) → Option (MemMap × (ZoneType → Option Zone))
  | [], zones => some (m, zones)
  | z :: rest, zones =>
    (initZone lowest highest z m).bind fun r =>
    initZones lowest highest r.1 rest (update zones z r.2)

/-- The constructor `MemoryNode::MemoryNode`, with the assertion of
`setup_per_zone_wmarks` that the normal zone exists. -/
def MemoryNode.new (nodeStartPfn : Nat) (maxZonePfns : ZoneType → Nat) : Option MemoryNode :=
  let lowest := zoneLowest nodeStartPfn maxZonePfns
  let highest := zoneHighest maxZonePfns
  (calculateTotalPages lowest highest).bind fun pages =>
  (initZones lowest highest (MemMap.new pages) allZones fun _ => none).bind fun r =>
  if (r.2 .normal).isSome then
    some { zoneLowestPossible := lowest, zoneHighestPossible := highest, mem := r.1, nodeZones := r.2 }
  else none

end Shma.Mmu
