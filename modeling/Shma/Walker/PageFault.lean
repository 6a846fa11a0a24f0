import Shma.Walker.System

/-!
# Page faults

`PageTableWalker::access` and `do_page_fault`, with the search for a shared region
and the mapping of a shared page in all processes.
-/
namespace Shma.Walker

open PageTable

def findSharedVm (z : Zinfo) (vaddr : Address) (sec : Section) : Bool :=
  let vpn := vaddr >>> z.pageShift
  sec.start ≤ vpn && vpn < sec.end_

/-- The two search loops of `map_shared_region`: the first of some section indices
whose section holds the address. -/
def searchShared (z : Zinfo) (vaddr : Address) (sections : List Section) (indices : List Nat) : Option Nat :=
  indices.find? fun i => (sections[i]?.map (findSharedVm z vaddr)).getD false

/-- The search of `map_shared_region`: the new `mmap_cached`, and whether the address
is in a section. Reading past the sections is `none`. -/
def locateShared (z : Zinfo) (sections : List Section) (mmapCached : Nat) (vaddr : Address) : Option (Nat × Bool) :=
  if sections = [] then some (mmapCached, false)
  else do
    let sec ← sections[mmapCached]?
    let vpn := vaddr >>> z.pageShift
    if findSharedVm z vaddr sec then return (mmapCached, true)
    else if sec.end_ < vpn ∧ mmapCached + 1 < sections.length then
      match searchShared z vaddr sections (List.range' (mmapCached + 1) (sections.length - (mmapCached + 1))) with
      | some i => return (i, true)
      | none => return (sections.length - 1, false)
    else if vpn < sec.start ∧ 0 < mmapCached then
      match searchShared z vaddr sections (List.range mmapCached).reverse with
      | some i => return (i, true)
      | none => return (0, false)
    else return (mmapCached, false)

namespace System

/-- `map_all_shared_memory`, with the sum of the latencies. -/
def mapAllSharedMemory (cfg : Config) (va : Address) (page : Target) : List Nat → System → Option (System × Nat)
  | [], s => some (s, 0)
  | i :: is, s =>
    (s.mapPage cfg i va page).bind fun r =>
    (mapAllSharedMemory cfg va page is r.1).map fun r' => (r'.1, r.2 + r'.2)

variable (cfg : Config) (s : System) (core : Nat) (req : MemReq) (page : Target)

/-- `map_shared_region`: whether the page was mapped as a shared one. -/
def mapSharedRegion :
    Option (Bool × MemReq × System) := do
  let walker := s.walker core
  let (mmapCached, found) ← locateShared cfg.z (cfg.sharedRegion walker.procIdx) walker.mmapCached req.lineAddr
  let s := { s with walker := update s.walker core { walker with mmapCached } }
  if found then
    let (s, overhead) ← mapAllSharedMemory cfg req.lineAddr page (List.range cfg.numProcs) s
    return (true, { req with cycle := req.cycle + overhead }, s)
  else return (false, req, s)

def mapOwn : Option (MemReq × System) :=
  (s.mapPage cfg (s.procOf core) req.lineAddr page).map fun r =>
    ({ req with cycle := req.cycle + r.2 }, r.1)

/-- The part of `do_page_fault` that enters the new page into the page tables. -/
def mapNew : Option (MemReq × System) :=
  if cfg.enableSharedMemory then
    (s.mapSharedRegion cfg core req page).bind fun r =>
      if r.1 then some r.2 else r.2.2.mapOwn cfg core r.2.1 page
  else s.mapOwn cfg core req page

/-- `do_page_fault`. Without a free page it returns the virtual page number. -/
def doPageFault : Option (Address × MemReq × System) := do
  let (page, buddy) ← s.buddy.allocatePages 0 0
  let s := { s with buddy }
  match page with
  | none => return (req.lineAddr >>> cfg.z.pageShift, req, s)
  | some pageNo =>
    let (s, req) := s.tlbShootdown cfg (req.lineAddr >>> cfg.z.pageShift) req
    (s.mapNew cfg core req (.page pageNo)).map fun r => (pageNo, r)

def walkerAccess : Option (Address × MemReq × System) := do
  let (w, s) ← s.pagingAccess cfg (s.procOf core) req
  if w.addr = pageFaultSig then
    let (addr, req, s) ← s.doPageFault cfg core w.req
    return (addr, { req with childId := 0 }, s)
  else return (w.addr, w.req, s)

end System

end Shma.Walker
