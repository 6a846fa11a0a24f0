import Shma.PageTable.Domains
import Shma.PageTable.Entry

/-!
# Long-mode paging

`LongModePaging` of `page-table/page_table.cpp`: four, three or two levels under
`pml4`, which is table 0 of the structure. Removing a table unlinks it; what
`delete` does to memory that came from `gm_memalign` is not modelled.
-/
namespace Shma.PageTable

structure LongModePaging where
  mode : PagingStyle
  tables : PageTables
  (curPdpNum curPdNum curPtNum : Nat)

namespace LongModePaging

def new (select : PagingStyle) : LongModePaging :=
  { mode := select, tables := .new 512, curPdpNum := 0, curPdNum := 0, curPtNum := 0 }

variable (z : Zinfo) (p : LongModePaging)

/-- `allocate_page_directory_pointer`; the results are the table and the number of
tables created. -/
def allocatePageDirectoryPointer (pml4Id : Nat) :
    Option (LongModePaging × Option Nat × Nat) := do
  assertThat (pml4Id < 512 ∧ p.curPdpNum < 512)
  if ← p.tables.isPresent 0 pml4Id then
    return (p, ← p.tables.nextTable 0 pml4Id, 0)
  else
    let (table, h) ← p.tables.linkNewTable 0 pml4Id 512
    return ({ p with tables := h, curPdpNum := p.curPdpNum + 1 }, some table, 1)

def allocatePageDirectory (pml4Id pdptId : Nat) :
    Option (LongModePaging × Option Nat × Nat) := do
  match ← p.tables.nextTable 0 pml4Id with
  | some pdpTable =>
    if ← p.tables.isPresent pdpTable pdptId then
      return (p, ← p.tables.nextTable pdpTable pdptId, 0)
    else
      let (pdTable, h) ← p.tables.linkNewTable pdpTable pdptId 512
      return ({ p with tables := h, curPdNum := p.curPdNum + 1 }, some pdTable, 1)
  | none =>
    let (p, table, allocTime) ← p.allocatePageDirectoryPointer pml4Id
    match table with
    | none => return (p, none, allocTime)
    | some _ =>
      let pdptTable ← (← p.tables.nextTable 0 pml4Id)
      let (pdTable, h) ← p.tables.linkNewTable pdptTable pdptId 512
      return ({ p with tables := h, curPdNum := p.curPdNum + 1 }, some pdTable, allocTime + 1)

def allocatePageTable (pml4Id pdptId pdtId : Nat) :
    Option (LongModePaging × Option Nat × Nat) := do
  assertThat (p.mode = .longModeNormal)
  match ← p.tables.nextTable 0 pml4Id with
  | some pdpTable =>
    match ← p.tables.nextTable pdpTable pdptId with
    | some pdTable =>
      if ← p.tables.isPresent pdTable pdtId then
        return (p, ← p.tables.nextTable pdTable pdtId, 0)
      else
        let (table, h) ← p.tables.linkNewTable pdTable pdtId 512
        return ({ p with tables := h, curPtNum := p.curPtNum + 1 }, some table, 1)
    | none =>
      let (p, table, allocTime) ← p.allocatePageDirectory pml4Id pdptId
      match table with
      | none => return (p, none, allocTime)
      | some _ =>
        let pageDir ← (← p.tables.nextTable pdpTable pdptId)
        let (table, h) ← p.tables.linkNewTable pageDir pdtId 512
        return ({ p with tables := h, curPtNum := p.curPtNum + 1 }, some table, allocTime + 1)
  | none =>
    let (pdpTable, h) ← p.tables.linkNewTable 0 pml4Id 512
    let (pdTable, h) ← h.linkNewTable pdpTable pdptId 512
    let (table, h) ← h.linkNewTable pdTable pdtId 512
    return ({ p with tables := h, curPdpNum := p.curPdpNum + 1, curPdNum := p.curPdNum + 1,
                     curPtNum := p.curPtNum + 1 }, some table, 3)

/-- The end of each branch of `map_page_table`. A null table makes the source
return `false`, that is 0. -/
def finishMap (leaf : Nat) (pgPtr : Target) (pbuffer : Bool) :
    LongModePaging × Option Nat × Nat → Option (LongModePaging × Nat × Option (Nat × Nat))
  | (p, none, _) => some (p, 0, none)
  | (p, some table, allocTime) =>
    (p.tables.mapLeaf table leaf pgPtr pbuffer).map fun r =>
      ({ p with tables := r.1 }, z.memAccessTime * (1 + allocTime), r.2)

/-- `map_page_table`: the latency and the entry reported as newly mapped, if any. -/
def mapPageTable (addr : Address) (pgPtr : Target) (pbuffer : Bool) :
    Option (LongModePaging × Nat × Option (Nat × Nat)) := do
  let d := getDomains addr p.mode
  assertThat (d.pml4 ≠ noOffset ∧ d.pdp ≠ noOffset)
  match p.mode with
  | .longModeNormal =>
    assertThat (d.pd ≠ noOffset ∧ d.pt ≠ noOffset)
    finishMap z d.pt pgPtr pbuffer (← p.allocatePageTable d.pml4 d.pdp d.pd)
  | .longModeMiddle => finishMap z d.pd pgPtr pbuffer (← p.allocatePageDirectory d.pml4 d.pdp)
  | .longModeHuge => finishMap z d.pdp pgPtr pbuffer (← p.allocatePageDirectoryPointer d.pml4)
  | _ => return (p, z.memAccessTime, none)

/-- The loop of `get_tables`: the table reached so far is dereferenced before it is
tested. -/
def getTablesLoop (h : PageTables) : Option Nat → List Nat → Option (Option Nat)
  | table, [] => some table
  | table, i :: ids => do
    let t ← table
    match ← h.nextTable t i with
    | none => return none
    | some u => getTablesLoop h (some u) ids

/-- `get_tables`, with the first `level` entry numbers. -/
def getTables : List Nat → Option (Option Nat)
  | [] => none
  | i :: ids => do getTablesLoop p.tables (← p.tables.nextTable 0 i) ids

/-- The end of each branch of `unmap_page_table`. -/
def finishUnmap (leaf : Nat) : Option Nat → Option (LongModePaging × Bool)
  | none => some (p, false)
  | some table => (p.tables.invalidatePage table leaf).map fun h => ({ p with tables := h }, false)

/-- `unmap_page_table`; it returns `false` on every path. -/
def unmapPageTable (addr : Address) : Option (LongModePaging × Bool) := do
  let d := getDomains addr p.mode
  match p.mode with
  | .longModeNormal => p.finishUnmap d.pt (← p.getTables [d.pml4, d.pdp, d.pd])
  | .longModeMiddle => p.finishUnmap d.pd (← p.getTables [d.pml4, d.pdp])
  | .longModeHuge => p.finishUnmap d.pdp (← p.getTables [d.pml4])
  | _ => return (p, false)

def access (f : Frames) (req : MemReq) : Option Walk := do
  let d := getDomains req.lineAddr p.mode
  let fault (req : MemReq) : Walk := ⟨pageFaultSig, req, p.tables, f⟩
  match ← p.tables.nextTable 0 d.pml4 with
  | none => return fault req
  | some pdpPtr =>
    match p.mode with
    | .longModeHuge => walkLeaf z p.tables f (req.after z 4) pdpPtr d.pdp pdpPtr (some d.pdp)
    | .longModeMiddle =>
      match ← p.tables.nextTable pdpPtr d.pdp with
      | none => return fault req
      | some pgt =>
        assertThat (d.pd ≠ noOffset)
        walkLeaf z p.tables f (req.after z 5) pgt d.pd pgt (some d.pd)
    | .longModeNormal =>
      match ← p.tables.nextTable pdpPtr d.pdp with
      | none => return fault req
      | some pdPtr =>
        assertThat (d.pd ≠ noOffset ∧ d.pt ≠ noOffset)
        match ← p.tables.nextTable pdPtr d.pd with
        | none => return fault (req.after z 6)
        | some pgt => walkLeaf z p.tables f (req.after z 6) pgt d.pt pgt (some d.pt)
    | _ => none

/-! ### Ranges, and removing tables -/

/-- The loop of `allocate_page_table(addr, size)`, which counts from `i` on. -/
def allocateEach (p : LongModePaging) (pml4Id pdptId pdtId : Nat) : Nat → Option (LongModePaging × Bool)
  | 0 => some (p, true)
  | n + 1 => do
    let (p, table, _) ← p.allocatePageTable pml4Id pdptId pdtId
    let (p, succeed) ← allocateEach p pml4Id pdptId (pdtId + 1) n
    return (p, table.isSome && succeed)

/-- `allocate_page_table(addr, size)`; a range that is not aligned is fatal. -/
def allocatePageTableRange (addr size : Address) : Option (LongModePaging × Bool) := do
  assertThat (p.mode = .longModeNormal ∧ addr &&& 0x1fffff = 0)
  p.allocateEach (getPml4Off addr p.mode) (getPageDirectoryPointerOff addr p.mode) (getPageDirectoryOff addr p.mode)
    (pageTableNum size)

def removePageTable (pml4Id pdpId pdId : Nat) : Option (LongModePaging × Bool) := do
  assertThat (p.mode = .longModeNormal)
  match ← p.tables.nextTable 0 pml4Id with
  | none => return (p, true)
  | some pdpTable =>
    match ← p.tables.nextTable pdpTable pdpId with
    | none => return (p, true)
    | some pdTable =>
      match ← p.tables.nextTable pdTable pdId with
      | none => return (p, true)
      | some _ =>
        let h ← p.tables.invalidateEntry pdTable pdId
        return ({ p with tables := h, curPtNum := decrement p.curPtNum }, true)

/-- The loops over the entries of a table: what the entries that are present point to is removed. -/
def removeEach (remove : LongModePaging → Nat → Option (LongModePaging × Bool)) (table : Nat) :
    List Nat → LongModePaging → Option (LongModePaging × Bool)
  | [], p => some (p, true)
  | i :: ids, p => do
    if ← p.tables.isPresent table i then
      let (p, removed) ← remove p i
      let (p, succeed) ← removeEach remove table ids p
      return (p, removed && succeed)
    else removeEach remove table ids p

/-- The first part of `remove_page_directory`: with page tables, they go first. -/
def removePageTables (pml4Id pdpId pdTable : Nat) : Option (LongModePaging × Bool) :=
  if p.mode = .longModeNormal then
    removeEach (fun p i => p.removePageTable pml4Id pdpId i) pdTable (List.range 512) p
  else some (p, true)

def removePageDirectory (pml4Id pdpId : Nat) : Option (LongModePaging × Bool) := do
  assertThat (p.mode ≠ .longModeHuge ∧ pml4Id < 512 ∧ pdpId < 512)
  match ← p.tables.nextTable 0 pml4Id with
  | none => return (p, true)
  | some pdpTable =>
    match ← p.tables.nextTable pdpTable pdpId with
    | none => return (p, true)
    | some pdTable =>
      let (p, _) ← p.removePageTables pml4Id pdpId pdTable
      let h ← p.tables.invalidateEntry pdpTable pdpId
      return ({ p with tables := h, curPdNum := decrement p.curPdNum }, true)

/-- The first part of `remove_page_directory_pointer`: with page directories, they go first. -/
def removePageDirectories (pml4Id pdpTable : Nat) : Option (LongModePaging × Bool) :=
  if p.mode ≠ .longModeHuge then
    removeEach (fun p i => p.removePageDirectory pml4Id i) pdpTable (List.range 512) p
  else some (p, true)

def removePageDirectoryPointer (pml4Id : Nat) : Option (LongModePaging × Bool) := do
  match ← p.tables.nextTable 0 pml4Id with
  | none => return (p, true)
  | some pdpTable =>
    let (p, succeed) ← p.removePageDirectories pml4Id pdpTable
    let h ← p.tables.invalidateEntry 0 pml4Id
    return ({ p with tables := h, curPdpNum := decrement p.curPdpNum }, succeed)

/-- The loop of `remove_page_table(addr, size)`. -/
def removeRange (p : LongModePaging) (pml4Id pdpId pdId : Nat) : Nat → Option LongModePaging
  | 0 => some p
  | n + 1 => do
    let (p, _) ← p.removePageTable pml4Id pdpId pdId
    removeRange p pml4Id pdpId (pdId + 1) n

def removePageTableRange (addr size : Address) : Option (LongModePaging × Bool) := do
  assertThat (p.mode = .longModeNormal)
  if addr &&& 0x1fffff ≠ 0 then return (p, false)
  else
    let d := getDomains addr p.mode
    let p ← p.removeRange d.pml4 d.pdp d.pd (pageTableNum size)
    return (p, true)

end LongModePaging

end Shma.PageTable
