import Shma.PageTable.Domains
import Shma.PageTable.Entry

/-!
# Legacy paging

`NormalPaging` of `page-table/page_table.cpp`: 4 KB pages under one level of page
tables, or 4 MB pages in the page directory itself, which is table 0.
-/
namespace Shma.PageTable

structure NormalPaging where
  mode : PagingStyle
  tables : PageTables
  curPageTableNum : Nat

namespace NormalPaging

def new (select : PagingStyle) : NormalPaging :=
  { mode := select, tables := .new 1024, curPageTableNum := 0 }

variable (p : NormalPaging) (pdId : Nat)

def allocateOnePagetable : Option (NormalPaging × Nat × Nat) := do
  match ← p.tables.nextTable 0 pdId with
  | some table => return (p, table, 0)
  | none =>
    assertThat (p.curPageTableNum ≤ 1024 ∧ p.mode = .legacyNormal)
    let (table, h) ← p.tables.linkNewTable 0 pdId 1024
    return ({ p with tables := h, curPageTableNum := p.curPageTableNum + 1 }, table, 1)

def mapPageTable (z : Zinfo) (p : NormalPaging) (addr : Address) (pgPtr : Target) (isBuffer : Bool) :
    Option (NormalPaging × Nat × Option (Nat × Nat)) := do
  let pdId := getPageDirectoryOff addr p.mode
  match p.mode with
  | .legacyNormal =>
    let (p, table, allocTime) ← p.allocateOnePagetable pdId
    let (h, entry) ← p.tables.mapLeaf table (getPagetableOff addr p.mode) pgPtr isBuffer
    return ({ p with tables := h }, z.memAccessTime * (1 + allocTime), entry)
  | .legacyHuge =>
    let (h, entry) ← p.tables.mapLeaf 0 pdId pgPtr isBuffer
    return ({ p with tables := h }, z.memAccessTime, entry)
  | _ => return (p, z.memAccessTime, none)

/-- `unmap_page_table`. With 4 KB pages the table that was looked up is never
assigned, so nothing is unmapped. -/
def unmapPageTable (addr : Address) : Option (NormalPaging × Bool) := do
  let pdId := getPageDirectoryOff addr p.mode
  match p.mode with
  | .legacyNormal =>
    let _ ← p.tables.getNextLevelAddress 0 pdId
    return (p, false)
  | .legacyHuge =>
    let h ← p.tables.invalidatePage 0 pdId
    return ({ p with tables := h }, true)
  | _ => return (p, true)

def access (z : Zinfo) (p : NormalPaging) (f : Frames) (req : MemReq) : Option Walk := do
  let pgDirOff := getPageDirectoryOff req.lineAddr p.mode
  match p.mode with
  | .legacyNormal =>
    match ← p.tables.nextTable 0 pgDirOff with
    | none => return ⟨pageFaultSig, req, p.tables, f⟩
    | some ptr =>
      let pgOff := getPagetableOff req.lineAddr p.mode
      walkLeaf z p.tables f (req.after z 2) ptr pgOff ptr (some pgOff)
  | .legacyHuge => walkLeaf z p.tables f (req.after z 3) 0 pgDirOff 0 (some pgDirOff)
  | _ => none

/-! ### Ranges, and removing tables -/

def removePageTable : Option (NormalPaging × Bool) := do
  assertThat (p.mode = .legacyNormal)
  if ← p.tables.isPresent 0 pdId then
    let h ← p.tables.invalidateEntry 0 pdId
    return ({ p with tables := h, curPageTableNum := decrement p.curPageTableNum }, true)
  else return (p, false)

def pageNum (bytes : Address) : Nat := (((bytes + 0x3fffff) % 2^64) >>> 22) % 2^32

/-- The loop of `allocate_page_table(addr, size)`, which counts from `i` on. A table always comes
back. -/
def allocateEach (p : NormalPaging) (pdId : Nat) : Nat → Option NormalPaging
  | 0 => some p
  | n + 1 => do
    let (p, _, _) ← p.allocateOnePagetable pdId
    allocateEach p (pdId + 1) n

/-- `allocate_page_table(addr, size)`; a range that is not aligned is fatal. -/
def allocatePageTableRange (addr size : Address) : Option (NormalPaging × Bool) := do
  assertThat (p.mode = .legacyNormal ∧ addr &&& 0x3fffff = 0)
  let p ← p.allocateEach (getPageDirectoryOff addr p.mode) (pageNum size)
  return (p, true)

/-- The loop of `remove_page_table(addr, size)`, which removes the same entry each time. -/
def removeEach (p : NormalPaging) (pdId : Nat) : Nat → Option (NormalPaging × Bool)
  | 0 => some (p, true)
  | n + 1 => do
    let (p, removed) ← p.removePageTable pdId
    let (p, succeed) ← removeEach p pdId n
    return (p, removed && succeed)

/-- `remove_page_table(addr, size)`. The number of tables is computed from the address, not from the
size, and it is added to the first entry where the loop counter should be. -/
def removePageTableRange (addr _size : Address) : Option (NormalPaging × Bool) := do
  assertThat (p.mode = .legacyNormal ∧ addr &&& 0x3fffff = 0)
  p.removeEach ((getPageDirectoryOff addr p.mode + pageNum addr) % 2^32) (pageNum addr)

end NormalPaging

end Shma.PageTable
