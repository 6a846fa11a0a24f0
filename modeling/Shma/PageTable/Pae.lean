import Shma.PageTable.Domains
import Shma.PageTable.Entry

/-!
# PAE paging

`PAEPaging` of `page-table/page_table.cpp`. The page-directory-pointer table is
table 0 and has four entries.
-/
namespace Shma.PageTable

structure PAEPaging where
  mode : PagingStyle
  tables : PageTables
  (curPdtNum curPtNum : Nat)

namespace PAEPaging

def new (select : PagingStyle) : PAEPaging :=
  { mode := select, tables := .new 4, curPdtNum := 0, curPtNum := 0 }

variable (z : Zinfo) (p : PAEPaging)

def allocatePageTable (pdptId pdId : Nat) : Option (PAEPaging × Nat × Nat) := do
  assertThat (p.mode = .paeNormal ∧ p.curPtNum < 512)
  match ← p.tables.nextTable 0 pdptId with
  | none =>
    let (table, h) ← p.tables.linkNewTable 0 pdptId 512
    let (page, h) ← h.linkNewTable table pdId 512
    return ({ p with tables := h, curPtNum := p.curPtNum + 1, curPdtNum := p.curPdtNum + 1 }, page, 2)
  | some table =>
    match ← p.tables.nextTable table pdId with
    | some page => return (p, page, 0)
    | none =>
      let (page, h) ← p.tables.linkNewTable table pdId 512
      return ({ p with tables := h, curPtNum := p.curPtNum + 1 }, page, 1)

/-- `allocate_pdt`; it counts the new page directory in `cur_pt_num`. -/
def allocatePdt (pdptId : Nat) : Option (PAEPaging × Nat × Nat) := do
  assertThat (p.curPdtNum < 4 ∧ pdptId < 4)
  match ← p.tables.nextTable 0 pdptId with
  | some pageDir => return (p, pageDir, 0)
  | none =>
    let (pageDir, h) ← p.tables.linkNewTable 0 pdptId 512
    return ({ p with tables := h, curPtNum := p.curPtNum + 1 }, pageDir, 1)

def finishMap (leaf : Nat) (pgPtr : Target) (pbuffer : Bool) :
    PAEPaging × Nat × Nat → Option (PAEPaging × Nat × Option (Nat × Nat))
  | (p, table, allocTime) =>
    (p.tables.mapLeaf table leaf pgPtr pbuffer).map fun r =>
      ({ p with tables := r.1 }, z.memAccessTime * (1 + allocTime), r.2)

def mapPageTable (addr : Address) (pgPtr : Target) (pbuffer : Bool) :
    Option (PAEPaging × Nat × Option (Nat × Nat)) := do
  let pdpId := getPageDirectoryPointerOff addr p.mode
  let pdId := getPageDirectoryOff addr p.mode
  match p.mode with
  | .paeNormal => finishMap z (getPagetableOff addr p.mode) pgPtr pbuffer (← p.allocatePageTable pdpId pdId)
  | .paeHuge => finishMap z pdId pgPtr pbuffer (← p.allocatePdt pdpId)
  | _ => return (p, z.memAccessTime, none)

def unmapPageTable (addr : Address) : Option (PAEPaging × Bool) := do
  let pdpId := getPageDirectoryPointerOff addr p.mode
  let pdId := getPageDirectoryOff addr p.mode
  match ← p.tables.nextTable 0 pdpId with
  | none => return (p, false)
  | some pdPtr =>
    match p.mode with
    | .paeNormal =>
      match ← p.tables.nextTable pdPtr pdId with
      | none => return (p, false)
      | some ptPtr =>
        let h ← p.tables.invalidatePage ptPtr (getPagetableOff addr p.mode)
        return ({ p with tables := h }, true)
    | .paeHuge =>
      let h ← p.tables.invalidatePage pdPtr pdId
      return ({ p with tables := h }, true)
    | _ => return (p, false)

/-- `access`. With huge pages the entry to be marked dirty is looked up in the
page-directory-pointer table; with normal pages its index is never assigned. -/
def access (f : Frames) (req : MemReq) : Option Walk := do
  let pdpId := getPageDirectoryPointerOff req.lineAddr p.mode
  let pdId := getPageDirectoryOff req.lineAddr p.mode
  let fault (req : MemReq) : Walk := ⟨pageFaultSig, req, p.tables, f⟩
  match ← p.tables.nextTable 0 pdpId with
  | none => return fault req
  | some ptr =>
    match p.mode with
    | .paeHuge => walkLeaf z p.tables f (req.after z 3) ptr pdId 0 (some pdId)
    | .paeNormal =>
      match ← p.tables.nextTable ptr pdId with
      | none => return fault req
      | some pgt =>
        let pgId := getPagetableOff req.lineAddr p.mode
        let pbuffer ← p.tables.pointToBufferTable pgt pgId
        let ptr ← p.tables.getNextLevelAddress pgt pgId
        finishAccess z p.tables f (req.after z 4) pgt ptr none pbuffer
    | _ => none

/-! ### Removing tables -/

def removePageTable (pdptNum pdNum : Nat) : Option (PAEPaging × Bool) := do
  assertThat (pdptNum < 4 ∧ pdNum < 512 ∧ p.mode = .paeNormal)
  match ← p.tables.nextTable 0 pdptNum with
  | none => return (p, false)
  | some pageDir =>
    if ← p.tables.isPresent pageDir pdNum then
      let h ← p.tables.invalidateEntry pageDir pdNum
      return ({ p with tables := h, curPtNum := decrement p.curPtNum }, true)
    else return (p, false)

/-- The loop of `remove_pdt` over the entries of the page directory. -/
def removePageTables (pdpId pageDir : Nat) : List Nat → PAEPaging → Option PAEPaging
  | [], p => some p
  | i :: ids, p => do
    if ← p.tables.isPresent pageDir i then
      let (p, _) ← p.removePageTable pdpId i
      removePageTables pdpId pageDir ids p
    else removePageTables pdpId pageDir ids p

/-- `remove_pdt(pdp_entry_id)`. With page tables the page directory itself stays linked. -/
def removePdt (pdpId : Nat) : Option (PAEPaging × Bool) := do
  match ← p.tables.nextTable 0 pdpId with
  | none => return (p, false)
  | some pageDir =>
    match p.mode with
    | .paeHuge =>
      let h ← p.tables.invalidateEntry 0 pdpId
      return ({ p with tables := h, curPdtNum := decrement p.curPdtNum }, true)
    | .paeNormal =>
      let p ← removePageTables pdpId pageDir (List.range 512) p
      return ({ p with curPdtNum := decrement p.curPdtNum }, true)
    | _ => return (p, false)

end PAEPaging

end Shma.PageTable
