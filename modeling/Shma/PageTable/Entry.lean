import Shma.DramBuffer.Block
import Shma.Lib.Radix
import Shma.Mmu.Zone

/-!
# Page-table entries and tables

`page-table/page_table_entry.h` and `page-table/comm_page_table_op.h`. The tables
of one paging structure live in a store and are referred to by identifier. A
`void*` in an entry points to a table, to a page descriptor or to a DRAM block;
using it as something it is not, indexing past `map_count` and dereferencing a
null pointer are all `none`. The entry bits that nothing reads are left out.
-/
namespace Shma.PageTable

open Mmu

/-- What a virtual page is mapped to: a page descriptor or a DRAM block. -/
inductive Target where
  | page (pageNo : Address)
  | block (blockId : Nat)
  deriving DecidableEq, Repr

def Target.isBlock : Target → Bool
  | .page _ => false
  | .block _ => true

variable (z : Zinfo) (h : PageTables) (f : Frames) (req : MemReq)

def Target.ppn : Target → Address
  | .page p => p
  | .block b => z.blockIdToAddr b >>> z.pageShift

inductive Ptr where
  | table (id : Nat)
  | target (t : Target)
  deriving DecidableEq, Repr

/-- `BasePDTEntry`; the three flags are the bits `P`, `D` and `PBUFFER`. -/
structure BasePDTEntry where
  (present dirty pbuffer : Bool)
  nextLevelPtr : Option Ptr
  deriving DecidableEq, Repr

namespace BasePDTEntry

def new : BasePDTEntry := { present := false, dirty := false, pbuffer := false, nextLevelPtr := none }

variable (e : BasePDTEntry)

def validate (nextLevelAddr : Ptr) (isBuffer : Bool) : BasePDTEntry :=
  { e with present := true, pbuffer := isBuffer, nextLevelPtr := some nextLevelAddr }

/-- `invalidate_page`, past its assertion that the entry is present. -/
def invalidatePage (_ : BasePDTEntry) : BasePDTEntry := new

/-- `invalidate_page_table`. The table is deleted, which here means that nothing refers to it any
more. -/
def invalidatePageTable : Option BasePDTEntry :=
  if e.present ∧ e.nextLevelPtr.isSome then some new else none

def setNextLevelAddress (ppt : Ptr) : BasePDTEntry := { e with nextLevelPtr := some ppt }

def setBuffer (bufferBlock : Bool) : BasePDTEntry := { e with pbuffer := bufferBlock }

def setDirty : BasePDTEntry := { e with dirty := true }

end BasePDTEntry

/-- The `--` of an `unsigned` counter of tables. -/
def decrement (n : Nat) : Nat := if n = 0 then 2^32 - 1 else n - 1

/-- The page tables that a range of `size` bytes takes. -/
def pageTableNum (size : Address) : Nat := (((size + 0x1fffff) % 2^64) >>> 21) % 2^32

structure PageTables where
  tables : Lib.Radix.Tables BasePDTEntry
  mapCount : Nat → Nat

namespace PageTables

/-- A structure whose only table, number 0, has `size` entries. -/
def new (size : Nat) : PageTables :=
  { tables := ⟨fun _ _ => BasePDTEntry.new, 1⟩, mapCount := fun _ => size }

variable (h : PageTables) (t i : Nat)

def get : Option BasePDTEntry :=
  if i < h.mapCount t then some (h.tables.cell t i) else none

def modify (f : BasePDTEntry → BasePDTEntry) : PageTables :=
  { h with tables := h.tables.put t i (f (h.tables.cell t i)) }

def isPresent : Option Bool := (h.get t i).map (·.present)

def isValid : Option Bool := (h.get t i).map (·.present)

def pointToBufferTable : Option Bool := (h.get t i).map (·.pbuffer)

/-- `get_next_level_address<void>`; a null pointer is the inner `none`. -/
def getNextLevelAddress : Option (Option Ptr) :=
  (h.get t i).map (·.nextLevelPtr)

/-- Using a pointer as a `PageTable*`. -/
def asTable : Option Ptr → Option (Option Nat)
  | none => some none
  | some (.table t) => some (some t)
  | some _ => none

def nextTable : Option (Option Nat) := (h.getNextLevelAddress t i).bind asTable

def validateEntry (nextLevelAddr : Ptr) (mapToBuffer : Bool) : Option PageTables :=
  (h.get t i).map fun _ => h.modify t i fun e => e.validate nextLevelAddr mapToBuffer

def invalidatePage : Option PageTables :=
  (h.get t i).map fun e => if e.present then h.modify t i (·.invalidatePage) else h

def invalidateEntry : Option PageTables :=
  (h.get t i).bind fun e => e.invalidatePageTable.map fun e => h.modify t i fun _ => e

/-- `new PageTable(size)` followed by `validate_entry` of the entry that is to
point to it. -/
def linkNewTable (t i size : Nat) : Option (Nat × PageTables) :=
  let id := h.tables.fresh
  let h : PageTables :=
    { tables := ⟨update h.tables.cell id fun _ => BasePDTEntry.new, id + 1⟩
      mapCount := update h.mapCount id size }
  (h.validateEntry t i (.table id) false).map fun h => (id, h)

/-- The common end of every `map_page_table`: report the entry if it was not valid,
then validate it. -/
def mapLeaf (pgPtr : Target) (pbuffer : Bool) :
    Option (PageTables × Option (Nat × Nat)) := do
  let valid ← h.isValid t i
  let h ← h.validateEntry t i (.target pgPtr) pbuffer
  return (h, if valid then none else some (t, i))

end PageTables

structure Frames where
  mem : MemMap
  block : Nat → DRAMBufferBlock

/-- What a page walk returns and leaves behind. -/
structure Walk where
  addr : Address
  req : MemReq
  tables : PageTables
  frames : Frames

section

variable (pgt : Nat) (pblock : Option Ptr) (pgId : Option Nat) (pbuffer : Bool)

/-- `get_block_id`. `pgId` is `none` where the caller passes a variable it never
assigned. -/
def getBlockId (setDirty writeBack : Bool) (accessCounter : Nat) : Option Walk :=
  match pblock, pbuffer with
  | none, _ => some ⟨invalidPageAddr, req, h, f⟩
  | some (.target (.block b)), true =>
    let addr := (Target.block b).ppn z
    if setDirty then
      pgId.bind fun pgId =>
      (h.get pgt pgId).map fun _ =>
        ⟨addr, { req with childId := 1 }, h.modify pgt pgId (·.setDirty),
          { f with block := update f.block b (f.block b).setDirty }⟩
    else some ⟨addr, { req with childId := (f.block b).dirty.toNat }, h, f⟩
  | some (.target (.page p)), false =>
    let mem := if writeBack then f.mem.modify p fun d => { d with overlap := accessCounter } else f.mem
    some ⟨p, { req with childId := (mem.page p).overlap }, h, { f with mem }⟩
  | some _, _ => none

/-- The common end of every `access`: the request type decides what else the walk
writes. -/
def finishAccess : Option Walk :=
  let writeBack := decide (req.type = .writeback)
  getBlockId z h f req pgt pblock pgId pbuffer (decide (req.type = .setdirty)) writeBack
    (if writeBack then req.childId else 0)

end

/-- The common end of a walk that has reached the table `t` of the leaf: read the
entry's buffer flag and pointer, fault on a null pointer. `pgt` and `pgId` name
the entry whose dirty bit is set. -/
def walkLeaf (t i pgt : Nat) (pgId : Option Nat) :
    Option Walk := do
  let pbuffer ← h.pointToBufferTable t i
  match ← h.getNextLevelAddress t i with
  | none => return ⟨pageFaultSig, req, h, f⟩
  | some ptr => finishAccess z h f req pgt (some ptr) pgId pbuffer

end Shma.PageTable
