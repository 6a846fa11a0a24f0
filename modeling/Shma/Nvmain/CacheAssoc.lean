import Shma.Common.Const
import Shma.Lib.Run

/-!
# A cache of blocks

`CacheImpl` of `Utils/Caches/CacheAssoc.cpp`, with `CacheSet` and `CacheBlock`: blocks with data,
and for each set the array of pointers to its blocks in the order of their last use. A block is
named by its index in `blks`; its data is the element of `data_block` with that index.

The timing of requests and `IssueCommand`, which calls what is below, are left out.
-/
namespace Shma.Nvmain

open Lib.Run

/-- `NVMDataBlock`. The buffer may be null; how much of it is used is noted apart from it. -/
structure NVMDataBlock where
  rawData : Option (List UInt8)
  isValid : Bool
  size : Nat
  deriving DecidableEq

namespace NVMDataBlock

/-- A block after `SetSize`. The new buffer is not set, read here as zeros. -/
def ofSize (s : Nat) : NVMDataBlock := ⟨some (List.replicate s 0), false, s⟩

/-- `operator=`. Without a source buffer the old one stays as it is. Copying beyond the end of a
buffer is `none`. -/
def assign (dst m : NVMDataBlock) : Option NVMDataBlock :=
  match m.rawData with
  | none => some { dst with isValid := m.isValid, size := m.size }
  | some bytes =>
    let buffer := dst.rawData.getD (List.replicate m.size 0)
    if m.size ≤ bytes.length ∧ m.size ≤ buffer.length then
      some ⟨some (bytes.take m.size ++ buffer.drop m.size), m.isValid, m.size⟩
    else none

end NVMDataBlock

def blkValid : Nat := 1

def blkDirty : Nat := 2

/-- `CacheBlock`. The number of references, which nothing raises, and the set are left out. -/
structure CacheBlock where
  (tag status : Nat)
  data : NVMDataBlock
  deriving DecidableEq

namespace CacheBlock

def isValid (b : CacheBlock) : Bool := b.status &&& blkValid != 0

def isDirty (b : CacheBlock) : Bool := b.status &&& (blkValid ||| blkDirty) != 0

end CacheBlock

structure AssocGeometry where
  (assoc setNum cacheLineSize : Nat)
  assoc_pos : 0 < assoc
  setNum_pow : setNum = 2 ^ Nat.log2 setNum
  four_le : 4 ≤ cacheLineSize
  lineSize_pow : cacheLineSize = 2 ^ Nat.log2 cacheLineSize

namespace AssocGeometry

variable (g : AssocGeometry) (pa : Nat)

def setMask : Nat := g.setNum - 1

def setShift : Nat := Nat.log2 g.cacheLineSize

def tagShift : Nat := g.setShift + Nat.log2 g.setNum

def getTag : Nat := pa >>> g.tagShift

/-- `GetIndex` cuts the address to the number of sets before it shifts. -/
def getIndex : Nat := (pa &&& g.setMask) >>> g.setShift

def getPA (tag setId : Nat) : Nat := tag <<< g.tagShift ||| setId <<< g.setShift

def line : Nat := pa >>> g.setShift

end AssocGeometry

def shiftUntil (blk : Nat) : Nat → List Nat → List Nat
  | _, [] => []
  | tmpBlk, b :: bs => tmpBlk :: if b = blk then bs else shiftUntil blk b bs

def moveToHead (blk : Nat) : List Nat → List Nat
  | [] => []
  | b :: bs => if b = blk then b :: bs else shiftUntil blk blk (b :: bs)

/-- The loop of `MoveToTail` for the places below `n`: what is read from a place is written back to
it. -/
def rewriteUntil (blk : Nat) : Nat → List Nat → List Nat
  | 0, bs => bs
  | i + 1, bs =>
    match bs[i]? with
    | none => bs
    | some tmpBlk =>
      let bs := bs.set i tmpBlk
      if tmpBlk = blk then bs else rewriteUntil blk i bs

/-- `MoveToTail`, where the loop counts down in an `int`. -/
def moveToTail (blk : Nat) (bs : List Nat) : List Nat :=
  if bs[bs.length - 1]? = some blk then bs
  else rewriteUntil blk (Int.bmod (bs.length - 1 : Nat) (2^32) + 1).toNat bs

structure CacheImpl (g : AssocGeometry) where
  sets : Nat → List Nat
  blks : Nat → CacheBlock

namespace CacheImpl

variable {g : AssocGeometry}

def new (g : AssocGeometry) : CacheImpl g where
  sets i := List.range' (i * g.assoc) g.assoc
  blks b := ⟨b % g.assoc, 0, .ofSize g.cacheLineSize⟩

variable (c : CacheImpl g)

def setBlk (b : Nat) (blk : CacheBlock) : CacheImpl g :=
  { c with blks := update c.blks b blk }

def findBlock (pa : Nat) : Option Nat :=
  (c.sets (g.getIndex pa)).find? fun b => g.getTag pa == (c.blks b).tag && (c.blks b).isValid

def findVictim (pa : Nat) : Option Nat :=
  match (c.sets (g.getIndex pa)).find? fun b => !(c.blks b).isValid with
  | some b => some b
  | none => (c.sets (g.getIndex pa))[g.assoc - 1]?

/-- The block moves to the head of set 0, whatever set it is in. -/
def use (target : Nat) : CacheImpl g :=
  { c with sets := update c.sets 0 (moveToHead target (c.sets 0)) }

def read (target : Option Nat) (data : NVMDataBlock) : Option (NVMDataBlock × CacheImpl g) :=
  match target with
  | none => some (data, c)
  | some b => (data.assign (c.blks b).data).map fun data => (data, c.use b)

def markDirty : Option (CacheImpl g) :=
  (c.sets 0)[0]?.map fun b => c.setBlk b { c.blks b with status := (c.blks b).status ||| blkDirty }

def write (target : Option Nat) (data : NVMDataBlock) : Option (CacheImpl g) :=
  match target with
  | none => some c
  | some b =>
    ((c.blks b).data.assign data).bind fun data =>
    (c.setBlk b { c.blks b with data }).markDirty.map fun c => c.use b

/-- `Evict`: whether the block has to be written back. -/
def evict (blk : Option Nat) : Bool := (blk.map fun b => (c.blks b).isDirty).getD false

def install (installAddr victimBlk : Nat) (data : NVMDataBlock) : Option (CacheImpl g) :=
  ((c.blks victimBlk).data.assign data).map fun data =>
    c.setBlk victimBlk ⟨g.getTag installAddr, blkValid, { data with isValid := true }⟩

end CacheImpl

/-! ### Runs -/

/-- The calls: `Install` into the victim for the address, `Read` and `Write` of the block found for
it. -/
inductive CacheOp where
  | install (pa : Nat) (data : NVMDataBlock)
  | read (pa : Nat) (data : NVMDataBlock)
  | write (pa : Nat) (data : NVMDataBlock)

/-- The cache, the line that each block holds, the data last installed or written for each line, and
whether a block was written after its installation. -/
structure CacheLog (g : AssocGeometry) where
  cache : CacheImpl g
  holder : Nat → Option Nat
  latest : Nat → Option (List UInt8)
  written : Nat → Bool

namespace CacheLog

variable {g : AssocGeometry}

def new (g : AssocGeometry) : CacheLog g := ⟨.new g, fun _ => none, fun _ => none, fun _ => false⟩

variable (s : CacheLog g)

def noteWrite (pa : Nat) (data : NVMDataBlock) (target : Option Nat) (cache : CacheImpl g) :
    CacheLog g :=
  match target with
  | none => { s with cache }
  | some b =>
    { s with
      cache
      latest := update s.latest (g.line pa) data.rawData
      written := update s.written b true }

def step : CacheOp → Option (CacheLog g)
  | .install pa data =>
    (s.cache.findVictim pa).bind fun b =>
    (s.cache.install pa b data).map fun cache =>
      { cache
        holder := update s.holder b (some (g.line pa))
        latest := update s.latest (g.line pa) data.rawData
        written := update s.written b false }
  | .read pa data => (s.cache.read (s.cache.findBlock pa) data).map fun r => { s with cache := r.2 }
  | .write pa data =>
    (s.cache.write (s.cache.findBlock pa) data).map (s.noteWrite pa data (s.cache.findBlock pa))

def IsLine (g : AssocGeometry) (data : NVMDataBlock) : Prop :=
  data.rawData.map List.length = some g.cacheLineSize ∧ data.size = g.cacheLineSize
  deriving Decidable

/-- Lines are installed when they are not found, data is of the size of a line and what it is read
into can take it. -/
def Allowed : CacheOp → Prop
  | .install pa data => s.cache.findBlock pa = none ∧ IsLine g data
  | .read _ data => ∀ bytes ∈ data.rawData, g.cacheLineSize ≤ bytes.length
  | .write _ data => IsLine g data

/-- Blocks are found for the lines that were installed and not replaced since, with the data last
installed or written, and the address of a victim's line can be told from its tag and set. -/
structure Right : Prop where
  found : ∀ pa b, s.cache.findBlock pa = some b → s.holder b = some (g.line pa)
  finds : ∀ pa b, s.holder b = some (g.line pa) → (s.cache.findBlock pa).isSome
  data : ∀ pa b, s.cache.findBlock pa = some b → (s.cache.blks b).data.rawData = s.latest (g.line pa)
  address : ∀ pa b n, s.cache.findVictim pa = some b → s.holder b = some n →
    g.getPA (s.cache.blks b).tag (g.getIndex pa) = n <<< g.setShift

end CacheLog

end Shma.Nvmain
