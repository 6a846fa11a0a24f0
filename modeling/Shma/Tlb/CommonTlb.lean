import Shma.DramBuffer.Block

/-!
# TLB entries and the ordinary TLB

`ExtendTlbEntry` of `tlb/tlb_entry.h` and `CommonTlb` of `tlb/common_tlb.h`. An
entry is referred to by its index in `tlb`. The two tries are maps from page
numbers to entries. An eviction may write the entry's access counter through to
the page table; the request for it is returned to the caller, who owns the
walker. Statistics and locks are left out.
-/
namespace Shma.Tlb

inductive EvictStyle where
  | lru | hotnessAware | hotMonitorTlbLru
  deriving DecidableEq, Repr

/-- `ExtendTlbEntry`; the three flags are the bits `VALID`, `DIRTY` and `DRAMVALID`. -/
structure ExtendTlbEntry where
  (vPageNo pPageNo : Address)
  (valid dirty inDram : Bool)
  lruSeq : BitVec 64
  (accessCounter lifeTime : Nat)
  deriving DecidableEq, Repr

namespace ExtendTlbEntry

/-- The constructor; `life_time`, which it leaves unset, is read as 0. -/
def new (vpn ppn : Address) (isDram : Bool) : ExtendTlbEntry :=
  { vPageNo := vpn, pPageNo := ppn, valid := false, dirty := false, inDram := isDram, lruSeq := 0
    accessCounter := 0, lifeTime := 0 }

variable (e : ExtendTlbEntry)

def setValid : ExtendTlbEntry := { e with valid := true }

def setDirty : ExtendTlbEntry := { e with dirty := true }

/-- `set_invalid` clears the whole flag word. -/
def setInvalid : ExtendTlbEntry := { e with valid := false, dirty := false, inDram := false }

def setCounter (counter : Nat) : ExtendTlbEntry := { e with accessCounter := counter }

/-- `remap`; `set_in_dram` also clears the dirty bit. -/
def remap (ppn : Address) (isDram : Bool) : ExtendTlbEntry :=
  { e with pPageNo := ppn, accessCounter := 0, inDram := isDram, dirty := false }

end ExtendTlbEntry

structure CommonTlb where
  (tlbEntryNum hitLatency responseLatency : Nat)
  evictPolicy : EvictStyle
  tlb : Nat → ExtendTlbEntry
  freeEntryList : List Nat
  lruSeq : BitVec 32
  (tlbTrie tlbTriePa : Address → Option Nat)

namespace CommonTlb

/-- The constructor. `garbage` and `seq` are what the memory of the entries and of
`lru_seq`, which it leaves unset, holds. -/
def new (tlbSize hitLat resLat : Nat) (policy : EvictStyle) (garbage : Nat → ExtendTlbEntry) (seq : BitVec 32) :
    CommonTlb :=
  { tlbEntryNum := tlbSize, hitLatency := hitLat, responseLatency := resLat, evictPolicy := policy
    tlb := garbage, freeEntryList := List.range tlbSize, lruSeq := seq
    tlbTrie := fun _ => none, tlbTriePa := fun _ => none }

variable (z : Zinfo) (t : CommonTlb) (multiQueue : Bool) (i : Nat) (vpageNo : Address)

def modify (f : ExtendTlbEntry → ExtendTlbEntry) : CommonTlb :=
  { t with tlb := update t.tlb i (f (t.tlb i)) }

/-- `entry->lru_seq = ++lru_seq`: an `int` converted to a `uint64_t`. -/
def touch : CommonTlb :=
  { t with lruSeq := t.lruSeq + 1 }.modify i fun e => { e with lruSeq := (t.lruSeq + 1).signExtend 64 }

/-- `look_up(vpage_no, update_lru)`. An entry that was made invalid is still found. -/
def lookUp (updateLru : Bool) : Option Nat × CommonTlb :=
  match t.tlbTrie vpageNo with
  | none => (none, t)
  | some i => (some i, if (t.tlb i).valid && updateLru then t.touch i else t)

def lruEvictLoop (t : CommonTlb) : List Nat → Nat → Nat
  | [], minLruEntry => minLruEntry
  | i :: is, minLruEntry =>
    lruEvictLoop t is
      (if (t.tlb i).valid && decide ((t.tlb i).lruSeq < (t.tlb minLruEntry).lruSeq) then i else minLruEntry)

def lruEvict (t : CommonTlb) : Option Nat := do
  assertThat (t.freeEntryList = [])
  return t.lruEvictLoop (List.range' 1 (t.tlbEntryNum - 1)) 0

/-- The write-through request of `hot_monitor_tlb_evict`: half the access counter of
an NVM page. -/
def counterWriteBack (e : ExtendTlbEntry) : MemReq :=
  { lineAddr := e.vPageNo <<< z.pageShift, type := .writeback, childId := e.accessCounter / 2 % 2^32, cycle := 0 }

/-- What each policy writes through for the entry it chose. Under a policy other than
the two handled here the entry pointer stays null. -/
def victimWriteBack (e : ExtendTlbEntry) : EvictStyle → Option (Option MemReq)
  | .lru => some none
  | .hotMonitorTlbLru => some (if multiQueue && !e.inDram then some (counterWriteBack z e) else none)
  | .hotnessAware => none

def dropEntry : CommonTlb :=
  let e := t.tlb i
  { t with
    tlbTrie := update t.tlbTrie e.vPageNo none
    tlbTriePa := update t.tlbTriePa e.pPageNo none
    freeEntryList := t.freeEntryList ++ [i] }.modify i (·.setInvalid)

def evict (t : CommonTlb) : Option (CommonTlb × Option MemReq) := do
  let i ← t.lruEvict
  let e := t.tlb i
  let writeBack ← victimWriteBack z multiQueue e t.evictPolicy
  assertThat ((t.tlbTrie e.vPageNo).isSome)
  return (t.dropEntry i, writeBack)

/-- The end of `insert`: the entry goes into the first free slot. -/
def fill (entry : ExtendTlbEntry) : CommonTlb :=
  match t.freeEntryList with
  | [] => t
  | i :: rest =>
    let t := { t with freeEntryList := rest }.modify i fun _ => entry.setValid
    let t := t.touch i
    { t with
      tlbTrie := update t.tlbTrie vpageNo (some i)
      tlbTriePa := update t.tlbTriePa entry.pPageNo (some i) }

/-- The start of `insert`: an eviction if no slot is free. -/
def makeRoom (t : CommonTlb) : Option (CommonTlb × Option MemReq) :=
  if t.freeEntryList = [] then t.evict z multiQueue else some (t, none)

def insert (t : CommonTlb) (vpageNo : Address) (entry : ExtendTlbEntry) :
    Option (CommonTlb × Option MemReq) := do
  assertThat (t.tlbTrie vpageNo = none)
  let (t, writeBack) ← t.makeRoom z multiQueue
  return (t.fill vpageNo entry, writeBack)

def deleteEntry : Bool × CommonTlb :=
  match t.lookUp vpageNo true with
  | (none, t) => (false, t)
  | (some i, t) => (true, t.dropEntry i)

def flushAll : CommonTlb :=
  { t with
    tlbTrie := fun _ => none
    tlbTriePa := fun _ => none
    freeEntryList := List.range t.tlbEntryNum
    tlb := fun i => if i < t.tlbEntryNum then (t.tlb i).setInvalid else t.tlb i }

end CommonTlb

end Shma.Tlb
