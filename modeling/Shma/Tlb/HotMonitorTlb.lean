import Shma.Tlb.CommonTlb

/-!
# The TLB that counts accesses

`HotMonitorTlb` of `tlb/hot_monitor_tlb.h`, but for `access`, which needs the page
table walker.
-/
namespace Shma.Tlb

inductive TLBSearchResult where
  | overThres | unOverThres | inDRAM
  deriving DecidableEq, Repr

/-- The settings of `zinfo` that the counters depend on. -/
structure CounterConfig where
  multiQueue : Bool
  lifeTime : Nat
  deriving DecidableEq, Repr

def ExtendTlbEntry.increCounter (cfg : CounterConfig) (e : ExtendTlbEntry) (isWrite : Bool)
    (writeIncreStep readIncreStep accessThreshold : Nat) : ExtendTlbEntry × TLBSearchResult :=
  if e.inDram then (e, .inDRAM)
  else
    let counter := e.accessCounter + if isWrite then writeIncreStep else readIncreStep
    ({ e with accessCounter := counter, lifeTime := if cfg.multiQueue then cfg.lifeTime else e.lifeTime },
      if accessThreshold ≤ counter then .overThres else .unOverThres)

def ExtendTlbEntry.decreLifetime (cfg : CounterConfig) (e : ExtendTlbEntry) : ExtendTlbEntry :=
  let life := (e.lifeTime + (2^32 - 1)) % 2^32
  if life = 0 then { e with accessCounter := e.accessCounter >>> 2, lifeTime := cfg.lifeTime }
  else { e with lifeTime := life }

structure HotMonitorTlb where
  ordinaryTlb : CommonTlb
  (writeIncreStep readIncreStep : Nat)

/-- The parameters of a TLB, and what the memory its constructor leaves unset holds. -/
structure TlbSetup where
  (tlbSize hitLat resLat : Nat)
  policy : EvictStyle
  garbage : Nat → ExtendTlbEntry
  lruSeq : BitVec 32
  size_pos : 0 < tlbSize

namespace HotMonitorTlb

/-- The constructor, with its default steps. -/
def new (c : TlbSetup) : HotMonitorTlb :=
  { ordinaryTlb := .new c.tlbSize c.hitLat c.resLat c.policy c.garbage c.lruSeq
    writeIncreStep := 2, readIncreStep := 1 }

variable (cfg : CounterConfig) (t : HotMonitorTlb) (i : Nat)

def lookUp (vpageNo : Address) (updateLru : Bool) : Option Nat × HotMonitorTlb :=
  let (i, ordinary) := t.ordinaryTlb.lookUp vpageNo updateLru
  (i, { t with ordinaryTlb := ordinary })

def flushAll : HotMonitorTlb := { t with ordinaryTlb := t.ordinaryTlb.flushAll }

def updateLifeTime (vpn : Address) : HotMonitorTlb :=
  { t with ordinaryTlb := { t.ordinaryTlb with
      tlb := fun i =>
        let e := t.ordinaryTlb.tlb i
        if i < t.ordinaryTlb.tlbEntryNum && !e.inDram && e.valid && decide (e.vPageNo ≠ vpn) then
          e.decreLifetime cfg
        else e } }

/-- `look_up_va`: the entry found through the physical index, its counter raised. -/
def lookUpVa (pPageNo : Address) (isWrite : Bool) (thres : Nat) :
    Option Nat × TLBSearchResult × HotMonitorTlb :=
  match t.ordinaryTlb.tlbTriePa pPageNo with
  | none => (none, .unOverThres, t)
  | some i =>
    let (e, result) := (t.ordinaryTlb.tlb i).increCounter cfg isWrite t.writeIncreStep t.readIncreStep thres
    let t := { t with ordinaryTlb := t.ordinaryTlb.modify i fun _ => e }
    (some i, result, if cfg.multiQueue then t.updateLifeTime cfg e.vPageNo else t)

/-- The entry `insert` builds: pages from `high_addr` on count as DRAM pages. -/
def newEntry (z : Zinfo) (cfg : CounterConfig) (vpageNo ppn : Address) (accessCounter : Nat) : ExtendTlbEntry :=
  if z.highAddr ≤ ppn <<< z.pageShift then
    let entry := (ExtendTlbEntry.new vpageNo ppn true).remap ppn true
    if accessCounter = 1 then entry.setDirty else entry
  else
    let entry := ExtendTlbEntry.new vpageNo ppn false
    if cfg.multiQueue then entry.setCounter accessCounter else entry

def insert (z : Zinfo) (cfg : CounterConfig) (t : HotMonitorTlb) (vpageNo ppn : Address) (accessCounter : Nat) :
    Option (HotMonitorTlb × Option MemReq) := do
  let (ordinary, writeBack) ←
    t.ordinaryTlb.insert z cfg.multiQueue vpageNo (newEntry z cfg vpageNo ppn accessCounter)
  return ({ t with ordinaryTlb := ordinary }, writeBack)

/-- `remap_ppn` of the entry with index `i`. -/
def remapPpn (pageNo : Address) (i : Nat) (isDram : Bool) : HotMonitorTlb :=
  let old := (t.ordinaryTlb.tlb i).pPageNo
  { t with ordinaryTlb := { t.ordinaryTlb with
      tlbTriePa := update (update t.ordinaryTlb.tlbTriePa old none) pageNo (some i)
      tlb := update t.ordinaryTlb.tlb i ((t.ordinaryTlb.tlb i).remap pageNo isDram) } }

def setInvalid : HotMonitorTlb :=
  { t with ordinaryTlb := t.ordinaryTlb.modify i (·.setInvalid) }

def setDirty : HotMonitorTlb :=
  { t with ordinaryTlb := t.ordinaryTlb.modify i (·.setDirty) }

end HotMonitorTlb

end Shma.Tlb
