import Shma.Walker.Effects

/-!
# The system after start-up

The state `InitSystem` leaves once every core has been given a process by `setCid`:
empty page tables, all frames free, all DRAM blocks free and in the clean pool, and
empty TLBs.
-/
namespace Shma.Walker

open PageTable Tlb Mmu

/-- The physical address space: `n` frames from address 0 on and `total` DRAM blocks from
`high_addr` on, both of the size the paging mode has. -/
structure Config.Layout (cfg : Config) (n total : Nat) : Prop where
  shift : cfg.z.pageShift = cfg.mode.pageShift
  aligned : cfg.z.Aligned
  frames : n <<< cfg.z.pageShift ≤ cfg.z.highAddr
  blocks : cfg.z.highAddr + total <<< cfg.z.pageShift ≤ 2^64

namespace Config.Layout

variable {cfg : Config} {n total : Nat}

variable (h : cfg.Layout n total)
include h

theorem page_size : 2^12 ≤ 2^cfg.z.pageShift := by
  rw [h.shift]
  apply Nat.pow_le_pow_right (by decide)
  cases cfg.mode <;> decide

theorem frames_lt : n < 2^52 + 1 := by
  have hsize := h.page_size
  have hle : n * 2^cfg.z.pageShift ≤ 2^64 := by
    rw [← shiftLeft_eq]
    exact h.frames.trans (Nat.le_of_add_right_le h.blocks)
  have hmul := Nat.mul_le_mul_left n hsize
  omega

theorem mono {m : Nat} (hm : m ≤ n) : cfg.Layout m total where
  shift := h.shift
  aligned := h.aligned
  frames := by
    refine Nat.le_trans ?_ h.frames
    rw [shiftLeft_eq, shiftLeft_eq]
    exact Nat.mul_le_mul_right _ hm
  blocks := h.blocks

theorem page_ne_sig {f : Nat} (hf : f < n) : (Target.page f).ppn cfg.z ≠ pageFaultSig := by
  have hn := h.frames_lt
  show f ≠ 2^64 - 1
  omega

theorem page_below {f : Nat} (hf : f < n) :
    decide (cfg.z.highAddr ≤ (Target.page f).ppn cfg.z <<< cfg.z.pageShift) = false := by
  apply decide_eq_false
  have hlt : f <<< cfg.z.pageShift < n <<< cfg.z.pageShift := by
    rw [shiftLeft_eq, shiftLeft_eq]
    exact Nat.mul_lt_mul_of_pos_right hf (Nat.two_pow_pos _)
  exact Nat.not_le.mpr (Nat.lt_of_lt_of_le hlt h.frames)

theorem block_ppn (b : Nat) :
    (Target.block b).ppn cfg.z <<< cfg.z.pageShift = cfg.z.highAddr + b <<< cfg.z.pageShift := by
  obtain ⟨k, hk⟩ := h.aligned.high_dvd
  have hpos : 0 < 2^cfg.z.pageShift := Nat.two_pow_pos _
  rw [Target.ppn, Zinfo.blockIdToAddr, h.aligned.blockShift_eq, hk, shiftLeft_eq, shiftLeft_eq,
    shiftRight_eq_div_pow, Nat.mul_comm b, ← Nat.mul_add, Nat.mul_div_cancel_left _ hpos, Nat.mul_comm]

theorem block_above (b : Nat) : decide (cfg.z.highAddr ≤ (Target.block b).ppn cfg.z <<< cfg.z.pageShift) = true := by
  apply decide_eq_true
  rw [h.block_ppn]
  exact Nat.le_add_right _ _

theorem block_ne_sig {b : Nat} (hb : b < total) : (Target.block b).ppn cfg.z ≠ pageFaultSig := by
  intro hsig
  have hppn := h.block_ppn b
  rw [hsig] at hppn
  have hle : (2^64 - 1) * 2^cfg.z.pageShift ≤ 2^64 := by
    rw [← shiftLeft_eq]
    show pageFaultSig <<< cfg.z.pageShift ≤ _
    rw [hppn]
    refine Nat.le_trans (Nat.add_le_add_left ?_ _) h.blocks
    rw [shiftLeft_eq, shiftLeft_eq]
    exact Nat.mul_le_mul_right _ hb.le
  have hmul := Nat.mul_le_mul_left (2^64 - 1) h.page_size
  omega

end Config.Layout

structure Setup (cfg : Config) where
  reversedPgt : Bool
  pfns : ZoneType → Nat
  node : MemoryNode
  freePageNum : Nat
  bufferSize : Address
  procIdx : Nat → Nat
  tlb : TlbId → TlbSetup
  node_eq : MemoryNode.new 0 pfns = some node
  procIdx_lt : ∀ core, procIdx core < cfg.numProcs
  reversed_longMode : (reversedPgt || cfg.enableSharedMemory) = true → isLongMode cfg.mode

variable {cfg : Config} (c : Setup cfg)

structure Setup.SoleNormal : Prop where
  dma : c.pfns .dma = 0
  dma32 : c.pfns .dma32 = 0
  highMem : c.pfns .highMem ≤ c.pfns .normal

def Setup.normalEnd : Nat := zoneHighest c.pfns .normal

/-- The node has no high memory, so that its normal zone is initialised last. -/
def Setup.NoHighMem : Prop := zoneHighest c.pfns .highMem = c.normalEnd

def Setup.boot : System where
  pagingArray _ := Paging.new (c.reversedPgt || cfg.enableSharedMemory) cfg.mode
  buddy := ⟨c.node, c.freePageNum⟩
  dram := FairAllocator.new cfg.z cfg.numProcs c.bufferSize
  walker core := ⟨c.procIdx core, 0⟩
  tlb id := HotMonitorTlb.new (c.tlb id)

namespace Setup

variable {cfg : Config} (c : Setup cfg)

theorem boot_tablesOk : c.boot.TablesOk cfg := fun _ =>
  ⟨Paging.inv_new c.reversed_longMode, Paging.mode_new _ _⟩

theorem boot_tlbsOk : c.boot.TlbsOk := fun id => HotMonitorTlb.wf_new (c.tlb id)

theorem boot_translate (p : Nat) (a : Address) : c.boot.translate p a = none := Paging.translate_new _ _ a

theorem boot_view (id : TlbId) (v : Address) : (c.boot.tlb id).view v = none := HotMonitorTlb.view_new _ v

theorem boot_supplies (h : c.NoHighMem) : c.boot.buddy.Supplies (c.normalEnd - c.normalEnd % 2) [] :=
  supplies_new c.node_eq h c.freePageNum

theorem boot_sparseLists : c.boot.buddy.SparseLists := sparseLists_new c.node_eq c.freePageNum

variable {c}

theorem SoleNormal.normalEnd_eq (h : c.SoleNormal) : c.normalEnd = c.pfns .normal := by
  simp [normalEnd, zoneHighest, h.dma, h.dma32]

theorem SoleNormal.noHighMem (h : c.SoleNormal) : c.NoHighMem := by
  simp [NoHighMem, normalEnd, zoneHighest, h.dma, h.dma32, h.highMem]

end Setup

section Sample

/-- A small machine without shared memory: DRAM starts at 2^40. -/
def sampleConfig (mode : PagingStyle) (numProcs numCores : Nat) : Config where
  z := { pageShift := mode.pageShift, blockShift := mode.pageShift, highAddr := 2^40, memAccessTime := 1 }
  mode := mode
  numProcs := numProcs
  numCores := numCores
  enableSharedMemory := false
  sharedRegion _ := []
  counters := ⟨false, 0⟩
  pools := .exact
  tlbHitLat := 1
  fetcher := false

def normalOnly (frames : Nat) : ZoneType → Nat
  | .normal => frames
  | _ => 0

def sampleTlb : TlbSetup where
  tlbSize := 4
  hitLat := 1
  resLat := 1
  policy := .hotMonitorTlbLru
  garbage _ := .new 0 0 false
  lruSeq := 0
  size_pos := by decide

theorem isSome_normalOnly_four : (MemoryNode.new 0 (normalOnly 4)).isSome := by decide

/-- The frames of the node and the size of DRAM are given; core `i` runs process `i`, the
last process all cores beyond. -/
def sampleSetup (cfg : Config) (frames : Nat) (bufferSize : Address)
    (hnode : (MemoryNode.new 0 (normalOnly frames)).isSome) (hprocs : 0 < cfg.numProcs)
    (hshared : cfg.enableSharedMemory = true → isLongMode cfg.mode) : Setup cfg where
  reversedPgt := false
  pfns := normalOnly frames
  node := (MemoryNode.new 0 (normalOnly frames)).get hnode
  freePageNum := frames
  bufferSize := bufferSize
  procIdx core := min core (cfg.numProcs - 1)
  tlb _ := sampleTlb
  node_eq := (Option.some_get hnode).symm
  procIdx_lt core := by omega
  reversed_longMode h := hshared h

theorem sampleSetup_soleNormal {cfg : Config} {frames : Nat} {bufferSize : Address}
    {hnode : (MemoryNode.new 0 (normalOnly frames)).isSome} {hprocs : 0 < cfg.numProcs}
    {hshared : cfg.enableSharedMemory = true → isLongMode cfg.mode} :
    (sampleSetup cfg frames bufferSize hnode hprocs hshared).SoleNormal :=
  ⟨rfl, rfl, Nat.zero_le _⟩

end Sample

end Shma.Walker
