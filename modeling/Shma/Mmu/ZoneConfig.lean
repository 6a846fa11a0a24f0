import Shma.DramBuffer.Block
import Shma.Mmu.FrameBound

/-!
# Frames of NVM and of DRAM

Zone sizes are configured in MB. `init.cpp` multiplies them by `2<<20`, which is two MB, so
the zones, and with them the frames the buddy allocator hands out, reach twice as far as
configured. DRAM blocks lie at `high_addr`, which is at or above the size of the memory.
-/
namespace Shma.Mmu

open Lib.Dyadic Lib.Run

structure ZoneOptions where
  zoneSec : Bool
  (normal dma dma32 highMem : Option Nat)
  deriving DecidableEq, Repr

namespace ZoneOptions

/-- `((2<<20)*size)>>page_shift`. -/
def pfnsOf (pageShift mb : Nat) : Nat := ((2 <<< 20) * mb % 2^64) >>> pageShift

/-- `max_zone_pfns` as `init.cpp` fills it. Only the normal zone is read without a zone section, and
takes all memory if its size is not given. -/
def maxZonePfns (o : ZoneOptions) (memorySize pageShift : Nat) : ZoneType → Nat
  | .normal => (o.normal.map (pfnsOf pageShift)).getD (memorySize >>> pageShift)
  | .dma => if o.zoneSec then (o.dma.map (pfnsOf pageShift)).getD 0 else 0
  | .dma32 => if o.zoneSec then (o.dma32.map (pfnsOf pageShift)).getD 0 else 0
  | .highMem => if o.zoneSec then (o.highMem.map (pfnsOf pageShift)).getD 0 else 0

def total (o : ZoneOptions) : Nat := o.normal.getD 0 + o.dma.getD 0 + o.dma32.getD 0 + o.highMem.getD 0

end ZoneOptions

/-- NVM frames handed out and DRAM blocks do not meet: frames are frames of the memory and are not
taken for DRAM, the addresses of blocks are, and no two blocks share a page. Addresses are 64-bit
words. -/
structure FramesApart (z : Zinfo) (memorySize blocks : Nat) (node : MemoryNode) : Prop where
  handed : ∀ freePageNum reqs l, run NodeLog.step ⟨⟨node, freePageNum⟩, []⟩ reqs = some l → ∀ e ∈ l.handed,
    e.2.start < memorySize >>> z.pageShift ∧ z.isDramAddress (e.2.start <<< z.pageShift) = false
  dram : ∀ b < blocks, z.isDramAddress (z.blockIdToAddr b % 2^64) = true
  distinct : ∀ b < blocks, ∀ c < blocks,
    (z.blockIdToAddr b % 2^64) >>> z.pageShift = (z.blockIdToAddr c % 2^64) >>> z.pageShift → b = c

section Blocks

variable {z : Zinfo} {memorySize blocks : Nat}

theorem shiftLeft_lt {p s : Nat} (h : p < memorySize >>> s) : p <<< s < memorySize := by
  rw [shiftRight_eq_div_pow] at h
  rw [shiftLeft_eq]
  calc p * 2^s < (memorySize / 2^s) * 2^s := Nat.mul_lt_mul_of_pos_right h (Nat.two_pow_pos s)
    _ ≤ memorySize := Nat.div_mul_le_self ..

theorem isDramAddress_frame (hhigh : memorySize ≤ z.highAddr) {p : Nat} (h : p < memorySize >>> z.pageShift) :
    z.isDramAddress (p <<< z.pageShift) = false :=
  decide_eq_false (Nat.not_le.mpr ((shiftLeft_lt h).trans_le hhigh))

section

variable (hdram : z.highAddr + blocks <<< z.blockShift ≤ 2^64) {b : Nat} (hb : b < blocks)
include hdram hb

theorem blockIdToAddr_mod : z.blockIdToAddr b % 2^64 = z.highAddr + b <<< z.blockShift := by
  refine mod_eq_of_lt (Nat.lt_of_lt_of_le ?_ hdram)
  rw [Zinfo.blockIdToAddr, shiftLeft_eq, shiftLeft_eq]
  exact Nat.add_lt_add_left (Nat.mul_lt_mul_of_pos_right hb (Nat.two_pow_pos _)) _

theorem isDramAddress_block : z.isDramAddress (z.blockIdToAddr b % 2^64) = true := by
  rw [blockIdToAddr_mod hdram hb]
  exact decide_eq_true (Nat.le_add_right ..)

end

theorem block_page_injective (hshift : z.blockShift = z.pageShift)
    (hdram : z.highAddr + blocks <<< z.blockShift ≤ 2^64) {b c : Nat} (hb : b < blocks) (hc : c < blocks)
    (h : (z.blockIdToAddr b % 2^64) >>> z.pageShift = (z.blockIdToAddr c % 2^64) >>> z.pageShift) : b = c := by
  rw [blockIdToAddr_mod hdram hb, blockIdToAddr_mod hdram hc, hshift, shiftRight_eq_div_pow,
    shiftRight_eq_div_pow, shiftLeft_eq, shiftLeft_eq, Nat.add_mul_div_right _ _ (Nat.two_pow_pos _),
    Nat.add_mul_div_right _ _ (Nat.two_pow_pos _)] at h
  exact Nat.add_left_cancel h

end Blocks

/-- Fewer than `2^43` frames are all handed out in the end, one by one. -/
theorem NodeLog.exhaust {n : Nat} (hn : n < 2^43) {l : NodeLog}
    (hs : l.buddy.Supplies n (l.handed.map (·.2.start))) (hsparse : l.buddy.SparseLists) :
    ∃ reqs l', run NodeLog.step l reqs = some l' ∧ ∀ p < n, ∃ e ∈ l'.handed, e.2.start = p := by
  induction hd : n - l.handed.length generalizing l with
  | zero =>
    refine ⟨[], l, rfl, fun p hp => ?_⟩
    have hle := hs.length_le
    rw [List.length_map] at hle
    have hfull : (l.handed.map (·.2.start)).length = n := by
      rw [List.length_map]
      omega
    exact mem_map.mp (hs.mem_of_full hfull hp)
  | succ d ih =>
    have hword : n < 2^64 := by omega
    rcases hs.allocate hword with ⟨hfree, -⟩ | ⟨-, p, b', halloc, hs'⟩
    · have hleft := (hs.not_hasFree_iff hword hsparse).mp hfree
      rw [List.length_map] at hleft
      omega
    · obtain ⟨z, lists, hz, -⟩ := id hs
      have hgfp : l.buddy.node.gfpZone 0 = some .normal := by simp [MemoryNode.gfpZone, hz]
      have hstep : l.step (0, 0) = some ⟨b', (.normal, ⟨p, 0⟩) :: l.handed⟩ := by
        rw [NodeLog.step, halloc, map_some, hgfp]
      have hleft : n - (((ZoneType.normal, (⟨p, 0⟩ : Block)) :: l.handed).length) = d := by
        rw [length_cons]
        omega
      obtain ⟨reqs, l', hr, hall⟩ := @ih ⟨b', (.normal, ⟨p, 0⟩) :: l.handed⟩ hs'
        (hs.allocate_sparse hsparse halloc) hleft
      exact ⟨(0, 0) :: reqs, l', (run_cons_eq_some _).mpr ⟨_, hstep, hr⟩, hall⟩

variable {z : Zinfo} {o : ZoneOptions} {memorySize blocks : Nat} {node : MemoryNode}

theorem zoneHighest_highMem_le {pfns : ZoneType → Nat} {n : Nat} (h : ∀ zt, pfns zt ≤ n) :
    zoneHighest pfns .highMem ≤ n :=
  max_le (h .highMem) (max_le (h .normal) (max_le (h .dma32) (h .dma)))

section Sample

def sampleZinfo : Zinfo := ⟨21, 21, 2^24, 1⟩

def normalMb (mb : Nat) : ZoneOptions := ⟨false, some mb, none, none, none⟩

end Sample

end Shma.Mmu
