import Shma.Common.Const

/-!
# DRAM buffer blocks and their addresses

`DRAM-buffer/DRAM_buffer_block.h` and the address helpers of `tlb/common_func.h`.
A block is identified by its `block_id`. The `hotness` counter is left out:
nothing modelled here reads it.
-/
namespace Shma

structure Zinfo where
  (pageShift blockShift : Nat)
  highAddr : Address
  memAccessTime : Nat
  deriving DecidableEq, Repr

def MemReq.after (req : MemReq) (z : Zinfo) (n : Nat) : MemReq :=
  { req with cycle := req.cycle + z.memAccessTime * n }

def Zinfo.blockIdToAddr (z : Zinfo) (blockId : Nat) : Address := z.highAddr + blockId <<< z.blockShift

def Zinfo.dramAddrToBlockId (z : Zinfo) (dramAddr : Address) : Nat :=
  subU64 dramAddr z.highAddr >>> z.blockShift

def Zinfo.isDramAddress (z : Zinfo) (paddr : Address) : Bool := z.highAddr ≤ paddr

/-- Blocks have the size of pages and DRAM starts at a page boundary. -/
structure Zinfo.Aligned (z : Zinfo) : Prop where
  blockShift_eq : z.blockShift = z.pageShift
  high_dvd : 2^z.pageShift ∣ z.highAddr

theorem Zinfo.Aligned.dramAddrToBlockId_ppn {z : Zinfo} (hz : z.Aligned) {b : Nat} (hb : z.blockIdToAddr b < 2^64) :
    z.dramAddrToBlockId ((z.blockIdToAddr b >>> z.pageShift) <<< z.blockShift) = b := by
  obtain ⟨n, hn⟩ := hz.high_dvd
  have haddr : z.blockIdToAddr b = 2^z.pageShift * (n + b) := by
    rw [blockIdToAddr, hz.blockShift_eq, hn, shiftLeft_eq, Nat.mul_add, Nat.mul_comm b]
  have hpos : 0 < 2^z.pageShift := Nat.two_pow_pos _
  have hback : (z.blockIdToAddr b >>> z.pageShift) <<< z.blockShift = z.blockIdToAddr b := by
    rw [hz.blockShift_eq, shiftLeft_eq, shiftRight_eq_div_pow, haddr, Nat.mul_div_cancel_left _ hpos,
      Nat.mul_comm]
  have hsub : subU64 (z.blockIdToAddr b) z.highAddr = 2^z.pageShift * b := by
    rw [haddr, Nat.mul_add, ← hn] at hb ⊢
    exact subU64_add_left hb
  rw [hback, dramAddrToBlockId, hsub, hz.blockShift_eq, shiftRight_eq_div_pow,
    Nat.mul_div_cancel_left _ hpos]

/-- `DRAMBufferBlock`; `used` and `dirty` are the two bits of its flag word. The
constructor the allocator uses leaves them unset, read here as clear. -/
structure DRAMBufferBlock where
  (used dirty : Bool)
  (originalAddr vaddr : Address)
  deriving DecidableEq, Repr

namespace DRAMBufferBlock

def new : DRAMBufferBlock := { used := false, dirty := false, originalAddr := 0, vaddr := 0 }

variable (b : DRAMBufferBlock) (addr : Address)

def isOccupied : Bool := b.used

def setDirty : DRAMBufferBlock := { b with dirty := true }

/-- `validate`, with its assertion that the block is free. -/
def validate : Option DRAMBufferBlock :=
  if b.isOccupied then none else some { b with used := true, originalAddr := addr }

theorem validate_eq_some {b b' : DRAMBufferBlock} {addr : Address} (h : b.validate addr = some b') :
    b' = { b with used := true, originalAddr := addr } := by
  unfold validate at h
  split at h
  · cases h
  · exact (some_inj.mp h).symm

def invalidate : DRAMBufferBlock := { b with used := false, dirty := false }

def setSrcAddr : DRAMBufferBlock := { b with originalAddr := addr }

def setVaddr : DRAMBufferBlock := { b with vaddr := addr }

end DRAMBufferBlock

end Shma
