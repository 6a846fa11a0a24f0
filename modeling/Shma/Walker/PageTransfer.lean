import Shma.Cache.FlushRange
import Shma.DramBuffer.Block
import Shma.Nvmain.TransferRetry

/-!
# What a page transfer moves

`store_page` passes the number of lines of a page as the amount of a transfer, which the fetcher
takes for a number of bytes and divides by the sizes of the columns.
-/
namespace Shma

open Nvmain Cache

namespace Nvmain.BlockFetcher

/-- The bytes that one burst of the read or the write moves. -/
def colSize (f : BlockFetcher) (req : FetchRequest) : Half → Nat
  | .read => if req.srcIsBuffer then f.bufferColSize else f.memColSize
  | .write => if req.dstIsBuffer then f.bufferColSize else f.memColSize

theorem burstCount_ops (f : BlockFetcher) (req : FetchRequest) (i : Half) :
    (f.ops req i).burstCount = req.dataSize / f.colSize req i := by
  cases i <;> rfl

theorem colSize_dvd {f : BlockFetcher} {n : Nat} (hm : f.memColSize ∣ n) (hb : f.bufferColSize ∣ n) (req : FetchRequest)
    (i : Half) : f.colSize req i ∣ n := by
  have hside : ∀ c : Bool, (if c then f.bufferColSize else f.memColSize) ∣ n := fun c => by
    cases c
    · exact hm
    · exact hb
  cases i with
  | read => exact hside req.srcIsBuffer
  | write => exact hside req.dstIsBuffer

end Nvmain.BlockFetcher

namespace Walker

/-- The request of `store_page`; its type is `FETCH` for a write-back. -/
def storePageTransfer (lineNum : Nat) (srcAddr dstAddr : Address) (srcIsDram writeBack : Bool) : Transfer :=
  ⟨⟨srcAddr, dstAddr, lineNum, srcIsDram, !srcIsDram⟩, writeBack, .other⟩

/-- The calls of `store_page` in `evict_and_fetch`. -/
def evictAndFetchTransfers (z : Zinfo) (lineNum : Nat) (block : DRAMBufferBlock) (b : Nat) (lineAddr : Address) :
    List Transfer :=
  let dramAddr := z.blockIdToAddr b
  (if block.isOccupied && block.dirty then
    [storePageTransfer lineNum dramAddr (block.originalAddr <<< z.pageShift) true true]
  else []) ++ [storePageTransfer lineNum lineAddr dramAddr false false]

variable {f : BlockFetcher} {pageSize lineSize b : Nat} {z : Zinfo} {block : DRAMBufferBlock} {lineAddr : Address}

theorem dataSize_of_mem {lineNum : Nat} {t : Transfer} (h : t ∈ evictAndFetchTransfers z lineNum block b lineAddr) :
    t.request.dataSize = lineNum := by
  rcases mem_append.mp h with h | h
  · split at h
    · obtain rfl := mem_singleton.mp h
      rfl
    · cases h
  · obtain rfl := mem_singleton.mp h
    rfl

theorem lineNum_eq_iff (hp : 0 < pageSize) : lineNum pageSize lineSize = pageSize ↔ lineSize = 1 ∧ pageSize < 2^32 := by
  unfold lineNum
  constructor
  · intro heq
    have hlt : pageSize < 2^32 := heq ▸ mod_lt _ (by omega)
    have hle : pageSize ≤ pageSize / lineSize := heq.symm.trans_le (Nat.mod_le _ _)
    refine ⟨?_, hlt⟩
    rcases Nat.lt_trichotomy lineSize 1 with hzero | hone | hmore
    · obtain rfl : lineSize = 0 := by omega
      omega
    · exact hone
    · have hless := Nat.div_lt_self hp hmore
      omega
  · rintro ⟨rfl, hlt⟩
    rw [Nat.div_one, mod_eq_of_lt hlt]

/-- With columns that divide the page, the reads and the writes of all transfers of
`evict_and_fetch` cover the page exactly if lines are of one byte and the size of the page fits in a
`uint32_t`. -/
theorem transfers_cover_page_iff (hp : 0 < pageSize) (hm : f.memColSize ∣ pageSize) (hb : f.bufferColSize ∣ pageSize) :
    (∀ t ∈ evictAndFetchTransfers z (lineNum pageSize lineSize) block b lineAddr, ∀ i,
      (f.ops t.request i).burstCount * f.colSize t.request i = pageSize) ↔ lineSize = 1 ∧ pageSize < 2^32 := by
  rw [← lineNum_eq_iff hp]
  constructor
  · intro hall
    have hread := hall _ (mem_append_right _ mem_cons_self) .read
    -- what is covered is at most the amount that was asked for, and that at most the page
    have hle : pageSize ≤ lineNum pageSize lineSize := hread.symm.trans_le (Nat.div_mul_le_self _ _)
    exact Nat.le_antisymm ((Nat.mod_le _ _).trans (Nat.div_le_self _ _)) hle
  · intro heq t ht i
    rw [BlockFetcher.burstCount_ops, dataSize_of_mem ht, heq]
    exact Nat.div_mul_cancel (BlockFetcher.colSize_dvd hm hb t.request i)

/-- Lines of one byte. -/
theorem transfers_cover_page_iff_bytes : (BlockFetcher.new 64 128).memColSize ∣ 4096 ∧
    ∀ t ∈ evictAndFetchTransfers ⟨12, 12, 2^40, 1⟩ (lineNum 4096 1) ⟨true, true, 7, 5⟩ 3 0x1000, ∀ i,
      ((BlockFetcher.new 64 128).ops t.request i).burstCount * (BlockFetcher.new 64 128).colSize t.request i = 4096 :=
  ⟨by decide, (transfers_cover_page_iff (by decide) (by decide) (by decide)).mpr (by decide)⟩

/-- A dirty page of 4 KB is written back and another one is fetched, with lines and columns of 64
bytes: each read and each write moves 64 bytes. -/
theorem transfers_move_one_line :
    (evictAndFetchTransfers ⟨12, 12, 2^40, 1⟩ (lineNum 4096 64) ⟨true, true, 7, 5⟩ 3 0x1000).length = 2 ∧
    ∀ t ∈ evictAndFetchTransfers ⟨12, 12, 2^40, 1⟩ (lineNum 4096 64) ⟨true, true, 7, 5⟩ 3 0x1000, ∀ i,
      ((BlockFetcher.new 64 64).ops t.request i).burstCount * (BlockFetcher.new 64 64).colSize t.request i = 64 := by
  decide +kernel

end Walker

end Shma
