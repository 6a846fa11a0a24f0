import Shma.Cache.Flush

/-!
# The lines that are flushed

`PageTableWalker::clflush` takes the page number of an address, shifts it by the bits of a
line, and has the core flush as many lines from there as a page has. A page has
`2^(page_shift - lineBits)` lines, so this is where the page starts only if the two shifts
agree, as for pages of 4 KB in lines of 64 bytes, or if the page number is zero.
-/
namespace Shma.Cache

open Lib.Run

def lineNum (pageSize lineSize : Nat) : Nat := pageSize / lineSize % 2^32

/-- The values that `fetchAddr` takes in the loop of `TimingCore::clflush`. -/
def fetchAddrs (startAddr : Address) (lineNum : Nat) : List Address :=
  let endAddr := (startAddr + lineNum) % 2^64
  List.range' startAddr (endAddr - startAddr)

namespace PageTableWalker

def invAddrInit (pageShift lineBits : Nat) (dramAddr : Address) : Address :=
  dramAddr >>> pageShift <<< lineBits % 2^64

def clflush (t : Topology) (cfg : FlushConfig) (core : Core t) (pageShift lineBits : Nat) (dramAddr : Address)
    (issueCycle : Nat) (h : Hierarchy) : Option TimingCore.Flushing :=
  TimingCore.clflush t cfg core (invAddrInit pageShift lineBits dramAddr) issueCycle h

def visited (mode : PagingStyle) (lineBits : Nat) (dramAddr : Address) : List Address :=
  fetchAddrs (invAddrInit mode.pageShift lineBits dramAddr) (lineNum (2^mode.pageShift) (2^lineBits))

def LineOfPage (mode : PagingStyle) (lineBits : Nat) (a line : Address) : Prop :=
  ∃ b, b >>> mode.pageShift = a >>> mode.pageShift ∧ line = b >>> lineBits

variable {mode : PagingStyle} {lineBits a : Nat}

theorem pageShift_bounds (mode : PagingStyle) : 12 ≤ mode.pageShift ∧ mode.pageShift ≤ 30 := by
  cases mode <;> decide

section

variable (h : lineBits ≤ mode.pageShift)
include h

theorem lineNum_eq : lineNum (2^mode.pageShift) (2^lineBits) = 2^(mode.pageShift - lineBits) := by
  have hbound := pageShift_bounds mode
  have hlt : 2^(mode.pageShift - lineBits) < 2^32 := Nat.pow_lt_pow_right (by decide) (by omega)
  rw [lineNum, Nat.pow_div h Nat.two_pos, mod_eq_of_lt hlt]

omit h in
theorem pageNumber_lt (ha : a < 2^64) : a >>> mode.pageShift < 2^(64 - mode.pageShift) := by
  have hbound := pageShift_bounds mode
  rw [shiftRight_eq_div_pow, Nat.div_lt_iff_lt_mul (Nat.two_pow_pos _), ← Nat.pow_add]
  rwa [Nat.sub_add_cancel (by omega)]

theorem range_lt (ha : a < 2^64) : a >>> mode.pageShift * 2^lineBits + 2^(mode.pageShift - lineBits) < 2^64 := by
  have hbound := pageShift_bounds mode
  have hpage : (a >>> mode.pageShift + 1) * 2^lineBits ≤ 2^(64 - mode.pageShift) * 2^lineBits :=
    Nat.mul_le_mul_right _ (pageNumber_lt ha)
  rw [← Nat.pow_add, Nat.add_mul, Nat.one_mul] at hpage
  have hline := Nat.two_pow_pos lineBits
  rcases Nat.eq_or_lt_of_le h with heq | hlt
  · -- one line to a page
    have hexp : 64 - mode.pageShift + lineBits = 64 := by omega
    have hlarge : 2^12 ≤ 2^lineBits := Nat.pow_le_pow_right Nat.two_pos (by omega)
    have hone : 2^(mode.pageShift - lineBits) = 1 := by rw [heq, Nat.sub_self, Nat.pow_zero]
    rw [hexp] at hpage
    omega
  · have hhalf : 2^(64 - mode.pageShift + lineBits) ≤ 2^63 := Nat.pow_le_pow_right Nat.two_pos (by omega)
    have hlines : 2^(mode.pageShift - lineBits) ≤ 2^30 := Nat.pow_le_pow_right Nat.two_pos (by omega)
    omega

theorem invAddrInit_eq (ha : a < 2^64) : invAddrInit mode.pageShift lineBits a = a >>> mode.pageShift * 2^lineBits := by
  have hlt := Nat.lt_of_le_of_lt (Nat.le_add_right _ _) (range_lt h ha)
  rw [invAddrInit, shiftLeft_eq, mod_eq_of_lt hlt]

theorem visited_eq (ha : a < 2^64) :
    visited mode lineBits a =
      List.range' (a >>> mode.pageShift * 2^lineBits) (2^(mode.pageShift - lineBits)) := by
  simp only [visited, fetchAddrs, invAddrInit_eq h ha, lineNum_eq h, mod_eq_of_lt (range_lt h ha),
    Nat.add_sub_cancel_left]

theorem lineOfPage_iff {line : Nat} :
    LineOfPage mode lineBits a line ↔
      line ∈ List.range' (a >>> mode.pageShift * 2^(mode.pageShift - lineBits)) (2^(mode.pageShift - lineBits)) := by
  have hpos := Nat.two_pow_pos (mode.pageShift - lineBits)
  have hshift : ∀ b : Nat, b >>> mode.pageShift = b >>> lineBits / 2^(mode.pageShift - lineBits) := by
    intro b
    rw [← shiftRight_eq_div_pow, ← Nat.shiftRight_add, Nat.add_sub_cancel' h]
  have hrange : line ∈ List.range' (a >>> mode.pageShift * 2^(mode.pageShift - lineBits))
      (2^(mode.pageShift - lineBits)) ↔ line / 2^(mode.pageShift - lineBits) = a >>> mode.pageShift := by
    rw [mem_range'_1, Nat.div_eq_iff hpos]
    omega
  rw [hrange]
  constructor
  · rintro ⟨b, hpage, rfl⟩
    rw [← hpage, hshift b]
  · intro hline
    -- the first byte of the line
    refine ⟨line * 2^lineBits, ?_, ?_⟩
    · rw [hshift, shiftRight_eq_div_pow, Nat.mul_div_cancel _ (Nat.two_pow_pos _), hline]
    · rw [shiftRight_eq_div_pow, Nat.mul_div_cancel _ (Nat.two_pow_pos _)]

end

theorem mem_range'_iff_start_eq {first first' n : Nat} (hn : 0 < n) :
    (∀ x, x ∈ List.range' first n ↔ x ∈ List.range' first' n) ↔ first = first' := by
  constructor
  · intro hall
    have hfirst := (hall first).mp (mem_range'_1.mpr (by omega))
    have hfirst' := (hall first').mpr (mem_range'_1.mpr (by omega))
    rw [mem_range'_1] at hfirst hfirst'
    omega
  · rintro rfl x
    exact Iff.rfl

/-- The lines visited are those of the page exactly if the page is the first one, or if a page
number is shifted by what the number of lines in a page takes. -/
theorem visited_page_iff (mode : PagingStyle) {lineBits a : Nat} (h : lineBits ≤ mode.pageShift) (ha : a < 2^64) :
    (∀ line, line ∈ visited mode lineBits a ↔ LineOfPage mode lineBits a line) ↔
      a >>> mode.pageShift = 0 ∨ mode.pageShift = 2 * lineBits := by
  simp only [visited_eq h ha, lineOfPage_iff h]
  rw [mem_range'_iff_start_eq (Nat.two_pow_pos _)]
  rcases Nat.eq_zero_or_pos (a >>> mode.pageShift) with hzero | hpos
  · simp [hzero]
  · rw [Nat.mul_right_inj hpos.ne', Nat.pow_right_inj (le_refl 2)]
    omega

/-- Pages of 4 KB in lines of 64 bytes. -/
theorem visited_page_iff_common :
    6 ≤ PagingStyle.longModeNormal.pageShift ∧ 0x123456 < 2^64 ∧
      ∀ line, line ∈ visited .longModeNormal 6 0x123456 ↔ LineOfPage .longModeNormal 6 0x123456 line :=
  ⟨by decide, by decide, (visited_page_iff .longModeNormal (by decide) (by decide)).mpr (.inr rfl)⟩

/-- The second page of 2 MB, in lines of 64 bytes: the walker starts at line 64, which is in the
first page. -/
theorem other_page_visited :
    invAddrInit PagingStyle.longModeMiddle.pageShift 6 (2^21) = 64 ∧ 64 ∈ visited .longModeMiddle 6 (2^21) ∧
      ¬ LineOfPage .longModeMiddle 6 (2^21) 64 ∧ LineOfPage .longModeMiddle 6 (2^21) 32768 := by
  have h : 6 ≤ PagingStyle.longModeMiddle.pageShift := by decide
  refine ⟨by decide, ?_, ?_, ?_⟩
  · rw [visited_eq h (by decide)]
    simp [PagingStyle.pageShift]
  · rw [lineOfPage_iff h]
    simp [PagingStyle.pageShift]
  · rw [lineOfPage_iff h]
    simp [PagingStyle.pageShift]

end PageTableWalker

end Shma.Cache
