import Shma.Common.Const

/-!
# Index fields of a virtual address

The offsets of `page-table/comm_page_table_op.h`. They are extracted in two
places: by `get_domains` and by one function per level. The two disagree on the
page-table offset of `PAE_Normal`.
-/
namespace Shma.PageTable

/-- `(unsigned)(-1)`. -/
def noOffset : Nat := 2^32 - 1

variable (addr : Address) (mode : PagingStyle)

def getPagetableOff : PagingStyle → Nat
  | .legacyNormal => getBitValue addr 12 21
  | .paeNormal => getBitValue addr 21 20
  | .longModeNormal => getBitValue addr 12 20
  | _ => noOffset

def getPageDirectoryOff : PagingStyle → Nat
  | .legacyNormal | .legacyHuge => getBitValue addr 22 31
  | .paeNormal | .paeHuge | .longModeNormal | .longModeMiddle => getBitValue addr 21 29
  | .longModeHuge => noOffset

def getPageDirectoryPointerOff : PagingStyle → Nat
  | .paeNormal | .paeHuge => getBitValue addr 30 31
  | .longModeNormal | .longModeMiddle | .longModeHuge => getBitValue addr 30 38
  | _ => noOffset

def getPml4Off : PagingStyle → Nat
  | .longModeNormal | .longModeMiddle | .longModeHuge => getBitValue addr 39 47
  | _ => noOffset

structure Domains where
  pml4 : Nat := noOffset
  pdp : Nat := noOffset
  pd : Nat := noOffset
  pt : Nat := noOffset
  deriving DecidableEq, Repr

def getDomains : PagingStyle → Domains
  | .legacyNormal => { pd := getBitValue addr 22 31, pt := getBitValue addr 12 21 }
  | .legacyHuge => { pd := getBitValue addr 22 31 }
  | .paeNormal => { pt := getBitValue addr 12 20, pd := getBitValue addr 21 29, pdp := getBitValue addr 30 31 }
  | .paeHuge => { pd := getBitValue addr 21 29, pdp := getBitValue addr 30 31 }
  | .longModeNormal =>
    { pt := getBitValue addr 12 20, pd := getBitValue addr 21 29, pdp := getBitValue addr 30 38,
      pml4 := getBitValue addr 39 47 }
  | .longModeMiddle =>
    { pd := getBitValue addr 21 29, pdp := getBitValue addr 30 38, pml4 := getBitValue addr 39 47 }
  | .longModeHuge => { pdp := getBitValue addr 30 38, pml4 := getBitValue addr 39 47 }

theorem ne_noOffset {n : Nat} (h : n < 512) : n ≠ noOffset := by
  unfold noOffset
  omega

def isLongMode : PagingStyle → Bool
  | .longModeNormal | .longModeMiddle | .longModeHuge => true
  | _ => false

theorem isLongMode_iff {mode : PagingStyle} : isLongMode mode ↔
    mode = .longModeNormal ∨ mode = .longModeMiddle ∨ mode = .longModeHuge := by
  cases mode <;> simp [isLongMode]

def depth : PagingStyle → Nat
  | .legacyNormal => 1
  | .legacyHuge => 0
  | .paeNormal => 2
  | .paeHuge => 1
  | .longModeNormal => 3
  | .longModeMiddle => 2
  | .longModeHuge => 1

def dirs : PagingStyle → List Nat
  | .legacyNormal => [getBitValue addr 22 31]
  | .legacyHuge => []
  | .paeNormal => [getBitValue addr 30 31, getBitValue addr 21 29]
  | .paeHuge => [getBitValue addr 30 31]
  | .longModeNormal => [getBitValue addr 39 47, getBitValue addr 30 38, getBitValue addr 21 29]
  | .longModeMiddle => [getBitValue addr 39 47, getBitValue addr 30 38]
  | .longModeHuge => [getBitValue addr 39 47]

def leafOff : PagingStyle → Nat
  | .legacyNormal => getPagetableOff addr .legacyNormal
  | .legacyHuge => getPageDirectoryOff addr .legacyHuge
  | .paeNormal => getPagetableOff addr .paeNormal
  | .paeHuge => getPageDirectoryOff addr .paeHuge
  | .longModeNormal => getBitValue addr 12 20
  | .longModeMiddle => getBitValue addr 21 29
  | .longModeHuge => getBitValue addr 30 38

def slotOf : List Nat × Nat := (dirs addr mode, leafOff addr mode)

theorem getBitValue_page {k start : Nat} (hk : k ≤ start) (addr stop : Nat) :
    getBitValue ((addr >>> k) <<< k) start stop = getBitValue addr start stop := by
  obtain ⟨m, rfl⟩ := Nat.exists_eq_add_of_le hk
  rw [getBitValue_eq, getBitValue_eq, shiftLeft_eq, shiftRight_eq_div_pow, Nat.pow_add, Nat.mul_comm (2^k),
    Nat.mul_div_mul_right _ _ (Nat.two_pow_pos k), Nat.div_div_eq_div_mul, Nat.mul_comm (2^k)]

theorem slotOf_page :
    slotOf ((addr >>> mode.pageShift) <<< mode.pageShift) mode = slotOf addr mode := by
  cases mode <;>
    simp [slotOf, dirs, leafOff, getPagetableOff, getPageDirectoryOff, PagingStyle.pageShift, getBitValue_page]

@[simp] theorem dirs_length : (dirs addr mode).length = depth mode := by
  cases mode <;> rfl

theorem nine_bits_lt (start : Nat) : getBitValue addr start (start + 8) < 512 := by
  have h := getBitValue_lt addr start (start + 8)
  have hlen : start + 8 + 1 - start = 9 := by omega
  rwa [hlen] at h

theorem indices_lt : getBitValue addr 39 47 < 512 ∧ getBitValue addr 30 38 < 512 ∧
    getBitValue addr 21 29 < 512 ∧ getBitValue addr 12 20 < 512 :=
  ⟨nine_bits_lt addr 39, nine_bits_lt addr 30, nine_bits_lt addr 21, nine_bits_lt addr 12⟩

/-- Two addresses agree from a bit on exactly if they agree on the nine-bit field there and above
it. -/
theorem nine_bits_eq_iff (a b start : Nat) : a >>> start = b >>> start ↔
    a >>> (start + 9) = b >>> (start + 9) ∧ getBitValue a start (start + 8) = getBitValue b start (start + 8) := by
  have hlen : start + 8 + 1 - start = 9 := by omega
  rw [getBitValue_eq, getBitValue_eq, hlen,
    Nat.shiftRight_add, Nat.shiftRight_add]
  omega

theorem ten_bits_lt (start : Nat) : getBitValue addr start (start + 9) < 1024 := by
  have h := getBitValue_lt addr start (start + 9)
  have hlen : start + 9 + 1 - start = 10 := by omega
  rwa [hlen] at h

end Shma.PageTable
