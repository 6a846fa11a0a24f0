import Mathlib.Data.Nat.Bitwise

/-!
# Global constants, enumerations and bit fields

The machine words of `common/global_const.h` and `common/common_functions.h`.
Addresses and counters are naturals; where the source relies on the width of a
word, the operation below reduces modulo that width explicitly.
-/
namespace Shma

-- names of the library that are used throughout
export Bool (eq_false_iff)
export Function (forall_update_iff update update_apply update_eq_self update_of_ne update_self)
export List (append_assoc append_nil cons_ne_nil cons_ne_self filterMap_append forall_mem_cons forall_mem_nil
  length_append length_cons length_range length_singleton map_append mem_append mem_append_left mem_append_right
  mem_cons mem_cons_of_mem mem_cons_self mem_map mem_range mem_range'_1 mem_singleton nodup_cons nodup_nil nodup_range
  not_mem_nil perm_middle prefix_rfl)
export Nat (lt_one_iff lt_succ_self mod_eq_of_lt mod_lt shiftLeft_eq shiftRight_eq_div_pow succ_pos)
export Option (bind_eq_bind bind_eq_some_iff bind_some isSome_iff_exists isSome_iff_ne_none isSome_of_eq_some
  map_eq_some_iff map_some mem_unique ne_none_iff_exists' not_isSome_iff_eq_none pure_def some_inj some_ne_none)

abbrev Address := Nat

def pageFaultSig : Address := 2^64 - 1
def invalidPageAddr : Address := 2^64 - 1

/-- `MAXORDER`: the free lists are indexed from 0 up to and including it. -/
def maxOrder : Nat := 11

/-- The `assert` of `log.h`. -/
def assertThat (p : Prop) [Decidable p] : Option Unit := if p then some () else none

@[simp] theorem assertThat_true {p : Prop} [Decidable p] (h : p) : assertThat p = some () := if_pos h

@[simp] theorem assertThat_false {p : Prop} [Decidable p] (h : ¬ p) : assertThat p = none := if_neg h

theorem assertThat_bind_eq_some {β : Type*} {p : Prop} [Decidable p] {f : Unit → Option β} {b : β} :
    (assertThat p).bind f = some b ↔ p ∧ f () = some b := by
  by_cases h : p
  · rw [assertThat_true h]
    exact (and_iff_right h).symm
  · rw [assertThat_false h]
    exact iff_of_false nofun fun hp => h hp.1

theorem assertThat_map_eq_some {β : Type*} {p : Prop} [Decidable p] {f : Unit → β} {b : β} :
    (assertThat p).map f = some b ↔ p ∧ f () = b := by
  rw [Option.map_eq_bind, assertThat_bind_eq_some]
  exact and_congr_right' Option.some_inj

def subU64 (a b : Nat) : Nat := (a + (2^64 - b % 2^64)) % 2^64

theorem subU64_add_left {a b : Nat} (h : a + b < 2^64) : subU64 (a + b) a = b := by
  unfold subU64
  omega

/-- A number is what an `int` holds of it exactly if it is below `2^31`. -/
theorem bmod_natCast_eq_self_iff (n : Nat) : Int.bmod n (2^32) = n ↔ n < 2^31 := by
  rw [Int.bmod_eq_iff (by decide)]
  omega

theorem bmod_natCast_eq_zero_iff (n : Nat) : Int.bmod n (2^32) = 0 ↔ n % 2^32 = 0 := by
  rw [← Int.dvd_iff_bmod_eq_zero]
  omega

inductive PagingStyle where
  | legacyNormal | legacyHuge | paeNormal | paeHuge
  | longModeNormal | longModeMiddle | longModeHuge
  deriving DecidableEq, Repr

/-- The page shift each paging constructor stores in `zinfo->page_shift`. -/
def PagingStyle.pageShift : PagingStyle → Nat
  | .legacyNormal => 12
  | .legacyHuge => 22
  | .paeNormal => 12
  | .paeHuge => 21
  | .longModeNormal => 12
  | .longModeMiddle => 21
  | .longModeHuge => 30

inductive ZoneType where
  | dma | dma32 | normal | highMem
  deriving DecidableEq, Repr

def gfpDma : Nat := 0x01
def gfpHighMem : Nat := 0x02
def gfpDma32 : Nat := 0x04

inductive AccessType where
  | gets | getx | puts | putx | eviction | setdirty | writeback
  deriving DecidableEq, Repr

structure MemReq where
  lineAddr : Address
  type : AccessType
  (childId cycle : Nat)
  deriving DecidableEq, Repr

def mask (bitLen : Nat) : Nat := if bitLen = 64 then 2^64 - 1 else 2^bitLen - 1

/-- `get_bit_value<unsigned>(value, start_bit, end_bit)`; an end bit just below
the start bit gives a field of length zero. -/
def getBitValue (value startBit endBit : Nat) : Nat :=
  (value >>> startBit) &&& mask (endBit + 1 - startBit)

theorem mask_eq (n : Nat) : mask n = 2^n - 1 := by
  unfold mask
  split
  · subst n; rfl
  · rfl

theorem getBitValue_eq (value startBit endBit : Nat) :
    getBitValue value startBit endBit = value / 2^startBit % 2^(endBit + 1 - startBit) := by
  rw [getBitValue, mask_eq, Nat.and_two_pow_sub_one_eq_mod, Nat.shiftRight_eq_div_pow]

theorem getBitValue_lt (value startBit endBit : Nat) :
    getBitValue value startBit endBit < 2^(endBit + 1 - startBit) := by
  rw [getBitValue_eq]
  exact Nat.mod_lt _ (Nat.two_pow_pos _)

end Shma
