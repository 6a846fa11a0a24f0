import Mathlib.Data.Nat.Log
import Mathlib.Data.Nat.Prime.Basic
import Shma.Nvmain.Translator

/-!
# The flat memory

`NVM/Flat_NVMain/FlatNVMain.cpp`: a fast and a slow device in one address space.
Slices of the two alternate below twice the size of the fast device, and what lies
above belongs to the slow one. The address map is a bijection exactly if there is
nothing above and the numbers of the slices fit an `int`.
-/
namespace Shma.Nvmain

inductive Media where
  | fast | slow
  deriving DecidableEq, Repr

/-- The sizes that `SetConfig` reads, for which its divisions and shifts are defined. -/
structure FlatNVMain where
  (fastMemSize slowMemSize totalChannels : Nat)
  totalChannels_pos : 0 < totalChannels
  totalChannels_int : totalChannels < 2 ^ 31
  channels_le : totalChannels ≤ fastMemSize
  fastMemSize_lt : fastMemSize < 2 ^ 63
  memSize_lt : fastMemSize + slowMemSize < 2 ^ 64

def toU64 (x : Int) : Nat := (x % 2 ^ 64).toNat

theorem toU64_natCast {n : Nat} (h : n < 2 ^ 64) : toU64 n = n := by
  unfold toU64
  omega

namespace FlatNVMain

section

variable (c : FlatNVMain)

def memSize : Nat := c.fastMemSize + c.slowMemSize

def fastMemBits : Nat := mlog2 c.fastMemSize + 1

def memorySlice : Nat := c.fastMemSize / c.totalChannels

/-- `int unit_num = addr/memory_slice`. -/
def unitNum (addr : Nat) : Int := ((addr / c.memorySlice : Nat) : Int).bmod (2 ^ 32)

/-- The device and the local address of an address, as `IsIssuable` and `IssueCommand`
compute them. The number of a slice is an `int` and its remainder has its sign. -/
def route (addr : Nat) : Media × Nat :=
  if addr >>> c.fastMemBits = 0 then
    if (c.unitNum addr).tmod 2 = 1 then
      (.fast, toU64 (addr - ((c.unitNum addr - 1).tdiv 2 + 1) * c.memorySlice))
    else (.slow, toU64 (addr - (c.unitNum addr).tdiv 2 * c.memorySlice))
  else (.slow, toU64 (addr - 2 * c.fastMemSize))

def InDevice : Media × Nat → Prop
  | (.fast, local') => local' < c.fastMemSize
  | (.slow, local') => local' < c.slowMemSize

end

variable {c : FlatNVMain} {a b : Nat}

theorem memorySlice_pos (c : FlatNVMain) : 0 < c.memorySlice :=
  Nat.div_pos c.channels_le c.totalChannels_pos

theorem fastMemSize_pos (c : FlatNVMain) : 0 < c.fastMemSize :=
  Nat.lt_of_lt_of_le c.totalChannels_pos c.channels_le

theorem shiftRight_fastMemBits_eq_zero : a >>> c.fastMemBits = 0 ↔ a < 2 ^ c.fastMemBits := by
  rw [Nat.shiftRight_eq_div_pow, Nat.div_eq_zero_iff]
  exact or_iff_right (Nat.two_pow_pos _).ne'

/-- The region of alternating slices is larger than the fast device and at most twice as large. -/
theorem two_pow_fastMemBits (c : FlatNVMain) :
    c.fastMemSize < 2 ^ c.fastMemBits ∧ 2 ^ c.fastMemBits ≤ 2 * c.fastMemSize := by
  have hpos := c.fastMemSize_pos
  unfold fastMemBits mlog2
  split
  · omega
  · have hle := Nat.log2_self_le (Nat.ne_of_gt hpos)
    have hlt := Nat.lt_log2_self (n := c.fastMemSize)
    omega

theorem unitNum_eq (h : a / c.memorySlice < 2 ^ 31) : c.unitNum a = (a / c.memorySlice : Nat) := by
  unfold unitNum
  generalize a / c.memorySlice = unit at h
  rw [Int.bmod_eq_of_le]
  · omega
  · omega

theorem unitNum_mul (k : Nat) : c.unitNum (k * c.memorySlice) = (k : Int).bmod (2 ^ 32) := by
  unfold unitNum
  rw [Nat.mul_div_cancel k c.memorySlice_pos]

/-- An address of a slice whose number fits: slices with odd numbers are those of the fast
device. -/
theorem route_eq (ha : a < 2 ^ c.fastMemBits) (hu : a / c.memorySlice < 2 ^ 31) :
    c.route a = (if a / c.memorySlice % 2 = 1 then .fast else .slow,
      a / c.memorySlice / 2 * c.memorySlice + a % c.memorySlice) := by
  have hword : a < 2 ^ 64 := by
    have := c.two_pow_fastMemBits
    have := c.fastMemSize_lt
    omega
  unfold route
  rw [if_pos (shiftRight_fastMemBits_eq_zero.mpr ha), unitNum_eq hu]
  have hsplit := Nat.div_add_mod' a c.memorySlice
  generalize a / c.memorySlice = unit at hsplit
  generalize a % c.memorySlice = off at hsplit
  obtain ⟨m, hm⟩ := Nat.even_or_odd' unit
  have hhalf : unit / 2 = m := by omega
  have hlocal : m * c.memorySlice + off < 2 ^ 64 := by
    have hle : m * c.memorySlice ≤ unit * c.memorySlice := Nat.mul_le_mul_right _ (by omega)
    omega
  rw [hhalf]
  by_cases hodd : unit % 2 = 1
  · have hrem : (unit : Int).tmod 2 = 1 := by
      rw [Int.tmod_eq_emod_of_nonneg (Int.natCast_nonneg unit)]
      omega
    have hquot : ((unit : Int) - 1).tdiv 2 + 1 = m + 1 := by
      rw [Int.tdiv_eq_ediv_of_nonneg (by omega)]
      omega
    rw [if_pos hrem, if_pos hodd, hquot, ← toU64_natCast hlocal]
    have hunit : unit = 2 * m + 1 := by omega
    rw [← hsplit, hunit]
    push_cast
    ring_nf
  · have hrem : (unit : Int).tmod 2 ≠ 1 := by
      rw [Int.tmod_eq_emod_of_nonneg (Int.natCast_nonneg unit)]
      omega
    have hquot : (unit : Int).tdiv 2 = m := by
      rw [Int.tdiv_eq_ediv_of_nonneg (Int.natCast_nonneg unit)]
      omega
    rw [if_neg hrem, if_neg hodd, hquot, ← toU64_natCast hlocal]
    have hunit : unit = 2 * m := by omega
    rw [← hsplit, hunit]
    push_cast
    ring_nf

theorem route_above (ha : 2 ^ c.fastMemBits ≤ a) : c.route a = (.slow, toU64 (a - 2 * c.fastMemSize)) :=
  if_neg fun h => absurd (shiftRight_fastMemBits_eq_zero.mp h) (Nat.not_lt.mpr ha)

/-- Within the slices that have numbers, the map is undone by counting the slices of a device
twice. -/
theorem route_injOn (ha : a < 2 ^ c.fastMemBits) (hb : b < 2 ^ c.fastMemBits) (hua : a / c.memorySlice < 2 ^ 31)
    (hub : b / c.memorySlice < 2 ^ 31) (h : c.route a = c.route b) : a = b := by
  rw [route_eq ha hua, route_eq hb hub] at h
  obtain ⟨hmedia, hlocal⟩ := Prod.mk.inj h
  have hpos := c.memorySlice_pos
  -- The local address itself has the offset as its remainder and half the number of the slice as
  -- quotient.
  have hsplit := fun x => (Nat.div_mod_unique (a := x / c.memorySlice / 2 * c.memorySlice + x % c.memorySlice)
    (d := x / c.memorySlice / 2) hpos).mpr ⟨by rw [Nat.add_comm, Nat.mul_comm], Nat.mod_lt x hpos⟩
  have hhalf : a / c.memorySlice / 2 = b / c.memorySlice / 2 := by
    rw [← (hsplit a).1, hlocal, (hsplit b).1]
  have hmod : a % c.memorySlice = b % c.memorySlice := by
    rw [← (hsplit a).2, hlocal, (hsplit b).2]
  have hparity : a / c.memorySlice % 2 = b / c.memorySlice % 2 := by
    generalize a / c.memorySlice = u at hmedia
    generalize b / c.memorySlice = v at hmedia
    split at hmedia <;> split at hmedia <;> first | omega | cases hmedia
  have hunit : a / c.memorySlice = b / c.memorySlice := by omega
  rw [← Nat.div_add_mod' a c.memorySlice, ← Nat.div_add_mod' b c.memorySlice, hunit, hmod]

theorem exists_slices {f : Nat} (hF : c.fastMemSize = 2 ^ f) (hslice : c.memorySlice ∣ c.fastMemSize) :
    ∃ j, c.fastMemSize = 2 ^ j * c.memorySlice ∧ c.totalChannels ≤ 2 ^ j ∧ 2 ^ j < 2 * c.totalChannels := by
  obtain ⟨k, hk⟩ := hslice
  have hdvd : k ∣ 2 ^ f := ⟨c.memorySlice, by rw [← hF, hk, Nat.mul_comm]⟩
  obtain ⟨j, _, rfl⟩ := (Nat.dvd_prime_pow Nat.prime_two).mp hdvd
  have hpos := c.memorySlice_pos
  have hle : c.totalChannels * c.memorySlice ≤ c.fastMemSize := Nat.mul_div_le _ _
  have hlt : c.fastMemSize < c.totalChannels * (c.memorySlice + 1) := Nat.lt_mul_div_succ _ c.totalChannels_pos
  refine ⟨j, by rw [hk, Nat.mul_comm], ?_, ?_⟩
  · apply Nat.le_of_mul_le_mul_right _ hpos
    rw [Nat.mul_comm (2 ^ j), ← hk]
    exact hle
  · apply Nat.lt_of_mul_lt_mul_right (a := c.memorySlice)
    calc 2 ^ j * c.memorySlice = c.fastMemSize := by rw [hk, Nat.mul_comm]
      _ < c.totalChannels * (c.memorySlice + 1) := hlt
      _ ≤ c.totalChannels * (2 * c.memorySlice) := Nat.mul_le_mul_left _ (by omega)
      _ = 2 * c.totalChannels * c.memorySlice := by ring

theorem two_pow_fastMemBits_of_pow {f : Nat} (hF : c.fastMemSize = 2 ^ f) : 2 ^ c.fastMemBits = 2 * c.fastMemSize := by
  obtain ⟨hlt, hle⟩ := c.two_pow_fastMemBits
  rw [hF] at hlt hle ⊢
  have hf : f < c.fastMemBits := (Nat.pow_lt_pow_iff_right (by decide)).mp hlt
  apply Nat.le_antisymm hle
  rw [← Nat.pow_succ']
  exact Nat.pow_le_pow_right (by decide) hf

/-- The map sends the addresses of the memory injectively to the locations of the two devices. -/
def Bijective (c : FlatNVMain) : Prop :=
  (∀ a < c.memSize, c.InDevice (c.route a)) ∧
    ∀ a < c.memSize, ∀ b < c.memSize, c.route a = c.route b → a = b

theorem bijective_of_eq {j : Nat} (hbits : 2 ^ c.fastMemBits = 2 * c.fastMemSize)
    (hslices : c.fastMemSize = 2 ^ j * c.memorySlice) (hj : j ≤ 30) (heq : c.slowMemSize = c.fastMemSize) :
    c.Bijective := by
  have hsize : c.memSize = 2 ^ c.fastMemBits := by
    unfold memSize
    omega
  have hpow : 2 ^ j ≤ 2 ^ 30 := Nat.pow_le_pow_right (by decide) hj
  have hunit : ∀ a < 2 ^ c.fastMemBits, a / c.memorySlice < 2 * 2 ^ j := fun a ha => by
    apply Nat.div_lt_of_lt_mul
    rw [Nat.mul_comm, Nat.mul_assoc]
    omega
  have hnum : ∀ a < 2 ^ c.fastMemBits, a / c.memorySlice < 2 ^ 31 := fun a ha => by
    have := hunit a ha
    omega
  rw [Bijective, hsize]
  constructor
  · intro a ha
    have hlocal : a / c.memorySlice / 2 * c.memorySlice + a % c.memorySlice < c.fastMemSize := by
      have hhalf : a / c.memorySlice / 2 + 1 ≤ 2 ^ j := by
        have := hunit a ha
        omega
      have hmod := Nat.mod_lt a c.memorySlice_pos
      have hle := Nat.mul_le_mul_right c.memorySlice hhalf
      rw [Nat.succ_mul] at hle
      omega
    rw [route_eq ha (hnum a ha)]
    split
    · exact hlocal
    · exact Nat.lt_of_lt_of_eq hlocal heq.symm
  · intro a ha b hb h
    exact route_injOn ha hb (hnum a ha) (hnum b hb) h

/-- A slow device larger than the fast one: address 0 and the first one above the alternating
slices are the same byte of it. -/
theorem route_two_mul_fastMemSize (hbits : 2 ^ c.fastMemBits = 2 * c.fastMemSize) :
    c.route (2 * c.fastMemSize) = c.route 0 := by
  have hunit : 0 / c.memorySlice < 2 ^ 31 := by
    rw [Nat.zero_div]
    decide
  rw [route_above (Nat.le_of_eq hbits), route_eq (Nat.two_pow_pos _) hunit]
  simp [toU64]

/-- With so many slices one has the least `int` as its number, and its local address lies behind
the end of the device. -/
theorem route_of_overflow (hslices : c.fastMemSize = 2 ^ 31 * c.memorySlice) :
    c.route c.fastMemSize = (.slow, 3221225472 * c.memorySlice) := by
  have hwrap : ((2 ^ 31 : Nat) : Int).bmod (2 ^ 32) = -2147483648 := by decide
  have hunit : c.unitNum c.fastMemSize = -2147483648 := by
    rw [hslices, unitNum_mul, hwrap]
  have hquot : (-2147483648 : Int).tdiv 2 = -1073741824 := by decide
  have hword : 3221225472 * c.memorySlice < 2 ^ 64 := by
    have := c.fastMemSize_lt
    omega
  have hlocal : (c.fastMemSize : Int) - -1073741824 * c.memorySlice = (3221225472 * c.memorySlice : Nat) := by
    omega
  unfold route
  rw [if_pos (shiftRight_fastMemBits_eq_zero.mpr c.two_pow_fastMemBits.1), hunit, if_neg (by decide), hquot,
    hlocal, toU64_natCast hword]

/-- For a fast device whose size is a power of two and whose slices fill it, the address map is a
bijection exactly if the slow device is not larger and the numbers of the slices fit an `int`. -/
theorem bijective_iff {f : Nat} (hF : c.fastMemSize = 2 ^ f) (hS : c.fastMemSize ≤ c.slowMemSize)
    (hslice : c.memorySlice ∣ c.fastMemSize) :
    c.Bijective ↔ c.slowMemSize = c.fastMemSize ∧ c.totalChannels ≤ 2 ^ 30 := by
  have hbits := two_pow_fastMemBits_of_pow hF
  obtain ⟨j, hslices, hle, hlt⟩ := exists_slices hF hslice
  have hchannels := c.totalChannels_int
  have hpos := c.fastMemSize_pos
  constructor
  · rintro ⟨hin, hinj⟩
    have heq : c.slowMemSize = c.fastMemSize := by
      apply Nat.le_antisymm _ hS
      by_contra hlarger
      have htwice : 2 * c.fastMemSize < c.memSize := by
        unfold memSize
        omega
      have hzero := hinj _ htwice 0 (by omega) (route_two_mul_fastMemSize hbits)
      omega
    refine ⟨heq, ?_⟩
    by_contra hmany
    have hj : j = 31 := by
      have hgt : 30 < j := (Nat.pow_lt_pow_iff_right (a := 2) (by decide)).mp (by omega)
      have hlt' : j < 32 := (Nat.pow_lt_pow_iff_right (a := 2) (by decide)).mp (by omega)
      omega
    subst hj
    have hmem : c.fastMemSize < c.memSize := by
      unfold memSize
      omega
    have hfits := hin _ hmem
    rw [route_of_overflow hslices] at hfits
    change 3221225472 * c.memorySlice < c.slowMemSize at hfits
    omega
  · rintro ⟨heq, hfew⟩
    have hj : j < 31 := (Nat.pow_lt_pow_iff_right (a := 2) (by decide)).mp (by omega)
    exact bijective_of_eq hbits hslices (by omega) heq

/-- Four bytes of fast memory in two channels, beside `slow` bytes. -/
def fourBytes (slow : Nat) (h : 4 + slow < 2 ^ 64) : FlatNVMain where
  fastMemSize := 4
  slowMemSize := slow
  totalChannels := 2
  totalChannels_pos := Nat.two_pos
  totalChannels_int := Nat.lt_of_sub_pos (Nat.succ_pos _)
  channels_le := Nat.le_add_left 2 2
  fastMemSize_lt := Nat.lt_of_sub_pos (Nat.succ_pos _)
  memSize_lt := h

theorem bijective_iff_four : (fourBytes 4 (by decide)).Bijective :=
  (bijective_iff (f := 2) rfl (by decide) (by decide)).mpr ⟨rfl, by decide⟩

/-- Twice as many slow bytes: the first and the ninth address are the first byte of the slow
device. -/
theorem slow_bytes_shared : (fourBytes 8 (by decide)).fastMemSize = 2 ^ 2 ∧
    (fourBytes 8 (by decide)).fastMemSize ≤ (fourBytes 8 (by decide)).slowMemSize ∧
    (fourBytes 8 (by decide)).memorySlice ∣ (fourBytes 8 (by decide)).fastMemSize ∧
    ¬(fourBytes 8 (by decide)).Bijective := by
  refine ⟨rfl, by decide, by decide, fun h => ?_⟩
  have hsame : (fourBytes 8 (by decide)).route 0 = (fourBytes 8 (by decide)).route 8 := by decide
  have hzero := h.2 0 (by decide) 8 (by decide) hsame
  exact absurd hzero (by decide)

end FlatNVMain

end Shma.Nvmain
