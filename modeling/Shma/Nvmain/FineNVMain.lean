import Shma.Common.Const
import Shma.Nvmain.Translator

/-!
# Main memory and DRAM buffer under one controller

`NVM/Fine_NVMain/FineNVMain.cpp` and `Decoders/BufferDecoder/BufferDecoder.cpp`: the capacity that
`SetTranslators` computes for a region, and the controllers that a request is given to. Addresses
below the capacity of the main memory go to its channels; all others go to the channels of the DRAM
buffer, through a decoder that first masks them.

An index past an array is the `none` of an option. `CheckPrefetch`, which answers a request before
any controller is asked, is left out, and so are the children behind the controllers.
-/
namespace Shma.Nvmain

structure RegionParams where
  (cols rows banks ranks channels : Nat)
  matHeight : Option Nat
  (tburst busWidth : Nat)
  order : Field → Int

namespace RegionParams

variable (p : RegionParams)

def subarrays : Nat :=
  match p.matHeight with
  | some matHeight => matHeight / p.rows
  | none => 1

/-- The product is one of two `unsigned`. -/
def wordSize : Nat := p.tburst * p.busWidth % 2^32 / 8

def method : TranslationMethod where
  bitWidths := Field.table (mlog2 p.rows) (mlog2 p.cols) (mlog2 p.banks) (mlog2 p.ranks) (mlog2 p.channels)
    (mlog2 p.subarrays)
  order := p.order

def bitWidth : Nat := p.method.totalBits + mlog2 p.wordSize

def capacity : Nat := p.wordSize * p.cols * p.rows * p.banks * p.ranks * p.channels

def memSize : Nat := p.capacity * p.subarrays % 2^64

/-- All sizes are powers of two, and the height of a mat divides the rows. -/
structure PowersOfTwo : Prop where
  sizes : ∀ n ∈ [p.wordSize, p.cols, p.rows, p.banks, p.ranks, p.channels], ∃ k, n = 2^k
  matHeight : ∀ h ∈ p.matHeight, h ∣ p.rows

variable {p : RegionParams}

theorem PowersOfTwo.mlog2 (h : p.PowersOfTwo) {n : Nat}
    (hn : n ∈ [p.wordSize, p.cols, p.rows, p.banks, p.ranks, p.channels]) : 2^Nvmain.mlog2 n = n := by
  obtain ⟨k, rfl⟩ := h.sizes n hn
  rw [mlog2_two_pow]

theorem PowersOfTwo.capacity (h : p.PowersOfTwo) (hsub : p.subarrays ≤ 1) : 2^p.bitWidth = p.capacity := by
  have hone : Nvmain.mlog2 p.subarrays = 0 := if_pos (Nat.lt_succ_of_le hsub)
  simp only [bitWidth, TranslationMethod.totalBits, method, Field.table, hone, Nat.pow_add, pow_zero,
    RegionParams.capacity]
  rw [h.mlog2 (n := p.rows) (by simp), h.mlog2 (n := p.cols) (by simp), h.mlog2 (n := p.banks) (by simp),
    h.mlog2 (n := p.ranks) (by simp), h.mlog2 (n := p.channels) (by simp), h.mlog2 (n := p.wordSize) (by simp)]
  ring

/-- The quotient is the wrong way around: a mat that is lower than the rows leaves no subarray. -/
theorem PowersOfTwo.subarrays (h : p.PowersOfTwo) :
    p.subarrays = if p.matHeight = none ∨ p.matHeight = some p.rows then 1 else 0 := by
  obtain ⟨k, hk⟩ := h.sizes p.rows (by simp)
  have hrows : 0 < p.rows := hk ▸ Nat.two_pow_pos k
  unfold RegionParams.subarrays
  cases hm : p.matHeight with
  | none => simp
  | some height =>
    have hle : height ≤ p.rows := Nat.le_of_dvd hrows (h.matHeight height hm)
    by_cases heq : height = p.rows
    · simp [heq, Nat.div_self hrows]
    · simp [heq, Nat.div_eq_of_lt (lt_of_le_of_ne hle heq)]

/-- The capacity is the product of the sizes and two to the width of an address exactly if the
mats, where a height is given, are as high as the rows, and addresses fit a word. -/
theorem memSize_correct_iff (p : RegionParams) (h : p.PowersOfTwo) :
    p.memSize = p.capacity ∧ p.memSize = 2^p.bitWidth ↔
      (p.matHeight = none ∨ p.matHeight = some p.rows) ∧ p.bitWidth < 64 := by
  have hsub := h.subarrays
  have hcap : 2^p.bitWidth = p.capacity := h.capacity (by rw [hsub]; split <;> omega)
  rw [hcap, and_self, memSize, hsub, ← hcap]
  split
  · next hheight =>
    rw [and_iff_right hheight, mul_one, Nat.mod_eq_iff_lt (by simp), Nat.pow_lt_pow_iff_right Nat.one_lt_two]
  · next hheight =>
    refine iff_of_false ?_ fun hh => hheight hh.1
    exact (Nat.two_pow_pos _).ne

def small (matHeight : Option Nat) : RegionParams where
  cols := 1
  rows := 8
  banks := 1
  ranks := 1
  channels := 2
  matHeight := matHeight
  tburst := 1
  busWidth := 64
  order := TranslationMethod.new.order

theorem small_powersOfTwo {matHeight : Option Nat} (h : ∀ n ∈ matHeight, n ∣ 8) :
    (small matHeight).PowersOfTwo where
  sizes n hn := by
    simp only [wordSize, small, mem_cons, not_mem_nil, or_false] at hn
    rcases hn with rfl | rfl | rfl | rfl | rfl | rfl
    exacts [⟨3, rfl⟩, ⟨0, rfl⟩, ⟨3, rfl⟩, ⟨0, rfl⟩, ⟨0, rfl⟩, ⟨1, rfl⟩]
  matHeight := h

theorem memSize_correct_small :
    (small none).PowersOfTwo ∧ (small none).memSize = 128 ∧
      ((small none).memSize = (small none).capacity ∧ (small none).memSize = 2^(small none).bitWidth) :=
  ⟨small_powersOfTwo nofun, by decide, (memSize_correct_iff (small none) (small_powersOfTwo nofun)).mpr (by decide)⟩

/-- Mats of four rows each: the region has no capacity at all. -/
theorem memSize_zero_of_mats :
    (small (some 4)).PowersOfTwo ∧ (small (some 4)).memSize = 0 ∧ (small (some 4)).capacity = 128 ∧
      2^(small (some 4)).bitWidth = 128 :=
  ⟨small_powersOfTwo (by decide), by decide⟩

end RegionParams

/-! ### Routing -/

inductive FineController where
  | memory (i : Nat)
  | reserved (i : Nat)
  deriving DecidableEq

/-- `channels` and `reservedChannels` are those of the main configuration, which `SetConfig` makes
the controllers from. The parameters of the regions, their numbers of channels among them, are read
from the configurations of single channels. -/
structure FineNVMain where
  (memory buffer : RegionParams)
  (channels reservedChannels : Nat)
  (decoder cacheTranslator : AddressTranslator)

structure RowBufferStats where
  (rbHitTime rbDirtyMissTime rbCleanMissTime : Nat)
  deriving DecidableEq

namespace FineNVMain

variable (f : FineNVMain) (pa : Nat)

/-- Read once more at the end of `SetConfig`, from the parameters of the first channel. -/
def numChannels : Nat := f.memory.channels

def memoryControllers : List FineController := (List.range f.channels).map .memory

def reservedControllers : List FineController := (List.range f.reservedChannels).map .reserved

def children : List FineController := f.memoryControllers ++ f.reservedControllers

def channel : Nat := (f.decoder.translate pa fun _ => 0).1 .channel

/-- `BufferDecoder::Translate`; the one for requests calls the one for addresses. -/
def bufferChannel : Option Nat :=
  let bufferMask := 2^f.buffer.bitWidth - 1
  (assertThat (0 < f.buffer.bitWidth ∧ 0 < f.memory.bitWidth ∧ 0 < bufferMask)).map fun _ =>
    (f.cacheTranslator.translate (pa &&& bufferMask) fun _ => 0).1 .channel

/-- The controller that `IsIssuable` asks. -/
def isIssuable : Option FineController :=
  if pa < f.memory.memSize then f.memoryControllers[f.channel pa]?
  else (f.bufferChannel pa).bind fun channel => f.reservedControllers[channel]?

/-- The flag `access_cache` of `IssueCommand` and `IssueAtomic`. -/
def accessCache : Bool := !decide (pa < f.memory.memSize)

def issueCommand : Option FineController :=
  if f.accessCache pa then
    (f.bufferChannel pa).bind fun channel => f.children[channel + f.numChannels]?
  else
    f.children[f.channel pa]?.bind fun child =>
      (assertThat (some child = f.memoryControllers[f.channel pa]?)).map fun _ => child

/-- The index of a buffer address is not that of a channel. -/
def issueAtomic : Option FineController :=
  if f.accessCache pa then
    (f.bufferChannel pa).bind fun _ => f.memoryControllers[f.reservedChannels + f.numChannels]?
  else f.memoryControllers[f.channel pa]?

/-- `RequestComplete`, as far as it counts. -/
def requestComplete (ownerIsThis rbHit dirtyMiss : Bool) (pa : Nat) (s : RowBufferStats) :
    RowBufferStats :=
  if ownerIsThis then s
  else if f.memory.memSize < pa then
    if rbHit then { s with rbHitTime := s.rbHitTime + 1 }
    else if dirtyMiss then { s with rbDirtyMissTime := s.rbDirtyMissTime + 1 }
    else { s with rbCleanMissTime := s.rbCleanMissTime + 1 }
  else s

/-- `SetTranslators` for both regions, each with a channel at least and the buffer with a bit to
mask. The main configuration has the numbers of channels that the channels have. -/
structure Configured (bus bufferBus : Bus) : Prop where
  decoder : f.decoder.Configured f.memory.method bus
  cacheTranslator : f.cacheTranslator.Configured f.buffer.method bufferBus
  permutes : f.memory.method.Permutes
  bufferPermutes : f.buffer.method.Permutes
  channels : 0 < f.channels ∧ f.channels = f.numChannels
  reservedChannels : 0 < f.reservedChannels ∧ f.reservedChannels = f.buffer.channels
  widths : 0 < f.buffer.bitWidth ∧ 0 < f.memory.bitWidth

/-- The three functions choose one controller. -/
def RoutedAlike : Prop :=
  (f.isIssuable pa).isSome ∧ f.issueCommand pa = f.isIssuable pa ∧ f.issueAtomic pa = f.isIssuable pa

/-- A request of another object is counted exactly if it was taken for one to the buffer. -/
def CountedAsRouted : Prop :=
  ∀ rbHit dirtyMiss s, f.requestComplete false rbHit dirtyMiss pa s ≠ s ↔ f.accessCache pa = true

variable {f : FineNVMain} {bus bufferBus : Bus}

theorem channel_lt {t : AddressTranslator} {p : RegionParams} (h : t.Configured p.method bus)
    (hp : p.method.Permutes) (hch : 0 < p.channels) (a : Nat) :
    (t.translate a fun _ => 0).1 .channel < p.channels := by
  rw [h.translate_eq hp]
  exact (TranslationMethod.decode_inRange hp a .channel).trans_le (two_pow_mlog2_le hch)

section

variable (h : f.Configured bus bufferBus)
include h

theorem Configured.channel_lt (pa : Nat) : f.channel pa < f.channels := by
  obtain ⟨hpos, heq⟩ := h.channels
  rw [heq] at hpos ⊢
  exact FineNVMain.channel_lt h.decoder h.permutes hpos pa

theorem Configured.bufferChannel (pa : Nat) : ∃ c < f.reservedChannels, f.bufferChannel pa = some c := by
  have hmask : 0 < 2^f.buffer.bitWidth - 1 := by
    have := Nat.one_lt_two_pow h.widths.1.ne'
    omega
  obtain ⟨hpos, heq⟩ := h.reservedChannels
  rw [heq] at hpos ⊢
  have hlt := FineNVMain.channel_lt h.cacheTranslator h.bufferPermutes hpos (pa &&& (2^f.buffer.bitWidth - 1))
  exact ⟨_, hlt, assertThat_map_eq_some.mpr ⟨⟨h.widths.1, h.widths.2, hmask⟩, rfl⟩⟩

/-- Below the capacity all three functions go to the channel of the decoder. -/
theorem Configured.routes_memory {pa : Nat} (hpa : pa < f.memory.memSize) :
    f.isIssuable pa = some (.memory (f.channel pa)) ∧ f.issueCommand pa = some (.memory (f.channel pa)) ∧
      f.issueAtomic pa = some (.memory (f.channel pa)) := by
  have hmc : f.memoryControllers[f.channel pa]? = some (.memory (f.channel pa)) := by
    simp [FineNVMain.memoryControllers, h.channel_lt pa]
  have hchild : f.children[f.channel pa]? = some (.memory (f.channel pa)) := by
    have hlen : f.channel pa < f.memoryControllers.length := by
      simpa [FineNVMain.memoryControllers] using h.channel_lt pa
    rw [FineNVMain.children, List.getElem?_append_left hlen, hmc]
  simp [isIssuable, issueCommand, issueAtomic, accessCache, hpa, hmc, hchild]

/-- From there on two of them go to the reserved controllers, the third one past the others. -/
theorem Configured.routes_buffer {pa : Nat} (hpa : f.memory.memSize ≤ pa) :
    ∃ c, f.bufferChannel pa = some c ∧ f.isIssuable pa = some (.reserved c) ∧
      f.issueCommand pa = some (.reserved c) ∧ f.issueAtomic pa = none := by
  obtain ⟨c, hlt, hc⟩ := h.bufferChannel pa
  have hlen : f.memoryControllers.length = f.numChannels := by
    rw [← h.channels.2]
    simp [FineNVMain.memoryControllers]
  have hreserved : f.reservedControllers[c]? = some (.reserved c) := by simp [reservedControllers, hlt]
  have hchild : f.children[c + f.numChannels]? = some (.reserved c) := by
    rw [FineNVMain.children, List.getElem?_append_right (by omega), hlen, Nat.add_sub_cancel, hreserved]
  have hpast : f.memoryControllers[f.reservedChannels + f.numChannels]? = none :=
    List.getElem?_eq_none (by omega)
  refine ⟨c, hc, ?_⟩
  simp [isIssuable, issueCommand, issueAtomic, accessCache, Nat.not_lt.mpr hpa, hc, hreserved, hchild, hpast]

end

theorem requestComplete_ne_iff (f : FineNVMain) (rbHit dirtyMiss : Bool) (pa : Nat) (s : RowBufferStats) :
    f.requestComplete false rbHit dirtyMiss pa s ≠ s ↔ f.memory.memSize < pa := by
  cases s
  unfold requestComplete
  by_cases hpa : f.memory.memSize < pa <;> cases rbHit <;> cases dirtyMiss <;> simp [hpa]

theorem countedAsRouted_iff (f : FineNVMain) (pa : Nat) : f.CountedAsRouted pa ↔ pa ≠ f.memory.memSize := by
  simp only [CountedAsRouted, requestComplete_ne_iff, accessCache, Bool.not_eq_true', decide_eq_false_iff_not]
  have hs : Nonempty RowBufferStats := ⟨0, 0, 0⟩
  simp only [forall_const]
  omega

/-- `IsIssuable` asks the controller that `IssueCommand` issues to: that of the decoded channel
below the capacity of the main memory, and the reserved one of the channel in the buffer from there
on. `IssueAtomic` goes there exactly below the capacity, and the requests that are counted are those
to the buffer except at the capacity itself. -/
theorem routing_iff (f : FineNVMain) (bus bufferBus : Bus) (h : f.Configured bus bufferBus) :
    (∀ pa, f.issueCommand pa = f.isIssuable pa ∧
      f.isIssuable pa =
        if pa < f.memory.memSize then some (.memory (f.channel pa)) else (f.bufferChannel pa).map .reserved) ∧
    (∀ pa, f.RoutedAlike pa ↔ pa < f.memory.memSize) ∧
    ∀ pa, f.CountedAsRouted pa ↔ pa ≠ f.memory.memSize := by
  refine ⟨fun pa => ?_, fun pa => ?_, f.countedAsRouted_iff⟩
  · rcases Nat.lt_or_ge pa f.memory.memSize with hpa | hpa
    · obtain ⟨hi, hc, -⟩ := h.routes_memory hpa
      rw [hi, hc, if_pos hpa]
      exact ⟨rfl, rfl⟩
    · obtain ⟨c, hb, hi, hc, -⟩ := h.routes_buffer hpa
      rw [hi, hc, if_neg (Nat.not_lt.mpr hpa), hb]
      exact ⟨rfl, rfl⟩
  · rcases Nat.lt_or_ge pa f.memory.memSize with hpa | hpa
    · obtain ⟨hi, hc, ha⟩ := h.routes_memory hpa
      exact iff_of_true ⟨by rw [hi]; rfl, by rw [hi, hc], by rw [hi, ha]⟩ hpa
    · obtain ⟨c, -, hi, -, ha⟩ := h.routes_buffer hpa
      refine iff_of_false (fun hr => ?_) (Nat.not_lt.mpr hpa)
      have := hr.2.2
      rw [hi, ha] at this
      cases this

def small : FineNVMain where
  memory := .small none
  buffer := .small none
  channels := 2
  reservedChannels := 2
  decoder := .new (RegionParams.small none).method Bus.ddr (fun _ => 0) fun _ => 0
  cacheTranslator := .new (RegionParams.small none).method Bus.ddr (fun _ => 0) fun _ => 0

theorem small_configured : small.Configured Bus.ddr Bus.ddr where
  decoder := AddressTranslator.new_configured _ _
  cacheTranslator := AddressTranslator.new_configured _ _
  permutes := by decide
  bufferPermutes := by decide
  channels := by decide
  reservedChannels := by decide
  widths := by decide

theorem routing_small :
    small.Configured Bus.ddr Bus.ddr ∧ small.memory.memSize = 128 ∧ small.RoutedAlike 64 ∧ small.CountedAsRouted 64 :=
  ⟨small_configured, by decide, ((routing_iff small _ _ small_configured).2.1 64).mpr (by decide),
    ((routing_iff small _ _ small_configured).2.2 64).mpr (by decide)⟩

/-- The first address of the buffer: an atomic request reads past the array of controllers, and a
request is not counted when it completes. -/
theorem atomic_past_controllers :
    small.memory.memSize = 128 ∧ small.isIssuable 128 = some (.reserved 0) ∧
      small.issueCommand 128 = some (.reserved 0) ∧ small.issueAtomic 128 = none ∧ small.accessCache 128 = true ∧
      small.requestComplete false true false 128 ⟨0, 0, 0⟩ = ⟨0, 0, 0⟩ := by
  decide

end FineNVMain

end Shma.Nvmain
