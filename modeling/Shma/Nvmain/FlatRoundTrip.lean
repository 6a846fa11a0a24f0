import Shma.Nvmain.FlatDecoder

/-!
# Both directions of the flat decoder

`GetAddressKey` splits a flat address into a device and a local address, and `ReverseTranslate2`
puts the two together. Both ask whether there are bits above `fast_mem_bits`, one in the flat
address and one in the local address of the slow device. Above the alternating slices the two
questions differ by the size of this region.
-/
namespace Shma.Nvmain

structure DeviceDecoder where
  translate : Nat → Coords
  reverseTranslate : Coords → Nat

/-- An address without its lowest bits, which are in no field. -/
def clearLow (offsetBits a : Nat) : Nat := a - a % 2 ^ offsetBits

/-- The two directions belong together on the addresses and the field vectors of a device. -/
structure DeviceDecoder.InversePair (d : DeviceDecoder) (size offsetBits : Nat) (has : Coords → Prop) : Prop where
  has_translate : ∀ a < size, has (d.translate a)
  reverse_translate : ∀ a < size, d.reverseTranslate (d.translate a) = clearLow offsetBits a
  reverse_lt : ∀ c, has c → d.reverseTranslate c < size
  translate_reverse : ∀ c, has c → d.translate (d.reverseTranslate c) = c

def Geometry.decoder (g : Geometry) : DeviceDecoder := ⟨g.method.decode g.bus, g.method.encode g.bus⟩

theorem Geometry.decoder_inversePair (g : Geometry) :
    g.decoder.InversePair g.capacity g.bus.offsetBits g.method.InRange where
  has_translate a _ := TranslationMethod.decode_inRange g.permutes a
  reverse_translate _ ha := TranslationMethod.encode_decode g.permutes ha
  reverse_lt _ hc := TranslationMethod.encode_lt g.permutes hc
  translate_reverse _ hc := TranslationMethod.decode_encode g.permutes hc

theorem clearLow_add {offsetBits k : Nat} (h : 2 ^ offsetBits ∣ k) (r : Nat) :
    clearLow offsetBits (k + r) = k + clearLow offsetBits r := by
  have hle := Nat.mod_le r (2 ^ offsetBits)
  obtain ⟨j, rfl⟩ := h
  rw [clearLow, clearLow, Nat.mul_add_mod]
  omega

theorem clearLow_le (offsetBits a : Nat) : clearLow offsetBits a ≤ a := Nat.sub_le _ _

section Slices

variable {slice k unit r : Nat}

theorem slice_lt_of_lt (h : unit * slice + r < k * slice) : unit < k := by
  by_contra hge
  have hle : k * slice ≤ unit * slice := Nat.mul_le_mul_right slice (Nat.le_of_not_lt hge)
  omega

theorem slice_le_of_le (hr : r < slice) (h : k * slice ≤ unit * slice + r) : k ≤ unit := by
  by_contra hlt
  have hle : (unit + 1) * slice ≤ k * slice := Nat.mul_le_mul_right slice (by omega)
  rw [Nat.add_mul] at hle
  omega

theorem half_slice_lt (hr : r < slice) (h : unit * slice + r < 2 * (k * slice)) : unit / 2 * slice + r < k * slice := by
  have hunit : unit < 2 * k := slice_lt_of_lt (by rwa [Nat.mul_assoc])
  have hle : (unit / 2 + 1) * slice ≤ k * slice := Nat.mul_le_mul_right slice (by omega)
  rw [Nat.add_mul] at hle
  omega

end Slices

namespace FlatNVMain

def size (c : FlatNVMain) : Media → Nat
  | .fast => c.fastMemSize
  | .slow => c.slowMemSize

theorem slice_number (c : FlatNVMain) {unit r : Nat} (hr : r < c.memorySlice) :
    (unit * c.memorySlice + r) / c.memorySlice = unit := by
  rw [Nat.mul_comm, Nat.mul_add_div c.memorySlice_pos, Nat.div_eq_of_lt hr, Nat.add_zero]

theorem exists_slice (c : FlatNVMain) (a : Nat) : ∃ unit r, r < c.memorySlice ∧ a = unit * c.memorySlice + r :=
  ⟨a / c.memorySlice, a % c.memorySlice, mod_lt _ c.memorySlice_pos, (Nat.div_add_mod' a _).symm⟩

end FlatNVMain

namespace FlatLayout

/-- `ReverseTranslate2`, over any decoders of the two devices. -/
def reverseTranslate2Of (L : FlatLayout) (dec : Media → DeviceDecoder) (c : Coords) (m : Media) : Nat :=
  L.flatten m ((dec m).reverseTranslate c % 2 ^ 64) % 2 ^ 64

def RoundTrips (L : FlatLayout) (dec : Media → DeviceDecoder) (offsetBits : Media → Nat) (a : Nat) : Prop :=
  let (m, address) := L.split a
  L.reverseTranslate2Of dec ((dec m).translate address) m = clearLow (offsetBits m) a

/-- The sizes are powers of two or divide each other like these, and a slice holds whole bursts. -/
structure Sliced (L : FlatLayout) (offsetBits : Media → Nat) : Prop where
  fast_pow : ∃ f, L.flat.fastMemSize = 2 ^ f
  slice_dvd : L.flat.memorySlice ∣ L.flat.fastMemSize
  fast_le_slow : L.flat.fastMemSize ≤ L.flat.slowMemSize
  offset_dvd : ∀ m, 2 ^ offsetBits m ∣ L.flat.memorySlice

variable {L : FlatLayout} {offsetBits : Media → Nat}

section

variable (h : L.Sliced offsetBits)
include h

theorem Sliced.two_pow_fastMemBits : 2 ^ L.flat.fastMemBits = 2 * L.flat.fastMemSize := by
  obtain ⟨f, hf⟩ := h.fast_pow
  have hlog : mlog2 (2 ^ f) = f := by
    unfold mlog2
    split
    · rename_i hlt
      rcases Nat.eq_zero_or_pos f with rfl | hpos
      · rfl
      · have := Nat.pow_le_pow_right Nat.two_pos hpos
        omega
    · exact Nat.log2_two_pow
  rw [FlatNVMain.fastMemBits, hf, hlog, Nat.pow_succ, Nat.mul_comm]

theorem Sliced.four_le : 4 * L.flat.fastMemSize ≤ 2 ^ 64 := by
  obtain ⟨f, hf⟩ := h.fast_pow
  have hlt := L.flat.fastMemSize_lt
  rw [hf] at hlt ⊢
  have hle : 2 ^ f ≤ 2 ^ 62 := Nat.pow_le_pow_right Nat.two_pos (by
    have := (Nat.pow_lt_pow_iff_right (by decide : 1 < 2)).mp hlt
    omega)
  omega

theorem Sliced.below_iff {a : Nat} : a >>> L.flat.fastMemBits = 0 ↔ a < 2 * L.flat.fastMemSize := by
  rw [FlatNVMain.shiftRight_fastMemBits_eq_zero, h.two_pow_fastMemBits]

theorem Sliced.split_above {a : Nat} (ha : 2 * L.flat.fastMemSize ≤ a) (hword : a < 2 ^ 64) :
    L.split a = (.slow, a - 2 * L.flat.fastMemSize) := by
  have habove : ¬ a >>> L.flat.fastMemBits = 0 := by
    rw [h.below_iff]
    omega
  unfold split
  rw [if_neg habove, show (a : Int) - 2 * L.flat.fastMemSize = ((a - 2 * L.flat.fastMemSize : Nat) : Int) by omega,
    toU64_natCast (by omega)]

theorem Sliced.split_below {unit r : Nat} (hr : r < L.flat.memorySlice)
    (ha : unit * L.flat.memorySlice + r < 2 * L.flat.fastMemSize) :
    L.split (unit * L.flat.memorySlice + r) =
      (if unit % 2 = 1 then .fast else .slow, unit / 2 * L.flat.memorySlice + r) := by
  unfold split
  simp only [L.flat.slice_number hr]
  rw [if_pos (h.below_iff.mpr ha)]
  obtain ⟨q, hq | hq⟩ := Nat.even_or_odd' unit
  · rw [if_neg (by omega), if_neg (by omega), hq, Nat.mul_div_cancel_left _ Nat.two_pos]
    congr 1
    rw [Nat.mul_assoc]
    omega
  · rw [if_pos (by omega), if_pos (by omega), hq, Nat.add_sub_cancel, Nat.mul_div_cancel_left _ Nat.two_pos,
      show (2 * q + 1) / 2 = q by omega]
    congr 1
    rw [Nat.add_mul, Nat.add_mul, Nat.mul_assoc]
    omega

omit h in
theorem flatten_fast {q r : Nat} (hr : r < L.flat.memorySlice) :
    L.flatten .fast (q * L.flat.memorySlice + r) = (2 * q + 1) * L.flat.memorySlice + r := by
  rw [flatten, L.flat.slice_number hr, Nat.add_mul, Nat.add_mul, Nat.mul_assoc]
  omega

theorem Sliced.flatten_slow_below {q r : Nat} (hr : r < L.flat.memorySlice)
    (hl : q * L.flat.memorySlice + r < 2 * L.flat.fastMemSize) :
    L.flatten .slow (q * L.flat.memorySlice + r) = 2 * q * L.flat.memorySlice + r := by
  rw [flatten, if_pos (h.below_iff.mpr hl), L.flat.slice_number hr, Nat.mul_assoc]
  omega

theorem Sliced.flatten_slow_above {address : Nat}
    (hl : 2 * L.flat.fastMemSize ≤ address) : L.flatten .slow address = address + 2 * L.flat.fastMemSize := by
  have habove : ¬ address >>> L.flat.fastMemBits = 0 := by
    rw [h.below_iff]
    omega
  rw [flatten, if_neg habove]

end

/-! ### From a flat address -/

variable {dec : Media → DeviceDecoder} {has : Media → Coords → Prop}

theorem reverse_split {a l : Nat} {m : Media} (hpair : (dec m).InversePair (L.flat.size m) (offsetBits m) (has m))
    (hsplit : L.split a = (m, l)) (hl : l < L.flat.size m) (hflat : L.flatten m (clearLow (offsetBits m) l) < 2 ^ 64) :
    L.RoundTrips dec offsetBits a ↔ L.flatten m (clearLow (offsetBits m) l) = clearLow (offsetBits m) a := by
  have hword : clearLow (offsetBits m) l < 2 ^ 64 := by
    have hle := clearLow_le (offsetBits m) l
    have hsum := L.flat.memSize_lt
    cases m <;> simp only [FlatNVMain.size] at hl <;> omega
  unfold RoundTrips
  rw [hsplit]
  simp only [reverseTranslate2Of]
  rw [hpair.reverse_translate l hl, mod_eq_of_lt hword, mod_eq_of_lt hflat]

section

variable (h : L.Sliced offsetBits)
include h

section

variable (hpair : ∀ m, (dec m).InversePair (L.flat.size m) (offsetBits m) (has m))
include hpair

theorem Sliced.roundTrips_below {a : Nat} (ha : a < 2 * L.flat.fastMemSize) : L.RoundTrips dec offsetBits a := by
  obtain ⟨unit, r, hr, rfl⟩ := L.flat.exists_slice a
  obtain ⟨k, hk⟩ := exists_eq_mul_left_of_dvd h.slice_dvd
  have hfour := h.four_le
  have hslow := h.fast_le_slow
  -- the local address lies in the fast device or in the part of the slow device that is as large
  have hlocal : unit / 2 * L.flat.memorySlice + r < L.flat.fastMemSize := by
    rw [hk] at ha ⊢
    exact half_slice_lt hr ha
  have hclear : ∀ m u, clearLow (offsetBits m) (u * L.flat.memorySlice + r) =
      u * L.flat.memorySlice + clearLow (offsetBits m) r := by
    intro m u
    exact clearLow_add ((h.offset_dvd m).mul_left u) r
  have hsplit := h.split_below hr ha
  have hcr : ∀ m, clearLow (offsetBits m) r < L.flat.memorySlice := fun m => (clearLow_le _ r).trans_lt hr
  have hcle : ∀ m, clearLow (offsetBits m) r ≤ r := fun m => clearLow_le _ r
  by_cases hodd : unit % 2 = 1
  · rw [if_pos hodd] at hsplit
    have hflat : L.flatten .fast (clearLow (offsetBits .fast) (unit / 2 * L.flat.memorySlice + r)) =
        clearLow (offsetBits .fast) (unit * L.flat.memorySlice + r) := by
      rw [hclear, hclear, flatten_fast (hcr .fast), show 2 * (unit / 2) + 1 = unit by omega]
    refine (reverse_split (hpair .fast) hsplit hlocal ?_).mpr hflat
    rw [hflat]
    exact (clearLow_le _ _).trans_lt (by omega)
  · rw [if_neg hodd] at hsplit
    have hflat : L.flatten .slow (clearLow (offsetBits .slow) (unit / 2 * L.flat.memorySlice + r)) =
        clearLow (offsetBits .slow) (unit * L.flat.memorySlice + r) := by
      have hbelow := hcle .slow
      rw [hclear, hclear, h.flatten_slow_below (hcr .slow) (by omega), show 2 * (unit / 2) = unit by omega]
    refine (reverse_split (hpair .slow) hsplit (hlocal.trans_le hslow) ?_).mpr hflat
    rw [hflat]
    exact (clearLow_le _ _).trans_lt (by omega)

theorem Sliced.roundTrips_above_iff {a : Nat} (ha : 2 * L.flat.fastMemSize ≤ a) (hmem : a < L.flat.memSize) :
    L.RoundTrips dec offsetBits a ↔ 4 * L.flat.fastMemSize ≤ a := by
  have hsum : L.flat.memSize < 2 ^ 64 := L.flat.memSize_lt
  have hlocal : a - 2 * L.flat.fastMemSize < L.flat.slowMemSize := by
    rw [FlatNVMain.memSize] at hmem
    omega
  have hdvd : 2 ^ offsetBits .slow ∣ 2 * L.flat.fastMemSize :=
    ((h.offset_dvd .slow).trans h.slice_dvd).mul_left 2
  have hclear := clearLow_add hdvd (a - 2 * L.flat.fastMemSize)
  rw [Nat.add_sub_cancel' ha] at hclear
  have hsplit := h.split_above ha (hmem.trans hsum)
  have hle := clearLow_le (offsetBits .slow) (a - 2 * L.flat.fastMemSize)
  by_cases hfar : 4 * L.flat.fastMemSize ≤ a
  · have hstill : 2 * L.flat.fastMemSize ≤ clearLow (offsetBits .slow) (a - 2 * L.flat.fastMemSize) := by
      have hmore := clearLow_add hdvd (a - 2 * L.flat.fastMemSize - 2 * L.flat.fastMemSize)
      rw [Nat.add_sub_cancel' (by omega)] at hmore
      omega
    have hflat := h.flatten_slow_above hstill
    refine iff_of_true ((reverse_split (hpair .slow) hsplit hlocal ?_).mpr ?_) hfar
    · omega
    · omega
  · refine iff_of_false (fun hround => ?_) hfar
    obtain ⟨q, r, hr, hq⟩ := L.flat.exists_slice (clearLow (offsetBits .slow) (a - 2 * L.flat.fastMemSize))
    have hflat := h.flatten_slow_below hr (show q * L.flat.memorySlice + r < 2 * L.flat.fastMemSize by omega)
    rw [Nat.mul_assoc] at hflat
    rw [reverse_split (hpair .slow) hsplit hlocal, hq] at hround
    · omega
    · rw [hq]
      omega

end

/-! ### From a row -/

theorem Sliced.flatten_lt {m : Media} {l : Nat} (hl : l < L.flat.fastMemSize) :
    L.flatten m l < 2 ^ L.flat.fastMemBits := by
  obtain ⟨q, r, hr, rfl⟩ := L.flat.exists_slice l
  obtain ⟨k, hk⟩ := exists_eq_mul_left_of_dvd h.slice_dvd
  rw [hk] at hl
  have hq : q < k := slice_lt_of_lt hl
  have hle : (q + 1) * L.flat.memorySlice ≤ k * L.flat.memorySlice := Nat.mul_le_mul_right _ hq
  rw [Nat.add_mul] at hle
  rw [h.two_pow_fastMemBits]
  cases m with
  | fast =>
    rw [flatten_fast hr, Nat.add_mul, Nat.mul_assoc]
    omega
  | slow =>
    rw [h.flatten_slow_below hr (by omega), Nat.mul_assoc]
    omega

theorem Sliced.split_flatten_iff {m : Media} {l : Nat} (hl : l < L.flat.size m) :
    L.split (L.flatten m l % 2 ^ 64) = (m, l) ↔
      l < L.flat.fastMemSize ∨ 2 * L.flat.fastMemSize ≤ l ∧ l + 2 * L.flat.fastMemSize < 2 ^ 64 := by
  have hfour := h.four_le
  by_cases hlow : l < L.flat.fastMemSize
  · have hflat := h.flatten_lt (m := m) hlow
    have hword : L.flatten m l < 2 ^ 64 := by
      rw [h.two_pow_fastMemBits] at hflat
      omega
    refine iff_of_true ?_ (.inl hlow)
    rw [mod_eq_of_lt hword, split_flatten hflat]
  · obtain rfl : m = .slow := by
      cases m with
      | fast => exact absurd hl hlow
      | slow => rfl
    have hsum := L.flat.memSize_lt
    simp only [FlatNVMain.size] at hl
    by_cases hhigh : 2 * L.flat.fastMemSize ≤ l
    · rw [h.flatten_slow_above hhigh]
      by_cases hword : l + 2 * L.flat.fastMemSize < 2 ^ 64
      · refine iff_of_true ?_ (.inr ⟨hhigh, hword⟩)
        rw [mod_eq_of_lt hword, h.split_above (Nat.le_add_left _ _) hword, Nat.add_sub_cancel]
      · -- the sum is cut to an address among the slices
        refine iff_of_false (fun hsplit => ?_) (by omega)
        obtain ⟨unit, r, hr, hcut⟩ := L.flat.exists_slice ((l + 2 * L.flat.fastMemSize) % 2 ^ 64)
        rw [hcut, h.split_below hr (by omega)] at hsplit
        have hlocal : unit / 2 * L.flat.memorySlice + r = l := congrArg Prod.snd hsplit
        have hle : unit / 2 * L.flat.memorySlice ≤ unit * L.flat.memorySlice :=
          Nat.mul_le_mul_right _ (Nat.div_le_self unit 2)
        omega
    · refine iff_of_false (fun hsplit => ?_) (by omega)
      obtain ⟨q, r, hr, rfl⟩ := L.flat.exists_slice l
      have hflat := h.flatten_slow_below hr (show q * L.flat.memorySlice + r < 2 * L.flat.fastMemSize by omega)
      rw [Nat.mul_assoc] at hflat
      have hslices : L.flat.fastMemSize ≤ q * L.flat.memorySlice := by
        obtain ⟨k, hk⟩ := exists_eq_mul_left_of_dvd h.slice_dvd
        rw [hk] at hlow ⊢
        exact Nat.mul_le_mul_right _ (slice_le_of_le hr (Nat.le_of_not_lt hlow))
      rw [h.split_above (by omega) (by omega)] at hsplit
      have hlocal := congrArg Prod.snd hsplit
      omega

end

def SplitsBack (L : FlatLayout) (dec : Media → DeviceDecoder) (m : Media) (c : Coords) : Prop :=
  L.split (L.reverseTranslate2Of dec c m) = (m, (dec m).reverseTranslate c)

theorem Sliced.splitsBack_iff (h : L.Sliced offsetBits)
    (hpair : ∀ m, (dec m).InversePair (L.flat.size m) (offsetBits m) (has m)) {m : Media} {c : Coords} (hc : has m c) :
    L.SplitsBack dec m c ↔
      (dec m).reverseTranslate c < L.flat.fastMemSize ∨
      2 * L.flat.fastMemSize ≤ (dec m).reverseTranslate c ∧
        (dec m).reverseTranslate c + 2 * L.flat.fastMemSize < 2 ^ 64 := by
  have hlt := (hpair m).reverse_lt c hc
  have hword : (dec m).reverseTranslate c < 2 ^ 64 := by
    have hsum := L.flat.memSize_lt
    cases m <;> simp only [FlatNVMain.size] at hlt <;> omega
  rw [SplitsBack, reverseTranslate2Of, mod_eq_of_lt hword]
  exact h.split_flatten_iff hlt

/-- For decoders of the devices that are inverse pairs: which addresses and which rows come back.
All do exactly if the slow device is as large as the fast one. -/
theorem round_trip_iff (L : FlatLayout) (dec : Media → DeviceDecoder) (offsetBits : Media → Nat)
    (has : Media → Coords → Prop) (h : L.Sliced offsetBits)
    (hpair : ∀ m, (dec m).InversePair (L.flat.size m) (offsetBits m) (has m)) :
    (∀ a < L.flat.memSize,
      L.RoundTrips dec offsetBits a ↔ a < 2 * L.flat.fastMemSize ∨ 4 * L.flat.fastMemSize ≤ a) ∧
    (∀ m c, has m c → (L.SplitsBack dec m c ↔
      (dec m).reverseTranslate c < L.flat.fastMemSize ∨
      2 * L.flat.fastMemSize ≤ (dec m).reverseTranslate c ∧
        (dec m).reverseTranslate c + 2 * L.flat.fastMemSize < 2 ^ 64)) ∧
    ((∀ a < L.flat.memSize, L.RoundTrips dec offsetBits a) ∧ (∀ m c, has m c → L.SplitsBack dec m c) ↔
      L.flat.slowMemSize = L.flat.fastMemSize) := by
  have haddr : ∀ a < L.flat.memSize,
      L.RoundTrips dec offsetBits a ↔ a < 2 * L.flat.fastMemSize ∨ 4 * L.flat.fastMemSize ≤ a := by
    intro a hmem
    by_cases ha : a < 2 * L.flat.fastMemSize
    · exact iff_of_true (h.roundTrips_below hpair ha) (.inl ha)
    · rw [h.roundTrips_above_iff hpair (Nat.le_of_not_lt ha) hmem, or_iff_right ha]
  refine ⟨haddr, fun m c hc => h.splitsBack_iff hpair hc, fun ⟨hall, _⟩ => ?_, fun heq => ⟨fun a hmem => ?_, ?_⟩⟩
  · -- otherwise the first address above the slices is one of the slow device
    have hle := h.fast_le_slow
    have hpos := L.flat.fastMemSize_pos
    by_contra hne
    have hmem : 2 * L.flat.fastMemSize < L.flat.memSize := by
      rw [FlatNVMain.memSize]
      omega
    have := (haddr _ hmem).mp (hall _ hmem)
    omega
  · rw [FlatNVMain.memSize] at hmem
    exact (haddr a hmem).mpr (.inl (by omega))
  · intro m c hc
    have hlt := (hpair m).reverse_lt c hc
    refine (h.splitsBack_iff hpair hc).mpr (.inl ?_)
    cases m <;> simp only [FlatNVMain.size] at hlt <;> omega

/-- Two devices of the same size. -/
theorem round_trip_iff_twoRows :
    let L := FlatDecoder.twoRows
    (∀ a < L.flat.memSize, L.RoundTrips (fun m => (L.geometry m).decoder) (fun _ => 0) a) ∧
      ∀ m c, (L.geometry m).method.InRange c → L.SplitsBack (fun m => (L.geometry m).decoder) m c := by
  intro L
  have hsliced : L.Sliced fun _ => 0 := ⟨⟨1, rfl⟩, by decide, by decide, fun _ => Nat.one_dvd _⟩
  have hpair := FlatDecoder.rowGeometry.decoder_inversePair
  refine (round_trip_iff L (fun m => (L.geometry m).decoder) (fun _ => 0) (fun m => (L.geometry m).method.InRange)
    hsliced fun m => ?_).2.2.mpr rfl
  cases m with
  | fast | slow => exact hpair

theorem twoAndFour_channels : 2 ≤ 2 := Nat.le_refl 2

theorem twoAndFour_fast : 2 < 2 ^ 63 := FlatDecoder.twoRows_fits.1

theorem twoAndFour_fits : 2 + 4 < 2 ^ 64 := by decide

def twoAndFour : FlatLayout where
  flat := ⟨2, 4, 2, Nat.two_pos, FlatDecoder.two_lt_int, twoAndFour_channels, twoAndFour_fast, twoAndFour_fits⟩
  fast := FlatDecoder.rowGeometry
  slow := MQMigrator.pair
  slowCounts := ⟨2, 1, 1, 1, 2⟩
  totals := ⟨3, 2, 2, 2, 4⟩

/-- The first address above the slices comes back as address zero, and the third address of the slow
device comes back as its first. -/
theorem twoAndFour_mixed_up :
    let slow := twoAndFour.slow
    twoAndFour.split 4 = (.slow, 0) ∧ twoAndFour.reverseTranslate2 (slow.home 0) 0 .slow = 0 ∧
      slow.base (slow.home 2) = 2 ∧ twoAndFour.reverseTranslate2 (slow.home 2) 0 .slow = 4 := by
  decide

end FlatLayout

end Shma.Nvmain
