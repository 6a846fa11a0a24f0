import Shma.Nvmain.FlatDecoder

/-!
# The keys of the flat memory

`SetConfig` of `NVM/nvmain.cpp` gives a device the widths of its fields, and `Init` of
`Decoders/FlatDecoder/FlatDecoder.cpp` takes from the two configurations the numbers that
`GetAddressKey` multiplies with. It divides the rows of the fast device by the height of a mat
of the slow one.

`GetValue` yields an `int`, which is minus one for a key that is not set. Without a mat height of
the slow device the radix of the subarray is therefore the number of all rows, with a minus.
-/
namespace Shma.Nvmain

open Lib
open Nat (lt_add_left succ_mul)

structure DeviceConfig where
  (channels ranks banks rows cols : Nat)
  matHeight : Option Nat
  counts : ∀ n ∈ [channels, ranks, banks, rows, cols], 0 < n ∧ n < 2 ^ 31
  mats : ∀ h, matHeight = some h → 0 < h ∧ h ≤ rows

namespace DeviceConfig

variable (c : DeviceConfig)

def matRows : Nat := c.matHeight.getD c.rows

def subarrays : Nat :=
  match c.matHeight with
  | some h => c.rows / h
  | none => 1

def bitWidths : Field → Nat :=
  Field.table (mlog2 c.matRows) (mlog2 c.cols) (mlog2 c.banks) (mlog2 c.ranks) (mlog2 c.channels) (mlog2 c.subarrays)

def matHeightValue : Int :=
  match c.matHeight with
  | some h => h
  | none => -1

theorem channels_pos : 0 < c.channels := (c.counts _ (by simp)).1

theorem ranks_pos : 0 < c.ranks := (c.counts _ (by simp)).1

theorem banks_pos : 0 < c.banks := (c.counts _ (by simp)).1

theorem rows_pos : 0 < c.rows := (c.counts _ (by simp)).1

theorem rows_lt : c.rows < 2 ^ 31 := (c.counts _ (by simp)).2

theorem matRows_pos : 0 < c.matRows := by
  unfold matRows
  cases h : c.matHeight with
  | none => exact c.rows_pos
  | some m => exact (c.mats m h).1

theorem subarrays_pos : 0 < c.subarrays := by
  unfold subarrays
  cases h : c.matHeight with
  | none => exact Nat.one_pos
  | some m => exact Nat.div_pos (c.mats m h).2 (c.mats m h).1

theorem subarrays_mul_matRows_le : c.subarrays * c.matRows ≤ c.rows := by
  unfold subarrays matRows
  cases c.matHeight with
  | none => exact (Nat.one_mul _).le
  | some m => exact Nat.div_mul_le_self _ _

end DeviceConfig

structure Device extends DeviceConfig where
  geometry : Geometry
  bitWidths_eq : geometry.method.bitWidths = toDeviceConfig.bitWidths

namespace Device

variable {d : Device} {r : Row}

theorem lt_of_lt_count {f : Field} {x n : Nat} (h : x < d.geometry.count f) (hn : 0 < n)
    (hwidth : d.bitWidths f = mlog2 n) : x < n := by
  rw [Geometry.count, d.bitWidths_eq, hwidth] at h
  exact h.trans_le (two_pow_mlog2_le hn)

variable (h : d.geometry.HasRow r)
include h

theorem channel_lt : r.channel < d.channels := lt_of_lt_count h.channel d.channels_pos rfl

theorem rank_lt : r.rank < d.ranks := lt_of_lt_count h.rank d.ranks_pos rfl

theorem bank_lt : r.bank < d.banks := lt_of_lt_count h.bank d.banks_pos rfl

theorem subarray_lt : r.subarray < d.subarrays := lt_of_lt_count h.subarray d.subarrays_pos rfl

theorem row_lt : r.row < d.matRows := lt_of_lt_count h.row d.matRows_pos rfl

end Device

namespace FlatLayout

def init (flat : FlatNVMain) (fast slow : Device) : FlatLayout :=
  let slowSubarrays := toU64 ((slow.rows : Int).tdiv slow.matHeightValue)
  { flat
    fast := fast.geometry
    slow := slow.geometry
    slowCounts := ⟨slow.channels, slow.ranks, slow.banks, slowSubarrays, slow.rows⟩
    totals :=
      { channel := fast.channels + slow.channels
        rank := fast.ranks + slow.ranks
        bank := fast.banks + slow.banks
        -- the height of a mat of the slow device
        subarray := toU64 ((fast.rows : Int).tdiv slow.matHeightValue + slowSubarrays)
        row := fast.rows + slow.rows } }

variable (L : FlatLayout) (t c : Row)

/-- The number of keys that the radices leave room for; the one of the subarray may be negative. -/
def keyRoom : Nat :=
  L.totals.channel * L.totals.rank * L.totals.bank *
    (L.totals.row * min L.totals.subarray (2 ^ 64 - L.totals.subarray))

def KeysIdentify : Prop :=
  ∀ a b, L.getAddressKey a = L.getAddressKey b → L.home a = L.home b

/-! ### The number behind a key -/

theorem mul_add_inj {t x x' y y' : Nat} (hy : y < y' + t) (hy' : y' < y + t) (he : x * t + y = x' * t + y') :
    x = x' ∧ y = y' := by
  rcases Nat.lt_trichotomy x x' with hlt | rfl | hlt
  · have hle := Nat.mul_le_mul_right t hlt
    rw [succ_mul] at hle
    omega
  · exact ⟨rfl, Nat.add_left_cancel he⟩
  · have hle := Nat.mul_le_mul_right t hlt
    rw [succ_mul] at hle
    omega

theorem mul_add_lt {x y a b : Nat} (hx : x < a) (hy : y < b) : x * b + y < a * b :=
  calc x * b + y < x * b + b := Nat.add_lt_add_left hy _
    _ = (x + 1) * b := (succ_mul _ _).symm
    _ ≤ a * b := Nat.mul_le_mul_right _ hx

/-- The coordinates of a place: those of the fast device come after those of the slow one. -/
def shifted : Place → Row
  | ⟨.fast, r⟩ =>
    ⟨r.channel + L.slowCounts.channel, r.rank + L.slowCounts.rank, r.bank + L.slowCounts.bank,
      r.subarray + L.slowCounts.subarray, r.row + L.slowCounts.row⟩
  | ⟨.slow, r⟩ => r

/-- The channel, the rank and the bank in one number. -/
def high : Nat := (c.channel * t.rank + c.rank) * t.bank + c.bank

def spot : Nat := c.row * t.subarray + c.subarray

theorem rowKey_eq (p : Place) : L.rowKey p =
    (high L.totals (L.shifted p) * (L.totals.row * L.totals.subarray) + spot L.totals (L.shifted p)) % 2 ^ 64 := by
  obtain ⟨m, r⟩ := p
  cases m
  all_goals
    simp only [rowKey, shifted, high, spot]
    congr 1
    ring

structure Below : Prop where
  channel : c.channel < t.channel
  rank : c.rank < t.rank
  bank : c.bank < t.bank

namespace Below

variable {t c c' : Row} (h : Below t c)
include h

theorem high_lt : high t c < t.channel * t.rank * t.bank := mul_add_lt (mul_add_lt h.channel h.rank) h.bank

theorem high_lt_high (hlt : c.channel < c'.channel) : high t c < high t c' :=
  calc high t c < (c.channel + 1) * t.rank * t.bank :=
        mul_add_lt (mul_add_lt (lt_succ_self _) h.rank) h.bank
    _ ≤ (c'.channel * t.rank + c'.rank) * t.bank :=
        Nat.mul_le_mul_right _ ((Nat.mul_le_mul_right _ hlt).trans (Nat.le_add_right _ _))
    _ ≤ high t c' := Nat.le_add_right _ _

theorem high_inj (h' : Below t c') (he : high t c = high t c') :
    c.channel = c'.channel ∧ c.rank = c'.rank ∧ c.bank = c'.bank := by
  obtain ⟨hrest, hbank⟩ := mul_add_inj (lt_add_left _ h.bank) (lt_add_left _ h'.bank) he
  obtain ⟨hchannel, hrank⟩ := mul_add_inj (lt_add_left _ h.rank) (lt_add_left _ h'.rank) hrest
  exact ⟨hchannel, hrank, hbank⟩

end Below

/-- The counts of the decoder cover the rows of the devices. -/
structure Counts : Prop where
  below : ∀ p, (L.geometry p.media).HasRow p.row → Below L.totals (L.shifted p)
  channel : ∀ r, L.slow.HasRow r → r.channel < L.slowCounts.channel

/-- Numbers for the rows of a channel, rank and bank of either device. -/
structure Spots (width : Nat) (spot : Place → Nat) : Prop where
  slow : ∀ r, L.slow.HasRow r → spot ⟨.slow, r⟩ < width
  fast : ∀ r, L.fast.HasRow r → 0 < spot ⟨.fast, r⟩ ∧ spot ⟨.fast, r⟩ ≤ width
  inj : ∀ m r r', (L.geometry m).HasRow r → (L.geometry m).HasRow r' → spot ⟨m, r⟩ = spot ⟨m, r'⟩ →
    r.row = r'.row ∧ r.subarray = r'.subarray

def number (width : Nat) (spot : Place → Nat) (p : Place) : Nat :=
  high L.totals (L.shifted p) * width + spot p

section Number

variable {L : FlatLayout} {width : Nat} {spot : Place → Nat} (hc : L.Counts) (h : L.Spots width spot)
include hc h

theorem number_le {p : Place} (hp : (L.geometry p.media).HasRow p.row) :
    L.number width spot p ≤ L.totals.channel * L.totals.rank * L.totals.bank * width := by
  have hspot : spot p ≤ width := by
    obtain ⟨m, r⟩ := p
    cases m with
    | fast => exact (h.fast r hp).2
    | slow => exact (h.slow r hp).le
  calc L.number width spot p ≤ high L.totals (L.shifted p) * width + width := Nat.add_le_add_left hspot _
    _ = (high L.totals (L.shifted p) + 1) * width := (succ_mul _ _).symm
    _ ≤ _ := Nat.mul_le_mul_right _ (hc.below p hp).high_lt

/-- The rows of the slow device come first. -/
theorem number_slow_lt {r r' : Row} (hr : L.slow.HasRow r) :
    L.number width spot ⟨.slow, r⟩ < L.number width spot ⟨.fast, r'⟩ :=
  calc L.number width spot ⟨.slow, r⟩ < high L.totals (L.shifted ⟨.fast, r'⟩) * width :=
        mul_add_lt ((hc.below ⟨.slow, r⟩ hr).high_lt_high (lt_add_left _ (hc.channel r hr))) (h.slow r hr)
    _ ≤ L.number width spot ⟨.fast, r'⟩ := Nat.le_add_right _ _

theorem number_inj {p q : Place} (hp : (L.geometry p.media).HasRow p.row) (hq : (L.geometry q.media).HasRow q.row)
    (he : L.number width spot p = L.number width spot q) : p = q := by
  obtain ⟨m, r⟩ := p
  obtain ⟨m', r'⟩ := q
  have hsame : m = m' := by
    cases m with
    | fast =>
      cases m' with
      | fast => rfl
      | slow => exact absurd he.symm (number_slow_lt hc h hq).ne
    | slow =>
      cases m' with
      | fast => exact absurd he (number_slow_lt hc h hp).ne
      | slow => rfl
  subst hsame
  have hnear : ∀ {x y : Row}, (L.geometry m).HasRow x → (L.geometry m).HasRow y →
      spot ⟨m, x⟩ < spot ⟨m, y⟩ + width := by
    intro x y hx hy
    cases m with
    | fast => exact lt_add_of_pos_of_le (h.fast y hy).1 (h.fast x hx).2
    | slow => exact lt_add_left _ (h.slow x hx)
  obtain ⟨hhigh, hspot⟩ := mul_add_inj (hnear hp hq) (hnear hq hp) he
  obtain ⟨hchannel, hrank, hbank⟩ := (hc.below _ hp).high_inj (hc.below _ hq) hhigh
  obtain ⟨hrow, hsub⟩ := h.inj m r r' hp hq hspot
  have heq : r = r' := by
    cases m with
    | fast =>
      exact Row.ext (Nat.add_right_cancel hchannel) (Nat.add_right_cancel hrank) (Nat.add_right_cancel hbank) hsub hrow
    | slow => exact Row.ext hchannel hrank hbank hsub hrow
  rw [heq]

/-- Rows are told apart by keys that fix the numbers up to a word. -/
theorem keysIdentify_of_spots (hroom : L.totals.channel * L.totals.rank * L.totals.bank * width < 2 ^ 64)
    (hkey : ∀ p q, (L.geometry p.media).HasRow p.row → (L.geometry q.media).HasRow q.row →
      L.rowKey p = L.rowKey q → L.number width spot p ≡ L.number width spot q [MOD 2 ^ 64]) : L.KeysIdentify := by
  intro a b hab
  have ha : (L.geometry (L.home a).media).HasRow (L.home a).row := Geometry.home_hasRow _
  have hb : (L.geometry (L.home b).media).HasRow (L.home b).row := Geometry.home_hasRow _
  have hmod := hkey _ _ ha hb hab
  exact number_inj hc h ha hb
    (hmod.eq_of_lt_of_lt ((number_le hc h ha).trans_lt hroom) ((number_le hc h hb).trans_lt hroom))

end Number

/-! ### The two devices -/

/-- The fast device has one row in a subarray, or no more subarrays than the radix counts. -/
def SpotsApart : Prop :=
  L.fast.count .row = 1 ∨ L.fast.count .subarray ≤ L.totals.subarray

section Init

variable (flat : FlatNVMain) {fast slow : Device} {h : Nat} {r : Row}

theorem init_counts : (init flat fast slow).Counts where
  below p hp := by
    obtain ⟨m, r⟩ := p
    cases m with
    | fast =>
      exact ⟨Nat.add_lt_add_right (Device.channel_lt hp) _, Nat.add_lt_add_right (Device.rank_lt hp) _,
        Nat.add_lt_add_right (Device.bank_lt hp) _⟩
    | slow =>
      exact ⟨lt_add_left _ (Device.channel_lt hp), lt_add_left _ (Device.rank_lt hp),
        lt_add_left _ (Device.bank_lt hp)⟩
  channel _ hr := Device.channel_lt hr

theorem Device.row_lt_rows {d : Device} (hr : d.geometry.HasRow r) : r.row < d.rows :=
  (Device.row_lt hr).trans_le ((Nat.le_mul_of_pos_left _ d.subarrays_pos).trans d.subarrays_mul_matRows_le)

/-- The spots of a device with `q` subarrays of `m` rows each, where the radix of the subarray is
`t`. -/
theorem spot_room {q m rows t s : Nat} (hq : 0 < q) (hm : 0 < m) (hrows : q * m ≤ rows) (hs : s ≤ t) (ht : 0 < t)
    {x y : Nat} (hx : x < m) (hy : y < q) : x * t + y + s ≤ rows * t := by
  obtain ⟨q, rfl⟩ := Nat.exists_eq_succ_of_ne_zero hq.ne'
  obtain ⟨m, rfl⟩ := Nat.exists_eq_succ_of_ne_zero hm.ne'
  have hxm : x * t ≤ m * t := Nat.mul_le_mul_right _ (Nat.lt_succ_iff.mp hx)
  have hyq : y ≤ q * t := (Nat.lt_succ_iff.mp hy).trans (Nat.le_mul_of_pos_right q ht)
  have hprod : m * t + q * t + t ≤ (q + 1) * (m + 1) * t := by
    have hexpand : (q + 1) * (m + 1) * t = m * t + q * t + t + q * m * t := by ring
    omega
  calc x * t + y + s ≤ m * t + q * t + t := by omega
    _ ≤ (q + 1) * (m + 1) * t := hprod
    _ ≤ rows * t := Nat.mul_le_mul_right _ hrows

section

variable (hslow : slow.matHeight = some h)
include hslow

theorem init_subarrays (fast : Device) : (init flat fast slow).slowCounts.subarray = slow.subarrays ∧
    (init flat fast slow).totals.subarray = fast.rows / h + slow.subarrays ∧
    fast.rows / h + slow.subarrays < 2 ^ 63 := by
  have hf := fast.rows_lt
  have hs := slow.rows_lt
  have hlef : fast.rows / h ≤ fast.rows := Nat.div_le_self _ _
  have hles : slow.rows / h ≤ slow.rows := Nat.div_le_self _ _
  have hsub : slow.subarrays = slow.rows / h := by simp only [DeviceConfig.subarrays, hslow]
  have hcount : (init flat fast slow).slowCounts.subarray = slow.subarrays := by
    show toU64 ((slow.rows : Int).tdiv slow.matHeightValue) = _
    simp only [DeviceConfig.matHeightValue, hslow]
    rw [← Int.ofNat_tdiv, toU64_natCast (by omega), hsub]
  refine ⟨hcount, ?_, by omega⟩
  show toU64 ((fast.rows : Int).tdiv slow.matHeightValue + (init flat fast slow).slowCounts.subarray) = _
  rw [hcount]
  simp only [DeviceConfig.matHeightValue, hslow]
  rw [← Int.ofNat_tdiv, ← Int.natCast_add, toU64_natCast (by omega)]

theorem init_spots (hapart : (init flat fast slow).SpotsApart) :
    (init flat fast slow).Spots ((init flat fast slow).totals.row * (init flat fast slow).totals.subarray)
      fun p => spot (init flat fast slow).totals ((init flat fast slow).shifted p) := by
  obtain ⟨hcount, htotal, -⟩ := init_subarrays flat hslow fast
  have hle : slow.subarrays ≤ (init flat fast slow).totals.subarray := htotal ▸ Nat.le_add_left _ _
  have hsub : ∀ {r}, slow.geometry.HasRow r → r.subarray < (init flat fast slow).totals.subarray :=
    fun hr => (Device.subarray_lt hr).trans_le hle
  have hexpand : ∀ r, spot (init flat fast slow).totals ((init flat fast slow).shifted ⟨.fast, r⟩) =
      spot (init flat fast slow).totals r + slow.subarrays + slow.rows * (init flat fast slow).totals.subarray := by
    intro r
    show (r.row + slow.rows) * _ + (r.subarray + (init flat fast slow).slowCounts.subarray) = _
    rw [hcount, spot]
    ring
  refine ⟨fun r hr => ?_, fun r hr => ?_, fun m r r' hr hr' he => ?_⟩
  · exact mul_add_lt (lt_add_left _ (Device.row_lt_rows hr)) (hsub hr)
  · have hroom := spot_room fast.subarrays_pos fast.matRows_pos fast.subarrays_mul_matRows_le hle
      (slow.subarrays_pos.trans_le hle) (Device.row_lt hr) (Device.subarray_lt hr)
    have hpos := slow.subarrays_pos
    rw [hexpand]
    refine ⟨by omega, ?_⟩
    show _ ≤ (fast.rows + slow.rows) * _
    rw [Nat.add_mul]
    exact Nat.add_le_add_right hroom _
  · cases m with
    | slow => exact mul_add_inj (lt_add_left _ (hsub hr)) (lt_add_left _ (hsub hr')) he
    | fast =>
      rw [hexpand, hexpand] at he
      replace he : r.row * _ + r.subarray = r'.row * _ + r'.subarray :=
        Nat.add_right_cancel (Nat.add_right_cancel he)
      rcases hapart with hone | hcounts
      · have hzero : ∀ {q : Row}, fast.geometry.HasRow q → q.row = 0 := fun hq => lt_one_iff.mp (hone ▸ hq.row)
        rw [hzero hr, hzero hr', Nat.zero_mul, Nat.zero_add, Nat.zero_add] at he
        exact ⟨(hzero hr).trans (hzero hr').symm, he⟩
      · exact mul_add_inj (lt_add_left _ (hr.subarray.trans_le hcounts))
          (lt_add_left _ (hr'.subarray.trans_le hcounts)) he

theorem keysIdentify_of_height (hroom : (init flat fast slow).keyRoom < 2 ^ 64)
    (hapart : (init flat fast slow).SpotsApart) : (init flat fast slow).KeysIdentify := by
  refine keysIdentify_of_spots (init_counts flat) (init_spots flat hslow hapart) ?_ fun p q _ _ he => ?_
  · obtain ⟨-, htotal, hlt⟩ := init_subarrays flat hslow fast
    rw [keyRoom, Nat.min_eq_left (by omega)] at hroom
    exact hroom
  · rw [rowKey_eq, rowKey_eq] at he
    exact he

end

/-! ### No mat height -/

/-- Without a mat height a spot counts down with the subarray. -/
def unsetSpot (L : FlatLayout) : Place → Nat
  | ⟨.fast, r⟩ => (r.row + L.slowCounts.row) * L.totals.row + L.slowCounts.row - r.subarray
  | ⟨.slow, r⟩ => r.row * L.totals.row

theorem subarray_lt_total (slow : Device) (hr : fast.geometry.HasRow r) :
    r.subarray < (init flat fast slow).totals.row := by
  have hle : fast.subarrays ≤ fast.rows :=
    (Nat.le_mul_of_pos_right _ fast.matRows_pos).trans fast.subarrays_mul_matRows_le
  exact (Device.subarray_lt hr).trans_le (hle.trans (Nat.le_add_right _ _))

theorem unsetSpot_fast (slow : Device) (hr : fast.geometry.HasRow r) :
    (init flat fast slow).unsetSpot ⟨.fast, r⟩ + r.subarray =
      (r.row + slow.rows) * (init flat fast slow).totals.row + slow.rows := by
  have hlt := (subarray_lt_total flat slow hr).le.trans
    (Nat.le_mul_of_pos_left _ (Nat.add_pos_right r.row slow.rows_pos))
  exact Nat.sub_add_cancel (hlt.trans (Nat.le_add_right _ _))

section

variable (hslow : slow.matHeight = none)
include hslow

theorem init_unset (fast : Device) :
    (init flat fast slow).totals.subarray + (init flat fast slow).totals.row = 2 ^ 64 ∧
      (init flat fast slow).slowCounts.subarray + slow.rows = 2 ^ 64 := by
  have hf := fast.rows_lt
  have hs := slow.rows_lt
  have hpos := slow.rows_pos
  have hcount : (init flat fast slow).slowCounts.subarray = toU64 (-slow.rows) := by
    show toU64 ((slow.rows : Int).tdiv slow.matHeightValue) = _
    simp only [DeviceConfig.matHeightValue, hslow, Int.tdiv_neg, Int.tdiv_one]
  have htotal : (init flat fast slow).totals.subarray = toU64 (-fast.rows + toU64 (-slow.rows)) := by
    rw [← hcount]
    show toU64 ((fast.rows : Int).tdiv slow.matHeightValue + (init flat fast slow).slowCounts.subarray) = _
    simp only [DeviceConfig.matHeightValue, hslow, Int.tdiv_neg, Int.tdiv_one]
  have hrow : (init flat fast slow).totals.row = fast.rows + slow.rows := rfl
  rw [htotal, hcount, toU64, toU64]
  omega

theorem subarray_eq_zero (hr : slow.geometry.HasRow r) : r.subarray = 0 := by
  have hlt := Device.subarray_lt hr
  simp only [DeviceConfig.subarrays, hslow] at hlt
  exact lt_one_iff.mp hlt

theorem unset_spots : (init flat fast slow).Spots
    ((init flat fast slow).totals.row * (init flat fast slow).totals.row) (init flat fast slow).unsetSpot := by
  have hpos := fast.rows_pos
  refine ⟨fun r hr => ?_, fun r hr => ?_, fun m r r' hr hr' he => ?_⟩
  · have hrow : r.row < (init flat fast slow).totals.row := lt_add_left _ (Device.row_lt_rows hr)
    exact Nat.mul_lt_mul_of_pos_right hrow (Nat.zero_lt_of_lt hrow)
  · have hspot := unsetSpot_fast flat slow hr
    have hlt := subarray_lt_total flat slow hr
    have hle : (init flat fast slow).totals.row ≤ (r.row + slow.rows) * (init flat fast slow).totals.row :=
      Nat.le_mul_of_pos_left _ (Nat.add_pos_right r.row slow.rows_pos)
    have hrow : r.row + slow.rows < (init flat fast slow).totals.row :=
      Nat.add_lt_add_right (Device.row_lt_rows hr) _
    have hmul := Nat.mul_le_mul_right (init flat fast slow).totals.row hrow
    rw [succ_mul] at hmul
    omega
  · cases m with
    | slow =>
      have hzero := fun {q} => subarray_eq_zero hslow (r := q)
      exact ⟨Nat.eq_of_mul_eq_mul_right (Nat.add_pos_left hpos _) he, (hzero hr).trans (hzero hr').symm⟩
    | fast =>
      have hspot := unsetSpot_fast flat slow hr
      have hspot' := unsetSpot_fast flat slow hr'
      have hsum : (r.row + slow.rows) * (init flat fast slow).totals.row + r'.subarray =
          (r'.row + slow.rows) * (init flat fast slow).totals.row + r.subarray := by omega
      obtain ⟨hrow, hsub⟩ := mul_add_inj (lt_add_left _ (subarray_lt_total flat _ hr'))
        (lt_add_left _ (subarray_lt_total flat _ hr)) hsum
      exact ⟨Nat.add_right_cancel hrow, hsub.symm⟩

/-- A key and the number of its row add up to a multiple of the words. -/
theorem dvd_rowKey_add_number {p : Place} (hp : ((init flat fast slow).geometry p.media).HasRow p.row) :
    2 ^ 64 ∣ (init flat fast slow).rowKey p + (init flat fast slow).number
      ((init flat fast slow).totals.row * (init flat fast slow).totals.row) (init flat fast slow).unsetSpot p := by
  obtain ⟨htotal, hcount⟩ := init_unset flat hslow fast
  have hspot : 2 ^ 64 ∣ spot (init flat fast slow).totals ((init flat fast slow).shifted p) +
      (init flat fast slow).unsetSpot p := by
    obtain ⟨m, r⟩ := p
    cases m with
    | fast =>
      have hdown : _ + r.subarray = _ := unsetSpot_fast flat slow hp
      refine ⟨r.row + slow.rows + 1, ?_⟩
      have hmul : (r.row + slow.rows) * (init flat fast slow).totals.subarray +
          (r.row + slow.rows) * (init flat fast slow).totals.row = (r.row + slow.rows) * 2 ^ 64 := by
        rw [← Nat.mul_add, htotal]
      show (r.row + slow.rows) * (init flat fast slow).totals.subarray +
        (r.subarray + (init flat fast slow).slowCounts.subarray) + _ = _
      omega
    | slow =>
      have hzero : r.subarray = 0 := subarray_eq_zero hslow hp
      refine ⟨r.row, ?_⟩
      simp only [spot, shifted, unsetSpot, hzero, ← htotal]
      ring
  rw [rowKey_eq, Nat.dvd_iff_mod_eq_zero, Nat.mod_add_mod, ← Nat.dvd_iff_mod_eq_zero]
  have hhigh : 2 ^ 64 ∣ high (init flat fast slow).totals ((init flat fast slow).shifted p) *
      (init flat fast slow).totals.row *
        ((init flat fast slow).totals.subarray + (init flat fast slow).totals.row) := by
    rw [htotal]
    exact Nat.dvd_mul_left _ _
  refine (Nat.dvd_add hhigh hspot).trans (dvd_of_eq ?_)
  rw [number]
  ring

theorem keysIdentify_of_unset (hroom : (init flat fast slow).keyRoom < 2 ^ 64) : (init flat fast slow).KeysIdentify := by
  refine keysIdentify_of_spots (init_counts flat) (unset_spots flat hslow) ?_ fun p q hp hq he => ?_
  · obtain ⟨htotal, -⟩ := init_unset flat hslow fast
    have hrow : (init flat fast slow).totals.row = fast.rows + slow.rows := rfl
    have hf := fast.rows_lt
    have hs := slow.rows_lt
    rw [keyRoom, Nat.min_eq_right (by omega), ← htotal, Nat.add_sub_cancel_left] at hroom
    rw [← htotal]
    exact hroom
  · have hsum := (Nat.modEq_zero_iff_dvd.mpr (dvd_rowKey_add_number flat hslow hp)).trans
      (Nat.modEq_zero_iff_dvd.mpr (dvd_rowKey_add_number flat hslow hq)).symm
    rw [he] at hsum
    exact hsum.add_left_cancel' _

end

end Init

theorem has_fast {L : FlatLayout} (hsize : L.flat.fastMemSize = L.fast.capacity)
    (hslices : L.flat.totalChannels ∣ L.flat.fastMemSize) {r : Row} (hr : L.fast.HasRow r) : L.Has ⟨.fast, r⟩ := by
  refine ⟨hr, ?_⟩
  have hbase : L.fast.base r < L.flat.fastMemSize := by
    rw [hsize]
    exact L.fast.base_lt hr
  have hbits : 2 ^ L.flat.fastMemBits = 2 * L.flat.fastMemSize := by
    rw [FlatNVMain.fastMemBits, hsize, Geometry.capacity, mlog2_two_pow, Nat.pow_succ, Nat.mul_comm]
  obtain ⟨slice, hslice⟩ := hslices
  have hwhole : L.flat.memorySlice = slice := by
    rw [FlatNVMain.memorySlice, hslice, Nat.mul_div_cancel_left _ L.flat.totalChannels_pos]
  show L.fast.base r + (L.fast.base r / L.flat.memorySlice + 1) * L.flat.memorySlice < 2 ^ L.flat.fastMemBits
  have hunit : L.fast.base r / L.flat.memorySlice + 1 ≤ L.flat.totalChannels := by
    apply Nat.div_lt_of_lt_mul
    rw [hwhole, Nat.mul_comm, ← hslice]
    exact hbase
  have hle := Nat.mul_le_mul_right L.flat.memorySlice hunit
  rw [hwhole] at hle
  rw [hwhole]
  omega

/-- With more subarrays than the radix counts, a subarray and the next row share a key. -/
theorem rowKey_carry :
    L.rowKey ⟨.fast, 0, 0, 0, L.totals.subarray, 0⟩ = L.rowKey ⟨.fast, 0, 0, 0, 0, 1⟩ := by
  simp only [rowKey]
  congr 1
  ring

theorem eightRows_counts : ∀ n ∈ [1, 1, 1, 8, 1], 0 < n ∧ n < 2 ^ 31 := by decide

theorem lowMats_mats (h : Nat) (hh : some 2 = some h) : 0 < h ∧ h ≤ 8 := by
  cases hh
  decide

theorem highMats_mats (h : Nat) (hh : some 8 = some h) : 0 < h ∧ h ≤ 8 := by
  cases hh
  decide

def lowMatsConfig : DeviceConfig := ⟨1, 1, 1, 8, 1, some 2, eightRows_counts, lowMats_mats⟩

def highMatsConfig : DeviceConfig := ⟨1, 1, 1, 8, 1, some 8, eightRows_counts, highMats_mats⟩

def lowMatsMethod : TranslationMethod := ⟨lowMatsConfig.bitWidths, Field.table 0 1 2 3 4 5⟩

def highMatsMethod : TranslationMethod := ⟨highMatsConfig.bitWidths, Field.table 0 1 2 3 4 5⟩

def lowMats : Device := ⟨lowMatsConfig, ⟨lowMatsMethod, MQMigrator.pairBus, by decide, by decide⟩, rfl⟩

def highMats : Device := ⟨highMatsConfig, ⟨highMatsMethod, MQMigrator.pairBus, by decide, by decide⟩, rfl⟩

theorem eightRows_fits : 2 ≤ 8 ∧ 8 < 2 ^ 63 ∧ 8 + 8 < 2 ^ 64 := by decide

/-- A fast and a slow device of eight rows, in slices of four. -/
def eightRows : FlatNVMain :=
  ⟨8, 8, 2, Nat.two_pos, FlatDecoder.two_lt_int, eightRows_fits.1, eightRows_fits.2.1, eightRows_fits.2.2⟩

end FlatLayout

end Shma.Nvmain
