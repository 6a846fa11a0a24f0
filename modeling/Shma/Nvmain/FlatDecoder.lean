import Shma.Nvmain.FlatNVMain
import Shma.Nvmain.MQMigrator

/-!
# The decoder of the flat memory

`Decoders/FlatDecoder/FlatDecoder.cpp`: rows of the slow device change places with
rows of the fast one. `pa_to_va` says for a location whose page it holds,
`migrationMap` says for a page in which row of the other device it is, and
`migrationState` is kept by location. A page that is asked for is looked up in
`migrationState` by its own key, so what is found is right as long as no location
takes part in a second migration.

The decoders of the two devices are configured translators, whose two directions are
the maps of their geometry. The flush of cached lines at the start of a migration
only counts cycles and is left out.
-/
namespace Shma.Nvmain

open Lib

def Media.other : Media → Media
  | .fast => .slow
  | .slow => .fast

theorem Media.other_ne (m : Media) : m.other ≠ m := by cases m <;> decide

structure Place where
  media : Media
  row : Row
  deriving DecidableEq, Repr

/-- What `Init` and the setters leave in the decoder. `slowCounts` and `totals` hold the
numbers of channels, ranks, banks, subarrays and rows. -/
structure FlatLayout where
  flat : FlatNVMain
  (fast slow : Geometry)
  (slowCounts totals : Row)

namespace FlatLayout

section

variable (L : FlatLayout)

def geometry : Media → Geometry
  | .fast => L.fast
  | .slow => L.slow

/-- The device and the local address of a flat address, as `GetAddressKey` computes them. Here the
number of a slice is a `uint64_t`. -/
def split (paddr : Nat) : Media × Nat :=
  let unitNum := paddr / L.flat.memorySlice
  if paddr >>> L.flat.fastMemBits = 0 then
    if unitNum % 2 = 1 then (.fast, paddr - ((unitNum - 1) / 2 + 1) * L.flat.memorySlice)
    else (.slow, paddr - unitNum / 2 * L.flat.memorySlice)
  else (.slow, toU64 (paddr - 2 * L.flat.fastMemSize))

def rowKey (p : Place) : Nat :=
  let c : Row :=
    match p.media with
    | .fast => ⟨p.row.channel + L.slowCounts.channel, p.row.rank + L.slowCounts.rank,
        p.row.bank + L.slowCounts.bank, p.row.subarray + L.slowCounts.subarray, p.row.row + L.slowCounts.row⟩
    | .slow => p.row
  (c.channel * L.totals.rank * L.totals.bank * L.totals.row * L.totals.subarray
    + c.rank * L.totals.bank * L.totals.row * L.totals.subarray
    + c.bank * L.totals.row * L.totals.subarray
    + c.row * L.totals.subarray
    + c.subarray) % 2 ^ 64

def home (paddr : Nat) : Place :=
  ⟨(L.split paddr).1, (L.geometry (L.split paddr).1).home (L.split paddr).2⟩

def getAddressKey (paddr : Nat) : Nat := L.rowKey (L.home paddr)

/-- The flat address of a local address, before it is cut to a word. -/
def flatten : Media → Nat → Nat
  | .fast, address => address + (address / L.flat.memorySlice + 1) * L.flat.memorySlice
  | .slow, address =>
    if address >>> L.flat.fastMemBits = 0 then address + address / L.flat.memorySlice * L.flat.memorySlice
    else address + 2 * L.flat.fastMemSize

def reverseTranslate2 (r : Row) (col : Nat) (m : Media) : Nat :=
  let g := L.geometry m
  L.flatten m (g.method.encode g.bus (r.coords col) % 2 ^ 64) % 2 ^ 64

def addr (p : Place) : Nat := L.reverseTranslate2 p.row 0 p.media

end

/-- The rows of the devices that lie among the alternating slices. -/
@[mk_iff] structure Has (L : FlatLayout) (p : Place) : Prop where
  row : (L.geometry p.media).HasRow p.row
  below : L.flatten p.media ((L.geometry p.media).base p.row) < 2 ^ L.flat.fastMemBits

instance (L : FlatLayout) (p : Place) : Decidable (L.Has p) := decidable_of_iff' _ (has_iff L p)

def KeysUnique (L : FlatLayout) : Prop := ∀ p q, L.Has p → L.Has q → L.rowKey p = L.rowKey q → p = q

variable {L : FlatLayout} {p q : Place}

theorem split_flatten {m : Media} {l : Nat} (h : L.flatten m l < 2 ^ L.flat.fastMemBits) :
    L.split (L.flatten m l) = (m, l) := by
  have hpos := L.flat.memorySlice_pos
  have hzero := FlatNVMain.shiftRight_fastMemBits_eq_zero.mpr h
  unfold split
  rw [if_pos hzero]
  cases m with
  | fast =>
    have hunit : L.flatten .fast l / L.flat.memorySlice = 2 * (l / L.flat.memorySlice) + 1 := by
      rw [flatten, Nat.add_mul_div_right _ _ hpos]
      omega
    rw [hunit, if_pos (by omega), Nat.add_sub_cancel, Nat.mul_div_cancel_left _ Nat.two_pos, flatten,
      Nat.add_sub_cancel]
  | slow =>
    have hlow : l >>> L.flat.fastMemBits = 0 := by
      by_contra hne
      have hbits := L.flat.two_pow_fastMemBits
      rw [flatten, if_neg hne] at h
      omega
    have hflat : L.flatten .slow l = l + l / L.flat.memorySlice * L.flat.memorySlice := if_pos hlow
    have hunit : L.flatten .slow l / L.flat.memorySlice = 2 * (l / L.flat.memorySlice) := by
      rw [hflat, Nat.add_mul_div_right _ _ hpos]
      omega
    rw [hunit, if_neg (by omega), Nat.mul_div_cancel_left _ Nat.two_pos, hflat, Nat.add_sub_cancel]

theorem Has.addr_eq (h : L.Has p) : L.addr p = L.flatten p.media ((L.geometry p.media).base p.row) := by
  have hbits := L.flat.two_pow_fastMemBits
  have hsize := L.flat.fastMemSize_lt
  have hbelow := h.below
  show L.flatten p.media ((L.geometry p.media).base p.row % 2 ^ 64) % 2 ^ 64 = _
  rw [Geometry.base_word h.row, mod_eq_of_lt (by omega)]

theorem Has.split_addr (h : L.Has p) : L.split (L.addr p) = (p.media, (L.geometry p.media).base p.row) := by
  rw [h.addr_eq, split_flatten h.below]

theorem Has.home_addr (h : L.Has p) : L.home (L.addr p) = p := by
  rw [home, h.split_addr, Geometry.home_base h.row]

theorem Has.getAddressKey_addr (h : L.Has p) : L.getAddressKey (L.addr p) = L.rowKey p := by
  rw [getAddressKey, h.home_addr]

theorem addr_injOn (hp : L.Has p) (hq : L.Has q) (h : L.addr p = L.addr q) : p = q := by
  rw [← hp.home_addr, h, hq.home_addr]

end FlatLayout

structure VAddr where
  key : Nat
  concreteAddr : Row
  isFast : Bool

structure NVMAddress where
  (physicalAddress virtualAddress : Nat)
  row : Row
  deriving DecidableEq

structure FlatDecoder where
  migrationMap : Nat → Option Row
  paToVa : Nat → Option VAddr
  migrationState : Nat → Option MigrationState
  migrating : Bool
  (inputPage outputPage : Nat)

namespace FlatDecoder

def new : FlatDecoder where
  migrationMap _ := none
  paToVa _ := none
  migrationState _ := none
  migrating := false
  inputPage := 0
  outputPage := 0

variable (L : FlatLayout) (d : FlatDecoder) (key : Nat) (paddr : Nat)

def pageAt (row : Row) (isFast : Bool) : VAddr :=
  (d.paToVa key).getD ⟨key, row, isFast⟩

/-- `StartMigration`. The two entries of `pa_to_va` are read before they are exchanged. -/
def startMigration (promotee demotee : NVMAddress) : Option FlatDecoder :=
  let promokey := L.getAddressKey promotee.physicalAddress
  let demokey := L.getAddressKey demotee.physicalAddress
  let promoPage := d.pageAt promokey promotee.row false
  -- with equal keys the second location finds what was stored for the first one
  let demoPage := if demokey = promokey then promoPage else d.pageAt demokey demotee.row true
  (assertThat (d.migrating = false)).map fun _ =>
    { migrationMap := update (update d.migrationMap promoPage.key (some demotee.row))
        demoPage.key (some promotee.row)
      paToVa := update (update d.paToVa demokey (some promoPage)) promokey (some demoPage)
      migrationState := update (update d.migrationState promokey (some .reading)) demokey
        (some .reading)
      migrating := true
      inputPage := promokey
      outputPage := demokey }

/-- `migrationState[key] = newState`, which ends the migration once both pages are done. -/
def putState (newState : MigrationState) : FlatDecoder :=
  let migrationState := update d.migrationState key (some newState)
  { d with
    migrationState
    migrating :=
      if migrationState d.inputPage = some .done ∧ migrationState d.outputPage = some .done then false
      else d.migrating }

def setMigrationState (address : NVMAddress) (newState : MigrationState) :
    Option FlatDecoder :=
  let key := L.getAddressKey address.virtualAddress
  (assertThat (d.migrationState key ≠ none)).bind fun _ =>
  (assertThat (d.migrationState key ≠ some newState)).map fun _ => d.putState key newState

def isMigrated : Bool :=
  d.migrationState (L.getAddressKey paddr) = some .done

def isBuffered : Bool :=
  d.migrationState (L.getAddressKey paddr) = some .buffered
    || d.migrationState (L.getAddressKey paddr) = some .writing

/-- The row that `Translate2` finds for the one that an address is in. -/
def mappedRow (r : Row) : Row :=
  match d.migrationMap key with
  | some r' => if d.migrationState key = some .done then r' else r
  | none => r

/-- `Translate2`: the flat address in the other device. -/
def translate2 : Nat :=
  let m := (L.split paddr).1
  let c := (L.geometry m).method.decode (L.geometry m).bus (L.split paddr).2
  L.reverseTranslate2 (d.mappedRow (L.getAddressKey paddr) (rowOf c)) (c .col) m.other

/-- The flat address under which `FlatRBLANVMain::IsIssuable` passes a request on. -/
def resolve : Nat :=
  if d.isMigrated L paddr then d.translate2 L paddr else paddr

/-! ### What is found for a page -/

section Resolve

variable {L : FlatLayout} {d : FlatDecoder} {p y : Place}

theorem resolve_of_not_done (hp : L.Has p) (h : d.migrationState (L.rowKey p) ≠ some .done) :
    d.resolve L (L.addr p) = L.addr p := by
  apply if_neg
  rw [isMigrated, hp.getAddressKey_addr, decide_eq_true_iff]
  exact h

theorem resolve_of_done (hp : L.Has p) (h : d.migrationState (L.rowKey p) = some .done) {r : Row}
    (hmap : d.migrationMap (L.rowKey p) = some r) : d.resolve L (L.addr p) = L.addr ⟨p.media.other, r⟩ := by
  have hmigrated : d.isMigrated L (L.addr p) = true := by
    rw [isMigrated, hp.getAddressKey_addr, decide_eq_true_iff]
    exact h
  have hcoords : (L.geometry p.media).method.decode (L.geometry p.media).bus
      ((L.geometry p.media).method.encode (L.geometry p.media).bus (p.row.coords 0)) = p.row.coords 0 :=
    TranslationMethod.decode_encode (L.geometry p.media).permutes (hp.row.coords (Nat.two_pow_pos _))
  rw [resolve, if_pos hmigrated, translate2, hp.split_addr, hp.getAddressKey_addr]
  simp only [Geometry.base, hcoords, mappedRow, hmap, h, if_true]
  rfl

end Resolve

/-! ### Two small devices -/

def rowMethod : TranslationMethod where
  bitWidths := Field.table 1 0 0 0 0 0
  order := Field.table 0 1 2 3 4 5

def rowGeometry : Geometry := ⟨rowMethod, MQMigrator.pairBus, by decide, by decide⟩

theorem two_lt_int : 2 < 2 ^ 31 := by decide

theorem twoRows_fits : 2 < 2 ^ 63 ∧ 2 + 2 < 2 ^ 64 := by decide

def twoRows : FlatLayout where
  flat := ⟨2, 2, 2, Nat.two_pos, two_lt_int, Nat.le_refl 2, twoRows_fits.1, twoRows_fits.2⟩
  fast := rowGeometry
  slow := rowGeometry
  slowCounts := ⟨1, 1, 1, 1, 2⟩
  totals := ⟨2, 2, 2, 2, 4⟩

def slowRow (i : Nat) : Place := ⟨.slow, 0, 0, 0, 0, i⟩

def fastRow (i : Nat) : Place := ⟨.fast, 0, 0, 0, 0, i⟩

theorem rowGeometry_cases {r : Row} (h : rowGeometry.HasRow r) : r = ⟨0, 0, 0, 0, 0⟩ ∨ r = ⟨0, 0, 0, 0, 1⟩ := by
  obtain ⟨channel, rank, bank, subarray, row⟩ := r
  obtain rfl : channel = 0 := lt_one_iff.mp h.channel
  obtain rfl : rank = 0 := lt_one_iff.mp h.rank
  obtain rfl : bank = 0 := lt_one_iff.mp h.bank
  obtain rfl : subarray = 0 := lt_one_iff.mp h.subarray
  have hlt : row < 2 := h.row
  obtain rfl | rfl : row = 0 ∨ row = 1 := by omega
  · exact .inl rfl
  · exact .inr rfl

theorem twoRows_cases {p : Place} (h : twoRows.Has p) : p ∈ [slowRow 0, slowRow 1, fastRow 0, fastRow 1] := by
  obtain ⟨m, row⟩ := p
  have hrow : rowGeometry.HasRow row := by
    cases m with
    | fast | slow => exact h.row
  obtain rfl | rfl := rowGeometry_cases hrow
  all_goals cases m <;> decide

theorem twoRows_keysUnique : twoRows.KeysUnique := by
  have hall : ∀ p ∈ [slowRow 0, slowRow 1, fastRow 0, fastRow 1],
      ∀ q ∈ [slowRow 0, slowRow 1, fastRow 0, fastRow 1], twoRows.rowKey p = twoRows.rowKey q → p = q := by
    decide
  intro p q hp hq
  exact hall p (twoRows_cases hp) q (twoRows_cases hq)

end FlatDecoder

end Shma.Nvmain
