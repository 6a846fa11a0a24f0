import Mathlib.Data.Fintype.Pi
import Mathlib.Data.Nat.ModEq
import Mathlib.Tactic.Ring
import Shma.Lib.MixedRadix

/-!
# The address translator of NVMain

`src/AddressTranslator.cpp` and `src/TranslationMethod.cpp`: an address is split
into six fields of given widths in a given order, above the bits that the bus and
a burst take. The translator copies widths and order out of its method on first
use. Reverse translation multiplies the fields up again in a loop of its own.

Shift amounts at or above the width of a word are not defined in the source; they
do not occur as long as all bits together fit a word, which is assumed where it
matters. Field widths and addresses are naturals.
-/
namespace Shma.Nvmain

open Lib
open MixedRadix (digits digits_lt digits_of_mem value value_lt volume)

/-- `MemoryPartition`, where `MEM_UNKNOWN` is the `none` of an option. -/
inductive Field where
  | row | col | bank | rank | channel | subarray
  deriving DecidableEq, Repr

def Field.all : List Field := [.row, .col, .bank, .rank, .channel, .subarray]

theorem Field.nodup_all : Field.all.Nodup := by decide

theorem Field.mem_all (f : Field) : f ∈ Field.all := by cases f <;> decide

instance : Fintype Field := ⟨⟨Field.all, Field.nodup_all⟩, Field.mem_all⟩

abbrev Coords := Field → Nat

/-- `TranslationMethod`; its counts are not read by the translator. -/
structure TranslationMethod where
  bitWidths : Field → Nat
  order : Field → Int

def Field.table {α : Type} (row col bank rank channel subarray : α) : Field → α
  | .row => row
  | .col => col
  | .bank => bank
  | .rank => rank
  | .channel => channel
  | .subarray => subarray

/-- The constructor: `SetBitWidths` and `SetOrder`, which stores positions from zero. -/
def TranslationMethod.new : TranslationMethod where
  bitWidths := Field.table 10 8 3 1 1 6
  order f := Field.table 4 1 3 5 6 2 f - 1

/-- `mlog2`: how often a number can be halved before it is one. -/
def mlog2 (num : Nat) : Nat := if num < 2 then 0 else Nat.log2 num

theorem two_pow_mlog2_le {num : Nat} (h : 0 < num) : 2 ^ mlog2 num ≤ num := by
  unfold mlog2
  split
  · exact h
  · exact Nat.log2_self_le h.ne'

theorem mlog2_two_pow (k : Nat) : mlog2 (2 ^ k) = k := by
  unfold mlog2
  split
  · rename_i hlt
    by_contra hne
    have hle := Nat.pow_le_pow_right Nat.two_pos (Nat.pos_of_ne_zero (Ne.symm hne))
    omega
  · exact Nat.log2_two_pow

/-- The bus a translator is set up for. The number of bits that a burst transfers is an `int`. -/
structure Bus where
  (busWidth burstLength : Nat)
  burstLength_pos : 0 < burstLength
  fits_int : busWidth * burstLength < 2 ^ 31

theorem Bus.ddr_fits_int : 64 * 8 < 2 ^ 31 := by decide

def Bus.ddr : Bus := ⟨64, 8, Nat.succ_pos 7, Bus.ddr_fits_int⟩

def Bus.busOffsetBits (b : Bus) : Nat := mlog2 (b.busWidth / 8)

def Bus.burstBits (b : Bus) : Nat := mlog2 (b.busWidth * b.burstLength / 8)

structure AddressTranslator where
  method : Option TranslationMethod
  bus : Bus
  lowColBits : Nat
  bitWidths : Field → Nat
  fieldOrder : Field → Int
  (bitWidthsInited fieldOrderInited : Bool)

namespace AddressTranslator

/-- The constructor and `SetTranslationMethod`; the two arrays are left as they were in memory. -/
def new (m : TranslationMethod) (bus : Bus) (bitWidths : Field → Nat) (fieldOrder : Field → Int) : AddressTranslator :=
  { method := some m, bus, lowColBits := 0, bitWidths, fieldOrder, bitWidthsInited := false
    fieldOrderInited := false }

def findOrder (fieldOrder : Field → Int) (order : Int) : Option Field :=
  Field.all.find? fun f => order = fieldOrder f

/-- What both directions do first: note the column bits of a burst, copy what is not yet copied. -/
def prepare (t : AddressTranslator) (m : TranslationMethod) : AddressTranslator :=
  { t with
    lowColBits := t.bus.burstBits - t.bus.busOffsetBits
    bitWidths := if t.bitWidthsInited then t.bitWidths else m.bitWidths
    fieldOrder := if t.fieldOrderInited then t.fieldOrder else m.order
    bitWidthsInited := true
    fieldOrderInited := true }

/-- The loop of `ReverseTranslate`; a position that no field has is skipped. -/
def reverseLoop (fieldOrder : Field → Int) (bitWidths : Field → Nat) (c : Coords) :
    List Nat → Nat → Nat → Nat
  | [], phyAddr, _ => phyAddr
  | i :: is, phyAddr, unitAddr =>
    match findOrder fieldOrder i with
    | some part =>
      reverseLoop fieldOrder bitWidths c is ((phyAddr + c part * unitAddr) % 2 ^ 64)
        (unitAddr * 2 ^ bitWidths part % 2 ^ 64)
    | none => reverseLoop fieldOrder bitWidths c is phyAddr unitAddr

/-- `ReverseTranslate`; without a method it ends the program. -/
def reverseTranslate (t : AddressTranslator) (c : Coords) : Option (Nat × AddressTranslator) :=
  t.method.map fun m =>
    let t := t.prepare m
    let unitAddr := 1 * 2 ^ t.bus.busOffsetBits % 2 ^ 64 * 2 ^ t.lowColBits % 2 ^ 64
    (reverseLoop t.fieldOrder t.bitWidths c (List.range 6) 0 unitAddr, t)

/-- The loop of `Translate` with `Modulo_modified`; it ends at a position that no field has. -/
def translateLoop (fieldOrder : Field → Int) (bitWidths : Field → Nat) : List Nat → Nat → Coords → Coords
  | [], _, out => out
  | i :: is, refAddress, out =>
    match findOrder fieldOrder i with
    | some part =>
      let moduloSize := 2 ^ bitWidths part
      translateLoop fieldOrder bitWidths is (refAddress / moduloSize)
        (Function.update out part (refAddress % moduloSize))
    | none => out

/-- `Translate`; `out` is what the variables passed by address held before. -/
def translate (t : AddressTranslator) (address : Nat) (out : Coords) : Coords × AddressTranslator :=
  match t.method with
  | none => (out, t)
  | some m =>
    let t := t.prepare m
    let refAddress := address >>> t.bus.busOffsetBits >>> t.lowColBits
    (translateLoop t.fieldOrder t.bitWidths (List.range 6) refAddress out, t)

end AddressTranslator

/-! ### The pure address map -/

def Bus.offsetBits (b : Bus) : Nat := b.busOffsetBits + (b.burstBits - b.busOffsetBits)

namespace TranslationMethod

section

variable (m : TranslationMethod)

def fields : List Field :=
  (List.range 6).filterMap fun i : Nat => AddressTranslator.findOrder m.order i

def totalBits : Nat :=
  m.bitWidths .row + m.bitWidths .col + m.bitWidths .bank + m.bitWidths .rank + m.bitWidths .channel +
    m.bitWidths .subarray

def Permutes : Prop :=
  Function.Injective m.order ∧ ∀ f, 0 ≤ m.order f ∧ m.order f < 6
  deriving Decidable

def InRange (c : Coords) : Prop := ∀ f, c f < 2 ^ m.bitWidths f

end

variable {m : TranslationMethod}

theorem findOrder_order (hm : m.Permutes) (f : Field) : AddressTranslator.findOrder m.order (m.order f) = some f := by
  have hsome : (AddressTranslator.findOrder m.order (m.order f)).isSome := by
    apply List.find?_isSome.mpr
    exact ⟨f, f.mem_all, by simp⟩
  obtain ⟨g, hg⟩ := Option.isSome_iff_exists.mp hsome
  have hgf : m.order f = m.order g := by simpa using List.find?_some hg
  rw [hg, hm.1 hgf]

theorem order_of_findOrder {i : Int} {f : Field} (h : AddressTranslator.findOrder m.order i = some f) :
    m.order f = i := by
  have hi := List.find?_some h
  exact (of_decide_eq_true hi).symm

theorem findOrder_isSome (hm : m.Permutes) {i : Nat} (hi : i < 6) : (AddressTranslator.findOrder m.order i).isSome := by
  -- an injection of six fields into six positions is onto
  let pos : Field → Fin 6 := fun f => ⟨(m.order f).toNat, by have := hm.2 f; omega⟩
  have hinj : Function.Injective pos := by
    intro f g hfg
    apply hm.1
    have h := congrArg Fin.val hfg
    have hf := hm.2 f
    have hg := hm.2 g
    simp only [pos] at h
    omega
  have hbij : Function.Bijective pos := by
    apply (Fintype.bijective_iff_injective_and_card pos).mpr
    exact ⟨hinj, by decide⟩
  obtain ⟨f, hf⟩ := hbij.2 ⟨i, hi⟩
  have hord : m.order f = i := by
    have h := congrArg Fin.val hf
    have hpos := hm.2 f
    simp only [pos] at h
    omega
  rw [← hord, findOrder_order hm]
  rfl

theorem mem_fields (hm : m.Permutes) (f : Field) : f ∈ m.fields := by
  apply List.mem_filterMap.mpr
  have hf := hm.2 f
  have hlt : (m.order f).toNat < 6 := by omega
  refine ⟨(m.order f).toNat, List.mem_range.mpr hlt, ?_⟩
  rw [Int.toNat_of_nonneg hf.1, findOrder_order hm]

theorem nodup_fields : m.fields.Nodup := by
  refine List.Nodup.filterMap (fun i j f hi hj => ?_) List.nodup_range
  have h : (i : Int) = j := (order_of_findOrder hi).symm.trans (order_of_findOrder hj)
  exact Int.ofNat_inj.mp h

theorem fields_perm (hm : m.Permutes) : m.fields.Perm Field.all := by
  apply (List.perm_ext_iff_of_nodup nodup_fields Field.nodup_all).mpr
  intro f
  exact iff_of_true (mem_fields hm f) f.mem_all

theorem volume_fields (hm : m.Permutes) : volume (fun f => 2 ^ m.bitWidths f) m.fields = 2 ^ m.totalBits := by
  rw [MixedRadix.volume_perm (fields_perm hm)]
  simp only [Field.all, volume, totalBits]
  ring

def encode (m : TranslationMethod) (bus : Bus) (c : Coords) : Nat :=
  2 ^ bus.offsetBits * value (fun f => 2 ^ m.bitWidths f) c m.fields

def decode (m : TranslationMethod) (bus : Bus) (address : Nat) : Coords :=
  digits (fun f => 2 ^ m.bitWidths f) m.fields (address / 2 ^ bus.offsetBits) fun _ => 0

variable {bus : Bus} {c : Coords}

theorem encode_lt (hm : m.Permutes) (hc : m.InRange c) : m.encode bus c < 2 ^ (bus.offsetBits + m.totalBits) := by
  rw [Nat.pow_add, ← volume_fields hm]
  apply Nat.mul_lt_mul_of_pos_left _ (Nat.two_pow_pos _)
  exact value_lt fun f _ => hc f

theorem decode_encode (hm : m.Permutes) (hc : m.InRange c) : m.decode bus (m.encode bus c) = c := by
  funext f
  rw [decode, encode, Nat.mul_div_cancel_left _ (Nat.two_pow_pos _)]
  exact MixedRadix.digits_value nodup_fields (fun f _ => hc f) (mem_fields hm f) _

theorem encode_decode (hm : m.Permutes) {a : Nat} (ha : a < 2 ^ (bus.offsetBits + m.totalBits)) :
    m.encode bus (m.decode bus a) = a - a % 2 ^ bus.offsetBits := by
  rw [Nat.pow_add] at ha
  rw [encode, decode, MixedRadix.value_digits nodup_fields]
  · exact (Nat.sub_eq_of_eq_add (Nat.div_add_mod a _).symm).symm
  · rw [volume_fields hm]
    exact Nat.div_lt_of_lt_mul ha

theorem decode_inRange (hm : m.Permutes) (a : Nat) : m.InRange (m.decode bus a) :=
  fun f => digits_lt (fun _ => Nat.two_pow_pos _) nodup_fields (mem_fields hm f) _ _

end TranslationMethod

namespace AddressTranslator

variable {m : TranslationMethod} {bus : Bus} {t : AddressTranslator}

theorem findOrder_positions (hm : m.Permutes) :
    (List.range 6).map (fun i : Nat => findOrder m.order i) = m.fields.map some := by
  rw [TranslationMethod.fields, List.map_filterMap_some_eq_filter_map_isSome]
  rw [List.filter_eq_self.mpr]
  intro o ho
  obtain ⟨i, hi, rfl⟩ := List.mem_map.mp ho
  exact TranslationMethod.findOrder_isSome hm (List.mem_range.mp hi)

variable {fieldOrder : Field → Int} {bitWidths : Field → Nat} {is : List Nat} {fs : List Field}

section

variable (h : is.map (fun i : Nat => findOrder fieldOrder i) = fs.map some)
include h

theorem translateLoop_eq (refAddress : Nat) (out : Coords) :
    translateLoop fieldOrder bitWidths is refAddress out =
      digits (fun f => 2 ^ bitWidths f) fs refAddress out := by
  induction fs generalizing is refAddress out with
  | nil =>
    obtain rfl := List.map_eq_nil_iff.mp h
    rfl
  | cons f fs ih =>
    obtain ⟨i, is, rfl, hi, his⟩ := List.map_eq_cons_iff.mp h
    rw [translateLoop, hi]
    exact ih his _ _

/-- The words of the loop hold the sum of the fields at their weights, modulo the width of a
word. -/
theorem reverseLoop_eq {c : Coords} {phyAddr : Nat} (hphy : phyAddr < 2 ^ 64) (unitAddr : Nat) :
    reverseLoop fieldOrder bitWidths c is phyAddr unitAddr =
      (phyAddr + unitAddr * value (fun f => 2 ^ bitWidths f) c fs) % 2 ^ 64 := by
  induction fs generalizing is phyAddr unitAddr with
  | nil =>
    obtain rfl := List.map_eq_nil_iff.mp h
    exact (Nat.mod_eq_of_lt hphy).symm
  | cons f fs ih =>
    obtain ⟨i, is, rfl, hi, his⟩ := List.map_eq_cons_iff.mp h
    rw [reverseLoop, hi]
    refine (ih his (Nat.mod_lt _ (Nat.two_pow_pos _)) _).trans ?_
    have hsum := (Nat.mod_modEq (phyAddr + c f * unitAddr) (2 ^ 64)).add
      ((Nat.mod_modEq (unitAddr * 2 ^ bitWidths f) (2 ^ 64)).mul_right
        (value (fun f => 2 ^ bitWidths f) c fs))
    rw [hsum, value]
    congr 1
    ring

end

/-- The translator has a method and has copied no other values than those of this method. -/
structure Configured (t : AddressTranslator) (m : TranslationMethod) (bus : Bus) : Prop where
  method : t.method = some m
  bus : t.bus = bus
  bitWidths : t.bitWidthsInited = true → t.bitWidths = m.bitWidths
  fieldOrder : t.fieldOrderInited = true → t.fieldOrder = m.order

theorem new_configured (bitWidths : Field → Nat) (fieldOrder : Field → Int) :
    (new m bus bitWidths fieldOrder).Configured m bus where
  method := rfl
  bus := rfl
  bitWidths h := nomatch h
  fieldOrder h := nomatch h

namespace Configured

variable (h : t.Configured m bus)
include h

theorem prepare_bitWidths : (t.prepare m).bitWidths = m.bitWidths := by
  unfold prepare
  split
  · exact h.bitWidths ‹_›
  · rfl

theorem prepare_fieldOrder : (t.prepare m).fieldOrder = m.order := by
  show (if t.fieldOrderInited then t.fieldOrder else m.order) = m.order
  split
  · exact h.fieldOrder ‹_›
  · rfl

theorem prepare : (t.prepare m).Configured m bus where
  method := h.method
  bus := h.bus
  bitWidths _ := h.prepare_bitWidths
  fieldOrder _ := h.prepare_fieldOrder

theorem translate_eq (hm : m.Permutes) (a : Nat) (out : Coords) :
    t.translate a out = (m.decode bus a, t.prepare m) := by
  unfold translate
  rw [h.method]
  simp only [h.prepare_bitWidths, h.prepare_fieldOrder]
  rw [translateLoop_eq (findOrder_positions hm)]
  have hoff : a >>> (t.prepare m).bus.busOffsetBits >>> (t.prepare m).lowColBits = a / 2 ^ bus.offsetBits := by
    rw [← Nat.shiftRight_add, Nat.shiftRight_eq_div_pow, ← h.bus]
    rfl
  rw [hoff]
  apply congrArg (·, t.prepare m)
  funext f
  have hf := TranslationMethod.mem_fields hm f
  rw [TranslationMethod.decode, digits_of_mem TranslationMethod.nodup_fields hf,
    digits_of_mem TranslationMethod.nodup_fields hf]

theorem reverseTranslate_eq (hm : m.Permutes) (c : Coords) :
    t.reverseTranslate c = some (m.encode bus c % 2 ^ 64, t.prepare m) := by
  unfold reverseTranslate
  rw [h.method]
  simp only [Option.map_some, h.prepare_bitWidths, h.prepare_fieldOrder]
  rw [reverseLoop_eq (findOrder_positions hm) (Nat.two_pow_pos _)]
  have hunit : (1 * 2 ^ (t.prepare m).bus.busOffsetBits % 2 ^ 64 * 2 ^ (t.prepare m).lowColBits % 2 ^ 64) ≡
      2 ^ bus.offsetBits [MOD 2 ^ 64] := by
    refine (Nat.mod_modEq _ _).trans ?_
    refine ((Nat.mod_modEq _ _).mul_right _).trans ?_
    rw [Nat.one_mul, ← Nat.pow_add, ← h.bus]
    rfl
  have hval := hunit.mul_right (value (fun f => 2 ^ m.bitWidths f) c m.fields)
  rw [Nat.zero_add, hval, TranslationMethod.encode]

end Configured

inductive Call where
  | translate (address : Nat) (out : Coords)
  | reverseTranslate (c : Coords)

def call (t : AddressTranslator) : Call → AddressTranslator
  | .translate address out => (t.translate address out).2
  | .reverseTranslate c => ((t.reverseTranslate c).map Prod.snd).getD t

theorem Configured.call (h : t.Configured m bus) (hm : m.Permutes) (k : Call) : (t.call k).Configured m bus := by
  cases k with
  | translate a out =>
    rw [AddressTranslator.call, h.translate_eq hm]
    exact h.prepare
  | reverseTranslate c =>
    rw [AddressTranslator.call, h.reverseTranslate_eq hm]
    exact h.prepare

theorem Configured.calls (h : t.Configured m bus) (hm : m.Permutes) (ks : List Call) :
    (ks.foldl AddressTranslator.call t).Configured m bus := by
  induction ks generalizing t with
  | nil => exact h
  | cons k ks ih => exact ih (h.call hm k)

/-- After any calls, a translator with a permutation of fields that fits a word translates
the address of fields in range back into these fields, and the fields of an address in its
capacity into this address with the bits below the first field cleared. -/
theorem translate_reverseTranslate (m : TranslationMethod) (bus : Bus) (bitWidths : Field → Nat)
    (fieldOrder : Field → Int) (ks : List Call) (hm : m.Permutes) (hbits : bus.offsetBits + m.totalBits ≤ 63) :
    let t := ks.foldl AddressTranslator.call (new m bus bitWidths fieldOrder)
    (∀ c out, m.InRange c → ∃ a u, t.reverseTranslate c = some (a, u) ∧ (u.translate a out).1 = c) ∧
    (∀ a out, a < 2 ^ (bus.offsetBits + m.totalBits) →
      ∃ u, (t.translate a out).2.reverseTranslate (t.translate a out).1 =
        some (a - a % 2 ^ bus.offsetBits, u)) := by
  intro t
  have ht : t.Configured m bus := (new_configured bitWidths fieldOrder).calls hm ks
  have hword : 2 ^ (bus.offsetBits + m.totalBits) < 2 ^ 64 :=
    Nat.pow_lt_pow_right Nat.one_lt_two (Nat.lt_succ_of_le hbits)
  constructor
  · intro c out hc
    have hlt : m.encode bus c < 2 ^ 64 := (TranslationMethod.encode_lt hm hc).trans hword
    refine ⟨m.encode bus c, t.prepare m, ?_, ?_⟩
    · rw [ht.reverseTranslate_eq hm, Nat.mod_eq_of_lt hlt]
    · rw [ht.prepare.translate_eq hm]
      exact TranslationMethod.decode_encode hm hc
  · intro a out ha
    refine ⟨(t.prepare m).prepare m, ?_⟩
    rw [ht.translate_eq hm, ht.prepare.reverseTranslate_eq hm, TranslationMethod.encode_decode hm ha]
    rw [Nat.mod_eq_of_lt ((Nat.sub_le a _).trans_lt (ha.trans hword))]

theorem translate_reverseTranslate_default :
    let m := TranslationMethod.new
    let t := new m Bus.ddr (fun _ => 0) (fun _ => 0)
    (m.Permutes ∧ Bus.ddr.offsetBits + m.totalBits = 35) ∧
    (∀ c out, m.InRange c → ∃ a u, t.reverseTranslate c = some (a, u) ∧ (u.translate a out).1 = c) ∧
    (∀ a out, a < 2 ^ (Bus.ddr.offsetBits + m.totalBits) →
      ∃ u, (t.translate a out).2.reverseTranslate (t.translate a out).1 =
        some (a - a % 2 ^ Bus.ddr.offsetBits, u)) :=
  ⟨by decide, translate_reverseTranslate TranslationMethod.new Bus.ddr (fun _ => 0) (fun _ => 0) []
    (by decide) (by decide)⟩

end AddressTranslator

/-! ### Rows -/

@[ext] structure Row where
  (channel rank bank subarray row : Nat)
  deriving DecidableEq, Repr

/-- `GetTranslatedAddress`, with a null pointer for the column. -/
def rowOf (c : Coords) : Row := ⟨c .channel, c .rank, c .bank, c .subarray, c .row⟩

def Row.coords (r : Row) (col : Nat) : Coords := Field.table r.row col r.bank r.rank r.channel r.subarray

@[simp] theorem rowOf_coords (r : Row) (col : Nat) : rowOf (r.coords col) = r := rfl

theorem coords_rowOf (c : Coords) : (rowOf c).coords (c .col) = c := by
  funext f
  cases f <;> rfl

/-- A translation method and a bus whose addresses fit a word. -/
structure Geometry where
  method : TranslationMethod
  bus : Bus
  permutes : method.Permutes
  fits : bus.offsetBits + method.totalBits ≤ 63

namespace Geometry

variable (g : Geometry)

def count (f : Field) : Nat := 2 ^ g.method.bitWidths f

def capacity : Nat := 2 ^ (g.bus.offsetBits + g.method.totalBits)

variable (r : Row) (a : Nat)

@[mk_iff] structure HasRow : Prop where
  channel : r.channel < g.count .channel
  rank : r.rank < g.count .rank
  bank : r.bank < g.count .bank
  subarray : r.subarray < g.count .subarray
  row : r.row < g.count .row

instance : Decidable (g.HasRow r) := decidable_of_iff' _ (hasRow_iff g r)

def home : Row := rowOf (g.method.decode g.bus a)

def base : Nat := g.method.encode g.bus (r.coords 0)

variable {g}

theorem rowOf_decode : rowOf (g.method.decode g.bus a) = g.home a := rfl

theorem hasRow_rowOf {c : Coords} (h : g.method.InRange c) : g.HasRow (rowOf c) :=
  ⟨h .channel, h .rank, h .bank, h .subarray, h .row⟩

variable {r : Row}

theorem HasRow.coords (h : g.HasRow r) {col : Nat} (hcol : col < g.count .col) : g.method.InRange (r.coords col) := by
  intro f
  cases f with
  | row => exact h.row
  | col => exact hcol
  | bank => exact h.bank
  | rank => exact h.rank
  | channel => exact h.channel
  | subarray => exact h.subarray

theorem home_hasRow : g.HasRow (g.home a) :=
  hasRow_rowOf (TranslationMethod.decode_inRange g.permutes a)

theorem base_lt (h : g.HasRow r) : g.base r < g.capacity :=
  TranslationMethod.encode_lt g.permutes (h.coords (Nat.two_pow_pos _))

theorem base_word (h : g.HasRow r) : g.base r % 2 ^ 64 = g.base r := by
  apply Nat.mod_eq_of_lt
  have hcap : g.capacity ≤ 2 ^ 63 := Nat.pow_le_pow_right Nat.two_pos g.fits
  have hlt := g.base_lt h
  omega

theorem home_base (h : g.HasRow r) : g.home (g.base r) = r := by
  rw [home, base, TranslationMethod.decode_encode g.permutes (h.coords (Nat.two_pow_pos _)), rowOf_coords]

end Geometry

end Shma.Nvmain
