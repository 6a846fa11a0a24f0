import Shma.Lib.Run
import Shma.Nvmain.Translator

/-!
# The translator with a change of method

`src/AddressTranslator.cpp` keeps `FindOrder`, `Modulo` and `Divide`, which read the translation
method each time, beside the versions that read the arrays copied out of it. The arrays are
copied by the first call of `Translate` or `ReverseTranslate` that finds a method, and by no
later one: `SetTranslationMethod` leaves the two flags alone.
-/
namespace Shma.Nvmain

open Lib Lib.Run
open MixedRadix (digits digits_of_mem digits_of_not_mem div_two_pow_lt mul_two_pow_lt volume_two_pow
  window_eq_iff)

namespace TranslationMethod

variable (m : TranslationMethod)

def findOrder (order : Int) : Option Field :=
  Field.all.find? fun f => m.order f = order

def modulo (partialAddr : Nat) (partition : Field) : Nat :=
  partialAddr % 1 <<< m.bitWidths partition

def divide (partSize : Nat) (partition : Field) : Nat :=
  partSize >>> m.bitWidths partition

/-- The loop of `Translate` with the steps that read the method. -/
def uncachedLoop (m : TranslationMethod) : List Nat → Nat → Coords → Coords
  | [], _, out => out
  | i :: is, refAddress, out =>
    match m.findOrder i with
    | some part =>
      uncachedLoop m is (m.divide refAddress part) (Function.update out part (m.modulo refAddress part))
    | none => out

def translateUncached (bus : Bus) (address : Nat) (out : Coords) : Coords :=
  m.uncachedLoop (List.range 6) (address >>> bus.busOffsetBits >>> (bus.burstBits - bus.busOffsetBits)) out

theorem findOrder_eq (i : Int) : AddressTranslator.findOrder m.order i = m.findOrder i := by
  simp only [AddressTranslator.findOrder, findOrder, eq_comm]

theorem modulo_eq (n : Nat) (f : Field) : m.modulo n f = n % 2 ^ m.bitWidths f := by
  rw [modulo, Nat.one_shiftLeft]

theorem divide_eq (n : Nat) (f : Field) : m.divide n f = n / 2 ^ m.bitWidths f :=
  Nat.shiftRight_eq_div_pow _ _

theorem translateLoop_eq_uncachedLoop (is : List Nat) (refAddress : Nat) (out : Coords) :
    AddressTranslator.translateLoop m.order m.bitWidths is refAddress out =
      m.uncachedLoop is refAddress out := by
  induction is generalizing refAddress out with
  | nil => rfl
  | cons i is ih =>
    rw [AddressTranslator.translateLoop, uncachedLoop, findOrder_eq]
    cases m.findOrder i with
    | none => rfl
    | some part =>
      simp only [divide_eq, modulo_eq]
      exact ih _ _

/-! ### The bits of a field -/

/-- The fields that the loop sets. It ends at a position that no field has. -/
def fieldsSet (m : TranslationMethod) : List Nat → List Field
  | [] => []
  | i :: is =>
    match m.findOrder i with
    | some part => part :: fieldsSet m is
    | none => []

def allSet : List Field := m.fieldsSet (List.range 6)

def lowBit (f : Field) : Nat := ((m.allSet.takeWhile (· ≠ f)).map m.bitWidths).sum

/-- How many bits of a field lie in a word of `n` bits. -/
def bitsIn (n : Nat) (f : Field) : Nat := min (m.bitWidths f) (n - m.lowBit f)

/-- Two methods set the same fields, each from the same bits of a word of `n` bits. -/
def SameBits (n : Nat) (m' : TranslationMethod) : Prop :=
  ∀ f, (f ∈ m.allSet ↔ f ∈ m'.allSet) ∧ (f ∈ m.allSet →
    m.bitsIn n f = m'.bitsIn n f ∧ (m.bitsIn n f = 0 ∨ m.lowBit f = m'.lowBit f))

theorem nodup_allSet : m.allSet.Nodup := by
  have hsub : ∀ is : List Nat, (m.fieldsSet is).Sublist
      (is.filterMap fun i : Nat => AddressTranslator.findOrder m.order i) := by
    intro is
    induction is with
    | nil => exact .slnil
    | cons i is ih =>
      rw [fieldsSet, List.filterMap_cons, findOrder_eq]
      cases m.findOrder i with
      | none => exact List.nil_sublist _
      | some part => exact ih.cons_cons part
  exact nodup_fields.sublist (hsub _)

theorem uncachedLoop_eq_digits (is : List Nat) (refAddress : Nat) (out : Coords) :
    m.uncachedLoop is refAddress out =
      digits (fun f => 2 ^ m.bitWidths f) (m.fieldsSet is) refAddress out := by
  induction is generalizing refAddress out with
  | nil => rfl
  | cons i is ih =>
    rw [uncachedLoop, fieldsSet]
    cases m.findOrder i with
    | none => rfl
    | some part =>
      simp only [ih, divide_eq, modulo_eq]
      rfl

variable {m} {m' : TranslationMethod} {bus : Bus} {f : Field}

theorem translateUncached_eq_digits (address : Nat) (out : Coords) :
    m.translateUncached bus address out =
      digits (fun f => 2 ^ m.bitWidths f) m.allSet (address / 2 ^ bus.offsetBits) out := by
  rw [translateUncached, uncachedLoop_eq_digits, ← Nat.shiftRight_add, Nat.shiftRight_eq_div_pow]
  rfl

theorem translateUncached_of_mem (hf : f ∈ m.allSet) (address : Nat) (out : Coords) :
    m.translateUncached bus address out f =
      address / 2 ^ bus.offsetBits / 2 ^ m.lowBit f % 2 ^ m.bitWidths f := by
  rw [translateUncached_eq_digits, digits_of_mem m.nodup_allSet hf, volume_two_pow, lowBit]

theorem translateUncached_of_not_mem (hf : f ∉ m.allSet) (address : Nat) (out : Coords) :
    m.translateUncached bus address out f = out f := by
  rw [translateUncached_eq_digits, digits_of_not_mem hf]

theorem mem_allSet_of_translate (h : m.translateUncached bus 0 (fun _ => 1) =
    m'.translateUncached bus 0 fun _ => 1) (hf : f ∈ m.allSet) : f ∈ m'.allSet := by
  by_contra hf'
  have heq := congrFun h f
  rw [translateUncached_of_mem hf, translateUncached_of_not_mem hf', Nat.zero_div, Nat.zero_div,
    Nat.zero_mod] at heq
  cases heq

theorem translateUncached_eq_iff : (∀ address < 2 ^ 64, ∀ out,
    m.translateUncached bus address out = m'.translateUncached bus address out) ↔
      m.SameBits (64 - bus.offsetBits) m' := by
  constructor
  · intro h f
    have hzero := h 0 (Nat.two_pow_pos 64) fun _ => 1
    have hmem := mem_allSet_of_translate hzero (f := f)
    refine ⟨⟨hmem, mem_allSet_of_translate hzero.symm⟩, fun hf => window_eq_iff.mp fun x hx => ?_⟩
    have haddr : x * 2 ^ bus.offsetBits < 2 ^ 64 := mul_two_pow_lt hx
    have heq := congrFun (h _ haddr fun _ => 0) f
    rwa [translateUncached_of_mem hf, translateUncached_of_mem (hmem hf),
      Nat.mul_div_cancel _ (Nat.two_pow_pos _)] at heq
  · intro h address haddr out
    funext f
    by_cases hf : f ∈ m.allSet
    · rw [translateUncached_of_mem hf, translateUncached_of_mem ((h f).1.mp hf)]
      exact window_eq_iff.mpr ((h f).2 hf) _ (div_two_pow_lt haddr)
    · rw [translateUncached_of_not_mem hf, translateUncached_of_not_mem fun hf' => hf ((h f).1.mpr hf')]

end TranslationMethod

namespace AddressTranslator

def unset (bus : Bus) (bitWidths : Field → Nat) (fieldOrder : Field → Int) : AddressTranslator :=
  { method := none, bus, lowColBits := 0, bitWidths, fieldOrder, bitWidthsInited := false, fieldOrderInited := false }

variable (t : AddressTranslator)

def setTranslationMethod (m : TranslationMethod) : AddressTranslator :=
  { t with method := some m }

/-- `Translate` by the method that is set, with the steps that read it. -/
def translateCurrent (address : Nat) (out : Coords) : Coords :=
  match t.method with
  | none => out
  | some m => m.translateUncached t.bus address out

inductive Op where
  | setTranslationMethod (m : TranslationMethod)
  | translate (address : Nat) (out : Coords)
  | reverseTranslate (c : Coords)

def step : Op → Option AddressTranslator
  | .setTranslationMethod m => some (t.setTranslationMethod m)
  | .translate address out => some (t.translate address out).2
  | .reverseTranslate c => (t.reverseTranslate c).map Prod.snd

/-- The method that is set, and the one that was set when the translator was first used. -/
structure Methods where
  (current used : Option TranslationMethod)

/-- A call uses the method that is set, unless one is in use. -/
def Methods.after (ms : Methods) : Op → Methods
  | .setTranslationMethod m => { ms with current := some m }
  | .translate _ _ | .reverseTranslate _ => { ms with used := ms.used.or ms.current }

def methods (ops : List Op) : Methods := ops.foldl Methods.after ⟨none, none⟩

/-- The arrays are those of the method in use, and are filled once there is one. -/
structure Holds (bus : Bus) (ms : Methods) (t : AddressTranslator) : Prop where
  method : t.method = ms.current
  bus : t.bus = bus
  bitWidthsInited : t.bitWidthsInited = ms.used.isSome
  fieldOrderInited : t.fieldOrderInited = ms.used.isSome
  bitWidths : ∀ m, ms.used = some m → t.bitWidths = m.bitWidths
  fieldOrder : ∀ m, ms.used = some m → t.fieldOrder = m.order

namespace Holds

variable {bus : Bus} {ms : Methods} {t t' : AddressTranslator} {m : TranslationMethod}

theorem unset (bus : Bus) (bitWidths : Field → Nat) (fieldOrder : Field → Int) :
    Holds bus ⟨none, none⟩ (unset bus bitWidths fieldOrder) where
  method := rfl
  bus := rfl
  bitWidthsInited := rfl
  fieldOrderInited := rfl
  bitWidths _ h := nomatch h
  fieldOrder _ h := nomatch h

variable (h : Holds bus ms t)
include h

theorem used_of_none (hm : t.method = none) : Holds bus { ms with used := ms.used.or ms.current } t := by
  have hused : ms.used.or ms.current = ms.used := by
    rw [← h.method, hm, Option.or_none]
  rw [hused]
  exact h

theorem prepare (hm : t.method = some m) : Holds bus { ms with used := ms.used.or ms.current } (t.prepare m) := by
  have hcur : ms.current = some m := h.method.symm.trans hm
  obtain ⟨current, used⟩ := ms
  obtain rfl : current = some m := hcur
  cases used with
  | none =>
    have hw : t.bitWidthsInited = false := h.bitWidthsInited
    have ho : t.fieldOrderInited = false := h.fieldOrderInited
    refine ⟨hm, h.bus, rfl, rfl, fun u hu => ?_, fun u hu => ?_⟩
    · cases hu
      show (if t.bitWidthsInited then t.bitWidths else m.bitWidths) = m.bitWidths
      rw [hw]
      rfl
    · cases hu
      show (if t.fieldOrderInited then t.fieldOrder else m.order) = m.order
      rw [ho]
      rfl
  | some first =>
    have hw : t.bitWidthsInited = true := h.bitWidthsInited
    have ho : t.fieldOrderInited = true := h.fieldOrderInited
    refine ⟨hm, h.bus, rfl, rfl, fun u hu => ?_, fun u hu => ?_⟩
    · refine (if_pos hw).trans (h.bitWidths u hu)
    · refine (if_pos ho).trans (h.fieldOrder u hu)

theorem step {op : Op} (hs : AddressTranslator.step t op = some t') : Holds bus (ms.after op) t' := by
  cases op with
  | setTranslationMethod m =>
    cases hs
    exact { h with method := rfl }
  | translate address out =>
    cases hs
    unfold AddressTranslator.translate
    cases hm : t.method with
    | none => exact h.used_of_none hm
    | some m => exact h.prepare hm
  | reverseTranslate c =>
    unfold AddressTranslator.step reverseTranslate at hs
    cases hm : t.method with
    | none =>
      rw [hm] at hs
      cases hs
    | some m =>
      rw [hm] at hs
      cases hs
      exact h.prepare hm

/-- `Translate` goes by the method that is in use, or by the one that is set if none is. -/
theorem translate_eq (address : Nat) (out : Coords) :
    (t.translate address out).1 =
      match t.method, ms.used.or ms.current with
      | some _, some u => u.translateUncached bus address out
      | _, _ => out := by
  unfold AddressTranslator.translate
  cases hm : t.method with
  | none => rfl
  | some m =>
    have hprep := h.prepare hm
    have hcur : ms.current = some m := h.method.symm.trans hm
    obtain ⟨u, hu⟩ : ∃ u, ms.used.or ms.current = some u := by
      rw [hcur]
      cases ms.used with
      | none => exact ⟨m, rfl⟩
      | some u => exact ⟨u, rfl⟩
    simp only [hu]
    rw [hprep.bitWidths u hu, hprep.fieldOrder u hu, TranslationMethod.translateLoop_eq_uncachedLoop, hprep.bus]
    have hlow : (t.prepare m).lowColBits = bus.burstBits - bus.busOffsetBits := by
      rw [← h.bus]
      rfl
    rw [hlow]
    rfl

end Holds

theorem holds_run {bus : Bus} {bitWidths : Field → Nat} {fieldOrder : Field → Int} {ops : List Op}
    {t : AddressTranslator} (hrun : run step (unset bus bitWidths fieldOrder) ops = some t) :
    Holds bus (methods ops) t := by
  let P : List Op → AddressTranslator → Prop := fun hist s => Holds bus (methods hist) s
  have hstep : ∀ hist s op s', P hist s → True → step s op = some s' → P (hist ++ [op]) s' ∧ True := by
    intro hist s op s' h _ hs
    refine ⟨?_, trivial⟩
    show Holds bus (methods (hist ++ [op])) s'
    rw [methods, List.foldl_append]
    exact h.step hs
  exact (run_history_of_some step hstep ops (Holds.unset bus bitWidths fieldOrder)
    (allSteps_of_forall step (fun _ _ => trivial) _ _) hrun).1

/-- After any calls of `SetTranslationMethod`, `Translate` and `ReverseTranslate`, the translator
translates every address as the steps that read the current method do exactly if the method it was
first used with, if it has been used with one, sets the same fields, each from the same bits of the
words above the bus and burst bits. That is so if the two have the same widths and order. -/
theorem translate_uncached_iff (bus : Bus) (bitWidths : Field → Nat) (fieldOrder : Field → Int)
    (ops : List Op) (t : AddressTranslator)
    (hrun : run step (unset bus bitWidths fieldOrder) ops = some t) :
    ((∀ address < 2 ^ 64, ∀ out, (t.translate address out).1 = t.translateCurrent address out) ↔
      ∀ m u, t.method = some m → (methods ops).used = some u → u.SameBits (64 - bus.offsetBits) m) ∧
    ((∀ m u, t.method = some m → (methods ops).used = some u →
        u.bitWidths = m.bitWidths ∧ u.order = m.order) →
      ∀ address out, (t.translate address out).1 = t.translateCurrent address out) := by
  have h := holds_run hrun
  by_cases hused : ∃ m u, t.method = some m ∧ (methods ops).used = some u
  · obtain ⟨m, u, hm, hu⟩ := hused
    have hcurrent : ∀ address out, (t.translate address out).1 = t.translateCurrent address out ↔
        u.translateUncached bus address out = m.translateUncached bus address out := by
      intro address out
      rw [h.translate_eq, translateCurrent, hm, h.bus, hu]
      rfl
    have hforall : ∀ {P : TranslationMethod → TranslationMethod → Prop},
        (∀ m' u', t.method = some m' → (methods ops).used = some u' → P m' u') ↔ P m u := by
      intro P
      simp [hm, hu]
    constructor
    · rw [hforall, ← TranslationMethod.translateUncached_eq_iff]
      simp only [hcurrent]
    · rw [hforall]
      rintro ⟨hwidths, horder⟩ address out
      have heq : u = m := by
        cases u
        cases m
        exact TranslationMethod.mk.injEq .. ▸ ⟨hwidths, horder⟩
      rw [hcurrent, heq]
  · have hnone : ∀ address out, (t.translate address out).1 = t.translateCurrent address out := by
      intro address out
      rw [h.translate_eq, translateCurrent, h.bus]
      cases hm : t.method with
      | none => rfl
      | some m =>
        have hunused : (methods ops).used = none :=
          Option.eq_none_iff_forall_ne_some.mpr fun u hu => hused ⟨m, u, hm, hu⟩
        rw [hunused, ← h.method, hm]
        rfl
    exact ⟨iff_of_true (fun address _ => hnone address) fun m u hm hu => absurd ⟨m, u, hm, hu⟩ hused,
      fun _ => hnone⟩

def rowsLow : TranslationMethod where
  bitWidths := Field.table 1 1 0 0 0 0
  order := Field.table 0 1 2 3 4 5

def colsLow : TranslationMethod where
  bitWidths := Field.table 1 1 0 0 0 0
  order := Field.table 1 0 2 3 4 5

/-- The method is set again between two uses, as it was. -/
theorem translate_uncached_iff_same :
    ∃ t, run step (unset Bus.ddr (fun _ => 0) fun _ => 0)
        [.setTranslationMethod rowsLow, .translate 64 fun _ => 0, .setTranslationMethod rowsLow] = some t ∧
      (t.translate 64 fun _ => 0).1 = t.translateCurrent 64 fun _ => 0 := by
  refine ⟨_, rfl, ?_⟩
  refine (translate_uncached_iff Bus.ddr (fun _ => 0) (fun _ => 0) [.setTranslationMethod rowsLow,
    .translate 64 fun _ => 0, .setTranslationMethod rowsLow] _ rfl).2 (fun m u hm hu => ?_) 64 fun _ => 0
  obtain rfl : rowsLow = m := Option.some.inj hm
  obtain rfl : rowsLow = u := Option.some.inj hu
  exact ⟨rfl, rfl⟩

/-- The other method is set between two uses: the second one still reads the row from the lowest
bit. -/
theorem translate_stale_method :
    ∃ t, run step (unset Bus.ddr (fun _ => 0) fun _ => 0)
        [.setTranslationMethod rowsLow, .translate 64 fun _ => 0, .setTranslationMethod colsLow] = some t ∧
      (t.translate 64 fun _ => 0).1 .row = 1 ∧ t.translateCurrent 64 (fun _ => 0) .row = 0 := by
  decide +kernel

end AddressTranslator

end Shma.Nvmain
