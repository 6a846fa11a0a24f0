import Shma.PageTable.NormalMap
import Shma.PageTable.PaeMap
import Shma.PageTable.ReversedMap

/-!
# The paging classes behind one interface

`BasePaging` and its virtual calls, as `zinfo->paging_array` holds them. Whatever
the class, a `map_page_table` that returns has written the leaf of its address,
and an `access` that returns has changed no translation.
-/
namespace Shma.PageTable

open LongModePaging (canMap_of_mapPageTable mapPageTable_spec translate_new)

inductive Paging where
  | normal (p : NormalPaging)
  | pae (p : PAEPaging)
  | longMode (p : LongModePaging)
  | reversed (p : ReversedPaging)

namespace Paging

variable (reversedPgt : Bool)

/-- The objects `InitSystem` creates: one with an inverse table if there is shared
memory or one is asked for, else the class of the mode. -/
def new (mode : PagingStyle) : Paging :=
  if reversedPgt then .reversed (.new mode)
  else match mode with
    | .legacyNormal | .legacyHuge => .normal (.new mode)
    | .paeNormal | .paeHuge => .pae (.new mode)
    | .longModeNormal | .longModeMiddle | .longModeHuge => .longMode (.new mode)

def mode : Paging → PagingStyle
  | .normal p => p.mode
  | .pae p => p.mode
  | .longMode p => p.mode
  | .reversed p => p.paging.mode

def mapPageTable (z : Zinfo) (addr : Address) (pgPtr : Target) (pbuffer : Bool) : Paging → Option (Paging × Nat)
  | .normal p => (p.mapPageTable z addr pgPtr pbuffer).map fun r => (.normal r.1, r.2.1)
  | .pae p => (p.mapPageTable z addr pgPtr pbuffer).map fun r => (.pae r.1, r.2.1)
  | .longMode p => (p.mapPageTable z addr pgPtr pbuffer).map fun r => (.longMode r.1, r.2.1)
  | .reversed p => (p.mapPageTable z addr pgPtr pbuffer).map fun r => (.reversed r.1, r.2)

def access (z : Zinfo) (f : Frames) (req : MemReq) : Paging → Option (Walk × Paging)
  | .normal p => (p.access z f req).map fun w => (w, .normal { p with tables := w.tables })
  | .pae p => (p.access z f req).map fun w => (w, .pae { p with tables := w.tables })
  | .longMode p => (p.access z f req).map fun w => (w, .longMode { p with tables := w.tables })
  | .reversed p => (p.access z f req).map fun w =>
      (w, .reversed { p with paging := { p.paging with tables := w.tables } })

/-- `remap_page_table`; the default of `BasePaging` does nothing. -/
def remapPageTable (z : Zinfo) (m : Mmu.MemMap) (dram : FairAllocator) (ppn dstPpn : Address)
    (srcDram dstDram : Bool) : Paging → Option (Paging × Nat)
  | .reversed p => (p.remapPageTable z m dram ppn dstPpn srcDram dstDram).map fun r => (.reversed r.1, r.2)
  | p => some (p, 0)

def translate (addr : Address) : Paging → Option Target
  | .normal p => p.translate addr
  | .pae p => p.translate addr
  | .longMode p => p.translate addr
  | .reversed p => p.paging.translate addr

theorem translate_congr (p : Paging) {a b : Address} (h : slotOf a p.mode = slotOf b p.mode) :
    p.translate a = p.translate b := by
  obtain ⟨hdirs, hleaf⟩ := Prod.mk.inj h
  cases p with
  | normal p | pae p | longMode p => exact congrArg₂ p.tables.translate hdirs hleaf
  | reversed p => exact congrArg₂ p.paging.tables.translate hdirs hleaf

def Inv : Paging → Prop
  | .normal p | .pae p | .longMode p => p.Inv
  | .reversed p => p.paging.Inv

theorem inv_new {reversedPgt : Bool} {mode : PagingStyle} (h : reversedPgt → isLongMode mode) :
    (new reversedPgt mode).Inv := by
  cases reversedPgt with
  | true => exact LongModePaging.inv_new (h rfl)
  | false =>
    cases mode with
    | legacyNormal | legacyHuge => exact NormalPaging.inv_new rfl
    | paeNormal | paeHuge => exact PAEPaging.inv_new rfl
    | longModeNormal | longModeMiddle | longModeHuge => exact LongModePaging.inv_new rfl

theorem mode_new (mode : PagingStyle) : (new reversedPgt mode).mode = mode := by
  cases reversedPgt <;> cases mode <;> rfl

theorem translate_new (mode : PagingStyle) (addr : Address) :
    (new reversedPgt mode).translate addr = none := by
  cases reversedPgt with
  | true => exact translate_new mode addr
  | false =>
    cases mode with
    | legacyNormal | legacyHuge => exact NormalPaging.translate_new _ addr
    | paeNormal | paeHuge => exact PAEPaging.translate_new _ addr
    | longModeNormal | longModeMiddle | longModeHuge => exact translate_new _ addr

variable {z : Zinfo} {p p' : Paging}

variable {addr : Address} {tg : Target} {latency : Nat}

theorem mapPageTable_spec (hi : p.Inv) (hr : p.mapPageTable z addr tg tg.isBlock = some (p', latency)) :
    p'.Inv ∧ p'.mode = p.mode ∧
      ∀ b, p'.translate b = if slotOf b p.mode = slotOf addr p.mode then some tg else p.translate b := by
  cases p with
  | normal p =>
    obtain ⟨⟨q, l, e⟩, hq, h⟩ := map_eq_some_iff.mp hr
    cases h
    obtain ⟨q', l', e', hq', -, hinv, hm, htr⟩ :=
      NormalPaging.mapPageTable_spec z hi (NormalPaging.canMap_of_mapPageTable hi hq) tg
    obtain rfl : q = q' := (Prod.mk.inj (mem_unique hq hq')).1
    exact ⟨hinv, hm, htr⟩
  | pae p =>
    obtain ⟨⟨q, l, e⟩, hq, h⟩ := map_eq_some_iff.mp hr
    cases h
    obtain ⟨q', l', e', hq', -, hinv, hm, htr⟩ :=
      PAEPaging.mapPageTable_spec z hi (PAEPaging.canMap_of_mapPageTable hq) addr tg
    obtain rfl : q = q' := (Prod.mk.inj (mem_unique hq hq')).1
    exact ⟨hinv, hm, htr⟩
  | longMode p =>
    obtain ⟨⟨q, l, e⟩, hq, h⟩ := map_eq_some_iff.mp hr
    cases h
    obtain ⟨q', l', e', hq', -, hinv, hm, htr, -⟩ :=
      mapPageTable_spec z hi (canMap_of_mapPageTable hi hq) tg
    obtain rfl : q = q' := (Prod.mk.inj (mem_unique hq hq')).1
    exact ⟨hinv, hm, htr⟩
  | reversed p =>
    obtain ⟨⟨q, l⟩, hq, h⟩ := map_eq_some_iff.mp hr
    cases h
    obtain ⟨e, hq⟩ := ReversedPaging.mapPageTable_of_some hq
    obtain ⟨q', l', e', hq', -, hinv, hm, htr, -⟩ :=
      mapPageTable_spec z hi (canMap_of_mapPageTable hi hq) tg
    obtain rfl : q.paging = q' := (Prod.mk.inj (mem_unique hq hq')).1
    exact ⟨hinv, hm, htr⟩

/-- What an `access` that returns has answered and left as it was. -/
structure AccessSpec (z : Zinfo) (f : Frames) (req : MemReq) (p : Paging) (w : Walk) (p' : Paging) : Prop where
  addr : w.addr = ((p.translate req.lineAddr).map (Target.ppn z)).getD pageFaultSig
  childId : ∀ tg, p.translate req.lineAddr = some tg → w.req.childId = tg.answer f req
  lineAddr : w.req.lineAddr = req.lineAddr
  frames : f.Agree w.frames
  dirty : ∀ c, (w.frames.block c).dirty = true ↔
    (f.block c).dirty = true ∨ req.type = .setdirty ∧ p.translate req.lineAddr = some (.block c)
  inv : p'.Inv
  mode : p'.mode = p.mode
  translate : ∀ b, p'.translate b = p.translate b

variable {f : Frames} {req : MemReq} {w : Walk}

theorem access_spec (hi : p.Inv) (hr : p.access z f req = some (w, p')) : AccessSpec z f req p w p' := by
  cases p with
  | normal p =>
    obtain ⟨w', hw, h⟩ := map_eq_some_iff.mp hr
    obtain ⟨rfl, rfl⟩ := Prod.mk.inj h
    obtain ⟨w, hw', ha⟩ := NormalPaging.access_spec z hi f req
    obtain rfl : w = w' := mem_unique hw' hw
    exact { ha with inv := ⟨hi.mode, ha.inv⟩, mode := rfl, translate := fun _ => ha.translate _ _ }
  | pae p =>
    obtain ⟨w', hw, h⟩ := map_eq_some_iff.mp hr
    cases h
    have ha := PAEPaging.access_answers hi hw
    exact { ha with inv := ⟨hi.mode, ha.inv⟩, mode := rfl, translate := fun _ => ha.translate _ _ }
  | longMode p | reversed p =>
    obtain ⟨w', hw, h⟩ := map_eq_some_iff.mp hr
    obtain ⟨rfl, rfl⟩ := Prod.mk.inj h
    obtain ⟨w, hw', ha, -⟩ := LongModePaging.access_spec z hi f req
    obtain rfl : w = w' := mem_unique hw' hw
    exact { ha with inv := ⟨hi.mode, ha.inv⟩, mode := rfl, translate := fun _ => ha.translate _ _ }

theorem access_isSome (z : Zinfo) (hi : p.Inv) (f : Frames) (hreq : req.type ≠ .setdirty) :
    (p.access z f req).isSome := by
  cases p with
  | normal p =>
    obtain ⟨w, hw, _⟩ := NormalPaging.access_spec z hi f req
    rw [access, hw]
    rfl
  | pae p =>
    have hsome := (PAEPaging.access_isSome_iff z hi f req).mpr fun h => absurd h hreq
    rw [access, Option.isSome_map]
    exact hsome
  | longMode p =>
    obtain ⟨w, hw, _⟩ := LongModePaging.access_spec z hi f req
    rw [access, hw]
    rfl
  | reversed p =>
    obtain ⟨w, hw, _⟩ := LongModePaging.access_spec z hi f req
    rw [access, ReversedPaging.access, hw]
    rfl

/-- Where there is an inverse table, its records are leaves of mapped pages. -/
def Linked : Paging → Prop
  | .reversed p => p.Linked
  | _ => True

theorem linked_new (mode : PagingStyle) : (new reversedPgt mode).Linked := by
  cases reversedPgt with
  | true => exact fun k c h => by cases h
  | false => cases mode <;> exact trivial

theorem Linked.mapPageTable (h : p.Linked) (hi : p.Inv)
    (hr : p.mapPageTable z addr tg tg.isBlock = some (p', latency)) : p'.Linked := by
  cases p with
  | reversed p =>
    obtain ⟨⟨q, l⟩, hq, he⟩ := map_eq_some_iff.mp hr
    cases he
    exact ReversedPaging.Linked.mapPageTable h hi hq
  | normal p | pae p | longMode p =>
    obtain ⟨_, -, he⟩ := map_eq_some_iff.mp hr
    cases he
    exact trivial

theorem Linked.access (h : p.Linked) (hi : p.Inv) (hr : p.access z f req = some (w, p')) : p'.Linked := by
  cases p with
  | reversed p =>
    obtain ⟨w', hw, he⟩ := map_eq_some_iff.mp hr
    cases he
    obtain ⟨-, htr, hd⟩ := ReversedPaging.access_keeps hi hw
    exact ReversedPaging.Linked.of_same h rfl rfl (fun b hb => by rw [htr]; exact hb) fun q t hq => (hd q).trans hq
  | normal p | pae p | longMode p =>
    obtain ⟨_, -, he⟩ := map_eq_some_iff.mp hr
    cases he
    exact trivial

/-- The inverse table has the leaf entry of `addr` under the key of `ppn`. -/
def Records (ppn addr : Address) : Paging → Prop
  | .reversed p => p.Records ppn addr
  | _ => False

instance (ppn addr : Address) : ∀ p : Paging, Decidable (p.Records ppn addr)
  | .reversed p => inferInstanceAs (Decidable (p.Records ppn addr))
  | .normal _ | .pae _ | .longMode _ => .isFalse id

/-- Remapping by physical page keeps the tree, whatever page numbers it is given, and swaps
the page numbers of what is recorded for them. -/
theorem Linked.remapPageTable (h : p.Linked) (hi : p.Inv) {m : Mmu.MemMap} {dram : FairAllocator}
    {ppn dstPpn : Address} {srcDram dstDram : Bool}
    (hr : p.remapPageTable z m dram ppn dstPpn srcDram dstDram = some (p', latency)) :
    p'.Inv ∧ p'.mode = p.mode ∧ p'.Linked ∧ (∀ n a, p'.Records n a ↔ p.Records n a) ∧
      ((∀ tg, ReversedPaging.framePtr z m dram ppn srcDram = some tg → tg.ppn z = ppn) →
        (∀ tg, ReversedPaging.framePtr z m dram dstPpn dstDram = some tg → tg.ppn z = dstPpn) → ∀ a,
        (p'.translate a).map (·.ppn z) = if p.Records dstPpn a then some ppn
          else if p.Records ppn a then some dstPpn else (p.translate a).map (·.ppn z)) := by
  cases p with
  | reversed p =>
    obtain ⟨⟨q, l⟩, hq, he⟩ := map_eq_some_iff.mp hr
    cases he
    exact ReversedPaging.Linked.remapPageTable h hi hq
  | normal p | pae p | longMode p =>
    cases hr
    exact ⟨hi, rfl, trivial, fun _ _ => Iff.rfl, fun _ _ _ => rfl⟩

end Paging

end Shma.PageTable
