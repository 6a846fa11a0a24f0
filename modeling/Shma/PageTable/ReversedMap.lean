import Shma.PageTable.LongModeMap
import Shma.PageTable.Reversed

/-!
# What the inverse table does to the forward one

Mapping goes to the long-mode structure underneath and records the entry it
reports. Remapping writes through recorded entries only.
-/
namespace Shma.PageTable.ReversedPaging

open Lib PageTables

variable {p p' : ReversedPaging}

def leaf (p : ReversedPaging) (addr : Address) : BasePDTEntry :=
  p.paging.tables.slot (dirs addr p.paging.mode) (leafOff addr p.paging.mode)

theorem isLeaf_leaf (hi : p.paging.Inv) (addr : Address) : (p.leaf addr).IsLeaf :=
  hi.tree.slot_isLeaf (dirs_length addr _) _

theorem nextLevelPtr_leaf (hi : p.paging.Inv) (addr : Address) :
    (p.leaf addr).nextLevelPtr = (p.paging.translate addr).map Ptr.target :=
  (isLeaf_leaf hi addr).nextLevelPtr_eq

def PointsTo (p : ReversedPaging) (c : Content) (addr : Address) : Prop :=
  p.paging.tables.descend (dirs addr p.paging.mode) = some c.pgtEntry.1 ∧
    c.pgtEntry.2 = leafOff addr p.paging.mode
  deriving Decidable

variable {z : Zinfo} {addr : Address} {latency : Nat} {tg : Target}

theorem mapPageTable_of_some {pbuffer : Bool} {p' : ReversedPaging}
    (h : p.mapPageTable z addr tg pbuffer = some (p', latency)) :
    ∃ entry, p.paging.mapPageTable z addr tg pbuffer = some (p'.paging, latency, entry) := by
  simp only [mapPageTable, bind_eq_bind, bind_eq_some_iff] at h
  obtain ⟨⟨paging, l, entry⟩, hr, _, -, h⟩ := h
  cases entry with
  | none =>
    obtain ⟨rfl, rfl⟩ := h
    exact ⟨none, hr⟩
  | some e =>
    simp only [bind_eq_some_iff, pure_def, some_inj, Prod.mk.injEq] at h
    obtain ⟨_, -, rfl, rfl⟩ := h
    exact ⟨some e, hr⟩

theorem mappedPpn_eq (hz : z.blockShift = z.pageShift) (tg : Target) : mappedPpn z tg tg.isBlock = some (tg.ppn z) := by
  cases tg with
  | page n => rfl
  | block b => simp [mappedPpn, Target.isBlock, Target.ppn, hz]

variable {ppn : Address}

/-- A `map` that returns writes the leaf of its address, and records the entry if the
page had no target. -/
theorem mapPageTable_cases (hppn : mappedPpn z tg tg.isBlock = some ppn)
    (hi : p.paging.Inv) (h : p.mapPageTable z addr tg tg.isBlock = some (p', latency)) :
    p'.paging.Inv ∧ p'.paging.mode = p.paging.mode ∧
      (∀ b, p'.paging.translate b =
        if slotOf b p.paging.mode = slotOf addr p.paging.mode then some tg else p.paging.translate b) ∧
      (∀ q t, p.paging.tables.descend q = some t → p'.paging.tables.descend q = some t) ∧
      ((p.paging.translate addr).isSome ∧ p'.reversedPgt = p.reversedPgt ∨
        p.paging.translate addr = none ∧ p.reversedPgt (key ppn) = none ∧ ∃ c, p'.PointsTo c addr ∧
          p'.reversedPgt = update p.reversedPgt (key ppn) (some c)) := by
  obtain ⟨entry, hmap⟩ := mapPageTable_of_some h
  have hn := LongModePaging.canMap_of_mapPageTable hi hmap
  have hlen := dirs_length addr p.paging.mode
  obtain ⟨p1, latency1, hr, ht, hm⟩ := LongModePaging.mapPageTable_eq z hi hn tg
  obtain ⟨p2, latency2, entry2, hr2, -, hinv, -, htr, -⟩ := LongModePaging.mapPageTable_spec z hi hn tg
  have he := mem_unique hr hmap
  obtain rfl : p1 = p'.paging := congrArg Prod.fst he
  obtain rfl : p'.paging = p2 := congrArg Prod.fst (mem_unique hr hr2)
  refine ⟨hinv, hm, htr, fun q t hq => ?_, ?_⟩
  · rw [ht]
    exact hi.tree.mapAt_descend_of_some hlen _ _ hq
  · simp only [mapPageTable, hr, hppn, bind_eq_bind, bind_some] at h
    cases htarget : p.paging.translate addr with
    | some tg' =>
      simp only [htarget, Option.isSome_some, if_true, pure_def, some_inj] at h
      exact .inl ⟨rfl, congrArg (fun r => r.1.reversedPgt) h.symm⟩
    | none =>
      simp only [htarget, Option.isSome_none, Bool.false_eq_true, if_false] at h
      obtain ⟨_, hkey, h⟩ := bind_eq_some_iff.mp h
      have hfree : p.reversedPgt (key ppn) = none := by
        by_contra hne
        simp [hne] at hkey
      have hp' := congrArg (fun r => r.1.reversedPgt) (some_inj.mp h)
      refine .inr ⟨rfl, hfree, _, ⟨?_, ?_⟩, hp'.symm⟩
      · rw [hm, ht]
        exact hi.tree.mapAt_descend_self hlen _ _
      · rw [hm]

variable {c : Content}

theorem PointsTo.mono {a : Address} (h : p.PointsTo c a) (hm : p'.paging.mode = p.paging.mode)
    (hd : ∀ q t, p.paging.tables.descend q = some t → p'.paging.tables.descend q = some t) : p'.PointsTo c a :=
  ⟨by rw [hm]; exact hd _ _ h.1, by rw [hm]; exact h.2⟩

theorem PointsTo.slotOf_eq {a b : Address} (hi : p.paging.Inv) (ha : p.PointsTo c a)
    (hb : p.PointsTo c b) : slotOf a p.paging.mode = slotOf b p.paging.mode := by
  have hpath : dirs a p.paging.mode = dirs b p.paging.mode := hi.tree.wf.inj ha.1 hb.1
  rw [slotOf, slotOf, hpath, ← ha.2, ← hb.2]

theorem mappedPpn_isSome (z : Zinfo) (tg : Target) : (mappedPpn z tg tg.isBlock).isSome := by
  cases tg <;> rfl

theorem access_keeps (hi : p.paging.Inv) {f : Frames} {req : MemReq} {w : Walk} (hw : p.access z f req = some w) :
    ({ p.paging with tables := w.tables } : LongModePaging).Inv ∧
      (∀ b, ({ p.paging with tables := w.tables } : LongModePaging).translate b = p.paging.translate b) ∧
      ∀ q, w.tables.descend q = p.paging.tables.descend q := by
  obtain ⟨w', hw', ha, hd⟩ := LongModePaging.access_spec z hi f req
  obtain rfl : w' = w := mem_unique hw' hw
  exact ⟨⟨hi.mode, ha.inv⟩, fun b => ha.translate _ _, hd⟩

theorem mapPageTable_page_spec (z : Zinfo) (hi : p.paging.Inv) (hn : p.paging.CanMap addr)
    (hfree : p.paging.translate addr = none) {f : Address} (hkey : p.reversedPgt (key f) = none) :
    ∃ p' latency c, p.mapPageTable z addr (.page f) false = some (p', latency) ∧
      p'.paging.Inv ∧ p'.paging.mode = p.paging.mode ∧
      p'.reversedPgt = update p.reversedPgt (key f) (some c) ∧ p'.PointsTo c addr ∧
      (∀ b, p'.paging.translate b =
        if slotOf b p.paging.mode = slotOf addr p.paging.mode then some (.page f) else p.paging.translate b) ∧
      ∀ q t, p.paging.tables.descend q = some t → p'.paging.tables.descend q = some t := by
  obtain ⟨p1, latency, hr, ht, hm⟩ := LongModePaging.mapPageTable_eq z hi hn (.page f)
  obtain ⟨p2, latency2, entry2, hr2, -, hinv, -, htr, -⟩ := LongModePaging.mapPageTable_spec z hi hn (.page f)
  obtain rfl : p1 = p2 := (Prod.mk.inj (mem_unique hr hr2)).1
  have hlen := dirs_length addr p.paging.mode
  let c : Content := ⟨((ensure 512 p.paging.tables 0 (dirs addr p.paging.mode)).1, leafOff addr p.paging.mode),
    addr >>> z.pageShift⟩
  refine ⟨⟨p1, update p.reversedPgt (key f) (some c)⟩, latency, c, ?_, hinv, hm, rfl, ?_, htr, ?_⟩
  · simp only [Target.isBlock, hfree, Option.isSome_none, Bool.false_eq_true, if_false] at hr
    simp [mapPageTable, mappedPpn, hr, hkey, c]
  · refine ⟨?_, by rw [hm]⟩
    rw [hm, ht]
    exact hi.tree.mapAt_descend_self hlen _ _
  · intro q t hq
    rw [ht]
    exact hi.tree.mapAt_descend_of_some hlen _ _ hq

theorem redirect_of_none (h : p.reversedPgt (key ppn) = none) (tg : Target)
    (toDram : Bool) : p.redirect z ppn tg toDram = (p, 0) := by
  rw [redirect, h]

/-- The inverse table has the leaf entry of `addr` under the key of `ppn`. -/
def Records (p : ReversedPaging) (ppn addr : Address) : Prop :=
  ∃ c ∈ p.reversedPgt (key ppn), p.PointsTo c addr
  deriving Decidable

theorem Records.iff_slotOf {ppn a : Address} (h : p.Records ppn addr) (hi : p.paging.Inv) :
    p.Records ppn a ↔ slotOf a p.paging.mode = slotOf addr p.paging.mode := by
  obtain ⟨c, hc, hpt⟩ := h
  constructor
  · rintro ⟨c', hc', hpt'⟩
    obtain rfl : c = c' := mem_unique hc hc'
    exact hpt'.slotOf_eq hi hpt
  · intro hslot
    obtain ⟨hdirs, hoff⟩ := Prod.mk.inj hslot
    exact ⟨c, hc, hdirs ▸ hpt.1, hoff ▸ hpt.2⟩

def Linked (p : ReversedPaging) : Prop :=
  ∀ k c, p.reversedPgt k = some c → ∃ addr, p.PointsTo c addr ∧ (p.paging.translate addr).isSome

theorem Linked.of_same (h : p.Linked) (hmode : p'.paging.mode = p.paging.mode) (hrev : p'.reversedPgt = p.reversedPgt)
    (htr : ∀ b, (p.paging.translate b).isSome → (p'.paging.translate b).isSome)
    (hd : ∀ q t, p.paging.tables.descend q = some t → p'.paging.tables.descend q = some t) : p'.Linked := by
  intro k c hk
  obtain ⟨addr, hpt, hsome⟩ := h k c (by rw [← hrev]; exact hk)
  exact ⟨addr, hpt.mono hmode hd, htr addr hsome⟩

theorem Linked.mapPageTable (h : p.Linked) (hi : p.paging.Inv)
    (hr : p.mapPageTable z addr tg tg.isBlock = some (p', latency)) : p'.Linked := by
  obtain ⟨ppn, hppn⟩ := isSome_iff_exists.mp (mappedPpn_isSome z tg)
  obtain ⟨-, hmode, htr, hd, hcases⟩ := mapPageTable_cases hppn hi hr
  have hstay : ∀ b, (p.paging.translate b).isSome → (p'.paging.translate b).isSome := by
    intro b hb
    rw [htr]
    split
    · rfl
    · exact hb
  rcases hcases with ⟨-, hrev⟩ | ⟨-, -, c, hpt, hrev⟩
  · exact h.of_same hmode hrev hstay hd
  · intro k c' hk
    by_cases hkey : k = key ppn
    · rw [hrev, hkey, update_self] at hk
      cases hk
      exact ⟨addr, hpt, by rw [htr, if_pos rfl]; rfl⟩
    · rw [hrev, update_of_ne hkey] at hk
      obtain ⟨b, hptb, hsome⟩ := h k c' hk
      exact ⟨b, hptb.mono hmode hd, hstay b hsome⟩

/-- One update of `remap_page_table`: the page recorded for `ppn`, if there is one, is mapped
to `tg`. -/
structure Redirected (p p' : ReversedPaging) (ppn : Address) (tg : Target) : Prop where
  inv : p'.paging.Inv
  mode : p'.paging.mode = p.paging.mode
  reversedPgt : p'.reversedPgt = p.reversedPgt
  translate : ∀ a, p'.paging.translate a = if p.Records ppn a then some tg else p.paging.translate a
  descend : ∀ q, p'.paging.tables.descend q = p.paging.tables.descend q

theorem Redirected.records (h : Redirected p p' ppn tg) (n a : Address) : p'.Records n a ↔ p.Records n a := by
  simp only [Records, PointsTo, h.mode, h.reversedPgt, h.descend]

theorem Redirected.linked (h : Redirected p p' ppn tg) (hl : p.Linked) : p'.Linked := by
  refine hl.of_same h.mode h.reversedPgt (fun b hb => ?_) fun q t hq => (h.descend q).trans hq
  rw [h.translate]
  split
  · rfl
  · exact hb

theorem Linked.redirect (h : p.Linked) (hi : p.paging.Inv) (z : Zinfo) (ppn : Address) (tg : Target) :
    Redirected p (p.redirect z ppn tg tg.isBlock).1 ppn tg := by
  cases hc : p.reversedPgt (key ppn) with
  | none =>
    rw [redirect_of_none hc]
    exact ⟨hi, rfl, rfl, fun a => by simp [Records, hc], fun _ => rfl⟩
  | some c =>
    obtain ⟨addr, hpt, hmapped⟩ := h _ c hc
    have hrec : p.Records ppn addr := ⟨c, hc, hpt⟩
    obtain ⟨hd, hidx⟩ := hpt
    have hlen := dirs_length addr p.paging.mode
    have hleaf := hi.tree.isLeaf_cell hd hlen c.pgtEntry.2
    have hpresent : (p.paging.tables.tables.cell c.pgtEntry.1 c.pgtEntry.2).present = true := by
      rw [hleaf.2.1, ← hmapped, LongModePaging.translate, PageTables.translate, slot_eq hd, hidx]
    have hnew : (((p.paging.tables.tables.cell c.pgtEntry.1 c.pgtEntry.2).setNextLevelAddress
        (.target tg)).setBuffer tg.isBlock).IsLeaf :=
      ⟨rfl, hpresent, fun _ h => by cases h; rfl⟩
    obtain ⟨hinv, hslot⟩ := hi.tree.modify_leaf hd hlen c.pgtEntry.2
      (fun e => (e.setNextLevelAddress (.target tg)).setBuffer tg.isBlock) hnew
    rw [ReversedPaging.redirect, hc]
    refine ⟨⟨hi.mode, hinv⟩, rfl, rfl, fun b => ?_, fun q => ?_⟩
    · show ((p.paging.tables.modify _ _ _).slot _ _).mapped = _
      rw [hslot, hidx]
      simp only [hrec.iff_slotOf hi, slotOf, Prod.mk.injEq]
      split
      · rfl
      · rfl
    · exact Radix.Tables.descend_put hleaf.1.symm 0 q

theorem framePtr_isBlock {m : Mmu.MemMap} {dram : FairAllocator} {inDram : Bool}
    (h : framePtr z m dram ppn inDram = some tg) : tg.isBlock = inDram := by
  cases inDram with
  | true =>
    obtain ⟨b, -, rfl⟩ := map_eq_some_iff.mp h
    rfl
  | false =>
    obtain ⟨n, -, rfl⟩ := map_eq_some_iff.mp h
    rfl

/-- Remapping swaps the page numbers of what is recorded for the two, where the descriptors
it finds are those of the page numbers. -/
theorem Linked.remapPageTable (h : p.Linked) (hi : p.paging.Inv) {m : Mmu.MemMap}
    {dram : FairAllocator} {ppn dstPpn : Address} {srcDram dstDram : Bool}
    (hr : p.remapPageTable z m dram ppn dstPpn srcDram dstDram = some (p', latency)) :
    p'.paging.Inv ∧ p'.paging.mode = p.paging.mode ∧ p'.Linked ∧
      (∀ n a, p'.Records n a ↔ p.Records n a) ∧
      ((∀ tg, framePtr z m dram ppn srcDram = some tg → tg.ppn z = ppn) →
        (∀ tg, framePtr z m dram dstPpn dstDram = some tg → tg.ppn z = dstPpn) → ∀ a,
        (p'.paging.translate a).map (·.ppn z) = if p.Records dstPpn a then some ppn
          else if p.Records ppn a then some dstPpn else (p.paging.translate a).map (·.ppn z)) := by
  obtain ⟨pagePtr, hsrc, hr⟩ := bind_eq_some_iff.mp hr
  obtain ⟨dstPtr, hdst, hr⟩ := bind_eq_some_iff.mp hr
  obtain rfl := congrArg Prod.fst (some_inj.mp hr)
  obtain rfl := framePtr_isBlock hsrc
  obtain rfl := framePtr_isBlock hdst
  have h1 := h.redirect hi z ppn dstPtr
  have h2 := (h1.linked h).redirect h1.inv z dstPpn pagePtr
  refine ⟨h2.inv, h2.mode.trans h1.mode, h2.linked (h1.linked h),
    fun n a => (h2.records n a).trans (h1.records n a), fun hp hd a => ?_⟩
  refine (congrArg (Option.map (·.ppn z)) (h2.translate a)).trans ?_
  simp only [h1.records, h1.translate, apply_ite (Option.map fun tg : Target => tg.ppn z), map_some,
    hp _ hsrc, hd _ hdst]

end Shma.PageTable.ReversedPaging
