import Shma.PageTable.FiniteMap
import Shma.PageTable.LongModeMap

/-!
# Sequences of long-mode calls

`LongModePaging` behaves as a finite map over every sequence of calls in which no
`unmap_page_table` meets an empty `pml4` entry, and over no other, except with
huge pages, where the entry is tested before it is used.
-/
namespace Shma.PageTable.LongModePaging

open Lib Lib.Run PageTables
open FiniteMap (after after_concat)

structure Traced where
  paging : LongModePaging
  reports : List Bool

def Traced.step (z : Zinfo) (s : Traced) : PagingOp → Option Traced
  | .map a t => (s.paging.mapPageTable z a t t.isBlock).map fun r => ⟨r.1, r.2.2.isSome :: s.reports⟩
  | .unmap a => (s.paging.unmapPageTable a).map fun r => ⟨r.1, s.reports⟩

/-- Every walk of an address below `2^48` answers as the finite map. -/
def Traced.Agrees (z : Zinfo) (shift : Nat) (s : Traced) (m : FiniteMap) : Prop :=
  s.reports = m.reports ∧
  ∀ f req, req.lineAddr < 2^48 → ∃ w, s.paging.access z f req = some w ∧
    w.addr = ((m.contents (req.lineAddr >>> shift)).map (Target.ppn z)).getD pageFaultSig ∧
    ∀ tg, m.contents (req.lineAddr >>> shift) = some tg → w.req.childId = tg.answer f req

def Refines (z : Zinfo) (mode : PagingStyle) (ops : List PagingOp) : Prop :=
  ∃ s, run (Traced.step z) ⟨new mode, []⟩ ops = some s ∧
    s.Agrees z mode.pageShift (after mode.pageShift ops)

/-- Every `unmap` comes after a `map` in the same 512 GB region. -/
def UnmapsLinked (ops : List PagingOp) : Prop :=
  ∀ pre a post, ops = pre ++ PagingOp.unmap a :: post →
    ∃ b t, PagingOp.map b t ∈ pre ∧ getBitValue b 39 47 = getBitValue a 39 47

/-- The limits of the class: 48-bit addresses, and a page-directory-pointer table
still to be had before each `map`. -/
def WithinLimits (s : Traced) (op : PagingOp) : Prop :=
  op.addr < 2^48 ∧ (op.isMap → s.paging.curPdpNum < 512)

def MayCall (mode : PagingStyle) (hist : List PagingOp) (op : PagingOp) : Prop :=
  mode = .longModeHuge ∨ ∀ a, op = .unmap a →
    ∃ b t, PagingOp.map b t ∈ hist ∧ getBitValue b 39 47 = getBitValue a 39 47

structure Sim (mode : PagingStyle) (hist : List PagingOp) (s : Traced) : Prop where
  inv : s.paging.Inv
  mode_eq : s.paging.mode = mode
  contents : ∀ a < 2^48, s.paging.translate a =
    (after mode.pageShift hist).contents (a >>> mode.pageShift)
  reports : s.reports = (after mode.pageShift hist).reports
  linked : ∀ i, (s.paging.tables.descend [i]).isSome ↔
    ∃ b t, PagingOp.map b t ∈ hist ∧ getBitValue b 39 47 = i

variable {mode : PagingStyle}

theorem sim_new (h : isLongMode mode) : Sim mode [] ⟨new mode, []⟩ := by
  refine ⟨inv_new h, rfl, fun a _ => translate_new mode a, rfl, fun i => ?_⟩
  simp [new, PageTables.new, PageTables.descend, Radix.Tables.descend, coding]

variable {hist : List PagingOp} {s : Traced}

theorem sim_map (z : Zinfo) (h : Sim mode hist s)
    {a : Address} {tg : Target} (ha : a < 2^48) (hn : s.paging.curPdpNum < 512) :
    ∃ s', s.step z (.map a tg) = some s' ∧ Sim mode (hist ++ [.map a tg]) s' := by
  have hcan : s.paging.CanMap a := .inr (.inl hn)
  obtain ⟨p', latency, entry, hr, hentry, hinv, hmode, htr, hlinked⟩ :=
    mapPageTable_spec z h.inv hcan tg
  refine ⟨⟨p', entry.isSome :: s.reports⟩, by rw [Traced.step, hr]; rfl, hinv, hmode.trans h.mode_eq, ?_, ?_, ?_⟩
  · intro b hb
    rw [htr, h.contents b hb, after_concat, h.mode_eq]
    simp only [slotOf_eq_iff (h.mode_eq ▸ h.inv.mode) hb ha, FiniteMap.step, update_apply]
  · rw [after_concat, FiniteMap.step, ← h.contents a ha, ← h.reports, hentry]
  · intro i
    obtain ⟨ids, hdirs, -⟩ := dirs_eq_cons h.inv.mode a
    have hprefix : [i] <+: dirs a s.paging.mode ↔ getBitValue a 39 47 = i := by
      rw [hdirs]
      simp [eq_comm]
    rw [hlinked, h.linked, hprefix]
    simp [or_and_right, exists_or]

theorem sim_unmap {z : Zinfo} (h : Sim mode hist s) {a : Address} (ha : a < 2^48)
    (hroot : mode ≠ .longModeHuge → (s.paging.tables.descend [getBitValue a 39 47]).isSome) :
    ∃ s', s.step z (.unmap a) = some s' ∧ Sim mode (hist ++ [.unmap a]) s' := by
  obtain ⟨p', hr, hinv, hmode, htr, hd⟩ := unmapPageTable_spec h.inv a (h.mode_eq ▸ hroot)
  refine ⟨⟨p', s.reports⟩, by rw [Traced.step, hr]; rfl, hinv, hmode.trans h.mode_eq, ?_, ?_, ?_⟩
  · intro b hb
    rw [htr, h.contents b hb, after_concat, h.mode_eq]
    simp only [slotOf_eq_iff (h.mode_eq ▸ h.inv.mode) hb ha, FiniteMap.step, update_apply]
  · rw [after_concat]; exact h.reports
  · intro i
    rw [hd, h.linked]
    simp

/-- A call within the limits returns exactly if it may be made. -/
theorem sim_step (z : Zinfo) (h : Sim mode hist s)
    {op : PagingOp} (hok : WithinLimits s op) (hmay : MayCall mode hist op) :
    ∃ s', s.step z op = some s' ∧ Sim mode (hist ++ [op]) s' := by
  cases op with
  | map a tg => exact sim_map z h hok.1 (hok.2 rfl)
  | unmap a =>
    refine sim_unmap h hok.1 fun hm => ?_
    obtain ⟨b, t, hb, he⟩ := hmay.resolve_left hm a rfl
    exact (h.linked _).mpr ⟨b, t, hb, he⟩

theorem may_of_step {z : Zinfo} {s s' : Traced} (h : Sim mode hist s)
    {op : PagingOp} (hr : s.step z op = some s') : MayCall mode hist op := by
  by_cases hm : mode = .longModeHuge
  · exact .inl hm
  · refine .inr ?_
    rintro a rfl
    by_contra hno
    have hnone : s.paging.tables.descend [getBitValue a 39 47] = none := by
      rw [← not_isSome_iff_eq_none, h.linked]
      exact hno
    have hu := unmapPageTable_eq h.inv a
    rw [if_pos ⟨h.mode_eq.symm ▸ hm, hnone⟩] at hu
    rw [Traced.step, hu] at hr
    cases hr

theorem Sim.agrees (z : Zinfo) (h : Sim mode hist s) : s.Agrees z mode.pageShift (after mode.pageShift hist) := by
  refine ⟨h.reports, fun f req hreq => ?_⟩
  obtain ⟨w, hw, ha, -⟩ := access_spec z h.inv f req
  rw [← h.contents _ hreq]
  exact ⟨w, hw, ha.addr, ha.childId⟩

/-- Over any sequence of calls within the limits, long-mode paging is the finite
map exactly if it has huge pages or every `unmap` follows a `map` in the same
512 GB region. -/
theorem refines_iff_unmapsLinked (z : Zinfo) {mode : PagingStyle} (hm : isLongMode mode) {ops : List PagingOp}
    (hlim : AllSteps (Traced.step z) WithinLimits ⟨new mode, []⟩ ops) :
    Refines z mode ops ↔ mode = .longModeHuge ∨ UnmapsLinked ops := by
  constructor
  · rintro ⟨s, hr, -⟩
    have hstep : ∀ hist s op t, Sim mode hist s → WithinLimits s op → Traced.step z s op = some t →
        Sim mode (hist ++ [op]) t ∧ MayCall mode hist op := by
      intro hist s op t hsim hok ht
      have hmay := may_of_step hsim ht
      obtain ⟨t', ht', hsim'⟩ := sim_step z hsim hok hmay
      obtain rfl : t' = t := mem_unique ht' ht
      exact ⟨hsim', hmay⟩
    obtain ⟨-, hmay⟩ := run_history_of_some (Traced.step z) hstep ops (sim_new hm) hlim hr
    by_cases hhuge : mode = .longModeHuge
    · exact .inl hhuge
    · exact .inr fun pre a post he => (hmay pre _ post he).resolve_left hhuge a rfl
  · intro hcond
    have hstep : ∀ hist s op, Sim mode hist s → WithinLimits s op → MayCall mode hist op →
        ∃ t, Traced.step z s op = some t ∧ Sim mode (hist ++ [op]) t :=
      fun _ _ _ hsim hok hmay => sim_step z hsim hok hmay
    have hmay : ∀ pre op post, ops = pre ++ op :: post → MayCall mode pre op :=
      fun pre op post he => hcond.imp_right fun hlinked a ha => hlinked pre a post (ha ▸ he)
    obtain ⟨s, hr, hsim⟩ := run_history (Traced.step z) hstep ops (sim_new hm) hlim hmay
    exact ⟨s, hr, hsim.agrees z⟩

/-- Mapping a page, unmapping it and unmapping its neighbour is within the limits. -/
theorem refines_iff_unmapsLinked_pair :
    Refines ⟨12, 12, 2^40, 1⟩ .longModeNormal [.map 0x1000 (.page 7), .unmap 0x1000, .unmap 0x2000] := by
  refine (refines_iff_unmapsLinked ⟨12, 12, 2^40, 1⟩ (by decide) ?_).mpr (.inr ?_)
  · exact ⟨⟨by decide, fun _ => by decide⟩, fun _ _ =>
      ⟨⟨by decide, fun h => by cases h⟩, fun _ _ => ⟨⟨by decide, fun h => by cases h⟩, fun _ _ => trivial⟩⟩⟩
  · intro pre a post he
    have hpage : PagingOp.map 0x1000 (.page 7) ∈ pre ∧ getBitValue a 39 47 = 0 := by
      rcases pre with - | ⟨x, - | ⟨y, - | ⟨w, pre⟩⟩⟩ <;> simp at he
      · obtain ⟨rfl, rfl, -⟩ := he
        exact ⟨mem_cons_self, by decide⟩
      · obtain ⟨rfl, -, rfl, -⟩ := he
        exact ⟨mem_cons_self, by decide⟩
    exact ⟨0x1000, .page 7, hpage.1, hpage.2.symm⟩

/-- Unmapping an address of an empty structure dereferences null. -/
theorem unmap_empty_not_refines : ¬ Refines ⟨12, 12, 2^40, 1⟩ .longModeNormal [.unmap 0] := by
  rintro ⟨s, hr, -⟩
  cases hr

end Shma.PageTable.LongModePaging
