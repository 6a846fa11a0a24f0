import Shma.PageTable.FiniteMap
import Shma.PageTable.PaeMap

/-!
# Sequences of PAE calls

With huge pages `PAEPaging` behaves as a finite map, but for `SETDIRTY` requests
to DRAM blocks. With normal pages it does so over no sequence that maps anything:
`get_pagetable_off` takes the empty bit range 21..20, so the 512 pages of one page
table share its first entry.
-/
namespace Shma.PageTable.PAEPaging

open Lib Lib.Run
open FiniteMap (after after_concat)
open PagingStyle (paeHuge paeNormal pageShift)

def step (z : Zinfo) (p : PAEPaging) : PagingOp → Option PAEPaging
  | .map a t => (p.mapPageTable z a t t.isBlock).map (·.1)
  | .unmap a => (p.unmapPageTable a).map (·.1)

/-- Every walk of a 32-bit address returns and answers as the finite map. Walks for
`SETDIRTY` requests are counted only if `dirtyToo` says so. -/
def Agrees (z : Zinfo) (dirtyToo : Bool) (shift : Nat) (p : PAEPaging) (m : FiniteMap) : Prop :=
  ∀ f req, (req.type = .setdirty → dirtyToo) → req.lineAddr < 2^32 →
    ∃ w, p.access z f req = some w ∧
      w.addr = ((m.contents (req.lineAddr >>> shift)).map (Target.ppn z)).getD pageFaultSig

def Refines (z : Zinfo) (dirtyToo : Bool) (mode : PagingStyle) (ops : List PagingOp) : Prop :=
  ∀ pre, pre <+: ops → ∃ p, run (step z) (new mode) pre = some p ∧
    p.Agrees z dirtyToo mode.pageShift (after mode.pageShift pre)

/-- The limits of the class: 32-bit addresses, and tables still to be had before
each `map`. No frame has the number of the fault signal. -/
def WithinLimits (z : Zinfo) (p : PAEPaging) (op : PagingOp) : Prop :=
  op.addr < 2^32 ∧ (op.isMap → p.CanMap) ∧ ∀ a tg, op = .map a tg → tg.ppn z ≠ pageFaultSig

theorem slotOf_huge_eq_iff {a b : Nat} (ha : a < 2^32) (hb : b < 2^32) :
    slotOf a .paeHuge = slotOf b .paeHuge ↔
      a >>> paeHuge.pageShift = b >>> paeHuge.pageShift := by
  simp only [slotOf, dirs, leafOff, getPageDirectoryOff, getBitValue_eq, pageShift,
    shiftRight_eq_div_pow, Prod.mk.injEq, List.cons.injEq, and_true]
  omega

theorem exists_slotOf_normal_eq {a : Nat} (ha : a < 2^32) :
    ∃ b < 2^32, slotOf b .paeNormal = slotOf a .paeNormal ∧
      b >>> paeNormal.pageShift ≠ a >>> paeNormal.pageShift := by
  have hleaf : ∀ n, getBitValue n 21 20 = 0 := fun n => lt_one_iff.mp (getBitValue_lt n 21 20)
  have hnear : ∃ b : Nat, b < 2^32 ∧ b / 2^21 = a / 2^21 ∧ b / 2^12 ≠ a / 2^12 := by
    by_cases h0 : a / 2^12 % 2 = 0
    · exact ⟨a + 2^12, by omega, by omega, by omega⟩
    · exact ⟨a - 2^12, by omega, by omega, by omega⟩
  obtain ⟨b, hb, hregion, hpage⟩ := hnear
  refine ⟨b, hb, ?_, ?_⟩
  · simp only [slotOf, dirs, leafOff, getPagetableOff, hleaf, getBitValue_eq, Prod.mk.injEq, List.cons.injEq,
      and_true]
    omega
  · simpa only [pageShift, shiftRight_eq_div_pow] using hpage

structure Sim (mode : PagingStyle) (hist : List PagingOp) (p : PAEPaging) : Prop where
  inv : p.Inv
  mode_eq : p.mode = mode
  huge : mode = .paeHuge → ∀ a < 2^32, p.translate a =
    (after mode.pageShift hist).contents (a >>> mode.pageShift)
  unmapped : (∀ op ∈ hist, op.isMap = false) → ∀ a, p.translate a = none

variable {mode : PagingStyle}

theorem sim_new (h : isPae mode) : Sim mode [] (new mode) :=
  ⟨inv_new h, rfl, fun _ a _ => translate_new mode a, fun _ a => translate_new mode a⟩

variable {hist : List PagingOp} {p : PAEPaging}

theorem sim_map (z : Zinfo) (h : Sim mode hist p) {a : Address} (ha : a < 2^32) (hn : p.CanMap) (tg : Target) :
    ∃ p', p.step z (.map a tg) = some p' ∧ Sim mode (hist ++ [.map a tg]) p' ∧
      ∀ b, slotOf b mode = slotOf a mode → p'.translate b = some tg := by
  obtain ⟨p', latency, entry, hr, -, hinv, hmode, htr⟩ := mapPageTable_spec z h.inv hn a tg
  rw [h.mode_eq] at htr
  refine ⟨p', by rw [step, hr]; rfl, ⟨hinv, hmode.trans h.mode_eq, ?_, ?_⟩, fun b hb => ?_⟩
  · rintro rfl b hb
    rw [htr, h.huge rfl b hb, after_concat]
    simp only [slotOf_huge_eq_iff hb ha, FiniteMap.step, update_apply]
  · intro hno
    cases hno (.map a tg) (by simp)
  · rw [htr, if_pos hb]

variable {z : Zinfo}

theorem sim_unmap (h : Sim mode hist p) {a : Address} (ha : a < 2^32) :
    ∃ p', p.step z (.unmap a) = some p' ∧ Sim mode (hist ++ [.unmap a]) p' := by
  obtain ⟨p', done, hr, hinv, hmode, htr⟩ := unmapPageTable_spec h.inv a
  rw [h.mode_eq] at htr
  refine ⟨p', by rw [step, hr]; rfl, hinv, hmode.trans h.mode_eq, ?_, ?_⟩
  · rintro rfl b hb
    rw [htr, h.huge rfl b hb, after_concat]
    simp only [slotOf_huge_eq_iff hb ha, FiniteMap.step, update_apply]
  · intro hno b
    rw [htr, h.unmapped (fun op hop => hno op (mem_append_left _ hop)), ite_self]

variable {op : PagingOp}

theorem sim_step (z : Zinfo) (h : Sim mode hist p) (hok : WithinLimits z p op) :
    ∃ p', p.step z op = some p' ∧ Sim mode (hist ++ [op]) p' := by
  cases op with
  | map a tg =>
    obtain ⟨p', hr, hsim, -⟩ := sim_map z h hok.1 (hok.2.1 rfl) tg
    exact ⟨p', hr, hsim⟩
  | unmap a => exact sim_unmap h hok.1

variable {ops : List PagingOp}

theorem run_sim (z : Zinfo) (hm : isPae mode) (hlim : AllSteps (step z) (WithinLimits z) (new mode) ops) :
    ∃ p, run (step z) (new mode) ops = some p ∧ Sim mode ops p := by
  have hstep : ∀ hist p op, Sim mode hist p → WithinLimits z p op → True →
      ∃ p', step z p op = some p' ∧ Sim mode (hist ++ [op]) p' := fun _ _ _ h hok _ => sim_step z h hok
  exact run_history (step z) hstep ops (sim_new hm) hlim fun _ _ _ _ => trivial

section Cases

variable {z : Zinfo} {dirtyToo : Bool} {mode : PagingStyle} {hist : List PagingOp} {p : PAEPaging}

/-- With huge pages the structure agrees with the map unless a DRAM block is mapped
under a directory index that the root does not have. -/
theorem Sim.agrees_huge (h : Sim .paeHuge hist p)
    (hroot : ∀ a < 2^32, ∀ tg, dirtyToo → p.translate a = some tg → tg.isBlock → getBitValue a 21 29 < 4) :
    p.Agrees z dirtyToo paeHuge.pageShift (after paeHuge.pageShift hist) := by
  intro f req htype hreq
  have hsome : (p.access z f req).isSome := by
    rw [access_isSome_iff z h.inv]
    exact fun hd tg htg hblock => ⟨h.mode_eq, hroot _ hreq tg (htype hd) htg hblock⟩
  obtain ⟨w, hw⟩ := isSome_iff_exists.mp hsome
  refine ⟨w, hw, ?_⟩
  rw [← h.huge rfl _ hreq]
  exact (access_answers h.inv hw).addr

theorem Sim.agrees_unmapped (h : Sim mode hist p) (hno : ∀ op ∈ hist, op.isMap = false) :
    p.Agrees z dirtyToo mode.pageShift (after mode.pageShift hist) := by
  intro f req _ _
  have hnone := h.unmapped hno req.lineAddr
  have hsome : (p.access z f req).isSome := by
    rw [access_isSome_iff z h.inv, hnone]
    exact fun _ tg htg => by cases htg
  obtain ⟨w, hw⟩ := isSome_iff_exists.mp hsome
  refine ⟨w, hw, ?_⟩
  have haddr := (access_answers h.inv hw).addr
  rw [hnone] at haddr
  rw [FiniteMap.contents_after_of_unmapped hno]
  exact haddr

variable {a : Address} {tg : Target}

theorem not_agrees_normal (h : Sim .paeNormal hist p) (hno : ∀ op ∈ hist, op.isMap = false) (ha : a < 2^32) (hn : p.CanMap) (htg : tg.ppn z ≠ pageFaultSig) {p' : PAEPaging}
    (hr : p.step z (.map a tg) = some p') :
    ¬ p'.Agrees z dirtyToo paeNormal.pageShift
      (after paeNormal.pageShift (hist ++ [.map a tg])) := by
  intro hagree
  obtain ⟨p'', hr', hsim, hleaf⟩ := sim_map z h ha hn tg
  obtain rfl : p'' = p' := mem_unique hr' hr
  obtain ⟨b, hb, hslot, hpage⟩ := exists_slotOf_normal_eq ha
  obtain ⟨w, hw, haddr⟩ := hagree ⟨Mmu.MemMap.new 0, fun _ => .new⟩
    { lineAddr := b, type := .gets, childId := 0, cycle := 0 } (fun hd => by cases hd) hb
  have hans := (access_answers hsim.inv hw).addr
  have hcontents : (after paeNormal.pageShift (hist ++ [.map a tg])).contents
      (b >>> paeNormal.pageShift) = none := by
    rw [after_concat]
    exact (update_of_ne hpage _ _).trans (FiniteMap.contents_after_of_unmapped hno _)
  rw [hcontents] at haddr
  rw [hleaf b hslot, haddr] at hans
  exact htg hans.symm

/-- A `SETDIRTY` request to a DRAM block needs its directory index to be one of the
root's. -/
theorem root_of_agrees_huge (h : Sim .paeHuge hist p) {m : FiniteMap} {shift : Nat}
    (hagree : p.Agrees z true shift m) (ha : a < 2^32) (htr : p.translate a = some tg)
    (hblock : tg.isBlock) : getBitValue a 21 29 < 4 := by
  obtain ⟨w, hw, -⟩ := hagree ⟨Mmu.MemMap.new 0, fun _ => .new⟩
    { lineAddr := a, type := .setdirty, childId := 0, cycle := 0 } (fun _ => rfl) ha
  have hsome := (access_isSome_iff z h.inv _ _).mp (isSome_of_eq_some hw)
  exact (hsome rfl tg htr hblock).2

theorem root_of_maps (h : Sim .paeHuge hist p)
    (hcond : ∀ a tg, PagingOp.map a tg ∈ hist → dirtyToo → tg.isBlock → getBitValue a 21 29 < 4) :
    ∀ a < 2^32, ∀ tg, dirtyToo → p.translate a = some tg → tg.isBlock → getBitValue a 21 29 < 4 := by
  intro a ha tg hd htr hblock
  rw [h.huge rfl a ha] at htr
  obtain ⟨b, hb, hpage⟩ := FiniteMap.exists_map_of_contents htr
  have hidx : getBitValue a 21 29 = getBitValue b 21 29 := by
    rw [getBitValue_eq, getBitValue_eq, ← shiftRight_eq_div_pow, ← shiftRight_eq_div_pow]
    exact congrArg (· % _) hpage.symm
  exact hidx ▸ hcond b tg hb hd hblock

end Cases

theorem run_to_call (hm : isPae mode) {pre post : List PagingOp} (hlim : AllSteps (step z) (WithinLimits z) (new mode) ops) (hops : ops = pre ++ op :: post) :
    ∃ p p', Sim mode pre p ∧ WithinLimits z p op ∧ p.step z op = some p' ∧ Sim mode (pre ++ [op]) p' ∧
      run (step z) (new mode) (pre ++ [op]) = some p' := by
  subst hops
  obtain ⟨hpre, hrest⟩ := (allSteps_append (step z)).mp hlim
  obtain ⟨p, hr, hsim⟩ := run_sim z hm hpre
  have hok : WithinLimits z p op := (hrest p hr).1
  obtain ⟨p', hs, hsim'⟩ := sim_step z hsim hok
  refine ⟨p, p', hsim, hok, hs, hsim', ?_⟩
  rw [run_append, hr]
  simp [run_cons, hs]

theorem unmapped_of_refines {dirtyToo : Bool}
    (hlim : AllSteps (step z) (WithinLimits z) (new .paeNormal) ops) (href : Refines z dirtyToo .paeNormal ops) :
    ∀ op ∈ ops, op.isMap = false := by
  apply forall_mem_of_before
  intro pre op post hsplit hno
  obtain ⟨p, p', hsim, hok, hs, -, hr⟩ := run_to_call (by decide) hlim hsplit
  cases op with
  | unmap a => rfl
  | map a tg =>
    have hprefix : pre ++ [.map a tg] <+: ops := ⟨post, by rw [hsplit, append_assoc, List.singleton_append]⟩
    obtain ⟨p1, hr1, hagree⟩ := href _ hprefix
    obtain rfl : p' = p1 := mem_unique hr hr1
    exact absurd hagree (not_agrees_normal hsim hno hok.1 (hok.2.1 rfl) (hok.2.2 a tg rfl) hs)

/-- Over any sequence of calls within the limits, PAE paging is the finite map after
every call exactly if each page mapped is a huge one. For `SETDIRTY` requests to be
answered too, DRAM blocks may be mapped under the first four directory indices
only. -/
theorem refines_iff_hugePages (z : Zinfo) (dirtyToo : Bool) {mode : PagingStyle} (hm : isPae mode)
    {ops : List PagingOp} (hlim : AllSteps (step z) (WithinLimits z) (new mode) ops) :
    Refines z dirtyToo mode ops ↔
      ∀ a tg, PagingOp.map a tg ∈ ops →
        mode = .paeHuge ∧ (dirtyToo → tg.isBlock → getBitValue a 21 29 < 4) := by
  constructor
  · intro href a tg hmem
    rcases isPae_iff.mp hm with rfl | rfl
    · cases unmapped_of_refines hlim href _ hmem
    · refine ⟨rfl, fun hd hblock => ?_⟩
      subst hd
      obtain ⟨pre, post, hops⟩ := List.append_of_mem hmem
      obtain ⟨p, p', hsim, hok, hs, hsim', hr⟩ := run_to_call hm hlim hops
      obtain ⟨p1, hr1, hagree⟩ := href (pre ++ [.map a tg]) ⟨post, by rw [hops]; simp⟩
      obtain rfl : p' = p1 := mem_unique hr hr1
      obtain ⟨p2, hs2, -, hleaf⟩ := sim_map z hsim hok.1 (hok.2.1 rfl) tg
      obtain rfl : p2 = p' := mem_unique hs2 hs
      exact root_of_agrees_huge hsim' hagree hok.1 (hleaf a rfl) hblock
  · rintro hcond pre ⟨post, rfl⟩
    obtain ⟨p, hr, hsim⟩ := run_sim z hm ((allSteps_append (step z)).mp hlim).1
    have hmaps : ∀ a tg, PagingOp.map a tg ∈ pre → _ := fun a tg h => hcond a tg (mem_append_left post h)
    refine ⟨p, hr, ?_⟩
    rcases isPae_iff.mp hm with rfl | rfl
    · refine hsim.agrees_unmapped fun op hop => ?_
      cases op with
      | unmap a => rfl
      | map a tg => cases (hmaps a tg hop).1
    · exact hsim.agrees_huge (root_of_maps hsim fun a tg h => (hmaps a tg h).2)

/-- Mapping a DRAM block at address 0 and unmapping it again, with huge pages. -/
theorem refines_iff_hugePages_block :
    Refines ⟨21, 21, 2^32, 1⟩ true .paeHuge [.map 0 (.block 3), .unmap 0, .unmap 0x200000] := by
  refine (refines_iff_hugePages ⟨21, 21, 2^32, 1⟩ true (by decide) ?_).mpr ?_
  · refine ⟨⟨by decide, fun _ => ⟨by decide, by decide⟩, ?_⟩, fun _ _ => ⟨⟨by decide, ?_, ?_⟩, fun _ _ =>
      ⟨⟨by decide, ?_, ?_⟩, fun _ _ => trivial⟩⟩⟩
    · rintro _ _ ⟨⟩
      decide
    all_goals simp [PagingOp.isMap]
  · intro a tg hmem
    obtain ⟨rfl, rfl⟩ : a = 0 ∧ tg = .block 3 := by simpa using hmem
    exact ⟨rfl, fun _ _ => by decide⟩

/-- With normal pages, mapping address 0 to frame 7 makes a walk of `0x1000` return
frame 7. -/
theorem map_neighbour_not_refines : ¬ Refines ⟨12, 12, 2^32, 1⟩ false .paeNormal [.map 0 (.page 7)] := by
  intro href
  have hlim : AllSteps (step ⟨12, 12, 2^32, 1⟩) (WithinLimits ⟨12, 12, 2^32, 1⟩) (new .paeNormal)
      [.map 0 (.page 7)] := by
    refine ⟨⟨by decide, fun _ => ⟨by decide, by decide⟩, ?_⟩, fun _ _ => trivial⟩
    rintro _ _ ⟨⟩
    decide
  cases unmapped_of_refines hlim href _ mem_cons_self

end Shma.PageTable.PAEPaging
