import Shma.PageTable.Normal
import Shma.PageTable.Tables

/-!
# What the legacy operations do

Mapping writes the one leaf that `slotOf` names and a walk answers for it, as in
the other modes. Unmapping works with 4 MB pages only.
-/
namespace Shma.PageTable

open Lib

def isLegacy : PagingStyle → Bool
  | .legacyNormal | .legacyHuge => true
  | _ => false

theorem isLegacy_iff {mode : PagingStyle} : isLegacy mode ↔ mode = .legacyNormal ∨ mode = .legacyHuge := by
  cases mode <;> simp [isLegacy]

namespace NormalPaging

open PageTables

variable {p : NormalPaging}

structure Inv (p : NormalPaging) : Prop where
  mode : isLegacy p.mode
  tree : p.tables.Inv (depth p.mode) 1024 1024

def translate (p : NormalPaging) (addr : Address) : Option Target :=
  p.tables.translate (dirs addr p.mode) (leafOff addr p.mode)

theorem inv_new {mode : PagingStyle} (h : isLegacy mode) : (new mode).Inv := ⟨h, PageTables.inv_new _ _ _⟩

theorem translate_new (mode : PagingStyle) (addr : Address) : (new mode).translate addr = none :=
  PageTables.translate_new _ _ _

theorem leafOff_lt {mode : PagingStyle} (h : isLegacy mode) (addr : Address) :
    leafOff addr mode < if dirs addr mode = [] then 1024 else 1024 := by
  rcases isLegacy_iff.mp h with rfl | rfl
  · exact ten_bits_lt addr 12
  · exact ten_bits_lt addr 22

def CanMap (p : NormalPaging) (addr : Address) : Prop :=
  p.mode = .legacyHuge ∨ p.curPageTableNum ≤ 1024 ∨ (p.tables.descend [getBitValue addr 22 31]).isSome

theorem allocateOnePagetable_eq {i : Nat} (hi : p.tables.Inv 1 1024 1024) (h1 : i < 1024)
    (hm : p.mode = .legacyNormal) (hn : p.curPageTableNum ≤ 1024 ∨ (p.tables.descend [i]).isSome) :
    ∃ p', p.allocateOnePagetable i = some (p', (ensure 1024 p.tables 0 [i]).1,
        (ensure 1024 p.tables 0 [i]).2.tables.fresh - p.tables.tables.fresh) ∧
      p'.tables = (ensure 1024 p.tables 0 [i]).2 ∧ p'.mode = p.mode := by
  unfold allocateOnePagetable
  rcases hi.level (p := []) rfl h1 (by decide) with ⟨u, hc, hnext, -⟩ | ⟨hc, hnext, -, hnone, hlink⟩
  · rw [ensure_cons_some hc]
    refine ⟨p, ?_, rfl, rfl⟩
    simp [hnext, ensure]
  · rw [List.nil_append] at hnone
    have hn : p.curPageTableNum ≤ 1024 := hn.resolve_right (by simp [hnone])
    rw [ensure_cons_none hc]
    refine ⟨{ p with tables := p.tables.graft 0 i 1024, curPageTableNum := p.curPageTableNum + 1 }, ?_, rfl, rfl⟩
    simp [hnext, hn, hm, hlink, ensure]

section

variable (z : Zinfo) (hi : p.Inv) {addr : Address} (hn : p.CanMap addr) (tg : Target)
include hi hn

theorem mapPageTable_eq : ∃ p' latency, p.mapPageTable z addr tg tg.isBlock = some (p', latency,
        if (p.translate addr).isSome then none
        else some ((ensure 1024 p.tables 0 (dirs addr p.mode)).1, leafOff addr p.mode)) ∧
      p'.tables = p.tables.mapAt 1024 (dirs addr p.mode) (leafOff addr p.mode) tg ∧ p'.mode = p.mode := by
  have h22 : getBitValue addr 22 31 < 1024 := ten_bits_lt addr 22
  have hleaf := hi.tree.mapLeaf_ensure (dirs_length addr p.mode) (leafOff_lt hi.mode addr) tg
  have htree := hi.tree
  unfold translate
  rcases isLegacy_iff.mp hi.mode with hm | hm <;> rw [hm] at htree hleaf ⊢
  · have hn : p.curPageTableNum ≤ 1024 ∨ (p.tables.descend [getBitValue addr 22 31]).isSome := by
      simpa [CanMap, hm] using hn
    obtain ⟨p1, hp1, ht1, hm1⟩ := allocateOnePagetable_eq htree h22 hm hn
    refine ⟨{ p1 with tables := _ }, z.memAccessTime * (1 + ((ensure 1024 p.tables 0
      [getBitValue addr 22 31]).2.tables.fresh - p.tables.tables.fresh)), ?_, rfl, hm1.trans hm⟩
    have hoff : getPagetableOff addr p1.mode = leafOff addr .legacyNormal := by rw [hm1, hm]; rfl
    simp only [dirs] at hleaf
    simp only [mapPageTable, hm, getPageDirectoryOff, hp1, ht1, hoff, hleaf, bind_eq_bind,
      bind_some, pure_def]
    rfl
  · refine ⟨{ p with tables := _ }, z.memAccessTime, ?_, rfl, hm⟩
    simp only [dirs, leafOff, ensure] at hleaf
    simp only [mapPageTable, hm, hleaf, bind_eq_bind, bind_some, pure_def]
    rfl

theorem mapPageTable_spec :
    ∃ p' latency entry, p.mapPageTable z addr tg tg.isBlock = some (p', latency, entry) ∧
      entry.isSome = (p.translate addr).isNone ∧ p'.Inv ∧ p'.mode = p.mode ∧
      ∀ b, p'.translate b = if slotOf b p.mode = slotOf addr p.mode then some tg else p.translate b := by
  obtain ⟨p', latency, hr, ht, hm⟩ := mapPageTable_eq z hi hn tg
  obtain ⟨hinv, htr⟩ := hi.tree.mapAt (dirs_length addr p.mode) (leafOff addr p.mode) tg
  refine ⟨p', latency, _, hr, ?_, ⟨?_, ?_⟩, hm, ?_⟩
  · cases p.translate addr <;> rfl
  · rw [hm]; exact hi.mode
  · rw [hm, ht]; exact hinv
  · intro b
    simp only [translate, hm, ht, slotOf, Prod.mk.injEq]
    exact htr _ _ (dirs_length b _)

end

theorem canMap_of_mapPageTable {z : Zinfo} (hi : p.Inv) {addr : Address} {tg : Target} {pbuffer : Bool}
    {r : NormalPaging × Nat × Option (Nat × Nat)} (hr : p.mapPageTable z addr tg pbuffer = some r) :
    p.CanMap addr := by
  by_contra hno
  simp only [CanMap, not_or] at hno
  obtain ⟨hhuge, hnum, hroot⟩ := hno
  have hm := (isLegacy_iff.mp hi.mode).resolve_right hhuge
  have htree := hi.tree
  rw [hm] at htree
  have hnext := htree.nextTable_root (ten_bits_lt addr 22) (by decide)
  rw [not_isSome_iff_eq_none.mp hroot] at hnext
  simp [mapPageTable, hm, allocateOnePagetable, getPageDirectoryOff, hnext, hnum] at hr

theorem access_spec (z : Zinfo) (hi : p.Inv) (f : Frames) (req : MemReq) :
    ∃ w, p.access z f req = some w ∧
      w.Answers z f req (p.translate req.lineAddr) p.tables (depth p.mode) 1024 1024 := by
  have h22 : getBitValue req.lineAddr 22 31 < 1024 := ten_bits_lt req.lineAddr 22
  have hb := leafOff_lt hi.mode req.lineAddr
  -- the end of the walk, once the leaf's table is known
  have hleaf : ∀ {t} n, p.tables.descend (dirs req.lineAddr p.mode) = some t →
      ∃ w, walkLeaf z p.tables f (req.after z n) t (leafOff req.lineAddr p.mode) t
          (some (leafOff req.lineAddr p.mode)) = some w ∧
        w.Answers z f req (p.translate req.lineAddr) p.tables (depth p.mode) 1024 1024 := by
    intro t n ht
    exact walkLeaf_own hi.tree (MemReq.sameButCycle_after z req n) ht (dirs_length _ _) hb
  rcases isLegacy_iff.mp hi.mode with hm | hm
  · have hnext := hi.tree.nextTable_root h22 (by rw [hm]; decide)
    cases hd : p.tables.descend [getBitValue req.lineAddr 22 31] with
    | none =>
      refine ⟨⟨pageFaultSig, req, p.tables, f⟩, by simp [access, hm, getPageDirectoryOff, hnext, hd], ?_⟩
      have hnone : p.translate req.lineAddr = none := by
        rw [translate, hm]
        exact translate_of_descend_none hd _
      rw [hnone]
      exact Walk.answers_fault hi.tree ⟨rfl, rfl, rfl⟩
    | some t =>
      obtain ⟨w, hw, ha⟩ := hleaf (t := t) 2 (by rw [hm]; exact hd)
      refine ⟨w, ?_, ha⟩
      simpa [access, hm, getPageDirectoryOff, hnext, hd, leafOff] using hw
  · obtain ⟨w, hw, ha⟩ := hleaf (t := 0) 3 (by rw [hm]; rfl)
    refine ⟨w, ?_, ha⟩
    simpa [access, hm, leafOff] using hw

end NormalPaging

end Shma.PageTable
