import Shma.PageTable.Pae
import Shma.PageTable.Tables

/-!
# What the PAE operations do

Under the tree invariant `map_page_table` and `unmap_page_table` each write one
leaf, the one `slotOf` names. A walk answers for that leaf, except that a
`SETDIRTY` request to a DRAM block marks an entry of the wrong table or of an
index that was never assigned.
-/
namespace Shma.PageTable

open Lib
open PageTables (ensure)

def isPae : PagingStyle → Bool
  | .paeNormal | .paeHuge => true
  | _ => false

theorem isPae_iff {mode : PagingStyle} : isPae mode ↔ mode = .paeNormal ∨ mode = .paeHuge := by
  cases mode <;> simp [isPae]

theorem two_bits_lt (addr : Address) : getBitValue addr 30 31 < 4 := getBitValue_lt addr 30 31

namespace PAEPaging

open PageTables

variable {p : PAEPaging}

/-- The tree invariant at the depth of the structure's own mode; the root has four
entries. -/
structure Inv (p : PAEPaging) : Prop where
  mode : isPae p.mode
  tree : p.tables.Inv (depth p.mode) 4 512

def translate (p : PAEPaging) (addr : Address) : Option Target :=
  p.tables.translate (dirs addr p.mode) (leafOff addr p.mode)

theorem inv_new {mode : PagingStyle} (h : isPae mode) : (new mode).Inv := ⟨h, PageTables.inv_new _ _ _⟩

theorem translate_new (mode : PagingStyle) (addr : Address) : (new mode).translate addr = none :=
  PageTables.translate_new _ _ _

def CanMap (p : PAEPaging) : Prop :=
  (p.mode = .paeNormal → p.curPtNum < 512) ∧ (p.mode = .paeHuge → p.curPdtNum < 4)

theorem leafOff_lt {mode : PagingStyle} (h : isPae mode) (addr : Address) :
    leafOff addr mode < if dirs addr mode = [] then 4 else 512 := by
  rcases isPae_iff.mp h with rfl | rfl
  · show getBitValue addr 21 20 < 512
    exact (getBitValue_lt addr 21 20).trans (by decide)
  · exact nine_bits_lt addr 21

/-- The counters after a walk with creation: its last table is counted in `cur_pt_num`, whatever it
is. -/
structure Grown (p p' : PAEPaging) (path : List Nat) : Prop where
  pdt : p'.curPdtNum = p.curPdtNum + if path.length = 1 then 0 else p.tables.tables.missing coding 0 path 1
  pt : p'.curPtNum = p.curPtNum + p.tables.tables.missing coding 0 path path.length

section Allocate

attribute [local simp] Radix.Tables.missing Radix.Tables.descend coding

variable {n i j : Nat} (hi : p.tables.Inv n 4 512) (h1 : i < 4)
include hi h1

theorem allocatePdt_eq (hd : 0 < n) (hn : p.curPdtNum < 4) :
    ∃ p', p.allocatePdt i = some (p', (ensure 512 p.tables 0 [i]).1,
        (ensure 512 p.tables 0 [i]).2.tables.fresh - p.tables.tables.fresh) ∧
      p'.tables = (ensure 512 p.tables 0 [i]).2 ∧ p'.mode = p.mode ∧ Grown p p' [i] := by
  unfold allocatePdt
  rcases hi.level (p := []) rfl h1 hd with ⟨u, hc, hnext, -⟩ | ⟨hc, hnext, -, -, hlink⟩
  · rw [ensure_cons_some hc]
    refine ⟨p, ?_, rfl, rfl, ?_⟩
    · simp [h1, hn, hnext, ensure]
    · constructor <;> simp [hc]
  · rw [ensure_cons_none hc]
    refine ⟨{ p with tables := p.tables.graft 0 i 512, curPtNum := p.curPtNum + 1 }, ?_, rfl, rfl, ?_⟩
    · simp [h1, hn, hnext, hlink, ensure]
    · constructor <;> simp [hc]

theorem allocatePageTable_eq (hd : 1 < n) (h2 : j < 512) (hm : p.mode = .paeNormal) (hn : p.curPtNum < 512) :
    ∃ p', p.allocatePageTable i j = some (p', (ensure 512 p.tables 0 [i, j]).1,
        (ensure 512 p.tables 0 [i, j]).2.tables.fresh - p.tables.tables.fresh) ∧
      p'.tables = (ensure 512 p.tables 0 [i, j]).2 ∧ p'.mode = p.mode ∧ Grown p p' [i, j] := by
  have hd0 : 0 < n := by omega
  unfold allocatePageTable
  rcases hi.level (p := []) rfl h1 hd0 with ⟨t, hc, hnext, -, ht⟩ | ⟨hc, hnext, -, -, hlink⟩
  · rw [ensure_cons_some hc]
    rcases hi.level ht h2 hd with ⟨u, hc', hnext', -⟩ | ⟨hc', hnext', -, -, hlink⟩
    · rw [ensure_cons_some hc']
      refine ⟨p, ?_, rfl, rfl, ?_⟩
      · simp [hm, hn, hnext, hnext', ensure]
      · constructor <;> simp [hc, hc']
    · rw [ensure_cons_none hc']
      refine ⟨{ p with tables := p.tables.graft t j 512, curPtNum := p.curPtNum + 1 }, ?_, rfl, rfl, ?_⟩
      · simp [hm, hn, hnext, hnext', hlink, ensure]
      · constructor <;> simp [hc, hc']
  · obtain ⟨hi1, ht, hblank⟩ := hi.linkNew (p := []) rfl hd0 hc
    rw [ensure_cons_none hc, ensure_cons_none (hblank j)]
    refine ⟨{ p with tables := (p.tables.graft 0 i 512).graft p.tables.tables.fresh j 512,
                     curPtNum := p.curPtNum + 1, curPdtNum := p.curPdtNum + 1 }, ?_, rfl, rfl, ?_⟩
    · simp [hm, hn, hnext, hlink, hi1.linkNewTable_eq ht h2, ensure]
      omega
    · constructor <;> simp [hc]

end Allocate

theorem finishMap_eq (z : Zinfo) (hi : p.Inv) (addr : Address) (tg : Target) {p' : PAEPaging}
    (ht : p'.tables = (ensure 512 p.tables 0 (dirs addr p.mode)).2) (n : Nat) :
    finishMap z (leafOff addr p.mode) tg tg.isBlock (p', (ensure 512 p.tables 0 (dirs addr p.mode)).1, n) =
      some ({ p' with tables := p.tables.mapAt 512 (dirs addr p.mode) (leafOff addr p.mode) tg },
        z.memAccessTime * (1 + n),
        if (p.translate addr).isSome then none
        else some ((ensure 512 p.tables 0 (dirs addr p.mode)).1, leafOff addr p.mode)) := by
  have hleaf := hi.tree.mapLeaf_ensure (dirs_length addr p.mode) (leafOff_lt hi.mode addr) tg
  simp only [finishMap, ht, hleaf, map_some]
  rfl

section

variable (z : Zinfo) (hi : p.Inv) (hn : p.CanMap) (addr : Address) (tg : Target)
include z hi hn addr tg

theorem mapPageTable_eq_finishMap (pbuffer : Bool) :
    ∃ p1, p.mapPageTable z addr tg pbuffer =
        finishMap z (leafOff addr p.mode) tg pbuffer
          (p1, (ensure 512 p.tables 0 (dirs addr p.mode)).1,
            (ensure 512 p.tables 0 (dirs addr p.mode)).2.tables.fresh - p.tables.tables.fresh) ∧
      p1.tables = (ensure 512 p.tables 0 (dirs addr p.mode)).2 ∧ p1.mode = p.mode ∧
      Grown p p1 (dirs addr p.mode) := by
  have h30 := two_bits_lt addr
  have h21 : getBitValue addr 21 29 < 512 := nine_bits_lt addr 21
  have htree := hi.tree
  rcases isPae_iff.mp hi.mode with hm | hm <;> rw [hm] at htree ⊢
  · obtain ⟨p1, hp1, ht1, hm1, hg1⟩ := allocatePageTable_eq htree h30 (by decide) h21 hm (hn.1 hm)
    refine ⟨p1, ?_, ht1, hm1.trans hm, hg1⟩
    simp [mapPageTable, hm, getPageDirectoryPointerOff, getPageDirectoryOff, hp1, leafOff, dirs]
  · obtain ⟨p1, hp1, ht1, hm1, hg1⟩ := allocatePdt_eq htree h30 (by decide) (hn.2 hm)
    refine ⟨p1, ?_, ht1, hm1.trans hm, hg1⟩
    simp [mapPageTable, hm, getPageDirectoryPointerOff, getPageDirectoryOff, hp1, leafOff, dirs]

theorem mapPageTable_eq :
    ∃ p' latency, p.mapPageTable z addr tg tg.isBlock = some (p', latency,
        if (p.translate addr).isSome then none
        else some ((ensure 512 p.tables 0 (dirs addr p.mode)).1, leafOff addr p.mode)) ∧
      p'.tables = p.tables.mapAt 512 (dirs addr p.mode) (leafOff addr p.mode) tg ∧ p'.mode = p.mode := by
  obtain ⟨p1, hp1, ht1, hm1, -⟩ := mapPageTable_eq_finishMap z hi hn addr tg tg.isBlock
  rw [finishMap_eq z hi addr tg ht1] at hp1
  exact ⟨_, _, hp1, rfl, hm1⟩

theorem mapPageTable_spec :
    ∃ p' latency entry, p.mapPageTable z addr tg tg.isBlock = some (p', latency, entry) ∧
      entry.isSome = (p.translate addr).isNone ∧ p'.Inv ∧ p'.mode = p.mode ∧
      ∀ b, p'.translate b = if slotOf b p.mode = slotOf addr p.mode then some tg else p.translate b := by
  obtain ⟨p', latency, hr, ht, hm⟩ := mapPageTable_eq z hi hn addr tg
  obtain ⟨hinv, htr⟩ := hi.tree.mapAt (dirs_length addr p.mode) (leafOff addr p.mode) tg
  refine ⟨p', latency, _, hr, ?_, ⟨?_, ?_⟩, hm, ?_⟩
  · cases p.translate addr <;> rfl
  · rw [hm]; exact hi.mode
  · rw [hm, ht]; exact hinv
  · intro b
    simp only [translate, hm, ht, slotOf, Prod.mk.injEq]
    exact htr _ _ (dirs_length b _)

end

theorem canMap_of_mapPageTable {z : Zinfo} {addr : Address} {tg : Target} {pbuffer : Bool}
    {r : PAEPaging × Nat × Option (Nat × Nat)} (hr : p.mapPageTable z addr tg pbuffer = some r) : p.CanMap := by
  refine ⟨fun hm => ?_, fun hm => ?_⟩
  · by_contra hn
    simp [mapPageTable, hm, allocatePageTable, hn] at hr
  · by_contra hn
    simp [mapPageTable, hm, allocatePdt, hn] at hr

theorem depth_pos (h : isPae p.mode) : ([] : List Nat).length < depth p.mode := by
  rcases isPae_iff.mp h with hm | hm <;> rw [hm] <;> decide

theorem unmapPageTable_spec (hi : p.Inv) (addr : Address) :
    ∃ p' done, p.unmapPageTable addr = some (p', done) ∧ p'.Inv ∧ p'.mode = p.mode ∧
      ∀ b, p'.translate b = if slotOf b p.mode = slotOf addr p.mode then none else p.translate b := by
  have h21 : getBitValue addr 21 29 < 512 := nine_bits_lt addr 21
  obtain ⟨hinv, htr⟩ := hi.tree.unmapAt (dirs_length addr p.mode) (leafOff addr p.mode)
  -- every branch ends with the tables of `unmapAt`, which does nothing without a table
  suffices hclear : ∃ done, p.unmapPageTable addr =
      some ({ p with tables := p.tables.unmapAt (dirs addr p.mode) (leafOff addr p.mode) }, done) by
    obtain ⟨done, hr⟩ := hclear
    refine ⟨_, done, hr, ⟨hi.mode, hinv⟩, rfl, fun b => ?_⟩
    simp only [translate, slotOf, Prod.mk.injEq]
    exact htr _ _
  have hnone : p.tables.descend (dirs addr p.mode) = none →
      ({ p with tables := p.tables.unmapAt (dirs addr p.mode) (leafOff addr p.mode) } : PAEPaging) = p :=
    fun hd => by rw [unmapAt_of_descend_none hd]
  have hsome : ∀ t, p.tables.descend (dirs addr p.mode) = some t →
      p.tables.invalidatePage t (leafOff addr p.mode) = _ :=
    fun t ht => hi.tree.invalidatePage_eq ht (leafOff_lt hi.mode addr)
  have htree := hi.tree
  have hroot := hi.tree.nextTable_root (two_bits_lt addr) (depth_pos hi.mode)
  rcases isPae_iff.mp hi.mode with hm | hm <;> rw [hm] at htree hnone hsome ⊢
  · cases hd : p.tables.descend [getBitValue addr 30 31] with
    | none =>
      have hd' : p.tables.descend (dirs addr .paeNormal) = none := descend_append_none hd [_]
      refine ⟨false, ?_⟩
      simp [unmapPageTable, hm, getPageDirectoryPointerOff, hroot, hd, hnone hd']
    | some t =>
      have hnext : p.tables.nextTable t (getBitValue addr 21 29) =
          some (p.tables.descend (dirs addr .paeNormal)) := htree.nextTable_descend hd h21 (by simp [depth])
      cases hd' : p.tables.descend (dirs addr .paeNormal) with
      | none =>
        refine ⟨false, ?_⟩
        simp [unmapPageTable, hm, getPageDirectoryPointerOff, getPageDirectoryOff, hroot, hd, hnext, hd',
          hnone hd']
      | some u =>
        have hclear : p.tables.invalidatePage u (getPagetableOff addr .paeNormal) = _ := hsome u hd'
        refine ⟨true, ?_⟩
        simp [unmapPageTable, hm, getPageDirectoryPointerOff, getPageDirectoryOff, hroot, hd, hnext, hd', hclear]
  · cases hd : p.tables.descend [getBitValue addr 30 31] with
    | none =>
      refine ⟨false, ?_⟩
      simp [unmapPageTable, hm, getPageDirectoryPointerOff, hroot, hd, hnone hd]
    | some t =>
      have hclear : p.tables.invalidatePage t (getBitValue addr 21 29) = _ := hsome t hd
      refine ⟨true, ?_⟩
      simp [unmapPageTable, hm, getPageDirectoryPointerOff, getPageDirectoryOff, hroot, hd, hclear]

/-- A walk that goes on with a null pointer gets `INVALID_PAGE_ADDR`, which is the
fault signal. -/
theorem walkLeaf_eq_finishAccess (z : Zinfo) (h : PageTables) (f : Frames) (req : MemReq) (t i pgt : Nat)
    (pgId : Option Nat) : walkLeaf z h f req t i pgt pgId =
      (h.pointToBufferTable t i).bind fun pbuffer => (h.getNextLevelAddress t i).bind fun ptr =>
        finishAccess z h f req pgt ptr pgId pbuffer := by
  refine congrArg _ (funext fun pbuffer => congrArg _ (funext fun ptr => ?_))
  cases ptr <;> rfl

/-- A walk of a missing table faults; a walk to a leaf ends with `walkLeaf`. With
huge pages the entry to be marked dirty is sought in the root. -/
theorem access_cases (z : Zinfo) (hi : p.Inv) (f : Frames) (req : MemReq) :
    (p.tables.descend (dirs req.lineAddr p.mode) = none ∧
      p.access z f req = some ⟨pageFaultSig, req, p.tables, f⟩) ∨
    ∃ t n, p.tables.descend (dirs req.lineAddr p.mode) = some t ∧
      p.access z f req = walkLeaf z p.tables f (req.after z n) t (leafOff req.lineAddr p.mode)
        (if p.mode = .paeHuge then 0 else t)
        (if p.mode = .paeHuge then some (getBitValue req.lineAddr 21 29) else none) := by
  have h21 : getBitValue req.lineAddr 21 29 < 512 := nine_bits_lt req.lineAddr 21
  have hroot := hi.tree.nextTable_root (two_bits_lt req.lineAddr) (depth_pos hi.mode)
  have htree := hi.tree
  rcases isPae_iff.mp hi.mode with hm | hm <;> rw [hm] at htree ⊢
  · cases hd : p.tables.descend [getBitValue req.lineAddr 30 31] with
    | none =>
      refine .inl ⟨descend_append_none hd [_], ?_⟩
      simp [access, hm, getPageDirectoryPointerOff, hroot, hd]
    | some t =>
      have hnext : p.tables.nextTable t (getBitValue req.lineAddr 21 29) =
          some (p.tables.descend (dirs req.lineAddr .paeNormal)) :=
        htree.nextTable_descend hd h21 (by simp [depth])
      cases hd' : p.tables.descend (dirs req.lineAddr .paeNormal) with
      | none =>
        refine .inl ⟨rfl, ?_⟩
        simp [access, hm, getPageDirectoryPointerOff, getPageDirectoryOff, hroot, hd, hnext, hd']
      | some u =>
        refine .inr ⟨u, 4, rfl, ?_⟩
        rw [walkLeaf_eq_finishAccess]
        simp [access, hm, getPageDirectoryPointerOff, getPageDirectoryOff, hroot, hd, hnext, hd', leafOff]
  · cases hd : p.tables.descend [getBitValue req.lineAddr 30 31] with
    | none =>
      refine .inl ⟨hd, ?_⟩
      simp [access, hm, getPageDirectoryPointerOff, hroot, hd]
    | some t =>
      refine .inr ⟨t, 3, hd, ?_⟩
      simp [access, hm, getPageDirectoryPointerOff, getPageDirectoryOff, hroot, hd, leafOff]

theorem access_answers {z : Zinfo} (hi : p.Inv) {f : Frames} {req : MemReq} {w : Walk}
    (hw : p.access z f req = some w) :
    w.Answers z f req (p.translate req.lineAddr) p.tables (depth p.mode) 4 512 := by
  rcases access_cases z hi f req with ⟨hd, ha⟩ | ⟨t, n, hd, ha⟩
  · obtain rfl := mem_unique ha hw
    rw [translate, translate_of_descend_none hd]
    exact Walk.answers_fault hi.tree ⟨rfl, rfl, rfl⟩
  · exact walkLeaf_answers hi.tree (MemReq.sameButCycle_after z req n) hd (dirs_length _ _)
      (leafOff_lt hi.mode _) (ha.symm.trans hw)

/-- A walk returns unless it is to mark a DRAM block dirty and the entry for it is
not in the root. -/
theorem access_isSome_iff (z : Zinfo) (hi : p.Inv) (f : Frames) (req : MemReq) :
    (p.access z f req).isSome ↔
      (req.type = .setdirty → ∀ tg, p.translate req.lineAddr = some tg → tg.isBlock →
        p.mode = .paeHuge ∧ getBitValue req.lineAddr 21 29 < 4) := by
  rcases access_cases z hi f req with ⟨hd, ha⟩ | ⟨t, n, hd, ha⟩
  · have hnone : p.translate req.lineAddr = none := translate_of_descend_none hd _
    simp [ha, hnone]
  · rw [ha, walkLeaf_isSome_iff hi.tree (MemReq.sameButCycle_after z req n) hd (dirs_length _ _)
      (leafOff_lt hi.mode _)]
    by_cases hm : p.mode = .paeHuge
    · simp [hm, PageTables.get, hi.tree.root_count, translate]
    · simp [hm, translate]

end PAEPaging

end Shma.PageTable
