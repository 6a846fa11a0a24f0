import Shma.Lib.Run
import Shma.PageTable.LongMode
import Shma.PageTable.Tables

/-!
# Long-mode paging refines a finite map

Under the tree invariant the three `allocate_*` functions are one walk with
creation, so `map_page_table` changes one leaf. `unmap_page_table` does the same
unless the `pml4` entry is empty and another level follows: `get_tables` then
dereferences a null pointer.
-/
namespace Shma.PageTable.LongModePaging

open Lib PageTables
open PageTables (descend ensure)

variable {p : LongModePaging} {depth : Nat}

abbrev TreeInv (p : LongModePaging) (depth : Nat) : Prop := p.tables.Inv depth 512 512

/-- The counters have followed the tables that a walk with creation links. -/
structure Grown (p p' : LongModePaging) (path : List Nat) : Prop where
  pdp : p'.curPdpNum = p.curPdpNum + p.tables.tables.missing coding 0 path 1
  pd : p'.curPdNum = p.curPdNum + p.tables.tables.missing coding 0 path 2
  pt : p'.curPtNum = p.curPtNum + p.tables.tables.missing coding 0 path 3

section Allocate

attribute [local simp] Radix.Tables.missing Radix.Tables.descend coding

variable (hi : p.TreeInv depth) {i j k : Nat} (h1 : i < 512)
include hi h1

theorem allocatePageDirectoryPointer_eq (hd : 0 < depth) (hn : p.curPdpNum < 512) :
    ∃ p', p.allocatePageDirectoryPointer i = some (p', some (ensure 512 p.tables 0 [i]).1,
        (ensure 512 p.tables 0 [i]).2.tables.fresh - p.tables.tables.fresh) ∧
      p'.tables = (ensure 512 p.tables 0 [i]).2 ∧ p'.mode = p.mode ∧ Grown p p' [i] := by
  unfold allocatePageDirectoryPointer
  rcases hi.level (p := []) rfl h1 hd with ⟨u, hc, hnext, hpres, -⟩ | ⟨hc, -, hpres, -, hlink⟩
  · rw [ensure_cons_some hc]
    refine ⟨p, ?_, rfl, rfl, ?_⟩
    · simp [h1, hn, hpres, hnext, ensure]
    · constructor <;> simp [hc]
  · rw [ensure_cons_none hc]
    refine ⟨{ p with tables := p.tables.graft 0 i 512, curPdpNum := p.curPdpNum + 1 }, ?_, rfl, rfl, ?_⟩
    · simp [h1, hn, hpres, hlink, ensure]
    · constructor <;> simp [hc]

variable (h2 : j < 512)
include h2

theorem allocatePageDirectory_eq (hd : 1 < depth) (hn : (p.tables.descend [i]).isSome ∨ p.curPdpNum < 512) :
    ∃ p', p.allocatePageDirectory i j = some (p', some (ensure 512 p.tables 0 [i, j]).1,
        (ensure 512 p.tables 0 [i, j]).2.tables.fresh - p.tables.tables.fresh) ∧
      p'.tables = (ensure 512 p.tables 0 [i, j]).2 ∧ p'.mode = p.mode ∧ Grown p p' [i, j] := by
  have hd0 : 0 < depth := by omega
  unfold allocatePageDirectory
  rcases hi.level (p := []) rfl h1 hd0 with ⟨t, hc, hnext, -, ht⟩ | ⟨hc, hnext, -, hnone, -⟩
  · rw [ensure_cons_some hc]
    rcases hi.level ht h2 hd with ⟨u, hc', hnext', hpres, -⟩ | ⟨hc', -, hpres, -, hlink⟩
    · rw [ensure_cons_some hc']
      refine ⟨p, ?_, rfl, rfl, ?_⟩
      · simp [hnext, hpres, hnext', ensure]
      · constructor <;> simp [hc, hc']
    · rw [ensure_cons_none hc']
      refine ⟨{ p with tables := p.tables.graft t j 512, curPdNum := p.curPdNum + 1 }, ?_, rfl, rfl, ?_⟩
      · simp [hnext, hpres, hlink, ensure]
      · constructor <;> simp [hc, hc']
  · rw [List.nil_append] at hnone
    have hn : p.curPdpNum < 512 := hn.resolve_left (by simp [hnone])
    obtain ⟨p1, hp1, ht1, hm1, hpdp, hpd, hpt⟩ := allocatePageDirectoryPointer_eq hi h1 hd0 hn
    rw [ensure_cons_none hc] at hp1 ht1 ⊢
    obtain ⟨hi1, ht, hblank⟩ := hi.linkNew (p := []) rfl hd0 hc
    have hnext1 := hi1.nextTable_root h1 hd0
    rw [List.nil_append] at ht
    rw [ht] at hnext1
    rw [ensure_cons_none (hblank j)]
    refine ⟨{ p1 with tables := (p.tables.graft 0 i 512).graft p.tables.tables.fresh j 512,
                      curPdNum := p1.curPdNum + 1 }, ?_, rfl, hm1, ?_⟩
    · simp only [ensure] at hp1 ht1 ⊢
      simp [hnext, hp1, ht1, hnext1, hi1.linkNewTable_eq ht h2]
      rw [Nat.add_assoc, Nat.add_sub_cancel_left]
    · constructor <;> simp [hc, hpdp, hpd, hpt]

variable (h3 : k < 512)
include h3

/-- No bound on the number of page-directory-pointer tables is needed: the branch
that creates one does not check it. -/
theorem allocatePageTable_eq (hd : 2 < depth) (hm : p.mode = .longModeNormal) :
    ∃ p', p.allocatePageTable i j k = some (p', some (ensure 512 p.tables 0 [i, j, k]).1,
        (ensure 512 p.tables 0 [i, j, k]).2.tables.fresh - p.tables.tables.fresh) ∧
      p'.tables = (ensure 512 p.tables 0 [i, j, k]).2 ∧ p'.mode = p.mode ∧ Grown p p' [i, j, k] := by
  have hd0 : 0 < depth := by omega
  have hd1 : [i].length < depth := by rw [length_singleton]; omega
  unfold allocatePageTable
  rcases hi.level (p := []) rfl h1 hd0 with ⟨t, hc, hnext, -, ht⟩ | ⟨hc, hnext, -, -, hlink⟩
  · rw [ensure_cons_some hc]
    rcases hi.level ht h2 hd1 with ⟨u, hc', hnext', -, hu⟩ | ⟨hc', hnext', hpres, -, hlink⟩
    · rw [ensure_cons_some hc']
      rcases hi.level hu h3 hd with ⟨v, hc'', hnext'', hpres, -⟩ | ⟨hc'', -, hpres, -, hlink⟩
      · rw [ensure_cons_some hc'']
        refine ⟨p, ?_, rfl, rfl, ?_⟩
        · simp [hm, hnext, hnext', hpres, hnext'', ensure]
        · constructor <;> simp [hc, hc', hc'']
      · rw [ensure_cons_none hc'']
        refine ⟨{ p with tables := p.tables.graft u k 512, curPtNum := p.curPtNum + 1 }, ?_, rfl, rfl, ?_⟩
        · simp [hm, hnext, hnext', hpres, hlink, ensure]
        · constructor <;> simp [hc, hc', hc'']
    · -- the page directory is created by `allocate_page_directory`, under a table that exists
      obtain ⟨hi1, hu, hblank⟩ := hi.linkNew ht hd1 hc'
      have hnext1 := hi1.nextTable_eq (p := [i]) (t := t) (i := j)
        ((hi.wf.descend_graft ht hc' [i]).trans ((if_neg (by simp)).trans ht)) h2 hd1
      rw [child_graft_self] at hnext1
      rw [ensure_cons_none hc', ensure_cons_none (hblank k)]
      refine ⟨{ p with tables := (p.tables.graft t j 512).graft p.tables.tables.fresh k 512,
                       curPdNum := p.curPdNum + 1, curPtNum := p.curPtNum + 1 }, ?_, rfl, rfl, ?_⟩
      · simp [hm, hnext, hnext', allocatePageDirectory, hpres, hlink, hnext1, hi1.linkNewTable_eq hu h3,
          ensure]
        rw [Nat.add_assoc, Nat.add_sub_cancel_left]
      · constructor <;> simp [hc, hc']
  · obtain ⟨hi1, ht, hblank⟩ := hi.linkNew (p := []) rfl hd0 hc
    obtain ⟨hi2, hu, hblank'⟩ := hi1.linkNew ht (i := j) hd1 (hblank j)
    have hlink' := hi2.linkNewTable_eq hu (i := k) (by simp [h3])
    rw [ensure_cons_none hc, ensure_cons_none (hblank j), ensure_cons_none (hblank' k)]
    refine ⟨{ p with tables := _, curPdpNum := p.curPdpNum + 1, curPdNum := p.curPdNum + 1,
                     curPtNum := p.curPtNum + 1 }, ?_, rfl, rfl, ?_⟩
    · simp only [graft_fresh] at hlink' ⊢
      simp [hm, hnext, hlink, hi1.linkNewTable_eq ht h2, hlink', ensure]
      rw [Nat.add_assoc, Nat.add_assoc, Nat.add_sub_cancel_left]
    · constructor <;> simp [hc]

end Allocate

structure Inv (p : LongModePaging) : Prop where
  mode : isLongMode p.mode
  tree : p.TreeInv (PageTable.depth p.mode)

def translate (p : LongModePaging) (addr : Address) : Option Target :=
  p.tables.translate (dirs addr p.mode) (leafOff addr p.mode)

variable {mode : PagingStyle}

theorem inv_new (h : isLongMode mode) : (new mode).Inv :=
  ⟨h, PageTables.inv_new _ _ _⟩

theorem translate_new (mode : PagingStyle) (addr : Address) : (new mode).translate addr = none :=
  PageTables.translate_new _ _ _

theorem leafOff_lt (h : isLongMode mode) (addr : Address) : leafOff addr mode < 512 := by
  rcases isLongMode_iff.mp h with rfl | rfl | rfl
  · exact nine_bits_lt addr 12
  · exact nine_bits_lt addr 21
  · exact nine_bits_lt addr 30

theorem slotOf_eq_iff (h : isLongMode mode) {a b : Nat} (ha : a < 2^48) (hb : b < 2^48) :
    slotOf a mode = slotOf b mode ↔ a >>> mode.pageShift = b >>> mode.pageShift := by
  have h48 : a >>> 48 = b >>> 48 := by rw [Nat.shiftRight_eq_zero a 48 ha, Nat.shiftRight_eq_zero b 48 hb]
  have h39 : a >>> 39 = b >>> 39 ↔ getBitValue a 39 47 = getBitValue b 39 47 :=
    (nine_bits_eq_iff a b 39).trans (and_iff_right h48)
  have h30 : a >>> 30 = b >>> 30 ↔ _ ∧ getBitValue a 30 38 = getBitValue b 30 38 := nine_bits_eq_iff a b 30
  have h21 : a >>> 21 = b >>> 21 ↔ _ ∧ getBitValue a 21 29 = getBitValue b 21 29 := nine_bits_eq_iff a b 21
  have h12 : a >>> 12 = b >>> 12 ↔ _ ∧ getBitValue a 12 20 = getBitValue b 12 20 := nine_bits_eq_iff a b 12
  rcases isLongMode_iff.mp h with rfl | rfl | rfl <;>
    simp only [slotOf, dirs, leafOff, PagingStyle.pageShift, Prod.mk.injEq, List.cons.injEq, and_true, h39, h30, h21,
      h12, and_assoc]

theorem finishMap_eq (z : Zinfo) (hi : p.Inv) (addr : Address) (tg : Target) {p' : LongModePaging}
    (ht : p'.tables = (ensure 512 p.tables 0 (dirs addr p.mode)).2) (n : Nat) :
    finishMap z (leafOff addr p.mode) tg tg.isBlock
        (p', some (ensure 512 p.tables 0 (dirs addr p.mode)).1, n) =
      some ({ p' with tables := p.tables.mapAt 512 (dirs addr p.mode) (leafOff addr p.mode) tg },
        z.memAccessTime * (1 + n),
        if (p.translate addr).isSome then none
        else some ((ensure 512 p.tables 0 (dirs addr p.mode)).1, leafOff addr p.mode)) := by
  have hleaf := hi.tree.mapLeaf_ensure (dirs_length addr p.mode)
    (by rw [ite_self]; exact leafOff_lt hi.mode addr) tg
  simp only [finishMap, ht, hleaf, map_some]
  rfl

def CanMap (p : LongModePaging) (addr : Address) : Prop :=
  p.mode = .longModeNormal ∨ p.curPdpNum < 512 ∨
    p.mode = .longModeMiddle ∧ (p.tables.descend [getBitValue addr 39 47]).isSome

variable {addr : Address}

section

variable (z : Zinfo) (hi : p.Inv) (hn : p.CanMap addr) (tg : Target)
include z hi hn tg

/-- The allocation that `map_page_table` makes in each mode is one walk with
creation along the address's directory indices. -/
theorem mapPageTable_eq_finishMap (pbuffer : Bool) :
    ∃ p1, p.mapPageTable z addr tg pbuffer =
        finishMap z (leafOff addr p.mode) tg pbuffer
          (p1, some (ensure 512 p.tables 0 (dirs addr p.mode)).1,
            (ensure 512 p.tables 0 (dirs addr p.mode)).2.tables.fresh - p.tables.tables.fresh) ∧
      p1.tables = (ensure 512 p.tables 0 (dirs addr p.mode)).2 ∧ p1.mode = p.mode ∧
      Grown p p1 (dirs addr p.mode) := by
  obtain ⟨h39, h30, h21, h12⟩ := indices_lt addr
  have htree := hi.tree
  rcases isLongMode_iff.mp hi.mode with hm | hm | hm <;> rw [hm] at htree ⊢
  · obtain ⟨p1, hp1, ht1, hm1, hg1⟩ := allocatePageTable_eq htree h39 h30 h21 (by decide) hm
    refine ⟨p1, ?_, ht1, hm1.trans hm, hg1⟩
    simp [mapPageTable, hm, getDomains, ne_noOffset h39, ne_noOffset h30, ne_noOffset h21, ne_noOffset h12, hp1, leafOff, dirs]
  · have hn : (p.tables.descend [getBitValue addr 39 47]).isSome ∨ p.curPdpNum < 512 := by
      simpa [CanMap, hm, or_comm] using hn
    obtain ⟨p1, hp1, ht1, hm1, hg1⟩ := allocatePageDirectory_eq htree h39 h30 (by decide) hn
    refine ⟨p1, ?_, ht1, hm1.trans hm, hg1⟩
    simp [mapPageTable, hm, getDomains, ne_noOffset h39, ne_noOffset h30, hp1, leafOff, dirs]
  · have hn : p.curPdpNum < 512 := by simpa [CanMap, hm] using hn
    obtain ⟨p1, hp1, ht1, hm1, hg1⟩ := allocatePageDirectoryPointer_eq htree h39 (by decide) hn
    refine ⟨p1, ?_, ht1, hm1.trans hm, hg1⟩
    simp [mapPageTable, hm, getDomains, ne_noOffset h39, ne_noOffset h30, hp1, leafOff, dirs]

theorem mapPageTable_eq :
    ∃ p' latency, p.mapPageTable z addr tg tg.isBlock = some (p', latency,
        if (p.translate addr).isSome then none
        else some ((ensure 512 p.tables 0 (dirs addr p.mode)).1, leafOff addr p.mode)) ∧
      p'.tables = p.tables.mapAt 512 (dirs addr p.mode) (leafOff addr p.mode) tg ∧ p'.mode = p.mode := by
  obtain ⟨p1, hp1, ht1, hm1, -⟩ := mapPageTable_eq_finishMap z hi hn tg tg.isBlock
  rw [finishMap_eq z hi addr tg ht1] at hp1
  exact ⟨_, _, hp1, rfl, hm1⟩

/-- `map_page_table` writes the leaf of its address, links the tables on the way,
and reports the entry exactly if the page had no target. -/
theorem mapPageTable_spec :
    ∃ p' latency entry, p.mapPageTable z addr tg tg.isBlock = some (p', latency, entry) ∧
      entry.isSome = (p.translate addr).isNone ∧ p'.Inv ∧ p'.mode = p.mode ∧
      (∀ b, p'.translate b = if slotOf b p.mode = slotOf addr p.mode then some tg else p.translate b) ∧
      ∀ q, (p'.tables.descend q).isSome ↔ (p.tables.descend q).isSome ∨ q <+: dirs addr p.mode := by
  obtain ⟨p', latency, hr, ht, hm⟩ := mapPageTable_eq z hi hn tg
  obtain ⟨hinv, htr⟩ := hi.tree.mapAt (dirs_length addr p.mode) (leafOff addr p.mode) tg
  refine ⟨p', latency, _, hr, ?_, ⟨?_, ?_⟩, hm, ?_, ?_⟩
  · cases p.translate addr <;> rfl
  · rw [hm]; exact hi.mode
  · rw [TreeInv, hm, ht]; exact hinv
  · intro b
    simp only [translate, hm, ht, slotOf, Prod.mk.injEq]
    exact htr _ _ (dirs_length b _)
  · rw [ht]
    exact hi.tree.mapAt_descend (dirs_length addr p.mode) _ tg

end

theorem canMap_of_mapPageTable {z : Zinfo} (hi : p.Inv) {tg : Target} {pbuffer : Bool}
    {r : LongModePaging × Nat × Option (Nat × Nat)} (hr : p.mapPageTable z addr tg pbuffer = some r) :
    p.CanMap addr := by
  by_contra hno
  simp only [CanMap, not_or, not_and] at hno
  obtain ⟨hnormal, hnum, hroot⟩ := hno
  obtain ⟨h39, h30, -⟩ := indices_lt addr
  have hpdp : p.allocatePageDirectoryPointer (getBitValue addr 39 47) = none := by
    simp [allocatePageDirectoryPointer, hnum]
  rcases isLongMode_iff.mp hi.mode with hm | hm | hm
  · exact hnormal hm
  · have htree := hi.tree
    rw [hm] at htree
    have hnext := htree.nextTable_eq (p := []) rfl h39 (by decide)
    have hchild : (p.tables.tables.cell 0 (getBitValue addr 39 47)).child = none := by
      simpa [descend, Radix.Tables.descend, coding] using hroot hm
    simp [mapPageTable, hm, getDomains, ne_noOffset h39, ne_noOffset h30, allocatePageDirectory, hnext, hchild, hpdp] at hr
  · simp [mapPageTable, hm, getDomains, ne_noOffset h39, ne_noOffset h30, hpdp] at hr

theorem getTablesLoop_eq (hi : p.TreeInv depth) {r : List Nat} {t : Nat} (ht : p.tables.descend r = some t)
    {ids : List Nat} (hlen : r.length + ids.length ≤ depth) (hb : ∀ i ∈ ids, i < 512) :
    getTablesLoop p.tables (some t) ids = some (p.tables.descend (r ++ ids)) := by
  induction ids generalizing r t with
  | nil => rw [append_nil, ht]; rfl
  | cons i ids ih =>
    rw [length_cons] at hlen
    have hnext := hi.nextTable_eq ht (i := i) (by rw [ite_self]; exact hb i mem_cons_self) (by omega)
    cases hc : (p.tables.tables.cell t i).child with
    | none =>
      have hd : p.tables.descend (r ++ i :: ids) = none := by
        have hr : p.tables.tables.descend coding 0 r = some t := ht
        rw [descend, Radix.Tables.descend_append, hr]
        simp [Radix.Tables.descend, coding, hc]
      simp [getTablesLoop, hnext, hc, hd]
    | some u =>
      have hu : p.tables.descend (r ++ [i]) = some u := Radix.Tables.descend_concat ht hc
      have hrec := ih hu (by rw [length_append, length_singleton]; omega)
        (fun j hj => hb j (mem_cons_of_mem i hj))
      simp [getTablesLoop, hnext, hc, hrec]

theorem getTables_eq (hi : p.TreeInv depth) {i : Nat} {ids : List Nat} (hlen : ids.length < depth)
    (hb : ∀ j ∈ i :: ids, j < 512) :
    p.getTables (i :: ids) =
      if p.tables.descend [i] = none ∧ ids ≠ [] then none else some (p.tables.descend (i :: ids)) := by
  have hnext := hi.nextTable_eq (p := []) rfl (i := i) (hb i mem_cons_self)
    (by rw [List.length_nil]; omega)
  cases hc : (p.tables.tables.cell 0 i).child with
  | none =>
    have hd : p.tables.descend [i] = none := by simp [descend, Radix.Tables.descend, coding, hc]
    cases ids with
    | nil | cons j ids => simp [getTables, hnext, hc, hd, getTablesLoop]
  | some t =>
    have ht : p.tables.descend [i] = some t := Radix.Tables.descend_concat (p := []) rfl hc
    have hloop : getTablesLoop p.tables (some t) ids = some (p.tables.descend ([i] ++ ids)) :=
      getTablesLoop_eq hi ht (by rw [length_singleton]; omega)
        (fun j hj => hb j (mem_cons_of_mem i hj))
    simp [getTables, hnext, hc, hloop, ht]

theorem finishUnmap_eq (hi : p.Inv) (addr : Address) :
    p.finishUnmap (leafOff addr p.mode) (p.tables.descend (dirs addr p.mode)) =
      some ({ p with tables := p.tables.unmapAt (dirs addr p.mode) (leafOff addr p.mode) }, false) := by
  cases hd : p.tables.descend (dirs addr p.mode) with
  | none => simp [finishUnmap, unmapAt_of_descend_none hd]
  | some t =>
    have hclear := hi.tree.invalidatePage_eq hd (i := leafOff addr p.mode)
      (by rw [ite_self]; exact leafOff_lt hi.mode addr)
    simp [finishUnmap, hclear]

section

variable (h : isLongMode mode)
include h

theorem dirs_lt (addr : Address) : ∀ i ∈ dirs addr mode, i < 512 := by
  obtain ⟨h39, h30, h21, -⟩ := indices_lt addr
  rcases isLongMode_iff.mp h with rfl | rfl | rfl
  · simp [dirs, h39, h30, h21]
  · simp [dirs, h39, h30]
  · simp [dirs, h39]

theorem depth_pos : 0 < PageTable.depth mode := by
  rcases isLongMode_iff.mp h with rfl | rfl | rfl <;> decide

theorem one_lt_depth (hm : mode ≠ .longModeHuge) : 1 < PageTable.depth mode := by
  rcases isLongMode_iff.mp h with rfl | rfl | rfl
  · decide
  · decide
  · exact absurd rfl hm

theorem dirs_eq_cons (addr : Address) :
    ∃ ids, dirs addr mode = getBitValue addr 39 47 :: ids ∧ (ids = [] ↔ mode = .longModeHuge) := by
  rcases isLongMode_iff.mp h with rfl | rfl | rfl
  all_goals exact ⟨_, rfl, by simp⟩

end

theorem unmapPageTable_eq_finishUnmap (hm : isLongMode p.mode) (addr : Address) :
    p.unmapPageTable addr =
      (p.getTables (dirs addr p.mode)).bind (p.finishUnmap (leafOff addr p.mode)) := by
  rcases isLongMode_iff.mp hm with hm | hm | hm <;>
    simp [unmapPageTable, hm, getDomains, dirs, leafOff]

/-- `unmap_page_table` dereferences null if the `pml4` entry is empty and
`get_tables` has another level to go. -/
theorem unmapPageTable_eq (hi : p.Inv) (addr : Address) :
    p.unmapPageTable addr =
      if p.mode ≠ .longModeHuge ∧ p.tables.descend [getBitValue addr 39 47] = none then none
      else some ({ p with tables := p.tables.unmapAt (dirs addr p.mode) (leafOff addr p.mode) }, false) := by
  obtain ⟨ids, hdirs, hids⟩ := dirs_eq_cons hi.mode addr
  have hlen : ids.length < PageTable.depth p.mode := by
    rw [← dirs_length addr, hdirs]; exact lt_succ_self _
  have htables := getTables_eq hi.tree (i := getBitValue addr 39 47) hlen (hdirs ▸ dirs_lt hi.mode addr)
  rw [unmapPageTable_eq_finishUnmap hi.mode, hdirs, htables, ← hdirs]
  by_cases hnull : p.mode ≠ .longModeHuge ∧ p.tables.descend [getBitValue addr 39 47] = none
  · rw [if_pos hnull, if_pos ⟨hnull.2, fun h => hnull.1 (hids.mp h)⟩]
    rfl
  · rw [if_neg hnull, if_neg fun h => hnull ⟨fun hm => h.2 (hids.mpr hm), h.1⟩]
    exact finishUnmap_eq hi addr

theorem unmapPageTable_spec (hi : p.Inv) (addr : Address)
    (hroot : p.mode ≠ .longModeHuge → (p.tables.descend [getBitValue addr 39 47]).isSome) :
    ∃ p', p.unmapPageTable addr = some (p', false) ∧ p'.Inv ∧ p'.mode = p.mode ∧
      (∀ b, p'.translate b = if slotOf b p.mode = slotOf addr p.mode then none else p.translate b) ∧
      ∀ q, p'.tables.descend q = p.tables.descend q := by
  have hlinked : ¬ (p.mode ≠ .longModeHuge ∧ p.tables.descend [getBitValue addr 39 47] = none) := by
    rintro ⟨hm, hd⟩
    have hsome := hroot hm
    rw [hd] at hsome
    cases hsome
  obtain ⟨hinv, htr⟩ := hi.tree.unmapAt (dirs_length addr p.mode) (leafOff addr p.mode)
  refine ⟨_, (unmapPageTable_eq hi addr).trans (if_neg hlinked), ⟨hi.mode, hinv⟩, rfl, ?_, ?_⟩
  · intro b
    simp only [translate, slotOf, Prod.mk.injEq]
    exact htr _ _
  · exact hi.tree.unmapAt_descend (dirs_length addr p.mode) _

section

variable (z : Zinfo) (hi : p.Inv) (f : Frames)
include z hi f

theorem access_leaf (req : MemReq) (n : Nat) {t : Nat} (ht : p.tables.descend (dirs req.lineAddr p.mode) = some t) :
    ∃ w, walkLeaf z p.tables f (req.after z n) t (leafOff req.lineAddr p.mode) t
        (some (leafOff req.lineAddr p.mode)) = some w ∧
      w.Answers z f req (p.translate req.lineAddr) p.tables (PageTable.depth p.mode) 512 512 ∧
      ∀ q, w.tables.descend q = p.tables.descend q := by
  have hb : leafOff req.lineAddr p.mode < if dirs req.lineAddr p.mode = [] then 512 else 512 := by
    rw [ite_self]; exact leafOff_lt hi.mode _
  obtain ⟨w, hw, ha⟩ := walkLeaf_own hi.tree (MemReq.sameButCycle_after z req n) ht (dirs_length _ _) hb
  exact ⟨w, hw, ha, walkLeaf_descend hw⟩

theorem access_missing {req req' : MemReq}
    (hs : MemReq.SameButCycle req req') {pre : List Nat} (hpre : pre <+: dirs req.lineAddr p.mode)
    (hd : p.tables.descend pre = none) :
    Walk.Answers z f req (p.translate req.lineAddr) p.tables (PageTable.depth p.mode) 512 512
      ⟨pageFaultSig, req', p.tables, f⟩ := by
  obtain ⟨q, hq⟩ := hpre
  rw [translate, ← hq, translate_of_descend_none (descend_append_none hd q)]
  exact Walk.answers_fault hi.tree hs

theorem access_spec (req : MemReq) :
    ∃ w, p.access z f req = some w ∧
      w.Answers z f req (p.translate req.lineAddr) p.tables (PageTable.depth p.mode) 512 512 ∧
      ∀ q, w.tables.descend q = p.tables.descend q := by
  obtain ⟨h39, h30, h21, h12⟩ := indices_lt req.lineAddr
  have hleaf := @access_leaf p z hi f req
  have hmiss := @access_missing p z hi f req
  have htree := hi.tree
  have hroot := htree.nextTable_root h39 (depth_pos hi.mode)
  cases hd1 : p.tables.descend [getBitValue req.lineAddr 39 47] with
  | none =>
    obtain ⟨ids, hdirs, -⟩ := dirs_eq_cons hi.mode req.lineAddr
    refine ⟨⟨pageFaultSig, req, p.tables, f⟩, ?_, hmiss ⟨rfl, rfl, rfl⟩ (hdirs ▸ ⟨ids, rfl⟩) hd1, fun _ => rfl⟩
    rcases isLongMode_iff.mp hi.mode with hm | hm | hm <;> simp [access, hm, getDomains, hroot, hd1]
  | some t =>
    -- one level after the other, as deep as the mode goes
    rcases isLongMode_iff.mp hi.mode with hm | hm | hm <;> rw [hm] at htree hleaf hmiss ⊢
    · have hnext := htree.nextTable_descend hd1 h30 (by simp [PageTable.depth])
      cases hd2 : p.tables.descend [getBitValue req.lineAddr 39 47, getBitValue req.lineAddr 30 38] with
      | none =>
        refine ⟨⟨pageFaultSig, req, p.tables, f⟩, ?_, hmiss ⟨rfl, rfl, rfl⟩ ⟨_, rfl⟩ hd2, fun _ => rfl⟩
        simp [access, hm, getDomains, hroot, hd1, hnext, hd2]
      | some u =>
        have hnext' : p.tables.nextTable u (getBitValue req.lineAddr 21 29) =
            some (p.tables.descend (dirs req.lineAddr .longModeNormal)) :=
          htree.nextTable_descend hd2 h21 (by simp [PageTable.depth])
        cases hd3 : p.tables.descend (dirs req.lineAddr .longModeNormal) with
        | none =>
          refine ⟨⟨pageFaultSig, req.after z 6, p.tables, f⟩, ?_, hmiss ⟨rfl, rfl, rfl⟩ prefix_rfl hd3,
            fun _ => rfl⟩
          simp [access, hm, getDomains, hroot, hd1, hnext, hd2, hnext', hd3, ne_noOffset h21, ne_noOffset h12]
        | some v =>
          obtain ⟨w, hw, ha⟩ := hleaf 6 hd3
          refine ⟨w, ?_, ha⟩
          simpa [access, hm, getDomains, leafOff, hroot, hd1, hnext, hd2, hnext', hd3, ne_noOffset h21, ne_noOffset h12] using hw
    · have hnext : p.tables.nextTable t (getBitValue req.lineAddr 30 38) =
          some (p.tables.descend (dirs req.lineAddr .longModeMiddle)) :=
        htree.nextTable_descend hd1 h30 (by simp [PageTable.depth])
      cases hd2 : p.tables.descend (dirs req.lineAddr .longModeMiddle) with
      | none =>
        refine ⟨⟨pageFaultSig, req, p.tables, f⟩, ?_, hmiss ⟨rfl, rfl, rfl⟩ prefix_rfl hd2, fun _ => rfl⟩
        simp [access, hm, getDomains, hroot, hd1, hnext, hd2]
      | some u =>
        obtain ⟨w, hw, ha⟩ := hleaf 5 hd2
        refine ⟨w, ?_, ha⟩
        simpa [access, hm, getDomains, leafOff, hroot, hd1, hnext, hd2, ne_noOffset h21] using hw
    · obtain ⟨w, hw, ha⟩ := hleaf 4 hd1
      refine ⟨w, ?_, ha⟩
      simpa [access, hm, getDomains, leafOff, hroot, hd1] using hw

end

end Shma.PageTable.LongModePaging
