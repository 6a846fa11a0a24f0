import Shma.PageTable.NormalRefine

/-!
# Ranges of page tables in legacy paging

`allocate_page_table(addr, size)` links a page table for each directory entry of its range. Its
counterpart `remove_page_table(addr, size)` works on one directory entry only, at twice the number
that the address has.
-/
namespace Shma.PageTable.NormalPaging

open Lib Lib.Run PageTables

variable {p p' : NormalPaging}

/-- With 4 KB pages, `cur_page_table_num` is the number of directory entries in use. -/
structure Good (p : NormalPaging) : Prop where
  inv : p.Inv
  mode : p.mode = .legacyNormal
  counted : p.linked.card = p.curPageTableNum

theorem good_new : Good (new .legacyNormal) := by
  refine ⟨inv_new rfl, rfl, ?_⟩
  show (new .legacyNormal).linked.card = 0
  rw [Finset.card_eq_zero, Finset.eq_empty_iff_forall_notMem]
  intro i hi
  have hsome := (mem_linked.mp hi).2
  cases hsome

namespace Good

theorem tree (hg : Good p) : p.tables.Inv 1 1024 1024 := by
  have htree := hg.inv.tree
  rw [hg.mode] at htree
  exact htree

theorem count_le (hg : Good p) : p.curPageTableNum ≤ 1024 := hg.counted ▸ p.card_linked_le

/-! ### Linking -/

variable {i : Nat}

theorem links (hg : Good p) (h1 : i < 1024) (htree : p'.tables.Inv 1 1024 1024) (hm : p'.mode = p.mode)
    (hl : Links p.tables p'.tables (· = [i]))
    (hnum : p'.curPageTableNum = p.curPageTableNum + if (p.tables.descend [i]).isSome then 0 else 1) : Good p' := by
  have hmode := hm.trans hg.mode
  refine ⟨⟨by rw [hmode]; rfl, by rw [hmode]; exact htree⟩, hmode, ?_⟩
  rw [linked_of_links h1 hl, card_insert_linked p h1, hg.counted, hnum]

theorem allocateOnePagetable (hg : Good p) (h1 : i < 1024) :
    ∃ p' table n, p.allocateOnePagetable i = some (p', table, n) ∧ Good p' ∧
      Links p.tables p'.tables (· = [i]) := by
  obtain ⟨p', hp', ht, hm⟩ := allocateOnePagetable_eq hg.tree h1 hg.mode (.inl hg.count_le)
  have hl : Links p.tables p'.tables (· = [i]) := ht ▸ hg.tree.links_ensure (le_refl 1)
  have htree : p'.tables.Inv 1 1024 1024 := ht ▸ (hg.tree.ensure_spec (le_refl 1)).1
  exact ⟨p', _, _, hp', hg.links h1 htree hm hl (allocateOnePagetable_tableNum hp' hg.tree h1), hl⟩

theorem mapPageTable (hg : Good p) (z : Zinfo) (addr : Address) (tg : Target) :
    ∃ p' latency entry, p.mapPageTable z addr tg tg.isBlock = some (p', latency, entry) ∧ Good p' := by
  obtain ⟨p', latency, hp', ht, hm⟩ := mapPageTable_eq z hg.inv (.inr (.inl hg.count_le)) tg
  have hmap := hg.inv.tree.mapAt (dirs_length addr p.mode) (leafOff addr p.mode) tg
  have hl := hg.inv.tree.links_mapAt (dirs_length addr p.mode) (leafOff addr p.mode) tg
  have hnum := mapPageTable_tableNum hp' hg.inv hg.mode
  rw [← ht, hg.mode] at hmap hl
  exact ⟨p', latency, _, hp', hg.links (ten_bits_lt addr 22) hmap.1 hm hl hnum⟩

theorem allocateOnePagetable_lt (hg : Good p) (h : (p.allocateOnePagetable i).isSome) : i < 1024 := by
  by_contra hge
  have hget := hg.tree.get_eq_none (p := []) rfl (Nat.not_lt.mp hge)
  simp [NormalPaging.allocateOnePagetable, nextTable, getNextLevelAddress, hget] at h

theorem allocateEach (n : Nat) : ∀ {p : NormalPaging} {k : Nat}, Good p → k + n ≤ 1024 →
    ∃ p', p.allocateEach k n = some p' ∧ Good p' ∧
      Links p.tables p'.tables fun r => ∃ m, k ≤ m ∧ m < k + n ∧ r = [m] := by
  induction n with
  | zero =>
    intro p k hg _
    exact ⟨p, rfl, hg, (Links.refl p.tables).congr fun r => iff_of_false id (not_slots_zero _ k r)⟩
  | succ n ih =>
    intro p k hg hk
    obtain ⟨p1, table, time, hp1, hg1, hl1⟩ := hg.allocateOnePagetable (by omega : k < 1024)
    obtain ⟨p2, hp2, hg2, hl2⟩ := ih hg1 (by omega : k + 1 + n ≤ 1024)
    refine ⟨p2, ?_, hg2, (hl1.trans hl2).congr (slots_succ (fun m => [m]) k n)⟩
    simp [NormalPaging.allocateEach, hp1, hp2]

theorem of_allocateEach (n : Nat) : ∀ {p : NormalPaging} {k : Nat}, Good p → p.allocateEach k n = some p' → Good p' := by
  induction n with
  | zero =>
    intro p k hg h
    exact some_inj.mp h ▸ hg
  | succ n ih =>
    intro p k hg h
    obtain ⟨⟨p1, table, time⟩, hp1, hrest⟩ := bind_eq_some_iff.mp h
    have hk := hg.allocateOnePagetable_lt (isSome_of_eq_some hp1)
    obtain ⟨p2, _, _, hp2, hg2, -⟩ := hg.allocateOnePagetable hk
    obtain rfl : p2 = p1 := congrArg Prod.fst (mem_unique hp2 hp1)
    exact ih hg2 hrest

/-! ### Unlinking -/

theorem removePageTable (hg : Good p) (h1 : i < 1024) :
    ∃ p' removed, p.removePageTable i = some (p', removed) ∧ Good p' ∧ Unlinks p.tables p'.tables (· = [i]) := by
  have hroot : p.tables.descend [] = some 0 := rfl
  have hpresent := hg.tree.isPresent_eq hroot h1 (Nat.zero_lt_one)
  rw [← descend_concat hroot] at hpresent
  cases hchild : p.tables.descend [i] with
  | none =>
    refine ⟨p, false, by simp [NormalPaging.removePageTable, hg.mode, hpresent, hchild], hg, fun r q hr hpre => ?_,
      fun _ _ => rfl⟩
    obtain ⟨s, rfl⟩ := hpre
    exact hr ▸ descend_append_none hchild s
  | some t =>
    have hlinked : (p.tables.descend ([] ++ [i])).isSome := isSome_of_eq_some hchild
    have hcut := hg.tree.invalidateEntry_eq hroot i h1 Nat.zero_lt_one hlinked
    have hd := hg.tree.descend_prune hroot i
    let p1 : NormalPaging := { p with tables := p.tables.prune 0 i, curPageTableNum := decrement p.curPageTableNum }
    have hset : p1.linked = p.linked.erase i := by
      ext j
      have hj : p1.tables.descend [j] = if i = j then none else p.tables.descend [j] := by
        rw [show p1.tables.descend [j] = _ from hd [j]]
        simp
      rw [Finset.mem_erase, mem_linked, mem_linked, hj]
      by_cases hij : i = j
      · simp [hij]
      · simp [hij, Ne.symm hij]
    have hmem : i ∈ p.linked := mem_linked.mpr ⟨h1, isSome_of_eq_some hchild⟩
    have hcard := Finset.card_erase_add_one hmem
    refine ⟨p1, true, by simp [NormalPaging.removePageTable, hg.mode, hpresent, hchild, hcut, p1],
      ⟨⟨hg.inv.mode, ?_⟩, hg.mode, ?_⟩, .of_descend hd⟩
    · rw [show p1.mode = .legacyNormal from hg.mode]
      exact hg.tree.prune hroot i
    · show p1.linked.card = decrement p.curPageTableNum
      rw [hset, ← hg.counted, decrement, if_neg (by omega)]
      omega

theorem removePageTable_lt (hg : Good p) (h : (p.removePageTable i).isSome) : i < 1024 := by
  by_contra hge
  have hget := hg.tree.get_eq_none (p := []) rfl (Nat.not_lt.mp hge)
  simp [NormalPaging.removePageTable, isPresent, hget] at h

theorem removeEach (h1 : i < 1024) (n : Nat) : ∀ {p : NormalPaging}, Good p →
    ∃ p' succeed, p.removeEach i n = some (p', succeed) ∧ Good p' ∧
      Unlinks p.tables p'.tables fun r => 0 < n ∧ r = [i] := by
  induction n with
  | zero =>
    intro p hg
    exact ⟨p, true, rfl, hg, (Unlinks.refl p.tables).congr fun r => by simp⟩
  | succ n ih =>
    intro p hg
    obtain ⟨p1, removed, hp1, hg1, hu1⟩ := hg.removePageTable h1
    obtain ⟨p2, succeed, hp2, hg2, hu2⟩ := ih hg1
    refine ⟨p2, removed && succeed, ?_, hg2, (hu1.trans hu2).congr fun r => ?_⟩
    · simp [NormalPaging.removeEach, hp1, hp2]
    · simp

theorem removeEach_lt (hg : Good p) {i n : Nat} (h : (p.removeEach i n).isSome) (hn : 0 < n) : i < 1024 := by
  obtain ⟨m, rfl⟩ := Nat.exists_eq_add_of_lt hn
  obtain ⟨r, hr⟩ := isSome_iff_exists.mp h
  obtain ⟨r1, hr1, -⟩ := bind_eq_some_iff.mp hr
  exact hg.removePageTable_lt (isSome_of_eq_some hr1)

end Good

/-! ### Reachable states -/

inductive TableOp where
  | map (addr : Address) (pgPtr : Target)
  | unmap (addr : Address)
  | allocatePageTable (addr size : Address)
  | removePageTable (addr size : Address)
  | removeEntry (pdId : Nat)

def tableStep (z : Zinfo) (p : NormalPaging) : TableOp → Option NormalPaging
  | .map addr pgPtr => (p.mapPageTable z addr pgPtr pgPtr.isBlock).map (·.1)
  | .unmap addr => (p.unmapPageTable addr).map (·.1)
  | .allocatePageTable addr size => (p.allocatePageTableRange addr size).map (·.1)
  | .removePageTable addr size => (p.removePageTableRange addr size).map (·.1)
  | .removeEntry pdId => (p.removePageTable pdId).map (·.1)

theorem Good.step (hg : Good p) {z : Zinfo} {op : TableOp} (h : p.tableStep z op = some p') : Good p' := by
  cases op with
  | map addr pgPtr =>
    obtain ⟨p1, _, _, hp1, hg1⟩ := hg.mapPageTable z addr pgPtr
    rw [tableStep, hp1] at h
    exact some_inj.mp h ▸ hg1
  | unmap addr =>
    rw [tableStep, unmapPageTable_normal hg.inv hg.mode] at h
    exact some_inj.mp h ▸ hg
  | allocatePageTable addr size =>
    obtain ⟨⟨p1, b⟩, hp1, rfl⟩ := map_eq_some_iff.mp h
    obtain ⟨-, hp1⟩ := assertThat_bind_eq_some.mp hp1
    obtain ⟨p2, hp2, heq⟩ := bind_eq_some_iff.mp hp1
    cases heq
    exact Good.of_allocateEach _ hg hp2
  | removePageTable addr size =>
    obtain ⟨⟨p1, b⟩, hp1, rfl⟩ := map_eq_some_iff.mp h
    obtain ⟨-, hp1⟩ := assertThat_bind_eq_some.mp hp1
    rcases Nat.eq_zero_or_pos (pageNum addr) with hn | hn
    · rw [hn] at hp1
      cases hp1
      exact hg
    · have hlt := hg.removeEach_lt (isSome_of_eq_some hp1) hn
      obtain ⟨p2, _, hp2, hg2, -⟩ := Good.removeEach hlt (pageNum addr) hg
      obtain rfl : p2 = p1 := congrArg Prod.fst (mem_unique hp2 hp1)
      exact hg2
  | removeEntry pdId =>
    obtain ⟨⟨p1, b⟩, hp1, rfl⟩ := map_eq_some_iff.mp h
    obtain ⟨p2, _, hp2, hg2, -⟩ := hg.removePageTable (hg.removePageTable_lt (isSome_of_eq_some hp1))
    obtain rfl : p2 = p1 := congrArg Prod.fst (mem_unique hp2 hp1)
    exact hg2

theorem good_of_run {z : Zinfo} {ops : List TableOp} (hr : run (tableStep z) (new .legacyNormal) ops = some p) :
    Good p :=
  run_invariant_of_step (tableStep z) (fun _ _ _ hg hp' => hg.step hp') ops good_new hr

/-! ### Ranges -/

theorem aligned_iff (addr : Address) : addr &&& 0x3fffff = 0 ↔ addr % 2^22 = 0 := by
  rw [show 0x3fffff = 2^22 - 1 from rfl, Nat.and_two_pow_sub_one_eq_mod]

variable {addr size : Nat}

theorem covers_iff (haddr : addr % 2^22 = 0) (hsize : addr + size ≤ 2^32) (r : List Nat) :
    (∃ m, getBitValue addr 22 31 ≤ m ∧ m < getBitValue addr 22 31 + pageNum size ∧ r = [m]) ↔
      Covers .legacyNormal addr size r := by
  simp only [Covers, dirs, getBitValue_eq, pageNum, shiftRight_eq_div_pow]
  constructor
  · rintro ⟨m, hle, hlt, rfl⟩
    refine ⟨m * 2^22, by omega, by omega, ?_⟩
    congr 1
    omega
  · rintro ⟨a, hle, hlt, rfl⟩
    exact ⟨_, by omega, by omega, rfl⟩

theorem range_le (haddr : addr % 2^22 = 0) (hlt : addr < 2^32) (hsize : addr + size ≤ 2^32) :
    getBitValue addr 22 31 + pageNum size ≤ 1024 := by
  rw [getBitValue_eq, pageNum]
  omega

section

variable (hg : Good p)
include hg

theorem Good.allocatePageTableRange (haddr : addr % 2^22 = 0) (hlt : addr < 2^32) (hsize : addr + size ≤ 2^32) :
    ∃ p', p.allocatePageTableRange addr size = some (p', true) ∧ Good p' ∧
      Links p.tables p'.tables (Covers .legacyNormal addr size) := by
  obtain ⟨p', hp', hg', hl⟩ := Good.allocateEach (pageNum size) hg (range_le haddr hlt hsize)
  refine ⟨p', ?_, hg', hl.congr (covers_iff haddr hsize)⟩
  simp [NormalPaging.allocatePageTableRange, hg.mode, (aligned_iff addr).mpr haddr, getPageDirectoryOff, hp']

theorem removePageTableRange_eq {addr : Nat} (haddr : addr % 2^22 = 0) (hlt : addr < 2^32) (size : Nat) :
    p.removePageTableRange addr size = p.removeEach (2 * (addr / 2^22)) (addr / 2^22) := by
  have hnum : pageNum addr = addr / 2^22 := by
    rw [pageNum]
    omega
  have hslot : (getPageDirectoryOff addr .legacyNormal + addr / 2^22) % 2^32 = 2 * (addr / 2^22) := by
    rw [getPageDirectoryOff, getBitValue_eq]
    omega
  rw [NormalPaging.removePageTableRange, assertThat_true ⟨hg.mode, (aligned_iff addr).mpr haddr⟩, bind_eq_bind,
    bind_some, hg.mode, hnum, hslot]

theorem Good.removePageTableRange {addr : Nat} (haddr : addr % 2^22 = 0) (hlt : addr < 2^32)
    (hslot : 2 * (addr / 2^22) < 1024) (size : Nat) :
    ∃ p' succeed, p.removePageTableRange addr size = some (p', succeed) ∧ Good p' ∧
      Unlinks p.tables p'.tables fun r => 0 < addr / 2^22 ∧ r = [2 * (addr / 2^22)] := by
  rw [removePageTableRange_eq hg haddr hlt]
  exact Good.removeEach hslot _ hg

theorem Good.removePageTableRange_lt (haddr : addr % 2^22 = 0) (hlt : addr < 2^32)
    (h : (p.removePageTableRange addr size).isSome) : 2 * (addr / 2^22) < 1024 := by
  rw [removePageTableRange_eq hg haddr hlt] at h
  rcases Nat.eq_zero_or_pos (addr / 2^22) with hzero | hpos
  · omega
  · exact hg.removeEach_lt h hpos

/-- The range calls do as they should only on an empty range, and there only if the entry at twice
the number of the address is not in use. -/
theorem Good.touchesExactly_iff (haddr : addr % 2^22 = 0) (hlt : addr < 2^32) (hsize : addr + size ≤ 2^32) :
    TouchesExactly tables (NormalPaging.allocatePageTableRange · addr size)
        (NormalPaging.removePageTableRange · addr size) (Covers .legacyNormal addr size) p ↔
      size = 0 ∧ (addr = 0 ∨ 2 * (addr / 2^22) < 1024 ∧ p.tables.descend [2 * (addr / 2^22)] = none) := by
  obtain ⟨p1, hp1, hg1, hl⟩ := hg.allocatePageTableRange haddr hlt hsize
  constructor
  · rintro ⟨p', b, p'', b', hp', -, hp'', hu⟩
    obtain rfl : p1 = p' := congrArg Prod.fst (mem_unique hp1 hp')
    have hslot := hg1.removePageTableRange_lt haddr hlt (isSome_of_eq_some hp'')
    obtain ⟨p2, _, hp2, -, hu2⟩ := hg1.removePageTableRange haddr hlt hslot size
    obtain rfl : p2 = p'' := congrArg Prod.fst (mem_unique hp2 hp'')
    -- the entry of the address itself is linked, and not the one that is removed
    have hempty : size = 0 := by
      by_contra hne
      have hcover := covers_self .legacyNormal addr (Nat.pos_of_ne_zero hne)
      have hlinked := (hl.linked _).mpr (.inr ⟨_, hcover, prefix_rfl⟩)
      rw [← hu2.kept _ ?_, hu.gone _ _ hcover prefix_rfl] at hlinked
      · cases hlinked
      · rintro r ⟨hpos, rfl⟩ hpre
        have heq := (List.cons_prefix_cons.mp hpre).1
        rw [getBitValue_eq] at heq
        omega
    subst hempty
    refine ⟨rfl, or_iff_not_imp_left.mpr fun hne => ⟨hslot, ?_⟩⟩
    have hpos : 0 < addr / 2^22 := by omega
    have hnone := hu2.gone _ _ ⟨hpos, rfl⟩ prefix_rfl
    rw [hu.kept _ fun r hr => absurd hr (not_covers_zero _ _ r)] at hnone
    by_contra hsome
    rw [hl.kept _ (isSome_iff_ne_none.mpr hsome)] at hnone
    exact hsome hnone
  · rintro ⟨rfl, hfree⟩
    have hslot : 2 * (addr / 2^22) < 1024 := by
      rcases hfree with rfl | ⟨hslot, -⟩
      · decide
      · exact hslot
    obtain ⟨p2, succeed, hp2, -, hu2⟩ := hg1.removePageTableRange haddr hlt hslot 0
    refine ⟨p1, true, p2, succeed, hp1, hl, hp2, ?_⟩
    refine (hu2.of_unlinked ?_).congr fun r => iff_of_false id (not_covers_zero _ _ r)
    rintro r ⟨hpos, rfl⟩
    have hnone : p.tables.descend [2 * (addr / 2^22)] = none := by
      rcases hfree with rfl | ⟨-, hnone⟩
      · cases hpos
      · exact hnone
    by_contra hsome
    rcases (hl.linked _).mp (isSome_iff_ne_none.mpr hsome) with hold | ⟨r, hr, -⟩
    · rw [hnone] at hold
      cases hold
    · exact not_covers_zero _ _ r hr

end

end Shma.PageTable.NormalPaging
