import Shma.PageTable.LongModeAccounting
import Shma.PageTable.NormalRanges

/-!
# Range allocation and removal

In long mode the range calls count on in one page directory, so they do as they should as long as
the range does not leave it, and do not return otherwise. In legacy mode removing is wrong.
-/
namespace Shma.PageTable

open Lib Lib.Run PageTables
open NormalPaging (allocatePageTableRange removePageTableRange tableStep tables)

namespace LongModePaging

variable {p p' : LongModePaging} {i j k : Nat}

/-! ### Past the end of a page directory -/

theorem Good.allocatePageTable_eq_none (hg : Good p) (hm : p.mode = .longModeNormal) (hi : i < 512) (hj : j < 512)
    (hk : 512 ≤ k) (hlinked : (p.tables.descend [i, j]).isSome) : p.allocatePageTable i j k = none := by
  have htree := hg.inv.tree
  rw [hm] at htree
  obtain ⟨u, hu⟩ := isSome_iff_exists.mp hlinked
  obtain ⟨t, ht⟩ := isSome_iff_exists.mp (isSome_descend_mono (List.prefix_append [i] [j]) hlinked)
  have hroot := htree.nextTable_root hi (by decide)
  have hnext : p.tables.nextTable t j = some (p.tables.descend [i, j]) :=
    htree.nextTable_descend ht hj (by simp [PageTable.depth])
  have hget := htree.get_eq_none hu (i := k) hk
  simp [LongModePaging.allocatePageTable, hm, hroot, ht, hnext, hu, isPresent, hget]

theorem Good.allocateEach_isSome_iff (hi : i < 512) (hj : j < 512) (n : Nat) :
    ∀ {p : LongModePaging} {k : Nat}, Good p → p.mode = .longModeNormal → k ≤ 512 →
      (k = 512 → (p.tables.descend [i, j]).isSome) → ((p.allocateEach i j k n).isSome ↔ k + n ≤ 512) := by
  induction n with
  | zero =>
    intro p k _ _ hk _
    exact iff_of_true rfl hk
  | succ n ih =>
    intro p k hg hm hk hlast
    rcases Nat.eq_or_lt_of_le hk with rfl | hlt
    · have hnone := hg.allocatePageTable_eq_none hm hi hj (le_refl 512) (hlast rfl)
      refine iff_of_false ?_ (by omega)
      simp [LongModePaging.allocateEach, hnone]
    · obtain ⟨p1, table, time, hp1, hg1, hm1, hl1⟩ := hg.allocatePageTable hm hi hj hlt
      have hdir : (p1.tables.descend [i, j]).isSome := (hl1.linked [i, j]).mpr (.inr ⟨[i, j, k], rfl, ⟨[k], rfl⟩⟩)
      have hrest := ih hg1 (hm1.trans hm) hlt fun _ => hdir
      rw [show k + (n + 1) = k + 1 + n by omega, ← hrest]
      cases hloop : p1.allocateEach i j (k + 1) n <;> simp [LongModePaging.allocateEach, hp1, hloop]

/-- Past its page directory `remove_page_table` finds nothing, if it returns. -/
theorem Good.removePageTable_of_ge (hg : Good p) (hm : p.mode = .longModeNormal) (hi : i < 512) (hj : j < 512)
    (hk : 512 ≤ k) {b : Bool} (h : p.removePageTable i j k = some (p', b)) : p' = p := by
  have htree := hg.inv.tree
  rw [hm] at htree
  have hroot := htree.nextTable_root hi (by decide)
  cases h1 : p.tables.descend [i] with
  | none =>
    simp only [LongModePaging.removePageTable, hm, assertThat_true, hroot, h1, bind_eq_bind, bind_some] at h
    cases h
    rfl
  | some t =>
    have hnext : p.tables.nextTable t j = some (p.tables.descend [i, j]) :=
      htree.nextTable_descend h1 hj (by simp [PageTable.depth])
    cases h2 : p.tables.descend [i, j] with
    | none =>
      simp only [LongModePaging.removePageTable, hm, assertThat_true, hroot, h1, hnext, h2, bind_eq_bind,
        bind_some] at h
      cases h
      rfl
    | some u =>
      have hlast : p.tables.nextTable u k = none := by
        rw [nextTable, getNextLevelAddress, htree.get_eq_none h2 hk]
        rfl
      simp [LongModePaging.removePageTable, hm, hroot, h1, hnext, h2, hlast] at h

theorem Good.of_removeRange (hi : i < 512) (hj : j < 512) (n : Nat) :
    ∀ {p : LongModePaging} {k : Nat}, Good p → p.mode = .longModeNormal → p.removeRange i j k n = some p' →
      Good p' ∧ p'.mode = p.mode := by
  induction n with
  | zero =>
    intro p k hg _ h
    cases h
    exact ⟨hg, rfl⟩
  | succ n ih =>
    intro p k hg hm h
    obtain ⟨⟨p1, b⟩, hp1, hrest⟩ := bind_eq_some_iff.mp h
    obtain ⟨hg1, hm1⟩ : Good p1 ∧ p1.mode = p.mode := by
      by_cases hk : k < 512
      · obtain ⟨p2, hp2, hremoved⟩ := hg.removePageTable hm hi hj hk
        obtain rfl : p2 = p1 := congrArg Prod.fst (mem_unique hp2 hp1)
        exact ⟨hremoved.good, hremoved.mode⟩
      · obtain rfl := hg.removePageTable_of_ge hm hi hj (Nat.not_lt.mp hk) hp1
        exact ⟨hg, rfl⟩
    obtain ⟨hg', hm'⟩ := ih hg1 (hm1.trans hm) hrest
    exact ⟨hg', hm'.trans hm1⟩

/-! ### Reachable states -/

/-- Every call that returns, asked for properly or not, keeps the structure good. -/
theorem Good.step_normal (hg : Good p) (hm : p.mode = .longModeNormal) {z : Zinfo} {op : TableOp}
    (h : p.tableStep z op = some p') : Good p' ∧ p'.mode = .longModeNormal := by
  have hns : p.mode ≠ .longModeHuge := by
    rw [hm]
    decide
  cases op with
  | map addr pgPtr =>
    obtain ⟨p1, _, _, hp1, -, hg1, hm1, -⟩ := hg.mapPageTable z ((hg.canMap_iff addr).mpr fun hs => absurd hs hns) pgPtr
    rw [LongModePaging.tableStep, hp1] at h
    cases h
    exact ⟨hg1, hm1.trans hm⟩
  | unmap addr =>
    obtain ⟨p1, hp1, hg1, hm1⟩ := hg.unmapPageTable (hg.returns (isSome_of_eq_some h))
    rw [LongModePaging.tableStep, hp1] at h
    cases h
    exact ⟨hg1, hm1.trans hm⟩
  | allocatePageTable addr size =>
    obtain ⟨⟨p1, b⟩, hp1, rfl⟩ := map_eq_some_iff.mp h
    obtain ⟨-, hp1⟩ := assertThat_bind_eq_some.mp hp1
    rw [hm] at hp1
    have hle := (Good.allocateEach_isSome_iff (nine_bits_lt addr 39) (nine_bits_lt addr 30) _ hg hm
      (nine_bits_lt addr 21).le fun hk => absurd hk (nine_bits_lt addr 21).ne).mp (isSome_of_eq_some hp1)
    obtain ⟨p2, hp2, hg2, hm2, -⟩ := Good.allocateEach (nine_bits_lt addr 39) (nine_bits_lt addr 30) _ hg hm hle
    obtain rfl : p2 = p1 := congrArg Prod.fst (mem_unique hp2 hp1)
    exact ⟨hg2, hm2.trans hm⟩
  | removePageTable addr size =>
    obtain ⟨⟨p1, b⟩, hp1, rfl⟩ := map_eq_some_iff.mp h
    obtain ⟨-, hp1⟩ := assertThat_bind_eq_some.mp hp1
    split at hp1
    · cases hp1
      exact ⟨hg, hm⟩
    · obtain ⟨p2, hp2, heq⟩ := bind_eq_some_iff.mp hp1
      cases heq
      rw [hm] at hp2
      obtain ⟨hg2, hm2⟩ := Good.of_removeRange (nine_bits_lt addr 39) (nine_bits_lt addr 30) _ hg hm hp2
      exact ⟨hg2, hm2.trans hm⟩
  | removePageDirectory pml4Id pdpId =>
    obtain ⟨⟨p1, b⟩, hp1, rfl⟩ := map_eq_some_iff.mp h
    obtain ⟨⟨-, hi, hj⟩, -⟩ := assertThat_bind_eq_some.mp hp1
    obtain ⟨p2, hp2, hremoved⟩ := hg.removePageDirectory hns hi hj
    obtain rfl : p2 = p1 := congrArg Prod.fst (mem_unique hp2 hp1)
    exact ⟨hremoved.good, hremoved.mode.trans hm⟩
  | removePageDirectoryPointer pml4Id =>
    obtain ⟨⟨p1, b⟩, hp1, rfl⟩ := map_eq_some_iff.mp h
    have hi : pml4Id < 512 := by
      by_contra hge
      have hget := hg.inv.tree.get_eq_none (p := []) rfl (Nat.not_lt.mp hge)
      simp [LongModePaging.removePageDirectoryPointer, nextTable, getNextLevelAddress, hget] at hp1
    obtain ⟨p2, hp2, hremoved⟩ := hg.removePageDirectoryPointer hi
    obtain rfl : p2 = p1 := congrArg Prod.fst (mem_unique hp2 hp1)
    exact ⟨hremoved.good, hremoved.mode.trans hm⟩

theorem good_of_run_normal {z : Zinfo} {ops : List TableOp}
    (hr : run (tableStep z) (new .longModeNormal) ops = some p) : Good p ∧ p.mode = .longModeNormal := by
  have hstep : ∀ p op p', Good p ∧ p.mode = .longModeNormal → tableStep z p op = some p' →
      Good p' ∧ p'.mode = .longModeNormal := fun _ _ _ hg hp' => hg.1.step_normal hg.2 hp'
  exact run_invariant_of_step (tableStep z) hstep ops ⟨good_new rfl, rfl⟩ hr

/-! ### Ranges -/

theorem pageTableNum_eq {size : Nat} (h : size ≤ 2^48) : pageTableNum size = (size + 0x1fffff) / 2^21 := by
  rw [pageTableNum, shiftRight_eq_div_pow, mod_eq_of_lt (a := size + 0x1fffff) (by omega),
    mod_eq_of_lt (by omega)]

theorem range_le_iff {addr size : Nat} (haddr : addr % 2^21 = 0) (hlt : size ≤ 2^48) :
    getBitValue addr 21 29 + pageTableNum size ≤ 512 ↔ addr % 2^30 + size ≤ 2^30 := by
  rw [getBitValue_eq, pageTableNum_eq hlt]
  omega

theorem covers_iff {addr size : Nat} (haddr : addr % 2^21 = 0) (hsize : addr % 2^30 + size ≤ 2^30) (r : List Nat) :
    (∃ m, getBitValue addr 21 29 ≤ m ∧ m < getBitValue addr 21 29 + pageTableNum size ∧
        r = [getBitValue addr 39 47, getBitValue addr 30 38, m]) ↔
      Covers .longModeNormal addr size r := by
  simp only [Covers, dirs, getBitValue_eq, pageTableNum_eq (show size ≤ 2^48 by omega)]
  constructor
  · rintro ⟨m, hle, hlt, rfl⟩
    refine ⟨addr - addr % 2^30 + m * 2^21, by omega, by omega, ?_⟩
    simp only [List.cons.injEq, and_true]
    exact ⟨by omega, by omega, by omega⟩
  · rintro ⟨a, hle, hlt, rfl⟩
    refine ⟨a / 2^21 % 2^9, by omega, by omega, ?_⟩
    simp only [List.cons.injEq, and_true]
    exact ⟨by omega, by omega⟩

theorem Good.touchesExactly_iff (hg : Good p) (hm : p.mode = .longModeNormal) {addr size : Nat}
    (haddr : addr % 2^21 = 0) (hsize : addr + size ≤ 2^48) :
    TouchesExactly tables (allocatePageTableRange · addr size) (removePageTableRange · addr size)
        (Covers .longModeNormal addr size) p ↔
      addr % 2^30 + size ≤ 2^30 := by
  have hrange := range_le_iff haddr ((Nat.le_add_left size addr).trans hsize)
  have halign := (aligned_iff addr).mpr haddr
  have hallocate : p.allocatePageTableRange addr size =
      p.allocateEach (getPml4Off addr .longModeNormal) (getPageDirectoryPointerOff addr .longModeNormal)
        (getPageDirectoryOff addr .longModeNormal) (pageTableNum size) := by
    rw [allocatePageTableRange, assertThat_true ⟨hm, halign⟩, bind_eq_bind, bind_some, hm]
  refine Iff.trans ⟨?_, ?_⟩ hrange
  · rintro ⟨p', b, p'', b', hp', -⟩
    replace hp' := hallocate.symm.trans hp'
    exact (Good.allocateEach_isSome_iff (nine_bits_lt addr 39) (nine_bits_lt addr 30) _ hg hm
      (nine_bits_lt addr 21).le fun hk => absurd hk (nine_bits_lt addr 21).ne).mp (isSome_of_eq_some hp')
  · intro hle
    have hcovers := covers_iff haddr (hrange.mp hle)
    obtain ⟨p1, hp1, hg1, hm1, hl⟩ := Good.allocateEach (nine_bits_lt addr 39) (nine_bits_lt addr 30) _ hg hm hle
    obtain ⟨p2, hp2, -, -, hu⟩ :=
      Good.removeRange (nine_bits_lt addr 39) (nine_bits_lt addr 30) _ hg1 (hm1.trans hm) hle
    refine ⟨p1, true, p2, true, hallocate.trans hp1, hl.congr hcovers, ?_, hu.congr hcovers⟩
    simp [removePageTableRange, hm1.trans hm, halign, getDomains, hp2]

end LongModePaging

/-- In every state that calls lead to, allocating a range of page tables and removing it again
touches exactly the slots of the range: in long mode if the range ends in the page directory it
starts in, in legacy mode if it is empty and the entry at twice its number is not in use. -/
theorem range_touches_exactly_iff (z : Zinfo) :
    (∀ (ops : List LongModePaging.TableOp) (p : LongModePaging) (addr size : Nat),
      run (LongModePaging.tableStep z) (.new .longModeNormal) ops = some p → addr % 2^21 = 0 → addr + size ≤ 2^48 →
        (TouchesExactly LongModePaging.tables (LongModePaging.allocatePageTableRange · addr size)
            (LongModePaging.removePageTableRange · addr size) (Covers .longModeNormal addr size) p ↔
          addr % 2^30 + size ≤ 2^30)) ∧
    ∀ (ops : List NormalPaging.TableOp) (p : NormalPaging) (addr size : Nat),
      run (tableStep z) (.new .legacyNormal) ops = some p → addr % 2^22 = 0 → addr < 2^32 →
        addr + size ≤ 2^32 →
          (TouchesExactly tables (allocatePageTableRange · addr size)
              (removePageTableRange · addr size) (Covers .legacyNormal addr size) p ↔
            size = 0 ∧ (addr = 0 ∨ 2 * (addr / 2^22) < 1024 ∧ p.tables.descend [2 * (addr / 2^22)] = none)) := by
  constructor
  · intro ops p addr size hr haddr hsize
    obtain ⟨hg, hm⟩ := LongModePaging.good_of_run_normal hr
    exact hg.touchesExactly_iff hm haddr hsize
  · intro ops p addr size hr haddr hlt hsize
    exact (NormalPaging.good_of_run hr).touchesExactly_iff haddr hlt hsize

theorem range_touches_exactly_iff_new :
    TouchesExactly LongModePaging.tables (LongModePaging.allocatePageTableRange · 0x200000 0x600000)
        (LongModePaging.removePageTableRange · 0x200000 0x600000) (Covers .longModeNormal 0x200000 0x600000)
        (.new .longModeNormal) ∧
      ¬ TouchesExactly tables (allocatePageTableRange · 0x400000 0x400000)
        (removePageTableRange · 0x400000 0x400000) (Covers .legacyNormal 0x400000 0x400000)
        (.new .legacyNormal) := by
  obtain ⟨hlong, hlegacy⟩ := range_touches_exactly_iff ⟨12, 12, 2^40, 1⟩
  constructor
  · exact (hlong [] _ 0x200000 0x600000 rfl (by decide) (by decide)).mpr (by decide)
  · intro htouches
    have hsize := ((hlegacy [] _ 0x400000 0x400000 rfl (by decide) (by decide) (by decide)).mp htouches).1
    exact absurd hsize (by decide)

/-- In legacy mode, tables are allocated at 8 MB and at 4 MB, and removing the one at 4 MB takes
away the other. In long mode no tables can be allocated for the 4 MB around 1 GB. -/
theorem other_table_removed :
    (∃ p, run (tableStep ⟨12, 12, 2^32, 1⟩) (.new .legacyNormal)
        [.allocatePageTable 0x800000 0x400000, .allocatePageTable 0x400000 0x400000,
          .removePageTable 0x400000 0x400000] = some p ∧
      (p.tables.descend [1]).isSome ∧ (p.tables.descend [2]).isNone) ∧
    ((LongModePaging.new .longModeNormal).allocatePageTableRange 0x3fe00000 0x400000).isNone := by
  decide +kernel

end Shma.PageTable
