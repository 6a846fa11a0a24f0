import Shma.PageTable.LongModeCount

/-!
# Long-mode calls and the numbers of tables

Over any sequence of calls that create, map, unmap and remove, the counters are the numbers of
tables linked, and the latency of `map_page_table` is that of one access and one for each table it
links.
-/
namespace Shma.PageTable.LongModePaging

open Lib Lib.Run PageTables

/-- The calls that link or unlink tables or use them. Whether `pg_ptr` points to a DRAM block is
what the flag of `map_page_table` says. -/
inductive TableOp where
  | map (addr : Address) (pgPtr : Target)
  | unmap (addr : Address)
  | allocatePageTable (addr size : Address)
  | removePageTable (addr size : Address)
  | removePageDirectory (pml4Id pdpId : Nat)
  | removePageDirectoryPointer (pml4Id : Nat)

def tableStep (z : Zinfo) (p : LongModePaging) : TableOp → Option LongModePaging
  | .map addr pgPtr => (p.mapPageTable z addr pgPtr pgPtr.isBlock).map (·.1)
  | .unmap addr => (p.unmapPageTable addr).map (·.1)
  | .allocatePageTable addr size => (p.allocatePageTableRange addr size).map (·.1)
  | .removePageTable addr size => (p.removePageTableRange addr size).map (·.1)
  | .removePageDirectory pml4Id pdpId => (p.removePageDirectory pml4Id pdpId).map (·.1)
  | .removePageDirectoryPointer pml4Id => (p.removePageDirectoryPointer pml4Id).map (·.1)

/-- Ranges begin at 2 MB and stay in 1 GB, entries exist, and the mode has the tables that are asked
for. -/
def Asked (p : LongModePaging) : TableOp → Prop
  | .map _ _ | .unmap _ => True
  | .allocatePageTable addr size | .removePageTable addr size =>
    p.mode = .longModeNormal ∧ addr % 2^21 = 0 ∧ addr % 2^30 + size ≤ 2^30
  | .removePageDirectory pml4Id pdpId => p.mode ≠ .longModeHuge ∧ pml4Id < 512 ∧ pdpId < 512
  | .removePageDirectoryPointer pml4Id => pml4Id < 512

instance (p : LongModePaging) : ∀ op, Decidable (Asked p op)
  | .map _ _ | .unmap _ => isTrue trivial
  | .allocatePageTable _ _ | .removePageTable _ _ => inferInstanceAs (Decidable (_ ∧ _ ∧ _))
  | .removePageDirectory _ _ => inferInstanceAs (Decidable (_ ∧ _ ∧ _))
  | .removePageDirectoryPointer _ => inferInstanceAs (Decidable (_ < _))

/-- Huge pages can be mapped while a page-directory-pointer table is missing. Below an empty `pml4`
entry nothing can be unmapped but huge pages. -/
def Returns (p : LongModePaging) : TableOp → Prop
  | .map _ _ => p.mode = .longModeHuge → (p.tables.linked 1).encard < 512
  | .unmap addr => p.mode ≠ .longModeHuge → (p.tables.descend [getBitValue addr 39 47]).isSome
  | _ => True

variable {p : LongModePaging} {z : Zinfo}

theorem aligned_iff (addr : Address) : addr &&& 0x1fffff = 0 ↔ addr % 2^21 = 0 := by
  rw [show 0x1fffff = 2^21 - 1 from rfl, Nat.and_two_pow_sub_one_eq_mod]

theorem range_le {addr size : Nat} (haddr : addr % 2^21 = 0) (hsize : addr % 2^30 + size ≤ 2^30) :
    getBitValue addr 21 29 + pageTableNum size ≤ 512 := by
  rw [getBitValue_eq, pageTableNum]
  omega

/-- A call returns exactly if it may, and keeps the counters right. -/
theorem Good.step (hg : Good p) (z : Zinfo) {op : TableOp} (hop : Asked p op) (hret : Returns p op) :
    ∃ p', p.tableStep z op = some p' ∧ Good p' := by
  cases op with
  | map addr pgPtr =>
    obtain ⟨p', n, entry, hr, -, hg', -⟩ := hg.mapPageTable z ((hg.canMap_iff addr).mpr hret) pgPtr
    exact ⟨p', by rw [LongModePaging.tableStep, hr]; rfl, hg'⟩
  | unmap addr =>
    obtain ⟨p', hr, hg', -⟩ := hg.unmapPageTable hret
    exact ⟨p', by rw [LongModePaging.tableStep, hr]; rfl, hg'⟩
  | allocatePageTable addr size =>
    obtain ⟨hm, haddr, hsize⟩ := hop
    obtain ⟨p', hr, hg', -⟩ := Good.allocateEach (nine_bits_lt addr 39) (nine_bits_lt addr 30) (pageTableNum size) hg hm
      (range_le haddr hsize)
    refine ⟨p', ?_, hg'⟩
    simp [LongModePaging.tableStep, allocatePageTableRange, hm, (aligned_iff addr).mpr haddr, getPml4Off,
      getPageDirectoryPointerOff, getPageDirectoryOff, hr]
  | removePageTable addr size =>
    obtain ⟨hm, haddr, hsize⟩ := hop
    obtain ⟨p', hr, hg', -⟩ := Good.removeRange (nine_bits_lt addr 39) (nine_bits_lt addr 30) (pageTableNum size) hg hm
      (range_le haddr hsize)
    refine ⟨p', ?_, hg'⟩
    simp [LongModePaging.tableStep, removePageTableRange, hm, (aligned_iff addr).mpr haddr, getDomains, hr]
  | removePageDirectory pml4Id pdpId =>
    obtain ⟨p', hr, hremoved⟩ := hg.removePageDirectory hop.1 hop.2.1 hop.2.2
    exact ⟨p', by rw [LongModePaging.tableStep, hr]; rfl, hremoved.good⟩
  | removePageDirectoryPointer pml4Id =>
    obtain ⟨p', hr, hremoved⟩ := hg.removePageDirectoryPointer hop
    exact ⟨p', by rw [LongModePaging.tableStep, hr]; rfl, hremoved.good⟩

theorem Good.returns (hg : Good p) {op : TableOp} (h : (p.tableStep z op).isSome) : Returns p op := by
  cases op with
  | map addr pgPtr =>
    obtain ⟨r, hr⟩ := isSome_iff_exists.mp (Option.isSome_map ▸ h)
    exact (hg.canMap_iff addr).mp (canMap_of_mapPageTable hg.inv hr)
  | unmap addr =>
    intro hm
    by_contra hnone
    rw [LongModePaging.tableStep, unmapPageTable_eq hg.inv, if_pos ⟨hm, not_isSome_iff_eq_none.mp hnone⟩] at h
    cases h
  | allocatePageTable | removePageTable | removePageDirectory | removePageDirectoryPointer => exact trivial

theorem good_of_run {mode : PagingStyle} (hm : isLongMode mode) {ops : List TableOp}
    (hops : AllSteps (tableStep z) Asked (new mode) ops) (hr : run (tableStep z) (new mode) ops = some p) : Good p := by
  refine run_invariant (tableStep z) (fun p op p' hg hop hp' => ?_) ops (good_new hm) hops hr
  obtain ⟨p1, hp1, hg1⟩ := hg.step z hop (hg.returns (isSome_of_eq_some hp'))
  obtain rfl := mem_unique hp1 hp'
  exact hg1

/-- After any sequence of calls the three counters are the numbers of tables linked at the three
levels, a further call returns exactly under the conditions of `Returns`, and a `map_page_table`
that returns has taken one access and one for each table that it linked. -/
theorem counters_count_tables (z : Zinfo) {mode : PagingStyle} (hm : isLongMode mode) {ops : List TableOp}
    {p : LongModePaging} (hops : AllSteps (tableStep z) Asked (new mode) ops)
    (hr : run (tableStep z) (new mode) ops = some p) :
    Counted p ∧ (∀ op, Asked p op → ((p.tableStep z op).isSome ↔ Returns p op)) ∧
      ∀ addr pgPtr, Returns p (.map addr pgPtr) → ∃ (p' : LongModePaging) (n : Nat) (entry : Option (Nat × Nat)),
        p.mapPageTable z addr pgPtr pgPtr.isBlock = some (p', z.memAccessTime * (1 + n), entry) ∧
        (p.tables.newlyLinked p'.tables).encard = n := by
  have hg := good_of_run hm hops hr
  refine ⟨hg.counted, fun op hop => ⟨hg.returns, fun hret => ?_⟩, fun addr pgPtr hret => ?_⟩
  · obtain ⟨p', hp', -⟩ := hg.step z hop hret
    exact isSome_of_eq_some hp'
  · obtain ⟨p', n, entry, hmap, hn, -⟩ := hg.mapPageTable z ((hg.canMap_iff addr).mpr hret) pgPtr
    exact ⟨p', n, entry, hmap, hn⟩

/-- A page is mapped, a page table allocated beside its own, and its own removed. -/
def someCalls : List TableOp :=
  [.map 0x1000 (.page 7), .allocatePageTable 0x200000 0x200000, .removePageTable 0 0x200000]

theorem counters_count_tables_some_calls :
    ∃ p, run (tableStep ⟨12, 12, 2^40, 1⟩) (new .longModeNormal) someCalls = some p ∧ p.curPtNum = 1 ∧
      (p.tables.linked 3).encard = p.curPtNum := by
  obtain ⟨p, hr, hn⟩ : ∃ p, run (tableStep ⟨12, 12, 2^40, 1⟩) (new .longModeNormal) someCalls = some p ∧ p.curPtNum = 1 := by
    decide
  have hops : AllSteps (tableStep ⟨12, 12, 2^40, 1⟩) Asked (new .longModeNormal) someCalls := by decide
  exact ⟨p, hr, hn, (counters_count_tables ⟨12, 12, 2^40, 1⟩ rfl hops hr).1.pt⟩

/-- Mapping one huge page under each of the first `n` entries of `pml4`. -/
def hugeMaps (n : Nat) : List TableOp := (List.range n).map fun i => .map (i <<< 39) (.page i)

theorem run_hugeMaps (z : Zinfo) {n : Nat} (hn : n ≤ 512) :
    ∃ p, run (tableStep z) (new .longModeHuge) (hugeMaps n) = some p ∧ Good p ∧ p.mode = .longModeHuge ∧
      p.curPdpNum = n ∧ ∀ i, (p.tables.descend [i]).isSome ↔ i < n := by
  induction n with
  | zero =>
    refine ⟨new .longModeHuge, rfl, good_new rfl, rfl, rfl, fun i => ?_⟩
    have hnone : (new .longModeHuge).tables.descend [i] = none := descend_new_eq_none 512 i []
    simp [hnone]
  | succ n ih =>
    obtain ⟨p, hr, hg, hm, hnum, hlinked⟩ := ih (by omega)
    have hcan : p.CanMap (n <<< 39) := .inr (.inl (by omega))
    obtain ⟨p', _, entry, hmap, -, hg', hm', hd⟩ := hg.mapPageTable z hcan (.page n)
    have hdirs : dirs (n <<< 39) p.mode = [n] := by
      rw [hm]
      show [getBitValue (n <<< 39) 39 47] = [n]
      rw [getBitValue_eq, shiftLeft_eq, Nat.mul_div_cancel _ (Nat.two_pow_pos 39), mod_eq_of_lt (by omega)]
    have hlinked' : ∀ i, (p'.tables.descend [i]).isSome ↔ i < n + 1 := by
      intro i
      rw [hd, hlinked, hdirs, Nat.lt_succ_iff_lt_or_eq]
      simp
    have hset : p'.tables.linked 1 = ↑((Finset.range (n + 1)).image fun i => [i]) := by
      ext q
      simp only [Finset.coe_image, Set.mem_image, Finset.mem_coe, Finset.mem_range]
      constructor
      · rintro ⟨hlen, hq⟩
        obtain ⟨i, rfl⟩ := List.length_eq_one_iff.mp hlen
        exact ⟨i, (hlinked' i).mp hq, rfl⟩
      · rintro ⟨i, hi, rfl⟩
        exact ⟨rfl, (hlinked' i).mpr hi⟩
    have hnum' : p'.curPdpNum = n + 1 := by
      have hcard := hg'.counted.pdp
      rw [hset, Set.encard_coe_eq_coe_finsetCard, Finset.card_image_of_injective _ fun _ _ h => List.singleton_inj.mp h,
        Finset.card_range, Nat.cast_inj] at hcard
      exact hcard.symm
    refine ⟨p', ?_, hg', hm'.trans hm, hnum', hlinked'⟩
    have hstep : p.tableStep z (.map (n <<< 39) (.page n)) = some p' := by
      rw [tableStep, hmap]
      rfl
    rw [hugeMaps, List.range_succ, map_append, run_append]
    show (run (tableStep z) (new .longModeHuge) (hugeMaps n)).bind _ = _
    rw [hr, bind_some, List.map_singleton, run_cons, hstep]
    rfl

/-- With a huge page under each entry of `pml4`, not even the page at 0 can be mapped again. -/
theorem full_pml4_rejects :
    ∃ p, run (tableStep ⟨30, 30, 2^40, 1⟩) (new .longModeHuge) (hugeMaps 512) = some p ∧
      (p.tables.descend [0]).isSome ∧ p.mapPageTable ⟨30, 30, 2^40, 1⟩ 0 (.page 0) false = none := by
  obtain ⟨p, hr, hg, hm, hnum, hlinked⟩ := run_hugeMaps ⟨30, 30, 2^40, 1⟩ (Nat.le_refl 512)
  refine ⟨p, hr, (hlinked 0).mpr (by decide), Option.eq_none_iff_forall_ne_some.mpr fun r hmap => ?_⟩
  have hcan := (hg.canMap_iff 0).mp (canMap_of_mapPageTable hg.inv hmap) hm
  rw [hg.counted.pdp, hnum] at hcan
  exact lt_irrefl _ hcan

end Shma.PageTable.LongModePaging
