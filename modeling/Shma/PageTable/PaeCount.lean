import Shma.Lib.Run
import Shma.PageTable.PaeMap
import Shma.PageTable.TableCount

/-!
# The counters of PAE paging

`allocate_pdt` counts a new page directory as a page table, and with page tables `remove_pdt` counts
a page directory as gone that stays where it is. Where both are right, the assertions stop mapping
at 512 page tables, a quarter of those there is room for.
-/
namespace Shma.PageTable.PAEPaging

open Lib Lib.Run PageTables
open Option (map_map)
open PAEPaging (removePdt)

variable {p p' : PAEPaging} {z : Zinfo}

structure Counted (p : PAEPaging) : Prop where
  pdt : (p.tables.linked 1).encard = p.curPdtNum
  pt : (p.tables.linked 2).encard = p.curPtNum

theorem counted_new (mode : PagingStyle) : Counted (new mode) := ⟨linked_new 4 0, linked_new 4 1⟩

/-- The calls that link or unlink tables. Whether `pg_ptr` points to a DRAM block is what the flag
of `map_page_table` says. -/
inductive TableOp where
  | map (addr : Address) (pgPtr : Target)
  | allocatePdt (pdptId : Nat)
  | removePdt (pdpId : Nat)
  | removePageTable (pdptNum pdNum : Nat)

def tableStep (z : Zinfo) (p : PAEPaging) : TableOp → Option PAEPaging
  | .map addr pgPtr => (p.mapPageTable z addr pgPtr pgPtr.isBlock).map (·.1)
  | .allocatePdt pdptId => (p.allocatePdt pdptId).map (·.1)
  | .removePdt pdpId => (p.removePdt pdpId).map (·.1)
  | .removePageTable pdptNum pdNum => (p.removePageTable pdptNum pdNum).map (·.1)

/-- No page directory is linked by `allocate_pdt`, and with page tables none is given to
`remove_pdt`. -/
def Keeps (p : PAEPaging) : TableOp → Prop
  | .map addr _ => p.mode = .paeHuge → (p.tables.descend [getBitValue addr 30 31]).isSome
  | .allocatePdt pdptId => (p.tables.descend [pdptId]).isSome
  | .removePdt pdpId => p.mode = .paeNormal → p.tables.descend [pdpId] = none
  | .removePageTable _ _ => True

instance (p : PAEPaging) : ∀ op, Decidable (Keeps p op)
  | .map _ _ => inferInstanceAs (Decidable (_ → _))
  | .allocatePdt _ => inferInstanceAs (Decidable (_ = true))
  | .removePdt _ => inferInstanceAs (Decidable (_ → _))
  | .removePageTable _ _ => isTrue trivial

/-! ### Creating tables -/

/-- What a walk with creation does to the counters: they stay right unless a page directory is its
last table and new. -/
theorem counted_grow {path : List Nat} (hc : Counted p) (hlen : path.length = 1 ∨ path.length = 2)
    (hd : ∀ q, (p'.tables.descend q).isSome ↔ (p.tables.descend q).isSome ∨ q <+: path) (hg : Grown p p' path) :
    Counted p' ↔ (path.length = 1 → (p.tables.descend path).isSome) := by
  have hcard : ∀ k, (p'.tables.linked k).encard =
      (p.tables.linked k).encard + p.tables.tables.missing coding 0 path k := Radix.Tables.encard_linked_add hd
  rcases hlen with hlen | hlen
  · have hlast : p.tables.tables.missing coding 0 path 1 = if (p.tables.descend path).isSome then 0 else 1 := by
      rw [Radix.Tables.missing, List.take_of_length_le hlen.le, PageTables.descend]
      cases p.tables.tables.descend coding 0 path <;> simp [hlen]
    have hnext : p.tables.tables.missing coding 0 path 2 = 0 := by simp [Radix.Tables.missing, hlen]
    have hpdt : p'.curPdtNum = p.curPdtNum := by simpa [hlen] using hg.pdt
    have hpt : p'.curPtNum = p.curPtNum + if (p.tables.descend path).isSome then 0 else 1 := by
      rw [hg.pt, hlen, hlast]
    have h1 := hcard 1
    have h2 := hcard 2
    rw [hlast, hc.pdt] at h1
    rw [hnext, hc.pt, Nat.cast_zero] at h2
    cases hpath : p.tables.descend path with
    | some t =>
      refine iff_of_true ⟨?_, ?_⟩ fun _ => rfl
      · rw [h1, hpath, hpdt]
        simp
      · rw [h2, hpt, hpath]
        simp
    | none =>
      refine iff_of_false (fun hc' => ?_) fun h => by cases h hlen
      have hpdt' := hc'.pdt
      rw [h1, hpath, hpdt, ← Nat.cast_add] at hpdt'
      simp at hpdt'
  · refine iff_of_true ⟨?_, ?_⟩ fun h => by omega
    · rw [hcard, hc.pdt, hg.pdt, if_neg (by omega), Nat.cast_add]
    · rw [hcard, hc.pt, hg.pt, hlen, Nat.cast_add]

theorem allocatePdt_counted (hi : p.Inv) {i : Nat} {table allocTime : Nat}
    (hr : p.allocatePdt i = some (p', table, allocTime)) :
    p'.Inv ∧ p'.mode = p.mode ∧ (Counted p → (Counted p' ↔ (p.tables.descend [i]).isSome)) := by
  obtain ⟨hn, hlt⟩ : p.curPdtNum < 4 ∧ i < 4 := (assertThat_bind_eq_some.mp hr).1
  have hdepth := depth_pos hi.mode
  obtain ⟨p1, hp1, ht, hm, hg⟩ := allocatePdt_eq hi.tree hlt hdepth hn
  obtain rfl : p1 = p' := (Prod.mk.inj (mem_unique hp1 hr)).1
  refine ⟨⟨hm ▸ hi.mode, ?_⟩, hm, fun hc => ?_⟩
  · rw [hm, ht]
    exact (hi.tree.ensure_spec (p := [i]) hdepth).1
  · have hd : ∀ q, (p1.tables.descend q).isSome ↔ (p.tables.descend q).isSome ∨ q <+: [i] := by
      rw [ht]
      exact hi.tree.ensure_descend (p := [i]) hdepth
    rw [counted_grow hc (.inl rfl) hd hg]
    simp

theorem mapPageTable_counted (hi : p.Inv) {addr : Address} {tg : Target} {latency : Nat}
    {entry : Option (Nat × Nat)} (hr : p.mapPageTable z addr tg tg.isBlock = some (p', latency, entry)) :
    p'.Inv ∧ p'.mode = p.mode ∧ (Counted p → (Counted p' ↔ Keeps p (.map addr tg))) := by
  obtain ⟨p1, hp1, ht1, hm1, hg⟩ := mapPageTable_eq_finishMap z hi (canMap_of_mapPageTable hr) addr tg tg.isBlock
  rw [finishMap_eq z hi addr tg ht1] at hp1
  obtain rfl := (Prod.mk.inj (mem_unique hp1 hr)).1
  have hlen := dirs_length addr p.mode
  refine ⟨⟨hm1 ▸ hi.mode, ?_⟩, hm1, fun hc => ?_⟩
  · rw [hm1]
    exact (hi.tree.mapAt hlen (leafOff addr p.mode) tg).1
  · have hd := hi.tree.mapAt_descend hlen (leafOff addr p.mode) tg
    have hgrown : Grown p { p1 with tables := p.tables.mapAt 512 (dirs addr p.mode) (leafOff addr p.mode) tg }
        (dirs addr p.mode) := ⟨hg.pdt, hg.pt⟩
    rcases isPae_iff.mp hi.mode with hm | hm
    · have htwo : (dirs addr p.mode).length = 2 := by rw [hm]; rfl
      rw [counted_grow hc (.inr htwo) hd hgrown, htwo, Keeps, hm]
      simp
    · have hone : (dirs addr p.mode).length = 1 := by rw [hm]; rfl
      rw [counted_grow hc (.inl hone) hd hgrown, Keeps, hm]
      simp [dirs]

/-! ### Removing tables -/

theorem Inv.removePageTable (hi : p.Inv) (hm : p.mode = .paeNormal) {i j : Nat} (h1 : i < 4) (h2 : j < 512) :
    ∃ p' done, p.removePageTable i j = some (p', done) ∧ p'.Inv ∧ p'.mode = p.mode ∧ p'.curPdtNum = p.curPdtNum ∧
      (∀ k, p'.tables.descend [k] = p.tables.descend [k]) ∧ (Counted p → Counted p') := by
  have htree := hi.tree
  rw [hm] at htree
  have hroot := htree.nextTable_root h1 (by decide)
  cases hdir : p.tables.descend [i] with
  | none =>
    refine ⟨p, false, ?_, hi, rfl, rfl, fun _ => rfl, id⟩
    simp [PAEPaging.removePageTable, h1, h2, hm, hroot, hdir]
  | some t =>
    have hpresent : p.tables.isPresent t j = some (p.tables.descend [i, j]).isSome := by
      rw [htree.isPresent_eq hdir h2 (by simp [depth]), ← descend_concat hdir]
      rfl
    cases hpage : p.tables.descend [i, j] with
    | none =>
      refine ⟨p, false, ?_, hi, rfl, rfl, fun _ => rfl, id⟩
      simp [PAEPaging.removePageTable, h1, h2, hm, hroot, hdir, hpresent, hpage]
    | some u =>
      have hlinked : (p.tables.descend ([i] ++ [j])).isSome := isSome_of_eq_some hpage
      have hcut := htree.invalidateEntry_eq hdir j h2 (by simp [depth]) hlinked
      have hcard := htree.encard_linked_prune hdir j hlinked fun q hq hpre => htree.bare_of_depth rfl hq hpre
      refine ⟨{ p with tables := p.tables.prune t j, curPtNum := decrement p.curPtNum }, true, ?_,
        ⟨hi.mode, ?_⟩, rfl, rfl, fun k => ?_, fun hc => ⟨?_, ?_⟩⟩
      · simp [PAEPaging.removePageTable, h1, h2, hm, hroot, hdir, hpresent, hpage, hcut]
      · exact hi.tree.prune hdir j
      · rw [htree.descend_prune hdir j, if_neg]
        intro hpre
        cases Nat.le_of_succ_le_succ hpre.length_le
      · exact counter_of_drop (hcard 1) hc.pdt
      · exact counter_of_drop (hcard 2) hc.pt

theorem Inv.removePageTables {i t : Nat} (h1 : i < 4) (ids : List Nat) :
    ∀ {p : PAEPaging}, p.Inv → p.mode = .paeNormal → p.tables.descend [i] = some t → (∀ j ∈ ids, j < 512) →
      ∃ p', removePageTables i t ids p = some p' ∧ p'.Inv ∧ p'.mode = p.mode ∧ p'.curPdtNum = p.curPdtNum ∧
        ∀ k, p'.tables.descend [k] = p.tables.descend [k] := by
  induction ids with
  | nil => exact fun {p} hi _ _ _ => ⟨p, rfl, hi, rfl, rfl, fun _ => rfl⟩
  | cons j ids ih =>
    intro p hi hm ht hids
    have hj : j < 512 := hids j mem_cons_self
    have hrest : ∀ k ∈ ids, k < 512 := fun k hk => hids k (mem_cons_of_mem j hk)
    have hpresent := hi.tree.isPresent_eq ht (i := j) hj (by rw [hm]; simp [depth])
    cases hchild : (p.tables.tables.cell t j).child with
    | none =>
      obtain ⟨p', hp', h'⟩ := ih hi hm ht hrest
      refine ⟨p', ?_, h'⟩
      simp [PAEPaging.removePageTables, hpresent, hchild, hp']
    | some u =>
      obtain ⟨p1, done, hp1, hi1, hm1, hn1, hd1, -⟩ := hi.removePageTable hm h1 hj
      obtain ⟨p', hp', hi', hm', hn', hd'⟩ := ih hi1 (hm1.trans hm) ((hd1 i).trans ht) hrest
      refine ⟨p', ?_, hi', hm'.trans hm1, hn'.trans hn1, fun k => (hd' k).trans (hd1 k)⟩
      simp [PAEPaging.removePageTables, hpresent, hchild, hp1, hp']

theorem linked_one_congr (hd : ∀ k, p'.tables.descend [k] = p.tables.descend [k]) :
    p'.tables.linked 1 = p.tables.linked 1 := by
  ext q
  show q.length = 1 ∧ (p'.tables.descend q).isSome ↔ q.length = 1 ∧ (p.tables.descend q).isSome
  refine and_congr_right fun hlen => ?_
  obtain ⟨k, rfl⟩ := List.length_eq_one_iff.mp hlen
  rw [hd]

theorem removePdt_counted (hi : p.Inv) {i : Nat} {done : Bool} (hr : p.removePdt i = some (p', done)) :
    p'.Inv ∧ p'.mode = p.mode ∧ (Counted p → (Counted p' ↔ Keeps p (.removePdt i))) := by
  have hdepth := depth_pos hi.mode
  have h1 : i < 4 := by
    by_contra hlarge
    have hget : p.tables.get 0 i = none := by
      rw [PageTables.get, hi.tree.root_count, if_neg hlarge]
    simp [removePdt, nextTable, getNextLevelAddress, hget] at hr
  have hroot := hi.tree.nextTable_root h1 hdepth
  cases hdir : p.tables.descend [i] with
  | none =>
    simp only [removePdt, hroot, hdir, bind_eq_bind, bind_some, pure_def,
      some_inj, Prod.mk.injEq] at hr
    obtain ⟨rfl, -⟩ := hr
    exact ⟨hi, rfl, fun hc => iff_of_true hc fun _ => hdir⟩
  | some t =>
    rcases isPae_iff.mp hi.mode with hm | hm
    · obtain ⟨p1, hp1, hi1, hm1, hn1, hd1⟩ := Inv.removePageTables h1 (List.range 512) hi hm hdir
        fun j hj => mem_range.mp hj
      simp only [removePdt, hroot, hdir, hm, hp1, bind_eq_bind, bind_some, pure_def,
        some_inj, Prod.mk.injEq] at hr
      obtain ⟨rfl, -⟩ := hr
      refine ⟨⟨hi1.mode, hi1.tree⟩, hm1, fun hc => iff_of_false (fun hc' => ?_) fun hkeeps => ?_⟩
      · have hpdt := hc'.pdt
        have hlinked := linked_one_congr hd1
        -- the page directory is still linked, and not counted any more
        change (p1.tables.linked 1).encard = ((decrement p1.curPdtNum : Nat) : ℕ∞) at hpdt
        rw [hlinked, hc.pdt, hn1, Nat.cast_inj] at hpdt
        exact decrement_ne p.curPdtNum hpdt.symm
      · have hnone := hkeeps hm
        rw [hdir] at hnone
        cases hnone
    · have htree := hi.tree
      rw [hm] at htree
      have hlinked : (p.tables.descend ([] ++ [i])).isSome := isSome_of_eq_some hdir
      have hcut := htree.invalidateEntry_eq (p := []) rfl i h1 (by decide) hlinked
      have hcard := htree.encard_linked_prune (p := []) rfl i hlinked
        fun q hq hpre => htree.bare_of_depth rfl hq hpre
      simp only [removePdt, hroot, hdir, hm, hcut, bind_eq_bind, bind_some, pure_def,
        some_inj, Prod.mk.injEq] at hr
      obtain ⟨rfl, -⟩ := hr
      refine ⟨⟨rfl, htree.prune (p := []) rfl i⟩, hm.symm, fun hc => iff_of_true ⟨?_, ?_⟩ fun h => ?_⟩
      · exact counter_of_drop (hcard 1) hc.pdt
      · exact counter_of_drop (hcard 2) hc.pt
      · rw [hm] at h
        cases h

/-! ### Sequences of calls -/

/-- A call keeps the tree, and right counters exactly under the condition of `Keeps`. -/
theorem step_counted (hi : p.Inv) {op : TableOp} (hr : p.tableStep z op = some p') :
    p'.Inv ∧ p'.mode = p.mode ∧ (Counted p → (Counted p' ↔ Keeps p op)) := by
  cases op with
  | map addr pgPtr =>
    obtain ⟨⟨q, latency, entry⟩, hq, rfl⟩ := map_eq_some_iff.mp hr
    exact mapPageTable_counted hi hq
  | allocatePdt pdptId =>
    obtain ⟨⟨q, table, allocTime⟩, hq, rfl⟩ := map_eq_some_iff.mp hr
    exact allocatePdt_counted hi hq
  | removePdt pdpId =>
    obtain ⟨⟨q, done⟩, hq, rfl⟩ := map_eq_some_iff.mp hr
    exact removePdt_counted hi hq
  | removePageTable pdptNum pdNum =>
    obtain ⟨⟨q, done⟩, hq, rfl⟩ := map_eq_some_iff.mp hr
    obtain ⟨h1, h2, hm⟩ := (assertThat_bind_eq_some.mp hq).1
    obtain ⟨q', done', hq', hi', hm', -, -, hc'⟩ := hi.removePageTable hm h1 h2
    obtain rfl : q' = q := (Prod.mk.inj (mem_unique hq' hq)).1
    exact ⟨hi', hm', fun hc => iff_of_true (hc' hc) trivial⟩

theorem allocate_isSome_iff (hi : p.Inv) {i j : Nat} (h1 : i < 4) (h2 : j < 512) :
    (p.mode = .paeNormal → ((p.allocatePageTable i j).isSome ↔ p.curPtNum < 512)) ∧
      ((p.allocatePdt i).isSome ↔ p.curPdtNum < 4) := by
  refine ⟨fun hm => ⟨fun hsome => ?_, fun hn => ?_⟩, fun hsome => ?_, fun hn => ?_⟩
  · obtain ⟨r, hr⟩ := isSome_iff_exists.mp hsome
    exact (assertThat_bind_eq_some.mp hr).1.2
  · have htree := hi.tree
    rw [hm] at htree
    obtain ⟨p1, hp1, -⟩ := allocatePageTable_eq htree h1 (by decide) h2 hm hn
    exact isSome_of_eq_some hp1
  · obtain ⟨r, hr⟩ := isSome_iff_exists.mp hsome
    exact (assertThat_bind_eq_some.mp hr).1.1
  · obtain ⟨p1, hp1, -⟩ := allocatePdt_eq hi.tree h1 (depth_pos hi.mode) hn
    exact isSome_of_eq_some hp1

/-- The assertions on the counters reject no request of a level that has room: 4 page directories of
512 page tables each. -/
structure RejectsFull (p : PAEPaging) : Prop where
  pageTable : p.mode = .paeNormal → ∀ i < 4, ∀ j < 512, p.allocatePageTable i j = none →
    4 * 512 ≤ (p.tables.linked 2).encard
  pdt : ∀ i < 4, p.allocatePdt i = none → 4 ≤ (p.tables.linked 1).encard

theorem Counted.rejectsFull_iff (hc : Counted p) (hi : p.Inv) :
    RejectsFull p ↔ (p.mode = .paeNormal →
      (p.tables.linked 2).encard < 512 ∨ 4 * 512 ≤ (p.tables.linked 2).encard) := by
  constructor
  · intro hr hm
    by_cases hlt : p.curPtNum < 512
    · exact .inl (hc.pt ▸ Nat.cast_lt.mpr hlt)
    · refine .inr (hr.pageTable hm 0 (by decide) 0 (by decide) ?_)
      rw [← not_isSome_iff_eq_none, (allocate_isSome_iff hi (by decide) (by decide)).1 hm]
      exact hlt
  · intro h
    refine ⟨fun hm i h1 j h2 hnone => (h hm).resolve_left fun hlt => ?_, fun i h1 hnone => ?_⟩
    · rw [hc.pt] at hlt
      have hsome := ((allocate_isSome_iff hi h1 h2).1 hm).mpr (Nat.cast_lt.mp hlt)
      rw [hnone] at hsome
      cases hsome
    · rw [hc.pdt, ← not_lt]
      intro hlt
      have hsome := (allocate_isSome_iff hi h1 (by decide : 0 < 512)).2.mpr (Nat.cast_lt.mp hlt)
      rw [hnone] at hsome
      cases hsome

/-- The counters are the numbers of tables linked all along a sequence of calls exactly if none of
them links a page directory by `allocate_pdt` or, with page tables, gives one that is linked to
`remove_pdt`. The assertions then reject only requests of a level that is full exactly if there are,
in `PAE_Normal`, at all points fewer than 512 page tables (or as many as there is room for). -/
theorem counters_right_iff (z : Zinfo) {mode : PagingStyle} (hm : isPae mode) {ops : List TableOp} {p : PAEPaging}
    (hr : run (tableStep z) (new mode) ops = some p) :
    ((∀ pre, pre <+: ops → ∀ u, run (tableStep z) (new mode) pre = some u → Counted u) ↔
      AllSteps (tableStep z) Keeps (new mode) ops) ∧
    ((∀ pre, pre <+: ops → ∀ u, run (tableStep z) (new mode) pre = some u → Counted u ∧ RejectsFull u) ↔
      AllSteps (tableStep z) Keeps (new mode) ops ∧
      (mode = .paeNormal → ∀ pre, pre <+: ops → ∀ u, run (tableStep z) (new mode) pre = some u →
        (u.tables.linked 2).encard < 512 ∨ 4 * 512 ≤ (u.tables.linked 2).encard)) := by
  have hiff : (∀ pre, pre <+: ops → ∀ u, run (tableStep z) (new mode) pre = some u → Counted u) ↔
      AllSteps (tableStep z) Keeps (new mode) ops := by
    refine forall_run_iff_allSteps (tableStep z) (fun s op t hs hc ht => ?_) ops (inv_new hm) (counted_new mode) hr
    obtain ⟨hi', -, hkeeps⟩ := step_counted hs ht
    exact ⟨hi', hkeeps hc⟩
  have hkept : ∀ s op t, s.Inv ∧ s.mode = mode → tableStep z s op = some t → t.Inv ∧ t.mode = mode := by
    intro s op t hs ht
    obtain ⟨hi', hm', -⟩ := step_counted hs.1 ht
    exact ⟨hi', hm'.trans hs.2⟩
  have hinv : ∀ pre u, run (tableStep z) (new mode) pre = some u → u.Inv ∧ u.mode = mode :=
    fun pre u hu => run_invariant_of_step (tableStep z) hkept pre ⟨inv_new hm, rfl⟩ hu
  refine ⟨hiff, fun h => ?_, fun ⟨hkeeps, hroom⟩ pre hpre u hu => ?_⟩
  · refine ⟨hiff.mp fun pre hpre u hu => (h pre hpre u hu).1, fun hnormal pre hpre u hu => ?_⟩
    obtain ⟨hc, hfull⟩ := h pre hpre u hu
    obtain ⟨hi, hmode⟩ := hinv pre u hu
    exact (hc.rejectsFull_iff hi).mp hfull (hmode.trans hnormal)
  · have hc : Counted u := hiff.mpr hkeeps pre hpre u hu
    obtain ⟨hi, hmode⟩ := hinv pre u hu
    exact ⟨hc, (hc.rejectsFull_iff hi).mpr fun hnormal => hroom (hmode.symm.trans hnormal) pre hpre u hu⟩

/-- With page tables, two pages are mapped and a page table is removed. -/
theorem counters_right_iff_two_pages :
    ∃ p, run (tableStep ⟨12, 12, 2^40, 1⟩) (new .paeNormal)
        [.map 0x1000 (.page 7), .map 0x40000000 (.page 8), .removePageTable 0 0] = some p ∧ Counted p := by
  obtain ⟨p, hr⟩ : ∃ p, run (tableStep ⟨12, 12, 2^40, 1⟩) (new .paeNormal)
      [.map 0x1000 (.page 7), .map 0x40000000 (.page 8), .removePageTable 0 0] = some p :=
    isSome_iff_exists.mp (by decide)
  have hkeeps : AllSteps (tableStep ⟨12, 12, 2^40, 1⟩) Keeps (new .paeNormal)
      [.map 0x1000 (.page 7), .map 0x40000000 (.page 8), .removePageTable 0 0] := by decide
  exact ⟨p, hr, (counters_right_iff _ rfl hr).1.mpr hkeeps _ prefix_rfl p hr⟩

/-- With huge pages `allocate_pdt` links a page directory and counts a page table. With page tables,
a page directory stays linked through two calls of `remove_pdt`, after which `cur_pdt_num` has
wrapped, and `allocate_pdt` of an entry without a page directory is rejected. -/
theorem counters_wrong :
    (∃ p, run (tableStep ⟨21, 21, 2^40, 1⟩) (new .paeHuge) [.allocatePdt 0] = some p ∧
      (p.tables.descend [0]).isSome ∧ p.curPdtNum = 0 ∧ p.curPtNum = 1) ∧
    (∃ p, run (tableStep ⟨12, 12, 2^40, 1⟩) (new .paeNormal) [.map 0 (.page 7), .removePdt 0, .removePdt 0] = some p ∧
      (p.tables.descend [0]).isSome ∧ p.curPdtNum = 2^32 - 1 ∧ p.tables.descend [1] = none ∧
      (p.allocatePdt 1).isNone) := by
  decide +kernel

end Shma.PageTable.PAEPaging
