import Shma.PageTable.LongModeMap
import Shma.PageTable.TableCount

/-!
# The counters of long-mode paging

`cur_pdp_num`, `cur_pd_num` and `cur_pt_num` follow the tables that are linked at the three levels,
through every way of creating them and through the recursive removals. What is left of the bound on
page-directory-pointer tables is that with huge pages nothing can be mapped any more once all 512 of
them are there.
-/
namespace Shma.PageTable.LongModePaging

open Lib Lib.Run PageTables
open PageTable (depth)

variable {p p' : LongModePaging}

structure Counted (p : LongModePaging) : Prop where
  pdp : (p.tables.linked 1).encard = p.curPdpNum
  pd : (p.tables.linked 2).encard = p.curPdNum
  pt : (p.tables.linked 3).encard = p.curPtNum

structure Good (p : LongModePaging) : Prop where
  inv : p.Inv
  within : p.tables.Within 512
  counted : Counted p

theorem good_new {mode : PagingStyle} (h : isLongMode mode) : Good (new mode) := by
  refine ⟨inv_new h, ?_, ⟨linked_new 512 0, linked_new 512 1, linked_new 512 2⟩⟩
  intro q hq i hmem
  cases q with
  | nil => cases hmem
  | cons j q =>
    cases hq

theorem Good.of_descend (hg : Good p) (hinv : p'.Inv) (hd : ∀ q, p'.tables.descend q = p.tables.descend q)
    (hpdp : p'.curPdpNum = p.curPdpNum) (hpd : p'.curPdNum = p.curPdNum) (hpt : p'.curPtNum = p.curPtNum) :
    Good p' := by
  refine ⟨hinv, fun q hq => hg.within q (by rw [← hd q]; exact hq), ?_⟩
  have hlinked := linked_congr hd
  obtain ⟨h1, h2, h3⟩ := hg.counted
  refine ⟨?_, ?_, ?_⟩
  · rw [hlinked, h1, hpdp]
  · rw [hlinked, h2, hpd]
  · rw [hlinked, h3, hpt]

variable {path : List Nat}

section

variable (hg : Good p)
include hg

theorem Good.grow (hlen : path.length ≤ depth p.mode)
    (hpath : ∀ i ∈ path, i < 512) (ht : p'.tables = (ensure 512 p.tables 0 path).2) (hm : p'.mode = p.mode)
    (hgrown : Grown p p' path) : Good p' := by
  have hd : ∀ q, (p'.tables.descend q).isSome ↔ (p.tables.descend q).isSome ∨ q <+: path := by
    rw [ht]
    exact hg.inv.tree.ensure_descend hlen
  have hcard : ∀ k, (p'.tables.linked k).encard =
      (p.tables.linked k).encard + p.tables.tables.missing coding 0 path k := Radix.Tables.encard_linked_add hd
  refine ⟨⟨hm ▸ hg.inv.mode, ?_⟩, ?_, ⟨?_, ?_, ?_⟩⟩
  · rw [hm, TreeInv, ht]
    exact (hg.inv.tree.ensure_spec hlen).1
  · intro q hq i hi
    rcases (hd q).mp hq with hq | hq
    · exact hg.within q hq i hi
    · exact hpath i (hq.subset hi)
  · rw [hcard, hg.counted.pdp, hgrown.pdp, Nat.cast_add]
  · rw [hcard, hg.counted.pd, hgrown.pd, Nat.cast_add]
  · rw [hcard, hg.counted.pt, hgrown.pt, Nat.cast_add]

/-! ### Mapping -/

theorem Good.mapPageTable (z : Zinfo) {addr : Address} (hn : p.CanMap addr) (tg : Target) :
    ∃ (p' : LongModePaging) (n : Nat) (entry : Option (Nat × Nat)),
      p.mapPageTable z addr tg tg.isBlock = some (p', z.memAccessTime * (1 + n), entry) ∧
      (p.tables.newlyLinked p'.tables).encard = n ∧ Good p' ∧ p'.mode = p.mode ∧
      ∀ q, (p'.tables.descend q).isSome ↔ (p.tables.descend q).isSome ∨ q <+: dirs addr p.mode := by
  obtain ⟨p₁, hp₁, ht₁, hm₁, hgrown⟩ := mapPageTable_eq_finishMap z hg.inv hn tg tg.isBlock
  have hlen := dirs_length addr p.mode
  have hgood := hg.grow hlen.le (dirs_lt hg.inv.mode addr) ht₁ hm₁ hgrown
  obtain ⟨n, hn, hfresh⟩ := hg.inv.tree.ensure_fresh (r := []) rfl (p := dirs addr p.mode) (by simp [hlen])
  have hsame := hg.inv.tree.mapAt_descend_eq hlen (leafOff addr p.mode) tg
  rw [finishMap_eq z hg.inv addr tg ht₁, hfresh, Nat.add_sub_cancel_left] at hp₁
  refine ⟨_, n, _, hp₁, ?_, ?_, hm₁, hg.inv.tree.mapAt_descend hlen (leafOff addr p.mode) tg⟩
  · rw [← hn]
    simp only [newlyLinked, hsame]
  · refine hgood.of_descend ⟨hgood.inv.mode, ?_⟩ (fun q => ?_) rfl rfl rfl
    · rw [hm₁]
      exact (hg.inv.tree.mapAt hlen (leafOff addr p.mode) tg).1
    · rw [ht₁]
      exact hsame q

/-- With 512 page-directory-pointer tables every entry of `pml4` has one. -/
theorem Good.isSome_of_full (hfull : 512 ≤ p.curPdpNum) {i : Nat} (hi : i < 512) : (p.tables.descend [i]).isSome := by
  by_contra hnone
  let others : Finset (List Nat) := ((Finset.range 512).erase i).image fun j => [j]
  have hsub : p.tables.linked 1 ⊆ ↑others := by
    rintro q ⟨hlen, hq⟩
    obtain ⟨j, rfl⟩ := List.length_eq_one_iff.mp hlen
    have hj : j < 512 := hg.within [j] hq j mem_cons_self
    have hne : j ≠ i := fun he => hnone (he ▸ hq)
    exact Finset.mem_coe.mpr (Finset.mem_image_of_mem _ (Finset.mem_erase.mpr ⟨hne, Finset.mem_range.mpr hj⟩))
  have hcard : others.card ≤ 511 := by
    refine Finset.card_image_le.trans ?_
    rw [Finset.card_erase_of_mem (Finset.mem_range.mpr hi), Finset.card_range]
  have hle := Set.encard_le_encard hsub
  rw [hg.counted.pdp, Set.encard_coe_eq_coe_finsetCard, Nat.cast_le] at hle
  omega

/-- A page can be mapped unless pages are huge and all page-directory-pointer tables are there. -/
theorem Good.canMap_iff (addr : Address) :
    p.CanMap addr ↔ (p.mode = .longModeHuge → (p.tables.linked 1).encard < 512) := by
  have hlt : (p.tables.linked 1).encard < 512 ↔ p.curPdpNum < 512 := by
    rw [hg.counted.pdp]
    exact Nat.cast_lt
  rw [hlt, CanMap]
  rcases isLongMode_iff.mp hg.inv.mode with hm | hm | hm
  · simp [hm]
  · have hlinked : ¬ p.curPdpNum < 512 → (p.tables.descend [getBitValue addr 39 47]).isSome := fun hfull =>
      hg.isSome_of_full (Nat.not_lt.mp hfull) (nine_bits_lt addr 39)
    simp only [hm, reduceCtorEq, false_imp_iff, iff_true, true_and, false_or]
    exact or_iff_not_imp_left.mpr hlinked
  · simp [hm]

theorem Good.unmapPageTable {addr : Address}
    (hroot : p.mode ≠ .longModeHuge → (p.tables.descend [getBitValue addr 39 47]).isSome) :
    ∃ p', p.unmapPageTable addr = some (p', false) ∧ Good p' ∧ p'.mode = p.mode := by
  have hlinked : ¬ (p.mode ≠ .longModeHuge ∧ p.tables.descend [getBitValue addr 39 47] = none) := by
    rintro ⟨hm, hd⟩
    have hsome := hroot hm
    rw [hd] at hsome
    cases hsome
  have hlen := dirs_length addr p.mode
  refine ⟨_, (unmapPageTable_eq hg.inv addr).trans (if_neg hlinked), ?_, rfl⟩
  exact hg.of_descend ⟨hg.inv.mode, (hg.inv.tree.unmapAt hlen _).1⟩ (hg.inv.tree.unmapAt_descend hlen _) rfl rfl rfl

/-! ### Ranges of page tables -/

theorem Good.allocatePageTable (hm : p.mode = .longModeNormal) {i j k : Nat} (hi : i < 512) (hj : j < 512)
    (hk : k < 512) :
    ∃ p' table time, p.allocatePageTable i j k = some (p', some table, time) ∧ Good p' ∧ p'.mode = p.mode ∧
      Links p.tables p'.tables (· = [i, j, k]) := by
  have htree := hg.inv.tree
  rw [hm] at htree
  obtain ⟨p', hp', ht, hm', hgrown⟩ := allocatePageTable_eq htree hi hj hk (by decide) hm
  have hids : ∀ x ∈ [i, j, k], x < 512 := by
    simp only [mem_cons, not_mem_nil, or_false, forall_eq_or_imp, forall_eq]
    exact ⟨hi, hj, hk⟩
  exact ⟨p', _, _, hp', hg.grow (by rw [hm]; exact le_refl 3) hids ht hm' hgrown, hm',
    ht ▸ htree.links_ensure (le_refl 3)⟩

end

variable {i j : Nat}

theorem Good.allocateEach (hi : i < 512) (hj : j < 512) (n : Nat) :
    ∀ {p : LongModePaging} {k : Nat}, Good p → p.mode = .longModeNormal → k + n ≤ 512 →
      ∃ p', p.allocateEach i j k n = some (p', true) ∧ Good p' ∧ p'.mode = p.mode ∧
        Links p.tables p'.tables fun r => ∃ m, k ≤ m ∧ m < k + n ∧ r = [i, j, m] := by
  induction n with
  | zero =>
    intro p k hg _ _
    exact ⟨p, rfl, hg, rfl, (Links.refl p.tables).congr fun r => iff_of_false id (not_slots_zero _ k r)⟩
  | succ n ih =>
    intro p k hg hm hk
    obtain ⟨p₁, table, time, hp₁, hg₁, hm₁, hl₁⟩ := hg.allocatePageTable hm hi hj (by omega : k < 512)
    obtain ⟨p₂, hp₂, hg₂, hm₂, hl₂⟩ := ih hg₁ (hm₁.trans hm) (by omega : k + 1 + n ≤ 512)
    refine ⟨p₂, ?_, hg₂, hm₂.trans hm₁, (hl₁.trans hl₂).congr (slots_succ (fun m => [i, j, m]) k n)⟩
    simp [LongModePaging.allocateEach, hp₁, hp₂]

/-! ### Removing tables -/

/-- The table at the end of a path is gone, with all under it, and the counters are right. -/
structure Removed (p p' : LongModePaging) (path : List Nat) : Prop where
  good : Good p'
  mode : p'.mode = p.mode
  descend : ∀ q, p'.tables.descend q = if path <+: q then none else p.tables.descend q

theorem Good.removed_self (hg : Good p) (hnone : p.tables.descend path = none) : Removed p p path := by
  refine ⟨hg, rfl, fun q => ?_⟩
  split
  · next hq =>
    obtain ⟨r, rfl⟩ := hq
    exact descend_append_none hnone r
  · rfl

theorem not_append_prefix_self (path : List Nat) (i : Nat) : ¬ path ++ [i] <+: path := fun hpre => by
  have hle := hpre.length_le
  rw [length_append, length_singleton] at hle
  omega

structure Dropped (p p' : LongModePaging) (k : Nat) : Prop where
  pdp : p'.curPdpNum = if 1 = k then decrement p.curPdpNum else p.curPdpNum
  pd : p'.curPdNum = if 2 = k then decrement p.curPdNum else p.curPdNum
  pt : p'.curPtNum = if 3 = k then decrement p.curPtNum else p.curPtNum

structure Emptied (p p' : LongModePaging) (path : List Nat) : Prop where
  good : Good p'
  mode : p'.mode = p.mode
  self : p'.tables.descend path = p.tables.descend path
  bare : ∀ q, (p'.tables.descend q).isSome → path <+: q → q = path
  keep : ∀ q, ¬ path <+: q → p'.tables.descend q = p.tables.descend q

theorem Good.emptied_of_depth (hg : Good p) (hlen : path.length = depth p.mode) : Emptied p p path :=
  ⟨hg, rfl, rfl, fun _ => hg.inv.tree.bare_of_depth hlen, fun _ _ => rfl⟩

theorem Emptied.cut {p₁ : LongModePaging} {r : List Nat} {t i : Nat} (h : Emptied p p₁ (r ++ [i]))
    (ht : p.tables.descend r = some t) (hi : i < 512) (hlen : r.length < depth p.mode)
    (hlinked : (p.tables.descend (r ++ [i])).isSome) :
    p₁.tables.invalidateEntry t i = some (p₁.tables.prune t i) ∧
      (p'.tables = p₁.tables.prune t i → p'.mode = p₁.mode → Dropped p₁ p' (r.length + 1) →
        Removed p p' (r ++ [i])) := by
  obtain ⟨hg, hmode, hself, hbare, hkeep⟩ := h
  rw [← hmode] at hlen
  rw [← hself] at hlinked
  rw [← hkeep r (not_append_prefix_self r i)] at ht
  have hd := hg.inv.tree.descend_prune ht i
  refine ⟨hg.inv.tree.invalidateEntry_eq ht i (by rw [ite_self]; exact hi) hlen hlinked, fun hp' hm hdrop => ?_⟩
  have hd' : ∀ q, p'.tables.descend q = if r ++ [i] <+: q then none else p₁.tables.descend q := fun q => by
    rw [hp']
    exact hd q
  have hcard : ∀ k, (p'.tables.linked k).encard + (if k = r.length + 1 then 1 else 0) =
      (p₁.tables.linked k).encard := by
    intro k
    rw [hp']
    exact hg.inv.tree.encard_linked_prune ht i hlinked hbare k
  refine ⟨⟨⟨hm ▸ hg.inv.mode, ?_⟩, fun q hq => ?_, ⟨?_, ?_, ?_⟩⟩, hm.trans hmode, fun q => ?_⟩
  · rw [hm, TreeInv, hp']
    exact hg.inv.tree.prune ht i
  · rw [hd'] at hq
    split at hq
    · cases hq
    · exact hg.within q hq
  · rw [hdrop.pdp]
    exact counter_of_drop (hcard 1) hg.counted.pdp
  · rw [hdrop.pd]
    exact counter_of_drop (hcard 2) hg.counted.pd
  · rw [hdrop.pt]
    exact counter_of_drop (hcard 3) hg.counted.pt
  · rw [hd']
    split
    · rfl
    · next hq => exact hkeep q hq

theorem Good.removePageTable (hg : Good p) (hm : p.mode = .longModeNormal) {i j k : Nat} (hi : i < 512) (hj : j < 512)
    (hk : k < 512) : ∃ p', p.removePageTable i j k = some (p', true) ∧ Removed p p' [i, j, k] := by
  have htree := hg.inv.tree
  rw [hm] at htree
  have hroot := htree.nextTable_root hi (by decide)
  cases h₁ : p.tables.descend [i] with
  | none =>
    refine ⟨p, ?_, hg.removed_self (descend_append_none h₁ [j, k])⟩
    simp [LongModePaging.removePageTable, hm, hroot, h₁]
  | some t =>
    have hnext : p.tables.nextTable t j = some (p.tables.descend [i, j]) :=
      htree.nextTable_descend h₁ hj (by simp [depth])
    cases h₂ : p.tables.descend [i, j] with
    | none =>
      refine ⟨p, ?_, hg.removed_self (descend_append_none h₂ [k])⟩
      simp [LongModePaging.removePageTable, hm, hroot, h₁, hnext, h₂]
    | some u =>
      have hnext' : p.tables.nextTable u k = some (p.tables.descend [i, j, k]) :=
        htree.nextTable_descend h₂ hk (by simp [depth])
      cases h₃ : p.tables.descend [i, j, k] with
      | none =>
        refine ⟨p, ?_, hg.removed_self h₃⟩
        simp [LongModePaging.removePageTable, hm, hroot, h₁, hnext, h₂, hnext', h₃]
      | some v =>
        obtain ⟨hcut, hremoved⟩ := Emptied.cut (r := [i, j]) (i := k) (hg.emptied_of_depth (by rw [hm]; rfl)) h₂ hk
          (by rw [hm]; exact lt_succ_self 2) (isSome_of_eq_some h₃)
        refine ⟨{ p with tables := p.tables.prune u k, curPtNum := decrement p.curPtNum }, ?_,
          hremoved rfl rfl ⟨rfl, rfl, rfl⟩⟩
        simp [LongModePaging.removePageTable, hm, hroot, h₁, hnext, h₂, hnext', h₃, hcut]

variable {t : Nat}

/-- The loop over the entries of a table removes what they point to and nothing else. -/
theorem removeEach_spec {remove : LongModePaging → Nat → Option (LongModePaging × Bool)} {mode : PagingStyle}
    (hlen : path.length < depth mode) (hremove : ∀ p i, Good p → p.mode = mode → i < 512 →
      ∃ p', remove p i = some (p', true) ∧ Removed p p' (path ++ [i])) (ids : List Nat) :
    ∀ {p : LongModePaging}, Good p → p.mode = mode → p.tables.descend path = some t → (∀ i ∈ ids, i < 512) →
      ∃ p', removeEach remove t ids p = some (p', true) ∧ Good p' ∧ p'.mode = mode ∧
        ∀ q, p'.tables.descend q = if ∃ i ∈ ids, path ++ [i] <+: q then none else p.tables.descend q := by
  induction ids with
  | nil => exact fun {p} hg hm _ _ => ⟨p, rfl, hg, hm, by simp⟩
  | cons i ids ih =>
    intro p hg hm ht hids
    have hi : i < 512 := hids i mem_cons_self
    have hrest : ∀ j ∈ ids, j < 512 := fun j hj => hids j (mem_cons_of_mem i hj)
    have hpresent := hg.inv.tree.isPresent_eq ht (i := i) (by rw [ite_self]; exact hi) (by rw [hm]; exact hlen)
    rw [← descend_concat ht] at hpresent
    cases hchild : p.tables.descend (path ++ [i]) with
    | none =>
      obtain ⟨p', hp', hg', hm', hd⟩ := ih hg hm ht hrest
      refine ⟨p', ?_, hg', hm', fun q => ?_⟩
      · simp [removeEach, hpresent, hchild, hp']
      · rw [hd]
        by_cases hq : path ++ [i] <+: q
        · obtain ⟨r, rfl⟩ := hq
          rw [descend_append_none hchild r, ite_self, ite_self]
        · simp [hq]
    | some u =>
      obtain ⟨p₁, hp₁, hg₁, hm₁, hd₁⟩ := hremove p i hg hm hi
      have ht₁ : p₁.tables.descend path = some t := by rw [hd₁, if_neg (not_append_prefix_self path i), ht]
      obtain ⟨p', hp', hg', hm', hd⟩ := ih hg₁ (hm₁.trans hm) ht₁ hrest
      refine ⟨p', ?_, hg', hm', fun q => ?_⟩
      · simp [removeEach, hpresent, hchild, hp₁, hp']
      · rw [hd, hd₁]
        by_cases hq : path ++ [i] <+: q <;> simp [hq]

theorem emptied_of_loop (hg : Good p') (hm : p'.mode = p.mode) (hd : ∀ q, p'.tables.descend q =
      if ∃ i ∈ List.range 512, path ++ [i] <+: q then none else p.tables.descend q) : Emptied p p' path := by
  refine ⟨hg, hm, ?_, ?_, ?_⟩
  · rw [hd, if_neg]
    rintro ⟨i, -, hpre⟩
    exact not_append_prefix_self path i hpre
  · rintro q hq ⟨r, rfl⟩
    cases r with
    | nil => exact append_nil path
    | cons i r =>
      have hi : i < 512 := hg.within _ hq i (mem_append_right path mem_cons_self)
      rw [hd, if_pos ⟨i, mem_range.mpr hi, ⟨r, by simp⟩⟩] at hq
      cases hq
  · intro q hq
    rw [hd, if_neg]
    rintro ⟨i, -, hpre⟩
    exact hq ((List.prefix_append path [i]).trans hpre)

section

variable (hg : Good p) (hm : p.mode ≠ .longModeHuge) (hi : i < 512) (hj : j < 512)
include hg hm hi hj

theorem Good.removePageTables (ht : p.tables.descend [i, j] = some t) :
    ∃ p₁, p.removePageTables i j t = some (p₁, true) ∧ Emptied p p₁ [i, j] := by
  by_cases hnormal : p.mode = .longModeNormal
  · have hlen : [i, j].length < depth .longModeNormal := lt_succ_self 2
    have hremove : ∀ p k, Good p → p.mode = .longModeNormal → k < 512 →
        ∃ p', p.removePageTable i j k = some (p', true) ∧ Removed p p' ([i, j] ++ [k]) :=
      fun _ _ hg hm hk => hg.removePageTable hm hi hj hk
    obtain ⟨p₁, hp₁, hg₁, hm₁, hd⟩ := removeEach_spec hlen hremove (List.range 512) hg hnormal ht
      fun k hk => mem_range.mp hk
    exact ⟨p₁, by rw [LongModePaging.removePageTables, if_pos hnormal, hp₁],
      emptied_of_loop hg₁ (hm₁.trans hnormal.symm) hd⟩
  · refine ⟨p, by rw [LongModePaging.removePageTables, if_neg hnormal], hg.emptied_of_depth ?_⟩
    rw [((isLongMode_iff.mp hg.inv.mode).resolve_left hnormal).resolve_right hm]
    rfl

theorem Good.removePageDirectory :
    ∃ p', p.removePageDirectory i j = some (p', true) ∧ Removed p p' [i, j] := by
  have hdepth := one_lt_depth hg.inv.mode hm
  have hroot := hg.inv.tree.nextTable_root hi (Nat.zero_lt_of_lt hdepth)
  cases h₁ : p.tables.descend [i] with
  | none =>
    refine ⟨p, ?_, hg.removed_self (descend_append_none h₁ [j])⟩
    simp [LongModePaging.removePageDirectory, hm, hi, hj, hroot, h₁]
  | some t =>
    have hnext : p.tables.nextTable t j = some (p.tables.descend [i, j]) :=
      hg.inv.tree.nextTable_descend h₁ hj hdepth
    cases h₂ : p.tables.descend [i, j] with
    | none =>
      refine ⟨p, ?_, hg.removed_self h₂⟩
      simp [LongModePaging.removePageDirectory, hm, hi, hj, hroot, h₁, hnext, h₂]
    | some u =>
      obtain ⟨p₁, hp₁, hempty⟩ := hg.removePageTables hm hi hj h₂
      obtain ⟨hcut, hremoved⟩ := Emptied.cut (r := [i]) hempty h₁ hj hdepth (isSome_of_eq_some h₂)
      refine ⟨{ p₁ with tables := p₁.tables.prune t j, curPdNum := decrement p₁.curPdNum }, ?_,
        hremoved rfl rfl ⟨rfl, rfl, rfl⟩⟩
      simp [LongModePaging.removePageDirectory, hm, hi, hj, hroot, h₁, hnext, h₂, hp₁, hcut]

end

theorem Good.removePageDirectories (hg : Good p) (hi : i < 512) (ht : p.tables.descend [i] = some t) :
    ∃ p₁, p.removePageDirectories i t = some (p₁, true) ∧ Emptied p p₁ [i] := by
  by_cases hhuge : p.mode = .longModeHuge
  · refine ⟨p, by rw [LongModePaging.removePageDirectories, if_neg (not_not_intro hhuge)], hg.emptied_of_depth ?_⟩
    rw [hhuge]
    rfl
  · have hlen : [i].length < depth p.mode := one_lt_depth hg.inv.mode hhuge
    obtain ⟨p₁, hp₁, hg₁, hm₁, hd⟩ := removeEach_spec hlen
      (fun p' j hg hm hj => hg.removePageDirectory (by rw [hm]; exact hhuge) hi hj) (List.range 512) hg rfl ht
      fun k hk => mem_range.mp hk
    exact ⟨p₁, by rw [LongModePaging.removePageDirectories, if_pos hhuge, hp₁], emptied_of_loop hg₁ hm₁ hd⟩

theorem Good.removePageDirectoryPointer (hg : Good p) (hi : i < 512) :
    ∃ p', p.removePageDirectoryPointer i = some (p', true) ∧ Removed p p' [i] := by
  have hdepth := depth_pos hg.inv.mode
  have hroot := hg.inv.tree.nextTable_root hi hdepth
  cases h₁ : p.tables.descend [i] with
  | none =>
    refine ⟨p, ?_, hg.removed_self h₁⟩
    simp [LongModePaging.removePageDirectoryPointer, hroot, h₁]
  | some t =>
    obtain ⟨p₁, hp₁, hempty⟩ := hg.removePageDirectories hi h₁
    obtain ⟨hcut, hremoved⟩ := Emptied.cut (r := []) hempty rfl hi hdepth (isSome_of_eq_some h₁)
    refine ⟨{ p₁ with tables := p₁.tables.prune 0 i, curPdpNum := decrement p₁.curPdpNum }, ?_,
      hremoved rfl rfl ⟨rfl, rfl, rfl⟩⟩
    simp [LongModePaging.removePageDirectoryPointer, hroot, h₁, hp₁, hcut]

theorem Good.removeRange (hi : i < 512) (hj : j < 512) (n : Nat) :
    ∀ {p : LongModePaging} {k : Nat}, Good p → p.mode = .longModeNormal → k + n ≤ 512 →
      ∃ p', p.removeRange i j k n = some p' ∧ Good p' ∧ p'.mode = p.mode ∧
        Unlinks p.tables p'.tables fun r => ∃ m, k ≤ m ∧ m < k + n ∧ r = [i, j, m] := by
  induction n with
  | zero =>
    intro p k hg _ _
    exact ⟨p, rfl, hg, rfl, (Unlinks.refl p.tables).congr fun r => iff_of_false id (not_slots_zero _ k r)⟩
  | succ n ih =>
    intro p k hg hm hk
    obtain ⟨p₁, hp₁, hg₁, hm₁, hd₁⟩ := hg.removePageTable hm hi hj (by omega : k < 512)
    obtain ⟨p₂, hp₂, hg₂, hm₂, hu₂⟩ := ih hg₁ (hm₁.trans hm) (by omega : k + 1 + n ≤ 512)
    refine ⟨p₂, ?_, hg₂, hm₂.trans hm₁, ((Unlinks.of_descend hd₁).trans hu₂).congr (slots_succ (fun m => [i, j, m]) k n)⟩
    simp [LongModePaging.removeRange, hp₁, hp₂]

end Shma.PageTable.LongModePaging
