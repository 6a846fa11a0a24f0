import Shma.PageTable.FiniteMap
import Shma.PageTable.NormalMap
import Shma.PageTable.TableCount

/-!
# Sequences of legacy calls

With 4 MB pages `NormalPaging` behaves as a finite map over every sequence of
calls. With 4 KB pages it does so only as long as no mapped page is unmapped:
`unmap_page_table` looks up the page table, does not keep the result, and returns
false with the mapping still in place.
-/
namespace Shma.PageTable.NormalPaging

open Lib Lib.Run PageTables
open FiniteMap (after after_concat)

def step (z : Zinfo) (p : NormalPaging) : PagingOp → Option NormalPaging
  | .map a t => (p.mapPageTable z a t t.isBlock).map (·.1)
  | .unmap a => (p.unmapPageTable a).map (·.1)

/-- Every walk of a 32-bit address returns and answers as the finite map. -/
def Agrees (z : Zinfo) (shift : Nat) (p : NormalPaging) (m : FiniteMap) : Prop :=
  ∀ f req, req.lineAddr < 2^32 → ∃ w, p.access z f req = some w ∧
    w.addr = ((m.contents (req.lineAddr >>> shift)).map (Target.ppn z)).getD pageFaultSig

/-- After every call the structure agrees with the finite map, and an `unmap` of a
page that had a target reported true. -/
def Refines (z : Zinfo) (mode : PagingStyle) (ops : List PagingOp) : Prop :=
  (∀ pre, pre <+: ops → ∃ p, run (step z) (new mode) pre = some p ∧
    p.Agrees z mode.pageShift (after mode.pageShift pre)) ∧
  ∀ pre a post, ops = pre ++ PagingOp.unmap a :: post →
    ((after mode.pageShift pre).contents (a >>> mode.pageShift)).isSome →
    ∃ p p', run (step z) (new mode) pre = some p ∧ p.unmapPageTable a = some (p', true)

def UnmapsNothing (shift : Nat) (ops : List PagingOp) : Prop :=
  ∀ pre a post, ops = pre ++ PagingOp.unmap a :: post →
    (after shift pre).contents (a >>> shift) = none

variable {mode : PagingStyle}

theorem slotOf_eq_iff (h : isLegacy mode) {a b : Nat} (ha : a < 2^32) (hb : b < 2^32) :
    slotOf a mode = slotOf b mode ↔ a >>> mode.pageShift = b >>> mode.pageShift := by
  rcases isLegacy_iff.mp h with rfl | rfl <;>
    simp only [slotOf, dirs, leafOff, getPageDirectoryOff, getPagetableOff, getBitValue_eq,
      PagingStyle.pageShift, shiftRight_eq_div_pow, Prod.mk.injEq, List.cons.injEq, and_true, true_and] <;>
    omega

/-! ## The number of page tables -/

def linked (p : NormalPaging) : Finset Nat :=
  (Finset.range 1024).filter fun i => (p.tables.descend [i]).isSome

theorem card_linked_le (p : NormalPaging) : p.linked.card ≤ 1024 :=
  (Finset.card_filter_le _ _).trans (Finset.card_range 1024).le

variable {p : NormalPaging} {i : Nat}

theorem mem_linked : i ∈ p.linked ↔ i < 1024 ∧ (p.tables.descend [i]).isSome := by
  rw [linked, Finset.mem_filter, Finset.mem_range]

variable {p' : NormalPaging}

theorem linked_of_links {p : NormalPaging} (h1 : i < 1024) (hl : Links p.tables p'.tables (· = [i])) :
    p'.linked = insert i p.linked := by
  ext j
  rw [Finset.mem_insert, mem_linked, mem_linked, hl.linked]
  constructor
  · rintro ⟨hj, h | ⟨r, rfl, hpre⟩⟩
    · exact .inr ⟨hj, h⟩
    · exact .inl (List.cons_prefix_cons.mp hpre).1
  · rintro (rfl | ⟨hj, h⟩)
    · exact ⟨h1, .inr ⟨[j], rfl, prefix_rfl⟩⟩
    · exact ⟨hj, .inl h⟩

theorem card_insert_linked (p : NormalPaging) (h1 : i < 1024) :
    (insert i p.linked).card = p.linked.card + if (p.tables.descend [i]).isSome then 0 else 1 := by
  rw [Finset.card_insert_eq_ite]
  by_cases hd : (p.tables.descend [i]).isSome
  · rw [if_pos (mem_linked.mpr ⟨h1, hd⟩), if_pos hd, Nat.add_zero]
  · rw [if_neg fun h => hd (mem_linked.mp h).2, if_neg hd]

theorem allocateOnePagetable_tableNum {p : NormalPaging} {i table n : Nat}
    (h : p.allocateOnePagetable i = some (p', table, n)) (hi : p.tables.Inv 1 1024 1024) (h1 : i < 1024) :
    p'.curPageTableNum = p.curPageTableNum + if (p.tables.descend [i]).isSome then 0 else 1 := by
  have hnext := hi.nextTable_root h1 (by decide)
  unfold allocateOnePagetable at h
  cases hd : p.tables.descend [i] with
  | some t =>
    simp only [hnext, hd, bind_eq_bind, bind_some, pure_def, some_inj,
      Prod.mk.injEq] at h
    simp [← h.1]
  | none =>
    simp only [hnext, hd, bind_eq_bind, bind_some, pure_def,
      bind_eq_some_iff, some_inj, Prod.mk.injEq] at h
    obtain ⟨-, -, -, -, rfl, -⟩ := h
    simp

variable {z : Zinfo}

variable {addr : Address} {tg : Target} {latency : Nat} {entry : Option (Nat × Nat)}

theorem mapPageTable_tableNum {p : NormalPaging} (h : p.mapPageTable z addr tg tg.isBlock = some (p', latency, entry))
    (hi : p.Inv) (hm : p.mode = .legacyNormal) :
    p'.curPageTableNum =
      p.curPageTableNum + if (p.tables.descend [getBitValue addr 22 31]).isSome then 0 else 1 := by
  have htree := hi.tree
  rw [hm] at htree
  simp only [mapPageTable, hm, getPageDirectoryOff, bind_eq_bind, pure_def] at h
  obtain ⟨⟨p₁, table, n⟩, hp₁, h⟩ := bind_eq_some_iff.mp h
  obtain ⟨⟨tables, e⟩, -, h⟩ := bind_eq_some_iff.mp h
  have hnum := allocateOnePagetable_tableNum hp₁ htree (ten_bits_lt addr 22)
  cases h
  exact hnum

def Counted (p : NormalPaging) : Prop := p.mode = .legacyNormal → p.curPageTableNum ≤ p.linked.card

theorem Counted.canMap (hc : p.Counted) (hi : p.Inv) (addr : Address) : p.CanMap addr := by
  rcases isLegacy_iff.mp hi.mode with hm | hm
  · exact .inr (.inl ((hc hm).trans p.card_linked_le))
  · exact .inl hm

theorem Counted.map {p : NormalPaging} (hc : p.Counted) (hi : p.Inv)
    (h : p.mapPageTable z addr tg tg.isBlock = some (p', latency, entry)) : p'.Counted := by
  obtain ⟨p₁, latency₁, h₁, ht, hmode⟩ := mapPageTable_eq z hi (hc.canMap hi addr) tg
  obtain rfl : p₁ = p' := congrArg Prod.fst (mem_unique h₁ h)
  intro hm
  rw [hmode] at hm
  have hnum := mapPageTable_tableNum h hi hm
  have hl : Links p.tables p₁.tables (· = [getBitValue addr 22 31]) := by
    have hmap := hi.tree.links_mapAt (dirs_length addr p.mode) (leafOff addr p.mode) tg
    rw [← ht, hm] at hmap
    exact hmap
  rw [linked_of_links (ten_bits_lt addr 22) hl, card_insert_linked p (ten_bits_lt addr 22), hnum]
  exact Nat.add_le_add_right (hc hm) _

/-! ## Unmapping -/

theorem unmapPageTable_normal (hi : p.Inv) (hm : p.mode = .legacyNormal) (addr : Address) :
    p.unmapPageTable addr = some (p, false) := by
  have hroot : p.tables.get 0 (getBitValue addr 22 31) = some (p.tables.tables.cell 0 (getBitValue addr 22 31)) :=
    hi.tree.get_eq (p := []) rfl (ten_bits_lt addr 22)
  simp [unmapPageTable, hm, getPageDirectoryOff, PageTables.getNextLevelAddress, hroot]

theorem unmapPageTable_huge (hi : p.Inv) (hm : p.mode = .legacyHuge) (addr : Address) :
    ∃ p', p.unmapPageTable addr = some (p', true) ∧ p'.Inv ∧ p'.mode = p.mode ∧
      ∀ b, p'.translate b = if slotOf b p.mode = slotOf addr p.mode then none else p.translate b := by
  obtain ⟨hinv, htr⟩ := hi.tree.unmapAt (dirs_length addr p.mode) (leafOff addr p.mode)
  have hclear := hi.tree.invalidatePage_eq (p := dirs addr p.mode) (t := 0) (by rw [hm]; rfl) (leafOff_lt hi.mode addr)
  refine ⟨{ p with tables := p.tables.unmapAt (dirs addr p.mode) (leafOff addr p.mode) }, ?_, ⟨hi.mode, hinv⟩,
    rfl, fun b => ?_⟩
  · rw [hm] at hclear
    simp only [leafOff] at hclear
    simp [unmapPageTable, hm, hclear, leafOff]
  · simp only [translate, slotOf, Prod.mk.injEq]
    exact htr _ _

/-! ## The simulation -/

structure Sim (mode : PagingStyle) (hist : List PagingOp) (p : NormalPaging) : Prop where
  inv : p.Inv
  mode_eq : p.mode = mode
  counted : p.Counted
  contents : ∀ a < 2^32, p.translate a =
    (after mode.pageShift hist).contents (a >>> mode.pageShift)

theorem sim_new (h : isLegacy mode) : Sim mode [] (new mode) :=
  ⟨inv_new h, rfl, fun _ => Nat.zero_le _, fun a _ => translate_new mode a⟩

variable {hist : List PagingOp}

variable {a : Address}

theorem sim_map (z : Zinfo) (h : Sim mode hist p) (ha : a < 2^32) (tg : Target) :
    ∃ p', p.step z (.map a tg) = some p' ∧ Sim mode (hist ++ [.map a tg]) p' := by
  obtain ⟨p', latency, entry, hr, -, hinv, hmode, htr⟩ :=
    mapPageTable_spec z h.inv (h.counted.canMap h.inv a) tg
  refine ⟨p', by rw [step, hr]; rfl, hinv, hmode.trans h.mode_eq, h.counted.map h.inv hr, fun b hb => ?_⟩
  rw [htr, h.contents b hb, after_concat, h.mode_eq]
  simp only [slotOf_eq_iff (h.mode_eq ▸ h.inv.mode) hb ha, FiniteMap.step, update_apply]

def MayCall (mode : PagingStyle) (hist : List PagingOp) (op : PagingOp) : Prop :=
  mode = .legacyHuge ∨ ∀ a, op = .unmap a →
    (after mode.pageShift hist).contents (a >>> mode.pageShift) = none

theorem sim_unmap (z : Zinfo) (h : Sim mode hist p) (ha : a < 2^32) (hmay : MayCall mode hist (.unmap a)) :
    ∃ p', p.step z (.unmap a) = some p' ∧ Sim mode (hist ++ [.unmap a]) p' := by
  by_cases hm : p.mode = .legacyHuge
  · obtain ⟨p', hr, hinv, hmode, htr⟩ := unmapPageTable_huge h.inv hm a
    have hcounted : p'.Counted := fun hn => by rw [hmode, hm] at hn; cases hn
    refine ⟨p', by rw [step, hr]; rfl, hinv, hmode.trans h.mode_eq, hcounted, fun b hb => ?_⟩
    rw [htr, h.contents b hb, after_concat, h.mode_eq]
    simp only [slotOf_eq_iff (h.mode_eq ▸ h.inv.mode) hb ha, FiniteMap.step, update_apply]
  · have hnormal := (isLegacy_iff.mp h.inv.mode).resolve_right hm
    have hnone := hmay.resolve_left (h.mode_eq ▸ hm) a rfl
    refine ⟨p, by rw [step, unmapPageTable_normal h.inv hnormal]; rfl, h.inv, h.mode_eq, h.counted, fun b hb => ?_⟩
    rw [h.contents b hb, after_concat, FiniteMap.step, ← hnone, update_eq_self]

theorem sim_step (z : Zinfo) (h : Sim mode hist p)
    {op : PagingOp} (hop : op.addr < 2^32) (hmay : MayCall mode hist op) :
    ∃ p', p.step z op = some p' ∧ Sim mode (hist ++ [op]) p' := by
  cases op with
  | map a tg => exact sim_map z h hop tg
  | unmap a => exact sim_unmap z h hop hmay

variable {ops : List PagingOp}

theorem run_sim (z : Zinfo) (hm : isLegacy mode) (hops : ∀ op ∈ ops, op.addr < 2^32)
    (hmay : ∀ pre op post, ops = pre ++ op :: post → MayCall mode pre op) :
    ∃ p, run (step z) (new mode) ops = some p ∧ Sim mode ops p := by
  let may := fun (hist : List PagingOp) (op : PagingOp) => op.addr < 2^32 ∧ MayCall mode hist op
  have hstep : ∀ hist p op, Sim mode hist p → True → may hist op →
      ∃ p', step z p op = some p' ∧ Sim mode (hist ++ [op]) p' :=
    fun _ _ _ h _ hmay => sim_step z h hmay.1 hmay.2
  have hall : ∀ pre op post, ops = pre ++ op :: post → may pre op :=
    fun pre op post he => ⟨hops op (by simp [he]), hmay pre op post he⟩
  exact run_history (step z) hstep ops (sim_new hm) (allSteps_of_forall _ (fun _ _ => trivial) _ _) hall

theorem Sim.agrees (z : Zinfo) (h : Sim mode hist p) : p.Agrees z mode.pageShift (after mode.pageShift hist) := by
  intro f req hreq
  obtain ⟨w, hw, ha⟩ := access_spec z h.inv f req
  rw [← h.contents _ hreq]
  exact ⟨w, hw, ha.addr⟩

/-- With 4 KB pages a sequence that refines the map never unmaps a mapped page. -/
theorem unmapsNothing_of_refines (hops : ∀ op ∈ ops, op.addr < 2^32)
    (href : Refines z .legacyNormal ops) : UnmapsNothing PagingStyle.legacyNormal.pageShift ops := by
  intro pre a post he
  -- the calls before this one may all be made, by induction on their number
  induction hn : pre.length using Nat.strong_induction_on generalizing pre a post with
  | _ n ih =>
    have hmay : ∀ p op q, pre = p ++ op :: q → MayCall .legacyNormal p op := by
      intro p op q hp
      refine .inr fun b hb => ?_
      subst hb
      exact ih p.length (by rw [← hn, hp]; simp) p b (q ++ .unmap a :: post) (by rw [he, hp]; simp) rfl
    obtain ⟨p, hr, hsim⟩ := run_sim z (show isLegacy .legacyNormal by decide)
      (fun op hop => hops op (by rw [he]; exact mem_append_left _ hop)) hmay
    by_contra hne
    obtain ⟨p₁, p', hr₁, hu⟩ := href.2 pre a post he (isSome_iff_ne_none.mpr hne)
    obtain rfl : p = p₁ := mem_unique hr hr₁
    rw [unmapPageTable_normal hsim.inv hsim.mode_eq] at hu
    cases hu

/-- Over any sequence of calls on 32-bit addresses, legacy paging is the finite map
after every call, and reports what it unmaps, exactly if its pages are huge or no
mapped page is unmapped. -/
theorem refines_iff_unmapsNothing (z : Zinfo) {mode : PagingStyle} (hm : isLegacy mode) {ops : List PagingOp}
    (hops : ∀ op ∈ ops, op.addr < 2^32) :
    Refines z mode ops ↔ mode = .legacyHuge ∨ UnmapsNothing mode.pageShift ops := by
  constructor
  · intro href
    rcases isLegacy_iff.mp hm with rfl | rfl
    · exact .inr (unmapsNothing_of_refines hops href)
    · exact .inl rfl
  · intro hcond
    have hrun : ∀ pre post, ops = pre ++ post → ∃ p, run (step z) (new mode) pre = some p ∧ Sim mode pre p := by
      intro pre post he
      refine run_sim z hm (fun op hop => hops op (by rw [he]; exact mem_append_left _ hop)) ?_
      intro p op q hp
      refine hcond.imp_right fun hnone a ha => hnone p a (q ++ post) ?_
      rw [he, hp, ha]
      simp
    refine ⟨fun pre hpre => ?_, fun pre a post he hsome => ?_⟩
    · obtain ⟨post, he⟩ := hpre
      obtain ⟨p, hr, hsim⟩ := hrun pre post he.symm
      exact ⟨p, hr, hsim.agrees z⟩
    · obtain ⟨p, hr, hsim⟩ := hrun pre _ he
      rcases hcond with rfl | hnone
      · obtain ⟨p', hu, -⟩ := unmapPageTable_huge hsim.inv hsim.mode_eq a
        exact ⟨p, p', hr, hu⟩
      · rw [hnone pre a post he] at hsome
        cases hsome

/-- Mapping two 4 KB pages and unmapping a third one. -/
theorem refines_iff_unmapsNothing_pair :
    Refines ⟨12, 12, 2^32, 1⟩ .legacyNormal [.map 0x1000 (.page 7), .map 0x2000 (.block 3), .unmap 0x3000] := by
  refine (refines_iff_unmapsNothing ⟨12, 12, 2^32, 1⟩ (by decide) (by decide)).mpr (.inr ?_)
  intro pre a post he
  rcases pre with - | ⟨x, - | ⟨y, - | ⟨w, pre⟩⟩⟩ <;> simp at he
  obtain ⟨rfl, rfl, rfl, -⟩ := he
  decide

/-- With 4 KB pages, unmapping a mapped page reports false and a walk still finds
the frame. -/
theorem unmap_mapped_not_refines :
    ¬ Refines ⟨12, 12, 2^32, 1⟩ .legacyNormal [.map 0x1000 (.page 7), .unmap 0x1000] := by
  intro href
  have hnone := unmapsNothing_of_refines (by decide) href [.map 0x1000 (.page 7)] 0x1000 [] rfl
  exact absurd hnone (by decide)

end Shma.PageTable.NormalPaging
