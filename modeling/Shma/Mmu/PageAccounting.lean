import Mathlib.Algebra.BigOperators.Group.List.Basic
import Shma.Mmu.BuddyInvariant

/-!
# The counters of free pages

`free_pages` of a zone and `free_page_num` of the allocator, against the blocks that the
free lists count. A block that is handed out takes `1UL>>order` from the first counter, which
is nothing unless the block is a single page, and `1UL<<order` from the second. Both start with
all pages, while the lists start without the odd last one.
-/
namespace Shma.Mmu

open Lib.Dyadic Lib.Run

def Zone.countedPages (z : Zone) : Nat :=
  ((List.range (maxOrder + 1)).map fun k => (z.freeArea k).nrFree * 2^k).sum

variable (bs : List Block)

def handedPages : Nat := (bs.map fun b => 2^b.order).sum

theorem length_pages : (pages bs).length = handedPages bs := by
  induction bs with
  | nil => rfl
  | cons b bs ih =>
    rw [pages_cons, length_append, ih, Block.pages, List.length_range', handedPages, handedPages, List.map_cons,
      List.sum_cons]

theorem handedPages_freeBlocks (lists : Nat → List Address) :
    handedPages (freeBlocks lists) = ((List.range (maxOrder + 1)).map fun k => (lists k).length * 2^k).sum := by
  rw [handedPages, freeBlocks, List.map_flatMap, List.flatMap_def, List.sum_flatten, List.map_map]
  congr 2
  funext k
  simp [Function.comp_def]

theorem AllocLog.Inv.free_add_handed {n : Nat} {s : AllocLog} (h : s.Inv n) :
    handedPages (freeBlocks s.alloc.freeList) + handedPages s.handed = n := by
  have hlength := h.zone.tiling.tile.length_eq
  rwa [pages_append, length_append, length_pages, length_pages, length_range] at hlength

theorem AllocLog.Inv.pages_add {n : Nat} {s : AllocLog} (h : s.Inv n) :
    s.alloc.zone.countedPages + handedPages s.handed = n := by
  have hadd := h.free_add_handed
  rw [handedPages_freeBlocks] at hadd
  simpa only [Zone.countedPages, (h.represents _).2] using hadd

/-! ### What an allocation does to the counters -/

theorem subU64_zero {x : Nat} (h : x < 2^64) : subU64 x 0 = x := by
  unfold subU64
  omega

theorem subU64_subU64 (x a b : Nat) : subU64 (subU64 x a) b = subU64 x (a + b) := by
  unfold subU64
  omega

theorem subU64_of_le {x a : Nat} (hle : a ≤ x) (hx : x < 2^64) : subU64 x a = x - a := by
  unfold subU64
  omega

def singlePages : Nat := bs.countP fun b => b.order = 0

theorem singlePages_cons (b : Block) (bs : List Block) : singlePages (b :: bs) = singlePages bs + 1 >>> b.order := by
  rw [singlePages, List.countP_cons, singlePages]
  by_cases h : b.order = 0
  · rw [h]
    rfl
  · rw [shiftRight_eq_div_pow, Nat.div_eq_of_lt (Nat.one_lt_two_pow h), if_neg (by simpa using h)]

theorem handedPages_cons (b : Block) (bs : List Block) : handedPages (b :: bs) = handedPages bs + 1 <<< b.order := by
  rw [handedPages, List.map_cons, List.sum_cons, Nat.one_shiftLeft, Nat.add_comm]
  rfl

structure AllocLog.Counts (n freePages freePageNum : Nat) (s : AllocLog) : Prop where
  inv : s.Inv n
  freePages_eq : s.alloc.zone.freePages = subU64 freePages (singlePages s.handed)
  freePageNum_eq : s.alloc.freePageNum = subU64 freePageNum (handedPages s.handed)

theorem AllocLog.Counts.step {n freePages freePageNum : Nat} (hn : n < 2^64) {s s' : AllocLog}
    (h : s.Counts n freePages freePageNum) {order : Nat} (hstep : s.step order = some s') :
    s'.Counts n freePages freePageNum ∧ s.handed ⊆ s'.handed := by
  rcases allocatePages_spec hn h.inv.zone order with ⟨hr, -⟩ | ⟨p, a, lists', hr, hinv', hcounters⟩
  · rw [AllocLog.step, hr] at hstep
    cases hstep
    exact ⟨h, List.Subset.refl _⟩
  · obtain ⟨hpages, hnum⟩ := Prod.mk.inj hcounters
    rw [AllocLog.step, hr] at hstep
    cases hstep
    refine ⟨⟨⟨lists', hinv'⟩, ?_, ?_⟩, List.subset_cons_self _ _⟩
    · rw [hpages, h.freePages_eq, subU64_subU64, singlePages_cons]
    · rw [hnum, h.freePageNum_eq, subU64_subU64, handedPages_cons]

theorem singlePages_le : singlePages bs ≤ handedPages bs := by
  induction bs with
  | nil => exact Nat.le_refl 0
  | cons b bs ih =>
    have hle : 1 >>> b.order ≤ 1 <<< b.order := by
      rw [shiftRight_eq_div_pow, Nat.one_shiftLeft]
      exact (Nat.div_le_self 1 _).trans Nat.one_le_two_pow
    rw [singlePages_cons, handedPages_cons]
    omega

theorem singlePages_eq_iff : singlePages bs = handedPages bs ↔ ∀ b ∈ bs, b.order = 0 := by
  induction bs with
  | nil => exact iff_of_true rfl (forall_mem_nil _)
  | cons b bs ih =>
    rw [singlePages_cons, handedPages_cons, forall_mem_cons, ← ih]
    have hle := singlePages_le bs
    rcases Nat.eq_zero_or_pos b.order with hzero | hpos
    · rw [hzero]
      simp
    · have hright : 1 >>> b.order = 0 := by
        rw [shiftRight_eq_div_pow, Nat.div_eq_of_lt (Nat.one_lt_two_pow hpos.ne')]
      have hleft : 0 < 1 <<< b.order := by
        rw [Nat.one_shiftLeft]
        exact Nat.two_pow_pos _
      refine iff_of_false (fun h => ?_) (fun h => hpos.ne' h.1)
      omega

/-! ### Runs -/

/-- Every state that a sequence of allocations goes through meets a condition. -/
def EveryState (s : AllocLog) (orders : List Nat) (P : AllocLog → Prop) : Prop :=
  ∀ pre, pre <+: orders → ∀ u, run AllocLog.step s pre = some u → P u

/-- On the way to a state the counters are kept, and what has been handed out is in the log of that
state. -/
theorem AllocLog.Counts.everyState {n freePages freePageNum : Nat} (hn : n < 2^64) {s s' : AllocLog}
    (h : s.Counts n freePages freePageNum) {orders : List Nat} (hrun : run AllocLog.step s orders = some s') :
    EveryState s orders fun u => u.Counts n freePages freePageNum ∧ u.handed ⊆ s'.handed := by
  rintro pre ⟨post, rfl⟩ u hu
  have hcounts : u.Counts n freePages freePageNum :=
    run_invariant_of_step AllocLog.step (fun s order t hs ht => (hs.step hn ht).1) pre h hu
  rw [run_append, hu, bind_some] at hrun
  have hlater := run_invariant_of_step AllocLog.step
    (fun s order t (hs : s.Counts n freePages freePageNum ∧ u.handed ⊆ s.handed) ht =>
      ⟨(hs.1.step hn ht).1, List.Subset.trans hs.2 (hs.1.step hn ht).2⟩) post ⟨hcounts, List.Subset.refl _⟩ hrun
  exact ⟨hcounts, hlater.2⟩

theorem freeAreaInitZone_freePages {z z' : Zone} {m m' : MemMap} {pageNumber : Nat}
    (h : z.freeAreaInitZone m pageNumber = some (m', z')) : z'.freePages = z.freePages := by
  obtain ⟨r, -, hr⟩ := map_eq_some_iff.mp h
  cases hr
  rfl

section Compare

variable {n freePages freePageNum : Nat} {s s' : AllocLog} {orders : List Nat}

section

variable (hn : n < 2^64) (h : s.Counts n freePages freePageNum) (hfresh : s.handed = [])
include hn h hfresh

theorem AllocLog.Counts.freePages_iff (hpages : freePages < 2^64) (hrun : run AllocLog.step s orders = some s') :
    EveryState s orders (fun u => u.alloc.zone.freePages = u.alloc.zone.countedPages) ↔
      freePages = n ∧ ∀ b ∈ s'.handed, b.order = 0 := by
  have hall := h.everyState hn hrun
  constructor
  · intro hright
    have hstart : freePages = n := by
      have heq : s.alloc.zone.freePages = s.alloc.zone.countedPages := hright [] List.nil_prefix s rfl
      have hsum := h.inv.pages_add
      rw [h.freePages_eq, hfresh, show singlePages [] = 0 from rfl, subU64_zero hpages] at heq
      rw [hfresh, show handedPages [] = 0 from rfl] at hsum
      omega
    refine ⟨hstart, (singlePages_eq_iff _).mp ?_⟩
    have hend := (hall orders (List.prefix_refl _) s' hrun).1
    have heq : s'.alloc.zone.freePages = s'.alloc.zone.countedPages := hright orders (List.prefix_refl _) s' hrun
    have hsum := hend.inv.pages_add
    have hle := singlePages_le s'.handed
    rw [hend.freePages_eq, subU64_of_le (by omega) hpages] at heq
    omega
  · rintro ⟨hstart, hsingle⟩ pre hpre u hu
    obtain ⟨hcounts, hsub⟩ := hall pre hpre u hu
    have hsum := hcounts.inv.pages_add
    have hsame := (singlePages_eq_iff u.handed).mpr fun b hb => hsingle b (hsub hb)
    rw [hcounts.freePages_eq, subU64_of_le (by omega) hpages]
    omega

theorem AllocLog.Counts.freePageNum_iff (hnum : freePageNum < 2^64) (hrun : run AllocLog.step s orders = some s') :
    EveryState s orders (fun u => u.alloc.freePageNum = u.alloc.zone.countedPages) ↔ freePageNum = n := by
  have hall := h.everyState hn hrun
  constructor
  · intro hright
    have heq : s.alloc.freePageNum = s.alloc.zone.countedPages := hright [] List.nil_prefix s rfl
    have hsum := h.inv.pages_add
    rw [h.freePageNum_eq, hfresh, show handedPages [] = 0 from rfl, subU64_zero hnum] at heq
    rw [hfresh, show handedPages [] = 0 from rfl] at hsum
    omega
  · intro hstart pre hpre u hu
    have hcounts := (hall pre hpre u hu).1
    have hsum := hcounts.inv.pages_add
    rw [hcounts.freePageNum_eq, subU64_of_le (by omega) hnum]
    omega

end

end Compare

/-- In a zone from frame `lo` to frame `hi`, after any sequence of allocations: `free_pages` has
been right all the time exactly if the zone starts at the remainder of its end and only single pages
were handed out, and if it is the only zone, `free_page_num` has been right all the time exactly if
the number of pages is even. -/
theorem page_accounting_iff (m : MemMap) (type : ZoneType) (lo hi freePageNum : Nat) (hlt : lo < hi)
    (hhi : hi ≤ m.nodePageNum) (hword : hi < 2^64) (hnum : freePageNum < 2^64) (orders : List Nat) :
    ∃ z m' z', Zone.new type lo hi = some z ∧ z.memmapInitZone m lo hi = some (m', z') ∧
    ∃ s, run AllocLog.step ⟨⟨m', z', freePageNum⟩, []⟩ orders = some s ∧
      (EveryState ⟨⟨m', z', freePageNum⟩, []⟩ orders (fun u => u.alloc.zone.freePages = u.alloc.zone.countedPages) ↔
        lo = hi % 2 ∧ ∀ b ∈ s.handed, b.order = 0) ∧
      (lo = 0 → freePageNum = hi →
        (EveryState ⟨⟨m', z', freePageNum⟩, []⟩ orders (fun u => u.alloc.freePageNum = u.alloc.zone.countedPages) ↔
          hi % 2 = 0)) := by
  obtain ⟨m', z', lists, hinit, hinv, -⟩ := freeAreaInitZone_spec
    { zoneType := type, zoneStartPfn := lo, freePages := hi - lo, freeArea := fun _ => .new } hhi
  have hpages : z'.freePages = hi - lo := freeAreaInitZone_freePages hinit
  have hn : hi - hi % 2 < 2^64 := by omega
  have hstart : AllocLog.Counts (hi - hi % 2) (hi - lo) freePageNum ⟨⟨m', z', freePageNum⟩, []⟩ := by
    refine ⟨⟨lists, hinv⟩, ?_, ?_⟩
    · exact hpages.trans (subU64_zero (by omega)).symm
    · exact (subU64_zero hnum).symm
  obtain ⟨s, hrun, -⟩ := AllocLog.run_inv hn hstart.inv orders
  refine ⟨_, m', z', if_pos hlt, hinit, s, hrun, ?_, fun hzero hall => ?_⟩
  · rw [hstart.freePages_iff hn rfl (by omega) hrun]
    refine and_congr_left' ?_
    omega
  · rw [hstart.freePageNum_iff hn rfl hnum hrun]
    omega

/-- Eight pages, of which three are handed out one by one. -/
theorem page_accounting_iff_single :
    ∃ r, Zone.memmapInitZone ⟨.normal, 0, 8, fun _ => .new⟩ (MemMap.new 8) 0 8 = some r ∧
      EveryState ⟨⟨r.1, r.2, 8⟩, []⟩ [0, 0, 0] (fun u => u.alloc.zone.freePages = u.alloc.zone.countedPages) ∧
      EveryState ⟨⟨r.1, r.2, 8⟩, []⟩ [0, 0, 0] (fun u => u.alloc.freePageNum = u.alloc.zone.countedPages) := by
  obtain ⟨z, m, z', hz, hinit, s, hrun, hpages, hnum⟩ := page_accounting_iff (MemMap.new 8) .normal 0 8 8
    (by decide) (Nat.le_refl 8) (by decide) (by decide) [0, 0, 0]
  cases hz
  have hsingle : ∃ r, Zone.memmapInitZone ⟨.normal, 0, 8, fun _ => .new⟩ (MemMap.new 8) 0 8 = some r ∧
      ∃ s, run AllocLog.step ⟨⟨r.1, r.2, 8⟩, []⟩ [0, 0, 0] = some s ∧ ∀ b ∈ s.handed, b.order = 0 := by
    decide +kernel
  obtain ⟨r, hr, t, ht, hall⟩ := hsingle
  obtain rfl := mem_unique hinit hr
  obtain rfl := mem_unique hrun ht
  exact ⟨_, hinit, hpages.mpr ⟨rfl, hall⟩, (hnum rfl rfl).mpr rfl⟩

/-- Of eight pages a block of two is handed out, and `free_pages` stays at eight. Of seven pages the
lists have six. -/
theorem page_accounting_wrong :
    (∃ r, Zone.memmapInitZone ⟨.normal, 0, 8, fun _ => .new⟩ (MemMap.new 8) 0 8 = some r ∧
      ∃ s, run AllocLog.step ⟨⟨r.1, r.2, 8⟩, []⟩ [1] = some s ∧
        s.alloc.zone.freePages = 8 ∧ s.alloc.zone.countedPages = 6) ∧
    ∃ r, Zone.memmapInitZone ⟨.normal, 0, 7, fun _ => .new⟩ (MemMap.new 7) 0 7 = some r ∧
      r.2.freePages = 7 ∧ r.2.countedPages = 6 := by
  decide +kernel

end Shma.Mmu
