import Mathlib.Algebra.BigOperators.Ring.Finset
import Mathlib.Algebra.Order.BigOperators.Group.List
import Mathlib.Data.Int.ModEq
import Shma.Mmu.PageAccounting

/-!
# Freeing blocks

`free_one_page` follows the buddies upwards, counts and marks, and puts nothing into any list. Seen
from the lists a call of it does not happen: the allocator goes on like one to which nothing is ever
given back, and only the numbers in `nr_free` drift away from it, by the pages freed.
-/
namespace Shma.Mmu

open Lib.Dyadic Lib.Run

/-! ### The source -/

def findBuddyIndex (pageNo order : Nat) : Nat := pageNo ^^^ 1 <<< order

def MemMap.clearPageBuddy (m : MemMap) (pageId : Address) : Option MemMap := do
  let page ← m.getPagePtr pageId
  assertThat ((m.page page).mapCount = pageBuddyMapcountValue)
  return m.modify page fun p => { p with mapCount := -1 }

def MemMap.setPagePrivate (m : MemMap) (pageId : Address) (order : Nat) : Option MemMap :=
  (m.getPagePtr pageId).map fun page => m.modify page fun p => { p with private_ := order }

/-- `page_is_buddy(page_id, buddy_id, order)`. Nothing sets the fields `node` and `zone` of a page;
`samePlace` is what comparing those of two pages gives. -/
def MemMap.pageIsBuddy (m : MemMap) (samePlace : Address → Address → Bool) (pageId buddyId : Address) (order : Nat) :
    Option Bool := do
  let buddy ← m.getPagePtr buddyId
  if (m.page buddy).private_ = order then
    let page ← m.getPagePtr pageId
    return samePlace page buddy
  else return false

def Zone.addFree (z : Zone) (order : Nat) : Zone :=
  z.setArea order { z.freeArea order with nrFree := ((z.freeArea order).nrFree + 1) % 2^64 }

def Zone.subFree (z : Zone) (order : Nat) : Zone :=
  z.setArea order { z.freeArea order with nrFree := subU64 (z.freeArea order).nrFree 1 }

/-- The loop of `free_one_page` for at most `n` more orders: the page number and the order it ends
with. -/
def freeLoop (samePlace : Address → Address → Bool) (pageNo : Address) :
    (n : Nat) → (pageId order : Nat) → Alloc → Option (Nat × Nat × Alloc)
  | 0, pageId, order, s => some (pageId, order, s)
  | n + 1, pageId, order, s => do
    let buddyId := findBuddyIndex pageId order
    if ← s.mem.pageIsBuddy samePlace pageNo buddyId order then
      let mem ← s.mem.clearPageBuddy buddyId
      let mem ← mem.setPagePrivate buddyId 0
      freeLoop samePlace pageNo n (buddyId &&& pageNo) (order + 1) { s with mem, zone := s.zone.subFree order }
    else return (pageId, order, s)

def Alloc.freeOnePage (s : Alloc) (samePlace : Address → Address → Bool) (pageNo : Address) (order : Nat) :
    Option Alloc := do
  let (pageId, order, s) ←
    freeLoop samePlace pageNo (maxOrder - 1 - order) (pageNo &&& (1 <<< maxOrder - 1)) order s
  let page ← s.mem.getPagePtr pageId
  return { s with mem := s.mem.setPageOrder page order, zone := s.zone.addFree order }

/-! ### The allocator to which nothing is given back -/

/-- `s` has the lists of `t`, and counts `extra` more blocks. -/
structure Shadow (extra : Nat → Int) (s t : Alloc) : Prop where
  next : s.mem.next = t.mem.next
  nodePageNum : s.mem.nodePageNum = t.mem.nodePageNum
  blockList : ∀ k, (s.zone.freeArea k).blockList = (t.zone.freeArea k).blockList
  nrFree : ∀ k, ((s.zone.freeArea k).nrFree : Int) ≡ (t.zone.freeArea k).nrFree + extra k [ZMOD 2^64]

theorem intCast_subU64_one (a : Nat) : ((subU64 a 1 : Nat) : Int) ≡ a - 1 [ZMOD 2^64] := by
  unfold subU64
  rw [Int.ModEq]
  omega

theorem intCast_add_one_mod (a : Nat) : (((a + 1) % 2^64 : Nat) : Int) ≡ a + 1 [ZMOD 2^64] := by
  rw [Int.ModEq]
  omega

namespace Shadow

variable {extra : Nat → Int} {s t t' : Alloc}

theorem refl (s : Alloc) : Shadow (fun _ => 0) s s := ⟨rfl, rfl, fun _ => rfl, fun k => by rw [add_zero]⟩

variable (h : Shadow extra s t)
include h

theorem freeList_eq : s.freeList = t.freeList := by
  funext k
  rw [Alloc.freeList, Alloc.freeList, h.blockList, h.next, h.nodePageNum]

variable {order : Nat} {m : MemMap}

theorem setArea {a b : FreeArea} {m' : MemMap} {pages pages' num num' : Nat}
    (hnext : m.next = m'.next) (hnum : m.nodePageNum = m'.nodePageNum) (hlist : a.blockList = b.blockList)
    (hfree : (a.nrFree : Int) ≡ b.nrFree + extra order [ZMOD 2^64]) :
    Shadow extra ⟨m, { s.zone.setArea order a with freePages := pages }, num⟩
      ⟨m', { t.zone.setArea order b with freePages := pages' }, num'⟩ := by
  refine ⟨hnext, hnum, fun k => ?_, fun k => ?_⟩
  · by_cases hk : k = order
    · subst hk
      simpa [Zone.setArea] using hlist
    · simpa [Zone.setArea, hk] using h.blockList k
  · by_cases hk : k = order
    · subst hk
      simpa [Zone.setArea] using hfree
    · simpa [Zone.setArea, hk] using h.nrFree k

omit h in
theorem expand {pageId low : Nat} : ∀ (high size : Nat) {s t t' : Alloc}, Shadow extra s t →
    expand pageId low high size t = some t' → ∃ s', expand pageId low high size s = some s' ∧ Shadow extra s' t' := by
  intro high
  induction high with
  | zero =>
    intro size s t t' h ht
    cases ht
    exact ⟨s, rfl, h⟩
  | succ high ih =>
    intro size s t t' h ht
    unfold Mmu.expand at ht ⊢
    split at ht
    · next hlt =>
      obtain ⟨page, hpage, ht⟩ := bind_eq_some_iff.mp ht
      obtain ⟨r, hr, ht⟩ := bind_eq_some_iff.mp ht
      obtain ⟨⟨next', l⟩, hl, rfl⟩ := map_eq_some_iff.mp hr
      have hpage' : s.mem.getPagePtr (pageId + size / 2) = some page := by
        rw [MemMap.getPagePtr, h.nodePageNum]
        exact hpage
      have hpush : s.mem.pushBlockBack (s.zone.freeArea high).blockList page = some ({ s.mem with next := next' }, l) := by
        rw [MemMap.pushBlockBack, h.blockList, h.next, hl]
        rfl
      have hcount : (((s.zone.freeArea high).nrFree + 1 : Nat) : Int) ≡
          ((t.zone.freeArea high).nrFree + 1 : Nat) + extra high [ZMOD 2^64] := by
        have hsum := (h.nrFree high).add_right 1
        push_cast
        rwa [add_right_comm]
      rw [if_pos hlt]
      simp only [hpage', hpush, bind_some]
      refine ih _ (h.setArea ?_ ?_ ?_ ?_) ht
      · rfl
      · exact h.nodePageNum
      · rfl
      · exact hcount
    · next hge =>
      rw [if_neg hge]
      cases ht
      exact ⟨s, rfl, h⟩

theorem takeBlock {cur : Nat} {p : Address} (ht : takeBlock t order cur = some (p, t')) :
    ∃ s', takeBlock s order cur = some (p, s') ∧ Shadow extra s' t' := by
  obtain ⟨⟨page, mem, rest⟩, hfetch, ht⟩ := bind_eq_some_iff.mp ht
  obtain ⟨⟨q, next', l⟩, hl, heq⟩ := map_eq_some_iff.mp hfetch
  cases heq
  obtain ⟨u, hu, heq⟩ := map_eq_some_iff.mp ht
  cases heq
  have hfetch' : s.mem.fetchHead (s.zone.freeArea cur).blockList = some (q, { s.mem with next := next' }, l) := by
    rw [MemMap.fetchHead, h.blockList, h.next, hl]
    rfl
  have hcount : ((subU64 (s.zone.freeArea cur).nrFree 1 : Nat) : Int) ≡
      (subU64 (t.zone.freeArea cur).nrFree 1 : Nat) + extra cur [ZMOD 2^64] := by
    calc ((subU64 (s.zone.freeArea cur).nrFree 1 : Nat) : Int)
        ≡ (s.zone.freeArea cur).nrFree - 1 [ZMOD 2^64] := intCast_subU64_one _
      _ ≡ (t.zone.freeArea cur).nrFree + extra cur - 1 [ZMOD 2^64] := (h.nrFree cur).sub_right 1
      _ = (t.zone.freeArea cur).nrFree - 1 + extra cur := by ring
      _ ≡ (subU64 (t.zone.freeArea cur).nrFree 1 : Nat) + extra cur [ZMOD 2^64] :=
        (intCast_subU64_one _).symm.add_right _
  have hdetach : Shadow extra (s.detach order cur q { s.mem with next := next' } l)
      (t.detach order cur q { t.mem with next := next' } l) := h.setArea rfl h.nodePageNum rfl hcount
  obtain ⟨s', hs', hshadow⟩ := hdetach.expand _ _ hu
  refine ⟨s', ?_, hshadow⟩
  simp only [Mmu.takeBlock, hfetch', bind_some, hs', map_some]

variable {r : Option Address}

theorem rmqueueLoop (orders : List Nat) (ht : rmqueueLoop t order orders = some (r, t')) :
    ∃ s', rmqueueLoop s order orders = some (r, s') ∧ Shadow extra s' t' := by
  induction orders with
  | nil =>
    cases ht
    exact ⟨s, rfl, h⟩
  | cons cur orders ih =>
    unfold Mmu.rmqueueLoop at ht ⊢
    rw [h.blockList]
    split at ht
    · next hempty =>
      rw [if_pos hempty]
      exact ih ht
    · next hsome =>
      obtain ⟨⟨p, u⟩, hu, heq⟩ := map_eq_some_iff.mp ht
      cases heq
      obtain ⟨s', hs', hshadow⟩ := h.takeBlock hu
      refine ⟨s', ?_, hshadow⟩
      rw [if_neg hsome, hs', map_some]

theorem allocatePages (ht : t.allocatePages order = some (r, t')) :
    ∃ s', s.allocatePages order = some (r, s') ∧ Shadow extra s' t' :=
  h.rmqueueLoop _ ht

/-! ### Freeing -/

theorem count {d : Int} (hnext : m.next = s.mem.next) (hnum : m.nodePageNum = s.mem.nodePageNum) {nrFree : Nat}
    (hfree : (nrFree : Int) ≡ (s.zone.freeArea order).nrFree + d [ZMOD 2^64]) :
    Shadow (update extra order (extra order + d))
      { s with mem := m, zone := s.zone.setArea order { s.zone.freeArea order with nrFree := nrFree } } t := by
  refine ⟨hnext.trans h.next, hnum.trans h.nodePageNum, fun k => ?_, fun k => ?_⟩
  · by_cases hk : k = order
    · subst hk
      simpa [Zone.setArea] using h.blockList k
    · simpa [Zone.setArea, hk] using h.blockList k
  · by_cases hk : k = order
    · subst hk
      have hsum := hfree.trans ((h.nrFree k).add_right d)
      rw [add_assoc] at hsum
      simpa [Zone.setArea] using hsum
    · simpa [Zone.setArea, hk] using h.nrFree k

end Shadow

def extraPages (extra : Nat → Int) : Int := ∑ k ∈ Finset.range (maxOrder + 1), extra k * 2^k

theorem extraPages_update (extra : Nat → Int) {k : Nat} (hk : k ≤ maxOrder) (d : Int) :
    extraPages (update extra k (extra k + d)) = extraPages extra + d * 2^k := by
  have hmem : k ∈ Finset.range (maxOrder + 1) := Finset.mem_range.mpr (by omega)
  rw [extraPages, extraPages, ← Finset.add_sum_erase _ _ hmem, ← Finset.add_sum_erase _ (fun k => extra k * 2^k) hmem,
    update_self]
  have hrest : ∑ j ∈ (Finset.range (maxOrder + 1)).erase k, update extra k (extra k + d) j * 2^j =
      ∑ j ∈ (Finset.range (maxOrder + 1)).erase k, extra j * 2^j := by
    refine Finset.sum_congr rfl fun j hj => ?_
    rw [update_of_ne (Finset.ne_of_mem_erase hj)]
  rw [hrest]
  ring

variable {m m' : MemMap} {pageId : Address}

theorem clearPageBuddy_links (h : m.clearPageBuddy pageId = some m') :
    m'.next = m.next ∧ m'.nodePageNum = m.nodePageNum := by
  obtain ⟨page, -, h⟩ := bind_eq_some_iff.mp h
  obtain ⟨-, h⟩ := assertThat_bind_eq_some.mp h
  cases h
  exact ⟨rfl, rfl⟩

theorem setPagePrivate_links {order : Nat}
    (h : m.setPagePrivate pageId order = some m') : m'.next = m.next ∧ m'.nodePageNum = m.nodePageNum := by
  obtain ⟨page, -, rfl⟩ := map_eq_some_iff.mp h
  exact ⟨rfl, rfl⟩

section Free

variable {samePlace : Address → Address → Bool} {pageNo : Address}

/-- Each merge takes the pages of one block from the counters, and the block that is being freed
grows by as many. -/
theorem freeLoop_shadow (n : Nat) : ∀ {pageId order pageId' order' : Nat} {extra : Nat → Int} {s s' t : Alloc},
    Shadow extra s t → order + n ≤ maxOrder → freeLoop samePlace pageNo n pageId order s = some (pageId', order', s') →
      ∃ extra', Shadow extra' s' t ∧ order' ≤ maxOrder ∧
        extraPages extra' + 2^order' = extraPages extra + 2^order := by
  induction n with
  | zero =>
    intro pageId order pageId' order' extra s s' t h hle hr
    cases hr
    exact ⟨extra, h, hle, rfl⟩
  | succ n ih =>
    intro pageId order pageId' order' extra s s' t h hle hr
    obtain ⟨isBuddy, -, hr⟩ := bind_eq_some_iff.mp hr
    cases isBuddy with
    | false =>
      cases hr
      exact ⟨extra, h, by omega, rfl⟩
    | true =>
      obtain ⟨m1, hm1, hr⟩ := bind_eq_some_iff.mp hr
      obtain ⟨m2, hm2, hr⟩ := bind_eq_some_iff.mp hr
      obtain ⟨hnext1, hnum1⟩ := clearPageBuddy_links hm1
      obtain ⟨hnext2, hnum2⟩ := setPagePrivate_links hm2
      have hsub := h.count (d := -1) (hnext2.trans hnext1) (hnum2.trans hnum1)
        (intCast_subU64_one (s.zone.freeArea order).nrFree)
      obtain ⟨extra', h', hle', hpages⟩ := ih hsub (by omega) hr
      refine ⟨extra', h', hle', ?_⟩
      rw [hpages, extraPages_update extra (by omega)]
      ring

/-- A block that is freed adds its pages to the counters, and nothing to the lists. -/
theorem Shadow.freeOnePage {extra : Nat → Int} {s s' t : Alloc} (h : Shadow extra s t) {order : Nat}
    (horder : order ≤ maxOrder) (hr : s.freeOnePage samePlace pageNo order = some s') :
    ∃ extra', Shadow extra' s' t ∧ extraPages extra' = extraPages extra + 2^order := by
  obtain ⟨⟨pageId', order', s1⟩, hloop, hr⟩ := bind_eq_some_iff.mp hr
  obtain ⟨page, -, hr⟩ := bind_eq_some_iff.mp hr
  cases hr
  obtain ⟨extra1, h1, hle, hpages⟩ := freeLoop_shadow _ h (by omega) hloop
  have hadd := h1.count (m := s1.mem.setPageOrder page order') (d := 1) rfl rfl
    (intCast_add_one_mod (s1.zone.freeArea order').nrFree)
  refine ⟨_, hadd, ?_⟩
  rw [extraPages_update extra1 hle, one_mul]
  exact hpages

end Free

/-! ### Runs -/

inductive BuddyOp where
  | allocate (order : Nat)
  | free (b : Block)

/-- The allocator, all blocks that it has handed out and those that were freed since, newest
first. -/
structure BuddyLog where
  alloc : Alloc
  (handed freed : List Block)

namespace BuddyLog

def step (samePlace : Address → Address → Bool) (s : BuddyLog) : BuddyOp → Option BuddyLog
  | .allocate order => ((AllocLog.mk s.alloc s.handed).step order).map fun t => ⟨t.alloc, t.handed, s.freed⟩
  | .free b => (s.alloc.freeOnePage samePlace b.start b.order).map fun alloc => ⟨alloc, s.handed, b :: s.freed⟩

/-- A block that is freed has been handed out and not freed since. -/
def Allowed (s : BuddyLog) : BuddyOp → Prop
  | .allocate _ => True
  | .free b => b ∈ s.handed ∧ b ∉ s.freed

instance (s : BuddyLog) : ∀ op, Decidable (s.Allowed op)
  | .allocate _ => isTrue trivial
  | .free _ => inferInstanceAs (Decidable (_ ∧ _))

/-- Some later calls hand out the pages of `b`. -/
def Reusable (samePlace : Address → Address → Bool) (s : BuddyLog) (b : Block) : Prop :=
  ∃ ops s' new, AllSteps (step samePlace) Allowed s ops ∧ run (step samePlace) s ops = some s' ∧
    s'.handed = new ++ s.handed ∧ b.pages ⊆ pages new

/-- `t` has made the allocations of `s`, from `t0` on, and has got nothing back. -/
structure Drift (n : Nat) (t0 : AllocLog) (s : BuddyLog) (t : AllocLog) (extra : Nat → Int) : Prop where
  inv : t.Inv n
  handed : t.handed = s.handed
  shadow : Shadow extra s.alloc t.alloc
  extraPages : extraPages extra = handedPages s.freed
  order_le : ∀ b ∈ s.handed, b.order ≤ maxOrder
  freed_nodup : s.freed.Nodup
  freed_subset : s.freed ⊆ s.handed
  alloc_eq : s.freed = [] → s.alloc = t.alloc
  start_eq : t.handed = [] → t = t0

def Drifts (n : Nat) (t0 : AllocLog) (s : BuddyLog) : Prop := ∃ t extra, Drift n t0 s t extra

variable {samePlace : Address → Address → Bool} {n : Nat} {t0 t : AllocLog} {s s' : BuddyLog} {extra : Nat → Int}

variable {order : Nat}

theorem order_le_of_allocatePages {s s' : Alloc} {p : Address}
    (h : s.allocatePages order = some (some p, s')) : order ≤ maxOrder := by
  by_contra hgt
  have hnone : maxOrder + 1 - order = 0 := by omega
  rw [Alloc.allocatePages, rmqueuePageSmallest, hnone] at h
  cases h

theorem Drift.allocate (hn : n < 2^64) (h : Drift n t0 s t extra)
    (hstep : s.step samePlace (.allocate order) = some s') :
    Drifts n t0 s' ∧ ∃ new, s'.handed = new ++ s.handed := by
  rcases h.inv.allocatePages hn order with hr | ⟨p, a, hr, hinv⟩
  · obtain ⟨a', ha', hshadow⟩ := h.shadow.allocatePages hr
    rw [step, AllocLog.step, ha'] at hstep
    cases hstep
    refine ⟨⟨t, extra, { h with shadow := hshadow, alloc_eq := fun hfreed => ?_ }⟩, [], rfl⟩
    rw [h.alloc_eq hfreed, hr] at ha'
    cases ha'
    rfl
  · obtain ⟨a', ha', hshadow⟩ := h.shadow.allocatePages hr
    rw [step, AllocLog.step, ha'] at hstep
    cases hstep
    refine ⟨⟨⟨a, ⟨p, order⟩ :: t.handed⟩, extra, hinv, ?_, hshadow, h.extraPages, ?_, h.freed_nodup, ?_, ?_,
      fun hnil => absurd hnil (cons_ne_nil _ _)⟩, [⟨p, order⟩], rfl⟩
    · rw [h.handed]
    · exact forall_mem_cons.mpr ⟨order_le_of_allocatePages hr, h.order_le⟩
    · exact List.subset_cons_of_subset _ h.freed_subset
    · intro hfreed
      rw [h.alloc_eq hfreed, hr] at ha'
      cases ha'
      rfl

variable {b : Block}

theorem Drift.free (h : Drift n t0 s t extra) (hb : s.Allowed (.free b))
    (hstep : s.step samePlace (.free b) = some s') : Drifts n t0 s' ∧ ∃ new, s'.handed = new ++ s.handed := by
  obtain ⟨a, ha, rfl⟩ := map_eq_some_iff.mp hstep
  obtain ⟨extra', hshadow, hpages⟩ := h.shadow.freeOnePage (h.order_le b hb.1) ha
  refine ⟨⟨t, extra', h.inv, h.handed, hshadow, ?_, h.order_le, nodup_cons.mpr ⟨hb.2, h.freed_nodup⟩,
    List.cons_subset.mpr ⟨hb.1, h.freed_subset⟩, nofun, h.start_eq⟩, [], rfl⟩
  rw [hpages, h.extraPages, handedPages_cons, Nat.one_shiftLeft]
  rfl

theorem Drifts.step (hn : n < 2^64) (h : s.Drifts n t0) {op : BuddyOp} (hop : s.Allowed op)
    (hstep : s.step samePlace op = some s') : s'.Drifts n t0 ∧ ∃ new, s'.handed = new ++ s.handed := by
  obtain ⟨t, extra, h⟩ := h
  cases op with
  | allocate order => exact h.allocate hn hstep
  | free b => exact h.free hop hstep

theorem Drifts.of_run (hn : n < 2^64) (h : s.Drifts n t0) {ops : List BuddyOp}
    (hops : AllSteps (BuddyLog.step samePlace) Allowed s ops) (hr : run (BuddyLog.step samePlace) s ops = some s') :
    s'.Drifts n t0 ∧ ∃ new, s'.handed = new ++ s.handed := by
  have hstep : ∀ (u : BuddyLog) (op : BuddyOp) (u' : BuddyLog), (u.Drifts n t0 ∧ ∃ new, u.handed = new ++ s.handed) → u.Allowed op →
      u.step samePlace op = some u' → u'.Drifts n t0 ∧ ∃ new, u'.handed = new ++ s.handed := by
    rintro u op u' ⟨hu, new, hnew⟩ hop hu'
    obtain ⟨hdrifts, new', hnew'⟩ := hu.step hn hop hu'
    exact ⟨hdrifts, new' ++ new, by rw [hnew', hnew, append_assoc]⟩
  exact run_invariant (BuddyLog.step samePlace) hstep ops ⟨h, [], rfl⟩ hops hr

/-! ### What freeing does not do -/

variable {bs : List Block}

theorem handedPages_le_of_subset {cs : List Block} (hn : bs.Nodup) (hsub : bs ⊆ cs) :
    handedPages bs ≤ handedPages cs := by
  obtain ⟨ds, hperm, hsublist⟩ := hn.subperm hsub
  rw [handedPages, handedPages, ← (hperm.map _).sum_eq]
  exact (hsublist.map _).sum_le_sum fun _ _ => Nat.zero_le _

theorem handedPages_eq_zero (h : handedPages bs = 0) : bs = [] := by
  cases bs with
  | nil => rfl
  | cons b bs =>
    have hpos := Nat.two_pow_pos b.order
    rw [handedPages_cons, Nat.one_shiftLeft] at h
    omega

theorem Drift.counted_iff (hn : n < 2^64) (h : Drift n t0 s t extra) :
    (∀ k, (s.alloc.zone.freeArea k).nrFree = (s.alloc.freeList k).length) ↔ s.freed = [] := by
  have hlist := h.shadow.freeList_eq
  constructor
  · intro hcounted
    have hzero : ∀ k, extra k ≡ 0 [ZMOD 2^64] := by
      intro k
      have hk := h.shadow.nrFree k
      rw [hcounted k, hlist, (h.inv.represents k).2] at hk
      have hcancel := hk.symm.sub_right ((t.alloc.freeList k).length : Int)
      rwa [sub_self, add_sub_cancel_left] at hcancel
    have hsum : Mmu.extraPages extra ≡ 0 [ZMOD 2^64] := by
      refine Int.modEq_zero_iff_dvd.mpr (Finset.dvd_sum fun k _ => ?_)
      exact Dvd.dvd.mul_right (Int.modEq_zero_iff_dvd.mp (hzero k)) _
    have hle := handedPages_le_of_subset h.freed_nodup h.freed_subset
    have hadd := h.inv.pages_add
    rw [h.handed] at hadd
    rw [h.extraPages, Int.ModEq] at hsum
    exact handedPages_eq_zero (by omega)
  · intro hfreed k
    rw [h.alloc_eq hfreed]
    exact (h.inv.represents k).2

theorem Drifts.not_reusable (hn : n < 2^64) (h : s.Drifts n t0) (hb : b ∈ s.freed) : ¬ Reusable samePlace s b := by
  rintro ⟨ops, s', new, hops, hr, hnew, hpages⟩
  obtain ⟨t', extra', h'⟩ := (h.of_run hn hops hr).1
  obtain ⟨t, extra, h⟩ := h
  have hnodup := h'.inv.nodup
  rw [AllocLog.blocks, h'.handed, hnew, pages_append, pages_append, List.nodup_append'] at hnodup
  refine (List.nodup_append'.mp hnodup.2.1).2.2 (hpages (Tiling.start_mem b)) ?_
  exact mem_pages.mpr ⟨b, h.freed_subset hb, Tiling.start_mem b⟩

theorem handedPages_freeBlocks_congr {lists lists' : Nat → List Address} (h : ∀ k, (lists k).Perm (lists' k)) :
    handedPages (freeBlocks lists) = handedPages (freeBlocks lists') := by
  rw [handedPages_freeBlocks, handedPages_freeBlocks]
  simp only [(h _).length_eq]

theorem Drift.freeList_perm_iff (h : Drift n t0 s t extra) (h0 : t0.Inv n) (hfresh : t0.handed = []) :
    (∀ k, (s.alloc.freeList k).Perm (t0.alloc.freeList k)) ↔ s.handed = [] := by
  have hlist := h.shadow.freeList_eq
  constructor
  · intro hperm
    rw [hlist] at hperm
    have hpages := handedPages_freeBlocks_congr hperm
    have hadd := h.inv.free_add_handed
    have hadd0 := h0.free_add_handed
    rw [hfresh] at hadd0
    rw [h.handed] at hadd
    refine handedPages_eq_zero ?_
    have hnil : handedPages [] = 0 := rfl
    omega
  · intro hhanded k
    rw [hlist, h.start_eq (h.handed.trans hhanded)]

/-- From the lists that `free_area_init_zone` builds, after any sequence of allocations and of calls
of `free_one_page` for blocks that are allocated: the counters are right exactly if nothing has been
freed, all freed blocks can be handed out again exactly if there are none, and the lists are the
initial ones up to order exactly if nothing was handed out. -/
theorem freeing_restores_iff (samePlace : Address → Address → Bool) (z : Zone) (m : MemMap) (N freePageNum : Nat)
    (hN : N ≤ m.nodePageNum) (hword : N < 2^64) :
    ∃ m' z', z.freeAreaInitZone m N = some (m', z') ∧
    ∀ ops s, AllSteps (step samePlace) Allowed ⟨⟨m', z', freePageNum⟩, [], []⟩ ops →
      run (step samePlace) ⟨⟨m', z', freePageNum⟩, [], []⟩ ops = some s →
        ((∀ k, (s.alloc.zone.freeArea k).nrFree = (s.alloc.freeList k).length) ↔ s.freed = []) ∧
        ((∀ b ∈ s.freed, Reusable samePlace s b) ↔ s.freed = []) ∧
        ((∀ k, (s.alloc.freeList k).Perm (Alloc.freeList ⟨m', z', freePageNum⟩ k)) ↔ s.handed = []) := by
  obtain ⟨m', z', lists, hinit, hinv, -⟩ := freeAreaInitZone_spec z hN
  refine ⟨m', z', hinit, fun ops s hops hr => ?_⟩
  have hn : N - N % 2 < 2^64 := by omega
  let t0 : AllocLog := ⟨⟨m', z', freePageNum⟩, []⟩
  have h0 : t0.Inv (N - N % 2) := ⟨lists, hinv⟩
  have hstart : Drifts (N - N % 2) t0 ⟨t0.alloc, [], []⟩ := by
    refine ⟨t0, fun _ => 0, h0, rfl, .refl _, ?_, forall_mem_nil _, nodup_nil, List.Subset.refl _,
      fun _ => rfl, fun _ => rfl⟩
    simp [Mmu.extraPages, handedPages]
  have hdrifts := (hstart.of_run hn hops hr).1
  obtain ⟨t, extra, h⟩ := hdrifts
  refine ⟨h.counted_iff hn, ⟨fun hall => ?_, fun hnone => ?_⟩, h.freeList_perm_iff h0 rfl⟩
  · rw [List.eq_nil_iff_forall_not_mem]
    exact fun b hb => Drifts.not_reusable hn ⟨t, extra, h⟩ hb (hall b hb)
  · rw [hnone]
    exact forall_mem_nil _

def firstFreed : List BuddyOp := [.allocate 0, .free ⟨0, 0⟩]

theorem freeing_restores_iff_first :
    ∃ r, Zone.freeAreaInitZone ⟨.normal, 0, 4096, fun _ => .new⟩ (MemMap.new 4096) 4096 = some r ∧
      ∃ s, run (step fun _ _ => true) ⟨⟨r.1, r.2, 4096⟩, [], []⟩ firstFreed = some s ∧ s.freed = [⟨0, 0⟩] ∧
        ¬ Reusable (fun _ _ => true) s ⟨0, 0⟩ := by
  obtain ⟨m, z, hinit, hall⟩ := freeing_restores_iff (fun _ _ => true) ⟨.normal, 0, 4096, fun _ => .new⟩
    (MemMap.new 4096) 4096 4096 (Nat.le_refl _) (by decide)
  have hrun : ∃ r, Zone.freeAreaInitZone ⟨.normal, 0, 4096, fun _ => .new⟩ (MemMap.new 4096) 4096 = some r ∧
      AllSteps (step fun _ _ => true) Allowed ⟨⟨r.1, r.2, 4096⟩, [], []⟩ firstFreed ∧
      ∃ s, run (step fun _ _ => true) ⟨⟨r.1, r.2, 4096⟩, [], []⟩ firstFreed = some s ∧ s.freed = [⟨0, 0⟩] := by
    decide +kernel
  obtain ⟨r, hr, hops, s, hs, hfreed⟩ := hrun
  obtain rfl := mem_unique hinit hr
  have hreuse := (hall _ s hops hs).2.1
  refine ⟨_, hinit, s, hs, hfreed, fun hagain => ?_⟩
  rw [hfreed] at hreuse
  exact cons_ne_nil _ _ (hreuse.mp (List.forall_mem_singleton.mpr hagain))

/-- The page that was handed out and freed is in no list. The counters say that it was merged ten
times, with blocks that are still in their lists. -/
theorem freed_page_lost :
    ∃ r, Zone.freeAreaInitZone ⟨.normal, 0, 4096, fun _ => .new⟩ (MemMap.new 4096) 4096 = some r ∧
      ∃ s, run (step fun _ _ => true) ⟨⟨r.1, r.2, 4096⟩, [], []⟩ firstFreed = some s ∧
        (∀ k ≤ maxOrder, 0 ∉ s.alloc.freeList k) ∧
        (s.alloc.zone.freeArea 0).nrFree = 0 ∧ s.alloc.freeList 0 = [1] ∧
        (s.alloc.zone.freeArea 10).nrFree = 2 ∧ s.alloc.freeList 10 = [1024] := by
  decide +kernel

end BuddyLog

end Shma.Mmu
