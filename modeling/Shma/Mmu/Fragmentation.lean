import Mathlib.Algebra.Order.BigOperators.Group.List
import Shma.Mmu.PageAccounting

/-!
# Allocations alone do not fragment a zone

The search takes the smallest order that has a block, so the halves that `expand` gives back are the
only blocks of their orders. As long as nothing is freed, a request fails exactly if fewer pages are
left than it asks for, counted modulo `2^43`: the list of the largest order passes for empty if it
has a multiple of `2^32` blocks of `2^11` pages.
-/
namespace Shma.Mmu

open Lib.Dyadic Lib.Run

/-- Below the largest order there is at most one block of each. -/
def Sparse (area : Nat → FreeArea) : Prop := ∀ k < maxOrder, (area k).nrFree ≤ 1

/-! ### The lists at the start -/

section Init

variable {m m' : MemMap} {area area' : Nat → FreeArea} {n n' : Nat}

theorem pushBlocks_nrFree {order count : Nat} (h : pushBlocks order count m area n = some (m', area', n')) (k : Nat) :
    (area' k).nrFree = (area k).nrFree := by
  induction count generalizing m area n with
  | zero =>
    cases h
    rfl
  | succ count ih =>
    obtain ⟨page, -, h⟩ := bind_eq_some_iff.mp h
    obtain ⟨r, -, h⟩ := bind_eq_some_iff.mp h
    rw [ih h]
    by_cases hk : k = order
    · rw [hk, update_self]
    · rw [update_of_ne hk]

theorem freeAreaInitLoop_sparse {i pageNumber : Nat} (hs : Sparse area) (hsmall : i < maxOrder → pageNumber < 2^(i+1))
    (h : freeAreaInitLoop i m area pageNumber n = some (m', area')) : Sparse area' := by
  induction i generalizing m area pageNumber n with
  | zero =>
    cases h
    exact hs
  | succ i ih =>
    rw [freeAreaInitLoop] at h
    split at h
    · cases h
      exact hs
    · dsimp only at h
      split at h
      · obtain ⟨⟨m1, area1, n1⟩, hpush, h⟩ := bind_eq_some_iff.mp h
        refine ih (fun k hk => ?_) (fun _ => ?_) h
        · rw [pushBlocks_nrFree hpush]
          by_cases hi : k = i + 1
          · subst hi
            rw [update_self]
            exact Nat.le_of_lt_succ ((Nat.div_lt_iff_lt_mul (Nat.two_pow_pos _)).mpr (by omega))
          · rw [update_of_ne hi]
            exact hs k hk
        · rw [Nat.mul_comm, ← Nat.mod_eq_sub]
          exact mod_lt _ (Nat.two_pow_pos _)
      · next hnone =>
        refine ih hs (fun _ => ?_) h
        rcases Nat.div_eq_zero_iff.mp (Nat.eq_zero_of_not_pos hnone) with hzero | hlt
        · exact absurd hzero (Nat.two_pow_pos _).ne'
        · exact hlt

end Init

/-! ### Allocations -/

variable {s s' : Alloc}

theorem expand_nrFree {p low high size : Nat} (h : expand p low high size s = some s') (k : Nat) :
    (s'.zone.freeArea k).nrFree = (s.zone.freeArea k).nrFree + if low ≤ k ∧ k < high then 1 else 0 := by
  induction high generalizing s size with
  | zero =>
    cases h
    simp
  | succ high ih =>
    rw [expand] at h
    split at h
    · next hlow =>
      obtain ⟨page, -, h⟩ := bind_eq_some_iff.mp h
      obtain ⟨r, -, h⟩ := bind_eq_some_iff.mp h
      rw [ih h]
      simp only [Zone.setArea]
      by_cases hk : k = high
      · subst hk
        rw [update_self, if_neg (by omega), if_pos (by omega)]
      · rw [update_of_ne hk]
        congr 1
        exact if_congr (by omega) rfl rfl
    · cases h
      rw [if_neg (by omega), Nat.add_zero]

theorem rmqueueLoop_sparse
    (hsize : ∀ k < maxOrder, (s.zone.freeArea k).blockList.getSize = 0 ↔ (s.zone.freeArea k).nrFree = 0)
    (hs : Sparse s.zone.freeArea) {order cur count : Nat} {r : Option Address}
    (hempty : ∀ k < maxOrder, order ≤ k → k < cur → (s.zone.freeArea k).nrFree = 0)
    (h : rmqueueLoop s order (List.range' cur count) = some (r, s')) : Sparse s'.zone.freeArea := by
  induction count generalizing cur with
  | zero =>
    cases h
    exact hs
  | succ count ih =>
    rw [List.range'_succ, rmqueueLoop] at h
    split at h
    · next hzero =>
      refine ih (fun k hmax hle hlt => ?_) h
      by_cases hk : k = cur
      · subst hk
        exact (hsize k hmax).mp hzero
      · exact hempty k hmax hle (by omega)
    · next hne =>
      obtain ⟨r, htake, he⟩ := map_eq_some_iff.mp h
      cases he
      obtain ⟨⟨page, mem, rest⟩, -, htake⟩ := bind_eq_some_iff.mp htake
      obtain ⟨s1, hexpand, rfl⟩ := map_eq_some_iff.mp htake
      intro k hk
      have hle := hs k hk
      rw [expand_nrFree hexpand]
      simp only [Alloc.detach, Zone.setArea]
      by_cases hcur : k = cur
      · subst hcur
        rw [hsize k hk] at hne
        rw [update_self, if_neg (by omega), show (s.zone.freeArea k).nrFree = 1 by omega]
        exact Nat.zero_le 1
      · rw [update_of_ne hcur]
        -- the orders that `expand` adds a block to were found empty on the way
        split
        · next hin => rw [hempty k hk hin.1 hin.2]
        · exact hle

theorem rmqueueLoop_of_empty {order : Nat} {orders : List Nat}
    (h : ∀ k ∈ orders, (s.zone.freeArea k).blockList.getSize = 0) :
    rmqueueLoop s order orders = some (none, s) := by
  induction orders with
  | nil => rfl
  | cons cur orders ih =>
    rw [rmqueueLoop, if_pos (h cur mem_cons_self)]
    exact ih fun k hk => h k (mem_cons_of_mem cur hk)

theorem AllocLog.Inv.getSize_eq_zero_iff {n : Nat} {s : AllocLog} (h : s.Inv n) (k : Nat) :
    (s.alloc.zone.freeArea k).blockList.getSize = 0 ↔ (s.alloc.zone.freeArea k).nrFree % 2^32 = 0 := by
  obtain ⟨hrepr, hcount⟩ := h.represents k
  rw [FlexiList.getSize, hrepr.size_eq, hcount, bmod_natCast_eq_zero_iff]

theorem AllocLog.Inv.allocatePages_sparse {n order : Nat} {s : AllocLog} (h : s.Inv n)
    (hs : Sparse s.alloc.zone.freeArea) {r : Option Address} {a : Alloc}
    (hr : s.alloc.allocatePages order = some (r, a)) : Sparse a.zone.freeArea := by
  refine rmqueueLoop_sparse (fun k hk => ?_) hs (fun k _ hle hlt => absurd hlt (by omega)) hr
  have hle := hs k hk
  rw [h.getSize_eq_zero_iff]
  omega

/-! ### Requests that fail -/

theorem sum_two_pow_lt {c : Nat → Nat} (n order : Nat) (hone : ∀ k < n, c k ≤ 1)
    (hzero : ∀ k < n, order ≤ k → c k = 0) :
    ((List.range n).map fun k => c k * 2^k).sum < 2^min n order := by
  induction n with
  | zero => simp
  | succ n ih =>
    have ih := ih (fun k hk => hone k (by omega)) fun k hk => hzero k (by omega)
    rw [List.range_succ, map_append, List.sum_append, List.map_singleton, List.sum_singleton]
    by_cases hn : n < order
    · rw [Nat.min_eq_left (by omega)] at ih ⊢
      have hle := Nat.mul_le_mul_right (2^n) (hone n (by omega))
      omega
    · rw [Nat.min_eq_right (by omega)] at ih ⊢
      rw [hzero n (by omega) (by omega)]
      omega

theorem le_sum_two_pow (c : Nat → Nat) {n k : Nat} (hk : k < n) :
    c k * 2^k ≤ ((List.range n).map fun k => c k * 2^k).sum :=
  List.single_le_sum (fun _ _ => Nat.zero_le _) _ (mem_map.mpr ⟨k, mem_range.mpr hk, rfl⟩)

/-- A request fails exactly if the pages in the lists, modulo `2^43`, are fewer than it asks for. -/
theorem AllocLog.Inv.fails_iff {n order : Nat} {s : AllocLog} (hn : n < 2^64) (h : s.Inv n)
    (hs : Sparse s.alloc.zone.freeArea) (horder : order ≤ maxOrder) :
    s.alloc.allocatePages order = some (none, s.alloc) ↔ s.alloc.zone.countedPages % 2^43 < 2^order := by
  have hpow : 2^order ≤ 2^11 := Nat.pow_le_pow_right (by decide) horder
  have hcounted : s.alloc.zone.countedPages =
      ((List.range maxOrder).map fun k => (s.alloc.zone.freeArea k).nrFree * 2^k).sum +
        (s.alloc.zone.freeArea maxOrder).nrFree * 2^11 := by
    rw [Zone.countedPages, List.range_succ, map_append, List.sum_append, List.map_singleton,
      List.sum_singleton]
    rfl
  have hlow := sum_two_pow_lt maxOrder maxOrder hs fun k hk hle => absurd hk (by omega)
  have hlow : _ < 2^11 := hlow
  constructor
  · intro hr
    obtain ⟨hr', hnil⟩ | ⟨p, a, lists, hr', -⟩ := allocatePages_spec hn h.zone order
    · have hzero : ∀ k, order ≤ k → (s.alloc.zone.freeArea k).nrFree % 2^32 = 0 := fun k hk => by
        rw [(h.represents k).2]
        exact hnil k hk
      have hsum := sum_two_pow_lt maxOrder order hs fun k hk hle => by
        have hone := hs k hk
        have hk0 := hzero k hle
        omega
      rw [Nat.min_eq_right horder] at hsum
      have htop := hzero maxOrder horder
      omega
    · cases hr.symm.trans hr'
  · intro hlt
    refine rmqueueLoop_of_empty fun k hk => (h.getSize_eq_zero_iff k).mpr ?_
    obtain ⟨hle, hmax⟩ := mem_range'_1.mp hk
    by_cases htop : k = maxOrder
    · subst htop
      omega
    · -- a block of this order alone is as large as the request
      have hk : k < maxOrder := by omega
      have hterm := le_sum_two_pow (fun k => (s.alloc.zone.freeArea k).nrFree) hk
      have hpk : 2^order ≤ 2^k := Nat.pow_le_pow_right (by decide) hle
      have hone := hs k hk
      by_contra hne
      have hfree : (s.alloc.zone.freeArea k).nrFree = 1 := by omega
      simp only [hfree, Nat.one_mul] at hterm
      omega

theorem freeAreaInitZone_sparse {z z' : Zone} {m m' : MemMap} {pageNumber : Nat}
    (h : z.freeAreaInitZone m pageNumber = some (m', z')) : Sparse z'.freeArea := by
  obtain ⟨r, hloop, he⟩ := map_eq_some_iff.mp h
  cases he
  exact freeAreaInitLoop_sparse (fun _ _ => Nat.zero_le 1) (fun hlt => absurd hlt (Nat.lt_irrefl _)) hloop

/-- After any allocations a request fails exactly if fewer pages are left of those that the lists
had at the start, counted modulo `2^43`. -/
theorem allocation_fails_iff (z : Zone) (freePageNum : Nat) {N : Nat} (hN : N < 2^64) (orders : List Nat) {order : Nat}
    (horder : order ≤ maxOrder) :
    ∃ m z', z.freeAreaInitZone (MemMap.new N) N = some (m, z') ∧
    ∃ s, run AllocLog.step ⟨⟨m, z', freePageNum⟩, []⟩ orders = some s ∧
      (s.alloc.allocatePages order = some (none, s.alloc) ↔
        (N - N % 2 - handedPages s.handed) % 2^43 < 2^order) := by
  obtain ⟨m, z', lists, hinit, hinv, _⟩ := freeAreaInitZone_spec z (m := MemMap.new N) (Nat.le_refl N)
  have h0 : (AllocLog.mk ⟨m, z', freePageNum⟩ []).Inv (N - N % 2) := ⟨lists, hinv⟩
  have hn : N - N % 2 < 2^64 := by omega
  obtain ⟨s, hr, hs⟩ := AllocLog.run_inv hn h0 orders
  have hstep : ∀ t order t', t.Inv (N - N % 2) ∧ Sparse t.alloc.zone.freeArea → AllocLog.step t order = some t' →
      t'.Inv (N - N % 2) ∧ Sparse t'.alloc.zone.freeArea := by
    intro t order t' ht hstep
    obtain ⟨t1, ht1, hinv1⟩ := AllocLog.step_inv hn ht.1 order
    cases ht1.symm.trans hstep
    obtain ⟨⟨r, a⟩, hr, rfl⟩ := map_eq_some_iff.mp hstep
    exact ⟨hinv1, ht.1.allocatePages_sparse ht.2 hr⟩
  have hkept := run_invariant_of_step AllocLog.step hstep orders ⟨h0, freeAreaInitZone_sparse hinit⟩ hr
  refine ⟨m, z', hinit, s, hr, (hs.fails_iff hn hkept.2 horder).trans ?_⟩
  have hadd := hs.pages_add
  rw [show s.alloc.zone.countedPages = N - N % 2 - handedPages s.handed by omega]

/-- Of seven pages one is in no list, and five of the others are left after one is handed out. -/
theorem allocation_fails_iff_seven :
    ∃ m z', Zone.freeAreaInitZone ⟨.normal, 0, 7, fun _ => .new⟩ (MemMap.new 7) 7 = some (m, z') ∧
    ∃ s, run AllocLog.step ⟨⟨m, z', 7⟩, []⟩ [0] = some s ∧
      (s.alloc.allocatePages 2 = some (none, s.alloc) ↔
        (7 - 7 % 2 - handedPages s.handed) % 2^43 < 2^2) :=
  allocation_fails_iff ⟨.normal, 0, 7, fun _ => .new⟩ 7 (by decide) [0] (by decide)

end Shma.Mmu
