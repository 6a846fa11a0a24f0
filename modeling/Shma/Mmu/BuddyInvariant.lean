import Shma.Lib.Run
import Shma.Mmu.FreeLists

/-!
# The buddy allocator keeps its zone tiled

From the free lists built by `free_area_init_zone`, every sequence of
allocations keeps free and handed-out blocks a tiling of the same frames. The
initialisation stops at order 1, so an odd last page is never in any list.
-/
namespace Shma.Mmu

open Lib.Dyadic Lib.Run
open Function (update_eq_self_iff)

def Counted (area : Nat → FreeArea) (lists : Nat → List Address) : Prop :=
  ∀ k, (area k).nrFree = (lists k).length

theorem Counted.update {area : Nat → FreeArea} {lists : Nat → List Address} (h : Counted area lists)
    (k : Nat) {a : FreeArea} {as : List Address} (ha : a.nrFree = as.length) :
    Counted (update area k a) (update lists k as) := by
  intro j
  by_cases hj : j = k
  · subst hj; simpa using ha
  · rw [update_of_ne hj, update_of_ne hj]; exact h j

structure ZoneInv (m : MemMap) (area : Nat → FreeArea) (lists : Nat → List Address)
    (handed : List Block) (n : Nat) : Prop where
  tiling : Tiling m area lists handed n
  counted : Counted area lists

section Init

theorem pages_extend {bs : List Block} {n k : Nat} (h : (pages (bs ++ [])).Perm (List.range n)) :
    (pages (⟨n, k⟩ :: bs ++ [])).Perm (List.range (n + 2^k)) := by
  rw [append_nil] at *
  have hrange : List.range (n + 2^k) = List.range n ++ List.range' n (2^k) := by
    rw [List.range_eq_range', List.range_eq_range', ← List.range'_append_1, Nat.zero_add]
  rw [pages_cons, hrange]
  exact List.perm_append_comm.trans (h.append_right _)

variable {m : MemMap}

section

variable {area : Nat → FreeArea} {lists : Nat → List Address} {n : Nat}

theorem pushBlocks_spec {k : Nat} (hk : k ≤ maxOrder) (count : Nat) (h : Tiling m area lists [] n)
    (hd : 2^k ∣ n) (hb : n + count * 2^k ≤ m.nodePageNum) :
    ∃ m' area' lists', pushBlocks k count m area n = some (m', area', n + count * 2^k) ∧
      Tiling m' area' lists' [] (n + count * 2^k) ∧ m'.nodePageNum = m.nodePageNum ∧
      (area' k).nrFree = (area k).nrFree ∧ (lists' k).length = (lists k).length + count ∧
      ∀ j, j ≠ k → area' j = area j ∧ lists' j = lists j := by
  induction count generalizing m area lists n with
  | zero => exact ⟨m, area, lists, by simp [pushBlocks], by simpa using h, rfl, rfl, rfl, fun _ _ => ⟨rfl, rfl⟩⟩
  | succ count ih =>
    rw [Nat.succ_mul] at hb
    have hlt : n < m.nodePageNum := by omega
    have hget : m.getPagePtr n = some n := if_pos hlt
    have hfresh : ∀ j, n ∉ lists j := fun j hj => Nat.lt_irrefl n (h.lt_of_mem_lists hj)
    have haligned : ∀ b ∈ (⟨n, k⟩ : Block) :: freeBlocks lists ++ [], b.Aligned := by
      intro b hb
      rcases mem_cons.mp hb with rfl | hb
      · exact hd
      · exact h.aligned b hb
    obtain ⟨next', l', he, ht⟩ := h.push hk hfresh (pages_extend h.tile) haligned (by omega)
    obtain ⟨m', area', lists', hr, ht', hm, ha, hl, hj⟩ :=
      ih (ht (area k).nrFree m.page) (Nat.dvd_add hd (Nat.dvd_refl _))
        (by show n + 2^k + count * 2^k ≤ m.nodePageNum; omega)
    have hn : n + 2^k + count * 2^k = n + (count + 1) * 2^k := by rw [Nat.succ_mul]; omega
    rw [hn] at hr ht'
    refine ⟨m', area', lists', ?_, ht', hm, ?_, ?_, ?_⟩
    · simp only [pushBlocks, hget, bind_some, he]
      exact hr
    · rw [ha, update_self]
    · rw [hl, update_self, length_append, length_singleton]; omega
    · intro j hne
      have hjk := hj j hne
      rwa [update_of_ne hne, update_of_ne hne] at hjk

/-- The outer loop covers every frame up to the last even one. -/
theorem freeAreaInitLoop_spec (i : Nat) (hi : i ≤ maxOrder) (pageNumber : Nat)
    (h : ZoneInv m area lists [] n) (hempty : ∀ k ≤ i, lists k = []) (hd : 2^i ∣ n) (heven : 2 ∣ n)
    (hlast : i = 0 → pageNumber < 2) (hb : n + pageNumber ≤ m.nodePageNum) :
    ∃ m' area' lists', freeAreaInitLoop i m area pageNumber n = some (m', area') ∧
      ZoneInv m' area' lists' [] (n + pageNumber - pageNumber % 2) ∧ m'.nodePageNum = m.nodePageNum := by
  induction i generalizing m area lists pageNumber n with
  | zero =>
    have hmod : pageNumber % 2 = pageNumber := mod_eq_of_lt (hlast rfl)
    refine ⟨m, area, lists, rfl, ?_, rfl⟩
    rw [hmod, Nat.add_sub_cancel]
    exact h
  | succ i ih =>
    unfold freeAreaInitLoop
    by_cases h0 : pageNumber = 0
    · subst h0
      exact ⟨m, area, lists, by simp, by simpa using h, rfl⟩
    rw [if_neg h0]
    have hdi : 2^i ∣ n := (Nat.pow_dvd_pow 2 (Nat.le_succ i)).trans hd
    have htwo : 2 ∣ 2^(i+1) := Dvd.intro_left (2^i) (Nat.pow_succ 2 i).symm
    by_cases hblocks : 0 < pageNumber / 2^(i+1)
    · simp only [hblocks, if_true]
      set count := pageNumber / 2^(i+1) with hcount
      have hle : count * 2^(i+1) ≤ pageNumber := Nat.div_mul_le_self _ _
      have hrest : pageNumber - count * 2^(i+1) = pageNumber % 2^(i+1) := by
        rw [hcount, Nat.mul_comm]; exact (Nat.mod_eq_sub _ _).symm
      have h' : Tiling m (update area (i+1) { area (i+1) with nrFree := count }) lists [] n := by
        refine { h.tiling with queues := ?_ }
        rw [blockList_update, update_eq_self_iff.mpr rfl]
        exact h.tiling.queues
      obtain ⟨m', area', lists', hr, ht, hm, ha, hl, hj⟩ := pushBlocks_spec hi count h' hd (by omega)
      have hc : Counted area' lists' := by
        intro j
        by_cases hji : j = i+1
        · subst hji
          rw [ha, hl, update_self, hempty (i+1) (Nat.le_refl _)]; simp
        · rw [(hj j hji).1, (hj j hji).2, update_of_ne hji]; exact h.counted j
      obtain ⟨m'', area'', lists'', hr', hinv, hm'⟩ :=
        ih (by omega) (pageNumber - count * 2^(i+1)) ⟨ht, hc⟩
          (fun k hk => by rw [(hj k (by omega)).2]; exact hempty k (by omega))
          (Nat.dvd_add hdi (Dvd.dvd.mul_left (Nat.pow_dvd_pow 2 (Nat.le_succ i)) count))
          (Nat.dvd_add heven (Dvd.dvd.mul_left htwo count))
          (fun h0 => by subst h0; rw [hrest]; exact mod_lt _ (by decide)) (by omega)
      refine ⟨m'', area'', lists'', ?_, ?_, hm'.trans hm⟩
      · rw [hr]; exact hr'
      · have hmod : (pageNumber - count * 2^(i+1)) % 2 = pageNumber % 2 := by
          rw [hrest]; exact Nat.mod_mod_of_dvd _ htwo
        have hsum : n + count * 2^(i+1) + (pageNumber - count * 2^(i+1)) = n + pageNumber := by omega
        rw [hmod, hsum] at hinv
        exact hinv
    · simp only [hblocks, if_false]
      have hsmall : pageNumber < 2^(i+1) := by
        rcases Nat.div_eq_zero_iff.mp (Nat.eq_zero_of_not_pos hblocks) with h0 | hlt
        · exact absurd h0 (Nat.two_pow_pos _).ne'
        · exact hlt
      exact ih (by omega) pageNumber h (fun k hk => hempty k (by omega)) hdi heven
        (fun h0 => by subst h0; simpa using hsmall) hb

end

theorem freeAreaInitZone_spec (z : Zone) {pageNumber : Nat} (hb : pageNumber ≤ m.nodePageNum) :
    ∃ m' z' lists, z.freeAreaInitZone m pageNumber = some (m', z') ∧
      ZoneInv m' z'.freeArea lists [] (pageNumber - pageNumber % 2) ∧ m'.nodePageNum = m.nodePageNum := by
  have h0 : ZoneInv m (fun _ => FreeArea.new) (fun _ => []) [] 0 := by
    exact ⟨⟨FlexiList.queues_new, fun _ _ => rfl, by simp, by simp, Nat.zero_le _⟩, fun _ => rfl⟩
  obtain ⟨m', area, lists, hr, hinv, hm⟩ :=
    freeAreaInitLoop_spec maxOrder (Nat.le_refl _) pageNumber h0 (fun _ _ => rfl)
      (Nat.dvd_zero _) (Nat.dvd_zero _) (fun h => by simp [maxOrder] at h) (by omega)
  rw [Nat.zero_add] at hinv
  exact ⟨m', { z with freeArea := area }, lists, by simp [Zone.freeAreaInitZone, hr], hinv, hm⟩

end Init

section Allocate

variable {lists : Nat → List Address} {handed : List Block}

/-- Splitting a handed-out block: the upper half goes to the list of its order. -/
theorem Tiling.split {m : MemMap} {area : Nat → FreeArea}
    {n p k : Nat} (h : Tiling m area lists (⟨p, k+1⟩ :: handed) n) (hk : k ≤ maxOrder) :
    m.getPagePtr (p + 2^k) = some (p + 2^k) ∧
    ∃ next' l', m.pushBlockBack (area k).blockList (p + 2^k) = some ({ m with next := next' }, l') ∧
      ∀ nrFree page, Tiling { m with next := next', page := page }
        (update area k { blockList := l', nrFree := nrFree })
        (update lists k (lists k ++ [p + 2^k])) (⟨p, k⟩ :: handed) n := by
  have hpos : 0 < 2^k := Nat.two_pow_pos k
  have hmem : p + 2^k ∈ (Block.mk p (k+1)).pages := by
    rw [Block.mem_pages, Nat.pow_succ]
    exact ⟨Nat.le_add_right _ _, by show p + 2^k < p + 2^k * 2; omega⟩
  have hlt : p + 2^k < n := by
    rw [← h.mem_pages_iff, mem_pages]
    exact ⟨_, mem_append_right _ mem_cons_self, hmem⟩
  have halign := Block.aligned_halves (h.aligned ⟨p, k+1⟩ (mem_append_right _ mem_cons_self))
  have hperm : (⟨p + 2^k, k⟩ :: freeBlocks lists ++ ⟨p, k⟩ :: handed).Perm
      (freeBlocks lists ++ ⟨p, k⟩ :: ⟨p + 2^k, k⟩ :: handed) :=
    perm_middle.symm.trans ((List.Perm.swap _ _ _).append_left _)
  have hpages : pages (freeBlocks lists ++ ⟨p, k⟩ :: ⟨p + 2^k, k⟩ :: handed)
      = pages (freeBlocks lists ++ ⟨p, k+1⟩ :: handed) := by
    simp only [pages_append, pages_cons, Block.pages_split, append_assoc]
  refine ⟨if_pos (hlt.trans_le h.bound), h.push hk (h.notMem_lists mem_cons_self hmem) ?_ ?_ h.bound⟩
  · exact (pages_perm hperm).trans (hpages ▸ h.tile)
  · intro b hb
    rw [hperm.mem_iff, mem_append, mem_cons, mem_cons] at hb
    rcases hb with hb | rfl | rfl | hb
    · exact h.aligned b (mem_append_left _ hb)
    · exact halign.1
    · exact halign.2
    · exact h.aligned b (mem_append_right _ (mem_cons_of_mem _ hb))

variable {s : Alloc} {n : Nat}

def Alloc.counters (s : Alloc) : Nat × Nat := (s.zone.freePages, s.freePageNum)

def Alloc.charged (s : Alloc) (order : Nat) : Nat × Nat :=
  (subU64 s.zone.freePages (1 >>> order), subU64 s.freePageNum (1 <<< order))

/-- `expand` keeps the lowest part of the block and frees the rest. -/
theorem expand_spec {p low high : Nat} (hlow : low ≤ high) (hhigh : high ≤ maxOrder)
    (h : ZoneInv s.mem s.zone.freeArea lists (⟨p, high⟩ :: handed) n) :
    ∃ s' lists', expand p low high (2^high) s = some s' ∧
      ZoneInv s'.mem s'.zone.freeArea lists' (⟨p, low⟩ :: handed) n ∧ s'.counters = s.counters := by
  induction high generalizing s lists with
  | zero =>
    obtain rfl := Nat.le_zero.mp hlow
    exact ⟨s, lists, rfl, h, rfl⟩
  | succ k ih =>
    unfold expand
    by_cases hlt : low < k+1
    · obtain ⟨hget, next', l', he, ht⟩ := h.tiling.split (by omega)
      have hhalf : 2^(k+1) / 2 = 2^k := by rw [Nat.pow_succ, Nat.mul_div_cancel _ (by decide)]
      simp only [hlt, if_true, hhalf, hget, bind_some, he]
      refine ih (by omega) (by omega) ⟨ht _ _, h.counted.update k ?_⟩
      rw [length_append, h.counted k]; rfl
    · obtain rfl : low = k+1 := by omega
      simp only [hlt, if_false]
      exact ⟨s, lists, rfl, h, rfl⟩

theorem subU64_one {a : Nat} (h0 : 0 < a) (h : a < 2^64) : subU64 a 1 = a - 1 := by
  unfold subU64
  omega

section

variable (hn : n < 2^64) (h : ZoneInv s.mem s.zone.freeArea lists handed n)
include hn h

theorem takeBlock_spec {order cur : Nat}
    (hcur : order ≤ cur) {p : Address} {rest : List Address} (hl : lists cur = p :: rest) :
    ∃ s' lists', takeBlock s order cur = some (p, s') ∧
      ZoneInv s'.mem s'.zone.freeArea lists' (⟨p, order⟩ :: handed) n ∧ s'.counters = s.charged order := by
  obtain ⟨next', l', he, ht⟩ := h.tiling.fetch hl
  have hle : (lists cur).length ≤ n := h.tiling.length_le cur
  have hcount : subU64 (s.zone.freeArea cur).nrFree 1 = rest.length := by
    have hlen : (lists cur).length = rest.length + 1 := by rw [hl]; rfl
    rw [h.counted cur, subU64_one (by omega) (by omega)]
    omega
  have hmax : cur ≤ maxOrder := h.tiling.order_le (p := p) (by simp [hl])
  have hdetach : ZoneInv (s.detach order cur p { s.mem with next := next' } l').mem
      (s.detach order cur p { s.mem with next := next' } l').zone.freeArea
      (update lists cur rest) (⟨p, cur⟩ :: handed) n :=
    ⟨ht _ _, h.counted.update cur hcount⟩
  obtain ⟨s', lists', hr, hinv, hm⟩ := expand_spec hcur hmax hdetach
  refine ⟨s', lists', ?_, hinv, hm⟩
  simp only [takeBlock, he, bind_some, hr, map_some]

/-- The search takes a block from the first list whose size is not 0, or reports that there
is none and changes nothing. The size is an `int`, so it is 0 as well for a list whose length
is a multiple of `2^32`. -/
theorem rmqueueLoop_spec {order : Nat} (orders : List Nat) (hle : ∀ k ∈ orders, order ≤ k) :
    (rmqueueLoop s order orders = some (none, s) ∧ ∀ k ∈ orders, (lists k).length % 2^32 = 0) ∨
    ∃ p s' lists', rmqueueLoop s order orders = some (some p, s') ∧
      ZoneInv s'.mem s'.zone.freeArea lists' (⟨p, order⟩ :: handed) n ∧ s'.counters = s.charged order := by
  induction orders with
  | nil => exact .inl ⟨rfl, fun _ hk => by cases hk⟩
  | cons cur orders ih =>
    have hsize : (s.zone.freeArea cur).blockList.getSize = 0 ↔ (lists cur).length % 2^32 = 0 := by
      rw [FlexiList.getSize, (h.tiling.queues.repr cur).size_eq, bmod_natCast_eq_zero_iff]
    unfold rmqueueLoop
    by_cases hzero : (lists cur).length % 2^32 = 0
    · rw [if_pos (hsize.mpr hzero)]
      rcases ih fun k hk => hle k (mem_cons_of_mem _ hk) with ⟨hr, hnil⟩ | hsome
      · refine .inl ⟨hr, ?_⟩
        intro k hk
        rcases mem_cons.mp hk with rfl | hk
        · exact hzero
        · exact hnil k hk
      · exact .inr hsome
    · rw [if_neg fun hs => hzero (hsize.mp hs)]
      cases hcur : lists cur with
      | nil => exact absurd (by rw [hcur]; rfl) hzero
      | cons p rest =>
        obtain ⟨s', lists', hr, hinv, hm⟩ := takeBlock_spec hn h (hle cur mem_cons_self) hcur
        exact .inr ⟨p, s', lists', by rw [hr]; rfl, hinv, hm⟩

theorem allocatePages_spec (order : Nat) :
    (s.allocatePages order = some (none, s) ∧ ∀ k, order ≤ k → (lists k).length % 2^32 = 0) ∨
    ∃ p s' lists', s.allocatePages order = some (some p, s') ∧
      ZoneInv s'.mem s'.zone.freeArea lists' (⟨p, order⟩ :: handed) n ∧ s'.counters = s.charged order := by
  rcases rmqueueLoop_spec hn h (List.range' order (maxOrder + 1 - order))
    (fun k hk => (mem_range'_1.mp hk).1) with ⟨hr, hnil⟩ | hsome
  · refine .inl ⟨hr, fun k hk => ?_⟩
    by_cases hmax : k ≤ maxOrder
    · exact hnil k (mem_range'_1.mpr ⟨hk, by omega⟩)
    · rw [h.tiling.beyond k (by omega)]
      rfl
  · exact .inr hsome

end

end Allocate

section Runs

/-- What following the links of free list `k` visits. -/
def Alloc.freeList (s : Alloc) (k : Nat) : List Address :=
  (s.zone.freeArea k).blockList.toList s.mem.next s.mem.nodePageNum

structure AllocLog where
  alloc : Alloc
  handed : List Block

def AllocLog.step (s : AllocLog) (order : Nat) : Option AllocLog :=
  (s.alloc.allocatePages order).map fun r =>
    { alloc := r.2
      handed := match r.1 with
        | some p => ⟨p, order⟩ :: s.handed
        | none => s.handed }

def AllocLog.blocks (s : AllocLog) : List Block := freeBlocks s.alloc.freeList ++ s.handed

/-- The zone's lists and the log tile the first `n` of the node's frames. -/
def AllocLog.Inv (n : Nat) (s : AllocLog) : Prop :=
  ∃ lists, ZoneInv s.alloc.mem s.alloc.zone.freeArea lists s.handed n

variable {s : AllocLog} {n : Nat}

theorem AllocLog.Inv.allocatePages (hn : n < 2^64) (h : s.Inv n) (order : Nat) :
    s.alloc.allocatePages order = some (none, s.alloc) ∨
      ∃ p a, s.alloc.allocatePages order = some (some p, a) ∧ (AllocLog.mk a (⟨p, order⟩ :: s.handed)).Inv n := by
  obtain ⟨lists, h⟩ := h
  rcases allocatePages_spec hn h order with ⟨hr, _⟩ | ⟨p, a, lists', hr, hinv, _⟩
  · exact .inl hr
  · exact .inr ⟨p, a, hr, lists', hinv⟩

theorem AllocLog.step_inv (hn : n < 2^64) (h : s.Inv n) (order : Nat) : ∃ s', s.step order = some s' ∧ s'.Inv n := by
  rcases h.allocatePages hn order with hr | ⟨p, a, hr, hinv⟩
  · exact ⟨s, by simp [AllocLog.step, hr], h⟩
  · exact ⟨⟨a, ⟨p, order⟩ :: s.handed⟩, by simp [AllocLog.step, hr], hinv⟩

section

variable (h : s.Inv n)
include h

theorem AllocLog.Inv.zone : ZoneInv s.alloc.mem s.alloc.zone.freeArea s.alloc.freeList s.handed n := by
  obtain ⟨lists, h⟩ := h
  rwa [show s.alloc.freeList = lists from funext h.tiling.toList_eq]

theorem AllocLog.Inv.mem_blocks {x : Nat} : x ∈ pages s.blocks ↔ x < n := h.zone.tiling.mem_pages_iff

theorem AllocLog.Inv.nodup : (pages s.blocks).Nodup := h.zone.tiling.pages_nodup

theorem AllocLog.Inv.aligned {b : Block} (hb : b ∈ s.blocks) : b.Aligned := h.zone.tiling.aligned b hb

theorem AllocLog.Inv.end_le {b : Block} (hb : b ∈ s.blocks) : b.start + 2^b.order ≤ n := by
  have hpos : 0 < 2^b.order := Nat.two_pow_pos _
  have hlast : b.start + 2^b.order - 1 ∈ b.pages := Block.mem_pages.mpr ⟨by omega, by omega⟩
  have hlt := h.mem_blocks.mp (mem_pages.mpr ⟨b, hb, hlast⟩)
  omega

theorem AllocLog.Inv.represents (k : Nat) :
    (s.alloc.zone.freeArea k).blockList.Represents s.alloc.mem.next (s.alloc.freeList k) ∧
      (s.alloc.zone.freeArea k).nrFree = (s.alloc.freeList k).length :=
  ⟨h.zone.tiling.queues.repr k, h.zone.counted k⟩

end

theorem AllocLog.run_inv (hn : n < 2^64) (h : s.Inv n) (orders : List Nat) :
    ∃ s', run AllocLog.step s orders = some s' ∧ s'.Inv n :=
  run_isSome AllocLog.step (fun _ order hs _ => AllocLog.step_inv hn hs order) orders h
    (allSteps_of_forall _ (fun (_ : AllocLog) (_ : Nat) => trivial) s orders)

/-- In a zone of any size, free and handed-out blocks stay an aligned tiling of the frames that
were free at the start. `nr_free` is the number of blocks the links of a list visit; its
`get_size` is that number up to the width of an `int`. -/
theorem allocate_run_tiles_zone (z : Zone) (freePageNum : Nat) {N : Nat} (hN : N < 2^64)
    (orders : List Nat) :
    ∃ m z', z.freeAreaInitZone (MemMap.new N) N = some (m, z') ∧
    ∃ s, run AllocLog.step ⟨⟨m, z', freePageNum⟩, []⟩ orders = some s ∧
      s.blocks.Pairwise (fun b c => b.pages.Disjoint c.pages) ∧
      (∀ b ∈ s.blocks, 2^b.order ∣ b.start ∧ b.start + 2^b.order ≤ N) ∧
      (∀ x, x ∈ pages s.blocks ↔ x ∈ pages (AllocLog.mk ⟨m, z', freePageNum⟩ []).blocks) ∧
      (∀ k, (s.alloc.zone.freeArea k).blockList.Represents s.alloc.mem.next (s.alloc.freeList k) ∧
        (s.alloc.zone.freeArea k).nrFree = (s.alloc.freeList k).length) ∧
      (pages s.handed).Nodup := by
  obtain ⟨m, z', lists, hinit, hinv, _⟩ := freeAreaInitZone_spec z (m := MemMap.new N) (Nat.le_refl N)
  have h0 : (AllocLog.mk ⟨m, z', freePageNum⟩ []).Inv (N - N % 2) := ⟨lists, hinv⟩
  obtain ⟨s, hr, hs⟩ := AllocLog.run_inv (by omega) h0 orders
  refine ⟨m, z', hinit, s, hr, pairwise_disjoint_of_nodup hs.nodup, ?_, ?_, hs.represents, ?_⟩
  · intro b hb
    exact ⟨hs.aligned hb, (hs.end_le hb).trans (Nat.sub_le _ _)⟩
  · intro x
    rw [hs.mem_blocks, h0.mem_blocks]
  · have hn := hs.nodup
    rw [AllocLog.blocks, pages_append] at hn
    exact (List.nodup_append'.mp hn).2.1

/-- Seven pages: the last one is in no list, and three allocations take the rest. -/
theorem allocate_run_tiles_zone_seven :
    7 < 2^64 ∧ ∃ m z', Zone.freeAreaInitZone ⟨.normal, 0, 7, fun _ => .new⟩ (MemMap.new 7) 7 = some (m, z') ∧
    ∃ s, run AllocLog.step ⟨⟨m, z', 7⟩, []⟩ [0, 1, 1] = some s ∧
      s.blocks.Pairwise (fun b c => b.pages.Disjoint c.pages) ∧ (pages s.handed).Nodup := by
  have h7 : 7 < 2^64 := by decide
  obtain ⟨m, z', hinit, s, hr, hp, _, _, _, hn⟩ :=
    allocate_run_tiles_zone ⟨.normal, 0, 7, fun _ => .new⟩ 7 h7 [0, 1, 1]
  exact ⟨h7, m, z', hinit, s, hr, hp, hn⟩

end Runs

end Shma.Mmu
