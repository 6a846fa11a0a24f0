import Mathlib.Data.List.Perm.Subperm
import Shma.Lib.Dyadic
import Shma.Mmu.Buddy

/-!
# Free lists as a tiling

The lists of a zone, read together with the blocks already handed out, tile an
initial segment of the frames. Adding a block to a list and taking one from a
list are the only two moves the allocator makes; both are shown here to keep the
tiling, and neither proof looks at how the source reaches them.
-/
namespace Shma.Mmu

open Lib.Dyadic

/-- The blocks held by the lists, an entry of list `k` standing for `2^k` pages. -/
def freeBlocks (lists : Nat → List Address) : List Block :=
  (List.range (maxOrder + 1)).flatMap fun k => (lists k).map fun p => Block.mk p k

variable {lists : Nat → List Address}

theorem mem_freeBlocks {b : Block} : b ∈ freeBlocks lists ↔ b.order ≤ maxOrder ∧ b.start ∈ lists b.order := by
  simp only [freeBlocks, List.mem_flatMap, mem_range, mem_map]
  constructor
  · rintro ⟨k, hk, p, hp, rfl⟩
    exact ⟨Nat.le_of_lt_succ hk, hp⟩
  · rintro ⟨hk, hp⟩
    exact ⟨b.order, Nat.lt_succ_of_le hk, b.start, hp, rfl⟩

variable {k : Nat}

@[simp] theorem freeBlocks_nil : freeBlocks (fun _ => []) = [] :=
  List.flatMap_eq_nil_iff.mpr fun _ _ => rfl

theorem freeBlocks_update (lists : Nat → List Address) (hk : k ≤ maxOrder) (as : List Address) :
    (freeBlocks (update lists k as) ++ (lists k).map (Block.mk · k)).Perm
      (freeBlocks lists ++ as.map (Block.mk · k)) := by
  have hmem : k ∈ List.range (maxOrder + 1) := mem_range.mpr (Nat.lt_succ_of_le hk)
  have hperm := flatMap_update_perm (fun j => (lists j).map fun p => Block.mk p j)
    (as.map (Block.mk · k)) hmem nodup_range
  have hfun : (update (fun j => (lists j).map fun p => Block.mk p j) k (as.map (Block.mk · k)))
      = fun j => (update lists k as j).map fun p => Block.mk p j := by
    funext j
    by_cases hj : j = k
    · subst hj; simp
    · rw [update_of_ne hj, update_of_ne hj]
  rw [hfun] at hperm
  exact hperm

theorem freeBlocks_push (lists : Nat → List Address) (hk : k ≤ maxOrder) (p : Address) :
    (freeBlocks (update lists k (lists k ++ [p]))).Perm (⟨p, k⟩ :: freeBlocks lists) := by
  have hperm := freeBlocks_update lists hk (lists k ++ [p])
  rw [map_append, List.map_singleton] at hperm
  have hswap : (freeBlocks lists ++ ((lists k).map (Block.mk · k) ++ [Block.mk p k])).Perm
      (⟨p, k⟩ :: freeBlocks lists ++ (lists k).map (Block.mk · k)) := by
    rw [← append_assoc]
    exact List.perm_append_comm
  exact (List.perm_append_right_iff _).mp (hperm.trans hswap)

variable {p : Address}

theorem freeBlocks_fetch (hk : k ≤ maxOrder) {rest : List Address} (hl : lists k = p :: rest) :
    (⟨p, k⟩ :: freeBlocks (update lists k rest)).Perm (freeBlocks lists) := by
  have hperm := freeBlocks_update lists hk rest
  rw [hl, List.map_cons] at hperm
  have hswap : (⟨p, k⟩ :: freeBlocks (update lists k rest) ++ rest.map (Block.mk · k)).Perm
      (freeBlocks (update lists k rest) ++ Block.mk p k :: rest.map (Block.mk · k)) := by
    exact perm_middle.symm
  exact (List.perm_append_right_iff _).mp (hswap.trans hperm)

/-- `lists` is what the zone's free lists hold, and with `handed` it tiles the
first `n` frames by aligned blocks. -/
structure Tiling (m : MemMap) (area : Nat → FreeArea) (lists : Nat → List Address)
    (handed : List Block) (n : Nat) : Prop where
  queues : FlexiList.Queues m.next (fun k => (area k).blockList) lists
  beyond : ∀ k, maxOrder < k → lists k = []
  tile : (pages (freeBlocks lists ++ handed)).Perm (List.range n)
  aligned : ∀ b ∈ freeBlocks lists ++ handed, b.Aligned
  bound : n ≤ m.nodePageNum

namespace Tiling

variable {m : MemMap} {area : Nat → FreeArea} {lists : Nat → List Address} {handed : List Block} {n : Nat}

theorem pages_nodup (h : Tiling m area lists handed n) : (pages (freeBlocks lists ++ handed)).Nodup :=
  h.tile.nodup_iff.mpr nodup_range

theorem mem_pages_iff (h : Tiling m area lists handed n) {x : Nat} :
    x ∈ pages (freeBlocks lists ++ handed) ↔ x < n := by
  rw [h.tile.mem_iff, mem_range]

variable {p : Address} {k : Nat}

variable (h : Tiling m area lists handed n)
include h

theorem order_le (hp : p ∈ lists k) : k ≤ maxOrder := by
  by_contra hk
  rw [h.beyond k (by omega)] at hp
  cases hp

theorem mem_blocks (hp : p ∈ lists k) : ⟨p, k⟩ ∈ freeBlocks lists :=
  mem_freeBlocks.mpr ⟨h.order_le hp, hp⟩

omit h in
theorem start_mem (b : Block) : b.start ∈ b.pages :=
  Block.mem_pages.mpr ⟨Nat.le_refl _, Nat.lt_add_of_pos_right (Nat.two_pow_pos _)⟩

theorem lt_of_mem_lists (hp : p ∈ lists k) : p < n := by
  rw [← h.mem_pages_iff, mem_pages]
  exact ⟨⟨p, k⟩, mem_append_left _ (h.mem_blocks hp), start_mem _⟩

theorem notMem_lists {b : Block} (hb : b ∈ handed) {x : Nat} (hx : x ∈ b.pages) (k : Nat) : x ∉ lists k := by
  intro hk
  have hn := h.pages_nodup
  rw [pages_append, List.nodup_append'] at hn
  refine hn.2.2 (mem_pages.mpr ⟨⟨x, k⟩, h.mem_blocks hk, start_mem _⟩) (mem_pages.mpr ⟨b, hb, hx⟩)

theorem length_le (k : Nat) : (lists k).length ≤ n := by
  have hsub : lists k ⊆ List.range n := fun p hp => mem_range.mpr (h.lt_of_mem_lists hp)
  have hle := (List.Nodup.subperm (h.queues.nodup k) hsub).length_le
  rwa [length_range] at hle

theorem toList_eq (k : Nat) : (area k).blockList.toList m.next m.nodePageNum = lists k :=
  (h.queues.repr k).toList_eq ((h.length_le k).trans h.bound)

end Tiling

theorem blockList_update (area : Nat → FreeArea) (k : Nat) (a : FreeArea) :
    (fun j => (update area k a j).blockList)
      = update (fun j => (area j).blockList) k a.blockList := by
  funext j
  by_cases hj : j = k
  · subst hj; simp
  · rw [update_of_ne hj, update_of_ne hj]

/-- A block is appended to the list of its order: the new tiling has it among
the free blocks. Coverage and alignment of the result are left to the caller. -/
theorem Tiling.push {m : MemMap} {area : Nat → FreeArea}
    {handed handed' : List Block} {n n' : Nat} (h : Tiling m area lists handed n)
    (hk : k ≤ maxOrder) (hp : ∀ j, p ∉ lists j)
    (htile : (pages (⟨p, k⟩ :: freeBlocks lists ++ handed')).Perm (List.range n'))
    (haligned : ∀ b ∈ ⟨p, k⟩ :: freeBlocks lists ++ handed', b.Aligned) (hbound : n' ≤ m.nodePageNum) :
    ∃ next' l', m.pushBlockBack (area k).blockList p = some ({ m with next := next' }, l') ∧
      ∀ nrFree page, Tiling { m with next := next', page := page }
        (update area k { blockList := l', nrFree := nrFree })
        (update lists k (lists k ++ [p])) handed' n' := by
  obtain ⟨next', l', he, hq⟩ := h.queues.push k hp
  have hperm := (freeBlocks_push lists hk p).append_right handed'
  refine ⟨next', l', by simp [MemMap.pushBlockBack, he], fun nrFree page => ?_⟩
  constructor
  · rw [blockList_update]; exact hq
  · intro j hj
    rw [update_of_ne (by omega)]
    exact h.beyond j hj
  · exact (pages_perm hperm).trans htile
  · intro b hb
    exact haligned b (hperm.mem_iff.mp hb)
  · exact hbound

theorem Tiling.fetch {m : MemMap} {area : Nat → FreeArea}
    {handed : List Block} {n : Nat} (h : Tiling m area lists handed n)
    {rest : List Address} (hl : lists k = p :: rest) :
    ∃ next' l', m.fetchHead (area k).blockList = some (p, { m with next := next' }, l') ∧
      ∀ nrFree page, Tiling { m with next := next', page := page }
        (update area k { blockList := l', nrFree := nrFree })
        (update lists k rest) (⟨p, k⟩ :: handed) n := by
  have hk : k ≤ maxOrder := h.order_le (p := p) (by simp [hl])
  obtain ⟨next', l', he, hq⟩ := h.queues.fetch hl
  have hperm : (freeBlocks (update lists k rest) ++ ⟨p, k⟩ :: handed).Perm
      (freeBlocks lists ++ handed) :=
    perm_middle.trans ((freeBlocks_fetch hk hl).append_right handed)
  refine ⟨next', l', by simp [MemMap.fetchHead, he], fun nrFree page => ?_⟩
  constructor
  · rw [blockList_update]; exact hq
  · intro j hj
    rw [update_of_ne (by omega)]
    exact h.beyond j hj
  · exact (pages_perm hperm).trans h.tile
  · intro b hb
    exact h.aligned b (hperm.mem_iff.mp hb)
  · exact h.bound

end Shma.Mmu
