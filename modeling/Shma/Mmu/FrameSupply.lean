import Shma.Mmu.Fragmentation
import Shma.Mmu.ZonePartition

/-!
# Single frames handed out by a node

Page faults ask the buddy allocator for one frame at a time, with no flags set, and
so always the normal zone. As long as no zone is initialised after it, that zone
hands out every frame of its lists once and stops when all are gone, or as soon as
a multiple of `2^43` is left.
-/
namespace Shma.Mmu

open Lib.Dyadic

variable (frames : List Address) (b : BuddyAllocator)

def singles : List Block := frames.map fun p => ⟨p, 0⟩

/-- The allocator has handed out `frames` of the first `n` frames and has the others in
the lists of its normal zone. -/
def BuddyAllocator.Supplies (n : Nat) (frames : List Address) (b : BuddyAllocator) : Prop :=
  ∃ z lists, b.node.nodeZones .normal = some z ∧ ZoneInv b.node.mem z.freeArea lists (singles frames) n

/-- `allocate_pages` returns a frame. -/
def BuddyAllocator.HasFree : Prop :=
  ∃ p b', b.allocatePages 0 0 = some (some p, b')

/-- Below the largest order the normal zone has at most one block of each. -/
def BuddyAllocator.SparseLists : Prop :=
  ∀ z, b.node.nodeZones .normal = some z → Sparse z.freeArea

theorem BuddyAllocator.allocatePages_eq {b : BuddyAllocator} {z : Zone} (hz : b.node.nodeZones .normal = some z) :
    b.allocatePages 0 0 = ((⟨b.node.mem, z, b.freePageNum⟩ : Alloc).allocatePages 0).map
      fun r => (r.1, b.store .normal r.2) := by
  have hgfp : b.node.gfpZone 0 = some .normal := by simp [MemoryNode.gfpZone, hz]
  rw [BuddyAllocator.allocatePages, if_neg (by decide), hgfp, bind_some, hz]
  rfl

theorem pages_singles : pages (singles frames) = frames := by
  induction frames with
  | nil => rfl
  | cons p frames ih =>
    exact congrArg (p :: ·) ih

namespace BuddyAllocator.Supplies

variable {n : Nat} {frames : List Address} {b : BuddyAllocator}

section

variable (h : b.Supplies n frames)
include h

theorem perm : ∃ lists, (pages (freeBlocks lists) ++ frames).Perm (List.range n) := by
  obtain ⟨z, lists, hz, hinv⟩ := h
  have htile := hinv.tiling.tile
  rw [pages_append, pages_singles] at htile
  exact ⟨lists, htile⟩

theorem nodup : frames.Nodup := by
  obtain ⟨lists, hperm⟩ := h.perm
  exact (List.nodup_append'.mp (hperm.nodup_iff.mpr nodup_range)).2.1

theorem lt_of_mem {p : Address} (hp : p ∈ frames) : p < n := by
  obtain ⟨lists, hperm⟩ := h.perm
  exact mem_range.mp (hperm.mem_iff.mp (mem_append_right _ hp))

theorem length_le : frames.length ≤ n := by
  obtain ⟨lists, hperm⟩ := h.perm
  have hlen := hperm.length_eq
  rw [length_append, length_range] at hlen
  omega

theorem mem_of_full (hfull : frames.length = n) {x : Nat} (hx : x < n) : x ∈ frames := by
  obtain ⟨lists, hperm⟩ := h.perm
  have hlen := hperm.length_eq
  rw [length_append, length_range, hfull] at hlen
  have hnil : pages (freeBlocks lists) = [] := List.eq_nil_of_length_eq_zero (by omega)
  rw [hnil, List.nil_append] at hperm
  exact hperm.mem_iff.mpr (mem_range.mpr hx)

theorem setMem {m : MemMap} (hnext : m.next = b.node.mem.next) (hnum : m.nodePageNum = b.node.mem.nodePageNum) :
    BuddyAllocator.Supplies n frames { b with node := { b.node with mem := m } } := by
  obtain ⟨z, lists, hz, hinv⟩ := h
  obtain ⟨⟨hq, hbeyond, htile, haligned, hbound⟩, hcount⟩ := hinv
  exact ⟨z, lists, hz, ⟨hnext ▸ hq, hbeyond, htile, haligned, hnum ▸ hbound⟩, hcount⟩

end

section

variable (hn : n < 2^64) (h : b.Supplies n frames)
include hn h

theorem allocate :
    (¬ b.HasFree ∧ ∃ b', b.allocatePages 0 0 = some (none, b') ∧ b'.Supplies n frames) ∨
    (b.HasFree ∧ ∃ p b', b.allocatePages 0 0 = some (some p, b') ∧ b'.Supplies n (p :: frames)) := by
  obtain ⟨z, lists, hz, hinv⟩ := h
  rcases allocatePages_spec (s := ⟨b.node.mem, z, b.freePageNum⟩) hn hinv 0 with
    ⟨hr, _⟩ | ⟨p, s', lists', hr, hinv', _⟩
  · have hcall : b.allocatePages 0 0 = some (none, b.store .normal ⟨b.node.mem, z, b.freePageNum⟩) := by
      rw [allocatePages_eq hz, hr]
      rfl
    refine .inl ⟨?_, _, hcall, z, lists, by simp [store], hinv⟩
    rintro ⟨p, b', hp⟩
    cases hcall.symm.trans hp
  · have hcall : b.allocatePages 0 0 = some (some p, b.store .normal s') := by
      rw [allocatePages_eq hz, hr]
      rfl
    exact .inr ⟨⟨p, _, hcall⟩, p, _, hcall, s'.zone, lists', by simp [store], hinv'⟩

/-- The search finds a frame exactly if the size of some list is not 0. -/
theorem hasFree_iff :
    b.HasFree ↔ ∃ z k, b.node.nodeZones .normal = some z ∧ (z.freeArea k).nrFree % 2^32 ≠ 0 := by
  obtain ⟨z, lists, hz, hinv⟩ := id h
  have hlog : (AllocLog.mk ⟨b.node.mem, z, b.freePageNum⟩ (singles frames)).Inv n := ⟨lists, hinv⟩
  constructor
  · rintro ⟨p, b', hp⟩
    by_contra hnone
    have hempty : (⟨b.node.mem, z, b.freePageNum⟩ : Alloc).allocatePages 0 = some (none, _) :=
      rmqueueLoop_of_empty fun k _ => (hlog.getSize_eq_zero_iff k).mpr (by_contra fun hk => hnone ⟨z, k, hz, hk⟩)
    rw [allocatePages_eq hz, hempty] at hp
    cases hp
  · rintro ⟨z', k, hz', hk⟩
    cases hz.symm.trans hz'
    rcases allocatePages_spec (s := ⟨b.node.mem, z, b.freePageNum⟩) hn hinv 0 with
      ⟨_, hnil⟩ | ⟨p, s', _, hr, _⟩
    · exact absurd (hinv.counted k ▸ hnil k (Nat.zero_le k)) hk
    · exact ⟨p, _, by rw [allocatePages_eq hz, hr]; rfl⟩

theorem not_hasFree_iff (hs : b.SparseLists) : ¬ b.HasFree ↔ (n - frames.length) % 2^43 = 0 := by
  obtain ⟨z, lists, hz, hinv⟩ := id h
  have hlog : (AllocLog.mk ⟨b.node.mem, z, b.freePageNum⟩ (singles frames)).Inv n := ⟨lists, hinv⟩
  have hadd := hlog.pages_add
  rw [← length_pages, pages_singles] at hadd
  have hfails := hlog.fails_iff hn (hs z hz) (Nat.zero_le maxOrder)
  rw [show Zone.countedPages _ = n - frames.length by omega, Nat.pow_zero, lt_one_iff] at hfails
  rw [← hfails]
  rcases h.allocate hn with ⟨hfree, b', hb', _⟩ | ⟨hfree, p, b', hb', _⟩
  · refine iff_of_true hfree ?_
    rcases allocatePages_spec (s := ⟨b.node.mem, z, b.freePageNum⟩) hn hinv 0 with ⟨hr, _⟩ | ⟨p, s', _, hr, _⟩
    · exact hr
    · rw [allocatePages_eq hz, hr] at hb'
      cases hb'
  · refine iff_of_false (not_not_intro hfree) fun hr => ?_
    rw [allocatePages_eq hz, hr] at hb'
    cases hb'

omit hn in
theorem allocate_sparse (hs : b.SparseLists) {r : Option Address} {b' : BuddyAllocator}
    (hr : b.allocatePages 0 0 = some (r, b')) : b'.SparseLists := by
  obtain ⟨z, lists, hz, hinv⟩ := h
  rw [allocatePages_eq hz] at hr
  obtain ⟨⟨r, a⟩, hcall, he⟩ := map_eq_some_iff.mp hr
  cases he
  have hlog : (AllocLog.mk ⟨b.node.mem, z, b.freePageNum⟩ (singles frames)).Inv n := ⟨lists, hinv⟩
  intro z' hz'
  obtain rfl : a.zone = z' := by simpa [store] using hz'
  exact hlog.allocatePages_sparse (hs z hz) hcall

end

end BuddyAllocator.Supplies

theorem initZones_sparse {lowest highest : ZoneType → Nat} {zts : List ZoneType} {m m' : MemMap}
    {zones zones' : ZoneType → Option Zone} (hs : ∀ zt z, zones zt = some z → Sparse z.freeArea)
    (h : initZones lowest highest m zts zones = some (m', zones')) {zt : ZoneType} {z : Zone}
    (hz : zones' zt = some z) : Sparse z.freeArea := by
  induction zts generalizing m zones with
  | nil =>
    cases h
    exact hs zt z hz
  | cons zt1 zts ih =>
    obtain ⟨⟨m1, oz⟩, hinit, h⟩ := bind_eq_some_iff.mp h
    refine ih (fun zt' z' hz' => ?_) h
    by_cases hzt : zt' = zt1
    · subst hzt
      rw [update_self] at hz'
      subst hz'
      rw [initZone] at hinit
      split at hinit
      · obtain ⟨z0, -, hinit⟩ := bind_eq_some_iff.mp hinit
        obtain ⟨r, hr, he⟩ := map_eq_some_iff.mp hinit
        cases he
        exact freeAreaInitZone_sparse hr
      · cases hinit
    · rw [update_of_ne hzt] at hz'
      exact hs zt' z' hz'

section

variable {pfns : ZoneType → Nat} {node : MemoryNode} (h : MemoryNode.new 0 pfns = some node)
include h

theorem sparseLists_new (freePageNum : Nat) : (BuddyAllocator.mk node freePageNum).SparseLists := by
  obtain ⟨pages, -, h⟩ := bind_eq_some_iff.mp h
  obtain ⟨r, hr, h⟩ := bind_eq_some_iff.mp h
  split at h
  · cases h
    exact fun z hz => initZones_sparse (fun _ _ hnone => absurd hnone.symm (some_ne_none _)) hr hz
  · cases h

/-- A new node without high memory has handed out nothing. Its normal zone starts with all
frames up to its end in its lists, an odd last one excepted. -/
theorem supplies_new (hhigh : zoneHighest pfns .highMem = zoneHighest pfns .normal)
    (freePageNum : Nat) :
    (BuddyAllocator.mk node freePageNum).Supplies (zoneHighest pfns .normal - zoneHighest pfns .normal % 2) [] := by
  obtain ⟨_, _, _, _, _, zt, z, lists, hzt, hlt, hz, hinv⟩ := MemoryNode.new_inv h
  rcases hzt with rfl | ⟨rfl, _⟩
  · -- high memory starts at the end of the normal zone
    have hlow : zoneLowest 0 pfns .highMem = zoneHighest pfns .normal := rfl
    omega
  · exact ⟨z, lists, hz, hinv⟩

end

end Shma.Mmu
