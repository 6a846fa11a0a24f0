import Shma.Mmu.BuddyInvariant

/-!
# When the zones partition the node

`init_zones` passes a zone's end frame where `free_area_init_zone` expects a
number of pages, and the lists are filled from frame 0 on. The zones therefore
partition the node's frames only when the normal zone is alone and even.
-/
namespace Shma.Mmu

open Lib.Dyadic Lib.Run

def MemoryNode.zoneBlocks (node : MemoryNode) (z : Zone) : List Block :=
  freeBlocks fun k => (z.freeArea k).blockList.toList node.mem.next node.mem.nodePageNum

structure NodeLog where
  buddy : BuddyAllocator
  handed : List (ZoneType × Block)

def NodeLog.step (s : NodeLog) (req : Nat × Nat) : Option NodeLog :=
  (s.buddy.allocatePages req.1 req.2).map fun r =>
    { buddy := r.2
      handed := match r.1, s.buddy.node.gfpZone req.1 with
        | some p, some zt => (zt, ⟨p, req.2⟩) :: s.handed
        | _, _ => s.handed }

/-- Each zone starts with its own frames in its lists, every frame once, and no
sequence of allocations hands out a block that leaves its zone or meets a block
of another zone. -/
structure ZonePartition (node : MemoryNode) : Prop where
  covers : ∀ zt z, node.nodeZones zt = some z → (pages (node.zoneBlocks z)).Perm
    (List.range' (node.zoneLowestPossible zt) (node.zoneHighestPossible zt - node.zoneLowestPossible zt))
  handed : ∀ freePageNum reqs, ∃ s, run NodeLog.step ⟨⟨node, freePageNum⟩, []⟩ reqs = some s ∧
    s.handed.Pairwise (fun a b => a.1 ≠ b.1 → a.2.pages.Disjoint b.2.pages) ∧
    ∀ e ∈ s.handed, ∀ x ∈ e.2.pages, node.zoneLowestPossible e.1 ≤ x ∧ x < node.zoneHighestPossible e.1

section Construction

variable {lowest highest : ZoneType → Nat}

variable {zt : ZoneType}

theorem initZone_empty (h : highest zt = lowest zt) (m : MemMap) : initZone lowest highest zt m = some (m, none) := by
  rw [initZone, if_neg (not_not.mpr h)]

variable {m : MemMap}

theorem initZone_exists (h : lowest zt < highest zt) (hb : highest zt ≤ m.nodePageNum) :
    ∃ m' z lists, initZone lowest highest zt m = some (m', some z) ∧
      ZoneInv m' z.freeArea lists [] (highest zt - highest zt % 2) ∧ m'.nodePageNum = m.nodePageNum := by
  obtain ⟨m', z, lists, hr, hinv, hm⟩ := freeAreaInitZone_spec
    { zoneType := zt, zoneStartPfn := lowest zt, freePages := highest zt - lowest zt,
      freeArea := fun _ => .new } hb
  refine ⟨m', z, lists, ?_, hinv, hm⟩
  rw [initZone, if_pos h.ne', Zone.new, if_pos h, bind_some, Zone.memmapInitZone, hr]
  rfl

/-- The last zone of the loop is not disturbed by later ones. -/
theorem initZone_cases {m' : MemMap} {oz : Option Zone} (hle : lowest zt ≤ highest zt)
    (hb : highest zt ≤ m.nodePageNum) (h : initZone lowest highest zt m = some (m', oz)) :
    m'.nodePageNum = m.nodePageNum ∧
    ((highest zt = lowest zt ∧ oz = none ∧ m' = m) ∨
      (lowest zt < highest zt ∧ ∃ z lists, oz = some z ∧
        ZoneInv m' z.freeArea lists [] (highest zt - highest zt % 2))) := by
  rcases Nat.eq_or_lt_of_le hle with heq | hlt
  · rw [initZone_empty heq.symm] at h
    cases h
    exact ⟨rfl, .inl ⟨heq.symm, rfl, rfl⟩⟩
  · obtain ⟨m₁, z, lists, hr, hinv, hm⟩ := initZone_exists hlt hb
    rw [hr] at h
    cases h
    exact ⟨hm, .inr ⟨hlt, z, lists, rfl, hinv⟩⟩

end Construction

section Node

variable {pfns : ZoneType → Nat} {node : MemoryNode}

section

variable (pfns : ZoneType → Nat)

theorem zoneLowest_le_zoneHighest (zt : ZoneType) : zoneLowest 0 pfns zt ≤ zoneHighest pfns zt := by
  cases zt
  · exact Nat.zero_le _
  all_goals exact Nat.le_max_right _ _

theorem zoneHighest_le (zt : ZoneType) : zoneHighest pfns zt ≤ zoneHighest pfns .highMem := by
  cases zt <;> simp only [zoneHighest] <;> omega

theorem calculateTotalPages_eq :
    calculateTotalPages (zoneLowest 0 pfns) (zoneHighest pfns) = some (zoneHighest pfns .highMem) := by
  have h1 := zoneLowest_le_zoneHighest pfns .dma32
  have h2 := zoneLowest_le_zoneHighest pfns .normal
  have h3 := zoneLowest_le_zoneHighest pfns .highMem
  rw [calculateTotalPages, if_pos fun zt _ => zoneLowest_le_zoneHighest pfns zt]
  simp only [allZones, List.map_cons, List.map_nil, List.sum_cons, List.sum_nil, zoneLowest] at *
  congr 1
  omega

end

/-- What the constructor leaves behind: the zone initialised last owns its lists. -/
theorem MemoryNode.new_inv (h : MemoryNode.new 0 pfns = some node) :
    node.zoneLowestPossible = zoneLowest 0 pfns ∧ node.zoneHighestPossible = zoneHighest pfns ∧
    node.mem.nodePageNum = zoneHighest pfns .highMem ∧
    zoneLowest 0 pfns .normal < zoneHighest pfns .normal ∧
    (∀ zt, zoneHighest pfns zt = zoneLowest 0 pfns zt → node.nodeZones zt = none) ∧
    ∃ zt z lists, (zt = .highMem ∨ zt = .normal ∧ zoneHighest pfns .highMem = zoneHighest pfns .normal) ∧
      zoneLowest 0 pfns zt < zoneHighest pfns zt ∧ node.nodeZones zt = some z ∧
      ZoneInv node.mem z.freeArea lists [] (zoneHighest pfns zt - zoneHighest pfns zt % 2) := by
  have hle := zoneLowest_le_zoneHighest pfns
  have hmax := zoneHighest_le pfns
  simp only [MemoryNode.new, calculateTotalPages_eq, bind_some, allZones, initZones,
    bind_eq_some_iff] at h
  obtain ⟨r, ⟨⟨m₀, oz₀⟩, h₀, ⟨m₁, oz₁⟩, h₁, ⟨m₂, oz₂⟩, h₂, ⟨m₃, oz₃⟩, h₃, hr⟩, h⟩ := h
  cases hr
  obtain ⟨hm₀, hc₀⟩ := initZone_cases (hle .dma) (hmax .dma) h₀
  obtain ⟨hm₁, hc₁⟩ := initZone_cases (hle .dma32) (hm₀ ▸ hmax .dma32) h₁
  obtain ⟨hm₂, hc₂⟩ := initZone_cases (hle .normal) (hm₁ ▸ hm₀ ▸ hmax .normal) h₂
  obtain ⟨hm₃, hc₃⟩ := initZone_cases (hle .highMem) (hm₂ ▸ hm₁ ▸ hm₀ ▸ hmax .highMem) h₃
  split at h
  · next hsome =>
    cases h
    have hnormal : zoneLowest 0 pfns .normal < zoneHighest pfns .normal ∧ ∃ z lists, oz₂ = some z ∧
        ZoneInv m₂ z.freeArea lists [] (zoneHighest pfns .normal - zoneHighest pfns .normal % 2) := by
      rcases hc₂ with ⟨_, rfl, _⟩ | hz
      · simp at hsome
      · exact hz
    refine ⟨rfl, rfl, ?_, hnormal.1, ?_, ?_⟩
    · exact hm₃.trans (hm₂.trans (hm₁.trans hm₀))
    · intro zt hzt
      cases zt
      · rcases hc₀ with ⟨_, rfl, _⟩ | ⟨hlt, _⟩
        · simp
        · omega
      · rcases hc₁ with ⟨_, rfl, _⟩ | ⟨hlt, _⟩
        · simp
        · omega
      · omega
      · rcases hc₃ with ⟨_, rfl, _⟩ | ⟨hlt, _⟩
        · simp
        · omega
    · rcases hc₃ with ⟨heq, rfl, rfl⟩ | ⟨hlt, z, lists, rfl, hinv⟩
      · obtain ⟨hlt, z, lists, rfl, hinv⟩ := hnormal
        exact ⟨.normal, z, lists, .inr ⟨rfl, heq⟩, hlt, by simp, hinv⟩
      · exact ⟨.highMem, z, lists, .inl rfl, hlt, by simp, hinv⟩
  · cases h

variable {lists : Nat → List Address} {n : Nat}

theorem zoneBlocks_eq {z : Zone}
    (h : ZoneInv node.mem z.freeArea lists [] n) : node.zoneBlocks z = freeBlocks lists := by
  rw [MemoryNode.zoneBlocks, funext h.tiling.toList_eq]

/-- An initial segment of the frames is a zone's own range only if the zone
starts at frame 0. -/
theorem range_perm_range' {lo hi : Nat} (hlt : lo < hi)
    (h : (List.range n).Perm (List.range' lo (hi - lo))) : lo = 0 ∧ n = hi := by
  have hlen := h.length_eq
  rw [length_range, List.length_range'] at hlen
  have hmem : 0 ∈ List.range' lo (hi - lo) := h.mem_iff.mp (mem_range.mpr (by omega))
  rw [mem_range'_1] at hmem
  omega

/-- With a partition the zone initialised last starts at 0, so it is the normal
zone and the only one. -/
theorem sole_normal_of_covers (h : MemoryNode.new 0 pfns = some node)
    (hc : ∀ zt z, node.nodeZones zt = some z → (pages (node.zoneBlocks z)).Perm
      (List.range' (node.zoneLowestPossible zt)
        (node.zoneHighestPossible zt - node.zoneLowestPossible zt))) :
    pfns .dma = 0 ∧ pfns .dma32 = 0 ∧ pfns .highMem ≤ pfns .normal ∧ 2 ∣ pfns .normal := by
  obtain ⟨hlo, hhi, _, hnormal, _, zt, z, lists, hzt, hlt, hz, hinv⟩ := MemoryNode.new_inv h
  have hperm := hc zt z hz
  have htile := hinv.tiling.tile
  rw [append_nil] at htile
  rw [zoneBlocks_eq hinv, hlo, hhi] at hperm
  obtain ⟨hzero, heven⟩ := range_perm_range' hlt (htile.symm.trans hperm)
  rcases hzt with rfl | ⟨rfl, heq⟩
  · -- high memory starts at the end of the normal zone, which is not frame 0
    simp only [zoneLowest] at hzero hnormal
    omega
  · simp only [zoneLowest, zoneHighest] at *
    omega

/-- The normal zone is the node's only zone and its lists and the log tile the
first `n` frames. -/
def NodeLog.SoleNormal (n : Nat) (s : NodeLog) : Prop :=
  (∀ zt, zt ≠ .normal → s.buddy.node.nodeZones zt = none) ∧ (∀ e ∈ s.handed, e.1 = .normal) ∧
  ∃ z lists, s.buddy.node.nodeZones .normal = some z ∧
    ZoneInv s.buddy.node.mem z.freeArea lists (s.handed.map Prod.snd) n

variable {s : NodeLog}

theorem NodeLog.SoleNormal.store (h : s.SoleNormal n) {a : Alloc} {log : List (ZoneType × Block)} (hlog : ∀ e ∈ log, e.1 = .normal)
    (hinv : ZoneInv a.mem a.zone.freeArea lists (log.map Prod.snd) n) :
    NodeLog.SoleNormal n ⟨s.buddy.store .normal a, log⟩ :=
  ⟨fun zt hzt => (update_of_ne hzt _ _).trans (h.1 zt hzt), hlog, a.zone, lists,
    by simp [BuddyAllocator.store], hinv⟩

theorem NodeLog.step_soleNormal (hn : n < 2^64) (h : s.SoleNormal n)
    (req : Nat × Nat) : ∃ s', s.step req = some s' ∧ s'.SoleNormal n := by
  obtain ⟨hnone, hlog, z, lists, hz, hinv⟩ := id h
  have hgfp : s.buddy.node.gfpZone req.1 = some .normal := by
    simp [MemoryNode.gfpZone, hnone .dma (by decide), hnone .dma32 (by decide),
      hnone .highMem (by decide), hz]
  by_cases horder : maxOrder ≤ req.2
  · refine ⟨s, ?_, h⟩
    simp [NodeLog.step, BuddyAllocator.allocatePages, horder]
  rcases allocatePages_spec (s := ⟨s.buddy.node.mem, z, s.buddy.freePageNum⟩) hn hinv req.2 with
    ⟨hr, _⟩ | ⟨p, s', lists', hr, hinv', _⟩
  · refine ⟨⟨s.buddy.store .normal ⟨s.buddy.node.mem, z, s.buddy.freePageNum⟩, s.handed⟩, ?_,
      h.store hlog hinv⟩
    simp [NodeLog.step, BuddyAllocator.allocatePages, horder, hgfp, hz, hr]
  · refine ⟨⟨s.buddy.store .normal s', (.normal, ⟨p, req.2⟩) :: s.handed⟩, ?_, h.store ?_ hinv'⟩
    · simp [NodeLog.step, BuddyAllocator.allocatePages, horder, hgfp, hz, hr]
    · intro e he
      rcases mem_cons.mp he with rfl | he
      · rfl
      · exact hlog e he

theorem NodeLog.run_soleNormal (hn : n < 2^64) (h : s.SoleNormal n)
    (reqs : List (Nat × Nat)) : ∃ s', run NodeLog.step s reqs = some s' ∧ s'.SoleNormal n :=
  run_isSome NodeLog.step (fun _ req hs _ => NodeLog.step_soleNormal hn hs req) reqs h
    (allSteps_of_forall _ (fun (_ : NodeLog) (_ : Nat × Nat) => trivial) s reqs)

theorem soleNormal_new (h : MemoryNode.new 0 pfns = some node) (hdma : pfns .dma = 0) (hdma32 : pfns .dma32 = 0)
    (hhigh : pfns .highMem ≤ pfns .normal) (freePageNum : Nat) :
    NodeLog.SoleNormal (pfns .normal - pfns .normal % 2) ⟨⟨node, freePageNum⟩, []⟩ := by
  obtain ⟨_, _, _, _, hnone, zt, z, lists, hzt, _, hz, hinv⟩ := MemoryNode.new_inv h
  have hothers : ∀ t, t ≠ .normal → node.nodeZones t = none := by
    intro t ht
    apply hnone t
    cases t
    · exact hdma
    · simp only [zoneLowest, zoneHighest]; omega
    · exact absurd rfl ht
    · simp only [zoneLowest, zoneHighest]; omega
  obtain rfl : zt = .normal := by
    by_contra hne
    rw [hothers zt hne] at hz
    cases hz
  have hend : zoneHighest pfns .normal = pfns .normal := by
    simp only [zoneHighest]
    omega
  rw [hend] at hinv
  exact ⟨hothers, forall_mem_nil _, z, lists, hz, hinv⟩

theorem zonePartition_of_sole_normal (h : MemoryNode.new 0 pfns = some node) (hb : pfns .normal < 2^64)
    (hdma : pfns .dma = 0) (hdma32 : pfns .dma32 = 0) (hhigh : pfns .highMem ≤ pfns .normal)
    (heven : 2 ∣ pfns .normal) : ZonePartition node := by
  obtain ⟨hlo, hhi, _, _, _, _⟩ := MemoryNode.new_inv h
  have hends : zoneHighest pfns .normal = pfns .normal ∧ zoneLowest 0 pfns .normal = 0 := by
    simp only [zoneLowest, zoneHighest]
    omega
  have hsize : pfns .normal - pfns .normal % 2 = pfns .normal := by omega
  have h0 : ∀ freePageNum, NodeLog.SoleNormal (pfns .normal) ⟨⟨node, freePageNum⟩, []⟩ := by
    intro freePageNum
    have hnew := soleNormal_new h hdma hdma32 hhigh freePageNum
    rwa [hsize] at hnew
  constructor
  · intro t z' hz'
    obtain ⟨hothers, _, z, lists, hz, hinv⟩ := h0 0
    obtain rfl : t = .normal := by
      by_contra hne
      exact absurd ((hothers t hne).symm.trans hz') (by simp)
    obtain rfl : z = z' := mem_unique hz hz'
    have htile := hinv.tiling.tile
    rw [List.map_nil, append_nil] at htile
    rw [zoneBlocks_eq hinv, hlo, hhi, hends.1, hends.2, Nat.sub_zero, ← List.range_eq_range']
    exact htile
  · intro freePageNum reqs
    obtain ⟨s, hr, _, hlog, z', lists', _, hinv'⟩ := NodeLog.run_soleNormal hb (h0 freePageNum) reqs
    refine ⟨s, hr, ?_, ?_⟩
    · refine List.Pairwise.imp_of_mem ?_ (List.pairwise_of_forall (R := fun _ _ => True) fun _ _ => trivial)
      intro a b ha hb _ hne
      exact absurd ((hlog a ha).trans (hlog b hb).symm) hne
    · intro e he x hx
      have hmem : x ∈ pages (freeBlocks lists' ++ s.handed.map Prod.snd) :=
        mem_pages.mpr ⟨e.2, mem_append_right _ (List.mem_map_of_mem he), hx⟩
      rw [hinv'.tiling.mem_pages_iff] at hmem
      rw [hlog e he, hlo, hhi, hends.1, hends.2]
      exact ⟨Nat.zero_le _, hmem⟩

/-- The node's zones are partitioned exactly when the normal zone is the only
one and has an even number of frames. -/
theorem zonePartition_iff (h : MemoryNode.new 0 pfns = some node) (hb : pfns .normal < 2^64) :
    ZonePartition node ↔
      pfns .dma = 0 ∧ pfns .dma32 = 0 ∧ pfns .highMem ≤ pfns .normal ∧ 2 ∣ pfns .normal :=
  ⟨fun hp => sole_normal_of_covers h hp.covers,
    fun ⟨hdma, hdma32, hhigh, heven⟩ => zonePartition_of_sole_normal h hb hdma hdma32 hhigh heven⟩

def oneZone : ZoneType → Nat
  | .normal => 4
  | _ => 0

theorem zonePartition_iff_oneZone : ∃ node, MemoryNode.new 0 oneZone = some node ∧ ZonePartition node := by
  have hsome : (MemoryNode.new 0 oneZone).isSome := by decide
  obtain ⟨node, h⟩ := isSome_iff_exists.mp hsome
  exact ⟨node, h, (zonePartition_iff h (by decide)).mpr (by decide)⟩

/-- A DMA zone of two frames below a normal zone that ends at frame 4: both
zones' lists hold frame 0. -/
def twoZones : ZoneType → Nat
  | .dma => 2
  | .normal => 4
  | _ => 0

theorem twoZones_not_partitioned : ∃ node, MemoryNode.new 0 twoZones = some node ∧ ¬ ZonePartition node := by
  have hsome : (MemoryNode.new 0 twoZones).isSome := by decide
  obtain ⟨node, h⟩ := isSome_iff_exists.mp hsome
  exact ⟨node, h, fun hp => absurd (sole_normal_of_covers h hp.covers) (by decide)⟩

end Node

end Shma.Mmu
