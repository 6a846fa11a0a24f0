import Shma.DramBuffer.FairAllocator

/-!
# Which blocks the pools hold

No operation of the allocator brings in a block that was in no pool before, and a
block handed out comes from the head of a global pool, or else from the pools a
reclaim draws on.
-/
namespace Shma.FairAllocator

section

variable (a : FairAllocator) (b : Nat)

def Pooled : Prop := ∃ i, b ∈ a.cleanPools i ∨ b ∈ a.dirtyPools i

def Holds : Prop := b ∈ a.globalCleanPool ∨ b ∈ a.globalDirtyPool ∨ a.Pooled b

/-- The blocks an allocation may hand out: the head of the clean queue, or if that is
empty the head of the dirty queue or, where a reclaim is due, a block of some process. -/
def Candidate : Prop :=
  a.globalCleanPool.head? = some b ∨
    a.globalCleanPool = [] ∧ (a.globalDirtyPool.head? = some b ∨ a.shouldReclaim ∧ a.Pooled b)

end

variable {b : Nat}

theorem Candidate.holds {a : FairAllocator} (h : a.Candidate b) : a.Holds b := by
  rcases h with h | ⟨_, h | ⟨_, h⟩⟩
  · exact .inl (List.mem_of_mem_head? h)
  · exact .inr (.inl (List.mem_of_mem_head? h))
  · exact .inr (.inr h)

structure Reclaimed (a a' : FairAllocator) : Prop where
  clean : ∃ bs, a'.globalCleanPool = a.globalCleanPool ++ bs ∧ ∀ b ∈ bs, a.Pooled b
  dirty : ∃ bs, a'.globalDirtyPool = a.globalDirtyPool ++ bs ∧ ∀ b ∈ bs, a.Pooled b
  pooled : ∀ b, a'.Pooled b → a.Pooled b

variable {pol : PoolPolicy} {a a' : FairAllocator}

theorem Reclaimed.refl (a : FairAllocator) : Reclaimed a a :=
  ⟨⟨[], (append_nil _).symm, forall_mem_nil _⟩, ⟨[], (append_nil _).symm, forall_mem_nil _⟩,
    fun _ h => h⟩

theorem Reclaimed.trans {a'' : FairAllocator} (h : Reclaimed a a') (h' : Reclaimed a' a'') : Reclaimed a a'' := by
  obtain ⟨⟨cs, hcs, hcmem⟩, ⟨ds, hds, hdmem⟩, hp⟩ := h
  obtain ⟨⟨cs', hcs', hcmem'⟩, ⟨ds', hds', hdmem'⟩, hp'⟩ := h'
  refine ⟨⟨cs ++ cs', by rw [hcs', hcs, append_assoc], fun b hb => ?_⟩,
    ⟨ds ++ ds', by rw [hds', hds, append_assoc], fun b hb => ?_⟩, fun b hb => hp b (hp' b hb)⟩
  · exact (mem_append.mp hb).elim (hcmem b) fun hb => hp b (hcmem' b hb)
  · exact (mem_append.mp hb).elim (hdmem b) fun hb => hp b (hdmem' b hb)

theorem releaseLoop_spec (pol : PoolPolicy) {n : Nat} (pool global : List Nat) (hn : n ≤ pool.length) :
    ∃ bs, (releaseLoop pol n pool global).2 = global ++ bs ∧ bs.length = n ∧
      (bs ++ (releaseLoop pol n pool global).1).Perm pool := by
  induction n generalizing pool global with
  | zero => exact ⟨[], (append_nil _).symm, rfl, .refl _⟩
  | succ n ih =>
    have hmem := pol.first_mem pool (List.ne_nil_of_length_pos (by omega))
    have hlen := List.length_erase_of_mem hmem
    obtain ⟨bs, hbs, hn, hperm⟩ := ih (pool.erase (pol.first pool)) (global ++ [pol.first pool]) (by omega)
    refine ⟨pol.first pool :: bs, ?_, congrArg _ hn, (hperm.cons _).trans (List.perm_cons_erase hmem).symm⟩
    rw [releaseLoop, hbs, append_assoc]
    rfl

variable {processId evictSize : Nat}

theorem cleanEvictSize_le (h : evictSize ≤ (a.cleanPools processId).length % 2^32 + (a.dirtyPools processId).length) :
    a.cleanEvictSize processId evictSize ≤ (a.cleanPools processId).length ∧
      evictSize - a.cleanEvictSize processId evictSize ≤ (a.dirtyPools processId).length := by
  simp only [cleanEvictSize]
  split <;> omega

theorem release_reclaimed (h : a.release pol processId evictSize = some a') : Reclaimed a a' := by
  obtain ⟨hsize, -, rfl⟩ := release_eq_some.mp h
  obtain ⟨hclean, hdirty⟩ := cleanEvictSize_le hsize
  obtain ⟨cs, hc, -, hcs⟩ := releaseLoop_spec pol (a.cleanPools processId) a.globalCleanPool hclean
  obtain ⟨ds, hd, -, hds⟩ := releaseLoop_spec pol (a.dirtyPools processId) a.globalDirtyPool hdirty
  refine ⟨⟨cs, hc, fun b hb => ⟨processId, .inl (hcs.subset (mem_append_left _ hb))⟩⟩,
    ⟨ds, hd, fun b hb => ⟨processId, .inr (hds.subset (mem_append_left _ hb))⟩⟩, ?_⟩
  intro b hb
  obtain ⟨i, hi⟩ := hb
  refine ⟨i, ?_⟩
  by_cases hip : i = processId
  · subst hip
    simp only [released, update_self] at hi
    exact hi.imp (fun hb => hcs.subset (mem_append_right _ hb)) fun hb => hds.subset (mem_append_right _ hb)
  · simpa only [released, update_of_ne hip] using hi

theorem evict_reclaimed (h : a.evict pol = some a') : Reclaimed a a' := by
  obtain ⟨_, -, h⟩ := bind_eq_some_iff.mp h
  exact equalEvictLoop_keeps .refl .trans (fun _ => release_reclaimed) h

def freeBlocks (a : FairAllocator) : List Nat := a.globalCleanPool ++ a.globalDirtyPool

theorem holds_iff : a.Holds b ↔ b ∈ a.freeBlocks ∨ a.Pooled b := by
  rw [Holds, freeBlocks, mem_append, or_assoc]

/-- What `allocate_one_page` does: the first free block goes to the clean pool of the
process. -/
structure Allocated (processId b : Nat) (a a' : FairAllocator) : Prop where
  proc_lt : processId < a.processCount
  free : a.freeBlocks = b :: a'.freeBlocks
  clean : a'.cleanPools = update a.cleanPools processId (List.insert b (a.cleanPools processId))
  dirty : a'.dirtyPools = a.dirtyPools
  totalPageCount : a'.totalPageCount = a.totalPageCount
  processCount : a'.processCount = a.processCount
  minFreePages : a'.minFreePages = a.minFreePages
  busy : a'.busyPages = a.busyPages + 1
  procBusy : a'.procBusyPages =
    update a.procBusyPages processId (Int.bmod (a.procBusyPages processId + 1) (2^32))

theorem allocateOnePage_allocated (h : a.allocateOnePage processId = some (b, a')) : Allocated processId b a a' := by
  unfold allocateOnePage at h
  split at h
  · next hp =>
    split at h
    · next b' rest hclean =>
      cases h
      exact ⟨hp, by simp [freeBlocks, hclean], rfl, rfl, rfl, rfl, rfl, rfl, rfl⟩
    · next b' rest hclean hdirty =>
      cases h
      exact ⟨hp, by simp [freeBlocks, hclean, hdirty], rfl, rfl, rfl, rfl, rfl, rfl, rfl⟩
    · cases h
  · cases h

theorem allocateOnePage_spec (h : a.allocateOnePage processId = some (b, a')) :
    (a.globalCleanPool.head? = some b ∨ a.globalCleanPool = [] ∧ a.globalDirtyPool.head? = some b) ∧
      ∀ c, a'.Holds c → a.Holds c := by
  have hal := allocateOnePage_allocated h
  have hfree := hal.free
  constructor
  · rw [freeBlocks] at hfree
    cases hclean : a.globalCleanPool with
    | cons b' rest =>
      rw [hclean] at hfree
      exact .inl (congrArg some (List.cons.inj hfree).1)
    | nil =>
      rw [hclean, List.nil_append] at hfree
      exact .inr ⟨rfl, by rw [hfree]; rfl⟩
  · intro c hc
    rw [holds_iff, hfree, mem_cons]
    rcases holds_iff.mp hc with hc | ⟨i, hc | hc⟩
    · exact .inl (.inr hc)
    · by_cases hi : i = processId
      · rw [hal.clean, hi, update_self, List.mem_insert_iff] at hc
        exact hc.imp .inl fun hc => ⟨processId, .inl hc⟩
      · rw [hal.clean, update_of_ne hi] at hc
        exact .inr ⟨i, .inl hc⟩
    · exact .inr ⟨i, .inr (hal.dirty ▸ hc)⟩

theorem Reclaimed.holds (h : Reclaimed a a') (hb : a'.Holds b) : a.Holds b := by
  obtain ⟨⟨cs, hc, hcin⟩, ⟨ds, hd, hdin⟩, hp⟩ := h
  rcases hb with hb | hb | hb
  · rw [hc, mem_append] at hb
    exact hb.elim .inl fun hb => .inr (.inr (hcin b hb))
  · rw [hd, mem_append] at hb
    exact hb.elim (fun hb => .inr (.inl hb)) fun hb => .inr (.inr (hdin b hb))
  · exact .inr (.inr (hp b hb))

theorem Reclaimed.candidate (h : Reclaimed a a') (hr : a.shouldReclaim)
    (hb : a'.globalCleanPool.head? = some b ∨ a'.globalCleanPool = [] ∧ a'.globalDirtyPool.head? = some b) :
    a.Candidate b := by
  obtain ⟨⟨cs, hc, hcin⟩, ⟨ds, hd, hdin⟩, _⟩ := h
  rw [hc, hd] at hb
  cases hclean : a.globalCleanPool with
  | cons c rest =>
    rw [hclean] at hb
    refine .inl ?_
    rcases hb with hb | ⟨hb, _⟩
    · rw [hclean]; exact hb
    · cases hb
  | nil =>
    rw [hclean] at hb
    refine .inr ⟨hclean, ?_⟩
    rcases hb with hb | ⟨_, hb⟩
    · exact .inr ⟨hr, hcin b (List.mem_of_mem_head? hb)⟩
    · cases hdirty : a.globalDirtyPool with
      | cons c rest =>
        rw [hdirty] at hb
        exact .inl hb
      | nil =>
        rw [hdirty] at hb
        exact .inr ⟨hr, hdin b (List.mem_of_mem_head? hb)⟩

theorem convertToDirty_holds (a : FairAllocator) {c : Nat}
    (h : (a.convertToDirty processId b).Holds c) : a.Holds c := by
  unfold convertToDirty at h
  split at h
  · next hb =>
    rcases h with hc | hc | ⟨i, hc⟩
    · exact .inl hc
    · exact .inr (.inl hc)
    · refine .inr (.inr ⟨i, ?_⟩)
      by_cases hip : i = processId
      · subst hip
        simp only [update_self, List.mem_insert_iff] at hc
        rcases hc with hc | rfl | hc
        · exact .inl (List.mem_of_mem_erase hc)
        · exact .inl hb
        · exact .inr hc
      · simpa only [update_of_ne hip] using hc
  · exact h

theorem holds_new {z : Zinfo} {processNum : Nat} {memorySize : Address}
    (h : (new z processNum memorySize).Holds b) : b < memorySize >>> z.pageShift := by
  rcases h with h | h | ⟨i, h | h⟩
  · exact mem_range.mp h
  all_goals cases h

end Shma.FairAllocator
