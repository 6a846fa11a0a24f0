import Shma.Walker.Effects

/-!
# What a migration changes

`do_dram_page_fault` takes a DRAM block, gives the page in it back to its NVM frame
and caches the page of a TLB entry in its place. The shootdowns reach the TLBs of
all cores.
-/
namespace Shma.Walker

open PageTable Tlb

namespace System

variable {cfg : Config} {s s' : System}

variable {latency : Nat}

theorem remapAll_frame {ppn dstPpn : Address} {srcDram dstDram : Bool} {procs : List Nat}
    (h : remapAll cfg ppn dstPpn srcDram dstDram procs s = some (s', latency)) :
    s' = { s with pagingArray := s'.pagingArray } := by
  induction procs generalizing s latency with
  | nil => cases h; rfl
  | cons i procs ih =>
    obtain ⟨r, _, h⟩ := bind_eq_some_iff.mp h
    obtain ⟨r', hrest, he⟩ := map_eq_some_iff.mp h
    cases he
    have hframe := ih hrest
    exact hframe

variable {proc : Nat} {addr : Address}

theorem mapPage_frame {tg : Target}
    (h : s.mapPage cfg proc addr tg = some (s', latency)) : s' = { s with pagingArray := s'.pagingArray } := by
  obtain ⟨r, _, he⟩ := map_eq_some_iff.mp h
  cases he
  rfl

theorem writeBackMapping_frame {core b : Nat} (h : s.writeBackMapping cfg core b = some (s', latency)) :
    s' = { s with pagingArray := s'.pagingArray } := by
  unfold writeBackMapping at h
  dsimp only at h
  split at h
  · cases h; rfl
  · split at h
    · exact remapAll_frame h
    · obtain ⟨pagePtr, _, h⟩ := bind_eq_some_iff.mp h
      exact mapPage_frame h

theorem installMapping_frame {core b : Nat} {e : ExtendTlbEntry}
    (h : s.installMapping cfg core b e = some (s', latency)) : s' = { s with pagingArray := s'.pagingArray } := by
  unfold installMapping at h
  split at h
  · exact remapAll_frame h
  · exact mapPage_frame h

def fetched (block : DRAMBufferBlock) (e : ExtendTlbEntry) : DRAMBufferBlock :=
  { (if block.isOccupied then block.invalidate else block) with
    used := true, originalAddr := e.pPageNo, vaddr := e.vPageNo }

variable {req req' : MemReq} {ref : EntryRef} {evicted : Bool} {core b : Nat}

section

variable (h : s.evictAndFetch cfg core b ref req = some (evicted, req', s'))
include h

theorem evictAndFetch_cases : ∃ s1 l1 l2, s.writeBackMapping cfg core b = some (s1, l1) ∧
      (s1.setBlock b (fetched (s.dram.bufferArray b) (s.entry ref))).installMapping cfg core b (s.entry ref) =
        some (s', l2) := by
  obtain ⟨⟨s1, l1⟩, h1, h⟩ := bind_eq_some_iff.mp h
  obtain ⟨block, hblock, h⟩ := bind_eq_some_iff.mp h
  obtain ⟨⟨s2, l2⟩, h2, he⟩ := bind_eq_some_iff.mp h
  cases he
  have hs1 := writeBackMapping_frame h1
  have hentry : s1.entry ref = s.entry ref := by rw [hs1]; rfl
  refine ⟨s1, l1, l2, h1, ?_⟩
  rw [hentry, DRAMBufferBlock.validate_eq_some hblock] at h2
  exact h2

theorem evictAndFetch_frame : s' = { s with
      pagingArray := s'.pagingArray
      dram := s.dram.setBlock b (fetched (s.dram.bufferArray b) (s.entry ref)) } := by
  obtain ⟨s1, l1, l2, h1, h2⟩ := evictAndFetch_cases h
  rw [installMapping_frame h2, writeBackMapping_frame h1]
  rfl

end

theorem noteDirty_quiet (ht : s.TablesOk cfg) (b : Nat) (flush : Flush) :
    Quiet cfg s (if flush.dramWriteBacks ≠ 0 then s.setBlock b (s.dram.bufferArray b).setDirty else s) := by
  split
  · refine ⟨ht, fun _ _ => rfl, ⟨rfl, rfl, fun c => ?_⟩, rfl, fun _ hb => hb, rfl⟩
    by_cases hc : c = b
    · subst hc; simp [frames, setBlock, FairAllocator.setBlock, DRAMBufferBlock.setDirty]
    · simp [frames, setBlock, FairAllocator.setBlock, hc]
  · exact .ofTlb ht s.tlb

theorem retire_spec (ht : s.TablesOk cfg) (hw : s.TlbsOk) (b : Nat) (flush : Flush) (req : MemReq) :
    Quiet cfg s (s.retire cfg b flush req).1 ∧ (s.retire cfg b flush req).1.TlbsOk ∧
      (∀ id, HotMonitorTlb.SameTrie (s.tlb id) ((s.retire cfg b flush req).1.tlb id)) ∧
      ∀ id w, ((s.retire cfg b flush req).1.tlb id).view w =
        if (s.dram.bufferArray b).isOccupied ∧ id.1 < cfg.numCores ∧ w = (s.dram.bufferArray b).vaddr then
          ((s.tlb id).view w).map fun _ => ((s.dram.bufferArray b).originalAddr, false)
        else (s.tlb id).view w := by
  by_cases hocc : (s.dram.bufferArray b).isOccupied = true
  · have hnote := noteDirty_quiet ht b flush
    have htlb : (if flush.dramWriteBacks ≠ 0 then s.setBlock b (s.dram.bufferArray b).setDirty else s).tlb = s.tlb := by
      split <;> rfl
    simp only [retire, hocc, if_true, true_and]
    generalize (if flush.dramWriteBacks ≠ 0 then s.setBlock b (s.dram.bufferArray b).setDirty else s) = s1 at *
    have hw1 : s1.TlbsOk := fun id => by rw [htlb]; exact hw id
    have hshoot := tlbShootdownHscc_tlb cfg hw1 (s.dram.bufferArray b).vaddr
      (s.dram.bufferArray b).originalAddr false { req with cycle := flush.dramCycle }
    rw [htlb] at hshoot
    exact ⟨hnote.trans (.ofTlb hnote.tables _), hshoot⟩
  · have hnone : s.retire cfg b flush req = (s, req) := if_neg hocc
    rw [hnone]
    refine ⟨.ofTlb ht s.tlb, hw, fun id => .refl _, fun id w => ?_⟩
    rw [if_neg fun h => hocc h.1]

variable {flush : Flush}

theorem evictDRAMPage_cases (h : s.evictDRAMPage cfg core b ref flush req = some (evicted, req', s')) :
    ∃ req1 req2 s2, (s.retire cfg b flush req).1.evictAndFetch cfg core b ref req1 = some (evicted, req2, s2) ∧
      s' = (s2.tlbShootdownHscc cfg (s2.entry ref).vPageNo ((Target.block b).ppn cfg.z) true req2).1 := by
  unfold evictDRAMPage at h
  generalize s.retire cfg b flush req = r at *
  obtain ⟨s1, req1⟩ := r
  obtain ⟨⟨evicted1, req2, s2⟩, h2, he⟩ := bind_eq_some_iff.mp h
  cases he
  exact ⟨req1, req2, s2, h2, rfl⟩

/-- A migration tells all TLBs, whatever process their core runs, where the page it
retires and the page it caches go. -/
theorem evictDRAMPage_tlb (ht : s.TablesOk cfg) (hw : s.TlbsOk)
    (h : s.evictDRAMPage cfg core b ref flush req = some (evicted, req', s')) :
    s'.TlbsOk ∧ ∀ id w, (s'.tlb id).view w =
      if id.1 < cfg.numCores ∧ w = (s.entry ref).vPageNo then
        ((s.tlb id).view w).map fun _ => ((Target.block b).ppn cfg.z, true)
      else if (s.dram.bufferArray b).isOccupied ∧ id.1 < cfg.numCores ∧ w = (s.dram.bufferArray b).vaddr then
        ((s.tlb id).view w).map fun _ => ((s.dram.bufferArray b).originalAddr, false)
      else (s.tlb id).view w := by
  obtain ⟨_, hw1, htrie1, hview1⟩ := retire_spec ht hw b flush req
  obtain ⟨req1, req2, s2, h2, rfl⟩ := evictDRAMPage_cases h
  have htlb : s2.tlb = (s.retire cfg b flush req).1.tlb := by rw [evictAndFetch_frame h2]
  have hw2 : s2.TlbsOk := fun id => by rw [htlb]; exact hw1 id
  have hvpn : (s2.entry ref).vPageNo = (s.entry ref).vPageNo := by
    rw [entry, htlb]
    exact (htrie1 ref.id).2 ref.index
  obtain ⟨hw3, _, hview3⟩ := tlbShootdownHscc_tlb cfg hw2 (s2.entry ref).vPageNo
    ((Target.block b).ppn cfg.z) true req2
  refine ⟨hw3, fun id w => ?_⟩
  rw [hview3 id w, htlb, hvpn, hview1 id w]
  -- which of the two shootdowns came first does not matter for the page of the second
  split
  · split
    · rw [Option.map_map]; rfl
    · rfl
  · rfl

structure FoundRef (s : System) (core : Nat) (ppn : Address) (ref : EntryRef) (result : TLBSearchResult)
    (s' : System) : Prop where
  core_eq : ref.id.1 = core
  index : (s.tlb ref.id).ordinaryTlb.tlbTriePa ppn = some ref.index
  live : (s'.tlb ref.id).IsLive ref.index
  ppn : (s'.entry ref).pPageNo = ppn
  vpn : (s'.entry ref).vPageNo = (s.entry ref).vPageNo
  inDram : (s'.entry ref).inDram = (s.entry ref).inDram
  overThres : result = .overThres → (s.entry ref).inDram = false

variable {isWrite : Bool}

variable {paddr : Address} {thres : Nat}

theorem lookupTlb_spec (ht : s.TablesOk cfg) (hw : s.TlbsOk) {core : Nat} {found : Option EntryRef} {result : TLBSearchResult}
    (h : s.lookupTlb cfg core paddr isWrite thres = (found, result, s')) :
    Steady cfg s s' ∧ s' = { s with tlb := s'.tlb } ∧
      ∀ ref, found = some ref → FoundRef s core (paddr >>> cfg.z.pageShift) ref result s' := by
  obtain ⟨hwi, hvi, hfi⟩ := HotMonitorTlb.lookUpVa_spec cfg.counters (hw (core, .ins)) (paddr >>> cfg.z.pageShift)
    isWrite thres
  unfold lookupTlb at h
  dsimp only at h
  generalize (s.tlb (core, .ins)).lookUpVa cfg.counters (paddr >>> cfg.z.pageShift) isWrite thres = r at *
  obtain ⟨foundi, resulti, ti⟩ := r
  have hs1 : Steady cfg s (s.setTlb (core, .ins) ti) := setTlb_steady ht hw hwi hvi
  cases foundi with
  | some i =>
    cases h
    refine ⟨hs1, rfl, fun ref href => ?_⟩
    cases href
    obtain ⟨hidx, hlive, hppn, hvpn, hd, hover⟩ := hfi i rfl
    have htlb : (s.setTlb (core, .ins) ti).tlb (core, .ins) = ti := update_self _ _ _
    exact ⟨rfl, hidx, by rw [htlb]; exact hlive, by rw [entry, htlb]; exact hppn, by rw [entry, htlb]; exact hvpn,
      by rw [entry, htlb]; exact hd, hover⟩
  | none =>
    have hdata : (s.setTlb (core, .ins) ti).tlb (core, .data) = s.tlb (core, .data) :=
      update_of_ne (by simp) _ _
    obtain ⟨hwd, hvd, hfd⟩ := HotMonitorTlb.lookUpVa_spec cfg.counters (hw (core, .data))
      (paddr >>> cfg.z.pageShift) isWrite thres
    rw [hdata] at h
    generalize (s.tlb (core, .data)).lookUpVa cfg.counters (paddr >>> cfg.z.pageShift) isWrite thres = r at *
    obtain ⟨foundd, resultd, td⟩ := r
    cases h
    refine ⟨hs1.trans (setTlb_steady hs1.tables hs1.tlbs hwd fun v => by rw [hdata]; exact hvd v), rfl,
      fun ref href => ?_⟩
    obtain ⟨i, rfl, rfl⟩ := map_eq_some_iff.mp href
    obtain ⟨hidx, hlive, hppn, hvpn, hd, hover⟩ := hfd i rfl
    have htlb : ((s.setTlb (core, .ins) ti).setTlb (core, .data) td).tlb (core, .data) = td :=
      update_self _ _ _
    exact ⟨rfl, hidx, by rw [htlb]; exact hlive, by rw [entry, htlb]; exact hppn, by rw [entry, htlb]; exact hvpn,
      by rw [entry, htlb]; exact hd, hover⟩

/-- Without shared memory, giving a block's page back writes one leaf of the table of the
process at work. -/
theorem writeBackMapping_spec (hshared : cfg.enableSharedMemory = false) {core b : Nat}
    (h : s.writeBackMapping cfg core b = some (s', latency)) (ht : s.TablesOk cfg) :
    s'.TablesOk cfg ∧ ∀ q a, s'.translate q a =
      if (s.dram.bufferArray b).isOccupied ∧ q = s.procOf core ∧
        slotOf a cfg.mode = slotOf ((s.dram.bufferArray b).vaddr <<< cfg.z.pageShift) cfg.mode
      then some (.page (s.dram.bufferArray b).originalAddr) else s.translate q a := by
  unfold writeBackMapping at h
  dsimp only at h
  split at h
  · next hfree =>
    cases h
    refine ⟨ht, fun q a => ?_⟩
    rw [if_neg fun hc => by rw [hfree] at hc; cases hc.1]
  · next hocc =>
    rw [hshared] at h
    obtain ⟨pagePtr, hptr, h⟩ := bind_eq_some_iff.mp h
    obtain ⟨ht', htr, _⟩ := mapPage_spec h ht
    obtain rfl : (s.dram.bufferArray b).originalAddr = pagePtr := by
      unfold Mmu.MemMap.getPagePtr at hptr
      split at hptr
      · exact some_inj.mp hptr
      · cases hptr
    refine ⟨ht', fun q a => ?_⟩
    rw [htr q a]
    simp only [hocc, true_and]

/-- A migration by a process: page `v` on frame `f` is now in block `b`, and the page that
was there is on its frame. -/
structure Migrated (cfg : Config) (s : System) (core b : Nat) (v f : Address) (s' : System) : Prop where
  tables : s'.TablesOk cfg
  translate : ∀ q a, s'.translate q a =
    if q = s.procOf core ∧ slotOf a cfg.mode = slotOf (v <<< cfg.z.pageShift) cfg.mode then some (.block b)
    else if (s.dram.bufferArray b).isOccupied ∧ q = s.procOf core ∧
      slotOf a cfg.mode = slotOf ((s.dram.bufferArray b).vaddr <<< cfg.z.pageShift) cfg.mode
    then some (.page (s.dram.bufferArray b).originalAddr) else s.translate q a
  block : (s'.dram.bufferArray b).used = true ∧ (s'.dram.bufferArray b).originalAddr = f ∧
    (s'.dram.bufferArray b).vaddr = v
  others : ∀ c, c ≠ b → (s'.dram.bufferArray c).used = (s.dram.bufferArray c).used ∧
    (s'.dram.bufferArray c).originalAddr = (s.dram.bufferArray c).originalAddr ∧
    (s'.dram.bufferArray c).vaddr = (s.dram.bufferArray c).vaddr
  supplies : ∀ n frames, s.buddy.Supplies n frames → s'.buddy.Supplies n frames
  holds : ∀ c, s'.dram.Holds c → s.dram.Holds c
  walker : s'.walker = s.walker

theorem evictDRAMPage_migrated (hshared : cfg.enableSharedMemory = false) (ht : s.TablesOk cfg) (hw : s.TlbsOk)
    (hlive : (s.tlb ref.id).IsLive ref.index)
    (hne : (s.dram.bufferArray b).isOccupied → (s.entry ref).vPageNo ≠ (s.dram.bufferArray b).vaddr)
    (h : s.evictDRAMPage cfg core b ref flush req = some (evicted, req', s')) :
    Migrated cfg s core b (s.entry ref).vPageNo (s.entry ref).pPageNo s' := by
  obtain ⟨hq, hw1, htrie, hview⟩ := retire_spec ht hw b flush req
  obtain ⟨req1, req2, s2, h2, rfl⟩ := evictDRAMPage_cases h
  generalize (s.retire cfg b flush req).1 = s1 at *
  have hvpn : (s1.entry ref).vPageNo = (s.entry ref).vPageNo := (htrie ref.id).2 ref.index
  -- the shootdown of the retired page has not touched the entry, which is for another page
  have hppn : (s1.entry ref).pPageNo = (s.entry ref).pPageNo := by
    have hv := hview ref.id (s.entry ref).vPageNo
    rw [if_neg fun hc => hne hc.1 hc.2.2] at hv
    have hv1 := view_entry ((htrie ref.id).isLive hlive)
    rw [hvpn, hv, view_entry hlive] at hv1
    exact (Prod.mk.inj (some_inj.mp hv1)).1.symm
  obtain ⟨hused, horig, hvaddr⟩ := hq.block b
  have hocc : (s1.dram.bufferArray b).isOccupied = (s.dram.bufferArray b).isOccupied := hused
  obtain ⟨s3, l1, l2, hback, hinst⟩ := evictAndFetch_cases h2
  obtain ⟨ht3, htr3⟩ := writeBackMapping_spec hshared hback hq.tables
  rw [installMapping, hshared] at hinst
  obtain ⟨ht2, htr2, _⟩ := mapPage_spec hinst ht3
  have hproc : (s3.setBlock b (fetched (s1.dram.bufferArray b) (s1.entry ref))).procOf core = s.procOf core := by
    rw [writeBackMapping_frame hback]
    exact hq.procOf core
  have hframe := evictAndFetch_frame h2
  have hdram : s2.dram = s1.dram.setBlock b (fetched (s1.dram.bufferArray b) (s1.entry ref)) := by rw [hframe]
  refine ⟨ht2, fun q a => ?_, ?_, fun c hc => ?_, fun n frames hs => ?_, fun c hc => ?_, ?_⟩
  · show s2.translate q a = _
    rw [htr2 q a, hproc, hvpn]
    split
    · rfl
    · show s3.translate q a = _
      rw [htr3 q a, hocc, hvaddr, horig, hq.procOf core, hq.translate q a]
  · show (s2.dram.bufferArray b).used = true ∧ (s2.dram.bufferArray b).originalAddr = _ ∧
      (s2.dram.bufferArray b).vaddr = _
    rw [hdram, ← hvpn, ← hppn]
    simp [FairAllocator.setBlock, fetched]
  · show (s2.dram.bufferArray c).used = _ ∧ (s2.dram.bufferArray c).originalAddr = _ ∧
      (s2.dram.bufferArray c).vaddr = _
    rw [hdram]
    simpa [FairAllocator.setBlock, hc] using hq.block c
  · rw [hframe]
    exact hq.supplies hs
  · refine hq.holds c ?_
    have hc : s2.dram.Holds c := hc
    rw [hdram] at hc
    exact hc
  · rw [hframe]
    exact hq.walker

/-- The block handed out to a process, and what the reclaim before it has moved. -/
theorem allocatePage_spec {dram dram' : FairAllocator} {b : Nat} (h : allocatePage cfg dram proc = some (b, dram')) :
    dram.Candidate b ∧ dram'.bufferArray = dram.bufferArray ∧ ∀ c, dram'.Holds c → dram.Holds c := by
  obtain ⟨dram1, h1, h2⟩ := bind_eq_some_iff.mp h
  obtain ⟨hhead, hholds⟩ := FairAllocator.allocateOnePage_spec h2
  have hbuf := FairAllocator.allocateOnePage_bufferArray h2
  split at h1
  · next hreclaim =>
    have hrec := FairAllocator.evict_reclaimed h1
    exact ⟨hrec.candidate hreclaim hhead, hbuf.trans (FairAllocator.evict_bufferArray h1),
      fun c hc => hrec.holds (hholds c hc)⟩
  · cases h1
    exact ⟨hhead.imp id fun hh => ⟨hh.1, .inl hh.2⟩, hbuf, hholds⟩

variable {cycle : Nat}

/-- A memory access changes counters only, or a migration follows for the TLB entry of its
physical page, with a block the allocator hands to the process at work. -/
theorem filterBasedCache_cases (ht : s.TablesOk cfg) (hw : s.TlbsOk) {core : Nat} (h : s.filterBasedCache cfg core paddr isWrite thres cycle flush = some (addr, s')) :
    Steady cfg s s' ∨ ∃ s1 ref b dram req evicted req', cfg.z.isDramAddress paddr = false ∧ Steady cfg s s1 ∧
      s1 = { s with tlb := s1.tlb } ∧ FoundRef s core (paddr >>> cfg.z.pageShift) ref .overThres s1 ∧
      allocatePage cfg s.dram (s.procOf core) = some (b, dram) ∧
      ({ s1 with dram } : System).evictDRAMPage cfg core b ref flush req = some (evicted, req', s') := by
  unfold filterBasedCache at h
  split at h
  · cases h
    exact .inl ⟨.ofTlb ht s.tlb, hw, fun _ _ => rfl⟩
  · next hnvm =>
    generalize hlook : s.lookupTlb cfg core paddr isWrite thres = r at h
    obtain ⟨found, result, s1⟩ := r
    obtain ⟨hsteady, hs1, hfound⟩ := lookupTlb_spec ht hw hlook
    dsimp only at h
    split at h
    · next ref =>
      obtain ⟨⟨addr1, evicted, req', s2⟩, hfault, he⟩ := map_eq_some_iff.mp h
      cases he
      obtain ⟨⟨b, dram⟩, halloc, hfault⟩ := bind_eq_some_iff.mp hfault
      obtain ⟨⟨evicted1, req1, s3⟩, hevict, he⟩ := bind_eq_some_iff.mp hfault
      cases he
      refine .inr ⟨s1, ref, b, dram, _, evicted, req', by simpa using hnvm, hsteady, hs1, hfound ref rfl, ?_, hevict⟩
      rw [hs1] at halloc
      exact halloc
    · cases h
      exact .inl hsteady

theorem step_memory {core : Nat} (h : s.step cfg (.memory core paddr isWrite thres cycle flush) = some s') :
    ∃ addr, s.filterBasedCache cfg core paddr isWrite thres cycle flush = some (addr, s') := by
  unfold step at h
  split at h
  · obtain ⟨⟨addr, s1⟩, hfilter, rfl⟩ := map_eq_some_iff.mp h
    exact ⟨addr, hfilter⟩
  · cases h

end System

end Shma.Walker
