import Shma.Walker.DirtyTracking

/-!
# Where a redirected access goes

`filter_based_cache` gives the event of an access that migrates its page the address that
`do_dram_page_fault` returns. This is the address of the DRAM block, without the offset of
the access in its page. In the release build, in which assertions are compiled out, an
allocator with empty pools returns a null pointer, and the event gets `INVALID_PAGE_ADDR`.
-/
namespace Shma.Walker.System

open PageTable Tlb Lib.Run
open ReversedPaging (framePtr)

section

variable (nassert : Bool) (cfg : Config)

/-- What `allocate_page` returns in a build without assertions (`nassert`): with both global pools
empty a null pointer. -/
def allocatePagePtr (dram : FairAllocator) (proc : Nat) : Option (Option Nat × FairAllocator) :=
  (if dram.shouldReclaim then dram.evict cfg.pools else some dram).bind fun dram =>
    match dram.allocateOnePage proc with
    | some (b, dram) => some (some b, dram)
    | none => if nassert && proc < dram.processCount then some (none, dram) else none

/-- `do_dram_page_fault`, with its test of the pointer. -/
def doDramPageFaultPtr (s : System) (core : Nat) (ref : EntryRef) (flush : Flush) (req : MemReq) :
    Option (Address × System) := do
  let (ptr, dram) ← allocatePagePtr nassert cfg s.dram (s.procOf core)
  let s := { s with dram }
  match ptr with
  | none => return (invalidPageAddr, s)
  | some b =>
    let (_, _, s) ← s.evictDRAMPage cfg core b ref flush { req with cycle := flush.nvmCycle }
    return (cfg.z.blockIdToAddr b, s)

/-- `filter_based_cache` in either build: the address of the event, and the system after. -/
def filterBasedCachePtr (s : System) (core : Nat) (paddr : Address) (isWrite : Bool)
    (thres cycle : Nat) (flush : Flush) : Option (Address × System) :=
  if cfg.z.isDramAddress paddr then some (paddr, s)
  else
    let (found, result, s) := s.lookupTlb cfg core paddr isWrite thres
    match found, result with
    | some ref, .overThres =>
      s.doDramPageFaultPtr nassert cfg core ref flush { lineAddr := paddr, type := .gets, childId := 0, cycle }
    | _, _ => some (paddr, s)

end

variable {cfg : Config} {s s' : System} {core : Nat} {paddr : Address} {isWrite : Bool} {thres cycle : Nat}
  {flush : Flush} {nassert : Bool}

theorem allocatePagePtr_false (cfg : Config) (dram : FairAllocator) (proc : Nat) :
    allocatePagePtr false cfg dram proc = (allocatePage cfg dram proc).map fun r => (some r.1, r.2) := by
  unfold allocatePagePtr allocatePage
  rw [Option.map_bind]
  congr 1
  funext dram
  dsimp only [Function.comp]
  cases dram.allocateOnePage proc <;> rfl

/-- With assertions it is the access that the machine makes. -/
theorem filterBasedCachePtr_false :
    s.filterBasedCachePtr false cfg core paddr isWrite thres cycle flush =
      s.filterBasedCache cfg core paddr isWrite thres cycle flush := by
  unfold filterBasedCachePtr filterBasedCache
  congr 1
  generalize s.lookupTlb cfg core paddr isWrite thres = r
  obtain ⟨found, result, s1⟩ := r
  rcases found with _ | ref
  · rfl
  · cases result with
    | overThres =>
      dsimp only
      unfold doDramPageFaultPtr doDramPageFault
      rw [allocatePagePtr_false]
      cases allocatePage cfg s1.dram (s1.procOf core) with
      | none => rfl
      | some r =>
        dsimp only [map_some, bind_eq_bind, bind_some]
        cases evictDRAMPage cfg { s1 with dram := r.2 } core r.1 ref flush _ <;> rfl
    | unOverThres | inDRAM => rfl

section

variable (cfg : Config)

/-- The TLB entry whose page the access migrates, and the system when it is found. -/
def migrates (s : System) (core : Nat) (paddr : Address) (isWrite : Bool) (thres : Nat) :
    Option (EntryRef × System) :=
  if cfg.z.isDramAddress paddr then none
  else
    match s.lookupTlb cfg core paddr isWrite thres with
    | (some ref, .overThres, s) => some (ref, s)
    | _ => none

def offset (addr : Address) : Nat := addr &&& (2^cfg.z.pageShift - 1)

def physAddr (s : System) (proc : Nat) (vaddr : Address) : Option Address :=
  (s.translate proc vaddr).map fun tg => (tg.ppn cfg.z <<< cfg.z.pageShift) ||| offset cfg vaddr

def vaddrOf (v paddr : Address) : Address := (v <<< cfg.z.pageShift) ||| offset cfg paddr

/-- What the event's address should be after a migration: the place of the access in the block,
where the page table has it too, and the address that was there if there was no block. -/
def RightAddress (s' : System) (proc : Nat) (v paddr addr : Address) : Option Nat → Prop
  | none => addr = paddr
  | some b => addr = cfg.z.blockIdToAddr b + offset cfg paddr ∧ s'.physAddr cfg proc (vaddrOf cfg v paddr) = some addr

theorem offset_lt (addr : Address) : offset cfg addr < 2^cfg.z.pageShift := by
  rw [offset, Nat.and_two_pow_sub_one_eq_mod]
  exact mod_lt _ (Nat.two_pow_pos _)

theorem vaddrOf_offset (v paddr : Address) :
    offset cfg (vaddrOf cfg v paddr) = offset cfg paddr := by
  have hlt := offset_lt cfg paddr
  rw [vaddrOf, ← Nat.shiftLeft_add_eq_or_of_lt hlt, offset, Nat.and_two_pow_sub_one_eq_mod, shiftLeft_eq,
    Nat.mul_add_mod_self_right, mod_eq_of_lt hlt]

theorem vaddrOf_page (v paddr : Address) : vaddrOf cfg v paddr >>> cfg.z.pageShift = v := by
  have hlt := offset_lt cfg paddr
  rw [vaddrOf, ← Nat.shiftLeft_add_eq_or_of_lt hlt, shiftRight_eq_div_pow, shiftLeft_eq,
    Nat.add_comm, Nat.add_mul_div_right _ _ (Nat.two_pow_pos _), Nat.div_eq_of_lt hlt, Nat.zero_add]

theorem lookupTlb_frame (s : System) (core : Nat) (paddr : Address) (isWrite : Bool) (thres : Nat) :
    (s.lookupTlb cfg core paddr isWrite thres).2.2 =
      { s with tlb := (s.lookupTlb cfg core paddr isWrite thres).2.2.tlb } := by
  unfold lookupTlb
  dsimp only
  split <;> rfl

end

section Migrates

variable {ref : EntryRef} {s1 : System} (hm : s.migrates cfg core paddr isWrite thres = some (ref, s1))

include hm

theorem migrates_cases :
    cfg.z.isDramAddress paddr = false ∧ s.lookupTlb cfg core paddr isWrite thres = (some ref, .overThres, s1) := by
  unfold migrates at hm
  split at hm
  · cases hm
  · next hnvm =>
    split at hm
    · next hlook =>
      cases hm
      exact ⟨eq_false_iff.mpr hnvm, hlook⟩
    · cases hm

theorem migrates_frame : s1 = { s with tlb := s1.tlb } := by
  have hframe := lookupTlb_frame cfg s core paddr isWrite thres
  rw [(migrates_cases hm).2] at hframe
  exact hframe

theorem filterBasedCachePtr_of_migrates :
    s.filterBasedCachePtr nassert cfg core paddr isWrite thres cycle flush =
      s1.doDramPageFaultPtr nassert cfg core ref flush { lineAddr := paddr, type := .gets, childId := 0, cycle } := by
  obtain ⟨hnvm, hlook⟩ := migrates_cases hm
  rw [filterBasedCachePtr, hnvm, if_neg Bool.false_ne_true, hlook]

theorem filterBasedCachePtr_addr {ptr : Option Nat} {dram : FairAllocator} {addr : Address}
    (halloc : allocatePagePtr nassert cfg s.dram (s.procOf core) = some (ptr, dram))
    (h : s.filterBasedCachePtr nassert cfg core paddr isWrite thres cycle flush = some (addr, s')) :
    addr = (ptr.map cfg.z.blockIdToAddr).getD invalidPageAddr ∧
      ∀ b, ptr = some b → ∃ req evicted req',
        ({ s1 with dram } : System).evictDRAMPage cfg core b ref flush req = some (evicted, req', s') := by
  rw [filterBasedCachePtr_of_migrates hm] at h
  obtain ⟨⟨ptr', dram'⟩, halloc', h⟩ := bind_eq_some_iff.mp h
  rw [migrates_frame hm] at halloc'
  obtain ⟨rfl, rfl⟩ := Prod.mk.inj (mem_unique halloc halloc')
  cases ptr with
  | none =>
    cases h
    exact ⟨rfl, fun b hb => nomatch hb⟩
  | some b =>
    obtain ⟨⟨evicted, req', s2⟩, hevict, h⟩ := bind_eq_some_iff.mp h
    cases h
    refine ⟨rfl, fun c hc => ?_⟩
    cases hc
    exact ⟨_, evicted, req', hevict⟩

end Migrates

section Shared

section

variable (cfg : Config) (s : System)

/-- The inverse table of a process that remapping reaches has the leaf entry of `a` under the key of
`ppn`. -/
def Records (proc : Nat) (ppn a : Address) : Prop :=
  proc < cfg.numProcs ∧ (s.pagingArray proc).Records ppn a
  deriving Decidable

def ppnOf (proc : Nat) (a : Address) : Option Address :=
  (s.translate proc a).map (·.ppn cfg.z)

/-- Where a migration into block `b` leaves a page of the process at work, with shared memory. It
swaps first the block with the frame of the page in it, then the frame of the TLB entry with the
block. The frame is the one the entry has after the shootdown for the page in the block. -/
def ppnAfter (core b : Nat) (ref : EntryRef) (a : Address) : Option Address :=
  let block := s.dram.bufferArray b
  let blockPpn := (Target.block b).ppn cfg.z
  let frame := if block.isOccupied ∧ ref.id.1 < cfg.numCores ∧ (s.entry ref).vPageNo = block.vaddr
    then block.originalAddr else (s.entry ref).pPageNo
  if s.Records cfg (s.procOf core) blockPpn a then some frame
  else if s.Records cfg (s.procOf core) frame a then some blockPpn
  else if block.isOccupied ∧ s.Records cfg (s.procOf core) block.originalAddr a then some blockPpn
  else s.ppnOf cfg (s.procOf core) a

end

section

variable {m : Mmu.MemMap} {dram : FairAllocator} {tg : Target}

theorem framePtr_page {ppn : Address} (h : framePtr cfg.z m dram ppn false = some tg)
    : tg.ppn cfg.z = ppn := by
  obtain ⟨n, hn, rfl⟩ := map_eq_some_iff.mp h
  exact (some_inj.mp (Option.ite_none_right_eq_some.mp hn).2).symm

theorem framePtr_block (hz : cfg.z.Aligned) {b : Nat} (hb : cfg.z.blockIdToAddr b < 2^64)
    (h : framePtr cfg.z m dram ((Target.block b).ppn cfg.z) true = some tg) :
    tg.ppn cfg.z = (Target.block b).ppn cfg.z := by
  obtain ⟨n, hn, rfl⟩ := map_eq_some_iff.mp h
  rw [Target.ppn, hz.dramAddrToBlockId_ppn hb] at hn
  rw [some_inj.mp (Option.ite_none_right_eq_some.mp hn).2]

end

theorem remapAll_ppn {ppn dstPpn : Address} {srcDram dstDram : Bool} {procs : List Nat} {latency : Nat}
    (h : remapAll cfg ppn dstPpn srcDram dstDram procs s = some (s', latency)) (hs : s.Sound cfg) (hnd : procs.Nodup)
    (hsrc : ∀ tg, framePtr cfg.z s.buddy.node.mem s.dram ppn srcDram = some tg → tg.ppn cfg.z = ppn)
    (hdst : ∀ tg, framePtr cfg.z s.buddy.node.mem s.dram dstPpn dstDram = some tg →
      tg.ppn cfg.z = dstPpn) (q : Nat) (a : Address) :
    (∀ n, (s'.pagingArray q).Records n a ↔ (s.pagingArray q).Records n a) ∧
      s'.ppnOf cfg q a = if q ∈ procs ∧ (s.pagingArray q).Records dstPpn a then some ppn
        else if q ∈ procs ∧ (s.pagingArray q).Records ppn a then some dstPpn else s.ppnOf cfg q a := by
  induction procs generalizing s latency with
  | nil =>
    cases h
    simp
  | cons i procs ih =>
    obtain ⟨⟨p', l⟩, hr, h⟩ := bind_eq_some_iff.mp h
    obtain ⟨r', hrest, he⟩ := map_eq_some_iff.mp h
    cases he
    obtain ⟨hi, hnd⟩ := nodup_cons.mp hnd
    obtain ⟨hinv, hmode, hlinked, hrec, htr⟩ := (hs.linked i).remapPageTable (hs.tables i).1 hr
    obtain ⟨hrec', htr'⟩ := ih hrest (hs.setPaging hinv (hmode.trans (hs.tables i).2) hlinked) hnd hsrc hdst
    by_cases hq : q = i
    · subst hq
      have hself : (s.setPaging q p').pagingArray q = p' := update_self ..
      rw [hself] at hrec' htr'
      refine ⟨fun n => (hrec' n).trans (hrec n a), ?_⟩
      rw [htr', if_neg fun hc => hi hc.1, if_neg fun hc => hi hc.1, ppnOf, translate, hself, htr hsrc hdst]
      simp only [mem_cons_self, true_and]
      rfl
    · have hother : (s.setPaging i p').pagingArray q = s.pagingArray q := update_of_ne hq ..
      have hppn : (s.setPaging i p').ppnOf cfg q a = s.ppnOf cfg q a := by rw [ppnOf, translate, hother]; rfl
      rw [hother, hppn] at htr'
      rw [hother] at hrec'
      simpa only [mem_cons, hq, false_or] using And.intro hrec' htr'

section

variable (hshared : cfg.enableSharedMemory = true) (hz : cfg.z.Aligned) (hs : s.Sound cfg) {b : Nat}
  (hb : cfg.z.blockIdToAddr b < 2^64)
include hshared hz hs hb

theorem writeBackMapping_ppn {latency : Nat}
    (h : s.writeBackMapping cfg core b = some (s', latency)) (q : Nat) (a : Address) :
    let block := s.dram.bufferArray b
    (∀ n, s'.Records cfg q n a ↔ s.Records cfg q n a) ∧ s'.ppnOf cfg q a =
      if block.isOccupied ∧ s.Records cfg q block.originalAddr a then some ((Target.block b).ppn cfg.z)
      else if block.isOccupied ∧ s.Records cfg q ((Target.block b).ppn cfg.z) a then some block.originalAddr
      else s.ppnOf cfg q a := by
  unfold writeBackMapping at h
  dsimp only at h ⊢
  split at h
  · next hfree =>
    cases h
    simp [hfree]
  · next hocc =>
    have hspec := remapAll_ppn h hs nodup_range (fun _ => framePtr_block hz hb) (fun _ => framePtr_page) q a
    simp only [mem_range] at hspec
    simp only [hocc, Records, true_and]
    exact ⟨fun n => and_congr_right fun _ => hspec.1 n, hspec.2⟩

theorem evictDRAMPage_ppn {ref : EntryRef} (hlive : (s.tlb ref.id).IsLive ref.index)
    {req req' : MemReq} {evicted : Bool}
    (h : s.evictDRAMPage cfg core b ref flush req = some (evicted, req', s')) (a : Address) :
    s'.ppnOf cfg (s.procOf core) a = s.ppnAfter cfg core b ref a := by
  obtain ⟨hq, -, htrie, hview⟩ := retire_spec hs.tables hs.tlbs b flush req
  obtain ⟨hs1, -⟩ := retire_sound hs b flush req
  have hpaging := retire_pagingArray cfg s b flush req
  obtain ⟨req1, req2, s2, h2, rfl⟩ := evictDRAMPage_cases h
  generalize (s.retire cfg b flush req).1 = s1 at *
  obtain ⟨hused, horig, -⟩ := hq.block b
  have hocc : (s1.dram.bufferArray b).isOccupied = (s.dram.bufferArray b).isOccupied := hused
  have hvpn : (s1.entry ref).vPageNo = (s.entry ref).vPageNo := (htrie ref.id).2 ref.index
  have hframe : (s1.entry ref).pPageNo = if (s.dram.bufferArray b).isOccupied ∧ ref.id.1 < cfg.numCores ∧
      (s.entry ref).vPageNo = (s.dram.bufferArray b).vaddr then (s.dram.bufferArray b).originalAddr
      else (s.entry ref).pPageNo := by
    have hv := view_entry ((htrie ref.id).isLive hlive)
    rw [hvpn, hview, view_entry hlive] at hv
    split at hv
    · next hhit => rw [if_pos hhit, (Prod.mk.inj (some_inj.mp hv)).1]
    · next hmiss => rw [if_neg hmiss, (Prod.mk.inj (some_inj.mp hv)).1]
  obtain ⟨s3, l1, l2, hback, hinst⟩ := evictAndFetch_cases h2
  obtain ⟨hrec3, hppn3⟩ := writeBackMapping_ppn hshared hz hs1 hb hback (s.procOf core) a
  have hs3 := writeBackMapping_sound hback hs1
  rw [installMapping, if_pos hshared] at hinst
  have hset : (s3.setBlock b (fetched (s1.dram.bufferArray b) (s1.entry ref))).Sound cfg :=
    { hs3 with }
  obtain ⟨-, hppn2⟩ := remapAll_ppn hinst hset nodup_range (fun _ => framePtr_page)
    (fun _ => framePtr_block hz hb) (s.procOf core) a
  simp only [mem_range] at hppn2
  have hrec : ∀ n, s1.Records cfg (s.procOf core) n a ↔ s.Records cfg (s.procOf core) n a := by
    simp only [Records, hpaging, implies_true]
  have hppn1 : s1.ppnOf cfg (s.procOf core) a = s.ppnOf cfg (s.procOf core) a := by
    rw [ppnOf, hq.translate, ppnOf]
  simp only [hocc, horig, hrec, hppn1] at hppn3
  refine hppn2.trans ?_
  show (if s3.Records cfg _ _ a then _ else if s3.Records cfg _ _ a then _ else s3.ppnOf cfg _ a) = _
  simp only [hrec3, hrec, hppn3, hframe, ppnAfter]
  split
  · rfl
  · next hblock => simp only [hblock, and_false, if_false]

end

end Shared

theorem evictDRAMPage_installs (hshared : cfg.enableSharedMemory = false) (hs : s.Sound cfg)
    {b : Nat} {ref : EntryRef} {req req' : MemReq} {evicted : Bool}
    (h : s.evictDRAMPage cfg core b ref flush req = some (evicted, req', s')) {a : Address}
    (ha : slotOf a cfg.mode = slotOf ((s.entry ref).vPageNo <<< cfg.z.pageShift) cfg.mode) :
    s'.translate (s.procOf core) a = some (.block b) := by
  obtain ⟨hq, -, htrie, -⟩ := retire_spec hs.tables hs.tlbs b flush req
  obtain ⟨req1, req2, s2, h2, rfl⟩ := evictDRAMPage_cases h
  obtain ⟨s3, l1, l2, hback, hinst⟩ := evictAndFetch_cases h2
  obtain ⟨ht3, -⟩ := writeBackMapping_spec hshared hback hq.tables
  rw [installMapping, hshared] at hinst
  obtain ⟨-, htr, -⟩ := mapPage_spec hinst ht3
  have hvpn : ((s.retire cfg b flush req).1.entry ref).vPageNo = (s.entry ref).vPageNo := (htrie ref.id).2 ref.index
  rw [writeBackMapping_frame hback, hvpn] at htr
  refine (htr (s.procOf core) a).trans (if_pos ⟨?_, ha⟩)
  exact (hq.procOf core).symm

theorem blockIdToAddr_page (hz : cfg.z.Aligned) (b : Nat) :
    (Target.block b).ppn cfg.z <<< cfg.z.pageShift = cfg.z.blockIdToAddr b := by
  obtain ⟨n, hn⟩ := hz.high_dvd
  have haddr : cfg.z.blockIdToAddr b = (n + b) * 2^cfg.z.pageShift := by
    rw [Zinfo.blockIdToAddr, hz.blockShift_eq, hn, shiftLeft_eq, Nat.add_mul, Nat.mul_comm]
  rw [Target.ppn, haddr, shiftRight_eq_div_pow, Nat.mul_div_cancel _ (Nat.two_pow_pos _), shiftLeft_eq]

/-- The address of the block itself is right exactly if the access is to the first byte of the page
and the page table has the page in the block. -/
theorem rightAddress_block_iff (hz : cfg.z.Aligned) {proc b : Nat} {v : Address} :
    RightAddress cfg s proc v paddr (cfg.z.blockIdToAddr b) (some b) ↔ offset cfg paddr = 0 ∧
      s.ppnOf cfg proc (vaddrOf cfg v paddr) = some ((Target.block b).ppn cfg.z) := by
  rw [RightAddress, physAddr, vaddrOf_offset, ppnOf]
  constructor
  · rintro ⟨hbase, hphys⟩
    have hoff : offset cfg paddr = 0 := Nat.add_eq_left.mp hbase.symm
    obtain ⟨tg, htg, he⟩ := map_eq_some_iff.mp hphys
    rw [hoff, Nat.or_zero] at he
    rw [htg, Target.ppn, ← he, Nat.shiftLeft_shiftRight]
    exact ⟨hoff, rfl⟩
  · rintro ⟨hoff, htr⟩
    obtain ⟨tg, htg, hppn⟩ := map_eq_some_iff.mp htr
    rw [htg, map_some, hppn, hoff, Nat.or_zero, blockIdToAddr_page hz]
    exact ⟨rfl, rfl⟩

theorem step_sound {act : Action} (h : s.step cfg act = some s') (hs : s.Sound cfg) : s'.Sound cfg := by
  cases act with
  | access core side req =>
    obtain ⟨-, addr, req', hacc⟩ := step_access h
    exact (tlbAccess_marks hacc hs).2.sound
  | memory core paddr isWrite thres cycle flush =>
    obtain ⟨addr, hfilter⟩ := step_memory h
    exact (filterBasedCache_filled hfilter hs).1
  | setCid core proc =>
    obtain ⟨-, rfl⟩ := step_setCid h
    exact { hs with }
  | contextSwitch core =>
    obtain rfl := step_contextSwitch h
    exact ⟨hs.tables, hs.linked, (contextSwitch_spec hs.tables hs.tlbs core).2.1⟩

/-- In every state a run leads to, the event of an access that migrates its page has the right
address exactly if a block was obtained, the access is to the first byte of the page and, with
shared memory, the inverse table leads the remapping to the entry of the page. -/
theorem redirected_right_iff (c : Setup cfg) {as : List Action} (hr : run (step cfg) c.boot as = some s)
    (hz : cfg.z.Aligned) (hhigh : cfg.z.highAddr < 2^64) (hshift : cfg.z.pageShift = cfg.mode.pageShift)
    {ref : EntryRef} {s1 : System} {ptr : Option Nat} {dram : FairAllocator} {addr : Address}
    (hm : s.migrates cfg core paddr isWrite thres = some (ref, s1))
    (halloc : allocatePagePtr nassert cfg s.dram (s.procOf core) = some (ptr, dram))
    (hroom : ∀ b, ptr = some b → cfg.z.blockIdToAddr b < 2^64)
    (h : s.filterBasedCachePtr nassert cfg core paddr isWrite thres cycle flush = some (addr, s')) :
    RightAddress cfg s' (s.procOf core) (s1.entry ref).vPageNo paddr addr ptr ↔
      ∃ b, ptr = some b ∧ offset cfg paddr = 0 ∧ (cfg.enableSharedMemory = true →
        ({ s1 with dram } : System).ppnAfter cfg core b ref (vaddrOf cfg (s1.entry ref).vPageNo paddr) =
          some ((Target.block b).ppn cfg.z)) := by
  have hs := run_invariant_of_step (step cfg) (fun _ _ _ hs h => step_sound h hs) as c.boot_sound hr
  obtain ⟨hnvm, hlook⟩ := migrates_cases hm
  obtain ⟨rfl, hevict⟩ := filterBasedCachePtr_addr hm halloc h
  cases ptr with
  | none =>
    refine ⟨fun he => ?_, fun ⟨b, hb, _⟩ => nomatch hb⟩
    -- an address below `high_addr` is not the one that stands for none
    have hlt : paddr < cfg.z.highAddr := Nat.lt_of_not_le (of_decide_eq_false hnvm)
    exact absurd he.symm (hlt.trans_le (Nat.le_sub_one_of_lt hhigh)).ne
  | some b =>
    obtain ⟨req, evicted, req', he⟩ := hevict b rfl
    obtain ⟨hsteady, hs1, hfound⟩ := lookupTlb_spec hs.tables hs.tlbs hlook
    have hproc : ({ s1 with dram } : System).procOf core = s.procOf core := by
      rw [hs1]
      rfl
    have hsound : ({ s1 with dram } : System).Sound cfg := by
      refine ⟨hsteady.tables, ?_, hsteady.tlbs⟩
      rw [hs1]
      exact hs.linked
    have hinstalled : s'.ppnOf cfg (s.procOf core) (vaddrOf cfg (s1.entry ref).vPageNo paddr) =
        some ((Target.block b).ppn cfg.z) ↔ (cfg.enableSharedMemory = true →
          ({ s1 with dram } : System).ppnAfter cfg core b ref (vaddrOf cfg (s1.entry ref).vPageNo paddr) =
            some ((Target.block b).ppn cfg.z)) := by
      rw [← hproc]
      cases hshared : cfg.enableSharedMemory with
      | true =>
        rw [evictDRAMPage_ppn hshared hz hsound (hroom b rfl) (hfound ref rfl).live he]
        exact ⟨fun h _ => h, fun h => h rfl⟩
      | false =>
        refine iff_of_true ?_ fun hc => nomatch hc
        rw [ppnOf, evictDRAMPage_installs hshared hsound he, map_some]
        rw [← slotOf_page, ← hshift, vaddrOf_page]
        rfl
    refine (rightAddress_block_iff hz).trans ⟨fun hb => ⟨b, rfl, hb.1, hinstalled.mp hb.2⟩, ?_⟩
    rintro ⟨b', hb, hoff, hright⟩
    cases hb
    exact ⟨hoff, hinstalled.mpr hright⟩

section Sample

def readFive : Option System := run (step soloConfig) soloSetup.boot [load 0 5]

/-- A hot access to the first byte of frame 0 goes to the first byte of DRAM block 0. -/
theorem redirected_right_iff_first_byte : ∃ s ref s1 dram s', readFive = some s ∧
    s.migrates soloConfig 0 0 false 1 = some (ref, s1) ∧
    allocatePagePtr false soloConfig s.dram (s.procOf 0) = some (some 0, dram) ∧
    s.filterBasedCachePtr false soloConfig 0 0 false 1 0 ⟨0, 0, 0⟩ = some (2^40, s') ∧
    RightAddress soloConfig s' (s.procOf 0) (s1.entry ref).vPageNo 0 (2^40) (some 0) := by
  have hrun : ∃ s, readFive = some s ∧ (s.migrates soloConfig 0 0 false 1).isSome ∧
      (allocatePagePtr false soloConfig s.dram (s.procOf 0)).map (·.1) = some (some 0) ∧
      (s.filterBasedCachePtr false soloConfig 0 0 false 1 0 ⟨0, 0, 0⟩).map (·.1) = some (2^40) := by
    decide
  obtain ⟨s, hs, hm, halloc, h⟩ := hrun
  obtain ⟨⟨ref, s1⟩, hm⟩ := isSome_iff_exists.mp hm
  obtain ⟨⟨_, dram⟩, halloc, rfl⟩ := map_eq_some_iff.mp halloc
  obtain ⟨⟨_, s'⟩, h, rfl⟩ := map_eq_some_iff.mp h
  have hz : soloConfig.z.Aligned := ⟨rfl, by decide⟩
  have hroom : ∀ b, some 0 = some b → soloConfig.z.blockIdToAddr b < 2^64 := by
    rintro b ⟨⟩
    decide
  have hright := (redirected_right_iff soloSetup hs hz (by decide) rfl hm halloc hroom h).mpr
    ⟨0, rfl, rfl, fun hc => nomatch hc⟩
  exact ⟨s, ref, s1, dram, s', hs, hm, halloc, h, hright⟩

/-- A hot access to byte 16 of the frame goes to the first byte of the block, while its virtual
address is now translated to byte 16. In a release build without DRAM the event of a hot access gets
the address `2^64 - 1`. -/
theorem redirected_without_offset : ∃ s, readFive = some s ∧
    (∃ r, s.filterBasedCache soloConfig 0 16 false 1 0 ⟨0, 0, 0⟩ = some r ∧ r.1 = 2^40 ∧
      r.2.physAddr soloConfig 0 ((5 <<< 12) + 16) = some (2^40 + 16)) ∧
    (({ s with dram := .new soloConfig.z 1 0 } : System).filterBasedCachePtr true
      soloConfig 0 16 false 1 0 ⟨0, 0, 0⟩).map (·.1) = some (2^64 - 1) := by
  decide

end Sample

end Shma.Walker.System
