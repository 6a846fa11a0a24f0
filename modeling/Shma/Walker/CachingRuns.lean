import Shma.Walker.Placement

/-!
# Runs of the caching protocol

Any interleaving of translations, memory accesses and process switches on any cores,
without shared memory. `do_page_fault` and `do_dram_page_fault` are reached from
these.
-/
namespace Shma.Walker

open PageTable Tlb Lib.Run
open Option (bind_map)

variable {cfg : Config} {n total : Nat}

/-- No other page of the process that was faulted in uses the leaf of the address. -/
def Log.OwnLeaf (cfg : Config) (l : Log) (core : Nat) (addr : Address) : Prop :=
  ∀ w, (l.home (l.sys.procOf core) w).isSome → leafOf cfg w = slotOf addr cfg.mode → w = addr >>> cfg.z.pageShift

/-- What a step asks of the state before it. A translation needs a free frame to be left
and a leaf that no other page of the process uses. A memory access needs every TLB entry
of its core for its physical page, unless marked as a DRAM page, to be that of a page of
the process at work that is on this frame, and every DRAM block the allocator may hand out
to be free or to hold a page of that process. -/
def Log.Allowed (cfg : Config) (l : Log) : Action → Prop
  | .access core _ req => l.sys.buddy.HasFree ∧ l.OwnLeaf cfg core req.lineAddr
  | .memory core paddr _ _ _ _ =>
    (∀ ref : EntryRef, ref.id.1 = core →
      (l.sys.tlb ref.id).ordinaryTlb.tlbTriePa (paddr >>> cfg.z.pageShift) = some ref.index →
      (l.sys.entry ref).inDram = false →
      l.home (l.sys.procOf core) (l.sys.entry ref).vPageNo = some (paddr >>> cfg.z.pageShift) ∧
      l.sys.pageAt cfg (l.sys.procOf core) (l.sys.entry ref).vPageNo = some (.page (paddr >>> cfg.z.pageShift))) ∧
    ∀ b, l.sys.dram.Candidate b → (l.sys.dram.bufferArray b).isOccupied →
      l.sys.pageAt cfg (l.sys.procOf core) (l.sys.dram.bufferArray b).vaddr = some (.block b)
  | .setCid _ _ | .contextSwitch _ => True

section Steps

variable {l l' : Log}

theorem System.faultFrame_tlb (s : System) (tlb : TlbId → HotMonitorTlb) (core : Nat) (req : MemReq) :
    System.faultFrame cfg { s with tlb } core req = s.faultFrame cfg core req := by
  show (Option.map _ _).bind _ = (Option.map _ _).bind _
  rw [bind_map, bind_map]
  rfl

variable {core : Nat} {req : MemReq}

theorem System.faultFrame_eq {s s1 s2 : System} {w : Walk} {f : Address}
    (hpag : s.pagingAccess cfg (s.procOf core) req = some (w, s1)) (hsig : w.addr = pageFaultSig)
    (hf : System.Faulted cfg s1 core w.req.lineAddr f s2) : s.faultFrame cfg core req = some f := by
  rw [System.faultFrame, hpag, bind_some, if_pos hsig, hf.buddy]
  rfl

theorem System.faultFrame_eq_none {s : System} (ht : s.TablesOk cfg) {tg : Target}
    (htr : s.translate (s.procOf core) req.lineAddr = some tg) (hsig : tg.ppn cfg.z ≠ pageFaultSig) :
    s.faultFrame cfg core req = none := by
  unfold System.faultFrame
  cases hpag : s.pagingAccess cfg (s.procOf core) req with
  | none => rfl
  | some r =>
    obtain ⟨w, s1⟩ := r
    obtain ⟨_, _, _, haddr⟩ := System.pagingAccess_spec ht hpag
    rw [htr] at haddr
    rw [bind_some, if_neg fun h => hsig (haddr.symm.trans h)]

/-- The three ways a translation can go. -/
inductive AccessStep (cfg : Config) (core : Nat) (side : Side) (addr : Address) (l l' : Log) : Prop
  | hit (steady : System.Steady cfg l.sys l'.sys) (home : l'.home = l.home)
  | walk (tg : Target) (mapped : l.sys.translate (l.sys.procOf core) addr = some tg)
      (quiet : System.Quiet cfg l.sys l'.sys)
      (inserted : System.Inserted cfg l.sys (core, side) (addr >>> cfg.z.pageShift) (tg.ppn cfg.z) l'.sys)
      (home : l'.home = l.home)
  | fault (f : Address) (s1 s2 : System) (unmapped : l.sys.translate (l.sys.procOf core) addr = none)
      (steady : System.Steady cfg l.sys s1) (faulted : System.Faulted cfg s1 core addr f s2)
      (quiet : System.Quiet cfg s2 l'.sys)
      (inserted : System.Inserted cfg s2 (core, side) (addr >>> cfg.z.pageShift) f l'.sys)
      (home : l'.home = recordHome l.home (l.sys.procOf core) (addr >>> cfg.z.pageShift) f)

theorem Placed.access (h : Placed cfg n total l) (hlay : cfg.Layout n total)
    (hshared : cfg.enableSharedMemory = false) {side : Side}
    (hfree : l.sys.buddy.HasFree) (hstep : l.step cfg (.access core side req) = some l') :
    AccessStep cfg core side req.lineAddr l l' := by
  obtain ⟨s', hs', rfl⟩ := map_eq_some_iff.mp hstep
  obtain ⟨_, addr, req', hacc⟩ := System.step_access hs'
  rcases System.tlbAccess_cases h.tables h.tlbs hacc with
    ⟨hview, hst⟩ | ⟨hview, s1, s2, ppn, walked, hst, hs1, hwalk, hins⟩
  · refine .hit hst (if_neg fun hnone => ?_)
    rw [hnone] at hview
    cases hview
  have hframe : s1.faultFrame cfg core req = l.sys.faultFrame cfg core req := by
    rw [hs1]
    exact System.faultFrame_tlb l.sys s1.tlb core req
  have hproc : s1.procOf core = l.sys.procOf core := hst.procOf core
  have hpl1 : Placed cfg n total ⟨s1, l.home⟩ := h.quiet hst.toQuiet hst.tlbs
  rcases System.walkerAccess_cases hst.tables hwalk with ⟨hq, htlb, tg, htr, rfl⟩ | ⟨w, s3, req2, hpag, hsig, hfault⟩
  · have hw2 : s2.TlbsOk := fun id => by rw [htlb]; exact hst.tlbs id
    obtain ⟨hq', hi⟩ := hins hq.tables hw2
    refine .walk tg ?_ (hst.toQuiet.trans (hq.trans hq')) (hi.of_view fun id v => ?_) ?_
    · rw [← hst.translate, ← hproc]; exact htr
    · rw [htlb]; exact hst.view id v
    · show (if _ then _ else _) = _
      rw [if_pos hview, ← hframe, System.faultFrame_eq_none hst.tables htr (hpl1.ppn_ne_sig hlay htr)]
  · obtain ⟨hq, htlb, hline, haddr⟩ := System.pagingAccess_spec hst.tables hpag
    have hst3 : System.Steady cfg l.sys s3 := by
      refine ⟨hst.toQuiet.trans hq, fun id => ?_, fun id v => ?_⟩
      · rw [htlb]; exact hst.tlbs id
      · rw [htlb]; exact hst.view id v
    have hnone : s1.translate (s1.procOf core) req.lineAddr = none := by
      cases htr : s1.translate (s1.procOf core) req.lineAddr with
      | none => rfl
      | some tg =>
        rw [htr] at haddr
        exact absurd (haddr.symm.trans hsig) (hpl1.ppn_ne_sig hlay htr)
    rcases System.doPageFault_cases hshared hq.tables hfault with ⟨buddy, hb, _, _⟩ | hnew
    · -- the allocator has a frame left
      obtain ⟨frames, hsup, _⟩ := h.supply
      have hn : n < 2^64 := by have hlt := hlay.frames_lt; omega
      rcases (hst3.supplies hsup).allocate hn with ⟨hempty, _⟩ | ⟨_, _, b', hb', _⟩
      · exact absurd ((hst3.hasFree hn hsup).mpr hfree) hempty
      · cases hb.symm.trans hb'
    · obtain ⟨hq', hi⟩ := hins hnew.tables (hnew.tlbs hst3.tlbs).1
      have hf := System.faultFrame_eq hpag hsig hnew
      rw [hline] at hnew
      refine .fault ppn s3 s2 ?_ hst3 hnew hq' hi ?_
      · rw [← hst.translate, ← hproc]; exact hnone
      · show (if _ then _ else _) = _
        rw [if_pos hview, ← hframe, hf]

/-- What a memory access can do: nothing, or migrate a page of the process at work. -/
inductive MemoryStep (cfg : Config) (total core : Nat) (l l' : Log) : Prop
  | stay (steady : System.Steady cfg l.sys l'.sys) (home : l'.home = l.home)
  | migrate (b : Nat) (v f : Address) (s1 : System) (steady : System.Steady cfg l.sys s1) (bound : b < total)
      (faulted_in : l.home (s1.procOf core) v = some f)
      (on_frame : s1.pageAt cfg (s1.procOf core) v = some (.page f))
      (own : (s1.dram.bufferArray b).used = true →
        s1.pageAt cfg (s1.procOf core) (s1.dram.bufferArray b).vaddr = some (.block b))
      (migrated : System.Migrated cfg s1 core b v f l'.sys) (tlbs : l'.sys.TlbsOk)
      (view : ∀ id w, (l'.sys.tlb id).view w =
        if id.1 < cfg.numCores ∧ w = v then ((s1.tlb id).view w).map fun _ => ((Target.block b).ppn cfg.z, true)
        else if (s1.dram.bufferArray b).used = true ∧ id.1 < cfg.numCores ∧ w = (s1.dram.bufferArray b).vaddr then
          ((s1.tlb id).view w).map fun _ => ((s1.dram.bufferArray b).originalAddr, false)
        else (s1.tlb id).view w)
      (home : l'.home = l.home)

theorem Placed.memory (h : Placed cfg n total l) (hshared : cfg.enableSharedMemory = false)
    {paddr : Address} {isWrite : Bool} {thres cycle : Nat} {flush : Flush}
    (hok : l.Allowed cfg (.memory core paddr isWrite thres cycle flush))
    (hstep : l.step cfg (.memory core paddr isWrite thres cycle flush) = some l') :
    MemoryStep cfg total core l l' := by
  obtain ⟨s', hs', rfl⟩ := map_eq_some_iff.mp hstep
  obtain ⟨addr, hfilter⟩ := System.step_memory hs'
  rcases System.filterBasedCache_cases h.tables h.tlbs hfilter with
    hst | ⟨s1, ref, b, dram, req, evicted, req', _, hst, hs1, hfound, halloc, hevict⟩
  · exact .stay hst rfl
  obtain ⟨tlb, rfl⟩ : ∃ tlb, s1 = { l.sys with tlb } := ⟨s1.tlb, hs1⟩
  obtain ⟨hcand, hbuf, hholds⟩ := System.allocatePage_spec halloc
  have hst2 : System.Steady cfg l.sys { l.sys with tlb, dram } := by
    refine ⟨⟨h.tables, fun _ _ => rfl, ⟨rfl, rfl, fun c => ?_⟩, rfl, hholds, rfl⟩, hst.tlbs, hst.view⟩
    simp [System.frames, hbuf]
  obtain ⟨hhome, hpage⟩ := hok.1 ref hfound.core_eq hfound.index (hfound.overThres rfl)
  have hown : (dram.bufferArray b).used = true →
      l.sys.pageAt cfg (l.sys.procOf core) (dram.bufferArray b).vaddr = some (.block b) := by
    rw [hbuf]
    exact hok.2 b hcand
  rw [← hfound.vpn, ← hfound.ppn] at hhome hpage
  -- a page on a frame is not the one in the block
  have hne : (dram.bufferArray b).isOccupied →
      (System.entry { l.sys with tlb } ref).vPageNo ≠ (dram.bufferArray b).vaddr := by
    intro hocc heq
    have hboth := hown hocc
    rw [← heq, hpage] at hboth
    cases hboth
  have hmig := System.evictDRAMPage_migrated hshared hst2.tables hst2.tlbs hfound.live hne hevict
  obtain ⟨htlbs, hview⟩ := System.evictDRAMPage_tlb hst2.tables hst2.tlbs hevict
  exact .migrate b _ _ { l.sys with tlb, dram } hst2 (h.pools b hcand.holds) hhome hpage hown hmig htlbs hview rfl

variable {a : Action}

theorem Placed.step (h : Placed cfg n total l) (hlay : cfg.Layout n total)
    (hshared : cfg.enableSharedMemory = false) (hok : l.Allowed cfg a)
    (hstep : l.step cfg a = some l') : Placed cfg n total l' := by
  cases a with
  | access core side req =>
    cases h.access hlay hshared hok.1 hstep with
    | hit steady home =>
      have hpl := h.quiet steady.toQuiet steady.tlbs
      rw [← home] at hpl
      exact hpl
    | walk tg _ quiet inserted home =>
      have hpl := h.quiet quiet inserted.tlbs
      rw [← home] at hpl
      exact hpl
    | fault f s1 s2 unmapped steady faulted quiet inserted home =>
      have hpl1 := h.quiet steady.toQuiet steady.tlbs
      have hproc : s1.procOf core = l.sys.procOf core := steady.procOf core
      have hpl2 := hpl1.fault faulted hlay (by rw [hproc, steady.translate]; exact unmapped)
        (by rw [hproc]; exact fun w hw => hok.2 w hw)
      have hpl := hpl2.quiet quiet inserted.tlbs
      rw [hproc, ← home] at hpl
      exact hpl
  | memory core paddr isWrite thres cycle flush =>
    cases h.memory hshared hok hstep with
    | stay steady home =>
      have hpl := h.quiet steady.toQuiet steady.tlbs
      rw [← home] at hpl
      exact hpl
    | migrate b v f s1 steady bound faulted_in on_frame own migrated tlbs view home =>
      have hpl1 := h.quiet steady.toQuiet steady.tlbs
      have hpl := hpl1.migrate migrated faulted_in own tlbs bound on_frame
      rw [← home] at hpl
      exact hpl
  | setCid core proc =>
    obtain ⟨s', hs', rfl⟩ := map_eq_some_iff.mp hstep
    obtain ⟨_, rfl⟩ := System.step_setCid hs'
    exact { h with }
  | contextSwitch core =>
    obtain ⟨s', hs', rfl⟩ := map_eq_some_iff.mp hstep
    obtain rfl := System.step_contextSwitch hs'
    obtain ⟨hq, htlbs, -⟩ := System.contextSwitch_spec h.tables h.tlbs core
    exact h.quiet hq htlbs

/-- A step changes translations of the process at work only, and a page leaves its block
only for the frame allocated for it. -/
structure Log.Confined (cfg : Config) (a : Action) (l l' : Log) : Prop where
  others : ∀ q, q ≠ l.sys.procOf a.core → ∀ addr, l'.sys.translate q addr = l.sys.translate q addr
  leave : ∀ p v f b, l.home p v = some f → l.sys.pageAt cfg p v = some (.block b) →
    l'.sys.pageAt cfg p v = some (.block b) ∨ l'.sys.pageAt cfg p v = some (.page f)

theorem Log.Confined.of_translate (h : ∀ q addr, l'.sys.translate q addr = l.sys.translate q addr) :
    Log.Confined cfg a l l' :=
  ⟨fun q _ addr => h q addr, fun p _ _ _ _ hb => .inl ((h p _).trans hb)⟩

theorem Placed.confined (h : Placed cfg n total l) (hlay : cfg.Layout n total)
    (hshared : cfg.enableSharedMemory = false) (hok : l.Allowed cfg a)
    (hstep : l.step cfg a = some l') : Log.Confined cfg a l l' := by
  cases a with
  | access core side req =>
    cases h.access hlay hshared hok.1 hstep with
    | hit steady home => exact .of_translate steady.translate
    | walk tg _ quiet inserted home => exact .of_translate quiet.translate
    | fault f s1 s2 unmapped steady faulted quiet inserted home =>
      have htr : ∀ q addr, l'.sys.translate q addr =
          if q = l.sys.procOf core ∧ slotOf addr cfg.mode = slotOf req.lineAddr cfg.mode then some (.page f)
          else l.sys.translate q addr := by
        intro q addr
        rw [quiet.translate, faulted.translate, steady.translate, steady.procOf]
      refine ⟨fun q hq addr => (htr q addr).trans (if_neg fun hc => hq hc.1), fun p v g b hg hb => ?_⟩
      refine .inl ((htr p _).trans ((if_neg ?_).trans hb))
      rintro ⟨rfl, hslot⟩
      cases (h.tables.translate_congr hslot).symm.trans hb |>.symm.trans unmapped
  | memory core paddr isWrite thres cycle flush =>
    cases h.memory hshared hok hstep with
    | stay steady home => exact .of_translate steady.translate
    | migrate b v f s1 steady bound faulted_in on_frame own migrated tlbs view home =>
      have hpl1 : Placed cfg n total ⟨s1, l.home⟩ := h.quiet steady.toQuiet steady.tlbs
      have hproc : s1.procOf core = l.sys.procOf core := steady.procOf core
      refine ⟨fun q hq addr => ?_, fun p w g c hg hc => ?_⟩
      · have hq : q ≠ s1.procOf core := by rw [hproc]; exact hq
        rw [migrated.translate, if_neg fun hc => hq hc.1, if_neg fun hc => hq hc.2.1, steady.translate]
      · have hc : s1.pageAt cfg p w = some (.block c) := (steady.translate p _).trans hc
        obtain ⟨_, horig, _⟩ := hpl1.of_block hg hc
        rcases hpl1.migrate_cases migrated faulted_in own (by rw [hg]; rfl) with
          ⟨rfl, rfl, _⟩ | ⟨hused, rfl, rfl, hat⟩ | ⟨hat, _⟩
        · cases on_frame.symm.trans hc
        · cases (own hused).symm.trans hc
          rw [horig] at hat
          exact .inr hat
        · exact .inl (hat.trans hc)
  | setCid core proc =>
    obtain ⟨s', hs', rfl⟩ := map_eq_some_iff.mp hstep
    obtain ⟨_, rfl⟩ := System.step_setCid hs'
    exact .of_translate fun _ _ => rfl
  | contextSwitch core =>
    obtain ⟨s', hs', rfl⟩ := map_eq_some_iff.mp hstep
    obtain rfl := System.step_contextSwitch hs'
    exact .of_translate fun _ _ => rfl

end Steps

section Runs

def Setup.log (c : Setup cfg) : Log := ⟨c.boot, fun _ _ => none⟩

theorem Setup.placed (c : Setup cfg) (hhigh : c.NoHighMem) :
    Placed cfg (c.normalEnd - c.normalEnd % 2) (c.bufferSize >>> cfg.z.pageShift) c.log where
  tables := c.boot_tablesOk
  tlbs := c.boot_tlbsOk
  supply := ⟨[], c.boot_supplies hhigh, fun _ _ _ h => by cases h⟩
  inj _ _ _ _ _ h := by cases h
  leaf _ _ _ h := by cases h
  place _ _ _ h := by cases h
  only p a tg h := by cases (c.boot_translate p a).symm.trans h
  cached b h := by cases h
  blocks p a b h := by cases (c.boot_translate p a).symm.trans h
  pools _ h := FairAllocator.holds_new h

theorem Setup.run_placed (c : Setup cfg) (hhigh : c.NoHighMem)
    (hlay : cfg.Layout c.normalEnd (c.bufferSize >>> cfg.z.pageShift))
    (hshared : cfg.enableSharedMemory = false) {as : List Action} {t : Log}
    (hok : AllSteps (Log.step cfg) (Log.Allowed cfg) c.log as) (hr : run (Log.step cfg) c.log as = some t) :
    Placed cfg (c.normalEnd - c.normalEnd % 2) (c.bufferSize >>> cfg.z.pageShift) t :=
  run_invariant (Log.step cfg)
    (fun _ _ _ hpl hok hstep => hpl.step (hlay.mono (Nat.sub_le _ _)) hshared hok hstep) as (c.placed hhigh) hok hr

/-- Along every run of allowed steps, every page faulted in is on its frame or in a block
that names frame and page, no two pages share a place, and the next allowed step moves
pages of its own process only, out of a block only to their frame. -/
theorem caching_run_consistent (c : Setup cfg) (hhigh : c.NoHighMem)
    (hlay : cfg.Layout c.normalEnd (c.bufferSize >>> cfg.z.pageShift))
    (hshared : cfg.enableSharedMemory = false) {as : List Action} {t : Log}
    (hok : AllSteps (Log.step cfg) (Log.Allowed cfg) c.log as) (hr : run (Log.step cfg) c.log as = some t) :
    t.Consistent cfg ∧
      ∀ a t', t.Allowed cfg a → t.step cfg a = some t' → t'.Consistent cfg ∧ Log.Confined cfg a t t' := by
  have hpl := c.run_placed hhigh hlay hshared hok hr
  have hlay' := hlay.mono (Nat.sub_le _ (c.normalEnd % 2))
  refine ⟨hpl.consistent, fun a t' hok hstep => ?_⟩
  exact ⟨(hpl.step hlay' hshared hok hstep).consistent, hpl.confined hlay' hshared hok hstep⟩

end Runs

section Sample

/-- Two processes on two cores, with pages of 2 MB, four frames and two DRAM blocks. -/
def middleConfig : Config := sampleConfig .longModeMiddle 2 2

def middleSetup : Setup middleConfig := sampleSetup _ 4 (2 <<< 21) isSome_normalOnly_four (by decide) (by decide)

def touch (core : Nat) (vpn : Address) : Action := .access core .data ⟨vpn <<< 21, .gets, 0, 0⟩

def heat (core : Nat) (ppn : Address) : Action := .memory core (ppn <<< 21) false 1 0 ⟨0, 0, 0⟩

theorem middle_layout : middleConfig.Layout middleSetup.normalEnd
    (middleSetup.bufferSize >>> middleConfig.z.pageShift) :=
  ⟨by decide, ⟨by decide, by decide⟩, by decide, by decide⟩

/-- Process 0 reads its page 5 and has it cached. -/
theorem caching_run_consistent_heat : ∃ t, run (Log.step middleConfig) middleSetup.log [touch 0 5, heat 0 0] = some t ∧
    t.sys.pageAt middleConfig 0 5 = some (.block 0) ∧ t.Consistent middleConfig := by
  have hfree : (middleSetup.log.sys.buddy.allocatePages 0 0).map Prod.fst = some (some 0) := by decide
  have hread : ∃ l, middleSetup.log.step middleConfig (touch 0 5) = some l ∧ l.sys.procOf 0 = 0 ∧
      (l.sys.tlb (0, .ins)).ordinaryTlb.tlbTriePa 0 = none ∧
      (l.sys.tlb (0, .data)).ordinaryTlb.tlbTriePa 0 = some 0 ∧
      (l.sys.entry ⟨(0, .data), 0⟩).vPageNo = 5 ∧ l.home 0 5 = some 0 ∧
      l.sys.pageAt middleConfig 0 5 = some (.page 0) ∧
      l.sys.dram.globalCleanPool = [0, 1] ∧ (l.sys.dram.bufferArray 0).isOccupied = false := by decide
  have hrun : ∃ t, run (Log.step middleConfig) middleSetup.log [touch 0 5, heat 0 0] = some t ∧
    t.sys.pageAt middleConfig 0 5 = some (.block 0) := by decide +kernel
  obtain ⟨⟨_, b⟩, hb, rfl⟩ := map_eq_some_iff.mp hfree
  obtain ⟨l, hl, hproc, hins, hdata, hvpn, hhome, hat, hpool, hocc⟩ := hread
  obtain ⟨t, ht, hblock⟩ := hrun
  have hok : AllSteps (Log.step middleConfig) (Log.Allowed middleConfig) middleSetup.log [touch 0 5, heat 0 0] := by
    refine ⟨⟨⟨0, b, hb⟩, fun w hw => by cases hw⟩, fun l' hl' => ?_⟩
    cases hl.symm.trans hl'
    refine ⟨⟨?_, ?_⟩, fun _ _ => trivial⟩
    · rintro ⟨⟨core, side⟩, i⟩ rfl hi _
      cases side with
      | ins => cases hins.symm.trans hi
      | data =>
        cases hdata.symm.trans hi
        rw [hproc, hvpn]
        exact ⟨hhome, hat⟩
    · intro b hcand hb
      rcases hcand with hhead | ⟨hnil, _⟩
      · rw [hpool] at hhead
        cases hhead
        cases hb.symm.trans hocc
      · cases hpool.symm.trans hnil
  exact ⟨t, ht, hblock, (caching_run_consistent middleSetup sampleSetup_soleNormal.noHighMem middle_layout rfl hok ht).1⟩

/-- Page 0 of process 0 is cached in block 0 when process 1 gets that block for its page 2.
The entry of page 0 is put back into the table of process 1, so that process 0 still has
its page in block 0, which now names page 2 of process 1. -/
theorem evicted_page_of_other_process_stays :
    ∃ t, run (Log.step middleConfig) middleSetup.log
      [touch 0 0, touch 1 1, touch 1 2, heat 0 0, heat 1 1, heat 1 2] = some t ∧
      t.home 0 0 = some 0 ∧ t.home 1 2 = some 2 ∧ t.sys.pageAt middleConfig 0 0 = some (.block 0) ∧
      t.sys.pageAt middleConfig 1 2 = some (.block 0) ∧ (t.sys.dram.bufferArray 0).vaddr = 2 ∧
      t.sys.pageAt middleConfig 1 0 = some (.page 0) ∧
      ¬ t.Consistent middleConfig := by
  have hrun : ∃ t, run (Log.step middleConfig) middleSetup.log
      [touch 0 0, touch 1 1, touch 1 2, heat 0 0, heat 1 1, heat 1 2] = some t ∧
      t.home 0 0 = some 0 ∧ t.home 1 2 = some 2 ∧ t.sys.pageAt middleConfig 0 0 = some (.block 0) ∧
      t.sys.pageAt middleConfig 1 2 = some (.block 0) ∧ (t.sys.dram.bufferArray 0).vaddr = 2 ∧
      t.sys.pageAt middleConfig 1 0 = some (.page 0) := by decide +kernel
  obtain ⟨t, ht, hhome, hhome', hat, hat', hvaddr, hmoved⟩ := hrun
  refine ⟨t, ht, hhome, hhome', hat, hat', hvaddr, hmoved, fun hc => ?_⟩
  cases (hc.apart 0 0 1 2 (.block 0) (by rw [hhome]; rfl) (by rw [hhome']; rfl) hat hat').1

end Sample

end Shma.Walker
