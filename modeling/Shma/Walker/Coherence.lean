import Shma.Walker.CachingRuns
import Shma.Walker.Isolation

/-!
# TLBs and the page table of a single process

With one process and no shared memory, every translation held by a TLB is the one a
walk of the page table finds, through misses, replacements in the TLBs and migrations
on any core, as long as every page has a leaf of its own.
-/
namespace Shma.Walker

open PageTable Tlb Lib.Run

variable {cfg : Config} {n total : Nat}

/-- The translation of page `v` to physical page `ppn`, in DRAM or not, is the one of the
page table of process 0. -/
def System.Reflects (cfg : Config) (s : System) (v ppn : Address) (inDram : Bool) : Prop :=
  ∃ tg, s.pageAt cfg 0 v = some tg ∧ tg.ppn cfg.z = ppn ∧ tg.isBlock = inDram

def System.Coherent (cfg : Config) (s : System) : Prop :=
  ∀ id, id.1 < cfg.numCores → ∀ v ppn inDram, (s.tlb id).view v = some (ppn, inDram) → s.Reflects cfg v ppn inDram

def Log.Separate (cfg : Config) (l : Log) : Action → Prop
  | .access core _ req => l.sys.buddy.HasFree ∧ l.OwnLeaf cfg core req.lineAddr
  | _ => True

section Hits

variable {s s' : System}

theorem System.tlbAccess_hit (hw : s.TlbsOk) {id : TlbId} {req req' : MemReq} {addr ppn : Address} {inDram : Bool}
    (hview : (s.tlb id).view (req.lineAddr >>> cfg.z.pageShift) = some (ppn, inDram))
    (h : s.tlbAccess cfg id req = some (addr, req', s')) :
    addr = (ppn <<< cfg.z.pageShift) ||| (req.lineAddr &&& (2^cfg.z.pageShift - 1)) := by
  obtain ⟨_, htrie, hsame⟩ := HotMonitorTlb.lookUp_spec (hw id) (req.lineAddr >>> cfg.z.pageShift) true
  have hfst := (s.tlb id).lookUp_fst (req.lineAddr >>> cfg.z.pageShift) true
  rw [← hsame] at hview
  unfold tlbAccess at h
  generalize (s.tlb id).lookUp (req.lineAddr >>> cfg.z.pageShift) true = r at *
  obtain ⟨found, t⟩ := r
  obtain ⟨i, hi, hppn, _⟩ := CommonTlb.view_eq_some hview
  obtain ⟨⟨ppn', cycle, s1⟩, htr, he⟩ := map_eq_some_iff.mp h
  cases he
  obtain rfl : found = some i := hfst.trans ((congrFun htrie.1 _).symm.trans hi)
  obtain ⟨s2, _, he⟩ := map_eq_some_iff.mp htr
  cases he
  have hentry : ((s.setTlb id t).entry ⟨id, i⟩).pPageNo = ppn := by
    show ((update s.tlb id t id).ordinaryTlb.tlb i).pPageNo = ppn
    rw [update_self]
    exact hppn
  rw [hentry]

theorem System.walkerAccess_eq_some (ht : s.TablesOk cfg) {core : Nat} {req : MemReq} (hreq : req.type ≠ .setdirty)
    {tg : Target} (htr : s.translate (s.procOf core) req.lineAddr = some tg) (hsig : tg.ppn cfg.z ≠ pageFaultSig) :
    ∃ req' s', s.walkerAccess cfg core req = some (tg.ppn cfg.z, req', s') := by
  have hsome := Paging.access_isSome cfg.z (ht (s.procOf core)).1 s.frames hreq
  obtain ⟨⟨w, p⟩, hw⟩ := isSome_iff_exists.mp hsome
  have hpag : s.pagingAccess cfg (s.procOf core) req =
      some (w, (s.setPaging (s.procOf core) p).setFrames w.frames) := by
    rw [System.pagingAccess, hw]
    rfl
  obtain ⟨_, _, _, haddr⟩ := System.pagingAccess_spec ht hpag
  rw [htr] at haddr
  have haddr : w.addr = tg.ppn cfg.z := haddr
  refine ⟨w.req, (s.setPaging (s.procOf core) p).setFrames w.frames, ?_⟩
  rw [System.walkerAccess, hpag, ← haddr]
  exact if_neg (by rw [haddr]; exact hsig)

end Hits

/-- The invariant: pages are where they should be, all of process 0, and the TLBs know. -/
structure Cohered (cfg : Config) (n total : Nat) (l : Log) : Prop extends Placed cfg n total l where
  proc : ∀ core, l.sys.procOf core = 0
  sole : ∀ p v, (l.home p v).isSome → p = 0
  known : ∀ id, id.1 < cfg.numCores → ∀ v ppn inDram, (l.sys.tlb id).view v = some (ppn, inDram) →
    (l.home 0 v).isSome ∧ l.sys.Reflects cfg v ppn inDram

namespace Cohered

variable {l l' : Log}

variable (h : Cohered cfg n total l)
include h

/-- Where the pages are all of process 0, a migration always has a page of the process at
work before it, and a block free or with such a page. -/
theorem allowed {a : Action} (hcore : a.core < cfg.numCores) (hok : l.Separate cfg a) : l.Allowed cfg a := by
  cases a with
  | access core side req => exact hok
  | setCid core proc | contextSwitch core => exact trivial
  | memory core paddr isWrite thres cycle flush =>
    refine ⟨fun ref href hidx hdram => ?_, fun b _ hocc => ?_⟩
    · obtain ⟨hlive, hppn⟩ := (h.tlbs ref.id).pa _ _ hidx
      have hview := @System.view_entry l.sys ref hlive
      have hppn : (l.sys.entry ref).pPageNo = paddr >>> cfg.z.pageShift := hppn
      rw [hdram, hppn] at hview
      obtain ⟨hsome, tg, hat, htg, hblock⟩ := h.known ref.id (by rw [href]; exact hcore) _ _ _ hview
      obtain ⟨f, hf⟩ := isSome_iff_exists.mp hsome
      rw [h.proc core]
      cases tg with
      | block b => cases hblock
      | page k =>
        obtain rfl : k = paddr >>> cfg.z.pageShift := htg
        exact ⟨by rw [hf, h.of_page hf hat], hat⟩
    · obtain ⟨p, hp, hat⟩ := h.cached b hocc
      rw [h.proc core, ← h.sole p _ hp]
      exact hat

theorem steady (hs : System.Steady cfg l.sys l'.sys) (hhome : l'.home = l.home) : Cohered cfg n total l' := by
  have hpl := h.quiet hs.toQuiet hs.tlbs
  rw [← hhome] at hpl
  refine ⟨hpl, fun core => (hs.procOf core).trans (h.proc core), by rw [hhome]; exact h.sole, ?_⟩
  intro id hid v ppn d hview
  obtain ⟨hsome, tg, hat, htg⟩ := h.known id hid v ppn d ((hs.view id v).symm.trans hview)
  exact ⟨by rw [hhome]; exact hsome, tg, (hs.translate 0 _).trans hat, htg⟩

theorem inserted (hlay : cfg.Layout n total) {id : TlbId} {v : Address} {tg : Target}
    (hhome : (l.home 0 v).isSome) (hat : l.sys.pageAt cfg 0 v = some tg) {s' : System}
    (hq : System.Quiet cfg l.sys s') (hi : System.Inserted cfg l.sys id v (tg.ppn cfg.z) s') :
    Cohered cfg n total ⟨s', l.home⟩ := by
  refine ⟨h.quiet hq hi.tlbs, fun core => (hq.procOf core).trans (h.proc core), h.sole, ?_⟩
  have hkeep : ∀ w ppn d, l.sys.Reflects cfg w ppn d → s'.Reflects cfg w ppn d := by
    rintro w ppn d ⟨tg', hat', htg'⟩
    exact ⟨tg', (hq.translate 0 _).trans hat', htg'⟩
  intro id' hid w ppn d hview
  by_cases hself : id' = id
  · subst hself
    by_cases hw : w = v
    · subst hw
      cases hi.self.symm.trans hview
      exact ⟨hhome, tg, (hq.translate 0 _).trans hat, rfl, h.isBlock_eq hlay hat⟩
    · rcases hi.rest w hw with hold | hnone
      · obtain ⟨hsome, href⟩ := h.known id' hid w ppn d (hold.symm.trans hview)
        exact ⟨hsome, hkeep w ppn d href⟩
      · cases hnone.symm.trans hview
  · obtain ⟨hsome, href⟩ := h.known id' hid w ppn d ((hi.other id' hself w).symm.trans hview)
    exact ⟨hsome, hkeep w ppn d href⟩

theorem fault (hlay : cfg.Layout n total) {core : Nat} {addr f : Address} {s' : System}
    (hf : System.Faulted cfg l.sys core addr f s') (hnone : l.sys.translate (l.sys.procOf core) addr = none)
    (hown : l.OwnLeaf cfg core addr) :
    Cohered cfg n total ⟨s', recordHome l.home (l.sys.procOf core) (addr >>> cfg.z.pageShift) f⟩ := by
  have hleaf := hlay.leafOf_page addr
  refine ⟨h.toPlaced.fault hf hlay hnone hown, fun c => ?_, fun p v hv => ?_, fun id hid w ppn d hview => ?_⟩
  · rw [System.procOf, hf.walker]
    exact h.proc c
  · rcases recordHome_isSome.mp hv with ⟨rfl, _⟩ | hv
    · exact h.proc core
    · exact h.sole p v hv
  · obtain ⟨_, hviews⟩ := hf.tlbs h.tlbs
    rw [hviews id w] at hview
    -- the faulting page is in no TLB
    have hne : ∀ x, (l.sys.tlb id).view w = some x → ¬ leafOf cfg w = slotOf addr cfg.mode := by
      rintro ⟨ppn', d'⟩ hold hslot
      obtain ⟨_, tg, hat, _⟩ := h.known id hid w ppn' d' hold
      rw [h.proc core] at hnone
      cases (h.tables.translate_congr hslot).symm.trans hat |>.symm.trans hnone
    split at hview
    · next hc =>
      obtain ⟨x, hx, _⟩ := map_eq_some_iff.mp hview
      rw [hc.2] at hne hx
      exact absurd hleaf (hne x hx)
    · obtain ⟨hsome, tg, hat, htg⟩ := h.known id hid w ppn d hview
      refine ⟨recordHome_isSome.mpr (.inr hsome), tg, ?_, htg⟩
      exact (hf.translate 0 _).trans ((if_neg fun hc => hne _ hview hc.2).trans hat)

/-- A migration sets the entries of the page cached and of the page retired in all TLBs, as
it does in the table. -/
theorem migrate {core b : Nat} {v f : Address} {s' : System}
    (hm : System.Migrated cfg l.sys core b v f s') (hhome : l.home (l.sys.procOf core) v = some f)
    (hpage : l.sys.pageAt cfg (l.sys.procOf core) v = some (.page f)) (hown : (l.sys.dram.bufferArray b).used = true →
      l.sys.pageAt cfg (l.sys.procOf core) (l.sys.dram.bufferArray b).vaddr = some (.block b))
    (hw : s'.TlbsOk) (hb : b < total) (hviews : ∀ id w, (s'.tlb id).view w =
      if id.1 < cfg.numCores ∧ w = v then ((l.sys.tlb id).view w).map fun _ => ((Target.block b).ppn cfg.z, true)
      else if (l.sys.dram.bufferArray b).used = true ∧ id.1 < cfg.numCores ∧ w = (l.sys.dram.bufferArray b).vaddr then
        ((l.sys.tlb id).view w).map fun _ => ((l.sys.dram.bufferArray b).originalAddr, false)
      else (l.sys.tlb id).view w) :
    Cohered cfg n total ⟨s', l.home⟩ := by
  refine ⟨h.toPlaced.migrate hm hhome hown hw hb hpage, fun c => ?_, h.sole, fun id hid w ppn d hview => ?_⟩
  · rw [System.procOf, hm.walker]
    exact h.proc c
  obtain ⟨⟨ppn0, d0⟩, hold⟩ : ∃ x, (l.sys.tlb id).view w = some x := by
    rw [hviews id w] at hview
    split at hview
    · exact (map_eq_some_iff.mp hview).imp fun _ hx => hx.1
    split at hview
    · exact (map_eq_some_iff.mp hview).imp fun _ hx => hx.1
    · exact ⟨_, hview⟩
  obtain ⟨hsome, href⟩ := h.known id hid w ppn0 d0 hold
  rw [hviews id w, hold] at hview
  refine ⟨hsome, ?_⟩
  -- the page is the one cached, the one retired, or stays
  rcases h.toPlaced.migrate_cases hm hhome hown hsome with ⟨_, hwv, hat⟩ | ⟨hused, hq, hwv, hat⟩ | ⟨hat, hne⟩
  · rw [if_pos ⟨hid, hwv⟩] at hview
    cases hview
    exact ⟨.block b, hat, rfl, rfl⟩
  · have hv : w ≠ v := by
      intro hwv'
      have hboth := hown hused
      rw [← hwv, hwv', hpage] at hboth
      cases hboth
    rw [if_neg fun hc => hv hc.2, if_pos ⟨hused, hid, hwv⟩] at hview
    cases hview
    exact ⟨.page _, hat, rfl, rfl⟩
  · have hv : w ≠ v := by
      intro hwv
      have hnew : s'.pageAt cfg 0 v = some (.block b) := (hm.translate 0 _).trans (if_pos ⟨(h.proc core).symm, rfl⟩)
      rw [hwv] at hat hne
      exact hne (hat.symm.trans hnew)
    have hretired : ¬ ((l.sys.dram.bufferArray b).used = true ∧ id.1 < cfg.numCores ∧
        w = (l.sys.dram.bufferArray b).vaddr) := by
      intro hc
      have hblock := hown hc.1
      rw [h.proc core, ← hc.2.2] at hblock
      exact hne hblock
    rw [if_neg fun hc => hv hc.2, if_neg hretired] at hview
    cases hview
    obtain ⟨tg, hold, htg⟩ := href
    exact ⟨tg, hat.trans hold, htg⟩

theorem step (hlay : cfg.Layout n total) (hshared : cfg.enableSharedMemory = false)
    (hone : cfg.numProcs = 1) {a : Action} (hok : l.Separate cfg a) (hstep : l.step cfg a = some l') :
    Cohered cfg n total l' := by
  obtain ⟨s', hs', _⟩ := map_eq_some_iff.mp hstep
  have hall := h.allowed (System.core_lt_of_step hs') hok
  cases a with
  | access core side req =>
    have hleaf := hlay.leafOf_page req.lineAddr
    cases h.toPlaced.access hlay hshared hok.1 hstep with
    | hit steady home => exact h.steady steady home
    | walk tg mapped quiet inserted home =>
      rw [h.proc core] at mapped
      obtain ⟨w, hw, hslot⟩ := h.only 0 _ _ mapped
      rw [hok.2 w (by rw [h.proc core]; exact hw) hslot.symm] at hw
      have hco := h.inserted hlay hw ((h.tables.translate_congr hleaf).trans mapped) quiet inserted
      rw [← home] at hco
      exact hco
    | fault f s1 s2 unmapped steady faulted quiet inserted home =>
      have hproc : s1.procOf core = l.sys.procOf core := steady.procOf core
      have h1 : Cohered cfg n total ⟨s1, l.home⟩ := h.steady steady rfl
      have h2 := h1.fault hlay faulted (by rw [hproc, steady.translate]; exact unmapped)
        (by unfold Log.OwnLeaf; rw [hproc]; exact hok.2)
      rw [hproc, ← home] at h2
      have hat : s2.pageAt cfg 0 (req.lineAddr >>> cfg.z.pageShift) = some (.page f) :=
        (faulted.translate 0 _).trans (if_pos ⟨(h1.proc core).symm, hleaf⟩)
      have hsome : (l'.home 0 (req.lineAddr >>> cfg.z.pageShift)).isSome := by
        rw [home]
        exact recordHome_isSome.mpr (.inl ⟨(h.proc core).symm, rfl⟩)
      exact h2.inserted hlay hsome hat quiet inserted
  | memory core paddr isWrite thres cycle flush =>
    cases h.toPlaced.memory hshared hall hstep with
    | stay steady home => exact h.steady steady home
    | migrate b v f s1 steady bound faulted_in on_frame own migrated tlbs view home =>
      have h1 : Cohered cfg n total ⟨s1, l.home⟩ := h.steady steady rfl
      have hco := h1.migrate migrated faulted_in on_frame own tlbs bound view
      rw [← home] at hco
      exact hco
  | setCid core proc =>
    have hpl := h.toPlaced.step hlay hshared hall hstep
    obtain ⟨s'', hs'', rfl⟩ := map_eq_some_iff.mp hstep
    obtain ⟨hproc, rfl⟩ := System.step_setCid hs''
    refine ⟨hpl, fun c => ?_, h.sole, h.known⟩
    rw [System.procOf_setCid]
    split
    · omega
    · exact h.proc c
  | contextSwitch core =>
    have hpl := h.toPlaced.step hlay hshared hall hstep
    obtain ⟨s'', hs'', rfl⟩ := map_eq_some_iff.mp hstep
    obtain rfl := System.step_contextSwitch hs''
    obtain ⟨hq, -, hview⟩ := System.contextSwitch_spec h.tables h.tlbs core
    refine ⟨hpl, fun c => (hq.procOf c).trans (h.proc c), h.sole, fun id hid v ppn inDram hv => ?_⟩
    rw [hview] at hv
    split at hv
    · cases hv
    · obtain ⟨hsome, tg, hat, htg, hblock⟩ := h.known id hid v ppn inDram hv
      exact ⟨hsome, tg, (hq.translate 0 _).trans hat, htg, hblock⟩

end Cohered

theorem Setup.cohered (c : Setup cfg) (hhigh : c.NoHighMem) (hone : cfg.numProcs = 1) :
    Cohered cfg (c.normalEnd - c.normalEnd % 2) (c.bufferSize >>> cfg.z.pageShift) c.log where
  toPlaced := c.placed hhigh
  proc core := by
    have hlt := c.procIdx_lt core
    show c.procIdx core = 0
    omega
  sole _ _ h := by cases h
  known id _ v _ _ h := by cases (c.boot_view id v).symm.trans h

/-- With one process, along every run in which each page has a leaf of its own and a frame
is left, every entry of a TLB has the physical page and the flag of the page table. A walk
of its page on any core returns its physical page, and so does a hit. -/
theorem tlb_run_coherent (c : Setup cfg) (hhigh : c.NoHighMem)
    (hlay : cfg.Layout c.normalEnd (c.bufferSize >>> cfg.z.pageShift))
    (hshared : cfg.enableSharedMemory = false) (hone : cfg.numProcs = 1) {as : List Action} {t : Log}
    (hok : AllSteps (Log.step cfg) (Log.Separate cfg) c.log as) (hr : run (Log.step cfg) c.log as = some t) :
    t.sys.Coherent cfg ∧
      ∀ id req ppn inDram, id.1 < cfg.numCores → req.type ≠ .setdirty →
        (t.sys.tlb id).view (req.lineAddr >>> cfg.z.pageShift) = some (ppn, inDram) →
        (∀ core, ∃ req' s', t.sys.walkerAccess cfg core req = some (ppn, req', s')) ∧
        ∀ addr req' s', t.sys.tlbAccess cfg id req = some (addr, req', s') →
          addr = (ppn <<< cfg.z.pageShift) ||| (req.lineAddr &&& (2^cfg.z.pageShift - 1)) := by
  have hlay' := hlay.mono (Nat.sub_le _ (c.normalEnd % 2))
  have hco := run_invariant (Log.step cfg)
    (fun _ _ _ hi hok hstep => Cohered.step hi hlay' hshared hone hok hstep) as (c.cohered hhigh hone) hok hr
  refine ⟨fun id hid v ppn d hview => (hco.known id hid v ppn d hview).2, ?_⟩
  intro id req ppn d hid hreq hview
  obtain ⟨_, tg, hat, rfl, _⟩ := hco.known id hid _ ppn d hview
  have hleaf := hlay.leafOf_page req.lineAddr
  have htr : t.sys.translate 0 req.lineAddr = some tg := (hco.tables.translate_congr hleaf).symm.trans hat
  refine ⟨fun core => ?_, fun addr req' s' h => System.tlbAccess_hit hco.tlbs hview h⟩
  exact System.walkerAccess_eq_some hco.tables hreq (by rw [hco.proc core]; exact htr) (hco.ppn_ne_sig hlay' htr)

section Sample

def soloConfig (mode : PagingStyle := .longModeNormal) : Config := sampleConfig mode 1 2

def soloSetup (mode : PagingStyle := .longModeNormal) : Setup (soloConfig mode) :=
  sampleSetup _ 4 (2 <<< 12) isSome_normalOnly_four Nat.one_pos fun h => by cases h

def heatPage (core : Nat) (ppn : Address) : Action := .memory core (ppn <<< 12) false 1 0 ⟨0, 0, 0⟩

/-- A page read on core 0 and cached there. -/
theorem tlb_run_coherent_heat :
    ∃ t, run (Log.step soloConfig) soloSetup.log
        [System.load 0 5, heatPage 0 0] = some t ∧
      (t.sys.tlb (0, .data)).view 5 = some (2^28, true) ∧ t.sys.Coherent soloConfig := by
  have hrun : ∃ t, run (Log.step soloConfig) soloSetup.log
        [System.load 0 5, heatPage 0 0] = some t ∧
      (t.sys.tlb (0, .data)).view 5 = some (2^28, true) := by decide +kernel
  have hfree : (soloSetup.log.sys.buddy.allocatePages 0 0).map Prod.fst = some (some 0) := by
    decide
  obtain ⟨t, ht, hview⟩ := hrun
  obtain ⟨⟨_, b⟩, hb, rfl⟩ := map_eq_some_iff.mp hfree
  have hok : AllSteps (Log.step soloConfig) (Log.Separate soloConfig)
      soloSetup.log [System.load 0 5, heatPage 0 0] :=
    ⟨⟨⟨0, b, hb⟩, fun w hw => by cases hw⟩, fun _ _ => ⟨trivial, fun _ _ => trivial⟩⟩
  have hlay : soloConfig.Layout soloSetup.normalEnd
      (soloSetup.bufferSize >>> soloConfig.z.pageShift) :=
    ⟨by decide, ⟨by decide, by decide⟩, by decide, by decide⟩
  exact ⟨t, ht, hview,
    (tlb_run_coherent soloSetup sampleSetup_soleNormal.noHighMem hlay rfl rfl hok ht).1⟩

/-- In `PAE_Normal` the pages 0 and 1 share a leaf. Caching the frame they are both mapped to
updates the TLB entry of one of them only. -/
theorem shared_leaf_leaves_stale_entry :
    ∃ t, run (Log.step (soloConfig .paeNormal)) (soloSetup .paeNormal).log
        [System.load 0 0, System.load 0 1, heatPage 0 0] = some t ∧
      (t.sys.tlb (0, .data)).view 0 = some (0, false) ∧
      t.sys.pageAt (soloConfig .paeNormal) 0 0 = some (.block 0) ∧ ¬ t.sys.Coherent (soloConfig .paeNormal) := by
  have hrun : ∃ t, run (Log.step (soloConfig .paeNormal)) (soloSetup .paeNormal).log
        [System.load 0 0, System.load 0 1, heatPage 0 0] = some t ∧
      (t.sys.tlb (0, .data)).view 0 = some (0, false) ∧
      t.sys.pageAt (soloConfig .paeNormal) 0 0 = some (.block 0) := by decide +kernel
  obtain ⟨t, ht, hview, hat⟩ := hrun
  refine ⟨t, ht, hview, hat, fun hc => ?_⟩
  obtain ⟨tg, hat', _, hblock⟩ := hc (0, .data) (by decide) 0 0 false hview
  cases hat.symm.trans hat'
  cases hblock

end Sample

end Shma.Walker
