import Shma.DramBuffer.Pools
import Shma.Mmu.FrameSupply
import Shma.Tlb.Contents
import Shma.Walker.Machine

/-!
# What the operations on the shared state change

One statement for each operation, in terms of the translations of all processes,
the descriptors of the DRAM blocks, the frames handed out and what the TLBs hold.
-/
namespace Shma.Walker

open PageTable Tlb
open HotMonitorTlb (lookUp_spec view)

namespace System

variable (cfg : Config) (s : System)

def translate (proc : Nat) (addr : Address) : Option Target := (s.pagingArray proc).translate addr

def TablesOk : Prop :=
  ∀ p, (s.pagingArray p).Inv ∧ (s.pagingArray p).mode = cfg.mode

def TlbsOk : Prop := ∀ id, (s.tlb id).Wf

/-- Nothing has changed but TLBs, access counters, dirty flags and the distribution of
blocks over pools. -/
structure Quiet (s s' : System) : Prop where
  tables : s'.TablesOk cfg
  translate : ∀ p a, s'.translate p a = s.translate p a
  frames : s.frames.Agree s'.frames
  nodeZones : s'.buddy.node.nodeZones = s.buddy.node.nodeZones
  holds : ∀ b, s'.dram.Holds b → s.dram.Holds b
  walker : s'.walker = s.walker

/-- Nor have the translations the TLBs hold. -/
structure Steady (s s' : System) : Prop extends Quiet cfg s s' where
  tlbs : s'.TlbsOk
  view : ∀ id v, (s'.tlb id).view v = (s.tlb id).view v

variable {cfg : Config} {s s' s'' : System}

section

variable (h : Quiet cfg s s')
include h

theorem Quiet.trans (h' : Quiet cfg s' s'') : Quiet cfg s s'' where
  tables := h'.tables
  translate p a := (h'.translate p a).trans (h.translate p a)
  frames := h.frames.trans h'.frames
  nodeZones := h'.nodeZones.trans h.nodeZones
  holds b hb := h.holds b (h'.holds b hb)
  walker := h'.walker.trans h.walker

omit h in
theorem Steady.trans (h : Steady cfg s s') (h' : Steady cfg s' s'') : Steady cfg s s'' where
  toQuiet := h.toQuiet.trans h'.toQuiet
  tlbs := h'.tlbs
  view id v := (h'.view id v).trans (h.view id v)

theorem Quiet.procOf (core : Nat) : s'.procOf core = s.procOf core := by
  rw [System.procOf, h.walker]; rfl

theorem Quiet.block (b : Nat) :
    (s'.dram.bufferArray b).used = (s.dram.bufferArray b).used ∧
      (s'.dram.bufferArray b).originalAddr = (s.dram.bufferArray b).originalAddr ∧
      (s'.dram.bufferArray b).vaddr = (s.dram.bufferArray b).vaddr :=
  h.frames.block b

theorem Quiet.supplies {n : Nat} {frames : List Address}
    (hs : s.buddy.Supplies n frames) : s'.buddy.Supplies n frames := by
  obtain ⟨z, lists, hz, hinv⟩ := hs.setMem h.frames.next h.frames.nodePageNum
  exact ⟨z, lists, (congrFun h.nodeZones .normal).trans hz, hinv⟩

theorem Quiet.hasFree {n : Nat} (hn : n < 2^64) {frames : List Address} (hs : s.buddy.Supplies n frames) :
    s'.buddy.HasFree ↔ s.buddy.HasFree := by
  rw [(h.supplies hs).hasFree_iff hn, hs.hasFree_iff hn, h.nodeZones]

end

section Tables

theorem TablesOk.translate_congr (ht : s.TablesOk cfg) {p : Nat} {a b : Address}
    (h : slotOf a cfg.mode = slotOf b cfg.mode) : s.translate p a = s.translate p b := by
  apply Paging.translate_congr
  rw [(ht p).2]
  exact h

theorem Quiet.ofTlb (ht : s.TablesOk cfg) (tlb : TlbId → HotMonitorTlb) : Quiet cfg s { s with tlb } where
  tables := ht
  translate _ _ := rfl
  frames := .refl _
  nodeZones := rfl
  holds _ hb := hb
  walker := rfl

theorem setTlb_steady (ht : s.TablesOk cfg) (hw : s.TlbsOk) {id : TlbId} {t : HotMonitorTlb} (hwt : t.Wf)
    (hview : ∀ v, t.view v = (s.tlb id).view v) : Steady cfg s (s.setTlb id t) where
  toQuiet := .ofTlb ht _
  tlbs id' := by
    by_cases hid : id' = id
    · subst hid; simpa [setTlb] using hwt
    · simpa [setTlb, hid] using hw id'
  view id' v := by
    by_cases hid : id' = id
    · subst hid; simpa [setTlb] using hview v
    · simp [setTlb, hid]

variable {proc : Nat} {req : MemReq}

theorem pagingAccess_spec (ht : s.TablesOk cfg) {w : Walk} (h : s.pagingAccess cfg proc req = some (w, s')) :
    Quiet cfg s s' ∧ s'.tlb = s.tlb ∧ w.req.lineAddr = req.lineAddr ∧
      w.addr = ((s.translate proc req.lineAddr).map (Target.ppn cfg.z)).getD pageFaultSig := by
  obtain ⟨⟨w', p'⟩, hr, h⟩ := map_eq_some_iff.mp h
  cases h
  have ha := Paging.access_spec (ht proc).1 hr
  refine ⟨⟨?_, ?_, ha.frames, rfl, fun _ hb => hb, rfl⟩, rfl, ha.lineAddr, ha.addr⟩
  · intro q
    by_cases hq : q = proc
    · subst hq
      simpa [setPaging, setFrames] using ⟨ha.inv, ha.mode.trans (ht q).2⟩
    · simpa [setPaging, setFrames, hq] using ht q
  · intro q a
    by_cases hq : q = proc
    · subst hq
      simpa [System.translate, setPaging, setFrames] using ha.translate a
    · simp [System.translate, setPaging, setFrames, hq]

theorem mapPage_spec {addr : Address} {tg : Target} {latency : Nat}
    (h : s.mapPage cfg proc addr tg = some (s', latency)) (ht : s.TablesOk cfg) :
    s'.TablesOk cfg ∧ (∀ q a, s'.translate q a =
      if q = proc ∧ slotOf a cfg.mode = slotOf addr cfg.mode then some tg else s.translate q a) ∧
      s' = { s with pagingArray := s'.pagingArray } := by
  obtain ⟨⟨p', l⟩, hr, h⟩ := map_eq_some_iff.mp h
  cases h
  obtain ⟨hinv, hmode, htr⟩ := Paging.mapPageTable_spec (ht proc).1 hr
  rw [(ht proc).2] at hmode htr
  refine ⟨fun q => ?_, fun q a => ?_, rfl⟩
  · by_cases hq : q = proc
    · subst hq
      simpa [setPaging] using ⟨hinv, hmode⟩
    · simpa [setPaging, hq] using ht q
  · by_cases hq : q = proc
    · subst hq
      simpa [System.translate, setPaging] using htr a
    · simp [System.translate, setPaging, hq]

theorem writeThrough_quiet {core : Nat} (h : s.writeThrough cfg core req = some s')
    (ht : s.TablesOk cfg) : Quiet cfg s s' ∧ s'.tlb = s.tlb := by
  obtain ⟨⟨w, s1⟩, hr, rfl⟩ := map_eq_some_iff.mp h
  obtain ⟨hq, htlb, _⟩ := pagingAccess_spec ht hr
  exact ⟨hq, htlb⟩

end Tables

section Shootdowns

variable {act : HotMonitorTlb → Nat → HotMonitorTlb} {g : Address × Bool → Address × Bool} {v : Address}

section

variable (hact : ∀ (t : HotMonitorTlb) i, t.Wf → t.ordinaryTlb.tlbTrie v = some i → (act t i).Wf ∧ HotMonitorTlb.SameTrie t (act t i) ∧ ∀ w, (act t i).view w = if w = v then (t.view w).map g else t.view w)
include hact

/-- A shootdown in one TLB whose treatment of the entry found changes the translation
of its page by `g`. -/
theorem shootTlb_spec {t : HotMonitorTlb} (hw : t.Wf) :
    (shootTlb act v t).Wf ∧ HotMonitorTlb.SameTrie t (shootTlb act v t) ∧
      ∀ w, (shootTlb act v t).view w = if w = v then (t.view w).map g else t.view w := by
  obtain ⟨hwf, htrie, hview⟩ := lookUp_spec hw v true
  have hfst := t.lookUp_fst v true
  unfold shootTlb
  generalize t.lookUp v true = r at *
  obtain ⟨found, t'⟩ := r
  cases found with
  | none =>
    refine ⟨hwf, htrie, fun w => ?_⟩
    rw [hview w]
    split
    · next hwv =>
      have hnone : t.view w = none := by rw [hwv, view, CommonTlb.view, ← hfst]; rfl
      rw [hnone]; rfl
    · rfl
  | some i =>
    have hi : t'.ordinaryTlb.tlbTrie v = some i := by rw [htrie.1]; exact hfst.symm
    obtain ⟨hwf', htrie', hview'⟩ := hact t' i hwf hi
    refine ⟨hwf', htrie.trans htrie', fun w => ?_⟩
    rw [hview' w, hview w]

theorem shoot_spec (hw : s.TlbsOk) :
    (s.shoot cfg act v).TlbsOk ∧ (∀ id, HotMonitorTlb.SameTrie (s.tlb id) ((s.shoot cfg act v).tlb id)) ∧
      ∀ id w, ((s.shoot cfg act v).tlb id).view w =
        if id.1 < cfg.numCores ∧ w = v then ((s.tlb id).view w).map g else (s.tlb id).view w := by
  have hid : ∀ id, ((s.shoot cfg act v).tlb id).Wf ∧
      HotMonitorTlb.SameTrie (s.tlb id) ((s.shoot cfg act v).tlb id) ∧
      ∀ w, ((s.shoot cfg act v).tlb id).view w =
        if id.1 < cfg.numCores ∧ w = v then ((s.tlb id).view w).map g else (s.tlb id).view w := by
    intro id
    unfold shoot
    by_cases hc : id.1 < cfg.numCores
    · simp only [hc, if_true, true_and]
      exact shootTlb_spec hact (hw id)
    · simp only [hc, if_false, false_and]
      exact ⟨hw id, .refl _, fun _ => trivial⟩
  exact ⟨fun id => (hid id).1, fun id => (hid id).2.1, fun id => (hid id).2.2⟩

end

theorem tlbShootdown_tlb (cfg : Config) (hw : s.TlbsOk) (vpn : Address) (req : MemReq) :
    (s.tlbShootdown cfg vpn req).1.TlbsOk ∧ ∀ id w, ((s.tlbShootdown cfg vpn req).1.tlb id).view w =
      if id.1 < cfg.numCores ∧ w = vpn then ((s.tlb id).view w).map fun x => (x.1, false)
      else (s.tlb id).view w := by
  obtain ⟨hok, _, hview⟩ :=
    @shoot_spec cfg s _ _ vpn (fun _ _ hw hi => HotMonitorTlb.setInvalid_spec hw hi) hw
  exact ⟨hok, hview⟩

theorem tlbShootdownHscc_tlb (cfg : Config) (hw : s.TlbsOk) (vpn ppn : Address) (inDram : Bool) (req : MemReq) :
    let s' := (s.tlbShootdownHscc cfg vpn ppn inDram req).1
    s'.TlbsOk ∧ (∀ id, HotMonitorTlb.SameTrie (s.tlb id) (s'.tlb id)) ∧ ∀ id w, (s'.tlb id).view w =
      if id.1 < cfg.numCores ∧ w = vpn then ((s.tlb id).view w).map fun _ => (ppn, inDram)
      else (s.tlb id).view w := by
  refine shoot_spec (fun t i hw hi => ?_) hw
  obtain ⟨hwf, htrie, hview⟩ := HotMonitorTlb.remapPpn_spec hw hi ppn inDram
  refine ⟨hwf, htrie, fun w => ?_⟩
  rw [hview]
  split
  · next hwv => rw [hwv, view, CommonTlb.view, hi]; rfl
  · rfl

end Shootdowns

section Faults

/-- A page fault that got frame `f`: the frame is mapped at the faulting address in the
faulting process, and the TLBs have been told. -/
structure Faulted (cfg : Config) (s : System) (core : Nat) (addr : Address) (f : Address) (s' : System) :
    Prop where
  tables : s'.TablesOk cfg
  translate : ∀ q a, s'.translate q a =
    if q = s.procOf core ∧ slotOf a cfg.mode = slotOf addr cfg.mode then some (.page f) else s.translate q a
  buddy : s.buddy.allocatePages 0 0 = some (some f, s'.buddy)
  dram : s'.dram = s.dram
  walker : s'.walker = s.walker
  tlbs : s.TlbsOk → s'.TlbsOk ∧ ∀ id w, (s'.tlb id).view w =
    if id.1 < cfg.numCores ∧ w = addr >>> cfg.z.pageShift then ((s.tlb id).view w).map fun x => (x.1, false)
    else (s.tlb id).view w

variable {core : Nat} {req req' : MemReq} {addr : Address}

/-- Without shared memory a page fault maps a new frame or, if there is none, returns
the virtual page number and does nothing. -/
theorem doPageFault_cases (hshared : cfg.enableSharedMemory = false) (ht : s.TablesOk cfg) (h : s.doPageFault cfg core req = some (addr, req', s')) :
    (∃ buddy, s.buddy.allocatePages 0 0 = some (none, buddy) ∧ addr = req.lineAddr >>> cfg.z.pageShift ∧
      s' = { s with buddy }) ∨ Faulted cfg s core req.lineAddr addr s' := by
  obtain ⟨⟨page, buddy⟩, hb, h⟩ := bind_eq_some_iff.mp h
  cases page with
  | none =>
    cases h
    exact .inl ⟨buddy, hb, rfl, rfl⟩
  | some f =>
    obtain ⟨⟨req1, s1⟩, hmap, he⟩ := map_eq_some_iff.mp h
    cases he
    rw [mapNew, hshared] at hmap
    obtain ⟨⟨s2, l⟩, hm, hmap⟩ := map_eq_some_iff.mp hmap
    cases hmap
    obtain ⟨htab, htr, hs⟩ := mapPage_spec hm ht
    refine .inr ⟨htab, htr, ?_, ?_, ?_, fun hw => ?_⟩
    all_goals rw [hs]
    · exact hb
    · rfl
    · rfl
    · exact tlbShootdown_tlb cfg hw _ req

theorem walkerAccess_cases (ht : s.TablesOk cfg) (h : s.walkerAccess cfg core req = some (addr, req', s')) :
    (Quiet cfg s s' ∧ s'.tlb = s.tlb ∧
      ∃ tg, s.translate (s.procOf core) req.lineAddr = some tg ∧ addr = tg.ppn cfg.z) ∨
    ∃ w s1 req2, s.pagingAccess cfg (s.procOf core) req = some (w, s1) ∧ w.addr = pageFaultSig ∧
      s1.doPageFault cfg core w.req = some (addr, req2, s') := by
  obtain ⟨⟨w, s1⟩, hr, h⟩ := bind_eq_some_iff.mp h
  dsimp only at h
  split at h
  · next hsig =>
    obtain ⟨⟨addr1, req2, s2⟩, hf, he⟩ := bind_eq_some_iff.mp h
    cases he
    exact .inr ⟨w, s1, req2, hr, hsig, hf⟩
  · next hsig =>
    cases h
    obtain ⟨hq, htlb, _, haddr⟩ := pagingAccess_spec ht hr
    refine .inl ⟨hq, htlb, ?_⟩
    cases htr : s.translate (s.procOf core) req.lineAddr with
    | none =>
      rw [htr] at haddr
      exact absurd haddr hsig
    | some tg =>
      rw [htr] at haddr
      exact ⟨tg, rfl, haddr⟩

end Faults

section Entries

theorem view_entry {ref : EntryRef} (h : (s.tlb ref.id).IsLive ref.index) :
    (s.tlb ref.id).view (s.entry ref).vPageNo = some ((s.entry ref).pPageNo, (s.entry ref).inDram) :=
  h.view_eq

/-- Page `v` with physical page `ppn` is in one TLB, which may have lost another page for
it; the other TLBs are as they were. -/
structure Inserted (cfg : Config) (s : System) (id : TlbId) (v ppn : Address) (s' : System) : Prop where
  tlbs : s'.TlbsOk
  other : ∀ id', id' ≠ id → ∀ w, (s'.tlb id').view w = (s.tlb id').view w
  self : (s'.tlb id).view v = some (ppn, decide (cfg.z.highAddr ≤ ppn <<< cfg.z.pageShift))
  rest : ∀ w, w ≠ v → (s'.tlb id).view w = (s.tlb id).view w ∨ (s'.tlb id).view w = none

variable {id : TlbId} {v ppn : Address}

theorem insertEntry_spec (ht : s.TablesOk cfg) (hw : s.TlbsOk) {counter : Nat}
    (h : s.insertEntry cfg id v ppn counter = some s') : Quiet cfg s s' ∧ Inserted cfg s id v ppn s' := by
  obtain ⟨⟨t, writeBack⟩, ht1, h⟩ := bind_eq_some_iff.mp h
  obtain ⟨hwf, hself, hrest⟩ := HotMonitorTlb.insert_spec (hw id) ht1
  have hins : Inserted cfg s id v ppn (s.setTlb id t) := by
    refine ⟨fun id' => ?_, fun id' hid w => by simp [setTlb, hid], ?_, ?_⟩
    · by_cases hid : id' = id
      · subst hid; simpa [setTlb] using hwf
      · simpa [setTlb, hid] using hw id'
    · simpa [setTlb] using hself
    · simpa [setTlb] using hrest
  cases writeBack with
  | none =>
    cases h
    exact ⟨.ofTlb ht _, hins⟩
  | some req =>
    obtain ⟨hq, htlb⟩ := writeThrough_quiet (s := s.setTlb id t) h ht
    refine ⟨(Quiet.ofTlb ht _).trans hq, ?_⟩
    obtain ⟨h1, h2, h3, h4⟩ := hins
    rw [← htlb] at h2 h3 h4
    exact ⟨fun id' => htlb ▸ h1 id', h2, h3, h4⟩

theorem Inserted.of_view (h : Inserted cfg s' id v ppn s'')
    (hview : ∀ id w, (s'.tlb id).view w = (s.tlb id).view w) : Inserted cfg s id v ppn s'' where
  tlbs := h.tlbs
  other id' hid w := (h.other id' hid w).trans (hview id' w)
  self := h.self
  rest w hw := by rw [← hview id w]; exact h.rest w hw

theorem markDirty_steady (ht : s.TablesOk cfg) (hw : s.TlbsOk) {i cycle : Nat}
    (h : s.markDirty cfg id i cycle = some s') : Steady cfg s s' := by
  obtain ⟨s1, h1, h⟩ := bind_eq_some_iff.mp h
  cases h
  obtain ⟨hwf, hview⟩ := HotMonitorTlb.setDirty_spec (hw id) i
  have hdirty : Steady cfg s (s.setTlb id ((s.tlb id).setDirty i)) := setTlb_steady ht hw hwf hview
  obtain ⟨hq, htlb⟩ := writeThrough_quiet h1 hdirty.tables
  have hthrough : Steady cfg s s1 := by
    refine ⟨hdirty.toQuiet.trans hq, fun id' => ?_, fun id' v => ?_⟩
    · rw [htlb]; exact hdirty.tlbs id'
    · rw [htlb]; exact hdirty.view id' v
  obtain ⟨⟨htab, htr, hfr, hz, hholds, hwalk⟩, htlbs, hv⟩ := hthrough
  refine ⟨⟨htab, htr, ?_, hz, fun b hb => hholds b (FairAllocator.convertToDirty_holds _ hb), hwalk⟩, htlbs, hv⟩
  exact ⟨hfr.next, hfr.nodePageNum, by simpa [frames] using hfr.block⟩

variable {req req' : MemReq} {addr : Address}

/-- A translation hits the TLB, or is looked up by a walk and entered. -/
theorem tlbAccess_cases (ht : s.TablesOk cfg) (hw : s.TlbsOk) (h : s.tlbAccess cfg id req = some (addr, req', s')) :
    (((s.tlb id).view (req.lineAddr >>> cfg.z.pageShift)).isSome ∧ Steady cfg s s') ∨
    ((s.tlb id).view (req.lineAddr >>> cfg.z.pageShift) = none ∧
      ∃ s1 s2 ppn walked, Steady cfg s s1 ∧ s1 = { s with tlb := s1.tlb } ∧ s1.walkerAccess cfg id.1 req = some (ppn, walked, s2) ∧
        (s2.TablesOk cfg → s2.TlbsOk → Quiet cfg s2 s' ∧
          Inserted cfg s2 id (req.lineAddr >>> cfg.z.pageShift) ppn s')) := by
  obtain ⟨hwf, _, hview⟩ := lookUp_spec (hw id) (req.lineAddr >>> cfg.z.pageShift) true
  have hfst := (s.tlb id).lookUp_fst (req.lineAddr >>> cfg.z.pageShift) true
  unfold tlbAccess at h
  generalize (s.tlb id).lookUp (req.lineAddr >>> cfg.z.pageShift) true = r at *
  obtain ⟨found, t⟩ := r
  have hlook : Steady cfg s (s.setTlb id t) := setTlb_steady ht hw hwf hview
  obtain ⟨⟨ppn, cycle, s1⟩, htr, he⟩ := map_eq_some_iff.mp h
  cases he
  rw [view, CommonTlb.view, ← hfst]
  cases found with
  | none =>
    obtain ⟨⟨ppn', walked, s2⟩, hwalk, htr⟩ := bind_eq_some_iff.mp htr
    obtain ⟨s3, hins, he⟩ := bind_eq_some_iff.mp htr
    cases he
    exact .inr ⟨rfl, s.setTlb id t, s2, ppn, walked, hlook, rfl, hwalk,
      fun ht2 hw2 => insertEntry_spec ht2 hw2 hins⟩
  | some i =>
    refine .inl ⟨rfl, ?_⟩
    obtain ⟨s2, hdirty, he⟩ := map_eq_some_iff.mp htr
    cases he
    split at hdirty
    · exact hlook.trans (markDirty_steady hlook.tables hlook.tlbs hdirty)
    · cases hdirty
      exact hlook

theorem tlbAccess_ok (hshared : cfg.enableSharedMemory = false) (ht : s.TablesOk cfg) (hw : s.TlbsOk) (h : s.tlbAccess cfg id req = some (addr, req', s')) :
    s'.TablesOk cfg ∧ s'.TlbsOk := by
  rcases tlbAccess_cases ht hw h with ⟨_, hs⟩ | ⟨_, s1, s2, ppn, walked, hs, _, hwalk, hins⟩
  · exact ⟨hs.tables, hs.tlbs⟩
  suffices hok : s2.TablesOk cfg ∧ s2.TlbsOk by
    obtain ⟨hq, hi⟩ := hins hok.1 hok.2
    exact ⟨hq.tables, hi.tlbs⟩
  rcases walkerAccess_cases hs.tables hwalk with ⟨hq, htlb, _⟩ | ⟨w, s3, req2, hpag, _, hfault⟩
  · exact ⟨hq.tables, fun id => by rw [htlb]; exact hs.tlbs id⟩
  · obtain ⟨hq, htlb, _⟩ := pagingAccess_spec hs.tables hpag
    have hw3 : s3.TlbsOk := fun id => by rw [htlb]; exact hs.tlbs id
    rcases doPageFault_cases hshared hq.tables hfault with ⟨buddy, _, _, rfl⟩ | hnew
    · exact ⟨hq.tables, hw3⟩
    · exact ⟨hnew.tables, (hnew.tlbs hw3).1⟩

variable {core : Nat}

theorem step_access {side : Side} (h : s.step cfg (.access core side req) = some s') :
    core < cfg.numCores ∧ ∃ addr req', s.tlbAccess cfg (core, side) req = some (addr, req', s') := by
  unfold step at h
  split at h
  · next hcore =>
    obtain ⟨⟨addr, req', s1⟩, hacc, rfl⟩ := map_eq_some_iff.mp h
    exact ⟨hcore, addr, req', hacc⟩
  · cases h

theorem procOf_setCid (s : System) (core proc c : Nat) :
    (s.setCid core proc).procOf c = if c = core then proc else s.procOf c := by
  by_cases hc : c = core
  · subst hc
    simp [setCid, procOf]
  · simp [setCid, procOf, hc]

theorem core_lt_of_step {a : Action} (h : s.step cfg a = some s') : a.core < cfg.numCores := by
  unfold step at h
  split at h
  · next hcore => exact hcore
  · cases h

theorem step_setCid {proc : Nat} (h : s.step cfg (.setCid core proc) = some s') :
    proc < cfg.numProcs ∧ s' = s.setCid core proc := by
  unfold step at h
  split at h
  · dsimp only at h
    split at h
    · next hproc => exact ⟨hproc, (some_inj.mp h).symm⟩
    · cases h
  · cases h

theorem step_contextSwitch (h : s.step cfg (.contextSwitch core) = some s') : s' = s.contextSwitch core := by
  unfold step at h
  split at h
  · exact (some_inj.mp h).symm
  · cases h

/-- A context switch empties the TLBs of its core, and does nothing else. -/
theorem contextSwitch_spec (ht : s.TablesOk cfg) (hw : s.TlbsOk) (core : Nat) :
    Quiet cfg s (s.contextSwitch core) ∧ (s.contextSwitch core).TlbsOk ∧
      ∀ id v, ((s.contextSwitch core).tlb id).view v = if id.1 = core then none else (s.tlb id).view v := by
  refine ⟨.ofTlb ht _, fun id => ?_, fun id v => ?_⟩
  all_goals
    dsimp only [contextSwitch]
    split
  · exact (hw id).flushAll
  · exact hw id
  · rfl
  · rfl

end Entries

end System

end Shma.Walker
