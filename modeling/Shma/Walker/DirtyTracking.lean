import Shma.Walker.Coherence
import Shma.Walker.Sound

/-!
# Which DRAM blocks are known to be written

A store through `HotMonitorTlb::access` marks the DRAM block of its page dirty only on
a TLB hit, and only if the entry is clean and flagged as a DRAM page. The mark goes
through the page table of the process at work to whatever block the page is mapped to
there. A store that misses the TLB marks nothing.
-/
namespace Shma.Walker

open PageTable Tlb Lib.Run
open Option (bind_map)

def blockOfPage (z : Zinfo) (ppn : Address) : Option Nat :=
  if z.isDramAddress (ppn <<< z.pageShift) then some (z.dramAddrToBlockId (ppn <<< z.pageShift)) else none

namespace System

def entryFor (s : System) (id : TlbId) (v : Address) : Option ExtendTlbEntry :=
  ((s.tlb id).ordinaryTlb.tlbTrie v).map (s.tlb id).ordinaryTlb.tlb

def hitsClean (s : System) (id : TlbId) (v : Address) : Bool :=
  (s.entryFor id v).any fun e => !e.dirty && e.inDram

def ppnFor (cfg : Config) (s : System) (id : TlbId) (req : MemReq) : Address :=
  match s.entryFor id (req.lineAddr >>> cfg.z.pageShift) with
  | some e => e.pPageNo
  | none => s.walkedPpn cfg id.1 req

/-- The block a memory access fills, if it leads to a migration. -/
def filled (cfg : Config) (s : System) (core : Nat) (paddr : Address) (isWrite : Bool) (thres : Nat) : Option Nat :=
  if cfg.z.isDramAddress paddr then none
  else match s.lookupTlb cfg core paddr isWrite thres with
    | (some _, .overThres, s) => (allocatePage cfg s.dram (s.procOf core)).map (·.1)
    | _ => none

end System

/-- The system, with two records that are kept for each block since it was last filled:
whether a store was translated to it, and whether `convert_to_dirty` was called for it. -/
structure DirtyLog where
  sys : System
  (stored converted : Nat → Bool)

namespace DirtyLog

variable (cfg : Config) (l : DirtyLog)

def storedAfter : Action → Nat → Bool
  | .access core side req =>
    match (l.sys.tlbAccess cfg (core, side) req).bind fun r => blockOfPage cfg.z (r.1 >>> cfg.z.pageShift) with
    | some b => if req.type = .putx then update l.stored b true else l.stored
    | none => l.stored
  | .memory core paddr isWrite thres _ _ =>
    match l.sys.filled cfg core paddr isWrite thres with
    | some b => update l.stored b false
    | none => l.stored
  | .setCid _ _ | .contextSwitch _ => l.stored

def convertedAfter : Action → Nat → Bool
  | .access core side req =>
    match l.sys.entryFor (core, side) (req.lineAddr >>> cfg.z.pageShift) with
    | some e =>
      if req.type = .putx ∧ e.dirty = false ∧ e.inDram = true then
        update l.converted (cfg.z.dramAddrToBlockId (e.pPageNo <<< cfg.z.pageShift)) true
      else l.converted
    | none => l.converted
  | .memory core paddr isWrite thres _ _ =>
    match l.sys.filled cfg core paddr isWrite thres with
    | some b => update l.converted b false
    | none => l.converted
  | .setCid _ _ | .contextSwitch _ => l.converted

def step (a : Action) : Option DirtyLog :=
  (l.sys.step cfg a).map fun s => ⟨s, l.storedAfter cfg a, l.convertedAfter cfg a⟩

/-- The block is marked dirty, by a call of `convert_to_dirty`. -/
def Marked (b : Nat) : Prop := (l.sys.dram.bufferArray b).dirty = true ∧ l.converted b = true

def Tracked : Prop := ∀ b, l.stored b = true → l.Marked b

/-- What a store asks of the state before it. Its block is marked already, or it hits a
clean entry that is flagged as a DRAM page, and the block is dirty already or the process
at work has the page mapped to it. -/
def Noted : Action → Prop
  | .access core side req => req.type = .putx →
    ∀ b, blockOfPage cfg.z (l.sys.ppnFor cfg (core, side) req) = some b →
      l.Marked b ∨ l.sys.hitsClean (core, side) (req.lineAddr >>> cfg.z.pageShift) = true ∧
        ((l.sys.dram.bufferArray b).dirty = true ∨
          l.sys.pageAt cfg (l.sys.procOf core) (req.lineAddr >>> cfg.z.pageShift) = some (.block b))
  | _ => True

end DirtyLog

variable {cfg : Config} {s s' : System}

namespace System

section Stores

theorem lookUp_entry (t : HotMonitorTlb) (v : Address) (updateLru : Bool) (i : Nat) :
    ∃ age, (t.lookUp v updateLru).2.ordinaryTlb.tlb i = { t.ordinaryTlb.tlb i with lruSeq := age } := by
  show ∃ age, (t.ordinaryTlb.lookUp v updateLru).2.tlb i = _
  rcases t.ordinaryTlb.lookUp_snd_cases v updateLru with h | ⟨j, h⟩
  · rw [h]
    exact ⟨_, rfl⟩
  · rw [h]
    by_cases hij : i = j
    · subst hij
      exact ⟨_, update_self _ _ _⟩
    · exact ⟨_, update_of_ne hij _ _⟩

theorem walkedPpn_tlb (s : System) (tlb : TlbId → HotMonitorTlb) (core : Nat) (req : MemReq) :
    System.walkedPpn cfg { s with tlb } core req = s.walkedPpn cfg core req := by
  unfold walkedPpn pagingAccess
  rw [bind_map, bind_map]
  rfl

variable {id : TlbId}

theorem markDirty_marks {i cycle : Nat} (h : s.markDirty cfg id i cycle = some s') (hs : s.Sound cfg) :
    s.Marks cfg (fun c => s.pageAt cfg (s.procOf id.1) (s.entry ⟨id, i⟩).vPageNo = some (.block c)) s' := by
  obtain ⟨s1, h1, h⟩ := bind_eq_some_iff.mp h
  cases h
  have hset : (s.setTlb id ((s.tlb id).setDirty i)).Sound cfg :=
    hs.setTlb (HotMonitorTlb.setDirty_spec (hs.tlbs id) i).1
  have hm := writeThrough_marks h1 hset
  refine ⟨{ hm.sound with }, fun c => ?_⟩
  rw [FairAllocator.convertToDirty_bufferArray, hm.dirty c]
  simp only [true_and]
  rfl

theorem tlbMiss_marks {req : MemReq} {ppn : Address} {cycle : Nat}
    (h : s.tlbMiss cfg id req = some (ppn, cycle, s')) (hs : s.Sound cfg) :
    ppn = s.walkedPpn cfg id.1 req ∧ s.Marks cfg
      (fun c => req.type = .setdirty ∧ s.translate (s.procOf id.1) req.lineAddr = some (.block c)) s' := by
  obtain ⟨⟨ppn', walked, s2⟩, hwalk, htr⟩ := bind_eq_some_iff.mp h
  obtain ⟨s3, hins, he⟩ := bind_eq_some_iff.mp htr
  cases he
  obtain ⟨hppn, hm⟩ := walkerAccess_marks hwalk hs
  exact ⟨hppn, hm.trans (insertEntry_marks hins hm.sound)⟩

theorem tlbHit_marks {i : Nat} {req : MemReq} {ppn : Address} {cycle : Nat}
    (h : s.tlbHit cfg id i req = some (ppn, cycle, s')) (hs : s.Sound cfg) :
    ppn = (s.entry ⟨id, i⟩).pPageNo ∧ s.Marks cfg (fun c =>
      (req.type = .putx ∧ (s.entry ⟨id, i⟩).dirty = false ∧ (s.entry ⟨id, i⟩).inDram = true) ∧
        s.pageAt cfg (s.procOf id.1) (s.entry ⟨id, i⟩).vPageNo = some (.block c)) s' := by
  obtain ⟨s2, hdirty, he⟩ := map_eq_some_iff.mp h
  cases he
  refine ⟨rfl, ?_⟩
  split at hdirty
  · next hcond =>
    have hm := markDirty_marks hdirty hs
    exact ⟨hm.sound, fun c => (hm.dirty c).trans (by rw [and_iff_right hcond])⟩
  · next hcond =>
    cases hdirty
    exact ⟨hs, fun c => (or_iff_left fun hc => hcond hc.1).symm⟩

theorem page_of_joined (ppn a shift : Nat) : (ppn <<< shift ||| a &&& (2^shift - 1)) >>> shift = ppn := by
  rw [Nat.shiftRight_or_distrib, Nat.and_two_pow_sub_one_eq_mod, Nat.shiftLeft_shiftRight,
    Nat.shiftRight_eq_zero _ _ (mod_lt _ (Nat.two_pow_pos _)), Nat.or_zero]

/-- A translation leads to the page of its entry or of the walk. It marks the block of the
page if it is a store that hits a clean entry. -/
theorem tlbAccess_marks {req req' : MemReq} {addr : Address}
    (h : s.tlbAccess cfg id req = some (addr, req', s')) (hs : s.Sound cfg) :
    addr >>> cfg.z.pageShift = s.ppnFor cfg id req ∧ s.Marks cfg (fun c =>
      req.type = .putx ∧ s.hitsClean id (req.lineAddr >>> cfg.z.pageShift) = true ∧
        s.pageAt cfg (s.procOf id.1) (req.lineAddr >>> cfg.z.pageShift) = some (.block c) ∨
      req.type = .setdirty ∧ s.entryFor id (req.lineAddr >>> cfg.z.pageShift) = none ∧
        s.translate (s.procOf id.1) req.lineAddr = some (.block c)) s' := by
  obtain ⟨hwf, -, -⟩ := HotMonitorTlb.lookUp_spec (hs.tlbs id) (req.lineAddr >>> cfg.z.pageShift) true
  have hfst := (s.tlb id).lookUp_fst (req.lineAddr >>> cfg.z.pageShift) true
  have hentry := lookUp_entry (s.tlb id) (req.lineAddr >>> cfg.z.pageShift) true
  unfold tlbAccess at h
  generalize (s.tlb id).lookUp (req.lineAddr >>> cfg.z.pageShift) true = r at *
  obtain ⟨found, t⟩ := r
  have hlook : (s.setTlb id t).Sound cfg := hs.setTlb hwf
  obtain ⟨⟨ppn, cycle, s1⟩, htr, he⟩ := map_eq_some_iff.mp h
  cases he
  have hfor : s.entryFor id (req.lineAddr >>> cfg.z.pageShift) = found.map (s.tlb id).ordinaryTlb.tlb := by
    rw [entryFor, ← hfst]
  unfold ppnFor hitsClean
  rw [page_of_joined, hfor]
  cases found with
  | none =>
    obtain ⟨hppn, hm⟩ := tlbMiss_marks htr hlook
    refine ⟨hppn.trans (walkedPpn_tlb s _ id.1 req), hm.sound, fun c => (hm.dirty c).trans ?_⟩
    simp only [Option.map_none, Option.any_none, Bool.false_eq_true, false_and, and_false, false_or, true_and]
    rfl
  | some i =>
    obtain ⟨age, hage⟩ := hentry i
    have hnow : (s.setTlb id t).entry ⟨id, i⟩ = { (s.tlb id).ordinaryTlb.tlb i with lruSeq := age } := by
      show (update s.tlb id t id).ordinaryTlb.tlb i = _
      rw [update_self]
      exact hage
    have hvpn : ((s.tlb id).ordinaryTlb.tlb i).vPageNo = req.lineAddr >>> cfg.z.pageShift :=
      (hs.tlbs id).vpn _ i hfst.symm
    obtain ⟨hppn, hm⟩ := tlbHit_marks htr hlook
    rw [hnow] at hppn hm
    rw [hvpn] at hm
    refine ⟨hppn, hm.sound, fun c => (hm.dirty c).trans ?_⟩
    simp only [map_some, Option.any_some, Bool.and_eq_true, Bool.not_eq_true', reduceCtorEq, false_and,
      and_false, or_false, and_assoc]
    rfl

end Stores

theorem filterBasedCache_filled {core : Nat} {paddr addr : Address} {isWrite : Bool} {thres cycle : Nat}
    {flush : Flush} (h : s.filterBasedCache cfg core paddr isWrite thres cycle flush = some (addr, s'))
    (hs : s.Sound cfg) : s'.Sound cfg ∧
      ∀ c, s.filled cfg core paddr isWrite thres ≠ some c → s'.dram.bufferArray c = s.dram.bufferArray c := by
  unfold filterBasedCache at h
  unfold filled
  split at h
  · cases h
    exact ⟨hs, fun _ _ => rfl⟩
  · next hnvm =>
    rw [if_neg hnvm]
    generalize hlook : s.lookupTlb cfg core paddr isWrite thres = r at h
    obtain ⟨found, result, s1⟩ := r
    obtain ⟨hsteady, hs1, -⟩ := lookupTlb_spec hs.tables hs.tlbs hlook
    have hdram : s1.dram = s.dram := by rw [hs1]
    have hsound : s1.Sound cfg := by
      refine ⟨hsteady.tables, ?_, hsteady.tlbs⟩
      rw [hs1]
      exact hs.linked
    dsimp only at h
    split at h
    · next ref =>
      obtain ⟨⟨addr1, evicted, req', s2⟩, hfault, he⟩ := map_eq_some_iff.mp h
      cases he
      obtain ⟨⟨b, dram⟩, halloc, hfault⟩ := bind_eq_some_iff.mp hfault
      obtain ⟨⟨evicted1, req1, s3⟩, hevict, he⟩ := bind_eq_some_iff.mp hfault
      cases he
      obtain ⟨hs', hkeep⟩ := evictDRAMPage_sound hevict { hsound with }
      obtain ⟨-, hbuf, -⟩ := allocatePage_spec halloc
      refine ⟨hs', fun c hc => ?_⟩
      have hc : (allocatePage cfg s1.dram (s1.procOf core)).map (·.1) ≠ some c := hc
      rw [halloc] at hc
      have hne : c ≠ b := fun he => hc (congrArg some he.symm)
      rw [hkeep c hne]
      rw [hbuf, hdram]
    · cases h
      exact ⟨hsound, fun c _ => by rw [hdram]⟩

end System

namespace DirtyLog

variable {l l' : DirtyLog}

variable {core : Nat} {side : Side}

theorem storedAfter_access {req req' : MemReq} {addr : Address} (hs : l.sys.Sound cfg)
    (h : l.sys.tlbAccess cfg (core, side) req = some (addr, req', s')) (c : Nat) :
    l.storedAfter cfg (.access core side req) c = true ↔ l.stored c = true ∨
      req.type = .putx ∧ blockOfPage cfg.z (l.sys.ppnFor cfg (core, side) req) = some c := by
  obtain ⟨hppn, -⟩ := System.tlbAccess_marks h hs
  rw [storedAfter, h, bind_some, hppn]
  cases blockOfPage cfg.z (l.sys.ppnFor cfg (core, side) req) with
  | none => simp
  | some b =>
    by_cases hputx : req.type = .putx
    · by_cases hc : c = b
      · subst hc; simp [hputx]
      · simp [hputx, hc, Ne.symm hc]
    · simp [hputx]

variable {req : MemReq}

theorem convertedAfter_access {b : Nat} (hputx : req.type = .putx)
    (hb : blockOfPage cfg.z (l.sys.ppnFor cfg (core, side) req) = some b) :
    l.convertedAfter cfg (.access core side req) b = true ↔ l.converted b = true ∨
      l.sys.hitsClean (core, side) (req.lineAddr >>> cfg.z.pageShift) = true := by
  unfold System.ppnFor at hb
  rw [convertedAfter, System.hitsClean]
  cases hfor : l.sys.entryFor (core, side) (req.lineAddr >>> cfg.z.pageShift) with
  | none => simp
  | some e =>
    rw [hfor] at hb
    have hb : blockOfPage cfg.z e.pPageNo = some b := hb
    have hblock : cfg.z.dramAddrToBlockId (e.pPageNo <<< cfg.z.pageShift) = b := by
      unfold blockOfPage at hb
      split at hb
      · exact some_inj.mp hb
      · cases hb
    by_cases hclean : e.dirty = false ∧ e.inDram = true
    · simp [hputx, hclean, hblock]
    · have hno : ¬ ((!e.dirty && e.inDram) = true) := by simpa using hclean
      simp [hputx, hclean, hno]

theorem convertedAfter_access_mono {c : Nat} (h : l.converted c = true) :
    l.convertedAfter cfg (.access core side req) c = true := by
  rw [convertedAfter]
  cases l.sys.entryFor (core, side) (req.lineAddr >>> cfg.z.pageShift) with
  | none => exact h
  | some e =>
    dsimp only
    split
    · by_cases hc : c = cfg.z.dramAddrToBlockId (e.pPageNo <<< cfg.z.pageShift)
      · rw [hc, update_self]
      · rw [update_of_ne hc]
        exact h
    · exact h

section

variable (hs : l.sys.Sound cfg) (ht : l.Tracked)
include hs ht

/-- A translation keeps the records right exactly if its store is noted. -/
theorem access_tracked (h : l.step cfg (.access core side req) = some l') :
    l'.sys.Sound cfg ∧ (l'.Tracked ↔ l.Noted cfg (.access core side req)) := by
  obtain ⟨s', hstep, rfl⟩ := map_eq_some_iff.mp h
  obtain ⟨-, addr, req', hacc⟩ := System.step_access hstep
  obtain ⟨-, hm⟩ := System.tlbAccess_marks hacc hs
  have hstored := storedAfter_access hs hacc
  have hkeep : ∀ c, l.Marked c → Marked ⟨s', l.storedAfter cfg (.access core side req),
      l.convertedAfter cfg (.access core side req)⟩ c :=
    fun c hc => ⟨(hm.dirty c).mpr (.inl hc.1), convertedAfter_access_mono hc.2⟩
  refine ⟨hm.sound, ⟨fun htracked hputx b hb => ?_, fun hnoted c hc => ?_⟩⟩
  · obtain ⟨hdirty, hconv⟩ := htracked b ((hstored b).mpr (.inr ⟨hputx, hb⟩))
    have hdirty := (hm.dirty b).mp hdirty
    have hconv := (convertedAfter_access hputx hb).mp hconv
    simp only [hputx, reduceCtorEq, true_and, false_and, or_false] at hdirty
    tauto
  · rcases (hstored c).mp hc with hold | ⟨hputx, hb⟩
    · exact hkeep c (ht c hold)
    · rcases hnoted hputx c hb with hmarked | ⟨hhit, hblock⟩
      · exact hkeep c hmarked
      · refine ⟨(hm.dirty c).mpr ?_, (convertedAfter_access hputx hb).mpr (.inr hhit)⟩
        exact hblock.imp id fun hat => .inl ⟨hputx, hhit, hat⟩

/-- The other steps keep the records right: what they fill has not been stored to since. -/
theorem memory_tracked {paddr : Address} {isWrite : Bool} {thres cycle : Nat} {flush : Flush}
    (h : l.step cfg (.memory core paddr isWrite thres cycle flush) = some l') : l'.sys.Sound cfg ∧ l'.Tracked := by
  obtain ⟨s', hstep, rfl⟩ := map_eq_some_iff.mp h
  obtain ⟨addr, hfilter⟩ := System.step_memory hstep
  obtain ⟨hs', hkeep⟩ := System.filterBasedCache_filled hfilter hs
  refine ⟨hs', fun c hc => ?_⟩
  show (s'.dram.bufferArray c).dirty = true ∧
    l.convertedAfter cfg (.memory core paddr isWrite thres cycle flush) c = true
  rw [storedAfter] at hc
  rw [convertedAfter]
  by_cases hfill : l.sys.filled cfg core paddr isWrite thres = some c
  · rw [hfill] at hc
    simp at hc
  · rw [hkeep c hfill]
    cases hf : l.sys.filled cfg core paddr isWrite thres with
    | none =>
      rw [hf] at hc
      exact ht c hc
    | some b =>
      have hne : c ≠ b := fun he => hfill (hf.trans (congrArg some he.symm))
      rw [hf] at hc
      simp only [update_of_ne hne] at hc ⊢
      exact ht c hc

theorem step_tracked {a : Action} (h : l.step cfg a = some l') : l'.sys.Sound cfg ∧ (l'.Tracked ↔ l.Noted cfg a) := by
  cases a with
  | access core side req => exact access_tracked hs ht h
  | memory core paddr isWrite thres cycle flush =>
    obtain ⟨hs', ht'⟩ := memory_tracked hs ht h
    exact ⟨hs', iff_of_true ht' trivial⟩
  | setCid core proc =>
    obtain ⟨s', hstep, rfl⟩ := map_eq_some_iff.mp h
    obtain ⟨-, rfl⟩ := System.step_setCid hstep
    exact ⟨{ hs with }, iff_of_true ht trivial⟩
  | contextSwitch core =>
    obtain ⟨s', hstep, rfl⟩ := map_eq_some_iff.mp h
    obtain rfl := System.step_contextSwitch hstep
    exact ⟨⟨hs.tables, hs.linked, (System.contextSwitch_spec hs.tables hs.tlbs core).2.1⟩, iff_of_true ht trivial⟩

end

end DirtyLog

def Setup.dirtyLog (c : Setup cfg) : DirtyLog := ⟨c.boot, fun _ => false, fun _ => false⟩

/-- Along every run, every block a store was translated to since it was last filled is
marked dirty after every step exactly if each store finds its block marked, or hits a
clean entry of a DRAM page that the process at work has mapped to the block. -/
theorem run_tracked_iff_noted (c : Setup cfg) {as : List Action} {t : DirtyLog}
    (hr : run (DirtyLog.step cfg) c.dirtyLog as = some t) :
    (∀ pre, pre <+: as → ∀ l, run (DirtyLog.step cfg) c.dirtyLog pre = some l → l.Tracked) ↔
      AllSteps (DirtyLog.step cfg) (DirtyLog.Noted cfg) c.dirtyLog as := by
  have hstep : ∀ (l : DirtyLog) a l', l.sys.Sound cfg → l.Tracked → l.step cfg a = some l' →
      l'.sys.Sound cfg ∧ (l'.Tracked ↔ l.Noted cfg a) := fun _ _ _ hs ht h => DirtyLog.step_tracked hs ht h
  exact forall_run_iff_allSteps (DirtyLog.step cfg) hstep as c.boot_sound (fun _ h => by cases h) hr

section Sample

def storePage (core : Nat) (vpn : Address) : Action := .access core .data ⟨vpn <<< 12, .putx, 0, 0⟩

/-- A store on the core whose TLB has the page that was cached. -/
theorem run_tracked_iff_noted_hit :
    ∃ t, run (DirtyLog.step soloConfig) soloSetup.dirtyLog
        [System.load 0 5, heatPage 0 0, storePage 0 5] = some t ∧ t.stored 0 = true ∧ t.Tracked := by
  have hrun : ∃ t, run (DirtyLog.step soloConfig) soloSetup.dirtyLog
      [System.load 0 5, heatPage 0 0, storePage 0 5] = some t ∧ t.stored 0 = true := by decide +kernel
  have hbefore : ∃ l, run (DirtyLog.step soloConfig) soloSetup.dirtyLog
        [System.load 0 5, heatPage 0 0] = some l ∧
      blockOfPage soloConfig.z
        (l.sys.ppnFor soloConfig (0, .data) ⟨5 <<< 12, .putx, 0, 0⟩) = some 0 ∧
      l.sys.hitsClean (0, .data) 5 = true ∧
      l.sys.pageAt soloConfig (l.sys.procOf 0) 5 = some (.block 0) := by decide +kernel
  obtain ⟨t, ht, hstored⟩ := hrun
  obtain ⟨l, hl, hblock, hhit, hat⟩ := hbefore
  have hok : AllSteps (DirtyLog.step soloConfig) (DirtyLog.Noted soloConfig)
      soloSetup.dirtyLog ([System.load 0 5, heatPage 0 0] ++ [storePage 0 5]) := by
    refine (allSteps_append _).mpr ⟨⟨fun hputx => (nomatch hputx), fun _ _ => ⟨trivial, fun _ _ => trivial⟩⟩, ?_⟩
    intro l' hl'
    obtain rfl : l = l' := mem_unique hl hl'
    refine ⟨fun _ b hb => ?_, fun _ _ => trivial⟩
    obtain rfl : 0 = b := mem_unique hblock hb
    exact .inr ⟨hhit, .inr hat⟩
  exact ⟨t, ht, hstored, (run_tracked_iff_noted _ ht).mpr hok _ prefix_rfl t ht⟩

/-- Core 0 reads page 5 and has it cached in block 0. The store of core 1 to the page misses
its TLB, finds block 0 by a walk and leaves it clean. -/
theorem store_that_misses_is_lost :
    ∃ t, run (DirtyLog.step soloConfig) soloSetup.dirtyLog
        [System.load 0 5, heatPage 0 0, storePage 1 5] = some t ∧
      t.stored 0 = true ∧ (t.sys.dram.bufferArray 0).dirty = false ∧ ¬ t.Tracked := by
  have hrun : ∃ t, run (DirtyLog.step soloConfig) soloSetup.dirtyLog
        [System.load 0 5, heatPage 0 0, storePage 1 5] = some t ∧
      t.stored 0 = true ∧ (t.sys.dram.bufferArray 0).dirty = false := by decide +kernel
  obtain ⟨t, ht, hstored, hclean⟩ := hrun
  refine ⟨t, ht, hstored, hclean, fun htracked => ?_⟩
  cases (htracked 0 hstored).1.symm.trans hclean

end Sample

end Shma.Walker
