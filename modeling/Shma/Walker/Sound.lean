import Shma.Walker.Boot
import Shma.Walker.Migration

/-!
# What every step keeps

The page tables stay well-formed trees whose inverse tables lead to leaves, and the
TLBs stay indexed, whatever the configuration: with or without shared memory, and for
any paging mode. On the way it is recorded which DRAM blocks an operation marks dirty.
-/
namespace Shma.Walker

open PageTable Tlb

namespace System

structure Sound (cfg : Config) (s : System) : Prop where
  tables : s.TablesOk cfg
  linked : ∀ p, (s.pagingArray p).Linked
  tlbs : s.TlbsOk

/-- The state stays sound, and the blocks with a property become dirty. -/
structure Marks (cfg : Config) (s : System) (marked : Nat → Prop) (s' : System) : Prop where
  sound : s'.Sound cfg
  dirty : ∀ c, (s'.dram.bufferArray c).dirty = true ↔ (s.dram.bufferArray c).dirty = true ∨ marked c

variable {cfg : Config} {s s' s'' : System}

theorem Marks.of_dram (hs : s'.Sound cfg) (hdram : s'.dram = s.dram) : s.Marks cfg (fun _ => False) s' :=
  ⟨hs, fun c => by rw [hdram, or_false]⟩

theorem Marks.trans {m : Nat → Prop} (h : s.Marks cfg m s') (h' : s'.Marks cfg (fun _ => False) s'') :
    s.Marks cfg m s'' :=
  ⟨h'.sound, fun c => by rw [h'.dirty, or_false, h.dirty]⟩

theorem Sound.setTlb (hs : s.Sound cfg) {id : TlbId} {t : HotMonitorTlb} (ht : t.Wf) : (s.setTlb id t).Sound cfg where
  tables := hs.tables
  linked := hs.linked
  tlbs := (forall_update_iff s.tlb fun _ t => t.Wf).mpr ⟨ht, fun id' _ => hs.tlbs id'⟩

theorem Sound.setPaging (hs : s.Sound cfg) {proc : Nat} {p : Paging} (hi : p.Inv) (hm : p.mode = cfg.mode)
    (hl : p.Linked) : (s.setPaging proc p).Sound cfg where
  tables := (forall_update_iff s.pagingArray fun _ p => p.Inv ∧ p.mode = cfg.mode).mpr
    ⟨⟨hi, hm⟩, fun q _ => hs.tables q⟩
  linked := (forall_update_iff s.pagingArray fun _ p => p.Linked).mpr ⟨hl, fun q _ => hs.linked q⟩
  tlbs := hs.tlbs

section Tables

variable {proc : Nat} {req : MemReq}

theorem pagingAccess_marks {w : Walk} (h : s.pagingAccess cfg proc req = some (w, s')) (hs : s.Sound cfg) :
    s.Marks cfg (fun c => req.type = .setdirty ∧ s.translate proc req.lineAddr = some (.block c)) s' := by
  obtain ⟨⟨w', p'⟩, hr, he⟩ := map_eq_some_iff.mp h
  cases he
  have ha := Paging.access_spec (hs.tables proc).1 hr
  have hset : (s.setPaging proc p').Sound cfg :=
    hs.setPaging ha.inv (ha.mode.trans (hs.tables proc).2) ((hs.linked proc).access (hs.tables proc).1 hr)
  exact ⟨{ hset with }, ha.dirty⟩

theorem writeThrough_marks {core : Nat} (h : s.writeThrough cfg core req = some s') (hs : s.Sound cfg) :
    s.Marks cfg (fun c => req.type = .setdirty ∧ s.translate (s.procOf core) req.lineAddr = some (.block c)) s' := by
  obtain ⟨⟨w, s1⟩, hr, rfl⟩ := map_eq_some_iff.mp h
  exact pagingAccess_marks hr hs

variable {latency : Nat}

theorem mapPage_sound {addr : Address} {tg : Target}
    (h : s.mapPage cfg proc addr tg = some (s', latency)) (hs : s.Sound cfg) : s'.Sound cfg := by
  obtain ⟨⟨p', l⟩, hr, he⟩ := map_eq_some_iff.mp h
  cases he
  obtain ⟨hinv, hmode, -⟩ := Paging.mapPageTable_spec (hs.tables proc).1 hr
  exact hs.setPaging hinv (hmode.trans (hs.tables proc).2) ((hs.linked proc).mapPageTable (hs.tables proc).1 hr)

variable {procs : List Nat}

theorem mapAllSharedMemory_sound {va : Address} {page : Target}
    (h : mapAllSharedMemory cfg va page procs s = some (s', latency)) (hs : s.Sound cfg) :
    s'.Sound cfg ∧ s'.dram = s.dram := by
  induction procs generalizing s latency with
  | nil =>
    cases h
    exact ⟨hs, rfl⟩
  | cons i procs ih =>
    obtain ⟨⟨s1, l1⟩, h1, h⟩ := bind_eq_some_iff.mp h
    obtain ⟨⟨s2, l2⟩, h2, he⟩ := map_eq_some_iff.mp h
    cases he
    obtain ⟨hs2, hdram⟩ := ih h2 (mapPage_sound h1 hs)
    have hframe := mapPage_frame h1
    exact ⟨hs2, by rw [hdram, hframe]⟩

theorem remapAll_sound {ppn dstPpn : Address} {srcDram dstDram : Bool}
    (h : remapAll cfg ppn dstPpn srcDram dstDram procs s = some (s', latency)) (hs : s.Sound cfg) :
    s'.Sound cfg := by
  induction procs generalizing s latency with
  | nil =>
    cases h
    exact hs
  | cons i procs ih =>
    obtain ⟨⟨p', l⟩, hr, h⟩ := bind_eq_some_iff.mp h
    obtain ⟨r', hrest, he⟩ := map_eq_some_iff.mp h
    cases he
    obtain ⟨hinv, hmode, hlinked, -⟩ := (hs.linked i).remapPageTable (hs.tables i).1 hr
    exact ih hrest (hs.setPaging hinv (hmode.trans (hs.tables i).2) hlinked)

end Tables

section Faults

variable {core : Nat} {req req' : MemReq}

theorem mapNew_sound {page : Target}
    (h : s.mapNew cfg core req page = some (req', s')) (hs : s.Sound cfg) : s'.Sound cfg ∧ s'.dram = s.dram := by
  have hown : ∀ {s : System} {req req' : MemReq}, s.Sound cfg → s.mapOwn cfg core req page = some (req', s') →
      s'.Sound cfg ∧ s'.dram = s.dram := by
    intro s req req' hs h
    obtain ⟨⟨s1, l⟩, hm, he⟩ := map_eq_some_iff.mp h
    cases he
    have hframe := mapPage_frame hm
    exact ⟨mapPage_sound hm hs, by rw [hframe]⟩
  unfold mapNew at h
  split at h
  · obtain ⟨⟨shared, req1, s1⟩, hregion, h⟩ := bind_eq_some_iff.mp h
    obtain ⟨⟨mmapCached, found⟩, -, hregion⟩ := bind_eq_some_iff.mp hregion
    have hs1 : ({ s with walker := update s.walker core { s.walker core with mmapCached } } :
        System).Sound cfg := { hs with }
    cases found with
    | true =>
      obtain ⟨⟨s2, overhead⟩, hall, he⟩ := bind_eq_some_iff.mp hregion
      cases he
      cases h
      have hmapped := mapAllSharedMemory_sound hall hs1
      exact hmapped
    | false =>
      cases hregion
      have hmapped := hown hs1 h
      exact hmapped
  · exact hown hs h

/-- A page fault keeps the blocks as they are, and answers with the frame it got or with
the virtual page number. -/
theorem doPageFault_sound {addr : Address} (h : s.doPageFault cfg core req = some (addr, req', s')) (hs : s.Sound cfg) :
    s'.Sound cfg ∧ s'.dram = s.dram ∧
      addr = ((s.buddy.allocatePages 0 0).bind (·.1)).getD (req.lineAddr >>> cfg.z.pageShift) := by
  obtain ⟨⟨page, buddy⟩, hb, h⟩ := bind_eq_some_iff.mp h
  rw [hb]
  cases page with
  | none =>
    cases h
    exact ⟨{ hs with }, rfl, rfl⟩
  | some f =>
    obtain ⟨⟨req1, s1⟩, hmap, he⟩ := map_eq_some_iff.mp h
    cases he
    obtain ⟨htlbs, -⟩ := tlbShootdown_tlb cfg hs.tlbs (req.lineAddr >>> cfg.z.pageShift) req
    obtain ⟨hs', hdram⟩ := mapNew_sound hmap ⟨hs.tables, hs.linked, htlbs⟩
    exact ⟨hs', hdram, rfl⟩

end Faults

section Translations

variable {req : MemReq}

theorem victimWriteBack_type {z : Zinfo} {multiQueue : Bool} {e : ExtendTlbEntry} {policy : EvictStyle} (h : CommonTlb.victimWriteBack z multiQueue e policy = some (some req)) :
    req.type = .writeback := by
  cases policy with
  | lru | hotnessAware => cases h
  | hotMonitorTlbLru =>
    have h := some_inj.mp h
    split at h
    · rw [← some_inj.mp h]; rfl
    · cases h

variable {v ppn : Address} {counter : Nat}

theorem insert_writeBack_type {t t' : HotMonitorTlb}
    (h : t.insert cfg.z cfg.counters v ppn counter = some (t', some req)) : req.type = .writeback := by
  obtain ⟨⟨ordinary, writeBack⟩, h, he⟩ := bind_eq_some_iff.mp h
  cases he
  obtain ⟨_, -, h⟩ := bind_eq_some_iff.mp h
  obtain ⟨⟨t1, writeBack⟩, hroom, he⟩ := bind_eq_some_iff.mp h
  cases he
  unfold CommonTlb.makeRoom at hroom
  split at hroom
  · obtain ⟨i, -, h⟩ := bind_eq_some_iff.mp hroom
    obtain ⟨writeBack, hvictim, h⟩ := bind_eq_some_iff.mp h
    obtain ⟨_, -, he⟩ := bind_eq_some_iff.mp h
    cases he
    exact victimWriteBack_type hvictim
  · cases hroom

theorem insertEntry_marks {id : TlbId}
    (h : s.insertEntry cfg id v ppn counter = some s') (hs : s.Sound cfg) : s.Marks cfg (fun _ => False) s' := by
  obtain ⟨⟨t, writeBack⟩, hins, h⟩ := bind_eq_some_iff.mp h
  obtain ⟨hwf, -, -⟩ := HotMonitorTlb.insert_spec (hs.tlbs id) hins
  have hset : (s.setTlb id t).Sound cfg := hs.setTlb hwf
  cases writeBack with
  | none =>
    cases h
    exact .of_dram hset rfl
  | some req =>
    have hthrough := writeThrough_marks h hset
    refine ⟨hthrough.sound, fun c => (hthrough.dirty c).trans ?_⟩
    have hno : ¬ req.type = .setdirty := by
      rw [insert_writeBack_type hins]
      exact fun h => nomatch h
    simp only [hno, false_and]
    rfl

/-- The physical page a walk leads to, with what a page fault on the way gets. -/
def walkedPpn (cfg : Config) (s : System) (core : Nat) (req : MemReq) : Address :=
  let ppn := ((s.translate (s.procOf core) req.lineAddr).map (Target.ppn cfg.z)).getD pageFaultSig
  if ppn = pageFaultSig then
    (((s.pagingAccess cfg (s.procOf core) req).bind fun r => (r.2.buddy.allocatePages 0 0).bind (·.1))).getD
      (req.lineAddr >>> cfg.z.pageShift)
  else ppn

theorem walkerAccess_marks {core : Nat} {req' : MemReq} {addr : Address}
    (h : s.walkerAccess cfg core req = some (addr, req', s')) (hs : s.Sound cfg) :
    addr = s.walkedPpn cfg core req ∧ s.Marks cfg
      (fun c => req.type = .setdirty ∧ s.translate (s.procOf core) req.lineAddr = some (.block c)) s' := by
  obtain ⟨⟨w, s1⟩, hr, h⟩ := bind_eq_some_iff.mp h
  have hm := pagingAccess_marks hr hs
  obtain ⟨-, -, hline, haddr⟩ := pagingAccess_spec hs.tables hr
  rw [walkedPpn, ← haddr, hr]
  dsimp only at h ⊢
  split at h
  · next hsig =>
    obtain ⟨⟨addr1, req2, s2⟩, hf, he⟩ := bind_eq_some_iff.mp h
    cases he
    obtain ⟨hs', hdram, hans⟩ := doPageFault_sound hf hm.sound
    rw [if_pos hsig, hans, hline]
    exact ⟨rfl, hm.trans (.of_dram hs' hdram)⟩
  · next hsig =>
    cases h
    rw [if_neg hsig]
    exact ⟨rfl, hm⟩

end Translations

section Migrations

variable {core b latency : Nat}

theorem writeBackMapping_sound (h : s.writeBackMapping cfg core b = some (s', latency))
    (hs : s.Sound cfg) : s'.Sound cfg := by
  unfold writeBackMapping at h
  dsimp only at h
  split at h
  · cases h
    exact hs
  · split at h
    · exact remapAll_sound h hs
    · obtain ⟨pagePtr, -, h⟩ := bind_eq_some_iff.mp h
      exact mapPage_sound h hs

theorem installMapping_sound {e : ExtendTlbEntry}
    (h : s.installMapping cfg core b e = some (s', latency)) (hs : s.Sound cfg) : s'.Sound cfg := by
  unfold installMapping at h
  split at h
  · exact remapAll_sound h hs
  · exact mapPage_sound h hs

theorem retire_pagingArray (cfg : Config) (s : System) (b : Nat) (flush : Flush) (req : MemReq) :
    (s.retire cfg b flush req).1.pagingArray = s.pagingArray := by
  unfold retire
  dsimp only
  split
  · split <;> rfl
  · rfl

theorem retire_sound (hs : s.Sound cfg) (b : Nat) (flush : Flush) (req : MemReq) :
    (s.retire cfg b flush req).1.Sound cfg ∧
      ∀ c, c ≠ b → (s.retire cfg b flush req).1.dram.bufferArray c = s.dram.bufferArray c := by
  obtain ⟨hq, hw, -, -⟩ := retire_spec hs.tables hs.tlbs b flush req
  refine ⟨⟨hq.tables, ?_, hw⟩, fun c hc => ?_⟩
  · rw [retire_pagingArray]
    exact hs.linked
  · unfold retire
    dsimp only
    split
    · split
      · exact update_of_ne hc _ _
      · rfl
    · rfl

/-- A migration fills one block and leaves the descriptors of the others alone. -/
theorem evictDRAMPage_sound {ref : EntryRef} {flush : Flush} {req req' : MemReq} {evicted : Bool}
    (h : s.evictDRAMPage cfg core b ref flush req = some (evicted, req', s')) (hs : s.Sound cfg) :
    s'.Sound cfg ∧ ∀ c, c ≠ b → s'.dram.bufferArray c = s.dram.bufferArray c := by
  obtain ⟨hs1, hkeep⟩ := retire_sound hs b flush req
  obtain ⟨req1, req2, s2, h2, rfl⟩ := evictDRAMPage_cases h
  generalize (s.retire cfg b flush req).1 = s1 at *
  obtain ⟨s3, l1, l2, hback, hinst⟩ := evictAndFetch_cases h2
  have hs3 := writeBackMapping_sound hback hs1
  have hs2 : s2.Sound cfg := installMapping_sound hinst { hs3 with }
  obtain ⟨htlbs, -, -⟩ :=
    tlbShootdownHscc_tlb cfg hs2.tlbs (s2.entry ref).vPageNo ((Target.block b).ppn cfg.z) true req2
  refine ⟨⟨hs2.tables, hs2.linked, htlbs⟩, fun c hc => ?_⟩
  rw [evictAndFetch_frame h2, ← hkeep c hc]
  exact update_of_ne hc _ _

end Migrations

end System

namespace Setup

theorem boot_sound {cfg : Config} (c : Setup cfg) : c.boot.Sound cfg where
  tables := c.boot_tablesOk
  linked _ := Paging.linked_new _ _
  tlbs := c.boot_tlbsOk

end Setup

end Shma.Walker
