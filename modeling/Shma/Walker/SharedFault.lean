import Shma.Walker.Boot

/-!
# Page faults with shared memory

A fault on an address in a shared section of the faulting process maps the new
frame in the tables of all processes, whatever these map there already. Whether
the address is shared is asked of the faulting process only.
-/
namespace Shma.Walker

open PageTable Mmu

namespace System

variable {cfg : Config} {s s' : System}

theorem mapAllSharedMemory_spec {va : Address} {page : Target} {procs : List Nat} {latency : Nat}
    (h : mapAllSharedMemory cfg va page procs s = some (s', latency)) (ht : s.TablesOk cfg) :
    ∀ q a, s'.translate q a =
      if q ∈ procs ∧ slotOf a cfg.mode = slotOf va cfg.mode then some page else s.translate q a := by
  induction procs generalizing s latency with
  | nil =>
    cases h
    intro q a
    rw [if_neg (fun h => not_mem_nil h.1)]
  | cons i procs ih =>
    obtain ⟨⟨s1, l1⟩, h1, h⟩ := bind_eq_some_iff.mp h
    obtain ⟨⟨s2, l2⟩, h2, he⟩ := map_eq_some_iff.mp h
    cases he
    obtain ⟨ht1, htr1, _⟩ := mapPage_spec h1 ht
    intro q a
    rw [ih h2 ht1 q a, htr1 q a]
    by_cases hslot : slotOf a cfg.mode = slotOf va cfg.mode
    · by_cases hq : q ∈ procs <;> by_cases hqi : q = i <;> simp [hslot, hq, hqi]
    · simp [hslot]

/-- The search finds the address in a shared section of the core's process. -/
def InSharedSection (cfg : Config) (s : System) (core : Nat) (addr : Address) : Prop :=
  ∃ i, locateShared cfg.z (cfg.sharedRegion (s.procOf core)) (s.walker core).mmapCached addr = some (i, true)

theorem mapNew_shared {core : Nat} {req req' : MemReq} {page : Target} (hshared : cfg.enableSharedMemory = true)
    (h : s.mapNew cfg core req page = some (req', s')) (ht : s.TablesOk cfg) :
    (s.InSharedSection cfg core req.lineAddr ∧ ∀ q a, s'.translate q a =
      if q < cfg.numProcs ∧ slotOf a cfg.mode = slotOf req.lineAddr cfg.mode then some page else s.translate q a) ∨
    (¬ s.InSharedSection cfg core req.lineAddr ∧ ∀ q, q ≠ s.procOf core → ∀ a, s'.translate q a = s.translate q a) := by
  rw [mapNew, if_pos hshared] at h
  obtain ⟨⟨shared, req1, s1⟩, hregion, h⟩ := bind_eq_some_iff.mp h
  obtain ⟨⟨mmapCached, found⟩, hlocate, hregion⟩ := bind_eq_some_iff.mp hregion
  cases found with
  | true =>
    obtain ⟨⟨s2, overhead⟩, hall, he⟩ := bind_eq_some_iff.mp hregion
    cases he
    cases h
    refine .inl ⟨⟨mmapCached, hlocate⟩, fun q a => ?_⟩
    simp only [mapAllSharedMemory_spec hall ht q a, mem_range]
    rfl
  | false =>
    cases hregion
    obtain ⟨⟨s2, l⟩, hm, he⟩ := map_eq_some_iff.mp h
    cases he
    obtain ⟨_, htr, _⟩ := mapPage_spec hm ht
    refine .inr ⟨?_, fun q hq a => ?_⟩
    · intro hin
      obtain ⟨i, hi⟩ := hin
      cases hlocate.symm.trans hi
    · rw [htr q a]
      refine if_neg fun h => hq (h.1.trans ?_)
      simp [procOf]

/-- A fault of one process leaves what the others had mapped alone exactly if there was no
frame to map, or the address is in no shared section of the process, or no other process
had mapped it. -/
theorem doPageFault_keeps_others_iff (hshared : cfg.enableSharedMemory = true) (ht : s.TablesOk cfg) {n : Nat}
    (hn : n < 2^64) {frames : List Address} (hsup : s.buddy.Supplies n frames)
    (hmapped : ∀ q a f, s.translate q a = some (.page f) → f ∈ frames) {core : Nat} {req req' : MemReq}
    {addr : Address} (h : s.doPageFault cfg core req = some (addr, req', s')) :
    (∀ q < cfg.numProcs, q ≠ s.procOf core → ∀ a tg, s.translate q a = some tg → s'.translate q a = some tg) ↔
      ¬ s.buddy.HasFree ∨ ¬ s.InSharedSection cfg core req.lineAddr ∨
      ∀ q < cfg.numProcs, q ≠ s.procOf core → s.translate q req.lineAddr = none := by
  obtain ⟨⟨page, buddy⟩, hb, h⟩ := bind_eq_some_iff.mp h
  rcases hsup.allocate hn with ⟨hfree, b', hb', _⟩ | ⟨hfree, f, b', hb', hsup'⟩
  · cases hb.symm.trans hb'
    cases h
    exact iff_of_true (fun q _ _ a tg htg => htg) (.inl hfree)
  · cases hb.symm.trans hb'
    obtain ⟨⟨req1, s1⟩, hmap, he⟩ := map_eq_some_iff.mp h
    cases he
    have hfresh : addr ∉ frames := (nodup_cons.mp hsup'.nodup).1
    rw [or_iff_right (not_not_intro hfree)]
    rcases mapNew_shared hshared hmap ht with ⟨hin, htr⟩ | ⟨hout, htr⟩
    · have hin : s.InSharedSection cfg core req.lineAddr := hin
      rw [or_iff_right (not_not_intro hin)]
      constructor
      · intro hkeep q hq hne
        by_contra hsome
        obtain ⟨tg, htg⟩ := ne_none_iff_exists'.mp hsome
        have hnew := (hkeep q hq hne _ tg htg).symm.trans (htr q req.lineAddr)
        rw [if_pos ⟨hq, rfl⟩] at hnew
        cases hnew
        exact hfresh (hmapped q _ _ htg)
      · intro hnone q hq hne a tg htg
        rw [htr q a, if_neg ?_]
        · exact htg
        · intro hslot
          rw [ht.translate_congr hslot.2, hnone q hq hne] at htg
          cases htg
    · exact iff_of_true (fun q _ hne a tg htg => (htr q hne a).trans htg) (.inl hout)

section Sample

/-- Two processes; page 0 is in a shared section of process 0 only. -/
def sharedConfig : Config :=
  { sampleConfig .longModeNormal 2 2 with
    enableSharedMemory := true
    sharedRegion := fun p => if p = 0 then [⟨0, 1⟩] else [] }

def sharedSetup : Setup sharedConfig := sampleSetup _ 4 0 isSome_normalOnly_four (by decide) (by decide)

def readZero : MemReq := ⟨0, .gets, 0, 0⟩

theorem doPageFault_keeps_others_iff_boot : ∃ r, sharedSetup.boot.doPageFault sharedConfig 0 readZero = some r ∧
    ∀ q < 2, q ≠ 0 → ∀ a tg, sharedSetup.boot.translate q a = some tg → r.2.2.translate q a = some tg := by
  have hsome : (sharedSetup.boot.doPageFault sharedConfig 0 readZero).isSome := by decide
  obtain ⟨⟨addr, req', s'⟩, hr⟩ := isSome_iff_exists.mp hsome
  have hsup : sharedSetup.boot.buddy.Supplies 4 [] := sharedSetup.boot_supplies sampleSetup_soleNormal.noHighMem
  refine ⟨(addr, req', s'), hr, (doPageFault_keeps_others_iff rfl sharedSetup.boot_tablesOk (by decide) hsup ?_ hr).mpr
    (.inr (.inr fun q _ _ => sharedSetup.boot_translate q _))⟩
  intro q a f htr
  cases htr

/-- Process 1 has mapped its private page 0 to frame 0; the fault of process 0 on its own
page 0 maps that page of process 1 to frame 1. -/
theorem shared_fault_moves_private_page : ∃ r r',
    sharedSetup.boot.doPageFault sharedConfig 1 readZero = some r ∧ r.2.2.translate 1 0 = some (.page 0) ∧
    r.2.2.doPageFault sharedConfig 0 readZero = some r' ∧ r'.2.2.translate 1 0 = some (.page 1) := by
  have hfirst : (sharedSetup.boot.doPageFault sharedConfig 1 readZero).map (fun r => r.2.2.translate 1 0) =
      some (some (.page 0)) := by decide
  obtain ⟨r, hr, htr⟩ := map_eq_some_iff.mp hfirst
  have hsecond : ((sharedSetup.boot.doPageFault sharedConfig 1 readZero).bind fun r =>
      (r.2.2.doPageFault sharedConfig 0 readZero).map fun r' => r'.2.2.translate 1 0) =
      some (some (.page 1)) := by decide
  rw [hr] at hsecond
  obtain ⟨r', hr', htr'⟩ := map_eq_some_iff.mp hsecond
  exact ⟨r, r', hr, htr, hr', htr'⟩

end Sample

end System

end Shma.Walker
