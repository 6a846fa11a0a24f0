import Shma.Walker.Boot
import Shma.Walker.Migration

/-!
# Migrations and the TLBs of other processes

`evict_DRAM_page` sends its shootdowns to the TLBs of all cores, by virtual page
number and without an address space. What the TLBs of cores that run other
processes hold stays as it is only if they do not use the two page numbers.
-/
namespace Shma.Walker

open PageTable Tlb Lib.Run

namespace System

variable {cfg : Config} {s s' : System}

theorem map_const_eq_iff {α : Type*} {o : Option α} {x : α} : (o.map fun _ => x) = o ↔ o = none ∨ o = some x := by
  cases o with
  | none => simp
  | some y => simp [eq_comm]

/-- A migration leaves the translations held by the TLBs of the other processes alone
exactly if none of these holds the page number that is cached, nor the one that is
retired, with another place. -/
theorem evictDRAMPage_isolated_iff (ht : s.TablesOk cfg) (hw : s.TlbsOk) {core b : Nat} {ref : EntryRef}
    {flush : Flush} {req req' : MemReq} {evicted : Bool}
    (h : s.evictDRAMPage cfg core b ref flush req = some (evicted, req', s')) :
    (∀ id, id.1 < cfg.numCores → s.procOf id.1 ≠ s.procOf core → ∀ v, (s'.tlb id).view v = (s.tlb id).view v) ↔
    ∀ id, id.1 < cfg.numCores → s.procOf id.1 ≠ s.procOf core →
      ((s.tlb id).view (s.entry ref).vPageNo = none ∨
        (s.tlb id).view (s.entry ref).vPageNo = some ((Target.block b).ppn cfg.z, true)) ∧
      ((s.dram.bufferArray b).isOccupied → (s.dram.bufferArray b).vaddr ≠ (s.entry ref).vPageNo →
        (s.tlb id).view (s.dram.bufferArray b).vaddr = none ∨
        (s.tlb id).view (s.dram.bufferArray b).vaddr = some ((s.dram.bufferArray b).originalAddr, false)) := by
  obtain ⟨_, hview⟩ := evictDRAMPage_tlb ht hw h
  refine forall_congr' fun id => forall_congr' fun hid => forall_congr' fun _ => ?_
  constructor
  · intro hkeep
    refine ⟨?_, fun hocc hne => ?_⟩
    · have hv := (hview id (s.entry ref).vPageNo).symm.trans (hkeep _)
      rw [if_pos ⟨hid, rfl⟩] at hv
      exact map_const_eq_iff.mp hv
    · have hv := (hview id (s.dram.bufferArray b).vaddr).symm.trans (hkeep _)
      rw [if_neg fun h => hne h.2, if_pos ⟨hocc, hid, rfl⟩] at hv
      exact map_const_eq_iff.mp hv
  · rintro ⟨hnew, hold⟩ v
    rw [hview id v]
    split
    · next hv =>
      rw [hv.2]
      exact map_const_eq_iff.mpr hnew
    · next hv =>
      split
      · next hocc =>
        rw [hocc.2.2]
        exact map_const_eq_iff.mpr (hold hocc.1 fun he => hv ⟨hid, hocc.2.2.trans he⟩)
      · rfl

section Sample

def pairConfig : Config := sampleConfig .longModeNormal 2 2

def pairSetup : Setup pairConfig := sampleSetup _ 4 (2 <<< 12) isSome_normalOnly_four (by decide) (by decide)

def load (core : Nat) (vpn : Address) : Action := .access core .data ⟨vpn <<< 12, .gets, 0, 0⟩

/-- Process 0 uses page 5 and process 1 page 6, so that caching page 5 leaves the TLB of
process 1 alone. -/
theorem evictDRAMPage_isolated_iff_pages : ∃ s r,
    run (System.step pairConfig) pairSetup.boot [load 0 5, load 1 6] = some s ∧
    (s.tlb (1, .data)).view 6 = some (1, false) ∧
    s.evictDRAMPage pairConfig 0 0 ⟨(0, .data), 0⟩ ⟨0, 0, 0⟩ ⟨0, .gets, 0, 0⟩ = some r ∧
    ∀ id, id.1 < 2 → s.procOf id.1 ≠ s.procOf 0 → ∀ v, (r.2.2.tlb id).view v = (s.tlb id).view v := by
  have hrun : ∃ s, run (System.step pairConfig) pairSetup.boot [load 0 5, load 1 6] = some s ∧
      (s.tlb (1, .data)).view 6 = some (1, false) ∧ (s.entry ⟨(0, .data), 0⟩).vPageNo = 5 ∧
      (s.tlb (1, .data)).view 5 = none ∧ (s.tlb (1, .ins)).view 5 = none ∧
      (s.dram.bufferArray 0).isOccupied = false ∧ s.procOf 0 = 0 ∧
      (s.evictDRAMPage pairConfig 0 0 ⟨(0, .data), 0⟩ ⟨0, 0, 0⟩ ⟨0, .gets, 0, 0⟩).isSome := by decide
  obtain ⟨s, hs, hview, hvpn, hdata, hins, hfree, hproc, hsome⟩ := hrun
  obtain ⟨⟨evicted, req', s'⟩, hr⟩ := isSome_iff_exists.mp hsome
  have hok : s.TablesOk pairConfig ∧ s.TlbsOk := by
    obtain ⟨s1, h1, hs⟩ := (run_cons_eq_some _).mp hs
    obtain ⟨s2, h2, hs⟩ := (run_cons_eq_some _).mp hs
    cases hs
    obtain ⟨_, _, _, h1⟩ := step_access h1
    obtain ⟨_, _, _, h2⟩ := step_access h2
    obtain ⟨ht1, hw1⟩ := tlbAccess_ok rfl pairSetup.boot_tablesOk pairSetup.boot_tlbsOk h1
    exact tlbAccess_ok rfl ht1 hw1 h2
  refine ⟨s, (evicted, req', s'), hs, hview, hr, (evictDRAMPage_isolated_iff hok.1 hok.2 hr).mpr ?_⟩
  rintro ⟨core, side⟩ hcore hne
  have hone : core = 1 := by
    have hlt : core < 2 := hcore
    have hzero : core ≠ 0 := fun h => hne (by rw [h])
    omega
  subst hone
  rw [hvpn, hfree]
  refine ⟨.inl ?_, fun h => by cases h⟩
  cases side with
  | ins => exact hins
  | data => exact hdata

/-- Both processes use page 0. Caching the page of process 0 gives the TLB entry of
process 1 the DRAM page of process 0, while the table of process 1 still has frame 1. -/
theorem migration_redirects_other_process :
    ∃ s, run (System.step pairConfig) pairSetup.boot [load 0 0, load 1 0] = some s ∧
    ∃ s', s.step pairConfig (.memory 0 0 false 1 0 ⟨0, 0, 0⟩) = some s' ∧ s.procOf 1 ≠ s.procOf 0 ∧
      (s.tlb (1, .data)).view 0 = some (1, false) ∧ (s'.tlb (1, .data)).view 0 = some (2^28, true) ∧
      s'.translate 1 0 = some (.page 1) := by
  decide

end Sample

end System

end Shma.Walker
