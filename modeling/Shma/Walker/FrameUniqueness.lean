import Shma.Walker.Boot

/-!
# The frames page faults return

A sequence of page faults without shared memory, on a node whose only zone is the
normal one. As long as the buddy allocator returns frames the faults return distinct
ones. Once it does not, `do_page_fault` returns the virtual page number instead. The
allocator stops when the frames left are a multiple of `2^43`, as its largest list
then passes for empty.
-/
namespace Shma.Walker

open PageTable Mmu Lib.Run

structure FaultLog where
  sys : System
  returned : List Address

variable (cfg : Config) (l : FaultLog) {as : List (Nat × MemReq)} {t : FaultLog}

def FaultLog.step (a : Nat × MemReq) : Option FaultLog :=
  (l.sys.walkerAccess cfg a.1 a.2).map fun r => ⟨r.2.2, r.1 :: l.returned⟩

def FaultLog.Faults (a : Nat × MemReq) : Prop :=
  l.sys.translate (l.sys.procOf a.1) a.2.lineAddr = none
  deriving Decidable

def vpnOf (a : Nat × MemReq) : Nat := a.2.lineAddr >>> cfg.z.pageShift

/-- After the faults `hist`: the first `n % 2^43` of them have returned frames, the others
their virtual page numbers. -/
def FaultLog.Inv (n : Nat) (hist : List (Nat × MemReq)) (l : FaultLog) : Prop :=
  l.sys.TablesOk cfg ∧ l.sys.buddy.SparseLists ∧ ∃ frames, l.sys.buddy.Supplies n frames ∧
    frames.length = min hist.length (n % 2^43) ∧
    l.returned = ((hist.drop (n % 2^43)).map (vpnOf cfg)).reverse ++ frames

variable {cfg : Config} {n : Nat}

theorem FaultLog.step_inv (hshared : cfg.enableSharedMemory = false) (hn : n < 2^64)
    {hist : List (Nat × MemReq)} {l l' : FaultLog} {a : Nat × MemReq} (hi : l.Inv cfg n hist)
    (hf : l.Faults a) (h : l.step cfg a = some l') : l'.Inv cfg n (hist ++ [a]) := by
  obtain ⟨ht, hsparse, frames, hsup, hlen, hret⟩ := hi
  obtain ⟨⟨addr, req, s'⟩, hw, rfl⟩ := map_eq_some_iff.mp h
  rcases System.walkerAccess_cases ht hw with ⟨_, _, tg, htr, _⟩ | ⟨w, s1, req2, hpag, _, hfault⟩
  · rw [FaultLog.Faults, htr] at hf
    cases hf
  obtain ⟨hq, _, hline, _⟩ := System.pagingAccess_spec ht hpag
  have hsup1 := hq.supplies hsup
  have hsparse1 : s1.buddy.SparseLists := fun z hz => hsparse z ((congrFun hq.nodeZones .normal).symm.trans hz)
  have hstop := hsup1.not_hasFree_iff hn hsparse1
  rcases System.doPageFault_cases hshared hq.tables hfault with ⟨buddy, hb, haddr, rfl⟩ | hnew
  · -- no frame is left
    rcases hsup1.allocate hn with ⟨hfree, b', hb', hsup'⟩ | ⟨_, p, b', hb', _⟩
    · obtain rfl : buddy = b' := (Prod.mk.inj (mem_unique hb hb')).2
      have hfull := hstop.mp hfree
      refine ⟨hq.tables, hsup1.allocate_sparse hsparse1 hb, frames, hsup', by rw [length_append]; omega, ?_⟩
      rw [hret, haddr, hline, List.drop_append_of_le_length (by omega), map_append, List.reverse_append]
      rfl
    · cases hb.symm.trans hb'
  · rcases hsup1.allocate hn with ⟨_, b', hb', _⟩ | ⟨hfree, p, b', hb', hsup'⟩
    · cases hnew.buddy.symm.trans hb'
    · cases hnew.buddy.symm.trans hb'
      have hleft : ¬ (n - frames.length) % 2^43 = 0 := fun hzero => hstop.mpr hzero hfree
      refine ⟨hnew.tables, hsup1.allocate_sparse hsparse1 hb', addr :: frames, hsup', ?_, ?_⟩
      · rw [length_cons, length_append, length_singleton]; omega
      · rw [hret, List.drop_eq_nil_of_le (by omega), List.drop_eq_nil_of_le (by
          rw [length_append, length_singleton]; omega)]
        rfl

theorem FaultLog.run_inv (hshared : cfg.enableSharedMemory = false) (hn : n < 2^64) {s : System}
    (ht : s.TablesOk cfg) (hsparse : s.buddy.SparseLists) (hsup : s.buddy.Supplies n [])
    (hf : AllSteps (FaultLog.step cfg) FaultLog.Faults ⟨s, []⟩ as)
    (hr : run (FaultLog.step cfg) ⟨s, []⟩ as = some t) : t.Inv cfg n as := by
  let may : List (Nat × MemReq) → Nat × MemReq → Prop := fun _ _ => True
  have hstep : ∀ hist l a l', FaultLog.Inv cfg n hist l → FaultLog.Faults l a →
      FaultLog.step cfg l a = some l' → FaultLog.Inv cfg n (hist ++ [a]) l' ∧ may hist a :=
    fun _ _ _ _ hi hf h => ⟨FaultLog.step_inv hshared hn hi hf h, trivial⟩
  have h0 : FaultLog.Inv cfg n [] ⟨s, []⟩ := ⟨ht, hsparse, [], hsup, (Nat.zero_min _).symm, by simp⟩
  exact (run_history_of_some (FaultLog.step cfg) hstep as h0 hf hr).1

theorem returned_unique_of_le {N : Nat} (hi : t.Inv cfg (N - N % 2) as)
    (hle : as.length ≤ (N - N % 2) % 2^43) :
    t.returned.Nodup ∧ ∀ x ∈ t.returned, x < N := by
  obtain ⟨_, _, frames, hsup, _, hret⟩ := hi
  rw [List.drop_eq_nil_of_le hle] at hret
  obtain rfl : t.returned = frames := hret
  exact ⟨hsup.nodup, fun x hx => Nat.lt_of_lt_of_le (hsup.lt_of_mem hx) (Nat.sub_le _ _)⟩

/-- What the faults after the first `n` may return for all results to be distinct frames
below `N`: at most one more, and that the frame the allocator never hands out. -/
theorem returned_unique_iff {N : Nat} (hN : N < 2^43) (hi : t.Inv cfg (N - N % 2) as) :
    (t.returned.Nodup ∧ ∀ x ∈ t.returned, x < N) ↔ as.length ≤ N - N % 2 ∨
      N % 2 = 1 ∧ as.length = N ∧ ∃ a, as.getLast? = some a ∧ vpnOf cfg a = N - 1 := by
  have hcap : (N - N % 2) % 2^43 = N - N % 2 := mod_eq_of_lt (by omega)
  by_cases hle : as.length ≤ N - N % 2
  · exact iff_of_true (returned_unique_of_le hi (hcap.symm ▸ hle)) (.inl hle)
  obtain ⟨_, _, frames, hsup, hlen, hret⟩ := hi
  rw [hcap] at hlen hret
  rw [Nat.min_eq_right (by omega)] at hlen
  rw [hret, or_iff_right hle, List.nodup_append', List.nodup_reverse]
  constructor
  · rintro ⟨⟨hnodup, _, hdisj⟩, hlt⟩
    -- every later result is the one page number below N that is not a frame
    have hlast : ∀ a ∈ as.drop (N - N % 2), N % 2 = 1 ∧ vpnOf cfg a = N - 1 := by
      intro a ha
      have hmem : vpnOf cfg a ∈ ((as.drop (N - N % 2)).map (vpnOf cfg)).reverse :=
        List.mem_reverse.mpr (List.mem_map_of_mem ha)
      have hltN : vpnOf cfg a < N := hlt _ (mem_append_left _ hmem)
      have hge : ¬ vpnOf cfg a < N - N % 2 := fun h => hdisj hmem (hsup.mem_of_full hlen h)
      omega
    have hone : (as.drop (N - N % 2)).length ≤ 1 := by
      have hsub : (as.drop (N - N % 2)).map (vpnOf cfg) ⊆ [N - 1] := by
        intro x hx
        obtain ⟨a, ha, rfl⟩ := mem_map.mp hx
        exact mem_singleton.mpr (hlast a ha).2
      have hsubperm := (List.Nodup.subperm hnodup hsub).length_le
      rwa [List.length_map] at hsubperm
    rw [List.length_drop] at hone
    have hne : as.drop (N - N % 2) ≠ [] := List.ne_nil_of_length_pos (by rw [List.length_drop]; omega)
    have hget := List.getLast?_eq_some_getLast hne
    rw [List.getLast?_drop, if_neg hle] at hget
    obtain ⟨hodd, hvpn⟩ := hlast _ (List.getLast_mem hne)
    exact ⟨hodd, by omega, _, hget, hvpn⟩
  · rintro ⟨hodd, hlenN, a, ha, hvpn⟩
    obtain ⟨init, rfl⟩ := List.getLast?_eq_some_iff.mp ha
    rw [length_append, length_singleton] at hlenN
    have hdrop : (init ++ [a]).drop (N - N % 2) = [a] := by
      rw [List.drop_append_of_le_length (by omega), List.drop_eq_nil_of_le (by omega), List.nil_append]
    rw [hdrop, List.map_singleton, hvpn]
    refine ⟨⟨List.nodup_singleton _, hsup.nodup, ?_⟩, ?_⟩
    · intro x hx hmem
      obtain rfl := mem_singleton.mp hx
      have hlt : N - 1 < N - N % 2 := hsup.lt_of_mem hmem
      omega
    · intro x hx
      rcases mem_append.mp hx with hx | hx
      · obtain rfl := mem_singleton.mp hx
        show N - 1 < N
        omega
      · exact Nat.lt_of_lt_of_le (hsup.lt_of_mem hx) (Nat.sub_le _ _)

/-- The page numbers returned are distinct frames of the zone as long as the allocator
returns frames, which are all of them, an odd last one excepted, modulo `2^43`. In a zone
of fewer than `2^43` frames that is exact, but for one fault more that happens to be on the
page whose number is that of the odd last frame. -/
theorem faults_return_frames_iff (c : Setup cfg) (hsole : c.SoleNormal) (hN : c.pfns .normal < 2^64)
    (hshared : cfg.enableSharedMemory = false) {as : List (Nat × MemReq)} {t : FaultLog}
    (hf : AllSteps (FaultLog.step cfg) FaultLog.Faults ⟨c.boot, []⟩ as)
    (hr : run (FaultLog.step cfg) ⟨c.boot, []⟩ as = some t) :
    (as.length ≤ (c.pfns .normal - c.pfns .normal % 2) % 2^43 →
      t.returned.Nodup ∧ ∀ x ∈ t.returned, x < c.pfns .normal) ∧
    (c.pfns .normal < 2^43 →
      ((t.returned.Nodup ∧ ∀ x ∈ t.returned, x < c.pfns .normal) ↔
        as.length ≤ c.pfns .normal - c.pfns .normal % 2 ∨
        c.pfns .normal % 2 = 1 ∧ as.length = c.pfns .normal ∧
          ∃ a, as.getLast? = some a ∧ vpnOf cfg a = c.pfns .normal - 1)) := by
  have hsup := c.boot_supplies hsole.noHighMem
  rw [hsole.normalEnd_eq] at hsup
  have hi := FaultLog.run_inv hshared (by omega) c.boot_tablesOk c.boot_sparseLists hsup hf hr
  exact ⟨returned_unique_of_le hi, fun hlt => returned_unique_iff hlt hi⟩

section Sample

def twoFrames : Setup (sampleConfig .longModeNormal 1 1) :=
  sampleSetup _ 2 0 (by decide) (by decide) (by decide)

def readPage (vpn : Address) : Nat × MemReq := (0, ⟨vpn <<< 12, .gets, 0, 0⟩)

theorem faults_return_frames_iff_two : ∃ t,
    run (FaultLog.step (sampleConfig .longModeNormal 1 1)) ⟨twoFrames.boot, []⟩ [readPage 5, readPage 6] = some t ∧
      t.returned.Nodup ∧ ∀ x ∈ t.returned, x < 2 := by
  have hsome : (run (FaultLog.step (sampleConfig .longModeNormal 1 1)) ⟨twoFrames.boot, []⟩
      [readPage 5, readPage 6]).isSome := by decide
  obtain ⟨t, hr⟩ := isSome_iff_exists.mp hsome
  have happly := faults_return_frames_iff twoFrames sampleSetup_soleNormal (by decide) rfl (by decide) hr
  exact ⟨t, hr, (happly.2 (by decide)).mpr (.inl (by decide))⟩

/-- The third fault finds no frame and returns its virtual page number 0, a frame that is
already in use. -/
theorem third_fault_returns_frame_in_use :
    AllSteps (FaultLog.step (sampleConfig .longModeNormal 1 1)) FaultLog.Faults ⟨twoFrames.boot, []⟩
      [readPage 5, readPage 6, readPage 0] ∧
    ∃ t, run (FaultLog.step (sampleConfig .longModeNormal 1 1)) ⟨twoFrames.boot, []⟩
      [readPage 5, readPage 6, readPage 0] = some t ∧ t.returned = [0, 1, 0] ∧ ¬ t.returned.Nodup := by
  refine ⟨by decide, ?_⟩
  have hret : (run (FaultLog.step (sampleConfig .longModeNormal 1 1)) ⟨twoFrames.boot, []⟩
      [readPage 5, readPage 6, readPage 0]).map FaultLog.returned = some [0, 1, 0] := by decide
  obtain ⟨t, hr, ht⟩ := map_eq_some_iff.mp hret
  exact ⟨t, hr, ht, by rw [ht]; decide⟩

end Sample

end Shma.Walker
