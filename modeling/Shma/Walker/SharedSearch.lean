import Shma.Walker.SharedFault

/-!
# The search for a shared region

`map_shared_region` starts at the section of the last fault, `mmap_cached`, and goes on to
the sections after it or before it. Two things are left out. The end of a section is not
part of it, but a page equal to the end of the cached section is not searched for, though
the next section may begin there. And `SetPaging` leaves `mmap_cached` alone, whatever the
number of sections of the new process.
-/
namespace Shma.Walker

open PageTable Lib.Run

def InSections (z : Zinfo) (sections : List Section) (vaddr : Address) : Prop :=
  ∃ sec ∈ sections, findSharedVm z vaddr sec = true
  deriving Decidable

/-- Sections in ascending order and disjoint; one may begin where the one before it ends. -/
structure Ordered (sections : List Section) : Prop where
  start_le_end : ∀ sec ∈ sections, sec.start ≤ sec.end_
  apart : sections.Pairwise fun a b => a.end_ ≤ b.start

variable {z : Zinfo} {sections : List Section} {vaddr : Address} {c : Nat} {sec : Section}

theorem findSharedVm_iff : findSharedVm z vaddr sec = true ↔
    sec.start ≤ vaddr >>> z.pageShift ∧ vaddr >>> z.pageShift < sec.end_ := by
  rw [findSharedVm, Bool.and_eq_true, decide_eq_true_iff, decide_eq_true_iff]

variable {indices : List Nat} {i : Nat}

theorem searchShared_eq_some (h : searchShared z vaddr sections indices = some i) :
    i ∈ indices ∧ i < sections.length ∧ InSections z sections vaddr := by
  have hfound := List.find?_some h
  cases hi : sections[i]? with
  | none =>
    rw [hi] at hfound
    cases hfound
  | some sec =>
    rw [hi] at hfound
    exact ⟨List.mem_of_find?_eq_some h, (List.getElem?_eq_some_iff.mp hi).1, sec, List.mem_of_getElem? hi, hfound⟩

theorem searchShared_isSome (h : ∀ j sec, sections[j]? = some sec → findSharedVm z vaddr sec = true → j ∈ indices) :
    (searchShared z vaddr sections indices).isSome = decide (InSections z sections vaddr) := by
  cases hs : searchShared z vaddr sections indices with
  | some i => exact (decide_eq_true (searchShared_eq_some hs).2.2).symm
  | none =>
    refine (decide_eq_false ?_).symm
    rintro ⟨sec, hmem, hfound⟩
    obtain ⟨j, hj⟩ := List.getElem?_of_mem hmem
    have hno := List.find?_eq_none.mp hs j (h j sec hj hfound)
    rw [hj] at hno
    exact hno hfound

theorem Ordered.end_le_start (h : Ordered sections) {j : Nat} (hij : i < j) {a b : Section}
    (hi : sections[i]? = some a) (hj : sections[j]? = some b) : a.end_ ≤ b.start := by
  obtain ⟨hi', rfl⟩ := List.getElem?_eq_some_iff.mp hi
  obtain ⟨hj', rfl⟩ := List.getElem?_eq_some_iff.mp hj
  exact List.pairwise_iff_getElem.mp h.apart i j hi' hj' hij

section Order

variable (h : Ordered sections) (hc : sections[c]? = some sec)

include h hc

variable {j : Nat} {other : Section}

theorem Ordered.lt_of_end_le (hend : sec.end_ ≤ vaddr >>> z.pageShift)
    (hj : sections[j]? = some other) (hin : findSharedVm z vaddr other = true) : c < j := by
  have hin := (findSharedVm_iff.mp hin).2
  have hsec := h.start_le_end sec (List.mem_of_getElem? hc)
  rcases lt_trichotomy c j with hlt | rfl | hgt
  · exact hlt
  · obtain rfl := mem_unique hc hj
    exact absurd hin (Nat.not_lt.mpr hend)
  · have hle := h.end_le_start hgt hj hc
    exact absurd hin (Nat.not_lt.mpr ((hle.trans hsec).trans hend))

theorem Ordered.lt_of_lt_start (hstart : vaddr >>> z.pageShift < sec.start)
    (hj : sections[j]? = some other) (hin : findSharedVm z vaddr other = true) : j < c := by
  have hin := (findSharedVm_iff.mp hin).1
  have hsec := h.start_le_end sec (List.mem_of_getElem? hc)
  rcases lt_trichotomy j c with hlt | rfl | hgt
  · exact hlt
  · obtain rfl := mem_unique hc hj
    exact absurd hstart (Nat.not_lt.mpr hin)
  · have hle := h.end_le_start hgt hc hj
    exact absurd hstart (Nat.not_lt.mpr ((hsec.trans hle).trans hin))

end Order

theorem locateShared_index {r : Nat × Bool} (h : locateShared z sections c vaddr = some r) (hne : sections ≠ []) :
    c < sections.length ∧ r.1 < sections.length := by
  have hpos : 0 < sections.length := List.length_pos_of_ne_nil hne
  rw [locateShared, if_neg hne] at h
  obtain ⟨sec, hc, h⟩ := bind_eq_some_iff.mp h
  have hlt := (List.getElem?_eq_some_iff.mp hc).1
  refine ⟨hlt, ?_⟩
  dsimp only at h
  split at h
  · cases h
    exact hlt
  · split at h
    · split at h
      · next hs =>
        cases h
        exact (searchShared_eq_some hs).2.1
      · cases h
        exact Nat.sub_one_lt_of_lt hpos
    · split at h
      · split at h
        · next hs =>
          cases h
          exact (searchShared_eq_some hs).2.1
        · cases h
          exact hpos
      · cases h
        exact hlt

theorem loop_answer {p : Prop} [Decidable p] {last : Nat} {b : Bool}
    (hs : (searchShared z vaddr sections indices).isSome = b) (hskip : ¬p → b = false) :
    (if p then
        match searchShared z vaddr sections indices with
        | some i => some (i, true)
        | none => some (last, false)
      else some (c, false)).map (·.2) = some b := by
  rw [← hs]
  split
  · cases searchShared z vaddr sections indices <;> rfl
  · next hp => rw [hs, hskip hp]; rfl

/-- The answer of the search from section `c`. It misses the page exactly if this is the end of
section `c` and in another section. -/
theorem locateShared_answer (h : Ordered sections) (hc : sections[c]? = some sec) :
    (locateShared z sections c vaddr).map (·.2) =
      some (decide (InSections z sections vaddr ∧ vaddr >>> z.pageShift ≠ sec.end_)) := by
  have hmem := List.mem_of_getElem? hc
  have hsec := h.start_le_end sec hmem
  rw [locateShared, if_neg (List.ne_nil_of_mem hmem), hc]
  dsimp only [bind_eq_bind, bind_some]
  by_cases hin : findSharedVm z vaddr sec = true
  · have hlt := (findSharedVm_iff.mp hin).2
    rw [if_pos hin, decide_eq_true ⟨⟨sec, hmem, hin⟩, hlt.ne⟩]
    rfl
  rw [if_neg hin]
  rcases lt_trichotomy (vaddr >>> z.pageShift) sec.end_ with hlt | heq | hgt
  · -- the page is before the section
    have hstart : vaddr >>> z.pageShift < sec.start :=
      Nat.lt_of_not_le fun hle => hin (findSharedVm_iff.mpr ⟨hle, hlt⟩)
    have hsearch := searchShared_isSome fun j other hj hfound =>
      List.mem_reverse.mpr (mem_range.mpr (h.lt_of_lt_start hc hstart hj hfound))
    rw [if_neg fun hr => absurd hr.1 hlt.not_gt]
    simp only [hstart, true_and, hlt.ne, ne_eq, not_false_eq_true, and_true]
    refine loop_answer hsearch fun hzero => ?_
    rw [← hsearch, Nat.eq_zero_of_not_pos hzero]
    rfl
  · -- the page is the end of the section, and is not looked for
    rw [if_neg fun hr => absurd hr.1 heq.not_gt, if_neg fun hr => absurd (hr.1.trans_le hsec) heq.not_lt,
      decide_eq_false fun hr => hr.2 heq]
    rfl
  · -- the page is after the section
    have hsearch := searchShared_isSome fun j other hj hfound =>
      show j ∈ List.range' (c + 1) (sections.length - (c + 1)) by
        have hcj := h.lt_of_end_le hc hgt.le hj hfound
        have hjlen := (List.getElem?_eq_some_iff.mp hj).1
        exact mem_range'_1.mpr (by omega)
    have hback : ¬(vaddr >>> z.pageShift < sec.start) := Nat.not_lt.mpr (hsec.trans hgt.le)
    simp only [hgt, hback, true_and, false_and, if_false, hgt.ne', ne_eq, not_false_eq_true, and_true]
    refine loop_answer hsearch fun hlast => ?_
    rw [← hsearch, Nat.sub_eq_zero_of_le (Nat.le_of_not_lt hlast)]
    rfl

inductive WalkerOp where
  | mapSharedRegion (vaddr : Address)
  | setPaging (procId : Nat)
  deriving DecidableEq, Repr

namespace PageTableWalker

variable {regions : Nat → List Section} {w w' : PageTableWalker}

section

variable (z : Zinfo) (regions : Nat → List Section) (w : PageTableWalker)

def step : WalkerOp → Option PageTableWalker
  | .mapSharedRegion vaddr =>
    (locateShared z (regions w.procIdx) w.mmapCached vaddr).map fun r => { w with mmapCached := r.1 }
  | .setPaging procId => some { w with procIdx := procId }

/-- What a search should do: read a section that exists, and tell whether the page is in one. -/
def Right : WalkerOp → Prop
  | .mapSharedRegion vaddr =>
    (regions w.procIdx ≠ [] → w.mmapCached < (regions w.procIdx).length) ∧
      (locateShared z (regions w.procIdx) w.mmapCached vaddr).map (·.2) =
        some (decide (InSections z (regions w.procIdx) vaddr))
  | .setPaging _ => True

/-- The cached section exists, and the page is not the end of it and in another section. -/
def Reached : WalkerOp → Prop
  | .mapSharedRegion vaddr => regions w.procIdx ≠ [] → ∃ sec, (regions w.procIdx)[w.mmapCached]? = some sec ∧
      (vaddr >>> z.pageShift = sec.end_ → ¬InSections z (regions w.procIdx) vaddr)
  | .setPaging _ => True

end

section

variable (regions : Nat → List Section) (w : PageTableWalker)

def IndexOk : Prop :=
  regions w.procIdx ≠ [] → w.mmapCached < (regions w.procIdx).length

/-- A walker is switched to processes only that have the cached section. -/
def SwitchOk : WalkerOp → Prop
  | .mapSharedRegion _ => True
  | .setPaging procId => regions procId ≠ [] → w.mmapCached < (regions procId).length

end

theorem right_iff_reached (hord : ∀ p, Ordered (regions p)) (w : PageTableWalker) (op : WalkerOp) :
    Right z regions w op ↔ Reached z regions w op := by
  cases op with
  | setPaging p => exact Iff.rfl
  | mapSharedRegion vaddr =>
    by_cases hne : regions w.procIdx = []
    · refine iff_of_true ⟨absurd hne, ?_⟩ (absurd hne)
      rw [locateShared, hne]
      exact congrArg some (decide_eq_false fun ⟨_, h, _⟩ => nomatch h).symm
    · rw [Right, Reached]
      cases hc : (regions w.procIdx)[w.mmapCached]? with
      | none =>
        have hlen := List.getElem?_eq_none_iff.mp hc
        exact iff_of_false (fun h => absurd (h.1 hne) (Nat.not_lt.mpr hlen)) fun h => nomatch h hne
      | some sec =>
        have hlen := (List.getElem?_eq_some_iff.mp hc).1
        rw [locateShared_answer (hord w.procIdx) hc, some_inj, decide_eq_decide]
        refine ⟨fun h _ => ⟨sec, rfl, fun he hin => (h.2.mpr hin).2 he⟩, fun h => ⟨fun _ => hlen, ?_⟩⟩
        obtain ⟨_, hsec, hmiss⟩ := h hne
        cases hsec
        exact ⟨And.left, fun hin => ⟨hin, fun he => hmiss he hin⟩⟩

theorem step_indexOk {op : WalkerOp} (hop : SwitchOk regions w op)
    (hs : w.step z regions op = some w') : w'.IndexOk regions := by
  cases op with
  | mapSharedRegion vaddr =>
    obtain ⟨r, hr, rfl⟩ := map_eq_some_iff.mp hs
    exact fun hne => (locateShared_index hr hne).2
  | setPaging p =>
    cases hs
    exact hop

/-- Over any faults and switches of one walker, every search reads a section that exists and tells
whether the page is in one, exactly if at each fault the cached section exists and the page is not
the end of it and in another section. The index is always valid if the walker is only switched to
processes that have the cached section. -/
theorem searches_right_iff (z : Zinfo) (hord : ∀ p, Ordered (regions p)) (procIdx : Nat) (ops : List WalkerOp) :
    (AllSteps (step z regions) (Right z regions) ⟨procIdx, 0⟩ ops ↔
      AllSteps (step z regions) (Reached z regions) ⟨procIdx, 0⟩ ops) ∧
    (AllSteps (step z regions) (SwitchOk regions) ⟨procIdx, 0⟩ ops → ∀ w,
      run (step z regions) ⟨procIdx, 0⟩ ops = some w → w.IndexOk regions) := by
  have heq : Right z regions = Reached z regions := funext₂ fun w op => propext (right_iff_reached hord w op)
  refine ⟨by rw [heq], fun h w hr => ?_⟩
  exact run_invariant (step z regions) (fun _ _ _ _ hop hs => step_indexOk hop hs) ops
    (fun hne => List.length_pos_of_ne_nil hne) h hr

section Sample

def adjacentRegions (p : Nat) : List Section := if p = 0 then [⟨0, 2⟩, ⟨2, 4⟩] else [⟨0, 2⟩]

theorem adjacentRegions_ordered (p : Nat) : Ordered (adjacentRegions p) := by
  unfold adjacentRegions
  split
  all_goals exact ⟨by decide, by decide⟩

/-- Pages 0, 3 and 1 of process 0. -/
theorem searches_right_iff_inside : AllSteps (step ⟨12, 12, 2^40, 1⟩ adjacentRegions)
    (Right ⟨12, 12, 2^40, 1⟩ adjacentRegions) ⟨0, 0⟩
    [.mapSharedRegion 0, .mapSharedRegion (3 <<< 12), .mapSharedRegion (1 <<< 12)] := by
  refine (searches_right_iff ⟨12, 12, 2^40, 1⟩ adjacentRegions_ordered 0 _).1.mpr ?_
  refine ⟨fun _ => ⟨_, rfl, by decide⟩, fun w hw => ?_⟩
  cases hw
  refine ⟨fun _ => ⟨_, rfl, by decide⟩, fun w hw => ?_⟩
  cases hw
  exact ⟨fun _ => ⟨_, rfl, by decide⟩, fun _ _ => trivial⟩

/-- Page 2 begins the second section of process 0, but is the end of the cached one. After a fault
on page 3 the walker has the second section cached, which process 1 does not have. -/
theorem search_misses_next_section :
    locateShared ⟨12, 12, 2^40, 1⟩ (adjacentRegions 0) 0 (2 <<< 12) = some (0, false) ∧
    InSections ⟨12, 12, 2^40, 1⟩ (adjacentRegions 0) (2 <<< 12) ∧
    run (step ⟨12, 12, 2^40, 1⟩ adjacentRegions) ⟨0, 0⟩ [.mapSharedRegion (3 <<< 12), .setPaging 1] = some ⟨1, 1⟩ ∧
    ¬1 < (adjacentRegions 1).length ∧
    locateShared ⟨12, 12, 2^40, 1⟩ (adjacentRegions 1) 1 0 = none := by
  decide

end Sample

end PageTableWalker

namespace System

variable {cfg : Config} {s s' : System}

variable {page : Target}

theorem mapAllSharedMemory_frame {va : Address} {procs : List Nat} {latency : Nat}
    (h : mapAllSharedMemory cfg va page procs s = some (s', latency)) :
    s' = { s with pagingArray := s'.pagingArray } := by
  induction procs generalizing s latency with
  | nil =>
    cases h
    rfl
  | cons i procs ih =>
    obtain ⟨⟨s1, l1⟩, h1, h⟩ := bind_eq_some_iff.mp h
    obtain ⟨⟨s2, l2⟩, h2, he⟩ := map_eq_some_iff.mp h
    cases he
    obtain ⟨r, -, he⟩ := map_eq_some_iff.mp h1
    cases he
    have hframe := ih h2
    exact hframe

/-- In the system, a fault and a switch of a core are the calls on its walker. -/
theorem mapSharedRegion_walker {core : Nat} {req req' : MemReq} {found : Bool}
    (h : s.mapSharedRegion cfg core req page = some (found, req', s')) :
    (locateShared cfg.z (cfg.sharedRegion (s.walker core).procIdx) (s.walker core).mmapCached req.lineAddr).map
        (·.2) = some found ∧
      (s.walker core).step cfg.z cfg.sharedRegion (.mapSharedRegion req.lineAddr) = some (s'.walker core) := by
  obtain ⟨⟨mmapCached, found'⟩, hlocate, h⟩ := bind_eq_some_iff.mp h
  rw [PageTableWalker.step, hlocate]
  cases found' with
  | true =>
    obtain ⟨⟨s2, overhead⟩, hall, he⟩ := bind_eq_some_iff.mp h
    cases he
    rw [mapAllSharedMemory_frame hall]
    exact ⟨rfl, congrArg some (update_self core _ s.walker).symm⟩
  | false =>
    cases h
    exact ⟨rfl, congrArg some (update_self core _ s.walker).symm⟩

theorem setCid_walker (core proc : Nat) :
    (s.walker core).step cfg.z cfg.sharedRegion (.setPaging proc) = some ((s.setCid core proc).walker core) :=
  congrArg some (update_self core _ s.walker).symm

/-- The new frame is mapped in all processes if the page that faulted is in a section of its
process, and in that process alone if not, as long as the cached section exists and the page is not
the end of it and in another one. -/
theorem mapNew_translate (hord : ∀ p, Ordered (cfg.sharedRegion p)) (hshared : cfg.enableSharedMemory = true)
    (ht : s.TablesOk cfg) {core : Nat} {req req' : MemReq}
    (hreached : (s.walker core).Reached cfg.z cfg.sharedRegion (.mapSharedRegion req.lineAddr))
    (h : s.mapNew cfg core req page = some (req', s')) (q : Nat) (a : Address) : s'.translate q a =
      if q ∈ (if InSections cfg.z (cfg.sharedRegion (s.procOf core)) req.lineAddr then List.range cfg.numProcs
        else [s.procOf core]) ∧ slotOf a cfg.mode = slotOf req.lineAddr cfg.mode then some page
      else s.translate q a := by
  have hright := ((PageTableWalker.right_iff_reached hord _ _).mpr hreached).2
  rw [mapNew, if_pos hshared] at h
  obtain ⟨⟨shared, req1, s1⟩, hregion, h⟩ := bind_eq_some_iff.mp h
  obtain ⟨⟨mmapCached, found⟩, hlocate, hregion⟩ := bind_eq_some_iff.mp hregion
  rw [hlocate] at hright
  have hfound : found = decide (InSections cfg.z (cfg.sharedRegion (s.procOf core)) req.lineAddr) :=
    some_inj.mp hright
  cases found with
  | true =>
    obtain ⟨⟨s2, overhead⟩, hall, he⟩ := bind_eq_some_iff.mp hregion
    cases he
    cases h
    rw [if_pos (of_decide_eq_true hfound.symm)]
    exact mapAllSharedMemory_spec hall ht q a
  | false =>
    cases hregion
    obtain ⟨⟨s2, l⟩, hm, he⟩ := map_eq_some_iff.mp h
    cases he
    rw [if_neg (of_decide_eq_false hfound.symm), (mapPage_spec hm ht).2.1 q a]
    simp only [procOf, update_self, mem_singleton]
    rfl

/-- Page 0 is in a section of process 0. -/
theorem mapNew_translate_boot : ∃ req' s', sharedSetup.boot.mapNew sharedConfig 0 readZero (.page 7) = some (req', s') ∧
    s'.translate 1 0 = some (.page 7) := by
  have hsome : (sharedSetup.boot.mapNew sharedConfig 0 readZero (.page 7)).isSome := by decide
  obtain ⟨⟨req', s'⟩, hr⟩ := isSome_iff_exists.mp hsome
  have hord : ∀ p, Ordered (sharedConfig.sharedRegion p) := by
    intro p
    by_cases hp : p = 0
    all_goals exact ⟨by simp [sharedConfig, hp], by simp [sharedConfig, hp]⟩
  exact ⟨req', s', hr, mapNew_translate hord rfl sharedSetup.boot_tablesOk (fun _ => ⟨_, rfl, by decide⟩) hr 1 0⟩

end System

end Shma.Walker
