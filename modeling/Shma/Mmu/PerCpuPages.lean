import Shma.Mmu.BuddyFree
import Shma.Mmu.Fragmentation

/-!
# Per-CPU page caches

`zone_pageset_init` of `MMU/zone.cpp`, and `buffered_rmqueue` and `free_hot_cold_page` of
`MMU/memory_management.cpp`. A page that comes from a per-CPU list is handed out and stays in it.
The fields are 32-bit counters; `low` is never set.
-/
namespace Shma.Mmu

open Lib.Dyadic Lib.Run

/-! ### The source -/

def gfpCold : Nat := 0x08

structure PerCpuPages where
  (count low high batch : Nat)
  pageList : List Address
  deriving DecidableEq, Repr

/-- `log2(uint16_t)` of `common/common_functions.h`. -/
def log2U16 (x : Nat) : Nat :=
  let (result, x) := if x &&& 0xff00 ≠ 0 then (8, x >>> 8) else (0, x)
  let (result, x) := if x &&& 0x00f0 ≠ 0 then (result + 4, x >>> 4) else (result, x)
  let (result, x) := if x &&& 0x000c ≠ 0 then (result + 2, x >>> 2) else (result, x)
  if x &&& 0x0002 ≠ 0 then result + 1 else result

variable (mode : PagingStyle) (fraction : Int) (freePages low : Nat) (cold : Bool)

/-- `zone_batchsize`. The logarithm of 1 less one is `UINT_MAX`. -/
def zoneBatchsize (freePages : Nat) : Nat :=
  let pageSize : Nat := 2^mode.pageShift
  let batch := Int.bmod (freePages >>> 10) (2^32)
  let batch := if 512 * 1024 < (batch * pageSize) % 2^64 then ((512 * 1024 / pageSize : Nat) : Int) else batch.tdiv 4
  let batch := if batch < 1 then 1 else batch
  (log2U16 ((batch + batch.tdiv 2) % 2^16).toNat + (2^32 - 1)) % 2^32

def zonePagesetInit : PerCpuPages :=
  if fraction ≠ 0 then
    let high := freePages / (fraction % 2^64).toNat % 2^32
    let batch := if mode.pageShift * 8 < high / 4 then mode.pageShift * 8 else max 1 (high / 4)
    { count := 0, low, high := if cold then 2 * batch % 2^32 else high, batch, pageList := [] }
  else
    let size := zoneBatchsize mode freePages
    let batch := max 1 size
    if cold then { count := 0, low, high := 2 * batch % 2^32, batch := max 1 (batch / 2), pageList := [] }
    else { count := 0, low, high := 6 * size % 2^32, batch, pageList := [] }

structure CachedZone where
  alloc : Alloc
  numCores : Nat
  pageSet : Nat → Bool → PerCpuPages

namespace CachedZone

/-- `setup_zone_pageset`; `low` is what the fields of that name happen to hold. -/
def setup (alloc : Alloc) (numCores : Nat) (mode : PagingStyle) (fraction : Int) (low : Nat → Bool → Nat) : CachedZone :=
  { alloc, numCores, pageSet := fun cpu cold => zonePagesetInit mode fraction alloc.zone.freePages (low cpu cold) cold }

def getCpuPages (s : CachedZone) (cpuId : Nat) (cold : Bool) : Option PerCpuPages :=
  if cpuId < s.numCores then some (s.pageSet cpuId cold) else none

def put (s : CachedZone) (cpuId : Nat) (cold : Bool) (alloc : Alloc) (pps : PerCpuPages) : CachedZone :=
  { s with alloc, pageSet := update s.pageSet cpuId (update (s.pageSet cpuId) cold pps) }

end CachedZone

/-- `allocate_bulk`: the number of pages, and the list with them at its end. -/
def allocateBulk (order : Nat) : (count : Nat) → Alloc → List Address → Option (Nat × Alloc × List Address)
  | 0, s, list => some (0, s, list)
  | count + 1, s, list => do
    match ← s.allocatePages order with
    | (none, s) => return (0, s, list)
    | (some page, s) =>
      let (i, s, list) ← allocateBulk order count s (list ++ [page])
      return (i + 1, s, list)

/-- The first part of `buffered_rmqueue`: the list gets pages if it is empty or has become short. -/
def PerCpuPages.refill (pps : PerCpuPages) (s : Alloc) : Option (Alloc × PerCpuPages) := do
  if pps.pageList.isEmpty then
    let (i, s, list) ← allocateBulk 0 pps.batch s pps.pageList
    return (s, { pps with count := (pps.count + i) % 2^32, pageList := list })
  else if pps.count ≤ pps.low then
    let (i, s, list) ← allocateBulk 0 ((pps.batch + (2^32 - pps.count)) % 2^32) s pps.pageList
    return (s, { pps with count := (pps.count + i) % 2^32, pageList := list })
  else return (s, pps)

/-- `buffered_rmqueue`. The page at the front of a per-CPU list is not taken from it. -/
def CachedZone.bufferedRmqueue (s : CachedZone) (gfpMask order cpuId : Nat) : Option (Option Address × CachedZone) := do
  let cold := decide (gfpMask &&& gfpCold ≠ 0)
  if order = 0 then
    let pps ← s.getCpuPages cpuId cold
    let (alloc, pps) ← pps.refill s.alloc
    match pps.pageList with
    | [] =>
      let (page, alloc) ← alloc.allocatePages order
      return (page, s.put cpuId cold alloc pps)
    | page :: _ => return (some page, s.put cpuId cold alloc { pps with count := (pps.count + (2^32 - 1)) % 2^32 })
  else
    let (page, alloc) ← s.alloc.allocatePages order
    return (page, { s with alloc })

/-- `free_pcppages_bulk`, which counts up where pages leave the list. -/
def freePcppagesBulk (samePlace : Address → Address → Bool) :
    (count : Nat) → Alloc → PerCpuPages → Option (Alloc × PerCpuPages)
  | 0, s, pcp => some (s, pcp)
  | count + 1, s, pcp =>
    match pcp.pageList with
    | [] => some (s, pcp)
    | page :: rest => do
      let s ← s.freeOnePage samePlace page 0
      freePcppagesBulk samePlace count s { pcp with count := (pcp.count + 1) % 2^32, pageList := rest }

/-- `free_hot_cold_page`. Nothing sets the field `zone` of a page; here it is taken to be the zone
it is from. -/
def CachedZone.freeHotColdPage (s : CachedZone) (samePlace : Address → Address → Bool) (page : Address) (cpuId : Nat)
    (cold : Bool) : Option CachedZone := do
  let pps ← s.getCpuPages cpuId cold
  let pps : PerCpuPages := { pps with count := (pps.count + 1) % 2^32, pageList := pps.pageList ++ [page] }
  if pps.high < pps.count then
    let (alloc, pps) ← freePcppagesBulk samePlace pps.batch s.alloc pps
    return s.put cpuId cold alloc { pps with count := (pps.count + (2^32 - pps.batch)) % 2^32 }
  else return s.put cpuId cold s.alloc pps

/-! ### Calls and what they should keep -/

inductive CacheOp where
  | rmqueue (gfpMask cpuId : Nat)
  | free (page : Address) (cpuId : Nat) (cold : Bool)

structure CacheLog where
  zone : CachedZone
  out : List Address

namespace CacheLog

def step (samePlace : Address → Address → Bool) (s : CacheLog) : CacheOp → Option CacheLog
  | .rmqueue gfpMask cpuId => (s.zone.bufferedRmqueue gfpMask 0 cpuId).map fun r => ⟨r.2, r.1.toList ++ s.out⟩
  | .free page cpuId cold => (s.zone.freeHotColdPage samePlace page cpuId cold).map fun z => ⟨z, s.out.erase page⟩

def Allowed (s : CacheLog) : CacheOp → Prop
  | .rmqueue _ _ => True
  | .free page _ _ => page ∈ s.out

instance (s : CacheLog) : ∀ op, Decidable (s.Allowed op)
  | .rmqueue _ _ => isTrue trivial
  | .free _ _ _ => inferInstanceAs (Decidable (_ ∈ _))

/-- The counts are right, no page is handed out twice, and no page is in two of these places: handed
out, in a per-CPU list, in a free block. -/
structure Conserves (s : CacheLog) : Prop where
  counted : ∀ cpuId < s.zone.numCores, ∀ cold,
    (s.zone.pageSet cpuId cold).count = (s.zone.pageSet cpuId cold).pageList.length
  once : s.out.Nodup
  out_cached : ∀ page ∈ s.out, ∀ cpuId < s.zone.numCores, ∀ cold, page ∉ (s.zone.pageSet cpuId cold).pageList
  out_free : ∀ page ∈ s.out, page ∉ pages (freeBlocks s.zone.alloc.freeList)
  cached_free : ∀ cpuId < s.zone.numCores, ∀ cold, ∀ page ∈ (s.zone.pageSet cpuId cold).pageList,
    page ∉ pages (freeBlocks s.zone.alloc.freeList)

end CacheLog

/-! ### Availability -/

section

variable {n : Nat} (hn : n < 2^64) {s : AllocLog} (h : s.Inv n) (hs : Sparse s.alloc.zone.freeArea)
  (hfresh : s.handed = [])
include hn h hs hfresh

theorem AllocLog.Inv.available (hleft : n % 2^43 ≠ 0) :
    ∃ p a, s.alloc.allocatePages 0 = some (some p, a) := by
  have hadd := h.pages_add
  rw [hfresh] at hadd
  rcases h.allocatePages hn 0 with hr | ⟨p, a, hr, -⟩
  · have hlt := (h.fails_iff hn hs (Nat.zero_le maxOrder)).mp hr
    rw [show s.alloc.zone.countedPages = n from hadd] at hlt
    omega
  · exact ⟨p, a, hr⟩

theorem AllocLog.Inv.unavailable (hleft : n % 2^43 = 0) :
    s.alloc.allocatePages 0 = some (none, s.alloc) := by
  have hadd := h.pages_add
  rw [hfresh] at hadd
  rw [h.fails_iff hn hs (Nat.zero_le maxOrder), show s.alloc.zone.countedPages = n from hadd, hleft]
  exact Nat.one_pos

end

/-! ### The first call -/

theorem zonePagesetInit_batch_pos :
    0 < (zonePagesetInit mode fraction freePages low cold).batch := by
  have hshift : 0 < mode.pageShift * 8 := by cases mode <;> decide
  unfold zonePagesetInit
  split
  · dsimp only
    split
    · exact hshift
    · exact Nat.lt_of_lt_of_le Nat.zero_lt_one (Nat.le_max_left _ _)
  · split <;> exact Nat.lt_of_lt_of_le Nat.zero_lt_one (Nat.le_max_left _ _)

theorem zonePagesetInit_empty :
    (zonePagesetInit mode fraction freePages low cold).count = 0 ∧
      (zonePagesetInit mode fraction freePages low cold).pageList = [] := by
  unfold zonePagesetInit
  split
  · exact ⟨rfl, rfl⟩
  · split <;> exact ⟨rfl, rfl⟩

theorem isPrefix_of_allocateBulk {order : Nat} (count : Nat) : ∀ {s s' : Alloc} {list list' : List Address} {i : Nat},
    allocateBulk order count s list = some (i, s', list') → list <+: list' := by
  induction count with
  | zero =>
    intro s s' list list' i h
    cases h
    exact prefix_rfl
  | succ count ih =>
    intro s s' list list' i h
    obtain ⟨⟨page, s1⟩, -, h⟩ := bind_eq_some_iff.mp h
    cases page with
    | none =>
      cases h
      exact prefix_rfl
    | some page =>
      obtain ⟨⟨i1, s2, list2⟩, hrest, h⟩ := bind_eq_some_iff.mp h
      cases h
      exact (List.prefix_append list [page]).trans (ih hrest)

namespace CachedZone

variable {s s' : CachedZone} {gfpMask cpuId : Nat} {r : Option Address}

theorem getCpuPages_eq_some {cold : Bool} {pps : PerCpuPages} :
    s.getCpuPages cpuId cold = some pps ↔ cpuId < s.numCores ∧ s.pageSet cpuId cold = pps := by
  rw [getCpuPages, Option.ite_none_right_eq_some, some_inj]

theorem pageSet_put_self (s : CachedZone) (cpuId : Nat) (cold : Bool) (alloc : Alloc) (pps : PerCpuPages) :
    (s.put cpuId cold alloc pps).pageSet cpuId cold = pps := by
  simp [put]

theorem bufferedRmqueue_of_available (hempty : ∀ cold, (s.pageSet cpuId cold).pageList = [])
    (hbatch : ∀ cold, 0 < (s.pageSet cpuId cold).batch) {p : Address} {a : Alloc}
    (havailable : s.alloc.allocatePages 0 = some (some p, a)) (h : s.bufferedRmqueue gfpMask 0 cpuId = some (r, s')) :
    r = some p ∧ cpuId < s'.numCores ∧ ∃ cold, p ∈ (s'.pageSet cpuId cold).pageList := by
  obtain ⟨pps, hpps, h⟩ := bind_eq_some_iff.mp h
  obtain ⟨hcpu, rfl⟩ := getCpuPages_eq_some.mp hpps
  generalize decide (gfpMask &&& gfpCold ≠ 0) = cold at h
  obtain ⟨⟨alloc, pps⟩, hrefill, h⟩ := bind_eq_some_iff.mp h
  obtain ⟨b, hb⟩ := Nat.exists_eq_add_of_lt (hbatch cold)
  rw [Nat.zero_add] at hb
  rw [PerCpuPages.refill, hempty, hb] at hrefill
  obtain ⟨⟨i, a', list⟩, hbulk, hrefill⟩ := bind_eq_some_iff.mp hrefill
  obtain ⟨⟨page, a1⟩, hfirst, hbulk⟩ := bind_eq_some_iff.mp hbulk
  cases havailable.symm.trans hfirst
  obtain ⟨⟨i1, a2, list2⟩, hrest, hbulk⟩ := bind_eq_some_iff.mp hbulk
  cases hbulk
  cases hrefill
  obtain ⟨more, rfl⟩ := isPrefix_of_allocateBulk b hrest
  cases h
  refine ⟨rfl, hcpu, cold, ?_⟩
  rw [pageSet_put_self]
  exact mem_cons_self

theorem bufferedRmqueue_of_unavailable (hempty : ∀ cold, (s.pageSet cpuId cold).pageList = [])
    (hcount : ∀ cold, (s.pageSet cpuId cold).count = 0) (hnone : s.alloc.allocatePages 0 = some (none, s.alloc))
    (h : s.bufferedRmqueue gfpMask 0 cpuId = some (r, s')) : r = none ∧ s' = s := by
  obtain ⟨pps, hpps, h⟩ := bind_eq_some_iff.mp h
  obtain ⟨hcpu, rfl⟩ := getCpuPages_eq_some.mp hpps
  generalize decide (gfpMask &&& gfpCold ≠ 0) = cold at h
  have hbulk : ∀ count, allocateBulk 0 count s.alloc [] = some (0, s.alloc, []) := by
    intro count
    cases count with
    | zero => rfl
    | succ count => simp [allocateBulk, hnone]
  have hsame : { s.pageSet cpuId cold with count := 0, pageList := [] } = s.pageSet cpuId cold := by
    rw [← hempty cold, ← hcount cold]
  have hrefill : (s.pageSet cpuId cold).refill s.alloc = some (s.alloc, s.pageSet cpuId cold) := by
    simp [PerCpuPages.refill, hempty, hcount, hbulk, hsame]
  rw [hrefill, bind_eq_bind, bind_some] at h
  simp only [hempty, hnone, bind_eq_bind, bind_some, pure_def, some_inj,
    Prod.mk.injEq] at h
  obtain ⟨rfl, rfl⟩ := h
  refine ⟨rfl, ?_⟩
  simp [put]

end CachedZone

namespace CacheLog

variable {samePlace : Address → Address → Bool} {s s' : CacheLog}

/-- Nothing is in the lists, and nothing is or can be handed out. -/
structure Idle (s : CacheLog) : Prop where
  out : s.out = []
  pageList : ∀ cpuId cold, (s.zone.pageSet cpuId cold).pageList = []
  count : ∀ cpuId cold, (s.zone.pageSet cpuId cold).count = 0

theorem Idle.conserves (h : s.Idle) : s.Conserves where
  counted cpuId _ cold := by rw [h.count, h.pageList]; rfl
  once := by rw [h.out]; exact nodup_nil
  out_cached page hpage := by rw [h.out] at hpage; cases hpage
  out_free page hpage := by rw [h.out] at hpage; cases hpage
  cached_free cpuId _ cold page hpage := by rw [h.pageList] at hpage; cases hpage

section

variable (h : s.Idle) (hnone : s.zone.alloc.allocatePages 0 = some (none, s.zone.alloc))
include h hnone

theorem Idle.step {op : CacheOp} (hop : s.Allowed op) (hstep : s.step samePlace op = some s') : s' = s := by
  cases op with
  | rmqueue gfpMask cpuId =>
    obtain ⟨⟨r, z⟩, hr, rfl⟩ := map_eq_some_iff.mp hstep
    obtain ⟨rfl, rfl⟩ := CachedZone.bufferedRmqueue_of_unavailable (h.pageList cpuId) (h.count cpuId) hnone hr
    rfl
  | free page cpuId cold =>
    have hmem : page ∈ s.out := hop
    rw [h.out] at hmem
    cases hmem

theorem Idle.of_run {ops : List CacheOp}
    (hops : AllSteps (CacheLog.step samePlace) Allowed s ops) (hr : run (CacheLog.step samePlace) s ops = some s') :
    s' = s := by
  have hstep : ∀ (t : CacheLog) (op : CacheOp) (t' : CacheLog), t = s → t.Allowed op → t.step samePlace op = some t' →
      t' = s := by
    rintro t op t' rfl hop ht'
    exact h.step hnone hop ht'
  exact run_invariant (CacheLog.step samePlace) hstep ops rfl hops hr

end

theorem idle_setup (alloc : Alloc) (numCores : Nat) (mode : PagingStyle) (fraction : Int) (low : Nat → Bool → Nat) :
    Idle ⟨.setup alloc numCores mode fraction low, []⟩ where
  out := rfl
  pageList _ _ := (zonePagesetInit_empty ..).2
  count _ _ := (zonePagesetInit_empty ..).1

theorem not_conserves_of_available (h : s.Idle) (hbatch : ∀ cpuId cold, 0 < (s.zone.pageSet cpuId cold).batch)
    {p : Address} {a : Alloc} (havailable : s.zone.alloc.allocatePages 0 = some (some p, a)) {op : CacheOp}
    (hop : s.Allowed op) (hstep : s.step samePlace op = some s') : ¬ s'.Conserves := by
  intro hconserves
  cases op with
  | rmqueue gfpMask cpuId =>
    obtain ⟨⟨r, z⟩, hr, rfl⟩ := map_eq_some_iff.mp hstep
    obtain ⟨rfl, hcpu, cold, hcached⟩ :=
      CachedZone.bufferedRmqueue_of_available (h.pageList cpuId) (hbatch cpuId) havailable hr
    exact hconserves.out_cached p mem_cons_self cpuId hcpu cold hcached
  | free page cpuId cold =>
    have hmem : page ∈ s.out := hop
    rw [h.out] at hmem
    cases hmem

/-- In a zone of any size, for any number of CPUs and whatever the page sets are set up with, pages
are conserved through a sequence of calls exactly if there is no call or no page is ever handed out:
the zone has a single page or, as the size of the list of the largest order wraps around, a multiple
of `2^43` pages or one more. -/
theorem caches_conserve_iff (samePlace : Address → Address → Bool) (m : MemMap) (type : ZoneType)
    (lo hi freePageNum numCores : Nat) (mode : PagingStyle) (fraction : Int) (low : Nat → Bool → Nat) (hlt : lo < hi)
    (hhi : hi ≤ m.nodePageNum) (hword : hi < 2^64) :
    ∃ z m' z', Zone.new type lo hi = some z ∧ z.memmapInitZone m lo hi = some (m', z') ∧
    ∀ ops s, AllSteps (step samePlace) Allowed ⟨.setup ⟨m', z', freePageNum⟩ numCores mode fraction low, []⟩ ops →
      run (step samePlace) ⟨.setup ⟨m', z', freePageNum⟩ numCores mode fraction low, []⟩ ops = some s →
        ((∀ pre, pre <+: ops → ∀ u,
            run (step samePlace) ⟨.setup ⟨m', z', freePageNum⟩ numCores mode fraction low, []⟩ pre = some u →
              u.Conserves) ↔
          ops = [] ∨ hi % 2^43 ≤ 1) := by
  obtain ⟨m', z', lists, hinit, hinv, -⟩ := freeAreaInitZone_spec
    { zoneType := type, zoneStartPfn := lo, freePages := hi - lo, freeArea := fun _ => .new } hhi
  refine ⟨_, m', z', if_pos hlt, hinit, fun ops s hops hr => ?_⟩
  have hn : hi - hi % 2 < 2^64 := by omega
  have hstart : AllocLog.Inv (hi - hi % 2) ⟨⟨m', z', freePageNum⟩, []⟩ := ⟨lists, hinv⟩
  have hidle := idle_setup ⟨m', z', freePageNum⟩ numCores mode fraction low
  constructor
  · intro hall
    cases ops with
    | nil => exact .inl rfl
    | cons op ops =>
      refine .inr ?_
      by_contra hne
      obtain ⟨u, hu, -⟩ := (run_cons_eq_some (step samePlace)).mp hr
      obtain ⟨p, a, havailable⟩ := hstart.available hn (freeAreaInitZone_sparse hinit) rfl (by omega)
      refine not_conserves_of_available hidle (fun _ _ => zonePagesetInit_batch_pos ..) havailable hops.1 hu ?_
      exact hall [op] (List.prefix_append [op] ops) u ((run_cons_eq_some (step samePlace)).mpr ⟨u, hu, rfl⟩)
  · rintro hquiet pre ⟨post, rfl⟩ u hu
    rcases hquiet with hnil | hwrap
    · obtain ⟨rfl, -⟩ := List.append_eq_nil_iff.mp hnil
      cases hu
      exact hidle.conserves
    · have hnone := hstart.unavailable hn (freeAreaInitZone_sparse hinit) rfl (by omega)
      rw [hidle.of_run hnone ((allSteps_append (step samePlace)).mp hops).1 hu]
      exact hidle.conserves

/-- A zone of eight pages, two CPUs, and no fraction configured. -/
theorem caches_conserve_iff_eight :
    ∃ r, Zone.memmapInitZone ⟨.normal, 0, 8, fun _ => .new⟩ (MemMap.new 8) 0 8 = some r ∧
      ∃ s, run (step fun _ _ => true) ⟨.setup ⟨r.1, r.2, 8⟩ 2 .longModeNormal 0 fun _ _ => 0, []⟩ [.rmqueue 0 1] = some s ∧
        ¬ ∀ pre, pre <+: [CacheOp.rmqueue 0 1] → ∀ u,
          run (step fun _ _ => true) ⟨.setup ⟨r.1, r.2, 8⟩ 2 .longModeNormal 0 fun _ _ => 0, []⟩ pre = some u →
            u.Conserves := by
  obtain ⟨z, m, z', hz, hinit, hall⟩ := caches_conserve_iff (fun _ _ => true) (MemMap.new 8) .normal 0 8 8 2
    .longModeNormal 0 (fun _ _ => 0) (by decide) (Nat.le_refl 8) (by decide)
  cases hz
  have hrun : ∃ r, Zone.memmapInitZone ⟨.normal, 0, 8, fun _ => .new⟩ (MemMap.new 8) 0 8 = some r ∧
      (run (step fun _ _ => true) ⟨.setup ⟨r.1, r.2, 8⟩ 2 .longModeNormal 0 fun _ _ => 0, []⟩ [.rmqueue 0 1]).isSome := by
    decide +kernel
  obtain ⟨r, hr, hsome⟩ := hrun
  obtain rfl := mem_unique hinit hr
  obtain ⟨s, hs⟩ := isSome_iff_exists.mp hsome
  refine ⟨_, hinit, s, hs, fun hconserve => ?_⟩
  have hquiet := (hall [.rmqueue 0 1] s ⟨trivial, fun _ _ => trivial⟩ hs).mp hconserve
  exact absurd hquiet (by simp)

/-- The first CPU is handed the same hot page twice. All pages are in its list by then, and the
count says six. -/
theorem page_handed_out_twice :
    ∃ r, Zone.memmapInitZone ⟨.normal, 0, 8, fun _ => .new⟩ (MemMap.new 8) 0 8 = some r ∧
      ∃ s, run (step fun _ _ => true) ⟨.setup ⟨r.1, r.2, 8⟩ 2 .longModeNormal 0 fun _ _ => 0, []⟩
          [.rmqueue 0 0, .rmqueue 0 0] = some s ∧
        s.out = [0, 0] ∧ (s.zone.pageSet 0 false).pageList = [0, 1, 2, 3, 4, 5, 6, 7] ∧
        (s.zone.pageSet 0 false).count = 6 := by
  decide +kernel

end CacheLog

end Shma.Mmu
