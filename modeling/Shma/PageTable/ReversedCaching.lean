import Mathlib.Data.List.Induction
import Shma.PageTable.ReversedMap

/-!
# Caching pages through the inverse table

The steps `evict_and_fetch` issues in shared-memory mode, over whole histories. A
cache step finds the key of the NVM frame. An evict step does not find the key of
the DRAM frame, since no one inserts it, and through the key of the NVM frame it
points the page to the DRAM block once more.
-/
namespace Shma.PageTable.ReversedPaging

open Lib Lib.Run
open Target (block ppn)

/-- The page table, with the NVM frame each virtual page was given and the DRAM
block that caches each frame. -/
structure Caching where
  table : ReversedPaging
  home : Address → Option Address
  cached : Address → Option Nat

/-- The calls. `dram` is the allocator as the call finds it. -/
inductive CacheOp where
  | map (addr frame : Address)
  | cache (dram : FairAllocator) (frame : Address) (block : Nat)
  | evict (dram : FairAllocator) (block : Nat) (frame : Address)

def CacheOp.isEvict : CacheOp → Bool
  | .evict _ _ _ => true
  | _ => false

namespace Caching

def new (mode : PagingStyle) : Caching :=
  { table := .new mode, home := fun _ => none, cached := fun _ => none }

def step (z : Zinfo) (m : Mmu.MemMap) (s : Caching) : CacheOp → Option Caching
  | .map a f => (s.table.mapPageTable z a (.page f) false).map fun r =>
      { s with table := r.1, home := update s.home (a >>> z.pageShift) (some f) }
  | .cache dram f d => (s.table.remapPageTable z m dram f ((block d).ppn z) false true).map fun r =>
      { s with table := r.1, cached := update s.cached f (some d) }
  | .evict dram d f => (s.table.remapPageTable z m dram ((block d).ppn z) f true false).map fun r =>
      { s with table := r.1, cached := update s.cached f none }

def expected (s : Caching) (v : Address) : Option Target :=
  (s.home v).map fun f => match s.cached f with
    | some d => .block d
    | none => .page f

/-- Every page is mapped to where it belongs, with the buffer flag to match, and no
two pages to one block. -/
structure Coherent (z : Zinfo) (s : Caching) : Prop where
  forward : ∀ a < 2^48, (s.table.leaf a).nextLevelPtr = (s.expected (a >>> z.pageShift)).map Ptr.target
  buffer : ∀ a < 2^48, ∀ tg, s.expected (a >>> z.pageShift) = some tg → (s.table.leaf a).pbuffer = tg.isBlock
  apart : ∀ a < 2^48, ∀ b < 2^48, ∀ d, (s.table.leaf a).nextLevelPtr = some (.target (.block d)) →
    (s.table.leaf b).nextLevelPtr = some (.target (.block d)) → a >>> z.pageShift = b >>> z.pageShift

def Available (z : Zinfo) (m : Mmu.MemMap) (dram : FairAllocator) (f : Address) (d : Nat) : Prop :=
  f < m.nodePageNum ∧ dram.getPagePtr d = some d ∧ z.blockIdToAddr d < 2^64

/-- When `evict_and_fetch` and the page-fault handler issue a call: frames are handed
out once, a page is cached in a free block, and what is evicted was cached. -/
def Issued (z : Zinfo) (m : Mmu.MemMap) (s : Caching) : CacheOp → Prop
  | .map a f => a < 2^48 ∧ s.table.paging.CanMap a ∧ ∀ v, s.home v ≠ some f
  | .cache dram f d => (∃ v, s.home v = some f) ∧ s.cached f = none ∧ (∀ g, s.cached g ≠ some d) ∧
      Available z m dram f d
  | .evict dram d f => (∃ v, s.home v = some f) ∧ s.cached f = some d ∧ Available z m dram f d

/-- A page is mapped once, and 32 bits tell a new key from those in use. -/
def Unambiguous (z : Zinfo) (s : Caching) : CacheOp → Prop
  | .map a f => s.home (a >>> z.pageShift) = none ∧ ∀ v g, s.home v = some g → key g ≠ key f
  | .cache _ _ d => ∀ v g, s.home v = some g → key g ≠ key ((block d).ppn z)
  | .evict _ _ _ => True

/-- What holds as long as nothing is evicted. -/
structure Holds (z : Zinfo) (mode : PagingStyle) (s : Caching) : Prop where
  inv : s.table.paging.Inv
  mode_eq : s.table.paging.mode = mode
  forward : ∀ a < 2^48, s.table.paging.translate a = s.expected (a >>> z.pageShift)
  recorded : ∀ a < 2^48, ∀ f, s.home (a >>> z.pageShift) = some f →
    ∃ c, s.table.reversedPgt (key f) = some c ∧ s.table.PointsTo c a
  keys : ∀ k c, s.table.reversedPgt k = some c → ∃ v f, s.home v = some f ∧ key f = k
  range : ∀ v f, s.home v = some f → ∃ a < 2^48, a >>> z.pageShift = v
  home_inj : ∀ v w f, s.home v = some f → s.home w = some f → v = w
  cached_home : ∀ f d, s.cached f = some d → ∃ v, s.home v = some f
  cached_inj : ∀ f g d, s.cached f = some d → s.cached g = some d → f = g

variable {z : Zinfo} {m : Mmu.MemMap} {mode : PagingStyle} {s : Caching}

theorem holds_new (z : Zinfo) (hm : isLongMode mode) : Holds z mode (new mode) where
  inv := LongModePaging.inv_new hm
  mode_eq := rfl
  forward a _ := LongModePaging.translate_new mode a
  recorded _ _ _ h := by cases h
  keys _ _ h := by cases h
  range _ _ h := by cases h
  home_inj _ _ _ h := by cases h
  cached_home _ _ h := by cases h
  cached_inj _ _ _ h := by cases h

theorem Holds.slotOf_eq_iff (h : Holds z mode s) (hshift : z.pageShift = mode.pageShift) {a b : Address}
    (ha : a < 2^48) (hb : b < 2^48) :
    slotOf a s.table.paging.mode = slotOf b s.table.paging.mode ↔ a >>> z.pageShift = b >>> z.pageShift := by
  rw [h.mode_eq, hshift]
  exact LongModePaging.slotOf_eq_iff (h.mode_eq ▸ h.inv.mode) ha hb

theorem Holds.no_key (h : Holds z mode s) {k : Nat} (hk : ∀ v g, s.home v = some g → key g ≠ k) :
    s.table.reversedPgt k = none := by
  by_contra hne
  obtain ⟨c, hc⟩ := ne_none_iff_exists'.mp hne
  obtain ⟨v, g, hg, hgk⟩ := h.keys _ c hc
  exact hk v g hg hgk

theorem Holds.linked (h : Holds z mode s) : s.table.Linked := by
  intro k c hc
  obtain ⟨v, f, hv, rfl⟩ := h.keys k c hc
  obtain ⟨a, ha, rfl⟩ := h.range v f hv
  obtain ⟨c', hc', hpt⟩ := h.recorded a ha f hv
  obtain rfl : c' = c := mem_unique hc' hc
  exact ⟨a, hpt, by rw [h.forward a ha, expected, hv]; rfl⟩

variable {d : Nat}

theorem expected_eq_block {v : Address} (h : s.expected v = some (.block d)) :
    ∃ f, s.home v = some f ∧ s.cached f = some d := by
  unfold expected at h
  cases hf : s.home v with
  | none => rw [hf] at h; cases h
  | some f =>
    refine ⟨f, rfl, ?_⟩
    rw [hf, map_some] at h
    split at h
    · next d' hd => cases h; exact hd
    · cases h

theorem Holds.coherent (h : Holds z mode s) : s.Coherent z := by
  have hptr : ∀ a < 2^48, (s.table.leaf a).nextLevelPtr = (s.expected (a >>> z.pageShift)).map Ptr.target := by
    intro a ha
    rw [nextLevelPtr_leaf h.inv, ← h.forward a ha]
  refine ⟨hptr, fun a ha tg htg => ?_, fun a ha b hb d had hbd => ?_⟩
  · rw [← h.forward a ha] at htg
    exact (isLeaf_leaf h.inv a).2.2 tg htg
  · have hexp : ∀ c < 2^48, (s.table.leaf c).nextLevelPtr = some (.target (.block d)) →
        s.expected (c >>> z.pageShift) = some (.block d) := by
      intro c hc hcd
      rw [hptr c hc] at hcd
      obtain ⟨tg, htg, htgt⟩ := map_eq_some_iff.mp hcd
      cases htgt
      exact htg
    obtain ⟨f, hf, hfd⟩ := expected_eq_block (hexp a ha had)
    obtain ⟨g, hg, hgd⟩ := expected_eq_block (hexp b hb hbd)
    exact h.home_inj _ _ f hf (h.cached_inj g f d hgd hfd ▸ hg)

theorem holds_map (hshift : z.pageShift = mode.pageShift) (h : Holds z mode s) {a f : Address}
    (hiss : Issued z m s (.map a f)) (hun : Unambiguous z s (.map a f)) :
    ∃ s', s.step z m (.map a f) = some s' ∧ Holds z mode s' := by
  obtain ⟨ha, hcan, hfresh⟩ := hiss
  obtain ⟨hfree, hkey⟩ := hun
  have hexp : s.expected (a >>> z.pageShift) = none := by rw [expected, hfree]; rfl
  have huncached : s.cached f = none := by
    by_contra hne
    obtain ⟨d, hd⟩ := ne_none_iff_exists'.mp hne
    obtain ⟨v, hv⟩ := h.cached_home f d hd
    exact hfresh v hv
  obtain ⟨t, latency, c, hr, hinv, hmode, hrev, hpt, htr, hdesc⟩ :=
    mapPageTable_page_spec z h.inv hcan ((h.forward a ha).trans hexp) (h.no_key hkey)
  refine ⟨{ s with table := t, home := update s.home (a >>> z.pageShift) (some f) },
    by rw [step, hr]; rfl, ⟨hinv, hmode.trans h.mode_eq, ?_, ?_, ?_, ?_, ?_, ?_, h.cached_inj⟩⟩
  · intro b hb
    rw [htr, h.forward b hb]
    simp only [h.slotOf_eq_iff hshift hb ha, expected, update_apply]
    split
    · simp [huncached]
    · rfl
  · intro b hb g hg
    rw [hrev]
    by_cases hv : b >>> z.pageShift = a >>> z.pageShift
    · obtain rfl : f = g := by simpa [hv] using hg
      refine ⟨c, update_self _ _ _, ?_⟩
      have hsame := (h.slotOf_eq_iff hshift hb ha).mpr hv
      rw [← hmode] at hsame
      obtain ⟨hdirs, hoff⟩ := Prod.mk.inj hsame
      exact ⟨hdirs ▸ hpt.1, hoff ▸ hpt.2⟩
    · have hg' : s.home (b >>> z.pageShift) = some g := by simpa [hv] using hg
      obtain ⟨c', hc', hpt'⟩ := h.recorded b hb g hg'
      refine ⟨c', (update_of_ne (hkey _ g hg') _ _).trans hc', ?_⟩
      exact ⟨hmode.symm ▸ hdesc _ _ hpt'.1, hmode.symm ▸ hpt'.2⟩
  · intro k c' hc'
    rw [hrev, update_apply] at hc'
    split at hc'
    · next hk => exact ⟨a >>> z.pageShift, f, update_self _ _ _, hk.symm⟩
    · obtain ⟨v, g, hg, hgk⟩ := h.keys k c' hc'
      exact ⟨v, g, (update_of_ne (fun hv => by rw [hv, hfree] at hg; cases hg) _ _).trans hg, hgk⟩
  · intro v g hg
    by_cases hv : v = a >>> z.pageShift
    · exact ⟨a, ha, hv.symm⟩
    · exact h.range v g ((update_of_ne hv _ _).symm.trans hg)
  · intro v w g hv hw
    simp only [update_apply] at hv hw
    split at hv <;> split at hw
    · next h1 h2 => exact h1.trans h2.symm
    · cases hv; exact absurd hw (hfresh w)
    · cases hw; exact absurd hv (hfresh v)
    · exact h.home_inj v w g hv hw
  · intro g d hg
    obtain ⟨v, hv⟩ := h.cached_home g d hg
    exact ⟨v, (update_of_ne (fun he => by rw [he, hfree] at hv; cases hv) _ _).trans hv⟩

variable {dram : FairAllocator} {f : Address}

theorem Available.page_ptr (h : Available z m dram f d) : framePtr z m dram f false = some (.page f) := by
  rw [framePtr, Mmu.MemMap.getPagePtr, if_pos h.1]
  rfl

theorem Available.block_ptr (hz : z.Aligned)
    (h : Available z m dram f d) : framePtr z m dram ((block d).ppn z) true = some (.block d) := by
  rw [framePtr, ppn, hz.dramAddrToBlockId_ppn h.2.2, h.2.1]
  rfl

theorem holds_cache (hz : z.Aligned) (hshift : z.pageShift = mode.pageShift) (h : Holds z mode s)
    (hiss : Issued z m s (.cache dram f d)) (hun : Unambiguous z s (.cache dram f d)) :
    ∃ s', s.step z m (.cache dram f d) = some s' ∧ Holds z mode s' := by
  obtain ⟨⟨v, hv⟩, hfree, hunused, havail⟩ := hiss
  obtain ⟨a, ha, rfl⟩ := h.range v f hv
  have hrec : s.table.Records f a := h.recorded a ha f hv
  have hto := h.linked.redirect h.inv z f (.block d)
  have hnone : (s.table.redirect z f (.block d) true).1.reversedPgt (key ((block d).ppn z)) = none :=
    (congrFun hto.reversedPgt _).trans (h.no_key hun)
  refine ⟨{ s with table := (s.table.redirect z f (.block d) true).1,
                   cached := update s.cached f (some d) }, ?_,
    ⟨hto.inv, hto.mode.trans h.mode_eq, ?_, ?_, ?_, h.range, h.home_inj, ?_, ?_⟩⟩
  · simp [step, remapPageTable, havail.page_ptr, havail.block_ptr hz, redirect_of_none hnone]
  · intro b hb
    refine (hto.translate b).trans ?_
    rw [h.forward b hb]
    simp only [hrec.iff_slotOf h.inv, h.slotOf_eq_iff hshift hb ha, expected, update_apply]
    split
    · next hpage => simp [hpage, hv]
    · next hpage =>
      -- the frame of another page is another frame
      cases hg : s.home (b >>> z.pageShift) with
      | none => rfl
      | some g =>
        have hne : g ≠ f := fun he => hpage (h.home_inj _ _ f (he ▸ hg) hv)
        simp [hne]
  · intro b hb g hg
    exact (hto.records g b).mpr (h.recorded b hb g hg)
  · exact fun k c' hc' => h.keys k c' ((congrFun hto.reversedPgt k).symm.trans hc')
  · intro g e hg
    by_cases hgf : g = f
    · exact ⟨_, hgf ▸ hv⟩
    · exact h.cached_home g e ((update_of_ne hgf _ _).symm.trans hg)
  · intro g g' e hg hg'
    simp only [update_apply] at hg hg'
    split at hg <;> split at hg'
    · next h1 h2 => exact h1.trans h2.symm
    · cases hg; exact absurd hg' (hunused g')
    · cases hg'; exact absurd hg (hunused g)
    · exact h.cached_inj g g' e hg hg'

theorem not_coherent_evict (hz : z.Aligned) (h : Holds z mode s)
    (hiss : Issued z m s (.evict dram d f)) {s' : Caching} (hr : s.step z m (.evict dram d f) = some s') :
    ¬ s'.Coherent z := by
  intro hco
  obtain ⟨⟨v, hv⟩, -, havail⟩ := hiss
  obtain ⟨a, ha, rfl⟩ := h.range v f hv
  have hrec : s.table.Records f a := h.recorded a ha f hv
  have hfrom := h.linked.redirect h.inv z ((block d).ppn z) (.page f)
  -- the second update goes through the key of the frame, to the block
  have hto := (hfrom.linked h.linked).redirect hfrom.inv z f (.block d)
  have htr := (hto.translate a).trans (if_pos ((hfrom.records f a).mpr hrec))
  simp only [step, remapPageTable, havail.page_ptr, havail.block_ptr hz, bind_eq_bind, bind_some,
    pure_def, map_some, some_inj] at hr
  subst hr
  have hptr := (nextLevelPtr_leaf hto.inv a).trans (congrArg (Option.map Ptr.target) htr)
  have hforward := hptr.symm.trans (hco.forward a ha)
  simp [expected, hv] at hforward

def Allowed (z : Zinfo) (m : Mmu.MemMap) (s : Caching) (op : CacheOp) : Prop :=
  Issued z m s op ∧ Unambiguous z s op

theorem holds_step (hz : z.Aligned) (hshift : z.pageShift = mode.pageShift) (h : Holds z mode s) {op : CacheOp}
    (hok : Allowed z m s op) (hop : op.isEvict = false) :
    ∃ s', s.step z m op = some s' ∧ Holds z mode s' := by
  cases op with
  | map a f => exact holds_map hshift h hok.1 hok.2
  | cache dram f d => exact holds_cache hz hshift h hok.1 hok.2
  | evict dram d f => cases hop

theorem run_holds (hz : z.Aligned) (hm : isLongMode mode) (hshift : z.pageShift = mode.pageShift)
    {ops : List CacheOp} (hok : AllSteps (step z m) (Allowed z m) (new mode) ops)
    (hno : ∀ op ∈ ops, op.isEvict = false) : ∃ s, run (step z m) (new mode) ops = some s ∧ Holds z mode s := by
  have hstep : ∀ (_ : List CacheOp) s op, Holds z mode s → Allowed z m s op → op.isEvict = false →
      ∃ s', step z m s op = some s' ∧ Holds z mode s' := fun _ _ _ h hok hop => holds_step hz hshift h hok hop
  exact run_history (P := fun _ s => Holds z mode s) (step z m) hstep ops (holds_new z hm) hok
    fun pre op post he => hno op (by rw [he]; simp)

/-- Over any history of calls as they are issued, in which each page is mapped once
and 32 bits tell the keys apart, the page table is right after every call exactly
if nothing is ever evicted. -/
theorem coherent_iff_noEvict (hz : z.Aligned) (hm : isLongMode mode) (hshift : z.pageShift = mode.pageShift)
    {ops : List CacheOp} (hok : AllSteps (step z m) (Allowed z m) (new mode) ops) :
    (∀ pre, pre <+: ops → ∃ s, run (step z m) (new mode) pre = some s ∧ s.Coherent z) ↔
      ∀ op ∈ ops, op.isEvict = false := by
  constructor
  · intro hall
    apply forall_mem_of_before
    rintro pre op post rfl hno
    obtain ⟨hokpre, hokpost⟩ := (allSteps_append (step z m)).mp hok
    obtain ⟨s, hs, hholds⟩ := run_holds hz hm hshift hokpre hno
    obtain ⟨s', hs', hco⟩ := hall (pre ++ [op]) ⟨post, by rw [append_assoc, List.singleton_append]⟩
    rw [run_append, hs] at hs'
    obtain ⟨u, hu, hlast⟩ := (run_cons_eq_some (step z m)).mp hs'
    obtain rfl : u = s' := some_inj.mp hlast
    cases op with
    | map a f | cache dram f d => rfl
    | evict dram d f => exact absurd hco (not_coherent_evict hz hholds ((hokpost s hs).1).1 hu)
  · rintro hno pre ⟨post, rfl⟩
    obtain ⟨s, hs, hholds⟩ := run_holds hz hm hshift ((allSteps_append (step z m)).mp hok).1
      fun op hop => hno op (mem_append_left _ hop)
    exact ⟨s, hs, hholds.coherent⟩

/-- An allocator of two blocks, after its one process was given block 0. -/
def blockInUse : FairAllocator :=
  { FairAllocator.new ⟨12, 12, 2^40, 1⟩ 1 (2^13) with
    busyPages := 1, cleanPools := fun _ => [0], globalCleanPool := [1] }

/-- Frame 5 is mapped at address 0 and cached in block 0. -/
theorem coherent_iff_noEvict_cached : Zinfo.Aligned ⟨12, 12, 2^40, 1⟩ ∧
    ∀ pre, pre <+: [CacheOp.map 0 5, .cache blockInUse 5 0] →
      ∃ s, run (step ⟨12, 12, 2^40, 1⟩ (Mmu.MemMap.new 8)) (new .longModeNormal) pre = some s ∧
        s.Coherent ⟨12, 12, 2^40, 1⟩ := by
  have hz : Zinfo.Aligned ⟨12, 12, 2^40, 1⟩ := ⟨rfl, by decide⟩
  refine ⟨hz, (coherent_iff_noEvict hz (by decide) rfl ?_).mpr (by simp [CacheOp.isEvict])⟩
  refine ⟨⟨⟨by decide, .inl rfl, by simp [new]⟩, rfl, by simp [new]⟩, fun t ht => ⟨?_, fun _ _ => trivial⟩⟩
  obtain ⟨r, -, rfl⟩ := ht
  refine ⟨⟨⟨0, by simp⟩, rfl, by simp [new], by decide, by decide, by decide⟩, ?_⟩
  intro v g hg
  obtain rfl : 5 = g := by
    by_cases hv : v = 0
    · simpa [hv] using hg
    · simp [new, hv] at hg
  decide

/-- After the page of frame 5 has been cached in block 0 and evicted again, address 0
is still mapped to block 0. -/
theorem evict_leaves_page_in_dram : ¬ ∃ s, run (step ⟨12, 12, 2^40, 1⟩ (Mmu.MemMap.new 8)) (new .longModeNormal)
      [.map 0 5, .cache blockInUse 5 0, .evict blockInUse 0 5] = some s ∧
    s.Coherent ⟨12, 12, 2^40, 1⟩ := by
  rintro ⟨s, hr, hco⟩
  have hrun : (run (step ⟨12, 12, 2^40, 1⟩ (Mmu.MemMap.new 8)) (new .longModeNormal)
      [.map 0 5, .cache blockInUse 5 0, .evict blockInUse 0 5]).map
      (fun s => ((s.table.leaf 0).nextLevelPtr, s.expected 0)) =
        some (some (.target (.block 0)), some (.page 5)) := by decide
  rw [hr, map_some, some_inj, Prod.mk.injEq] at hrun
  have hptr := hco.forward 0 (by decide)
  rw [hrun.1, Nat.zero_shiftRight, hrun.2] at hptr
  cases hptr

end Caching

end Shma.PageTable.ReversedPaging
