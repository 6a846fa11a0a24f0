import Shma.Walker.Boot
import Shma.Walker.Migration

/-!
# Where the pages of all processes are

The caching protocol without shared memory: every page that was faulted in is on the NVM frame
allocated for it, or in a DRAM block that names this frame and this page.
-/
namespace Shma.Walker

open PageTable Tlb Lib.Run

variable (cfg : Config) (l : Log)

def System.pageAt (s : System) (proc : Nat) (v : Address) : Option Target :=
  s.translate proc (v <<< cfg.z.pageShift)

def leafOf (v : Address) : List Nat × Nat := slotOf (v <<< cfg.z.pageShift) cfg.mode

theorem Config.Layout.leafOf_page {cfg : Config} {n total : Nat} (hlay : cfg.Layout n total) (addr : Address) :
    leafOf cfg (addr >>> cfg.z.pageShift) = slotOf addr cfg.mode := by
  rw [leafOf, hlay.shift]
  exact slotOf_page addr cfg.mode

def System.faultFrame (s : System) (core : Nat) (req : MemReq) : Option Address :=
  (s.pagingAccess cfg (s.procOf core) req).bind fun r =>
    if r.1.addr = pageFaultSig then (r.2.buddy.allocatePages 0 0).bind (·.1) else none

structure Log where
  sys : System
  home : Nat → Address → Option Address

def recordHome (home : Nat → Address → Option Address) (p : Nat) (v f : Address) : Nat → Address → Option Address :=
  fun q w => if q = p ∧ w = v then some f else home q w

variable {home : Nat → Address → Option Address} {p q : Nat} {w : Address}

theorem recordHome_eq_some {v f g : Address}
    (h : recordHome home p v f q w = some g) : (q = p ∧ w = v ∧ g = f) ∨ home q w = some g := by
  unfold recordHome at h
  split at h
  · next heq => exact .inl ⟨heq.1, heq.2, (some_inj.mp h).symm⟩
  · exact .inr h

theorem recordHome_isSome {v f : Address} :
    (recordHome home p v f q w).isSome ↔ (q = p ∧ w = v) ∨ (home q w).isSome := by
  unfold recordHome
  split
  · next heq => simp [heq]
  · next hne => simp [hne]

def Log.homeAfter : Action → Nat → Address → Option Address
  | .access core side req =>
    if (l.sys.tlb (core, side)).view (req.lineAddr >>> cfg.z.pageShift) = none then
      match l.sys.faultFrame cfg core req with
      | some f => recordHome l.home (l.sys.procOf core) (req.lineAddr >>> cfg.z.pageShift) f
      | none => l.home
    else l.home
  | _ => l.home

def Log.step (a : Action) : Option Log :=
  (l.sys.step cfg a).map fun s => ⟨s, l.homeAfter cfg a⟩

/-- Every page faulted in is on its frame, or in a block that names frame and page, and
no two pages are in one place. -/
structure Log.Consistent : Prop where
  place : ∀ p v f, l.home p v = some f → l.sys.pageAt cfg p v = some (.page f) ∨
    ∃ b, l.sys.pageAt cfg p v = some (.block b) ∧ (l.sys.dram.bufferArray b).originalAddr = f ∧
      (l.sys.dram.bufferArray b).vaddr = v
  apart : ∀ p v q w tg, (l.home p v).isSome → (l.home q w).isSome → l.sys.pageAt cfg p v = some tg →
    l.sys.pageAt cfg q w = some tg → p = q ∧ v = w

structure Placed (n total : Nat) (l : Log) : Prop where
  tables : l.sys.TablesOk cfg
  tlbs : l.sys.TlbsOk
  supply : ∃ frames, l.sys.buddy.Supplies n frames ∧ ∀ p v f, l.home p v = some f → f ∈ frames
  inj : ∀ p v q w f, l.home p v = some f → l.home q w = some f → p = q ∧ v = w
  leaf : ∀ p v w, (l.home p v).isSome → (l.home p w).isSome → leafOf cfg v = leafOf cfg w → v = w
  place : ∀ p v f, l.home p v = some f → l.sys.pageAt cfg p v = some (.page f) ∨
    ∃ b, l.sys.pageAt cfg p v = some (.block b) ∧ (l.sys.dram.bufferArray b).used = true ∧
      (l.sys.dram.bufferArray b).originalAddr = f ∧ (l.sys.dram.bufferArray b).vaddr = v
  only : ∀ p a tg, l.sys.translate p a = some tg → ∃ v, (l.home p v).isSome ∧ slotOf a cfg.mode = leafOf cfg v
  cached : ∀ b, (l.sys.dram.bufferArray b).used = true → ∃ p, (l.home p (l.sys.dram.bufferArray b).vaddr).isSome ∧
    l.sys.pageAt cfg p (l.sys.dram.bufferArray b).vaddr = some (.block b)
  blocks : ∀ p a b, l.sys.translate p a = some (.block b) → b < total
  pools : ∀ b, l.sys.dram.Holds b → b < total

namespace Placed

variable {cfg : Config} {n total : Nat} {l : Log}

section

variable (h : Placed cfg n total l)
include h

variable {p : Nat}

theorem of_block {v f : Address} {b : Nat} (hf : l.home p v = some f)
    (hb : l.sys.pageAt cfg p v = some (.block b)) : (l.sys.dram.bufferArray b).used = true ∧
      (l.sys.dram.bufferArray b).originalAddr = f ∧ (l.sys.dram.bufferArray b).vaddr = v := by
  rcases h.place p v f hf with hp | ⟨c, hc, hrest⟩
  · cases hp.symm.trans hb
  · cases hc.symm.trans hb
    exact hrest

theorem of_page {v f g : Address} (hf : l.home p v = some f) (hg : l.sys.pageAt cfg p v = some (.page g)) : g = f := by
  rcases h.place p v f hf with hp | ⟨c, hc, _⟩
  · cases hp.symm.trans hg
    rfl
  · cases hc.symm.trans hg

theorem mapped {v : Address} (hv : (l.home p v).isSome) : ∃ tg, l.sys.pageAt cfg p v = some tg := by
  obtain ⟨f, hf⟩ := isSome_iff_exists.mp hv
  rcases h.place p v f hf with hp | ⟨b, hb, _⟩
  · exact ⟨_, hp⟩
  · exact ⟨_, hb⟩

theorem consistent : l.Consistent cfg where
  place p v f hf := (h.place p v f hf).imp id fun ⟨b, hb, _, hrest⟩ => ⟨b, hb, hrest⟩
  apart p v q w tg hv hw htv htw := by
    obtain ⟨f, hf⟩ := isSome_iff_exists.mp hv
    obtain ⟨g, hg⟩ := isSome_iff_exists.mp hw
    cases tg with
    | page k =>
      obtain rfl := h.of_page hf htv
      obtain rfl := h.of_page hg htw
      exact h.inj p v q w k hf hg
    | block b =>
      obtain ⟨_, horig, _⟩ := h.of_block hf htv
      obtain ⟨_, horig', _⟩ := h.of_block hg htw
      exact h.inj p v q w f hf (by rw [hg, ← horig', horig])

variable {a : Address}

theorem frame_lt {k : Address} (htr : l.sys.translate p a = some (.page k)) : k < n := by
  obtain ⟨v, hv, hslot⟩ := h.only p a _ htr
  obtain ⟨f, hf⟩ := isSome_iff_exists.mp hv
  have hat : l.sys.pageAt cfg p v = some (.page k) := (h.tables.translate_congr hslot).symm.trans htr
  obtain rfl := h.of_page hf hat
  obtain ⟨frames, hsup, hmem⟩ := h.supply
  exact hsup.lt_of_mem (hmem p v k hf)

variable {tg : Target}

theorem ppn_ne_sig (hlay : cfg.Layout n total) (htr : l.sys.translate p a = some tg) : tg.ppn cfg.z ≠ pageFaultSig := by
  cases tg with
  | block b => exact hlay.block_ne_sig (h.blocks p a b htr)
  | page k => exact hlay.page_ne_sig (h.frame_lt htr)

theorem isBlock_eq (hlay : cfg.Layout n total) (htr : l.sys.translate p a = some tg) :
    tg.isBlock = decide (cfg.z.highAddr ≤ tg.ppn cfg.z <<< cfg.z.pageShift) := by
  cases tg with
  | block b => exact (hlay.block_above b).symm
  | page k => exact (hlay.page_below (h.frame_lt htr)).symm

theorem quiet {s' : System} (hq : System.Quiet cfg l.sys s') (hw : s'.TlbsOk) : Placed cfg n total ⟨s', l.home⟩ := by
  obtain ⟨frames, hsup, hmem⟩ := h.supply
  have hat : ∀ p v, s'.pageAt cfg p v = l.sys.pageAt cfg p v := fun p v => hq.translate p _
  refine ⟨hq.tables, hw, ⟨frames, hq.supplies hsup, hmem⟩, h.inj, h.leaf, ?_, ?_, ?_, ?_, ?_⟩
  · intro p v f hf
    rcases h.place p v f hf with hp | ⟨b, hb, hused, horig, hvaddr⟩
    · exact .inl ((hat p v).trans hp)
    · obtain ⟨hu, ho, hv⟩ := hq.block b
      exact .inr ⟨b, (hat p v).trans hb, hu.trans hused, ho.trans horig, hv.trans hvaddr⟩
  · intro p a tg htr
    exact h.only p a tg ((hq.translate p a).symm.trans htr)
  · intro b hused
    obtain ⟨hu, _, hv⟩ := hq.block b
    obtain ⟨p, hp, hb⟩ := h.cached b (hu.symm.trans hused)
    exact ⟨p, by rw [hv]; exact hp, by rw [hv, hat]; exact hb⟩
  · intro p a b htr
    exact h.blocks p a b ((hq.translate p a).symm.trans htr)
  · exact fun b hb => h.pools b (hq.holds b hb)

end

section Fault

variable {core : Nat} {addr f : Address} {s' : System} (hf : System.Faulted cfg l.sys core addr f s')
  (hlay : cfg.Layout n total)

theorem not_home_of_fault (h : Placed cfg n total l) (hlay : cfg.Layout n total)
    (hnone : l.sys.translate (l.sys.procOf core) addr = none) :
    ¬ (l.home (l.sys.procOf core) (addr >>> cfg.z.pageShift)).isSome := by
  intro hsome
  obtain ⟨tg, htg⟩ := h.mapped hsome
  cases (h.tables.translate_congr (hlay.leafOf_page addr)).symm.trans htg |>.symm.trans hnone

include hf hlay

theorem fault_supplies {frames : List Address} (hsup : l.sys.buddy.Supplies n frames) :
    s'.buddy.Supplies n (f :: frames) := by
  rcases hsup.allocate (by have := hlay.frames_lt; omega) with ⟨_, b', hb', _⟩ | ⟨_, f', b', hb', hsup'⟩
  · cases hf.buddy.symm.trans hb'
  · cases hf.buddy.symm.trans hb'
    exact hsup'

section

variable (h : Placed cfg n total l) (hnone : l.sys.translate (l.sys.procOf core) addr = none)
  (hown : ∀ w, (l.home (l.sys.procOf core) w).isSome → leafOf cfg w = slotOf addr cfg.mode → w = addr >>> cfg.z.pageShift)
include h hnone hown

/-- If its page has a leaf of its own, a page fault moves no page of the record. -/
theorem fault_pageAt {q : Nat} {w : Address} (hw : (l.home q w).isSome) : s'.pageAt cfg q w = l.sys.pageAt cfg q w := by
  refine (hf.translate q _).trans (if_neg ?_)
  rintro ⟨rfl, hslot⟩
  rw [hown w hw hslot] at hw
  exact h.not_home_of_fault hlay hnone hw

theorem fault : Placed cfg n total ⟨s', recordHome l.home (l.sys.procOf core) (addr >>> cfg.z.pageShift) f⟩ := by
  obtain ⟨frames, hsup, hmem⟩ := h.supply
  have hleaf := hlay.leafOf_page addr
  have hsup' := fault_supplies hf hlay hsup
  have hfresh : f ∉ frames := (nodup_cons.mp hsup'.nodup).1
  have hnew : s'.pageAt cfg (l.sys.procOf core) (addr >>> cfg.z.pageShift) = some (.page f) :=
    (hf.translate _ _).trans (if_pos ⟨rfl, hleaf⟩)
  have hkeep : ∀ q w, (l.home q w).isSome → s'.pageAt cfg q w = l.sys.pageAt cfg q w :=
    fun q w hw => h.fault_pageAt hf hlay hnone hown hw
  refine ⟨hf.tables, (hf.tlbs h.tlbs).1, ⟨f :: frames, hsup', ?_⟩, ?_, ?_, ?_, ?_, ?_, ?_, ?_⟩
  · intro q w g hg
    rcases recordHome_eq_some hg with ⟨_, _, rfl⟩ | hg
    · exact mem_cons_self
    · exact mem_cons_of_mem f (hmem q w g hg)
  · intro q1 w1 q2 w2 g h1 h2
    rcases recordHome_eq_some h1 with ⟨rfl, rfl, rfl⟩ | hold1
    · rcases recordHome_eq_some h2 with ⟨rfl, rfl, _⟩ | hold2
      · exact ⟨rfl, rfl⟩
      · exact absurd (hmem q2 w2 g hold2) hfresh
    · rcases recordHome_eq_some h2 with ⟨_, _, rfl⟩ | hold2
      · exact absurd (hmem q1 w1 g hold1) hfresh
      · exact h.inj q1 w1 q2 w2 g hold1 hold2
  · intro q w1 w2 h1 h2 hslot
    rcases recordHome_isSome.mp h1 with ⟨rfl, rfl⟩ | h1
    · rcases recordHome_isSome.mp h2 with ⟨_, rfl⟩ | h2
      · rfl
      · exact (hown w2 h2 (hslot.symm.trans hleaf)).symm
    · rcases recordHome_isSome.mp h2 with ⟨rfl, rfl⟩ | h2
      · exact hown w1 h1 (hslot.trans hleaf)
      · exact h.leaf q w1 w2 h1 h2 hslot
  · intro q w g hg
    rcases recordHome_eq_some hg with ⟨rfl, rfl, rfl⟩ | hg
    · exact .inl hnew
    · rw [hf.dram, hkeep q w (by rw [hg]; rfl)]
      exact h.place q w g hg
  · intro q a tg htr
    rw [hf.translate q a] at htr
    split at htr
    · next hc => exact ⟨_, recordHome_isSome.mpr (.inl ⟨hc.1, rfl⟩), hc.2.trans hleaf.symm⟩
    · obtain ⟨w, hw, hslot⟩ := h.only q a tg htr
      exact ⟨w, recordHome_isSome.mpr (.inr hw), hslot⟩
  · intro b hused
    rw [hf.dram] at hused ⊢
    obtain ⟨q, hq, hb⟩ := h.cached b hused
    exact ⟨q, recordHome_isSome.mpr (.inr hq), (hkeep q _ hq).trans hb⟩
  · intro q a b htr
    rw [hf.translate q a] at htr
    split at htr
    · cases htr
    · exact h.blocks q a b htr
  · intro b hb
    rw [hf.dram] at hb
    exact h.pools b hb

end

end Fault

/-- A block that holds a page of the process at work, in the sense that its table maps the
page the block names to the block, holds a page that was faulted in. -/
theorem home_of_block (h : Placed cfg n total l) {p b : Nat}
    (hb : l.sys.pageAt cfg p (l.sys.dram.bufferArray b).vaddr = some (.block b)) :
    l.home p (l.sys.dram.bufferArray b).vaddr = some (l.sys.dram.bufferArray b).originalAddr := by
  obtain ⟨u, hu, hslot⟩ := h.only p _ _ hb
  obtain ⟨f, hf⟩ := isSome_iff_exists.mp hu
  obtain ⟨_, horig, hvaddr⟩ := h.of_block hf ((h.tables.translate_congr hslot).symm.trans hb)
  rw [horig, hvaddr]
  exact hf

section Migrate

variable {core b : Nat} {v f : Address} {s' : System} (hm : System.Migrated cfg l.sys core b v f s')
  (hhome : l.home (l.sys.procOf core) v = some f)
  (hown : (l.sys.dram.bufferArray b).used = true →
    l.sys.pageAt cfg (l.sys.procOf core) (l.sys.dram.bufferArray b).vaddr = some (.block b))

include hm hhome hown

/-- In a migration of a page of the process at work, to a block that is free or holds
another page of that process, a page faulted in is the one cached, the one that has to
leave the block, or stays. -/
theorem migrate_cases (h : Placed cfg n total l) {q : Nat} {w : Address} (hsome : (l.home q w).isSome) :
    (q = l.sys.procOf core ∧ w = v ∧ s'.pageAt cfg q w = some (.block b)) ∨
    ((l.sys.dram.bufferArray b).used = true ∧ q = l.sys.procOf core ∧ w = (l.sys.dram.bufferArray b).vaddr ∧
      s'.pageAt cfg q w = some (.page (l.sys.dram.bufferArray b).originalAddr)) ∨
    (s'.pageAt cfg q w = l.sys.pageAt cfg q w ∧ l.sys.pageAt cfg q w ≠ some (.block b)) := by
  by_cases hcached : q = l.sys.procOf core ∧ leafOf cfg w = leafOf cfg v
  · obtain ⟨rfl, hslot⟩ := hcached
    exact .inl ⟨rfl, h.leaf _ w v hsome (by rw [hhome]; rfl) hslot, (hm.translate _ _).trans (if_pos ⟨rfl, hslot⟩)⟩
  by_cases hretired : (l.sys.dram.bufferArray b).used = true ∧ q = l.sys.procOf core ∧
      leafOf cfg w = leafOf cfg (l.sys.dram.bufferArray b).vaddr
  · obtain ⟨hused, rfl, hslot⟩ := hretired
    have hbsome : (l.home (l.sys.procOf core) (l.sys.dram.bufferArray b).vaddr).isSome := by
      rw [h.home_of_block (hown hused)]; rfl
    refine .inr (.inl ⟨hused, rfl, h.leaf _ w _ hsome hbsome hslot, ?_⟩)
    exact (hm.translate _ _).trans ((if_neg hcached).trans (if_pos ⟨hused, rfl, hslot⟩))
  · refine .inr (.inr ⟨(hm.translate q _).trans ((if_neg hcached).trans (if_neg hretired)), fun hblock => ?_⟩)
    obtain ⟨g, hg⟩ := isSome_iff_exists.mp hsome
    obtain ⟨hused, horig, hvaddr⟩ := h.of_block hg hblock
    have hmine := h.home_of_block (hown hused)
    rw [horig] at hmine
    obtain ⟨hq, hw⟩ := h.inj _ _ _ _ _ hg hmine
    exact hretired ⟨hused, hq, by rw [hw]⟩

theorem migrate (h : Placed cfg n total l) (hw : s'.TlbsOk) (hb : b < total)
    (hpage : l.sys.pageAt cfg (l.sys.procOf core) v = some (.page f)) : Placed cfg n total ⟨s', l.home⟩ := by
  obtain ⟨frames, hsup, hmem⟩ := h.supply
  have hvsome : (l.home (l.sys.procOf core) v).isSome := by rw [hhome]; rfl
  have hnew : s'.pageAt cfg (l.sys.procOf core) v = some (.block b) := (hm.translate _ _).trans (if_pos ⟨rfl, rfl⟩)
  obtain ⟨hused', horig', hvaddr'⟩ := hm.block
  refine ⟨hm.tables, hw, ⟨frames, hm.supplies n frames hsup, hmem⟩, h.inj, h.leaf, ?_, ?_, ?_, ?_, ?_⟩
  · intro q w g hg
    rcases h.migrate_cases hm hhome hown (q := q) (w := w) (by rw [hg]; rfl) with
      ⟨rfl, rfl, _⟩ | ⟨hused, rfl, rfl, hat⟩ | ⟨hat, hne⟩
    · cases hhome.symm.trans hg
      exact .inr ⟨b, hnew, hused', horig', hvaddr'⟩
    · cases (h.home_of_block (hown hused)).symm.trans hg
      exact .inl hat
    · rcases h.place q w g hg with hp | ⟨c, hc, hrest⟩
      · exact .inl (hat.trans hp)
      · have hcb : c ≠ b := by
          rintro rfl
          exact hne hc
        obtain ⟨hu, ho, hv⟩ := hm.others c hcb
        exact .inr ⟨c, hat.trans hc, hu.trans hrest.1, ho.trans hrest.2.1, hv.trans hrest.2.2⟩
  · intro q a tg htr
    rw [hm.translate q a] at htr
    split at htr
    · next hc =>
      refine ⟨v, ?_, hc.2⟩
      rw [hc.1]
      exact hvsome
    · split at htr
      · next hc =>
        refine ⟨_, ?_, hc.2.2⟩
        rw [hc.2.1, h.home_of_block (hown hc.1)]
        rfl
      · exact h.only q a tg htr
  · intro c hused
    by_cases hcb : c = b
    · subst hcb
      refine ⟨l.sys.procOf core, ?_, ?_⟩
      · rw [hvaddr']; exact hvsome
      · rw [hvaddr']; exact hnew
    · obtain ⟨hu, _, hv⟩ := hm.others c hcb
      obtain ⟨q, hq, hc⟩ := h.cached c (hu.symm.trans hused)
      refine ⟨q, by rw [hv]; exact hq, ?_⟩
      rw [hv]
      rcases h.migrate_cases hm hhome hown hq with ⟨rfl, hwv, _⟩ | ⟨hused, rfl, hwv, _⟩ | ⟨hat, _⟩
      · rw [hwv, hpage] at hc
        cases hc
      · rw [hwv, hown hused] at hc
        cases hc
        exact absurd rfl hcb
      · exact hat.trans hc
  · intro q a c htr
    rw [hm.translate q a] at htr
    split at htr
    · cases htr
      exact hb
    · split at htr
      · cases htr
      · exact h.blocks q a c htr
  · exact fun c hc => h.pools c (hm.holds c hc)

end Migrate

end Placed

end Shma.Walker
