import Shma.Cache.Runs

/-!
# Flushing a page

`TimingCore::clflush` flushes the lines of a page one after the other, through the
instruction and the data cache of the core. Each of the two acts only on a line
that its filter array names and its array has; then the line goes from all caches.
-/
namespace Shma.Cache

open Lib.Run Lib.Subtree MESIState
open FilterCache (clflushAll entry)
open List (nil_suffix range')

variable {t : Topology} {h h' h'' : Hierarchy} {p q : Path} {a b : Address}

structure Core (t : Topology) where
  (l1i l1d : Path)
  l1i_terminal : t.isTerminal l1i
  l1d_terminal : t.isTerminal l1d
  l1i_ne : l1i ≠ []
  l1d_ne : l1d ≠ []

/-- What `TimingCore::clflush` reads of the machine: lines per page, and what decides how long a
write takes. -/
structure FlushConfig where
  lineNum : Nat
  enableSharedMemory : Bool
  memAccessTime : Nat
  issuable : Address → Bool

/-- The topmost cache's `invalidate`, as `clflush_all` calls it. -/
def rootInvalidate (t : Topology) (a : Address) (cycle : Nat) (h : Hierarchy) : Option (Nat × Hierarchy) :=
  (invalidate t [] a .inv true cycle h).map fun r => (r.cycle, r.caches)

namespace TimingCore

structure Flushing where
  (maxCycle writeBacks : Nat)
  caches : Hierarchy

section

variable (t : Topology) (cfg : FlushConfig) (core : Core t)

/-- One turn of the loop. The data cache's `dirty` overwrites the instruction cache's. -/
def flushLine (startCycle : Nat) (s : Flushing) (fetchAddr : Address) : Option Flushing :=
  (FilterCache.clflush t core.l1i (rootInvalidate t) fetchAddr startCycle true s.caches).bind fun i =>
  (FilterCache.clflush t core.l1d (rootInvalidate t) fetchAddr startCycle true i.2.2).map fun d =>
    let maxCycle := max (max s.maxCycle i.1) d.1
    if d.2.1 then
      { maxCycle :=
          if cfg.enableSharedMemory || cfg.issuable fetchAddr then maxCycle else maxCycle + cfg.memAccessTime
        writeBacks := s.writeBacks + 1
        caches := d.2.2 }
    else { maxCycle := maxCycle, writeBacks := s.writeBacks, caches := d.2.2 }

/-- `TimingCore::clflush`, from the first line of a page. -/
def clflush (startAddr : Address) (startCycle : Nat) (h : Hierarchy) : Option Flushing :=
  (run (flushLine t cfg core startCycle) ⟨startCycle, 0, h⟩ (range' startAddr cfg.lineNum)).map fun s =>
    if cfg.enableSharedMemory = true ∧ s.writeBacks ≠ 0 then
      { s with maxCycle := s.maxCycle + 60 * s.writeBacks }
    else s

end

def clflushCacheline (t : Topology) (core : Core t) (startAddr : Address) (startCycle : Nat) (h : Hierarchy) :
    Option (Nat × Hierarchy) :=
  (FilterCache.clflush t core.l1i (rootInvalidate t) startAddr startCycle false h).bind fun i =>
  (FilterCache.clflush t core.l1d (rootInvalidate t) startAddr startCycle false i.2.2).map fun d =>
    (max (max startCycle i.1) d.1, d.2.2)

/-- `TimingCore::contextSwitch`, when the thread leaves the core. -/
def contextSwitch (core : Core t) (h : Hierarchy) : Hierarchy :=
  FilterCache.contextSwitch core.l1d (FilterCache.contextSwitch core.l1i h)

end TimingCore

/-! ### One cache, one line -/

variable (t) in
/-- The cache at `p` acts on a flush of line `a`: its filter array names the line, and its array
has it. -/
def Acts (p : Path) (h : Hierarchy) (a : Address) : Prop :=
  (a = (entry t p h a).rdAddr ∨ a = (entry t p h a).wrAddr) ∧
    (t.lookup p (h p).array a).isSome
  deriving Decidable

section

variable (hi : Coherent t h) (hp : p ≠ []) (a : Address) (cycle : Nat)
include hi hp

theorem clflushAll_spec : ∃ r h', clflushAll t p (rootInvalidate t) a cycle h = some (r, h') ∧
      ((t.lookup p (h p).array a).isSome ∧ Invalidated t .inv [] a h h' ∨
        ¬ (t.lookup p (h p).array a).isSome ∧ h' = h) := by
  rw [clflushAll]
  cases t.lookup p (h p).array a with
  | none => exact ⟨cycle, h, rfl, .inr ⟨Bool.false_ne_true, rfl⟩⟩
  | some id =>
    obtain ⟨r, hr, hinv, -⟩ := @invalidate_spec t h a .inv [] true cycle (fun q _ => hi.line a q) trivial
    refine ⟨r.cycle, r.caches, ?_, .inl ⟨rfl, hinv⟩⟩
    simp only [if_neg hp, rootInvalidate, hr]
    rfl

theorem filterClflush_spec : ∃ r h', FilterCache.clflush t p (rootInvalidate t) a cycle true h =
        some (r, decide (a = (entry t p h a).wrAddr), h') ∧
      (Acts t p h a ∧ Invalidated t .inv [] a h h' ∨ ¬ Acts t p h a ∧ h' = h) := by
  rw [FilterCache.clflush, if_neg (by decide)]
  by_cases hnamed : a = (entry t p h a).rdAddr ∨ a = (entry t p h a).wrAddr
  · obtain ⟨r, h', hr, hcases⟩ := clflushAll_spec hi hp a cycle
    rw [if_pos hnamed, hr]
    refine ⟨r, h', rfl, ?_⟩
    rcases hcases with ⟨hhas, hinv⟩ | ⟨hhas, rfl⟩
    · exact .inl ⟨⟨hnamed, hhas⟩, hinv⟩
    · exact .inr ⟨fun hacts => hhas hacts.2, rfl⟩
  · rw [if_neg hnamed]
    refine ⟨cycle, h, ?_, .inr ⟨fun hacts => hnamed hacts.1, rfl⟩⟩
    rw [decide_eq_false fun hw => hnamed (.inr hw)]

theorem filterClflush_cacheline :
    ∃ r h', FilterCache.clflush t p (rootInvalidate t) a cycle false h =
        some (r, decide (a = (entry t p h a).wrAddr), h') ∧
      (Invalidated t .inv [] a h h' ∨ h' = h) := by
  rw [FilterCache.clflush]
  obtain ⟨r, h', hr, hcases⟩ := clflushAll_spec hi hp a cycle
  rcases hcases with ⟨hhas, hinv⟩ | ⟨hhas, rfl⟩
  · rw [if_pos hhas, hr]
    exact ⟨r, h', rfl, .inl hinv⟩
  · rw [if_neg hhas]
    exact ⟨cycle, h', rfl, .inr rfl⟩

end

/-! ### What a flush leaves of another line -/

variable (t) in
/-- Nothing that concerns line `b` has changed. -/
structure SameLine (b : Address) (h h' : Hierarchy) : Prop where
  states : ∀ q, stateAt t h' q b = stateAt t h q b
  array : ∀ q, (h' q).array = (h q).array
  rdAddr : ∀ q, t.isTerminal q →
    (b = (entry t q h' b).rdAddr ↔ b = (entry t q h b).rdAddr)
  wrAddr : ∀ q, t.isTerminal q →
    (b = (entry t q h' b).wrAddr ↔ b = (entry t q h b).wrAddr)

namespace SameLine

theorem refl (b : Address) (h : Hierarchy) : SameLine t b h h :=
  ⟨fun _ => rfl, fun _ => rfl, fun _ _ => Iff.rfl, fun _ _ => Iff.rfl⟩

theorem trans (hs : SameLine t b h h') (hs' : SameLine t b h' h'') : SameLine t b h h'' where
  states q := (hs'.states q).trans (hs.states q)
  array q := (hs'.array q).trans (hs.array q)
  rdAddr q hq := (hs'.rdAddr q hq).trans (hs.rdAddr q hq)
  wrAddr q hq := (hs'.wrAddr q hq).trans (hs.wrAddr q hq)

theorem acts_iff (hs : SameLine t b h h') (hp : t.isTerminal p) : Acts t p h' b ↔ Acts t p h b := by
  rw [Acts, Acts, hs.rdAddr p hp, hs.wrAddr p hp, hs.array p]

end SameLine

variable (t) in
structure Orderly (h : Hierarchy) : Prop where
  coherent : Coherent t h
  writesReads : ∀ p, t.isTerminal p → WritesReads (h p).filterArray

variable {f : Nat → FilterEntry}

theorem clearFilter_other (hf : WritesReads f) (hab : b ≠ a) (hb : b ≠ noAddr) :
    (b = (t.clearFilter p a f (t.filterIdx p b)).rdAddr ↔ b = (f (t.filterIdx p b)).rdAddr) ∧
      (b = (t.clearFilter p a f (t.filterIdx p b)).wrAddr ↔ b = (f (t.filterIdx p b)).wrAddr) := by
  rw [Topology.clearFilter]
  split
  · next hrd =>
    by_cases hidx : t.filterIdx p b = t.filterIdx p a
    · rw [hidx, update_self, hrd]
      have hwr : b ≠ (f (t.filterIdx p a)).wrAddr := by
        intro hw
        rcases hf (t.filterIdx p a) with hw' | hw'
        · exact hb (hw.trans hw')
        · exact hab (hw.trans (hw'.trans hrd))
      exact ⟨iff_of_false hb hab, iff_of_false hb hwr⟩
    · rw [update_of_ne hidx]
      exact ⟨Iff.rfl, Iff.rfl⟩
  · exact ⟨Iff.rfl, Iff.rfl⟩

namespace Invalidated

variable (hinv : Invalidated t .inv [] a h h')
include hinv

/-- The filter arrays after a flush from the root. -/
theorem filter_cases (q : Path) :
    (h' q).filterArray = (h q).filterArray ∨ (h' q).filterArray = t.clearFilter q a (h q).filterArray := by
  by_cases hq : q = []
  · subst hq
    rw [hinv.filter_self]
    split
    · exact .inr rfl
    · exact .inl rfl
  · rw [hinv.filters q nil_suffix hq, filterAfter]
    split
    · exact .inr rfl
    · exact .inl rfl

theorem orderly (ho : Orderly t h) : Orderly t h' where
  coherent := hinv.coherent ho.coherent
  writesReads p hp := by
    rcases hinv.filter_cases p with hf | hf
    · rw [hf]
      exact ho.writesReads p hp
    · rw [hf]
      exact (ho.writesReads p hp).clearFilter t p a

theorem sameLine (ho : Orderly t h) (hab : b ≠ a) (hb : b ≠ noAddr) : SameLine t b h h' := by
  have hentry : ∀ q, t.isTerminal q →
      (b = (entry t q h' b).rdAddr ↔ b = (entry t q h b).rdAddr) ∧
        (b = (entry t q h' b).wrAddr ↔ b = (entry t q h b).wrAddr) := by
    intro q hq
    rw [entry]
    rcases hinv.filter_cases q with hf | hf
    · rw [hf]
      exact ⟨Iff.rfl, Iff.rfl⟩
    · rw [hf]
      exact clearFilter_other (ho.writesReads q hq) hab hb
  exact ⟨fun q => hinv.only.stateAt_of_ne hab q, hinv.only.array, fun q hq => (hentry q hq).1,
    fun q hq => (hentry q hq).2⟩

theorem gone (q : Path) : stateAt t h' q a = .I :=
  hinv.states q nil_suffix

end Invalidated

theorem clearFilter_self (hf : WritesReads f) (ha : a ≠ noAddr) :
    a ≠ (t.clearFilter p a f (t.filterIdx p a)).wrAddr := by
  rw [Topology.clearFilter]
  split
  · rw [update_self]
    exact ha
  · next hrd =>
    intro hw
    rcases hf (t.filterIdx p a) with hw' | hw'
    · exact ha (hw.trans hw')
    · exact hrd (hw'.symm.trans hw.symm)

theorem Coherent.all_invalid (hi : Coherent t h) (hroot : stateAt t h [] a = .I) (q : Path) : stateAt t h q a = .I := by
  apply suffix_induction (motive := fun q => stateAt t h q a = .I) hroot _ nil_suffix
  intro c q _ hq
  exact hi.below_invalid hq c

/-! ### One line of the page -/

section Page

variable (t) in
/-- What it takes for line `a` to be gone after the core flushed it. -/
def Flushable (core : Core t) (h : Hierarchy) (a : Address) : Prop :=
  stateAt t h [] a = .I ∨ Acts t core.l1i h a ∨ Acts t core.l1d h a

variable (t) in
/-- What it takes for the flush of line `a` to be counted: the data cache's filter entry for
writes, unless the instruction cache's turn has cleared it. -/
def Noticed (core : Core t) (h : Hierarchy) (a : Address) : Prop :=
  a = (entry t core.l1d h a).wrAddr ∧ ¬ (Acts t core.l1i h a ∧ stateAt t h core.l1d a ≠ .I)

variable {cfg : FlushConfig} {core : Core t} {startCycle : Nat}

variable (t) in
structure LineFlushed (core : Core t) (a : Address) (s s' : TimingCore.Flushing) : Prop where
  orderly : Orderly t s'.caches
  others : ∀ b, b ≠ a → b ≠ noAddr → SameLine t b s.caches s'.caches
  gone : (∀ q, stateAt t s'.caches q a = .I) ↔ Flushable t core s.caches a
  counted : s'.writeBacks = s.writeBacks + 1 ↔ Noticed t core s.caches a

theorem turn_keeps (ho : Orderly t h) (hturn : Acts t p h a ∧ Invalidated t .inv [] a h h' ∨ ¬ Acts t p h a ∧ h' = h) :
    Orderly t h' ∧ (∀ b, b ≠ a → b ≠ noAddr → SameLine t b h h') ∧
      ((∀ q, stateAt t h q a = .I) → ∀ q, stateAt t h' q a = .I) := by
  rcases hturn with ⟨-, hinv⟩ | ⟨-, rfl⟩
  · exact ⟨hinv.orderly ho, fun b hab hb => hinv.sameLine ho hab hb, fun _ => hinv.gone⟩
  · exact ⟨ho, fun b _ _ => .refl b h', fun hI => hI⟩

theorem wrAddr_after_l1i (ho : Orderly t h) (ha : a ≠ noAddr)
    (hturn : Acts t core.l1i h a ∧ Invalidated t .inv [] a h h' ∨ ¬ Acts t core.l1i h a ∧ h' = h) :
    a = (entry t core.l1d h' a).wrAddr ↔ Noticed t core h a := by
  rcases hturn with ⟨hacts, hinv⟩ | ⟨hacts, rfl⟩
  · rw [entry, hinv.filters core.l1d nil_suffix core.l1d_ne, filterAfter]
    by_cases hI : stateAt t h core.l1d a = .I
    · rw [if_neg fun hc => hc.2 hI]
      exact ⟨fun hw => ⟨hw, fun hc => hc.2 hI⟩, fun hw => hw.1⟩
    · rw [if_pos ⟨core.l1d_terminal, hI⟩]
      apply iff_of_false
      · exact clearFilter_self (ho.writesReads core.l1d core.l1d_terminal) ha
      · exact fun hw => hw.2 ⟨hacts, hI⟩
  · exact ⟨fun hw => ⟨hw, fun hc => hacts hc.1⟩, fun hw => hw.1⟩

theorem flushLine_spec (s : TimingCore.Flushing) (ho : Orderly t s.caches) (ha : a ≠ noAddr) :
    ∃ s', TimingCore.flushLine t cfg core startCycle s a = some s' ∧ LineFlushed t core a s s' := by
  obtain ⟨ri, h1, hri, hturn1⟩ := filterClflush_spec ho.coherent core.l1i_ne a startCycle
  obtain ⟨ho1, hsame1, hgone1⟩ := turn_keeps ho hturn1
  obtain ⟨rd, h2, hrd, hturn2⟩ := filterClflush_spec ho1.coherent core.l1d_ne a startCycle
  obtain ⟨ho2, hsame2, hgone2⟩ := turn_keeps ho1 hturn2
  have hothers : ∀ b, b ≠ a → b ≠ noAddr → SameLine t b s.caches h2 :=
    fun b hab hb => (hsame1 b hab hb).trans (hsame2 b hab hb)
  have hgone : (∀ q, stateAt t h2 q a = .I) ↔ Flushable t core s.caches a := by
    constructor
    · intro hI
      rcases hturn1 with ⟨hacts, -⟩ | ⟨-, rfl⟩
      · exact .inr (.inl hacts)
      · rcases hturn2 with ⟨hacts, -⟩ | ⟨-, rfl⟩
        · exact .inr (.inr hacts)
        · exact .inl (hI [])
    · intro hflush
      rcases hflush with hroot | hacts | hacts
      · exact hgone2 (hgone1 (ho.coherent.all_invalid hroot))
      · rcases hturn1 with ⟨-, hinv⟩ | ⟨hnot, -⟩
        · exact hgone2 hinv.gone
        · exact absurd hacts hnot
      · rcases hturn1 with ⟨-, hinv⟩ | ⟨-, rfl⟩
        · exact hgone2 hinv.gone
        · rcases hturn2 with ⟨-, hinv⟩ | ⟨hnot, -⟩
          · exact hinv.gone
          · exact absurd hacts hnot
  have hdirty := @wrAddr_after_l1i t s.caches h1 a core ho ha hturn1
  have hline : TimingCore.flushLine t cfg core startCycle s a = some
      (if a = (entry t core.l1d h1 a).wrAddr then
        { maxCycle :=
            if cfg.enableSharedMemory || cfg.issuable a then max (max s.maxCycle ri) rd
            else max (max s.maxCycle ri) rd + cfg.memAccessTime
          writeBacks := s.writeBacks + 1, caches := h2 }
      else { maxCycle := max (max s.maxCycle ri) rd, writeBacks := s.writeBacks, caches := h2 }) := by
    rw [TimingCore.flushLine, hri, bind_some, hrd, map_some]
    simp only [decide_eq_true_eq]
  refine ⟨_, hline, ?_⟩
  split
  · next hw => exact ⟨ho2, hothers, hgone, iff_of_true rfl (hdirty.mp hw)⟩
  · next hw => exact ⟨ho2, hothers, hgone, iff_of_false (by simp) fun hn => hw (hdirty.mpr hn)⟩

/-! ### The lines of the page -/

theorem SameLine.flushable_iff (hs : SameLine t b h h') : Flushable t core h' b ↔ Flushable t core h b := by
  rw [Flushable, Flushable, hs.states, hs.acts_iff core.l1i_terminal, hs.acts_iff core.l1d_terminal]

theorem SameLine.noticed_iff (hs : SameLine t b h h') : Noticed t core h' b ↔ Noticed t core h b := by
  rw [Noticed, Noticed, hs.states, hs.acts_iff core.l1i_terminal, hs.wrAddr core.l1d core.l1d_terminal]

variable (t) in
/-- What the loop leaves, in terms of the caches it started with: the turns of other lines do not
matter to a line. -/
structure LinesFlushed (core : Core t) (lines : List Address) (s s' : TimingCore.Flushing) : Prop where
  orderly : Orderly t s'.caches
  others : ∀ b, b ∉ lines → b ≠ noAddr → SameLine t b s.caches s'.caches
  gone : ∀ a ∈ lines, ((∀ q, stateAt t s'.caches q a = .I) ↔ Flushable t core s.caches a)

variable {s : TimingCore.Flushing}

theorem LinesFlushed.nil (ho : Orderly t s.caches) : LinesFlushed t core [] s s where
  orderly := ho
  others b _ _ := .refl b s.caches
  gone _ ha := absurd ha not_mem_nil

variable {s' : TimingCore.Flushing}

theorem LineFlushed.cons {lines : List Address} {s1 : TimingCore.Flushing} (hfirst : LineFlushed t core a s s1)
    (hrest : LinesFlushed t core lines s1 s') (ha : a ≠ noAddr) (hnew : a ∉ lines)
    (hlines : ∀ b ∈ lines, b ≠ noAddr) : LinesFlushed t core (a :: lines) s s' where
  orderly := hrest.orderly
  others b hb hb' := by
    rw [mem_cons, not_or] at hb
    exact (hfirst.others b hb.1 hb').trans (hrest.others b hb.2 hb')
  gone b hb := by
    rcases mem_cons.mp hb with rfl | hb
    · rw [← hfirst.gone]
      exact forall_congr' fun q => by rw [(hrest.others b hnew ha).states q]
    · have hba : b ≠ a := fun h => hnew (h ▸ hb)
      rw [hrest.gone b hb, (hfirst.others b hba (hlines b hb)).flushable_iff]

theorem flushLines_spec (lines : List Address) (hnodup : lines.Nodup) (hlines : ∀ a ∈ lines, a ≠ noAddr) :
    ∀ s : TimingCore.Flushing, Orderly t s.caches →
      ∃ s', run (TimingCore.flushLine t cfg core startCycle) s lines = some s' ∧ LinesFlushed t core lines s s' := by
  induction lines with
  | nil => exact fun s ho => ⟨s, rfl, .nil ho⟩
  | cons a lines ih =>
    intro s ho
    rw [nodup_cons] at hnodup
    rw [forall_mem_cons] at hlines
    obtain ⟨s1, hstep, hfirst⟩ := @flushLine_spec t a cfg core startCycle s ho hlines.1
    obtain ⟨s', hrun, hrest⟩ := ih hnodup.2 hlines.2 s1 hfirst.orderly
    refine ⟨s', ?_, hfirst.cons hrest hlines.1 hnodup.1 hlines.2⟩
    rw [run_cons, hstep, bind_some, hrun]

/-- A page, by its first line; the address after its last line does not wrap around. -/
structure Page (cfg : FlushConfig) where
  first : Nat
  fits : first + cfg.lineNum < 2 ^ 64

namespace Page

variable (page : Page cfg)

def lines : List Address := range' page.first cfg.lineNum

variable {n : Nat}

theorem ne_noAddr_of_lt (hn : n ≤ cfg.lineNum) : ∀ a ∈ range' page.first n, a ≠ noAddr := by
  intro a ha hno
  have hlt : a < page.first + n := (mem_range'_1.mp ha).2
  have hval : a = 2 ^ 64 - 1 := hno
  have hfits := page.fits
  omega

theorem run_flushLine (hn : n ≤ cfg.lineNum) (ho : Orderly t h) :
    ∃ s, run (TimingCore.flushLine t cfg core startCycle) ⟨startCycle, 0, h⟩ (range' page.first n) = some s ∧
      LinesFlushed t core (range' page.first n) ⟨startCycle, 0, h⟩ s :=
  flushLines_spec _ List.nodup_range' (page.ne_noAddr_of_lt hn) _ ho

end Page

variable {page : Page cfg}

theorem clflush_spec (ho : Orderly t h) (core : Core t) (page : Page cfg) (startCycle : Nat) :
    ∃ s, TimingCore.clflush t cfg core page.first startCycle h = some s ∧
      LinesFlushed t core page.lines ⟨startCycle, 0, h⟩ s := by
  obtain ⟨s, hrun, hs⟩ := @Page.run_flushLine t h cfg core startCycle page cfg.lineNum le_rfl ho
  rw [TimingCore.clflush, hrun, map_some]
  refine ⟨_, rfl, ?_⟩
  split
  · exact { hs with }
  · exact hs

variable (t) in
/-- The turn of line `a` adds to `write_backs`. -/
def Counted (core : Core t) (page : Page cfg) (startCycle : Nat) (h : Hierarchy) (a : Address) : Prop :=
  ∃ s s', run (TimingCore.flushLine t cfg core startCycle) ⟨startCycle, 0, h⟩
      (range' page.first (a - page.first)) = some s ∧
    TimingCore.flushLine t cfg core startCycle s a = some s' ∧ s'.writeBacks = s.writeBacks + 1

theorem counted_iff (ho : Orderly t h) (ha : a ∈ page.lines) :
    Counted t core page startCycle h a ↔ Noticed t core h a := by
  obtain ⟨hle, hlt⟩ := mem_range'_1.mp ha
  have hne : a ≠ noAddr := page.ne_noAddr_of_lt le_rfl a ha
  obtain ⟨s, hrun, hs⟩ := @Page.run_flushLine t h cfg core startCycle page (a - page.first) (by omega) ho
  obtain ⟨s', hstep, hs'⟩ := @flushLine_spec t a cfg core startCycle s hs.orderly hne
  have hnew : a ∉ range' page.first (a - page.first) := by
    rw [mem_range'_1]
    omega
  rw [← (hs.others a hnew hne).noticed_iff, ← hs'.counted]
  constructor
  · rintro ⟨u, u', hu, hu', hcount⟩
    obtain rfl : s = u := mem_unique hrun hu
    obtain rfl : s' = u' := mem_unique hstep hu'
    exact hcount
  · exact fun hcount => ⟨s, s', hrun, hstep, hcount⟩

theorem writeBacks_le_flushLine
    (hstep : TimingCore.flushLine t cfg core startCycle s a = some s') : s.writeBacks ≤ s'.writeBacks := by
  obtain ⟨i, -, hstep⟩ := bind_eq_some_iff.mp hstep
  obtain ⟨d, -, rfl⟩ := map_eq_some_iff.mp hstep
  split
  · exact Nat.le_succ _
  · exact le_rfl

theorem writeBacks_le_run (lines : List Address)
    (hrun : run (TimingCore.flushLine t cfg core startCycle) s lines = some s') : s.writeBacks ≤ s'.writeBacks := by
  have hkeep : ∀ u a u', s.writeBacks ≤ u.writeBacks → True →
      TimingCore.flushLine t cfg core startCycle u a = some u' → s.writeBacks ≤ u'.writeBacks :=
    fun u a u' hu _ hstep => hu.trans (writeBacks_le_flushLine hstep)
  exact run_invariant _ hkeep lines le_rfl (allSteps_of_forall _ (fun _ _ => trivial) s lines) hrun

theorem range'_split {first n a : Nat} (ha : a ∈ range' first n) :
    range' first n = range' first (a - first) ++ a :: range' (a + 1) (first + n - (a + 1)) := by
  obtain ⟨hle, hlt⟩ := mem_range'_1.mp ha
  have hfront : first + (a - first) = a := by omega
  have hback : first + n - (a + 1) + 1 = first + n - a := by omega
  have htotal : a - first + (first + n - a) = n := by omega
  have happ := @List.range'_append_1 first (a - first) (first + n - a)
  rw [hfront, htotal, ← hback] at happ
  exact happ.symm

/-- What one line adds, `write_backs` keeps to the end. -/
theorem Counted.writeBacks_ne_zero (hcounted : Counted t core page startCycle h a)
    (ha : a ∈ page.lines) (hs : TimingCore.clflush t cfg core page.first startCycle h = some s) :
    s.writeBacks ≠ 0 := by
  obtain ⟨u, u', hu, hu', hcount⟩ := hcounted
  obtain ⟨s1, hrun, rfl⟩ := map_eq_some_iff.mp hs
  rw [range'_split ha, run_append, hu, bind_some, run_cons, hu'] at hrun
  have hrest := writeBacks_le_run _ hrun
  have hne : s1.writeBacks ≠ 0 := by omega
  split
  · exact hne
  · exact hne

end Page

end Shma.Cache
