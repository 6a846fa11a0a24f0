import Shma.Lib.Rotation
import Shma.Nvmain.MQMigrator
import Shma.Nvmain.MultiQueueMigrator
import Shma.Nvmain.PromotionPages

/-!
# The victims of the multi-queue migrator

`TryMigration` and `ChooseVictim` of `Utils/MultiQueueMigrator/MultiQueueMigrator.cpp` over the
decoder `MQMigrator`. The search for a victim counts the pages of the promotion channel around
and skips those on `DRAMPageList`, to which every page of this channel goes when it is accessed.

Requests come from the hook after an issue. The physical addresses of the two rows are left out,
as nothing here reads them, and of the reads and writes of a migration only the states that they
set are kept.
-/
namespace Shma.Nvmain

open Lib Lib.Run Lib.Rotation

def thresholdQueue : Nat := 4

namespace MQMigrator

/-- What the maps of the decoder hold at any time. -/
structure Records (g : Geometry) (mm : MQMigrator) : Prop where
  channels : ∀ k channel, mm.migrationMap k = some channel → channel < g.count .channel
  /-- Only the pages of the migration in progress are not done. -/
  done : ∀ k, mm.migrationMap k ≠ none → mm.migrationState k = some .done ∨
    mm.migrating = true ∧ (k = mm.inputPage ∨ k = mm.outputPage)

variable {g : Geometry} {mm mm' : MQMigrator} {r demotee : Row}

theorem Records.done_of_idle (h : Records g mm) (hidle : mm.migrating = false) {k : Nat}
    (hk : mm.migrationMap k ≠ none) : mm.migrationState k = some .done := by
  refine (h.done k hk).resolve_right fun hmig => ?_
  rw [hidle] at hmig
  exact absurd hmig.1 Bool.false_ne_true

theorem Records.underway (h : Records g mm) (hidle : mm.migrating = false) (hr : g.HasRow r)
    (hdemotee : g.HasRow demotee) (hunder : Underway ⟨r, demotee, []⟩ mm mm') : Records g mm' where
  channels k channel hk := by
    rw [hunder.map] at hk
    by_cases hkd : k = mm.getAddressKey demotee
    · rw [hkd, update_self] at hk
      rw [← some_inj.mp hk]
      exact hr.channel
    · rw [update_of_ne hkd] at hk
      by_cases hkr : k = mm.getAddressKey r
      · rw [hkr, update_self] at hk
        rw [← some_inj.mp hk]
        exact hdemotee.channel
      · rw [update_of_ne hkr] at hk
        exact h.channels k channel hk
  done k hk := by
    have hin : mm'.inputPage = mm.getAddressKey r := by rw [hunder.rest]
    have hout : mm'.outputPage = mm.getAddressKey demotee := by rw [hunder.rest]
    rw [hin, hout]
    by_cases hpages : k = mm.getAddressKey r ∨ k = mm.getAddressKey demotee
    · cases hmig : mm'.migrating with
      | true => exact .inr ⟨rfl, hpages⟩
      | false =>
        left
        obtain rfl | rfl := hpages
        · exact (hunder.done hmig).1
        · exact (hunder.done hmig).2
    · obtain ⟨hkr, hkd⟩ := not_or.mp hpages
      rw [hunder.map, update_of_ne hkd, update_of_ne hkr] at hk
      left
      rw [hunder.others k hkr hkd]
      exact h.done_of_idle hidle hk

theorem Records.setMigrationState (h : Records g mm) (hmig : mm.migrating = true) {newState : MigrationState}
    (hr : mm.getAddressKey r = mm.inputPage ∨ mm.getAddressKey r = mm.outputPage)
    (hs : mm.setMigrationState r newState = some mm') : Records g mm' := by
  obtain ⟨_, hs⟩ := assertThat_bind_eq_some.mp hs
  obtain ⟨_, rfl⟩ := assertThat_map_eq_some.mp hs
  refine ⟨h.channels, fun k hk => ?_⟩
  by_cases hpages : k = mm.inputPage ∨ k = mm.outputPage
  · cases hmig' : (mm.putState (mm.getAddressKey r) newState).migrating with
    | true => exact .inr ⟨rfl, hpages⟩
    | false =>
      left
      obtain rfl | rfl := hpages
      · exact (done_of_ended hmig hmig').1
      · exact (done_of_ended hmig hmig').2
  · left
    have hne : k ≠ mm.getAddressKey r := by
      rintro rfl
      exact hpages hr
    refine (update_of_ne hne _ _).trans ?_
    exact (h.done k hk).resolve_right fun hold => hpages hold.2

end MQMigrator

structure MQSystem where
  mq : MultiQueueMigrator
  decoder : MQMigrator
  pages : PageCounter
  (promotee demotee : Row)
  /-- How often the loop of `ChooseVictim` has been passed. -/
  scanned : Nat
  /-- What the calls of `ChooseVictim` have returned. -/
  victims : List Row
  /-- The victims that a migration was started for. -/
  exchanged : List Row

namespace MQSystem

def new (promotionChannel : Nat) (decoder : MQMigrator) : MQSystem where
  mq := .new promotionChannel
  decoder
  pages := .new
  promotee := ⟨0, 0, 0, 0, 0⟩
  demotee := ⟨0, 0, 0, 0, 0⟩
  scanned := 0
  victims := []
  exchanged := []

def nextPage (pages : PageCounter) : PageCounter :=
  { pages with currentPromotionPage := (pages.currentPromotionPage + 1) % pages.totalPromotionPages }

section Promotion

variable (p : PromotionParams)

/-- The loop of `ChooseVictim`, with the number of its passes. -/
def victimLoop (promotionChannel : Nat) (key : Row → Nat) (dramPageList : List Nat) :
    Nat → PageCounter → Option (Row × PageCounter × Nat)
  | 0, _ => none
  | fuel + 1, pages =>
    let victim := p.victim promotionChannel pages.currentPromotionPage
    if key victim ∈ dramPageList then
      (victimLoop promotionChannel key dramPageList fuel (nextPage pages)).map fun (victim, pages, passes) =>
        (victim, pages, passes + 1)
    else some (victim, nextPage pages, 1)

variable (s : MQSystem) (address : Nat)

def search (fuel : Nat) : Option (Row × PageCounter × Nat) :=
  victimLoop p s.mq.promotionChannel s.decoder.getAddressKey s.mq.dramPageList fuel (s.pages.query p 0)

/-- `ChooseVictim`. A search that does not end within one round does not end. -/
def chooseVictim : Option (Row × MQSystem) :=
  (s.search p p.totalPages).map fun (victim, pages, passes) =>
    (victim, { s with pages, demotee := victim, scanned := s.scanned + passes, victims := s.victims ++ [victim] })

/-- The migration of a row for a victim; `ready` says whether both reads can be queued. -/
def attempt (row : Row) (atomic ready : Bool) : Option MQSystem :=
  ({ s with promotee := row }.chooseVictim p).bind fun (victim, s) =>
  (assertThat (s.decoder.isMigrated victim = false)).bind fun _ =>
  (assertThat (s.decoder.isMigrated row = false)).bind fun _ =>
  if atomic ∨ ready then
    (s.decoder.exchange row row victim atomic).map fun decoder =>
      { s with decoder, exchanged := s.exchanged ++ [victim] }
  else some s

def requestRow : Row := rowOf (s.decoder.translate address fun _ => 0).1

def access : MultiQueueMigrator.Access :=
  ⟨s.decoder.getAddressKey (s.requestRow address), (s.requestRow address).channel⟩

/-- `TryMigration` up to the attempt: the request is translated and its page goes through the
queues. -/
def arrive : MQSystem :=
  { s with decoder := (s.decoder.translate address fun _ => 0).2, mq := s.mq.touch (s.access address) }

/-- The condition on which `TryMigration` calls `ChooseVictim`; the page is looked for before it
moves. -/
def Attempts : Prop :=
  (s.arrive address).decoder.migrating = false ∧
  (s.arrive address).decoder.isMigrated (s.requestRow address) = false ∧
  (s.requestRow address).channel ≠ s.mq.promotionChannel ∧
  (s.mq.noteAccess (s.access address)).locateQueue (s.access address).pageNo = some thresholdQueue
  deriving Decidable

def tryMigration (atomic ready : Bool) : Option MQSystem :=
  (if s.Attempts address then (s.arrive address).attempt p (s.requestRow address) atomic ready
    else some (s.arrive address)).map fun s => { s with mq := s.mq.checkQueue }

inductive Event where
  | request (address : Nat) (atomic ready : Bool)
  | update (promoted : Bool) (newState : MigrationState)

def step : Event → Option MQSystem
  | .request address atomic ready => s.tryMigration p address atomic ready
  | .update promoted newState =>
    (assertThat (s.decoder.migrating = true)).bind fun _ =>
    (s.decoder.setMigrationState (if promoted then s.promotee else s.demotee) newState).map fun decoder =>
      { s with decoder }

end Promotion

/-! ### The search -/

variable {p : PromotionParams} {promotionChannel : Nat} {g : Geometry} {s s' : MQSystem}

theorem victimLoop_eq (key : Row → Nat) (dramPageList : List Nat) (queriedMemory : Bool) (fuel k : Nat) :
    victimLoop p promotionChannel key dramPageList fuel ⟨queriedMemory, p.totalPages, k % p.totalPages⟩ =
      (Rotation.search p.totalPages (fun page => key (p.victim promotionChannel page) ∈ dramPageList) fuel k).map
        fun passed => (p.victim promotionChannel ((k + passed) % p.totalPages),
          ⟨queriedMemory, p.totalPages, (k + passed + 1) % p.totalPages⟩, passed + 1) := by
  have hnext : ∀ k, nextPage ⟨queriedMemory, p.totalPages, k % p.totalPages⟩ =
      ⟨queriedMemory, p.totalPages, (k + 1) % p.totalPages⟩ := by
    intro k
    simp only [nextPage, Nat.mod_add_mod]
  induction fuel generalizing k with
  | zero => rfl
  | succ fuel ih =>
    rw [victimLoop, Rotation.search]
    by_cases hlisted : key (p.victim promotionChannel (k % p.totalPages)) ∈ dramPageList
    · rw [if_pos hlisted, if_pos hlisted, hnext, ih, Option.map_map, Option.map_map]
      refine congrArg (Option.map · _) (funext fun passed => ?_)
      have hsum : k + 1 + passed = k + (passed + 1) := by omega
      simp only [Function.comp_apply, hsum]
    · rw [if_neg hlisted, if_neg hlisted, hnext]
      rfl

/-- The pages that the search skips. -/
def Listed (p : PromotionParams) (promotionChannel : Nat) (s : MQSystem) (page : Nat) : Prop :=
  s.decoder.getAddressKey (p.victim promotionChannel page) ∈ s.mq.dramPageList
  deriving Decidable

/-- The first round through the pages has not ended, and the search will find a page in the rest of
it. -/
def FirstRound (p : PromotionParams) (promotionChannel : Nat) (s : MQSystem) : Prop :=
  ∃ page, s.scanned ≤ page ∧ page < p.totalPages ∧ ¬ s.Listed p promotionChannel page

structure Inv (p : PromotionParams) (promotionChannel : Nat) (g : Geometry) (s : MQSystem) : Prop where
  wf : s.decoder.Wf g
  channel : s.mq.promotionChannel = promotionChannel
  pages : s.pages.query p 0 = ⟨true, p.totalPages, s.scanned % p.totalPages⟩
  /-- A page that was passed and is still not listed was chosen. -/
  passed : ∀ i < s.scanned, ¬ s.Listed p promotionChannel (i % p.totalPages) →
    p.victim promotionChannel (i % p.totalPages) ∈ s.victims
  chosen : ∀ r ∈ s.victims, ∃ i < s.scanned, r = p.victim promotionChannel (i % p.totalPages)
  exchanged : ∀ r ∈ s.exchanged, r ∈ s.victims
  map : ∀ r, g.HasRow r → r.channel = promotionChannel →
    (s.decoder.migrationMap (s.decoder.getAddressKey r) ≠ none ↔ r ∈ s.exchanged)
  records : s.decoder.Records g
  underway : s.decoder.migrating = true →
    s.decoder.inputPage = s.decoder.getAddressKey s.promotee ∧
    s.decoder.outputPage = s.decoder.getAddressKey s.demotee

namespace Inv

theorem new {t : AddressTranslator} (ht : t.Configured g.method g.bus) :
    Inv p promotionChannel g (new promotionChannel (MQMigrator.new g t)) where
  wf := (MQMigrator.idle_new ht).toWf
  channel := rfl
  pages := by
    show PageCounter.mk true p.totalPages 0 = _
    rw [MQSystem.new, Nat.zero_mod]
  passed i hi := absurd hi (Nat.not_lt_zero i)
  chosen r hr := absurd hr not_mem_nil
  exchanged r hr := absurd hr not_mem_nil
  map r _ _ := iff_of_false (fun hne => hne rfl) not_mem_nil
  records := ⟨fun _ channel hk => absurd hk.symm (some_ne_none channel), fun _ hk => absurd rfl hk⟩
  underway hmig := absurd hmig Bool.false_ne_true

section

variable (h : Inv p promotionChannel g s)
include h

theorem search_eq (fuel : Nat) :
    s.search p fuel = (Rotation.search p.totalPages (s.Listed p promotionChannel) fuel s.scanned).map fun passed =>
      (p.victim promotionChannel ((s.scanned + passed) % p.totalPages),
        ⟨true, p.totalPages, (s.scanned + passed + 1) % p.totalPages⟩, passed + 1) := by
  rw [MQSystem.search, h.pages, victimLoop_eq, h.channel]
  rfl

/-- The search ends exactly if some row of the promotion channel is not listed. -/
theorem exists_search_iff (hp : p.PowersOfTwo) :
    (∃ fuel, (s.search p fuel).isSome) ↔
      ∃ r, p.Has promotionChannel r ∧ s.decoder.getAddressKey r ∉ s.mq.dramPageList := by
  have hround : (∃ fuel, (Rotation.search p.totalPages (s.Listed p promotionChannel) fuel s.scanned).isSome) ↔ _ :=
    Rotation.exists_search_iff hp.totalPages_pos s.scanned
  simp only [h.search_eq, Option.isSome_map]
  rw [hround]
  constructor
  · rintro ⟨page, hlt, hfree⟩
    exact ⟨p.victim promotionChannel page, hp.has_victim_iff.mpr hlt, hfree⟩
  · rintro ⟨r, hr, hfree⟩
    refine ⟨p.toPage r, hp.toPage_lt hr, ?_⟩
    rw [Listed, hp.victim_toPage hr]
    exact hfree

theorem search_eq_none (hp : p.PowersOfTwo)
    (hall : ∀ page < p.totalPages, s.Listed p promotionChannel page) (fuel : Nat) : s.search p fuel = none := by
  rw [← not_isSome_iff_eq_none]
  intro hsome
  obtain ⟨r, hr, hfree⟩ := (h.exists_search_iff hp).mp ⟨fuel, hsome⟩
  have hlisted := hall (p.toPage r) (hp.toPage_lt hr)
  rw [Listed, hp.victim_toPage hr] at hlisted
  exact hfree hlisted

end

variable {fuel passes : Nat} {victim : Row} {pages : PageCounter}

variable (h : Inv p promotionChannel g s) (hp : p.PowersOfTwo)
include h hp

section

variable (hs : s.search p fuel = some (victim, pages, passes))
include hs

theorem of_search :
    ∃ passed < p.totalPages, passes = passed + 1 ∧
      victim = p.victim promotionChannel ((s.scanned + passed) % p.totalPages) ∧
      pages = ⟨true, p.totalPages, (s.scanned + passes) % p.totalPages⟩ ∧
      ¬ s.Listed p promotionChannel ((s.scanned + passed) % p.totalPages) ∧
      ∀ i < passed, s.Listed p promotionChannel ((s.scanned + i) % p.totalPages) := by
  rw [h.search_eq] at hs
  obtain ⟨passed, hround, he⟩ := map_eq_some_iff.mp hs
  obtain ⟨-, hfree, hbefore⟩ := search_eq_some_iff.mp hround
  obtain ⟨rfl, rfl, rfl⟩ := he
  exact ⟨passed, lt_of_search hp.totalPages_pos hround, rfl, rfl, rfl, hfree, hbefore⟩

theorem has_victim : p.Has promotionChannel victim := by
  obtain ⟨passed, -, -, rfl, -⟩ := h.of_search hp hs
  exact hp.has_victim_iff.mpr (mod_lt _ hp.totalPages_pos)

theorem firstRound_iff : s.FirstRound p promotionChannel ↔ s.scanned + passes ≤ p.totalPages := by
  obtain ⟨passed, hlt, rfl, -, -, hfree, hbefore⟩ := h.of_search hp hs
  constructor
  · rintro ⟨page, hle, hpage, hopen⟩
    obtain ⟨i, rfl⟩ := Nat.exists_eq_add_of_le hle
    have hpassed : ¬ i < passed := by
      intro hi
      have hlisted := hbefore i hi
      rw [mod_eq_of_lt hpage] at hlisted
      exact hopen hlisted
    omega
  · intro hround
    have hpage : s.scanned + passed < p.totalPages := hround
    rw [mod_eq_of_lt hpage] at hfree
    exact ⟨s.scanned + passed, Nat.le_add_right _ _, hpage, hfree⟩

theorem mem_victims_iff : victim ∈ s.victims ↔ p.totalPages < s.scanned + passes := by
  obtain ⟨passed, hlt, rfl, rfl, -, hfree, -⟩ := h.of_search hp hs
  constructor
  · intro hmem
    obtain ⟨i, hi, he⟩ := h.chosen _ hmem
    have hpage := hp.victim_inj he
    by_contra hround
    rw [mod_eq_of_lt (by omega), mod_eq_of_lt (by omega)] at hpage
    omega
  · intro hround
    obtain ⟨i, hi⟩ := Nat.exists_eq_add_of_le (Nat.le_of_lt_succ hround : p.totalPages ≤ s.scanned + passed)
    rw [hi, Nat.add_mod_left] at hfree ⊢
    exact h.passed i (by omega) hfree

end

omit hp in
/-- Between migrations, the rows of the promotion channel that are migrated are those that were
exchanged. -/
theorem isMigrated_iff (hidle : s.decoder.migrating = false) {r : Row}
    (hr : g.HasRow r) (hch : r.channel = promotionChannel) : s.decoder.isMigrated r = true ↔ r ∈ s.exchanged := by
  rw [← h.map r hr hch, MQMigrator.isMigrated, Bool.and_eq_true, decide_eq_true_eq, isSome_iff_ne_none]
  constructor
  · exact fun hboth => hboth.1
  · exact fun hne => ⟨hne, h.records.done_of_idle hidle hne⟩

/-! ### Steps -/

omit hp in
theorem congr_mq {mq : MultiQueueMigrator}
    (hchannel : mq.promotionChannel = s.mq.promotionChannel) (hlist : ∀ k ∈ s.mq.dramPageList, k ∈ mq.dramPageList) :
    Inv p promotionChannel g { s with mq } :=
  { h with
    channel := hchannel.trans h.channel
    passed := fun i hi hfree => h.passed i hi fun hl => hfree (hlist _ hl) }

omit hp in
theorem arrive (a : Nat) : Inv p promotionChannel g (s.arrive a) := by
  have htouch := MultiQueueMigrator.touch_rest s.mq (s.access a)
  have hmq : Inv p promotionChannel g { s with mq := s.mq.touch (s.access a) } := by
    apply h.congr_mq
    · rw [htouch]
      rfl
    · intro k hk
      rw [htouch]
      simp only [MultiQueueMigrator.noteAccess]
      split
      · exact mem_append_left _ hk
      · exact hk
  have hwf := h.wf.translate_snd a fun _ => 0
  unfold MQSystem.arrive
  rw [MQMigrator.translate_rest] at hwf ⊢
  exact { hmq with wf := hwf, records := { hmq.records with } }

omit hp in
theorem hasRow_requestRow (a : Nat) : g.HasRow (s.requestRow a) := by
  have hhome := g.home_hasRow a
  rw [requestRow, h.wf.translate_fst]
  unfold MQMigrator.locate
  split
  · rename_i channel hmap
    split
    · exact { hhome with channel := h.records.channels _ channel hmap }
    · exact hhome
  · exact hhome

theorem choose (hidle : s.decoder.migrating = false) (hs : s.search p fuel = some (victim, pages, passes)) (row : Row) :
    Inv p promotionChannel g { s with
      promotee := row, pages, demotee := victim, scanned := s.scanned + passes, victims := s.victims ++ [victim] } := by
  obtain ⟨passed, -, rfl, rfl, rfl, -, hbefore⟩ := h.of_search hp hs
  refine ⟨h.wf, h.channel, PageCounter.query_of_queried rfl, fun i hi hfree => ?_, fun r hr => ?_,
    fun r hr => mem_append_left _ (h.exchanged r hr), h.map, h.records, fun hmig => ?_⟩
  · -- the pages from the last victim on were listed up to the new one
    by_cases hold : i < s.scanned
    · exact mem_append_left _ (h.passed i hold hfree)
    · obtain ⟨j, rfl⟩ := Nat.exists_eq_add_of_le (Nat.le_of_not_lt hold)
      obtain hlt | heq := Nat.lt_or_eq_of_le (show j ≤ passed by simp only at hi; omega)
      · exact absurd (hbefore j hlt) hfree
      · rw [heq]
        exact mem_append_right _ (List.mem_singleton_self _)
  · simp only
    obtain hold | hnew := mem_append.mp hr
    · obtain ⟨i, hi, he⟩ := h.chosen r hold
      exact ⟨i, by omega, he⟩
    · exact ⟨s.scanned + passed, by omega, mem_singleton.mp hnew⟩
  · rw [hidle] at hmig
    exact absurd hmig Bool.false_ne_true

omit hp in
theorem exchange {row : Row} (hrow : g.HasRow row)
    (hne : row.channel ≠ promotionChannel) (hvictim : g.HasRow s.demotee) (hpromotee : s.promotee = row)
    (hmem : s.demotee ∈ s.victims) {atomic : Bool} {d : MQMigrator}
    (hd : s.decoder.exchange row row s.demotee atomic = some d) :
    Inv p promotionChannel g { s with decoder := d, exchanged := s.exchanged ++ [s.demotee] } := by
  obtain ⟨hidle, hunder⟩ := MQMigrator.exchange_underway hd
  have hkey := hunder.getAddressKey
  refine ⟨?_, h.channel, h.pages, fun i hi hfree => ?_, h.chosen, fun r hr => ?_, fun r hr hrch => ?_,
    h.records.underway hidle hrow hvictim hunder, fun _ => ?_⟩
  · rw [hunder.rest]
    exact { h.wf with }
  · apply h.passed i hi
    intro hl
    apply hfree
    show d.getAddressKey _ ∈ _
    rw [hkey]
    exact hl
  · obtain hold | hnew := mem_append.mp hr
    · exact h.exchanged r hold
    · rw [mem_singleton.mp hnew]
      exact hmem
  · rw [hkey, hunder.map, mem_append, mem_singleton, ← h.map r hr hrch]
    by_cases hdem : r = s.demotee
    · rw [hdem, update_self]
      exact iff_of_true (some_ne_none _) (.inr rfl)
    · have hkd : s.decoder.getAddressKey r ≠ s.decoder.getAddressKey s.demotee :=
        fun he => hdem (h.wf.getAddressKey_inj hr hvictim he)
      have hkr : s.decoder.getAddressKey r ≠ s.decoder.getAddressKey row := by
        intro he
        rw [h.wf.getAddressKey_inj hr hrow he] at hrch
        exact hne hrch
      rw [update_of_ne hkd, update_of_ne hkr, or_iff_left hdem]
  · rw [hpromotee, hunder.rest]
    exact ⟨rfl, rfl⟩

variable (hf : p.Fits g promotionChannel)
include hf

theorem attempt
    (hidle : s.decoder.migrating = false) {row : Row} (hrow : g.HasRow row) (hne : row.channel ≠ promotionChannel)
    {atomic ready : Bool} (hs : s.attempt p row atomic ready = some s') : Inv p promotionChannel g s' := by
  obtain ⟨⟨victim, s1⟩, hchoose, hs⟩ := bind_eq_some_iff.mp hs
  obtain ⟨⟨victim', pages, passes⟩, hsearch, he⟩ := map_eq_some_iff.mp hchoose
  obtain ⟨rfl, rfl⟩ := he
  have hchosen := h.choose hp hidle hsearch row
  obtain ⟨_, hs⟩ := assertThat_bind_eq_some.mp hs
  obtain ⟨_, hs⟩ := assertThat_bind_eq_some.mp hs
  by_cases hready : atomic = true ∨ ready = true
  · rw [if_pos hready] at hs
    obtain ⟨d, hd, rfl⟩ := map_eq_some_iff.mp hs
    have hvictim := (h.has_victim hp hsearch).hasRow hf
    exact hchosen.exchange hrow hne hvictim rfl (mem_append_right _ (List.mem_singleton_self _)) hd
  · rw [if_neg hready] at hs
    cases hs
    exact hchosen

theorem tryMigration {a : Nat} {atomic ready : Bool} (hs : s.tryMigration p a atomic ready = some s') :
    Inv p promotionChannel g s' := by
  obtain ⟨s1, hs1, rfl⟩ := map_eq_some_iff.mp hs
  have harrive := h.arrive a
  have hmid : Inv p promotionChannel g s1 := by
    by_cases hcall : s.Attempts a
    · rw [if_pos hcall] at hs1
      obtain ⟨hidle, _, hne, _⟩ := hcall
      rw [h.channel] at hne
      exact harrive.attempt hp hf hidle (h.hasRow_requestRow a) hne hs1
    · rw [if_neg hcall] at hs1
      cases hs1
      exact harrive
  have hrest := MultiQueueMigrator.checkQueue_rest s1.mq
  apply hmid.congr_mq
  · rw [hrest]
  · intro k hk
    rw [hrest]
    exact hk

theorem step {e : Event} (hs : step p s e = some s') : Inv p promotionChannel g s' := by
  cases e with
  | request a atomic ready => exact h.tryMigration hp hf hs
  | update promoted newState =>
    obtain ⟨hmig, hs⟩ := assertThat_bind_eq_some.mp hs
    obtain ⟨d, hd, rfl⟩ := map_eq_some_iff.mp hs
    obtain ⟨hin, hout⟩ := h.underway hmig
    have hpage : s.decoder.getAddressKey (if promoted then s.promotee else s.demotee) = s.decoder.inputPage ∨
        s.decoder.getAddressKey (if promoted then s.promotee else s.demotee) = s.decoder.outputPage := by
      cases promoted with
      | true => exact .inl hin.symm
      | false => exact .inr hout.symm
    have hrecords := h.records.setMigrationState hmig hpage hd
    have hrest := MQMigrator.setMigrationState_rest hd
    rw [hrest] at hrecords ⊢
    exact { h with wf := { h.wf with }, records := hrecords, underway := fun _ => h.underway hmig }

end Inv

/-- In any state that is reached and for any request for which `ChooseVictim` is called, the search
ends exactly if some row of the promotion channel was never noted as accessed. The victim is then a
row of this channel. In the first round through the pages it is not migrated; after that it was
chosen before, and is not migrated exactly if no migration was started for it. -/
theorem victim_search_iff (p : PromotionParams) (hp : p.PowersOfTwo) (promotionChannel : Nat) (g : Geometry)
    (hf : p.Fits g promotionChannel) (t : AddressTranslator) (ht : t.Configured g.method g.bus) (events : List Event)
    (s : MQSystem) (hrun : run (step p) (new promotionChannel (MQMigrator.new g t)) events = some s) (address : Nat)
    (hcall : s.Attempts address) :
    let call := s.arrive address
    ((∃ fuel, (call.search p fuel).isSome) ↔
      ∃ r, p.Has promotionChannel r ∧ call.decoder.getAddressKey r ∉ call.mq.dramPageList) ∧
    ∀ fuel victim pages passes, call.search p fuel = some (victim, pages, passes) →
      p.Has promotionChannel victim ∧
      (call.FirstRound p promotionChannel → call.decoder.isMigrated victim = false) ∧
      (¬ call.FirstRound p promotionChannel → victim ∈ call.victims ∧
        (call.decoder.isMigrated victim = false ↔ victim ∉ call.exchanged)) := by
  intro call
  have hinv : Inv p promotionChannel g s :=
    run_invariant_of_step (step p) (fun _ _ _ hi hs => hi.step hp hf hs) events (.new ht) hrun
  have hat : Inv p promotionChannel g call := hinv.arrive address
  refine ⟨hat.exists_search_iff hp, fun fuel victim pages passes hs => ?_⟩
  have hhas := hat.has_victim hp hs
  have hmem := hat.mem_victims_iff hp hs
  rw [← Nat.not_le, ← hat.firstRound_iff hp hs] at hmem
  have hmigrated : call.decoder.isMigrated victim = false ↔ victim ∉ call.exchanged := by
    rw [← hat.isMigrated_iff hcall.1 (hhas.hasRow hf) hhas.channel, Bool.not_eq_true]
  refine ⟨hhas, fun hround => ?_, fun hround => ⟨hmem.mpr hround, hmigrated⟩⟩
  rw [hmigrated]
  intro hex
  exact hmem.mp (hat.exchanged victim hex) hround

section Pair

open MQMigrator (pair pairTranslator)

theorem pairParams_word : 1 * 1 * 2 < 2 ^ 64 := by decide

def pairParams : PromotionParams := ⟨1, 1, 2, 2, pairParams_word⟩

theorem pairParams_powersOfTwo : pairParams.PowersOfTwo :=
  ⟨⟨0, rfl⟩, ⟨0, rfl⟩, ⟨1, rfl⟩, ⟨1, rfl⟩, by decide⟩

theorem pairParams_fits : pairParams.Fits pair 0 := ⟨by decide, by decide, by decide, by decide, by decide⟩

def pairSystem : MQSystem := new 0 (MQMigrator.new pair pairTranslator)

theorem pairSystem_inv {events : List Event} (hrun : run (step pairParams) pairSystem events = some s) :
    Inv pairParams 0 pair s :=
  run_invariant_of_step (step pairParams) (fun _ _ _ hi hs => hi.step pairParams_powersOfTwo pairParams_fits hs) events
    (.new (AddressTranslator.new_configured _ _)) hrun

def requests (n address : Nat) : List Event := List.replicate n (.request address true false)

/-- The seventeenth access of a slow row finds it in the fourth queue, and row zero is free. -/
theorem victim_search_iff_pair :
    ∃ s, run (step pairParams) pairSystem (requests 16 1) = some s ∧ s.Attempts 1 ∧
      (∃ fuel, ((s.arrive 1).search pairParams fuel).isSome) ∧
      ∀ fuel victim pages passes, (s.arrive 1).search pairParams fuel = some (victim, pages, passes) →
        (s.arrive 1).decoder.isMigrated victim = false := by
  obtain ⟨s, hrun, hcall, hscanned, hlist⟩ : ∃ s, run (step pairParams) pairSystem (requests 16 1) = some s ∧
      s.Attempts 1 ∧ (s.arrive 1).scanned = 0 ∧ (s.arrive 1).mq.dramPageList = [] := by
    decide +kernel
  obtain ⟨hends, hfound⟩ := victim_search_iff pairParams pairParams_powersOfTwo 0 pair pairParams_fits pairTranslator
    (AddressTranslator.new_configured _ _) _ s hrun 1 hcall
  refine ⟨s, hrun, hcall, hends.mpr ⟨⟨0, 0, 0, 0, 0⟩, by decide, ?_⟩, fun fuel victim pages passes hs => ?_⟩
  · rw [hlist]
    exact not_mem_nil
  · refine (hfound fuel victim pages passes hs).2.1 ⟨0, hscanned.le, by decide, ?_⟩
    rw [Listed, hlist]
    exact not_mem_nil

/-- Once both rows of the promotion channel were accessed, the loop never ends, though none is
migrated. If only row one was, row zero is migrated first; the next search skips row one, which is
not migrated, and returns row zero again. -/
theorem victim_search_fails :
    (∃ s, run (step pairParams) pairSystem (requests 1 0 ++ requests 1 2 ++ requests 16 1) = some s ∧ s.Attempts 1 ∧
      (s.arrive 1).decoder.isMigrated ⟨0, 0, 0, 0, 0⟩ = false ∧
      (s.arrive 1).decoder.isMigrated ⟨0, 0, 0, 0, 1⟩ = false ∧
      ∀ fuel, (s.arrive 1).search pairParams fuel = none) ∧
    (∃ s, run (step pairParams) pairSystem (requests 1 2 ++ requests 17 1 ++ requests 16 3) = some s ∧ s.Attempts 3 ∧
      (s.arrive 3).decoder.isMigrated ⟨0, 0, 0, 0, 1⟩ = false ∧
      ∃ found, (s.arrive 3).search pairParams 2 = some found ∧ (s.arrive 3).decoder.isMigrated found.1 = true) := by
  constructor
  · obtain ⟨s, hrun, hcall, hzero, hone, hall⟩ : ∃ s, run (step pairParams) pairSystem
        (requests 1 0 ++ requests 1 2 ++ requests 16 1) = some s ∧ s.Attempts 1 ∧
        (s.arrive 1).decoder.isMigrated ⟨0, 0, 0, 0, 0⟩ = false ∧
        (s.arrive 1).decoder.isMigrated ⟨0, 0, 0, 0, 1⟩ = false ∧
        ∀ page < pairParams.totalPages, (s.arrive 1).Listed pairParams 0 page := by
      decide +kernel
    have hinv := (pairSystem_inv hrun).arrive 1
    exact ⟨s, hrun, hcall, hzero, hone, hinv.search_eq_none pairParams_powersOfTwo hall⟩
  · decide +kernel

end Pair

end MQSystem

end Shma.Nvmain
