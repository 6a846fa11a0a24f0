import Shma.Nvmain.MQMigrator
import Shma.Nvmain.PromotionPages

/-!
# The common migrator

`Utils/CommonMigrator/CommonMigrator.cpp` over `Decoders/Migrator/Migrator.cpp`. The maps
and the states of this decoder are those of `MQMigrator`, but its `IsMigrated` translates
the physical address of what it is asked about once more and overwrites its fields. The
page number that victims are read off starts at the total, one above the last page, counts
down to zero and stays there.

Requests come from the hook after an issue, which is the only one that migrates. Cycles
and statistics are left out, and of the reads and writes of a migration only the states
that they set are kept.
-/
namespace Shma.Nvmain

open Lib Lib.Run

namespace MQMigrator

def reverseTranslate (d : MQMigrator) (r : Row) : Option (Nat × MQMigrator) :=
  (d.translator.reverseTranslate (r.coords 0)).map fun (address, translator) => (address, { d with translator })

/-- What `IsMigrated` of `Migrator` does first: the fields of the physical address, without
redirection. -/
def retranslate (d : MQMigrator) (physicalAddress : Nat) : Row × MQMigrator :=
  let (c, translator) := d.translator.translate physicalAddress fun _ => 0
  (rowOf c, { d with translator })

def used (g : Geometry) (d : MQMigrator) : MQMigrator := { d with translator := d.translator.prepare g.method }

variable {g : Geometry} {d : MQMigrator}

theorem used_used : (d.used g).used g = d.used g := rfl

theorem Wf.used (h : d.Wf g) : (d.used g).Wf g :=
  { h with configured := h.configured.prepare }

theorem Wf.reverseTranslate_eq (h : d.Wf g) (r : Row) : d.reverseTranslate r = some (g.base r % 2 ^ 64, d.used g) := by
  rw [reverseTranslate, h.configured.reverseTranslate_eq g.permutes]
  rfl

theorem Wf.retranslate_eq (h : d.Wf g) (a : Nat) : d.retranslate a = (g.home a, d.used g) := by
  rw [retranslate, h.configured.translate_eq g.permutes]
  rfl

end MQMigrator

structure CommonMigrator where
  decoder : MQMigrator
  pages : PageCounter
  (promotee demotee : Row)
  /-- The victims of all calls of `ChooseVictim` so far. -/
  victims : List Row
  /-- Which of these calls were followed by a migration. -/
  started : List Nat

namespace CommonMigrator

def new (decoder : MQMigrator) : CommonMigrator where
  decoder
  pages := .new
  promotee := ⟨0, 0, 0, 0, 0⟩
  demotee := ⟨0, 0, 0, 0, 0⟩
  victims := []
  started := []

def nextPage (pages : PageCounter) : PageCounter :=
  { pages with
    currentPromotionPage :=
      if 0 < pages.currentPromotionPage then (pages.currentPromotionPage - 1) % pages.totalPromotionPages
      else (pages.currentPromotionPage + pages.totalPromotionPages) % pages.totalPromotionPages }

section Promotion

variable (p : PromotionParams) (promotionChannel : Nat)

def query (pages : PageCounter) : PageCounter := pages.query p p.totalPages

variable (m : CommonMigrator)

def nextVictim : Row := p.victim promotionChannel (query p m.pages).currentPromotionPage

/-- `ChooseVictim`, with the physical address of the victim. -/
def chooseVictim : Option (Nat × CommonMigrator) :=
  let pages := query p m.pages
  let victim := p.victim promotionChannel pages.currentPromotionPage
  (m.decoder.reverseTranslate victim).map fun (victimAddress, decoder) =>
    (victimAddress,
      { m with decoder, demotee := victim, pages := nextPage pages, victims := m.victims ++ [victim] })

def start (request : Row) (atomic : Bool) : Option CommonMigrator :=
  (m.decoder.exchange request m.promotee m.demotee atomic).map fun decoder =>
    { m with decoder, started := m.started ++ [m.victims.length - 1] }

/-- The assertions on both rows and what follows them; `ready` says whether both reads can be
queued. -/
def confirm (request : Row) (promoteeAddress victimAddress : Nat) (atomic ready : Bool) :
    Option CommonMigrator :=
  let (demotee, decoder) := m.decoder.retranslate victimAddress
  (assertThat (decoder.isMigrated demotee = false)).bind fun _ =>
  let (promotee, decoder) := decoder.retranslate promoteeAddress
  (assertThat (decoder.isMigrated promotee = false)).bind fun _ =>
  let m := { m with decoder, promotee, demotee }
  if atomic ∨ ready then m.start request atomic else some m

def tryMigration (physicalAddress : Nat) (atomic ready : Bool) : Option CommonMigrator :=
  if m.decoder.migrating then some m
  else
    let (row, decoder) := m.decoder.retranslate physicalAddress
    let m := { m with decoder }
    if m.decoder.isMigrated row = true ∨ row.channel = promotionChannel then some m
    else
      (m.decoder.reverseTranslate row).bind fun (promoteeAddress, decoder) =>
      (({ m with decoder, promotee := row }).chooseVictim p promotionChannel).bind fun (victimAddress, m) =>
      m.confirm row promoteeAddress victimAddress atomic ready

inductive Event where
  | request (physicalAddress : Nat) (atomic ready : Bool)
  | update (promoted : Bool) (newState : MigrationState)

def step : Event → Option CommonMigrator
  | .request physicalAddress atomic ready => m.tryMigration p promotionChannel physicalAddress atomic ready
  | .update promoted newState =>
    (assertThat (m.decoder.migrating = true)).bind fun _ =>
    (m.decoder.setMigrationState (if promoted then m.promotee else m.demotee) newState).map fun decoder =>
      { m with decoder }

/-- The state in which a migration is started, for a decoder that is idle. -/
def chosen (g : Geometry) (m : CommonMigrator) (row : Row) : CommonMigrator where
  decoder := m.decoder.used g
  pages := nextPage (query p m.pages)
  promotee := row
  demotee := g.home (g.base (m.nextVictim p promotionChannel) % 2 ^ 64)
  victims := m.victims ++ [m.nextVictim p promotionChannel]
  started := m.started

end Promotion

variable {p : PromotionParams} {promotionChannel : Nat} {g : Geometry} {m m' : CommonMigrator} {e : Event}

theorem chooseVictim_eq (hwf : m.decoder.Wf g) :
    m.chooseVictim p promotionChannel = some (g.base (m.nextVictim p promotionChannel) % 2 ^ 64,
      { m with
        decoder := m.decoder.used g
        demotee := m.nextVictim p promotionChannel
        pages := nextPage (query p m.pages)
        victims := m.victims ++ [m.nextVictim p promotionChannel] }) := by
  rw [chooseVictim, hwf.reverseTranslate_eq]
  rfl

theorem confirm_eq (hwf : m.decoder.Wf g) (request : Row) (promoteeAddress victimAddress : Nat) (atomic ready : Bool) :
    m.confirm request promoteeAddress victimAddress atomic ready =
      (assertThat (m.decoder.isMigrated (g.home victimAddress) = false)).bind fun _ =>
      (assertThat (m.decoder.isMigrated (g.home promoteeAddress) = false)).bind fun _ =>
      if atomic ∨ ready then
        ({ m with
            decoder := m.decoder.used g
            promotee := g.home promoteeAddress
            demotee := g.home victimAddress } : CommonMigrator).start request atomic
      else some { m with
        decoder := m.decoder.used g
        promotee := g.home promoteeAddress
        demotee := g.home victimAddress } := by
  simp only [confirm, hwf.retranslate_eq, hwf.used.retranslate_eq, MQMigrator.used_used]
  rfl

/-- `TryMigration` in terms of the rows of the geometry. The assertion about the promoted row always
holds. -/
theorem tryMigration_eq (hwf : m.decoder.Wf g) (hidle : m.decoder.migrating = false) (a : Nat) (atomic ready : Bool) :
    m.tryMigration p promotionChannel a atomic ready =
      if m.decoder.isMigrated (g.home a) = true ∨ (g.home a).channel = promotionChannel then
        some { m with decoder := m.decoder.used g }
      else
        (assertThat (m.decoder.isMigrated (m.chosen p promotionChannel g (g.home a)).demotee = false)).bind fun _ =>
        if atomic ∨ ready then (m.chosen p promotionChannel g (g.home a)).start (g.home a) atomic
        else some (m.chosen p promotionChannel g (g.home a)) := by
  have hbase : g.home (g.base (g.home a) % 2 ^ 64) = g.home a := by
    rw [Geometry.base_word (g.home_hasRow a), g.home_base (g.home_hasRow a)]
  rw [tryMigration, hidle, hwf.retranslate_eq]
  by_cases hno : m.decoder.isMigrated (g.home a) = true ∨ (g.home a).channel = promotionChannel
  · rw [if_pos hno]
    exact if_pos hno
  · rw [if_neg hno]
    refine (if_neg hno).trans ?_
    have hpromotee : m.decoder.isMigrated (g.home a) = false := by
      rw [not_or, Bool.not_eq_true] at hno
      exact hno.1
    simp only [hwf.used.reverseTranslate_eq, bind_some, MQMigrator.used_used]
    rw [chooseVictim_eq hwf.used]
    refine (confirm_eq hwf.used.used _ _ _ _ _).trans ?_
    rw [hbase]
    refine congrArg (Option.bind _) (funext fun _ => ?_)
    refine (congrArg (Option.bind · _) (assertThat_true hpromotee)).trans ?_
    rfl

/-! ### The pages that victims are read off -/

theorem nextPage_sub {total : Nat} (hpos : 0 < total) (queriedMemory : Bool) (calls : Nat) :
    nextPage ⟨queriedMemory, total, total - calls⟩ = ⟨queriedMemory, total, total - (calls + 1)⟩ := by
  refine congrArg (PageCounter.mk queriedMemory total) ?_
  simp only
  by_cases hlt : 0 < total - calls
  · rw [if_pos hlt, mod_eq_of_lt (by omega), Nat.sub_sub]
  · have hzero : total - calls = 0 := by omega
    rw [if_neg hlt, hzero, Nat.zero_add, Nat.mod_self]
    omega

structure Inv (p : PromotionParams) (promotionChannel : Nat) (g : Geometry) (m : CommonMigrator) : Prop where
  wf : m.decoder.Wf g
  pages : query p m.pages = ⟨true, p.totalPages, p.totalPages - m.victims.length⟩
  victims : m.victims =
    (List.range m.victims.length).map fun call => p.victim promotionChannel (p.totalPages - call)
  untouched : m.victims = [] → ∀ k, m.decoder.migrationMap k = none
  migrated : p.Fits g promotionChannel → 0 ∉ m.started → ∀ r, g.HasRow r → r.channel = promotionChannel →
    m.decoder.migrationMap (m.decoder.getAddressKey r) ≠ none → r ∈ m.victims

namespace Inv

theorem new {d : MQMigrator} (hwf : d.Wf g) (hmap : ∀ k, d.migrationMap k = none) :
    Inv p promotionChannel g (new d) where
  wf := hwf
  pages := rfl
  victims := rfl
  untouched _ := hmap
  migrated _ _ _ _ _ hne := absurd (hmap _) hne

variable (h : Inv p promotionChannel g m)
include h

theorem nextVictim : m.nextVictim p promotionChannel = p.victim promotionChannel (p.totalPages - m.victims.length) := by
  rw [CommonMigrator.nextVictim, h.pages]

variable (hp : p.PowersOfTwo)
include hp

/-- The first victim is out of range, and it is the only one. -/
theorem has_nextVictim_iff : p.Has promotionChannel (m.nextVictim p promotionChannel) ↔ m.victims ≠ [] := by
  have hpos := hp.totalPages_pos
  rw [h.nextVictim, hp.has_victim_iff, ← List.length_pos_iff]
  omega

/-- Victims repeat from the call on that finds the page number zero for the second time. -/
theorem nextVictim_notMem_iff : m.nextVictim p promotionChannel ∉ m.victims ↔ m.victims.length ≤ p.totalPages := by
  have hmem : m.nextVictim p promotionChannel ∈ m.victims ↔
      ∃ call < m.victims.length, p.totalPages - call = p.totalPages - m.victims.length := by
    rw [h.nextVictim]
    rw [h.victims]
    simp only [List.length_map, length_range, mem_map, mem_range]
    constructor
    · rintro ⟨call, hlt, he⟩
      exact ⟨call, hlt, hp.victim_inj he⟩
    · rintro ⟨call, hlt, he⟩
      exact ⟨call, hlt, by rw [he]⟩
  rw [hmem]
  constructor
  · intro hno
    by_contra hlt
    exact hno ⟨p.totalPages, by omega, by omega⟩
  · rintro hle ⟨call, hlt, he⟩
    omega

/-- A victim in range is what its physical address is translated to. -/
theorem demotee_chosen (hf : p.Fits g promotionChannel) (hne : m.victims ≠ []) (row : Row) :
    (m.chosen p promotionChannel g row).demotee = m.nextVictim p promotionChannel := by
  have hrow := ((h.has_nextVictim_iff hp).mpr hne).hasRow hf
  rw [chosen, Geometry.base_word hrow, g.home_base hrow]

omit hp in
theorem used : Inv p promotionChannel g { m with decoder := m.decoder.used g } :=
  { h with wf := h.wf.used }

theorem chosen (row : Row) : Inv p promotionChannel g (m.chosen p promotionChannel g row) where
  wf := h.wf.used
  pages := by
    have hlen : (m.chosen p promotionChannel g row).victims.length = m.victims.length + 1 := length_append
    rw [hlen, CommonMigrator.chosen, h.pages, nextPage_sub hp.totalPages_pos]
    exact PageCounter.query_of_queried rfl
  victims := by
    simp only [CommonMigrator.chosen]
    rw [length_append, length_singleton, List.range_succ, map_append, ← h.victims, h.nextVictim]
    rfl
  untouched hnil := absurd hnil (List.append_ne_nil_of_right_ne_nil _ (cons_ne_nil _ _))
  migrated hf hfirst r hr hch hne := mem_append_left _ (h.migrated hf hfirst r hr hch hne)

theorem start {row : Row} (hrow : g.HasRow row) (hch : row.channel ≠ promotionChannel) {atomic : Bool}
    (hs : (m.chosen p promotionChannel g row).start row atomic = some m') : Inv p promotionChannel g m' := by
  obtain ⟨d, hd, rfl⟩ := map_eq_some_iff.mp hs
  have hunder := (MQMigrator.exchange_underway hd).2
  have hchosen := h.chosen hp row
  refine ⟨?_, hchosen.pages, hchosen.victims, ?_, ?_⟩
  · rw [hunder.rest]
    exact { hchosen.wf with }
  · exact fun hnil => absurd hnil (List.append_ne_nil_of_right_ne_nil _ (cons_ne_nil _ _))
  · intro hf hfirst r hr hrch hne
    have hcalls : m.victims ≠ [] := by
      intro hnil
      apply hfirst
      simp [CommonMigrator.chosen, hnil]
    have hdem := h.demotee_chosen hp hf hcalls row
    have hnext := ((h.has_nextVictim_iff hp).mpr hcalls).hasRow hf
    by_cases hvictim : r = m.nextVictim p promotionChannel
    · rw [hvictim]
      exact mem_append_right _ (List.mem_singleton_self _)
    · have hk : m.decoder.getAddressKey r ≠ m.decoder.getAddressKey (m.nextVictim p promotionChannel) :=
        fun he => hvictim (h.wf.getAddressKey_inj hr hnext he)
      have hk' : m.decoder.getAddressKey r ≠ m.decoder.getAddressKey row := by
        intro he
        rw [h.wf.getAddressKey_inj hr hrow he] at hrch
        exact hch hrch
      apply hchosen.migrated hf (fun hmem => hfirst (mem_append_left _ hmem)) r hr hrch
      intro hnone
      apply hne
      rw [hunder.getAddressKey, hunder.map, hdem]
      exact (update_of_ne hk _ _).trans ((update_of_ne hk' _ _).trans hnone)

omit hp in
theorem update {d : MQMigrator} {r : Row} {newState : MigrationState}
    (hd : m.decoder.setMigrationState r newState = some d) : Inv p promotionChannel g { m with decoder := d } := by
  rw [MQMigrator.setMigrationState_rest hd]
  exact { h with wf := { h.wf with } }

theorem step (hs : step p promotionChannel m e = some m') : Inv p promotionChannel g m' := by
  cases e with
  | update promoted newState =>
    obtain ⟨_, hs⟩ := assertThat_bind_eq_some.mp hs
    obtain ⟨d, hd, rfl⟩ := map_eq_some_iff.mp hs
    exact h.update hd
  | request a atomic ready =>
    cases hmig : m.decoder.migrating with
    | true =>
      simp only [CommonMigrator.step, tryMigration, hmig, if_true] at hs
      cases hs
      exact h
    | false =>
      rw [CommonMigrator.step, tryMigration_eq h.wf hmig] at hs
      by_cases hno : m.decoder.isMigrated (g.home a) = true ∨ (g.home a).channel = promotionChannel
      · rw [if_pos hno] at hs
        cases hs
        exact h.used
      · rw [if_neg hno] at hs
        obtain ⟨_, hs⟩ := assertThat_bind_eq_some.mp hs
        by_cases hready : atomic = true ∨ ready = true
        · rw [if_pos hready] at hs
          exact h.start hp (g.home_hasRow a) (fun hch => hno (.inr hch)) hs
        · rw [if_neg hready] at hs
          cases hs
          exact h.chosen hp _

/-- No assertion fails in a call for which a victim in range is left, unless the first victim was
used. -/
theorem tryMigration_isSome (hf : p.Fits g promotionChannel)
    (hfirst : 0 ∉ m.started) (hcalls : m.victims ≠ []) (hle : m.victims.length ≤ p.totalPages) (a : Nat)
    (atomic ready : Bool) : (m.tryMigration p promotionChannel a atomic ready).isSome := by
  cases hmig : m.decoder.migrating with
  | true => simp [tryMigration, hmig]
  | false =>
    rw [tryMigration_eq h.wf hmig]
    by_cases hno : m.decoder.isMigrated (g.home a) = true ∨ (g.home a).channel = promotionChannel
    · rw [if_pos hno]
      rfl
    · have hhas := (h.has_nextVictim_iff hp).mpr hcalls
      have hnext := hhas.hasRow hf
      have hmap : m.decoder.migrationMap (m.decoder.getAddressKey (m.nextVictim p promotionChannel)) = none := by
        by_contra hne
        exact (h.nextVictim_notMem_iff hp).mpr hle (h.migrated hf hfirst _ hnext hhas.channel hne)
      have hfree : m.decoder.isMigrated (m.nextVictim p promotionChannel) = false := by
        rw [MQMigrator.isMigrated, hmap]
        rfl
      have hkey : m.decoder.getAddressKey (g.home a) ≠
          m.decoder.getAddressKey (m.nextVictim p promotionChannel) := by
        intro he
        apply hno
        rw [h.wf.getAddressKey_inj (g.home_hasRow a) hnext he]
        exact .inr hhas.channel
      have hdem := h.demotee_chosen hp hf hcalls (g.home a)
      rw [if_neg hno, hdem, assertThat_true hfree, bind_some]
      by_cases hready : atomic = true ∨ ready = true
      · have hidle : (m.decoder.used g).migrating = false := hmig
        rw [if_pos hready, CommonMigrator.start, Option.isSome_map, hdem]
        exact MQMigrator.exchange_isSome hidle hkey atomic
      · rw [if_neg hready]
        rfl

end Inv

/-- In any state that is reached, the next victim is a row of the promotion channel exactly if it is
not the first one, and it was not chosen before exactly if no more calls were made than there are
pages. If the first call was not followed by a migration, no assertion fails in any later call up to
this number. -/
theorem victims_fresh_iff (p : PromotionParams) (hp : p.PowersOfTwo) (promotionChannel : Nat) (g : Geometry)
    (t : AddressTranslator) (ht : t.Configured g.method g.bus) (events : List Event) (m : CommonMigrator)
    (hrun : run (step p promotionChannel) (new (MQMigrator.new g t)) events = some m) :
    (p.Has promotionChannel (m.nextVictim p promotionChannel) ↔ m.victims ≠ []) ∧
    (m.nextVictim p promotionChannel ∉ m.victims ↔ m.victims.length ≤ p.totalPages) ∧
    (p.Fits g promotionChannel → 0 ∉ m.started → m.victims ≠ [] → m.victims.length ≤ p.totalPages →
      ∀ a atomic ready, (m.tryMigration p promotionChannel a atomic ready).isSome) := by
  have hinit : Inv p promotionChannel g (new (MQMigrator.new g t)) :=
    .new (MQMigrator.idle_new ht).toWf fun _ => rfl
  have hinv : Inv p promotionChannel g m :=
    run_invariant_of_step (step p promotionChannel) (fun _ _ _ hi hs => hi.step hp hs) events hinit hrun
  exact ⟨hinv.has_nextVictim_iff hp, hinv.nextVictim_notMem_iff hp, hinv.tryMigration_isSome hp⟩

section Banks

/-- Two channels of two banks with two rows each, the rows next to each other. -/
def banksMethod : TranslationMethod where
  bitWidths := Field.table 1 0 1 0 1 0
  order := Field.table 0 5 1 3 2 4

def banks : Geometry := ⟨banksMethod, MQMigrator.pairBus, by decide, by decide⟩

def banksTranslator : AddressTranslator := .new banksMethod MQMigrator.pairBus (fun _ => 0) (fun _ => 0)

theorem banksParams_word : 1 * 2 * 2 < 2 ^ 64 := by decide

def banksParams : PromotionParams := ⟨1, 2, 2, 2, banksParams_word⟩

theorem banksParams_powersOfTwo : banksParams.PowersOfTwo :=
  ⟨⟨0, rfl⟩, ⟨1, rfl⟩, ⟨1, rfl⟩, ⟨1, rfl⟩, by decide⟩

theorem banksParams_fits : banksParams.Fits banks 0 := ⟨by decide, by decide, by decide, by decide, by decide⟩

/-- The first victim is passed over as a queue is full; the next one is migrated. -/
theorem victims_fresh_iff_banks :
    ∃ m, run (step banksParams 0) (new (MQMigrator.new banks banksTranslator))
        [.request 4 false false, .request 5 true false] = some m ∧ m.started = [1] ∧
      banksParams.Has 0 (m.nextVictim banksParams 0) ∧ m.nextVictim banksParams 0 ∉ m.victims ∧
      ∀ a atomic ready, (m.tryMigration banksParams 0 a atomic ready).isSome := by
  obtain ⟨m, hrun, hstarted, hlen⟩ : ∃ m, run (step banksParams 0) (new (MQMigrator.new banks banksTranslator))
      [.request 4 false false, .request 5 true false] = some m ∧ m.started = [1] ∧ m.victims.length = 2 := by
    decide +kernel
  obtain ⟨hhas, hfresh, hsafe⟩ := victims_fresh_iff banksParams banksParams_powersOfTwo 0 banks banksTranslator
    (AddressTranslator.new_configured _ _) _ m hrun
  have hne : m.victims ≠ [] := List.ne_nil_of_length_pos (by omega)
  have hle : m.victims.length ≤ banksParams.totalPages := by
    rw [hlen]
    decide
  refine ⟨m, hrun, hstarted, hhas.mpr hne, hfresh.mpr hle, hsafe banksParams_fits ?_ hne hle⟩
  rw [hstarted]
  decide

/-- The first victim is a row that the bank does not have. Its address is that of the first row of
the other bank, which is migrated; when that row is chosen itself, with four pages and three
migrations, the assertion fails. -/
theorem first_victim_out_of_range :
    ¬ banksParams.Has 0 ((new (MQMigrator.new banks banksTranslator)).nextVictim banksParams 0) ∧
    banksParams.totalPages = 4 ∧
    (∃ m, run (step banksParams 0) (new (MQMigrator.new banks banksTranslator))
        [.request 4 true false, .request 5 true false, .request 6 true false] = some m ∧ m.started = [0, 1, 2] ∧
      m.decoder.migrating = false ∧ banksParams.Has 0 (m.nextVictim banksParams 0) ∧
      m.decoder.isMigrated (m.nextVictim banksParams 0) = true) ∧
    run (step banksParams 0) (new (MQMigrator.new banks banksTranslator))
      [.request 4 true false, .request 5 true false, .request 6 true false, .request 7 true false] = none := by
  refine ⟨by decide +kernel, by decide, by decide +kernel, ?_⟩
  decide +kernel

end Banks

end CommonMigrator

end Shma.Nvmain
