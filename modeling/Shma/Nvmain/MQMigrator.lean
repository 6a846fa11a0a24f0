import Shma.Common.Const
import Shma.Lib.Run
import Shma.Nvmain.Translator

/-!
# The decoder of the multi-queue migrator

`Decoders/MQMigrator/MQMigrator.cpp`: an address translator that redirects rows
which were migrated. A migration exchanges a row of the promotion channel with one
of another channel, but all that is recorded of it is a new channel for each of the
two. The rows change places exactly if they agree in the other fields.

`migrationState` has an entry for each key that `migrationMap` has and for the two
pages of the last migration, so reading it through `[]` never adds one, unless the
decoder was restored from a checkpoint.
-/
namespace Shma.Nvmain

open Lib Lib.Run
open MixedRadix (value value_inj value_lt volume)

/-- `MQMigratorState`, and `FlatDecoderState` alike. -/
inductive MigrationState where
  | unknown | reading | buffered | writing | done
  deriving DecidableEq, Repr

/-- A migration that `putState` ends has both pages done, in this decoder and in the flat one. -/
theorem done_of_ended {inDone outDone : Prop} [Decidable (inDone ∧ outDone)] {migrating : Bool}
    (h : migrating = true) (h' : (if inDone ∧ outDone then false else migrating) = false) :
    inDone ∧ outDone := by
  by_contra hne
  rw [if_neg hne, h] at h'
  cases h'

structure MQMigrator where
  translator : AddressTranslator
  (numChannels numBanks numRanks numSubarrays : Nat)
  migrationMap : Nat → Option Nat
  migrationState : Nat → Option MigrationState
  migrating : Bool
  (inputPage outputPage migratedAccesses : Nat)
  (accessTimes migrateAccessTimes : Nat → Nat)

namespace MQMigrator

/-- The constructor and `SetConfig`, for counts that are powers of two. -/
def new (g : Geometry) (translator : AddressTranslator) : MQMigrator where
  translator := translator
  numChannels := g.count .channel
  numBanks := g.count .bank
  numRanks := g.count .rank
  numSubarrays := g.count .subarray
  migrationMap _ := none
  migrationState _ := none
  migrating := false
  inputPage := 0
  outputPage := 0
  migratedAccesses := 0
  accessTimes _ := 0
  migrateAccessTimes _ := 0

section

variable (mm : MQMigrator)

def getAddressKey (r : Row) : Nat :=
  (r.row * mm.numBanks * mm.numRanks * mm.numSubarrays * mm.numChannels
    + r.bank * mm.numRanks * mm.numSubarrays * mm.numChannels
    + r.rank * mm.numSubarrays * mm.numChannels
    + r.subarray * mm.numChannels
    + r.channel) % 2 ^ 64

/-- `StartMigration`: the new channels are set at once, the states say that the migration goes
on. -/
def startMigration (promotee demotee : Row) : Option MQMigrator :=
  let demoChannel := promotee.channel
  let promoChannel := demotee.channel
  let promokey := mm.getAddressKey promotee
  let demokey := mm.getAddressKey demotee
  (assertThat (mm.migrating = false)).map fun _ =>
    { mm with
      migrationMap := update (update mm.migrationMap promokey (some promoChannel)) demokey
        (some demoChannel)
      migrationState := update (update mm.migrationState promokey (some .reading)) demokey
        (some .reading)
      migrating := true
      inputPage := promokey
      outputPage := demokey }

/-- `migrationState[key] = newState`, which ends the migration once both pages are done. -/
def putState (key : Nat) (newState : MigrationState) : MQMigrator :=
  let migrationState := update mm.migrationState key (some newState)
  { mm with
    migrationState
    migrating :=
      if migrationState mm.inputPage = some .done ∧ migrationState mm.outputPage = some .done then false
      else mm.migrating }

def setMigrationState (address : Row) (newState : MigrationState) : Option MQMigrator :=
  let key := mm.getAddressKey address
  (assertThat (mm.migrationState key ≠ none)).bind fun _ =>
  (assertThat (mm.migrationState key ≠ some newState)).map fun _ => mm.putState key newState

def isMigrated (address : Row) : Bool :=
  (mm.migrationMap (mm.getAddressKey address)).isSome
    && mm.migrationState (mm.getAddressKey address) = some .done

end

/-- `access_times[channel]` and `migrate_access_times[channel]`, which start at one. -/
def countAccess (times : Nat → Nat) (channel : Nat) : Nat → Nat :=
  update times channel (times channel + 1)

def translate (mm : MQMigrator) (address : Nat) (out : Coords) : Coords × MQMigrator :=
  let (c, translator) := mm.translator.translate address out
  let key := mm.getAddressKey (rowOf c)
  let mm := { mm with translator, accessTimes := countAccess mm.accessTimes (c .channel) }
  match mm.migrationMap key with
  | some channel =>
    if mm.migrationState key = some .done then
      (update c .channel channel,
        { mm with
          migratedAccesses := mm.migratedAccesses + 1
          migrateAccessTimes := countAccess mm.migrateAccessTimes channel })
    else (c, { mm with migrateAccessTimes := countAccess mm.migrateAccessTimes (c .channel) })
  | none => (c, { mm with migrateAccessTimes := countAccess mm.migrateAccessTimes (c .channel) })

/-! ### Where a row is found -/

def locate (mm : MQMigrator) (r : Row) : Row :=
  match mm.migrationMap (mm.getAddressKey r) with
  | some channel => if mm.migrationState (mm.getAddressKey r) = some .done then { r with channel } else r
  | none => r

variable {g : Geometry} {mm mm' : MQMigrator} {r r' : Row}

theorem locate_of_none (h : mm.migrationMap (mm.getAddressKey r) = none) : mm.locate r = r := by
  rw [locate, h]

theorem locate_of_not_done (h : mm.migrationState (mm.getAddressKey r) ≠ some .done) : mm.locate r = r := by
  rw [locate]
  split
  · exact if_neg h
  · rfl

variable {channel : Nat}

theorem locate_of_done (hmap : mm.migrationMap (mm.getAddressKey r) = some channel)
    (h : mm.migrationState (mm.getAddressKey r) = some .done) : mm.locate r = { r with channel } := by
  rw [locate, hmap]
  exact if_pos h

structure Wf (g : Geometry) (mm : MQMigrator) : Prop where
  configured : mm.translator.Configured g.method g.bus
  numChannels : mm.numChannels = g.count .channel
  numBanks : mm.numBanks = g.count .bank
  numRanks : mm.numRanks = g.count .rank
  numSubarrays : mm.numSubarrays = g.count .subarray

def keyFields : List Field := [.channel, .subarray, .rank, .bank, .row]

theorem mem_keyFields {f : Field} (h : f ≠ .col) : f ∈ keyFields := by
  cases f with
  | col => exact absurd rfl h
  | row | bank | rank | channel | subarray => decide

/-- A key does not wrap: it stands for the row in a mixed radix. -/
theorem Wf.getAddressKey_eq (h : mm.Wf g) (hr : g.HasRow r) :
    mm.getAddressKey r = value g.count (r.coords 0) keyFields := by
  have hval : value g.count (r.coords 0) keyFields =
      r.row * mm.numBanks * mm.numRanks * mm.numSubarrays * mm.numChannels
        + r.bank * mm.numRanks * mm.numSubarrays * mm.numChannels
        + r.rank * mm.numSubarrays * mm.numChannels + r.subarray * mm.numChannels + r.channel := by
    rw [h.numBanks, h.numRanks, h.numSubarrays, h.numChannels]
    simp only [keyFields, value, Row.coords, Field.table]
    ring
  have hlt : value g.count (r.coords 0) keyFields < 2 ^ 64 := by
    have hvol : volume g.count keyFields ≤ 2 ^ 63 := by
      have hbits : g.method.bitWidths .channel + g.method.bitWidths .subarray + g.method.bitWidths .rank
          + g.method.bitWidths .bank + g.method.bitWidths .row ≤ 63 := by
        have := g.fits
        unfold TranslationMethod.totalBits at this
        omega
      refine le_trans (le_of_eq ?_) (Nat.pow_le_pow_right Nat.two_pos hbits)
      simp only [keyFields, volume, Geometry.count]
      ring
    have hin := hr.coords (Nat.two_pow_pos (g.method.bitWidths .col))
    have hval : value g.count (r.coords 0) keyFields < volume g.count keyFields :=
      value_lt fun f _ => hin f
    omega
  rw [getAddressKey, ← hval, mod_eq_of_lt hlt]

theorem Wf.getAddressKey_inj (h : mm.Wf g) (hr : g.HasRow r) (hr' : g.HasRow r')
    (hkey : mm.getAddressKey r = mm.getAddressKey r') : r = r' := by
  rw [h.getAddressKey_eq hr, h.getAddressKey_eq hr'] at hkey
  have hcoords : r.coords 0 = r'.coords 0 := by
    funext f
    by_cases hf : f = .col
    · rw [hf]
      rfl
    · have hin := hr.coords (Nat.two_pow_pos (g.method.bitWidths .col))
      have hin' := hr'.coords (Nat.two_pow_pos (g.method.bitWidths .col))
      exact value_inj (by decide) (fun f _ => hin f) (fun f _ => hin' f) hkey (mem_keyFields hf)
  rw [← rowOf_coords r 0, hcoords, rowOf_coords]

theorem Wf.translate_fst (h : mm.Wf g) (a : Nat) (out : Coords) :
    (mm.translate a out).1 = (mm.locate (g.home a)).coords (g.method.decode g.bus a .col) := by
  unfold translate
  rw [h.configured.translate_eq g.permutes]
  rw [← Geometry.rowOf_decode]
  generalize hc : g.method.decode g.bus a = c
  cases hmap : mm.migrationMap (mm.getAddressKey (rowOf c)) with
  | none =>
    simp only [hmap]
    rw [locate_of_none hmap, coords_rowOf]
  | some channel =>
    simp only [hmap]
    by_cases hdone : mm.migrationState (mm.getAddressKey (rowOf c)) = some .done
    · rw [locate_of_done hmap hdone, if_pos hdone]
      funext f
      cases f <;> rfl
    · rw [locate_of_not_done hdone, if_neg hdone, coords_rowOf]

theorem translate_rest (mm : MQMigrator) (a : Nat) (out : Coords) : (mm.translate a out).2 = { mm with
    translator := (mm.translator.translate a out).2
    migratedAccesses := (mm.translate a out).2.migratedAccesses
    accessTimes := (mm.translate a out).2.accessTimes
    migrateAccessTimes := (mm.translate a out).2.migrateAccessTimes } := by
  unfold translate
  simp only
  split
  · split
    · rfl
    · rfl
  · rfl

theorem Wf.translate_snd (h : mm.Wf g) (a : Nat) (out : Coords) : (mm.translate a out).2.Wf g := by
  rw [translate_rest, h.configured.translate_eq g.permutes]
  exact { h with configured := h.configured.prepare }

/-! ### Completed migrations -/

structure Migration where
  (promotee demotee : Row)
  updates : List (Bool × MigrationState)

def progress (x : Migration) (mm : MQMigrator) (u : Bool × MigrationState) : Option MQMigrator :=
  (assertThat (mm.migrating = true)).bind fun _ =>
    mm.setMigrationState (if u.1 then x.promotee else x.demotee) u.2

def migrate (mm : MQMigrator) (x : Migration) : Option MQMigrator :=
  (mm.startMigration x.promotee x.demotee).bind fun started =>
  (run (progress x) started x.updates).bind fun mm' =>
  (assertThat (mm'.migrating = false)).map fun _ => mm'

/-- What is left of a migration in the maps while it goes on. -/
structure Underway (x : Migration) (mm mm' : MQMigrator) : Prop where
  rest : mm' = { mm with
    migrationMap := mm'.migrationMap
    migrationState := mm'.migrationState
    migrating := mm'.migrating
    inputPage := mm.getAddressKey x.promotee
    outputPage := mm.getAddressKey x.demotee }
  map : mm'.migrationMap = update
    (update mm.migrationMap (mm.getAddressKey x.promotee) (some x.demotee.channel))
    (mm.getAddressKey x.demotee) (some x.promotee.channel)
  others : ∀ k, k ≠ mm.getAddressKey x.promotee → k ≠ mm.getAddressKey x.demotee →
    mm'.migrationState k = mm.migrationState k
  done : mm'.migrating = false → mm'.migrationState (mm.getAddressKey x.promotee) = some .done ∧
    mm'.migrationState (mm.getAddressKey x.demotee) = some .done

variable {x : Migration}

theorem Underway.getAddressKey (h : Underway x mm mm') (r : Row) : mm'.getAddressKey r = mm.getAddressKey r := by
  rw [h.rest]
  rfl

theorem startMigration_underway (h : mm.startMigration x.promotee x.demotee = some mm') :
    mm.migrating = false ∧ Underway x mm mm' := by
  obtain ⟨hm, rfl⟩ := assertThat_map_eq_some.mp h
  refine ⟨hm, rfl, rfl, fun k hp hd => ?_, nofun⟩
  exact (update_of_ne hd _ _).trans (update_of_ne hp _ _)

variable {newState : MigrationState}

theorem Underway.progress {u : Bool × MigrationState} {mm'' : MQMigrator}
    (h : Underway x mm mm') (hu : progress x mm' u = some mm'') : Underway x mm mm'' := by
  obtain ⟨hmig, hu⟩ := assertThat_bind_eq_some.mp hu
  obtain ⟨_, hu⟩ := assertThat_bind_eq_some.mp hu
  obtain ⟨_, rfl⟩ := assertThat_map_eq_some.mp hu
  have hin : mm'.inputPage = mm.getAddressKey x.promotee := by rw [h.rest]
  have hout : mm'.outputPage = mm.getAddressKey x.demotee := by rw [h.rest]
  refine ⟨?_, h.map, fun k hp hd => ?_, fun hfalse => ?_⟩
  · have hrest := h.rest
    unfold putState
    rw [hrest]
  · refine (update_of_ne ?_ _ _).trans (h.others k hp hd)
    rw [h.getAddressKey]
    split
    · exact hp
    · exact hd
  · rw [← hin, ← hout]
    exact done_of_ended hmig hfalse

/-- A completed migration leaves new channels and finished states at its two keys, and nothing
else. -/
structure Migrated (x : Migration) (mm mm' : MQMigrator) : Prop extends Underway x mm mm' where
  idle : mm.migrating = false
  completed : mm'.migrating = false

theorem migrate_migrated (h : mm.migrate x = some mm') : Migrated x mm mm' := by
  obtain ⟨started, hstart, h⟩ := bind_eq_some_iff.mp h
  obtain ⟨last, hrun, h⟩ := bind_eq_some_iff.mp h
  obtain ⟨hdone, rfl⟩ := assertThat_map_eq_some.mp h
  obtain ⟨hidle, hunder⟩ := startMigration_underway hstart
  have hlast : Underway x mm last :=
    run_invariant_of_step (progress x) (fun _ _ _ hi hs => hi.progress hs) x.updates hunder hrun
  exact ⟨hlast, hidle, hdone⟩

namespace Migrated

variable {x : Migration}

variable (h : Migrated x mm mm')
include h

theorem wf (hwf : mm.Wf g) : mm'.Wf g := by
  rw [h.rest]
  exact { hwf with }

theorem locate_promotee (hwf : mm.Wf g) (hp : g.HasRow x.promotee)
    (hd : g.HasRow x.demotee) (hne : x.promotee ≠ x.demotee) :
    mm'.locate x.promotee = { x.promotee with channel := x.demotee.channel } := by
  have hkey : mm.getAddressKey x.promotee ≠ mm.getAddressKey x.demotee :=
    fun he => hne (hwf.getAddressKey_inj hp hd he)
  apply locate_of_done
  · rw [h.getAddressKey, h.map, update_of_ne hkey, update_self]
  · rw [h.getAddressKey]
    exact (h.done h.completed).1

theorem locate_demotee : mm'.locate x.demotee = { x.demotee with channel := x.promotee.channel } := by
  apply locate_of_done
  · rw [h.getAddressKey, h.map, update_self]
  · rw [h.getAddressKey]
    exact (h.done h.completed).2

theorem locate_other (hwf : mm.Wf g) (hp : g.HasRow x.promotee)
    (hd : g.HasRow x.demotee) (hr : g.HasRow r) (hrp : r ≠ x.promotee) (hrd : r ≠ x.demotee) :
    mm'.locate r = mm.locate r := by
  have hkp : mm.getAddressKey r ≠ mm.getAddressKey x.promotee := fun he => hrp (hwf.getAddressKey_inj hr hp he)
  have hkd : mm.getAddressKey r ≠ mm.getAddressKey x.demotee := fun he => hrd (hwf.getAddressKey_inj hr hd he)
  rw [locate, locate, h.getAddressKey, h.map, update_of_ne hkd, update_of_ne hkp,
    h.others _ hkp hkd]

end Migrated

/-! ### Migrations that are started -/

/-- What the migrators do once both rows are chosen: the migration of a request's row is started
and, in atomic mode, ended at once. -/
def exchange (mm : MQMigrator) (request promotee demotee : Row) (atomic : Bool) : Option MQMigrator :=
  (mm.startMigration request demotee).bind fun mm =>
    if atomic then (mm.setMigrationState promotee .done).bind fun mm => mm.setMigrationState demotee .done
    else some mm

theorem setMigrationState_rest (h : mm.setMigrationState r newState = some mm') :
    mm' = { mm with migrationState := mm'.migrationState, migrating := mm'.migrating } := by
  obtain ⟨_, h⟩ := assertThat_bind_eq_some.mp h
  obtain ⟨_, rfl⟩ := assertThat_map_eq_some.mp h
  rfl

variable {demotee : Row}

theorem exchange_underway {atomic : Bool} (h : mm.exchange r r demotee atomic = some mm') :
    mm.migrating = false ∧ Underway ⟨r, demotee, []⟩ mm mm' := by
  obtain ⟨started, hstart, h⟩ := bind_eq_some_iff.mp h
  obtain ⟨hidle, hunder⟩ := startMigration_underway (x := ⟨r, demotee, []⟩) hstart
  refine ⟨hidle, ?_⟩
  cases atomic with
  | false =>
    cases h
    exact hunder
  | true =>
    obtain ⟨half, hhalf, h⟩ := bind_eq_some_iff.mp h
    have hmig : started.migrating = true := by
      obtain ⟨_, rfl⟩ := assertThat_map_eq_some.mp hstart
      rfl
    have hfirst : progress ⟨r, demotee, []⟩ started (true, .done) = some half := by
      rw [progress, assertThat_true hmig]
      exact hhalf
    have hunder' := hunder.progress hfirst
    -- the migration goes on, as its second page is not done yet
    have hmig' : half.migrating = true := by
      by_contra hend
      obtain ⟨_, h⟩ := assertThat_bind_eq_some.mp h
      obtain ⟨hnew, _⟩ := assertThat_map_eq_some.mp h
      apply hnew
      rw [hunder'.getAddressKey]
      exact (hunder'.done (eq_false_iff.mpr hend)).2
    have hsecond : progress ⟨r, demotee, []⟩ half (false, .done) = some mm' := by
      rw [progress, assertThat_true hmig']
      exact h
    exact hunder'.progress hsecond

theorem setMigrationState_of_state {state : MigrationState}
    (h : mm.migrationState (mm.getAddressKey r) = some state) (hne : state ≠ newState) :
    mm.setMigrationState r newState = some (mm.putState (mm.getAddressKey r) newState) := by
  have hsome : mm.migrationState (mm.getAddressKey r) ≠ none := by rw [h]; exact some_ne_none state
  have hnew : mm.migrationState (mm.getAddressKey r) ≠ some newState := by
    rw [h]
    exact fun he => hne (some_inj.mp he)
  rw [setMigrationState, assertThat_true hsome, bind_some, assertThat_true hnew, map_some]

theorem exchange_isSome (hidle : mm.migrating = false)
    (hne : mm.getAddressKey r ≠ mm.getAddressKey demotee) (atomic : Bool) :
    (mm.exchange r r demotee atomic).isSome := by
  rw [exchange, startMigration, assertThat_true hidle, map_some, bind_some]
  cases atomic with
  | false => rfl
  | true =>
    have hfirst : update (update mm.migrationState (mm.getAddressKey r) (some .reading))
        (mm.getAddressKey demotee) (some .reading) (mm.getAddressKey r) = some .reading := by
      rw [update_of_ne hne, update_self]
    rw [setMigrationState_of_state hfirst (by decide), bind_some]
    -- the other page still has the state that it was given at the start
    have hsecond := (update_of_ne hne.symm (some .done)
      (update (update mm.migrationState (mm.getAddressKey r) (some .reading))
        (mm.getAddressKey demotee) (some .reading))).trans (update_self _ _ _)
    rw [setMigrationState_of_state hsecond (by decide)]
    rfl

/-! ### Runs -/

inductive Op where
  | access (address : Nat) (out : Coords)
  | migrate (x : Migration)

def step (mm : MQMigrator) : Op → Option MQMigrator
  | .access address out => some (mm.translate address out).2
  | .migrate x => mm.migrate x

def Allowed (g : Geometry) (promotionChannel : Nat) (mm : MQMigrator) : Op → Prop
  | .access _ _ => True
  | .migrate x =>
    g.HasRow x.promotee ∧ g.HasRow x.demotee ∧
    x.promotee.channel ≠ promotionChannel ∧ x.demotee.channel = promotionChannel ∧
    mm.isMigrated x.promotee = false ∧ mm.isMigrated x.demotee = false

def SameButChannel : Op → Prop
  | .access _ _ => True
  | .migrate x => { x.promotee with channel := x.demotee.channel } = x.demotee

def Op.swap : Op → Equiv.Perm Row
  | .access _ _ => Equiv.refl Row
  | .migrate x => Equiv.swap x.promotee x.demotee

def swaps (ops : List Op) : Equiv.Perm Row := composed Op.swap ops

/-- `Translate` takes addresses of distinct rows to distinct rows. -/
def DistinctRows (g : Geometry) (mm : MQMigrator) : Prop :=
  ∀ a b out out', a < g.capacity → b < g.capacity →
    rowOf (mm.translate a out).1 = rowOf (mm.translate b out').1 → g.home a = g.home b

structure Idle (g : Geometry) (mm : MQMigrator) : Prop extends mm.Wf g where
  channel_lt : ∀ r, g.HasRow r → (mm.locate r).channel < g.count .channel

def Distinct (g : Geometry) (mm : MQMigrator) : Prop :=
  ∀ r r', g.HasRow r → g.HasRow r' → mm.locate r = mm.locate r' → r = r'

theorem distinctRows_iff (h : mm.Wf g) : DistinctRows g mm ↔ Distinct g mm := by
  constructor
  · intro hd r r' hr hr' he
    have hab := hd (g.base r) (g.base r') (fun _ => 0) (fun _ => 0) (g.base_lt hr) (g.base_lt hr')
    rw [h.translate_fst, h.translate_fst, g.home_base hr, g.home_base hr'] at hab
    exact hab he
  · intro hd a b out out' _ _ he
    rw [h.translate_fst, h.translate_fst] at he
    exact hd _ _ (g.home_hasRow a) (g.home_hasRow b) he

theorem locate_eq (mm : MQMigrator) (r : Row) : mm.locate r = { r with channel := (mm.locate r).channel } := by
  unfold locate
  split
  · split
    · rfl
    · rfl
  · rfl

theorem locate_of_not_migrated (h : mm.isMigrated r = false) : mm.locate r = r := by
  cases hmap : mm.migrationMap (mm.getAddressKey r) with
  | none => exact locate_of_none hmap
  | some channel =>
    apply locate_of_not_done
    intro hdone
    simp [isMigrated, hmap, hdone] at h

/-- Redirection that keeps rows apart reaches every row: it permutes the channels of a row. -/
theorem Idle.exists_locate (h : Idle g mm) (hd : Distinct g mm) (hr : g.HasRow r)
    (hch : channel < g.count .channel) : ∃ q, g.HasRow q ∧ mm.locate q = { r with channel } := by
  have hrow : ∀ c : Fin (g.count .channel), g.HasRow { r with channel := c } := fun c =>
    { hr with channel := c.isLt }
  let f : Fin (g.count .channel) → Fin (g.count .channel) := fun c =>
    ⟨(mm.locate { r with channel := c }).channel, h.channel_lt _ (hrow c)⟩
  have hinj : Function.Injective f := by
    intro c c' he
    have hloc : mm.locate { r with channel := c.val } = mm.locate { r with channel := c'.val } := by
      rw [locate_eq mm { r with channel := c.val }, locate_eq mm { r with channel := c'.val }]
      exact congrArg (fun k => ({ r with channel := k } : Row)) (congrArg Fin.val he)
    exact Fin.ext (congrArg Row.channel (hd _ _ (hrow c) (hrow c') hloc))
  obtain ⟨c, hc⟩ := (Finite.injective_iff_surjective.mp hinj) ⟨channel, hch⟩
  refine ⟨{ r with channel := c }, hrow c, ?_⟩
  rw [locate_eq]
  exact congrArg (fun k => ({ r with channel := k } : Row)) (congrArg Fin.val hc)

theorem translate_locate (mm : MQMigrator) (a : Nat) (out : Coords) : (mm.translate a out).2.locate = mm.locate := by
  rw [translate_rest]
  rfl

variable {promotionChannel : Nat} {op : Op}

theorem Allowed.migrate (h : Allowed g promotionChannel mm (.migrate x)) :
    x.promotee ≠ x.demotee ∧ mm.locate x.promotee = x.promotee ∧ mm.locate x.demotee = x.demotee := by
  obtain ⟨_, _, hp, hd, hmp, hmd⟩ := h
  refine ⟨fun he => ?_, locate_of_not_migrated hmp, locate_of_not_migrated hmd⟩
  rw [he] at hp
  exact hp hd

/-- After a migration of rows that agree but for the channel, these rows have changed places. -/
theorem Migrated.locate_eq (h : Migrated x mm mm') (hwf : mm.Wf g) (hdist : Distinct g mm)
    (hallowed : Allowed g promotionChannel mm (.migrate x)) (hsame : SameButChannel (.migrate x))
    (hr : g.HasRow r) : mm'.locate r = Equiv.swap x.promotee x.demotee (mm.locate r) := by
  obtain ⟨hne, hlp, hld⟩ := hallowed.migrate
  obtain ⟨hp, hd, _⟩ := hallowed
  have hback : { x.demotee with channel := x.promotee.channel } = x.promotee := by
    rw [← hsame]
  by_cases hrp : r = x.promotee
  · rw [hrp, h.locate_promotee hwf hp hd hne, hlp, Equiv.swap_apply_left]
    exact hsame
  · by_cases hrd : r = x.demotee
    · rw [hrd, h.locate_demotee, hld, Equiv.swap_apply_right]
      exact hback
    · rw [h.locate_other hwf hp hd hr hrp hrd, Equiv.swap_apply_of_ne_of_ne]
      · exact fun he => hrp (hdist _ _ hr hp (he.trans hlp.symm))
      · exact fun he => hrd (hdist _ _ hr hd (he.trans hld.symm))

/-- After a migration that keeps rows apart, the promoted row has taken the place of the demoted
one. -/
theorem Migrated.sameButChannel (h : Migrated x mm mm') (hidle : Idle g mm)
    (hdist : Distinct g mm) (hallowed : Allowed g promotionChannel mm (.migrate x)) (hdist' : Distinct g mm') :
    SameButChannel (.migrate x) := by
  obtain ⟨hne, hlp, hld⟩ := hallowed.migrate
  obtain ⟨hp, hd, hpc, hdc, _⟩ := hallowed
  have hch : x.demotee.channel < g.count .channel := hd.channel
  -- some row was found where the promoted one is now
  obtain ⟨q, hq, hloc⟩ := hidle.exists_locate hdist hp hch
  have hqp : q ≠ x.promotee := by
    intro he
    rw [he, hlp] at hloc
    exact hpc ((congrArg Row.channel hloc).trans hdc)
  by_cases hqd : q = x.demotee
  · rw [hqd, hld] at hloc
    exact hloc.symm
  · have hsame := h.locate_other hidle.toWf hp hd hq hqp hqd
    have hcollide : mm'.locate q = mm'.locate x.promotee := by
      rw [hsame, hloc, h.locate_promotee hidle.toWf hp hd hne]
    exact absurd (hdist' _ _ hq hp hcollide) hqp

theorem Idle.step (h : Idle g mm) (hdist : Distinct g mm) (hallowed : Allowed g promotionChannel mm op)
    (hs : step mm op = some mm') : Idle g mm' ∧ (Distinct g mm' ↔ SameButChannel op) := by
  cases op with
  | access a out =>
    cases hs
    have hloc := translate_locate mm a out
    refine ⟨⟨h.translate_snd a out, fun r hr => ?_⟩, iff_of_true (fun r r' hr hr' he => ?_) trivial⟩
    · rw [hloc]
      exact h.channel_lt r hr
    · rw [hloc] at he
      exact hdist r r' hr hr' he
  | migrate x =>
    have hm : Migrated x mm mm' := migrate_migrated hs
    obtain ⟨hne, hlp, hld⟩ := hallowed.migrate
    refine ⟨⟨hm.wf h.toWf, fun r hr => ?_⟩, ?_, ?_⟩
    · by_cases hrp : r = x.promotee
      · rw [hrp, hm.locate_promotee h.toWf hallowed.1 hallowed.2.1 hne]
        exact hallowed.2.1.channel
      · by_cases hrd : r = x.demotee
        · rw [hrd, hm.locate_demotee]
          exact hallowed.1.channel
        · rw [hm.locate_other h.toWf hallowed.1 hallowed.2.1 hr hrp hrd]
          exact h.channel_lt r hr
    · exact hm.sameButChannel h hdist hallowed
    · intro hsame r r' hr hr' he
      rw [hm.locate_eq h.toWf hdist hallowed hsame hr, hm.locate_eq h.toWf hdist hallowed hsame hr'] at he
      exact hdist r r' hr hr' (Equiv.injective _ he)

variable {t : AddressTranslator}

theorem idle_new (ht : t.Configured g.method g.bus) : Idle g (new g t) where
  configured := ht
  numChannels := rfl
  numBanks := rfl
  numRanks := rfl
  numSubarrays := rfl
  channel_lt _ hr := hr.channel

theorem run_locate (ht : t.Configured g.method g.bus) {ops : List Op}
    (hallowed : AllSteps step (Allowed g promotionChannel) (new g t) ops)
    (hsame : AllSteps step (fun _ op => SameButChannel op) (new g t) ops) (hrun : run step (new g t) ops = some mm) :
    Idle g mm ∧ ∀ r, g.HasRow r → mm.locate r = swaps ops r := by
  let P : List Op → MQMigrator → Prop := fun hist s => Idle g s ∧ ∀ r, g.HasRow r → s.locate r = swaps hist r
  have hstep : ∀ hist s op s', P hist s → (Allowed g promotionChannel s op ∧ SameButChannel op) →
      step s op = some s' → P (hist ++ [op]) s' ∧ True := by
    rintro hist s op s' ⟨hidle, hswaps⟩ ⟨hallowed, hsame⟩ hs
    have hdist : Distinct g s := by
      intro r r' hr hr' he
      rw [hswaps r hr, hswaps r' hr'] at he
      exact Equiv.injective _ he
    refine ⟨⟨(hidle.step hdist hallowed hs).1, fun r hr => ?_⟩, trivial⟩
    rw [swaps, composed_snoc]
    show _ = op.swap (swaps hist r)
    rw [← hswaps r hr]
    cases op with
    | access a out =>
      cases hs
      rw [translate_locate]
      rfl
    | migrate x => exact (migrate_migrated hs).locate_eq hidle.toWf hdist hallowed hsame hr
  have hinit : P [] (new g t) := ⟨idle_new ht, fun _ _ => rfl⟩
  exact (run_history_of_some step hstep ops hinit (hallowed.and step ops hsame) hrun).1

/-- Along a run of completed migrations between the promotion channel and others, none of a
row for the second time, `Translate` keeps distinct rows apart in every state exactly if each
migration exchanges rows that differ in nothing but the channel. It then finds every row
where the exchanges have put it, with the column kept. -/
theorem translate_distinctRows_iff (g : Geometry) (promotionChannel : Nat) (t : AddressTranslator)
    (ht : t.Configured g.method g.bus) (ops : List Op) (mm : MQMigrator)
    (hallowed : AllSteps step (Allowed g promotionChannel) (new g t) ops) (hrun : run step (new g t) ops = some mm) :
    ((∀ pre, pre <+: ops → ∀ s, run step (new g t) pre = some s → DistinctRows g s) ↔
      AllSteps step (fun _ op => SameButChannel op) (new g t) ops) ∧
    (AllSteps step (fun _ op => SameButChannel op) (new g t) ops →
      ∀ pre, pre <+: ops → ∀ s, run step (new g t) pre = some s → ∀ a out,
        (s.translate a out).1 = (swaps pre (g.home a)).coords (g.method.decode g.bus a .col)) := by
  constructor
  · refine forall_run_iff_allSteps_of step (fun s op s' hidle hdist hop hs => ?_) ops (idle_new ht) ?_ hallowed hrun
    · obtain ⟨hidle', hiff⟩ := hidle.step ((distinctRows_iff hidle.toWf).mp hdist) hop hs
      exact ⟨hidle', (distinctRows_iff hidle'.toWf).trans hiff⟩
    · exact (distinctRows_iff (idle_new ht).toWf).mpr fun _ _ _ _ he => he
  · rintro hsame pre ⟨post, rfl⟩ s hs a out
    have hallowed := ((allSteps_append step).mp hallowed).1
    have hsame := ((allSteps_append step).mp hsame).1
    obtain ⟨hidle, hloc⟩ := run_locate ht hallowed hsame hs
    rw [hidle.translate_fst, hloc _ (g.home_hasRow a)]

section Pair

def pairMethod : TranslationMethod where
  bitWidths := Field.table 1 0 0 0 1 0
  order := Field.table 1 2 3 4 0 5

theorem pairBus_fits_int : 8 * 1 < 2 ^ 31 := by decide

def pairBus : Bus := ⟨8, 1, Nat.one_pos, pairBus_fits_int⟩

def pair : Geometry := ⟨pairMethod, pairBus, by decide, by decide⟩

def pairTranslator : AddressTranslator := .new pairMethod pairBus (fun _ => 0) (fun _ => 0)

def promotion (row row' : Nat) : Op :=
  .migrate { promotee := ⟨1, 0, 0, 0, row⟩, demotee := ⟨0, 0, 0, 0, row'⟩
             updates := [(true, .buffered), (false, .buffered), (true, .writing), (false, .writing),
               (true, .done), (false, .done)] }

instance (op : Op) : Decidable (Allowed g promotionChannel mm op) :=
  match op with
  | .access _ _ => isTrue trivial
  | .migrate x => inferInstanceAs (Decidable (g.HasRow x.promotee ∧ g.HasRow x.demotee ∧ _ ∧ _ ∧ _ ∧ _))

theorem translate_distinctRows_iff_pair :
    ∃ mm, run step (new pair pairTranslator) [promotion 1 1] = some mm ∧
      ∀ pre, pre <+: [promotion 1 1] → ∀ s, run step (new pair pairTranslator) pre = some s → DistinctRows pair s := by
  have hsome : (run step (new pair pairTranslator) [promotion 1 1]).isSome := by decide +kernel
  obtain ⟨mm, hrun⟩ := isSome_iff_exists.mp hsome
  have hallowed : AllSteps step (Allowed pair 0) (new pair pairTranslator) [promotion 1 1] := by decide +kernel
  refine ⟨mm, hrun, (translate_distinctRows_iff pair 0 pairTranslator (AddressTranslator.new_configured _ _) _ mm
    hallowed hrun).1.mpr ⟨rfl, fun _ _ => trivial⟩⟩

/-- Row zero of channel one, promoted in exchange for row one of channel zero, is found in
row zero of channel zero, where the row that was always there is found too. -/
theorem promotion_merges_rows :
    AllSteps step (Allowed pair 0) (new pair pairTranslator) [promotion 0 1] ∧
    ∃ s, run step (new pair pairTranslator) [promotion 0 1] = some s ∧
      pair.home 1 = ⟨1, 0, 0, 0, 0⟩ ∧ pair.home 0 = ⟨0, 0, 0, 0, 0⟩ ∧
      rowOf (s.translate 1 fun _ => 0).1 = ⟨0, 0, 0, 0, 0⟩ ∧
      rowOf (s.translate 0 fun _ => 0).1 = ⟨0, 0, 0, 0, 0⟩ := by
  decide +kernel

end Pair

end MQMigrator

end Shma.Nvmain
