import Shma.Nvmain.FlatMigratorRuns
import Shma.Nvmain.StatsStore

/-!
# Rejected writes of a migration

`RequestComplete` of `NVM/Flat_RBLA_NVMain/FlatRBLANVMain.cpp` decides what the migrator is told of.
A request of the memory itself that is marked as part of a migration is passed on; any other one
ends in the memory. The migrator issues a rejected write again only for a request that is passed on
and is neither a read nor a write of its own, and there is none.

The counters and the prefetch buffer are left out. The threshold is adjusted elsewhere and given
with each request.
-/
namespace Shma.Nvmain

open Lib Lib.Run

namespace FlatMigration

variable {L : FlatLayout} {n : VictimCounts} {m m' : FlatMigration}

variable {ready : Media → Nat → Bool} {req : MigrationRequest}

theorem writes_tryMigration {f : FlatMigrator}
    {x : FlatMigrator × List Issue} (h : f.tryMigration L n ready req = some x) (k : Nat) :
    writes k x.2 = [] := by
  obtain hnil | ⟨_, _, _, hreads⟩ := tryMigration_issues h
  · rw [hnil]
    rfl
  · rw [hreads]
    rfl

theorem issueCommand_attempts
    (h : m.issueCommand L n req ready = some m') : m'.attempts = m.attempts ∨ m'.attempts = [] := by
  unfold issueCommand at h
  split at h
  · obtain ⟨x, hx, rfl⟩ := map_eq_some_iff.mp h
    have hsame : ((m.begun x.2).issue x.1 x.2).attempts = (m.begun x.2).attempts := by
      rw [issue, writes_tryMigration hx, append_nil]
    rw [hsame]
    unfold begun
    split
    · exact .inr rfl
    · exact .inl rfl
  · cases h
    exact .inl rfl

theorem Inv.step_buffered {D : (Side → MigRequest) → Prop} {e : Event} (h : Inv L D m) (ha : m.Allowed L n e)
    (hother : ∀ accept, e ≠ .other accept) (hs : m.step L n e = some m') {i : Side}
    (hi : m.migrator.buffered i = true) : m'.migrator.buffered i = true := by
  have hidle : ¬∀ j, m.migrator.buffered j = false := fun hall => by simp [hall i] at hi
  have hmig : m.migrator.decoder.migrating = true := by
    rw [← Bool.not_eq_false]
    exact fun hover => hidle (h.phase.safe.2.2.2 hover)
  cases e with
  | other accept => exact absurd rfl (hother accept)
  | request req ready =>
    obtain rfl := some_inj.mp ((issueCommand_migrating hmig req ready).symm.trans hs)
    exact hi
  | retry req ready =>
    have hput := issueCommand_migrating (L := L) (n := n)
      (s := { m with delayed := m.delayed.erase req }) hmig req ready
    obtain rfl := mem_unique hput hs
    exact hi
  | complete req accept =>
    cases h.phase with
    | idle h | reading r out h => exact absurd h.buffered hidle
    | writing r status h =>
      have hmem : req ∈ m.inflight := ha
      rw [h.inflight] at hmem
      obtain ⟨j, hj, rfl⟩ := mem_outstanding.mp hmem
      rw [h.step_complete (of_decide_eq_true hj)] at hs
      cases hs
      exact hi

end FlatMigration

/-- The types that are told apart: `READ` and `READ_PRECHARGE`, `WRITE` and `WRITE_PRECHARGE`, all
others. -/
inductive RequestType where
  | read | write | other

structure CompletedRequest where
  /-- The owner is the memory. -/
  (owned isPrefetch isMigration : Bool)
  /-- The request that the migrator issued, if the tag is `MIG_READ` or `MIG_WRITE`. -/
  issued : Option MigRequest
  rbHit : Bool
  type : RequestType
  access : MigrationRequest

structure RBLAConfig where
  layout : FlatLayout
  victims : VictimCounts
  (readIncre writeIncre : Nat)

structure FlatRBLAMemory where
  statsTable : StatsStore
  migration : FlatMigration

namespace FlatRBLAMemory

def getRowNum (c : RBLAConfig) (req : CompletedRequest) : Nat :=
  c.layout.slow.base (c.layout.slow.home req.access.physicalAddress)

/-- Whether a row of the slow device that missed is to be migrated. -/
def canMigrate (c : RBLAConfig) (migraThres : Nat) (s : FlatRBLAMemory) (req : CompletedRequest) : Bool × StatsStore :=
  match req.type with
  | .read => s.statsTable.updateStatsTable migraThres (getRowNum c req) c.readIncre
  | .write => s.statsTable.updateStatsTable migraThres (getRowNum c req) c.writeIncre
  | .other => (false, s.statsTable)

/-- `RequestComplete` of a request of another owner. -/
def ordinaryComplete (c : RBLAConfig) (migraThres : Nat) (ready : Media → Nat → Bool) (s : FlatRBLAMemory)
    (req : CompletedRequest) : Option FlatRBLAMemory :=
  if req.rbHit = false ∧ req.access.media = .slow then
    let (ret, statsTable) := s.canMigrate c migraThres req
    if ret then (s.migration.issueCommand c.layout c.victims req.access ready).map (⟨statsTable, ·⟩)
    else some { s with statsTable }
  else some s

def migratorEvent (accept : Side → Bool) (req : CompletedRequest) : FlatMigration.Event :=
  match req.issued with
  | some r => .complete r accept
  | none => .other accept

def requestComplete (c : RBLAConfig) (migraThres : Nat) (ready : Media → Nat → Bool) (accept : Side → Bool)
    (s : FlatRBLAMemory) (req : CompletedRequest) : Option FlatRBLAMemory :=
  if req.owned then
    if req.isPrefetch then some s
    else if req.isMigration then
      (s.migration.step c.layout c.victims (migratorEvent accept req)).map (⟨s.statsTable, ·⟩)
    else some s
  else s.ordinaryComplete c migraThres ready req

inductive Event where
  | completed (migraThres : Nat) (ready : Media → Nat → Bool) (accept : Side → Bool) (req : CompletedRequest)
  | delayed (req : MigrationRequest) (ready : Media → Nat → Bool)

def step (c : RBLAConfig) (s : FlatRBLAMemory) : Event → Option FlatRBLAMemory
  | .completed migraThres ready accept req => s.requestComplete c migraThres ready accept req
  | .delayed req ready => (s.migration.step c.layout c.victims (.retry req ready)).map (⟨s.statsTable, ·⟩)

/-- The requests of the memory that are marked as part of a migration are those that the migrator
has issued. -/
def Allowed (c : RBLAConfig) (s : FlatRBLAMemory) : Event → Prop
  | .completed _ ready _ req =>
    if req.owned then req.isMigration = true → ∃ r, req.issued = some r ∧ r ∈ s.migration.inflight
    else s.migration.Allowed c.layout c.victims (.request req.access ready)
  | .delayed req ready => s.migration.Allowed c.layout c.victims (.retry req ready)

instance (c : RBLAConfig) (s : FlatRBLAMemory) : ∀ e, Decidable (Allowed c s e)
  | .completed _ ready _ req => inferInstanceAs (Decidable (if req.owned then
      req.isMigration = true → ∃ r, req.issued = some r ∧ _ else s.migration.Allowed _ _ (.request req.access ready)))
  | .delayed req ready => inferInstanceAs (Decidable (s.migration.Allowed c.layout c.victims (.retry req ready)))

def Waiting (s : FlatRBLAMemory) (i : Side) : Prop := s.migration.migrator.buffered i = true
  deriving Decidable

def Ordinary : Event → Prop
  | .completed _ _ _ req => req.owned = false
  | .delayed _ _ => False

instance : DecidablePred Ordinary
  | .completed _ _ _ req => inferInstanceAs (Decidable (req.owned = false))
  | .delayed _ _ => isFalse id

def Retried (c : RBLAConfig) (s : FlatRBLAMemory) (e : Event) : Prop :=
  Ordinary e → ∀ i, s.Waiting i → ∃ s', step c s e = some s' ∧ ∃ new, ∃ t ∈ new,
    s'.migration.attempts = s.migration.attempts ++ new ∧ some t.request = s.migration.migrator.req i

def NoneWaits (s : FlatRBLAMemory) (e : Event) : Prop := Ordinary e → ∀ i, ¬s.Waiting i
  deriving Decidable

variable {c : RBLAConfig} {s s' : FlatRBLAMemory}

theorem ordinaryComplete_attempts {migraThres : Nat} {ready : Media → Nat → Bool} {req : CompletedRequest}
    (h : s.ordinaryComplete c migraThres ready req = some s') :
    s'.migration.attempts = s.migration.attempts ∨ s'.migration.attempts = [] := by
  unfold ordinaryComplete at h
  split at h
  · simp only at h
    split at h
    · obtain ⟨m, hm, rfl⟩ := map_eq_some_iff.mp h
      exact FlatMigration.issueCommand_attempts hm
    · cases h
      exact .inl rfl
  · cases h
    exact .inl rfl

theorem retried_iff (c : RBLAConfig) (s : FlatRBLAMemory) (e : Event) : Retried c s e ↔ s.NoneWaits e := by
  refine ⟨fun h hord i hw => ?_, fun h hord i hw => absurd hw (h hord i)⟩
  obtain ⟨s', hs, new, t, ht, hnew, _⟩ := h hord i hw
  have hlen : s'.migration.attempts.length ≤ s.migration.attempts.length := by
    cases e with
    | completed migraThres ready accept req =>
      rw [step, requestComplete, if_neg (by rw [hord]; exact Bool.false_ne_true)] at hs
      obtain he | he := ordinaryComplete_attempts hs
      · rw [he]
      · rw [he]
        exact Nat.zero_le _
    | delayed => exact hord.elim
  rw [hnew, length_append] at hlen
  have hpos := List.length_pos_of_mem ht
  omega

variable {e : Event}

/-- A step of the memory is one of the migrator that issues no write again, or leaves the migrator
alone. -/
theorem step_cases (h : Allowed c s e) :
    (∃ t, step c s e = some ⟨t, s.migration⟩) ∨
      ∃ t e', (∀ accept, e' ≠ .other accept) ∧ s.migration.Allowed c.layout c.victims e' ∧
        step c s e = (s.migration.step c.layout c.victims e').map (⟨t, ·⟩) := by
  cases e with
  | delayed req ready => exact .inr ⟨_, .retry req ready, nofun, h, rfl⟩
  | completed migraThres ready accept req =>
    simp only [step, requestComplete]
    by_cases howned : req.owned = true
    · rw [Allowed, if_pos howned] at h
      rw [if_pos howned]
      split
      · exact .inl ⟨_, rfl⟩
      · split
        next hmig =>
          obtain ⟨r, hr, hmem⟩ := h hmig
          exact .inr ⟨_, .complete r accept, nofun, hmem, by rw [migratorEvent, hr]⟩
        · exact .inl ⟨_, rfl⟩
    · rw [Allowed, if_neg howned] at h
      rw [if_neg howned]
      unfold ordinaryComplete
      split
      · simp only
        split
        · exact .inr ⟨_, .request req.access ready, nofun, h, rfl⟩
        · exact .inl ⟨_, rfl⟩
      · exact .inl ⟨_, rfl⟩

theorem step_waiting (hkeys : FlatMigration.DistinctKeys c.layout c.victims)
    (h : s.migration.Inv c.layout fun _ => True) (ha : Allowed c s e) :
    ∃ s', step c s e = some s' ∧ s'.migration.Inv c.layout (fun _ => True) ∧ ∀ i, s.Waiting i → s'.Waiting i := by
  obtain ⟨t, hs⟩ | ⟨t, e', hother, ha', hs⟩ := step_cases ha
  · exact ⟨_, hs, h, fun _ hi => hi⟩
  · obtain ⟨m', hm, hinv⟩ := h.step hkeys ha' (.trivial e')
    rw [hm] at hs
    exact ⟨_, hs, hinv, fun i => h.step_buffered ha' hother hm⟩

theorem run_waiting (hkeys : FlatMigration.DistinctKeys c.layout c.victims) (events : List Event)
    (h : s.migration.Inv c.layout fun _ => True) (ha : AllSteps (step c) (Allowed c) s events) :
    ∃ s', run (step c) s events = some s' ∧ s'.migration.Inv c.layout (fun _ => True) ∧ ∀ i, s.Waiting i → s'.Waiting i := by
  induction events generalizing s with
  | nil => exact ⟨s, rfl, h, fun _ => id⟩
  | cons e events ih =>
    obtain ⟨s1, hs1, hinv1, hi1⟩ := step_waiting hkeys h ha.1
    obtain ⟨s', hs', hinv', hi'⟩ := ih hinv1 (ha.2 s1 hs1)
    exact ⟨s', (run_cons_eq_some (step c)).mpr ⟨s1, hs1, hs'⟩, hinv', fun i hi => hi' i (hi1 i hi)⟩

/-- Each write that waits is issued again when an ordinary request completes exactly if none ever
waits then. With distinct keys, a write that was rejected waits in every later state, and the
migration never ends. -/
theorem rejected_write_retried_iff (c : RBLAConfig) (table : StatsStore) (events : List Event) :
    (AllSteps (step c) (Retried c) ⟨table, .new⟩ events ↔ AllSteps (step c) NoneWaits ⟨table, .new⟩ events) ∧
    (FlatMigration.DistinctKeys c.layout c.victims → AllSteps (step c) (Allowed c) ⟨table, .new⟩ events →
      ∀ before after, events = before ++ after → ∀ s, run (step c) ⟨table, .new⟩ before = some s →
      ∀ i, s.Waiting i → ∃ s', run (step c) s after = some s' ∧ s'.Waiting i ∧
        s'.migration.migrator.decoder.migrating = true) := by
  refine ⟨?_, fun hkeys hallowed before after he s hs i hi => ?_⟩
  · rw [show Retried c = NoneWaits from funext fun s => funext fun e => propext (retried_iff c s e)]
  · rw [he, allSteps_append] at hallowed
    obtain ⟨s1, hs1, hinv, -⟩ := run_waiting hkeys before (FlatMigration.inv_new c.layout _) hallowed.1
    obtain rfl := mem_unique hs1 hs
    obtain ⟨s', hs', hinv', hi'⟩ := run_waiting hkeys after hinv (hallowed.2 s1 hs)
    refine ⟨s', hs', hi' i hi, ?_⟩
    rw [← Bool.not_eq_false]
    intro hover
    have hfalse := hinv'.phase.safe.2.2.2 hover i
    rw [hi' i hi] at hfalse
    cases hfalse

section TwoRows

open FlatMigration (twoVictims rowRequest)
open FlatDecoder (fastRow slowRow)

def twoRowsConfig : RBLAConfig := ⟨FlatDecoder.twoRows, twoVictims, 1, 1⟩

def slowRead (row : Nat) : Event :=
  .completed 1 (fun _ _ => true) (fun _ => true)
    ⟨false, false, false, none, false, .read, ⟨0, ⟨0, 0, 0, 0, row⟩, .slow⟩⟩

def ownComplete (accept : Side → Bool) (r : MigRequest) : Event :=
  .completed 1 (fun _ _ => true) accept ⟨true, false, true, some r, false, .other, ⟨0, ⟨0, 0, 0, 0, 0⟩, .slow⟩⟩

/-- The first slow row is exchanged with the first fast one until both are read. -/
def bothRead (accept : Side → Bool) : List Event :=
  [slowRead 0, ownComplete accept (rowRequest 1 1 .read (fastRow 0)), ownComplete accept (rowRequest 0 0 .read (slowRow 0))]

/-- With both writes accepted nothing waits; with the second one rejected it waits for ever. -/
theorem rejected_write_retried_iff_two :
    AllSteps (step twoRowsConfig) (Retried twoRowsConfig) ⟨⟨[.new]⟩, .new⟩ (bothRead (fun _ => true) ++ [slowRead 1]) ∧
    ∃ s, run (step twoRowsConfig) ⟨⟨[.new]⟩, .new⟩ (bothRead (· = .promotee)) = some s ∧ s.Waiting .demotee ∧
      ∃ s', run (step twoRowsConfig) s
          [ownComplete (fun _ => true) (rowRequest 3 1 .write (slowRow 0)), slowRead 1] = some s' ∧
        s'.Waiting .demotee ∧ s'.migration.migrator.decoder.migrating = true := by
  refine ⟨(rejected_write_retried_iff _ _ _).1.mpr (by decide +kernel), ?_⟩
  obtain ⟨s, hs, hi⟩ : ∃ s, run (step twoRowsConfig) ⟨⟨[.new]⟩, .new⟩ (bothRead (· = .promotee)) = some s ∧
      s.Waiting .demotee := by decide +kernel
  exact ⟨s, hs, hi, (rejected_write_retried_iff _ _ _).2 FlatMigration.twoVictims_distinctKeys (by decide +kernel) _ _
    rfl s hs .demotee hi⟩

/-- The write of the second row is rejected and the other one completes. A read that completes then
is put off as a request for a migration: no write is issued, none is outstanding, and the migration
goes on. -/
theorem rejected_write_waits :
    ∃ s, run (step twoRowsConfig) ⟨⟨[.new]⟩, .new⟩ (bothRead (· = .promotee) ++
        [ownComplete (fun _ => true) (rowRequest 3 1 .write (slowRow 0))]) = some s ∧
      s.Waiting .demotee ∧ s.migration.inflight = 0 ∧ s.migration.attempts.length = 2 ∧
      ∃ s', step twoRowsConfig s (slowRead 1) = some s' ∧ s'.Waiting .demotee ∧ s'.migration.inflight = 0 ∧
        s'.migration.attempts.length = 2 ∧ s'.migration.migrator.decoder.migrating = true := by
  decide +kernel

end TwoRows

end FlatRBLAMemory

end Shma.Nvmain
