import Shma.Nvmain.MQMigrator

/-!
# Checkpoints of the decoder of the multi-queue migrator

`CreateCheckpoint` and `RestoreCheckpoint` of `Decoders/MQMigrator/MQMigrator.cpp`, for files
that are opened and hold what was written. The new channels are written and read back, the
states are not, and without them the decoder redirects nothing. Its first access to a row
that has a channel and no state adds the state `MQ_MIGRATION_UNKNOWN`, which makes no
difference to any later answer and is left out.
-/
namespace Shma.Nvmain

open Lib Lib.Run

namespace MQMigrator

variable (migrationMap : Nat → Option Nat) (mm : MQMigrator)

/-- What iterating over `migrationMap` meets, in the order of the keys, which are below the
bound. -/
def entries (bound : Nat) : List (Nat × Nat) :=
  (List.range bound).filterMap fun key => (migrationMap key).map fun channel => (key, channel)

/-- `CreateCheckpoint`: the pairs of words that are written. -/
def createCheckpoint : List (Nat × Nat) := entries mm.migrationMap (2 ^ 64)

/-- `migrationMap.insert`, which leaves an entry that is there. -/
def insertEntry (entry : Nat × Nat) : Nat → Option Nat :=
  if (migrationMap entry.1).isSome then migrationMap else update migrationMap entry.1 (some entry.2)

def restoreCheckpoint (file : List (Nat × Nat)) : MQMigrator :=
  { mm with migrationMap := file.foldl insertEntry mm.migrationMap }

def Op.isMigration : Op → Bool
  | .access _ _ => false
  | .migrate _ => true

def SameAnswers (g : Geometry) (mm mm' : MQMigrator) : Prop :=
  (∀ a out, (mm.translate a out).1 = (mm'.translate a out).1) ∧
    ∀ r, g.HasRow r → mm.isMigrated r = mm'.isMigrated r

variable {g : Geometry} {mm mm' : MQMigrator}

theorem foldl_insertEntry (bound : Nat) :
    (entries migrationMap bound).foldl insertEntry (fun _ => none) =
      fun key => if key < bound then migrationMap key else none := by
  induction bound with
  | zero => rfl
  | succ bound ih =>
    rw [entries, List.range_succ, filterMap_append, List.foldl_append, ← entries, ih]
    funext key
    cases hmap : migrationMap bound with
    | none =>
      simp only [List.filterMap_cons, hmap, Option.map_none, List.filterMap_nil, List.foldl_nil]
      by_cases hkey : key = bound
      · rw [hkey, if_neg (Nat.lt_irrefl bound), if_pos (lt_succ_self bound), hmap]
      · simp only [show key < bound + 1 ↔ key < bound by omega]
    | some channel =>
      simp only [List.filterMap_cons, hmap, map_some, List.filterMap_nil, List.foldl_cons, List.foldl_nil,
        insertEntry, Nat.lt_irrefl, if_false, Option.isSome_none, Bool.false_eq_true]
      by_cases hkey : key = bound
      · rw [hkey, update_self, if_pos (lt_succ_self bound), hmap]
      · rw [update_of_ne hkey]
        simp only [show key < bound + 1 ↔ key < bound by omega]

theorem restoreCheckpoint_new (t : AddressTranslator) (file : List (Nat × Nat)) :
    ((new g t).restoreCheckpoint file).migrationMap = file.foldl insertEntry fun _ => none := rfl

theorem locate_of_no_state (h : ∀ k, mm.migrationState k = none) (r : Row) : mm.locate r = r := by
  apply locate_of_not_done
  rw [h]
  exact some_ne_none _ ∘ Eq.symm

structure Recorded (g : Geometry) (ops : List Op) (mm : MQMigrator) : Prop where
  wf : mm.Wf g
  words : ∀ k, mm.migrationMap k ≠ none → k < 2 ^ 64
  migrated : (∃ r, g.HasRow r ∧ mm.isMigrated r = true) ↔ ∃ op ∈ ops, op.isMigration = true
  untouched : (∀ op ∈ ops, op.isMigration = false) → ∀ k, mm.migrationMap k = none

namespace Recorded

variable {ops : List Op}

theorem new {t : AddressTranslator} (ht : t.Configured g.method g.bus) : Recorded g [] (new g t) where
  wf := (idle_new ht).toWf
  words k hk := absurd rfl hk
  migrated := by
    constructor
    · rintro ⟨r, -, hr⟩
      cases hr
    · rintro ⟨op, hop, -⟩
      cases hop
  untouched _ _ := rfl

theorem access (h : Recorded g ops mm) (a : Nat) (out : Coords) :
    Recorded g (ops ++ [.access a out]) (mm.translate a out).2 := by
  have hops : (∃ op ∈ ops ++ [.access a out], op.isMigration = true) ↔ ∃ op ∈ ops, op.isMigration = true := by
    simp [Op.isMigration]
  have hwf := h.wf.translate_snd a out
  rw [translate_rest] at hwf ⊢
  refine ⟨hwf, h.words, h.migrated.trans hops.symm, fun hnone => h.untouched fun op hop => ?_⟩
  exact hnone op (mem_append_left _ hop)

theorem migrate (h : Recorded g ops mm) {x : Migration} (hd : g.HasRow x.demotee) (hm : Migrated x mm mm') :
    Recorded g (ops ++ [.migrate x]) mm' := by
  have hop : Op.migrate x ∈ ops ++ [.migrate x] := mem_append_right _ (List.mem_singleton_self _)
  have hkey : ∀ r, mm.getAddressKey r < 2 ^ 64 := fun r => mod_lt _ (Nat.two_pow_pos 64)
  have hdem : mm'.isMigrated x.demotee = true := by
    rw [isMigrated, hm.getAddressKey, hm.map, update_self, (hm.done hm.completed).2]
    rfl
  refine ⟨hm.wf h.wf, fun k hk => ?_, iff_of_true ⟨_, hd, hdem⟩ ⟨_, hop, rfl⟩, fun hnone => ?_⟩
  · by_cases hkd : k = mm.getAddressKey x.demotee
    · rw [hkd]
      exact hkey _
    · by_cases hkp : k = mm.getAddressKey x.promotee
      · rw [hkp]
        exact hkey _
      · rw [hm.map, update_of_ne hkd, update_of_ne hkp] at hk
        exact h.words k hk
  · exact absurd (hnone _ hop) Bool.true_eq_false.mp

theorem of_run {promotionChannel : Nat} {t : AddressTranslator} (ht : t.Configured g.method g.bus)
    (hallowed : AllSteps step (Allowed g promotionChannel) (MQMigrator.new g t) ops)
    (hrun : run step (MQMigrator.new g t) ops = some mm) : Recorded g ops mm := by
  have hstep : ∀ hist s op s', Recorded g hist s → Allowed g promotionChannel s op → step s op = some s' →
      Recorded g (hist ++ [op]) s' ∧ True := by
    intro hist s op s' h hop hs
    refine ⟨?_, trivial⟩
    cases op with
    | access a out =>
      cases hs
      exact h.access a out
    | migrate x => exact h.migrate hop.2.1 (migrate_migrated hs)
  exact (run_history_of_some step hstep ops (Recorded.new ht) hallowed hrun).1

end Recorded

/-- A decoder that completed migrations have led to and one restored from its checkpoint have the
same channels. They give the same answers exactly if no page was migrated at all. -/
theorem checkpoint_round_trip_iff (g : Geometry) (promotionChannel : Nat) (t t' : AddressTranslator)
    (ht : t.Configured g.method g.bus) (ht' : t'.Configured g.method g.bus) (ops : List Op) (mm : MQMigrator)
    (hallowed : AllSteps step (Allowed g promotionChannel) (new g t) ops) (hrun : run step (new g t) ops = some mm) :
    ((new g t').restoreCheckpoint mm.createCheckpoint).migrationMap = mm.migrationMap ∧
    (SameAnswers g ((new g t').restoreCheckpoint mm.createCheckpoint) mm ↔ ∀ op ∈ ops, op.isMigration = false) := by
  have h := Recorded.of_run ht hallowed hrun
  have hwf : ((new g t').restoreCheckpoint mm.createCheckpoint).Wf g := ⟨ht', rfl, rfl, rfl, rfl⟩
  have hlocate : ∀ r, ((new g t').restoreCheckpoint mm.createCheckpoint).locate r = r :=
    locate_of_no_state fun _ => rfl
  have hnot : ∀ r, ((new g t').restoreCheckpoint mm.createCheckpoint).isMigrated r = false := fun r =>
    Bool.and_false _
  constructor
  · rw [restoreCheckpoint_new, createCheckpoint, foldl_insertEntry]
    funext key
    split
    · rfl
    · rename_i hge
      by_contra hne
      exact hge (h.words key (Ne.symm hne))
  · constructor
    · intro hsame op hop
      by_contra hmig
      obtain ⟨r, hr, hdone⟩ := h.migrated.mpr ⟨op, hop, Bool.eq_true_of_not_eq_false hmig⟩
      rw [← hsame.2 r hr, hnot] at hdone
      cases hdone
    · intro hnone
      have hmap := h.untouched hnone
      refine ⟨fun a out => ?_, fun r _ => ?_⟩
      · rw [hwf.translate_fst, h.wf.translate_fst, hlocate, locate_of_none (hmap _)]
      · rw [hnot, isMigrated, hmap]
        rfl

theorem checkpoint_round_trip_iff_access :
    ∃ mm, run step (new pair pairTranslator) [.access 1 fun _ => 0] = some mm ∧
      SameAnswers pair ((new pair pairTranslator).restoreCheckpoint mm.createCheckpoint) mm :=
  have ht := AddressTranslator.new_configured _ _
  ⟨_, rfl, (checkpoint_round_trip_iff pair 0 pairTranslator pairTranslator ht ht [.access 1 fun _ => 0] _
    ⟨trivial, fun _ _ => trivial⟩ rfl).2.mpr fun _ hop => mem_singleton.mp hop ▸ rfl⟩

/-- Row one of channel one was exchanged with row one of channel zero. Restored, the decoder sends
the address three back to channel one and takes the row for not migrated. -/
theorem restored_forgets :
    ∃ mm, run step (new pair pairTranslator) [promotion 1 1] = some mm ∧
      rowOf (mm.translate 3 fun _ => 0).1 = ⟨0, 0, 0, 0, 1⟩ ∧ mm.isMigrated ⟨1, 0, 0, 0, 1⟩ = true ∧
      rowOf (((new pair pairTranslator).restoreCheckpoint mm.createCheckpoint).translate 3 fun _ => 0).1 =
        ⟨1, 0, 0, 0, 1⟩ ∧
      ((new pair pairTranslator).restoreCheckpoint mm.createCheckpoint).isMigrated ⟨1, 0, 0, 0, 1⟩ = false := by
  obtain ⟨mm, hrun, hrow, hdone⟩ : ∃ mm, run step (new pair pairTranslator) [promotion 1 1] = some mm ∧
      rowOf (mm.translate 3 fun _ => 0).1 = ⟨0, 0, 0, 0, 1⟩ ∧ mm.isMigrated ⟨1, 0, 0, 0, 1⟩ = true := by
    decide +kernel
  have hwf : ((new pair pairTranslator).restoreCheckpoint mm.createCheckpoint).Wf pair :=
    ⟨AddressTranslator.new_configured _ _, rfl, rfl, rfl, rfl⟩
  refine ⟨mm, hrun, hrow, hdone, ?_, Bool.and_false _⟩
  rw [hwf.translate_fst, locate_of_no_state fun _ => rfl]
  decide +kernel

end MQMigrator

end Shma.Nvmain
