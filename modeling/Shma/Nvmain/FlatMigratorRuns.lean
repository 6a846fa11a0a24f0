import Shma.Lib.Outstanding
import Shma.Nvmain.FlatMigrator

/-!
# The exchange protocol of the flat migrator

A migration is idle, reading or writing. While it is reading, each of its two reads
is outstanding or its row is buffered; while it is writing, each of its two writes is
pending, in flight or done. Every event leads from a state of one of these kinds to
another one, whatever requests are accepted, in whatever order they complete and
whatever migrations are asked for in between.
-/
namespace Shma.Nvmain

open Lib Lib.Run
open FlatMigrator (copyReq otherComplete retryWrite setWriting toWrite writeIssue)

namespace FlatDecoder

variable {L : FlatLayout} {d : FlatDecoder} {address : NVMAddress} {newState : MigrationState} {key : Nat}

theorem setMigrationState_eq {page : Nat} {state : MigrationState} (haddr : address.virtualAddress = page)
    (hstate : d.migrationState (L.getAddressKey page) = some state) (hne : state ≠ newState) :
    d.setMigrationState L address newState = some (d.putState (L.getAddressKey page) newState) := by
  subst haddr
  simp [setMigrationState, assertThat, hstate, hne]

theorem startMigration_spec (h : d.migrating = false) (promotee demotee : NVMAddress) :
    ∃ d', d.startMigration L promotee demotee = some d' ∧ d'.migrating = true ∧
      d'.inputPage = L.getAddressKey promotee.physicalAddress ∧
      d'.outputPage = L.getAddressKey demotee.physicalAddress ∧
      d'.migrationState (L.getAddressKey promotee.physicalAddress) = some .reading ∧
      d'.migrationState (L.getAddressKey demotee.physicalAddress) = some .reading := by
  refine ⟨_, assertThat_map_eq_some.mpr ⟨h, rfl⟩, rfl, rfl, rfl, ?_, update_self ..⟩
  by_cases hkey : L.getAddressKey promotee.physicalAddress = L.getAddressKey demotee.physicalAddress
  · rw [hkey]
    exact update_self ..
  · exact (update_of_ne hkey ..).trans (update_self ..)

theorem putState_self : (d.putState key newState).migrationState key = some newState := update_self ..

theorem putState_of_ne {k : Nat} (h : k ≠ key) : (d.putState key newState).migrationState k = d.migrationState k :=
  update_of_ne h ..

theorem putState_migrating (h : d.migrating = true) :
    (d.putState key newState).migrating = true ↔
      ¬((d.putState key newState).migrationState d.inputPage = some .done ∧
        (d.putState key newState).migrationState d.outputPage = some .done) := by
  constructor
  · intro hmig hboth
    have hover : (d.putState key newState).migrating = false := if_pos hboth
    rw [hover] at hmig
    cases hmig
  · intro hnot
    exact (if_neg hnot).trans h

end FlatDecoder

namespace FlatMigration

variable {r : Side → MigRequest} {out : Side → Bool} {q : MigRequest} {i : Side}

theorem outstanding_sides (r : Side → MigRequest) (out : Side → Bool) :
    outstanding r out = (if out .promotee then {r .promotee} else 0) + if out .demotee then {r .demotee} else 0 := by
  have huniv : (Finset.univ : Finset Side) = {.promotee, .demotee} := rfl
  rw [outstanding, huniv, Finset.filter_insert, Finset.filter_singleton]
  cases out .promotee <;> cases out .demotee <;> rfl

theorem readsOutstanding_outstanding (h : ∀ i, (r i).tag = .write) : readsOutstanding (outstanding r out) = 0 := by
  rw [readsOutstanding, Multiset.card_eq_zero, Multiset.filter_eq_nil]
  intro q hq
  obtain ⟨i, _, rfl⟩ := mem_outstanding.mp hq
  rw [h i]
  decide

/-- A write that is issued after both reads, with the data of one and the address of the other. -/
def Swapped (reads : Side → MigRequest) (t : Attempt) : Prop :=
  t.readsOutstanding = 0 ∧ ∃ i : Side, t.device = i.other.media ∧
    t.request.address = (reads i.other).address ∧ t.request.data = (reads i).data

/-- A write that carries the data of one row to the other row. -/
def Crossed (L : FlatLayout) (reads : Side → MigRequest) (t : Attempt) : Prop :=
  ∃ i : Side, t.request.data = some ⟨i.media, (reads i).address.row⟩ ∧
    t.place L = ⟨i.other.media, (reads i.other).address.row⟩

/-- The flat address of a row that is exchanged. -/
def page (s : FlatMigration) (i : Side) : Nat := (s.reads i).address.virtualAddress

def acceptedWrites (attempts : List Attempt) (m : Media) : Nat :=
  (attempts.filter fun t => t.accepted && t.device = m).length

/-- What is known of a migration as long as it goes on. -/
structure Exchange (L : FlatLayout) (m : FlatMigrator) (page : Side → Nat) (r : Side → MigRequest) : Prop where
  migrating : m.decoder.migrating = true
  addr : ∀ i, (m.addr i).physicalAddress = page i
  inputPage : m.decoder.inputPage = L.getAddressKey (page .promotee)
  outputPage : m.decoder.outputPage = L.getAddressKey (page .demotee)
  keys : ∀ i : Side, L.getAddressKey (page i) ≠ L.getAddressKey (page i.other)
  req : ∀ i, m.req i = some (r i)
  ids : ∀ i : Side, (r i).id ≠ (r i.other).id
  fresh : ∀ i, (r i).id < m.nextId

structure Reading (L : FlatLayout) (D : (Side → MigRequest) → Prop) (s : FlatMigration) (r : Side → MigRequest)
    (out : Side → Bool) : Prop extends Exchange L s.migrator s.page r where
  known : D s.reads
  inflight : s.inflight = outstanding r out
  tag : ∀ i, (r i).tag = .read
  address : ∀ i, (r i).address = (s.reads i).address
  data : ∀ i, (r i).data = (s.reads i).data
  state : ∀ i, s.migrator.decoder.migrationState (L.getAddressKey (s.page i)) =
    some (if out i then .reading else .buffered)
  buffered : ∀ i, s.migrator.buffered i = false
  attempts : s.attempts = []
  writesLeft : s.writesLeft = 2

inductive WriteStatus where
  | pending | inFlight | done
  deriving DecidableEq

/-- The states that a page can have, given the progress of the write to it. -/
def WriteStatus.Allows : WriteStatus → Option MigrationState → Prop
  | .pending, state => state = some .buffered
  | .inFlight, state => state = some .buffered ∨ state = some .writing
  | .done, state => state = some .done

def WriteStatus.left : WriteStatus → Nat
  | .done => 0
  | _ => 1

/-- Both rows have been read, and each has its data carried to the other one. -/
structure Writing (L : FlatLayout) (D : (Side → MigRequest) → Prop) (s : FlatMigration) (r : Side → MigRequest)
    (status : Side → WriteStatus) : Prop extends Exchange L s.migrator s.page r where
  known : D s.reads
  inflight : s.inflight = outstanding r fun i => status i = .inFlight
  tag : ∀ i, (r i).tag = .write
  address : ∀ i : Side, (r i).address = (s.reads i.other).address
  data : ∀ i, (r i).data = (s.reads i).data
  state : ∀ i : Side, (status i).Allows (s.migrator.decoder.migrationState (L.getAddressKey (s.page i.other)))
  buffered : ∀ i, s.migrator.buffered i = decide (status i = .pending)
  swapped : ∀ t ∈ s.attempts, Swapped s.reads t ∧ D s.reads
  accepted : ∀ i : Side, acceptedWrites s.attempts i.other.media = if status i = .pending then 0 else 1
  writesLeft : s.writesLeft = (status .promotee).left + (status .demotee).left

structure Idle (D : (Side → MigRequest) → Prop) (s : FlatMigration) : Prop where
  migrating : s.migrator.decoder.migrating = false
  inflight : s.inflight = 0
  buffered : ∀ i, s.migrator.buffered i = false
  swapped : ∀ t ∈ s.attempts, Swapped s.reads t ∧ D s.reads
  accepted : ∀ m, acceptedWrites s.attempts m ≤ 1
  writesLeft : s.writesLeft = 0

inductive Phase (L : FlatLayout) (D : (Side → MigRequest) → Prop) (s : FlatMigration) : Prop where
  | idle (h : Idle D s)
  | reading (r : Side → MigRequest) (out : Side → Bool) (h : Reading L D s r out) (i : Side) (hi : out i = true)
  | writing (r : Side → MigRequest) (status : Side → WriteStatus) (h : Writing L D s r status) (i : Side)
      (hi : status i ≠ .done)

/-- Requests that were put off name rows of the slow device. -/
structure Inv (L : FlatLayout) (D : (Side → MigRequest) → Prop) (s : FlatMigration) : Prop where
  phase : Phase L D s
  delayed : ∀ q ∈ s.delayed, L.slow.HasRow q.row

variable {L : FlatLayout} {D : (Side → MigRequest) → Prop} {n : VictimCounts} {s s' : FlatMigration} {page : Side → Nat} {status : Side → WriteStatus}
  {accept : Side → Bool} {m : FlatMigrator}

/-! ### Writes -/

section

variable (status : Side → WriteStatus) (accept : Side → Bool)

def attempted (i : Side) : WriteStatus :=
  if status i = .pending ∧ accept i = true then .inFlight else status i

def pendingIssue (r : Side → MigRequest) (i : Side) : List Issue :=
  if status i = .pending then [writeIssue accept r i] else []

def pendingIssues (r : Side → MigRequest) : List Issue :=
  pendingIssue status accept r .promotee ++ pendingIssue status accept r .demotee

end

theorem accepted_append (as bs : List Issue) : accepted (as ++ bs) = accepted as + accepted bs := by
  simp [accepted]

theorem accepted_pendingIssue (i : Side) :
    accepted (pendingIssue status accept r i) = if status i = .pending ∧ accept i = true then {r i} else 0 := by
  unfold pendingIssue writeIssue accepted
  by_cases hp : status i = .pending
  · by_cases ha : accept i = true
    · simp [hp, ha]
    · simp [hp, ha]
  · simp [hp]

theorem inflight_attempted :
    outstanding r (fun i => status i = .inFlight) + accepted (pendingIssues status accept r) =
      outstanding r fun i => attempted status accept i = .inFlight := by
  have hnew : accepted (pendingIssues status accept r) =
      outstanding r fun i => decide (status i = .pending ∧ accept i = true) := by
    rw [pendingIssues, accepted_append, accepted_pendingIssue, accepted_pendingIssue, outstanding_sides]
    simp only [decide_eq_true_eq]
  rw [hnew, outstanding_add]
  · congr 1
    funext i
    unfold attempted
    by_cases h : status i = .pending ∧ accept i = true
    · simp [h]
    · simp [h]
  · intro i hi
    simp_all

theorem writes_append (k : Nat) (as bs : List Issue) : writes k (as ++ bs) = writes k as ++ writes k bs :=
  filterMap_append

variable {k : Nat}

theorem mem_writes_pendingIssue {t : Attempt} (h : t ∈ writes k (pendingIssue status accept r i)) :
    t = ⟨i.other.media, r i, accept i, k⟩ := by
  unfold pendingIssue at h
  split at h
  · exact mem_singleton.mp h
  · cases h

theorem acceptedWrites_append (as bs : List Attempt) (md : Media) :
    acceptedWrites (as ++ bs) md = acceptedWrites as md + acceptedWrites bs md := by
  simp [acceptedWrites]

theorem acceptedWrites_pendingIssue (k : Nat) (i j : Side) :
    acceptedWrites (writes k (pendingIssue status accept r j)) i.other.media =
      if j = i ∧ status i = .pending ∧ accept i = true then 1 else 0 := by
  unfold pendingIssue
  by_cases hp : status j = .pending
  · cases hj : accept j <;> cases i <;> cases j <;>
      simp_all [writes, writeIssue, acceptedWrites, Side.other, Side.media]
  · rw [if_neg hp, if_neg]
    · rfl
    · rintro ⟨rfl, hpend, _⟩
      exact hp hpend

theorem attempted_left (i : Side) : (attempted status accept i).left = (status i).left := by
  unfold attempted
  split
  next h =>
    rw [h.1]
    rfl
  · rfl

theorem Writing.issue (h : Writing L D s r status) (hx : Exchange L m s.page r) (hstate : ∀ i : Side,
      (attempted status accept i).Allows (m.decoder.migrationState (L.getAddressKey (s.page i.other))))
    (hbuf : ∀ i, m.buffered i = decide (attempted status accept i = .pending)) :
    Writing L D (s.issue m (pendingIssues status accept r)) r (attempted status accept) where
  toExchange := hx
  known := h.known
  inflight := by
    show s.inflight + _ = _
    rw [h.inflight, inflight_attempted]
  tag := h.tag
  address := h.address
  data := h.data
  state := hstate
  buffered := hbuf
  swapped := by
    intro t ht
    rcases mem_append.mp ht with hold | hnew
    · exact h.swapped t hold
    · rw [h.inflight, readsOutstanding_outstanding h.tag, pendingIssues, writes_append] at hnew
      obtain ⟨j, rfl⟩ : ∃ j : Side, t = ⟨j.other.media, r j, accept j, 0⟩ := by
        rcases mem_append.mp hnew with hp | hd
        · exact ⟨.promotee, mem_writes_pendingIssue hp⟩
        · exact ⟨.demotee, mem_writes_pendingIssue hd⟩
      exact ⟨⟨rfl, j, rfl, h.address j, h.data j⟩, h.known⟩
  accepted := by
    intro i
    show acceptedWrites (s.attempts ++ _) _ = _
    rw [pendingIssues, writes_append, acceptedWrites_append, acceptedWrites_append, acceptedWrites_pendingIssue,
      acceptedWrites_pendingIssue, h.accepted i]
    unfold attempted
    by_cases hp : status i = .pending
    · cases ha : accept i <;> cases i <;> simp [hp]
    · simp [hp]
  writesLeft := by
    rw [attempted_left, attempted_left]
    exact h.writesLeft

theorem retryWrite_eq (hreq : m.req i = some (r i)) (hbuf : m.buffered i = decide (status i = .pending)) :
    m.retryWrite accept i = some
      ({ m with buffered := update m.buffered i (decide (attempted status accept i = .pending)) },
        pendingIssue status accept r i) := by
  unfold retryWrite pendingIssue attempted
  by_cases hp : status i = .pending
  · rw [hbuf, hreq]
    cases ha : accept i <;> simp [hp, writeIssue, ha]
  · have hfalse : m.buffered i = false := by
      rw [hbuf]
      exact decide_eq_false hp
    have hsame : update m.buffered i false = m.buffered := by
      rw [← hfalse, update_eq_self]
    rw [hfalse, if_neg Bool.false_ne_true, if_neg hp, if_neg fun hnew => hp hnew.1, decide_eq_false hp, hsame]

theorem Writing.other (h : Writing L D s r status) (n : VictimCounts) (accept : Side → Bool) :
    ∃ s', step L n s (.other accept) = some s' ∧ s'.delayed = s.delayed ∧
      Writing L D s' r (attempted status accept) := by
  let m : FlatMigrator := { s.migrator with buffered := fun i => decide (attempted status accept i = .pending) }
  have hcomplete : s.migrator.otherComplete accept = some (m, pendingIssues status accept r) := by
    let m1 : FlatMigrator := { s.migrator with
      buffered := update s.migrator.buffered .promotee
        (decide (attempted status accept .promotee = .pending)) }
    have hreq : m1.req .demotee = some (r .demotee) := h.req .demotee
    have hbuf : m1.buffered .demotee = decide (status .demotee = .pending) := h.buffered .demotee
    have hm : m = { m1 with
        buffered := update m1.buffered .demotee (decide (attempted status accept .demotee = .pending)) } := by
      have hfun : m.buffered =
          update m1.buffered .demotee (decide (attempted status accept .demotee = .pending)) := by
        funext i
        cases i <;> rfl
      rw [← hfun]
    unfold otherComplete
    rw [retryWrite_eq (h.req .promotee) (h.buffered .promotee), bind_some]
    rw [retryWrite_eq hreq hbuf, ← hm]
    rfl
  have hstep : step L n s (.other accept) = some (s.issue m (pendingIssues status accept r)) := by
    rw [step, hcomplete]
    rfl
  refine ⟨_, hstep, rfl, h.issue { h with } (fun i => ?_) fun _ => rfl⟩
  · have hstate := h.state i
    unfold attempted
    split
    next hnew =>
      rw [hnew.1] at hstate
      exact .inl hstate
    · exact hstate

theorem issue_nil (s : FlatMigration) (m : FlatMigrator) : s.issue m [] = { s with migrator := m } := by
  simp [issue, accepted, writes]

theorem Exchange.putState_migrating (h : Exchange L m page r) (k : Nat) (st : MigrationState) :
    (m.decoder.putState k st).migrating = true ↔
      ¬∀ i, (m.decoder.putState k st).migrationState (L.getAddressKey (page i)) = some .done := by
  rw [FlatDecoder.putState_migrating h.migrating, h.inputPage, h.outputPage]
  apply not_congr
  constructor
  · rintro ⟨hp, hd⟩ i
    cases i with
    | promotee => exact hp
    | demotee => exact hd
  · intro hall
    exact ⟨hall .promotee, hall .demotee⟩

theorem Exchange.putState (h : Exchange L m page r) (i : Side) (st : MigrationState) (hst : st ≠ .done) :
    Exchange L { m with decoder := m.decoder.putState (L.getAddressKey (page i)) st } page r := by
  refine { h with migrating := (h.putState_migrating _ _).mpr fun hall => hst ?_ }
  exact some_inj.mp (FlatDecoder.putState_self.symm.trans (hall i))

theorem Writing.writeComplete (h : Writing L D s r status) (hi : status i = .inFlight) :
    s.migrator.writeComplete L (r i) = some
      ({ s.migrator with
          decoder := s.migrator.decoder.putState (L.getAddressKey (s.page i.other)) .done }, []) := by
  have hstate := h.state i
  rw [hi] at hstate
  have hset : s.migrator.decoder.setMigrationState L (r i).address .done =
      some (s.migrator.decoder.putState (L.getAddressKey (s.page i.other)) .done) := by
    rcases hstate with he | he
    all_goals exact FlatDecoder.setMigrationState_eq (congrArg _ (h.address i)) he (by decide)
  rw [FlatMigrator.writeComplete, hset]
  rfl

theorem exists_side (md : Media) : ∃ i : Side, i.other.media = md := by
  cases md with
  | fast => exact ⟨.promotee, rfl⟩
  | slow => exact ⟨.demotee, rfl⟩

def written (L : FlatLayout) (s : FlatMigration) (q : MigRequest) (i : Side) : FlatMigration :=
  { s with
    migrator := { s.migrator with decoder := s.migrator.decoder.putState (L.getAddressKey (s.page i.other)) .done }
    inflight := s.inflight.erase q
    writesLeft := s.writesLeft - 1 }

section

variable (h : Writing L D s r status) (hi : status i = .inFlight)
include h hi

theorem Writing.step_complete : step L n s (.complete (r i) accept) = some (written L s (r i) i) := by
  unfold step
  simp only [h.tag i, h.writeComplete hi, map_some, issue_nil]
  rfl

theorem Writing.inflight_written :
    (written L s (r i) i).inflight = outstanding r fun j => update status i .done j = .inFlight := by
  show s.inflight.erase (r i) = _
  rw [h.inflight, outstanding_erase (by simpa using hi)]
  congr 1
  funext j
  obtain rfl | rfl := i.eq_or_eq_other j
  · simp
  · simp [update_of_ne i.other_ne]

theorem Writing.writesLeft_eq : s.writesLeft = 1 + (status i.other).left := by
  rw [h.writesLeft]
  cases i with
  | promotee =>
    rw [hi]
    rfl
  | demotee =>
    rw [hi, Nat.add_comm]
    rfl

omit hi in
theorem Writing.state_written :
    (written L s (r i) i).migrator.decoder.migrationState (L.getAddressKey (s.page i.other)) = some .done ∧
      (status i.other).Allows ((written L s (r i) i).migrator.decoder.migrationState (L.getAddressKey (s.page i))) := by
  have hrest : (written L s (r i) i).migrator.decoder.migrationState (L.getAddressKey (s.page i)) =
      s.migrator.decoder.migrationState (L.getAddressKey (s.page i)) := FlatDecoder.putState_of_ne (h.keys i)
  have hother := h.state i.other
  rw [i.other_other, ← hrest] at hother
  exact ⟨FlatDecoder.putState_self, hother⟩

theorem Writing.idle_written (hdone : status i.other = .done) : Idle D (written L s (r i) i) := by
  obtain ⟨hself, hother⟩ := h.state_written (i := i)
  rw [hdone] at hother
  have hover : (written L s (r i) i).migrator.decoder.migrating = false := by
    rw [eq_false_iff]
    refine (h.putState_migrating _ _).not.mpr (not_not.mpr fun j => ?_)
    obtain rfl | rfl := i.eq_or_eq_other j
    · exact hother
    · exact hself
  refine ⟨hover, ?_, fun j => ?_, h.swapped, fun md => ?_, ?_⟩
  · rw [h.inflight_written hi, outstanding_eq_zero]
    intro j
    obtain rfl | rfl := i.eq_or_eq_other j
    · simp
    · simp [update_of_ne i.other_ne, hdone]
  · show s.migrator.buffered j = false
    rw [h.buffered j]
    obtain rfl | rfl := i.eq_or_eq_other j
    · simp [hi]
    · simp [hdone]
  · obtain ⟨j, rfl⟩ := exists_side md
    show acceptedWrites s.attempts _ ≤ 1
    rw [h.accepted j]
    split <;> omega
  · show s.writesLeft - 1 = 0
    rw [h.writesLeft_eq hi, hdone]
    rfl

theorem Writing.writing_written (hdone : status i.other ≠ .done) :
    Writing L D (written L s (r i) i) r (update status i .done) := by
  obtain ⟨hself, hother⟩ := h.state_written (i := i)
  have hmig : (written L s (r i) i).migrator.decoder.migrating = true := by
    refine (h.putState_migrating _ _).mpr fun hall => ?_
    rw [show (written L s (r i) i).migrator.decoder.migrationState _ = some .done from hall i] at hother
    cases hst : status i.other with
    | pending => rw [hst] at hother; cases hother
    | inFlight => rw [hst] at hother; rcases hother with he | he <;> cases he
    | done => exact hdone hst
  have hpending : ∀ j, (update status i .done j = .pending) = (status j = .pending) := by
    intro j
    obtain rfl | rfl := i.eq_or_eq_other j
    · simp [hi]
    · rw [update_of_ne i.other_ne]
  exact { h with
    migrating := hmig
    inflight := h.inflight_written hi
    state := by
      intro j
      obtain rfl | rfl := i.eq_or_eq_other j
      · rw [update_self]
        exact hself
      · rw [update_of_ne i.other_ne, i.other_other]
        exact hother
    buffered := by
      simp only [hpending]
      exact h.buffered
    accepted := by
      simp only [hpending]
      exact h.accepted
    writesLeft := by
      show s.writesLeft - 1 = _
      rw [h.writesLeft_eq hi]
      cases i with
      | promotee => simp [WriteStatus.left, Side.other]
      | demotee => simp [WriteStatus.left, Side.other] }

theorem Writing.complete :
    ∃ s', step L n s (.complete (r i) accept) = some s' ∧ s'.delayed = s.delayed ∧ Phase L D s' := by
  refine ⟨_, h.step_complete hi, rfl, ?_⟩
  by_cases hdone : status i.other = .done
  · exact .idle (h.idle_written hi hdone)
  · refine .writing r _ (h.writing_written hi hdone) i.other ?_
    rw [update_of_ne i.other_ne]
    exact hdone

end

/-! ### Reads -/

def writingState (L : FlatLayout) (d : FlatDecoder) (page : Nat) (accepted : Bool) : FlatDecoder :=
  if accepted then d.putState (L.getAddressKey page) .writing else d

theorem setWriting_eq {d : FlatDecoder} {w : Side → MigRequest} {page : Nat}
    (haddr : (w i).address.virtualAddress = page) (hstate : d.migrationState (L.getAddressKey page) = some .buffered) :
    setWriting L accept w i d = some (writingState L d page (accept i)) := by
  unfold setWriting writingState
  split
  · exact FlatDecoder.setMigrationState_eq haddr hstate (by decide)
  · rfl

/-- The migration goes on, the row is buffered or has its write queued, and the other row is as
before. -/
theorem Exchange.writingState (h : Exchange L m page r) (j : Side) (accepted : Bool)
    (hstate : m.decoder.migrationState (L.getAddressKey (page j)) = some .buffered) :
    let d := FlatMigration.writingState L m.decoder (page j) accepted
    Exchange L { m with decoder := d } page r ∧
      d.migrationState (L.getAddressKey (page j)) = some (if accepted then .writing else .buffered) ∧
      d.migrationState (L.getAddressKey (page j.other)) =
        m.decoder.migrationState (L.getAddressKey (page j.other)) := by
  cases accepted with
  | false => exact ⟨h, hstate, rfl⟩
  | true =>
    exact ⟨h.putState j .writing (by decide), FlatDecoder.putState_self, FlatDecoder.putState_of_ne (h.keys j).symm⟩

theorem Reading.writeBack (h : Reading L D s r fun _ => false) (accept : Side → Bool) :
    ∃ m issues, s.migrator.writeBack L accept r = some (m, issues) ∧
      Writing L D (s.issue m issues) (toWrite r) (attempted (fun _ => .pending) accept) := by
  let d := writingState L s.migrator.decoder (s.page .demotee) (accept .promotee)
  let d' := writingState L d (s.page .promotee) (accept .demotee)
  have hbuffered : ∀ i, s.migrator.decoder.migrationState (L.getAddressKey (s.page i)) = some .buffered := h.state
  obtain ⟨hx, hself, hother⟩ := h.toExchange.writingState .demotee (accept .promotee) (hbuffered .demotee)
  obtain ⟨hx', hself', hother'⟩ := hx.writingState .promotee (accept .demotee) (hother.trans (hbuffered .promotee))
  have hstate : ∀ i : Side, d'.migrationState (L.getAddressKey (s.page i.other)) =
      some (if accept i then .writing else .buffered) := by
    intro i
    cases i with
    | promotee => exact hother'.trans hself
    | demotee => exact hself'
  have haddr : ∀ i : Side, (toWrite r i).address.virtualAddress = s.page i.other := fun i =>
    congrArg _ (h.address i.other)
  have hpromotee : setWriting L accept (toWrite r) .promotee s.migrator.decoder = some d :=
    setWriting_eq (haddr .promotee) (hbuffered .demotee)
  have hdemotee : setWriting L accept (toWrite r) .demotee d = some d' :=
    setWriting_eq (haddr .demotee) (hother.trans (hbuffered .promotee))
  let m : FlatMigrator := { s.migrator with
    decoder := d', req := fun i => some (toWrite r i), buffered := fun i => !accept i }
  refine ⟨m, pendingIssues (fun _ => .pending) accept (toWrite r), ?_, ?_⟩
  · unfold FlatMigrator.writeBack
    rw [hpromotee, bind_some, hdemotee]
    rfl
  · -- as if both writes had been pending before
    let s0 : FlatMigration := { s with
      migrator := { s.migrator with
        req := fun i => some (toWrite r i), buffered := fun _ => true } }
    have h0 : Writing L D s0 (toWrite r) fun _ => .pending :=
      { h with
        req := fun _ => rfl
        tag := fun _ => rfl
        address := fun i => h.address i.other
        state := fun i => hbuffered i.other
        buffered := fun _ => rfl
        swapped := by
          rw [h.attempts]
          exact forall_mem_nil _
        accepted := fun i => by
          rw [h.attempts]
          rfl }
    refine h0.issue ?_ (fun i => ?_) (fun i => ?_)
    · exact { hx' with req := fun _ => rfl }
    · show WriteStatus.Allows _ (d'.migrationState (L.getAddressKey (s.page i.other)))
      rw [hstate]
      cases ha : accept i <;> simp [attempted, ha, WriteStatus.Allows]
    · show (!accept i) = _
      cases ha : accept i <;> simp [attempted, ha]

theorem Exchange.isReq (h : Exchange L m page r) (hq : q.id = (r i).id) (j : Side) : m.isReq q j = decide (j = i) := by
  rw [FlatMigrator.isReq, h.req j, hq, decide_eq_decide, map_some, some_inj]
  obtain rfl | rfl := i.eq_or_eq_other j
  · simp
  · exact iff_of_false (h.ids i).symm i.other_ne

theorem copyReq_eq (h : ∀ j, m.isReq q j = decide (j = i)) :
    m.copyReq q =
      { m with req := update m.req i (some { q with id := m.nextId }), nextId := m.nextId + 1 } := by
  unfold copyReq
  rw [h, h]
  cases i <;> rfl

/-- The requests once the read of row `i` has completed: it is replaced by a copy with a number of
its own. -/
def copied (s : FlatMigration) (r : Side → MigRequest) (i : Side) : Side → MigRequest :=
  update r i { r i with id := s.migrator.nextId }

def withRead (L : FlatLayout) (s : FlatMigration) (r : Side → MigRequest) (i : Side) : FlatMigration :=
  { s with
    migrator := { s.migrator with
      decoder := s.migrator.decoder.putState (L.getAddressKey (s.page i)) .buffered
      req := fun j => some (s.copied r i j)
      nextId := s.migrator.nextId + 1 }
    inflight := s.inflight.erase (r i) }

theorem Reading.readComplete (h : Reading L D s r out) (hi : out i = true) :
    s.migrator.readComplete L accept (r i) =
      if out i.other then some ((withRead L s r i).migrator, [])
      else (withRead L s r i).migrator.writeBack L accept (s.copied r i) := by
  let d := s.migrator.decoder.putState (L.getAddressKey (s.page i)) .buffered
  have hset : s.migrator.decoder.setMigrationState L (r i).address .buffered = some d := by
    have hstate := h.state i
    rw [if_pos hi] at hstate
    exact FlatDecoder.setMigrationState_eq (congrArg _ (h.address i)) hstate (by decide)
  have hisReq : ∀ j, s.migrator.isReq (r i) j = decide (j = i) := h.toExchange.isReq rfl
  have hbuffered : d.isBuffered L (s.migrator.addr i.other).physicalAddress = !out i.other := by
    rw [h.addr, FlatDecoder.isBuffered, FlatDecoder.putState_of_ne (h.keys i).symm, h.state]
    cases out i.other <;> rfl
  have hcomplete : (s.migrator.isReq (r i) .promotee && d.isBuffered L (s.migrator.addr .demotee).physicalAddress
      || s.migrator.isReq (r i) .demotee && d.isBuffered L (s.migrator.addr .promotee).physicalAddress) =
        !out i.other := by
    rw [hisReq, hisReq, ← hbuffered]
    cases i <;> simp [Side.other]
  have hcopy : ({ s.migrator with decoder := d }.copyReq (r i) : FlatMigrator) = (withRead L s r i).migrator := by
    refine (copyReq_eq (m := { s.migrator with decoder := d }) hisReq).trans ?_
    have hreq : update s.migrator.req i (some { r i with id := s.migrator.nextId }) = fun j => some (s.copied r i j) := by
      funext j
      obtain rfl | rfl := i.eq_or_eq_other j
      · rw [copied, update_self, update_self]
      · rw [copied, update_of_ne i.other_ne, update_of_ne i.other_ne, h.req]
    rw [withRead, ← hreq]
  unfold FlatMigrator.readComplete
  rw [hset, bind_some]
  simp only [hcomplete, hcopy]
  cases out i.other with
  | true => rfl
  | false =>
    show FlatMigrator.writeBack L accept _ _ = FlatMigrator.writeBack L accept _ _
    congr 1
    funext j
    cases j <;> rfl

theorem Reading.afterRead (h : Reading L D s r out) (hi : out i = true) :
    Reading L D (withRead L s r i) (s.copied r i) (update out i false) := by
  have hfresh := h.fresh i.other
  exact { h.toExchange.putState i .buffered (by decide), h with
    req := fun _ => rfl
    ids := by
      intro j
      obtain rfl | rfl := i.eq_or_eq_other j
      · rw [copied, update_self, update_of_ne j.other_ne]
        exact Nat.ne_of_gt hfresh
      · rw [copied, i.other_other, update_self, update_of_ne i.other_ne]
        exact Nat.ne_of_lt hfresh
    fresh := (forall_update_iff r fun _ q => q.id < s.migrator.nextId + 1).mpr
      ⟨lt_succ_self _, fun k _ => Nat.lt_succ_of_lt (h.fresh k)⟩
    inflight := by
      show s.inflight.erase (r i) = _
      rw [h.inflight, outstanding_erase hi]
      apply outstanding_congr
      intro j hj
      obtain rfl | rfl := i.eq_or_eq_other j
      · rw [update_self] at hj
        cases hj
      · rw [copied, update_of_ne i.other_ne]
    tag := (forall_update_iff r fun _ q => q.tag = .read).mpr ⟨h.tag i, fun j _ => h.tag j⟩
    address := (forall_update_iff r fun j q => q.address = (s.reads j).address).mpr
      ⟨h.address i, fun j _ => h.address j⟩
    data := (forall_update_iff r fun j q => q.data = (s.reads j).data).mpr ⟨h.data i, fun j _ => h.data j⟩
    state := by
      intro j
      obtain rfl | rfl := i.eq_or_eq_other j
      · rw [update_self]
        exact FlatDecoder.putState_self
      · rw [update_of_ne i.other_ne]
        exact (FlatDecoder.putState_of_ne (h.keys i).symm).trans (h.state i.other) }

theorem Reading.complete (h : Reading L D s r out) (hi : out i = true) :
    ∃ s', step L n s (.complete (r i) accept) = some s' ∧ s'.delayed = s.delayed ∧ Phase L D s' := by
  have hnext := h.afterRead hi
  cases hother : out i.other with
  | true =>
    refine ⟨withRead L s r i, ?_, rfl, .reading _ _ hnext i.other ?_⟩
    · unfold step
      simp only [h.tag i]
      rw [h.readComplete hi, if_pos hother, map_some, issue_nil]
      rfl
    · rw [update_of_ne i.other_ne, hother]
  | false =>
    have hnone : update out i false = fun _ => false := by
      funext j
      obtain rfl | rfl := i.eq_or_eq_other j
      · exact update_self ..
      · rw [update_of_ne i.other_ne, hother]
    rw [hnone] at hnext
    obtain ⟨m, issues, hwrite, hphase⟩ := hnext.writeBack accept
    refine ⟨(withRead L s r i).issue m issues, ?_, rfl, .writing _ _ hphase .promotee ?_⟩
    · unfold step
      simp only [h.tag i]
      rw [h.readComplete hi, if_neg (by rw [hother]; exact Bool.false_ne_true)]
      exact congrArg (Option.map fun x => (withRead L s r i).issue x.1 x.2) hwrite
    · unfold attempted
      split <;> simp

/-! ### Starts -/

def DistinctKeys (L : FlatLayout) (n : VictimCounts) : Prop :=
  ∀ row page, L.slow.HasRow row →
    L.getAddressKey (L.addr ⟨.slow, row⟩) ≠ L.getAddressKey (L.addr ⟨.fast, n.victim page⟩)

theorem Idle.unchanged (h : Idle D s) (hd : m.decoder = s.migrator.decoder) (hb : m.buffered = s.migrator.buffered) :
    Phase L D ((s.begun []).issue m []) := by
  have hmig : m.decoder.migrating = false := hd ▸ h.migrating
  rw [issue_nil]
  exact .idle { h with migrating := hmig, buffered := hb ▸ h.buffered }

theorem begun_reads (s : FlatMigration) (read : Side → Issue) (i : Side) :
    (s.begun [read .demotee, read .promotee]).reads i = (read i).request := by
  cases i <;> rfl

variable {ready : Media → Nat → Bool} {req : MigrationRequest}

theorem newRead_address (ready : Media → Nat → Bool) (i : Side) :
    (m.newRead L ready i).request.address.virtualAddress = (m.addr i).physicalAddress := by
  cases i <;> exact FlatNVMain.issueCommand_virtualAddress ..

/-- A request starts a migration with a read of each of the rows chosen, or none. -/
theorem tryMigration_issues {x : FlatMigrator × List Issue} (h : m.tryMigration L n ready req = some x) :
    x.2 = [] ∨ ∃ m1 : FlatMigrator, x.1.addr = m1.addr ∧
      (∀ i : Side, (m1.addr i).physicalAddress = L.addr ⟨i.media, (m1.addr i).row⟩) ∧
      x.2 = [m1.newRead L ready .demotee, m1.newRead L ready .promotee] := by
  unfold FlatMigrator.tryMigration at h
  split at h
  · cases h
    exact .inl rfl
  · split at h
    · obtain ⟨_, h⟩ := assertThat_bind_eq_some.mp h
      simp only at h
      split at h
      · obtain ⟨d, _, rfl⟩ := map_eq_some_iff.mp h
        refine .inr ⟨{ m with
          addr := m.chooseAddr L n req.row, currentPage := n.nextPage m.currentPage }, rfl, fun i => ?_, rfl⟩
        cases i <;> rfl
      · cases h
        exact .inl rfl
    · cases h
      exact .inl rfl

/-- What is to be known of the reads of a migration holds of those that an event issues. -/
def Known (L : FlatLayout) (n : VictimCounts) (D : (Side → MigRequest) → Prop) (s : FlatMigration) : Event → Prop
  | .request req ready | .retry req ready => s.migrator.decoder.migrating = false →
      ∀ x ∈ s.migrator.tryMigration L n ready req,
        ∀ read : Side → Issue, x.2 = [read .demotee, read .promotee] → D fun i => (read i).request
  | _ => True

theorem Known.trivial (e : Event) : Known L n (fun _ => True) s e := by
  cases e with
  | request | retry => exact fun _ _ _ _ _ => True.intro
  | complete | other => exact True.intro

theorem Idle.migrate (hkeys : DistinctKeys L n) (h : Idle D s) {row : Row} (hrow : L.slow.HasRow row)
    (haccept : ∀ x ∈ s.migrator.migrate L n ready row, ∀ i ∈ x.2, i.accepted = true)
    (hknown : ∀ x ∈ s.migrator.migrate L n ready row,
      ∀ read : Side → Issue, x.2 = [read .demotee, read .promotee] → D fun i => (read i).request) :
    ∃ m issues, s.migrator.migrate L n ready row = some (m, issues) ∧
      Phase L D ((s.begun issues).issue m issues) := by
  let m1 : FlatMigrator := { s.migrator with
    addr := s.migrator.chooseAddr L n row, currentPage := n.nextPage s.migrator.currentPage }
  have hmigrate : s.migrator.migrate L n ready row =
      if ready .slow (m1.addr .promotee).physicalAddress && ready .slow (m1.addr .demotee).physicalAddress then
        (m1.decoder.startMigration L (m1.addr .promotee) (m1.addr .demotee)).map fun decoder =>
          ({ m1 with decoder, req := fun i => some (m1.newRead L ready i).request, nextId := m1.nextId + 2 },
            [m1.newRead L ready .demotee, m1.newRead L ready .promotee])
      else some (m1, []) := by
    unfold FlatMigrator.migrate
    rw [h.buffered, h.buffered]
    rfl
  by_cases hready : (ready .slow (m1.addr .promotee).physicalAddress &&
      ready .slow (m1.addr .demotee).physicalAddress) = true
  · obtain ⟨d, hd, hmig, hin, hout, hp, hq⟩ :=
      FlatDecoder.startMigration_spec (L := L) h.migrating (m1.addr .promotee) (m1.addr .demotee)
    rw [if_pos hready, hd] at hmigrate
    refine ⟨_, _, hmigrate, .reading (fun i => (m1.newRead L ready i).request) (fun _ => true) ?_ .promotee rfl⟩
    have hreads := begun_reads s (m1.newRead L ready)
    have hpage : ∀ i, (s.begun [m1.newRead L ready .demotee, m1.newRead L ready .promotee]).page i =
        (m1.addr i).physicalAddress := by
      intro i
      rw [page, hreads, newRead_address]
    have hkey : ∀ i : Side, L.getAddressKey (m1.addr i).physicalAddress ≠
        L.getAddressKey (m1.addr i.other).physicalAddress := by
      intro i
      cases i with
      | promotee => exact hkeys row s.migrator.currentPage hrow
      | demotee => exact (hkeys row s.migrator.currentPage hrow).symm
    simp only [← hpage] at hin hout hp hq hkey
    constructor
    case toExchange =>
      refine ⟨hmig, fun i => (hpage i).symm, hin, hout, hkey, fun _ => rfl, fun i => ?_, fun i => ?_⟩
      · cases i with
        | promotee => exact Nat.ne_of_lt (lt_succ_self _)
        | demotee => exact Nat.ne_of_gt (lt_succ_self _)
      · cases i with
        | promotee => exact Nat.lt_add_of_pos_right Nat.two_pos
        | demotee => exact lt_succ_self _
    case known => exact (funext hreads : _ = _) ▸ hknown _ hmigrate _ rfl
    case inflight =>
      have hacc := haccept _ hmigrate
      show s.inflight + FlatMigration.accepted [m1.newRead L ready .demotee, m1.newRead L ready .promotee] = _
      rw [h.inflight, zero_add, outstanding_sides, add_comm]
      simp only [FlatMigration.accepted, List.filter, hacc _ mem_cons_self,
        hacc _ (mem_cons_of_mem _ mem_cons_self)]
      rfl
    case tag =>
      intro i
      cases i <;> rfl
    case address => exact fun i => congrArg MigRequest.address (hreads i).symm
    case data => exact fun i => congrArg MigRequest.data (hreads i).symm
    case state =>
      intro i
      cases i with
      | promotee => exact hp
      | demotee => exact hq
    case buffered => exact h.buffered
    case attempts => rfl
    case writesLeft => rfl
  · rw [if_neg hready] at hmigrate
    exact ⟨m1, [], hmigrate, h.unchanged rfl rfl⟩

/-! ### Runs -/

theorem Phase.withDelayed (h : Phase L D s) (delayed : Multiset MigrationRequest) : Phase L D { s with delayed } := by
  cases h with
  | idle h => exact .idle { h with }
  | reading r out h i hi => exact .reading r out { h with } i hi
  | writing r status h i hi => exact .writing r status { h with } i hi

theorem issueCommand_migrating (h : s.migrator.decoder.migrating = true) (req : MigrationRequest)
    (ready : Media → Nat → Bool) :
    s.issueCommand L n req ready = some { s with delayed := req ::ₘ s.delayed } := by
  apply if_neg
  rw [h]
  exact nofun

theorem Idle.tryMigration (hkeys : DistinctKeys L n) (h : Idle D s) (hrow : L.slow.HasRow req.row)
    (haccept : s.ReadsAccepted L n req ready) (hknown : Known L n D s (.request req ready)) :
    ∃ m issues, s.migrator.tryMigration L n ready req = some (m, issues) ∧
      Phase L D ((s.begun issues).issue m issues) := by
  replace haccept := haccept h.migrating
  replace hknown := hknown h.migrating
  unfold FlatMigrator.tryMigration at haccept hknown ⊢
  by_cases hbuf : s.migrator.decoder.isBuffered L req.physicalAddress = true
  · rw [if_pos hbuf]
    exact ⟨_, _, rfl, h.unchanged rfl rfl⟩
  · rw [if_neg hbuf] at haccept hknown ⊢
    by_cases hslow : s.migrator.decoder.migrating = false ∧ req.media = .slow
    · rw [if_pos hslow] at haccept hknown ⊢
      exact h.migrate hkeys hrow haccept hknown
    · rw [if_neg hslow]
      exact ⟨_, _, rfl, h.unchanged rfl rfl⟩

theorem Phase.issueCommand (hkeys : DistinctKeys L n) (h : Phase L D s) (hrow : L.slow.HasRow req.row)
    (haccept : s.ReadsAccepted L n req ready) (hknown : Known L n D s (.request req ready)) :
    ∃ s', s.issueCommand L n req ready = some s' ∧ Phase L D s' ∧ ∀ q ∈ s'.delayed, q = req ∨ q ∈ s.delayed := by
  have hputOff : s.migrator.decoder.migrating = true →
      ∃ s', s.issueCommand L n req ready = some s' ∧ Phase L D s' ∧ ∀ q ∈ s'.delayed, q = req ∨ q ∈ s.delayed :=
    fun hmig => ⟨_, issueCommand_migrating hmig req ready, h.withDelayed _, fun _ hq => Multiset.mem_cons.mp hq⟩
  cases h with
  | idle h =>
    obtain ⟨m, issues, htry, hphase⟩ := h.tryMigration hkeys hrow haccept hknown
    refine ⟨_, (if_pos h.migrating).trans (congrArg _ htry), hphase, fun q hq => .inr ?_⟩
    have hsame : (s.begun issues).delayed = s.delayed := by
      unfold begun
      split <;> rfl
    exact hsame ▸ hq
  | reading r out h i hi | writing r status h i hi => exact hputOff h.migrating

theorem otherComplete_idle (h : ∀ i, m.buffered i = false) : m.otherComplete accept = some (m, []) := by
  simp [otherComplete, retryWrite, h]

theorem Inv.step (hkeys : DistinctKeys L n) {e : Event} (h : Inv L D s) (hallowed : Allowed L n s e)
    (hknown : Known L n D s e) :
    ∃ s', FlatMigration.step L n s e = some s' ∧ Inv L D s' := by
  cases e with
  | request req ready =>
    obtain ⟨s', hs, hphase, hdelayed⟩ := h.phase.issueCommand hkeys hallowed.1 hallowed.2 hknown
    refine ⟨s', hs, hphase, fun q hq => ?_⟩
    obtain rfl | hold := hdelayed q hq
    · exact hallowed.1
    · exact h.delayed q hold
  | retry req ready =>
    have hrow := h.delayed req hallowed.1
    obtain ⟨s', hs, hphase, hdelayed⟩ :=
      (h.phase.withDelayed (s.delayed.erase req)).issueCommand hkeys hrow hallowed.2 hknown
    refine ⟨s', hs, hphase, fun q hq => ?_⟩
    obtain rfl | hold := hdelayed q hq
    · exact hrow
    · exact h.delayed q (Multiset.mem_of_mem_erase hold)
  | complete req accept =>
    have hmem : req ∈ s.inflight := hallowed
    cases h.phase with
    | idle hidle =>
      rw [hidle.inflight] at hmem
      cases hmem
    | reading r out hread _ _ =>
      rw [hread.inflight] at hmem
      obtain ⟨i, hi, rfl⟩ := mem_outstanding.mp hmem
      obtain ⟨s', hs, hd, hphase⟩ := hread.complete hi
      exact ⟨s', hs, hphase, hd ▸ h.delayed⟩
    | writing r status hwrite _ _ =>
      rw [hwrite.inflight] at hmem
      obtain ⟨i, hi, rfl⟩ := mem_outstanding.mp hmem
      obtain ⟨s', hs, hd, hphase⟩ := hwrite.complete (of_decide_eq_true hi)
      exact ⟨s', hs, hphase, hd ▸ h.delayed⟩
  | other accept =>
    have hquiet : (∀ i, s.migrator.buffered i = false) → FlatMigration.step L n s (.other accept) = some s := fun hb => by
      rw [FlatMigration.step, otherComplete_idle hb, map_some, issue_nil]
    cases h.phase with
    | idle hidle => exact ⟨s, hquiet hidle.buffered, h⟩
    | reading r out hread _ _ => exact ⟨s, hquiet hread.buffered, h⟩
    | writing r status hwrite i hi =>
      obtain ⟨s', hs, hd, hwrite'⟩ := hwrite.other n accept
      have hleft : attempted status accept i ≠ .done := by
        unfold attempted
        split
        · exact nofun
        · exact hi
      exact ⟨s', hs, .writing r _ hwrite' i hleft, hd ▸ h.delayed⟩

theorem inv_new (L : FlatLayout) (D : (Side → MigRequest) → Prop) : Inv L D new :=
  ⟨.idle ⟨rfl, rfl, fun _ => rfl, forall_mem_nil _, fun _ => Nat.zero_le 1, rfl⟩,
    fun _ hq => absurd hq (Multiset.notMem_zero _)⟩

theorem Phase.safe (h : Phase L D s) :
    (∀ t ∈ s.attempts, Swapped s.reads t ∧ D s.reads) ∧ (∀ md, acceptedWrites s.attempts md ≤ 1) ∧
    (s.migrator.decoder.migrating = true ↔ 0 < s.writesLeft) ∧
    (s.migrator.decoder.migrating = false → ∀ i, s.migrator.buffered i = false) := by
  cases h with
  | idle h =>
    refine ⟨h.swapped, h.accepted, ?_, fun _ => h.buffered⟩
    rw [h.migrating, h.writesLeft]
    decide
  | reading r out h i hi =>
    refine ⟨?_, fun md => ?_, ?_, fun _ => h.buffered⟩
    · rw [h.attempts]
      exact forall_mem_nil _
    · rw [h.attempts]
      exact Nat.zero_le 1
    · rw [h.migrating, h.writesLeft]
      decide
  | writing r status h i hi =>
    refine ⟨h.swapped, fun md => ?_, ?_, fun hidle => ?_⟩
    · obtain ⟨j, rfl⟩ := exists_side md
      rw [h.accepted j]
      split <;> omega
    · have hleft : (status i).left = 1 := by
        cases hst : status i with
        | done => exact absurd hst hi
        | pending | inFlight => rfl
      rw [h.migrating, h.writesLeft]
      refine iff_of_true rfl ?_
      cases i with
      | promotee | demotee => omega
    · rw [h.migrating] at hidle
      cases hidle

theorem issueCommand_of_ready {c : FlatNVMain} {ready : Media → Nat → Bool} {r : FlatRequest}
    (h : ready (c.route r.physicalAddress).1 (c.route r.physicalAddress).2 = true) :
    (c.issueCommand ready r).1 = some (c.route r.physicalAddress) ∧
      (c.issueCommand ready r).2.physicalAddress = (c.route r.physicalAddress).2 := by
  unfold FlatNVMain.issueCommand
  by_cases hlow : r.physicalAddress >>> c.fastMemBits = 0
  · rw [if_pos hlow]
    dsimp only
    rw [if_pos h]
    exact ⟨rfl, rfl⟩
  · have hroute : c.route r.physicalAddress = (.slow, toU64 (r.physicalAddress - 2 * c.fastMemSize)) := if_neg hlow
    rw [hroute] at h ⊢
    rw [if_neg hlow]
    exact ⟨if_pos h, rfl⟩

/-- The reads were delivered to the rows that they are for. -/
def Delivered (L : FlatLayout) (reads : Side → MigRequest) : Prop :=
  ∀ i : Side, (reads i).data = some ⟨i.media, (reads i).address.row⟩ ∧
    L.place (i.media, (reads i).address.physicalAddress) = ⟨i.media, (reads i).address.row⟩

theorem newRead_delivered (haddr : (m.addr i).physicalAddress = L.addr ⟨i.media, (m.addr i).row⟩)
    (h : L.Reaches ready ⟨i.media, (m.addr i).row⟩) :
    (m.newRead L ready i).request.data = some ⟨i.media, (m.addr i).row⟩ ∧
      L.place (i.media, (m.newRead L ready i).request.address.physicalAddress) = ⟨i.media, (m.addr i).row⟩ := by
  obtain ⟨hplace, hready⟩ := h
  rw [← haddr] at hplace hready
  obtain ⟨hto, hphys⟩ := issueCommand_of_ready (r := ⟨_, (m.addr i).virtualAddress, .slow⟩) hready
  have hpair : (i.media, (L.flat.route (m.addr i).physicalAddress).2) = L.flat.route (m.addr i).physicalAddress :=
    congrArg (·, _) (congrArg Place.media hplace).symm
  have hdata := congrArg (Option.map L.place) hto
  rw [map_some, hplace] at hdata
  have hwhere := (congrArg (L.place ⟨i.media, ·⟩) hphys).trans (congrArg L.place hpair)
  cases i <;> exact ⟨hdata, hwhere.trans hplace⟩

theorem Delivers.known {e : Event} (h : Delivers L n s e) : Known L n (Delivered L) s e := by
  have hreads : ∀ {req ready}, s.ReadsDelivered L n req ready →
      Known L n (Delivered L) s (.request req ready) := by
    intro req ready h hidle x hx read hread i
    obtain hnil | ⟨m1, haddr, hchosen, hissues⟩ := tryMigration_issues hx
    · rw [hnil] at hread
      cases hread
    · have hreach := h hidle x hx (hread ▸ cons_ne_nil _ _) i
      rw [haddr] at hreach
      obtain ⟨hdemotee, hpromotee⟩ := List.cons_eq_cons.mp (hread.symm.trans hissues)
      have hsame : read i = m1.newRead L ready i := by
        cases i with
        | promotee => exact (List.cons.inj hpromotee).1
        | demotee => exact hdemotee
      obtain ⟨hdata, hplace⟩ := newRead_delivered (hchosen i) hreach
      simp only [hsame]
      cases i <;> exact ⟨hdata, hplace⟩
  cases e with
  | request req ready | retry req ready => exact hreads h
  | complete | other => trivial

theorem Swapped.crossed {reads : Side → MigRequest} {t : Attempt} (h : Swapped reads t)
    (hreads : Delivered L reads) : Crossed L reads t := by
  obtain ⟨_, i, hdevice, haddr, hdata⟩ := h
  refine ⟨i, hdata.trans (hreads i).1, ?_⟩
  rw [Attempt.place, hdevice, haddr]
  exact (hreads i.other).2

/-- For all requests and completions, in any order, no assertion fails. A write is issued only
after both reads, with the data of one and the address of the other, is accepted at most once for
each device, a migration is in progress from its start until both writes have completed, and no
write is left over when none is. If each read is delivered to the row that it is for, then each
write carries the data of one row to the other row. -/
theorem run_safe (L : FlatLayout) (n : VictimCounts) (hkeys : DistinctKeys L n) (events : List Event)
    (hallowed : AllSteps (step L n) (Allowed L n) new events) :
    ∃ s, run (step L n) new events = some s ∧
      (∀ t ∈ s.attempts, Swapped s.reads t) ∧ (∀ md, acceptedWrites s.attempts md ≤ 1) ∧
      (s.migrator.decoder.migrating = true ↔ 0 < s.writesLeft) ∧
      (s.migrator.decoder.migrating = false → ∀ i, s.migrator.buffered i = false) ∧
      (AllSteps (step L n) (Delivers L n) new events → ∀ t ∈ s.attempts, Crossed L s.reads t) := by
  obtain ⟨s, hrun, hinv⟩ := run_isSome (step L n) (fun s e h ha => h.step hkeys ha (.trivial e)) events
    (inv_new L fun _ => True) hallowed
  obtain ⟨hswapped, haccepted, hmig, hbuffered⟩ := hinv.phase.safe
  refine ⟨s, hrun, fun t ht => (hswapped t ht).1, haccepted, hmig, hbuffered, fun hdelivers t ht => ?_⟩
  obtain ⟨s1, hrun1, hinv1⟩ := run_isSome (step L n)
    (fun s e h (ha : Allowed L n s e ∧ Delivers L n s e) => h.step hkeys ha.1 ha.2.known) events
    (inv_new L (Delivered L)) (.and _ _ hallowed hdelivers)
  cases hrun1.symm.trans hrun
  obtain ⟨hswap, hreads⟩ := hinv1.phase.safe.1 t ht
  exact hswap.crossed hreads

theorem Phase.migrating_iff (h : Phase L D s) :
    s.migrator.decoder.migrating = true ↔ s.inflight ≠ 0 ∨ ∃ i, s.migrator.buffered i = true := by
  cases h with
  | idle h =>
    rw [h.migrating, h.inflight]
    refine iff_of_false nofun ?_
    rintro (hne | ⟨i, hi⟩)
    · exact hne rfl
    · cases (h.buffered i).symm.trans hi
  | reading r out h i hi =>
    refine iff_of_true h.migrating (.inl ?_)
    rw [h.inflight, ne_eq, outstanding_eq_zero]
    intro hall
    cases hi.symm.trans (hall i)
  | writing r status h i hi =>
    refine iff_of_true h.migrating ?_
    cases hst : status i with
    | done => exact absurd hst hi
    | pending => exact .inr ⟨i, (h.buffered i).trans (decide_eq_true hst)⟩
    | inFlight =>
      refine .inl ?_
      rw [h.inflight, ne_eq, outstanding_eq_zero]
      intro hall
      exact of_decide_eq_false (hall i) hst

/-- After any run, a migration is in progress exactly if one of its requests is in flight or one of
its writes waits to be issued again: none is stuck, and none leaves a request behind. -/
theorem migration_moves (L : FlatLayout) (n : VictimCounts) (hkeys : DistinctKeys L n) {events : List Event}
    (hallowed : AllSteps (step L n) (Allowed L n) new events) (hr : run (step L n) new events = some s) :
    s.migrator.decoder.migrating = true ↔ s.inflight ≠ 0 ∨ ∃ i, s.migrator.buffered i = true := by
  obtain ⟨s1, hs1, hinv⟩ := run_isSome (step L n) (fun s e h ha => h.step hkeys ha (.trivial e)) events
    (inv_new L fun _ => True) hallowed
  cases hs1.symm.trans hr
  exact hinv.phase.migrating_iff

section TwoRows

def twoVictims : VictimCounts := ⟨1, 1, 1, 2⟩

theorem twoVictims_distinctKeys : DistinctKeys FlatDecoder.twoRows twoVictims := by
  intro row page hrow
  have hvictim : twoVictims.victim page = ⟨0, 0, 0, 0, 0⟩ ∨ twoVictims.victim page = ⟨0, 0, 0, 0, 1⟩ := by
    obtain h | h : page >>> mlog2 1 >>> mlog2 1 >>> mlog2 1 % 2 = 0 ∨ page >>> mlog2 1 >>> mlog2 1 >>> mlog2 1 % 2 = 1 := by
      omega
    · left
      simp [VictimCounts.victim, twoVictims, Nat.mod_one, h, viaInt_of_lt]
    · right
      simp [VictimCounts.victim, twoVictims, Nat.mod_one, h, viaInt_of_lt]
  obtain rfl | rfl := FlatDecoder.rowGeometry_cases hrow <;> obtain h | h := hvictim <;> rw [h] <;> decide +kernel

def rowRequest (id page : Nat) (tag : MigTag) (data : Place) : MigRequest :=
  ⟨id, ⟨0, page, 0, 0, 0, 0, 0⟩, tag, some data⟩

open FlatDecoder (fastRow slowRow twoRows)

/-- The first slow row is exchanged with the first fast one. A second request is put off, and one of
the writes is accepted only when it is issued for the second time. -/
def exchangeEvents : List Event :=
  [.request ⟨0, ⟨0, 0, 0, 0, 0⟩, .slow⟩ (fun _ _ => true),
    .request ⟨0, ⟨0, 0, 0, 0, 1⟩, .slow⟩ (fun _ _ => true),
    .complete (rowRequest 1 1 .read (fastRow 0)) (fun _ => true),
    .complete (rowRequest 0 0 .read (slowRow 0)) (fun i => i = .promotee),
    .other (fun _ => true),
    .complete (rowRequest 3 1 .write (slowRow 0)) (fun _ => true),
    .complete (rowRequest 2 0 .write (fastRow 0)) (fun _ => true),
    .retry ⟨0, ⟨0, 0, 0, 0, 1⟩, .slow⟩ (fun _ _ => true)]

theorem run_safe_exchange : ∃ s, run (step twoRows twoVictims) new exchangeEvents = some s ∧
    (∀ t ∈ s.attempts, Swapped s.reads t) ∧ (∀ md, acceptedWrites s.attempts md ≤ 1) ∧
    (s.migrator.decoder.migrating = true ↔ 0 < s.writesLeft) ∧
    (s.migrator.decoder.migrating = false → ∀ i, s.migrator.buffered i = false) ∧
    ∀ t ∈ s.attempts, Crossed twoRows s.reads t := by
  obtain ⟨s, hrun, hswapped, haccepted, hmig, hbuffered, hcrossed⟩ :=
    run_safe twoRows twoVictims twoVictims_distinctKeys exchangeEvents (by decide +kernel)
  exact ⟨s, hrun, hswapped, haccepted, hmig, hbuffered, hcrossed (by decide +kernel)⟩

/-- The fast device is not ready when the first fast row is to be read. -/
def divertedEvents : List Event :=
  [.request ⟨0, ⟨0, 0, 0, 0, 0⟩, .slow⟩ (fun m _ => m = .slow),
    .complete (rowRequest 0 0 .read (slowRow 0)) (fun _ => true),
    .complete ⟨1, ⟨2 ^ 64 - 4, 1, 0, 0, 0, 0, 0⟩, .read, some (slowRow 0)⟩ (fun _ => true)]

/-- Both reads are accepted, the one of the fast row by the slow device. What is written to the slow
row is its own content, and the content of the fast row is lost. -/
theorem diverted_read_loses_row : AllSteps (step twoRows twoVictims) (Allowed twoRows twoVictims) new divertedEvents ∧
    ∃ s, run (step twoRows twoVictims) new divertedEvents = some s ∧
      s.attempts.map (fun t => (t.request.data, t.place twoRows, t.accepted)) =
        [(some (slowRow 0), fastRow 0, true), (some (slowRow 0), slowRow 0, true)] := by
  decide +kernel

theorem migration_moves_exchange : ∃ s, run (step twoRows twoVictims) new (exchangeEvents.take 3) = some s ∧
    (s.migrator.decoder.migrating = true ↔ s.inflight ≠ 0 ∨ ∃ i, s.migrator.buffered i = true) := by
  have hsome : (run (step twoRows twoVictims) new (exchangeEvents.take 3)).isSome := by decide +kernel
  obtain ⟨s, hr⟩ := isSome_iff_exists.mp hsome
  exact ⟨s, hr, migration_moves _ _ twoVictims_distinctKeys (by decide +kernel) hr⟩

end TwoRows

end FlatMigration

end Shma.Nvmain
