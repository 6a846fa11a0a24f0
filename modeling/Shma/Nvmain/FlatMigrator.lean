import Shma.Nvmain.FlatRBLANVMain

/-!
# The migrator of the flat memory

`Utils/FlatMigrator/FlatMigrator.cpp`: a row of the slow device is exchanged with a
victim in the fast one. Both rows are read, and when both reads have completed the two
requests trade their addresses and are issued as writes, each to the other device. A
write that is not accepted is tried again when some other request completes. While a
migration goes on further ones are put off.

Requests are objects behind pointers; a request here carries a number in place of its
address, and a copy gets a new one. The data of a request is modelled by the row of the
device that its read was delivered to, which need not be the row that it was issued for:
`FlatNVMain::IssueCommand` passes a request over to the slow device when the fast one is
not ready. Counters of the statistics and cycles are left out.
-/
namespace Shma.Nvmain

open Lib

/-- The two rows of a migration: variables of the source named `local_` belong to the promotee,
a row of the slow device, and those named `remote_` to the demotee. -/
inductive Side where
  | promotee | demotee
  deriving DecidableEq

def Side.other : Side → Side
  | .promotee => .demotee
  | .demotee => .promotee

@[simp] theorem Side.other_other (i : Side) : i.other.other = i := by cases i <;> rfl

theorem Side.other_ne (i : Side) : i.other ≠ i := by cases i <;> decide

theorem Side.eq_or_eq_other (i j : Side) : j = i ∨ j = i.other := by cases i <;> cases j <;> decide

instance : Fintype Side := ⟨{.promotee, .demotee}, fun i => by cases i <;> decide⟩

def Side.media : Side → Media
  | .promotee => .slow
  | .demotee => .fast

/-- The row of a device that a local address is decoded to. -/
def FlatLayout.place (L : FlatLayout) (x : Media × Nat) : Place := ⟨x.1, (L.geometry x.1).home x.2⟩

/-- A read of the row is delivered to it: its flat address leads there and the device is ready. -/
def FlatLayout.Reaches (L : FlatLayout) (ready : Media → Nat → Bool) (p : Place) : Prop :=
  L.place (L.flat.route (L.addr p)) = p ∧ ready (L.flat.route (L.addr p)).1 (L.flat.route (L.addr p)).2 = true
  deriving Decidable

inductive MigTag where
  | read | write
  deriving DecidableEq

structure MigRequest where
  id : Nat
  address : NVMAddress
  tag : MigTag
  /-- The row whose content the read brings. -/
  data : Option Place
  deriving DecidableEq

structure MigrationRequest where
  physicalAddress : Nat
  row : Row
  media : Media
  deriving DecidableEq

structure VictimCounts where
  (channels ranks banks rows : Nat)

/-- A coordinate that was held in an `int` before it is passed on as a word. -/
def viaInt (x : Nat) : Nat := toU64 ((x : Int).bmod (2 ^ 32))

theorem viaInt_of_lt {x : Nat} (h : x < 2 ^ 31) : viaInt x = x := by
  rw [viaInt, Int.bmod_eq_of_le (by omega) (by omega), toU64_natCast (by omega)]

namespace VictimCounts

def totalPages (n : VictimCounts) : Nat := n.ranks * n.banks * n.rows * n.channels

/-- The row that `ChooseVictim` makes of a page number. -/
def victim (n : VictimCounts) (page : Nat) : Row where
  channel := viaInt (page % n.channels)
  rank := viaInt ((page >>> mlog2 n.channels) % n.ranks)
  bank := viaInt ((page >>> mlog2 n.channels >>> mlog2 n.ranks) % n.banks)
  subarray := 0
  row := viaInt ((page >>> mlog2 n.channels >>> mlog2 n.ranks >>> mlog2 n.banks) % n.rows)

def nextPage (n : VictimCounts) (page : Nat) : Nat :=
  if page ≤ n.totalPages then (page + 1) % n.totalPages else (page - n.totalPages) % n.totalPages

end VictimCounts

structure FlatMigrator where
  decoder : FlatDecoder
  currentPage : Nat
  buffered : Side → Bool
  req : Side → Option MigRequest
  addr : Side → NVMAddress
  nextId : Nat

/-- Where a request is issued: a read to the whole memory, a write to one of the devices. -/
inductive Target where
  | memory
  | device (m : Media)
  deriving DecidableEq

/-- A call of `IssueCommand` by the migrator and what it returned. -/
structure Issue where
  target : Target
  request : MigRequest
  accepted : Bool

namespace FlatMigrator

def new : FlatMigrator where
  decoder := .new
  currentPage := 0
  buffered _ := false
  req _ := none
  addr _ := ⟨0, 0, 0, 0, 0, 0, 0⟩
  nextId := 0

variable (L : FlatLayout) (accept : Side → Bool) (n : VictimCounts) (ready : Media → Nat → Bool)
  (req : Side → MigRequest) (m : FlatMigrator) (i : Side)

def issueRead (id : Nat) (address : NVMAddress) : Issue :=
  let (delivered, req) := L.flat.issueCommand ready ⟨address.physicalAddress, address.virtualAddress, .slow⟩
  { target := .memory
    request :=
      { id
        address := { address with physicalAddress := req.physicalAddress, virtualAddress := req.virtualAddress }
        tag := .read
        data := delivered.map L.place }
    accepted := delivered.isSome }

def chooseAddr (r : Row) : Side → NVMAddress
  | .promotee => { m.addr .promotee with physicalAddress := L.addr ⟨.slow, r⟩, row := r }
  | .demotee =>
    { m.addr .demotee with
      physicalAddress := L.addr ⟨.fast, n.victim m.currentPage⟩
      row := n.victim m.currentPage }

def newRead : Side → Issue
  | .promotee => issueRead L ready m.nextId (m.addr .promotee)
  | .demotee => issueRead L ready (m.nextId + 1) (m.addr .demotee)

def migrate (r : Row) :
    Option (FlatMigrator × List Issue) :=
  (assertThat (m.buffered .promotee = false ∧ m.buffered .demotee = false)).bind fun _ =>
    let m := { m with addr := m.chooseAddr L n r, currentPage := n.nextPage m.currentPage }
    -- `CheckIssuable` asks the slow device about both
    if ready .slow (m.addr .promotee).physicalAddress && ready .slow (m.addr .demotee).physicalAddress then
      (m.decoder.startMigration L (m.addr .promotee) (m.addr .demotee)).map fun decoder =>
        ({ m with
            decoder
            req := fun i => some (m.newRead L ready i).request
            nextId := m.nextId + 2 },
          [m.newRead L ready .demotee, m.newRead L ready .promotee])
    else some (m, [])

def tryMigration (req : MigrationRequest) : Option (FlatMigrator × List Issue) :=
  if m.decoder.isBuffered L req.physicalAddress then some (m, [])
  else if m.decoder.migrating = false ∧ req.media = .slow then m.migrate L n ready req.row
  else some (m, [])

def toWrite : MigRequest :=
  { req i with address := (req i.other).address, tag := .write }

def writeIssue : Issue :=
  ⟨.device i.other.media, req i, accept i⟩

/-- A write that is accepted puts its page into the state of a queued write. -/
def setWriting (d : FlatDecoder) :
    Option FlatDecoder :=
  if accept i then d.setMigrationState L (req i).address .writing else some d

def writeBack (req : Side → MigRequest) :
    Option (FlatMigrator × List Issue) :=
  (setWriting L accept (toWrite req) .promotee m.decoder).bind fun d =>
  (setWriting L accept (toWrite req) .demotee d).map fun decoder =>
    ({ m with decoder, req := fun i => some (toWrite req i), buffered := fun i => !accept i },
      [writeIssue accept (toWrite req) .promotee, writeIssue accept (toWrite req) .demotee])

section

variable (req : MigRequest)

/-- `request == local_req`, `request == remote_req`. -/
def isReq (i : Side) : Bool := (m.req i).map MigRequest.id = some req.id

def copyReq : FlatMigrator :=
  let copy := some { req with id := m.nextId }
  if m.isReq req .promotee then { m with req := update m.req .promotee copy, nextId := m.nextId + 1 }
  else if m.isReq req .demotee then { m with req := update m.req .demotee copy, nextId := m.nextId + 1 }
  else m

def readComplete : Option (FlatMigrator × List Issue) :=
  (m.decoder.setMigrationState L req.address .buffered).bind fun decoder =>
    let bufferComplete :=
      m.isReq req .promotee && decoder.isBuffered L (m.addr .demotee).physicalAddress
        || m.isReq req .demotee && decoder.isBuffered L (m.addr .promotee).physicalAddress
    let m := { m with decoder }.copyReq req
    if bufferComplete then
      match m.req .promotee, m.req .demotee with
      | some p, some d =>
        m.writeBack L accept fun
          | .promotee => p
          | .demotee => d
      | _, _ => none
    else some (m, [])

def writeComplete : Option (FlatMigrator × List Issue) :=
  (m.decoder.setMigrationState L req.address .done).map fun decoder => ({ m with decoder }, [])

end

def retryWrite (m : FlatMigrator) : Option (FlatMigrator × List Issue) :=
  if m.buffered i then
    (m.req i).map fun req =>
      ({ m with buffered := update m.buffered i (!accept i) }, [⟨.device i.other.media, req, accept i⟩])
  else some (m, [])

def otherComplete : Option (FlatMigrator × List Issue) :=
  (m.retryWrite accept .promotee).bind fun x =>
  (x.1.retryWrite accept .demotee).map fun y => (y.1, x.2 ++ y.2)

end FlatMigrator

/-! ### The migrator with its memory -/

/-- A write that was issued, and how many migration reads were outstanding then. -/
structure Attempt where
  device : Media
  request : MigRequest
  accepted : Bool
  readsOutstanding : Nat

/-- The row that a write goes to. -/
def Attempt.place (L : FlatLayout) (t : Attempt) : Place := L.place (t.device, t.request.address.physicalAddress)

/-- The migrator, the requests that were accepted and have not completed, and those put off. What
is noted of the last migration: its reads, the writes issued so far, and how many of them have not
completed. -/
structure FlatMigration where
  migrator : FlatMigrator
  inflight : Multiset MigRequest
  delayed : Multiset MigrationRequest
  reads : Side → MigRequest
  attempts : List Attempt
  writesLeft : Nat

namespace FlatMigration

def new : FlatMigration where
  migrator := .new
  inflight := 0
  delayed := 0
  reads _ := ⟨0, ⟨0, 0, 0, 0, 0, 0, 0⟩, .read, none⟩
  attempts := []
  writesLeft := 0

def accepted (issues : List Issue) : Multiset MigRequest := (issues.filter Issue.accepted).map Issue.request

def readsOutstanding (inflight : Multiset MigRequest) : Nat :=
  Multiset.card (inflight.filter fun r => r.tag = .read)

def writes (outstanding : Nat) (issues : List Issue) : List Attempt :=
  issues.filterMap fun i =>
    match i.target with
    | .memory => none
    | .device m => some ⟨m, i.request, i.accepted, outstanding⟩

variable (L : FlatLayout) (n : VictimCounts) (s : FlatMigration) (req : MigrationRequest)
  (ready : Media → Nat → Bool)

def issue (migrator : FlatMigrator) (issues : List Issue) : FlatMigration :=
  { s with
    migrator
    inflight := s.inflight + accepted issues
    attempts := s.attempts ++ writes (readsOutstanding s.inflight) issues }

/-- The two reads that start a migration are noted. -/
def begun : List Issue → FlatMigration
  | [demotee, promotee] =>
    { s with
      reads := fun
        | .promotee => promotee.request
        | .demotee => demotee.request
      attempts := []
      writesLeft := 2 }
  | _ => s

def issueCommand : Option FlatMigration :=
  if s.migrator.decoder.migrating = false then
    (s.migrator.tryMigration L n ready req).map fun x => (s.begun x.2).issue x.1 x.2
  else some { s with delayed := req ::ₘ s.delayed }

/-- What happens to the migrator: a request for a migration arrives or comes up again, a request
that it has issued completes, another one does. -/
inductive Event where
  | request (req : MigrationRequest) (ready : Media → Nat → Bool)
  | retry (req : MigrationRequest) (ready : Media → Nat → Bool)
  | complete (req : MigRequest) (accept : Side → Bool)
  | other (accept : Side → Bool)

def step : Event → Option FlatMigration
  | .request req ready => s.issueCommand L n req ready
  | .retry req ready => { s with delayed := s.delayed.erase req }.issueCommand L n req ready
  | .complete req accept =>
    let s := { s with inflight := s.inflight.erase req }
    match req.tag with
    | .read => (s.migrator.readComplete L accept req).map fun x => s.issue x.1 x.2
    | .write =>
      (s.migrator.writeComplete L req).map fun x => { s with writesLeft := s.writesLeft - 1 }.issue x.1 x.2
  | .other accept => (s.migrator.otherComplete accept).map fun x => s.issue x.1 x.2

/-- The reads of a migration that a request starts are accepted. -/
def ReadsAccepted : Prop :=
  s.migrator.decoder.migrating = false → ∀ x ∈ s.migrator.tryMigration L n ready req, ∀ i ∈ x.2, i.accepted = true
  deriving Decidable

def Allowed : Event → Prop
  | .request req ready => L.slow.HasRow req.row ∧ s.ReadsAccepted L n req ready
  | .retry req ready => req ∈ s.delayed ∧ s.ReadsAccepted L n req ready
  | .complete req _ => req ∈ s.inflight
  | .other _ => True

instance : ∀ e, Decidable (Allowed L n s e)
  | .request req _ => inferInstanceAs (Decidable (L.slow.HasRow req.row ∧ _))
  | .retry _ _ => inferInstanceAs (Decidable (_ ∧ _))
  | .complete req _ => inferInstanceAs (Decidable (req ∈ s.inflight))
  | .other _ => isTrue trivial

/-- The reads of a migration that a request starts are delivered to the rows that they are for. -/
def ReadsDelivered : Prop :=
  s.migrator.decoder.migrating = false → ∀ x ∈ s.migrator.tryMigration L n ready req, x.2 ≠ [] →
    ∀ i : Side, L.Reaches ready ⟨i.media, (x.1.addr i).row⟩
  deriving Decidable

def Delivers : Event → Prop
  | .request req ready | .retry req ready => s.ReadsDelivered L n req ready
  | _ => True

instance : ∀ e, Decidable (Delivers L n s e)
  | .request req ready | .retry req ready => inferInstanceAs (Decidable (s.ReadsDelivered L n req ready))
  | .complete _ _ | .other _ => isTrue trivial

end FlatMigration

end Shma.Nvmain
