import Shma.Lib.Run
import Shma.Nvmain.CacheBank

/-!
# A DRAM cache in front of the main memory

`NVM/HierDRAMCache/HierDRAMCache.cpp`. A request that misses is answered by a read of its line from
the main memory and a fill of the DRAM cache, which are issued together; with the second of the two
to complete the line is installed. If the set is full when the request is issued its last way is
evicted, but only if it is dirty. A read or a fill that the memory below cannot take is not issued.
A write-back is issued without asking, and if it is refused it is lost.

Requests are named by different numbers. Addresses inside the DRAM cache, the channels they belong
to and the statistics are left out, so a fill keeps the address of its request; a request that hits
is handed on and comes back to the parent.
-/
namespace Shma.Nvmain

open Lib Lib.Run

inductive DrcPart where
  | memRead | fill
  deriving DecidableEq

instance : Fintype DrcPart := ⟨{.memRead, .fill}, fun p => by cases p <;> decide⟩

def DrcPart.other : DrcPart → DrcPart
  | .memRead => .fill
  | .fill => .memRead

inductive DrcTag where
  | access | part (p : DrcPart) | evict
  deriving DecidableEq

structure DrcRequest where
  tag : DrcTag
  (id address : Nat)
  write : Bool
  deriving DecidableEq

namespace DrcRequest

def part (req : DrcRequest) (p : DrcPart) : DrcRequest := { req with tag := .part p, write := decide (p = .fill) }

def evictFor (req : DrcRequest) (victim : Nat) : DrcRequest := ⟨.evict, req.id, victim, true⟩

end DrcRequest

/-- What the memory below answers when it is asked whether it can take a request: the request itself
by the DRAM cache or by the main memory, and the two requests that answer a miss. `evict` is the
answer to the write-back, which no one looks at. -/
structure DrcReady where
  (drc mem : Bool)
  part : DrcPart → Bool
  evict : Bool

/-- `outstanding` is `outstandingMemReads` and `outstandingFills`, and the two flags of an entry of
`cachingMap` are given for the two parts. -/
structure HierDRAMCache (g : CacheGeometry) where
  bank : CacheBank g
  outstanding : DrcPart → DrcRequest → Option DrcRequest
  outstandingEvicts : DrcRequest → Option DrcRequest
  cachingMap : DrcRequest → Option (DrcPart → Bool)

namespace HierDRAMCache

variable {g : CacheGeometry}

def new : HierDRAMCache g := ⟨.new, fun _ _ => none, fun _ => none, fun _ => none⟩

variable (d : HierDRAMCache g) (req : DrcRequest) (ready : DrcReady)

def isIssuable : Bool :=
  if d.bank.present req.address then ready.drc else ready.mem

/-- The part of `IssueCommand` that evicts, with the write-backs that are accepted. -/
def makeRoom :
    Option (HierDRAMCache g × List DrcRequest) :=
  if d.bank.setFull req.address then
    (d.bank.chooseVictim req.address).bind fun (dirty, victim) =>
      if dirty then
        (d.bank.evict victim).bind fun bank =>
        (assertThat (d.outstandingEvicts req = none)).map fun _ =>
          let evictReq := req.evictFor victim
          ({ d with bank, outstandingEvicts := update d.outstandingEvicts evictReq (some req) },
            if ready.evict then [evictReq] else [])
      else some (d, [])
  else some (d, [])

/-- The part of `IssueCommand` that notes the read and the fill, with those that are issued. -/
def fetch : Option (HierDRAMCache g × List DrcRequest) :=
  (assertThat (d.outstanding .memRead (req.part .memRead) = none)).bind fun _ =>
  (assertThat (d.cachingMap req = none)).map fun _ =>
    ({ d with
      outstanding := fun p => update (d.outstanding p) (req.part p) (some req)
      cachingMap := update d.cachingMap req (some fun _ => false) },
      ([.memRead, .fill].filter ready.part).map req.part)

def issueCommand :
    Option (HierDRAMCache g × List DrcRequest) :=
  if d.bank.present req.address then
    some (if req.write then { d with bank := d.bank.setDirty req.address } else d, [])
  else
    (d.makeRoom req ready).bind fun (d, evicts) => (d.fetch req ready).map fun (d, parts) => (d, evicts ++ parts)

def partComplete (p : DrcPart) (req : DrcRequest) : Option (HierDRAMCache g) :=
  (d.outstanding p req).map fun origin =>
    let outstanding := update d.outstanding p (update (d.outstanding p) req none)
    let flags := update ((d.cachingMap origin).getD fun _ => false) p true
    if flags p.other then
      { d with
        outstanding
        bank := d.bank.install origin.address
        cachingMap := update d.cachingMap origin none }
    else { d with outstanding, cachingMap := update d.cachingMap origin (some flags) }

def requestComplete : Option (HierDRAMCache g) :=
  match req.tag with
  | .access => some d
  | .part p => d.partComplete p req
  | .evict =>
    (assertThat (d.outstandingEvicts req ≠ none)).map fun _ =>
      { d with outstandingEvicts := update d.outstandingEvicts req none }

end HierDRAMCache

/-! ### Runs -/

/-- The cache, its own requests that have not completed, those that have with the last one if it
completed just now, and the requests that have missed. -/
structure DrcSession (g : CacheGeometry) where
  drc : HierDRAMCache g
  (inflight completed : List DrcRequest)
  last : Option DrcRequest
  missed : List DrcRequest

namespace DrcSession

variable {g : CacheGeometry}

def new : DrcSession g := ⟨.new, [], [], none, []⟩

inductive Event where
  | issue (req : DrcRequest) (ready : DrcReady)
  | complete (req : DrcRequest)

variable (s : DrcSession g)

def step : Event → Option (DrcSession g)
  | .issue req ready =>
    (s.drc.issueCommand req ready).map fun (drc, issued) =>
      { s with
        drc
        inflight := s.inflight ++ issued
        last := none
        missed := if s.drc.bank.present req.address then s.missed else req :: s.missed }
  | .complete req =>
    (s.drc.requestComplete req).map fun drc =>
      { s with drc, inflight := s.inflight.erase req, completed := req :: s.completed, last := some req }

/-- Requests are issued with a new number when they are issuable, and the cache's own requests that
were issued complete. -/
def Allowed : Event → Prop
  | .issue req ready =>
    req.tag = .access ∧ (∀ r ∈ s.missed, r.id ≠ req.id) ∧ s.drc.isIssuable req ready = true
  | .complete req => req ∈ s.inflight

instance : ∀ e, Decidable (Allowed s e)
  | .issue req _ => inferInstanceAs (Decidable (_ ∧ (∀ r ∈ s.missed, r.id ≠ req.id) ∧ _))
  | .complete req => inferInstanceAs (Decidable (req ∈ s.inflight))

/-- No set holds a tag twice, and if the read and the fill of a request have completed, one of them
just now, its line is present. -/
def Correct : Prop :=
  s.drc.bank.TagsUnique ∧ ∀ r ∈ s.missed, (∃ p, s.last = some (r.part p)) → (∀ p, r.part p ∈ s.completed) →
    s.drc.bank.present r.address = true

/-- With the second of the two requests of a miss to complete, the set of the line has room exactly
if the line is not present. -/
def HasRoom : Event → Prop
  | .issue _ _ => True
  | .complete req => ∀ r ∈ s.missed, ∀ p, req = r.part p → r.part p.other ∈ s.completed →
      s.drc.bank.setFull r.address = s.drc.bank.present r.address

instance : ∀ e, Decidable (HasRoom s e)
  | .issue _ _ => isTrue trivial
  | .complete req => inferInstanceAs (Decidable (∀ r ∈ s.missed, ∀ p, req = r.part p → _ → _))

end DrcSession

end Shma.Nvmain
