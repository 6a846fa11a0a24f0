import Shma.Common.Const

/-!
# Caches and their MESI controllers

The state of a tree of caches and the two halves of the coherence controller of
each: `MESIBottomCC`, which keeps the state of a line towards the level above
and asks that level for lines, and `MESITopCC`, which keeps the directory of the
children and sends them invalidations (`coherence_ctrls.cpp`).

A cache is named by the child indices that lead to it, the last one first, so
the root is `[]` and child `c` of cache `p` is `c :: p`. An assertion that fails
is `none`. Caches are inclusive (`nonInclusiveHack` is off), an operation is
atomic, and cycles are counted without wrapping round.
-/
namespace Shma.Cache

inductive MESIState where
  | I | S | E | M
  deriving DecidableEq, Repr

inductive InvType where
  | inv | invx | fwd
  deriving DecidableEq, Repr

structure Flags where
  noExcl : Bool := false
  putxKeepExcl : Bool := false
  prefetch : Bool := false
  deriving DecidableEq, Repr

abbrev Path := List Nat

/-- The `MESIState*` of a request: a line of the requesting cache, or the
`dummyState` of a core's request. -/
inductive StateRef where
  | dummy
  | line (p : Path) (lineId : Nat)
  deriving DecidableEq, Repr

structure Request extends MemReq where
  state : StateRef
  initialState : MESIState
  flags : Flags
  deriving DecidableEq, Repr

/-- A directory entry of `MESITopCC`. -/
structure Entry where
  numSharers : Nat
  sharers : Nat → Bool
  exclusive : Bool

namespace Entry

def clear : Entry := ⟨0, fun _ => false, false⟩

def isEmpty (e : Entry) : Bool := e.numSharers == 0

def isExclusive (e : Entry) : Bool := e.numSharers == 1 && e.exclusive

def drop (e : Entry) (c : Nat) : Entry :=
  { e with sharers := update e.sharers c false, numSharers := e.numSharers - 1 }

def add (e : Entry) (c : Nat) : Entry :=
  { e with sharers := update e.sharers c true, numSharers := e.numSharers + 1 }

end Entry

/-- An entry of the filter array of a terminal cache. -/
structure FilterEntry where
  (rdAddr wrAddr : Address)
  availCycle : Nat
  deriving DecidableEq, Repr

def FilterEntry.clear : FilterEntry := ⟨0, 0, 0⟩

/-- One cache: the tags of its array, the states of `MESIBottomCC`, the directory of
`MESITopCC` (unused in a terminal cache) and the filter array (used in a terminal
cache only). -/
structure CacheState where
  array : Nat → Address
  bcc : Nat → MESIState
  tcc : Nat → Entry
  filterArray : Nat → FilterEntry

def CacheState.new : CacheState := ⟨fun _ => 0, fun _ => .I, fun _ => .clear, fun _ => .clear⟩

abbrev Hierarchy := Path → CacheState

namespace Hierarchy

def new : Hierarchy := fun _ => .new

variable (h : Hierarchy) (p : Path) (lineId : Nat)

def setState (s : MESIState) : Hierarchy :=
  update h p { h p with bcc := update (h p).bcc lineId s }

def setEntry (e : Entry) : Hierarchy :=
  update h p { h p with tcc := update (h p).tcc lineId e }

def setTag (a : Address) : Hierarchy :=
  update h p { h p with array := update (h p).array lineId a }

def setFilter (f : Nat → FilterEntry) : Hierarchy :=
  update h p { h p with filterArray := f }

def read : StateRef → MESIState
  | .dummy => .I
  | .line p lineId => (h p).bcc lineId

def write (r : StateRef) (s : MESIState) : Hierarchy :=
  match r with
  | .dummy => h
  | .line p lineId => h.setState p lineId s

end Hierarchy

/-- How the caches are put together. `ways p a` are the line ids in which the array of
cache `p` may hold line `a`; every branch ends at `depth`. -/
structure Topology where
  numChildren : Path → Nat
  depth : Nat
  terminal_of_depth : ∀ p, depth ≤ p.length → numChildren p = 0
  ways : Path → Address → List Nat
  (numSets accLat invLat parentRTT childRTT : Path → Nat)
  minLatency : Nat
  minLatency_pos : 0 < minLatency

def Topology.lookup (t : Topology) (p : Path) (array : Nat → Address) (a : Address) : Option Nat :=
  (t.ways p a).find? fun lineId => array lineId == a

/-- `parents[..]->access`: the response cycle and the caches after it. -/
abbrev Upper := Request → Hierarchy → Option (Nat × Hierarchy)

structure InvReply where
  cycle : Nat
  reqWriteback : Bool
  caches : Hierarchy

/-- `children[c]->invalidate`, the child named by its path. -/
abbrev Lower := Path → Address → InvType → Bool → Nat → Hierarchy → Option InvReply

/-- `CheckForMESIRace`: whether the access is skipped, and its type. -/
def checkForMESIRace (type : AccessType) (state initialState : MESIState) : Option (Bool × AccessType) :=
  if state = initialState then some (false, type)
  else
    match type with
    | .puts | .putx =>
      if state = .I then some (true, type)
      else (assertThat (state = .S)).map fun _ => (false, .puts)
    | .getx => (assertThat (initialState = .S ∧ state = .I)).map fun _ => (false, .getx)
    | _ => none

namespace MESIBottomCC

def selfId : Path → Nat
  | [] => 0
  | c :: _ => c

variable (t : Topology) (up : Upper) (p : Path) (lineId : Nat) (a : Address) (h : Hierarchy)

def isExclusive (p : Path) (lineId : Nat) : Bool :=
  (h p).bcc lineId == .E || (h p).bcc lineId == .M

def toModified (p : Path) (lineId : Nat) : Option Hierarchy :=
  (assertThat ((h p).bcc lineId = .M ∨ (h p).bcc lineId = .E)).map fun _ => h.setState p lineId .M

def request (p : Path) (a : Address) (lineId : Nat) (type : AccessType) (cycle : Nat)
    (flags : Flags) : Request :=
  { lineAddr := a, type := type, childId := selfId p, cycle := cycle, state := .line p lineId,
    initialState := (h p).bcc lineId, flags := flags }

def writeBack (wbLineAddr : Address) (lineId cycle : Nat) (h : Hierarchy) :
    Option (Nat × Hierarchy) :=
  match (h p).bcc lineId with
  | .I => some (cycle, h)
  | .S | .E => up (request h p wbLineAddr lineId .puts cycle {}) h
  | .M => up (request h p wbLineAddr lineId .putx cycle {}) h

def processEviction (wbLineAddr : Address) (lineId : Nat) (lowerLevelWriteback : Bool) (cycle : Nat)
    (h : Hierarchy) : Option (Nat × Hierarchy) :=
  (if lowerLevelWriteback then toModified h p lineId else some h).bind fun h =>
  (writeBack up p wbLineAddr lineId cycle h).bind fun r =>
  (assertThat ((r.2 p).bcc lineId = .I)).map fun _ => r

/-- A GET from the parent; the latencies are 32-bit values. -/
def fetch (lineId : Nat) (type : AccessType) (cycle : Nat) (flags : Flags) (h : Hierarchy) :
    Option (Nat × Hierarchy) :=
  (up (request h p a lineId type cycle flags) h).map fun r =>
    (cycle + (subU64 r.1 cycle % 2^32 + t.parentRTT p) % 2^32, r.2)

def processGetx (lineId cycle : Nat) (flags : Flags) (h : Hierarchy) : Option (Nat × Hierarchy) :=
  match (h p).bcc lineId with
  | .I | .S => (fetch t up p a lineId .getx cycle flags h).map fun r => (r.1, r.2.setState p lineId .M)
  | .E => some (cycle, h.setState p lineId .M)
  | .M => some (cycle, h)

section

variable (lineId : Nat) (type : AccessType) (cycle : Nat) (flags : Flags) (h : Hierarchy)

def processType : Option (Nat × Hierarchy) :=
  match type with
  | .puts => (assertThat ((h p).bcc lineId ≠ .I)).map fun _ => (cycle, h)
  | .putx => (toModified h p lineId).map fun h => (cycle, h)
  | .gets =>
    if (h p).bcc lineId = .I then fetch t up p a lineId .gets cycle flags h else some (cycle, h)
  | .getx =>
    (processGetx t up p a lineId cycle flags h).bind fun r =>
    (assertThat ((r.2 p).bcc lineId = .M)).map fun _ => r
  | _ => none

def processAccess : Option (Nat × Hierarchy) :=
  (processType t up p a lineId type cycle flags h).bind fun r =>
  (assertThat (cycle ≤ r.1)).map fun _ => r

end

/-- A writeback that the directory induced while it served an access. -/
def processWritebackOnAccess : Option Hierarchy :=
  toModified h p lineId

def processInval (type : InvType) (reqWriteback : Bool) (h : Hierarchy) :
    Option (Bool × Hierarchy) :=
  let state := (h p).bcc lineId
  if state = .I then some (reqWriteback, h)
  else
    match type with
    | .invx =>
      (assertThat (state = .E ∨ state = .M)).map fun _ =>
        (reqWriteback || state == .M, h.setState p lineId .S)
    | .inv => some (reqWriteback || state == .M, h.setState p lineId .I)
    | .fwd => (assertThat (state = .S)).map fun _ => (reqWriteback, h)

end MESIBottomCC

namespace MESITopCC

structure Sent where
  maxCycle : Nat
  reqWriteback : Bool
  sentInvs : Nat
  caches : Hierarchy

variable (t : Topology) (down : Lower) (p : Path) (lineId : Nat) (a : Address) (type : InvType)

def Sent.reply (c : Nat) (s : Sent) (r : InvReply) : Sent :=
  let e := (r.caches p).tcc lineId
  { maxCycle := max (r.cycle + t.childRTT (c :: p)) s.maxCycle
    reqWriteback := r.reqWriteback
    sentInvs := s.sentInvs + 1
    caches :=
      if type = .inv then
        r.caches.setEntry p lineId { e with sharers := update e.sharers c false }
      else r.caches }

/-- The children's turn in `sendInvalidates`: those with a sharer bit whose array has
the line are invalidated. -/
def sendLoop (t : Topology) (down : Lower) (p : Path) (a : Address) (lineId : Nat) (type : InvType)
    (cycle : Nat) : List Nat → Sent → Option Sent
  | [], s => some s
  | c :: cs, s =>
    if ((s.caches p).tcc lineId).sharers c = true ∧
        (t.lookup (c :: p) (s.caches (c :: p)).array a).isSome then
      (down (c :: p) a type s.reqWriteback cycle s.caches).bind fun r =>
        sendLoop t down p a lineId type cycle cs (s.reply t p lineId type c r)
    else sendLoop t down p a lineId type cycle cs s

/-- The end of `sendInvalidates`: the directory entry once all children were told. -/
def settle (s : Sent) : Option InvReply :=
  let e := (s.caches p).tcc lineId
  (assertThat (s.sentInvs = e.numSharers)).bind fun _ =>
    if type = .inv then
      some ⟨s.maxCycle, s.reqWriteback, s.caches.setEntry p lineId { e with numSharers := 0 }⟩
    else
      (assertThat (e.exclusive = true ∧ e.numSharers = 1)).map fun _ =>
        ⟨s.maxCycle, s.reqWriteback, s.caches.setEntry p lineId { e with exclusive := false }⟩

def sendInvalidates (lineId : Nat) (type : InvType) (reqWriteback : Bool) (cycle : Nat)
    (h : Hierarchy) : Option InvReply :=
  let e := (h p).tcc lineId
  if type = .invx ∧ e.isExclusive = false then some ⟨cycle, reqWriteback, h⟩
  else if e.isEmpty then some ⟨cycle, reqWriteback, h⟩
  else
    (sendLoop t down p a lineId type cycle (List.range (t.numChildren p))
      ⟨cycle, reqWriteback, 0, h⟩).bind (settle p lineId type)

def processEviction (wbLineAddr : Address) (lineId : Nat) (reqWriteback : Bool) (cycle : Nat)
    (h : Hierarchy) : Option InvReply :=
  sendInvalidates t down p wbLineAddr lineId .inv reqWriteback cycle h

def grant (childState : StateRef) (e : Entry) (s : MESIState) (r : InvReply) : InvReply :=
  { r with caches := (r.caches.setEntry p lineId e).write childState s }

section

variable (lineId childId : Nat) (childState : StateRef) (inducedWriteback : Bool) (cycle : Nat)
  (h : Hierarchy)

def release : Option InvReply :=
  let e := (h p).tcc lineId
  (assertThat (e.sharers childId = true)).map fun _ =>
    grant p lineId childState (e.drop childId) .I ⟨cycle, inducedWriteback, h⟩

/-- A GETS that is answered in S: an exclusive sharer is downgraded first. -/
def share : Option InvReply :=
  let e := (h p).tcc lineId
  (assertThat (e.sharers childId = false)).bind fun _ =>
  (if e.isExclusive then sendInvalidates t down p a lineId .invx inducedWriteback cycle h
    else some ⟨cycle, inducedWriteback, h⟩).bind fun r =>
  let e := (r.caches p).tcc lineId
  (assertThat (e.isExclusive = false)).map fun _ =>
    grant p lineId childState { e.add childId with exclusive := false } .S r

end

def dropRequester (lineId childId : Nat) (h : Hierarchy) : Option Hierarchy :=
  let e := (h p).tcc lineId
  if e.sharers childId = true then
    (assertThat (e.isExclusive = false)).map fun _ => h.setEntry p lineId (e.drop childId)
  else some h

/-- A GETX: all other copies are invalidated, and the line is given in M. -/
def own (lineId childId : Nat) (childState : StateRef) (inducedWriteback : Bool) (cycle : Nat)
    (h : Hierarchy) : Option InvReply :=
  (dropRequester p lineId childId h).bind fun h =>
  (sendInvalidates t down p a lineId .inv inducedWriteback cycle h).bind fun r =>
  let e := { ((r.caches p).tcc lineId).add childId with exclusive := true }
  (assertThat (e.numSharers = 1)).map fun _ => grant p lineId childState e .M r

def processAccess (lineId : Nat) (type : AccessType) (childId : Nat) (haveExclusive : Bool)
    (childState : StateRef) (inducedWriteback : Bool) (cycle : Nat) (flags : Flags) (h : Hierarchy)
    : Option InvReply :=
  let e := (h p).tcc lineId
  match type with
  | .putx =>
    (assertThat (e.isExclusive = true)).bind fun _ =>
      if flags.putxKeepExcl then
        (assertThat (e.sharers childId = true ∧ h.read childState = .M)).map fun _ =>
          ⟨cycle, inducedWriteback, h.write childState .E⟩
      else release p lineId childId childState inducedWriteback cycle h
  | .puts => release p lineId childId childState inducedWriteback cycle h
  | .gets =>
    if e.isEmpty = true ∧ haveExclusive = true ∧ flags.noExcl = false then
      some (grant p lineId childState ⟨1, update e.sharers childId true, true⟩ .E
        ⟨cycle, inducedWriteback, h⟩)
    else share t down p a lineId childId childState inducedWriteback cycle h
  | .getx =>
    (assertThat (haveExclusive = true)).bind fun _ =>
      own t down p a lineId childId childState inducedWriteback cycle h
  | _ => none

def processInval (lineId : Nat) (type : InvType) (reqWriteback : Bool) (cycle : Nat) (h : Hierarchy)
    : Option InvReply :=
  if type = .fwd then some ⟨cycle, reqWriteback, h⟩
  else sendInvalidates t down p a lineId type reqWriteback cycle h

end MESITopCC

end Shma.Cache
