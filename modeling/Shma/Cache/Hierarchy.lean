import Shma.Cache.Controllers

/-!
# The cache hierarchy

`Cache::access`, `Cache::invalidate` and `FilterCache::invalidate` over the
controllers `MESICC` and `MESITerminalCC`, tied together along the tree: a
request of cache `c :: p` goes to cache `p`, one of the root to the memory, and
an invalidation goes down to the children. A cache without children is terminal:
it has a `MESITerminalCC` and is a `FilterCache`.
-/
namespace Shma.Cache

/-- The address `-1L`, which no line has. -/
def noAddr : Address := 2^64 - 1

namespace Topology

variable (t : Topology)

def isTerminal (p : Path) : Prop := t.numChildren p = 0
  deriving Decidable

def filterIdx (p : Path) (a : Address) : Nat := a &&& (t.numSets p - 1)

/-- `FilterCache::invalidate` drops the filter entry that reads the line. -/
def clearFilter (p : Path) (a : Address) (f : Nat → FilterEntry) : Nat → FilterEntry :=
  if (f (t.filterIdx p a)).rdAddr = a then
    update f (t.filterIdx p a) { f (t.filterIdx p a) with wrAddr := noAddr, rdAddr := noAddr }
  else f

def Node : Path → Prop
  | [] => True
  | c :: p => c < t.numChildren p ∧ Node p

instance decidableNode : ∀ p, Decidable (t.Node p)
  | [] => isTrue trivial
  | c :: p =>
    have := decidableNode p
    inferInstanceAs (Decidable (c < t.numChildren p ∧ t.Node p))

end Topology

variable (t : Topology) (victim : Path → Nat) (up : Upper) (p : Path) (a : Address)

def processInv (down : Lower) (p : Path) (a : Address) (lineId : Nat) (type : InvType)
    (reqWriteback : Bool) (startCycle : Nat) (h : Hierarchy) : Option InvReply :=
  if t.isTerminal p then
    (MESIBottomCC.processInval p lineId type reqWriteback h).map fun r => ⟨startCycle, r.1, r.2⟩
  else
    (MESITopCC.processInval t down p a lineId type reqWriteback startCycle h).bind fun r =>
    (MESIBottomCC.processInval p lineId type r.reqWriteback r.caches).map fun b => ⟨r.cycle, b.1, b.2⟩

/-- `Cache::invalidate`, after the filter of a terminal cache was looked at. -/
def cacheInvalidate (down : Lower) (p : Path) (a : Address) (type : InvType) (reqWriteback : Bool)
    (reqCycle : Nat) (h : Hierarchy) : Option InvReply :=
  let h := if t.isTerminal p then h.setFilter p (t.clearFilter p a (h p).filterArray) else h
  match t.lookup p (h p).array a with
  | some lineId => processInv t down p a lineId type reqWriteback (reqCycle + t.invLat p) h
  | none => some ⟨reqCycle, reqWriteback, h⟩

def invalidateAt (t : Topology) : Nat → Lower
  | 0 => cacheInvalidate t fun _ _ _ _ _ _ => none
  | n + 1 => cacheInvalidate t (invalidateAt t n)

def invalidate : Lower := fun p => invalidateAt t (t.depth - p.length) p

def memState (req : Request) : Option MESIState :=
  match req.type with
  | .puts | .putx => some .I
  | .gets => some (if req.flags.noExcl then .S else .E)
  | .getx => some .M
  | _ => none

/-- `NVMainMemory::access`, as far as the caches see it. -/
def memAccess : Upper := fun req h =>
  (memState req).bind fun s =>
  (assertThat (req.cycle < req.cycle + t.minLatency)).map fun _ =>
    (req.cycle + t.minLatency, h.write req.state s)

/-- `startAccess` of the two controllers: whether to skip the access, and its type. -/
def startAccess (req : Request) (h : Hierarchy) : Option (Bool × AccessType) :=
  (if t.isTerminal p then assertThat (req.type = .gets ∨ req.type = .getx)
    else assertThat (req.type = .gets ∨ req.type = .getx ∨ req.type = .puts ∨ req.type = .putx)).bind fun _ =>
  checkForMESIRace req.type (h.read req.state) req.initialState

/-- `shouldAllocate`: a PUT that misses means that inclusion was lost. -/
def shouldAllocate (type : AccessType) : Option Unit := assertThat (type = .gets ∨ type = .getx)

def processEviction (wbLineAddr : Address) (lineId startCycle : Nat) (h : Hierarchy) :
    Option (Nat × Hierarchy) :=
  if t.isTerminal p then MESIBottomCC.processEviction up p wbLineAddr lineId false startCycle h
  else
    (MESITopCC.processEviction t (invalidate t) p wbLineAddr lineId false startCycle h).bind fun r =>
    MESIBottomCC.processEviction up p wbLineAddr lineId r.reqWriteback r.cycle r.caches

/-- The line id of a request, after a miss the one of the victim, whose line was evicted. -/
def findLine (type : AccessType) (cycle : Nat) (h : Hierarchy) : Option (Nat × Hierarchy) :=
  match t.lookup p (h p).array a with
  | some lineId => some (lineId, h)
  | none =>
    (shouldAllocate type).bind fun _ =>
    (processEviction t up p ((h p).array (victim p)) (victim p) cycle h).map fun r =>
      (victim p, r.2.setTag p (victim p) a)

/-- The directory's part of `MESICC::processAccess`. -/
def serveChild (req : Request) (lineId respCycle : Nat) (h : Hierarchy) :
    Option (Nat × Hierarchy) :=
  (MESITopCC.processAccess t (invalidate t) p req.lineAddr lineId req.type req.childId
    (MESIBottomCC.isExclusive h p lineId) req.state false respCycle
    { req.flags with prefetch := false } h).bind fun r =>
  (if r.reqWriteback then MESIBottomCC.processWritebackOnAccess p lineId r.caches
    else some r.caches).map fun h => (r.cycle, h)

def processAccess (req : Request) (lineId startCycle : Nat) (h : Hierarchy) :
    Option (Nat × Hierarchy) :=
  if t.isTerminal p then
    MESIBottomCC.processAccess t up p req.lineAddr lineId req.type startCycle req.flags h
  else
    -- a PUT on a line that is not valid would be a non-inclusive writeback
    (assertThat ((req.type = .puts ∨ req.type = .putx) → (h p).bcc lineId ≠ .I)).bind fun _ =>
    (assertThat (req.flags.prefetch = true → req.type = .gets)).bind fun _ =>
    (MESIBottomCC.processAccess t up p req.lineAddr lineId req.type startCycle
      { req.flags with prefetch := false } h).bind fun r =>
    -- a prefetch does not reach the directory
    if req.flags.prefetch then some r else serveChild t p req lineId r.1 r.2

def cacheAccess (up : Upper) : Upper := fun req h =>
  (startAccess t p req h).bind fun st =>
  (if st.1 then some (req.cycle, h)
    else
      (findLine t victim up p req.lineAddr st.2 (req.cycle + t.accLat p) h).bind fun l =>
        processAccess t up p { req with type := st.2 } l.1 (req.cycle + t.accLat p) l.2).bind fun r =>
  (assertThat (req.cycle ≤ r.1)).map fun _ => r

def access (t : Topology) (victim : Path → Nat) : Path → Upper
  | [] => cacheAccess t victim [] (memAccess t)
  | c :: p => cacheAccess t victim (c :: p) (access t victim p)

def parent : Path → Upper
  | [] => memAccess t
  | _ :: p => access t victim p

theorem access_eq (victim : Path → Nat) (p : Path) :
    access t victim p = cacheAccess t victim p (parent t victim p) := by
  cases p <;> rfl

theorem gets_or_getx (isLoad : Bool) :
    (if isLoad then AccessType.gets else .getx) = .gets ∨ (if isLoad then AccessType.gets else .getx) = .getx := by
  cases isLoad
  · exact .inr rfl
  · exact .inl rfl

def coreRequest (type : AccessType) (cycle : Nat) (flags : Flags) : Request :=
  { lineAddr := a, type := type, childId := 0, cycle := cycle, state := .dummy, initialState := .I, flags := flags }

/-! ### `FilterCache` -/

namespace FilterCache

variable (t : Topology) (victim : Path → Nat) (up : Upper) (p : Path)

/-- A miss in the filter array: the cache is accessed, and the entry of the set taken over. -/
def replace (vLineAddr : Address) (isLoad : Bool) (curCycle : Nat) (reqFlags : Flags) (h : Hierarchy) :
    Option (Nat × Hierarchy) :=
  (cacheAccess t victim p up (coreRequest vLineAddr (if isLoad then .gets else .getx) curCycle reqFlags) h).map
    fun r =>
      let idx := t.filterIdx p vLineAddr
      let f := (r.2 p).filterArray
      (r.1, r.2.setFilter p (update f idx
        { rdAddr := vLineAddr
          wrAddr := if isLoad then noAddr else vLineAddr
          availCycle := if (f idx).rdAddr ≠ vLineAddr then r.1 else (f idx).availCycle }))

def entry (h : Hierarchy) (a : Address) : FilterEntry := (h p).filterArray (t.filterIdx p a)

section

variable (lineBits : Nat) (vAddr : Address) (curCycle : Nat) (reqFlags : Flags) (h : Hierarchy)

def load : Option (Nat × Hierarchy) :=
  let vLineAddr := vAddr >>> lineBits
  if vLineAddr = (entry t p h vLineAddr).rdAddr then
    some (max curCycle (entry t p h vLineAddr).availCycle, h)
  else replace t victim up p vLineAddr true curCycle reqFlags h

def store : Option (Nat × Hierarchy) :=
  let vLineAddr := vAddr >>> lineBits
  if vLineAddr = (entry t p h vLineAddr).wrAddr then
    some (max curCycle (entry t p h vLineAddr).availCycle, h)
  else replace t victim up p vLineAddr false curCycle reqFlags h

end

section

variable (root : Address → Nat → Hierarchy → Option (Nat × Hierarchy)) (a : Address)

/-- `Cache::clflush_all` of a terminal cache: if its array has the line, the topmost cache is
invalidated. A terminal cache right below the memory has no such cache, and a null pointer is
followed. -/
def clflushAll (cycle : Nat) (h : Hierarchy) : Option (Nat × Hierarchy) :=
  match t.lookup p (h p).array a with
  | none => some (cycle, h)
  | some _ => if p = [] then none else root a cycle h

/-- `clflush`: the response cycle, `is_dirty`, and the caches. -/
def clflush (curCycle : Nat) (flushAll : Bool) (h : Hierarchy) : Option (Nat × Bool × Hierarchy) :=
  let e := entry t p h a
  if flushAll = false then
    (if (t.lookup p (h p).array a).isSome then clflushAll t p root a curCycle h else some (curCycle, h)).map
      fun r => (r.1, decide (a = e.wrAddr), r.2)
  else if a = e.rdAddr ∨ a = e.wrAddr then
    (clflushAll t p root a curCycle h).map fun r => (r.1, decide (a = e.wrAddr), r.2)
  else some (curCycle, false, h)

end

def contextSwitch (h : Hierarchy) : Hierarchy := h.setFilter p fun _ => .clear

end FilterCache

end Shma.Cache
