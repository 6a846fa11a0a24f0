import Mathlib.Data.List.Nodup
import Shma.Common.Const
import Shma.Lib.Run

/-!
# The memory controller in the event-driven phase

`NVMainMemory` of `nvmain_mem_ctrl.cpp` with its `SchedEventNVMain`, and the states of
`TimingEvent` that the two rely on. An access event that runs issues a request to NVMain and
is held until the request completes. NVMain completes requests only while its global event
queue is cycled, which both `enqueue` and `tick` do, so `RequestComplete` is called from within
the two. One scheduling event at a time is queued to cycle NVMain; when nothing is in flight it
goes to a free list.

Requests and events are named by their addresses: requests and access events by any number, the
scheduling events by the order of their allocation. Statistics, the children of access events
and the cycles handed on to them are left out; events that run have no parents left.
-/
namespace Shma.Nvmain

open Lib.Run

inductive EventState where
  | none | queued | running | held | done
  deriving DecidableEq

namespace EventState

variable (e : EventState)

/-- `run`, before it calls `simulate`. -/
def start : Option EventState := (assertThat (e = .none ∨ e = .queued)).map fun _ => .running

/-- `run`, after it has called `simulate`. -/
def finish : Option EventState :=
  (assertThat (e = .done ∨ e = .queued ∨ e = .held)).map fun _ => e

def hold : Option EventState := (assertThat (e = .running)).map fun _ => .held

def release : Option EventState := (assertThat (e = .held)).map fun _ => .running

def finished : Option EventState := (assertThat (e = .running)).map fun _ => .done

def requeue : Option EventState :=
  (assertThat (e = .running ∨ e = .held)).map fun _ => .queued

end EventState

/-! ### Requests in flight -/

structure Inflight where
  (request ev minFinish : Nat)
  deriving DecidableEq

/-- What `RequestComplete` works on, with the states of the access events. It is noted which
requests NVMain has not completed and which it has, each with the access event it was issued for,
and which access events were released. -/
structure Requests where
  inflightRequests : List Inflight
  nextSchedRequest : Option Nat
  accEvents : Nat → EventState
  (issued completed : List (Nat × Nat))
  released : List Nat

namespace Requests

variable (q : Requests)

def access (ev : Nat) (f : EventState → Option EventState) : Option Requests :=
  (f (q.accEvents ev)).map fun e => { q with accEvents := update q.accEvents ev e }

def release (ev : Nat) : Option Requests :=
  (q.access ev EventState.release).map fun q => { q with released := q.released ++ [ev] }

def requestComplete (creq : Nat) : Option Requests :=
  (assertThat (0 < q.inflightRequests.length)).bind fun _ =>
  (q.inflightRequests.find? fun it => it.request = creq).bind fun it =>
  (q.release it.ev).bind fun q =>
  (q.access it.ev EventState.finished).map fun q =>
    { q with
      nextSchedRequest := if q.nextSchedRequest = some creq then none else q.nextSchedRequest
      inflightRequests := q.inflightRequests.erase it }

def complete (creq : Nat) : Option Requests :=
  requestComplete
    { q with
      issued := q.issued.filter fun r => r.1 ≠ creq
      completed := q.completed ++ q.issued.filter fun r => r.1 = creq }
    creq

def issue (ev request minFinish : Nat) : Option Requests :=
  (q.access ev EventState.hold).map fun q =>
    { q with
      issued := q.issued ++ [(request, ev)]
      inflightRequests := q.inflightRequests ++ [⟨request, ev, minFinish⟩] }

end Requests

/-! ### Scheduling events -/

/-- The states of `SchedEventNVMain`. -/
inductive SchedState where
  | idle | queued | running | annulled
  deriving DecidableEq

/-- A `SchedEventNVMain`: its state as a `TimingEvent`, its own state, the next event of the free
list and the cycle for which it was queued last. -/
structure SchedEvent where
  timing : EventState
  state : SchedState
  next : Option Nat
  privCycle : Nat
  deriving DecidableEq

namespace SchedEvent

def new : SchedEvent := ⟨.held, .idle, none, 0⟩

def hold (e : SchedEvent) : Option SchedEvent := e.timing.hold.map fun timing => { e with timing }

def requeue (e : SchedEvent) (cycle : Nat) : Option SchedEvent :=
  e.timing.requeue.map fun timing => { e with timing, privCycle := cycle }

def enqueue (e : SchedEvent) (cycle : Nat) : Option SchedEvent :=
  (assertThat (e.state = .idle)).bind fun _ => { e with state := .queued }.requeue cycle

end SchedEvent

/-- The scheduling events that were allocated and the pointers to them. -/
structure Scheduling where
  schedEvents : List SchedEvent
  (nextSchedEvent eventFreelist : Option Nat)
  deriving DecidableEq

namespace Scheduling

def modify (q : Scheduling) (i : Nat) (f : SchedEvent → Option SchedEvent) : Option Scheduling :=
  q.schedEvents[i]?.bind fun e => (f e).map fun e' => { q with schedEvents := q.schedEvents.set i e' }

def recycleEvent (q : Scheduling) (i : Nat) : Option Scheduling :=
  (assertThat (q.nextSchedEvent ≠ some i)).bind fun _ =>
  (q.modify i fun e => (assertThat (e.next = none)).map fun _ => { e with next := q.eventFreelist }).map fun q =>
    { q with eventFreelist := some i }

def takeEvent (q : Scheduling) : Option (Scheduling × Nat) :=
  match q.eventFreelist with
  | some i => q.schedEvents[i]?.map fun e =>
      (⟨q.schedEvents.set i { e with next := none }, some i, e.next⟩, i)
  | none => some (⟨q.schedEvents ++ [.new], some q.schedEvents.length, none⟩, q.schedEvents.length)

inductive OnFreelist (q : Scheduling) : Nat → Prop
  | head {i : Nat} : q.eventFreelist = some i → OnFreelist q i
  | next {i j : Nat} {e : SchedEvent} :
      OnFreelist q i → q.schedEvents[i]? = some e → e.next = some j → OnFreelist q j

end Scheduling

/-! ### The controller -/

structure NVMainMemory where
  (minLatency updateCycle : Nat)
  requests : Requests
  scheduling : Scheduling

namespace NVMainMemory

def new (minLatency : Nat) : NVMainMemory :=
  ⟨minLatency, 0, ⟨[], none, fun _ => .none, [], [], []⟩, ⟨[], none, none⟩⟩

variable (m : NVMainMemory)

/-- NVMain is cycled up to a cycle and completes some requests. The number of cycles is unsigned, so
it is required that the cycle is not before the one NVMain was updated to. -/
def cycle (target : Nat) (completions : List Nat) : Option NVMainMemory :=
  (assertThat (m.updateCycle ≤ target)).bind fun _ =>
  (run Requests.complete m.requests completions).map fun requests => { m with requests, updateCycle := target }

/-- `tick`: the cycle for which the scheduling event is queued again, or zero. -/
def tick (cycle : Nat) (completions : List Nat) : Option (NVMainMemory × Nat) :=
  (m.cycle (cycle + 1) completions).bind fun m =>
  (assertThat (m.scheduling.nextSchedEvent ≠ none)).map fun _ =>
    if m.requests.nextSchedRequest ≠ none then (m, cycle + 1)
    else match m.requests.inflightRequests with
      | [] =>
        ({ m with
          scheduling := { m.scheduling with nextSchedEvent := none }
          requests := { m.requests with nextSchedRequest := none } }, 0)
      | r :: _ =>
        ({ m with requests := { m.requests with nextSchedRequest := some r.request } },
          if r.minFinish ≤ cycle then cycle + 1 else r.minFinish)

def retire (i : Nat) : Option NVMainMemory :=
  (m.scheduling.modify i fun e => SchedEvent.hold { e with state := .idle }).bind fun scheduling =>
  (scheduling.recycleEvent i).map fun scheduling => { m with scheduling }

def simulate (i startCycle : Nat) (completions : List Nat) : Option NVMainMemory :=
  m.scheduling.schedEvents[i]?.bind fun ev =>
    if ev.state = .queued then
      (m.scheduling.modify i fun e => some { e with state := .running }).bind fun scheduling =>
      ({ m with scheduling }.tick startCycle completions).bind fun (m, nextCycle) =>
        if nextCycle ≠ 0 then
          (m.scheduling.modify i fun e => SchedEvent.requeue { e with state := .queued } nextCycle).map
            fun scheduling => { m with scheduling }
        else m.retire i
    else (assertThat (ev.state = .annulled)).bind fun _ => m.retire i

/-- The event handling of `enqueue`, after a request was issued. -/
def schedule (request cycle : Nat) : Option NVMainMemory :=
  if m.scheduling.nextSchedEvent = none then
    (assertThat (m.requests.inflightRequests.length = 1)).bind fun _ =>
    m.scheduling.takeEvent.bind fun (scheduling, i) =>
    (scheduling.modify i fun e => e.enqueue (cycle + m.minLatency)).map fun scheduling =>
      { m with scheduling, requests := { m.requests with nextSchedRequest := some request } }
  else some m

section

variable (ev cycle request : Nat) (issuable : Bool) (completions : List Nat)

/-- `enqueue`, with the address of the request that it allocates and what `IsIssuable` returns. -/
def enqueue : Option NVMainMemory :=
  (m.cycle (cycle + 1) completions).bind fun m =>
    if issuable then
      (m.requests.issue ev request (cycle + m.minLatency)).bind fun requests =>
      { m with requests }.schedule request cycle
    else (m.requests.access ev EventState.requeue).map fun requests => { m with requests }

def runAccess : Option NVMainMemory :=
  (m.requests.access ev EventState.start).bind fun requests =>
  ({ m with requests }.enqueue ev cycle request issuable completions).bind fun m =>
  (m.requests.access ev EventState.finish).map fun requests => { m with requests }

end

def runSched (i cycle : Nat) (completions : List Nat) : Option NVMainMemory :=
  (m.scheduling.modify i fun e => e.timing.start.map fun timing => { e with timing }).bind fun scheduling =>
  ({ m with scheduling }.simulate i cycle completions).bind fun m =>
  (m.scheduling.modify i fun e => e.timing.finish.map fun timing => { e with timing }).map fun scheduling =>
    { m with scheduling }

end NVMainMemory

end Shma.Nvmain
