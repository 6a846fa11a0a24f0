import Shma.Nvmain.NVMainMemoryRuns

/-!
# Requests that NVMain refuses

`NVMainMemory::enqueue` asks `IsIssuable` before it calls `IssueCommand`, and queues the access
event again if a request is not issuable. What `IssueCommand` returns is only used for statistics: a
request that it refuses is recorded as one in flight, and its access event is held for it.
-/
namespace Shma.Nvmain

open Lib.Run

namespace MemorySession

variable (s : MemorySession)

def refuse (request : Nat) : MemorySession :=
  { s with
    mem.requests.issued := s.mem.requests.issued.filter fun r => r.1 ≠ request }

/-- A call, with what `IssueCommand` returns if it is reached. -/
def issueStep : Call × Bool → Option MemorySession
  | (.access ev cycle request true completions, false) =>
    (step s (.access ev cycle request true completions)).map fun s => s.refuse request
  | (c, _) => step s c

def Accepted : Call × Bool → Prop
  | (.access _ _ _ issuable _, accepted) => issuable = true → accepted = true
  | (.sched _ _ _, _) => True

/-- NVMain holds the requests in flight, and the one that the scheduler waits for. -/
def HoldsInflight : Prop :=
  (∀ it ∈ s.mem.requests.inflightRequests, (it.request, it.ev) ∈ s.mem.requests.issued) ∧
  ∀ r, s.mem.requests.nextSchedRequest = some r → r ∈ s.mem.requests.issued.map Prod.fst

/-- The access event of a request that is refused at either point is queued again. -/
def Retried : Call × Bool → Prop
  | (.access ev _ _ issuable _, accepted) => (issuable && accepted) = false → s.mem.requests.accEvents ev = .queued
  | (.sched _ _ _, _) => True

def LeavesAccepted (c : Call × Bool) : Prop :=
  ∀ t, issueStep s c = some t → t.HoldsInflight ∧ t.Retried c

theorem issueStep_of_accepted {c : Call × Bool} (h : Accepted c) (s : MemorySession) : issueStep s c = step s c.1 := by
  obtain ⟨_ | _, accepted⟩ := c
  · rename_i issuable _
    cases issuable <;> cases accepted
    case true.false => exact absurd (h rfl) Bool.false_ne_true
    all_goals rfl
  · rfl

theorem holdsInflight_of_inv {s : MemorySession} (h : s.mem.Inv s.now) : s.HoldsInflight := by
  have hissued := h.served.issued
  refine ⟨fun it hit => ?_, fun r hr => ?_⟩
  · rw [hissued]
    exact List.mem_map_of_mem hit
  · rw [hissued, List.map_map]
    exact h.served.next r hr

variable {s : MemorySession} {c : Call × Bool} (h : s.mem.Inv s.now) (hallowed : Allowed s c.1)
include h hallowed

theorem leavesAccepted_of_accepted (hacc : Accepted c) : LeavesAccepted s c := by
  obtain ⟨t, hstep, hinv⟩ := step_inv h hallowed
  intro u hu
  rw [issueStep_of_accepted hacc, hstep] at hu
  cases hu
  refine ⟨holdsInflight_of_inv hinv, ?_⟩
  obtain ⟨_ | _, accepted⟩ := c
  · rename_i ev cycle request issuable completions
    obtain ⟨hev, hnow, hnew, hc⟩ := hallowed
    obtain ⟨mem, hmem, -, hstate, -⟩ := h.runAccess hev hnow hnew hc issuable
    have hu : t = ⟨mem, cycle⟩ := by
      have : step s (.access ev cycle request issuable completions) = some ⟨mem, cycle⟩ := congrArg (Option.map _) hmem
      rw [this] at hstep
      exact (some_inj.mp hstep).symm
    intro hrefused
    rw [hu]
    cases issuable with
    | false => exact hstate
    | true => rw [hacc rfl] at hrefused; cases hrefused
  · trivial

theorem not_leavesAccepted (hacc : ¬ Accepted c) : ¬ LeavesAccepted s c := by
  obtain ⟨_ | _, accepted⟩ := c
  · rename_i ev cycle request issuable completions
    obtain ⟨rfl, hfalse⟩ := Classical.not_imp.mp hacc
    obtain rfl := eq_false_iff.mpr hfalse
    obtain ⟨hev, hnow, hnew, hc⟩ := hallowed
    obtain ⟨mem, hmem, -, -, hin⟩ := h.runAccess hev hnow hnew hc true
    have hstep : step s (.access ev cycle request true completions) = some ⟨mem, cycle⟩ := congrArg (Option.map _) hmem
    intro hleaves
    obtain ⟨⟨hheld, -⟩, -⟩ := hleaves _ (congrArg (Option.map fun s => refuse s request) hstep)
    obtain ⟨it, hit, rfl⟩ := mem_map.mp (hin rfl)
    exact of_decide_eq_true (List.mem_filter.mp (hheld it hit)).2 rfl
  · exact absurd trivial hacc

omit h hallowed

/-- Whatever the calls, their completions and what NVMain answers: each call leaves only accepted
requests in flight and queues the access events of the others again exactly if `IssueCommand` never
refuses what `IsIssuable` let pass. -/
theorem only_accepted_inflight_iff (minLatency : Nat) (calls : List (Call × Bool))
    (hallowed : AllSteps issueStep (fun s c => Allowed s c.1) (new minLatency) calls) :
    AllSteps issueStep LeavesAccepted (new minLatency) calls ↔ ∀ c ∈ calls, Accepted c := by
  suffices hgen : ∀ s : MemorySession, s.mem.Inv s.now → AllSteps issueStep (fun s c => Allowed s c.1) s calls →
      (AllSteps issueStep LeavesAccepted s calls ↔ ∀ c ∈ calls, Accepted c) from
    hgen _ (inv_new minLatency) hallowed
  clear hallowed
  induction calls with
  | nil => exact fun _ _ _ => iff_of_true trivial (forall_mem_nil _)
  | cons c calls ih =>
    intro s h ⟨hc, hcalls⟩
    rw [forall_mem_cons]
    by_cases hacc : Accepted c
    · obtain ⟨t, hstep, hinv⟩ := step_inv h hc
      rw [← issueStep_of_accepted hacc] at hstep
      rw [and_iff_right hacc, ← ih t hinv (hcalls t hstep)]
      refine ⟨fun hall => hall.2 t hstep, fun hall => ⟨leavesAccepted_of_accepted h hc hacc, fun u hu => ?_⟩⟩
      rw [hstep] at hu
      cases hu
      exact hall
    · exact iff_of_false (fun hall => not_leavesAccepted h hc hacc hall.1) fun hall => hacc hall.1

/-- A request that is accepted and one that is not issuable. -/
theorem only_accepted_inflight_two :
    let calls : List (Call × Bool) := [(.access 1 0 100 true [], true), (.access 2 3 101 false [], false)]
    AllSteps issueStep (fun s c => Allowed s c.1) (new 10) calls ∧ AllSteps issueStep LeavesAccepted (new 10) calls := by
  intro calls
  have hallowed : AllSteps issueStep (fun s c => Allowed s c.1) (new 10) calls := by decide +kernel
  refine ⟨hallowed, (only_accepted_inflight_iff 10 calls hallowed).mpr ?_⟩
  simp [calls, Accepted]

/-- A request that is refused after it was found issuable: it is the one that the scheduler waits
for, its access event is held, and NVMain does not hold it. -/
theorem refused_request_inflight :
    let calls : List (Call × Bool) := [(.access 1 0 100 true [], false)]
    AllSteps issueStep (fun s c => Allowed s c.1) (new 10) calls ∧
      (run issueStep (new 10) calls).map (fun s =>
        (s.mem.requests.inflightRequests.map Inflight.request, s.mem.requests.nextSchedRequest,
          s.mem.requests.accEvents 1, s.mem.requests.issued)) = some ([100], some 100, .held, []) := by
  decide +kernel

end MemorySession

end Shma.Nvmain
