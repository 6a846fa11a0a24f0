import Shma.Nvmain.NVMainMemory

/-!
# Runs of the memory controller

The simulator runs access events, which call `enqueue`, and the scheduling event that is queued,
which calls `tick`. Each completion from within the two keeps what relates the requests in flight,
the access events that are held for them and the requests that NVMain has not completed. There is
never more than one scheduling event: it is free with nothing in flight, or it is queued.
-/
namespace Shma.Nvmain

open Lib.Run
open Function (update_idem)

namespace Requests

/-- Requests in flight are those NVMain has not completed, for different access events that are
held; the access events of completed requests were released, each once, and are done. -/
structure Served (q : Requests) : Prop where
  issued : q.issued = q.inflightRequests.map fun it => (it.request, it.ev)
  requests : (q.inflightRequests.map Inflight.request).Nodup
  events : (q.inflightRequests.map Inflight.ev).Nodup
  held : ∀ it ∈ q.inflightRequests, q.accEvents it.ev = .held
  next : ∀ r, q.nextSchedRequest = some r → r ∈ q.inflightRequests.map Inflight.request
  released : q.released = q.completed.map Prod.snd
  once : q.released.Nodup
  done : ∀ ev ∈ q.released, q.accEvents ev = .done

def Completable (q : Requests) (completions : List Nat) : Prop :=
  completions.Nodup ∧ ∀ r ∈ completions, r ∈ q.issued.map Prod.fst
  deriving Decidable

variable {q q' : Requests} {r ev : Nat}

variable {f : EventState → Option EventState} {e : EventState}

theorem access_eq_some {e' : EventState} (he : q.accEvents ev = e)
    (hf : f e = some e') : q.access ev f = some { q with accEvents := update q.accEvents ev e' } := by
  rw [access, he, hf]
  rfl

theorem access_eq_self (he : q.accEvents ev = e) (hf : f e = some e) : q.access ev f = some q := by
  rw [access_eq_some he hf, ← he, update_eq_self]

theorem release_of_held (h : q.accEvents ev = .held) : q.release ev = some
    { q with accEvents := update q.accEvents ev .running, released := q.released ++ [ev] } :=
  map_eq_some_iff.mpr ⟨_, access_eq_some h rfl, rfl⟩

variable (h : Served q)
include h

theorem Served.inflight_nodup : q.inflightRequests.Nodup := List.Nodup.of_map _ h.requests

theorem Served.eq_of_request {a b : Inflight} (ha : a ∈ q.inflightRequests)
    (hb : b ∈ q.inflightRequests) (heq : a.request = b.request) : a = b :=
  List.inj_on_of_nodup_map h.requests ha hb heq

variable {it : Inflight}

section

variable (hit : it ∈ q.inflightRequests)
include hit

theorem Served.find : (q.inflightRequests.find? fun a => a.request = it.request) = some it := by
  cases hf : q.inflightRequests.find? fun a => a.request = it.request with
  | none =>
    have hne := List.find?_eq_none.mp hf it hit
    exact absurd (decide_eq_true rfl) hne
  | some a =>
    have ha : a.request = it.request := of_decide_eq_true (by simpa using List.find?_some hf)
    rw [h.eq_of_request (List.mem_of_find?_eq_some hf) hit ha]

theorem Served.filter_ne :
    (q.issued.filter fun r => r.1 ≠ it.request) =
      (q.inflightRequests.erase it).map fun it => (it.request, it.ev) := by
  rw [h.issued, List.filter_map, h.inflight_nodup.erase_eq_filter]
  congr 1
  apply List.filter_congr
  intro a ha
  rw [Function.comp_apply, bne, beq_eq_decide, ← decide_not, decide_eq_decide]
  exact not_congr ⟨h.eq_of_request ha hit, congrArg Inflight.request⟩

theorem Served.filter_eq : (q.issued.filter fun r => r.1 = it.request) = [(it.request, it.ev)] := by
  have hone : (q.inflightRequests.filter fun a => a.request = it.request) = [it] := by
    rw [List.filter_congr (q := fun a => a == it) fun a ha => ?_, List.filter_beq,
      List.count_eq_one_of_mem h.inflight_nodup hit]
    · rfl
    · rw [beq_eq_decide, decide_eq_decide]
      exact ⟨h.eq_of_request ha hit, congrArg Inflight.request⟩
  rw [h.issued, List.filter_map]
  exact congrArg (List.map _) hone

theorem Served.complete_eq :
    q.complete it.request = some
      { inflightRequests := q.inflightRequests.erase it
        nextSchedRequest := if q.nextSchedRequest = some it.request then none else q.nextSchedRequest
        accEvents := update q.accEvents it.ev .done
        issued := (q.inflightRequests.erase it).map fun it => (it.request, it.ev)
        completed := q.completed ++ [(it.request, it.ev)]
        released := q.released ++ [it.ev] } := by
  refine assertThat_bind_eq_some.mpr ⟨List.length_pos_of_mem hit, ?_⟩
  refine bind_eq_some_iff.mpr ⟨it, h.find hit, ?_⟩
  refine bind_eq_some_iff.mpr ⟨_, release_of_held (h.held it hit), ?_⟩
  refine map_eq_some_iff.mpr ⟨_, access_eq_some (update_self ..) rfl, ?_⟩
  rw [h.filter_ne hit, h.filter_eq hit, update_idem]

end

theorem Served.complete (hr : r ∈ q.issued.map Prod.fst) :
    ∃ q', q.complete r = some q' ∧ Served q' ∧ q'.inflightRequests.Sublist q.inflightRequests ∧
      (q'.issued = q.issued.filter fun i => i.1 ≠ r) ∧
      ∀ ev, q.accEvents ev ≠ .held → q'.accEvents ev = q.accEvents ev := by
  rw [h.issued, List.map_map] at hr
  obtain ⟨it, hit, rfl⟩ := mem_map.mp hr
  have hsub : (q.inflightRequests.erase it).Sublist q.inflightRequests := List.erase_sublist
  have hother : ∀ a ∈ q.inflightRequests.erase it, a ∈ q.inflightRequests ∧ a ≠ it := by
    intro a ha
    exact (h.inflight_nodup.mem_erase_iff.mp ha).symm
  refine ⟨_, h.complete_eq hit, ?_, hsub, (h.filter_ne hit).symm, fun ev hev => ?_⟩
  · constructor
    case issued => rfl
    case requests => exact h.requests.sublist (hsub.map _)
    case events => exact h.events.sublist (hsub.map _)
    case held =>
      intro a ha
      obtain ⟨hmem, hne⟩ := hother a ha
      have hev : a.ev ≠ it.ev := fun heq => hne (List.inj_on_of_nodup_map h.events hmem hit heq)
      exact (update_of_ne hev ..).trans (h.held a hmem)
    case next =>
      intro r' hr'
      split at hr'
      · cases hr'
      · rename_i hne
        obtain ⟨a, ha, rfl⟩ := mem_map.mp (h.next r' hr')
        refine mem_map.mpr ⟨a, h.inflight_nodup.mem_erase_iff.mpr ⟨?_, ha⟩, rfl⟩
        rintro rfl
        exact hne hr'
    case released =>
      rw [map_append, ← h.released]
      rfl
    case once =>
      refine h.once.append (List.nodup_singleton _) (List.disjoint_singleton.mpr fun hmem => ?_)
      have hdone := h.done it.ev hmem
      rw [h.held it hit] at hdone
      cases hdone
    case done =>
      intro ev hev
      by_cases heq : ev = it.ev
      · rw [heq]
        exact update_self ..
      · refine (update_of_ne heq ..).trans (h.done ev ?_)
        exact (mem_append.mp hev).resolve_right fun hmem => heq (mem_singleton.mp hmem)
  · apply update_of_ne
    rintro rfl
    exact hev (h.held it hit)

theorem Served.setNext {next : Option Nat} (hnext : ∀ r, next = some r → r ∈ q.inflightRequests.map Inflight.request) :
    Served { q with nextSchedRequest := next } :=
  { h with next := hnext }

theorem Served.setEvent (hheld : q.accEvents ev ≠ .held) (hdone : q.accEvents ev ≠ .done)
    (e : EventState) : Served { q with accEvents := update q.accEvents ev e } := by
  refine { h with held := fun it hit => ?_, done := fun ev' hev' => ?_ }
  · refine (update_of_ne ?_ ..).trans (h.held it hit)
    rintro rfl
    exact hheld (h.held it hit)
  · refine (update_of_ne ?_ ..).trans (h.done ev' hev')
    rintro rfl
    exact hdone (h.done ev' hev')

theorem Served.issue (hev : q.accEvents ev = .running) (hr : r ∉ q.inflightRequests.map Inflight.request)
    (minFinish : Nat) :
    ∃ q', q.issue ev r minFinish = some q' ∧ Served q' ∧
      q'.inflightRequests = q.inflightRequests ++ [⟨r, ev, minFinish⟩] ∧ q'.accEvents ev = .held := by
  have hnew : ∀ it ∈ q.inflightRequests, it.ev ≠ ev := by
    rintro it hit rfl
    rw [h.held it hit] at hev
    cases hev
  refine ⟨_, map_eq_some_iff.mpr ⟨_, access_eq_some hev rfl, rfl⟩, ?_, rfl, update_self ..⟩
  constructor
  case issued =>
    rw [map_append, ← h.issued]
    rfl
  case requests =>
    rw [map_append]
    exact h.requests.append (List.nodup_singleton _) (List.disjoint_singleton.mpr hr)
  case events =>
    rw [map_append]
    refine h.events.append (List.nodup_singleton _) (List.disjoint_singleton.mpr fun hmem => ?_)
    obtain ⟨it, hit, heq⟩ := mem_map.mp hmem
    exact hnew it hit heq
  case held =>
    intro it hit
    rcases mem_append.mp hit with hold | hlast
    · exact (update_of_ne (hnew it hold) ..).trans (h.held it hold)
    · rw [mem_singleton.mp hlast]
      exact update_self ..
  case next =>
    intro r' hr'
    rw [map_append]
    exact mem_append_left _ (h.next r' hr')
  case released => exact h.released
  case once => exact h.once
  case done =>
    intro ev' hev'
    refine (update_of_ne ?_ ..).trans (h.done ev' hev')
    rintro rfl
    rw [h.done ev' hev'] at hev
    cases hev

theorem Served.run {completions : List Nat} (hc : q.Completable completions) :
    ∃ q', Lib.Run.run Requests.complete q completions = some q' ∧ Served q' ∧
      q'.inflightRequests.Sublist q.inflightRequests ∧
      ∀ ev, q.accEvents ev ≠ .held → q'.accEvents ev = q.accEvents ev := by
  induction completions generalizing q with
  | nil => exact ⟨q, rfl, h, List.Sublist.refl _, fun _ _ => rfl⟩
  | cons r completions ih =>
    obtain ⟨hnodup, hmem⟩ := hc
    obtain ⟨q1, hstep, h1, hsub1, hissued, hacc1⟩ := h.complete (hmem r mem_cons_self)
    have hc1 : q1.Completable completions := by
      refine ⟨hnodup.of_cons, fun r' hr' => ?_⟩
      obtain ⟨i, hi, rfl⟩ := mem_map.mp (hmem r' (mem_cons_of_mem r hr'))
      rw [hissued]
      refine mem_map.mpr ⟨i, List.mem_filter.mpr ⟨hi, decide_eq_true ?_⟩, rfl⟩
      rintro rfl
      exact (nodup_cons.mp hnodup).1 hr'
    obtain ⟨q', hrun, h', hsub, hacc⟩ := ih h1 hc1
    refine ⟨q', (run_cons_eq_some _).mpr ⟨q1, hstep, hrun⟩, h', hsub.trans hsub1, fun ev hev => ?_⟩
    have hev1 := hacc1 ev hev
    exact (hacc ev (hev1 ▸ hev)).trans hev1

end Requests

theorem Scheduling.event_of_single {e x : SchedEvent} {i : Nat} (h : [x][i]? = some e) : i = 0 ∧ e = x := by
  cases i with
  | zero => exact ⟨rfl, (some_inj.mp h).symm⟩
  | succ i => cases h

theorem Scheduling.not_onFreelist {q : Scheduling} {i : Nat} (h : q.eventFreelist = none) : ¬ q.OnFreelist i := by
  intro hi
  induction hi with
  | head hhead =>
    rw [h] at hhead
    cases hhead
  | next _ _ _ ih => exact ih

namespace NVMainMemory

/-- With no event scheduled nothing is in flight; the one scheduling event is free or queued. -/
inductive Scheduled : Scheduling → List Inflight → Prop
  | fresh : Scheduled ⟨[], none, none⟩ []
  | free (cycle : Nat) : Scheduled ⟨[⟨.held, .idle, none, cycle⟩], none, some 0⟩ []
  | queued (cycle : Nat) (l : List Inflight) : Scheduled ⟨[⟨.queued, .queued, none, cycle⟩], some 0, none⟩ l

namespace Scheduled

variable {q : Scheduling} {l : List Inflight} {i : Nat}

theorem next_of_queued {e : SchedEvent} (h : Scheduled q l) (hi : q.schedEvents[i]? = some e)
    (he : e.state = .queued ∨ e.timing = .queued) : q.nextSchedEvent = some i := by
  cases h with
  | fresh => cases hi
  | free c =>
    obtain ⟨-, rfl⟩ := Scheduling.event_of_single hi
    rcases he with he | he <;> cases he
  | queued c l =>
    obtain ⟨rfl, -⟩ := Scheduling.event_of_single hi
    rfl

theorem exists_queued (h : Scheduled q l) (hl : l ≠ []) :
    ∃ i e, q.nextSchedEvent = some i ∧ q.schedEvents[i]? = some e ∧ e.state = .queued ∧ e.timing = .queued := by
  cases h with
  | fresh | free c => exact absurd rfl hl
  | queued c l => exact ⟨0, _, rfl, rfl, rfl, rfl⟩

theorem ne_next (h : Scheduled q l) (hi : q.OnFreelist i) : q.nextSchedEvent ≠ some i := by
  cases h with
  | fresh | free c => exact nofun
  | queued c l => exact absurd hi (Scheduling.not_onFreelist rfl)

end Scheduled

/-- The controller between calls, the last of which was at the cycle `now`. -/
structure Inv (m : NVMainMemory) (now : Nat) : Prop where
  served : m.requests.Served
  scheduled : Scheduled m.scheduling m.requests.inflightRequests
  updated : m.updateCycle ≤ now + 1

variable {m m' : NVMainMemory} {now : Nat} {completions : List Nat}

theorem cycle_spec {target : Nat} (h : m.requests.Served) (hc : m.requests.Completable completions)
    (ht : m.updateCycle ≤ target) :
    ∃ q, m.cycle target completions = some { m with requests := q, updateCycle := target } ∧ q.Served ∧
      q.inflightRequests.Sublist m.requests.inflightRequests ∧
      ∀ ev, m.requests.accEvents ev ≠ .held → q.accEvents ev = m.requests.accEvents ev := by
  obtain ⟨q, hrun, hserved, hsub, hacc⟩ := h.run hc
  refine ⟨q, assertThat_bind_eq_some.mpr ⟨ht, ?_⟩, hserved, hsub, hacc⟩
  rw [hrun]
  rfl

/-- The scheduling event is queued again, or nothing is in flight and it is not the next one any
more. -/
theorem tick_spec (cycle : Nat) (h : m.requests.Served) (hnext : m.scheduling.nextSchedEvent ≠ none)
    (hc : m.requests.Completable completions) (ht : m.updateCycle ≤ cycle + 1) :
    ∃ m' n, m.tick cycle completions = some (m', n) ∧ m'.requests.Served ∧ m'.updateCycle = cycle + 1 ∧
      (n ≠ 0 ∧ m'.scheduling = m.scheduling ∨
        n = 0 ∧ m'.scheduling = { m.scheduling with nextSchedEvent := none } ∧ m'.requests.inflightRequests = []) := by
  obtain ⟨q, hcycle, hq, -, -⟩ := cycle_spec h hc ht
  unfold tick
  rw [hcycle, bind_some, assertThat_true hnext]
  by_cases hsome : q.nextSchedRequest = none
  · rw [if_neg (not_not.mpr hsome)]
    obtain ⟨l, next, accEvents, issued, completed, released⟩ := q
    cases l with
    | nil => exact ⟨_, 0, rfl, hq.setNext nofun, rfl, .inr ⟨rfl, rfl, rfl⟩⟩
    | cons r l =>
      refine ⟨_, _, rfl, hq.setNext ?_, rfl, .inl ⟨?_, rfl⟩⟩
      · rintro r' ⟨⟩
        exact mem_cons_self
      · split <;> omega
  · rw [if_pos hsome]
    exact ⟨_, _, rfl, hq, rfl, .inl ⟨Nat.succ_ne_zero cycle, rfl⟩⟩

variable {cycle : Nat}

theorem runSched_of_tick {c n : Nat} (hs : m.scheduling = ⟨[⟨.queued, .queued, none, c⟩], some 0, none⟩)
    (htick : { m with scheduling := ⟨[⟨.running, .running, none, c⟩], some 0, none⟩ }.tick cycle completions =
      some (m', n)) :
    m.runSched 0 cycle completions =
      (if n ≠ 0 then
        (m'.scheduling.modify 0 fun e => SchedEvent.requeue { e with state := .queued } n).map
          fun scheduling => { m' with scheduling }
      else m'.retire 0).bind fun m =>
        (m.scheduling.modify 0 fun e => e.timing.finish.map fun timing => { e with timing }).map fun scheduling =>
          { m with scheduling } := by
  unfold runSched
  rw [hs]
  show (simulate { m with scheduling := ⟨[⟨.running, .queued, none, c⟩], some 0, none⟩ } 0 cycle completions).bind _ = _
  congr 1
  show (tick { m with scheduling := ⟨[⟨.running, .running, none, c⟩], some 0, none⟩ } cycle completions).bind _ = _
  rw [htick]
  rfl

theorem Inv.runSched {i : Nat} {e : SchedEvent} (h : Inv m now) (hi : m.scheduling.schedEvents[i]? = some e)
    (he : e.timing = .queued) (hnow : now ≤ cycle) (hc : m.requests.Completable completions) :
    ∃ m', m.runSched i cycle completions = some m' ∧ Inv m' cycle := by
  have hscheduled := h.scheduled
  generalize hs : m.scheduling = scheduling, m.requests.inflightRequests = l at hscheduled
  rw [hs] at hi
  cases hscheduled with
  | fresh => cases hi
  | free c =>
    obtain ⟨-, rfl⟩ := Scheduling.event_of_single hi
    cases he
  | queued c l =>
    obtain ⟨rfl, -⟩ := Scheduling.event_of_single hi
    have ht : m.updateCycle ≤ cycle + 1 := by
      have := h.updated
      omega
    obtain ⟨m', n, htick, hserved, hupdate, hcases⟩ :=
      tick_spec (m := { m with scheduling := ⟨[⟨.running, .running, none, c⟩], some 0, none⟩ }) cycle h.served
        (some_ne_none 0) hc ht
    rcases hcases with ⟨hn, hsched⟩ | ⟨rfl, hsched, hl⟩
    · refine ⟨{ m' with scheduling := ⟨[⟨.queued, .queued, none, n⟩], some 0, none⟩ }, ?_, ?_⟩
      · rw [runSched_of_tick hs htick, if_pos hn, hsched]
        rfl
      · exact ⟨hserved, .queued n _, hupdate.le⟩
    · refine ⟨{ m' with scheduling := ⟨[⟨.held, .idle, none, c⟩], none, some 0⟩ }, ?_, ?_⟩
      · rw [runSched_of_tick hs htick, retire, hsched]
        rfl
      · refine ⟨hserved, ?_, hupdate.le⟩
        rw [hl]
        exact .free c

theorem Scheduled.sublist {q : Scheduling} {l l' : List Inflight} (h : Scheduled q l) (hsub : l'.Sublist l) :
    Scheduled q l' := by
  cases h with
  | fresh =>
    rw [List.sublist_nil.mp hsub]
    exact .fresh
  | free c =>
    rw [List.sublist_nil.mp hsub]
    exact .free c
  | queued c l => exact .queued c l'

theorem schedule_spec {l : List Inflight} {it : Inflight} (h : Scheduled m.scheduling l) (hserved : m.requests.Served)
    (hl : m.requests.inflightRequests = l ++ [it]) (cycle : Nat) :
    ∃ scheduling next, m.schedule it.request cycle =
        some { m with scheduling, requests := { m.requests with nextSchedRequest := next } } ∧
      Scheduled scheduling m.requests.inflightRequests ∧
      ∀ r, next = some r → r ∈ m.requests.inflightRequests.map Inflight.request := by
  have hmem : it.request ∈ m.requests.inflightRequests.map Inflight.request := by
    rw [hl, map_append]
    exact mem_append_right _ mem_cons_self
  generalize hs : m.scheduling = scheduling at h
  unfold schedule
  cases h with
  | fresh | free c =>
    rw [hs, hl]
    refine ⟨_, _, rfl, .queued (cycle + m.minLatency) _, ?_⟩
    rintro r ⟨⟩
    exact hl ▸ hmem
  | queued c l =>
    rw [if_neg (by rw [hs]; exact some_ne_none 0)]
    exact ⟨m.scheduling, m.requests.nextSchedRequest, rfl, hs ▸ .queued c _, hserved.next⟩

variable {request : Nat}

/-- `enqueue` of an access event that runs: it is held for its request in flight or queued again. -/
theorem Inv.enqueue {ev : Nat} (h : Inv m now) (hev : m.requests.accEvents ev = .running)
    (hnow : now ≤ cycle) (hnew : request ∉ m.requests.issued.map Prod.fst) (hc : m.requests.Completable completions)
    (issuable : Bool) :
    ∃ m', m.enqueue ev cycle request issuable completions = some m' ∧ Inv m' cycle ∧
      m'.requests.accEvents ev = (if issuable then .held else .queued) ∧
      (issuable = true → request ∈ m'.requests.inflightRequests.map Inflight.request) := by
  have ht : m.updateCycle ≤ cycle + 1 := by
    have := h.updated
    omega
  obtain ⟨q, hcycle, hq, hsub, hacc⟩ := cycle_spec h.served hc ht
  have hrunning : q.accEvents ev = .running := by
    rw [hacc ev (by rw [hev]; exact nofun), hev]
  have hscheduled := h.scheduled.sublist hsub
  unfold NVMainMemory.enqueue
  rw [hcycle, bind_some]
  cases issuable with
  | false =>
    refine ⟨_, map_eq_some_iff.mpr ⟨_, Requests.access_eq_some hrunning rfl, rfl⟩, ?_, ?_, nofun⟩
    · refine ⟨hq.setEvent ?_ ?_ .queued, hscheduled, le_refl (cycle + 1)⟩
      · rw [hrunning]
        exact nofun
      · rw [hrunning]
        exact nofun
    · exact update_self ..
  | true =>
    have hfresh : request ∉ q.inflightRequests.map Inflight.request := by
      intro hmem
      apply hnew
      rw [h.served.issued, List.map_map]
      exact (hsub.map Inflight.request).subset hmem
    obtain ⟨q', hissue, hq', hl, hheld⟩ := hq.issue hrunning hfresh (cycle + m.minLatency)
    obtain ⟨scheduling, next, hschedule, hs, hnext⟩ :=
      schedule_spec (m := { m with requests := q', updateCycle := cycle + 1 }) hscheduled hq' hl cycle
    refine ⟨_, bind_eq_some_iff.mpr ⟨q', hissue, hschedule⟩, ?_, hheld, fun _ => ?_⟩
    · exact ⟨hq'.setNext hnext, hs, le_refl (cycle + 1)⟩
    · rw [hl, map_append]
      exact mem_append_right _ mem_cons_self

theorem Inv.runAccess {ev : Nat} (h : Inv m now)
    (hev : m.requests.accEvents ev = .none ∨ m.requests.accEvents ev = .queued) (hnow : now ≤ cycle)
    (hnew : request ∉ m.requests.issued.map Prod.fst) (hc : m.requests.Completable completions) (issuable : Bool) :
    ∃ m', m.runAccess ev cycle request issuable completions = some m' ∧ Inv m' cycle ∧
      m'.requests.accEvents ev = (if issuable then .held else .queued) ∧
      (issuable = true → request ∈ m'.requests.inflightRequests.map Inflight.request) := by
  have hstart : m.requests.access ev EventState.start =
      some { m.requests with accEvents := update m.requests.accEvents ev .running } := by
    rcases hev with hev | hev
    all_goals exact Requests.access_eq_some hev rfl
  have hserved : Requests.Served { m.requests with accEvents := update m.requests.accEvents ev .running } := by
    apply h.served.setEvent
    all_goals rcases hev with hev | hev <;> rw [hev] <;> exact nofun
  obtain ⟨m', henqueue, hinv, hev', hmem⟩ := Inv.enqueue
    (m := { m with requests := { m.requests with accEvents := update m.requests.accEvents ev .running } })
    ⟨hserved, h.scheduled, h.updated⟩ (update_self ..) hnow hnew hc issuable
  have hfinish : m'.requests.access ev EventState.finish = some m'.requests := by
    apply Requests.access_eq_self hev'
    cases issuable <;> rfl
  refine ⟨m', bind_eq_some_iff.mpr ⟨_, hstart, bind_eq_some_iff.mpr ⟨m', henqueue, ?_⟩⟩, hinv, hev', hmem⟩
  rw [hfinish]
  rfl

end NVMainMemory

/-! ### Runs -/

structure MemorySession where
  mem : NVMainMemory
  now : Nat

namespace MemorySession

def new (minLatency : Nat) : MemorySession := ⟨.new minLatency, 0⟩

inductive Call where
  | access (ev cycle request : Nat) (issuable : Bool) (completions : List Nat)
  | sched (i cycle : Nat) (completions : List Nat)

variable (s : MemorySession)

def step : Call → Option MemorySession
  | .access ev cycle request issuable completions =>
    (s.mem.runAccess ev cycle request issuable completions).map fun mem => ⟨mem, cycle⟩
  | .sched i cycle completions => (s.mem.runSched i cycle completions).map fun mem => ⟨mem, cycle⟩

/-- The access events that run were not run before or are queued, and the scheduling event is
queued. Time does not go back, a request is not allocated where one is that NVMain holds, and NVMain
completes the requests that it holds, each once. -/
def Allowed : Call → Prop
  | .access ev cycle request _ completions =>
    (s.mem.requests.accEvents ev = .none ∨ s.mem.requests.accEvents ev = .queued) ∧ s.now ≤ cycle ∧
      request ∉ s.mem.requests.issued.map Prod.fst ∧ s.mem.requests.Completable completions
  | .sched i cycle completions =>
    (∃ e, s.mem.scheduling.schedEvents[i]? = some e ∧ e.timing = .queued) ∧ s.now ≤ cycle ∧
      s.mem.requests.Completable completions

instance : ∀ c, Decidable (Allowed s c)
  | .access .. => inferInstanceAs (Decidable ((_ ∨ _) ∧ _ ∧ ¬_ ∧ _))
  | .sched i _ _ => inferInstanceAs (Decidable (
      (∃ e, s.mem.scheduling.schedEvents[i]? = some e ∧ e.timing = .queued) ∧ _ ∧ _))

theorem step_inv {s : MemorySession} {c : Call} (h : s.mem.Inv s.now) (hallowed : Allowed s c) :
    ∃ s', step s c = some s' ∧ s'.mem.Inv s'.now := by
  cases c with
  | access ev cycle request issuable completions =>
    obtain ⟨hev, hnow, hnew, hc⟩ := hallowed
    obtain ⟨mem, hmem, hinv, -⟩ := h.runAccess hev hnow hnew hc issuable
    exact ⟨⟨mem, cycle⟩, congrArg (Option.map _) hmem, hinv⟩
  | sched i cycle completions =>
    obtain ⟨⟨e, hi, he⟩, hnow, hc⟩ := hallowed
    obtain ⟨mem, hmem, hinv⟩ := h.runSched hi he hnow hc
    exact ⟨⟨mem, cycle⟩, congrArg (Option.map _) hmem, hinv⟩

theorem inv_new (minLatency : Nat) : (new minLatency).mem.Inv (new minLatency).now := by
  refine ⟨⟨rfl, nodup_nil, nodup_nil, ?_, nofun, rfl, nodup_nil, ?_⟩, .fresh, Nat.zero_le _⟩
  · exact fun _ hit => absurd hit not_mem_nil
  · exact fun _ hev => absurd hev not_mem_nil

/-- Whatever the calls and the completions from within them, no assertion fails, and between calls:
the request that is waited for is in flight; a scheduling event that is queued is the next one; with
a request in flight there is a next event and it is queued; no event of the free list is the next
one; the access events that were released are those of the completed requests, each once. -/
theorem run_scheduled (minLatency : Nat) (calls : List Call) (hallowed : AllSteps step Allowed (new minLatency) calls) :
    ∃ s, run step (new minLatency) calls = some s ∧
      (∀ r, s.mem.requests.nextSchedRequest = some r → r ∈ s.mem.requests.inflightRequests.map Inflight.request) ∧
      (∀ i e, s.mem.scheduling.schedEvents[i]? = some e → e.state = .queued ∨ e.timing = .queued →
        s.mem.scheduling.nextSchedEvent = some i) ∧
      (s.mem.requests.inflightRequests ≠ [] → ∃ i e, s.mem.scheduling.nextSchedEvent = some i ∧
        s.mem.scheduling.schedEvents[i]? = some e ∧ e.state = .queued ∧ e.timing = .queued) ∧
      (∀ i, s.mem.scheduling.OnFreelist i → s.mem.scheduling.nextSchedEvent ≠ some i) ∧
      s.mem.requests.released = s.mem.requests.completed.map Prod.snd ∧ s.mem.requests.released.Nodup := by
  obtain ⟨s, hrun, hinv⟩ := run_isSome step (fun s c h ha => step_inv h ha) calls (inv_new minLatency) hallowed
  have hs := hinv.scheduled
  exact ⟨s, hrun, hinv.served.next, fun i e => hs.next_of_queued, hs.exists_queued, fun i => hs.ne_next,
    hinv.served.released, hinv.served.once⟩

/-- Two requests; the second completes first, from within the `enqueue` of a third access that is
put off, and the first from within `tick`. -/
theorem run_scheduled_two :
    let calls : List Call := [.access 1 0 100 true [], .access 2 3 101 true [], .access 3 7 102 false [101],
      .sched 0 10 [], .sched 0 11 [100], .access 3 17 100 true [], .sched 0 27 [100]]
    AllSteps step Allowed (new 10) calls ∧ ∃ s, run step (new 10) calls = some s ∧
      s.mem.requests.released = s.mem.requests.completed.map Prod.snd ∧ s.mem.requests.released.Nodup := by
  intro calls
  have hallowed : AllSteps step Allowed (new 10) calls := by decide +kernel
  obtain ⟨s, hrun, -, -, -, -, hreleased, honce⟩ := run_scheduled 10 calls hallowed
  exact ⟨hallowed, s, hrun, hreleased, honce⟩

end MemorySession

end Shma.Nvmain
