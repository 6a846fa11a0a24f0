import Shma.Nvmain.HierDRAMCacheRuns

/-!
# Writes to the DRAM cache

A write that hits marks its line dirty. A write that misses leaves no mark: its line is installed
clean when the read and the fill have completed. A line leaves only as a victim that is dirty, and
then a write-back is issued for it, which saves the writes that are in the line by then if the main
memory accepts it.
-/
namespace Shma.Nvmain

open Lib Lib.Run

/-- The line that `IssueCommand` evicts for a request. -/
def HierDRAMCache.evicted {g : CacheGeometry} (d : HierDRAMCache g) (req : DrcRequest) : Option Nat :=
  if d.bank.present req.address = false ∧ d.bank.setFull req.address = true then
    (d.bank.chooseVictim req.address).bind fun (dirty, victim) => if dirty then some victim else none
  else none

/-- A session, the writes issued that no write-back has saved, and those whose line has left without
one. -/
structure DrcWrites (g : CacheGeometry) where
  session : DrcSession g
  (unsaved dropped : List DrcRequest)

namespace DrcWrites

open DrcSession

variable {g : CacheGeometry} {s t : DrcWrites g} {req w r : DrcRequest} {ready : DrcReady}

def new : DrcWrites g := ⟨.new, [], []⟩

section

variable (s : DrcWrites g)

/-- The writes in the line that a request evicts. A write that is on its way is not in a line yet,
so that a write-back issued now does not save it. -/
def leaving (req : DrcRequest) : List DrcRequest :=
  s.unsaved.filter fun w => decide (¬s.session.Outstanding w ∧
    ∃ victim ∈ s.session.drc.evicted req, CacheBank.SameLine g victim w.address)

def step : Event → Option (DrcWrites g)
  | .issue req ready => (s.session.step (.issue req ready)).map fun session =>
      { session
        unsaved := (if req.write then [req] else []) ++ s.unsaved.filter (· ∉ s.leaving req)
        dropped := if ready.evict then s.dropped else s.leaving req ++ s.dropped }
  | .complete o => (s.session.step (.complete o)).map fun session => { s with session }

def NoLoss : Prop :=
  s.dropped = [] ∧ ∀ w ∈ s.unsaved, s.session.Outstanding w ∨ s.session.drc.bank.present w.address = true

/-- A line that leaves with writes has its write-back accepted; and with the second of the read and
the fill for a write, its set has a free way or the line is present. -/
def Takes : Event → Prop
  | .issue req ready => ready.evict = true ∨ s.leaving req = []
  | .complete o => ∀ w ∈ s.unsaved, w ∈ s.session.missed → ∀ p, o = w.part p → w.part p.other ∈ s.session.completed →
      s.session.drc.bank.setFull w.address = true → s.session.drc.bank.present w.address = true

end

instance (s : DrcWrites g) : ∀ e, Decidable (Takes s e)
  | .issue _ _ => inferInstanceAs (Decidable (_ ∨ _))
  | .complete o => inferInstanceAs (Decidable (∀ w ∈ s.unsaved, w ∈ s.session.missed → ∀ p, o = w.part p → _))

/-! ### A request -/

theorem makeRoom_present {d d' : HierDRAMCache g} {evicts : List DrcRequest} (miss : d.bank.present req.address = false)
    (h : d.makeRoom req ready = some (d', evicts)) (hp : d.bank.present w.address = true) :
    d'.bank.present w.address = true ∨ ∃ victim ∈ d.evicted req, CacheBank.SameLine g victim w.address := by
  unfold HierDRAMCache.makeRoom at h
  split at h
  · next hfull =>
    obtain ⟨⟨dirty, victim⟩, hvictim, h⟩ := bind_eq_some_iff.mp h
    dsimp only at h
    split at h
    · next hdirty =>
      obtain ⟨bank, hevict, h⟩ := bind_eq_some_iff.mp h
      obtain ⟨-, he⟩ := assertThat_map_eq_some.mp h
      cases he
      refine (CacheBank.evict_present hevict hp).imp_right fun hline => ⟨victim, ?_, hline⟩
      rw [HierDRAMCache.evicted, if_pos ⟨miss, hfull⟩, hvictim]
      exact if_pos hdirty
    · cases h
      exact .inl hp
  · cases h
    exact .inl hp

theorem issueCommand_present {d d' : HierDRAMCache g} {issued : List DrcRequest}
    (h : d.issueCommand req ready = some (d', issued)) (hp : d.bank.present w.address = true) :
    d'.bank.present w.address = true ∨ ∃ victim ∈ d.evicted req, CacheBank.SameLine g victim w.address := by
  cases hit : d.bank.present req.address with
  | true =>
    obtain ⟨bank, hissue, htags, -⟩ := issueCommand_hit d hit ready
    obtain ⟨rfl, rfl⟩ := Prod.mk.inj (mem_unique hissue h)
    exact .inl ((CacheBank.present_of_tags htags w.address).trans hp)
  | false =>
    rw [HierDRAMCache.issueCommand, if_neg (eq_false_iff.mp hit)] at h
    obtain ⟨⟨d1, evicts⟩, hroom, h⟩ := bind_eq_some_iff.mp h
    obtain ⟨⟨d2, parts⟩, hfetch, he⟩ := map_eq_some_iff.mp h
    cases he
    obtain ⟨-, hfetch⟩ := assertThat_bind_eq_some.mp hfetch
    obtain ⟨-, he⟩ := assertThat_map_eq_some.mp hfetch
    cases he
    have hstays := makeRoom_present hit hroom hp
    exact hstays

theorem dropped_eq_nil_iff (h : NoLoss s) :
    (if ready.evict then s.dropped else s.leaving req ++ s.dropped) = [] ↔ Takes s (.issue req ready) := by
  rw [h.1, Takes]
  cases ready.evict <;> simp

section

variable (hi : Inv s.session)
include hi

theorem noLoss_issue (h : NoLoss s) (hallowed : Allowed s.session (.issue req ready))
    (hs : s.step (.issue req ready) = some t) : Inv t.session ∧ (NoLoss t ↔ Takes s (.issue req ready)) := by
  obtain ⟨htag, hnew, -⟩ := hallowed
  obtain ⟨session, hstep, rfl⟩ := map_eq_some_iff.mp hs
  obtain ⟨⟨d, issued⟩, hissue, hsession⟩ := map_eq_some_iff.mp hstep
  have hbank : session.drc.bank = d.bank := hsession ▸ rfl
  -- a write that stays unsaved was on its way, or is in a line that stays
  have hkept : ∀ w ∈ s.unsaved, w ∉ s.leaving req →
      s.session.Outstanding w ∨ session.drc.bank.present w.address = true := by
    intro w hmem hstays
    refine (h.2 w hmem).elim .inl fun hp => ?_
    by_cases hout : s.session.Outstanding w
    · exact .inl hout
    · rw [hbank]
      refine .inr ((issueCommand_present hissue hp).resolve_right fun hline => hstays ?_)
      exact List.mem_filter.mpr ⟨hmem, decide_eq_true ⟨hout, hline⟩⟩
  have hunsaved : ∀ w, w ∈ (if req.write then [req] else []) ++ s.unsaved.filter (· ∉ s.leaving req) →
      w = req ∨ s.session.Outstanding w ∨ session.drc.bank.present w.address = true := by
    intro w hw
    rcases mem_append.mp hw with hw | hw
    · split at hw
      · exact .inl (mem_singleton.mp hw)
      · cases hw
    · obtain ⟨hmem, hstays⟩ := List.mem_filter.mp hw
      exact .inr (hkept w hmem (of_decide_eq_true hstays))
  suffices hin : Inv session ∧ ∀ w, w = req ∨ s.session.Outstanding w →
      session.Outstanding w ∨ session.drc.bank.present w.address = true by
    refine ⟨hin.1, (and_iff_left fun w hw => ?_).trans (dropped_eq_nil_iff h)⟩
    rcases hunsaved w hw with hreq | hout | hp
    · exact hin.2 w (.inl hreq)
    · exact hin.2 w (.inr hout)
    · exact .inr hp
  cases hit : s.session.drc.bank.present req.address with
  | true =>
    obtain ⟨session', hstep', hi', -, hcompleted, hmissed, htags, -⟩ := hi.issueHit hit ready
    obtain rfl := mem_unique hstep' hstep
    refine ⟨hi', ?_⟩
    rintro w (rfl | hout)
    · exact .inr ((CacheBank.present_of_tags htags w.address).trans hit)
    · rw [Outstanding, hmissed, hcompleted]
      exact .inl hout
  | false =>
    obtain ⟨session', hstep', hi', -, hcompleted, hmissed, -⟩ := hi.issueMiss hnew htag hit ready
    obtain rfl := mem_unique hstep' hstep
    refine ⟨hi', fun w hw => .inl ?_⟩
    rw [Outstanding, hmissed, hcompleted]
    rcases hw with rfl | hout
    · exact ⟨mem_cons_self, .fill, hi.new_not_completed hnew .fill⟩
    · exact ⟨mem_cons_of_mem _ hout.1, hout.2⟩

/-! ### A completion -/

theorem outstanding_cons {p : DrcPart} (hr : r ∈ s.session.missed) {session : DrcSession g}
    (hmissed : session.missed = s.session.missed) (hcompleted : session.completed = r.part p :: s.session.completed) :
    session.Outstanding w ↔ s.session.Outstanding w ∧ (w = r → r.part p.other ∉ s.session.completed) := by
  rw [Outstanding, hmissed, hcompleted]
  constructor
  · rintro ⟨hw, q, hq⟩
    obtain ⟨hne, hbefore⟩ := not_or.mp (mt (hi.mem_cons_part hr hw).mpr hq)
    refine ⟨⟨hw, q, hbefore⟩, ?_⟩
    rintro rfl
    rcases DrcPart.eq_or_other p q with rfl | rfl
    · exact absurd ⟨rfl, rfl⟩ hne
    · exact hbefore
  · rintro ⟨⟨hw, q, hq⟩, hself⟩
    refine ⟨hw, ?_⟩
    by_cases hwr : w = r
    · refine ⟨p.other, mt (hi.mem_cons_part hr hw).mp (not_or.mpr ⟨fun h => DrcPart.other_ne p h.2, ?_⟩)⟩
      rw [hwr]
      exact hself hwr
    · exact ⟨q, mt (hi.mem_cons_part hr hw).mp (not_or.mpr ⟨fun h => hwr h.1, hq⟩)⟩

theorem noLoss_completePart {p : DrcPart} (h : NoLoss s) (hr : r ∈ s.session.missed)
    {session : DrcSession g} (hmissed : session.missed = s.session.missed)
    (hcompleted : session.completed = r.part p :: s.session.completed)
    (hbank : session.drc.bank = if r.part p.other ∈ s.session.completed then s.session.drc.bank.install r.address
      else s.session.drc.bank) :
    NoLoss { s with session } ↔ Takes s (.complete (r.part p)) := by
  have htakes : Takes s (.complete (r.part p)) ↔ (r ∈ s.unsaved → r.part p.other ∈ s.session.completed →
      s.session.drc.bank.setFull r.address = true → s.session.drc.bank.present r.address = true) := by
    constructor
    · exact fun htakes hmem => htakes r hmem hr p rfl
    · intro htakes w hmem hw q heq
      obtain ⟨rfl, rfl⟩ := (hi.part_eq hw hr).mp heq
      exact htakes hmem
  refine (and_iff_right h.1).trans (Iff.trans ?_ htakes.symm)
  by_cases hdone : r.part p.other ∈ s.session.completed
  · rw [if_pos hdone] at hbank
    constructor
    · intro hloss hmem _
      refine (CacheBank.install_present_self _ r.address).mp (hbank ▸ (hloss r hmem).resolve_left fun hout => ?_)
      exact ((outstanding_cons hi hr hmissed hcompleted).mp hout).2 rfl hdone
    · intro htake w hmem
      rw [hbank]
      by_cases hwr : w = r
      · subst hwr
        exact .inr ((CacheBank.install_present_self _ w.address).mpr (htake hmem hdone))
      · refine (h.2 w hmem).imp (fun hout => ?_) (CacheBank.install_present _ r.address)
        exact (outstanding_cons hi hr hmissed hcompleted).mpr ⟨hout, fun he => absurd he hwr⟩
  · rw [if_neg hdone] at hbank
    refine iff_of_true (fun w hmem => ?_) fun _ hin => absurd hin hdone
    rw [hbank]
    exact (h.2 w hmem).imp_left fun hout => (outstanding_cons hi hr hmissed hcompleted).mpr ⟨hout, fun _ => hdone⟩

/-- No step fails, and a step drops no write exactly if a line that is to be installed is taken. -/
theorem step_spec {e : Event} (h : NoLoss s) (hallowed : Allowed s.session e)
    (hs : s.step e = some t) : Inv t.session ∧ (NoLoss t ↔ Takes s e) := by
  cases e with
  | issue req ready => exact noLoss_issue hi h hallowed hs
  | complete o =>
    obtain ⟨session, hstep, rfl⟩ := map_eq_some_iff.mp hs
    rcases hi.inflight o hallowed with ⟨r, hr, p, rfl⟩ | ⟨htag, -⟩
    · obtain ⟨session', hstep', hi', hmissed, -, hcompleted, hbank⟩ := hi.completePart hr hallowed
      obtain rfl := mem_unique hstep' hstep
      exact ⟨hi', noLoss_completePart hi h hr hmissed hcompleted hbank⟩
    · obtain ⟨session', hstep', hi', hbank, hmissed, hcompleted, -, hpart⟩ := hi.completeEvict hallowed htag
      obtain rfl := mem_unique hstep' hstep
      refine ⟨hi', iff_of_true ⟨h.1, fun w hmem => ?_⟩ fun w _ _ p heq => absurd heq.symm (hpart w p)⟩
      rw [hbank, Outstanding, hmissed, hcompleted]
      refine (h.2 w hmem).imp_left fun hout => ⟨hout.1, ?_⟩
      obtain ⟨q, hq⟩ := hout.2
      exact ⟨q, List.not_mem_cons_of_ne_of_not_mem (hpart w q) hq⟩

/-! ### Runs -/

theorem step_isSome {e : Event} (hallowed : Allowed s.session e) : ∃ t, s.step e = some t ∧ Inv t.session := by
  obtain ⟨session, hstep, hi', -⟩ := hi.step hallowed
  cases e with
  | issue req ready | complete o => exact ⟨_, congrArg (Option.map _) hstep, hi'⟩

end

/-- No assertion fails in a run. Every write is all along on its way, in a line that is present or
saved by a write-back that its line left with, exactly if the write-backs of lines with writes are
accepted and with the second of the read and the fill for each write its set has a free way or the
line is present. -/
theorem writes_kept_iff (g : CacheGeometry) (events : List Event)
    (hallowed : AllSteps step (fun s => Allowed s.session) (new : DrcWrites g) events) :
    (∃ t, run step (new : DrcWrites g) events = some t) ∧
    ((∀ pre, pre <+: events → ∀ s, run step (new : DrcWrites g) pre = some s → NoLoss s) ↔
      AllSteps step Takes (new : DrcWrites g) events) := by
  obtain ⟨t, hrun, -⟩ := run_isSome step (fun _ _ hi ha => step_isSome hi ha) events
    (inv_new : Inv (new : DrcWrites g).session) hallowed
  refine ⟨⟨t, hrun⟩, ?_⟩
  exact forall_run_iff_allSteps_of step (fun _ _ _ hi h ha hs => step_spec hi h ha hs) events
    (inv_new : Inv (new : DrcWrites g).session) ⟨rfl, fun w hw => nomatch hw⟩ hallowed hrun

def written (id address : Nat) : List Event :=
  let w : DrcRequest := ⟨.access, id, address, true⟩
  [.issue w allReady, .complete (w.part .memRead), .complete (w.part .fill)]

/-- A line is brought in by a write, written once more and then evicted for another line. -/
theorem writes_kept_iff_evicted :
    (let events := written 0 0 ++ [.issue ⟨.access, 1, 0, true⟩ allReady] ++ written 2 64
     AllSteps step (fun s => Allowed s.session) (new : DrcWrites (oneSet 0)) events ∧
     (∃ s, run step (new : DrcWrites (oneSet 0)) events = some s ∧ s.unsaved.map (·.id) = [2]) ∧
     ∀ pre, pre <+: events → ∀ s, run step (new : DrcWrites (oneSet 0)) pre = some s → NoLoss s) := by
  have hallowed : AllSteps step (fun s => Allowed s.session) (new : DrcWrites (oneSet 0))
      (written 0 0 ++ [.issue ⟨.access, 1, 0, true⟩ allReady] ++ written 2 64) := by decide +kernel
  refine ⟨hallowed, by decide +kernel, (writes_kept_iff (oneSet 0) _ hallowed).2.mpr ?_⟩
  decide +kernel

/-- The only way holds a clean line, which is not evicted. The write of another line is answered,
but its line is not installed and nothing is written back. -/
theorem write_lost :
    (let events := filled 0 0 ++ written 1 64
     AllSteps step (fun s => Allowed s.session) (new : DrcWrites (oneSet 0)) events ∧
     ∃ s, run step (new : DrcWrites (oneSet 0)) events = some s ∧ (⟨.access, 1, 64, true⟩ : DrcRequest) ∈ s.unsaved ∧
       s.session.inflight = [] ∧ (∀ p, (⟨.access, 1, 64, true⟩ : DrcRequest).part p ∈ s.session.completed) ∧
       s.session.drc.bank.present 64 = false) := by
  decide +kernel

end DrcWrites

end Shma.Nvmain
