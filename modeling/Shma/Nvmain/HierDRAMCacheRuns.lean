import Shma.Nvmain.HierDRAMCache

/-!
# Fills of the DRAM cache

What the maps of the cache note is read off the requests that have missed and the own requests
that have completed. So with the second of the read and the fill of a request the line is
installed, and whether that goes well depends on what the set then holds.
-/
namespace Shma.Nvmain

open Lib Lib.Run

namespace DrcSession

variable {g : CacheGeometry} {s : DrcSession g} {req r r' o : DrcRequest} {p p' : DrcPart} {ready : DrcReady}

structure Tracked (inflight completed missed : List DrcRequest) : Prop where
  ids : ∀ r ∈ missed, ∀ r' ∈ missed, r.id = r'.id → r = r'
  nodup : inflight.Nodup
  fresh : ∀ o ∈ inflight, o ∉ completed
  known : ∀ o, o ∈ inflight ∨ o ∈ completed → ∃ r ∈ missed, r.id = o.id

/-- The maps, in terms of the requests that have missed and those that have completed. -/
structure Inv (s : DrcSession g) : Prop where
  tracked : Tracked s.inflight s.completed s.missed
  inflight : ∀ o ∈ s.inflight, (∃ r ∈ s.missed, ∃ p, o = r.part p) ∨ o.tag = .evict ∧ s.drc.outstandingEvicts o ≠ none
  outstanding : ∀ p o r, s.drc.outstanding p o = some r ↔ r ∈ s.missed ∧ o = r.part p ∧ o ∉ s.completed
  evicts : ∀ o, s.drc.outstandingEvicts o ≠ none → o.tag = .evict
  caching : ∀ r flags, s.drc.cachingMap r = some flags ↔
    r ∈ s.missed ∧ (∃ p, r.part p ∉ s.completed) ∧ flags = fun p => decide (r.part p ∈ s.completed)

theorem Tracked.complete {inflight completed missed : List DrcRequest} (h : Tracked inflight completed missed)
    (ho : o ∈ inflight) : Tracked (inflight.erase o) (o :: completed) missed := by
  refine ⟨h.ids, h.nodup.erase o, fun x hx => ?_, ?_⟩
  · obtain ⟨hne, hx⟩ := h.nodup.mem_erase_iff.mp hx
    exact List.not_mem_cons_of_ne_of_not_mem hne (h.fresh x hx)
  · rintro x (hx | hx)
    · exact h.known x (.inl (List.mem_of_mem_erase hx))
    · rcases mem_cons.mp hx with rfl | hx
      · exact h.known x (.inl ho)
      · exact h.known x (.inr hx)

theorem part_inj (r : DrcRequest) : Function.Injective r.part := by
  intro p p' h
  injection congrArg DrcRequest.tag h

theorem Inv.part_eq (h : Inv s) (hr : r ∈ s.missed) (hr' : r' ∈ s.missed) :
    r'.part p' = r.part p ↔ r' = r ∧ p' = p := by
  constructor
  · intro heq
    have hid : (r'.part p').id = (r.part p).id := congrArg DrcRequest.id heq
    obtain rfl := h.tracked.ids r' hr' r hr hid
    exact ⟨rfl, part_inj r' heq⟩
  · rintro ⟨rfl, rfl⟩
    rfl

theorem DrcPart.eq_or_other (p q : DrcPart) : q = p ∨ q = p.other := by
  cases p <;> cases q <;> simp [DrcPart.other]

theorem DrcPart.other_ne (p : DrcPart) : p.other ≠ p := by
  cases p <;> exact nofun

theorem forall_part_iff {P : DrcPart → Prop} (p : DrcPart) : (∀ q, P q) ↔ P p ∧ P p.other := by
  constructor
  · intro h
    exact ⟨h p, h p.other⟩
  · rintro ⟨hp, hother⟩ q
    rcases DrcPart.eq_or_other p q with rfl | rfl
    · exact hp
    · exact hother

/-! ### A write-back completes -/

section

variable (h : Inv s)
include h

theorem Inv.completeEvict (ho : o ∈ s.inflight) (htag : o.tag = .evict) :
    ∃ t, step s (.complete o) = some t ∧ Inv t ∧ t.drc.bank = s.drc.bank ∧ t.missed = s.missed ∧
      t.completed = o :: s.completed ∧ t.last = some o ∧ ∀ (r : DrcRequest) p, r.part p ≠ o := by
  have hpart : ∀ r p, DrcRequest.part r p ≠ o := by
    rintro r p rfl
    cases htag
  have hmem : ∀ r p, DrcRequest.part r p ∈ o :: s.completed ↔ r.part p ∈ s.completed :=
    fun r p => mem_cons.trans (or_iff_right (hpart r p))
  have hsome : s.drc.outstandingEvicts o ≠ none := by
    rcases h.inflight o ho with ⟨r, -, p, rfl⟩ | ⟨-, hsome⟩
    · exact absurd rfl (hpart r p)
    · exact hsome
  have hcomplete : s.drc.requestComplete o =
      some { s.drc with outstandingEvicts := update s.drc.outstandingEvicts o none } := by
    unfold HierDRAMCache.requestComplete
    rw [htag]
    exact assertThat_map_eq_some.mpr ⟨hsome, rfl⟩
  refine ⟨_, congrArg (Option.map _) hcomplete, ?_, rfl, rfl, rfl, rfl, hpart⟩
  constructor
  case tracked => exact h.tracked.complete ho
  case inflight =>
    intro x hx
    obtain ⟨hne, hx⟩ := h.tracked.nodup.mem_erase_iff.mp hx
    refine (h.inflight x hx).imp_right fun ⟨hx, hsome⟩ => ⟨hx, ?_⟩
    exact (update_of_ne hne ..).trans_ne hsome
  case outstanding =>
    intro p x r
    refine (h.outstanding p x r).trans (and_congr_right fun _ => and_congr_right fun hx => not_congr ?_)
    rw [hx]
    exact (hmem r p).symm
  case evicts =>
    intro x hx
    by_cases hxo : x = o
    · rw [hxo]
      exact htag
    · exact h.evicts x ((update_of_ne hxo ..).symm.trans_ne hx)
  case caching =>
    intro r flags
    simp only [hmem]
    exact h.caching r flags

/-! ### A read or a fill completes -/

variable (hr : r ∈ s.missed)
include hr

theorem Inv.mem_cons_part (hr' : r' ∈ s.missed) :
    r'.part p' ∈ r.part p :: s.completed ↔ r' = r ∧ p' = p ∨ r'.part p' ∈ s.completed :=
  mem_cons.trans (or_congr_left (h.part_eq hr hr'))

theorem Inv.forall_part_mem_cons : (∀ q, r.part q ∈ r.part p :: s.completed) ↔ r.part p.other ∈ s.completed := by
  rw [forall_part_iff p, and_iff_right mem_cons_self, h.mem_cons_part hr hr]
  exact or_iff_right fun hqp => DrcPart.other_ne p hqp.2

theorem Inv.partComplete_eq (hnew : r.part p ∉ s.completed) :
    s.drc.requestComplete (r.part p) = some
      { s.drc with
        outstanding := update s.drc.outstanding p (update (s.drc.outstanding p) (r.part p) none)
        bank := if r.part p.other ∈ s.completed then s.drc.bank.install r.address else s.drc.bank
        cachingMap := update s.drc.cachingMap r (if r.part p.other ∈ s.completed then none
          else some fun q => decide (r.part q ∈ r.part p :: s.completed)) } := by
  have hout : s.drc.outstanding p (r.part p) = some r := (h.outstanding p _ r).mpr ⟨hr, rfl, hnew⟩
  have hcaching : s.drc.cachingMap r = some fun q => decide (r.part q ∈ s.completed) :=
    (h.caching r _).mpr ⟨hr, ⟨p, hnew⟩, rfl⟩
  have hflags : update (fun q => decide (r.part q ∈ s.completed)) p true =
      fun q => decide (r.part q ∈ r.part p :: s.completed) := by
    funext q
    by_cases hq : q = p
    · rw [hq, update_self, decide_eq_true mem_cons_self]
    · rw [update_of_ne hq, decide_eq_decide, h.mem_cons_part hr hr]
      exact (or_iff_right fun hqp => hq hqp.2).symm
  have hother : decide (r.part p.other ∈ r.part p :: s.completed) = true ↔ r.part p.other ∈ s.completed := by
    rw [decide_eq_true_iff, h.mem_cons_part hr hr]
    exact or_iff_right fun hqp => DrcPart.other_ne p hqp.2
  refine map_eq_some_iff.mpr ⟨r, hout, ?_⟩
  rw [hcaching, Option.getD_some, hflags]
  by_cases hdone : r.part p.other ∈ s.completed
  · rw [if_pos (hother.mpr hdone), if_pos hdone, if_pos hdone]
  · rw [if_neg (mt hother.mp hdone), if_neg hdone, if_neg hdone]

theorem Inv.outstanding_complete (q : DrcPart) (x r' : DrcRequest) :
    update s.drc.outstanding p (update (s.drc.outstanding p) (r.part p) none) q x = some r' ↔
      r' ∈ s.missed ∧ x = r'.part q ∧ x ∉ r.part p :: s.completed := by
  have hsame : x ≠ r.part p → (x ∉ s.completed ↔ x ∉ r.part p :: s.completed) := by
    intro hx
    rw [mem_cons, or_iff_right hx]
  by_cases hq : q = p
  · rw [hq, update_self]
    by_cases hx : x = r.part p
    · rw [hx, update_self]
      exact iff_of_false nofun fun hin => hin.2.2 mem_cons_self
    · rw [update_of_ne hx, h.outstanding, hsame hx]
  · rw [update_of_ne hq, h.outstanding]
    refine and_congr_right fun hr' => and_congr_right fun hx => hsame ?_
    rw [hx]
    exact fun heq => hq ((h.part_eq hr hr').mp heq).2

theorem Inv.caching_complete (r' : DrcRequest) (flags : DrcPart → Bool) :
    update s.drc.cachingMap r (if r.part p.other ∈ s.completed then none
        else some fun q => decide (r.part q ∈ r.part p :: s.completed)) r' = some flags ↔
      r' ∈ s.missed ∧ (∃ q, r'.part q ∉ r.part p :: s.completed) ∧
        flags = fun q => decide (r'.part q ∈ r.part p :: s.completed) := by
  by_cases hrr : r' = r
  · rw [hrr, update_self, and_iff_right hr, ← not_forall, h.forall_part_mem_cons hr]
    by_cases hdone : r.part p.other ∈ s.completed
    · rw [if_pos hdone]
      exact iff_of_false nofun fun hno => hno.1 hdone
    · rw [if_neg hdone, some_inj, and_iff_right hdone, eq_comm]
  · rw [update_of_ne hrr, h.caching]
    refine and_congr_right fun hr' => ?_
    have hmem : ∀ q, r'.part q ∈ r.part p :: s.completed ↔ r'.part q ∈ s.completed := by
      intro q
      rw [h.mem_cons_part hr hr']
      exact or_iff_right fun heq => hrr heq.1
    simp only [hmem]

theorem Inv.completePart (ho : r.part p ∈ s.inflight) :
    ∃ t, step s (.complete (r.part p)) = some t ∧ Inv t ∧ t.missed = s.missed ∧ t.last = some (r.part p) ∧
      t.completed = r.part p :: s.completed ∧
      t.drc.bank = if r.part p.other ∈ s.completed then s.drc.bank.install r.address else s.drc.bank := by
  have hnew := h.tracked.fresh _ ho
  refine ⟨_, congrArg (Option.map _) (h.partComplete_eq hr hnew), ?_, rfl, rfl, rfl, rfl⟩
  constructor
  case tracked => exact h.tracked.complete ho
  case inflight =>
    intro x hx
    exact h.inflight x (List.mem_of_mem_erase hx)
  case outstanding => exact h.outstanding_complete hr
  case evicts => exact h.evicts
  case caching => exact h.caching_complete hr

end

/-! ### A request is issued -/

/-- Write-backs for a request, and what is noted of them, accepted or not. -/
structure WriteBacks (req : DrcRequest) (before after : DrcRequest → Option DrcRequest) (evicts : List DrcRequest) :
    Prop where
  nodup : evicts.Nodup
  own : ∀ o ∈ evicts, o.tag = .evict ∧ o.id = req.id ∧ after o ≠ none
  kept : ∀ o, before o ≠ none → after o ≠ none
  origin : ∀ o, after o ≠ none → o.tag = .evict ∨ before o ≠ none

theorem WriteBacks.nil (before : DrcRequest → Option DrcRequest) : WriteBacks req before before [] :=
  ⟨nodup_nil, nofun, fun _ h => h, fun _ h => .inr h⟩

theorem WriteBacks.single (before : DrcRequest → Option DrcRequest) (victim : Nat) (accepted : Bool) :
    WriteBacks req before (update before (req.evictFor victim) (some req))
      (if accepted then [req.evictFor victim] else []) := by
  have hsome : ∀ o, update before (req.evictFor victim) (some req) o ≠ none ↔
      o = req.evictFor victim ∨ before o ≠ none := by
    intro o
    by_cases ho : o = req.evictFor victim
    · rw [ho, update_self]
      exact iff_of_true (some_ne_none _) (.inl rfl)
    · rw [update_of_ne ho, or_iff_right ho]
  constructor
  case nodup => cases accepted <;> simp
  case own =>
    intro o ho
    obtain rfl : o = req.evictFor victim := by
      cases accepted with
      | true => exact mem_singleton.mp ho
      | false => cases ho
    exact ⟨rfl, rfl, (hsome _).mpr (.inl rfl)⟩
  case kept => exact fun o ho => (hsome o).mpr (.inr ho)
  case origin =>
    intro o ho
    refine ((hsome o).mp ho).imp_left ?_
    rintro rfl
    rfl

/-- What is left of the tags after a victim was evicted, if one was; the other sets stay as they
are. -/
structure RoomMade (req : DrcRequest) (before after : CacheBank g) : Prop where
  tags : ∀ i, (after.tags i).Sublist (before.tags i)
  others : ∀ i, i ≠ g.setID req.address → after.sets i = before.sets i
  room : (before.setFull req.address = true → ∃ victim, before.chooseVictim req.address = some (true, victim)) →
    after.setFull req.address = false

theorem RoomMade.of_clean {b : CacheBank g} {victim : Nat} (hfull : b.setFull req.address = true)
    (hvictim : b.chooseVictim req.address = some (false, victim)) : RoomMade req b b := by
  refine ⟨fun _ => List.Sublist.refl _, fun _ _ => rfl, fun hdirty => ?_⟩
  obtain ⟨v, hv⟩ := hdirty hfull
  rw [hvictim] at hv
  cases hv

variable (d : HierDRAMCache g)

theorem makeRoom_spec (h : d.outstandingEvicts req = none) (ready : DrcReady) :
    ∃ bank outstandingEvicts evicts, d.makeRoom req ready = some ({ d with bank, outstandingEvicts }, evicts) ∧
      RoomMade req d.bank bank ∧ WriteBacks req d.outstandingEvicts outstandingEvicts evicts := by
  unfold HierDRAMCache.makeRoom
  by_cases hfull : d.bank.setFull req.address = true
  · obtain ⟨dirty, victim, hvictim, hset, hpresent⟩ := CacheBank.chooseVictim_spec hfull
    rw [if_pos hfull, hvictim, bind_some]
    cases dirty with
    | false => exact ⟨_, _, _, rfl, .of_clean hfull hvictim, .nil _⟩
    | true =>
      obtain ⟨bank, hevict⟩ : ∃ bank, d.bank.evict victim = some bank :=
        ⟨_, assertThat_map_eq_some.mpr ⟨hpresent, rfl⟩⟩
      refine ⟨bank, _, _, ?_, ⟨CacheBank.evict_tags hevict, fun i hi => ?_, fun _ => ?_⟩, .single _ victim ready.evict⟩
      · exact bind_eq_some_iff.mpr ⟨bank, hevict, assertThat_map_eq_some.mpr ⟨h, rfl⟩⟩
      · rw [← hset] at hi
        exact CacheBank.evict_sets_of_ne hevict hi
      · exact CacheBank.evict_setFull hevict hset
  · rw [if_neg hfull]
    refine ⟨_, _, _, rfl, ⟨fun _ => List.Sublist.refl _, fun _ _ => rfl, fun _ => ?_⟩, .nil _⟩
    exact eq_false_iff.mpr hfull

theorem issueCommand_hit (hit : d.bank.present req.address = true) (ready : DrcReady) :
    ∃ bank, d.issueCommand req ready = some ({ d with bank }, []) ∧ (∀ i, bank.tags i = d.bank.tags i) ∧
      ∀ a, bank.setFull a = d.bank.setFull a := by
  unfold HierDRAMCache.issueCommand
  rw [if_pos hit]
  cases req.write with
  | false => exact ⟨d.bank, rfl, fun _ => rfl, fun _ => rfl⟩
  | true => exact ⟨_, rfl, d.bank.tags_setDirty req.address, d.bank.setFull_setDirty req.address⟩

theorem Inv.issueHit (h : Inv s) (hit : s.drc.bank.present req.address = true) (ready : DrcReady) :
    ∃ t, step s (.issue req ready) = some t ∧ Inv t ∧ t.last = none ∧ t.completed = s.completed ∧
      t.missed = s.missed ∧ (∀ i, t.drc.bank.tags i = s.drc.bank.tags i) ∧
      ∀ a, t.drc.bank.setFull a = s.drc.bank.setFull a := by
  obtain ⟨bank, hissue, htags, hfull⟩ := issueCommand_hit s.drc hit ready
  refine ⟨{ s with drc := { s.drc with bank }, last := none }, ?_, ?_, rfl, rfl, rfl, htags, hfull⟩
  · refine (congrArg (Option.map _) hissue).trans ?_
    dsimp only [map_some]
    rw [if_pos hit, append_nil]
  · exact { h with }

theorem issueCommand_miss (miss : d.bank.present req.address = false)
    (hevicts : d.outstandingEvicts req = none)
    (hread : d.outstanding .memRead (req.part .memRead) = none) (hcaching : d.cachingMap req = none)
    (ready : DrcReady) :
    ∃ bank outstandingEvicts evicts,
      d.issueCommand req ready = some
        (⟨bank, fun p => update (d.outstanding p) (req.part p) (some req), outstandingEvicts,
          update d.cachingMap req (some fun _ => false)⟩,
          evicts ++ ([.memRead, .fill].filter ready.part).map req.part) ∧
      RoomMade req d.bank bank ∧ WriteBacks req d.outstandingEvicts outstandingEvicts evicts := by
  obtain ⟨bank, outstandingEvicts, evicts, hroom, hmade, hback⟩ := makeRoom_spec d hevicts ready
  refine ⟨bank, outstandingEvicts, evicts, ?_, hmade, hback⟩
  unfold HierDRAMCache.issueCommand
  rw [if_neg (eq_false_iff.mp miss), hroom, bind_some]
  dsimp only [HierDRAMCache.fetch]
  rw [assertThat_true hread, assertThat_true hcaching]
  rfl

theorem Tracked.issue {inflight completed missed issued : List DrcRequest} (h : Tracked inflight completed missed)
    (hnew : ∀ r ∈ missed, r.id ≠ req.id) (hnodup : issued.Nodup) (hid : ∀ o ∈ issued, o.id = req.id) :
    Tracked (inflight ++ issued) completed (req :: missed) := by
  have hold : ∀ o, o ∈ inflight ∨ o ∈ completed → o.id ≠ req.id := by
    intro o ho
    obtain ⟨r, hr, hro⟩ := h.known o ho
    exact hro ▸ hnew r hr
  constructor
  case ids =>
    intro r hr r' hr' heq
    rcases mem_cons.mp hr with hreq | hmem
    · rcases mem_cons.mp hr' with hreq' | hmem'
      · rw [hreq, hreq']
      · exact absurd (hreq ▸ heq.symm) (hnew r' hmem')
    · rcases mem_cons.mp hr' with hreq' | hmem'
      · exact absurd (hreq' ▸ heq) (hnew r hmem)
      · exact h.ids r hmem r' hmem' heq
  case nodup =>
    refine h.nodup.append hnodup fun o ho hissued => ?_
    exact hold o (.inl ho) (hid o hissued)
  case fresh =>
    intro o ho hdone
    rcases mem_append.mp ho with ho | hissued
    · exact h.fresh o ho hdone
    · exact hold o (.inr hdone) (hid o hissued)
  case known =>
    intro o ho
    have hknown : o ∈ inflight ∨ o ∈ completed → ∃ r ∈ req :: missed, r.id = o.id := by
      intro ho
      obtain ⟨r, hr, hro⟩ := h.known o ho
      exact ⟨r, mem_cons_of_mem req hr, hro⟩
    rcases ho with ho | hdone
    · rcases mem_append.mp ho with ho | hissued
      · exact hknown (.inl ho)
      · exact ⟨req, mem_cons_self, (hid o hissued).symm⟩
    · exact hknown (.inr hdone)

theorem part_ne_new (hnew : ∀ r ∈ s.missed, r.id ≠ req.id) (hr : r ∈ s.missed) : r.part p ≠ req.part p' := by
  intro heq
  have hid : (r.part p).id = (req.part p').id := congrArg DrcRequest.id heq
  exact hnew r hr hid

section

variable (h : Inv s)
include h

section

variable (hnew : ∀ r ∈ s.missed, r.id ≠ req.id)
include hnew

theorem Inv.new_not_completed (p : DrcPart) : req.part p ∉ s.completed := by
  intro hdone
  obtain ⟨r, hr, hid⟩ := h.tracked.known _ (.inr hdone)
  exact hnew r hr hid

theorem Inv.new_not_noted (htag : req.tag = .access) :
    s.drc.outstandingEvicts req = none ∧ s.drc.outstanding .memRead (req.part .memRead) = none ∧
      s.drc.cachingMap req = none := by
  refine ⟨?_, Option.eq_none_iff_forall_ne_some.mpr fun r hr => ?_,
    Option.eq_none_iff_forall_ne_some.mpr fun flags hflags => ?_⟩
  · by_contra hsome
    have hevict := h.evicts req hsome
    rw [htag] at hevict
    cases hevict
  · obtain ⟨hr, hpart, -⟩ := (h.outstanding _ _ _).mp hr
    exact part_ne_new hnew hr hpart.symm
  · exact hnew req ((h.caching req flags).mp hflags).1 rfl

theorem Inv.outstanding_issue (p : DrcPart) (o r : DrcRequest) :
    update (s.drc.outstanding p) (req.part p) (some req) o = some r ↔
      r ∈ req :: s.missed ∧ o = r.part p ∧ o ∉ s.completed := by
  by_cases ho : o = req.part p
  · rw [ho, update_self, some_inj]
    constructor
    · rintro rfl
      exact ⟨mem_cons_self, rfl, h.new_not_completed hnew p⟩
    · rintro ⟨hr, heq, -⟩
      rcases mem_cons.mp hr with hreq | hmem
      · exact hreq.symm
      · exact absurd heq.symm (part_ne_new hnew hmem)
  · rw [update_of_ne ho, h.outstanding, mem_cons]
    constructor
    · exact fun ⟨hr, heq, hdone⟩ => ⟨.inr hr, heq, hdone⟩
    · rintro ⟨hreq | hr, heq, hdone⟩
      · exact absurd (hreq ▸ heq) ho
      · exact ⟨hr, heq, hdone⟩

theorem Inv.caching_issue (r : DrcRequest) (flags : DrcPart → Bool) :
    update s.drc.cachingMap req (some fun _ => false) r = some flags ↔
      r ∈ req :: s.missed ∧ (∃ p, r.part p ∉ s.completed) ∧ flags = fun p => decide (r.part p ∈ s.completed) := by
  by_cases hr : r = req
  · have hflags : (fun p => decide (req.part p ∈ s.completed)) = fun _ => false :=
      funext fun p => decide_eq_false (h.new_not_completed hnew p)
    rw [hr, update_self, some_inj, hflags, and_iff_right mem_cons_self,
      and_iff_right ⟨.memRead, h.new_not_completed hnew .memRead⟩, eq_comm]
  · rw [update_of_ne hr, h.caching, mem_cons, or_iff_right hr]

theorem Inv.issueMiss (htag : req.tag = .access) (miss : s.drc.bank.present req.address = false) (ready : DrcReady) :
    ∃ t, step s (.issue req ready) = some t ∧ Inv t ∧ t.last = none ∧ t.completed = s.completed ∧
      t.missed = req :: s.missed ∧ RoomMade req s.drc.bank t.drc.bank := by
  obtain ⟨hevicts, hread, hcaching⟩ := h.new_not_noted hnew htag
  obtain ⟨bank, outstandingEvicts, evicts, hissue, hmade, hback⟩ :=
    issueCommand_miss s.drc miss hevicts hread hcaching ready
  have hparts : ∀ o ∈ ([.memRead, .fill].filter ready.part).map req.part, ∃ p, o = req.part p := by
    intro o ho
    obtain ⟨p, -, rfl⟩ := mem_map.mp ho
    exact ⟨p, rfl⟩
  refine ⟨_, congrArg (Option.map _) hissue, ?_, rfl, rfl, if_neg (eq_false_iff.mp miss), hmade⟩
  rw [if_neg (eq_false_iff.mp miss)]
  constructor
  case tracked =>
    refine h.tracked.issue hnew ?_ fun o ho => ?_
    · refine hback.nodup.append ((List.Nodup.filter _ (by decide)).map (part_inj req)) fun o ho hissued => ?_
      obtain ⟨p, rfl⟩ := hparts o hissued
      cases (hback.own _ ho).1
    · rcases mem_append.mp ho with ho | hissued
      · exact (hback.own o ho).2.1
      · obtain ⟨p, rfl⟩ := hparts o hissued
        rfl
  case inflight =>
    intro o ho
    rcases mem_append.mp ho with ho | hissued
    · rcases h.inflight o ho with ⟨r, hr, p, hp⟩ | ⟨hevict, hsome⟩
      · exact .inl ⟨r, mem_cons_of_mem req hr, p, hp⟩
      · exact .inr ⟨hevict, hback.kept o hsome⟩
    · rcases mem_append.mp hissued with ho | hissued
      · exact .inr ⟨(hback.own o ho).1, (hback.own o ho).2.2⟩
      · obtain ⟨p, hp⟩ := hparts o hissued
        exact .inl ⟨req, mem_cons_self, p, hp⟩
  case outstanding => exact h.outstanding_issue hnew
  case evicts =>
    intro o ho
    exact (hback.origin o ho).elim id (h.evicts o)
  case caching => exact h.caching_issue hnew

end

/-! ### Runs -/

omit h in
/-- Nothing but a read or a fill that completes can put a line in the cache. -/
theorem correct_of_sublist {t : DrcSession g} (h : Correct s)
    (htags : ∀ i, (t.drc.bank.tags i).Sublist (s.drc.bank.tags i)) (hlast : ∀ r p, t.last ≠ some (DrcRequest.part r p)) :
    Correct t :=
  ⟨fun i => (h.1 i).sublist (htags i), fun r _ ⟨p, hp⟩ => absurd hp (hlast r p)⟩

theorem Inv.completePart_correct_iff (hcorrect : Correct s) (hr : r ∈ s.missed) {t : DrcSession g}
    (hmissed : t.missed = s.missed) (hlast : t.last = some (r.part p)) (hcompleted : t.completed = r.part p :: s.completed)
    (hbank : t.drc.bank = if r.part p.other ∈ s.completed then s.drc.bank.install r.address else s.drc.bank) :
    Correct t ↔ HasRoom s (.complete (r.part p)) := by
  have hroom : HasRoom s (.complete (r.part p)) ↔ (r.part p.other ∈ s.completed →
      s.drc.bank.setFull r.address = s.drc.bank.present r.address) := by
    constructor
    · exact fun hroom => hroom r hr p rfl
    · intro hroom r' hr' p' heq
      obtain ⟨rfl, rfl⟩ := (h.part_eq hr' hr).mp heq
      exact hroom
  have hfilled : (∀ r' ∈ s.missed, (∃ q, t.last = some (r'.part q)) → (∀ q, r'.part q ∈ t.completed) →
      t.drc.bank.present r'.address = true) ↔ (r.part p.other ∈ s.completed → t.drc.bank.present r.address = true) := by
    have hall : (∀ q, r.part q ∈ t.completed) ↔ r.part p.other ∈ s.completed := by
      rw [hcompleted]
      exact h.forall_part_mem_cons hr
    constructor
    · intro hfilled hdone
      exact hfilled r hr ⟨p, hlast⟩ (hall.mpr hdone)
    · rintro hfilled r' hr' ⟨q, hq⟩ hdone
      obtain ⟨rfl, -⟩ := (h.part_eq hr' hr).mp (mem_unique hlast hq)
      exact hfilled (hall.mp hdone)
  rw [Correct, hmissed, hfilled, hroom]
  by_cases hdone : r.part p.other ∈ s.completed
  · rw [hbank, if_pos hdone, forall_prop_of_true hdone, forall_prop_of_true hdone]
    exact CacheBank.install_correct_iff hcorrect.1
  · rw [hbank, if_neg hdone]
    exact iff_of_true ⟨hcorrect.1, fun hin => absurd hin hdone⟩ fun hin => absurd hin hdone

/-- No step fails, and a step keeps the cache correct exactly if there is room for the line that is
installed. -/
theorem Inv.step {e : Event} (hallowed : Allowed s e) :
    ∃ t, DrcSession.step s e = some t ∧ Inv t ∧ (Correct s → (Correct t ↔ HasRoom s e)) := by
  cases e with
  | issue req ready =>
    obtain ⟨htag, hnew, -⟩ := hallowed
    have hissue : ∃ t, DrcSession.step s (.issue req ready) = some t ∧ Inv t ∧ t.last = none ∧
        ∀ i, (t.drc.bank.tags i).Sublist (s.drc.bank.tags i) := by
      cases hit : s.drc.bank.present req.address with
      | true =>
        obtain ⟨t, hstep, ht, hlast, -, -, htags, -⟩ := h.issueHit hit ready
        exact ⟨t, hstep, ht, hlast, fun i => by rw [htags]⟩
      | false =>
        obtain ⟨t, hstep, ht, hlast, -, -, hmade⟩ := h.issueMiss hnew htag hit ready
        exact ⟨t, hstep, ht, hlast, hmade.tags⟩
    obtain ⟨t, hstep, ht, hlast, htags⟩ := hissue
    refine ⟨t, hstep, ht, fun hcorrect => iff_of_true ?_ trivial⟩
    refine correct_of_sublist hcorrect htags fun r p => ?_
    rw [hlast]
    exact nofun
  | complete o =>
    rcases h.inflight o hallowed with ⟨r, hr, p, rfl⟩ | ⟨htag, -⟩
    · obtain ⟨t, hstep, ht, hmissed, hlast, hcompleted, hbank⟩ := h.completePart hr hallowed
      exact ⟨t, hstep, ht, fun hcorrect => h.completePart_correct_iff hcorrect hr hmissed hlast hcompleted hbank⟩
    · obtain ⟨t, hstep, ht, hbank, -, -, hlast, hpart⟩ := h.completeEvict hallowed htag
      refine ⟨t, hstep, ht, fun hcorrect => iff_of_true ?_ fun r _ p heq => absurd heq.symm (hpart r p)⟩
      refine correct_of_sublist hcorrect (fun i => by rw [hbank]) fun r p heq => ?_
      rw [hlast] at heq
      exact hpart r p (some_inj.mp heq).symm

end

theorem inv_new : Inv (new : DrcSession g) := by
  refine ⟨⟨nofun, nodup_nil, nofun, fun o ho => ?_⟩, nofun, fun p o r => ?_, fun o ho => absurd rfl ho,
    fun r flags => ?_⟩
  · rcases ho with ho | ho <;> cases ho
  all_goals exact iff_of_false nofun fun hr => not_mem_nil hr.1

theorem correct_new : Correct (new : DrcSession g) := by
  refine ⟨fun i => ?_, nofun⟩
  exact (CacheBank.tags_new i).symm ▸ nodup_nil

/-- No assertion fails in a run. In all its states no set holds a tag twice and lines are present
when their reads and fills have completed, exactly if with each line that is installed its set has a
way that is not valid or the line is present, but not both. -/
theorem fills_correct_iff (g : CacheGeometry) (events : List Event)
    (hallowed : AllSteps step Allowed (new : DrcSession g) events) :
    (∃ t, run step (new : DrcSession g) events = some t) ∧
    ((∀ pre, pre <+: events → ∀ s, run step (new : DrcSession g) pre = some s → Correct s) ↔
      AllSteps step HasRoom (new : DrcSession g) events) := by
  have hstep : ∀ (s : DrcSession g) e, Inv s → Allowed s e → ∃ t, step s e = some t ∧ Inv t := by
    intro s e h ha
    obtain ⟨t, hs, ht, -⟩ := h.step ha
    exact ⟨t, hs, ht⟩
  obtain ⟨t, hrun, -⟩ := run_isSome step hstep events inv_new hallowed
  refine ⟨⟨t, hrun⟩, forall_run_iff_allSteps_of step ?_ events inv_new correct_new hallowed hrun⟩
  intro s e t h hcorrect ha hs
  obtain ⟨t', hs', ht, hiff⟩ := h.step ha
  obtain rfl : t' = t := mem_unique hs' hs
  exact ⟨ht, hiff hcorrect⟩

def Outstanding (s : DrcSession g) (r : DrcRequest) : Prop := r ∈ s.missed ∧ ∃ p, r.part p ∉ s.completed
  deriving Decidable

/-! ### Two small caches -/

def oneSet (ways : Nat) : CacheGeometry := ⟨1, ways + 1, 64, Nat.one_pos, succ_pos ways, succ_pos 63⟩

def readOf (id address : Nat) : DrcRequest := ⟨.access, id, address, false⟩

def allReady : DrcReady := ⟨true, true, fun _ => true, true⟩

def filled (id address : Nat) : List Event :=
  [.issue (readOf id address) allReady, .complete ((readOf id address).part .memRead),
    .complete ((readOf id address).part .fill)]

/-- Two lines are filled one after the other. -/
theorem fills_correct_iff_two : AllSteps step Allowed (new : DrcSession (oneSet 1)) (filled 0 0 ++ filled 1 64) ∧
    ∀ pre, pre <+: filled 0 0 ++ filled 1 64 → ∀ s, run step (new : DrcSession (oneSet 1)) pre = some s → Correct s := by
  have hallowed : AllSteps step Allowed (new : DrcSession (oneSet 1)) (filled 0 0 ++ filled 1 64) := by
    decide +kernel
  refine ⟨hallowed, (fills_correct_iff (oneSet 1) _ hallowed).2.mpr ?_⟩
  decide +kernel

/-- Two reads of one line that overlap install it twice; and a full set whose last way is clean
stays as it is, so that the next line is not installed. -/
theorem fills_fail :
    (let events := [.issue (readOf 0 0) allReady, .issue (readOf 1 0) allReady] ++
       [Event.complete ((readOf 0 0).part .memRead), .complete ((readOf 0 0).part .fill),
        .complete ((readOf 1 0).part .memRead), .complete ((readOf 1 0).part .fill)]
     AllSteps step Allowed (new : DrcSession (oneSet 1)) events ∧
     ∃ s, run step (new : DrcSession (oneSet 1)) events = some s ∧ ¬(s.drc.bank.tags 0).Nodup) ∧
    (let events := filled 0 0 ++ filled 1 64
     AllSteps step Allowed (new : DrcSession (oneSet 0)) events ∧
     ∃ s, run step (new : DrcSession (oneSet 0)) events = some s ∧ s.last = some ((readOf 1 64).part .fill) ∧
       (readOf 1 64).part .memRead ∈ s.completed ∧ s.drc.bank.present 64 = false) := by
  constructor
  · decide +kernel
  · decide +kernel

end DrcSession

end Shma.Nvmain
