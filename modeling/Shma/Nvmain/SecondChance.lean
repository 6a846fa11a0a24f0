import Shma.Nvmain.MultiQueueMigrator

/-!
# The second chance of a page of the promotion channel

`CheckQueue` of `Utils/MultiQueueMigrator/MultiQueueMigrator.cpp`: a page of the promotion
channel whose time is over sinks by one queue and is noted in `demotedDRAMList`; the next time
it is dropped. `RemoveFromList` works on a copy of the list.

Beside the queues, a history counts how often a page has sunk, in all and since it last joined
the queues.
-/
namespace Shma.Nvmain

namespace MultiQueueMigrator

def dramHead (mq : MultiQueueMigrator) (pos : Nat) : Option PageType :=
  match mq.rankingQueues pos with
  | [] => none
  | page :: _ =>
    if page.channelNumber = mq.promotionChannel ∧ mq.currentTime > page.expirationTime then some page else none

def InQueue (mq : MultiQueueMigrator) (pos pageNo : Nat) : Prop :=
  ∃ page ∈ mq.rankingQueues pos, page.pageNumber = pageNo
  deriving Decidable

variable {mq : MultiQueueMigrator} {pos : Nat} {page : PageType}

theorem dramHead_eq_some (h : mq.dramHead pos = some page) :
    ∃ rest, mq.rankingQueues pos = page :: rest ∧ page.channelNumber = mq.promotionChannel ∧
      mq.currentTime > page.expirationTime := by
  unfold dramHead at h
  split at h
  · cases h
  · rename_i head rest hq
    split at h
    · cases h
      exact ⟨rest, hq, ‹_›⟩
    · cases h

theorem checkHead_of_dramHead (h : mq.dramHead pos = some page) :
    ∃ rest, mq.rankingQueues pos = page :: rest ∧
      mq.checkHead pos =
        if page.pageNumber ∈ mq.demotedDramList ∨ pos = 0 then mq.leave pos rest
        else { (mq.leave pos rest).push (pos - 1) { page with expirationTime := mq.currentTime + lifeTime } with
          demotedDramList := mq.demotedDramList ++ [page.pageNumber] } := by
  obtain ⟨rest, hq, hchannel, hexpired⟩ := dramHead_eq_some h
  refine ⟨rest, hq, ?_⟩
  unfold checkHead
  rw [hq]
  simp only
  rw [if_pos hexpired, if_pos hchannel]
  by_cases hmem : page.pageNumber ∈ mq.demotedDramList
  · rw [if_pos hmem, if_pos (.inl hmem)]
  · rw [if_neg hmem]
    by_cases hpos : pos > 0
    · rw [if_pos hpos, if_neg (not_or.mpr ⟨hmem, hpos.ne'⟩)]
    · rw [if_neg hpos, if_pos (.inr (Nat.eq_zero_of_not_pos hpos))]

theorem checkHead_demotedDramList_of_none (h : mq.dramHead pos = none) :
    (mq.checkHead pos).demotedDramList = mq.demotedDramList := by
  unfold dramHead at h
  unfold checkHead
  split
  · rfl
  · rename_i page rest hq
    rw [hq] at h
    simp only at h ⊢
    by_cases hexpired : mq.currentTime > page.expirationTime
    · have hchannel : page.channelNumber ≠ mq.promotionChannel := by
        intro he
        rw [if_pos ⟨he, hexpired⟩] at h
        cases h
      rw [if_pos hexpired, if_neg hchannel]
      split <;> rfl
    · rw [if_neg hexpired]

/-- What `CheckQueue` does to the head of a queue, for a page of the promotion channel whose time is
over. -/
theorem Ranked.checkHead_inQueue (hr : mq.Ranked) (h : mq.dramHead pos = some page) :
    (0 < pos → ((mq.checkHead pos).InQueue (pos - 1) page.pageNumber ↔ page.pageNumber ∉ mq.demotedDramList)) ∧
      (pos = 0 → ∀ k, ¬(mq.checkHead pos).InQueue k page.pageNumber) := by
  obtain ⟨rest, hq, hcheck⟩ := checkHead_of_dramHead h
  have habsent : (mq.leave pos rest).Absent page.pageNumber :=
    (hr.leave (show mq.rankingQueues pos = [] ++ page :: rest from hq)).2
  have hout : ∀ k, ¬(mq.leave pos rest).InQueue k page.pageNumber := by
    rintro k ⟨q, hmem, he⟩
    exact habsent k q hmem he
  rw [hcheck]
  by_cases hleave : page.pageNumber ∈ mq.demotedDramList ∨ pos = 0
  · rw [if_pos hleave]
    refine ⟨fun hpos => ?_, fun _ => hout⟩
    have hmem := hleave.resolve_right hpos.ne'
    exact iff_of_false (hout _) (not_not.mpr hmem)
  · rw [if_neg hleave]
    obtain ⟨hmem, hpos⟩ := not_or.mp hleave
    refine ⟨fun _ => iff_of_true ?_ hmem, fun hzero => absurd hzero hpos⟩
    exact ⟨_, mem_push.mpr (.inr ⟨rfl, rfl⟩), rfl⟩

end MultiQueueMigrator

open MultiQueueMigrator

inductive QueueOp where
  | touch (a : Access)
  | check (pos : Nat)

def QueueOp.ofAccess (a : Access) : List QueueOp := .touch a :: (List.range queueNum).map .check

structure QueueHistory where
  mq : MultiQueueMigrator
  /-- How often a page has sunk as a page of the promotion channel. -/
  demotions : Nat → Nat
  /-- The same, since the page last joined the queues. -/
  sinceJoin : Nat → Nat

namespace QueueHistory

def new (promotionChannel : Nat) : QueueHistory := ⟨.new promotionChannel, fun _ => 0, fun _ => 0⟩

def step (s : QueueHistory) : QueueOp → QueueHistory
  | .touch a =>
    { s with
      mq := s.mq.touch a
      sinceJoin :=
        if (s.mq.noteAccess a).locateQueue a.pageNo = none then update s.sinceJoin a.pageNo 0
        else s.sinceJoin }
  | .check pos =>
    let mq := s.mq.checkHead pos
    match s.mq.dramHead pos with
    | none => { s with mq }
    | some page =>
      if 0 < pos ∧ mq.InQueue (pos - 1) page.pageNumber then
        { mq
          demotions := update s.demotions page.pageNumber (s.demotions page.pageNumber + 1)
          sinceJoin := update s.sinceJoin page.pageNumber (s.sinceJoin page.pageNumber + 1) }
      else { s with mq }

def after (promotionChannel : Nat) (ops : List QueueOp) : QueueHistory := ops.foldl step (new promotionChannel)

/-- The list has the pages that have ever sunk. -/
structure Inv (s : QueueHistory) : Prop where
  ranked : s.mq.Ranked
  listed : ∀ p, p ∈ s.mq.demotedDramList ↔ 0 < s.demotions p

variable {s : QueueHistory} {pos : Nat} {page : PageType}

theorem touch_demotedDramList (mq : MultiQueueMigrator) (a : Access) :
    (mq.touch a).demotedDramList = mq.demotedDramList := by
  unfold MultiQueueMigrator.touch
  simp only
  split
  · rfl
  · unfold accessPage
    split <;> rfl

theorem Inv.touch (h : s.Inv) (a : Access) : (s.step (.touch a)).Inv where
  ranked := h.ranked.touch a
  listed p := by
    show p ∈ (s.mq.touch a).demotedDramList ↔ 0 < s.demotions p
    rw [touch_demotedDramList]
    exact h.listed p

theorem Inv.check (h : s.Inv) (hpos : pos < queueNum) : (s.step (.check pos)).Inv := by
  have hranked := h.ranked.checkHead hpos
  unfold step
  simp only
  split
  · rename_i hnone
    refine ⟨hranked, fun p => ?_⟩
    rw [checkHead_demotedDramList_of_none hnone]
    exact h.listed p
  · rename_i page hhead
    obtain ⟨hin, _⟩ := h.ranked.checkHead_inQueue hhead
    obtain ⟨rest, _, hcheck⟩ := checkHead_of_dramHead hhead
    by_cases hsinks : 0 < pos ∧ (s.mq.checkHead pos).InQueue (pos - 1) page.pageNumber
    · rw [if_pos hsinks]
      refine ⟨hranked, fun p => ?_⟩
      have hnew := (hin hsinks.1).mp hsinks.2
      rw [hcheck, if_neg (not_or.mpr ⟨hnew, hsinks.1.ne'⟩)]
      show p ∈ s.mq.demotedDramList ++ [page.pageNumber] ↔ 0 < update s.demotions page.pageNumber _ p
      rw [mem_append, mem_singleton, h.listed]
      by_cases hp : p = page.pageNumber
      · rw [hp, update_self]
        exact iff_of_true (.inr rfl) (succ_pos _)
      · rw [update_of_ne hp]
        exact or_iff_left hp
    · rw [if_neg hsinks]
      refine ⟨hranked, fun p => ?_⟩
      have hleave : page.pageNumber ∈ s.mq.demotedDramList ∨ pos = 0 := by
        by_contra hnot
        obtain ⟨hmem, hne⟩ := not_or.mp hnot
        have h0 := Nat.pos_of_ne_zero hne
        exact hsinks ⟨h0, (hin h0).mpr hmem⟩
      rw [hcheck, if_pos hleave]
      exact h.listed p

theorem inv_new (promotionChannel : Nat) : (new promotionChannel).Inv :=
  ⟨ranked_new promotionChannel, fun _ => iff_of_false not_mem_nil (Nat.lt_irrefl 0)⟩

theorem check_lt {accesses : List Access} {pos : Nat} (h : QueueOp.check pos ∈ accesses.flatMap QueueOp.ofAccess) :
    pos < queueNum := by
  obtain ⟨a, _, hmem⟩ := List.mem_flatMap.mp h
  obtain he | hmem := mem_cons.mp hmem
  · cases he
  · obtain ⟨k, hk, he⟩ := mem_map.mp hmem
    cases he
    exact mem_range.mp hk

theorem inv_after (promotionChannel : Nat) {accesses : List Access} {ops : List QueueOp}
    (hops : ops <+: accesses.flatMap QueueOp.ofAccess) : (after promotionChannel ops).Inv := by
  have hchecks : ∀ pos, QueueOp.check pos ∈ ops → pos < queueNum := fun _ hmem => check_lt (hops.subset hmem)
  clear hops
  induction ops using List.reverseRecOn with
  | nil => exact inv_new promotionChannel
  | append_singleton ops op ih =>
    rw [after, List.foldl_append]
    have hbefore := ih fun pos hmem => hchecks pos (mem_append_left _ hmem)
    cases op with
    | touch a => exact hbefore.touch a
    | check pos => exact hbefore.check (hchecks pos (mem_append_right _ mem_cons_self))

/-- A page of the promotion channel at the head of a queue other than the first one, whose time is
over for the first time since it joined the queues, goes to the queue below. -/
def SecondChance (s : QueueHistory) (pos : Nat) : Prop :=
  ∀ page, s.mq.dramHead pos = some page → 0 < pos → s.sinceJoin page.pageNumber = 0 →
    (s.mq.checkHead pos).InQueue (pos - 1) page.pageNumber

/-- A page of the promotion channel that leaves the queues is no longer on the list. -/
def Forgotten (s : QueueHistory) (pos : Nat) : Prop :=
  ∀ page, s.mq.dramHead pos = some page → (∀ k, ¬(s.mq.checkHead pos).InQueue k page.pageNumber) →
    page.pageNumber ∉ (s.mq.checkHead pos).demotedDramList

/-- At every point of the handling of any accesses, a page whose time is over for the first time
since it joined the queues is given its second chance exactly if it has never sunk before, in any of
its earlier lives in the queues, and a page that leaves is off the list exactly if it has never
sunk. -/
theorem second_chance_iff (promotionChannel : Nat) (accesses : List Access) (ops : List QueueOp)
    (hops : ops <+: accesses.flatMap QueueOp.ofAccess) (pos : Nat) :
    let s := after promotionChannel ops
    (s.SecondChance pos ↔ ∀ page, s.mq.dramHead pos = some page → 0 < pos → s.sinceJoin page.pageNumber = 0 →
      s.demotions page.pageNumber = 0) ∧
    (s.Forgotten pos ↔ ∀ page, s.mq.dramHead pos = some page →
      (∀ k, ¬(s.mq.checkHead pos).InQueue k page.pageNumber) → s.demotions page.pageNumber = 0) := by
  intro s
  have hinv : s.Inv := inv_after promotionChannel hops
  have hlisted : ∀ p, p ∉ s.mq.demotedDramList ↔ s.demotions p = 0 := by
    intro p
    rw [hinv.listed, Nat.pos_iff_ne_zero, not_not]
  constructor
  · refine forall_congr' fun page => forall_congr' fun hhead => forall_congr' fun hpos => forall_congr' fun _ => ?_
    rw [(hinv.ranked.checkHead_inQueue hhead).1 hpos, hlisted]
  · refine forall_congr' fun page => forall_congr' fun hhead => forall_congr' fun hout => ?_
    -- a page that is in no queue afterwards has not been put on the list now
    obtain ⟨rest, _, hcheck⟩ := checkHead_of_dramHead hhead
    have hleave : page.pageNumber ∈ s.mq.demotedDramList ∨ pos = 0 := by
      by_contra hnot
      obtain ⟨hmem, hne⟩ := not_or.mp hnot
      have h0 := Nat.pos_of_ne_zero hne
      exact hout (pos - 1) (((hinv.ranked.checkHead_inQueue hhead).1 h0).mpr hmem)
    rw [hcheck, if_pos hleave]
    exact hlisted page.pageNumber

/-- A page of the promotion channel is accessed twice, and another page until the time of the first
is over. -/
def onceExpired : List Access := [⟨7, 0⟩, ⟨7, 0⟩, ⟨8, 1⟩, ⟨8, 1⟩, ⟨8, 1⟩, ⟨8, 1⟩, ⟨8, 1⟩]

def beforeCheck (accesses : List Access) : List QueueOp :=
  let ops := accesses.flatMap QueueOp.ofAccess
  ops.take (ops.length - 7)

theorem second_chance_iff_first_life :
    let s := after 0 (beforeCheck onceExpired)
    s.mq.dramHead 1 = some ⟨7, 2, 6, 0⟩ ∧ s.SecondChance 1 := by
  have hhead : (after 0 (beforeCheck onceExpired)).mq.dramHead 1 = some ⟨7, 2, 6, 0⟩ := by decide +kernel
  refine ⟨hhead, (second_chance_iff 0 onceExpired (beforeCheck onceExpired) (List.take_prefix _ _) 1).1.mpr ?_⟩
  intro page hpage _ _
  obtain rfl := mem_unique hhead hpage
  decide +kernel

/-- The page sinks and is dropped, and comes back: its time is over for the first time since, and it
is dropped from the second queue. -/
theorem second_chance_denied :
    let accesses := onceExpired ++ List.replicate 5 ⟨8, 1⟩ ++ [⟨7, 0⟩, ⟨7, 0⟩] ++ List.replicate 5 ⟨8, 1⟩
    let s := after 0 (beforeCheck accesses)
    s.mq.dramHead 1 = some ⟨7, 2, 18, 0⟩ ∧ s.sinceJoin 7 = 0 ∧ ¬(s.mq.checkHead 1).InQueue 0 7 ∧
      7 ∈ (s.mq.checkHead 1).demotedDramList := by
  decide +kernel

end QueueHistory

end Shma.Nvmain
