import Mathlib.Data.List.Induction
import Mathlib.Data.List.Nodup
import Mathlib.Data.List.Pairwise
import Shma.Common.Const

/-!
# The ranking queues of the multi-queue migrator

`Utils/MultiQueueMigrator/MultiQueueMigrator.cpp`: pages that are accessed climb
through eight queues as their reference counter grows, and the head of a queue
sinks by one when its time is over. The model is the part of `TryMigration` that
keeps the queues; the attempt to migrate between the two, which only reads where a
page was found, is left out.

`currentTime` and the counters grow by one per access and are naturals.
-/
namespace Shma.Nvmain

def queueNum : Nat := 8

def lifeTime : Nat := 4

structure PageType where
  (pageNumber referenceCounter expirationTime channelNumber : Nat)
  deriving DecidableEq, Repr

structure MultiQueueMigrator where
  (promotionChannel currentTime : Nat)
  rankingQueues : Nat → List PageType
  (dramPageList demotedDramList : List Nat)

namespace MultiQueueMigrator

def new (promotionChannel : Nat) : MultiQueueMigrator where
  promotionChannel := promotionChannel
  currentTime := 0
  rankingQueues _ := []
  dramPageList := []
  demotedDramList := []

section

variable (mq : MultiQueueMigrator)

def push (pos : Nat) (page : PageType) : MultiQueueMigrator :=
  { mq with rankingQueues := update mq.rankingQueues pos (mq.rankingQueues pos ++ [page]) }

def leave (pos : Nat) (pages : List PageType) : MultiQueueMigrator :=
  { mq with rankingQueues := update mq.rankingQueues pos pages }

def joinQueue (page : PageType) : MultiQueueMigrator := mq.push 0 page

/-- `LocateQueue`, with `none` for `-1`. -/
def locateQueue (pageNo : Nat) : Option Nat :=
  (List.range queueNum).find? fun pos => (mq.rankingQueues pos).any fun page => page.pageNumber = pageNo

/-- `AccessPage`: the first entry of the page goes, changed, to the back of its queue or of
the next one, and is erased where it was. -/
def accessPage (pos pageNo : Nat) : MultiQueueMigrator :=
  match (mq.rankingQueues pos).find? fun page => page.pageNumber = pageNo with
  | none => mq
  | some page =>
    let page := { page with
      referenceCounter := page.referenceCounter + 1
      expirationTime := mq.currentTime + lifeTime }
    let target := if pos < queueNum - 1 ∧ page.referenceCounter ≥ 2 <<< pos then pos + 1 else pos
    (mq.leave pos ((mq.rankingQueues pos).eraseP fun page => page.pageNumber = pageNo)).push target page

/-- The body of the loop of `CheckQueue`. `RemoveFromList` gets its list by value, so a
demoted page stays on `demotedDRAMList`. -/
def checkHead (pos : Nat) : MultiQueueMigrator :=
  match mq.rankingQueues pos with
  | [] => mq
  | page :: rest =>
    if mq.currentTime > page.expirationTime then
      let sunk := { page with expirationTime := mq.currentTime + lifeTime }
      if page.channelNumber = mq.promotionChannel then
        if page.pageNumber ∈ mq.demotedDramList then mq.leave pos rest
        else if pos > 0 then
          { (mq.leave pos rest).push (pos - 1) sunk with
            demotedDramList := mq.demotedDramList ++ [page.pageNumber] }
        else mq.leave pos rest
      else if pos > 0 then (mq.leave pos rest).push (pos - 1) sunk
      else mq.leave pos rest
    else mq

def checkQueue : MultiQueueMigrator :=
  (List.range queueNum).foldl checkHead mq

end

structure Access where
  (pageNo channelNo : Nat)

section

variable (mq : MultiQueueMigrator) (a : Access)

/-- `currentTime++`, and a page of the promotion channel is noted in `DRAMPageList`. -/
def noteAccess : MultiQueueMigrator :=
  { mq with
    currentTime := mq.currentTime + 1
    dramPageList :=
      if a.channelNo = mq.promotionChannel ∧ a.pageNo ∉ mq.dramPageList then mq.dramPageList ++ [a.pageNo]
      else mq.dramPageList }

/-- What an access does before the queues are checked. -/
def touch : MultiQueueMigrator :=
  let mq := mq.noteAccess a
  match mq.locateQueue a.pageNo with
  | none => mq.joinQueue ⟨a.pageNo, 1, mq.currentTime + lifeTime, a.channelNo⟩
  | some location => mq.accessPage location a.pageNo

def handle : MultiQueueMigrator := (mq.touch a).checkQueue

end

/-! ### The invariant -/

/-- The ranking queues hold each page once, in the order in which the pages expire, and no
page above its rank. -/
structure Ranked (mq : MultiQueueMigrator) : Prop where
  /-- There are `queueNum` queues. -/
  outside : ∀ k, queueNum ≤ k → mq.rankingQueues k = []
  nodup : ∀ k, ((mq.rankingQueues k).map PageType.pageNumber).Nodup
  apart : ∀ i j page page', page ∈ mq.rankingQueues i → page' ∈ mq.rankingQueues j →
    page.pageNumber = page'.pageNumber → i = j
  sorted : ∀ k, (mq.rankingQueues k).Pairwise fun page page' => page.expirationTime ≤ page'.expirationTime
  /-- No page lives longer than one that is touched now. -/
  expires : ∀ k, ∀ page ∈ mq.rankingQueues k, page.expirationTime ≤ mq.currentTime + lifeTime
  rank : ∀ k, 0 < k → ∀ page ∈ mq.rankingQueues k, 2 ^ k ≤ page.referenceCounter
  counter : ∀ k, ∀ page ∈ mq.rankingQueues k, page.referenceCounter ≤ mq.currentTime

variable {mq mq' : MultiQueueMigrator} {pos pageNo : Nat} {page : PageType}

def Absent (mq : MultiQueueMigrator) (pageNo : Nat) : Prop :=
  ∀ k, ∀ page ∈ mq.rankingQueues k, page.pageNumber ≠ pageNo

theorem ranked_new (promotionChannel : Nat) : (new promotionChannel).Ranked where
  outside _ _ := rfl
  nodup _ := nodup_nil
  apart _ _ _ _ h := nomatch h
  sorted _ := List.Pairwise.nil
  expires _ _ h := nomatch h
  rank _ _ _ h := nomatch h
  counter _ _ h := nomatch h

section

variable (h : mq.Ranked)
include h

/-- Time passes, lists beside the queues change, pages leave. -/
theorem Ranked.sublist (htime : mq.currentTime ≤ mq'.currentTime)
    (hsub : ∀ k, (mq'.rankingQueues k).Sublist (mq.rankingQueues k)) : mq'.Ranked where
  outside k hk := List.sublist_nil.mp (h.outside k hk ▸ hsub k)
  nodup k := (h.nodup k).sublist ((hsub k).map _)
  apart i j page page' hi hj := h.apart i j page page' ((hsub i).mem hi) ((hsub j).mem hj)
  sorted k := (h.sorted k).sublist (hsub k)
  expires k page hp := Nat.le_trans (h.expires k page ((hsub k).mem hp)) (Nat.add_le_add_right htime _)
  rank k hk page hp := h.rank k hk page ((hsub k).mem hp)
  counter k page hp := Nat.le_trans (h.counter k page ((hsub k).mem hp)) htime

omit h in
theorem mem_push {k : Nat} {q : PageType} :
    q ∈ (mq.push pos page).rankingQueues k ↔ q ∈ mq.rankingQueues k ∨ k = pos ∧ q = page := by
  unfold push
  by_cases hk : k = pos
  · subst hk
    simp
  · simp [hk]

theorem Ranked.push (hpos : pos < queueNum) (habsent : mq.Absent page.pageNumber)
    (hexp : page.expirationTime = mq.currentTime + lifeTime) (hrank : 0 < pos → 2 ^ pos ≤ page.referenceCounter)
    (hcounter : page.referenceCounter ≤ mq.currentTime) : (mq.push pos page).Ranked where
  outside k hk := by
    have hne : k ≠ pos := by omega
    exact (update_of_ne hne _ _).trans (h.outside k hk)
  nodup k := by
    by_cases hk : k = pos
    · subst hk
      simp only [MultiQueueMigrator.push, update_self, map_append, List.map_cons, List.map_nil]
      apply List.Nodup.append (h.nodup k) (List.nodup_singleton _)
      rw [List.disjoint_singleton]
      intro hmem
      obtain ⟨q, hq, he⟩ := mem_map.mp hmem
      exact habsent k q hq he
    · simp only [MultiQueueMigrator.push, update_of_ne hk]
      exact h.nodup k
  apart i j q q' hi hj he := by
    obtain hold | ⟨hip, rfl⟩ := mem_push.mp hi
    · obtain hold' | ⟨_, rfl⟩ := mem_push.mp hj
      · exact h.apart i j q q' hold hold' he
      · exact absurd he (habsent i q hold)
    · obtain hold' | ⟨hjp, _⟩ := mem_push.mp hj
      · exact absurd he.symm (habsent j q' hold')
      · exact hip.trans hjp.symm
  sorted k := by
    by_cases hk : k = pos
    · subst hk
      simp only [MultiQueueMigrator.push, update_self]
      refine List.pairwise_append.mpr ⟨h.sorted k, List.pairwise_singleton _ _, fun q hq q' hq' => ?_⟩
      rw [mem_singleton.mp hq', hexp]
      exact h.expires k q hq
    · simp only [MultiQueueMigrator.push, update_of_ne hk]
      exact h.sorted k
  expires k q hq := by
    obtain hq | ⟨rfl, rfl⟩ := mem_push.mp hq
    · exact h.expires k q hq
    · exact Nat.le_of_eq hexp
  rank k hk q hq := by
    obtain hq | ⟨rfl, rfl⟩ := mem_push.mp hq
    · exact h.rank k hk q hq
    · exact hrank hk
  counter k q hq := by
    obtain hq | ⟨rfl, rfl⟩ := mem_push.mp hq
    · exact h.counter k q hq
    · exact hcounter

omit h in
theorem leave_sublist {pages : List PageType} (hsub : pages.Sublist (mq.rankingQueues pos)) (k : Nat) :
    ((mq.leave pos pages).rankingQueues k).Sublist (mq.rankingQueues k) := by
  show (update mq.rankingQueues pos pages k).Sublist _
  by_cases hk : k = pos
  · subst hk
    rw [update_self]
    exact hsub
  · rw [update_of_ne hk]

theorem Ranked.leave {front back : List PageType} (hq : mq.rankingQueues pos = front ++ page :: back) :
    (mq.leave pos (front ++ back)).Ranked ∧ (mq.leave pos (front ++ back)).Absent page.pageNumber := by
  have hsub : (front ++ back).Sublist (mq.rankingQueues pos) := by
    rw [hq]
    exact (List.sublist_cons_self page back).append_left front
  refine ⟨h.sublist (Nat.le_refl _) (leave_sublist hsub), fun k q hmem he => ?_⟩
  have hold : q ∈ mq.rankingQueues k := (leave_sublist hsub k).mem hmem
  have hpage : page ∈ mq.rankingQueues pos := by
    rw [hq]
    exact mem_append_right front mem_cons_self
  obtain rfl : k = pos := h.apart k pos q page hold hpage he
  have hnd := h.nodup k
  rw [hq, map_append, List.map_cons, List.nodup_middle] at hnd
  apply (nodup_cons.mp hnd).1
  rw [← map_append, ← he]
  apply List.mem_map_of_mem
  simpa [MultiQueueMigrator.leave] using hmem

omit h in
theorem find?_split {p : PageType → Bool} {pages : List PageType} (h : pages.find? p = some page) :
    p page ∧ ∃ front back, pages = front ++ page :: back ∧ pages.eraseP p = front ++ back := by
  obtain ⟨hp, front, back, rfl, hfront⟩ := List.find?_eq_some_iff_append.mp h
  refine ⟨hp, front, back, rfl, ?_⟩
  rw [List.eraseP_append_right _ (fun q hq => by simpa using hfront q hq), List.eraseP_cons_of_pos hp]

theorem Ranked.accessPage (hpos : pos < queueNum) (htime : ∀ k, ∀ page ∈ mq.rankingQueues k,
    page.referenceCounter < mq.currentTime) : (mq.accessPage pos pageNo).Ranked := by
  unfold MultiQueueMigrator.accessPage
  split
  · exact h
  · rename_i page hfind
    obtain ⟨_, front, back, hq, herase⟩ := find?_split hfind
    obtain ⟨hleave, habsent⟩ := h.leave hq
    have hmem : page ∈ mq.rankingQueues pos := List.mem_of_find?_eq_some hfind
    rw [herase]
    refine hleave.push ?_ habsent rfl ?_ (htime pos page hmem)
    · split
      · omega
      · exact hpos
    · split
      · rename_i hup
        intro _
        have hshift : 2 ^ (pos + 1) = 2 <<< pos := by rw [shiftLeft_eq, Nat.pow_succ, Nat.mul_comm]
        rw [hshift]
        exact hup.2
      · intro hk
        exact Nat.le_succ_of_le (h.rank pos hk page hmem)

theorem Ranked.joinQueue (habsent : mq.Absent page.pageNumber) (hexp : page.expirationTime = mq.currentTime + lifeTime)
    (hcounter : page.referenceCounter ≤ mq.currentTime) : (mq.joinQueue page).Ranked :=
  h.push (by decide) habsent hexp (fun h0 => absurd h0 (Nat.lt_irrefl 0)) hcounter

theorem Ranked.checkHead (hpos : pos < queueNum) : (mq.checkHead pos).Ranked := by
  unfold MultiQueueMigrator.checkHead
  split
  · exact h
  · rename_i page rest hq
    obtain ⟨hleave, habsent⟩ : (mq.leave pos rest).Ranked ∧ (mq.leave pos rest).Absent page.pageNumber :=
      h.leave (show mq.rankingQueues pos = [] ++ page :: rest from hq)
    have hmem : page ∈ mq.rankingQueues pos := by
      rw [hq]
      exact mem_cons_self
    have hsink : 0 < pos →
        ((mq.leave pos rest).push (pos - 1) { page with expirationTime := mq.currentTime + lifeTime }).Ranked := by
      intro h0
      refine hleave.push (by omega) habsent rfl (fun _ => ?_) (h.counter pos page hmem)
      exact Nat.le_trans (Nat.pow_le_pow_right Nat.two_pos (Nat.sub_le pos 1)) (h.rank pos h0 page hmem)
    split
    · split
      · split
        · exact hleave
        · split
          · exact (hsink ‹_›).sublist (Nat.le_refl _) fun _ => List.Sublist.refl _
          · exact hleave
      · split
        · exact hsink ‹_›
        · exact hleave
    · exact h

theorem Ranked.checkQueue : mq.checkQueue.Ranked := by
  have hall : ∀ ks : List Nat, (∀ k ∈ ks, k < queueNum) → ∀ mq : MultiQueueMigrator, mq.Ranked →
      (ks.foldl MultiQueueMigrator.checkHead mq).Ranked := by
    intro ks
    induction ks with
    | nil => exact fun _ _ h => h
    | cons k ks ih =>
      intro hks mq h
      obtain ⟨hk, hks⟩ := forall_mem_cons.mp hks
      exact ih hks _ (h.checkHead hk)
  exact hall _ (fun k hk => mem_range.mp hk) mq h

theorem Ranked.absent_of_locateQueue (hloc : mq.locateQueue pageNo = none) : mq.Absent pageNo := by
  intro k page hmem he
  have hk : k < queueNum := by
    by_contra hge
    rw [h.outside k (Nat.le_of_not_lt hge)] at hmem
    exact absurd hmem not_mem_nil
  have hnot := List.find?_eq_none.mp hloc k (mem_range.mpr hk)
  apply hnot
  exact List.any_eq_true.mpr ⟨page, hmem, decide_eq_true he⟩

omit h in
theorem locateQueue_lt (hloc : mq.locateQueue pageNo = some pos) : pos < queueNum :=
  mem_range.mp (List.mem_of_find?_eq_some hloc)

theorem Ranked.noteAccess (a : Access) : (mq.noteAccess a).Ranked :=
  h.sublist (Nat.le_succ _) fun _ => List.Sublist.refl _

theorem Ranked.touch (a : Access) : (mq.touch a).Ranked := by
  have hnote := h.noteAccess a
  unfold MultiQueueMigrator.touch
  simp only
  split
  · rename_i hloc
    exact hnote.joinQueue (hnote.absent_of_locateQueue hloc) rfl (Nat.succ_le_succ (Nat.zero_le _))
  · rename_i location hloc
    apply hnote.accessPage (locateQueue_lt hloc)
    intro k page hmem
    exact Nat.lt_succ_of_le (h.counter k page hmem)

theorem Ranked.handle (a : Access) : (mq.handle a).Ranked := (h.touch a).checkQueue

end

section

variable (promotionChannel : Nat) (accesses : List Access)

def handleAll : MultiQueueMigrator :=
  accesses.foldl handle (new promotionChannel)

theorem handleAll_snoc (a : Access) :
    handleAll promotionChannel (accesses ++ [a]) = (handleAll promotionChannel accesses).handle a :=
  List.foldl_append

theorem ranked_handleAll : (handleAll promotionChannel accesses).Ranked := by
  induction accesses using List.reverseRecOn with
  | nil => exact ranked_new promotionChannel
  | append_singleton accesses a ih =>
    rw [handleAll_snoc]
    exact ih.handle a

end

theorem checkHead_rest : mq.checkHead pos = { mq with
    rankingQueues := (mq.checkHead pos).rankingQueues
    demotedDramList := (mq.checkHead pos).demotedDramList } := by
  unfold checkHead
  split
  · rfl
  · split
    · split
      · split
        · rfl
        · split <;> rfl
      · split <;> rfl
    · rfl

theorem checkQueue_rest (mq : MultiQueueMigrator) : mq.checkQueue = { mq with
    rankingQueues := mq.checkQueue.rankingQueues
    demotedDramList := mq.checkQueue.demotedDramList } := by
  unfold checkQueue
  induction List.range queueNum generalizing mq with
  | nil => rfl
  | cons k ks ih =>
    rw [List.foldl_cons]
    refine (ih _).trans ?_
    rw [checkHead_rest]

/-- Of an access, the queues are what is left to be changed once it is noted. -/
theorem touch_rest (mq : MultiQueueMigrator) (a : Access) :
    mq.touch a = { mq.noteAccess a with rankingQueues := (mq.touch a).rankingQueues } := by
  unfold touch
  simp only
  split
  · rfl
  · unfold accessPage
    split <;> rfl

theorem handle_currentTime (a : Access) : (mq.handle a).currentTime = mq.currentTime + 1 := by
  rw [handle, checkQueue_rest, touch_rest]
  rfl

/-- The clock counts the accesses, and bounds what the entries of the queues hold: a run of
fewer than `2 ^ 64 - lifeTime` accesses stays within the words of the source. -/
theorem handleAll_words (promotionChannel : Nat) (accesses : List Access) :
    let mq := handleAll promotionChannel accesses
    mq.currentTime = accesses.length ∧ ∀ k, ∀ page ∈ mq.rankingQueues k,
      page.referenceCounter ≤ accesses.length ∧ page.expirationTime ≤ accesses.length + lifeTime := by
  intro mq
  have htime : mq.currentTime = accesses.length := by
    unfold mq
    induction accesses using List.reverseRecOn with
    | nil => rfl
    | append_singleton accesses a ih =>
      rw [handleAll_snoc, handle_currentTime, ih, length_append, length_singleton]
  have hranked : mq.Ranked := ranked_handleAll promotionChannel accesses
  rw [← htime]
  exact ⟨rfl, fun k page hmem => ⟨hranked.counter k page hmem, hranked.expires k page hmem⟩⟩

/-- After any accesses, a page is in at most one of the queues and there once, every queue is
sorted by expiration time, so that its head has expired if any of its pages has, and every
page of a queue other than the first has been referenced often enough for it. -/
theorem handleAll_queues (promotionChannel : Nat) (accesses : List Access) :
    let mq := handleAll promotionChannel accesses
    ((List.range queueNum).flatMap fun k => (mq.rankingQueues k).map PageType.pageNumber).Nodup ∧
    (∀ k < queueNum, (mq.rankingQueues k).Pairwise fun page page' => page.expirationTime ≤ page'.expirationTime) ∧
    (∀ k < queueNum, ∀ page ∈ mq.rankingQueues k, page.expirationTime < mq.currentTime →
      ∃ head, (mq.rankingQueues k).head? = some head ∧ head.expirationTime < mq.currentTime) ∧
    (∀ k < queueNum, 0 < k → ∀ page ∈ mq.rankingQueues k, 2 ^ k ≤ page.referenceCounter) := by
  intro mq
  have h : mq.Ranked := ranked_handleAll promotionChannel accesses
  refine ⟨?_, fun k _ => h.sorted k, fun k _ page hmem hexp => ?_, fun k _ hk => h.rank k hk⟩
  · refine List.nodup_flatMap.mpr ⟨fun k _ => h.nodup k, ?_⟩
    refine nodup_range.imp fun {i j} hij n hi hj => ?_
    obtain ⟨page, hpage, rfl⟩ := mem_map.mp hi
    obtain ⟨page', hpage', he⟩ := mem_map.mp hj
    exact hij (h.apart i j page page' hpage hpage' he.symm)
  · have hsorted := h.sorted k
    cases hq : mq.rankingQueues k with
    | nil =>
      rw [hq] at hmem
      exact absurd hmem not_mem_nil
    | cons head rest =>
      rw [hq] at hmem hsorted
      refine ⟨head, rfl, ?_⟩
      obtain rfl | hrest := mem_cons.mp hmem
      · exact hexp
      · exact Nat.lt_of_le_of_lt ((List.pairwise_cons.mp hsorted).1 page hrest) hexp

end MultiQueueMigrator

end Shma.Nvmain
