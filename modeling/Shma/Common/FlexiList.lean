import Shma.Common.Const
import Shma.Lib.Lists
import Shma.Lib.Run

/-!
# The intrusive queue `FlexiList`

`common/common_structures.h`. The list object holds the two end pointers and a
count; the links are fields of the queued blocks, so every operation also takes
and returns the store of links. Dereferencing a null pointer or failing an
assertion is `none`. A block that sits in two lists at once has a single link
field: `Queues` is what keeps a family of lists apart. The count is an `int`: it
wraps around, so a list of `2^32` blocks has the size of an empty one.
-/
namespace Shma

open Lib.Chain

/-- A list object. `size` is an `int`; every change of it is reduced to that width. -/
structure FlexiList (α : Type) where
  (head tail : Option α)
  size : Int
  deriving DecidableEq, Repr

namespace FlexiList

variable {α : Type}

def new : FlexiList α := { head := none, tail := none, size := 0 }

def getSize (l : FlexiList α) : Int := l.size

def toList (next : α → Option α) (n : Nat) (l : FlexiList α) : List α := walk next n l.head

section

variable [DecidableEq α] (next : α → Option α) (l : FlexiList α)

def pushBlockBack (block : α) : Option ((α → Option α) × FlexiList α) :=
  match l.head with
  | none =>
    some (Function.update next block none,
      { head := some block, tail := some block, size := Int.bmod (l.size + 1) (2^32) })
  | some h =>
    let next := if some h = l.tail then Function.update next h (some block) else next
    match l.tail with
    | none => none
    | some t =>
      some (Function.update (Function.update next t (some block)) block none,
        { l with tail := some block, size := Int.bmod (l.size + 1) (2^32) })

def fetchHead : Option (α × (α → Option α) × FlexiList α) :=
  match l.head with
  | none => none
  | some h =>
    match next h with
    | none => some (h, next, { head := none, tail := none, size := Int.bmod (l.size - 1) (2^32) })
    | some h' =>
      some (h, Function.update next h none,
        { l with head := some h', size := Int.bmod (l.size - 1) (2^32) })

end

def isEmpty (l : FlexiList α) : Bool := l.head.isNone

def clear (_ : FlexiList α) : FlexiList α := { head := none, tail := none, size := 0 }

/-- `extend_back`. The size is not changed if the list was empty. -/
def extendBack [DecidableEq α] (next : α → Option α) (l added : FlexiList α) :
    Option ((α → Option α) × FlexiList α) :=
  if added.isEmpty then some (next, l)
  else
    match l.head with
    | none => some (next, { l with head := added.head, tail := added.tail })
    | some _ =>
      match l.tail with
      | none => none
      | some t =>
        some (Function.update next t added.head,
          { l with tail := added.tail, size := Int.bmod (l.size + added.getSize) (2^32) })

/-- The list object and the links hold the queue `as`, oldest block first; the size is its
length up to the width of an `int`. -/
structure Represents (next : α → Option α) (l : FlexiList α) (as : List α) : Prop where
  linked : Linked next l.head as
  tail_eq : l.tail = as.getLast?
  size_eq : l.size = Int.bmod as.length (2^32)

variable {next next' : α → Option α} {l : FlexiList α} {as : List α}

theorem represents_new : Represents next (new : FlexiList α) [] := ⟨rfl, rfl, Int.zero_bmod.symm⟩

theorem Represents.congr (h : Represents next l as) (heq : ∀ a ∈ as, next' a = next a) : Represents next' l as :=
  ⟨linked_congr heq h.linked, h.tail_eq, h.size_eq⟩

theorem Represents.toList_eq (h : Represents next l as) {n : Nat} (hn : as.length ≤ n) : toList next n l = as :=
  walk_eq h.linked hn

theorem bmod_length_append (as bs : List α) :
    Int.bmod (Int.bmod as.length (2^32) + bs.length) (2^32) = Int.bmod (as ++ bs).length (2^32) := by
  rw [Int.bmod_add_bmod, length_append, Int.natCast_add]

/-- A family of lists over one store of links, no block in two of them. -/
structure Queues {ι : Type} (next : α → Option α) (q : ι → FlexiList α) (lists : ι → List α) : Prop where
  repr : ∀ i, Represents next (q i) (lists i)
  nodup : ∀ i, (lists i).Nodup
  disjoint : ∀ i j, i ≠ j → (lists i).Disjoint (lists j)

theorem queues_new {ι : Type} : Queues next (fun _ : ι => (new : FlexiList α)) fun _ => [] :=
  ⟨fun _ => represents_new, fun _ => nodup_nil, fun _ _ _ => List.disjoint_nil_left _⟩

/-- The other lists of the family do not notice a change to list `k`, as long
as no link of theirs is written and no block of theirs enters it. -/
theorem Queues.update {ι : Type} [DecidableEq ι] {q : ι → FlexiList α} {lists : ι → List α}
    (h : Queues next q lists) {k : ι} {l' : FlexiList α} {as' : List α} (hr : Represents next' l' as') (hn : as'.Nodup)
    (hd : ∀ j, j ≠ k → as'.Disjoint (lists j)) (hf : ∀ j, j ≠ k → ∀ a ∈ lists j, next' a = next a) :
    Queues next' (Function.update q k l') (Function.update lists k as') := by
  constructor
  · intro j
    by_cases hj : j = k
    · subst hj; simpa using hr
    · rw [update_of_ne hj, update_of_ne hj]
      exact (h.repr j).congr (hf j hj)
  · intro j
    by_cases hj : j = k
    · subst hj; simpa using hn
    · rw [update_of_ne hj]; exact h.nodup j
  · intro i j hij
    by_cases hi : i = k
    · subst hi
      rw [update_self, update_of_ne hij.symm]
      exact hd j hij.symm
    · rw [update_of_ne hi]
      by_cases hj : j = k
      · subst hj
        rw [update_self]
        exact fun _ ha hb => hd i hi hb ha
      · rw [update_of_ne hj]
        exact h.disjoint i j hij

variable [DecidableEq α]

theorem pushBlockBack_spec (h : Represents next l as) (hn : as.Nodup) {b : α} (hb : b ∉ as) :
    ∃ next' l', pushBlockBack next l b = some (next', l') ∧ Represents next' l' (as ++ [b]) ∧
      ∀ a, a ∉ as → a ≠ b → next' a = next a := by
  obtain ⟨hl, ht, hs⟩ := h
  rcases List.eq_nil_or_concat as with rfl | ⟨as, a, rfl⟩
  · rw [linked_nil] at hl
    simp only [pushBlockBack, hl]
    refine ⟨_, _, rfl, ⟨⟨rfl, ?_⟩, rfl, ?_⟩, fun a _ hab => update_of_ne hab _ _⟩
    · simp
    · simp only [hs]
      exact bmod_length_append [] [b]
  · rw [List.concat_eq_append] at *
    rw [List.getLast?_concat] at ht
    have hne : l.head ≠ none := by
      cases as with
      | nil | cons c as => simp [hl.1]
    obtain ⟨c, hc⟩ := ne_none_iff_exists'.mp hne
    simp only [pushBlockBack, hc, ht]
    refine ⟨_, _, rfl, ⟨?_, ?_, ?_⟩, ?_⟩
    · -- the extra store made for a one-element list is overwritten by the next one
      have hlink : (if some c = some a then Function.update next c (some b) else next) = next ∨ c = a := by
        by_cases hca : c = a
        · exact .inr hca
        · exact .inl (if_neg fun he => hca (some_inj.mp he))
      have hc' := linked_concat hl hn hb
      rw [hc] at hc'
      rcases hlink with he | rfl
      · simpa only [he] using hc'
      · simpa only [if_true, Function.update_idem] using hc'
    · rw [List.getLast?_concat]
    · simp only [hs]
      exact bmod_length_append (as ++ [a]) [b]
    · intro x hx hxb
      have hxa : x ≠ a := fun he => hx (by simp [he])
      rw [update_of_ne hxb, update_of_ne hxa]
      split
      · next he => rw [some_inj.mp he, update_of_ne hxa]
      · rfl

theorem fetchHead_spec {a : α} (h : Represents next l (a :: as)) (hn : (a :: as).Nodup) :
    ∃ next' l', fetchHead next l = some (a, next', l') ∧ Represents next' l' as ∧
      ∀ b, b ≠ a → next' b = next b := by
  obtain ⟨⟨hh, hl⟩, ht, hs⟩ := h
  have ha : a ∉ as := (nodup_cons.mp hn).1
  simp only [fetchHead, hh]
  cases as with
  | nil =>
    rw [linked_nil] at hl
    simp only [hl]
    exact ⟨_, _, rfl, ⟨rfl, rfl, by simp [hs]⟩, fun _ _ => rfl⟩
  | cons c as =>
    simp only [hl.1]
    refine ⟨_, _, rfl, ⟨⟨rfl, ?_⟩, ?_, ?_⟩, fun b hb => update_of_ne hb _ _⟩
    · have hca : c ≠ a := fun he => ha (by simp [he])
      rw [update_of_ne hca]
      refine linked_congr (fun b hb => update_of_ne ?_ _ _) hl.2
      exact fun he => ha (by simp [← he, hb])
    · simpa using ht
    · simp [hs]

theorem extendBack_spec {added : FlexiList α} {bs : List α} (h : Represents next l as)
    (hb : Represents next added bs) (hne : bs ≠ []) (hn : (as ++ bs).Nodup) :
    ∃ next' l', extendBack next l added = some (next', l') ∧ Linked next' l'.head (as ++ bs) ∧
      l'.tail = (as ++ bs).getLast? ∧
      l'.size = if as = [] then 0 else Int.bmod (as ++ bs).length (2^32) := by
  obtain ⟨b, bs, rfl⟩ := List.exists_cons_of_ne_nil hne
  have hfull : added.isEmpty = false := by rw [isEmpty, hb.linked.1, Option.isNone_some]
  rw [extendBack, hfull]
  obtain ⟨hl, ht, hs⟩ := h
  rcases List.eq_nil_or_concat as with rfl | ⟨as, a, rfl⟩
  · rw [hl]
    exact ⟨_, _, rfl, hb.linked, hb.tail_eq, by simp [hs]⟩
  · rw [List.concat_eq_append] at *
    rw [List.getLast?_concat] at ht
    cases hh : l.head with
    | none =>
      rw [hh] at hl
      cases as <;> cases hl.1
    | some c =>
      rw [ht]
      refine ⟨_, _, rfl, hh ▸ linked_append hl hb.linked hn, ?_, ?_⟩
      · rw [List.getLast?_append_of_ne_nil _ hne, hb.tail_eq]
      · simp only [if_neg (show as ++ [a] ≠ [] by simp), hs, getSize, hb.size_eq, Int.add_bmod_bmod]
        exact bmod_length_append (as ++ [a]) (b :: bs)

section Family

variable {ι : Type} [DecidableEq ι] {q : ι → FlexiList α} {lists : ι → List α}

theorem Queues.push (h : Queues next q lists) (k : ι) {b : α} (hb : ∀ i, b ∉ lists i) :
    ∃ next' l', pushBlockBack next (q k) b = some (next', l') ∧
      Queues next' (Function.update q k l') (Function.update lists k (lists k ++ [b])) := by
  obtain ⟨next', l', he, hr, hf⟩ := pushBlockBack_spec (h.repr k) (h.nodup k) (hb k)
  refine ⟨next', l', he, h.update hr ?_ ?_ ?_⟩
  · exact List.nodup_append'.mpr ⟨h.nodup k, by simp, by simpa using hb k⟩
  · intro j hj
    rw [List.disjoint_append_left]
    exact ⟨h.disjoint k j hj.symm, by simpa using hb j⟩
  · intro j hj a ha
    exact hf a (fun hk => h.disjoint k j hj.symm hk ha) (fun he => hb j (he ▸ ha))

theorem Queues.fetch (h : Queues next q lists) {k : ι} {a : α} {rest : List α} (hk : lists k = a :: rest) :
    ∃ next' l', fetchHead next (q k) = some (a, next', l') ∧
      Queues next' (Function.update q k l') (Function.update lists k rest) := by
  have hn : (a :: rest).Nodup := hk ▸ h.nodup k
  obtain ⟨next', l', he, hr, hf⟩ := fetchHead_spec (hk ▸ h.repr k) hn
  have hd : ∀ j, j ≠ k → (a :: rest).Disjoint (lists j) := fun j hj => hk ▸ h.disjoint k j hj.symm
  refine ⟨next', l', he, h.update hr (nodup_cons.mp hn).2 ?_ ?_⟩
  · exact fun j hj => (List.disjoint_cons_left.mp (hd j hj)).2
  · intro j hj b hb
    exact hf b fun he => (List.disjoint_cons_left.mp (hd j hj)).1 (he ▸ hb)

end Family

end FlexiList

open Lib.Run FlexiList

/-! ### Whole runs -/

/-- What is done with a list and, by others, with the links of blocks that are not in it. A list
that is added comes with the blocks it holds. -/
inductive FlexiOp (α : Type) where
  | pushBlockBack (block : α)
  | fetchHead
  | clear
  | extendBack (added : FlexiList α) (blocks : List α)
  | others (next : α → Option α)

/-- The list and the queue it stands for. -/
structure FlexiSession (α : Type) where
  next : α → Option α
  list : FlexiList α
  queue : List α

namespace FlexiSession

variable {α : Type} [DecidableEq α]

def new (next : α → Option α) : FlexiSession α := ⟨next, .new, []⟩

def step (s : FlexiSession α) : FlexiOp α → Option (FlexiSession α)
  | .pushBlockBack block => (s.list.pushBlockBack s.next block).map fun r => ⟨r.1, r.2, s.queue ++ [block]⟩
  | .fetchHead => (s.list.fetchHead s.next).map fun r => ⟨r.2.1, r.2.2, s.queue.tail⟩
  | .clear => some { s with list := s.list.clear, queue := [] }
  | .extendBack added blocks => (s.list.extendBack s.next added).map fun r => ⟨r.1, r.2, s.queue ++ blocks⟩
  | .others next => some { s with next }

def Legal (s : FlexiSession α) : FlexiOp α → Prop
  | .pushBlockBack block => block ∉ s.queue
  | .fetchHead => s.queue ≠ []
  | .clear => True
  | .extendBack added blocks =>
    Represents s.next added blocks ∧ blocks ≠ [] ∧ blocks.Nodup ∧ s.queue.Disjoint blocks
  | .others next => ∀ a ∈ s.queue, next a = s.next a

structure Refines (s : FlexiSession α) : Prop where
  visits : ∀ n, s.queue.length ≤ n → s.list.toList s.next n = s.queue
  tail_eq : s.list.tail = s.queue.getLast?
  size_eq : s.list.getSize = s.queue.length
  oldest : (s.list.fetchHead s.next).map Prod.fst = s.queue.head?

/-- What the size needs to stay the number of blocks: no empty list is extended, and fewer
than `2^31` blocks are queued afterwards. -/
def Counts (s : FlexiSession α) : FlexiOp α → Prop
  | .pushBlockBack _ => s.queue.length + 1 < 2^31
  | .extendBack _ blocks => s.queue ≠ [] ∧ s.queue.length + blocks.length < 2^31
  | _ => True

/-- The links are right, whatever the size is. -/
structure Held (s : FlexiSession α) : Prop where
  linked : Linked s.next s.list.head s.queue
  tail_eq : s.list.tail = s.queue.getLast?
  nodup : s.queue.Nodup
  size_lt : s.list.size < 2^31

variable {s : FlexiSession α} {op : FlexiOp α}

theorem Held.refines_iff (h : Held s) : Refines s ↔ s.list.size = s.queue.length := by
  constructor
  · exact fun hr => hr.size_eq
  · intro hs
    refine ⟨fun n hn => walk_eq h.linked hn, h.tail_eq, hs, ?_⟩
    cases hq : s.queue with
    | nil =>
      have hl := h.linked
      rw [hq] at hl
      rw [FlexiList.fetchHead, linked_nil.mp hl]
      rfl
    | cons a rest =>
      have hl := h.linked
      rw [hq] at hl
      rw [FlexiList.fetchHead, hl.1]
      dsimp only
      split <;> rfl

theorem Held.represents (h : Held s) (hr : Refines s) : Represents s.next s.list s.queue := by
  refine ⟨h.linked, h.tail_eq, ?_⟩
  have hsize : s.list.size = s.queue.length := hr.size_eq
  have hlt := h.size_lt
  rw [hsize, (bmod_natCast_eq_self_iff _).mpr (by omega)]

theorem zero_lt_two_pow : (0 : Int) < 2^31 := by decide

omit [DecidableEq α] in
theorem held_of_represents {next : α → Option α} {l : FlexiList α} {as : List α}
    (h : Represents next l as) (hn : as.Nodup) : Held ⟨next, l, as⟩ := by
  refine ⟨h.linked, h.tail_eq, hn, ?_⟩
  rw [h.size_eq]
  exact Int.bmod_lt (by decide)

/-- After a step the size is the number of blocks exactly if the step counts them. -/
theorem step_spec (h : Held s) (hr : Refines s) (hl : Legal s op) :
    ∃ t, step s op = some t ∧ Held t ∧ (Refines t ↔ Counts s op) := by
  have hrep := h.represents hr
  have hlt : s.queue.length < 2^31 := by
    have hsize : s.list.size = s.queue.length := hr.size_eq
    have hlt := h.size_lt
    omega
  suffices hsuff : ∃ t, step s op = some t ∧ Held t ∧ (t.list.size = t.queue.length ↔ Counts s op) by
    obtain ⟨t, ht, hheld, hiff⟩ := hsuff
    exact ⟨t, ht, hheld, hheld.refines_iff.trans hiff⟩
  cases op with
  | pushBlockBack block =>
    have hnew : block ∉ s.queue := hl
    obtain ⟨next', l', he, hr, -⟩ := pushBlockBack_spec hrep h.nodup hnew
    have hn : (s.queue ++ [block]).Nodup :=
      List.nodup_append'.mpr ⟨h.nodup, List.nodup_singleton block, by simpa using hnew⟩
    refine ⟨_, by rw [step, he, map_some], held_of_represents hr hn, ?_⟩
    rw [hr.size_eq, bmod_natCast_eq_self_iff, length_append]
    rfl
  | fetchHead =>
    obtain ⟨a, rest, hq⟩ := List.exists_cons_of_ne_nil hl
    have hn := hq ▸ h.nodup
    obtain ⟨next', l', he, hr, -⟩ := fetchHead_spec (hq ▸ hrep) hn
    refine ⟨_, by rw [step, he, map_some], ?_⟩
    rw [hq] at hlt ⊢
    refine ⟨held_of_represents hr (nodup_cons.mp hn).2, iff_of_true ?_ trivial⟩
    rw [hr.size_eq]
    exact (bmod_natCast_eq_self_iff _).mpr (Nat.lt_of_succ_lt hlt)
  | clear => exact ⟨_, rfl, ⟨rfl, rfl, nodup_nil, zero_lt_two_pow⟩, iff_of_true rfl trivial⟩
  | extendBack added blocks =>
    obtain ⟨hb, hne, hnb, hd⟩ := hl
    have hn := List.nodup_append'.mpr ⟨h.nodup, hnb, hd⟩
    obtain ⟨next', l', he, hlinked, htail, hsize⟩ := extendBack_spec hrep hb hne hn
    have hsmall : l'.size < 2^31 := by
      rw [hsize]
      split
      · exact zero_lt_two_pow
      · exact Int.bmod_lt (by decide)
    refine ⟨_, by rw [step, he, map_some], ⟨hlinked, htail, hn, hsmall⟩, ?_⟩
    rw [hsize]
    by_cases hq : s.queue = []
    · have hpos : (blocks.length : Int) ≠ 0 := by simpa using hne
      simpa [Counts, hq] using hpos.symm
    · rw [if_neg hq, bmod_natCast_eq_self_iff, length_append]
      exact (and_iff_right hq).symm
  | others next =>
    exact ⟨_, rfl, { h with linked := linked_congr hl h.linked }, iff_of_true hr.size_eq trivial⟩

/-- A list is the queue of its blocks all along a run if and only if no empty list is extended
and there are always fewer than `2^31` of them. -/
theorem refines_queue_iff {next : α → Option α} {ops : List (FlexiOp α)}
    (hl : AllSteps step Legal (new next) ops) :
    (∃ t, run step (new next) ops = some t ∧
      ∀ pre, pre <+: ops → ∀ u, run step (new next) pre = some u → Refines u) ↔
      AllSteps step Counts (new next) ops := by
  have hnew : Held (new next) := ⟨rfl, rfl, nodup_nil, zero_lt_two_pow⟩
  have hright := hnew.refines_iff.mpr rfl
  have hiff : ∀ t, run step (new next) ops = some t →
      ((∀ pre, pre <+: ops → ∀ u, run step (new next) pre = some u → Refines u) ↔
        AllSteps step Counts (new next) ops) := by
    intro t ht
    refine forall_run_iff_allSteps_of step (fun s op t h hr hl hst => ?_) ops hnew hright hl ht
    obtain ⟨t', ht', hspec⟩ := step_spec h hr hl
    obtain rfl := some_inj.mp (hst.symm.trans ht')
    exact hspec
  constructor
  · rintro ⟨t, ht, hall⟩
    exact (hiff t ht).mp hall
  · intro hok
    have hsome : ∃ t, run step (new next) ops = some t ∧ Held t ∧ Refines t := by
      refine run_isSome step (fun s op h hok => ?_) ops ⟨hnew, hright⟩ (hl.and step ops hok)
      obtain ⟨t, ht, hheld, hr⟩ := step_spec h.1 h.2 hok.1
      exact ⟨t, ht, hheld, hr.mpr hok.2⟩
    obtain ⟨t, ht, -⟩ := hsome
    exact ⟨t, ht, (hiff t ht).mpr hok⟩

def pair : (Nat → Option Nat) × FlexiList Nat := (fun a => if a = 3 then some 4 else none, ⟨some 3, some 4, 2⟩)

theorem refines_queue_of_pair :
    ∃ t, run step (new pair.1) [.pushBlockBack 1, .extendBack pair.2 [3, 4], .fetchHead] = some t ∧
      ∀ pre, pre <+: [.pushBlockBack 1, .extendBack pair.2 [3, 4], .fetchHead] →
        ∀ u, run step (new pair.1) pre = some u → Refines u := by
  apply (refines_queue_iff _).mpr
  · refine ⟨(by decide : 0 + 1 < 2^31), fun t ht => ?_⟩
    cases some_inj.mp ht
    exact ⟨⟨cons_ne_nil 1 [], (by decide : 1 + 2 < 2^31)⟩, fun t _ => ⟨trivial, fun _ _ => trivial⟩⟩
  · refine ⟨not_mem_nil, fun t ht => ?_⟩
    cases some_inj.mp ht
    have hpair : Represents pair.1 pair.2 [3, 4] := ⟨⟨rfl, rfl, rfl⟩, rfl, by decide⟩
    refine ⟨⟨hpair.congr ?_, by decide, by decide, (by decide : ∀ a ∈ [1], a ∉ [3, 4])⟩, fun t ht => ?_⟩
    · exact fun a ha => update_of_ne (by rintro rfl; revert ha; decide) _ _
    cases some_inj.mp ht
    exact ⟨cons_ne_nil 1 [3, 4], fun _ _ => trivial⟩

theorem extended_empty_loses_size :
    (run step (new pair.1) [.extendBack pair.2 [3, 4]]).map (fun s => (s.list.getSize, s.queue)) = some (0, [3, 4]) :=
  rfl

end FlexiSession
end Shma
