import Mathlib.Algebra.Order.Field.Basic
import Mathlib.Algebra.Order.Field.Rat
import Mathlib.Algebra.BigOperators.Group.List.Basic
import Shma.Common.Const
import Shma.Lib.Run

/-!
# Lookahead partitioning

`lookahead.cpp`. The buckets of a cache are shared out between its partitions: all of them start
with the same number, and what is left goes step by step to the partition that gains most for each
bucket. Utilities are rationals here. Running out of fuel, failing an assertion, reading beyond the
end of an array and asking a monitor for more buckets than its limit are `none`.
-/
namespace Shma.Cache

open Lib.Run

/-- The miss counts of the partitions, which are `uint32_t` values. -/
structure PartitionMonitor (limit : Nat) where
  misses : Nat → Nat → Nat

variable {limit : Nat}

def PartitionMonitor.get (m : PartitionMonitor limit) (part bucket : Nat) : Option Nat :=
  if bucket ≤ limit then some (m.misses part bucket) else none

theorem PartitionMonitor.get_of_le (m : PartitionMonitor limit) (part : Nat) {bucket : Nat} (h : bucket ≤ limit) :
    m.get part bucket = some (m.misses part bucket) := if_pos h

def subU32 (a b : Nat) : Nat := (a + (2^32 - b % 2^32)) % 2^32

theorem subU32_of_le {a b : Nat} (ha : a < 2^32) (h : b ≤ a) : subU32 a b = a - b := by
  unfold subU32
  omega

/-- The better of the best candidate so far and another one, if there is another. -/
def keepBest {β : Type} (best : ℚ × β) : Option (ℚ × β) → ℚ × β
  | none => best
  | some cand => if cand.1 > best.1 then cand else best

def searchStep {β : Type} (eval : Nat → Option (Option (ℚ × β))) (best : ℚ × β) (i : Nat) : Option (ℚ × β) :=
  (eval i).map (keepBest best)

namespace Lookahead

variable (forbidden : Option (Nat → Bool)) (m : PartitionMonitor limit)

def marginalUtility (part partAlloc i : Nat) : Option (Option (ℚ × Nat)) :=
  (m.get part partAlloc).bind fun misses =>
  (m.get part (partAlloc + i)).map fun fewer =>
  some ((subU32 misses fewer : ℚ) / i, i)

def getMaxMarginalUtility (part partAlloc balance : Nat) : Option (ℚ × Nat) :=
  run (searchStep (marginalUtility m part partAlloc)) (-1, 0) (List.range' 1 balance)

def addMisses (parts : List Nat) (m : PartitionMonitor limit) (sums : Nat × Nat) (p : Nat) : Option (Nat × Nat) :=
  (m.get p 0).bind fun noCache =>
  parts[p]?.bind fun alloc =>
  (m.get p alloc).map fun misses => ((sums.1 + noCache) % 2^64, (sums.2 + misses) % 2^64)

def computePartitioningTotalUtility (numPartitions : Nat) (parts : List Nat) (m : PartitionMonitor limit) :
    Option Nat :=
  (run (addMisses parts m) (0, 0) (List.range numPartitions)).map fun sums => subU64 sums.1 sums.2

/-- The array of forbidden partitions may be null. -/
def isForbidden (i : Nat) : Bool := (forbidden.map (· i)).getD false

def partitionUtility (allocs : List Nat) (balance i : Nat) :
    Option (Option (ℚ × Nat × Nat)) :=
  if isForbidden forbidden i then some none
  else
    allocs[i]?.bind fun alloc =>
    (getMaxMarginalUtility m i alloc balance).map fun mu => some (mu.1, i, mu.2)

def computeLoop (numPartitions : Nat) (forbidden : Option (Nat → Bool)) (m : PartitionMonitor limit) :
    Nat → List Nat → Nat → Option (List Nat)
  | _, allocs, 0 => some allocs
  | 0, _, _ + 1 => none
  | fuel + 1, allocs, balance + 1 =>
    (run (searchStep (partitionUtility forbidden m allocs (balance + 1))) (-1, numPartitions, 0)
      (List.range numPartitions)).bind fun best =>
    (assertThat (best.2.1 < numPartitions)).bind fun _ =>
    computeLoop numPartitions forbidden m fuel (allocs.modify best.2.1 (· + best.2.2)) (balance + 1 - best.2.2)

/-- `minAlloc` is given to every partition and taken from the balance once. -/
def computeBestPartitioning (numPartitions buckets minAlloc : Nat) (forbidden : Option (Nat → Bool))
    (m : PartitionMonitor limit) : Option (List Nat) :=
  let balance := subU32 buckets minAlloc
  computeLoop numPartitions forbidden m balance (List.replicate numPartitions minAlloc) balance

end Lookahead

open Lookahead

/-- The configuration of a `LookaheadPartitioner`, with what its constructor asserts. -/
structure LookaheadPartitioner where
  (numPartitions buckets minAlloc : Nat)
  allocPortion : ℚ
  forbidden : Option (Nat → Bool)
  buckets_pos : 0 < buckets
  budget_lt : (allocPortion * buckets).floor.toNat < 2^32

namespace LookaheadPartitioner

variable (l : LookaheadPartitioner)

/-- `allocPortion*buckets` as a `uint32_t`. -/
def budget : Nat := (l.allocPortion * l.buckets).floor.toNat

/-- `curAllocs` has room for one partition more than there are buckets. -/
def new : List Nat := List.replicate (l.buckets + 1) 0

/-- `partition`, on `curAllocs`. The two utilities are computed, and the new allocations are taken
over whatever they are. -/
def partition (curAllocs : List Nat) (m : PartitionMonitor limit) : Option (List Nat) :=
  (computeBestPartitioning l.numPartitions l.budget (l.minAlloc * l.numPartitions % 2^32) l.forbidden m).bind
    fun bestAllocs =>
  (computePartitioningTotalUtility l.numPartitions bestAllocs m).bind fun _newUtility =>
  (computePartitioningTotalUtility l.numPartitions curAllocs m).map fun _curUtility =>
  bestAllocs ++ curAllocs.drop l.numPartitions

end LookaheadPartitioner

/-! ### The search for the greatest utility -/

/-- A search that comes across a candidate ends with one, if every candidate is above what it starts
from. -/
theorem search_spec {β : Type} {eval : Nat → Option (Option (ℚ × β))} {good : ℚ × β → Prop} {low : ℚ} :
    ∀ (is : List Nat) (best : ℚ × β), (∀ i ∈ is, ∃ r, eval i = some r ∧ ∀ c ∈ r, low < c.1 ∧ good c) →
      (best.1 = low ∧ (∃ i ∈ is, ∃ c, eval i = some (some c)) ∨ low < best.1 ∧ good best) →
      ∃ c, run (searchStep eval) best is = some c ∧ low < c.1 ∧ good c := by
  intro is
  induction is with
  | nil =>
    intro best _ hbest
    rcases hbest with ⟨-, _, hi, -⟩ | hbest
    · exact absurd hi not_mem_nil
    · exact ⟨best, rfl, hbest⟩
  | cons i is ih =>
    intro best hgood hbest
    obtain ⟨r, hr, hc⟩ := hgood i mem_cons_self
    have hrest := fun j hj => hgood j (mem_cons_of_mem i hj)
    rw [run_cons, searchStep, hr, map_some]
    cases r with
    | none =>
      apply ih best hrest
      rcases hbest with ⟨hlow, j, hj, c, he⟩ | hbest
      · rcases mem_cons.mp hj with rfl | hj
        · rw [hr] at he
          cases he
        · exact .inl ⟨hlow, j, hj, c, he⟩
      · exact .inr hbest
    | some c =>
      apply ih _ hrest
      right
      obtain ⟨hlt, hg⟩ := hc c rfl
      by_cases hmore : c.1 > best.1
      · rw [keepBest, if_pos hmore]
        exact ⟨hlt, hg⟩
      · rw [keepBest, if_neg hmore]
        rcases hbest with ⟨hlow, -⟩ | hbest
        · exact absurd (hlow ▸ hlt) hmore
        · exact hbest

namespace Lookahead

variable {m : PartitionMonitor limit}

/-- As long as there are buckets left, some number of them is found, and no query goes beyond
them. -/
theorem getMaxMarginalUtility_spec (part : Nat) {partAlloc balance : Nat} (hb : 0 < balance)
    (hle : partAlloc + balance ≤ limit) :
    ∃ mu, getMaxMarginalUtility m part partAlloc balance = some mu ∧ -1 < mu.1 ∧ 0 < mu.2 ∧ mu.2 ≤ balance := by
  have heval : ∀ i, i ≤ balance → marginalUtility m part partAlloc i =
      some (some ((subU32 (m.misses part partAlloc) (m.misses part (partAlloc + i)) : ℚ) / i, i)) := by
    intro i hi
    have hget := m.get_of_le part (show partAlloc ≤ limit by omega)
    have hget' := m.get_of_le part (show partAlloc + i ≤ limit by omega)
    rw [marginalUtility, hget, hget', bind_some, map_some]
  apply search_spec
  · intro i hi
    obtain ⟨hpos, hlt⟩ := mem_range'_1.mp hi
    refine ⟨_, heval i (by omega), fun c hc => ?_⟩
    obtain rfl := Option.mem_some_iff.mp hc
    have hmu : (0 : ℚ) ≤ (subU32 (m.misses part partAlloc) (m.misses part (partAlloc + i)) : ℚ) / i :=
      div_nonneg (Nat.cast_nonneg _) (Nat.cast_nonneg _)
    exact ⟨neg_one_lt_zero.trans_le hmu, hpos, by omega⟩
  · exact .inl ⟨rfl, 1, mem_range'_1.mpr ⟨le_rfl, by omega⟩, _, heval 1 hb⟩

/-! ### The balance -/

/-- What the outer loop keeps: the buckets given out and those left make `total`, and no partition
can get more than the limit. -/
structure Shares (n least total limit : Nat) (allocs : List Nat) (balance : Nat) : Prop where
  length_eq : allocs.length = n
  sum_eq : allocs.sum + balance = total
  least_le : ∀ a ∈ allocs, least ≤ a
  le_limit : ∀ a ∈ allocs, a + balance ≤ limit

theorem sum_modify_add {as : List Nat} {p : Nat} (k : Nat) (hp : p < as.length) :
    (as.modify p (· + k)).sum = as.sum + k := by
  induction as generalizing p with
  | nil => exact absurd hp (Nat.not_lt_zero p)
  | cons a as ih =>
    cases p with
    | zero =>
      rw [List.modify_zero_cons, List.sum_cons, List.sum_cons]
      omega
    | succ p =>
      rw [List.modify_succ_cons, List.sum_cons, List.sum_cons, ih (Nat.lt_of_succ_lt_succ hp)]
      omega

variable {n least total balance : Nat} {allocs : List Nat} {forbidden : Option (Nat → Bool)}

theorem Shares.exists_mem (h : Shares n least total limit allocs balance) {i : Nat} (hi : i < n) :
    ∃ a ∈ allocs, allocs[i]? = some a := by
  have hlt : i < allocs.length := h.length_eq.symm ▸ hi
  exact ⟨allocs[i], List.getElem_mem hlt, List.getElem?_eq_getElem hlt⟩

theorem Shares.take_append (h : Shares n least total limit allocs balance) (rest : List Nat) :
    (allocs ++ rest).take n = allocs := List.take_left' h.length_eq

theorem Shares.give (h : Shares n least total limit allocs balance) {p k : Nat} (hp : p < n)
    (hk : k ≤ balance) : Shares n least total limit (allocs.modify p (· + k)) (balance - k) := by
  obtain ⟨hlen, hsum, hleast, hlimit⟩ := h
  have hmem : ∀ a ∈ allocs.modify p (· + k), ∃ b ∈ allocs, b ≤ a ∧ a ≤ b + k := by
    intro a ha
    obtain ⟨j, hj⟩ := List.mem_iff_getElem?.mp ha
    rw [List.getElem?_modify, Option.map_eq_map, map_eq_some_iff] at hj
    obtain ⟨b, hb, rfl⟩ := hj
    refine ⟨b, List.mem_of_getElem? hb, ?_⟩
    split <;> simp
  refine ⟨by rw [List.length_modify, hlen], ?_, ?_, ?_⟩
  · rw [sum_modify_add k (hlen.symm ▸ hp)]
    omega
  · intro a ha
    obtain ⟨b, hb, hle, -⟩ := hmem a ha
    exact (hleast b hb).trans hle
  · intro a ha
    obtain ⟨b, hb, -, hle⟩ := hmem a ha
    have := hlimit b hb
    omega

theorem choose_spec (h : Shares n least total limit allocs balance) (hb : 0 < balance)
    (hfree : ∃ p < n, isForbidden forbidden p = false) :
    ∃ best, run (searchStep (partitionUtility forbidden m allocs balance)) (-1, n, 0)
        (List.range n) = some best ∧
      -1 < best.1 ∧ best.2.1 < n ∧ 0 < best.2.2 ∧ best.2.2 ≤ balance := by
  have heval : ∀ i < n, isForbidden forbidden i = false →
      ∃ mu : ℚ × Nat, partitionUtility forbidden m allocs balance i = some (some (mu.1, i, mu.2)) ∧
        -1 < mu.1 ∧ 0 < mu.2 ∧ mu.2 ≤ balance := by
    intro i hi hnot
    obtain ⟨a, ha, hget⟩ := h.exists_mem hi
    obtain ⟨mu, hmu, hfound⟩ := getMaxMarginalUtility_spec (m := m) i hb (h.le_limit a ha)
    refine ⟨mu, ?_, hfound⟩
    rw [partitionUtility, if_neg (by simp [hnot]), hget, bind_some, hmu, map_some]
  apply search_spec
  · intro i hi
    rw [mem_range] at hi
    by_cases hnot : isForbidden forbidden i = false
    · obtain ⟨mu, hmu, hlow, hfound⟩ := heval i hi hnot
      refine ⟨_, hmu, fun c hc => ?_⟩
      obtain rfl := Option.mem_some_iff.mp hc
      exact ⟨hlow, hi, hfound⟩
    · exact ⟨none, by rw [partitionUtility, if_pos (by simpa using hnot)], nofun⟩
  · obtain ⟨p, hp, hnot⟩ := hfree
    obtain ⟨mu, hmu, -⟩ := heval p hp hnot
    exact .inl ⟨rfl, p, mem_range.mpr hp, _, hmu⟩

/-- Every round gives out a bucket at least, so the loop ends with nothing left. -/
theorem computeLoop_spec (hfree : ∃ p < n, isForbidden forbidden p = false) :
    ∀ (fuel : Nat) {allocs : List Nat} {balance : Nat}, balance ≤ fuel →
      Shares n least total limit allocs balance →
      ∃ allocs', computeLoop n forbidden m fuel allocs balance = some allocs' ∧
        Shares n least total limit allocs' 0 := by
  intro fuel
  induction fuel with
  | zero =>
    intro allocs balance hle h
    obtain rfl := Nat.le_zero.mp hle
    exact ⟨allocs, rfl, h⟩
  | succ fuel ih =>
    intro allocs balance hle h
    cases balance with
    | zero => exact ⟨allocs, rfl, h⟩
    | succ balance =>
      obtain ⟨best, hbest, -, hp, hpos, hk⟩ := choose_spec (m := m) h (succ_pos balance) hfree
      rw [computeLoop, hbest, bind_some, assertThat_true hp]
      exact ih (by omega) (h.give hp hk)

/-- The minimum of all partitions but one is given out beyond the budget. -/
theorem computeBestPartitioning_spec {buckets minAlloc : Nat}
    (hfree : ∃ p < n, isForbidden forbidden p = false) (hfit : buckets < 2^32) (hle : minAlloc ≤ buckets)
    (hlimit : buckets ≤ limit) :
    ∃ allocs, computeBestPartitioning n buckets minAlloc forbidden m = some allocs ∧
      Shares n minAlloc (buckets + (n - 1) * minAlloc) limit allocs 0 := by
  apply computeLoop_spec hfree _ le_rfl
  rw [subU32_of_le hfit hle]
  obtain ⟨p, hp, -⟩ := hfree
  refine ⟨List.length_replicate, ?_, ?_, ?_⟩
  · obtain ⟨k, rfl⟩ := Nat.exists_eq_add_of_lt hp
    rw [List.sum_replicate_nat, Nat.add_sub_cancel, Nat.succ_mul]
    omega
  · intro a ha
    rw [List.eq_of_mem_replicate ha]
  · intro a ha
    rw [List.eq_of_mem_replicate ha]
    omega

theorem computePartitioningTotalUtility_isSome_iff {parts : List Nat} (hparts : ∀ a ∈ parts, a ≤ limit) :
    (computePartitioningTotalUtility n parts m).isSome ↔ n ≤ parts.length := by
  rw [computePartitioningTotalUtility, Option.isSome_map]
  constructor
  · intro h
    cases n with
    | zero => exact Nat.zero_le _
    | succ k =>
      -- the last partition is read in the last round
      obtain ⟨sums, hsums⟩ := isSome_iff_exists.mp h
      rw [List.range_succ, run_append, bind_eq_some_iff] at hsums
      obtain ⟨sums', -, hlast⟩ := hsums
      obtain ⟨_, hlast, -⟩ := (run_cons_eq_some _).mp hlast
      obtain ⟨_, -, hlast⟩ := bind_eq_some_iff.mp hlast
      obtain ⟨_, hget, -⟩ := bind_eq_some_iff.mp hlast
      exact (List.getElem?_eq_some_iff.mp hget).1
  · intro h
    have hall := AllSteps.of_forall_mem (addMisses parts m) (List.range n) (0, 0)
      fun p hp => (mem_range.mp hp).trans_le h
    have hstep : ∀ (sums : Nat × Nat) p, True → p < parts.length →
        ∃ sums', addMisses parts m sums p = some sums' ∧ True := by
      intro sums p _ hp
      have hget : parts[p]? = some parts[p] := List.getElem?_eq_getElem hp
      have hle := m.get_of_le p (hparts _ (List.mem_of_getElem? hget))
      have hsome : (addMisses parts m sums p).isSome := by
        rw [addMisses, m.get_of_le p (Nat.zero_le _), bind_some, hget, bind_some, hle]
        rfl
      obtain ⟨sums', hsums⟩ := isSome_iff_exists.mp hsome
      exact ⟨sums', hsums, trivial⟩
    obtain ⟨sums, hsums, -⟩ := run_isSome _ hstep _ trivial hall
    rw [hsums]
    rfl

end Lookahead

/-! ### Whole runs -/

namespace LookaheadPartitioner

variable {l : LookaheadPartitioner}

/-- What holds of `curAllocs` between two calls. -/
structure Kept (l : LookaheadPartitioner) (curAllocs : List Nat) : Prop where
  length_eq : curAllocs.length = l.buckets + 1
  le_budget : ∀ a ∈ curAllocs, a ≤ l.budget

structure Spends (l : LookaheadPartitioner) (allocs : List Nat) : Prop where
  least_le : ∀ p < l.numPartitions, ∃ a, allocs[p]? = some a ∧ l.minAlloc ≤ a
  sum_eq : (allocs.take l.numPartitions).sum = l.budget

theorem kept_new : Kept l l.new := by
  refine ⟨List.length_replicate, fun a ha => ?_⟩
  rw [List.eq_of_mem_replicate ha]
  exact Nat.zero_le _

section Partition

variable (hmin : l.minAlloc * l.numPartitions ≤ l.budget)
  (hfree : ∃ p < l.numPartitions, isForbidden l.forbidden p = false)
include hmin hfree

/-- `partition` returns if `curAllocs` has room for the partitions, and then gives out the minimum
of all but one of them beyond its budget. -/
theorem partition_spec {cur : List Nat} (h : Kept l cur) (m : PartitionMonitor l.budget) :
    if l.numPartitions ≤ l.buckets + 1 then
      ∃ best, l.partition cur m = some (best ++ cur.drop l.numPartitions) ∧
        Shares l.numPartitions (l.minAlloc * l.numPartitions)
          (l.budget + (l.numPartitions - 1) * (l.minAlloc * l.numPartitions)) l.budget best 0
    else l.partition cur m = none := by
  have hfit : l.budget < 2^32 := l.budget_lt
  obtain ⟨best, hbest, hshares⟩ := computeBestPartitioning_spec (m := m) hfree hfit hmin le_rfl
  have hnew := (computePartitioningTotalUtility_isSome_iff (m := m) hshares.le_limit).mpr hshares.length_eq.ge
  obtain ⟨new, hnew⟩ := isSome_iff_exists.mp hnew
  have hcur : (computePartitioningTotalUtility l.numPartitions cur m).isSome ↔ l.numPartitions ≤ l.buckets + 1 := by
    rw [computePartitioningTotalUtility_isSome_iff h.le_budget, h.length_eq]
  rw [partition, mod_eq_of_lt (hmin.trans_lt hfit), hbest, bind_some, hnew, bind_some]
  split
  · next hroom =>
    obtain ⟨util, hutil⟩ := isSome_iff_exists.mp (hcur.mpr hroom)
    exact ⟨best, by rw [hutil, map_some], hshares⟩
  · next hroom =>
    rw [not_isSome_iff_eq_none.mp (fun hs => hroom (hcur.mp hs)), Option.map_none]

theorem Kept.partition {cur cur' : List Nat} (h : Kept l cur) {m : PartitionMonitor l.budget}
    (hp : l.partition cur m = some cur') : Kept l cur' := by
  have hspec := partition_spec hmin hfree h m
  split at hspec
  · next hroom =>
    obtain ⟨best, he, hshares⟩ := hspec
    obtain rfl := some_inj.mp (hp.symm.trans he)
    constructor
    · rw [length_append, List.length_drop, hshares.length_eq, h.length_eq]
      omega
    · intro a ha
      rcases mem_append.mp ha with ha | ha
      · exact hshares.le_limit a ha
      · exact h.le_budget a (List.mem_of_mem_drop ha)
  · rw [hspec] at hp
    cases hp

/-- In every interval, whatever the curves of this and the earlier ones are: the allocations are
computed without a query beyond the budget and are right if and only if there is one partition, or
there is no minimum and room for the partitions. -/
theorem partition_spends_iff (ms : List (PartitionMonitor l.budget)) {cur : List Nat}
    (hr : run l.partition l.new ms = some cur) (m : PartitionMonitor l.budget) :
    (∃ allocs, l.partition cur m = some allocs ∧ Spends l allocs) ↔
      l.numPartitions = 1 ∨ l.minAlloc = 0 ∧ l.numPartitions ≤ l.buckets + 1 := by
  have hcur : Kept l cur :=
    run_invariant_of_step _ (fun _ _ _ h hp => h.partition hmin hfree hp) ms kept_new hr
  have hspec := partition_spec hmin hfree hcur m
  obtain ⟨p, hp, -⟩ := hfree
  constructor
  · rintro ⟨allocs, he, hspends⟩
    split at hspec
    · next hroom =>
      obtain ⟨best, he', hshares⟩ := hspec
      obtain rfl := some_inj.mp (he.symm.trans he')
      have hsum := hspends.sum_eq
      rw [hshares.take_append] at hsum
      have hextra : (l.numPartitions - 1) * (l.minAlloc * l.numPartitions) = 0 := by
        have := hshares.sum_eq
        omega
      rcases Nat.mul_eq_zero.mp hextra with hone | hzero
      · exact .inl (by omega)
      · rcases Nat.mul_eq_zero.mp hzero with hzero | hzero
        · exact .inr ⟨hzero, hroom⟩
        · omega
    · rw [hspec] at he
      cases he
  · intro hcond
    have hroom : l.numPartitions ≤ l.buckets + 1 := by
      omega
    rw [if_pos hroom] at hspec
    obtain ⟨best, he, hshares⟩ := hspec
    refine ⟨_, he, fun q hq => ?_, ?_⟩
    · obtain ⟨a, ha, hget⟩ := hshares.exists_mem hq
      have hlt : q < best.length := hshares.length_eq.symm ▸ hq
      refine ⟨a, by rw [List.getElem?_append_left hlt, hget], ?_⟩
      exact (Nat.le_mul_of_pos_right _ (by omega)).trans (hshares.least_le a ha)
    · rw [hshares.take_append]
      have hextra : (l.numPartitions - 1) * (l.minAlloc * l.numPartitions) = 0 := by
        rcases hcond with hone | ⟨hzero, -⟩
        · rw [hone, Nat.zero_mul]
        · rw [hzero, Nat.zero_mul, Nat.mul_zero]
      have := hshares.sum_eq
      omega

end Partition

theorem four_lt : (1 * (4 : Nat) : ℚ).floor.toNat < 2^32 := by decide +kernel

def twoPartitions (minAlloc : Nat) : LookaheadPartitioner := ⟨2, 4, minAlloc, 1, none, succ_pos 3, four_lt⟩

theorem partition_spends_two : ∃ allocs, (twoPartitions 0).partition (twoPartitions 0).new
    (⟨fun p b => (p + 1) * (4 - b)⟩ : PartitionMonitor (twoPartitions 0).budget) = some allocs ∧
      Spends (twoPartitions 0) allocs :=
  (partition_spends_iff (by decide +kernel) ⟨0, by decide, rfl⟩ [] rfl _).mpr (.inr ⟨rfl, by decide⟩)

/-- With the default minimum, six of four buckets are given out. -/
theorem partition_exceeds_budget : (twoPartitions 1).budget = 4 ∧
    ((twoPartitions 1).partition (twoPartitions 1).new
      (⟨fun p b => (p + 1) * (4 - b)⟩ : PartitionMonitor (twoPartitions 1).budget)).map (fun allocs => allocs.take 2) =
      some [2, 4] := by
  decide +kernel

end LookaheadPartitioner

end Shma.Cache
