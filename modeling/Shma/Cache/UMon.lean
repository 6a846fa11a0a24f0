import Shma.Common.Const
import Shma.Lib.Recency

/-!
# The utility monitor

`UMon` of `utility_monitor.cpp`, which the partitioner reads utilities from. It keeps the lines of
each set in order of their last use, for a sample of the accesses, and counts the hits at every
position. Against it stand plain LRU caches, one for each number of buckets. Counts are naturals.
-/
namespace Shma.Cache

open Lib.Recency

/-- `hash i` is the function `i` of the hash family. -/
structure UMonShape where
  (bankLines umonLines buckets : Nat)
  hash : Nat → Address → Nat
  buckets_pos : 0 < buckets

namespace UMonShape

variable (g : UMonShape)

def samplingFactorBits : Nat := Nat.log2 (g.bankLines / g.umonLines)

def setsBits : Nat := Nat.log2 (g.umonLines / g.buckets)

def sampleSel (lineAddr : Address) : Nat := g.hash 0 lineAddr &&& (2^g.samplingFactorBits - 1)

def set (lineAddr : Address) : Nat := g.hash 1 lineAddr &&& (2^g.setsBits - 1)

end UMonShape

/-- `nodes` are the lines of the sets, from their heads on. -/
structure UMon where
  nodes : Nat → List Address
  curWayHits : Nat → Nat
  curMisses : Nat

inductive UMonOp where
  | access (lineAddr : Address)
  | startNextInterval

namespace UMon

variable (g : UMonShape) (u : UMon)

def new : UMon := ⟨fun _ => List.replicate g.buckets 0, fun _ => 0, 0⟩

def access (lineAddr : Address) : UMon :=
  if g.sampleSel lineAddr ≠ 0 then u
  else
    let nodes := u.nodes (g.set lineAddr)
    let b := nodes.idxOf lineAddr
    if b < nodes.length then
      { u with
        nodes := update u.nodes (g.set lineAddr) (lineAddr :: nodes.eraseIdx b)
        curWayHits := update u.curWayHits b (u.curWayHits b + 1) }
    else
      -- the last node is taken for the line
      { u with
        nodes := update u.nodes (g.set lineAddr) (lineAddr :: nodes.dropLast)
        curMisses := u.curMisses + 1 }

/-- `total` in the loop of `getMisses`, after `i` rounds. -/
def total (g : UMonShape) (u : UMon) : Nat → Nat
  | 0 => u.curMisses
  | i + 1 => u.total g i + u.curWayHits (g.buckets - i - 1)

def getMisses (b : Nat) : Nat := u.total g (g.buckets - b)

def step : UMonOp → UMon
  | .access lineAddr => u.access g lineAddr
  | .startNextInterval => { u with curMisses := 0, curWayHits := fun _ => 0 }

end UMon

/-- An LRU cache of `k` ways that sees the sampled accesses, and its misses in the interval. -/
structure LruCache where
  sets : Nat → List Address
  misses : Nat

namespace LruCache

def new (k : Nat) : LruCache := ⟨fun _ => List.replicate k 0, 0⟩

def step (g : UMonShape) (k : Nat) (c : LruCache) : UMonOp → LruCache
  | .access lineAddr =>
    if g.sampleSel lineAddr ≠ 0 then c
    else
      let lines := c.sets (g.set lineAddr)
      ⟨update c.sets (g.set lineAddr) (touch k lines lineAddr), if lineAddr ∈ lines then c.misses else c.misses + 1⟩
  | .startNextInterval => { c with misses := 0 }

end LruCache

namespace UMon

variable {g : UMonShape} {u : UMon} {c : LruCache} {k : Nat}

/-- The cache holds what the monitor has used last, and has missed what the monitor says. -/
structure Agrees (g : UMonShape) (k : Nat) (u : UMon) (c : LruCache) : Prop where
  length : ∀ n, (u.nodes n).length = g.buckets
  sets : ∀ n, c.sets n = (u.nodes n).take k
  misses : u.getMisses g k = c.misses

theorem total_hit {b : Nat} (hb : b < g.buckets) {i : Nat} (hi : i ≤ g.buckets) {hits : Nat → Nat}
    (hhits : hits = update u.curWayHits b (u.curWayHits b + 1)) (nodes : Nat → List Address) :
    total g ⟨nodes, hits, u.curMisses⟩ i = u.total g i + if g.buckets - i ≤ b then 1 else 0 := by
  induction i with
  | zero =>
    rw [if_neg (by omega)]
    rfl
  | succ i ih =>
    rw [total, ih (by omega), total, hhits]
    dsimp only
    by_cases heq : g.buckets - i - 1 = b
    · subst heq
      rw [update_self, if_neg (by omega), if_pos (by omega)]
      omega
    · rw [update_of_ne heq]
      split <;> split <;> omega

theorem total_miss (nodes : Nat → List Address) (i : Nat) :
    total g ⟨nodes, u.curWayHits, u.curMisses + 1⟩ i = u.total g i + 1 := by
  induction i with
  | zero => rfl
  | succ i ih =>
    rw [total, ih]
    exact Nat.add_right_comm ..

/-- An access puts its line first, and counts as a miss for the numbers of buckets up to the place
of the line. -/
theorem access_spec (hlen : ∀ n, (u.nodes n).length = g.buckets) {a : Address} (hs : g.sampleSel a = 0)
    (hk : k ≤ g.buckets) :
    (u.access g a).nodes = update u.nodes (g.set a) (touch g.buckets (u.nodes (g.set a)) a) ∧
      (u.access g a).getMisses g k = u.getMisses g k + if (u.nodes (g.set a)).idxOf a < k then 0 else 1 := by
  have hpos := g.buckets_pos
  have hn := hlen (g.set a)
  simp only [access, hs, ne_eq, not_true_eq_false, if_false, touch]
  split
  · next hlt =>
    have hmem := List.idxOf_lt_length_iff.mp hlt
    refine ⟨?_, ?_⟩
    · rw [List.take_of_length_le, List.erase_eq_eraseIdx_of_idxOf rfl]
      rw [length_cons, List.length_erase_of_mem hmem]
      omega
    · rw [getMisses, total_hit (by omega) (Nat.sub_le ..) rfl]
      congr 1
      split <;> split <;> omega
  · next hge =>
    have hmem := mt List.idxOf_lt_length_iff.mpr hge
    refine ⟨?_, ?_⟩
    · rw [List.erase_of_not_mem hmem, List.dropLast_eq_take, hn, ← List.take_succ_cons, Nat.sub_add_cancel hpos]
    · rw [getMisses, total_miss, if_neg (by omega)]
      rfl

theorem total_zero (nodes : Nat → List Address) (i : Nat) : total g ⟨nodes, fun _ => 0, 0⟩ i = 0 := by
  induction i with
  | zero => rfl
  | succ i ih =>
    rw [total, ih]
    rfl

theorem Agrees.step (h : Agrees g k u c) (hk : k ≤ g.buckets) (op : UMonOp) :
    Agrees g k (u.step g op) (c.step g k op) := by
  cases op with
  | startNextInterval => exact ⟨h.length, h.sets, total_zero ..⟩
  | access a =>
    by_cases hs : g.sampleSel a = 0
    · obtain ⟨hnodes, hmiss⟩ := access_spec h.length hs hk
      have hmem : a ∈ c.sets (g.set a) ↔ (u.nodes (g.set a)).idxOf a < k := by
        rw [h.sets, mem_take_iff (by rwa [h.length])]
      simp only [UMon.step, LruCache.step, hs, ne_eq, not_true_eq_false, if_false]
      refine ⟨fun n => ?_, fun n => ?_, ?_⟩
      · rw [hnodes]
        by_cases hn : n = g.set a
        · rw [hn, update_self, length_touch g.buckets_pos (h.length _)]
        · rw [update_of_ne hn, h.length]
      · rw [hnodes]
        show update c.sets (g.set a) (touch k (c.sets (g.set a)) a) n = _
        by_cases hn : n = g.set a
        · rw [hn, update_self, update_self, h.sets, touch_take hk]
        · rw [update_of_ne hn, update_of_ne hn, h.sets]
      · rw [hmiss, h.misses]
        simp only [hmem]
        split <;> rfl
    · simp only [UMon.step, LruCache.step, access, hs, ne_eq, not_false_eq_true, if_true]
      exact h

/-- In every interval, whatever was accessed before, the misses that the monitor reports for a
number of buckets are those of an LRU cache with so many ways. -/
theorem getMisses_eq (g : UMonShape) (hk : k ≤ g.buckets) (ops : List UMonOp) :
    (ops.foldl (step g) (new g)).getMisses g k = (ops.foldl (LruCache.step g k) (.new k)).misses := by
  have hrun : ∀ u c, Agrees g k u c → Agrees g k (ops.foldl (step g) u) (ops.foldl (LruCache.step g k) c) := by
    induction ops with
    | nil => exact fun u c h => h
    | cons op ops ih => exact fun u c h => ih _ _ (h.step hk op)
  refine (hrun (new g) (.new k) ⟨fun _ => List.length_replicate, fun _ => ?_, total_zero ..⟩).misses
  show List.replicate k 0 = (List.replicate g.buckets 0).take k
  rw [List.take_replicate, Nat.min_eq_left hk]

/-- With two of three ways only the last access finds its line. -/
theorem getMisses_eq_two : let g : UMonShape := ⟨3, 3, 3, fun _ _ => 0, succ_pos 2⟩
    (([5, 6, 7, 5, 7].map .access).foldl (step g) (new g)).getMisses g 2 = 4 :=
  getMisses_eq ⟨3, 3, 3, fun _ _ => 0, succ_pos 2⟩ (by decide) _

end UMon

end Shma.Cache
