import Mathlib.Data.List.Forall2
import Mathlib.Logic.Function.Basic

/-!
# The reorder buffer of the out-of-order core

`ReorderBuffer` of `ooo_core.h`, which the core also has for its load and store queues. Entries
retire in order, a limited number of them in one cycle, and an entry can be allocated when the one
in its place has retired. Cycles are naturals.
-/
namespace Shma.Core

structure ReorderBuffer where
  buf : Nat → Nat
  (curRetireCycle curCycleRetires idx : Nat)

namespace ReorderBuffer

def new : ReorderBuffer := ⟨fun _ => 0, 0, 1, 0⟩

def minAllocCycle (b : ReorderBuffer) : Nat := b.buf b.idx

/-- The cycle in which the next entry retires, and the entries counted for that cycle. -/
def retireCycle (width : Nat) (b : ReorderBuffer) (minRetireCycle : Nat) : Nat × Nat :=
  if minRetireCycle ≤ b.curRetireCycle then
    if b.curCycleRetires = width then (b.curRetireCycle + 1, 0) else (b.curRetireCycle, b.curCycleRetires + 1)
  else (minRetireCycle, 1)

def markRetire (size width : Nat) (b : ReorderBuffer) (minRetireCycle : Nat) : ReorderBuffer :=
  let (cycle, retires) := b.retireCycle width minRetireCycle
  ⟨Function.update b.buf b.idx cycle, cycle, retires, if b.idx + 1 = size then 0 else b.idx + 1⟩

/-- The buffer after the calls of `markRetire` for these cycles, and the cycles it retired the
entries in. The last call comes first in both lists. -/
def retireAll (size width : Nat) : List Nat → ReorderBuffer × List Nat
  | [] => (new, [])
  | asked :: before =>
    let (b, retired) := retireAll size width before
    let b := b.markRetire size width asked
    (b, b.curRetireCycle :: retired)

variable {size width : Nat} {b : ReorderBuffer} {retired : List Nat}

/-- The entry that `i` others came after stands so far before the next place, around the buffer. -/
def place (size idx i : Nat) : Nat := if i < idx then idx - 1 - i else size + idx - 1 - i

structure Inv (size width : Nat) (b : ReorderBuffer) (retired : List Nat) : Prop where
  idx : b.idx < size
  buf : ∀ i < size, b.buf (place size b.idx i) = retired.getD i 0
  last : ∀ c ∈ retired, c ≤ b.curRetireCycle
  room : b.curCycleRetires ≤ width
  count : retired.count b.curRetireCycle ≤ b.curCycleRetires + 1
  width : ∀ c, retired.count c ≤ width + 1

/-- The next entry does not retire before the last one, and the entries of its cycle are counted. -/
theorem Inv.retireCycle (h : Inv size width b retired) (hwidth : 0 < width) (asked : Nat) {cycle retires : Nat}
    (hr : b.retireCycle width asked = (cycle, retires)) :
    asked ≤ cycle ∧ b.curRetireCycle ≤ cycle ∧ retires ≤ width ∧ retired.count cycle ≤ retires := by
  have hcount := h.count
  have hroom := h.room
  have hnew : ∀ c, b.curRetireCycle < c → retired.count c = 0 := fun c hc =>
    List.count_eq_zero.mpr fun hmem => absurd (h.last c hmem) (Nat.not_le.mpr hc)
  simp only [ReorderBuffer.retireCycle] at hr
  split at hr
  · split at hr <;> obtain ⟨rfl, rfl⟩ := Prod.mk.inj hr
    · rw [hnew _ (Nat.lt_succ_self _)]
      omega
    · omega
  · obtain ⟨rfl, rfl⟩ := Prod.mk.inj hr
    rw [hnew _ (by omega)]
    omega

theorem Inv.markRetire (h : Inv size width b retired) (hsize : 0 < size) (hwidth : 0 < width) (asked : Nat) :
    asked ≤ (b.markRetire size width asked).curRetireCycle ∧
      (∀ c ∈ retired, c ≤ (b.markRetire size width asked).curRetireCycle) ∧
      Inv size width (b.markRetire size width asked) ((b.markRetire size width asked).curRetireCycle :: retired) := by
  cases hr : b.retireCycle width asked with
  | mk cycle retires =>
    obtain ⟨hasked, hcycle, hretires, hcount⟩ := h.retireCycle hwidth asked hr
    have hlast : ∀ c ∈ retired, c ≤ cycle := fun c hc => Nat.le_trans (h.last c hc) hcycle
    have hidx := h.idx
    simp only [ReorderBuffer.markRetire, hr]
    refine ⟨hasked, hlast, ?_, fun i hi => ?_, ?_, hretires, ?_, fun c => ?_⟩
    · show (if b.idx + 1 = size then 0 else b.idx + 1) < size
      split <;> omega
    · show Function.update b.buf b.idx cycle (place size (if b.idx + 1 = size then 0 else b.idx + 1) i) = _
      cases i with
      | zero => exact (congrArg _ (by grind [place])).trans (Function.update_self ..)
      | succ i =>
        have hplace : place size (if b.idx + 1 = size then 0 else b.idx + 1) (i + 1) = place size b.idx i := by
          grind [place]
        rw [hplace, Function.update_of_ne (by grind [place]), h.buf i (by omega), List.getD_cons_succ]
    · simpa using hlast
    · show (cycle :: retired).count cycle ≤ retires + 1
      rw [List.count_cons_self]
      omega
    · rw [List.count_cons]
      have hwidth := h.width c
      split
      · next heq =>
        rw [beq_iff_eq] at heq
        subst heq
        omega
      · omega

/-- Entries retire in order and not before they are asked to. One cycle sees one more entry than the
width at most: the count starts from zero in a cycle that is entered because the one before is full.
The place of the next entry is free when the entry `size` calls ago has retired. -/
theorem retires_in_order (hsize : 0 < size) (hwidth : 0 < width) (asked : List Nat) :
    List.Forall₂ (· ≤ ·) asked (retireAll size width asked).2 ∧
      (retireAll size width asked).2.Pairwise (· ≥ ·) ∧
      (∀ c, (retireAll size width asked).2.count c ≤ width + 1) ∧
      (retireAll size width asked).1.minAllocCycle = (retireAll size width asked).2.getD (size - 1) 0 := by
  have h : List.Forall₂ (· ≤ ·) asked (retireAll size width asked).2 ∧
      (retireAll size width asked).2.Pairwise (· ≥ ·) ∧
      Inv size width (retireAll size width asked).1 (retireAll size width asked).2 := by
    induction asked with
    | nil => exact ⟨.nil, .nil, ⟨hsize, fun _ _ => rfl, nofun, hwidth, Nat.zero_le _, fun _ => Nat.zero_le _⟩⟩
    | cons m asked ih =>
      obtain ⟨hall, hsorted, hinv⟩ := ih
      obtain ⟨hle, hlast, hinv⟩ := hinv.markRetire hsize hwidth m
      exact ⟨.cons hle hall, .cons hlast hsorted, hinv⟩
  obtain ⟨hall, hsorted, hinv⟩ := h
  refine ⟨hall, hsorted, hinv.width, ?_⟩
  have hidx := hinv.idx
  have hplace : place size (retireAll size width asked).1.idx (size - 1) = (retireAll size width asked).1.idx := by
    grind [place]
  rw [← hinv.buf (size - 1) (Nat.sub_lt hsize Nat.one_pos), hplace]
  rfl

/-- Two entries in one cycle, with width one. -/
theorem retires_in_order_two : (retireAll 2 1 [0, 0, 5]).2 = [6, 6, 5] ∧
    List.Forall₂ (· ≤ ·) [0, 0, 5] (retireAll 2 1 [0, 0, 5]).2 :=
  ⟨rfl, (retires_in_order Nat.two_pos Nat.one_pos [0, 0, 5]).1⟩

end ReorderBuffer

end Shma.Core
