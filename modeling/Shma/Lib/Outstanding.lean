import Mathlib.Data.Fintype.Basic

/-!
# Outstanding requests

A protocol that issues at most one request for each of finitely many roles: the
requests that are outstanding are those of the roles that are marked. When one
completes its role is no longer marked.
-/
namespace Shma.Lib

open Finset (mem_filter univ)
open Function (update)

variable {ι α : Type*} [Fintype ι]

/-- The requests of the roles that are marked. -/
def outstanding (r : ι → α) (out : ι → Bool) : Multiset α := (univ.filter fun i => out i = true).val.map r

variable {r r' : ι → α} {out out' : ι → Bool} {q : α} {i : ι}

theorem mem_outstanding : q ∈ outstanding r out ↔ ∃ i, out i = true ∧ q = r i := by
  rw [outstanding, Multiset.mem_map]
  constructor
  · rintro ⟨i, hi, rfl⟩
    exact ⟨i, (mem_filter.mp hi).2, rfl⟩
  · rintro ⟨i, hi, rfl⟩
    exact ⟨i, mem_filter.mpr ⟨Finset.mem_univ i, hi⟩, rfl⟩

theorem outstanding_eq_zero : outstanding r out = 0 ↔ ∀ i, out i = false := by
  rw [Multiset.eq_zero_iff_forall_notMem]
  constructor
  · intro h i
    rw [Bool.eq_false_iff]
    exact fun hi => h (r i) (mem_outstanding.mpr ⟨i, hi, rfl⟩)
  · intro h q hq
    obtain ⟨i, hi, _⟩ := mem_outstanding.mp hq
    rw [h i] at hi
    cases hi

theorem outstanding_congr (h : ∀ i, out i = true → r i = r' i) : outstanding r out = outstanding r' out :=
  Multiset.map_congr rfl fun i hi => h i (mem_filter.mp hi).2

theorem cons_outstanding [DecidableEq ι] (h : out i = false) :
    r i ::ₘ outstanding r out = outstanding r (update out i true) := by
  have hset : (univ.filter fun j => update out i true j = true) =
      (univ.filter fun j => out j = true).cons i (by simp [h]) := by
    ext j
    by_cases hj : j = i
    · simp [hj]
    · simp [hj]
  rw [outstanding, outstanding, hset, Finset.cons_val, Multiset.map_cons]

theorem outstanding_erase [DecidableEq ι] [DecidableEq α] (h : out i = true) :
    (outstanding r out).erase (r i) = outstanding r (update out i false) := by
  have hback : update (update out i false) i true = out := by
    rw [Function.update_idem, ← h, Function.update_eq_self]
  rw [← Multiset.erase_cons_head (r i) (outstanding r (update out i false)),
    cons_outstanding (Function.update_self ..), hback]

theorem outstanding_add (h : ∀ i, out i = true → out' i = false) :
    outstanding r out + outstanding r out' = outstanding r fun i => out i || out' i := by
  have hdisj : Disjoint (univ.filter fun i => out i = true) (univ.filter fun i => out' i = true) := by
    rw [Finset.disjoint_filter]
    intro i _ hi hi'
    rw [h i hi] at hi'
    cases hi'
  have hset : (univ.filter fun i => (out i || out' i) = true) =
      (univ.filter fun i => out i = true).disjUnion (univ.filter fun i => out' i = true) hdisj := by
    ext i
    simp
  rw [outstanding, outstanding, outstanding, hset, ← Multiset.map_add]
  rfl

end Shma.Lib
