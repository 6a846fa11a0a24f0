import Mathlib.Data.List.Rotate
import Mathlib.Data.Nat.Find

/-!
# Counting around

The numbers below a bound, read around from any of them, are these numbers again in
another order. A search that counts around ends if one of them meets its condition, and
then after one round at most.
-/
namespace Shma.Lib.Rotation

def rotation (n k : Nat) : List Nat := (List.range n).map fun i => (k + i) % n

theorem rotation_eq_rotate (n k : Nat) : rotation n k = (List.range n).rotate k := by
  apply List.ext_getElem
  · rw [rotation, List.length_map, List.length_rotate]
  · intro i hi hi'
    simp only [rotation, List.getElem_map, List.getElem_range, List.getElem_rotate, List.length_range, Nat.add_comm]

theorem rotation_perm (n k : Nat) : (rotation n k).Perm (List.range n) := by
  rw [rotation_eq_rotate]
  exact List.rotate_perm _ _

theorem nodup_rotation (n k : Nat) : (rotation n k).Nodup := (rotation_perm n k).nodup_iff.mpr List.nodup_range

theorem mem_rotation {n k p : Nat} : p ∈ rotation n k ↔ p < n := by
  rw [(rotation_perm n k).mem_iff, List.mem_range]

/-! ### Searching around -/

section Search

variable (n : Nat) (skip : Nat → Prop) [DecidablePred skip]

/-- Counts around from `k` as long as numbers are skipped; the result says how many were. -/
def search : Nat → Nat → Option Nat
  | 0, _ => none
  | fuel + 1, k => if skip (k % n) then (search fuel (k + 1)).map (· + 1) else some 0

variable {n skip} {fuel k j : Nat}

theorem search_eq_some_iff :
    search n skip fuel k = some j ↔ j < fuel ∧ ¬ skip ((k + j) % n) ∧ ∀ i < j, skip ((k + i) % n) := by
  induction fuel generalizing k j with
  | zero => simp [search]
  | succ fuel ih =>
    rw [search]
    by_cases hskip : skip (k % n)
    · rw [if_pos hskip, Option.map_eq_some_iff]
      constructor
      · rintro ⟨j, hj, rfl⟩
        obtain ⟨hlt, hstop, hbefore⟩ := ih.mp hj
        rw [Nat.add_right_comm] at hstop
        refine ⟨Nat.succ_lt_succ hlt, hstop, fun i hi => ?_⟩
        cases i with
        | zero => exact hskip
        | succ i =>
          rw [← Nat.add_assoc, Nat.add_right_comm]
          exact hbefore i (Nat.lt_of_succ_lt_succ hi)
      · rintro ⟨hlt, hstop, hbefore⟩
        cases j with
        | zero => exact absurd hskip hstop
        | succ j =>
          refine ⟨j, ih.mpr ⟨Nat.lt_of_succ_lt_succ hlt, ?_, fun i hi => ?_⟩, rfl⟩
          · rw [Nat.add_right_comm]
            exact hstop
          · rw [Nat.add_right_comm]
            exact hbefore (i + 1) (Nat.succ_lt_succ hi)
    · rw [if_neg hskip]
      constructor
      · intro hj
        cases hj
        exact ⟨Nat.succ_pos fuel, hskip, fun i hi => absurd hi (Nat.not_lt_zero i)⟩
      · rintro ⟨-, -, hbefore⟩
        cases j with
        | zero => rfl
        | succ j => exact absurd (hbefore 0 (Nat.succ_pos j)) hskip

theorem lt_of_search (hn : 0 < n) (h : search n skip fuel k = some j) : j < n := by
  obtain ⟨-, hstop, hbefore⟩ := search_eq_some_iff.mp h
  by_contra hge
  obtain ⟨i, rfl⟩ := Nat.exists_eq_add_of_le (Nat.le_of_not_lt hge)
  rw [Nat.add_comm n i, ← Nat.add_assoc, Nat.add_mod_right] at hstop
  exact hstop (hbefore i (by omega))

theorem search_isSome (h : ∃ x < n, ¬ skip x) (k : Nat) : (search n skip n k).isSome := by
  obtain ⟨x, hx, hstop⟩ := h
  obtain ⟨i, hi, rfl⟩ := List.mem_map.mp (mem_rotation.mpr hx : x ∈ rotation n k)
  have hex : ∃ i, ¬ skip ((k + i) % n) := ⟨i, hstop⟩
  have hlt : Nat.find hex < n := (Nat.find_le hstop).trans_lt (List.mem_range.mp hi)
  have hfound : search n skip n k = some (Nat.find hex) :=
    search_eq_some_iff.mpr ⟨hlt, Nat.find_spec hex, fun i hi => not_not.mp (Nat.find_min hex hi)⟩
  rw [hfound]
  rfl

theorem exists_search_iff (hn : 0 < n) (k : Nat) : (∃ fuel, (search n skip fuel k).isSome) ↔ ∃ x < n, ¬ skip x := by
  constructor
  · rintro ⟨fuel, h⟩
    obtain ⟨j, hj⟩ := Option.isSome_iff_exists.mp h
    exact ⟨(k + j) % n, Nat.mod_lt _ hn, (search_eq_some_iff.mp hj).2.1⟩
  · exact fun h => ⟨n, search_isSome h k⟩

end Search

end Shma.Lib.Rotation
