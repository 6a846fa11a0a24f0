import Mathlib.Data.List.Basic

/-!
# Recency by a counter

Every use stamps an element with the next value of a counter. As long as the counter
does not wrap around, the element with the smallest stamp is the one whose last use
was the earliest.
-/
namespace Shma.Lib.Recency

variable {ι : Type*} [DecidableEq ι]

/-- `uses` are the uses so far, the latest first; each element used bears the number of
its last use. -/
def Stamped (uses : List ι) (stamp : ι → Nat) : Prop := ∀ i ∈ uses, stamp i + uses.idxOf i = uses.length

/-- Of all elements that live, `i` is the one whose last use is the oldest. -/
structure Oldest (uses : List ι) (live : ι → Prop) (i : ι) : Prop where
  used : i ∈ uses
  alive : live i
  before : ∀ j, live j → j ≠ i → uses.idxOf j < uses.idxOf i

variable {uses : List ι} {stamp stamp' : ι → Nat} {live : ι → Prop} {i j : ι}

theorem stamped_nil (stamp : ι → Nat) : Stamped [] stamp := fun _ h => nomatch h

theorem Stamped.use (h : Stamped uses stamp) (hi : stamp' i = uses.length + 1)
    (hother : ∀ j ∈ uses, j ≠ i → stamp' j = stamp j) : Stamped (i :: uses) stamp' := by
  intro j hj
  by_cases hji : j = i
  · rw [hji, List.idxOf_cons_self, hi]
    rfl
  · have hmem := (List.mem_cons.mp hj).resolve_left hji
    have hj := h j hmem
    rw [List.idxOf_cons_ne uses (Ne.symm hji), hother j hmem hji, List.length_cons]
    omega

theorem Stamped.oldest (h : Stamped uses stamp) (hused : ∀ j, live j → j ∈ uses) (hi : live i)
    (hmin : ∀ j, live j → stamp i ≤ stamp j) : Oldest uses live i := by
  refine ⟨hused i hi, hi, fun j hj hne => ?_⟩
  have hsi := h i (hused i hi)
  have hsj := h j (hused j hj)
  have hle := hmin j hj
  have hidx : uses.idxOf j ≠ uses.idxOf i := fun he => hne ((List.idxOf_inj (hused j hj)).mp he)
  omega

/-! ### Lists in the order of use -/

/-- The `k` elements used last, the latest first, after a use of `i`. -/
def touch (k : Nat) (last : List ι) (i : ι) : List ι := (i :: last.erase i).take k

theorem take_erase_take (i : ι) (last : List ι) (k : Nat) :
    ((last.take (k + 1)).erase i).take k = (last.erase i).take k := by
  induction last generalizing k with
  | nil => rfl
  | cons j last ih =>
    rw [List.take_succ_cons]
    by_cases hj : j = i
    · subst hj
      rw [List.erase_cons_head, List.erase_cons_head, List.take_take, Nat.min_self]
    · rw [List.erase_cons_tail (by simpa using hj), List.erase_cons_tail (by simpa using hj)]
      cases k with
      | zero => rfl
      | succ k => rw [List.take_succ_cons, List.take_succ_cons, ih]

theorem touch_take {k m : Nat} (hk : k ≤ m) (last : List ι) (i : ι) :
    touch k (last.take k) i = (touch m last i).take k := by
  rw [touch, touch, List.take_take, Nat.min_eq_left hk]
  cases k with
  | zero => rfl
  | succ k => rw [List.take_succ_cons, List.take_succ_cons, take_erase_take]

theorem mem_take_iff {k : Nat} {last : List ι} (hk : k ≤ last.length) : i ∈ last.take k ↔ last.idxOf i < k := by
  by_cases hi : i ∈ last
  · exact List.mem_take_iff_idxOf_lt hi
  · rw [List.idxOf_of_notMem hi]
    exact iff_of_false (fun hmem => hi (List.mem_of_mem_take hmem)) (Nat.not_lt.mpr hk)

theorem length_touch {k : Nat} {last : List ι} (hk : 0 < k) (hlen : last.length = k) : (touch k last i).length = k := by
  rw [touch, List.length_take, List.length_cons, List.length_erase]
  split <;> omega

end Shma.Lib.Recency
